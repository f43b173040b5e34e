import Os1Kernel.Threads.Lists
import Os1Kernel.Heap.Cells

/-! Lists of threads are double-ended queues, in any order of the operations on any of them. -/

namespace Os1Kernel

open Memory Linked

/-- An operation on the list at `l`. -/
inductive DequeOp
  | addFirst (l t : Nat)
  | addLast (l t : Nat)
  | takeFirst (l : Nat)
  | takeLast (l : Nat)

namespace DequeOp

def list : DequeOp → Nat
  | addFirst l _ => l
  | addLast l _ => l
  | takeFirst l => l
  | takeLast l => l

/-- The thread that is added, or null. -/
def added : DequeOp → Nat
  | addFirst _ t => t
  | addLast _ t => t
  | takeFirst _ => 0
  | takeLast _ => 0

/-- The source's operation, with what it returns. -/
def prog : DequeOp → Kernel Nat
  | addFirst l t => do
    ListTCB.addFirst l t
    pure 0
  | addLast l t => do
    ListTCB.addLast l t
    pure 0
  | takeFirst l => ListTCB.takeFirst l
  | takeLast l => ListTCB.takeLast l

/-- The operation on the sequence. -/
def apply : DequeOp → List Nat → Nat × List Nat
  | addFirst _ t, xs => (0, if t = 0 then xs else t :: xs)
  | addLast _ t, xs => (0, if t = 0 then xs else xs ++ [t])
  | takeFirst _, xs => (xs.headD 0, xs.tail)
  | takeLast _, xs => (xs.getLastD 0, xs.dropLast)

/-- The sequences of all lists after the operation. -/
def next (o : DequeOp) (D : Nat → List Nat) : Nat → List Nat :=
  Function.update D o.list (o.apply (D o.list)).2

/-- The operation is on one of the lists, and adds nothing or one of the threads that is in no
list. -/
def Allowed (lists tcbs : List Nat) (D : Nat → List Nat) (o : DequeOp) : Prop :=
  o.list ∈ lists ∧ (o.added = 0 ∨ o.added ∈ tcbs ∧ ∀ l ∈ lists, o.added ∉ D l)

end DequeOp

/-- Lists and threads in memory, apart from each other. -/
structure ListsApart (lists tcbs : List Nat) : Prop where
  inside : ∀ t ∈ tcbs, 0 < t ∧ t < 2 ^ 64
  pos : ∀ l ∈ lists, 0 < l
  apartTcbs : ∀ t ∈ tcbs, ∀ u ∈ tcbs, t ≠ u → Apart t 360 u 360
  apartLists : ∀ l ∈ lists, ∀ k ∈ lists, l ≠ k → Apart l 16 k 16
  apart : ∀ t ∈ tcbs, ∀ l ∈ lists, Apart t 360 l 16

/-- The memories that any order of operations leads to from empty lists, and what a deque for each
list holds then. -/
inductive DequeRun (lists tcbs : List Nat) : Mem → Globals → (Nat → List Nat) → Prop
  | start (m : Mem) (g : Globals)
      (h : ∀ l ∈ lists, m.field l Field.head = 0 ∧ m.field l Field.tail = 0) :
      DequeRun lists tcbs m g fun _ => []
  | step {m m' : Mem} {g g' : Globals} {D : Nat → List Nat} {r : Nat} (o : DequeOp)
      (h : DequeRun lists tcbs m g D) (hok : o.Allowed lists tcbs D)
      (hrun : o.prog.run m g = .done r m' g') : DequeRun lists tcbs m' g' (o.next D)

/-- The walks along the links visit the threads of the list in order, and end. -/
structure IsDeque (m : Mem) (l : Nat) (xs : List Nat) : Prop where
  ends : m.field l Field.head = 0 ↔ m.field l Field.tail = 0
  forward : Walk (fun a => m.field a Field.next) 0 (m.field l Field.head) xs
  backward : Walk (fun a => m.field a Field.prev) 0 (m.field l Field.tail) xs.reverse
  nodup : xs.Nodup

variable {lists tcbs : List Nat} {m m' : Mem} {g g' : Globals} {D : Nat → List Nat} {o : DequeOp}

theorem IsList.isDeque {l : Nat} {xs : List Nat} (h : IsList m.view l xs) : IsDeque m l xs := by
  have hz {x : Nat} (hx : x ∈ xs) : x ≠ 0 := fun h0 => h.zero_notMem (h0 ▸ hx)
  refine ⟨?_, ?_, ?_, h.nodup⟩
  · have hhead := @IsList.firstOf_eq_zero _ _ [] _ h
    have htail := @IsList.lastOf_eq_zero _ _ xs [] (by simpa using h)
    rw [← h.head_eq] at hhead
    rw [← h.tail_eq] at htail
    exact hhead.trans htail.symm
  · exact h.ring.walk.congr fun x hx => (if_neg (hz hx)).symm
  · exact h.ring.reverse.walk.congr fun x hx =>
      (if_neg (hz (List.mem_reverse.mp hx))).symm

/-- The objects that the operations use. -/
def listObjs (lists tcbs : List Nat) : Obj → Prop
  | .list l => l ∈ lists
  | .tcb t => t ∈ tcbs
  | _ => False

theorem listObjs_separate (B : HeapBounds) (h : ListsApart lists tcbs) :
    Separate (Obj.own B (listObjs lists tcbs)) := by
  refine Obj.separate (fun o o' ho ho' hne => ?_) fun o ho => ?_
  · cases o with
    | list l =>
      cases o' with
      | list k => exact h.apartLists l ho k ho' fun hlk => hne (by rw [hlk])
      | tcb t => exact (h.apart t ho' l ho).symm
      | entry _ => exact ho'.elim
      | header _ => exact ho'.elim
      | sem _ => exact ho'.elim
    | tcb t =>
      cases o' with
      | list k => exact h.apart t ho k ho'
      | tcb u => exact h.apartTcbs t ho u ho' fun htu => hne (by rw [htu])
      | entry _ => exact ho'.elim
      | header _ => exact ho'.elim
      | sem _ => exact ho'.elim
    | entry _ => exact ho.elim
    | header _ => exact ho.elim
    | sem _ => exact ho.elim
  · cases o with
    | list l => exact h.pos l ho
    | tcb t => exact (h.inside t ho).1
    | entry _ => exact ho.elim
    | header _ => exact ho.elim
    | sem _ => exact ho.elim

/-! ### One operation -/

theorem IsList.of_sim {O : Nat → Field → Prop} {v : Cells} {l : Nat} {xs : List Nat}
    (h : IsList v l xs) (hs : Sim O m v) (hl : ListCells O l) (hx : ∀ x ∈ xs, LinkCells O x) :
    IsList m.view l xs :=
  h.congr ⟨hs _ _ hl.head, hs _ _ hl.tail⟩ fun x hm => ⟨hs _ _ (hx x hm).next, hs _ _ (hx x hm).prev⟩

theorem LinksOnly.mono {v v' : Cells} {l : Nat} {xs ys : List Nat} (h : LinksOnly l xs v v')
    (hsub : ∀ x ∈ xs, x ∈ ys) : LinksOnly l ys v v' :=
  fun a f hl hx => h a f hl fun hm => hx ⟨hsub a hm.1, hm.2⟩

section Operation

variable {O : Nat → Field → Prop} {v : Cells} {xs : List Nat} {Q : Nat → Cells → Globals → Prop}
  {T : Switch → Kernel Nat → Cells → Globals → Prop}

/-- Null is never added. -/
theorem IsList.wp_addNull (hl : ListCells O o.list) (h0 : o.added = 0)
    (hadd : ∀ l, o ≠ .takeFirst l ∧ o ≠ .takeLast l) (hQ : Q 0 v g) : o.prog.wp O v g Q T := by
  cases o with
  | addFirst l t =>
    obtain rfl : t = 0 := h0
    have hh : O l .head := hl.head
    simp [DequeOp.prog, ListTCB.addFirst, ListTCB.setFirst, ListTCB.isEmpty, hh]
    split <;> simp [hh, hQ]
  | addLast l t =>
    obtain rfl : t = 0 := h0
    have hh : O l .head := hl.head
    simp [DequeOp.prog, ListTCB.addLast, ListTCB.setFirst, ListTCB.isEmpty, hh]
    split <;> simp [hh, hQ]
  | takeFirst l => exact absurd rfl (hadd l).1
  | takeLast l => exact absurd rfl (hadd l).2

/-- What an operation does to its list. -/
theorem IsList.wp_deque (h : IsList v o.list xs) (hl : ListCells O o.list)
    (hown : ∀ x ∈ xs, LinkCells O x)
    (hadd : o.added = 0 ∨ o.added ∉ xs ∧ o.added < 2 ^ 64 ∧ LinkCells O o.added)
    (hQ : ∀ v', LinksOnly o.list (o.added :: xs) v v' → IsList v' o.list (o.apply xs).2 →
      ((o.apply xs).1 ≠ 0 → v' (o.apply xs).1 .next = 0 ∧ v' (o.apply xs).1 .prev = 0) →
      Q (o.apply xs).1 v' g) : o.prog.wp O v g Q T := by
  have hsame : LinksOnly o.list (o.added :: xs) v v := fun _ _ _ _ => rfl
  have hall {t : Nat} (hc : LinkCells O t) : ∀ x ∈ t :: xs, LinkCells O x := fun x hx => by
    rcases List.mem_cons.mp hx with rfl | hx
    · exact hc
    · exact hown x hx
  cases o with
  | addFirst l t =>
    by_cases h0 : t = 0
    · subst h0
      exact wp_addNull hl rfl (by simp) (hQ v hsame h (by simp [DequeOp.apply]))
    · obtain ⟨hm, hlt, hc⟩ := hadd.resolve_left h0
      simp only [DequeOp.prog, Prog.wp_bind, Prog.wp_pure]
      refine h.wp_addFirst h0 hm hlt hl (hall hc) fun v' hlinks h' => ?_
      exact hQ v' hlinks (by simpa [DequeOp.apply, h0] using h') (by simp [DequeOp.apply])
  | addLast l t =>
    by_cases h0 : t = 0
    · subst h0
      exact wp_addNull hl rfl (by simp) (hQ v hsame h (by simp [DequeOp.apply]))
    · obtain ⟨hm, hlt, hc⟩ := hadd.resolve_left h0
      simp only [DequeOp.prog, Prog.wp_bind, Prog.wp_pure]
      refine h.wp_addLast h0 hm hlt hl (hall hc) fun v' hlinks h' => ?_
      exact hQ v' hlinks (by simpa [DequeOp.apply, h0] using h') (by simp [DequeOp.apply])
  | takeFirst l =>
    cases xs with
    | nil => exact h.wp_takeFirst_nil hl (hQ v hsame h (by simp [DequeOp.apply]))
    | cons t xs =>
      refine h.wp_takeFirst hl hown fun v' hlinks h' hn hv => ?_
      exact hQ v' (hlinks.mono fun x hx => List.mem_cons_of_mem _ hx) h' fun _ => ⟨hn, hv⟩
  | takeLast l =>
    rcases List.eq_nil_or_concat xs with rfl | ⟨init, t, rfl⟩
    · exact h.wp_takeLast_nil hl (hQ v hsame h (by simp [DequeOp.apply]))
    · rw [List.concat_eq_append] at h hown hQ
      refine h.wp_takeLast hl hown fun v' hlinks h' hn hv => ?_
      have happly : DequeOp.apply (.takeLast l) (init ++ [t]) = (t, init) := by simp [DequeOp.apply]
      rw [happly] at hQ
      exact hQ v' (hlinks.mono fun x hx => List.mem_cons_of_mem _ hx) h' fun _ => ⟨hn, hv⟩

end Operation

/-! ### Runs -/

/-- Memory holds the deques, and no thread is in two of them. -/
structure DequesInv (lists tcbs : List Nat) (m : Mem) (D : Nat → List Nat) : Prop where
  list : ∀ l ∈ lists, IsList m.view l (D l)
  sub : ∀ l ∈ lists, ∀ x ∈ D l, x ∈ tcbs
  apart : ∀ l ∈ lists, ∀ k ∈ lists, l ≠ k → ∀ x ∈ D l, x ∉ D k

namespace DequesInv

theorem mem_apply {o : DequeOp} {xs : List Nat} {x : Nat} (hx : x ∈ (o.apply xs).2) :
    x = o.added ∧ o.added ≠ 0 ∨ x ∈ xs := by
  cases o with
  | addFirst l t =>
    by_cases h0 : t = 0
    · exact .inr (by simpa [DequeOp.apply, h0] using hx)
    · rcases (by simpa [DequeOp.apply, h0] using hx : x = t ∨ x ∈ xs) with rfl | hx
      · exact .inl ⟨rfl, h0⟩
      · exact .inr hx
  | addLast l t =>
    by_cases h0 : t = 0
    · exact .inr (by simpa [DequeOp.apply, h0] using hx)
    · rcases (by simpa [DequeOp.apply, h0] using hx : x ∈ xs ∨ x = t) with hx | rfl
      · exact .inr hx
      · exact .inl ⟨rfl, h0⟩
  | takeFirst l => exact .inr (List.mem_of_mem_tail hx)
  | takeLast l => exact .inr ((List.dropLast_sublist _).subset hx)

theorem taken_mem {o : DequeOp} {xs : List Nat} (h0 : (o.apply xs).1 ≠ 0) : (o.apply xs).1 ∈ xs := by
  cases o with
  | addFirst l t => exact absurd rfl h0
  | addLast l t => exact absurd rfl h0
  | takeFirst l =>
    cases xs with
    | nil => exact absurd rfl h0
    | cons x xs => exact List.mem_cons_self
  | takeLast l =>
    rcases List.eq_nil_or_concat xs with rfl | ⟨init, t, rfl⟩
    · exact absurd rfl h0
    · simp [DequeOp.apply]

theorem mem_next {o : DequeOp} {l x : Nat} (hx : x ∈ o.next D l) :
    (l = o.list ∧ x = o.added ∧ o.added ≠ 0) ∨ x ∈ D l := by
  by_cases hl : l = o.list
  · rw [DequeOp.next, hl, Function.update_self] at hx
    rw [hl]
    exact (mem_apply hx).imp_left fun h => ⟨rfl, h⟩
  · rw [DequeOp.next, Function.update_of_ne hl] at hx
    exact .inr hx

/-- An operation does what it does to the deque of its list, and changes no other list and none of
the threads that it does not find there. -/
theorem step (hp : ListsApart lists tcbs) (h : DequesInv lists tcbs m D)
    (hok : o.Allowed lists tcbs D) : ∃ m', o.prog.run m g = .done (o.apply (D o.list)).1 m' g ∧
      DequesInv lists tcbs m' (o.next D) ∧
      ((o.apply (D o.list)).1 ≠ 0 → m'.field (o.apply (D o.list)).1 Field.next = 0 ∧
        m'.field (o.apply (D o.list)).1 Field.prev = 0) ∧
      (∀ l ∈ lists, l ≠ o.list → m'.field l Field.head = m.field l Field.head ∧
        m'.field l Field.tail = m.field l Field.tail) ∧
      ∀ x ∈ tcbs, x ≠ o.added → x ∉ D o.list → ∀ f : Field, f.ofTcb = true →
        m'.field x f = m.field x f := by
  obtain ⟨hl, hadd⟩ := hok
  let O := Obj.own smallHeap (listObjs lists tcbs)
  have hends {l : Nat} (hl : l ∈ lists) : ListCells O l :=
    ⟨⟨.list l, hl, rfl, rfl⟩, .list l, hl, rfl, rfl⟩
  have hlinks {t : Nat} (ht : t ∈ tcbs) : LinkCells O t :=
    ⟨⟨.tcb t, ht, rfl, rfl⟩, .tcb t, ht, rfl, rfl⟩
  have hne {t l : Nat} (ht : t ∈ tcbs) (hl : l ∈ lists) : t ≠ l := by
    rintro rfl
    have hap := hp.apart t ht t hl
    unfold Apart at hap
    omega
  have hown (x : Nat) (hx : x ∈ D o.list) : LinkCells O x := hlinks (h.sub _ hl x hx)
  obtain ⟨_, m', g', v', hrun, hsim, -, rfl, rfl, hlk, hlist, htaken⟩ := Prog.returns
    (listObjs_separate smallHeap hp) (Sim.self _ m) ((h.list _ hl).wp_deque (g := g)
      (Q := fun r v' g' => g' = g ∧ r = (o.apply (D o.list)).1 ∧
        LinksOnly o.list (o.added :: D o.list) m.view v' ∧
        IsList v' o.list (o.apply (D o.list)).2 ∧
        ((o.apply (D o.list)).1 ≠ 0 → v' (o.apply (D o.list)).1 .next = 0 ∧
          v' (o.apply (D o.list)).1 .prev = 0))
      (T := fun _ _ _ _ => False) (hends hl) hown
      (hadd.imp_right fun hm => ⟨hm.2 _ hl, (hp.inside _ hm.1).2, hlinks hm.1⟩)
      fun v' hlk hlist htaken => ⟨rfl, rfl, hlk, hlist, htaken⟩)
  have hkeep {x : Nat} (hx : x ∈ tcbs) (hxa : x ≠ o.added) (hxD : x ∉ D o.list) {f : Field} :
      v' x f = m.view x f := hlk x f (fun hxl => hne hx hl hxl.1) (by simp [hxa, hxD])
  have hkeepEnds {l : Nat} (hl' : l ∈ lists) (hlo : l ≠ o.list) {f : Field} :
      v' l f = m.view l f := by
    refine hlk l f (fun h => hlo h.1) fun hm => ?_
    rcases List.mem_cons.mp hm.1 with rfl | hmem
    · rcases hadd with h0 | hm'
      · exact absurd h0 (hp.pos _ hl').ne'
      · exact hne hm'.1 hl' rfl
    · exact hne (h.sub _ hl _ hmem) hl' rfl
  have hother {l x : Nat} (hl' : l ∈ lists) (hlo : l ≠ o.list) (hx : x ∈ D l) :
      x ≠ o.added ∧ x ∉ D o.list := by
    refine ⟨?_, h.apart l hl' _ hl hlo x hx⟩
    rintro rfl
    rcases hadd with h0 | hm
    · exact absurd h0 (hp.inside _ (h.sub l hl' _ hx)).1.ne'
    · exact hm.2 l hl' hx
  refine ⟨m', hrun, ⟨fun l hl' => ?_, fun l hl' x hx => ?_, fun l hl' k hk hlk x hx hxk => ?_⟩, ?_, ?_,
    ?_⟩
  · by_cases hlo : l = o.list
    · rw [hlo, DequeOp.next, Function.update_self]
      refine hlist.of_sim hsim (hends hl) fun x hx => ?_
      rcases mem_apply hx with ⟨rfl, h0⟩ | hx
      · exact hlinks (hadd.resolve_left h0).1
      · exact hown x hx
    · rw [DequeOp.next, Function.update_of_ne hlo]
      have hsame : IsList v' l (D l) := (h.list l hl').congr
        ⟨hkeepEnds hl' hlo, hkeepEnds hl' hlo⟩ fun x hx => by
          obtain ⟨hxa, hxD⟩ := hother hl' hlo hx
          exact ⟨hkeep (h.sub l hl' x hx) hxa hxD, hkeep (h.sub l hl' x hx) hxa hxD⟩
      exact hsame.of_sim hsim (hends hl') fun x hx => hlinks (h.sub l hl' x hx)
  · rcases mem_next hx with ⟨-, rfl, h0⟩ | hx
    · exact (hadd.resolve_left h0).1
    · exact h.sub l hl' x hx
  · rcases mem_next hx with ⟨rfl, rfl, h0⟩ | hx <;> rcases mem_next hxk with ⟨rfl, hxa, h0'⟩ | hxk
    · exact hlk rfl
    · exact (hadd.resolve_left h0).2 k hk hxk
    · exact (hother hl' hlk hx).1 hxa
    · exact h.apart l hl' k hk hlk x hx hxk
  · intro h0
    have hc := hown _ (taken_mem h0)
    exact ⟨(hsim _ _ hc.next).trans (htaken h0).1, (hsim _ _ hc.prev).trans (htaken h0).2⟩
  · intro l hl' hlo
    exact ⟨(hsim _ _ (hends hl').head).trans (hkeepEnds hl' hlo),
      (hsim _ _ (hends hl').tail).trans (hkeepEnds hl' hlo)⟩
  · intro x hx hxa hxD f hf
    exact (hsim x f ⟨.tcb x, hx, rfl, hf⟩).trans (hkeep hx hxa hxD)

end DequesInv

theorem dequesInv_of_run (hp : ListsApart lists tcbs) (h : DequeRun lists tcbs m g D) :
    DequesInv lists tcbs m D := by
  induction h with
  | start m g h =>
    refine ⟨fun l hl => ⟨⟨.cons_cons ⟨?_, ?_⟩ (.singleton _), by simp⟩, by simp⟩, by simp, by simp⟩
    · simpa [tcbNext, Mem.view] using (h l hl).1
    · simpa [tcbPrev, Mem.view] using (h l hl).2
  | step o _ hok hrun ih =>
    obtain ⟨m', hrun', hinv, -⟩ := ih.step hp hok
    rw [hrun] at hrun'
    cases hrun'
    exact hinv

/-- In every run each list is the deque of its operations, linked in both directions; an operation
returns what the deque does, gives a thread back without links, and changes no other list. -/
theorem lists_are_deques (hp : ListsApart lists tcbs) (h : DequeRun lists tcbs m g D) :
    (∀ l ∈ lists, IsDeque m l (D l)) ∧ ∀ o : DequeOp, o.Allowed lists tcbs D → ∃ m',
      o.prog.run m g = .done (o.apply (D o.list)).1 m' g ∧
      DequeRun lists tcbs m' g (o.next D) ∧ (∀ l ∈ lists, IsDeque m' l (o.next D l)) ∧
      ((o.apply (D o.list)).1 ≠ 0 → m'.field (o.apply (D o.list)).1 Field.next = 0 ∧
        m'.field (o.apply (D o.list)).1 Field.prev = 0) ∧
      (∀ l ∈ lists, l ≠ o.list → m'.field l Field.head = m.field l Field.head ∧
        m'.field l Field.tail = m.field l Field.tail) ∧
      ∀ x ∈ tcbs, x ≠ o.added → x ∉ D o.list → ∀ f : Field, f.ofTcb = true →
        m'.field x f = m.field x f := by
  have hinv := dequesInv_of_run hp h
  refine ⟨fun l hl => (hinv.list l hl).isDeque, fun o hok => ?_⟩
  obtain ⟨m', hrun, hinv', htaken, hends, hother⟩ := hinv.step (g := g) hp hok
  exact ⟨m', hrun, h.step o hok hrun, fun l hl => (hinv'.list l hl).isDeque, htaken, hends, hother⟩

/-- Two threads go into one of two lists, and a third one into the other; then the first thread is
taken. -/
theorem lists_are_deques_two : ∃ m₁ m, IsDeque m₁ 64 [4096, 4608] ∧ IsDeque m₁ 128 [5120] ∧
    (ListTCB.takeFirst 64).run m₁ (.image 4096 0) = .done 4096 m (.image 4096 0) ∧
    IsDeque m 64 [4608] ∧ IsDeque m 128 [5120] ∧ m.field 4096 Field.next = 0 := by
  have hp : ListsApart [64, 128] [4096, 4608, 5120] := by
    refine ⟨by simp, by simp, ?_, ?_, ?_⟩ <;> simp [Apart]
  have h₀ : DequeRun [64, 128] [4096, 4608, 5120] (fun _ => 0) (.image 4096 0) fun _ => [] :=
    .start _ _ fun l _ => ⟨rfl, rfl⟩
  obtain ⟨m₁, -, h₁, -⟩ := (lists_are_deques hp h₀).2 (.addLast 64 4608)
    ⟨by simp [DequeOp.list], .inr (by simp [DequeOp.added])⟩
  obtain ⟨m₂, -, h₂, -⟩ := (lists_are_deques hp h₁).2 (.addFirst 128 5120) ⟨by simp [DequeOp.list], .inr
    (by simp [DequeOp.added, DequeOp.next, DequeOp.list, DequeOp.apply, Function.update_apply])⟩
  obtain ⟨m₃, -, h₃, hdeques, -⟩ := (lists_are_deques hp h₂).2 (.addFirst 64 4096)
    ⟨by simp [DequeOp.list], .inr
    (by simp [DequeOp.added, DequeOp.next, DequeOp.list, DequeOp.apply, Function.update_apply])⟩
  obtain ⟨m, hrun, -, hdeques', htaken, -⟩ := (lists_are_deques hp h₃).2 (.takeFirst 64)
    ⟨by simp [DequeOp.list], .inl rfl⟩
  simp only [List.mem_cons, List.not_mem_nil, or_false, forall_eq_or_imp, forall_eq, DequeOp.next,
    DequeOp.list, DequeOp.apply, Function.update_apply, reduceIte, Nat.reduceEqDiff, List.nil_append,
    List.tail_cons, List.headD_cons] at hdeques hdeques' hrun htaken
  exact ⟨m₃, m, hdeques.1, hdeques.2, hrun, hdeques'.1, hdeques'.2, (htaken (by decide)).1⟩

end Os1Kernel
