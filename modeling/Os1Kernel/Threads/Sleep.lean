import Os1Kernel.Threads.Lists
import Os1Kernel.Source.SleepQueue

/-! The sleep queue as a list of threads with deadlines: what memory holds for it, and what
`put_to_sleep` and `timer_tick` do to it. -/

namespace Os1Kernel

open Memory Linked

/-- The operations may use all fields of the thread `t`. -/
structure SleepCells (O : Nat → Field → Prop) (t : Nat) : Prop extends LinkCells O t where
  status : O t .status
  sleepFor : O t .sleepFor

/-- Only the ends of the lists `ls` and the fields `fs` of the threads `xs` differ. -/
def Changes (ls xs : List Nat) (fs : List Field) (v v' : Cells) : Prop :=
  ∀ a f, ¬(a ∈ ls ∧ (f = .head ∨ f = .tail)) → ¬(a ∈ xs ∧ f ∈ fs) → v' a f = v a f

namespace Changes

variable {ls ls' xs xs' : List Nat} {fs fs' : List Field} {v v' v'' : Cells}

theorem refl (ls xs : List Nat) (fs : List Field) (v : Cells) : Changes ls xs fs v v :=
  fun _ _ _ _ => rfl

theorem trans (h : Changes ls xs fs v v') (h' : Changes ls xs fs v' v'') : Changes ls xs fs v v'' :=
  fun a f hl hx => (h' a f hl hx).trans (h a f hl hx)

theorem mono (h : Changes ls xs fs v v') (hl : ls ⊆ ls') (hx : xs ⊆ xs') (hf : fs ⊆ fs') :
    Changes ls' xs' fs' v v' :=
  fun a f hl' hx' => h a f (fun ⟨h1, h2⟩ => hl' ⟨hl h1, h2⟩) fun ⟨h1, h2⟩ => hx' ⟨hx h1, hf h2⟩

theorem of_links {l : Nat} (h : LinksOnly l xs v v') : Changes [l] xs [.next, .prev] v v' := by
  intro a f hl hx
  refine h a f (fun ⟨h1, h2⟩ => hl ⟨by simp [h1], h2⟩) fun ⟨h1, h2⟩ => hx ⟨h1, by simpa using h2⟩

theorem set {a : Nat} {f : Field} {x : Nat} (ha : a ∈ xs) (hf : f ∈ fs) :
    Changes ls xs fs v (v.set a f x) := by
  intro b k _ hx
  by_cases hb : b = a
  · subst hb
    exact View.set_field_ne fun hk => hx ⟨ha, hk ▸ hf⟩
  · exact View.set_addr_ne hb

/-- A list that shares no thread and no end with the change. -/
theorem isList {l : Nat} {ys : List Nat} (h : Changes ls xs fs v v') (hy : IsList v l ys)
    (hl : l ∉ ls) (hf : ∀ f ∈ fs, f ≠ .head ∧ f ≠ .tail) (hx : ∀ y ∈ ys, y ∉ xs) :
    IsList v' l ys := by
  refine hy.congr ⟨?_, ?_⟩ fun y hyy => ⟨?_, ?_⟩
  · exact h _ _ (fun h => hl h.1) fun h => (hf _ h.2).1 rfl
  · exact h _ _ (fun h => hl h.1) fun h => (hf _ h.2).2 rfl
  · exact h _ _ (by simp) fun h => hx y hyy h.1
  · exact h _ _ (by simp) fun h => hx y hyy h.1

end Changes

/-- The fields that put a thread into a list and take it out of one. -/
def Field.sched : List Field := [.next, .prev, .status, .sleepFor]

/-- Each thread sleeps until its deadline, and the times count from the one before it, the first from
`now` on. -/
def Delays (v : Cells) : Nat → List (Nat × Nat) → Prop
  | _, [] => True
  | now, (t, d) :: S => now ≤ d ∧ v t .sleepFor = d - now ∧ Delays v d S

/-- The list at `l` holds the threads of `S`, pairs of a thread and its deadline, at the time
`now`. -/
structure SleepList (v : Cells) (l now : Nat) (S : List (Nat × Nat)) : Prop where
  list : IsList v l (S.map Prod.fst)
  delays : Delays v now S
  lt : ∀ s ∈ S, s.2 < now + 2 ^ 64

/-- `t` sleeps until `d`: it comes after the threads with deadlines up to `d`. -/
def insertSleep (t d : Nat) (S : List (Nat × Nat)) : List (Nat × Nat) :=
  S.takeWhile (fun s => s.2 ≤ d) ++ (t, d) :: S.dropWhile fun s => s.2 ≤ d

theorem delays_append {v : Cells} {now : Nat} {S S' : List (Nat × Nat)} :
    Delays v now (S ++ S') ↔ Delays v now S ∧ Delays v (lastOf now (S.map Prod.snd)) S' := by
  induction S generalizing now with
  | nil => simp [Delays]
  | cons s S ih =>
    obtain ⟨t, d⟩ := s
    have hlast : lastOf now (d :: S.map Prod.snd) = lastOf d (S.map Prod.snd) := by
      simp [lastOf]
    simp only [List.cons_append, Delays, ih, List.map_cons, hlast, and_assoc]

theorem Delays.congr {v v' : Cells} {now : Nat} {S : List (Nat × Nat)} (h : Delays v now S)
    (hv : ∀ s ∈ S, v' s.1 .sleepFor = v s.1 .sleepFor) : Delays v' now S := by
  induction S generalizing now with
  | nil => trivial
  | cons s S ih =>
    obtain ⟨t, d⟩ := s
    obtain ⟨hle, ht, hrest⟩ := h
    exact ⟨hle, (hv (t, d) List.mem_cons_self).trans ht,
      ih hrest fun s hs => hv s (List.mem_cons_of_mem _ hs)⟩

/-- Deadlines come in order. -/
theorem Delays.le {v : Cells} {now : Nat} {S : List (Nat × Nat)} (h : Delays v now S) :
    ∀ s ∈ S, now ≤ s.2 := by
  induction S generalizing now with
  | nil => simp
  | cons s S ih =>
    obtain ⟨t, d⟩ := s
    obtain ⟨hle, -, hrest⟩ := h
    intro s hs
    rcases List.mem_cons.mp hs with rfl | hs
    · exact hle
    · exact hle.trans (ih hrest s hs)

theorem Delays.sorted {v : Cells} {now : Nat} {S : List (Nat × Nat)} (h : Delays v now S) :
    S.Pairwise fun s t => s.2 ≤ t.2 := by
  induction S generalizing now with
  | nil => exact .nil
  | cons s S ih =>
    obtain ⟨t, d⟩ := s
    exact .cons (Delays.le h.2.2) (ih h.2.2)

namespace SleepList

open TCBSleepQueue

variable {O : Nat → Field → Prop} {v v' : Cells} {g : Globals} {l t now d : Nat}
  {S : List (Nat × Nat)}

section Time

variable {Q : Nat → Cells → Globals → Prop} {T : Switch → Kernel Nat → Cells → Globals → Prop}

theorem wp_addTime {x y : Nat} (h : x + y < 2 ^ 64) :
    (addTime x y).wp O v g Q T ↔ Q (x + y) v g := by
  have hn : ¬2 ^ 64 ≤ x + y := by omega
  simp only [addTime, hn, if_false, Prog.wp_pure, u64_of_lt h]

theorem wp_subTime {x y : Nat} (h : y ≤ x) (hx : x < 2 ^ 64) :
    (subTime x y).wp O v g Q T ↔ Q (x - y) v g := by
  have hu : u64 (x + 2 ^ 64 - y) = x - y := by
    unfold u64
    rw [show x + 2 ^ 64 - y = (x - y) + 2 ^ 64 by omega, Nat.add_mod_right]
    exact Nat.mod_eq_of_lt (by omega)
  have hn : ¬x < y := by omega
  simp only [subTime, hn, if_false, Prog.wp_pure, hu]

end Time

variable {A A' : List (Nat × Nat)} {u e : Nat}

/-- A thread linked in, with the time from the deadline before its own. -/
theorem insert (h : SleepList v l now (A ++ A')) (h0 : t ≠ 0) (ht : t ∉ (A ++ A').map Prod.fst)
    (hlt : t < 2 ^ 64) (hd : d < now + 2 ^ 64) (hlast : lastOf now (A.map Prod.snd) ≤ d)
    (hn : ∀ a, tcbNext v' l a = if a = lastOf 0 (A.map Prod.fst) then t else
      if a = t then firstOf 0 (A'.map Prod.fst) else tcbNext v l a)
    (hp : ∀ a, tcbPrev v' l a = if a = firstOf 0 (A'.map Prod.fst) then t else
      if a = t then lastOf 0 (A.map Prod.fst) else tcbPrev v l a)
    (hA : ∀ s ∈ A, v' s.1 .sleepFor = v s.1 .sleepFor)
    (hs : v' t .sleepFor = d - lastOf now (A.map Prod.snd)) (hA' : Delays v' d A') :
    SleepList v' l now (A ++ (t, d) :: A') := by
  have hlist := h.list
  rw [List.map_append] at hlist ht
  refine ⟨?_, delays_append.mpr ⟨(delays_append.mp h.delays).1.congr hA, hlast, hs, hA'⟩, ?_⟩
  · rw [List.map_append, List.map_cons]
    exact hlist.insert h0 ht hlt hn hp
  · intro s hs
    rcases List.mem_append.mp hs with hs | hs
    · exact h.lt s (List.mem_append_left _ hs)
    · rcases List.mem_cons.mp hs with rfl | hs
      · exact hd
      · exact h.lt s (List.mem_append_right _ hs)

theorem lastOf_le (h : Delays v now A) (hA : ∀ s ∈ A, s.2 ≤ d) (hnow : now ≤ d) :
    now ≤ lastOf now (A.map Prod.snd) ∧ lastOf now (A.map Prod.snd) ≤ d := by
  rcases List.mem_cons.mp (lastOf_mem now (A.map Prod.snd)) with hm | hm
  · omega
  · obtain ⟨s, hs, heq⟩ := List.mem_map.mp hm
    rw [← heq]
    exact ⟨h.le s hs, hA s hs⟩

/-- What `insertBefore` writes, field by field: `p` is the thread before `u`. -/
structure Inserted (v v' : Cells) (l t u p x y : Nat) : Prop where
  next : ∀ a, v' a .next = if p ≠ 0 ∧ a = p then t else if a = t then u else v a .next
  prev : ∀ a, v' a .prev = if a = u then t else if a = t then p else v a .prev
  head : ∀ a, v' a .head = if p = 0 ∧ a = l then t else v a .head
  sleepFor : ∀ a, v' a .sleepFor = if a = u then y else if a = t then x else v a .sleepFor
  rest : ∀ a f, f ≠ .next → f ≠ .prev → f ≠ .head → f ≠ .sleepFor → v' a f = v a f

theorem wp_inserted {p total x y : Nat} {Q : Unit → Cells → Globals → Prop}
    {T : Switch → Kernel Unit → Cells → Globals → Prop} (hp : v u .prev = p)
    (hlt : t < 2 ^ 64 ∧ u < 2 ^ 64 ∧ p < 2 ^ 64) (hne : u ≠ t ∧ p ≠ t ∧ p ≠ u)
    (hl : ListCells O l) (hownt : SleepCells O t) (hownu : SleepCells O u)
    (hownp : p ≠ 0 → SleepCells O p) (hx : x < 2 ^ 64) (hy : y < 2 ^ 64) (htotal : p = 0 → total = 0)
    (hsx : v t .sleepFor = total + x) (hsy : v u .sleepFor = x + y) (htx : total + x < 2 ^ 64)
    (hxy : x + y < 2 ^ 64) (hQ : ∀ v', Inserted v v' l t u p x y → Q () v' g) :
    (insertBefore l t u total).wp O v g Q T := by
  obtain ⟨hlt, hult, hplt⟩ := hlt
  obtain ⟨hut, hpt, hpu⟩ := hne
  have h1 : total + x - total = x := by omega
  have h2 : x + y - x = y := by omega
  by_cases hp0 : p = 0
  · obtain rfl := htotal hp0
    subst hp0
    rw [Nat.zero_add] at hsx
    simp (disch := first | assumption | decide | omega) only [insertBefore, Prog.wp_bind, wp_rd,
      wp_wr, hownt.next, hownt.prev, hownu.prev, true_and, hp, set_word, reduceCtorEq, and_false,
      if_false, and_self, if_true, ne_eq, not_true, hl.head, hownu.sleepFor, hownt.sleepFor, hut,
      hsx, hsy, wp_subTime, h2]
    refine hQ _ ⟨fun a => ?_, fun a => ?_, fun a => ?_, fun a => ?_, fun a f h1 h2 h3 h4 => ?_⟩
    all_goals simp (disch := first | assumption | decide | omega) only [set_word]
    all_goals grind
  · have hownp := hownp hp0
    simp (disch := first | assumption | decide | omega) only [insertBefore, Prog.wp_bind, wp_rd,
      wp_wr, hownt.next, hownt.prev, hownu.prev, hownp.next, true_and, hp, set_word, reduceCtorEq,
      and_false, if_false, and_self, if_true, ne_eq, not_false_eq_true, hp0, hownu.sleepFor,
      hownt.sleepFor, hut, and_true, hsx, hsy, wp_subTime, h1, h2]
    refine hQ _ ⟨fun a => ?_, fun a => ?_, fun a => ?_, fun a => ?_, fun a f h1 h2 h3 h4 => ?_⟩
    all_goals simp (disch := first | assumption | decide | omega) only [set_word]
    all_goals grind

/-- The thread `t` goes in front of `u`, after the threads of `A`. -/
theorem wp_insertBefore {Q : Unit → Cells → Globals → Prop}
    {T : Switch → Kernel Unit → Cells → Globals → Prop} (h : SleepList v l now (A ++ (u, e) :: A'))
    (h0 : t ≠ 0) (ht : t ∉ (A ++ (u, e) :: A').map Prod.fst) (hlt : t < 2 ^ 64)
    (hA : ∀ s ∈ A, s.2 ≤ d) (he : d < e) (hnow : now ≤ d) (hl : ListCells O l)
    (hown : ∀ x ∈ t :: (A ++ (u, e) :: A').map Prod.fst, SleepCells O x)
    (hsleep : v t .sleepFor = d - now)
    (hQ : ∀ v', Changes [l] (t :: (A ++ (u, e) :: A').map Prod.fst) Field.sched v v' →
      (∀ x, v' x .status = v x .status) → v' t .next ≠ 0 →
      SleepList v' l now (A ++ (t, d) :: (u, e) :: A') → Q () v' g) :
    (insertBefore l t u (lastOf now (A.map Prod.snd) - now)).wp O v g Q T := by
  have hlist := h.list
  have ht' := ht
  simp only [List.map_append, List.map_cons] at hlist ht hown hQ
  obtain ⟨hdA, hue, hsu, hdA'⟩ := delays_append.mp h.delays
  have hprev := hlist.prev_eq
  have hu0 : u ≠ 0 := fun hu => hlist.zero_notMem (by simp [← hu])
  have hut : u ≠ t := fun hu => ht (by simp [← hu])
  have hult : u < 2 ^ 64 := hlist.lt u (by simp)
  have helt := h.lt (u, e) (by simp)
  simp only at helt
  have hplt : lastOf 0 (A.map Prod.fst) < 2 ^ 64 := hlist.lastOf_lt fun x hx => by simp [hx]
  obtain ⟨hnlast, hlast⟩ := lastOf_le hdA hA hnow
  have hnd := hlist.nodup
  have hpA : lastOf 0 (A.map Prod.fst) ≠ 0 → lastOf 0 (A.map Prod.fst) ∈ A.map Prod.fst := fun hp0 =>
    (List.mem_cons.mp (lastOf_mem 0 _)).resolve_left hp0
  have hnotA : ∀ x ∈ A.map Prod.fst, x ≠ t ∧ x ≠ u := fun x hx =>
    ⟨fun heq => ht (heq ▸ List.mem_append_left _ hx),
      fun heq => (List.nodup_append.mp hnd).2.2 _ hx _ List.mem_cons_self heq⟩
  have hnotA' : ∀ x ∈ A'.map Prod.fst, x ≠ t ∧ x ≠ u := fun x hx =>
    ⟨fun heq => ht (heq ▸ List.mem_append_right _ (List.mem_cons_of_mem _ hx)),
      fun heq => (List.nodup_cons.mp (List.nodup_append.mp hnd).2.1).1 (heq ▸ hx)⟩
  have hpne : lastOf 0 (A.map Prod.fst) ≠ t ∧ lastOf 0 (A.map Prod.fst) ≠ u := by
    by_cases hp0 : lastOf 0 (A.map Prod.fst) = 0
    · rw [hp0]
      exact ⟨h0.symm, hu0.symm⟩
    · exact hnotA _ (hpA hp0)
  have hnil : lastOf 0 (A.map Prod.fst) = 0 → lastOf now (A.map Prod.snd) - now = 0 := fun hp0 => by
    have hA0 : A.map Prod.fst = [] := hlist.lastOf_eq_zero.mp hp0
    rw [List.map_eq_nil_iff.mp hA0]
    simp
  refine wp_inserted (x := d - lastOf now (A.map Prod.snd)) (y := e - d) hprev ⟨hlt, hult, hplt⟩
    ⟨hut, hpne⟩ hl (hown t List.mem_cons_self) (hown u (by simp)) (fun hp0 => hown _ ?_) (by omega)
    (by omega) hnil (by omega) (by omega) (by omega) (by omega) fun v' hi => ?_
  · exact List.mem_cons_of_mem _ (List.mem_append_left _ (hpA hp0))
  refine hQ v' (fun a f hlf hxf => ?_) (fun x => hi.rest x .status (by decide) (by decide) (by decide) (by decide)) ?_
    (h.insert h0 ht' hlt (by omega) hlast (fun a => ?_) (fun a => ?_) (fun s hs => ?_) ?_ ?_)
  · have hxf' : f ∈ Field.sched → a ≠ t ∧ a ≠ u ∧ (a ≠ lastOf 0 (A.map Prod.fst) ∨ a = 0) := by
      intro hf
      refine ⟨fun heq => hxf ⟨by simp [heq], hf⟩, fun heq => hxf ⟨by simp [heq], hf⟩, ?_⟩
      by_contra hno
      simp only [not_or, not_not] at hno
      have := hpA (hno.1 ▸ hno.2)
      exact hxf ⟨List.mem_cons_of_mem _ (List.mem_append_left _ (hno.1 ▸ this)), hf⟩
    simp only [Field.sched, List.mem_cons, List.not_mem_nil, or_false] at hxf' hlf
    have := hi.next a
    have := hi.prev a
    have := hi.head a
    have := hi.sleepFor a
    have := hi.rest a f
    cases f <;> grind
  · rw [hi.next, if_neg (by simp [hpne.1.symm]), if_pos rfl]
    exact hu0
  · have := hi.next a
    have := hi.head l
    simp only [tcbNext, List.map_cons, firstOf_cons]
    grind
  · have := hi.prev a
    have := hi.rest l .tail (by decide) (by decide) (by decide) (by decide)
    simp only [tcbPrev, List.map_cons, firstOf_cons]
    grind
  · obtain ⟨h1, h2⟩ := hnotA s.1 (List.mem_map.mpr ⟨s, hs, rfl⟩)
    rw [hi.sleepFor, if_neg h2, if_neg h1]
  · rw [hi.sleepFor, if_neg hut.symm, if_pos rfl]
  · refine ⟨he.le, ?_, hdA'.congr fun s hs => ?_⟩
    · rw [hi.sleepFor, if_pos rfl]
    · obtain ⟨h1, h2⟩ := hnotA' s.1 (List.mem_map.mpr ⟨s, hs, rfl⟩)
      rw [hi.sleepFor, if_neg h2, if_neg h1]

theorem insertSleep_middle (hA : ∀ s ∈ A, s.2 ≤ d) (he : d < e) :
    insertSleep t d (A ++ (u, e) :: A') = A ++ (t, d) :: (u, e) :: A' := by
  have hA' : ∀ s ∈ A, decide (s.2 ≤ d) = true := fun s hs => decide_eq_true (hA s hs)
  have hu : ¬e ≤ d := by omega
  rw [insertSleep, List.takeWhile_append_of_pos hA', List.dropWhile_append_of_pos hA']
  simp [hu]

theorem insertSleep_last (hS : ∀ s ∈ S, s.2 ≤ d) : insertSleep t d S = S ++ [(t, d)] := by
  have hS' : ∀ s ∈ S, decide (s.2 ≤ d) = true := fun s hs => decide_eq_true (hS s hs)
  have htake := @List.takeWhile_append_of_pos _ _ _ [] hS'
  have hdrop := @List.dropWhile_append_of_pos _ _ _ [] hS'
  simp only [List.append_nil, List.takeWhile_nil, List.dropWhile_nil] at htake hdrop
  rw [insertSleep, htake, hdrop]

theorem wp_findPlace {R : List (Nat × Nat)} {fuel : Nat} {Q : Nat → Cells → Globals → Prop}
    {T : Switch → Kernel Nat → Cells → Globals → Prop} (h : SleepList v l now (A ++ R))
    (h0 : t ≠ 0) (ht : t ∉ (A ++ R).map Prod.fst) (hlt : t < 2 ^ 64)
    (hA : ∀ s ∈ A, s.2 ≤ d) (hnow : now ≤ d) (hl : ListCells O l)
    (hown : ∀ x ∈ t :: (A ++ R).map Prod.fst, SleepCells O x) (hsleep : v t .sleepFor = d - now)
    (hfuel : R.length < fuel)
    (hend : (∀ s ∈ A ++ R, s.2 ≤ d) → Q (lastOf now ((A ++ R).map Prod.snd) - now) v g)
    (hmid : ∀ v' x, Changes [l] (t :: (A ++ R).map Prod.fst) Field.sched v v' →
      (∀ x, v' x .status = v x .status) → v' t .next ≠ 0 →
      SleepList v' l now (insertSleep t d (A ++ R)) → Q x v' g) :
    (findPlace l t fuel (firstOf 0 (R.map Prod.fst)) (lastOf now (A.map Prod.snd) - now)).wp O v g Q
      T := by
  induction R generalizing A fuel with
  | nil =>
    obtain ⟨fuel, rfl⟩ := Nat.exists_eq_succ_of_ne_zero (show fuel ≠ 0 by omega)
    simp only [findPlace, List.map_nil, firstOf_nil, ne_eq, not_true, if_false, Prog.wp_pure]
    simp only [List.append_nil] at hend
    exact hend hA
  | cons r R ih =>
    obtain ⟨u, e⟩ := r
    obtain ⟨fuel, rfl⟩ := Nat.exists_eq_succ_of_ne_zero (show fuel ≠ 0 by omega)
    have hlist := h.list
    simp only [List.map_append, List.map_cons] at hlist
    have hu0 : u ≠ 0 := fun hu => hlist.zero_notMem (by simp [← hu])
    obtain ⟨hdA, hue, hsu, hdR⟩ := delays_append.mp h.delays
    obtain ⟨hnlast, hlast⟩ := lastOf_le hdA hA hnow
    have hnext := hlist.next_eq
    have helt := h.lt (u, e) (by simp)
    simp only at helt
    have hownu := hown u (by simp)
    have hownt := hown t List.mem_cons_self
    have hsum : lastOf now (A.map Prod.snd) - now + (e - lastOf now (A.map Prod.snd)) = e - now := by
      omega
    have hdiff : e - now - (e - lastOf now (A.map Prod.snd)) = lastOf now (A.map Prod.snd) - now := by
      omega
    simp (disch := omega) only [findPlace, List.map_cons, firstOf_cons, ne_eq, hu0,
      not_false_eq_true, if_true, Prog.wp_bind, wp_rd, hownu.sleepFor, hsu, wp_addTime, hsum,
      hownt.sleepFor, hsleep, true_and]
    by_cases hed : e ≤ d
    · have hle : e - now ≤ d - now := by omega
      have hA' : ∀ s ∈ A ++ [(u, e)], s.2 ≤ d := by
        intro s hs
        rcases List.mem_append.mp hs with hs | hs
        · exact hA s hs
        · rw [List.mem_singleton.mp hs]
          exact hed
      have hstep := @ih (A ++ [(u, e)]) fuel
      simp only [List.append_assoc, List.singleton_append] at hstep
      have hlast' : lastOf now ((A ++ [(u, e)]).map Prod.snd) = e := by simp
      rw [hlast'] at hstep
      simp only [ge_iff_le, hle, if_true, Prog.wp_bind, wp_rd, hownu.next, hnext, true_and]
      exact hstep h ht hA' hown (by simpa using hfuel) hend hmid
    · have hgt : ¬e - now ≤ d - now := by omega
      simp (disch := omega) only [ge_iff_le, hgt, if_false, Prog.wp_bind, wp_rd, hownu.sleepFor,
        hsu, wp_subTime, hdiff, true_and, Prog.wp_pure]
      refine wp_insertBefore h h0 ht hlt hA (by omega) hnow hl hown hsleep fun v' hc hst hn hs => ?_
      refine hmid v' _ hc hst hn ?_
      rwa [insertSleep_middle hA (by omega)]

/-- `put_to_sleep` puts a thread that is in no list behind those that wake up no later. -/
theorem wp_putToSleep {s : Nat} {Q : Unit → Cells → Globals → Prop}
    {T : Switch → Kernel Unit → Cells → Globals → Prop} (h : SleepList v l now S) (h0 : t ≠ 0)
    (ht : t ∉ S.map Prod.fst) (hlt : t < 2 ^ 64) (hs : s < 2 ^ 64) (hl : ListCells O l)
    (hown : ∀ x ∈ t :: S.map Prod.fst, SleepCells O x) (hlen : S.length < walkLimit)
    (hQ : ∀ v', Changes [l] (t :: S.map Prod.fst) Field.sched v v' →
      (∀ x, v' x .status = if x = t then TCBStatus.suspended.code else v x .status) →
      SleepList v' l now (insertSleep t (now + s) S) → Q () v' g) :
    (putToSleep l t s).wp O v g Q T := by
  have hownt := hown t List.mem_cons_self
  -- The thread before it is linked.
  have hv₁ : ∃ v₁, v₁ = (((v.set t .sleepFor s).set t .status TCBStatus.suspended.code).set t
    .next 0).set t .prev 0 := ⟨_, rfl⟩
  obtain ⟨v₁, hv₁⟩ := hv₁
  have hch : Changes [l] (t :: S.map Prod.fst) Field.sched v v₁ := by
    rw [hv₁]
    refine .trans (.trans (.trans (.set ?_ ?_) (.set ?_ ?_)) (.set ?_ ?_)) (.set ?_ ?_)
    all_goals simp [Field.sched]
  have hs₁ : SleepList v₁ l now S := by
    have hne : ∀ x ∈ S.map Prod.fst, x ≠ t := fun x hx hxt => ht (hxt ▸ hx)
    refine ⟨h.list.congr ⟨?_, ?_⟩ fun x hx => ⟨?_, ?_⟩, h.delays.congr fun x hx => ?_, h.lt⟩
    · simp (disch := first | assumption | decide) [hv₁, set_word, set_half]
    · simp (disch := first | assumption | decide) [hv₁, set_word, set_half]
    · simp (disch := first | assumption | decide) [hv₁, set_word, set_half, hne x hx]
    · simp (disch := first | assumption | decide) [hv₁, set_word, set_half, hne x hx]
    · have := hne x.1 (List.mem_map.mpr ⟨x, hx, rfl⟩)
      simp (disch := first | assumption | decide) [hv₁, set_word, set_half, this]
  have hsleep : v₁ t .sleepFor = s := by
    simp (disch := first | assumption | decide) only [hv₁, set_word, set_half, reduceCtorEq,
      and_false, if_false, and_self, if_true]
  have hstatus (x : Nat) :
      v₁ x .status = if x = t then TCBStatus.suspended.code else v x .status := by
    simp (disch := first | assumption | decide) only [hv₁, set_word, set_half, reduceCtorEq,
      and_false, if_false, and_true]
  have hnext : v₁ t .next = 0 := by
    simp (disch := first | assumption | decide) only [hv₁, set_word, reduceCtorEq, and_false,
      if_false, and_self, if_true]
  have hhead := hs₁.list.head_eq
  simp only [putToSleep, h0, if_false, ListTCB.unlink, ListTCB.isEmpty, Prog.wp_bind, wp_wr,
    hownt.sleepFor, hownt.status, hownt.next, hownt.prev, ne_eq, not_false_eq_true, if_true,
    true_and, wp_rd, hl.head, Prog.wp_pure, beq_iff_eq]
  rw [← hv₁, hhead]
  by_cases hS : S = []
  · subst hS
    simp only [List.map_nil, firstOf_nil, if_true]
    refine hs₁.list.wp_setFirst h0 hlt hl hownt.toLinkCells fun v' hlinks hlist => ?_
    have hc := Changes.of_links hlinks
    have hsame (a : Nat) (f : Field) (hf : f ≠ .next ∧ f ≠ .prev ∧ f ≠ .head ∧ f ≠ .tail) :
        v' a f = v₁ a f := hlinks a f (by simp [hf]) (by simp [hf])
    refine hQ v' (hch.trans (hc.mono (by simp) (by simp) (by simp [Field.sched])))
      (fun x => ?_) ⟨by simpa [insertSleep] using hlist, ?_, ?_⟩
    · rw [hsame _ _ (by decide), hstatus]
    · refine ⟨Nat.le_add_right _ _, ?_, trivial⟩
      rw [hsame _ _ (by decide), hsleep, Nat.add_sub_cancel_left]
    · simp only [insertSleep, List.takeWhile_nil, List.dropWhile_nil, List.nil_append,
        List.mem_singleton, forall_eq]
      omega
  · have hne : firstOf 0 (S.map Prod.fst) ≠ 0 := fun hf => hS
      (List.map_eq_nil_iff.mp ((@IsList.firstOf_eq_zero _ _ [] _ hs₁.list).mp hf))
    have hsleep' : v₁ t .sleepFor = now + s - now := by rw [hsleep, Nat.add_sub_cancel_left]
    simp only [hne, if_false, Prog.wp_bind, wp_rd, hl.head, hhead, true_and, hownt.next]
    have hfind {Q : Nat → Cells → Globals → Prop} {T : Switch → Kernel Nat → Cells → Globals → Prop} :=
      wp_findPlace (A := []) (R := S) (d := now + s) (g := g) (Q := Q) (T := T)
        hs₁ h0 ht hlt (by simp) (Nat.le_add_right _ _) hl hown hsleep' hlen
    simp only [List.map_nil, lastOf_nil, Nat.sub_self] at hfind
    refine hfind (fun hall => ?_) fun v' x hc hst hn hlist => ?_
    · have hdel := lastOf_le hs₁.delays hall (Nat.le_add_right now s)
      simp only [List.nil_append] at *
      simp (disch := omega) only [Prog.wp_bind, wp_rd, hnext, if_true, true_and, hownt.sleepFor,
        hsleep, wp_subTime, wp_wr]
      have hset : v₁.set t .sleepFor (s - (lastOf now (S.map Prod.snd) - now)) = v₁.set t .sleepFor
        (now + s - lastOf now (S.map Prod.snd)) := by congr 1; omega
      rw [hset]
      have hlist₂ : IsList (v₁.set t .sleepFor (now + s - lastOf now (S.map Prod.snd))) l
          (S.map Prod.fst) := hs₁.list.congr ⟨View.set_field_ne (by decide),
        View.set_field_ne (by decide)⟩ fun _ _ => ⟨View.set_field_ne (by decide),
        View.set_field_ne (by decide)⟩
      refine hlist₂.wp_addLast h0 ht hlt hl (fun x hx => (hown x hx).toLinkCells)
        fun v' hlinks hlist => ?_
      have hc := Changes.of_links hlinks
      have hsame (a : Nat) (f : Field) (hf : f ≠ .next ∧ f ≠ .prev ∧ f ≠ .head ∧ f ≠ .tail) :=
        hlinks a f (by simp [hf]) (by simp [hf])
      refine hQ v' (hch.trans (.trans (.set (by simp) (by simp [Field.sched]))
        (hc.mono (by simp) (by simp) (by simp [Field.sched])))) (fun x => ?_)
        ⟨?_, ?_, fun x hx => ?_⟩
      · rw [hsame _ _ (by decide), View.set_field_ne (by decide), hstatus]
      · rw [insertSleep_last hall, List.map_append]
        exact hlist
      · rw [insertSleep_last hall]
        refine delays_append.mpr ⟨hs₁.delays.congr fun x hx => ?_, hdel.2, ?_, trivial⟩
        · rw [hsame _ _ (by decide), View.set_addr_ne]
          exact fun hxt => ht (hxt ▸ List.mem_map.mpr ⟨x, hx, rfl⟩)
        · rw [hsame _ _ (by decide), set_word (by decide) (by omega)]
          simp
      · rw [insertSleep_last hall] at hx
        rcases List.mem_append.mp hx with hx | hx
        · exact h.lt x hx
        · rw [List.mem_singleton.mp hx]
          simp only
          omega
    · simp only [hn, if_false, Prog.wp_pure]
      exact hQ v' (hch.trans hc) (fun x => (hst x).trans (hstatus x)) hlist

end SleepList

section Scheduler

variable {L : Layout} {O : Nat → Field → Prop} {v : Cells} {g : Globals} {t : Nat} {xs : List Nat}

/-- `put_tcb` makes a thread ready, behind the others. -/
theorem IsList.wp_putTcb {Q : Unit → Cells → Globals → Prop}
    {T : Switch → Kernel Unit → Cells → Globals → Prop} (h : IsList v L.scheduler xs) (h0 : t ≠ 0)
    (ht : t ∉ xs) (hlt : t < 2 ^ 64) (hl : ListCells O L.scheduler)
    (hown : ∀ x ∈ t :: xs, SleepCells O x)
    (hQ : ∀ v', Changes [L.scheduler] (t :: xs) [.next, .prev] (v.set t .status TCBStatus.ready.code) v' →
      IsList v' L.scheduler (xs ++ [t]) →
      Q () v' { g with trace := g.trace ++ [.readied t] }) :
    (Scheduler.putTcb L t).wp O v g Q T := by
  have hstatus := (hown t List.mem_cons_self).status
  have hlist : IsList (v.set t .status TCBStatus.ready.code) L.scheduler xs :=
    h.congr ⟨View.set_field_ne (by decide), View.set_field_ne (by decide)⟩
      fun _ _ => ⟨View.set_field_ne (by decide), View.set_field_ne (by decide)⟩
  simp only [Scheduler.putTcb, ne_eq, h0, not_false_eq_true, if_true, Prog.wp_bind, wp_wr, hstatus,
    true_and, wp_log]
  exact hlist.wp_addLast h0 ht hlt hl (fun x hx => (hown x hx).toLinkCells)
    fun v' hlinks hlist' => hQ v' (.of_links hlinks) hlist'

variable {Q : Nat → Cells → Globals → Prop} {T : Switch → Kernel Nat → Cells → Globals → Prop}

/-- `next_tcb` takes the thread that has been ready for the longest time. -/
theorem IsList.wp_nextTcb (h : IsList v L.scheduler (t :: xs)) (hl : ListCells O L.scheduler)
    (hown : ∀ x ∈ t :: xs, LinkCells O x)
    (hQ : ∀ v', Changes [L.scheduler] (t :: xs) [.next, .prev] v v' → IsList v' L.scheduler xs →
      Q t v' { g with trace := g.trace ++ [.picked t] }) :
    (Scheduler.nextTcb L).wp O v g Q T := by
  simp only [Scheduler.nextTcb, Prog.wp_bind, wp_log, Prog.wp_pure]
  exact h.wp_takeFirst hl hown fun v' hlinks hlist _ _ => hQ v' (.of_links hlinks) hlist

end Scheduler

namespace SleepList

open TCBSleepQueue

variable {L : Layout} {O : Nat → Field → Prop} {v v' : Cells} {g : Globals} {l t now d : Nat}
  {R : List Nat} {S : List (Nat × Nat)} {Q : Unit → Cells → Globals → Prop}
  {T : Switch → Kernel Unit → Cells → Globals → Prop}

/-- The threads whose deadline has come, and the others. -/
def woken (now : Nat) (S : List (Nat × Nat)) : List Nat :=
  (S.takeWhile fun s => s.2 ≤ now).map Prod.fst
def asleep (now : Nat) (S : List (Nat × Nat)) : List (Nat × Nat) := S.dropWhile fun s => s.2 ≤ now

theorem wp_wake {fuel : Nat} (h : SleepList v l now S) (hR : IsList v L.scheduler R)
    (hne : l ≠ L.scheduler) (hapart : ∀ t ∈ S.map Prod.fst, t ∉ R) (hl : ListCells O l)
    (hlr : ListCells O L.scheduler) (hown : ∀ x ∈ S.map Prod.fst ++ R, SleepCells O x)
    (hfuel : S.length < fuel)
    (hQ : ∀ v', Changes [l, L.scheduler] (S.map Prod.fst ++ R) Field.sched v v' →
      SleepList v' l now (asleep now S) → IsList v' L.scheduler (R ++ woken now S) →
      (∀ x, v' x .status = if x ∈ woken now S then TCBStatus.ready.code else v x .status) →
      Q () v' { g with trace := g.trace ++ (woken now S).map .readied }) :
    (wake L l fuel).wp O v g Q T := by
  induction S generalizing v g R fuel with
  | nil =>
    obtain ⟨fuel, rfl⟩ := Nat.exists_eq_succ_of_ne_zero (show fuel ≠ 0 by omega)
    have hhead : v l .head = 0 := h.list.head_eq
    simp only [wake, ListTCB.peekFirst, Prog.wp_bind, wp_rd, hl.head, hhead, true_and, ne_eq,
      not_true, if_false, Prog.wp_pure]
    have hend := hQ v (.refl _ _ _ _) h (by simpa [woken] using hR) (by simp [woken])
    simpa [woken] using hend
  | cons s S ih =>
    obtain ⟨t, d⟩ := s
    obtain ⟨fuel, rfl⟩ := Nat.exists_eq_succ_of_ne_zero (show fuel ≠ 0 by omega)
    obtain ⟨hnow, hst, hdel⟩ := h.delays
    have hlist : IsList v l (t :: S.map Prod.fst) := h.list
    have ht0 : t ≠ 0 := fun h0 => hlist.zero_notMem (by simp [← h0])
    have htS : t ∉ S.map Prod.fst := (List.nodup_cons.mp hlist.nodup).1
    have hhead : v l .head = t := hlist.head_eq
    have hownt := hown t (by simp)
    simp only [wake, ListTCB.peekFirst, Prog.wp_bind, wp_rd, hl.head, hhead, true_and, ne_eq, ht0,
      not_false_eq_true, if_true, hownt.sleepFor, hst]
    by_cases hd : d - now = 0
    · have hdn : d = now := by omega
      subst hdn
      have hwoken : woken d ((t, d) :: S) = t :: woken d S := by simp [woken]
      have hasleep : asleep d ((t, d) :: S) = asleep d S := by simp [asleep]
      rw [hwoken, hasleep] at hQ
      simp only [hd, if_true, Prog.wp_bind]
      refine hlist.wp_takeFirst hl (fun x hx => (hown x ?_).toLinkCells) fun v₁ hlinks hl₁ _ _ => ?_
      · simp only [List.map_cons, List.cons_append, List.mem_cons, List.mem_append] at hx ⊢
        tauto
      have hc₁ := Changes.of_links hlinks
      have htR : t ∉ R := hapart t (by simp)
      have hR₁ : IsList v₁ L.scheduler R := hc₁.isList hR (by simpa using hne.symm) (by simp)
        fun y hy hmem => by
          simp only [List.mem_cons] at hmem
          rcases hmem with rfl | hmem
          · exact htR hy
          · exact hapart y (List.mem_cons_of_mem _ hmem) hy
      refine hR₁.wp_putTcb ht0 htR (hlist.lt t List.mem_cons_self) hlr (fun x hx => hown x ?_)
        fun v₂ hc₂ hR₂ => ?_
      · simp only [List.map_cons, List.cons_append, List.mem_cons, List.mem_append] at hx ⊢
        tauto
      have hset (a : Nat) (f : Field) (hf : f ≠ .status) :
          v₁.set t .status TCBStatus.ready.code a f = v₁ a f := View.set_field_ne hf
      have hsleep₂ (a : Nat) (f : Field) (hf : f ≠ .next ∧ f ≠ .prev ∧ f ≠ .head ∧ f ≠ .tail) :
          v₂ a f = v₁.set t .status TCBStatus.ready.code a f := hc₂ a f (by simp [hf]) (by simp [hf])
      have hsleep₁ (a : Nat) (f : Field) (hf : f ≠ .next ∧ f ≠ .prev ∧ f ≠ .head ∧ f ≠ .tail) :
          v₁ a f = v a f := hc₁ a f (by simp [hf]) (by simp [hf])
      have hSx : ∀ x ∈ S.map Prod.fst, x ∉ t :: R := fun x hx hmem => by
        rcases List.mem_cons.mp hmem with rfl | hmem
        · exact htS hx
        · exact hapart x (List.mem_cons_of_mem _ hx) hmem
      have hlist₂ : SleepList v₂ l d S := by
        refine ⟨?_, hdel.congr fun s hs => ?_, fun s hs => h.lt s (List.mem_cons_of_mem _ hs)⟩
        · have hset₁ : IsList (v₁.set t .status TCBStatus.ready.code) l (S.map Prod.fst) :=
            hl₁.congr ⟨hset _ _ (by decide), hset _ _ (by decide)⟩
              fun _ _ => ⟨hset _ _ (by decide), hset _ _ (by decide)⟩
          exact hc₂.isList hset₁ (by simpa using hne) (by simp) hSx
        · rw [hsleep₂ _ _ (by decide), hset _ _ (by decide), hsleep₁ _ _ (by decide)]
      refine ih hlist₂ hR₂ (fun x hx hmem => ?_) (fun x hx => hown x ?_)
        (by simpa using hfuel) fun v₃ hc₃ hs₃ hR₃ hst₃ => ?_
      · rcases List.mem_append.mp hmem with hmem | hmem
        · exact hapart x (List.mem_cons_of_mem _ hx) hmem
        · exact htS (List.mem_singleton.mp hmem ▸ hx)
      · simp only [List.map_cons, List.cons_append, List.mem_cons, List.mem_append,
          List.not_mem_nil, or_false] at hx ⊢
        tauto
      · have hstatus : ∀ x, v₃ x .status =
            if x ∈ t :: woken d S then TCBStatus.ready.code else v x .status := by
          intro x
          rw [hst₃, hsleep₂ x .status (by decide), set_half (by decide) (by decide)]
          rw [hsleep₁ x .status (by decide)]
          simp only [List.mem_cons, and_true]
          split <;> split <;> simp_all
        have hfinal := hQ v₃ ?_ hs₃ (by simpa using hR₃) hstatus
        · simpa using hfinal
        · refine .trans (hc₁.mono (by simp) ?_ (by simp [Field.sched])) (.trans
 (.set (by simp) (by simp [Field.sched]))
            (.trans (hc₂.mono (by simp) ?_ (by simp [Field.sched])) (hc₃.mono (by simp) ?_ (by simp))))
          all_goals
            intro x hx
            simp only [List.map_cons, List.cons_append, List.mem_cons, List.mem_append,
              List.not_mem_nil, or_false] at hx ⊢
            tauto
    · have hnd : ¬d ≤ now := by omega
      have hwoken : woken now ((t, d) :: S) = [] := by simp [woken, hnd]
      have hasleep : asleep now ((t, d) :: S) = (t, d) :: S := by simp [asleep, hnd]
      rw [hwoken, hasleep] at hQ
      simp only [hd, if_false, Prog.wp_pure]
      have hend := hQ v (.refl _ _ _ _) h (by simpa using hR) (by simp)
      simpa using hend

/-- `timer_tick` makes the threads ready whose deadline has come. -/
theorem wp_timerTick (h : SleepList v l now S) (hfuture : ∀ s ∈ S, now < s.2)
    (hR : IsList v L.scheduler R) (hne : l ≠ L.scheduler) (hapart : ∀ t ∈ S.map Prod.fst, t ∉ R)
    (hl : ListCells O l) (hlr : ListCells O L.scheduler)
    (hown : ∀ x ∈ S.map Prod.fst ++ R, SleepCells O x) (hlen : S.length < walkLimit)
    (hQ : ∀ v', Changes [l, L.scheduler] (S.map Prod.fst ++ R) Field.sched v v' →
      SleepList v' l (now + 1) (asleep (now + 1) S) →
      IsList v' L.scheduler (R ++ woken (now + 1) S) →
      (∀ x, v' x .status = if x ∈ woken (now + 1) S then TCBStatus.ready.code else v x .status) →
      Q () v' { g with trace := g.trace ++ (woken (now + 1) S).map .readied }) :
    (timerTick L l).wp O v g Q T := by
  cases S with
  | nil =>
    have hhead : v l .head = 0 := h.list.head_eq
    simp only [timerTick, ListTCB.isEmpty, Prog.wp_bind, wp_rd, hl.head, hhead, true_and,
      Prog.wp_pure, beq_self_eq_true, if_true]
    have hend := hQ v (.refl _ _ _ _) ⟨h.list, trivial, by simp [asleep]⟩ (by simpa [woken] using hR)
      (by simp [woken])
    simpa [woken] using hend
  | cons s S =>
    obtain ⟨t, d⟩ := s
    obtain ⟨hnow, hst, hdel⟩ := h.delays
    have hlist : IsList v l (t :: S.map Prod.fst) := h.list
    have ht0 : t ≠ 0 := fun h0 => hlist.zero_notMem (by simp [← h0])
    have htS : t ∉ S.map Prod.fst := (List.nodup_cons.mp hlist.nodup).1
    have hhead : v l .head = t := hlist.head_eq
    have hownt := hown t (by simp)
    have hd : now < d := hfuture (t, d) List.mem_cons_self
    have hdlt : d < now + 2 ^ 64 := h.lt (t, d) List.mem_cons_self
    have hsub : d - now - 1 = d - (now + 1) := by omega
    have hset (a : Nat) (f : Field) (hf : f ≠ .sleepFor) :
        v.set t .sleepFor (d - (now + 1)) a f = v a f := View.set_field_ne hf
    simp (disch := omega) only [timerTick, ListTCB.isEmpty, ListTCB.peekFirst, Prog.wp_bind, wp_rd,
      hl.head, hhead, true_and, Prog.wp_pure, beq_iff_eq, ht0, if_false, hownt.sleepFor, hst,
      wp_subTime, wp_wr, hsub]
    have hlist₁ : SleepList (v.set t .sleepFor (d - (now + 1))) l (now + 1) ((t, d) :: S) := by
      refine ⟨?_, ⟨by omega, ?_, hdel.congr fun s hs => ?_⟩, fun s hs => ?_⟩
      · exact hlist.congr ⟨hset _ _ (by decide), hset _ _ (by decide)⟩
          fun _ _ => ⟨hset _ _ (by decide), hset _ _ (by decide)⟩
      · rw [set_word (by decide) (by omega), if_pos ⟨rfl, rfl⟩]
      · exact View.set_addr_ne fun hst => htS (hst ▸ List.mem_map.mpr ⟨s, hs, rfl⟩)
      · have := h.lt s hs
        omega
    have hR₁ : IsList (v.set t .sleepFor (d - (now + 1))) L.scheduler R :=
      hR.congr ⟨hset _ _ (by decide), hset _ _ (by decide)⟩
        fun _ _ => ⟨hset _ _ (by decide), hset _ _ (by decide)⟩
    refine hlist₁.wp_wake hR₁ hne hapart hl hlr hown hlen fun v' hc hs hR' hst' => ?_
    refine hQ v' (.trans (.set (by simp) (by simp [Field.sched])) hc) hs hR' fun x => ?_
    rw [hst', hset x .status (by decide)]

end SleepList

end Os1Kernel
