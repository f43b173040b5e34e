import Os1Kernel.Threads.Owners
import Os1Kernel.Threads.SleepRun

/-! The abstract state of the threads, what memory holds for it, and what the kernel's primitives do
to it.  Every thread is in exactly one place: in one of the lists, or on its way between two. -/

namespace Os1Kernel

open Memory Linked

/-- Where a thread that does not run will go on. -/
inductive Cont
  | fresh
  | preempted
  | dispatched
  | joining (sem : Nat)
  | waiting (sem : Nat)
  | reading
  | writing (p0 : Nat)
  deriving DecidableEq, Repr

/-- The threads and the semaphores: the threads that are in no list, the ready ones, the sleeping ones
with their deadlines, the ones that each semaphore suspends, the bits of its value, and how each
thread was released and where it goes on. -/
structure Abs where
  moving : List Nat
  ready : List Nat
  now : Nat
  asleep : List (Nat × Nat)
  waiting : Nat → List Nat
  bits : Nat → Nat
  flag : Nat → Bool
  cont : Nat → Cont

namespace Owners

def cells (L : Layout) (W : Owners) : Nat → Field → Prop := Obj.own L.heap (W.objs L)

def tcbs (L : Layout) (W : Owners) : List Nat := L.mainTcb :: W.threads

variable {L : Layout} {W : Owners} {t s : Nat}

theorem cells_tcb (ht : t ∈ W.tcbs L) {f : Field} (hf : f.ofTcb = true) : W.cells L t f :=
  ⟨.tcb t, List.mem_cons.mp ht, rfl, hf⟩

theorem cells_link (ht : t ∈ W.tcbs L) : SleepCells (W.cells L) t :=
  ⟨⟨cells_tcb ht rfl, cells_tcb ht rfl⟩, cells_tcb ht rfl, cells_tcb ht rfl⟩

theorem cells_sem (hs : s ∈ W.semaphores L) : W.cells L s .value ∧ ListCells (W.cells L) (s + 8) :=
  ⟨⟨.sem s, hs, .inl ⟨rfl, rfl⟩⟩, ⟨.sem s, hs, .inr ⟨rfl, rfl⟩⟩, .sem s, hs, .inr ⟨rfl, rfl⟩⟩

theorem cells_scheduler : ListCells (W.cells L) L.scheduler :=
  ⟨⟨.list _, .inl rfl, rfl, rfl⟩, .list _, .inl rfl, rfl, rfl⟩

theorem cells_sleepQueue : ListCells (W.cells L) L.sleepQueue :=
  ⟨⟨.list _, .inr rfl, rfl, rfl⟩, .list _, .inr rfl, rfl, rfl⟩

namespace Tiled

theorem tcb_inside (h : W.Tiled L) (ht : t ∈ W.tcbs L) : 0 < t ∧ t < 2 ^ 64 := by
  have hstop := L.heap.stop_lt
  have hend := L.heap.spec.base_end
  rcases List.mem_cons.mp ht with rfl | ht
  · have hin := statics_below L (p := (.tcb L.mainTcb, L.mainTcb, 360)) (by simp [staticSeats])
    have hle := L.heap.start_le
    simp only at hin
    omega
  · have hin := h.inside (mem_thread ht (r := (t, toBlocks sizeofTCB)) (by simp [ofThread]))
    have hbase := L.heap.base_pos
    simp only at hin
    omega

theorem tcbs_nodup (h : W.Tiled L) : (W.tcbs L).Nodup := by
  refine List.nodup_cons.mpr ⟨fun ht => ?_, h.threads_nodup⟩
  have hin := h.inside (mem_thread ht (r := (L.mainTcb, toBlocks sizeofTCB)) (by simp [ofThread]))
  have hlow := statics_below L (p := (.tcb L.mainTcb, L.mainTcb, 360)) (by simp [staticSeats])
  have htable := L.heap.spec.table_le_base
  simp only at hin hlow
  omega

theorem length_lt (h : W.Tiled L) {xs : List Nat} (hnd : xs.Nodup) (hx : ∀ x ∈ xs, x ∈ W.tcbs L) :
    xs.length < walkLimit :=
  length_lt_of_nodup hnd (by decide) fun x hm => h.tcb_inside (hx x hm)

/-- The list of a semaphore is not one of the lists in static storage. -/
theorem sem_ne_list (h : W.Tiled L) (hs : s ∈ W.semaphores L) :
    s + 8 ≠ L.scheduler ∧ s + 8 ≠ L.sleepQueue := by
  obtain ⟨r, hr, h1, h2⟩ := seat_of_objs (o := .sem s) hs (by simp) (by simp)
  obtain ⟨q, hq, h3, h4⟩ := seat_of_objs (W := W) (o := .list L.scheduler) (.inl rfl) (by simp)
    (by simp)
  obtain ⟨q', hq', h5, h6⟩ := seat_of_objs (W := W) (o := .list L.sleepQueue) (.inr rfl) (by simp)
    (by simp)
  have ha := h.seats_apart.forall hr hq (by simp)
  have ha' := h.seats_apart.forall hr hq' (by simp)
  simp only [RangesApart, Apart, Obj.region] at *
  omega

theorem semaphores_nodup (h : W.Tiled L) : (W.semaphores L).Nodup := by
  have hstatic (x : Nat) (hx : x = L.putcSem ∨ x = L.getcSem) : x ∉ W.threads.map W.join ++ W.sems := by
    intro hm
    have hlow : x + 24 ≤ L.heap.start := by
      rcases hx with rfl | rfl
      · exact (statics_below L (p := (.sem L.putcSem, L.putcSem, 24)) (by simp [staticSeats])).2
      · exact (statics_below L (p := (.sem L.getcSem, L.getcSem, 24)) (by simp [staticSeats])).2
    have htable := L.heap.spec.table_le_base
    have hin : L.heap.base ≤ x := by
      rcases List.mem_append.mp hm with hm | hm
      · obtain ⟨t, ht, rfl⟩ := List.mem_map.mp hm
        exact (h.inside (mem_thread ht (r := (W.join t, toBlocks sizeofSem)) (by simp [ofThread]))).1
      · exact (h.inside (mem_sem hm)).1
    omega
  refine List.nodup_cons.mpr ⟨fun hm => ?_, List.nodup_cons.mpr ⟨hstatic _ (.inr rfl), h.join_injOn⟩⟩
  rcases List.mem_cons.mp hm with heq | hm
  · have hap := L.apart
    simp only [List.pairwise_cons] at hap
    have := hap.2.2.2.1 (L.getcSem, 24) List.mem_cons_self
    simp only [Apart] at this
    omega
  · exact hstatic _ (.inl rfl) hm

end Tiled

end Owners

/-- The threads in lists. -/
def Abs.queued (L : Layout) (W : Owners) (A : Abs) : List Nat :=
  A.ready ++ A.asleep.map Prod.fst ++ (W.semaphores L).flatMap A.waiting

/-- Memory holds the abstract state. -/
structure Queues (L : Layout) (W : Owners) (A : Abs) (v : Cells) : Prop where
  ready : IsList v L.scheduler A.ready
  asleep : SleepList v L.sleepQueue A.now A.asleep
  future : ∀ p ∈ A.asleep, A.now < p.2
  waiting : ∀ s ∈ W.semaphores L, IsList v (s + 8) (A.waiting s)
  place : (W.tcbs L).Perm (A.moving ++ A.queued L W)
  readyStatus : ∀ t ∈ A.ready, v t .status = TCBStatus.ready.code
  asleepStatus : ∀ t ∈ A.asleep.map Prod.fst, v t .status = TCBStatus.suspended.code
  waitingStatus : ∀ s ∈ W.semaphores L, ∀ t ∈ A.waiting s, v t .status = TCBStatus.suspended.code
  bits : ∀ s ∈ W.semaphores L, v s .value = A.bits s ∧ A.bits s < 2 ^ 32
  flag : ∀ t ∈ W.tcbs L, v t .interrupted = (A.flag t).toNat

/-- The fields that the primitives of the scheduler and of semaphores change. -/
def Field.queue : List Field :=
  [.head, .tail, .next, .prev, .status, .sleepFor, .value, .interrupted]

/-- No other field differs. -/
def Quiet (v v' : Cells) : Prop := ∀ a f, f ∉ Field.queue → v' a f = v a f

namespace Quiet

variable {v v' v'' : Cells}

theorem refl (v : Cells) : Quiet v v := fun _ _ _ => rfl

theorem trans (h : Quiet v v') (h' : Quiet v' v'') : Quiet v v'' :=
  fun a f hf => (h' a f hf).trans (h a f hf)

theorem of_changes {ls xs : List Nat} {fs : List Field} (h : Changes ls xs fs v v')
    (hf : fs ⊆ Field.queue) : Quiet v v' := by
  intro a f hnot
  refine h a f (fun hl => hnot ?_) fun hx => hnot (hf hx.2)
  rcases hl.2 with rfl | rfl <;> simp [Field.queue]

theorem set {a x : Nat} {f : Field} (hf : f ∈ Field.queue) : Quiet v (v.set a f x) :=
  fun _ _ hnot => View.set_field_ne fun heq => hnot (heq ▸ hf)

end Quiet

theorem count_flatMap_update {l : List Nat} {w : Nat → List Nat} {s x : Nat} {xs : List Nat}
    (hnd : l.Nodup) (hs : s ∈ l) : (l.flatMap (Function.update w s xs)).count x + (w s).count x =
      (l.flatMap w).count x + xs.count x := by
  induction l with
  | nil => simp at hs
  | cons a l ih =>
    obtain ⟨ha, hl⟩ := List.nodup_cons.mp hnd
    simp only [List.flatMap_cons, List.count_append]
    rcases List.mem_cons.mp hs with rfl | hs
    · have hsame : l.flatMap (Function.update w s xs) = l.flatMap w := by
        refine List.flatMap_congr fun b hb => ?_
        rw [Function.update_of_ne fun (hbs : b = s) => ha (hbs ▸ hb)]
      rw [hsame, Function.update_self]
      omega
    · have := ih hl hs
      rw [Function.update_of_ne fun (has : a = s) => ha (has ▸ hs)]
      omega

namespace Queues

variable {L : Layout} {W : Owners} {A : Abs} {v v' : Cells} {g : Globals} {t s : Nat}
  {M : List Nat}

theorem nodup (hW : W.Tiled L) (h : Queues L W A v) : (A.moving ++ A.queued L W).Nodup :=
  h.place.nodup_iff.mp hW.tcbs_nodup

theorem mem_tcbs (h : Queues L W A v) {t : Nat} (ht : t ∈ A.moving ++ A.queued L W) :
    t ∈ W.tcbs L := h.place.mem_iff.mpr ht

/-- Which lists a thread is not in. -/
structure Nowhere (L : Layout) (W : Owners) (A : Abs) (t : Nat) : Prop where
  ready : t ∉ A.ready
  asleep : t ∉ A.asleep.map Prod.fst
  waiting : ∀ s ∈ W.semaphores L, t ∉ A.waiting s

theorem nowhere (hW : W.Tiled L) (h : Queues L W A v) (ht : t ∈ A.moving) : Nowhere L W A t := by
  have hnd := (List.nodup_append.mp (h.nodup hW)).2.2 t ht
  refine ⟨fun hm => hnd t ?_ rfl, fun hm => hnd t ?_ rfl, fun s hs hm => hnd t ?_ rfl⟩
  · exact List.mem_append_left _ (List.mem_append_left _ hm)
  · exact List.mem_append_left _ (List.mem_append_right _ hm)
  · exact List.mem_append_right _ (List.mem_flatMap.mpr ⟨s, hs, hm⟩)

theorem ready_mem (h : Queues L W A v) (ht : t ∈ A.ready) : t ∈ W.tcbs L :=
  h.mem_tcbs (List.mem_append_right _ (List.mem_append_left _ (List.mem_append_left _ ht)))

theorem asleep_mem (h : Queues L W A v) (ht : t ∈ A.asleep.map Prod.fst) : t ∈ W.tcbs L :=
  h.mem_tcbs (List.mem_append_right _ (List.mem_append_left _ (List.mem_append_right _ ht)))

theorem waiting_mem (h : Queues L W A v) (hs : s ∈ W.semaphores L) (ht : t ∈ A.waiting s) :
    t ∈ W.tcbs L :=
  h.mem_tcbs (List.mem_append_right _ (List.mem_append_right _ (List.mem_flatMap.mpr ⟨s, hs, ht⟩)))

theorem moving_mem (h : Queues L W A v) (ht : t ∈ A.moving) : t ∈ W.tcbs L :=
  h.mem_tcbs (List.mem_append_left _ ht)

theorem ready_asleep (hW : W.Tiled L) (h : Queues L W A v) :
    ∀ t ∈ A.asleep.map Prod.fst, t ∉ A.ready := by
  have hnd := (List.nodup_append.mp (List.nodup_append.mp (h.nodup hW)).2.1).1
  exact fun t ht hm => (List.nodup_append.mp hnd).2.2 t hm t ht rfl

theorem ready_waiting (hW : W.Tiled L) (h : Queues L W A v) (hs : s ∈ W.semaphores L) :
    ∀ t ∈ A.waiting s, t ∉ A.ready := by
  have hnd := (List.nodup_append.mp (List.nodup_append.mp (h.nodup hW)).2.1).2.2
  exact fun t ht hm => hnd t (List.mem_append_left _ hm) t (List.mem_flatMap.mpr ⟨s, hs, ht⟩) rfl

theorem asleep_waiting (hW : W.Tiled L) (h : Queues L W A v) (hs : s ∈ W.semaphores L) :
    ∀ t ∈ A.waiting s, t ∉ A.asleep.map Prod.fst := by
  have hnd := (List.nodup_append.mp (List.nodup_append.mp (h.nodup hW)).2.1).2.2
  exact fun t ht hm => hnd t (List.mem_append_right _ hm) t (List.mem_flatMap.mpr ⟨s, hs, ht⟩) rfl

theorem waiting_waiting (hW : W.Tiled L) (h : Queues L W A v) {s' : Nat} (hs : s ∈ W.semaphores L)
    (hs' : s' ∈ W.semaphores L) (hne : s ≠ s') : ∀ t ∈ A.waiting s, t ∉ A.waiting s' := by
  have hnd := (List.nodup_append.mp (List.nodup_append.mp (h.nodup hW)).2.1).2.1
  have hpw := (List.nodup_flatMap.mp hnd).2
  have hsym : Std.Symm (Function.onFun List.Disjoint A.waiting) := ⟨fun _ _ h _ hx hx' => h hx' hx⟩
  exact fun t ht hm => (hpw.forall hs hs' hne) ht hm

/-- A sleep queue that shares no thread and no end with a change. -/
theorem sleepList_of_changes {ls xs : List Nat} {fs : List Field} {l now : Nat}
    {S : List (Nat × Nat)} (hc : Changes ls xs fs v v') (h : SleepList v l now S) (hl : l ∉ ls)
    (hf : ∀ f ∈ fs, f ≠ .head ∧ f ≠ .tail) (hx : ∀ x ∈ S.map Prod.fst, x ∉ xs) :
    SleepList v' l now S :=
  ⟨hc.isList h.list hl hf hx, h.delays.congr fun p hp => hc _ _ (by simp) fun hm =>
    hx p.1 (List.mem_map.mpr ⟨p, hp, rfl⟩) hm.1, h.lt⟩

theorem place_of_count {A' : Abs} (h : Queues L W A v) (hcount : ∀ x,
    A.moving.count x + A.ready.count x + (A.asleep.map Prod.fst).count x +
        ((W.semaphores L).flatMap A.waiting).count x =
      A'.moving.count x + A'.ready.count x + (A'.asleep.map Prod.fst).count x +
        ((W.semaphores L).flatMap A'.waiting).count x) :
    (W.tcbs L).Perm (A'.moving ++ A'.queued L W) := by
  refine h.place.trans (List.perm_iff_count.mpr fun x => ?_)
  have := hcount x
  simp only [Abs.queued, List.count_append]
  omega

/-- Fields of threads that are in no list, which the lists do not depend on. -/
theorem set_moving (hW : W.Tiled L) (h : Queues L W A v) (ht : t ∈ A.moving) {f : Field} {x : Nat}
    (hf : f ≠ .head ∧ f ≠ .tail ∧ f ≠ .value ∧ f ≠ .interrupted) :
    Queues L W A (v.set t f x) := by
  have hno := h.nowhere hW ht
  have hc : Changes [] [t] [f] v (v.set t f x) := .set (by simp) (by simp)
  have hff : ∀ k ∈ [f], k ≠ .head ∧ k ≠ .tail := fun k hk => by
    rw [List.mem_singleton.mp hk]
    exact ⟨hf.1, hf.2.1⟩
  have hst (u : Nat) (hu : u ≠ t) : v.set t f x u .status = v u .status := View.set_addr_ne hu
  refine ⟨hc.isList h.ready (by simp) hff ?_, sleepList_of_changes hc h.asleep (by simp) hff ?_,
    h.future, fun s hs => hc.isList (h.waiting s hs) (by simp) hff ?_, h.place, fun u hu => ?_,
    fun u hu => ?_, fun s hs u hu => ?_, fun s hs => ?_, fun u hu => ?_⟩
  · exact fun y hy hm => hno.ready (List.mem_singleton.mp hm ▸ hy)
  · exact fun y hy hm => hno.asleep (List.mem_singleton.mp hm ▸ hy)
  · exact fun y hy hm => hno.waiting s hs (List.mem_singleton.mp hm ▸ hy)
  · rw [hst u fun heq => hno.ready (heq ▸ hu)]
    exact h.readyStatus u hu
  · rw [hst u fun heq => hno.asleep (heq ▸ hu)]
    exact h.asleepStatus u hu
  · rw [hst u fun heq => hno.waiting s hs (heq ▸ hu)]
    exact h.waitingStatus s hs u hu
  · rw [View.set_field_ne (Ne.symm hf.2.2.1)]
    exact h.bits s hs
  · rw [View.set_field_ne (Ne.symm hf.2.2.2)]
    exact h.flag u hu

/-- A thread's flag. -/
theorem set_flag (h : Queues L W A v) (e : Bool) :
    Queues L W { A with flag := Function.update A.flag t e } (v.set t .interrupted e.toNat) := by
  have hne (u : Nat) (f : Field) (hf : f ≠ .interrupted) :
      v.set t .interrupted e.toNat u f = v u f := View.set_field_ne hf
  refine ⟨h.ready.congr ⟨hne _ _ (by decide), hne _ _ (by decide)⟩
      fun _ _ => ⟨hne _ _ (by decide), hne _ _ (by decide)⟩,
    ⟨h.asleep.list.congr ⟨hne _ _ (by decide), hne _ _ (by decide)⟩
      fun _ _ => ⟨hne _ _ (by decide), hne _ _ (by decide)⟩,
      h.asleep.delays.congr fun _ _ => hne _ _ (by decide), h.asleep.lt⟩, h.future,
    fun s hs => (h.waiting s hs).congr ⟨hne _ _ (by decide), hne _ _ (by decide)⟩
      fun _ _ => ⟨hne _ _ (by decide), hne _ _ (by decide)⟩, h.place, fun u hu => ?_,
    fun u hu => ?_, fun s hs u hu => ?_, fun s hs => ?_, fun u hu => ?_⟩
  · rw [hne _ _ (by decide)]
    exact h.readyStatus u hu
  · rw [hne _ _ (by decide)]
    exact h.asleepStatus u hu
  · rw [hne _ _ (by decide)]
    exact h.waitingStatus s hs u hu
  · rw [hne _ _ (by decide)]
    exact h.bits s hs
  · by_cases hut : u = t
    · subst hut
      have hlt : e.toNat < 256 ^ size Field.interrupted := by cases e <;> decide
      simp only [View.set_same, Nat.mod_eq_of_lt hlt, Function.update_self]
    · simp only [View.set_addr_ne hut, Function.update_of_ne hut]
      exact h.flag u hu

/-- A semaphore's value. -/
theorem set_bits (h : Queues L W A v) {b : Nat} (hb : b < 2 ^ 32) :
    Queues L W { A with bits := Function.update A.bits s b } (v.set s .value b) := by
  have hne (u : Nat) (f : Field) (hf : f ≠ .value) : v.set s .value b u f = v u f :=
    View.set_field_ne hf
  refine ⟨h.ready.congr ⟨hne _ _ (by decide), hne _ _ (by decide)⟩
      fun _ _ => ⟨hne _ _ (by decide), hne _ _ (by decide)⟩,
    ⟨h.asleep.list.congr ⟨hne _ _ (by decide), hne _ _ (by decide)⟩
      fun _ _ => ⟨hne _ _ (by decide), hne _ _ (by decide)⟩,
      h.asleep.delays.congr fun _ _ => hne _ _ (by decide), h.asleep.lt⟩, h.future,
    fun s hs => (h.waiting s hs).congr ⟨hne _ _ (by decide), hne _ _ (by decide)⟩
      fun _ _ => ⟨hne _ _ (by decide), hne _ _ (by decide)⟩, h.place, fun u hu => ?_,
    fun u hu => ?_, fun s' hs u hu => ?_, fun s' hs => ?_, fun u hu => ?_⟩
  · rw [hne _ _ (by decide)]
    exact h.readyStatus u hu
  · rw [hne _ _ (by decide)]
    exact h.asleepStatus u hu
  · rw [hne _ _ (by decide)]
    exact h.waitingStatus s' hs u hu
  · rw [set_half (by decide) hb]
    by_cases hss : s' = s
    · subst hss
      simp only [and_self, if_true, Function.update_self, hb]
    · simp only [hss, false_and, if_false, Function.update_of_ne (show s' ≠ s from hss)]
      exact h.bits s' hs
  · rw [hne _ _ (by decide)]
    exact h.flag u hu

section Primitives

variable {Q : Unit → Cells → Globals → Prop} {T : Switch → Kernel Unit → Cells → Globals → Prop}

theorem wp_putTcb (hW : W.Tiled L) (h : Queues L W A v) (hm : A.moving = t :: M)
    (hQ : ∀ v', Quiet v v' → (∀ x, x ≠ t → v' x .status = v x .status) →
      Queues L W { A with moving := M, ready := A.ready ++ [t] } v' →
      Q () v' { g with trace := g.trace ++ [.readied t] }) :
    (Scheduler.putTcb L t).wp (W.cells L) v g Q T := by
  have htm : t ∈ A.moving := by simp [hm]
  have ht := h.moving_mem htm
  have hin := hW.tcb_inside ht
  have hno := h.nowhere hW htm
  refine h.ready.wp_putTcb (by omega) hno.ready hin.2 Owners.cells_scheduler (fun x hx => ?_)
    fun v' hc hready => ?_
  · rcases List.mem_cons.mp hx with rfl | hx
    · exact Owners.cells_link ht
    · exact Owners.cells_link (h.ready_mem hx)
  have h₀ := h.set_moving hW htm (f := .status) (x := TCBStatus.ready.code) (by decide)
  have hff : ∀ f ∈ [Field.next, Field.prev], f ≠ .head ∧ f ≠ .tail := by decide
  have hsame (a : Nat) (f : Field) (hf : f ≠ .next ∧ f ≠ .prev ∧ f ≠ .head ∧ f ≠ .tail) :
      v' a f = v.set t .status TCBStatus.ready.code a f := hc a f (by simp [hf]) (by simp [hf])
  have hout : ∀ xs : List Nat, (∀ y ∈ xs, y ∉ A.ready) → t ∉ xs → ∀ y ∈ xs, y ∉ t :: A.ready :=
    fun xs hr htx y hy hmem => by
      rcases List.mem_cons.mp hmem with rfl | hmem
      · exact htx hy
      · exact hr y hy hmem
  refine hQ v' (.trans (.set (by simp [Field.queue])) (.of_changes hc (by simp [Field.queue])))
    (fun x hx => ?_) ⟨hready, ?_, h.future, fun s hs => ?_, ?_, fun u hu => ?_, fun u hu => ?_,
      fun s hs u hu => ?_, fun s hs => ?_, fun u hu => ?_⟩
  · rw [hsame _ _ (by decide), View.set_addr_ne hx]
  · exact sleepList_of_changes hc h₀.asleep (by simpa using L.scheduler_ne.symm) hff
      (hout _ (h.ready_asleep hW) hno.asleep)
  · exact hc.isList (h₀.waiting s hs) (by simpa using (hW.sem_ne_list hs).1) hff
      (hout _ (h.ready_waiting hW hs) (hno.waiting s hs))
  · refine h.place_of_count fun x => ?_
    simp only [hm, List.count_append, List.count_cons, List.count_nil]
    omega
  · rw [hsame _ _ (by decide), set_half (by decide) (by decide)]
    split
    · rfl
    · rename_i hne
      refine h.readyStatus u ((List.mem_append.mp hu).resolve_right fun hmem => hne ?_)
      exact ⟨List.mem_singleton.mp hmem, rfl⟩
  · rw [hsame _ _ (by decide)]
    exact h₀.asleepStatus u hu
  · rw [hsame _ _ (by decide)]
    exact h₀.waitingStatus s hs u hu
  · rw [hsame _ _ (by decide)]
    exact h₀.bits s hs
  · rw [hsame _ _ (by decide)]
    exact h₀.flag u hu

/-- The running thread is suspended on a semaphore. -/
theorem wp_addWaiting (hW : W.Tiled L) (h : Queues L W A v) (hs : s ∈ W.semaphores L)
    (hm : A.moving = t :: M) (hst : v t .status = TCBStatus.suspended.code)
    (hQ : ∀ v', Changes [s + 8] (t :: A.waiting s) [.next, .prev] v v' →
      Queues L W
        { A with moving := M, waiting := Function.update A.waiting s (A.waiting s ++ [t]) } v' →
      Q () v' g) : (ListTCB.addLast (s + 8) t).wp (W.cells L) v g Q T := by
  have htm : t ∈ A.moving := by simp [hm]
  have ht := h.moving_mem htm
  have hin := hW.tcb_inside ht
  have hno := h.nowhere hW htm
  have hne := hW.sem_ne_list hs
  refine (h.waiting s hs).wp_addLast (by omega) (hno.waiting s hs) hin.2 (Owners.cells_sem hs).2
    (fun x hx => ?_) fun v' hlinks hlist => ?_
  · rcases List.mem_cons.mp hx with rfl | hx
    · exact (Owners.cells_link ht).toLinkCells
    · exact (Owners.cells_link (h.waiting_mem hs hx)).toLinkCells
  have hc := Changes.of_links hlinks
  have hff : ∀ f ∈ [Field.next, Field.prev], f ≠ .head ∧ f ≠ .tail := by decide
  have hsame (a : Nat) (f : Field) (hf : f ≠ .next ∧ f ≠ .prev ∧ f ≠ .head ∧ f ≠ .tail) :
      v' a f = v a f := hc a f (by simp [hf]) (by simp [hf])
  have hout : ∀ xs : List Nat, (∀ y ∈ A.waiting s, y ∉ xs) → t ∉ xs →
      ∀ y ∈ xs, y ∉ t :: A.waiting s := fun xs hr htx y hy hmem => by
    rcases List.mem_cons.mp hmem with rfl | hmem
    · exact htx hy
    · exact hr y hmem hy
  refine hQ v' hc ⟨?_, ?_, h.future, fun s' hs' => ?_, ?_, fun u hu => ?_, fun u hu => ?_,
    fun s' hs' u hu => ?_, fun s' hs' => ?_, fun u hu => ?_⟩
  · exact hc.isList h.ready (by simpa using hne.1.symm) hff
      (hout _ (h.ready_waiting hW hs) hno.ready)
  · exact sleepList_of_changes hc h.asleep (by simpa using hne.2.symm) hff
      (hout _ (h.asleep_waiting hW hs) hno.asleep)
  · by_cases hss : s' = s
    · subst hss
      simpa using hlist
    · simp only [Function.update_of_ne hss]
      exact hc.isList (h.waiting s' hs') (by simpa using hss) hff
        (hout _ (h.waiting_waiting hW hs hs' (Ne.symm hss)) (hno.waiting s' hs'))
  · refine h.place_of_count fun x => ?_
    have := @count_flatMap_update _ A.waiting _ x (A.waiting s ++ [t])
      hW.semaphores_nodup hs
    simp only [hm, List.count_append, List.count_cons, List.count_nil] at this ⊢
    omega
  · rw [hsame _ _ (by decide)]
    exact h.readyStatus u hu
  · rw [hsame _ _ (by decide)]
    exact h.asleepStatus u hu
  · rw [hsame _ _ (by decide)]
    by_cases hss : s' = s
    · subst hss
      simp only [Function.update_self, List.mem_append, List.mem_singleton] at hu
      rcases hu with hu | rfl
      · exact h.waitingStatus s' hs' u hu
      · exact hst
    · simp only [Function.update_of_ne hss] at hu
      exact h.waitingStatus s' hs' u hu
  · rw [hsame _ _ (by decide)]
    exact h.bits s' hs'
  · rw [hsame _ _ (by decide)]
    exact h.flag u hu

/-- A thread goes to sleep. -/
theorem wp_putToSleep {n : Nat} (hW : W.Tiled L) (h : Queues L W A v) (hm : A.moving = t :: M)
    (hn : 1 ≤ n ∧ n < 2 ^ 64)
    (hQ : ∀ v', Quiet v v' → Queues L W
        { A with moving := M, asleep := insertSleep t (A.now + n) A.asleep } v' → Q () v' g) :
    (TCBSleepQueue.putToSleep L.sleepQueue t n).wp (W.cells L) v g Q T := by
  have htm : t ∈ A.moving := by simp [hm]
  have ht := h.moving_mem htm
  have hin := hW.tcb_inside ht
  have hno := h.nowhere hW htm
  have hperm : (insertSleep t (A.now + n) A.asleep).Perm ((t, A.now + n) :: A.asleep) := by
    rw [insertSleep]
    refine List.perm_middle.trans (.cons _ ?_)
    rw [List.takeWhile_append_dropWhile]
  have hlen : A.asleep.length < walkLimit := by
    have hlt := hW.length_lt h.asleep.list.nodup fun x hx => h.asleep_mem hx
    rwa [List.length_map] at hlt
  refine h.asleep.wp_putToSleep (by omega) hno.asleep hin.2 hn.2 Owners.cells_sleepQueue
    (fun x hx => ?_) hlen fun v' hc hst hlist => ?_
  · rcases List.mem_cons.mp hx with rfl | hx
    · exact Owners.cells_link ht
    · exact Owners.cells_link (h.asleep_mem hx)
  have hff : ∀ f ∈ Field.sched, f ≠ .head ∧ f ≠ .tail := by decide
  have hout : ∀ xs : List Nat, (∀ y ∈ xs, y ∉ A.asleep.map Prod.fst) → t ∉ xs →
      ∀ y ∈ xs, y ∉ t :: A.asleep.map Prod.fst := fun xs hr htx y hy hmem => by
    rcases List.mem_cons.mp hmem with rfl | hmem
    · exact htx hy
    · exact hr y hy hmem
  have hra : ∀ y ∈ A.ready, y ∉ A.asleep.map Prod.fst := fun y hy hm' => h.ready_asleep hW y hm' hy
  have hstatus : ∀ u, u ∉ t :: A.asleep.map Prod.fst → v' u .status = v u .status := fun u hu =>
    hc _ _ (by simp) fun hx => hu hx.1
  refine hQ v' (.of_changes hc (by simp [Field.sched, Field.queue])) ⟨?_, hlist, fun p hp => ?_,
    fun s hs => ?_, ?_, fun u hu => ?_, fun u hu => ?_, fun s hs u hu => ?_, fun s hs => ?_,
    fun u hu => ?_⟩
  · exact hc.isList h.ready (by simpa using L.scheduler_ne) hff (hout _ hra hno.ready)
  · rcases List.mem_cons.mp (hperm.mem_iff.mp hp) with rfl | hp
    · simp only
      omega
    · exact h.future p hp
  · exact hc.isList (h.waiting s hs) (by simpa using (hW.sem_ne_list hs).2) hff
      (hout _ (h.asleep_waiting hW hs) (hno.waiting s hs))
  · refine h.place_of_count fun x => ?_
    have := (hperm.map Prod.fst).count_eq x
    simp only [hm, List.map_cons, List.count_cons] at this ⊢
    omega
  · rw [hstatus u (hout _ hra hno.ready u hu)]
    exact h.readyStatus u hu
  · obtain ⟨p, hp, rfl⟩ := List.mem_map.mp hu
    rw [hst]
    rcases List.mem_cons.mp (hperm.mem_iff.mp hp) with rfl | hp
    · rw [if_pos rfl]
    · split
      · rfl
      · exact h.asleepStatus _ (List.mem_map.mpr ⟨p, hp, rfl⟩)
  · rw [hstatus u (hout _ (h.asleep_waiting hW hs) (hno.waiting s hs) u hu)]
    exact h.waitingStatus s hs u hu
  · rw [hc _ _ (by simp) (by simp [Field.sched])]
    exact h.bits s hs
  · rw [hc _ _ (by simp) (by simp [Field.sched])]
    exact h.flag u hu

/-- A tick: the threads whose deadline has come are ready. -/
theorem wp_timerTick (hW : W.Tiled L) (h : Queues L W A v)
    (hQ : ∀ v', Quiet v v' → (∀ x ∈ A.moving, v' x .status = v x .status) → Queues L W
        { A with
          now := A.now + 1
          asleep := SleepList.asleep (A.now + 1) A.asleep
          ready := A.ready ++ SleepList.woken (A.now + 1) A.asleep } v' →
      Q () v' { g with trace := g.trace ++ (SleepList.woken (A.now + 1) A.asleep).map .readied }) :
    (TCBSleepQueue.timerTick L L.sleepQueue).wp (W.cells L) v g Q T := by
  have hsplit : A.asleep.map Prod.fst = SleepList.woken (A.now + 1) A.asleep ++
      (SleepList.asleep (A.now + 1) A.asleep).map Prod.fst := by
    rw [SleepList.woken, SleepList.asleep, ← List.map_append, List.takeWhile_append_dropWhile]
  have hwoken : ∀ x ∈ SleepList.woken (A.now + 1) A.asleep, x ∈ A.asleep.map Prod.fst :=
    fun x hx => hsplit ▸ List.mem_append_left _ hx
  have hasleep : ∀ x ∈ (SleepList.asleep (A.now + 1) A.asleep).map Prod.fst,
      x ∈ A.asleep.map Prod.fst := fun x hx => hsplit ▸ List.mem_append_right _ hx
  have hlen : A.asleep.length < walkLimit := by
    have hlt := hW.length_lt h.asleep.list.nodup fun x hx => h.asleep_mem hx
    rwa [List.length_map] at hlt
  refine h.asleep.wp_timerTick h.future h.ready L.scheduler_ne.symm (h.ready_asleep hW)
    Owners.cells_sleepQueue Owners.cells_scheduler (fun x hx => ?_) hlen fun v' hc hs hr hst => ?_
  · rcases List.mem_append.mp hx with hx | hx
    · exact Owners.cells_link (h.asleep_mem hx)
    · exact Owners.cells_link (h.ready_mem hx)
  have hff : ∀ f ∈ Field.sched, f ≠ .head ∧ f ≠ .tail := by decide
  have hnd := h.asleep.list.nodup
  rw [hsplit] at hnd
  refine hQ v' (.of_changes hc (by simp [Field.sched, Field.queue])) (fun x hx => ?_)
    ⟨hr, hs, fun p hp => ?_, fun s hs => ?_, ?_, fun u hu => ?_, fun u hu => ?_,
      fun s hs u hu => ?_, fun s hs => ?_, fun u hu => ?_⟩
  · rw [hst, if_neg fun hm => (h.nowhere hW hx).asleep (hwoken x hm)]
  · have hfut := h.future p (List.dropWhile_subset _ hp)
    have hd := (takeWhile_eq_filter (d := A.now + 1) h.asleep.delays.sorted).2
    simp only [SleepList.asleep] at hp
    rw [hd] at hp
    have := (List.mem_filter.mp hp).2
    simp only [decide_eq_true_eq] at this
    simp only
    omega
  · refine hc.isList (h.waiting s hs) ?_ hff fun y hy hm => ?_
    · have := hW.sem_ne_list hs
      simp only [List.mem_cons, List.not_mem_nil, or_false, not_or]
      exact ⟨this.2, this.1⟩
    · rcases List.mem_append.mp hm with hm | hm
      · exact h.asleep_waiting hW hs y hy hm
      · exact h.ready_waiting hW hs y hy hm
  · refine h.place_of_count fun x => ?_
    rw [hsplit]
    simp only [List.count_append]
    omega
  · rw [hst]
    split
    · rfl
    · rename_i hno
      exact h.readyStatus u ((List.mem_append.mp hu).resolve_right hno)
  · rw [hst, if_neg fun hm => (List.nodup_append.mp hnd).2.2 _ hm _ hu rfl]
    exact h.asleepStatus u (hasleep u hu)
  · rw [hst, if_neg fun hm => h.asleep_waiting hW hs u hu (hwoken u hm)]
    exact h.waitingStatus s hs u hu
  · rw [hc _ _ (by simp) (by simp [Field.sched])]
    exact h.bits s hs
  · rw [hc _ _ (by simp) (by simp [Field.sched])]
    exact h.flag u hu

end Primitives

section Taking

variable {Q : Nat → Cells → Globals → Prop} {T : Switch → Kernel Nat → Cells → Globals → Prop}

/-- The scheduler picks the first ready thread. -/
theorem wp_nextTcb {R : List Nat} (hW : W.Tiled L) (h : Queues L W A v) (hR : A.ready = t :: R)
    (hQ : ∀ v', Changes [L.scheduler] A.ready [.next, .prev] v v' →
      Queues L W { A with moving := t :: A.moving, ready := R } v' →
      Q t v' { g with trace := g.trace ++ [.picked t] }) :
    (Scheduler.nextTcb L).wp (W.cells L) v g Q T := by
  have hready := h.ready
  rw [hR] at hready
  refine hready.wp_nextTcb Owners.cells_scheduler (fun x hx =>
    (Owners.cells_link (h.ready_mem (hR ▸ hx))).toLinkCells) fun v' hc hlist => ?_
  rw [← hR] at hc
  have hff : ∀ f ∈ [Field.next, Field.prev], f ≠ .head ∧ f ≠ .tail := by decide
  have hsame (a : Nat) (f : Field) (hf : f ≠ .next ∧ f ≠ .prev ∧ f ≠ .head ∧ f ≠ .tail) :
      v' a f = v a f := hc a f (by simp [hf]) (by simp [hf])
  refine hQ v' hc ⟨hlist, ?_, h.future, fun s hs => ?_, ?_, fun u hu => ?_, fun u hu => ?_,
    fun s hs u hu => ?_, fun s hs => ?_, fun u hu => ?_⟩
  · exact sleepList_of_changes hc h.asleep (by simpa using L.scheduler_ne.symm) hff
      (h.ready_asleep hW)
  · exact hc.isList (h.waiting s hs) (by simpa using (hW.sem_ne_list hs).1) hff
      (h.ready_waiting hW hs)
  · refine h.place_of_count fun x => ?_
    simp only [hR, List.count_cons]
    omega
  · rw [hsame _ _ (by decide)]
    exact h.readyStatus u (by simp only at hu; simp [hR, hu])
  · rw [hsame _ _ (by decide)]
    exact h.asleepStatus u hu
  · rw [hsame _ _ (by decide)]
    exact h.waitingStatus s hs u hu
  · rw [hsame _ _ (by decide)]
    exact h.bits s hs
  · rw [hsame _ _ (by decide)]
    exact h.flag u hu

theorem wp_takeWaiting_nil (h : Queues L W A v) (hs : s ∈ W.semaphores L) (hnil : A.waiting s = [])
    (hQ : Q 0 v g) : (ListTCB.takeFirst (s + 8)).wp (W.cells L) v g Q T := by
  have hlist := h.waiting s hs
  rw [hnil] at hlist
  exact hlist.wp_takeFirst_nil (Owners.cells_sem hs).2 hQ

/-- The thread that has been suspended for the longest time leaves the semaphore. -/
theorem wp_takeWaiting {R : List Nat} (hW : W.Tiled L) (h : Queues L W A v)
    (hs : s ∈ W.semaphores L) (hR : A.waiting s = t :: R)
    (hQ : ∀ v', Changes [s + 8] (A.waiting s) [.next, .prev] v v' →
      Queues L W
        { A with moving := t :: A.moving, waiting := Function.update A.waiting s R } v' →
      Q t v' g) : (ListTCB.takeFirst (s + 8)).wp (W.cells L) v g Q T := by
  have hlist := h.waiting s hs
  have hne := hW.sem_ne_list hs
  rw [hR] at hlist
  refine hlist.wp_takeFirst (Owners.cells_sem hs).2 (fun x hx =>
    (Owners.cells_link (h.waiting_mem hs (hR ▸ hx))).toLinkCells) fun v' hlinks hlist' _ _ => ?_
  have hc := Changes.of_links hlinks
  rw [← hR] at hc
  have hff : ∀ f ∈ [Field.next, Field.prev], f ≠ .head ∧ f ≠ .tail := by decide
  have hsame (a : Nat) (f : Field) (hf : f ≠ .next ∧ f ≠ .prev ∧ f ≠ .head ∧ f ≠ .tail) :
      v' a f = v a f := hc a f (by simp [hf]) (by simp [hf])
  refine hQ v' hc ⟨?_, ?_, h.future, fun s' hs' => ?_, ?_, fun u hu => ?_, fun u hu => ?_,
    fun s' hs' u hu => ?_, fun s' hs' => ?_, fun u hu => ?_⟩
  · exact hc.isList h.ready (by simpa using hne.1.symm) hff
      fun y hy hm => h.ready_waiting hW hs y hm hy
  · exact sleepList_of_changes hc h.asleep (by simpa using hne.2.symm) hff
      fun y hy hm => h.asleep_waiting hW hs y hm hy
  · by_cases hss : s' = s
    · subst hss
      simpa using hlist'
    · simp only [Function.update_of_ne hss]
      exact hc.isList (h.waiting s' hs') (by simpa using hss) hff
        (h.waiting_waiting hW hs' hs hss)
  · refine h.place_of_count fun x => ?_
    have := @count_flatMap_update _ A.waiting _ x R hW.semaphores_nodup hs
    simp only [hR, List.count_cons] at this ⊢
    omega
  · rw [hsame _ _ (by decide)]
    exact h.readyStatus u hu
  · rw [hsame _ _ (by decide)]
    exact h.asleepStatus u hu
  · rw [hsame _ _ (by decide)]
    by_cases hss : s' = s
    · subst hss
      simp only [Function.update_self] at hu
      exact h.waitingStatus s' hs' u (by simp [hR, hu])
    · simp only [Function.update_of_ne hss] at hu
      exact h.waitingStatus s' hs' u hu
  · rw [hsame _ _ (by decide)]
    exact h.bits s' hs'
  · rw [hsame _ _ (by decide)]
    exact h.flag u hu

end Taking

end Queues

end Os1Kernel
