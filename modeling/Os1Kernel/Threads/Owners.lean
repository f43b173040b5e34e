import Os1Kernel.Heap.Run

/-! What the heap is used for: threads with their stacks and semaphores, the semaphores of user code,
and its blocks.  The objects that the kernel uses lie apart in memory. -/

namespace Os1Kernel

open Memory
open Tiling hiding alloc

/-- The owners of the allocations. -/
structure Owners where
  tiles : List Tile
  mainStack : Nat
  threads : List Nat
  join : Nat → Nat
  stack : Nat → Nat
  kernelStack : Nat → Nat
  sems : List Nat
  blocks : List (Nat × Nat)

namespace Owners

/-- The allocations of the thread `t`: its `TCB`, its stacks, and the semaphore for those who join
it. -/
def ofThread (W : Owners) (t : Nat) : List (Nat × Nat) :=
  [(t, toBlocks sizeofTCB), (W.stack t, toBlocks defaultStackSize),
    (W.kernelStack t, toBlocks defaultStackSize), (W.join t, toBlocks sizeofSem)]

def used (W : Owners) : List (Nat × Nat) :=
  (W.mainStack, toBlocks defaultStackSize) ::
    (W.threads.flatMap W.ofThread ++ (W.sems.map fun s => (s, toBlocks sizeofSem)) ++ W.blocks)

/-- The semaphores that have not been closed. -/
def semaphores (L : Layout) (W : Owners) : List Nat :=
  L.putcSem :: L.getcSem :: (W.threads.map W.join ++ W.sems)

/-- The objects that the kernel uses. -/
def objs (L : Layout) (W : Owners) : Obj → Prop
  | .entry i => i < L.heap.total
  | .header i => Holds false W.tiles i
  | .tcb t => t = L.mainTcb ∨ t ∈ W.threads
  | .sem s => s ∈ W.semaphores L
  | .list l => l = L.scheduler ∨ l = L.sleepQueue

/-- The heap is tiled by the allocations of the owners. -/
structure Tiled (L : Layout) (W : Owners) : Prop where
  valid : Valid L.heap.total W.tiles
  used : W.used.Perm ((segs true 0 W.tiles).map (located L.heap))

theorem toBlocks_tcb : toBlocks sizeofTCB = 6 := by decide
theorem toBlocks_sem : toBlocks sizeofSem = 1 := by decide
theorem toBlocks_stack : toBlocks defaultStackSize = 64 := by decide

/-- Two allocations do not overlap. -/
def BlocksApart (t u : Nat × Nat) : Prop := Apart t.1 (64 * t.2) u.1 (64 * u.2)

instance : Std.Symm BlocksApart := ⟨fun _ _ h => Apart.symm h⟩

/-- Two ranges, pairs of an address and a number of bytes, do not overlap. -/
def RangesApart (r s : Nat × Nat) : Prop := Apart r.1 r.2 s.1 s.2

/-- The objects in static storage, and those in allocations, with the bytes that are theirs. -/
def staticSeats (L : Layout) : List (Obj × Nat × Nat) :=
  [(.tcb L.mainTcb, L.mainTcb, 360), (.list L.scheduler, L.scheduler, 24),
    (.list L.sleepQueue, L.sleepQueue, 16), (.sem L.putcSem, L.putcSem, 24),
    (.sem L.getcSem, L.getcSem, 24)]

def heapSeats (W : Owners) : List (Obj × Nat × Nat) :=
  (W.threads.flatMap fun t => [(.tcb t, t, 384), (.sem (W.join t), W.join t, 64)]) ++
    W.sems.map fun s => (.sem s, s, 64)

instance : Std.Symm fun p q : Obj × Nat × Nat => RangesApart p.2 q.2 := ⟨fun _ _ h => Apart.symm h⟩

variable {L : Layout} {W : Owners}

namespace Tiled

theorem pairwise (h : W.Tiled L) : W.used.Pairwise BlocksApart := by
  have hsym : ∀ {t u : Nat × Nat}, BlocksApart t u → BlocksApart u t := fun h => Apart.symm h
  refine (h.used.pairwise_iff hsym).mpr (List.pairwise_map.mpr ?_)
  refine (segs_sorted true 0 W.tiles).imp fun {s t} hst => .inl ?_
  simp only [located, HeapBounds.addr]
  omega

theorem inside (h : W.Tiled L) {t : Nat × Nat} (ht : t ∈ W.used) :
    L.heap.base ≤ t.1 ∧ t.1 + 64 * t.2 ≤ L.heap.base + 64 * L.heap.total ∧ 0 < t.2 :=
  located_inside h.valid (h.used.mem_iff.mp ht)

theorem aligned (h : W.Tiled L) {t : Nat × Nat} (ht : t ∈ W.used) :
    ∃ i < L.heap.total, t.1 = L.heap.addr i ∧ (i, t.2) ∈ segs true 0 W.tiles := by
  obtain ⟨⟨i, n⟩, hr, rfl⟩ := List.mem_map.mp (h.used.mem_iff.mp ht)
  have hb := (segs_bounds hr).2
  have hp := segs_pos h.valid.pos hr
  rw [h.valid.size] at hb
  exact ⟨i, by simp only at hb hp; omega, rfl, hr⟩

theorem mem_thread {t : Nat} (ht : t ∈ W.threads) {r : Nat × Nat} (hr : r ∈ W.ofThread t) :
    r ∈ W.used := by
  refine List.mem_cons_of_mem _ (List.mem_append_left _ (List.mem_append_left _ ?_))
  exact List.mem_flatMap.mpr ⟨t, ht, hr⟩

theorem mem_sem {s : Nat} (hs : s ∈ W.sems) : (s, toBlocks sizeofSem) ∈ W.used :=
  List.mem_cons_of_mem _ (List.mem_append_left _ (List.mem_append_right _
    (List.mem_map.mpr ⟨s, hs, rfl⟩)))

theorem mem_block {r : Nat × Nat} (hr : r ∈ W.blocks) : r ∈ W.used :=
  List.mem_cons_of_mem _ (List.mem_append_right _ hr)

theorem nodup (h : W.Tiled L) : W.used.Nodup := by
  refine h.pairwise.imp_of_mem fun {t u} ht _ hap heq => ?_
  have := (h.inside ht).2.2
  subst heq
  unfold BlocksApart Apart at hap
  omega

/-- Different allocations do not overlap. -/
theorem apart_of_ne (h : W.Tiled L) {t u : Nat × Nat} (ht : t ∈ W.used) (hu : u ∈ W.used)
    (hne : t ≠ u) : BlocksApart t u :=
  h.pairwise.forall ht hu hne

theorem join_injOn (h : W.Tiled L) : (W.threads.map W.join ++ W.sems).Nodup := by
  have hnd : ((W.threads.map W.join ++ W.sems).map fun s => (s, toBlocks sizeofSem)).Nodup := by
    rw [List.map_append, List.map_map]
    refine List.Sublist.nodup ?_ h.nodup
    refine .cons _ (List.Sublist.trans (.append ?_ (.refl _)) (List.sublist_append_left _ _))
    generalize W.threads = ts
    induction ts with
    | nil => exact .slnil
    | cons t ts ih =>
      simp only [List.map_cons, List.flatMap_cons, ofThread, Function.comp]
      exact .cons _ (.cons _ (.cons _ (.cons_cons _ ih)))
  exact hnd.of_map _

theorem threads_nodup (h : W.Tiled L) : W.threads.Nodup := by
  have hnd : (W.threads.map fun t => (t, toBlocks sizeofTCB)).Nodup := by
    refine List.Sublist.nodup ?_ h.nodup
    refine .cons _ (List.Sublist.trans ?_ ((List.sublist_append_left _ _).trans
      (List.sublist_append_left _ _)))
    generalize W.threads = ts
    induction ts with
    | nil => exact .slnil
    | cons t ts ih =>
      simp only [List.map_cons, List.flatMap_cons, ofThread, List.cons_append, List.nil_append]
      exact .cons_cons _ (.cons _ (.cons _ (.cons _ ih)))
  exact hnd.of_map _

/-- The seats in the heap are ends of allocations. -/
theorem heapSeats_sublist (W : Owners) : (W.heapSeats.map Prod.snd).Sublist
    (W.used.map fun r => (r.1, 64 * r.2)) := by
  rw [Owners.used, heapSeats, List.map_cons, List.map_append, List.map_append, List.map_append]
  refine .cons _ (List.Sublist.trans ?_ (List.sublist_append_left _ _))
  refine .append ?_ ?_
  · generalize W.threads = ts
    induction ts with
    | nil => exact .slnil
    | cons t ts ih =>
      simp only [List.flatMap_cons, ofThread, List.map_cons, List.cons_append, List.nil_append]
      exact .cons_cons _ (.cons _ (.cons _ (.cons_cons _ ih)))
  · rw [List.map_map, List.map_map]
    exact .refl _

theorem statics_below (L : Layout) {p : Obj × Nat × Nat} (hp : p ∈ staticSeats L) :
    0 < p.2.1 ∧ p.2.1 + p.2.2 ≤ L.heap.start := by
  refine L.inside p.2 ?_
  simp only [staticSeats, List.mem_cons, List.not_mem_nil, or_false] at hp
  rcases hp with rfl | rfl | rfl | rfl | rfl <;> simp

theorem heapSeats_inside {p : Obj × Nat × Nat} (hp : p ∈ W.heapSeats) :
    ∃ r ∈ W.used, p.2.1 = r.1 ∧ p.2.2 = 64 * r.2 := by
  have hm := (heapSeats_sublist W).subset (List.mem_map.mpr ⟨p, hp, rfl⟩)
  obtain ⟨r, hr, heq⟩ := List.mem_map.mp hm
  exact ⟨r, hr, by rw [← heq], by rw [← heq]⟩

/-- The seats do not overlap. -/
theorem seats_apart (h : W.Tiled L) :
    (staticSeats L ++ W.heapSeats).Pairwise fun p q => RangesApart p.2 q.2 := by
  refine List.pairwise_append.mpr ⟨?_, ?_, fun p hp q hq => ?_⟩
  · exact List.pairwise_map.mp (show ((staticSeats L).map Prod.snd).Pairwise RangesApart from L.apart)
  · refine List.pairwise_map.mp (List.Pairwise.sublist (heapSeats_sublist W) ?_)
    exact List.pairwise_map.mpr (h.pairwise.imp fun h => h)
  · have hlow := statics_below L hp
    obtain ⟨r, hr, hq1, hq2⟩ := heapSeats_inside hq
    have hin := h.inside hr
    have htable := L.heap.spec.table_le_base
    unfold RangesApart Apart
    omega

/-- A thread, a semaphore or a list of the kernel has a seat. -/
theorem seat_of_objs {o : Obj} (ho : W.objs L o) (he : ∀ i, o ≠ .entry i) (hh : ∀ i, o ≠ .header i) :
    ∃ r, (o, r) ∈ staticSeats L ++ W.heapSeats ∧ (o.region L.heap).1 = r.1 ∧
      (o.region L.heap).2 ≤ r.2 := by
  cases o with
  | entry i => exact absurd rfl (he i)
  | header i => exact absurd rfl (hh i)
  | tcb t =>
    rcases ho with rfl | ht
    · exact ⟨(L.mainTcb, 360), by simp [staticSeats], rfl, le_rfl⟩
    · refine ⟨(t, 384), List.mem_append_right _ (List.mem_append_left _ ?_), rfl, by simp [Obj.region]⟩
      exact List.mem_flatMap.mpr ⟨t, ht, by simp⟩
  | sem s =>
    simp only [objs, semaphores, List.mem_cons, List.mem_append, List.mem_map] at ho
    rcases ho with rfl | rfl | ⟨t, ht, rfl⟩ | hs
    · exact ⟨(L.putcSem, 24), by simp [staticSeats], rfl, le_rfl⟩
    · exact ⟨(L.getcSem, 24), by simp [staticSeats], rfl, le_rfl⟩
    · refine ⟨(W.join t, 64), List.mem_append_right _ (List.mem_append_left _ ?_), rfl,
        by simp [Obj.region]⟩
      exact List.mem_flatMap.mpr ⟨t, ht, by simp⟩
    · refine ⟨(s, 64), List.mem_append_right _ (List.mem_append_right _ ?_), rfl,
        by simp [Obj.region]⟩
      exact List.mem_map.mpr ⟨s, hs, rfl⟩
  | list l =>
    rcases ho with rfl | rfl
    · exact ⟨(L.scheduler, 24), by simp [staticSeats], rfl, by simp [Obj.region]⟩
    · exact ⟨(L.sleepQueue, 16), by simp [staticSeats], rfl, le_rfl⟩

/-- An object of the allocator and a seat do not overlap. -/
theorem ofHeap_seat_apart (h : W.Tiled L) {o : Obj} (ho : Obj.ofHeap L.heap W.tiles o)
    {p : Obj × Nat × Nat} (hp : p ∈ staticSeats L ++ W.heapSeats) :
    RangesApart (o.region L.heap) p.2 := by
  have htable := L.heap.spec.table_le_base
  rcases List.mem_append.mp hp with hp | hp
  · have hlow := statics_below L hp
    cases o with
    | entry i =>
      simp only [RangesApart, Apart, Obj.region, HeapBounds.entryAddr]
      omega
    | header i =>
      simp only [RangesApart, Apart, Obj.region, HeapBounds.addr]
      omega
    | tcb _ => exact ho.elim
    | sem _ => exact ho.elim
    | list _ => exact ho.elim
  · obtain ⟨r, hr, hq1, hq2⟩ := heapSeats_inside hp
    have hin := h.inside hr
    cases o with
    | entry i =>
      have hi := L.heap.entryAddr_lt ho
      simp only [RangesApart, Apart, Obj.region]
      omega
    | header i =>
      have hout := free_outside h.valid ho (h.used.mem_iff.mp hr)
      simp only [RangesApart, Apart, Obj.region]
      omega
    | tcb _ => exact ho.elim
    | sem _ => exact ho.elim
    | list _ => exact ho.elim

/-- The cells of the kernel's objects are apart in memory. -/
theorem separate (h : W.Tiled L) : Separate (Obj.own L.heap (W.objs L)) := by
  have hkind (o : Obj) (ho : W.objs L o) : Obj.ofHeap L.heap W.tiles o ∨
      (∀ i, o ≠ .entry i) ∧ ∀ i, o ≠ .header i := by
    cases o with
    | entry i => exact .inl ho
    | header i => exact .inl ho
    | tcb _ => exact .inr ⟨by simp, by simp⟩
    | sem _ => exact .inr ⟨by simp, by simp⟩
    | list _ => exact .inr ⟨by simp, by simp⟩
  refine Obj.separate (fun o o' ho ho' hne => ?_) fun o ho => ?_
  · rcases hkind o ho with hh | ⟨he, hh⟩
    · rcases hkind o' ho' with hh' | ⟨he', hh'⟩
      · exact Obj.ofHeap_apart hh hh' hne
      · obtain ⟨r, hr, h1, h2⟩ := seat_of_objs ho' he' hh'
        exact (h.ofHeap_seat_apart hh hr).within le_rfl le_rfl (by simp only; omega)
          (by simp only; omega)
    · obtain ⟨r, hr, h1, h2⟩ := seat_of_objs ho he hh
      rcases hkind o' ho' with hh' | ⟨he', hh'⟩
      · exact ((h.ofHeap_seat_apart hh' hr).within le_rfl le_rfl (by simp only; omega)
          (by simp only; omega)).symm
      · obtain ⟨r', hr', h1', h2'⟩ := seat_of_objs ho' he' hh'
        have hap := h.seats_apart.forall hr hr' fun heq => hne (Prod.mk.inj heq).1
        exact Apart.within hap (by simp only; omega) (by simp only; omega) (by simp only; omega)
          (by simp only; omega)
  · rcases hkind o ho with hh | ⟨he, hh⟩
    · exact Obj.ofHeap_pos hh
    · obtain ⟨r, hr, h1, -⟩ := seat_of_objs ho he hh
      rcases List.mem_append.mp hr with hr | hr
      · have := (statics_below L hr).1
        simp only at this
        omega
      · obtain ⟨u, hu, hq1, -⟩ := heapSeats_inside hr
        have := (h.inside hu).1
        have := L.heap.base_pos
        simp only at hq1
        omega

end Tiled

end Owners

end Os1Kernel
