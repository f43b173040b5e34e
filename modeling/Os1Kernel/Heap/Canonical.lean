import Os1Kernel.Heap.Run

/-! The heap is a function of the set of live allocations, whatever calls led to it. -/

namespace Os1Kernel

open Memory MemoryAllocator
open Tiling hiding alloc

variable {B : HeapBounds} {s s' s₁ s₂ : HeapState} {ts : List Tile}

/-- The walks along the two free lists visit the same segments, and the two tables agree. -/
structure SameHeap (B : HeapBounds) (s₁ s₂ : HeapState) : Prop where
  walk : ∃ fs, FreeWalk s₁.mem s₁.globals.fbHead fs ∧ FreeWalk s₂.mem s₂.globals.fbHead fs
  start : s₁.globals.heapStartAddr = s₂.globals.heapStartAddr
  address : s₁.globals.allocTable = s₂.globals.allocTable
  table : ∀ i < totalBlocks B.start B.stop,
    s₁.mem.field (s₁.globals.allocTable + 4 * i) Field.entry =
      s₂.mem.field (s₂.globals.allocTable + 4 * i) Field.entry

theorem located_injective (B : HeapBounds) : Function.Injective (located B) := by
  rintro ⟨i, n⟩ ⟨j, k⟩ h
  obtain ⟨h1, h2⟩ := Prod.mk.inj h
  obtain rfl : i = j := B.addr_inj.mp h1
  obtain rfl : n = k := h2
  rfl

/-- The table is a function of the tiles. -/
theorem HeapRep.entry_eq {v v' : Cells} {g g' : Globals} (h : HeapRep B ts v g) (h' : HeapRep B ts v' g')
    {i : Nat} (hi : i < B.total) : v (B.entryAddr i) .entry = v' (B.entryAddr i) .entry := by
  by_cases hu : ∃ n, (i, n) ∈ segs true 0 ts
  · obtain ⟨n, hn⟩ := hu
    exact (h.live _ hn).trans (h'.live _ hn).symm
  · have hno : ∀ n, (i, n) ∉ segs true 0 ts := fun n hn => hu ⟨n, hn⟩
    exact (h.clear i hi hno).trans (h'.clear i hi hno).symm

theorem sameHeap_of_inv (h₁ : HeapInv B s₁) (h₂ : HeapInv B s₂) (h : s₁.live.Perm s₂.live) :
    SameHeap B s₁ s₂ := by
  obtain ⟨ts, hr₁, hl₁⟩ := h₁
  obtain ⟨us, hr₂, hl₂⟩ := h₂
  have hperm := (hl₁.symm.trans h).trans hl₂
  obtain rfl : ts = us := hr₁.valid.ext hr₂.valid
    ((List.map_perm_map_iff (located_injective B)).mp hperm)
  refine ⟨⟨_, freeWalk_of_freeList hr₁.freeList, freeWalk_of_freeList hr₂.freeList⟩,
    hr₁.start.trans hr₂.start.symm, hr₁.table.trans hr₂.table.symm, fun i hi => ?_⟩
  rw [← B.total_def] at hi
  have hentry : B.start + 4 * i = B.entryAddr i := by rw [HeapBounds.entryAddr, Nat.mul_comm]
  rw [hr₁.table, hr₂.table, hentry]
  exact hr₁.entry_eq hr₂ hi

/-- The addresses `as` are freed, one after the other, and every call succeeds. -/
inductive FreeAll : HeapState → List Nat → HeapState → Prop
  | nil (s : HeapState) : FreeAll s [] s
  | cons {s s' : HeapState} {a : Nat} {as : List Nat} {m : Mem} {g : Globals}
      (hrun : (free a).run s.mem s.globals = .done memSuccess m g)
      (h : FreeAll ⟨m, g, s.live.eraseP fun t => t.1 = a⟩ as s') : FreeAll s (a :: as) s'

/-- Allocations are freed in any order. -/
theorem freeAll_of_perm (h : HeapInv B s) {front rest : List (Nat × Nat)}
    (hl : s.live.Perm (front ++ rest)) :
    ∃ s', FreeAll s (front.map Prod.fst) s' ∧ HeapInv B s' ∧ s'.live.Perm rest := by
  induction front generalizing s with
  | nil => exact ⟨s, .nil s, h, hl⟩
  | cons t front ih =>
    obtain ⟨ts, hr, hlive⟩ := h
    have hmem : t ∈ (segs true 0 ts).map (located B) :=
      (hl.symm.trans hlive).mem_iff.mp List.mem_cons_self
    obtain ⟨⟨i, n⟩, hu, rfl⟩ := List.mem_map.mp hmem
    obtain ⟨m, g, ts', hrun, hr', hlive', -⟩ := free_live hr hlive hu
    obtain ⟨s', hfree, hinv, hrest⟩ := ih (s := ⟨m, g, s.live.eraseP fun t => t.1 = B.addr i⟩)
      ⟨ts', hr', hlive'⟩ (live_erase hr hlive hl)
    exact ⟨s', .cons hrun hfree, hinv, hrest⟩

/-- A heap without allocations is one free segment. -/
theorem single_of_empty (h : HeapInv B s) (hnil : s.live = []) :
    FreeWalk s.mem s.globals.fbHead
      [(s.globals.heapStartAddr, totalBlocks B.start B.stop)] ∧
    ∀ i < totalBlocks B.start B.stop,
      s.mem.field (s.globals.allocTable + 4 * i) Field.entry = 0 := by
  obtain ⟨ts, hr, hlive⟩ := h
  have hvalid : Valid B.total [gap B.total] := HeapRep.valid_gap _ B.spec.total_pos
  have hsegs : segs true 0 ts = [] := by
    rw [hnil] at hlive
    exact List.map_eq_nil_iff.mp (List.nil_perm.mp hlive)
  obtain rfl : ts = [gap B.total] := hr.valid.ext hvalid (by rw [hsegs]; rfl)
  refine ⟨?_, fun i hi => ?_⟩
  · have hwalk := freeWalk_of_freeList hr.freeList
    have haddr : B.addr 0 = B.base := by simp [HeapBounds.addr]
    rw [hr.start, ← B.total_def, ← haddr]
    exact hwalk
  · rw [← B.total_def] at hi
    rw [hr.table, Nat.mul_comm]
    exact hr.clear i hi fun n hn => by simp [segs] at hn

/-- The free list and the table are determined by the live allocations: freeing allocations leads to
the same heap in every order, `free` undoes `alloc`, and a heap with nothing allocated is one
segment. -/
theorem canonical_heap :
    (∀ s₁ s₂, HeapReach B s₁ → HeapReach B s₂ → s₁.live.Perm s₂.live → SameHeap B s₁ s₂) ∧
    (∀ s front front' rest, HeapReach B s → s.live.Perm (front ++ rest) → front.Perm front' →
      ∃ s₁ s₂, FreeAll s (front.map Prod.fst) s₁ ∧ FreeAll s (front'.map Prod.fst) s₂ ∧
        SameHeap B s₁ s₂) ∧
    (∀ s n a m g, HeapReach B s → u32 n ≠ 0 → a ≠ 0 →
      (alloc n).run s.mem s.globals = .done a m g →
      ∃ m' g', (free a).run m g = .done memSuccess m' g' ∧ SameHeap B ⟨m', g', s.live⟩ s) ∧
    ∀ s all, HeapReach B s → s.live.Perm all → ∃ s', FreeAll s (all.map Prod.fst) s' ∧
      FreeWalk s'.mem s'.globals.fbHead
        [(s'.globals.heapStartAddr, totalBlocks B.start B.stop)] ∧
      ∀ i < totalBlocks B.start B.stop,
        s'.mem.field (s'.globals.allocTable + 4 * i) Field.entry = 0 := by
  refine ⟨fun s₁ s₂ h₁ h₂ hp => ?_, fun s front front' rest h hl hp => ?_,
    fun s n a m g h hn ha hrun => ?_, fun s all h hl => ?_⟩
  · exact sameHeap_of_inv (heapInv_of_reach h₁) (heapInv_of_reach h₂) hp
  · have hinv := heapInv_of_reach h
    obtain ⟨s₁, hf₁, hi₁, hl₁⟩ := freeAll_of_perm hinv hl
    obtain ⟨s₂, hf₂, hi₂, hl₂⟩ := freeAll_of_perm hinv (hl.trans (hp.append_right rest))
    exact ⟨s₁, s₂, hf₁, hf₂, sameHeap_of_inv hi₁ hi₂ (hl₁.trans hl₂.symm)⟩
  · have hinv := heapInv_of_reach h
    obtain ⟨a', m', g', heq, hinv'⟩ := heapInv_alloc hinv n
    rw [hrun] at heq
    cases heq
    rw [if_pos ⟨ha, hn⟩] at hinv'
    obtain ⟨s', hf, hi, hl⟩ := freeAll_of_perm hinv'
      (show ((a, u32 n) :: s.live).Perm ([(a, u32 n)] ++ s.live) from .refl _)
    cases hf with
    | cons hfree hnil =>
      cases hnil
      refine ⟨_, _, hfree, sameHeap_of_inv ?_ hinv (.refl _)⟩
      obtain ⟨ts, hr, hlive⟩ := hi
      exact ⟨ts, hr, hl.symm.trans hlive⟩
  · obtain ⟨s', hf, hi, hl'⟩ := freeAll_of_perm (heapInv_of_reach h)
      (show s.live.Perm (all ++ []) by simpa using hl)
    exact ⟨s', hf, single_of_empty hi (List.perm_nil.mp hl')⟩

theorem first_alloc {a : Nat} {m : Mem} {g : Globals}
    (h : (construct smallHeap.start smallHeap.stop >>= fun _ => alloc 3).run (fun _ => 0)
      (.image 0 0) = .done a m g) : a ≠ 0 := by
  have hne : ((construct smallHeap.start smallHeap.stop >>= fun _ => alloc 3).run (fun _ => 0)
      (.image 0 0)).result? ≠ some 0 := by
    decide +kernel
  rintro rfl
  exact hne (congrArg Outcome.result? h)

/-- Three blocks of the small heap are allocated. -/
theorem allocated_smallHeap : ∃ s a m g, HeapReach smallHeap s ∧ s.live = [] ∧
    (alloc 3).run s.mem s.globals = .done a m g ∧ a ≠ 0 := by
  obtain ⟨m₀, g₀, h⟩ := construct_returns smallHeap (fun _ => 0) (.image 0 0)
  have h0 := HeapReach.construct _ _ h
  obtain ⟨a, m, g, h', -⟩ := heapInv_alloc (heapInv_of_reach h0) 3
  have hrun : (construct smallHeap.start smallHeap.stop >>= fun _ => alloc 3).run (fun _ => 0)
      (.image 0 0) = .done a m g := by
    rw [Prog.run_bind, h]
    exact h'
  exact ⟨_, a, m, g, h0, rfl, h', first_alloc hrun⟩

/-- They are freed again. -/
theorem canonical_heap_smallHeap : ∃ s a m g m' g', HeapReach smallHeap s ∧
    (alloc 3).run s.mem s.globals = .done a m g ∧ a ≠ 0 ∧
    (free a).run m g = .done memSuccess m' g' ∧ SameHeap smallHeap ⟨m', g', s.live⟩ s := by
  obtain ⟨s, a, m, g, h, -, hrun, ha⟩ := allocated_smallHeap
  obtain ⟨m', g', hfree, hsame⟩ := canonical_heap.2.2.1 _ 3 a m g h (by decide) ha hrun
  exact ⟨s, a, m, g, m', g', h, hrun, ha, hfree, hsame⟩

end Os1Kernel
