import Os1Kernel.Heap.Frame
import Os1Kernel.Heap.Canonical

/-! Which addresses `free` accepts, and what it does with the others. -/

namespace Os1Kernel

open Memory MemoryAllocator
open Tiling hiding alloc

namespace MemoryAllocator

theorem readOnly_rd (a : Nat) (f : Field) : (rd a f).ReadOnly := fun _ => trivial

theorem readOnly_findPrev (newFb fuel currFb prev : Nat) :
    (findPrev newFb fuel currFb prev).ReadOnly := by
  induction fuel generalizing currFb prev with
  | zero => trivial
  | succ fuel ih =>
    unfold findPrev
    split
    · refine (readOnly_rd _ _).bind fun _ => ?_
      split
      · trivial
      · exact (readOnly_rd _ _).bind fun _ => ih _ _
    · trivial

/-- After its search `free` succeeds. -/
theorem freeAfter_success {newFb prev nBlocks : Nat} {m m' : Mem} {g g' : Globals} {r : Int}
    (h : (freeAfter newFb prev nBlocks).run m g = .done r m' g') : r = memSuccess := by
  obtain ⟨_, _, _, -, h⟩ := Prog.run_bind_done h
  obtain ⟨_, _, _, -, h⟩ := Prog.run_bind_done h
  obtain ⟨_, _, _, -, h⟩ := Prog.run_bind_done h
  obtain ⟨_, _, _, -, h⟩ := Prog.run_bind_done h
  obtain ⟨_, _, _, -, h⟩ := Prog.run_bind_done h
  obtain ⟨_, _, _, -, h⟩ := Prog.run_bind_done h
  cases h
  rfl

/-- A call of `free` that fails changes nothing, in any memory. -/
theorem free_failed {a : Nat} {m m' : Mem} {g g' : Globals} {r : Int}
    (h : (free a).run m g = .done r m' g') (hr : r ≠ memSuccess) : m' = m ∧ g' = g := by
  unfold free at h
  split at h
  · cases h
    exact ⟨rfl, rfl⟩
  split at h
  · cases h
    exact ⟨rfl, rfl⟩
  obtain ⟨_, _, _, hglobals, h₁⟩ := Prog.run_bind_done h
  cases hglobals
  obtain ⟨n, _, _, hread, h₂⟩ := Prog.run_bind_done h₁
  obtain ⟨rfl, rfl⟩ := (readOnly_rd _ _).run hread
  split at h₂
  · cases h₂
    exact ⟨rfl, rfl⟩
  obtain ⟨_, _, _, hglobals, h₃⟩ := Prog.run_bind_done h₂
  cases hglobals
  obtain ⟨p, _, _, hfind, h₄⟩ := Prog.run_bind_done h₃
  obtain ⟨rfl, rfl⟩ := (readOnly_findPrev _ _ _ _).run hfind
  cases p with
  | none =>
    cases h₄
    exact ⟨rfl, rfl⟩
  | some prev => exact absurd (freeAfter_success h₄) hr

end MemoryAllocator

variable {B : HeapBounds} {s s' : HeapState} {ts : List Tile}

/-- The search of `free` never ends in free blocks where the table has an entry. -/
theorem findPrev_found (h : HeapInv B s) {a : Nat} (hal : a % memBlockSize = 0)
    (ha : s.globals.heapStartAddr ≤ a ∧
      a < s.globals.heapStartAddr + 64 * totalBlocks B.start B.stop)
    (hentry : s.mem.field (entryOf s.globals a) Field.entry ≠ 0) :
    ∃ prev, (findPrev a walkLimit s.globals.fbHead 0).run s.mem s.globals =
      .done (some prev) s.mem s.globals := by
  obtain ⟨ts, hr, -⟩ := h
  obtain ⟨i, hi, rfl⟩ := hr.block_of_inside hal ha
  rw [B.entryOf_addr hr.start hr.table hi] at hentry
  have hmem : ∃ n, (i, n) ∈ segs true 0 ts := by
    by_contra hno
    exact hentry (hr.clear i hi fun n hn => hno ⟨n, hn⟩)
  obtain ⟨n, hmem⟩ := hmem
  have hn := segs_pos hr.valid.pos hmem
  obtain ⟨pre, post, rfl, hpre⟩ := mem_segs.mp hmem
  obtain rfl : i = size pre := by simpa using hpre
  have hcells := @HeapCells.of_own B (pre ++ owned n :: post) _ fun _ _ h => h
  have hwp := hr.wp_findPrev_owned (Q := fun p _ _ => ∃ prev, p = some prev)
    (T := fun _ _ _ _ => False) hn (fun a ha => by
      obtain ⟨t, ht, rfl⟩ := mem_headers.mp ha
      have hfree : t ∈ segs false 0 (pre ++ owned n :: post) := by
        simpa [segs_append, segs] using ht
      have hpos := segs_pos hr.valid.pos hfree
      exact hcells.headers t.1 ⟨t, hfree, le_rfl, by omega⟩) ⟨_, rfl⟩
  obtain ⟨p, m, g, _, hrun, -, -, prev, rfl⟩ := Prog.returns (separate_ofHeap B _)
    (Sim.self _ s.mem) hwp
  obtain ⟨rfl, rfl⟩ := (readOnly_findPrev _ _ _ _).run hrun
  exact ⟨prev, hrun⟩

/-- `free` of an aligned address inside the heap succeeds exactly at the start of an allocation, which
it releases; elsewhere it changes nothing, and its search never ends in free blocks. -/
theorem free_decides (h : HeapReach B s) {a : Nat} (hal : a % memBlockSize = 0)
    (ha : s.globals.heapStartAddr ≤ a ∧
      a < s.globals.heapStartAddr + 64 * totalBlocks B.start B.stop) :
    ∃ r m g, (free a).run s.mem s.globals = .done r m g ∧
      (r = memSuccess ↔ ∃ n, (a, n) ∈ s.live) ∧
      (∀ n, (a, n) ∈ s.live → s.live.Perm ((a, n) :: s.live.eraseP fun t => t.1 = a) ∧
        ∃ fs, AllocatorInvariant B ⟨m, g, s.live.eraseP fun t => t.1 = a⟩ fs) ∧
      ((∀ n, (a, n) ∉ s.live) → r = addressIsNotUsed ∧ m = s.mem ∧ g = s.globals) ∧
      (s.mem.field (entryOf s.globals a) Field.entry ≠ 0 → ∃ prev,
        (findPrev a walkLimit s.globals.fbHead 0).run s.mem s.globals =
          .done (some prev) s.mem s.globals) := by
  have hinv := heapInv_of_reach h
  have hfound := findPrev_found hinv hal ha
  obtain ⟨ts, hr, hlive⟩ := hinv
  obtain ⟨i, hi, rfl⟩ := hr.block_of_inside hal ha
  have hmem (n : Nat) : (B.addr i, n) ∈ s.live ↔ (i, n) ∈ segs true 0 ts := by
    rw [hlive.mem_iff]
    exact (List.mem_map_of_injective (located_injective B) (a := (i, n)))
  by_cases hused : ∃ n, (i, n) ∈ segs true 0 ts
  · obtain ⟨n, hn⟩ := hused
    obtain ⟨m, g, ts', hrun, hr', hlive', -⟩ := free_live hr hlive hn
    refine ⟨_, m, g, hrun, iff_of_true rfl ⟨n, (hmem n).mpr hn⟩, fun k hk => ⟨?_, ?_⟩,
      fun hno => absurd ((hmem n).mpr hn) (hno n), hfound⟩
    · have hrest := List.perm_cons_erase hk
      exact hrest.trans (.cons _ (live_erase hr hlive hrest).symm)
    · exact HeapInv.allocatorInvariant ⟨ts', hr', hlive'⟩
  · have hno : ∀ n, (B.addr i, n) ∉ s.live := fun n hn => hused ⟨n, (hmem n).mp hn⟩
    obtain ⟨r, m, g, _, hrun, -, -, rfl⟩ := Prog.returns (separate_ofHeap B ts) (Sim.self _ s.mem)
      (hr.wp_free_unused (Q := fun r _ _ => r = addressIsNotUsed) hi
        (fun n hn => hused ⟨n, hn⟩) ⟨.entry i, hi, rfl, rfl⟩ rfl)
    obtain ⟨rfl, rfl⟩ := free_failed hrun (by decide)
    refine ⟨_, _, _, hrun, iff_of_false (by decide) fun ⟨n, hn⟩ => hno n hn,
      fun n hn => absurd hn (hno n), fun _ => ⟨rfl, rfl, rfl⟩, hfound⟩

/-- `free` of an allocation of three blocks, and of the address of its second block. -/
theorem free_decides_smallHeap : ∃ s a m g, HeapReach smallHeap s ∧ s.live = [(a, 3)] ∧
    (free a).run s.mem s.globals = .done memSuccess m g ∧
    (free (a + memBlockSize)).run s.mem s.globals = .done addressIsNotUsed s.mem s.globals := by
  obtain ⟨s, a, m, g, h, hnil, hrun, ha⟩ := allocated_smallHeap
  have hreach : HeapReach smallHeap ⟨m, g, [(a, 3)]⟩ := by
    have hstep := h.step (.alloc 3 hrun)
    rwa [if_pos ⟨ha, by decide⟩, hnil] at hstep
  obtain ⟨ts, hr, hlive⟩ := heapInv_of_reach hreach
  have hmem := hlive.mem_iff.mp List.mem_cons_self
  have hin := located_inside hr.valid hmem
  rw [smallHeap.total_def, ← hr.start] at hin
  simp only at hin
  have hal : a % memBlockSize = 0 := by
    obtain ⟨t, -, ht⟩ := List.mem_map.mp hmem
    obtain rfl : smallHeap.addr t.1 = a := congrArg Prod.fst ht
    have hbase := smallHeap.spec.base_aligned
    simp only [HeapBounds.addr, memBlockSize]
    omega
  obtain ⟨r, m₁, g₁, hfree, hiff, -, -, -⟩ := free_decides hreach hal (by simp only; omega)
  obtain ⟨r', m₂, g₂, hfree', -, -, hno, -⟩ := free_decides hreach (a := a + memBlockSize)
    ((Nat.add_mod_right _ _).trans hal) (by simp only [memBlockSize]; omega)
  obtain rfl := hiff.mpr ⟨3, List.mem_cons_self⟩
  obtain ⟨rfl, rfl, rfl⟩ := hno (by simp [memBlockSize])
  exact ⟨_, a, m₁, g₁, hreach, rfl, hfree, hfree'⟩

/-! ### Addresses outside of the heap -/

/-- `free` rejects the address, reads no element beyond the end of the table, and changes neither the
free list nor the table. -/
def RejectsOutside (B : HeapBounds) (s : HeapState) (a : Nat) : Prop :=
  ∃ r m g, (free a).run s.mem s.globals = .done r m g ∧ r < 0 ∧
    (∀ c ∈ (free a).reads s.mem s.globals, c.2 = .entry →
      ∃ i < totalBlocks B.start B.stop, c.1 = s.globals.allocTable + 4 * i) ∧
    SameHeap B s ⟨m, g, s.live⟩

/-- The first thing that `free` reads is the element that it computes for the address. -/
theorem entry_mem_reads {a : Nat} (h0 : a ≠ 0) (hal : a % memBlockSize = 0) (m : Mem) (g : Globals) :
    (entryOf g a, Field.entry) ∈ (free a).reads m g := by
  unfold free
  rw [if_neg h0, if_neg (not_not.mpr hal)]
  exact List.mem_cons_self

/-- The element that is computed for an address outside of the heap is none of the table, although the
subtraction wraps below it. -/
theorem entryOf_outside {B : HeapBounds} {g : Globals} (hstart : g.heapStartAddr = B.base)
    (htable : g.allocTable = B.start) {a : Nat} (hal : a % memBlockSize = 0) (hlt : a < 2 ^ 64)
    (hout : a < B.base ∨ B.base + 64 * B.total ≤ a) {i : Nat} (hi : i < B.total) :
    entryOf g a ≠ B.start + 4 * i := by
  have hal : a % 64 = 0 := hal
  have hbase := B.spec.base_aligned
  have hend := B.spec.base_end
  have htotal := B.total_lt
  have hle := B.spec.table_le_base
  have hstop := B.stop_lt
  have hsub : u64 (a + 2 ^ 64 - B.base) / 64 < 2 ^ 58 ∧ B.total ≤ u64 (a + 2 ^ 64 - B.base) / 64 := by
    unfold u64
    omega
  rw [entryOf, hstart, htable, memBlockSize, sizeofBlocksT]
  generalize u64 (a + 2 ^ 64 - B.base) / 64 = k at hsub
  unfold u64
  omega

theorem reads_beyond (h : HeapReach B s) {a : Nat} (h0 : a ≠ 0) (hal : a % memBlockSize = 0)
    (hlt : a < 2 ^ 64) (hout : a < s.globals.heapStartAddr ∨
      s.globals.heapStartAddr + 64 * totalBlocks B.start B.stop ≤ a) :
    ∃ c ∈ (free a).reads s.mem s.globals, c.2 = .entry ∧
      ∀ i < totalBlocks B.start B.stop, c.1 ≠ s.globals.allocTable + 4 * i := by
  obtain ⟨ts, hr, -⟩ := heapInv_of_reach h
  refine ⟨_, entry_mem_reads h0 hal _ _, rfl, fun i hi => ?_⟩
  rw [← B.total_def] at hi hout
  rw [hr.start] at hout
  rw [hr.table]
  exact entryOf_outside hr.start hr.table hal hlt hout hi

/-- For no address outside of the heap does `free` keep to its table. -/
theorem free_outside_reads (h : HeapReach B s) {a : Nat} (h0 : a ≠ 0) (hal : a % memBlockSize = 0)
    (hlt : a < 2 ^ 64) (hout : a < s.globals.heapStartAddr ∨
      s.globals.heapStartAddr + 64 * totalBlocks B.start B.stop ≤ a) : ¬RejectsOutside B s a := by
  rintro ⟨r, m, g, -, -, hreads, -⟩
  obtain ⟨c, hc, hf, hno⟩ := reads_beyond h h0 hal hlt hout
  obtain ⟨i, hi, heq⟩ := hreads c hc hf
  exact hno i hi heq

/-- An address below the heap. -/
theorem below_smallHeap : ∃ s, HeapReach smallHeap s ∧ 64 < s.globals.heapStartAddr := by
  obtain ⟨m, g, h⟩ := construct_returns smallHeap (fun _ => 0) (.image 0 0)
  have h0 := HeapReach.construct _ _ h
  obtain ⟨ts, hr, -⟩ := heapInv_of_reach h0
  have hle := smallHeap.spec.table_le_base
  have hstart : smallHeap.start = 8192 := rfl
  refine ⟨_, h0, ?_⟩
  rw [hr.start]
  omega

theorem free_outside_reads_smallHeap : ∃ s, HeapReach smallHeap s ∧ ¬RejectsOutside smallHeap s 64 := by
  obtain ⟨s, h, hlt⟩ := below_smallHeap
  exact ⟨s, h, free_outside_reads h (by decide) (by decide) (by decide) (.inl hlt)⟩

/-- `free` of an address below the heap reads behind the table. -/
theorem free_outside_fails : ¬∀ (B : HeapBounds) (s : HeapState) (a : Nat), HeapReach B s → a ≠ 0 →
    a % memBlockSize = 0 → a < 2 ^ 64 → (a < s.globals.heapStartAddr ∨
      s.globals.heapStartAddr + 64 * totalBlocks B.start B.stop ≤ a) → RejectsOutside B s a := by
  intro hall
  obtain ⟨s, h, hlt⟩ := below_smallHeap
  obtain ⟨r, m, g, -, -, hreads, -⟩ :=
    hall smallHeap s 64 h (by decide) (by decide) (by decide) (.inl hlt)
  obtain ⟨c, hc, hf, hno⟩ := reads_beyond h (by decide) (by decide) (by decide) (.inl hlt)
  obtain ⟨i, hi, heq⟩ := hreads c hc hf
  exact hno i hi heq

end Os1Kernel
