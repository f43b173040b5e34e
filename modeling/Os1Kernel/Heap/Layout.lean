import Os1Kernel.Heap.Run

/-! The constructor's arithmetic for all bounds of the heap. -/

namespace Os1Kernel

open Memory MemoryAllocator

theorem zeroTable_globals {a n : Nat} {m m' : Mem} {g g' : Globals}
    (h : (zeroTable a n).run m g = .done () m' g') : g' = g := by
  induction n generalizing m' g' with
  | zero =>
    cases h
    rfl
  | succ n ih =>
    obtain ⟨_, m₁, g₁, hn, hw⟩ := Prog.run_bind_done h
    obtain rfl := ih hn
    rw [wr, Prog.run] at hw
    split at hw
    · cases hw
    · cases hw
      rfl

theorem wr_globals {a x : Nat} {f : Field} {m m' : Mem} {g g' : Globals}
    (h : (wr a f x).run m g = .done () m' g') : g' = g := by
  rw [wr, Prog.run] at h
  split at h
  · cases h
  · cases h
    rfl

/-- For all bounds of the heap the constructor gives up at most one block, aligns the blocks, and puts
the table and the blocks next to each other inside of the bounds; no conversion loses a bit. -/
theorem heap_layout {start stop : Nat} (hle : start ≤ stop) (hstop : stop + 1 < 2 ^ 64)
    (hq : 2 ≤ (stop - start + 1) / 68) (hlt : (stop - start + 1) / 68 < 2 ^ 32) :
    let q := (stop - start + 1) / 68
    let total := totalBlocks start stop
    let base := start + total * sizeofBlocksT + paddingSize start stop
    (q - 1 ≤ total ∧ total ≤ q) ∧ base % memBlockSize = 0 ∧
    (start + 4 * total ≤ base ∧ base + 64 * total ≤ stop + 1) ∧
    (maxBlocks start stop = q ∧ u64 base = base ∧ paddingSize start stop ≤ 64) ∧
    ∀ m g m' g', (construct start stop).run m g = .done () m' g' →
      g'.heapStartAddr = base ∧ g'.allocTable = start := by
  have hsub : u64 (stop + 2 ^ 64 - start + 1) = stop - start + 1 := by
    unfold u64
    omega
  have hmax : maxBlocks start stop = (stop - start + 1) / 68 := by
    rw [maxBlocks, hsub]
    exact u32_of_lt hlt
  have hbytes : (stop - start + 1) / 68 * 68 ≤ stop - start + 1 := Nat.div_mul_le_self _ _
  have hmis {n : Nat} (hn : n ≤ (stop - start + 1) / 68) :
      misalignment start n = (start + n * 4) % 64 := by
    rw [misalignment, sizeofBlocksT, memBlockSize, u64_of_lt (by omega)]
  have hpred : u32 ((stop - start + 1) / 68 + 2 ^ 32 - 1) = (stop - start + 1) / 68 - 1 := by
    unfold u32
    omega
  have htotal : totalBlocks start stop = if (start + (stop - start + 1) / 68 * 4) % 64 ≠ 0 then
      (stop - start + 1) / 68 - 1 else (stop - start + 1) / 68 := by
    simp only [totalBlocks, hmax, hmis le_rfl, hpred]
  have hpad : paddingSize start stop = if (start + (stop - start + 1) / 68 * 4) % 64 ≠ 0 then
      64 - (start + totalBlocks start stop * 4) % 64 else 0 := by
    have hn : totalBlocks start stop ≤ (stop - start + 1) / 68 := by
      rw [htotal]
      split <;> omega
    rw [paddingSize, hmax, hmis le_rfl, hmis hn, memBlockSize, u32_of_lt (by omega)]
  have hrun (m : Mem) (g : Globals) (m' : Mem) (g' : Globals)
      (h : (construct start stop).run m g = .done () m' g') :
      g'.heapStartAddr = u64 (start + totalBlocks start stop * sizeofBlocksT + paddingSize start stop) ∧
        g'.allocTable = start := by
    obtain ⟨_, _, _, h₁, h⟩ := Prog.run_bind_done h
    cases h₁
    obtain ⟨_, m₂, g₂, h₂, h⟩ := Prog.run_bind_done h
    obtain rfl := zeroTable_globals h₂
    obtain ⟨_, _, _, h₃, h⟩ := Prog.run_bind_done h
    cases h₃
    obtain ⟨_, m₄, g₄, h₄, h⟩ := Prog.run_bind_done h
    obtain rfl := wr_globals h₄
    obtain ⟨_, m₅, g₅, h₅, h⟩ := Prog.run_bind_done h
    obtain rfl := wr_globals h₅
    obtain rfl := wr_globals h
    exact ⟨rfl, rfl⟩
  simp only [sizeofBlocksT, memBlockSize] at hrun ⊢
  generalize paddingSize start stop = padding at hpad hrun ⊢
  generalize totalBlocks start stop = total at htotal hpad hrun ⊢
  have hbase : (start + total * 4 + padding) % 64 = 0 ∧ padding ≤ 64 ∧
      start + total * 4 + padding + 64 * total ≤ stop + 1 := by
    split at hpad
    · rename_i hne
      rw [if_pos hne] at htotal
      omega
    · rename_i he
      rw [if_neg he] at htotal
      omega
  have hwrap : u64 (start + total * 4 + padding) = start + total * 4 + padding :=
    u64_of_lt (by omega)
  refine ⟨?_, hbase.1, ⟨by omega, hbase.2.2⟩, ⟨hmax, hwrap, hbase.2.1⟩, fun m g m' g' h => ?_⟩
  · split at htotal <;> omega
  · obtain ⟨h₁, h₂⟩ := hrun m g m' g' h
    exact ⟨h₁.trans hwrap, h₂⟩

/-- The layout of a heap of 4096 bytes. -/
theorem heap_layout_smallHeap : totalBlocks 8192 12287 * sizeofBlocksT +
    paddingSize 8192 12287 ≤ 4096 ∧ 59 ≤ totalBlocks 8192 12287 := by
  have h := @heap_layout 8192 12287 (by decide) (by decide) (by decide) (by decide)
  simp only at h
  omega

end Os1Kernel
