import Os1Kernel.Source.Allocator

/-! Where the constructor puts the allocation table and the blocks of the heap. -/

namespace Os1Kernel.HeapBounds

variable (B : HeapBounds)

theorem exists_total : ∃ n, n = MemoryAllocator.totalBlocks B.start B.stop := ⟨_, rfl⟩

/-- The number of blocks.  It is not a definition to compute with: what the proofs know of it are
`total_def` and `spec`. -/
noncomputable def total : Nat := B.exists_total.choose

theorem total_def : B.total = MemoryAllocator.totalBlocks B.start B.stop :=
  B.exists_total.choose_spec

theorem exists_base : ∃ a, a = B.start + B.total * 4 + MemoryAllocator.paddingSize B.start B.stop :=
  ⟨_, rfl⟩

/-- The address of the first block, the new `HEAP_START_ADDR`. -/
noncomputable def base : Nat := B.exists_base.choose

theorem base_def : B.base = B.start + B.total * 4 + MemoryAllocator.paddingSize B.start B.stop :=
  B.exists_base.choose_spec

/-- The address of block `i`. -/
noncomputable def addr (i : Nat) : Nat := B.base + i * 64

/-- The address of the table entry for block `i`. -/
def entryAddr (i : Nat) : Nat := B.start + i * 4

theorem sub_mod {a b M : Nat} (h : a ≤ b) (hb : b + 1 < M) : (b + M - a + 1) % M = b - a + 1 := by
  rw [show b + M - a + 1 = b - a + 1 + M by omega, Nat.add_mod_right, Nat.mod_eq_of_lt (by omega)]

/-- The constructor's quotient, without the conversions. -/
theorem maxBlocks_eq : MemoryAllocator.maxBlocks B.start B.stop = (B.stop - B.start + 1) / 68 := by
  rw [MemoryAllocator.maxBlocks, u64, sub_mod B.start_le B.stop_lt]
  exact u32_of_lt B.lt

theorem misalignment_eq {n : Nat} (h : n ≤ (B.stop - B.start + 1) / 68) :
    MemoryAllocator.misalignment B.start n = (B.start + n * 4) % 64 := by
  have h1 := B.start_le
  have h2 := B.stop_lt
  rw [MemoryAllocator.misalignment, sizeofBlocksT, memBlockSize, u64_of_lt (by omega)]

theorem pred_mod {n : Nat} (h1 : 1 ≤ n) (h2 : n < 2 ^ 32) : u32 (n + 2 ^ 32 - 1) = n - 1 := by
  rw [u32, show n + 2 ^ 32 - 1 = n - 1 + 2 ^ 32 by omega, Nat.add_mod_right,
    Nat.mod_eq_of_lt (by omega)]

theorem total_eq : B.total = if (B.start + (B.stop - B.start + 1) / 68 * 4) % 64 ≠ 0 then
    (B.stop - B.start + 1) / 68 - 1 else (B.stop - B.start + 1) / 68 := by
  rw [total_def, MemoryAllocator.totalBlocks]
  simp only [B.maxBlocks_eq, B.misalignment_eq le_rfl, pred_mod B.one_le B.lt]

theorem base_eq : B.base = B.start + B.total * 4 +
    if (B.start + (B.stop - B.start + 1) / 68 * 4) % 64 ≠ 0 then
      64 - (B.start + B.total * 4) % 64 else 0 := by
  have hle : B.total ≤ (B.stop - B.start + 1) / 68 := by
    rw [total_eq]
    split <;> omega
  have hpad : u32 (memBlockSize - (B.start + B.total * 4) % 64) =
      64 - (B.start + B.total * 4) % 64 := by
    rw [memBlockSize]
    exact u32_of_lt (by omega)
  rw [base_def, MemoryAllocator.paddingSize, B.maxBlocks_eq, B.misalignment_eq le_rfl, ← total_def,
    B.misalignment_eq hle, hpad]

/-- The constructor's arithmetic: there are blocks, the table ends before them, they end inside the
heap, and they are aligned. -/
structure Spec : Prop where
  total_pos : 0 < B.total
  total_le : B.total ≤ (B.stop - B.start + 1) / 68
  le_total : (B.stop - B.start + 1) / 68 ≤ B.total + 1
  table_le_base : B.start + B.total * 4 ≤ B.base
  base_end : B.base + B.total * 64 ≤ B.stop + 1
  base_aligned : B.base % 64 = 0

theorem spec : B.Spec := by
  have h1 := B.start_le
  have h3 := B.one_le
  have h5 := B.two_le
  have hq : (B.stop - B.start + 1) / 68 * 68 ≤ B.stop - B.start + 1 := Nat.div_mul_le_self _ _
  have htotal := B.total_eq
  have hbase := B.base_eq
  by_cases h : (B.start + (B.stop - B.start + 1) / 68 * 4) % 64 = 0
  · rw [if_neg (not_not.mpr h)] at htotal hbase
    constructor <;> omega
  · rw [if_pos h] at htotal hbase
    have := h5 h
    constructor <;> omega

theorem total_lt : B.total < 2 ^ 32 := B.spec.total_le.trans_lt B.lt

theorem base_pos : 0 < B.base := by
  have h1 := B.start_pos
  have h2 := B.spec.table_le_base
  omega

theorem addr_pos (i : Nat) : 0 < B.addr i := Nat.add_pos_left B.base_pos _

theorem addr_ne_zero (i : Nat) : B.addr i ≠ 0 := (B.addr_pos i).ne'

theorem addr_inj {i j : Nat} : B.addr i = B.addr j ↔ i = j := by
  unfold addr
  omega

theorem addr_lt {i : Nat} (h : i ≤ B.total) : B.addr i < 2 ^ 64 := by
  have h1 := B.spec.base_end
  have h2 := B.stop_lt
  unfold addr
  omega

theorem addr_aligned (i : Nat) : B.addr i % 64 = 0 := by
  have := B.spec.base_aligned
  unfold addr
  omega

theorem addr_add (i n : Nat) : B.addr i + n * 64 = B.addr (i + n) := by
  unfold addr
  omega

theorem addr_le {i j : Nat} : B.addr i ≤ B.addr j ↔ i ≤ j := by
  unfold addr
  omega

/-- The address computed for the next header, or for the end of a segment, does not wrap. -/
theorem u64_addr_add {i n : Nat} (h : i + n ≤ B.total) :
    u64 (B.addr i + n * memBlockSize) = B.addr (i + n) := by
  rw [memBlockSize, addr_add]
  exact u64_of_lt (B.addr_lt h)

theorem entryAddr_lt {i : Nat} (h : i < B.total) : B.entryAddr i + 4 ≤ B.base := by
  have := B.spec.table_le_base
  unfold entryAddr
  omega

/-- The table entry that `alloc` and `free` compute for the address of a block. -/
theorem entryOf_addr {g : Globals} (hstart : g.heapStartAddr = B.base)
    (htable : g.allocTable = B.start) {i : Nat} (hi : i < B.total) :
    MemoryAllocator.entryOf g (B.addr i) = B.entryAddr i := by
  have h1 := B.addr_lt hi.le
  have h2 := B.base_pos
  have h3 := B.entryAddr_lt hi
  have h4 : B.addr i = B.base + i * 64 := rfl
  have hsub : u64 (B.addr i + 2 ^ 64 - B.base) = i * 64 := by
    rw [u64, show B.addr i + 2 ^ 64 - B.base = i * 64 + 2 ^ 64 by omega, Nat.add_mod_right,
      Nat.mod_eq_of_lt (by omega)]
  rw [MemoryAllocator.entryOf, hstart, htable, hsub, memBlockSize, sizeofBlocksT,
    Nat.mul_div_cancel i (by decide)]
  exact u64_of_lt (show B.entryAddr i < 2 ^ 64 by omega)

end Os1Kernel.HeapBounds
