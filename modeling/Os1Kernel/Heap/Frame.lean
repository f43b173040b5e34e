import Os1Kernel.Heap.Run

/-! What a call of the allocator writes: entries of its table, and headers in blocks that no
allocation holds before or after the call. -/

namespace Os1Kernel

open Memory MemoryAllocator
open Tiling hiding alloc

variable {B : HeapBounds} {s s' : HeapState} {ts : List Tile}

/-- A call of the allocator, with the cells that it writes. -/
inductive HeapCall (B : HeapBounds) (s : HeapState) : HeapState → List (Nat × Field) → Prop
  | alloc (n : Nat) {a : Nat} {m : Mem} {g : Globals}
      (h : (alloc n).run s.mem s.globals = .done a m g) :
      HeapCall B s ⟨m, g, if a ≠ 0 ∧ u32 n ≠ 0 then (a, u32 n) :: s.live else s.live⟩
        ((MemoryAllocator.alloc n).writes s.mem s.globals)
  | free (a : Nat) {r : Int} {m : Mem} {g : Globals}
      (ha : a = 0 ∨ a % memBlockSize ≠ 0 ∨ s.globals.heapStartAddr ≤ a ∧
        a < s.globals.heapStartAddr + 64 * totalBlocks B.start B.stop)
      (h : (free a).run s.mem s.globals = .done r m g) :
      HeapCall B s ⟨m, g, if r = memSuccess then s.live.eraseP fun t => t.1 = a else s.live⟩
        ((MemoryAllocator.free a).writes s.mem s.globals)

/-- Block `i` belongs to no allocation. -/
def HeapState.IsFree (B : HeapBounds) (s : HeapState) (i : Nat) : Prop :=
  i < totalBlocks B.start B.stop ∧ ∀ t ∈ s.live,
    ¬(t.1 ≤ s.globals.heapStartAddr + 64 * i ∧ s.globals.heapStartAddr + 64 * i < t.1 + 64 * t.2)

/-- The byte at `x` belongs to the table, or to the header of a block that is free before or after a
call that leads from `s` to `s'`. -/
def HeapState.Writable (B : HeapBounds) (s s' : HeapState) (x : Nat) : Prop :=
  (∃ i < totalBlocks B.start B.stop,
    s.globals.allocTable + 4 * i ≤ x ∧ x < s.globals.allocTable + 4 * i + 4) ∨
  ∃ i, (s.IsFree B i ∨ s'.IsFree B i) ∧
    s.globals.heapStartAddr + 64 * i ≤ x ∧ x < s.globals.heapStartAddr + 64 * i + sizeofFreeBlocks

/-- The free tiles are the blocks that no allocation holds. -/
theorem HeapState.isFree_of_holds {i : Nat} (hr : HeapRep B ts s.mem.view s.globals)
    (hlive : s.live.Perm ((segs true 0 ts).map (located B))) (hi : Holds false ts i) :
    s.IsFree B i := by
  refine ⟨B.total_def ▸ hi.lt hr.valid, fun t ht hc => ?_⟩
  have hout := free_outside hr.valid hi (hlive.mem_iff.mp ht)
  obtain ⟨r, -, rfl⟩ := List.mem_map.mp (hlive.mem_iff.mp ht)
  rw [hr.start] at hc
  simp only [located, HeapBounds.addr] at hc hout
  omega

/-- The allocator's cells lie in bytes that it may write. -/
theorem HeapState.writable_of_own {ts₀ : List Tile} {a x : Nat} {f : Field}
    (hr : HeapRep B ts₀ s.mem.view s.globals) (hfree : ∀ i, Holds false ts i →
      s.IsFree B i ∨ s'.IsFree B i) (ha : Obj.own B (Obj.ofHeap B ts) a f)
    (hx : a + offset f ≤ x) (hx' : x < a + offset f + size f) : s.Writable B s' x := by
  obtain ⟨o, ho, hcell⟩ := ha
  have hb := Obj.cells_bounds hcell
  cases o with
  | tcb _ => exact ho.elim
  | sem _ => exact ho.elim
  | list _ => exact ho.elim
  | entry i =>
    refine .inl ⟨i, B.total_def ▸ ho, ?_⟩
    rw [hr.table]
    simp only [Obj.region, HeapBounds.entryAddr] at hb
    omega
  | header i =>
    refine .inr ⟨i, hfree i ho, ?_⟩
    rw [hr.start]
    simp only [Obj.region, HeapBounds.addr, sizeofFreeBlocks] at hb ⊢
    omega

/-- A call stays inside the cells of a tiling whose free tiles are free before or after it. -/
theorem heapCall_uses {ws : List (Nat × Field)} (h : HeapInv B s) (hc : HeapCall B s s' ws) :
    ∃ ts, (∀ i, Holds false ts i → s.IsFree B i ∨ s'.IsFree B i) ∧
      (∀ w ∈ ws, Obj.own B (Obj.ofHeap B ts) w.1 w.2) ∧
      Frame (Obj.own B (Obj.ofHeap B ts)) s.mem s'.mem := by
  obtain ⟨ts, hr, hlive⟩ := h
  cases hc with
  | alloc n hrun =>
    have hwp := hr.wp_alloc (n := n) (Q := fun _ _ _ => True) (T := fun _ _ _ _ => False)
      (HeapCells.of_own fun _ _ h => h) (fun _ => trivial) fun _ _ _ _ _ _ _ => trivial
    obtain ⟨_, _, _, _, heq, -, hf, -⟩ := Prog.returns (separate_ofHeap B ts) (Sim.self _ s.mem) hwp
    rw [hrun] at heq
    cases heq
    exact ⟨ts, fun i hi => .inl (HeapState.isFree_of_holds hr hlive hi),
      Prog.writes_own (separate_ofHeap B ts) (Sim.self _ s.mem) hwp, hf⟩
  | free a ha hrun =>
    obtain ⟨r, m, g, ts', heq, hr', hlive', hw, hf⟩ := free_returns hr hlive ha
    rw [hrun] at heq
    cases heq
    exact ⟨ts', fun i hi => .inr (HeapState.isFree_of_holds hr' hlive' hi), hw, hf⟩

/-- The bytes of an allocation that a call keeps cannot be written by it. -/
theorem HeapState.not_writable_of_live {x : Nat} {t : Nat × Nat} (h : HeapInv B s)
    (h' : HeapInv B s') (ht : t ∈ s.live) (ht' : t ∈ s'.live) (hx : t.1 ≤ x)
    (hx' : x < t.1 + 64 * t.2) : ¬s.Writable B s' x := by
  obtain ⟨ts, hr, hlive⟩ := h
  obtain ⟨ts', hr', -⟩ := h'
  have hmem := hlive.mem_iff.mp ht
  have hin := located_inside hr.valid hmem
  obtain ⟨r, -, rfl⟩ := List.mem_map.mp hmem
  rintro (⟨i, hi, hxi, hxi'⟩ | ⟨i, hfree, hxi, hxi'⟩)
  · have hbase := B.spec.table_le_base
    rw [← B.total_def] at hi
    rw [hr.table] at hxi hxi'
    omega
  · have hc : ¬((located B r).1 ≤ s.globals.heapStartAddr + 64 * i ∧
        s.globals.heapStartAddr + 64 * i < (located B r).1 + 64 * (located B r).2) := by
      rcases hfree with hfree | hfree
      · exact hfree.2 _ ht
      · rw [hr.start, ← hr'.start]
        exact hfree.2 _ ht'
    rw [hr.start] at hc hxi hxi'
    simp only [located, HeapBounds.addr, sizeofFreeBlocks] at hc hx hx' hxi'
    omega

theorem heapInv_of_call {ws : List (Nat × Field)} (h : HeapInv B s) (hc : HeapCall B s s' ws) :
    HeapInv B s' := by
  cases hc with
  | alloc n hrun =>
    obtain ⟨a, m, g, heq, hinv⟩ := heapInv_alloc h n
    rw [hrun] at heq
    cases heq
    exact hinv
  | free a ha hrun =>
    obtain ⟨r, m, g, heq, hinv⟩ := heapInv_free h ha
    rw [hrun] at heq
    cases heq
    exact hinv

/-- A call writes only the table and headers of blocks that are free before or after it, and keeps
the bytes of every other allocation. -/
theorem heap_frame {ws : List (Nat × Field)} (h : HeapReach B s) (hc : HeapCall B s s' ws) :
    (∀ w ∈ ws, ∀ x, w.1 + offset w.2 ≤ x → x < w.1 + offset w.2 + size w.2 → s.Writable B s' x) ∧
    (∀ x, s'.mem x ≠ s.mem x → s.Writable B s' x) ∧
    ∀ t ∈ s.live, t ∈ s'.live → ∀ x, t.1 ≤ x → x < t.1 + 64 * t.2 → s'.mem x = s.mem x := by
  have hinv := heapInv_of_reach h
  have hinv' := heapInv_of_call hinv hc
  obtain ⟨ts, hfree, hw, hf⟩ := heapCall_uses hinv hc
  obtain ⟨_, hr, -⟩ := hinv
  have hchange : ∀ x, s'.mem x ≠ s.mem x → s.Writable B s' x := by
    intro x hx
    by_contra hno
    refine hx (hf x fun a f ha => ?_)
    by_contra hin
    exact hno (HeapState.writable_of_own hr hfree ha (by omega) (by omega))
  refine ⟨fun w hmem x hx hx' => HeapState.writable_of_own hr hfree (hw w hmem) hx hx', hchange,
    fun t ht ht' x hx hx' => ?_⟩
  by_contra hne
  exact HeapState.not_writable_of_live (heapInv_of_reach h) hinv' ht ht' hx hx' (hchange x hne)

/-- The frame of the first allocation of three blocks. -/
theorem heap_frame_smallHeap : ∃ s s' ws, HeapReach smallHeap s ∧ HeapCall smallHeap s s' ws ∧
    ∀ x, s'.mem x ≠ s.mem x → s.Writable smallHeap s' x := by
  obtain ⟨m, g, h⟩ := construct_returns smallHeap (fun _ => 0) (.image 0 0)
  have h0 := HeapReach.construct _ _ h
  obtain ⟨a, m', g', h', -⟩ := heapInv_alloc (heapInv_of_reach h0) 3
  have hc := HeapCall.alloc (B := smallHeap) (s := ⟨m, g, []⟩) 3 h'
  exact ⟨_, _, _, h0, hc, (heap_frame h0 hc).2.1⟩

end Os1Kernel
