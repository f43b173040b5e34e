import Os1Kernel.Heap.BestFit

/-! `mem_alloc` for sizes in bytes: which sizes it serves, and who owns the memory that it returns. -/

namespace Os1Kernel

open Memory MemoryAllocator
open Tiling hiding alloc

/-- `mem_alloc`, without the system call between `to_blocks` and `alloc`. -/
def memAlloc (size : Nat) : Kernel Nat := MemoryAllocator.alloc (toBlocks size)

variable {B : HeapBounds} {s s' : HeapState} {ts : List Tile} {size : Nat}

theorem toBlocks_lt (size : Nat) : toBlocks size < 2 ^ 32 := Nat.mod_lt _ (by decide)

/-! ### Sizes -/

/-- `mem_alloc` returns null, or an aligned address whose recorded blocks have room for the size; and
null if no run of free blocks has room for it. -/
def Sized (B : HeapBounds) (s : HeapState) (size : Nat) : Prop :=
  ∃ p m g, (memAlloc size).run s.mem s.globals = .done p m g ∧
    (p ≠ 0 → p % memBlockSize = 0 ∧ size ≤ memBlockSize * m.field (entryOf g p) Field.entry) ∧
    ((∀ i k, s.Run B i k → k < (size + (memBlockSize - 1)) / memBlockSize) → p = 0)

/-- An address that `alloc` returns has its number of blocks in the table. -/
theorem alloc_entry {n a : Nat} {m m' : Mem} {g g' : Globals}
    (h : (MemoryAllocator.alloc n).run m g = .done a m' g') (ha : a ≠ 0) :
    m'.field (entryOf g' a) Field.entry = u32 n := by
  obtain ⟨_, _, _, hglobals, h₁⟩ := Prog.run_bind_done h
  cases hglobals
  obtain ⟨best, _, _, hfind, h₂⟩ := Prog.run_bind_done h₁
  split at h₂
  · have hend {p : Kernel Unit} {m : Mem} {g : Globals}
        (hp : (p >>= fun _ => globals >>= fun g => wr (entryOf g best) .entry (u32 n) >>= fun _ =>
          pure best).run m g = .done a m' g') :
        m'.field (entryOf g' a) Field.entry = u32 n := by
      obtain ⟨_, m₃, _, -, h₃⟩ := Prog.run_bind_done hp
      obtain ⟨_, _, _, hglobals, h₄⟩ := Prog.run_bind_done h₃
      cases hglobals
      obtain ⟨_, _, _, hwr, h₅⟩ := Prog.run_bind_done h₄
      cases h₅
      change (if entryOf _ a = 0 then _ else _) = _ at hwr
      split at hwr
      · cases hwr
      · cases hwr
        exact (load_store_same _ _ _ _).trans (Nat.mod_eq_of_lt (Nat.mod_lt _ (by decide)))
    obtain ⟨_, _, _, -, h₃⟩ := Prog.run_bind_done h₂
    dsimp only at h₃
    split at h₃
    · exact hend h₃
    · exact hend h₃
  · cases h₂
    exact absurd rfl ha

/-- Null is the answer when no run is long enough for the blocks that `to_blocks` computes. -/
theorem memAlloc_returns (h : HeapInv B s) (size : Nat) : ∃ p m g,
    (memAlloc size).run s.mem s.globals = .done p m g ∧ p % memBlockSize = 0 ∧
    (p = 0 ↔ ∀ i k, s.Run B i k → k < toBlocks size) := by
  obtain ⟨ts, hr, hlive⟩ := h
  obtain ⟨p, m, x, ts', hrun, -, hcase, -⟩ := hr.alloc_returns (toBlocks size)
  rw [u32_of_lt (toBlocks_lt size)] at hcase
  have hnone : (∀ i k, s.Run B i k → k < toBlocks size) ↔ Tiling.alloc (toBlocks size) ts = none := by
    rw [alloc_eq_none hr.valid.pos]
    refine ⟨fun hall t ht => hall t.1 t.2 ((HeapState.run_iff hr hlive).mpr ht),
      fun hall i k hrun => hall _ ((HeapState.run_iff hr hlive).mp hrun)⟩
  refine ⟨p, m, _, hrun, ?_, ?_⟩
  · rcases hcase with ⟨rfl, -⟩ | ⟨i, rfl, -⟩
    · rfl
    · exact B.addr_aligned i
  · rw [hnone]
    rcases hcase with ⟨rfl, hnone, -⟩ | ⟨i, rfl, hsome⟩
    · simp [hnone]
    · simp [hsome, B.addr_ne_zero]

/-- The rounding is exact up to the largest number of blocks that fits 32 bits. -/
theorem toBlocks_eq (h : size ≤ 64 * (2 ^ 32 - 1)) :
    toBlocks size = (size + (memBlockSize - 1)) / memBlockSize := by
  unfold toBlocks u32 u64 memBlockSize
  omega

theorem toBlocks_short (h : 64 * (2 ^ 32 - 1) < size) : memBlockSize * toBlocks size < size := by
  have hlt := toBlocks_lt size
  unfold memBlockSize
  omega

/-- `mem_alloc` serves the sizes of fewer than `2 ^ 32` blocks, and otherwise is right only to fail. -/
theorem memAlloc_sized (h : HeapReach B s) : Sized B s size ↔
    size ≤ 64 * (2 ^ 32 - 1) ∨ ∀ i k, s.Run B i k → k < toBlocks size := by
  obtain ⟨p, m, g, hrun, hal, hnull⟩ := memAlloc_returns (heapInv_of_reach h) size
  constructor
  · rintro ⟨q, m', g', hrun', hroom, -⟩
    rw [hrun] at hrun'
    cases hrun'
    by_contra hno
    obtain ⟨hbig, hruns⟩ := not_or.mp hno
    have hp : p ≠ 0 := fun h0 => hruns (hnull.mp h0)
    have hroom := (hroom hp).2
    rw [alloc_entry hrun hp, u32_of_lt (toBlocks_lt size)] at hroom
    have := toBlocks_short (Nat.lt_of_not_le hbig)
    omega
  · intro hcond
    refine ⟨p, m, g, hrun, fun hp => ⟨hal, ?_⟩, fun hruns => ?_⟩
    · have hsmall := hcond.resolve_right fun hruns => hp (hnull.mpr hruns)
      rw [alloc_entry hrun hp, u32_of_lt (toBlocks_lt size), toBlocks_eq hsmall]
      unfold memBlockSize
      omega
    · rcases hcond with hsmall | hruns
      · exact hnull.mpr (toBlocks_eq hsmall ▸ hruns)
      · exact hnull.mpr hruns

theorem run_of_empty (hnil : s.live = []) : s.Run B 0 B.total := by
  have hfree (j : Nat) : s.IsFree B j ↔ j < B.total := by
    simp [HeapState.IsFree, hnil, B.total_def]
  refine ⟨B.spec.total_pos, fun j _ hj => (hfree j).mpr (by omega), .inl rfl, fun h => ?_⟩
  have := (hfree _).mp h
  omega

/-- One byte, and all bytes that there can be, in a heap where nothing is allocated. -/
theorem memAlloc_sized_smallHeap : ∃ s, HeapReach smallHeap s ∧
    (Sized smallHeap s 1 ↔ 1 ≤ 64 * (2 ^ 32 - 1) ∨ ∀ i k, s.Run smallHeap i k → k < toBlocks 1) := by
  obtain ⟨m, g, h⟩ := construct_returns smallHeap (fun _ => 0) (.image 0 0)
  have h0 := HeapReach.construct _ _ h
  exact ⟨_, h0, memAlloc_sized h0⟩

/-- The rounding of the largest size wraps to no block, and `mem_alloc` succeeds. -/
theorem memAlloc_wraps : ¬∀ (B : HeapBounds) (s : HeapState) (size : Nat), HeapReach B s →
    size < 2 ^ 64 → Sized B s size := by
  intro hall
  obtain ⟨m, g, h⟩ := construct_returns smallHeap (fun _ => 0) (.image 0 0)
  have h0 := HeapReach.construct _ _ h
  obtain ⟨p, m', g', hrun, hroom, -⟩ := hall smallHeap _ (2 ^ 64 - 1) h0 (by decide)
  obtain ⟨q, _, _, hrun', -, hnull⟩ := memAlloc_returns (heapInv_of_reach h0) (2 ^ 64 - 1)
  rw [hrun] at hrun'
  cases hrun'
  have hp : p ≠ 0 := fun hp => absurd (hnull.mp hp 0 _ (run_of_empty rfl)) (Nat.not_lt_zero _)
  have hroom := (hroom hp).2
  have hzero : u32 (toBlocks (2 ^ 64 - 1)) = 0 := by decide
  rw [alloc_entry hrun hp, hzero] at hroom
  omega

/-! ### Ownership -/

/-- A step of the allocator's users that does not release `p`. -/
inductive KeepStep (B : HeapBounds) (p : Nat) (s : HeapState) : HeapState → Prop
  | alloc (n : Nat) {a : Nat} {m : Mem} {g : Globals}
      (h : (MemoryAllocator.alloc n).run s.mem s.globals = .done a m g) :
      KeepStep B p s ⟨m, g, if a ≠ 0 ∧ u32 n ≠ 0 then (a, u32 n) :: s.live else s.live⟩
  | free (a : Nat) {r : Int} {m : Mem} {g : Globals}
      (ha : a = 0 ∨ a % memBlockSize ≠ 0 ∨ s.globals.heapStartAddr ≤ a ∧
        a < s.globals.heapStartAddr + 64 * totalBlocks B.start B.stop)
      (hkeep : r = memSuccess → a ≠ p)
      (h : (free a).run s.mem s.globals = .done r m g) :
      KeepStep B p s ⟨m, g, if r = memSuccess then s.live.eraseP fun t => t.1 = a else s.live⟩
  | write (m : Mem)
      (h : ∀ x, B.start ≤ x → x ≤ B.stop → (∀ t ∈ s.live, x < t.1 ∨ t.1 + 64 * t.2 ≤ x) →
        m x = s.mem x) :
      KeepStep B p s ⟨m, s.globals, s.live⟩

/-- Any number of steps that do not release `p`. -/
inductive Keeps (B : HeapBounds) (p : Nat) (s : HeapState) : HeapState → Prop
  | refl : Keeps B p s s
  | step {s' s'' : HeapState} (h : Keeps B p s s') (hs : KeepStep B p s' s'') : Keeps B p s s''

/-- The memory at `p` is in no free segment, no second allocation starts there, `alloc` does not return
it, and `free` releases it. -/
structure Undisturbed (B : HeapBounds) (p : Nat) (s : HeapState) : Prop where
  outside : ∀ fs, FreeWalk s.mem s.globals.fbHead fs → ∀ t ∈ fs, p < t.1 ∨ t.1 + 64 * t.2 ≤ p
  single : s.live.countP (fun t => t.1 = p) ≤ 1
  fresh : ∀ n q m g, (MemoryAllocator.alloc n).run s.mem s.globals = .done q m g → q ≠ p
  release : ∃ m g, (free p).run s.mem s.globals = .done memSuccess m g

/-- The caller of `mem_alloc` owns what it returns until it releases it. -/
def OwnsResult (B : HeapBounds) (s : HeapState) (size : Nat) : Prop :=
  ∃ p m g, (memAlloc size).run s.mem s.globals = .done p m g ∧
    (p ≠ 0 → (∀ t ∈ s.live, t.1 ≠ p) ∧ ∀ s', Keeps B p
      ⟨m, g, if toBlocks size ≠ 0 then (p, toBlocks size) :: s.live else s.live⟩ s' →
      Undisturbed B p s')

theorem KeepStep.heapStep {p : Nat} (h : KeepStep B p s s') : HeapStep B s s' := by
  cases h with
  | alloc n h => exact .alloc n h
  | free a ha _ h => exact .free a ha h
  | write m h => exact .write m h

/-- The allocation at `p` stays. -/
theorem KeepStep.live {p n : Nat} (h : KeepStep B p s s') (hmem : (p, n) ∈ s.live) :
    (p, n) ∈ s'.live := by
  cases h with
  | alloc k h =>
    dsimp only
    split
    · exact List.mem_cons_of_mem _ hmem
    · exact hmem
  | free a _ hkeep h =>
    dsimp only
    split
    · next hr => exact (List.mem_eraseP_of_neg (by simpa using (hkeep hr).symm)).mpr hmem
    · exact hmem
  | write m h => exact hmem

theorem Keeps.reach {p n : Nat} (hk : Keeps B p s s') (h : HeapReach B s) (hmem : (p, n) ∈ s.live) :
    HeapReach B s' ∧ (p, n) ∈ s'.live := by
  induction hk with
  | refl => exact ⟨h, hmem⟩
  | step _ hs ih => exact ⟨ih.1.step hs.heapStep, hs.live ih.2⟩

/-- Two walks agree where they are at the same header. -/
theorem FreeWalk.getElem?_eq {m : Mem} {a k : Nat} {fs gs : List (Nat × Nat)} (hf : FreeWalk m a fs)
    (hg : FreeWalk m a gs) (h : (fs.map Prod.fst).getD k 0 = (gs.map Prod.fst).getD k 0) :
    fs[k]? = gs[k]? := by
  rw [List.getD_eq_getElem?_getD, List.getD_eq_getElem?_getD, List.getElem?_map,
    List.getElem?_map] at h
  cases hfk : fs[k]? with
  | none =>
    cases hgk : gs[k]? with
    | none => rfl
    | some u =>
      rw [hfk, hgk] at h
      exact absurd h.symm (hg.nonnull u (List.mem_of_getElem? hgk))
  | some t =>
    cases hgk : gs[k]? with
    | none =>
      rw [hfk, hgk] at h
      exact absurd h (hf.nonnull t (List.mem_of_getElem? hfk))
    | some u =>
      rw [hfk, hgk] at h
      have h1 : t.1 = u.1 := h
      have ht := hf.blocks t (List.mem_of_getElem? hfk)
      have hu := hg.blocks u (List.mem_of_getElem? hgk)
      rw [h1, hu] at ht
      exact congrArg some (Prod.ext h1 ht.symm)

/-- The walk along the free list is the only one. -/
theorem FreeWalk.unique {m : Mem} {a : Nat} {fs gs : List (Nat × Nat)} (hf : FreeWalk m a fs)
    (hg : FreeWalk m a gs) : fs = gs := by
  have hat (k : Nat) : (fs.map Prod.fst).getD k 0 = (gs.map Prod.fst).getD k 0 := by
    induction k with
    | zero =>
      have h := hf.head.symm.trans hg.head
      rwa [List.headD_eq_head?_getD, List.headD_eq_head?_getD, List.head?_eq_getElem?,
        List.head?_eq_getElem?] at h
    | succ k ih =>
      have heq := hf.getElem?_eq hg ih
      by_cases hk : k < fs.length
      · have hk' : k < gs.length := by
          rw [List.getElem?_eq_getElem hk] at heq
          exact (List.getElem?_eq_some_iff.mp heq.symm).1
        rw [List.getElem?_eq_getElem hk, List.getElem?_eq_getElem hk', Option.some.injEq] at heq
        rw [← hf.next k hk, ← hg.next k hk', heq]
      · have hk' : ¬k < gs.length := by
          intro hk'
          rw [List.getElem?_eq_none (by omega), List.getElem?_eq_getElem hk'] at heq
          cases heq
        rw [List.getD_eq_getElem?_getD, List.getD_eq_getElem?_getD,
          List.getElem?_eq_none (by simp; omega), List.getElem?_eq_none (by simp; omega)]
  exact List.ext_getElem? fun k => hf.getElem?_eq hg (hat k)

/-- An allocation is undisturbed. -/
theorem undisturbed_of_live {p n : Nat} (h : HeapReach B s) (hmem : (p, n) ∈ s.live) :
    Undisturbed B p s := by
  obtain ⟨ts, hr, hlive⟩ := heapInv_of_reach h
  obtain ⟨⟨i, n'⟩, hseg, hloc⟩ := List.mem_map.mp (hlive.mem_iff.mp hmem)
  obtain ⟨rfl, rfl⟩ := Prod.mk.inj hloc
  have hpos := segs_pos hr.valid.pos hseg
  have hin := (segs_bounds hseg).2
  have hheld : ¬Tiling.Holds false ts i :=
    (holds_true_iff (by simp only at hin hpos; omega)).mp ⟨_, hseg, le_rfl, by simp only at hpos ⊢; omega⟩
  refine ⟨fun fs hwalk t ht => ?_, ?_, fun k q m g hrun hq => ?_, ?_⟩
  · obtain rfl := hwalk.unique (freeWalk_of_freeList hr.freeList)
    obtain ⟨u, hu, rfl⟩ := List.mem_map.mp ht
    have hno : ¬Tiling.Covers i u := fun hc => hheld ⟨u, hu, hc⟩
    unfold Tiling.Covers at hno
    simp only [located, HeapBounds.addr]
    omega
  · rw [hlive.countP_eq]
    have hnodup : (((segs true 0 ts).map (located B)).map Prod.fst).Nodup :=
      List.pairwise_map.mpr (located_nodup hr.valid.pos)
    have hcount := List.nodup_iff_count_le_one.mp hnodup (B.addr i)
    rw [List.count_eq_countP, List.countP_map] at hcount
    refine (List.countP_congr fun t _ => ?_).trans_le hcount
    simp
  · subst hq
    obtain ⟨a, m', x, ts', hrun', -, hcase, -⟩ := hr.alloc_returns k
    rw [hrun] at hrun'
    cases hrun'
    rcases hcase with ⟨h0, -⟩ | ⟨j, hj, halloc⟩
    · exact B.addr_ne_zero i h0
    · obtain rfl := B.addr_inj.mp hj
      obtain ⟨_, l, _, -, -, -, -, hb⟩ := alloc_eq_some hr.valid.pos halloc
      have hfree := (bestFit_some hb).1
      have hl := segs_pos hr.valid.pos hfree
      exact hheld ⟨_, hfree, le_rfl, by simp only at hl ⊢; omega⟩
  · obtain ⟨m, g, _, hrun, -⟩ := free_live hr hlive hseg
    exact ⟨m, g, hrun⟩

/-- A request of no blocks fails when there is no free block, and only then. -/
theorem alloc_zero {p : Nat} {ts' : List Tile} (hr : HeapRep B ts s.mem.view s.globals)
    (hcase : p = 0 ∧ Tiling.alloc 0 ts = none ∧ ts' = ts ∨
      ∃ i, p = B.addr i ∧ Tiling.alloc 0 ts = some (i, ts')) : p = 0 ↔ s.globals.fbHead = 0 := by
  have hwalk := (freeWalk_of_freeList hr.freeList).head
  rcases hcase with ⟨rfl, hnone, -⟩ | ⟨i, rfl, hsome⟩
  · refine iff_of_true rfl ?_
    have hnil : segs false 0 ts = [] := by
      refine List.eq_nil_iff_forall_not_mem.mpr fun t ht => ?_
      exact absurd ((alloc_eq_none hr.valid.pos).mp hnone t ht) (Nat.not_lt_zero _)
    rw [hwalk, hnil]
    rfl
  · refine iff_of_false (B.addr_ne_zero i) ?_
    obtain ⟨_, l, _, -, -, -, -, hb⟩ := alloc_eq_some hr.valid.pos hsome
    obtain ⟨t, fs, heq⟩ := List.exists_cons_of_ne_nil (List.ne_nil_of_mem (bestFit_some hb).1)
    rw [hwalk, heq]
    exact B.addr_ne_zero t.1

/-- What a request of no blocks returns is not released by `free`. -/
theorem not_ownsResult (h : HeapReach B s) (hzero : toBlocks size = 0)
    (hhead : s.globals.fbHead ≠ 0) : ¬OwnsResult B s size := by
  obtain ⟨ts, hr, hlive⟩ := heapInv_of_reach h
  obtain ⟨p, m, x, ts', hrun, -, hcase, -⟩ := hr.alloc_returns (toBlocks size)
  have hstep := h.step (.alloc _ hrun)
  rintro ⟨q, m', g', hrun', howns⟩
  rw [memAlloc, hrun] at hrun'
  cases hrun'
  rw [hzero] at hcase hstep howns
  have hp : p ≠ 0 := fun h0 => hhead ((alloc_zero hr hcase).mp h0)
  obtain ⟨i, rfl, halloc⟩ := hcase.resolve_left fun hc => hp hc.1
  obtain ⟨hother, hkeep⟩ := howns hp
  obtain ⟨m₁, g₁, hfree⟩ := (hkeep _ .refl).release
  have hu : u32 0 = 0 := rfl
  simp only [ne_eq, hu, not_true_eq_false, and_false, if_false] at hstep hfree
  have hi : i < B.total := by
    obtain ⟨_, l, _, -, -, -, -, hb⟩ := alloc_eq_some hr.valid.pos halloc
    have hbound := (segs_bounds (bestFit_some hb).1).2
    have hl := segs_pos hr.valid.pos (bestFit_some hb).1
    rw [hr.valid.size] at hbound
    simp only at hbound hl
    omega
  obtain ⟨r, m₂, g₂, hfree', hsucc, -⟩ := free_decides hstep (a := B.addr i) (B.addr_aligned i) (by
    change s.globals.heapStartAddr ≤ _ ∧ _ < s.globals.heapStartAddr + _
    rw [hr.start, ← B.total_def, HeapBounds.addr]
    omega)
  rw [hfree] at hfree'
  cases hfree'
  obtain ⟨n, hn⟩ := hsucc.mp rfl
  exact hother _ hn rfl

/-- The caller of `mem_alloc` owns what it returns, except that a request of no blocks returns free
memory when there is any. -/
theorem memAlloc_owns (h : HeapReach B s) :
    OwnsResult B s size ↔ toBlocks size ≠ 0 ∨ s.globals.fbHead = 0 := by
  refine ⟨fun howns => ?_, fun hcond => ?_⟩
  · by_contra hno
    obtain ⟨hzero, hhead⟩ := not_or.mp hno
    exact not_ownsResult h (not_not.mp hzero) hhead howns
  obtain ⟨ts, hr, hlive⟩ := heapInv_of_reach h
  obtain ⟨p, m, x, ts', hrun, -, hcase, -⟩ := hr.alloc_returns (toBlocks size)
  have hstep := h.step (.alloc _ hrun)
  rw [u32_of_lt (toBlocks_lt size)] at hcase hstep
  refine ⟨p, m, _, hrun, fun hp => ?_⟩
  have hne : toBlocks size ≠ 0 := by
    intro h0
    rw [h0] at hcase
    exact hp ((alloc_zero hr hcase).mpr (hcond.resolve_left fun hc => hc h0))
  rw [if_pos ⟨hp, hne⟩] at hstep
  rw [if_pos hne]
  have hown := undisturbed_of_live hstep List.mem_cons_self
  refine ⟨fun t ht heq => ?_, fun s' hk => ?_⟩
  · have hsingle := hown.single
    rw [List.countP_cons_of_pos (by simp)] at hsingle
    have : 0 < s.live.countP fun t => decide (t.1 = p) :=
      List.countP_pos_iff.mpr ⟨t, ht, by simpa using heq⟩
    omega
  · obtain ⟨hreach, hmem⟩ := hk.reach hstep List.mem_cons_self
    exact undisturbed_of_live hreach hmem

/-- A request of one byte. -/
theorem memAlloc_owns_smallHeap : ∃ s, HeapReach smallHeap s ∧
    (OwnsResult smallHeap s 1 ↔ toBlocks 1 ≠ 0 ∨ s.globals.fbHead = 0) := by
  obtain ⟨m, g, h⟩ := construct_returns smallHeap (fun _ => 0) (.image 0 0)
  have h0 := HeapReach.construct _ _ h
  exact ⟨_, h0, memAlloc_owns h0⟩

/-- A request of no bytes returns the start of the free list. -/
theorem memAlloc_zero : ¬∀ (B : HeapBounds) (s : HeapState) (size : Nat), HeapReach B s →
    size < 2 ^ 64 → OwnsResult B s size := by
  intro hall
  obtain ⟨m, g, h⟩ := construct_returns smallHeap (fun _ => 0) (.image 0 0)
  have h0 := HeapReach.construct _ _ h
  have hhead := (single_of_empty (heapInv_of_reach h0) rfl).1.nonnull _ List.mem_cons_self
  exact not_ownsResult h0 rfl
    ((single_of_empty (heapInv_of_reach h0) rfl).1.head ▸ hhead)
    (hall smallHeap _ 0 h0 (by decide))

end Os1Kernel
