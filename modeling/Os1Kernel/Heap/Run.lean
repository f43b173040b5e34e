import Os1Kernel.Heap.Cells

/-! Runs of the allocator: any number of calls of `alloc` and `free` in any order, between which the
owners of allocated blocks write what they like, and the invariant of all their states. -/

namespace Os1Kernel

open Memory MemoryAllocator
open Tiling hiding alloc

/-- Memory and variables, with the allocations of at least one block that have been made and not
freed: the address and the number of blocks of each. -/
structure HeapState where
  mem : Mem
  globals : Globals
  live : List (Nat × Nat)

/-- One call of the allocator, or writes outside of the table and of the blocks that are not
allocated.  `free` gets the null pointer, an address that is not aligned, or one inside the heap. -/
inductive HeapStep (B : HeapBounds) (s : HeapState) : HeapState → Prop
  | alloc (n : Nat) {a : Nat} {m : Mem} {g : Globals}
      (h : (alloc n).run s.mem s.globals = .done a m g) :
      HeapStep B s ⟨m, g, if a ≠ 0 ∧ u32 n ≠ 0 then (a, u32 n) :: s.live else s.live⟩
  | free (a : Nat) {r : Int} {m : Mem} {g : Globals}
      (ha : a = 0 ∨ a % memBlockSize ≠ 0 ∨ s.globals.heapStartAddr ≤ a ∧
        a < s.globals.heapStartAddr + 64 * totalBlocks B.start B.stop)
      (h : (free a).run s.mem s.globals = .done r m g) :
      HeapStep B s ⟨m, g, if r = memSuccess then s.live.eraseP fun t => t.1 = a else s.live⟩
  | write (m : Mem)
      (h : ∀ x, B.start ≤ x → x ≤ B.stop → (∀ t ∈ s.live, x < t.1 ∨ t.1 + 64 * t.2 ≤ x) →
        m x = s.mem x) :
      HeapStep B s ⟨m, s.globals, s.live⟩

/-- The states after the constructor and any number of steps. -/
inductive HeapReach (B : HeapBounds) : HeapState → Prop
  | construct (m₀ : Mem) (g₀ : Globals) {m : Mem} {g : Globals}
      (h : (construct B.start B.stop).run m₀ g₀ = .done () m g) : HeapReach B ⟨m, g, []⟩
  | step {s s' : HeapState} (h : HeapReach B s) (hs : HeapStep B s s') : HeapReach B s'

/-- The walk along `next` from `fb_head` on visits `fs`, pairs of an address and a number of blocks,
and `prev` mirrors `next`. -/
structure FreeWalk (m : Mem) (fbHead : Nat) (fs : List (Nat × Nat)) : Prop where
  head : fbHead = (fs.map Prod.fst).headD 0
  next : ∀ k (hk : k < fs.length), m.field fs[k].1 Field.fbNext = (fs.map Prod.fst).getD (k + 1) 0
  prev : ∀ k (hk : k < fs.length),
    m.field fs[k].1 Field.fbPrev = if k = 0 then 0 else (fs.map Prod.fst).getD (k - 1) 0
  blocks : ∀ t ∈ fs, m.field t.1 Field.nBlocks = t.2
  nonnull : ∀ t ∈ fs, t.1 ≠ 0

/-- The allocator's representation invariant for the free segments `fs`. -/
structure AllocatorInvariant (B : HeapBounds) (s : HeapState) (fs : List (Nat × Nat)) : Prop where
  walk : FreeWalk s.mem s.globals.fbHead fs
  increasing : fs.Pairwise fun t u => t.1 < u.1
  pos : ∀ t ∈ fs, 0 < t.2
  inside : ∀ t ∈ fs ++ s.live, s.globals.heapStartAddr ≤ t.1 ∧
    t.1 + 64 * t.2 ≤ s.globals.heapStartAddr + 64 * totalBlocks B.start B.stop
  coalesced : fs.Pairwise fun t u => t.1 + 64 * t.2 < u.1
  livePos : ∀ t ∈ s.live, 0 < t.2
  table : ∀ i < totalBlocks B.start B.stop,
    s.mem.field (s.globals.allocTable + 4 * i) Field.entry =
      ((s.live.find? fun t => t.1 = s.globals.heapStartAddr + 64 * i).map Prod.snd).getD 0
  partition : ∀ i < totalBlocks B.start B.stop,
    (fs ++ s.live).countP (fun t => t.1 ≤ s.globals.heapStartAddr + 64 * i ∧
      s.globals.heapStartAddr + 64 * i < t.1 + 64 * t.2) = 1

/-- A segment of the tiling, by address. -/
noncomputable def located (B : HeapBounds) (t : Nat × Nat) : Nat × Nat := (B.addr t.1, t.2)

/-- The state holds a tiling whose used tiles are the allocations. -/
def HeapInv (B : HeapBounds) (s : HeapState) : Prop :=
  ∃ ts, HeapRep B ts s.mem.view s.globals ∧ s.live.Perm ((segs true 0 ts).map (located B))

variable {B : HeapBounds} {s s' : HeapState} {ts : List Tile}

theorem separate_ofHeap (B : HeapBounds) (ts : List Tile) :
    Separate (Obj.own B (Obj.ofHeap B ts)) :=
  Obj.separate (fun _ _ h h' hne => Obj.ofHeap_apart h h' hne) fun _ h => Obj.ofHeap_pos h

theorem HeapRep.of_sim {O : Nat → Field → Prop} {m : Mem} {v : Cells} {g : Globals}
    (h : HeapRep B ts v g) (hs : Sim O m v) (hO : ∀ a f, Obj.own B (Obj.ofHeap B ts) a f → O a f) :
    HeapRep B ts m.view g :=
  h.congr fun a f ha => hs a f (hO a f ha)

theorem heapInv_construct {m₀ m : Mem} {g₀ g : Globals}
    (h : (construct B.start B.stop).run m₀ g₀ = .done () m g) : HeapInv B ⟨m, g, []⟩ := by
  obtain ⟨_, m', g', v', hrun, hs, -, hr⟩ := Prog.returns (separate_ofHeap B _) (Sim.self _ m₀)
    (HeapRep.wp_construct (Q := fun _ v g => HeapRep B [gap B.total] v g)
      (HeapCells.of_own fun _ _ h => h) fun _ _ _ _ hr => hr)
  rw [h] at hrun
  cases hrun
  exact ⟨_, hr.of_sim hs fun _ _ h => h, by simp [segs]⟩

/-- What `alloc` returns where there is a long enough run of free blocks, -/
theorem allocated_some {us : List Tile} {a i n : Nat} (halloc : Tiling.alloc n us = some (i, ts'))
    (h : a = 0 ∧ Tiling.alloc n us = none ∨ ∃ j, a = B.addr j ∧ Tiling.alloc n us = some (j, ts)) :
    a = B.addr i ∧ ts = ts' := by
  rcases h with ⟨-, hnone⟩ | ⟨j, rfl, hsome⟩
  · exact absurd (hnone.symm.trans halloc) (by simp)
  · obtain ⟨rfl, rfl⟩ := Prod.mk.inj (Option.some.inj (hsome.symm.trans halloc))
    exact ⟨rfl, rfl⟩

/-- and where there is none. -/
theorem allocated_none {us : List Tile} {a n : Nat} (hnone : Tiling.alloc n us = none)
    (h : a = 0 ∧ Tiling.alloc n us = none ∨ ∃ j, a = B.addr j ∧ Tiling.alloc n us = some (j, ts)) :
    a = 0 := by
  rcases h with ⟨h0, -⟩ | ⟨j, -, hsome⟩
  · exact h0
  · exact absurd (hnone.symm.trans hsome) (by simp)

/-- `alloc`, on bytes. -/
theorem HeapRep.alloc_returns {m : Mem} {g : Globals}
    (h : HeapRep B ts m.view g) (n : Nat) : ∃ a m' x ts',
    (MemoryAllocator.alloc n).run m g = .done a m' { g with fbHead := x } ∧
    Frame (Obj.own B (Obj.ofHeap B ts)) m m' ∧
    (a = 0 ∧ Tiling.alloc (u32 n) ts = none ∧ ts' = ts ∨
      ∃ i, a = B.addr i ∧ Tiling.alloc (u32 n) ts = some (i, ts')) ∧
    HeapRep B ts' m'.view { g with fbHead := x } := by
  obtain ⟨a, m', g', v', hrun, hs, hframe, hpost⟩ := Prog.returns
    (separate_ofHeap B ts) (Sim.self _ m) (h.wp_alloc (n := n)
      (Q := fun a v g' => a = 0 ∧ Tiling.alloc (u32 n) ts = none ∧ g' = g ∧ HeapRep B ts v g' ∨
        ∃ i ts' x, a = B.addr i ∧ Tiling.alloc (u32 n) ts = some (i, ts') ∧
          g' = { g with fbHead := x } ∧ HeapRep B ts' v g')
      (HeapCells.of_own fun _ _ h => h) (fun hnone => .inl ⟨rfl, hnone, rfl, h⟩)
      fun i ts' ha v' x _ hr => .inr ⟨i, ts', x, rfl, ha, rfl, hr⟩)
  rcases hpost with ⟨rfl, hnone, rfl, hr⟩ | ⟨i, ts', x, rfl, ha, rfl, hr⟩
  · exact ⟨0, m', g'.fbHead, ts, hrun, hframe, .inl ⟨rfl, hnone, rfl⟩, hr.of_sim hs fun _ _ h => h⟩
  · refine ⟨_, m', x, ts', hrun, hframe, .inr ⟨i, rfl, ha⟩, ?_⟩
    refine hr.of_sim hs fun a f => Obj.own_mono fun o ho => ?_
    cases o with
    | entry j => exact ho
    | header j => exact holds_false_alloc h.valid.pos ha ho
    | tcb t => exact ho
    | sem t => exact ho
    | list t => exact ho

/-- `alloc` returns and keeps the invariant. -/
theorem heapInv_alloc (h : HeapInv B s) (n : Nat) : ∃ a m g,
    (alloc n).run s.mem s.globals = .done a m g ∧
    HeapInv B ⟨m, g, if a ≠ 0 ∧ u32 n ≠ 0 then (a, u32 n) :: s.live else s.live⟩ := by
  obtain ⟨ts, hr, hlive⟩ := h
  obtain ⟨a, m, x, ts', hrun, -, hcase, hr'⟩ := hr.alloc_returns n
  refine ⟨a, m, _, hrun, ts', hr', ?_⟩
  rcases hcase with ⟨rfl, -, rfl⟩ | ⟨i, rfl, ha⟩
  · simpa using hlive
  · have hperm := (alloc_live hr.valid.pos ha).map (located B)
    rw [List.map_append] at hperm
    refine List.Perm.trans ?_ hperm.symm
    by_cases hn : u32 n = 0
    · simpa [hn] using hlive
    · simpa [hn, B.addr_ne_zero, located] using hlive

theorem located_nodup (hp : Pos ts) : ((segs true 0 ts).map (located B)).Pairwise
    fun t u => t.1 ≠ u.1 := by
  refine List.pairwise_map.mpr ((List.pairwise_map.mp (segs_nodup true 0 hp)).imp fun {t u} hne => ?_)
  exact fun heq => hne (B.addr_inj.mp heq)

/-- An aligned address inside the heap is that of a block. -/
theorem HeapRep.block_of_inside (hr : HeapRep B ts s.mem.view s.globals) {a : Nat}
    (hal : a % memBlockSize = 0) (ha : s.globals.heapStartAddr ≤ a ∧
      a < s.globals.heapStartAddr + 64 * totalBlocks B.start B.stop) :
    ∃ i < B.total, a = B.addr i := by
  have hbase := B.spec.base_aligned
  have hal : a % 64 = 0 := hal
  rw [hr.start, ← B.total_def] at ha
  refine ⟨(a - B.base) / 64, by omega, ?_⟩
  unfold HeapBounds.addr
  omega

theorem live_erase (hr : HeapRep B ts s.mem.view s.globals)
    (hlive : s.live.Perm ((segs true 0 ts).map (located B))) {t : Nat × Nat} {rest : List (Nat × Nat)}
    (hrest : s.live.Perm (t :: rest)) : (s.live.eraseP fun u => u.1 = t.1).Perm rest := by
  have hpair : s.live.Pairwise fun u w => decide (u.1 = t.1) = true → ¬decide (w.1 = t.1) = true := by
    refine (hlive.pairwise_iff fun {t u} => Ne.symm).mpr (located_nodup hr.valid.pos) |>.imp ?_
    intro u w hne hu hw
    rw [decide_eq_true_eq] at hu hw
    exact hne (hu.trans hw.symm)
  simpa using hrest.eraseP _ hpair

/-- `free` of an allocation succeeds, and stays inside the cells of the tiling after it. -/
theorem free_live (hr : HeapRep B ts s.mem.view s.globals)
    (hlive : s.live.Perm ((segs true 0 ts).map (located B))) {i n : Nat}
    (hmem : (i, n) ∈ segs true 0 ts) :
    ∃ m g ts', (free (B.addr i)).run s.mem s.globals = .done memSuccess m g ∧
      HeapRep B ts' m.view g ∧
      (s.live.eraseP fun t => t.1 = B.addr i).Perm ((segs true 0 ts').map (located B)) ∧
      (∀ w ∈ (free (B.addr i)).writes s.mem s.globals, Obj.own B (Obj.ofHeap B ts') w.1 w.2) ∧
      Frame (Obj.own B (Obj.ofHeap B ts')) s.mem m := by
  obtain ⟨ts', hrel⟩ := (exists_release_iff hr.valid.pos).mpr hmem
  have hwp := hr.wp_free (Q := fun r v g => r = memSuccess ∧ HeapRep B ts' v g)
    (T := fun _ _ _ _ => False) hrel (HeapCells.of_own fun _ _ h => h)
    fun _ _ _ hr' => ⟨rfl, hr'⟩
  obtain ⟨r, m, g, v', hrun, hs, hf, rfl, hr'⟩ := Prog.returns (separate_ofHeap B ts')
    (Sim.self _ s.mem) hwp
  exact ⟨m, g, ts', hrun, hr'.of_sim hs fun _ _ h => h,
    live_erase hr hlive (hlive.trans ((release_live hrel).map (located B))),
    Prog.writes_own (separate_ofHeap B ts') (Sim.self _ s.mem) hwp, hf⟩

/-- `free` of an address that it gets returns, and stays inside the cells of the tiling after it. -/
theorem free_returns (hr : HeapRep B ts s.mem.view s.globals)
    (hlive : s.live.Perm ((segs true 0 ts).map (located B))) {a : Nat}
    (ha : a = 0 ∨ a % memBlockSize ≠ 0 ∨ s.globals.heapStartAddr ≤ a ∧
      a < s.globals.heapStartAddr + 64 * totalBlocks B.start B.stop) :
    ∃ r m g ts', (free a).run s.mem s.globals = .done r m g ∧ HeapRep B ts' m.view g ∧
      (if r = memSuccess then s.live.eraseP fun t => t.1 = a else s.live).Perm
        ((segs true 0 ts').map (located B)) ∧
      (∀ w ∈ (free a).writes s.mem s.globals, Obj.own B (Obj.ofHeap B ts') w.1 w.2) ∧
      Frame (Obj.own B (Obj.ofHeap B ts')) s.mem m := by
  have hstay (hwp : (free a).wp (Obj.own B (Obj.ofHeap B ts)) s.mem.view s.globals
      (fun r v g => r ≠ memSuccess ∧ HeapRep B ts v g) fun _ _ _ _ => False) :
      ∃ r m g ts', (free a).run s.mem s.globals = .done r m g ∧ HeapRep B ts' m.view g ∧
        (if r = memSuccess then s.live.eraseP fun t => t.1 = a else s.live).Perm
          ((segs true 0 ts').map (located B)) ∧
        (∀ w ∈ (free a).writes s.mem s.globals, Obj.own B (Obj.ofHeap B ts') w.1 w.2) ∧
        Frame (Obj.own B (Obj.ofHeap B ts')) s.mem m := by
    obtain ⟨r, m, g, v', hrun, hs, hf, hne, hr'⟩ := Prog.returns (separate_ofHeap B ts)
      (Sim.self _ s.mem) hwp
    refine ⟨r, m, g, ts, hrun, hr'.of_sim hs fun _ _ h => h, ?_,
      Prog.writes_own (separate_ofHeap B ts) (Sim.self _ s.mem) hwp, hf⟩
    rwa [if_neg hne]
  by_cases hmis : a = 0 ∨ a % memBlockSize ≠ 0
  · exact hstay (HeapRep.wp_free_misaligned hmis fun _ hne => ⟨hne, hr⟩)
  have hmis := not_or.mp hmis
  obtain ⟨i, hi, rfl⟩ := hr.block_of_inside (not_not.mp hmis.2)
    ((ha.resolve_left hmis.1).resolve_left hmis.2)
  by_cases hfree : ∃ n, (i, n) ∈ segs true 0 ts
  · obtain ⟨n, hmem⟩ := hfree
    obtain ⟨m, g, ts', hrun, hr', hlive', hw, hf⟩ := free_live hr hlive hmem
    exact ⟨_, m, g, ts', hrun, hr', by rwa [if_pos rfl], hw, hf⟩
  · exact hstay (hr.wp_free_unused hi (fun n hn => hfree ⟨n, hn⟩) ⟨.entry i, hi, rfl, rfl⟩
      ⟨by decide, hr⟩)

/-- `free` of an address that it gets returns and keeps the invariant. -/
theorem heapInv_free (h : HeapInv B s) {a : Nat} (ha : a = 0 ∨ a % memBlockSize ≠ 0 ∨
      s.globals.heapStartAddr ≤ a ∧ a < s.globals.heapStartAddr + 64 * totalBlocks B.start B.stop) :
    ∃ r m g, (free a).run s.mem s.globals = .done r m g ∧
      HeapInv B ⟨m, g, if r = memSuccess then s.live.eraseP fun t => t.1 = a else s.live⟩ := by
  obtain ⟨ts, hr, hlive⟩ := h
  obtain ⟨r, m, g, ts', hrun, hr', hlive', -⟩ := free_returns hr hlive ha
  exact ⟨r, m, g, hrun, ts', hr', hlive'⟩

theorem located_inside (hv : Valid B.total ts) {u : Bool} {t : Nat × Nat}
    (ht : t ∈ (segs u 0 ts).map (located B)) :
    B.base ≤ t.1 ∧ t.1 + 64 * t.2 ≤ B.base + 64 * B.total ∧ 0 < t.2 := by
  obtain ⟨r, hr, rfl⟩ := List.mem_map.mp ht
  have h1 := (segs_bounds hr).2
  have h2 := segs_pos hv.pos hr
  rw [hv.size] at h1
  simp only [located, HeapBounds.addr]
  omega

/-- A free block does not belong to an allocation. -/
theorem free_outside (hv : Valid B.total ts) {i : Nat} (hi : Holds false ts i) {t : Nat × Nat}
    (ht : t ∈ (segs true 0 ts).map (located B)) :
    B.addr i + 64 ≤ t.1 ∨ t.1 + 64 * t.2 ≤ B.addr i := by
  obtain ⟨r, hr, rfl⟩ := List.mem_map.mp ht
  have hno : ¬Covers i r := fun hc =>
    (holds_true_iff (by rw [hv.size]; exact hi.lt hv)).mp ⟨r, hr, hc⟩ hi
  simp only [Covers, not_and_or, not_le, not_lt] at hno
  simp only [located, HeapBounds.addr]
  omega

/-- The owners of allocations do not touch the allocator's cells. -/
theorem heapInv_write (h : HeapInv B s) {m : Mem} (hm : ∀ x, B.start ≤ x → x ≤ B.stop →
      (∀ t ∈ s.live, x < t.1 ∨ t.1 + 64 * t.2 ≤ x) → m x = s.mem x) :
    HeapInv B ⟨m, s.globals, s.live⟩ := by
  obtain ⟨ts, hr, hlive⟩ := h
  refine ⟨ts, hr.congr fun a f ⟨o, ho, hcell⟩ => load_congr fun x hx hx' => ?_, hlive⟩
  have hb := Obj.cells_bounds hcell
  have hend := B.spec.base_end
  have htable := B.spec.table_le_base
  refine hm x ?_ ?_ fun t ht => ?_
  all_goals cases o with
    | tcb _ => exact ho.elim
    | sem _ => exact ho.elim
    | list _ => exact ho.elim
    | entry i =>
      have hi := B.entryAddr_lt ho
      have hstart : B.start ≤ B.entryAddr i := Nat.le_add_right _ _
      simp only [Obj.region] at hb
      try have := located_inside hr.valid (hlive.mem_iff.mp ht)
      omega
    | header i =>
      have hi := ho.lt hr.valid
      have haddr : B.addr i = B.base + i * 64 := rfl
      simp only [Obj.region] at hb
      try have := free_outside hr.valid ho (hlive.mem_iff.mp ht)
      omega

theorem heapInv_of_reach (h : HeapReach B s) : HeapInv B s := by
  induction h with
  | construct m₀ g₀ h => exact heapInv_construct h
  | step _ hs ih =>
    cases hs with
    | alloc n h =>
      obtain ⟨a, m, g, hrun, hinv⟩ := heapInv_alloc ih n
      rw [h] at hrun
      cases hrun
      exact hinv
    | free a ha h =>
      obtain ⟨r, m, g, hrun, hinv⟩ := heapInv_free ih ha
      rw [h] at hrun
      cases hrun
      exact hinv
    | write m h => exact heapInv_write ih h

/-! ### The invariant in terms of memory -/

theorem getD_headers (fs : List (Nat × Nat)) (k : Nat) :
    ((fs.map (located B)).map Prod.fst).getD k 0 = Linked.firstOf 0 (headers B (fs.drop k)) := by
  induction fs generalizing k with
  | nil => simp
  | cons t fs ih =>
    cases k with
    | zero => simp [located]
    | succ k => simpa using ih k

theorem freeWalk_of_freeList {m : Mem} {fbHead : Nat} {fs : List (Nat × Nat)}
    (h : FreeList B fbHead m.view fs) : FreeWalk m fbHead (fs.map (located B)) := by
  have hsplit (k : Nat) (hk : k < fs.length) : fs = fs.take k ++ fs[k] :: fs.drop (k + 1) := by
    simp
  refine ⟨?_, fun k hk => ?_, fun k hk => ?_, fun t ht => ?_, fun t ht => ?_⟩
  · rw [h.head_eq]
    cases fs with
    | nil => rfl
    | cons t fs => rfl
  · rw [List.length_map] at hk
    have hs := h
    rw [hsplit k hk] at hs
    rw [getD_headers, List.getElem_map]
    exact hs.next_eq
  · rw [List.length_map] at hk
    have hs := h
    rw [hsplit k hk] at hs
    rw [List.getElem_map]
    refine hs.prev_eq.trans ?_
    cases k with
    | zero => rfl
    | succ k =>
      rw [if_neg (by omega), Nat.add_sub_cancel, List.take_succ_eq_append_getElem (by omega),
        headers_append, headers_cons, headers_nil, Linked.lastOf_append]
      simp [located, show k < fs.length by omega]
  · obtain ⟨r, hr, rfl⟩ := List.mem_map.mp ht
    exact h.sizes r hr
  · obtain ⟨r, hr, rfl⟩ := List.mem_map.mp ht
    exact B.addr_ne_zero _

theorem HeapRep.table_eq {m : Mem} {g : Globals} {live : List (Nat × Nat)}
    (h : HeapRep B ts m.view g) (hlive : live.Perm ((segs true 0 ts).map (located B))) {i : Nat}
    (hi : i < B.total) : m.field (B.entryAddr i) Field.entry =
      ((live.find? fun t => t.1 = B.addr i).map Prod.snd).getD 0 := by
  cases hf : live.find? fun t => decide (t.1 = B.addr i) with
  | none =>
    refine h.clear i hi fun n hn => ?_
    have hmem : located B (i, n) ∈ live := hlive.mem_iff.mpr (List.mem_map.mpr ⟨_, hn, rfl⟩)
    have := List.find?_eq_none.mp hf _ hmem
    simp [located] at this
  | some t =>
    have ht := hlive.mem_iff.mp (List.mem_of_find?_eq_some hf)
    obtain ⟨r, hmem, rfl⟩ := List.mem_map.mp ht
    have heq := List.find?_some hf
    simp only [located, decide_eq_true_eq, HeapBounds.addr_inj] at heq
    subst heq
    exact h.live r hmem

theorem covers_located {i : Nat} {t : Nat × Nat} :
    (located B t).1 ≤ B.addr i ∧ B.addr i < (located B t).1 + 64 * (located B t).2 ↔ Covers i t := by
  simp only [located, Covers, HeapBounds.addr]
  omega

theorem partition_eq {live : List (Nat × Nat)} (hv : Valid B.total ts)
    (hlive : live.Perm ((segs true 0 ts).map (located B))) {i : Nat} (hi : i < B.total) :
    ((segs false 0 ts).map (located B) ++ live).countP (fun t => t.1 ≤ B.addr i ∧
      B.addr i < t.1 + 64 * t.2) = 1 := by
  have hcount := countP_covers (i := 0) (Nat.zero_le i) (by rwa [hv.size, Nat.zero_add])
  rw [← hcount, (hlive.append_left _).countP_eq, ← List.map_append, List.countP_map]
  refine List.countP_congr fun t _ => ?_
  rw [Function.comp_apply, decide_eq_true_eq, decide_eq_true_eq]
  exact covers_located

theorem HeapInv.allocatorInvariant (h : HeapInv B s) : ∃ fs, AllocatorInvariant B s fs := by
  obtain ⟨ts, hr, hlive⟩ := h
  have hv := hr.valid
  have hgaps := segs_false_gaps (i := 0) hv.pos hv.coalesced
  have haddr (i : Nat) : B.base + 64 * i = B.addr i := by rw [HeapBounds.addr, Nat.mul_comm]
  have hentry (i : Nat) : B.start + 4 * i = B.entryAddr i := by
    rw [HeapBounds.entryAddr, Nat.mul_comm]
  refine ⟨(segs false 0 ts).map (located B), ?_⟩
  constructor
  case walk => exact freeWalk_of_freeList hr.freeList
  case increasing =>
    refine List.pairwise_map.mpr (hgaps.imp fun {t u} hlt => ?_)
    simp only [located, HeapBounds.addr]
    omega
  case pos => exact fun t ht => (located_inside hv ht).2.2
  case inside =>
    intro t ht
    rw [hr.start, ← B.total_def]
    have hin : B.base ≤ t.1 ∧ t.1 + 64 * t.2 ≤ B.base + 64 * B.total ∧ 0 < t.2 := by
      rcases List.mem_append.mp ht with ht | ht
      · exact located_inside hv ht
      · exact located_inside hv (hlive.mem_iff.mp ht)
    exact ⟨hin.1, hin.2.1⟩
  case coalesced =>
    refine List.pairwise_map.mpr (hgaps.imp fun {t u} hlt => ?_)
    simp only [located, HeapBounds.addr]
    omega
  case livePos => exact fun t ht => (located_inside hv (hlive.mem_iff.mp ht)).2.2
  case table =>
    intro i hi
    rw [← B.total_def] at hi
    rw [hr.start, hr.table, haddr, hentry]
    exact hr.table_eq hlive hi
  case partition =>
    intro i hi
    rw [← B.total_def] at hi
    rw [hr.start, haddr]
    exact partition_eq hv hlive hi

/-- In every state that the allocator reaches its representation invariant holds, and every call
returns. -/
theorem allocator_invariant (h : HeapReach B s) :
    (∃ fs, AllocatorInvariant B s fs) ∧
    (∀ n, ∃ a m g, (alloc n).run s.mem s.globals = .done a m g) ∧
    ∀ a, (a = 0 ∨ a % memBlockSize ≠ 0 ∨ s.globals.heapStartAddr ≤ a ∧
      a < s.globals.heapStartAddr + 64 * totalBlocks B.start B.stop) →
      ∃ r m g, (free a).run s.mem s.globals = .done r m g := by
  have hinv := heapInv_of_reach h
  refine ⟨hinv.allocatorInvariant, fun n => ?_, fun a ha => ?_⟩
  · obtain ⟨a, m, g, hrun, -⟩ := heapInv_alloc hinv n
    exact ⟨a, m, g, hrun⟩
  · obtain ⟨r, m, g, hrun, -⟩ := heapInv_free hinv ha
    exact ⟨r, m, g, hrun⟩

theorem construct_returns (B : HeapBounds) (m₀ : Mem) (g₀ : Globals) :
    ∃ m g, (construct B.start B.stop).run m₀ g₀ = .done () m g := by
  obtain ⟨_, m, g, _, hrun, -⟩ := Prog.returns (separate_ofHeap B _) (Sim.self _ m₀)
    (HeapRep.wp_construct (g := g₀) (Q := fun _ _ _ => True) (HeapCells.of_own fun _ _ h => h)
      fun _ _ _ _ _ => trivial)
  exact ⟨m, g, hrun⟩

/-- The invariant after an allocation of three blocks. -/
theorem allocator_invariant_smallHeap : ∃ s, HeapReach smallHeap s ∧
    (∃ fs, AllocatorInvariant smallHeap s fs) := by
  obtain ⟨m, g, h⟩ := construct_returns smallHeap (fun _ => 0) (.image 0 0)
  have h0 := HeapReach.construct _ _ h
  obtain ⟨a, m', g', h'⟩ := (allocator_invariant h0).2.1 3
  have h1 := HeapReach.step h0 (.alloc 3 h')
  exact ⟨_, h1, (allocator_invariant h1).1⟩

end Os1Kernel
