import Os1Kernel.Heap.Reject

/-! What `alloc` answers, in terms of the maximal runs of free blocks, and what that means for the
sizes in bytes that `mem_alloc` gets. -/

namespace Os1Kernel

open Memory MemoryAllocator
open Tiling hiding alloc

variable {B : HeapBounds} {s : HeapState} {ts : List Tile} {n : Nat}

/-- The `n` blocks from block `i` on are free, and the blocks around them are not. -/
structure HeapState.Run (B : HeapBounds) (s : HeapState) (i n : Nat) : Prop where
  pos : 0 < n
  free : ∀ j, i ≤ j → j < i + n → s.IsFree B j
  before : i = 0 ∨ ¬s.IsFree B (i - 1)
  after : ¬s.IsFree B (i + n)

/-- The free list consists of the maximal runs of free blocks. -/
def HeapState.ListsRuns (B : HeapBounds) (s : HeapState) : Prop :=
  ∃ fs, FreeWalk s.mem s.globals.fbHead fs ∧
    ∀ i n, s.Run B i n ↔ (s.globals.heapStartAddr + 64 * i, n) ∈ fs

theorem HeapState.isFree_iff {i : Nat} (hr : HeapRep B ts s.mem.view s.globals)
    (hlive : s.live.Perm ((segs true 0 ts).map (located B))) :
    s.IsFree B i ↔ Tiling.Holds false ts i := by
  refine ⟨fun h => ?_, HeapState.isFree_of_holds hr hlive⟩
  have hi : i < size ts := by
    rw [hr.valid.size, B.total_def]
    exact h.1
  by_contra hno
  obtain ⟨t, ht, hc⟩ := (holds_true_iff hi).mpr hno
  refine h.2 _ (hlive.mem_iff.mpr (List.mem_map.mpr ⟨t, ht, rfl⟩)) ?_
  unfold Tiling.Covers at hc
  rw [hr.start]
  simp only [located, HeapBounds.addr]
  omega

/-- Two free segments do not touch. -/
theorem gap_between (hv : Valid B.total ts) {t u : Nat × Nat} (ht : t ∈ segs false 0 ts)
    (hu : u ∈ segs false 0 ts) (hne : t ≠ u) : t.1 + t.2 < u.1 ∨ u.1 + u.2 < t.1 := by
  have hpair := (segs_false_gaps (i := 0) hv.pos hv.coalesced).imp
    (S := fun t u : Nat × Nat => t.1 + t.2 < u.1 ∨ u.1 + u.2 < t.1) fun h => .inl h
  have hsymm : Std.Symm fun t u : Nat × Nat => t.1 + t.2 < u.1 ∨ u.1 + u.2 < t.1 := ⟨fun _ _ => Or.symm⟩
  exact hpair.forall ht hu hne

/-- The free segments of the tiling are the maximal runs of free blocks. -/
theorem HeapState.run_iff {i : Nat} (hr : HeapRep B ts s.mem.view s.globals)
    (hlive : s.live.Perm ((segs true 0 ts).map (located B))) :
    s.Run B i n ↔ (i, n) ∈ segs false 0 ts := by
  have hfree (j : Nat) := HeapState.isFree_iff (i := j) hr hlive
  constructor
  · intro h
    obtain ⟨t, ht, hlow, hhigh⟩ := (hfree i).mp (h.free i le_rfl (by have := h.pos; omega))
    have hstart : t.1 = i := by
      by_contra hne
      rcases h.before with h0 | hno
      · omega
      · exact hno ((hfree (i - 1)).mpr ⟨t, ht, by omega, by omega⟩)
    have hlen : t.2 = n := by
      rcases Nat.lt_trichotomy t.2 n with hlt | heq | hgt
      · obtain ⟨u, hu, hu1, hu2⟩ := (hfree (i + t.2)).mp (h.free (i + t.2) (by omega) (by omega))
        by_cases htu : t = u
        · subst htu
          omega
        · have := gap_between hr.valid ht hu htu
          omega
      · exact heq
      · exact absurd ((hfree (i + n)).mpr ⟨t, ht, by omega, by omega⟩) h.after
    rwa [← hstart, ← hlen]
  · intro h
    have hpos : 0 < n := segs_pos hr.valid.pos h
    refine ⟨hpos, fun j hj hj' => (hfree j).mpr ⟨_, h, hj, hj'⟩, ?_, fun hf => ?_⟩
    · by_contra hno
      obtain ⟨h0, hf⟩ := not_or.mp hno
      obtain ⟨u, hu, hu1, hu2⟩ := (hfree (i - 1)).mp (not_not.mp hf)
      by_cases htu : (i, n) = u
      · subst htu
        simp only at hu1
        omega
      · have := gap_between hr.valid h hu htu
        simp only at this
        omega
    · obtain ⟨u, hu, hu1, hu2⟩ := (hfree (i + n)).mp hf
      by_cases htu : (i, n) = u
      · subst htu
        simp only at hu2
        omega
      · have := gap_between hr.valid h hu htu
        simp only at this
        omega

theorem HeapInv.listsRuns (h : HeapInv B s) : s.ListsRuns B := by
  obtain ⟨ts, hr, hlive⟩ := h
  refine ⟨_, freeWalk_of_freeList hr.freeList, fun i n => ?_⟩
  rw [HeapState.run_iff hr hlive, hr.start]
  have haddr : (B.base + 64 * i, n) = located B (i, n) := by
    simp only [located, HeapBounds.addr, Nat.mul_comm]
  rw [haddr]
  exact (List.mem_map_of_injective (located_injective B)).symm

/-! ### Failure -/

theorem readOnly_findBest (fuel curr best : Nat) : (findBest n fuel curr best).ReadOnly := by
  induction fuel generalizing curr best with
  | zero => trivial
  | succ fuel ih =>
    unfold findBest
    refine Prog.ReadOnly.bind (p := blocksOf best) ?_ fun _ => ?_
    · unfold blocksOf
      split
      · exact readOnly_rd _ _
      · trivial
    split
    · refine (readOnly_rd _ _).bind fun _ => (readOnly_rd _ _).bind fun _ => ?_
      split
      · exact ih _ _
      · exact ih _ _
    · trivial

/-- A call of `alloc` that fails changes nothing, in any memory. -/
theorem alloc_failed {m m' : Mem} {g g' : Globals}
    (h : (MemoryAllocator.alloc n).run m g = .done 0 m' g') : m' = m ∧ g' = g := by
  obtain ⟨_, _, _, hglobals, h₁⟩ := Prog.run_bind_done h
  cases hglobals
  obtain ⟨best, _, _, hfind, h₂⟩ := Prog.run_bind_done h₁
  obtain ⟨rfl, rfl⟩ := (readOnly_findBest _ _ _).run hfind
  split at h₂
  · rename_i hbest
    have hend {p : Kernel Unit} {m : Mem} {g : Globals}
        (hp : (p >>= fun _ => globals >>= fun g => wr (entryOf g best) .entry (u32 n) >>= fun _ =>
          pure best).run m g = .done 0 m' g') : False := by
      obtain ⟨_, _, _, -, h₃⟩ := Prog.run_bind_done hp
      obtain ⟨_, _, _, -, h₄⟩ := Prog.run_bind_done h₃
      obtain ⟨_, _, _, -, h₅⟩ := Prog.run_bind_done h₄
      cases h₅
      exact hbest rfl
    obtain ⟨_, _, _, -, h₃⟩ := Prog.run_bind_done h₂
    dsimp only at h₃
    split at h₃
    · exact (hend h₃).elim
    · exact (hend h₃).elim
  · cases h₂
    exact ⟨rfl, rfl⟩

/-! ### Success -/

/-- What an allocation of `n` blocks at block `i` leaves: the first `n` blocks of the run of `k` blocks
are allocated, and the other runs and the other elements of the table stay as they are. -/
structure Takes (B : HeapBounds) (s s' : HeapState) (i k n : Nat) : Prop where
  free : ∀ j, s'.IsFree B j ↔ s.IsFree B j ∧ ¬(i ≤ j ∧ j < i + n)
  runs : ∀ j l, s'.Run B j l ↔ s.Run B j l ∧ j ≠ i ∨ j = i + n ∧ l = k - n ∧ n < k
  table : ∀ j < totalBlocks B.start B.stop,
    s'.mem.field (s'.globals.allocTable + 4 * j) Field.entry = if j = i then n
      else s.mem.field (s.globals.allocTable + 4 * j) Field.entry
  start : s'.globals.heapStartAddr = s.globals.heapStartAddr
  lists : s'.ListsRuns B

/-- A smallest run that has `n` blocks, and the first one of these. -/
structure Best (B : HeapBounds) (s : HeapState) (n i k : Nat) : Prop where
  run : s.Run B i k
  le : n ≤ k
  least : ∀ j l, s.Run B j l → n ≤ l → k < l ∨ k = l ∧ i ≤ j

theorem best_of_alloc {i k : Nat} (hr : HeapRep B ts s.mem.view s.globals)
    (hlive : s.live.Perm ((segs true 0 ts).map (located B)))
    (hb : bestFit n none (segs false 0 ts) = some (i, k)) : Best B s n i k := by
  have hbest := bestFit_isBest n (segs false 0 ts)
  have hsorted := segs_sorted false 0 ts
  rw [hb] at hbest
  obtain ⟨before, after, heq, hn, hbefore, hafter⟩ := hbest
  have hmem : (i, k) ∈ segs false 0 ts := (bestFit_some hb).1
  refine ⟨(HeapState.run_iff hr hlive).mpr hmem, hn, fun j l hrun hl => ?_⟩
  have hjl := (HeapState.run_iff hr hlive).mp hrun
  rw [heq] at hjl hsorted
  obtain ⟨-, hs, -⟩ := List.pairwise_append.mp hsorted
  rcases List.mem_append.mp hjl with h | h
  · exact .inl (hbefore _ h hl)
  rcases List.mem_cons.mp h with h | h
  · obtain ⟨rfl, rfl⟩ := Prod.mk.inj h
    exact .inr ⟨rfl, le_rfl⟩
  · have hle := hafter _ h hl
    have hij := (List.pairwise_cons.mp hs).1 _ h
    simp only at hle hij
    omega

/-- The runs after an allocation. -/
theorem mem_segs_alloc {pre post : List Tile} {k j l : Nat} (hn : n ≤ k)
    (hp : Pos (pre ++ gap k :: post)) :
    (j, l) ∈ segs false 0 (pre ++ carve n k ++ post) ↔
      (j, l) ∈ segs false 0 (pre ++ gap k :: post) ∧ j ≠ size pre ∨
        j = size pre + n ∧ l = k - n ∧ n < k := by
  obtain ⟨hpre, hk, hpost⟩ : Pos pre ∧ 0 < k ∧ Pos post := by
    have := pos_append.mp hp
    exact ⟨this.1, pos_cons.mp this.2⟩
  have hlow {t : Nat × Nat} (ht : t ∈ segs false 0 pre) : t.1 ≠ size pre := by
    have h1 := (segs_bounds ht).2
    have h2 := segs_pos hpre ht
    omega
  have hhigh {t : Nat × Nat} (ht : t ∈ segs false (size pre + k) post) : t.1 ≠ size pre := by
    have := (segs_bounds ht).1
    omega
  have hsegs : segs false 0 (pre ++ gap k :: post) =
      segs false 0 pre ++ (size pre, k) :: segs false (size pre + k) post := by
    simp [segs_append, segs]
  rw [segs_false_alloc hn, hsegs]
  simp only [List.mem_append, List.mem_cons, Prod.mk.injEq]
  constructor
  · rintro ((h | h) | h)
    · exact .inl ⟨.inl h, hlow h⟩
    · split at h
      · simp at h
      · obtain ⟨rfl, rfl⟩ := Prod.mk.inj (List.mem_singleton.mp h)
        exact .inr ⟨rfl, rfl, by omega⟩
    · exact .inl ⟨.inr (.inr h), hhigh h⟩
  · rintro (⟨h | h | h, hne⟩ | ⟨rfl, rfl, hlt⟩)
    · exact .inl (.inl h)
    · exact absurd h.1 hne
    · exact .inr h
    · rw [if_neg (by omega)]
      exact .inl (.inr List.mem_cons_self)

/-- Best fit: `alloc` fails exactly when no maximal run of free blocks is long enough, and then changes
nothing; otherwise it takes the first blocks of the first one of the smallest runs that are. -/
theorem alloc_best_fit (h : HeapReach B s) (hn : 1 ≤ n) (hlt : n < 2 ^ 32) : ∃ a m g,
    (MemoryAllocator.alloc n).run s.mem s.globals = .done a m g ∧
    (a = 0 ↔ ∀ i k, s.Run B i k → k < n) ∧ (a = 0 → m = s.mem ∧ g = s.globals) ∧
    (a ≠ 0 → ∃ i k, a = s.globals.heapStartAddr + 64 * i ∧ Best B s n i k ∧
      Takes B s ⟨m, g, (a, n) :: s.live⟩ i k n) ∧ s.ListsRuns B := by
  have hinv := heapInv_of_reach h
  have hlists := hinv.listsRuns
  have hu : u32 n = n := u32_of_lt hlt
  obtain ⟨a₁, m₁, g₁, hrun₁, hinv'⟩ := heapInv_alloc hinv n
  obtain ⟨ts, hr, hlive⟩ := hinv
  obtain ⟨a, m, x, ts', hrun, -, hcase, hr'⟩ := hr.alloc_returns n
  rw [hrun₁] at hrun
  cases hrun
  rw [hu] at hcase hinv'
  have hnone : (∀ i k, s.Run B i k → k < n) ↔ Tiling.alloc n ts = none := by
    rw [alloc_eq_none hr.valid.pos]
    refine ⟨fun hall t ht => hall t.1 t.2 ((HeapState.run_iff hr hlive).mpr ht),
      fun hall i k hrun => hall _ ((HeapState.run_iff hr hlive).mp hrun)⟩
  refine ⟨a₁, m₁, _, hrun₁, ?_, fun ha => ?_, fun ha => ?_, hlists⟩
  · rw [hnone]
    rcases hcase with ⟨rfl, hnone, -⟩ | ⟨i, rfl, hsome⟩
    · simp [hnone]
    · simp [hsome, B.addr_ne_zero]
  · subst ha
    exact alloc_failed hrun₁
  · obtain ⟨i, rfl, halloc⟩ := hcase.resolve_left fun hc => ha hc.1
    rw [if_pos ⟨ha, by omega⟩] at hinv'
    obtain ⟨pre, k, post, rfl, rfl, hle, rfl, hb⟩ := alloc_eq_some hr.valid.pos halloc
    have haddr (j : Nat) : s.globals.heapStartAddr + 64 * j = B.addr j := by
      rw [hr.start, HeapBounds.addr, Nat.mul_comm]
    have hlists' := hinv'.listsRuns
    obtain ⟨us, hr₂, hlive₂⟩ := hinv'
    obtain rfl : us = pre ++ carve n k ++ post := by
      refine hr₂.valid.ext hr'.valid ?_
      have hperm := (alloc_live hr.valid.pos halloc).map (located B)
      rw [if_neg (by omega)] at hperm
      refine (List.map_perm_map_iff (located_injective B)).mp (hlive₂.symm.trans ?_)
      exact (List.Perm.cons _ hlive).trans hperm.symm
    refine ⟨size pre, k, (haddr _).symm, best_of_alloc hr hlive hb, ⟨fun j => ?_, fun j l => ?_,
      fun j hj => ?_, rfl, hlists'⟩⟩
    · have hcover : B.addr (size pre) ≤ s.globals.heapStartAddr + 64 * j ∧
          s.globals.heapStartAddr + 64 * j < B.addr (size pre) + 64 * n ↔
          size pre ≤ j ∧ j < size pre + n := by
        rw [haddr]
        unfold HeapBounds.addr
        omega
      simp only [HeapState.IsFree, List.forall_mem_cons, hcover]
      tauto
    · rw [HeapState.run_iff hr₂ hlive₂, HeapState.run_iff hr hlive]
      exact mem_segs_alloc hle hr.valid.pos
    · rw [← B.total_def] at hj
      have hentry : B.start + 4 * j = B.entryAddr j := by rw [HeapBounds.entryAddr, Nat.mul_comm]
      have h₁ := hr.table_eq hlive hj
      have h₂ := hr₂.table_eq hlive₂ hj
      rw [List.find?_cons] at h₂
      simp only [hr.table, hentry]
      refine h₂.trans ?_
      by_cases hji : j = size pre
      · simp [hji]
      · have hne : ¬B.addr (size pre) = B.addr j := fun heq => hji (B.addr_inj.mp heq).symm
        simp only [hne, decide_false, hji, if_false]
        exact h₁.symm

/-- An allocation of three blocks. -/
theorem alloc_best_fit_smallHeap : ∃ s a m g, HeapReach smallHeap s ∧
    (MemoryAllocator.alloc 3).run s.mem s.globals = .done a m g ∧
    (a = 0 ↔ ∀ i k, s.Run smallHeap i k → k < 3) := by
  obtain ⟨m, g, h⟩ := construct_returns smallHeap (fun _ => 0) (.image 0 0)
  have h0 := HeapReach.construct _ _ h
  obtain ⟨a, m', g', hrun, hnull, -⟩ := alloc_best_fit (n := 3) h0 (by decide) (by decide)
  exact ⟨_, a, m', g', h0, hrun, hnull⟩

end Os1Kernel
