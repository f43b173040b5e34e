import Os1Kernel.Heap.FreeList

/-! The edits of the free list by `alloc`, `free` and `merge_blocks`. -/

namespace Os1Kernel.FreeList

open Memory Linked MemoryAllocator

variable {B : HeapBounds} {fbHead : Nat} {v : Cells} {fs gs : List (Nat × Nat)} {s t : Nat × Nat}
  {O : Nat → Field → Prop} {g : Globals} {Q : Unit → Cells → Globals → Prop}
  {T : Switch → Kernel Unit → Cells → Globals → Prop}

/-- The segments `mid` of a free list replaced by `mid'`, by new links across the ends of `mid'` and
inside it and by new sizes. -/
theorem splice {mid mid' : List (Nat × Nat)} {fbHead' : Nat} {v' : Cells}
    (h : FreeList B fbHead v (fs ++ mid ++ gs)) (sorted : Sorted B (fs ++ mid' ++ gs))
    (links : Links (fbNx fbHead' v') (fbPv (lastOf 0 (headers B (fs ++ mid' ++ gs))) v')
      (lastOf 0 (headers B fs) :: headers B mid' ++ [firstOf 0 (headers B gs)]))
    (sizes : ∀ s ∈ mid', v' (B.addr s.1) .nBlocks = s.2)
    (hhead : lastOf 0 (headers B fs) ≠ 0 → fbHead' = fbHead)
    (hnext : ∀ a ∈ headers B (fs ++ gs), a ≠ lastOf 0 (headers B fs) → v' a .fbNext = v a .fbNext)
    (hprev : ∀ a ∈ headers B (fs ++ gs), a ≠ firstOf 0 (headers B gs) → v' a .fbPrev = v a .fbPrev)
    (hblocks : ∀ a ∈ headers B (fs ++ gs), v' a .nBlocks = v a .nBlocks) :
    FreeList B fbHead' v' (fs ++ mid' ++ gs) := by
  have hr := h.ring
  have hnd := sorted.headers_nodup
  have hnz : ∀ hs : List (Nat × Nat), ∀ a ∈ headers B hs, a ≠ 0 := fun hs a ha h0 =>
    zero_notMem_headers B hs (h0 ▸ ha)
  simp only [headers_append] at hr hnd links hnext hprev hblocks
  refine ⟨sorted, ?_, ?_⟩
  · simp only [headers_append]
    refine hr.splice hnd links ?_ ?_ ?_ ?_
    · intro a ha hne
      unfold fbNx
      rcases List.mem_cons.mp ha with rfl | ha
      · simp only [if_true]
        exact hhead (Ne.symm hne)
      · rw [if_neg (hnz fs a ha), if_neg (hnz fs a ha)]
        exact hnext a (List.mem_append_left _ ha) hne
    · intro a ha
      have hne : a ≠ firstOf 0 (headers B gs) := by
        rintro rfl
        rcases List.mem_append.mp (firstOf_mem 0 (headers B gs)) with hg | h0
        · have := (List.nodup_append.mp (List.nodup_cons.mp hnd).2).2.2 _
            (List.mem_append_left _ ha) _ hg
          exact this rfl
        · exact hnz fs _ ha (List.mem_singleton.mp h0)
      unfold fbPv
      rw [if_neg (hnz fs a ha), if_neg (hnz fs a ha)]
      exact hprev a (List.mem_append_left _ ha) hne
    · intro a ha
      have hne : a ≠ lastOf 0 (headers B fs) := by
        rintro rfl
        rcases List.mem_cons.mp (lastOf_mem 0 (headers B fs)) with h0 | hf
        · exact hnz gs _ ha h0
        · have := (List.nodup_append.mp (List.nodup_cons.mp hnd).2).2.2 _
            (List.mem_append_left _ hf) _ ha
          exact this rfl
      unfold fbNx
      rw [if_neg (hnz gs a ha), if_neg (hnz gs a ha)]
      exact hnext a (List.mem_append_right _ ha) hne
    · intro a ha hne
      unfold fbPv
      rcases List.mem_append.mp ha with ha | h0
      · rw [if_neg (hnz gs a ha), if_neg (hnz gs a ha)]
        exact hprev a (List.mem_append_right _ ha) hne
      · -- The last node stays the last one while there are nodes after the edit.
        rw [List.mem_singleton.mp h0] at hne ⊢
        simp only [if_true]
        rcases List.eq_nil_or_concat (headers B gs) with hg | ⟨init, x, hg⟩
        · rw [hg] at hne
          exact absurd rfl hne
        · rw [hg, List.concat_eq_append, ← List.append_assoc, lastOf_append, ← List.append_assoc,
            lastOf_append]
  · intro s hs
    rcases List.mem_append.mp hs with hs | hs
    · rcases List.mem_append.mp hs with hs | hs
      · rw [hblocks _ (List.mem_append_left _ (mem_headers.mpr ⟨s, hs, rfl⟩))]
        exact h.sizes s (by simp [hs])
      · exact sizes s hs
    · rw [hblocks _ (List.mem_append_right _ (mem_headers.mpr ⟨s, hs, rfl⟩))]
      exact h.sizes s (by simp [hs])

/-- A new header linked between the headers of `fs` and those of `gs`. -/
theorem insert {mid : List (Nat × Nat)} {i k : Nat} {v' : Cells}
    (h : FreeList B fbHead v (fs ++ mid ++ gs)) (sorted : Sorted B (fs ++ (i, k) :: gs))
    (hnext : ∀ a, v' a .fbNext = if lastOf 0 (headers B fs) ≠ 0 ∧ a = lastOf 0 (headers B fs) then B.addr i else
      if a = B.addr i then firstOf 0 (headers B gs) else v a .fbNext)
    (hprev : ∀ a, v' a .fbPrev = if firstOf 0 (headers B gs) ≠ 0 ∧ a = firstOf 0 (headers B gs) then B.addr i else
      if a = B.addr i then lastOf 0 (headers B fs) else v a .fbPrev)
    (hblocks : ∀ a, v' a .nBlocks = if a = B.addr i then k else v a .nBlocks) :
    FreeList B (if lastOf 0 (headers B fs) = 0 then B.addr i else fbHead) v'
      (fs ++ (i, k) :: gs) := by
  have hp : B.addr i ≠ lastOf 0 (headers B fs) := sorted.ne_lastOf
  have hq : B.addr i ≠ firstOf 0 (headers B gs) := sorted.ne_firstOf
  have hmem : ∀ a ∈ headers B (fs ++ gs), a ≠ B.addr i := fun a => sorted.ne_header
  have hlast : lastOf 0 (headers B (fs ++ [(i, k)] ++ gs)) =
      if firstOf 0 (headers B gs) = 0 then B.addr i else lastOf 0 (headers B (fs ++ [(i, k)] ++ gs)) := by
    rcases firstOf_cases 0 (headers B gs) with ⟨hg, h0⟩ | ⟨x, tl, hg, hx⟩
    · simp [hg]
    · rw [if_neg]
      rintro h0
      exact zero_notMem_headers B gs (by rw [hg, ← h0, hx]; simp)
  rw [List.append_cons] at sorted ⊢
  refine h.splice sorted ?_ ?_ ?_ ?_ ?_ ?_
  · refine .cons_cons ⟨?_, ?_⟩ (.cons_cons ⟨?_, ?_⟩ (.singleton _))
    · unfold fbNx
      split
      · rfl
      · rename_i h0
        rw [hnext, if_pos ⟨h0, rfl⟩]
    · rw [fbPv, if_neg (B.addr_ne_zero i), hprev, if_neg (fun h => hq h.2), if_pos rfl]
    · rw [fbNx, if_neg (B.addr_ne_zero i), hnext, if_neg (fun h => hp h.2), if_pos rfl]
    · unfold fbPv
      split
      · rename_i h0
        rw [hlast, if_pos h0]
      · rename_i h0
        rw [hprev, if_pos ⟨h0, rfl⟩]
  · simp [hblocks]
  · exact fun h0 => if_neg h0
  · intro a ha hne
    rw [hnext, if_neg (fun h => hne h.2), if_neg (hmem a ha)]
  · intro a ha hne
    rw [hprev, if_neg (fun h => hne h.2), if_neg (hmem a ha)]
  · intro a ha
    rw [hblocks, if_neg (hmem a ha)]

/-- The header between the headers of `fs` and those of `gs` unlinked. -/
theorem remove {v' : Cells} (h : FreeList B fbHead v (fs ++ s :: gs))
    (hnext : ∀ a, v' a .fbNext = if lastOf 0 (headers B fs) ≠ 0 ∧ a = lastOf 0 (headers B fs) then
      firstOf 0 (headers B gs) else v a .fbNext)
    (hprev : ∀ a, v' a .fbPrev = if firstOf 0 (headers B gs) ≠ 0 ∧ a = firstOf 0 (headers B gs) then
      lastOf 0 (headers B fs) else v a .fbPrev)
    (hblocks : ∀ a, v' a .nBlocks = v a .nBlocks) :
    FreeList B (if lastOf 0 (headers B fs) = 0 then firstOf 0 (headers B gs) else fbHead) v'
      (fs ++ gs) := by
  have hs : Sorted B (fs ++ [] ++ gs) := h.sorted.sublist (by simp)
  rw [List.append_cons] at h
  suffices hf : FreeList B (if lastOf 0 (headers B fs) = 0 then firstOf 0 (headers B gs) else fbHead)
      v' (fs ++ [] ++ gs) by simpa using hf
  refine h.splice hs ?_ (by simp) (fun h0 => if_neg h0) ?_ ?_ (fun a _ => hblocks a)
  · refine .cons_cons ⟨?_, ?_⟩ (.singleton _)
    · unfold fbNx
      split
      · rfl
      · rename_i h0
        rw [hnext, if_pos ⟨h0, rfl⟩]
    · unfold fbPv
      split
      · rename_i h0
        rcases firstOf_cases 0 (headers B gs) with ⟨hg, -⟩ | ⟨x, tl, hg, hx⟩
        · simp only [List.append_nil, headers_append, hg]
        · exact absurd (by rw [hg, ← h0, hx]; simp) (zero_notMem_headers B gs)
      · rename_i h0
        rw [hprev, if_pos ⟨h0, rfl⟩]
  · intro a ha hne
    rw [hnext, if_neg (fun h => hne h.2)]
  · intro a ha hne
    rw [hprev, if_neg (fun h => hne h.2)]

/-- Two neighbours that touch, under one header. -/
theorem join {v' : Cells} (h : FreeList B fbHead v (fs ++ s :: t :: gs)) (ht : t.1 = s.1 + s.2)
    (hnext : ∀ a, v' a .fbNext = if a = B.addr s.1 then firstOf 0 (headers B gs) else v a .fbNext)
    (hprev : ∀ a, v' a .fbPrev = if firstOf 0 (headers B gs) ≠ 0 ∧ a = firstOf 0 (headers B gs) then B.addr s.1 else
      v a .fbPrev)
    (hblocks : ∀ a, v' a .nBlocks = if a = B.addr s.1 then s.2 + t.2 else v a .nBlocks) :
    FreeList B fbHead v' (fs ++ (s.1, s.2 + t.2) :: gs) := by
  have hsorted : Sorted B (fs ++ (s.1, s.2 + t.2) :: gs) := by
    have := h.sorted.join
    rwa [show t.1 + t.2 - s.1 = s.2 + t.2 by omega] at this
  have hhead : (if lastOf 0 (headers B fs) = 0 then B.addr s.1 else fbHead) = fbHead := by
    rcases lastOf_cases 0 (headers B fs) with ⟨hf, h0⟩ | ⟨init, x, hf, hx⟩
    · rw [if_pos h0, h.head_eq, headers_append, hf]
      rfl
    · rw [if_neg]
      rintro h0
      exact zero_notMem_headers B fs (by rw [hf, ← h0, hx]; simp)
  have hp : lastOf 0 (headers B fs) ≠ 0 → v (lastOf 0 (headers B fs)) .fbNext = B.addr s.1 := by
    intro h0
    have hr := h.ring
    rw [headers_append] at hr
    simpa [fbNx, h0] using hr.next
  have hq : v (B.addr s.1) .fbPrev = lastOf 0 (headers B fs) := h.prev_eq
  have hne : B.addr s.1 ≠ lastOf 0 (headers B fs) := h.sorted.ne_lastOf
  rw [← hhead]
  refine insert (show FreeList B fbHead v (fs ++ [s, t] ++ gs) by simpa using h) hsorted ?_ ?_ hblocks
  · intro a
    rw [hnext]
    by_cases ha : lastOf 0 (headers B fs) ≠ 0 ∧ a = lastOf 0 (headers B fs)
    · rw [if_pos ha, if_neg (by rw [ha.2]; exact hne.symm), ha.2]
      exact hp ha.1
    · rw [if_neg ha]
  · intro a
    rw [hprev]
    split
    · rfl
    · split
      · rename_i ha
        rw [ha, hq]
      · rfl

/-! ### The operations -/

/-- Only free headers differ. -/
def HeadersOnly (v v' : Cells) : Prop :=
  ∀ a f, f ≠ .fbNext → f ≠ .fbPrev → f ≠ .nBlocks → v' a f = v a f

theorem own_lastOf (own : ∀ a ∈ headers B fs, HeaderCells O a) (h0 : lastOf 0 (headers B fs) ≠ 0) :
    HeaderCells O (lastOf 0 (headers B fs)) :=
  own _ ((List.mem_cons.mp (lastOf_mem 0 _)).resolve_left h0)

theorem own_firstOf (own : ∀ a ∈ headers B gs, HeaderCells O a) (h0 : firstOf 0 (headers B gs) ≠ 0) :
    HeaderCells O (firstOf 0 (headers B gs)) :=
  own _ ((List.mem_append.mp (firstOf_mem 0 _)).resolve_right fun h => h0 (List.mem_singleton.mp h))

theorem head_eq_iff (h : FreeList B fbHead v (fs ++ s :: gs)) :
    fbHead = B.addr s.1 ↔ lastOf 0 (headers B fs) = 0 := by
  have hnd := h.sorted.headers_nodup
  rw [h.head_eq, headers_append, headers_cons]
  rcases lastOf_cases 0 (headers B fs) with ⟨hf, h0⟩ | ⟨init, x, hf, hx⟩
  · rw [hf]
    simp
  · constructor
    · intro heq
      simp only [headers_append, headers_cons, List.nodup_cons, List.nodup_append] at hnd
      cases hh : headers B fs with
      | nil => simp [hh] at hf
      | cons y ys =>
        rw [hh] at heq hnd
        exact absurd heq (hnd.2.2.2 y (by simp) _ (by simp))
    · intro h0
      exact absurd (by rw [hf, ← h0, hx]; simp) (zero_notMem_headers B fs)

theorem wp_splitFree {n : Nat} (h : FreeList B g.fbHead v (fs ++ s :: gs)) (hn : n < s.2)
    (own : ∀ a ∈ headers B (fs ++ s :: gs), HeaderCells O a)
    (own' : HeaderCells O (B.addr (s.1 + n)))
    (hQ : ∀ v' x, FreeList B x v' (fs ++ (s.1 + n, s.2 - n) :: gs) → HeadersOnly v v' →
      Q () v' { g with fbHead := x }) :
    (splitFree (B.addr s.1) n (s.2 - n)).wp O v g Q T := by
  have hin := h.sorted.inside s (by simp)
  have htotal := B.total_lt
  have hown := own (B.addr s.1) (by simp)
  have hnew := B.u64_addr_add (show s.1 + n ≤ B.total by omega)
  have hsorted : Sorted B (fs ++ (s.1 + n, s.2 - n) :: gs) := by
    refine Sorted.replace (show Sorted B (fs ++ [s] ++ gs) by simpa using h.sorted)
      (by simp only; omega) (by simp only; omega) (fun r hr => ?_) fun r hr => ?_
    · exact (h.sorted.before hr).trans (Nat.le_add_right _ _)
    · have := h.sorted.after hr
      simp only
      omega
  have hnext := h.next_eq
  have hprev := h.prev_eq
  have hfree := h
  rw [List.append_cons] at hfree
  have hhead := h.head_eq_iff
  have hplt : lastOf 0 (headers B fs) < 2 ^ 64 := h.lastOf_lt
  have hqlt : firstOf 0 (headers B gs) < 2 ^ 64 := hfree.firstOf_lt
  have hownp := own_lastOf fun a (ha : a ∈ headers B fs) => own a (by simp [ha])
  have hownq := own_firstOf fun a (ha : a ∈ headers B gs) => own a (by simp [ha])
  have hrlt : s.2 - n < 2 ^ 32 := by omega
  have hilt : B.addr (s.1 + n) < 2 ^ 64 := B.addr_lt (by omega)
  have hpn : B.addr (s.1 + n) ≠ lastOf 0 (headers B fs) := hsorted.ne_lastOf
  generalize hp : lastOf 0 (headers B fs) = p at *
  generalize hq : firstOf 0 (headers B gs) = q at *
  simp (disch := first | assumption | decide) only [splitFree, moveHead, hnew, Prog.wp_bind, wp_wr,
    wp_rd, wp_wrIf, wp_modifyGlobals, set_half, set_word, setIf_word, hnext, hprev, own'.next,
    own'.prev, own'.blocks, hown.next, hown.prev, reduceCtorEq, and_false, and_true, if_false,
    true_and, hpn, if_true]
  refine ⟨fun h0 => (hownp h0).next, fun h0 => (hownq h0).prev, hQ _ _ ?_ ?_⟩
  · simp only [hhead, ← hp]
    refine hfree.insert hsorted ?_ ?_ ?_
    all_goals
      intro a
      simp (disch := first | assumption | decide) only [hp, hq, setIf_word, set_half, set_word,
        reduceCtorEq, and_false, and_true, if_false]
  · intro a f h1 h2 h3
    simp (disch := first | assumption | decide) only [setIf_word, set_half, set_word, h1, h2, h3,
      and_false, if_false]

theorem wp_unchainFree (h : FreeList B g.fbHead v (fs ++ s :: gs))
    (own : ∀ a ∈ headers B (fs ++ s :: gs), HeaderCells O a)
    (hQ : ∀ v' x, FreeList B x v' (fs ++ gs) → HeadersOnly v v' → Q () v' { g with fbHead := x }) :
    (unchainFree (B.addr s.1)).wp O v g Q T := by
  have hown := own (B.addr s.1) (by simp)
  have hnext := h.next_eq
  have hprev := h.prev_eq
  have hfree := h
  rw [List.append_cons] at hfree
  have hhead := h.head_eq_iff
  have hplt : lastOf 0 (headers B fs) < 2 ^ 64 := h.lastOf_lt
  have hqlt : firstOf 0 (headers B gs) < 2 ^ 64 := hfree.firstOf_lt
  have hownp := own_lastOf fun a (ha : a ∈ headers B fs) => own a (by simp [ha])
  have hownq := own_firstOf fun a (ha : a ∈ headers B gs) => own a (by simp [ha])
  have hsp : B.addr s.1 ≠ lastOf 0 (headers B fs) := h.sorted.ne_lastOf
  generalize hp : lastOf 0 (headers B fs) = p at *
  generalize hq : firstOf 0 (headers B gs) = q at *
  simp (disch := first | assumption | decide) only [unchainFree, moveHead, Prog.wp_bind, wp_rd, wp_wrIf,
    wp_modifyGlobals, setIf_word, hnext, hprev, hown.next, hown.prev, reduceCtorEq, and_false,
    and_true, if_false, true_and, hsp]
  refine ⟨fun h0 => (hownp h0).next, fun h0 => (hownq h0).prev, hQ _ _ ?_ ?_⟩
  · simp only [hhead, ← hp, ← hq]
    refine h.remove ?_ ?_ ?_
    all_goals
      intro a
      simp (disch := first | assumption | decide) only [hp, hq, setIf_word, reduceCtorEq, and_false,
        and_true, if_false]
  · intro a f h1 h2 h3
    simp (disch := first | assumption | decide) only [setIf_word, h1, h2, and_false, if_false]

theorem wp_chainFree {i n : Nat} (h : FreeList B g.fbHead v (fs ++ gs))
    (sorted : Sorted B (fs ++ (i, n) :: gs))
    (own : ∀ a ∈ headers B (fs ++ (i, n) :: gs), HeaderCells O a)
    (hQ : ∀ v' x, FreeList B x v' (fs ++ (i, n) :: gs) → HeadersOnly v v' →
      Q () v' { g with fbHead := x }) :
    (chainFree (B.addr i) (lastOf 0 (headers B fs)) n).wp O v g Q T := by
  have hin := sorted.inside (i, n) (by simp)
  have htotal := B.total_lt
  have hnew := own (B.addr i) (by simp)
  have hfree : FreeList B g.fbHead v (fs ++ [] ++ gs) := by simpa using h
  have hplt : lastOf 0 (headers B fs) < 2 ^ 64 := h.lastOf_lt
  have hqlt : firstOf 0 (headers B gs) < 2 ^ 64 := h.firstOf_lt
  have hownp := own_lastOf fun a (ha : a ∈ headers B fs) => own a (by simp [ha])
  have hownq := own_firstOf fun a (ha : a ∈ headers B gs) => own a (by simp [ha])
  have hnlt : n < 2 ^ 32 := by simp only at hin; omega
  have hilt : B.addr i < 2 ^ 64 := B.addr_lt (by simp only at hin; omega)
  have hzero : 0 < 2 ^ 64 := by decide
  have hnx : fbNx g.fbHead v (lastOf 0 (headers B fs)) = firstOf 0 (headers B gs) := by
    have hr := h.ring
    rw [headers_append] at hr
    exact hr.next
  have hnp : B.addr i ≠ lastOf 0 (headers B fs) := sorted.ne_lastOf
  have hnq : B.addr i ≠ firstOf 0 (headers B gs) := sorted.ne_firstOf
  have hins : ∀ v', _ → _ → _ → FreeList B _ v' _ := fun v' => hfree.insert sorted
  generalize hp : lastOf 0 (headers B fs) = p at *
  generalize hq : firstOf 0 (headers B gs) = q at *
  unfold fbNx at hnx
  by_cases h0 : p = 0
  · rw [if_pos h0] at hnx
    simp only [h0, if_true] at hins
    simp (disch := first | assumption | decide) only [chainFree, h0, ne_eq, not_true, if_false,
      Prog.wp_bind, wp_wr, wp_wrIf, wp_globals, wp_modifyGlobals, hnx, hnew.next, hnew.prev,
      hnew.blocks, true_and]
    refine ⟨fun h0 => (hownq h0).prev, hQ _ _ (hins _ ?_ ?_ ?_) ?_⟩
    iterate 3
      intro a
      simp (disch := first | assumption | decide) only [setIf_word, set_half, set_word, reduceCtorEq,
        and_false, and_true, if_false, ne_eq, not_true, false_and]
    intro a f h1 h2 h3
    simp (disch := first | assumption | decide) only [setIf_word, set_half, set_word, h1, h2, h3,
      and_false, if_false]
  · rw [if_neg h0] at hnx
    simp only [h0, if_false] at hins
    simp (disch := first | assumption | decide) only [chainFree, h0, ne_eq, not_false_eq_true,
      if_true, Prog.wp_bind, wp_wr, wp_rd, wp_wrIf, set_half, set_word, hnx, hnew.next, hnew.prev,
      hnew.blocks, (hownp h0).next, reduceCtorEq, and_false, and_true, if_false, true_and]
    refine ⟨fun h0 => (hownq h0).prev, hQ _ g.fbHead (hins _ ?_ ?_ ?_) ?_⟩
    iterate 3
      intro a
      simp (disch := first | assumption | decide) only [setIf_word, set_half, set_word, reduceCtorEq,
        and_false, and_true, if_false, ne_eq, h0, not_false_eq_true, true_and]
    intro a f h1 h2 h3
    simp (disch := first | assumption | decide) only [setIf_word, set_half, set_word, h1, h2, h3,
      and_false, if_false]

theorem wp_mergeBlocks {Q : Int → Cells → Globals → Prop}
    {T : Switch → Kernel Int → Cells → Globals → Prop} (h : FreeList B fbHead v (fs ++ s :: gs))
    (own : ∀ a ∈ headers B (fs ++ s :: gs), HeaderCells O a)
    (hQ : ∀ r v', FreeList B fbHead v' (fs ++ Tiling.absorb s gs) → HeadersOnly v v' → Q r v' g) :
    (mergeBlocks (B.addr s.1)).wp O v g Q T := by
  have hin := h.sorted.inside s (by simp)
  have hs := h.sizes s (by simp)
  have hown := own (B.addr s.1) (by simp)
  have hnext := h.next_eq
  have hend := B.u64_addr_add hin
  cases gs with
  | nil =>
    simp only [mergeBlocks, B.addr_ne_zero, if_false, Prog.wp_bind, wp_rd, hown.next, hown.blocks,
      hnext, headers_nil, firstOf_nil, ne_eq, not_true, false_and, true_and, Prog.wp_pure]
    exact hQ _ v (by simpa [Tiling.absorb] using h) fun _ _ _ _ _ => rfl
  | cons t gs =>
    by_cases ht : t.1 = s.1 + s.2
    · have hin' := h.sorted.inside t (by simp)
      have htotal := B.total_lt
      have hsum : s.2 + t.2 < 2 ^ 32 := by omega
      have hownt := own (B.addr t.1) (by simp)
      have hownq := own_firstOf fun a (ha : a ∈ headers B gs) => own a (by simp [ha])
      have ht2 := h.sizes t (by simp)
      have hsplit : FreeList B fbHead v ((fs ++ [s]) ++ t :: gs) := by simpa using h
      have hsplit' : FreeList B fbHead v ((fs ++ [s, t]) ++ gs) := by simpa using h
      have htnext := hsplit.next_eq
      have hqlt : firstOf 0 (headers B gs) < 2 ^ 64 := hsplit'.firstOf_lt
      have hslt : B.addr s.1 < 2 ^ 64 := B.addr_lt (by omega)
      have hjoin : ∀ v', _ → _ → _ → FreeList B _ v' _ := fun v' => h.join ht
      rw [Tiling.absorb, if_pos ht] at hQ
      rw [← ht] at hend
      generalize hq : firstOf 0 (headers B gs) = q at *
      simp (disch := first | assumption | decide) only [mergeBlocks, B.addr_ne_zero, if_false,
        Prog.wp_bind, wp_rd, wp_wr, wp_wrIf, hown.next, hown.blocks, hs, hnext, headers_cons,
        firstOf_cons, hend, ne_eq, not_false_eq_true, and_self, if_true, true_and, set_half,
        set_word, reduceCtorEq, and_false, Prog.wp_pure, hownt.next, hownt.blocks,
        ht2, htnext]
      refine ⟨fun h0 => (hownq h0).prev, hQ _ _ (hjoin _ ?_ ?_ ?_) ?_⟩
      iterate 3
        intro a
        simp (disch := first | assumption | decide) only [setIf_word, set_half, set_word,
          reduceCtorEq, and_false, and_true, if_false, ne_eq]
      intro a f h1 h2 h3
      simp (disch := first | assumption | decide) only [setIf_word, set_half, set_word, h1, h2, h3,
        and_false, if_false]
    · have hne : B.addr t.1 ≠ B.addr (s.1 + s.2) := fun heq => ht (B.addr_inj.mp heq)
      simp only [mergeBlocks, B.addr_ne_zero, if_false, Prog.wp_bind, wp_rd, hown.next, hown.blocks,
        hs, hnext, headers_cons, firstOf_cons, hend, hne, and_false, true_and, Prog.wp_pure]
      refine hQ _ v ?_ fun _ _ _ _ _ => rfl
      rwa [Tiling.absorb, if_neg ht]

end Os1Kernel.FreeList
