import Os1Kernel.Lib.Linked
import Os1Kernel.Lib.Tiling
import Os1Kernel.Heap.Bounds

/-! The in-band list of free blocks: what the headers mean as a list of segments, and how the
allocator's edits of the links change it. -/

namespace Os1Kernel

open Memory Linked MemoryAllocator

/-- The free segments `fs`, in blocks of the heap `B`: disjoint and in order. -/
structure Sorted (B : HeapBounds) (fs : List (Nat × Nat)) : Prop where
  pos : ∀ s ∈ fs, 0 < s.2
  inside : ∀ s ∈ fs, s.1 + s.2 ≤ B.total
  order : fs.Pairwise fun s t => s.1 + s.2 ≤ t.1

/-- The addresses of the headers of the segments `fs`. -/
noncomputable def headers (B : HeapBounds) (fs : List (Nat × Nat)) : List Nat := fs.map fun s => B.addr s.1

@[simp] theorem headers_nil (B : HeapBounds) : headers B [] = [] := rfl

@[simp] theorem headers_cons (B : HeapBounds) (s : Nat × Nat) (fs : List (Nat × Nat)) :
    headers B (s :: fs) = B.addr s.1 :: headers B fs := rfl

@[simp] theorem headers_append (B : HeapBounds) (fs gs : List (Nat × Nat)) :
    headers B (fs ++ gs) = headers B fs ++ headers B gs := List.map_append

theorem mem_headers {B : HeapBounds} {fs : List (Nat × Nat)} {a : Nat} :
    a ∈ headers B fs ↔ ∃ s ∈ fs, B.addr s.1 = a := List.mem_map

theorem zero_notMem_headers (B : HeapBounds) (fs : List (Nat × Nat)) : 0 ∉ headers B fs := by
  intro h
  obtain ⟨s, -, hs⟩ := mem_headers.mp h
  exact B.addr_ne_zero _ hs

namespace Sorted

variable {B : HeapBounds} {fs gs : List (Nat × Nat)} {s t : Nat × Nat}

theorem headers_nodup (h : Sorted B fs) : (0 :: headers B fs).Nodup := by
  refine List.nodup_cons.mpr ⟨zero_notMem_headers B fs, List.pairwise_map.mpr ?_⟩
  refine h.order.imp_of_mem fun {s t} hs ht hst heq => ?_
  have h1 := h.pos s hs
  have h2 := B.addr_inj.mp heq
  omega

theorem sublist (h : Sorted B fs) (hg : gs.Sublist fs) : Sorted B gs :=
  ⟨fun s hs => h.pos s (hg.subset hs), fun s hs => h.inside s (hg.subset hs), h.order.sublist hg⟩

theorem length_le (h : Sorted B fs) : fs.length ≤ B.total := by
  suffices hsum : ∀ i, (∀ s ∈ fs, i ≤ s.1) → i ≤ B.total → i + fs.length ≤ B.total by
    simpa using hsum 0 (by simp) (by simp)
  have hord := h.order
  have hpos := h.pos
  have hin := h.inside
  clear h
  induction fs with
  | nil => intro i _ hi; simpa using hi
  | cons s fs ih =>
    intro i hi _
    have h1 := hi s (by simp)
    have h2 := hpos s (by simp)
    have h3 := hin s (by simp)
    obtain ⟨hs, hord⟩ := List.pairwise_cons.mp hord
    have := ih hord (fun t ht => hpos t (by simp [ht])) (fun t ht => hin t (by simp [ht])) (i + 1)
      (fun t ht => by have := hs t ht; omega) (by omega)
    simp only [List.length_cons]
    omega

/-- A segment in place of others that lies between the ends of them. -/
theorem replace {mid : List (Nat × Nat)} (h : Sorted B (fs ++ mid ++ gs)) (hs : 0 < s.2)
    (hin : s.1 + s.2 ≤ B.total) (hl : ∀ r ∈ fs, r.1 + r.2 ≤ s.1) (hr : ∀ r ∈ gs, s.1 + s.2 ≤ r.1) :
    Sorted B (fs ++ s :: gs) := by
  have hrest := h.sublist (show (fs ++ gs).Sublist (fs ++ mid ++ gs) from
    (List.sublist_append_left fs mid).append (List.Sublist.refl gs))
  refine ⟨?_, ?_, ?_⟩
  · intro r hr
    rcases List.mem_append.mp hr with hr | hr
    · exact hrest.pos r (by simp [hr])
    · rcases List.mem_cons.mp hr with rfl | hr
      · exact hs
      · exact hrest.pos r (by simp [hr])
  · intro r hr
    rcases List.mem_append.mp hr with hr | hr
    · exact hrest.inside r (by simp [hr])
    · rcases List.mem_cons.mp hr with rfl | hr
      · exact hin
      · exact hrest.inside r (by simp [hr])
  · obtain ⟨hf, hg, hfg⟩ := List.pairwise_append.mp hrest.order
    refine List.pairwise_append.mpr ⟨hf, List.pairwise_cons.mpr ⟨hr, hg⟩, fun a ha b hb => ?_⟩
    rcases List.mem_cons.mp hb with rfl | hb
    · exact hl a ha
    · exact hfg a ha b hb

theorem before (h : Sorted B (fs ++ s :: gs)) {r : Nat × Nat} (hr : r ∈ fs) : r.1 + r.2 ≤ s.1 :=
  (List.pairwise_append.mp h.order).2.2 r hr s (by simp)

theorem after (h : Sorted B (fs ++ s :: gs)) {r : Nat × Nat} (hr : r ∈ gs) : s.1 + s.2 ≤ r.1 :=
  List.rel_of_pairwise_cons (List.pairwise_append.mp h.order).2.1 hr

/-- Two neighbours that touch, joined. -/
theorem join (h : Sorted B (fs ++ s :: t :: gs)) : Sorted B (fs ++ (s.1, t.1 + t.2 - s.1) :: gs) := by
  have hst := h.after (r := t) (by simp)
  have hs := h.pos s (by simp)
  have ht := h.inside t (by simp)
  refine replace (show Sorted B (fs ++ [s, t] ++ gs) by simpa using h) (by simp only; omega) (by simp only; omega)
    (fun r hr => h.before hr) fun r hr => ?_
  have := h.after (r := r) (by simp [hr])
  have h' : Sorted B ((fs ++ [s]) ++ t :: gs) := by simpa using h
  have := h'.after hr
  simp only
  omega

theorem ne_header (h : Sorted B (fs ++ s :: gs)) {a : Nat} (ha : a ∈ headers B (fs ++ gs)) :
    a ≠ B.addr s.1 := by
  have hnd := (List.nodup_cons.mp h.headers_nodup).2
  rw [headers_append, headers_cons, List.nodup_middle, List.nodup_cons, ← headers_append] at hnd
  rintro rfl
  exact hnd.1 ha

theorem ne_lastOf (h : Sorted B (fs ++ s :: gs)) : B.addr s.1 ≠ lastOf 0 (headers B fs) := by
  rcases List.mem_cons.mp (lastOf_mem 0 (headers B fs)) with h0 | hf
  · rw [h0]
    exact B.addr_ne_zero _
  · exact (h.ne_header (by simp [hf])).symm

theorem ne_firstOf (h : Sorted B (fs ++ s :: gs)) : B.addr s.1 ≠ firstOf 0 (headers B gs) := by
  rcases List.mem_append.mp (firstOf_mem 0 (headers B gs)) with hg | h0
  · exact (h.ne_header (by simp [hg])).symm
  · rw [List.mem_singleton.mp h0]
    exact B.addr_ne_zero _

end Sorted

/-- The node after `a` in the free list, its first one after the null pointer. -/
def fbNx (fbHead : Nat) (v : Cells) (a : Nat) : Nat := if a = 0 then fbHead else v a .fbNext

/-- The node before `a` in the free list.  Only the proofs know its `last` node. -/
def fbPv (last : Nat) (v : Cells) (a : Nat) : Nat := if a = 0 then last else v a .fbPrev

/-- The free list of `v` from `fbHead` on is `fs`: the headers are linked both ways in address
order, and hold the sizes. -/
structure FreeList (B : HeapBounds) (fbHead : Nat) (v : Cells) (fs : List (Nat × Nat)) : Prop where
  sorted : Sorted B fs
  ring : Ring (fbNx fbHead v) (fbPv (lastOf 0 (headers B fs)) v) 0 (headers B fs)
  sizes : ∀ s ∈ fs, v (B.addr s.1) .nBlocks = s.2

/-- The fields of a free header at `a` may be used. -/
structure HeaderCells (O : Nat → Field → Prop) (a : Nat) : Prop where
  next : O a .fbNext
  prev : O a .fbPrev
  blocks : O a .nBlocks

namespace FreeList

variable {B : HeapBounds} {fbHead : Nat} {v : Cells} {fs gs : List (Nat × Nat)} {s t : Nat × Nat}

theorem head_eq (h : FreeList B fbHead v fs) : fbHead = firstOf 0 (headers B fs) := by
  simpa [fbNx] using h.ring.head

theorem next_eq (h : FreeList B fbHead v (fs ++ s :: gs)) :
    v (B.addr s.1) .fbNext = firstOf 0 (headers B gs) := by
  have hr := h.ring
  rw [headers_append, headers_cons] at hr
  simpa [fbNx, B.addr_ne_zero] using hr.next_of

theorem prev_eq (h : FreeList B fbHead v (fs ++ s :: gs)) :
    v (B.addr s.1) .fbPrev = lastOf 0 (headers B fs) := by
  have hr := h.ring
  rw [headers_append, headers_cons] at hr
  simpa [fbPv, B.addr_ne_zero] using hr.prev_of

theorem length_lt_walkLimit (h : FreeList B fbHead v fs) : fs.length < walkLimit := by
  have h1 := h.sorted.length_le
  have h2 := B.total_lt
  unfold walkLimit
  omega

/-- Only the free headers matter to the free list. -/
theorem congr {v' : Cells} (h : FreeList B fbHead v fs)
    (hv : ∀ a ∈ headers B fs, v' a .fbNext = v a .fbNext ∧ v' a .fbPrev = v a .fbPrev ∧
      v' a .nBlocks = v a .nBlocks) : FreeList B fbHead v' fs := by
  refine ⟨h.sorted, h.ring.congr ?_ ?_, fun s hs => ?_⟩
  · intro a ha
    rcases List.mem_cons.mp ha with rfl | ha
    · rfl
    · unfold fbNx
      split
      · rfl
      · exact (hv a ha).1
  · intro a ha
    rcases List.mem_cons.mp ha with rfl | ha
    · rfl
    · unfold fbPv
      split
      · rfl
      · exact (hv a ha).2.1
  · rw [(hv _ (mem_headers.mpr ⟨s, hs, rfl⟩)).2.2]
    exact h.sizes s hs

theorem header_lt (h : FreeList B fbHead v fs) {a : Nat} (ha : a ∈ headers B fs) : a < 2 ^ 64 := by
  obtain ⟨s, hs, rfl⟩ := mem_headers.mp ha
  have := h.sorted.inside s hs
  exact B.addr_lt (by omega)

theorem lastOf_lt (h : FreeList B fbHead v (fs ++ gs)) : lastOf 0 (headers B fs) < 2 ^ 64 := by
  rcases List.mem_cons.mp (lastOf_mem 0 (headers B fs)) with h0 | ha
  · rw [h0]
    decide
  · exact h.header_lt (by rw [headers_append]; exact List.mem_append_left _ ha)

theorem firstOf_lt (h : FreeList B fbHead v (fs ++ gs)) : firstOf 0 (headers B gs) < 2 ^ 64 := by
  rcases List.mem_append.mp (firstOf_mem 0 (headers B gs)) with ha | h0
  · exact h.header_lt (by rw [headers_append]; exact List.mem_append_right _ ha)
  · rw [List.mem_singleton.mp h0]
    decide

/-! ### The searches -/

/-- The header of the candidate of a best-fit search. -/
noncomputable def ptr (B : HeapBounds) : Option (Nat × Nat) → Nat
  | none => 0
  | some s => B.addr s.1

variable {O : Nat → Field → Prop} {g : Globals}

/-- The loop of `alloc` computes the best fit. -/
theorem wp_findBest {n fuel : Nat} {best : Option (Nat × Nat)} {Q : Nat → Cells → Globals → Prop}
    {T : Switch → Kernel Nat → Cells → Globals → Prop} (h : FreeList B fbHead v (fs ++ gs))
    (own : ∀ a ∈ headers B (fs ++ gs), HeaderCells O a) (hbest : ∀ s ∈ best, s ∈ fs ++ gs)
    (hfuel : gs.length < fuel) (hQ : Q (ptr B (Tiling.bestFit n best gs)) v g) :
    (findBest n fuel (firstOf 0 (headers B gs)) (ptr B best)).wp O v g Q T := by
  induction gs generalizing fs fuel best with
  | nil =>
    obtain ⟨fuel, rfl⟩ : ∃ k, fuel = k + 1 := ⟨fuel - 1, by simp at hfuel; omega⟩
    cases best with
    | none => simpa [findBest, blocksOf, ptr, Prog.wp_bind, Prog.wp_pure, Tiling.bestFit] using hQ
    | some b =>
      have hb := own (B.addr b.1) (mem_headers.mpr ⟨b, by simpa using hbest b rfl, rfl⟩)
      simp only [findBest, blocksOf, ptr, Prog.wp_bind, ne_eq, B.addr_ne_zero, not_false_eq_true,
        if_true, wp_rd, hb.blocks, true_and, headers_nil, firstOf_nil, not_true, false_and, if_false]
      rw [Tiling.bestFit] at hQ
      exact hQ
  | cons s gs ih =>
    obtain ⟨fuel, rfl⟩ : ∃ k, fuel = k + 1 := ⟨fuel - 1, by simp at hfuel; omega⟩
    have hs := h.sizes s (by simp)
    have hnext := h.next_eq
    have hown := own (B.addr s.1) (mem_headers.mpr ⟨s, by simp, rfl⟩)
    have hfuel' : gs.length < fuel := by simp at hfuel; omega
    rw [List.append_cons] at h own hbest
    have step (b : Option (Nat × Nat)) (hb : ∀ r ∈ b, r ∈ fs ++ [s] ++ gs)
        (hQ : Q (ptr B (Tiling.bestFit n b gs)) v g) :
        (findBest n fuel (v (B.addr s.1) .fbNext) (ptr B b)).wp O v g Q T := by
      rw [hnext]
      exact ih h own hb hfuel' hQ
    cases best with
    | none =>
      simp only [findBest, blocksOf, ptr, Prog.wp_bind, Prog.wp_pure, headers_cons, firstOf_cons,
        ne_eq, B.addr_ne_zero, not_true, not_false_eq_true, if_false, true_or, and_true, if_true,
        wp_rd, hown.next, hown.blocks, true_and, hs]
      rw [Tiling.bestFit] at hQ
      split
      · rename_i hn
        exact step (some s) (by simp) (by simpa [hn] using hQ)
      · rename_i hn
        exact step none (by simp) (by simpa [hn] using hQ)
    | some b =>
      have hmem := hbest b rfl
      have hb := own (B.addr b.1) (mem_headers.mpr ⟨b, hmem, rfl⟩)
      simp only [findBest, blocksOf, ptr, Prog.wp_bind, ne_eq, B.addr_ne_zero, not_false_eq_true,
        if_true, wp_rd, hb.blocks, true_and, h.sizes b hmem, headers_cons, firstOf_cons, false_or]
      rw [Tiling.bestFit] at hQ
      by_cases hn : b.2 = n
      · simpa [hn, Prog.wp_pure, ptr] using hQ
      · simp only [hn, not_false_eq_true, if_true, Prog.wp_bind, wp_rd, hown.next, hown.blocks,
          true_and, hs]
        split
        · rename_i hlt
          exact step (some s) (by simp) (by simpa [hn, hlt] using hQ)
        · rename_i hlt
          exact step (some b) (by simpa using hmem) (by simpa [hn, hlt] using hQ)

/-- The loop of `free` finds the last header before a block that is not free. -/
theorem wp_findPrev {i fuel : Nat} {mid : List (Nat × Nat)} {Q : Option Nat → Cells → Globals → Prop}
    {T : Switch → Kernel (Option Nat) → Cells → Globals → Prop}
    (h : FreeList B fbHead v (fs ++ mid ++ gs)) (own : ∀ a ∈ headers B (fs ++ mid ++ gs), HeaderCells O a)
    (hmid : ∀ r ∈ mid, r.1 + r.2 ≤ i) (hgs : ∀ r ∈ gs, i < r.1) (hfuel : mid.length < fuel)
    (hQ : Q (some (lastOf 0 (headers B (fs ++ mid)))) v g) :
    (findPrev (B.addr i) fuel (firstOf 0 (headers B (mid ++ gs))) (lastOf 0 (headers B fs))).wp
      O v g Q T := by
  induction mid generalizing fs fuel with
  | nil =>
    obtain ⟨fuel, rfl⟩ : ∃ k, fuel = k + 1 := ⟨fuel - 1, by simp at hfuel; omega⟩
    rw [List.append_nil] at hQ
    rw [findPrev, List.nil_append, if_neg]
    · exact hQ
    · rintro ⟨hne, hle⟩
      rcases firstOf_cases 0 (headers B gs) with ⟨-, h0⟩ | ⟨a, rest, hg, ha⟩
      · exact hne h0
      · obtain ⟨r, hr, rfl⟩ := mem_headers.mp (show a ∈ headers B gs by simp [hg])
        have := hgs r hr
        rw [ha, ge_iff_le, B.addr_le] at hle
        omega
  | cons s mid ih =>
    obtain ⟨fuel, rfl⟩ : ∃ k, fuel = k + 1 := ⟨fuel - 1, by simp at hfuel; omega⟩
    have hs := h.sizes s (by simp)
    have hin := h.sorted.inside s (by simp)
    have hle := hmid s (by simp)
    have hown := own (B.addr s.1) (mem_headers.mpr ⟨s, by simp, rfl⟩)
    have hnext : v (B.addr s.1) .fbNext = firstOf 0 (headers B (mid ++ gs)) :=
      next_eq (show FreeList B fbHead v (fs ++ s :: (mid ++ gs)) by simpa using h)
    have heq : fs ++ s :: mid ++ gs = fs ++ [s] ++ mid ++ gs := by simp
    rw [heq] at h own
    have := ih h own (fun r hr => hmid r (by simp [hr])) (by simp at hfuel; omega) (by simpa using hQ)
    have hge : B.addr s.1 ≤ B.addr i := B.addr_le.mpr (by omega)
    have hend : ¬B.addr i < B.addr (s.1 + s.2) := by
      rw [not_lt, B.addr_le]
      exact hle
    rw [findPrev]
    simp only [List.cons_append, headers_cons, firstOf_cons, ne_eq, B.addr_ne_zero,
      not_false_eq_true, ge_iff_le, hge, and_self, if_true, Prog.wp_bind, wp_rd, hown.blocks, hs,
      B.u64_addr_add hin, hend, if_false, hown.next, hnext, true_and]
    simpa using this

end FreeList

end Os1Kernel
