import Os1Kernel.Heap.Edit

/-! The allocator as a tiling of the heap: what memory holds for a tiling, and that `alloc` and `free`
do to memory what best fit and release do to the tiling. -/

namespace Os1Kernel

open Memory Linked MemoryAllocator
open Tiling hiding alloc

/-- Memory and the allocator's variables hold the tiling `ts` of the heap `B`. -/
structure HeapRep (B : HeapBounds) (ts : List Tile) (v : Cells) (g : Globals) : Prop where
  valid : Valid B.total ts
  start : g.heapStartAddr = B.base
  table : g.allocTable = B.start
  freeList : FreeList B g.fbHead v (segs false 0 ts)
  live : ∀ s ∈ segs true 0 ts, v (B.entryAddr s.1) .entry = s.2
  clear : ∀ i < B.total, (∀ n, (i, n) ∉ segs true 0 ts) → v (B.entryAddr i) .entry = 0

/-- The cells that the allocator may use: the table, and headers in all free blocks. -/
structure HeapCells (B : HeapBounds) (ts : List Tile) (O : Nat → Field → Prop) : Prop where
  entries : ∀ i < B.total, O (B.entryAddr i) .entry
  headers : ∀ i, Holds false ts i → HeaderCells O (B.addr i)

/-- Only free headers and table entries differ. -/
def HeapOnly (v v' : Cells) : Prop :=
  ∀ a f, f ≠ .fbNext → f ≠ .fbPrev → f ≠ .nBlocks → f ≠ .entry → v' a f = v a f

theorem FreeList.HeadersOnly.trans {v v' v'' : Cells} (h : FreeList.HeadersOnly v v')
    (h' : FreeList.HeadersOnly v' v'') : FreeList.HeadersOnly v v'' :=
  fun a f h1 h2 h3 => (h' a f h1 h2 h3).trans (h a f h1 h2 h3)

theorem FreeList.HeadersOnly.set_entry {v v' : Cells} (h : FreeList.HeadersOnly v v') (a x : Nat) :
    HeapOnly v (v'.set a .entry x) := by
  intro b f h1 h2 h3 h4
  rw [View.set_field_ne h4]
  exact h b f h1 h2 h3

theorem FreeList.set_entry {B : HeapBounds} {fbHead : Nat} {v : Cells} {fs : List (Nat × Nat)}
    (h : FreeList B fbHead v fs) (a x : Nat) : FreeList B fbHead (v.set a .entry x) fs :=
  h.congr fun b _ => ⟨View.set_field_ne (by decide), View.set_field_ne (by decide),
    View.set_field_ne (by decide)⟩

theorem HeapBounds.entryAddr_inj {B : HeapBounds} {i j : Nat} :
    B.entryAddr i = B.entryAddr j ↔ i = j := by
  unfold HeapBounds.entryAddr
  omega

theorem set_entry {B : HeapBounds} {v : Cells} {i j n : Nat} (hn : n < 2 ^ 32) :
    v.set (B.entryAddr i) .entry n (B.entryAddr j) .entry =
      if j = i then n else v (B.entryAddr j) .entry := by
  rw [set_half (by decide) hn]
  simp only [HeapBounds.entryAddr_inj, and_true]

theorem headers_absorb_subset (B : HeapBounds) (s : Nat × Nat) (fs : List (Nat × Nat)) :
    headers B (absorb s fs) ⊆ headers B (s :: fs) := by
  cases fs with
  | nil => exact fun a ha => ha
  | cons t fs =>
    rw [absorb]
    split
    · exact List.cons_subset_cons _ (List.subset_cons_self _ _)
    · exact fun a ha => ha

theorem toBlocks_freeBlocks : toBlocks sizeofFreeBlocks = 1 := by decide

namespace HeapRep

variable {B : HeapBounds} {ts ts' : List Tile} {v : Cells} {g : Globals} {O : Nat → Field → Prop}

theorem holds_free {s : Nat × Nat} (hp : Pos ts) (hs : s ∈ segs false 0 ts) : Holds false ts s.1 :=
  ⟨s, hs, le_rfl, Nat.lt_add_of_pos_right (segs_pos hp hs)⟩

theorem own (h : HeapRep B ts v g) (own : HeapCells B ts O) :
    ∀ a ∈ headers B (segs false 0 ts), HeaderCells O a := by
  intro a ha
  obtain ⟨s, hs, rfl⟩ := mem_headers.mp ha
  exact own.headers _ (holds_free h.valid.pos hs)

/-- The table after an allocation. -/
theorem of_alloc {n i x : Nat} {v' : Cells} (h : HeapRep B ts v g)
    (ha : Tiling.alloc n ts = some (i, ts')) (hn : n < 2 ^ 32)
    (hf : FreeList B x v' (segs false 0 ts')) (hv : FreeList.HeadersOnly v v') :
    HeapRep B ts' (v'.set (B.entryAddr i) .entry n) { g with fbHead := x } := by
  have hlive := alloc_live h.valid.pos ha
  have hentry (a : Nat) : v' a .entry = v a .entry := hv a .entry (by decide) (by decide) (by decide)
  have hold : ∀ s ∈ segs true 0 ts, s.1 ≠ i := by
    rintro s hs rfl
    obtain ⟨pre, k, post, rfl, hi, -, -, hb⟩ := alloc_eq_some h.valid.pos ha
    have hfree := (bestFit_some hb).1
    have hpos := segs_pos h.valid.pos hs
    have hpos' := segs_pos h.valid.pos hfree
    have := segs_apart hs hfree
    simp only at this hpos'
    omega
  refine ⟨h.valid.alloc ha, h.start, h.table, hf.set_entry _ _, ?_, ?_⟩
  · intro s hs
    rw [set_entry hn]
    rcases List.mem_append.mp (hlive.mem_iff.mp hs) with hnew | hs
    · split at hnew
      · simp at hnew
      · obtain rfl := List.mem_singleton.mp hnew
        rw [if_pos rfl]
    · rw [if_neg (hold s hs), hentry]
      exact h.live s hs
  · intro j hj hno
    rw [set_entry hn]
    split
    · rename_i heq
      subst heq
      by_contra hn0
      exact hno n (hlive.mem_iff.mpr (List.mem_append_left _ (by simp [hn0])))
    · rw [hentry]
      exact h.clear j hj fun k hk => hno k (hlive.mem_iff.mpr (List.mem_append_right _ hk))

/-- `alloc` does to memory what best fit does to the tiling. -/
theorem wp_alloc {n : Nat} {Q : Nat → Cells → Globals → Prop}
    {T : Switch → Kernel Nat → Cells → Globals → Prop} (h : HeapRep B ts v g)
    (cells : HeapCells B ts O) (hnone : Tiling.alloc (u32 n) ts = none → Q 0 v g)
    (hsome : ∀ i ts', Tiling.alloc (u32 n) ts = some (i, ts') → ∀ v' x, HeapOnly v v' →
      HeapRep B ts' v' { g with fbHead := x } → Q (B.addr i) v' { g with fbHead := x }) :
    (alloc n).wp O v g Q T := by
  have hown := h.own cells
  have hpos := h.valid.pos
  have hun : u32 n < 2 ^ 32 := u32_lt n
  have hfind : ∀ {Q : Nat → Cells → Globals → Prop}
      {T : Switch → Kernel Nat → Cells → Globals → Prop},
      Q (FreeList.ptr B (bestFit (u32 n) none (segs false 0 ts))) v g →
      (findBest (u32 n) walkLimit g.fbHead 0).wp O v g Q T := by
    intro Q T hQ
    have hf : FreeList B g.fbHead v ([] ++ segs false 0 ts) := h.freeList
    have hnil : ∀ s ∈ (none : Option (Nat × Nat)), s ∈ [] ++ segs false 0 ts := by simp
    rw [h.freeList.head_eq]
    exact hf.wp_findBest hown hnil h.freeList.length_lt_walkLimit hQ
  simp only [alloc, Prog.wp_bind, wp_globals]
  refine hfind ?_
  cases hb : bestFit (u32 n) none (segs false 0 ts) with
  | none =>
    simp only [FreeList.ptr, ne_eq, not_true, if_false, Prog.wp_pure]
    exact hnone (by simp [Tiling.alloc, hb])
  | some s =>
    obtain ⟨i, k⟩ := s
    obtain ⟨ts', ha⟩ := alloc_of_bestFit hpos hb
    obtain ⟨hmem, hle⟩ := bestFit_some hb
    have hin : i + k ≤ B.total := h.freeList.sorted.inside (i, k) hmem
    have hs : v (B.addr i) .nBlocks = k := h.freeList.sizes (i, k) hmem
    have hk : 0 < k := segs_pos hpos hmem
    have hsown := hown (B.addr i) (mem_headers.mpr ⟨(i, k), hmem, rfl⟩)
    have hentry (x : Nat) : entryOf { g with fbHead := x } (B.addr i) = B.entryAddr i :=
      B.entryOf_addr h.start h.table (by omega)
    have hcell := cells.entries i (by omega)
    have hrep (v' : Cells) (x : Nat) (hf : FreeList B x v' (segs false 0 ts'))
        (hv : FreeList.HeadersOnly v v') := h.of_alloc ha hun hf hv
    have hdone := hsome i ts' ha
    obtain ⟨pre, k', post, rfl, rfl, -, hts', hb'⟩ := alloc_eq_some hpos ha
    obtain rfl : k = k' := by simpa [hb] using hb'
    have hsegs : segs false 0 (pre ++ gap k :: post) =
        segs false 0 pre ++ (size pre, k) :: segs false (size pre + k) post := by
      simp [segs_append, segs]
    have hsegs' : segs false 0 (pre ++ carve (u32 n) k ++ post) = _ := segs_false_alloc hle
    have hfree := h.freeList
    rw [← hts'] at hsegs'
    rw [hsegs] at hfree hown
    simp only [FreeList.ptr, B.addr_ne_zero, ne_eq, not_false_eq_true, if_true, Prog.wp_bind, wp_rd,
      hsown.blocks, hs, true_and, toBlocks_freeBlocks]
    by_cases hrem : k - u32 n = 0
    · rw [if_pos hrem, List.append_nil] at hsegs'
      rw [if_neg (by omega), Prog.wp_bind]
      refine hfree.wp_unchainFree hown fun v' x hf hv => ?_
      simp only [Prog.wp_bind, wp_globals, wp_wr, Prog.wp_pure, hentry]
      exact ⟨hcell, hdone _ x (hv.set_entry _ _) (hrep v' x (by rwa [hsegs']) hv)⟩
    · rw [if_neg hrem, List.append_assoc] at hsegs'
      rw [if_pos (by omega), Prog.wp_bind]
      have hnew := cells.headers (size pre + u32 n) ⟨(size pre, k), hmem, by simp, by simp; omega⟩
      refine hfree.wp_splitFree (by simp only; omega) hown hnew fun v' x hf hv => ?_
      simp only [Prog.wp_bind, wp_globals, wp_wr, Prog.wp_pure, hentry]
      exact ⟨hcell, hdone _ x (hv.set_entry _ _) (hrep v' x (by rwa [hsegs']) hv)⟩

/-- The table after a release. -/
theorem of_release {n i x : Nat} {v' : Cells} (h : HeapRep B ts v g)
    (hr : release i ts = some (n, ts')) (hf : FreeList B x v' (segs false 0 ts'))
    (hv : ∀ j, v' (B.entryAddr j) .entry = if j = i then 0 else v (B.entryAddr j) .entry) :
    HeapRep B ts' v' { g with fbHead := x } := by
  have hlive := release_live hr
  have hnd := (hlive.map Prod.fst).nodup_iff.mp (segs_nodup true 0 h.valid.pos)
  refine ⟨h.valid.release hr, h.start, h.table, hf, ?_, ?_⟩
  · intro s hs
    have hne : s.1 ≠ i := fun heq => (List.nodup_cons.mp hnd).1 (List.mem_map.mpr ⟨s, hs, heq⟩)
    rw [hv, if_neg hne]
    exact h.live s (hlive.mem_iff.mpr (List.mem_cons_of_mem _ hs))
  · intro j hj hno
    rw [hv]
    split
    · rfl
    · rename_i hne
      refine h.clear j hj fun k hk => ?_
      rcases List.mem_cons.mp (hlive.mem_iff.mp hk) with heq | hk
      · exact hne (by simpa using congrArg Prod.fst heq)
      · exact hno k hk

/-- The free segments around a used tile, and the used tile among them. -/
structure Around (B : HeapBounds) (pre post : List Tile) (n : Nat) : Prop where
  inside : size pre + n ≤ B.total
  before : ∀ r ∈ segs false 0 pre, r.1 + r.2 ≤ size pre
  after : ∀ r ∈ segs false (size pre + n) post, size pre + n ≤ r.1
  sorted : Sorted B (segs false 0 pre ++ (size pre, n) :: segs false (size pre + n) post)

theorem around {pre post : List Tile} {n : Nat} (h : HeapRep B (pre ++ owned n :: post) v g)
    (hn : 0 < n) : FreeList B g.fbHead v (segs false 0 pre ++ segs false (size pre + n) post) ∧
      Around B pre post n := by
  have hsize := h.valid.size
  have hfree := h.freeList
  simp only [size_append, size_cons] at hsize
  have hpre : ∀ r ∈ segs false 0 pre, r.1 + r.2 ≤ size pre := fun r hr => by
    simpa using (segs_bounds hr).2
  have hpost : ∀ r ∈ segs false (size pre + n) post, size pre + n ≤ r.1 := fun r hr =>
    (segs_bounds hr).1
  rw [segs_append, segs, if_neg (by simp), Nat.zero_add] at hfree
  refine ⟨hfree, by omega, hpre, hpost, ?_⟩
  exact Sorted.replace (show Sorted B (segs false 0 pre ++ [] ++ segs false (size pre + n) post) by
    simpa using hfree.sorted) hn (by simp only; omega) hpre hpost

/-- `free` after its search. -/
theorem wp_freeAfter {n : Nat} {pre post : List Tile} {Q : Int → Cells → Globals → Prop}
    {T : Switch → Kernel Int → Cells → Globals → Prop} (h : HeapRep B (pre ++ owned n :: post) v g)
    (hn : 0 < n) (hcell : O (B.entryAddr (size pre)) .entry)
    (hown : ∀ a ∈ headers B (segs false 0 pre ++ (size pre, n) :: segs false (size pre + n) post),
      HeaderCells O a)
    (hQ : ∀ v' x, HeapOnly v v' →
      HeapRep B (coalesce (pre ++ gap n :: post)) v' { g with fbHead := x } →
      Q memSuccess v' { g with fbHead := x }) :
    (freeAfter (B.addr (size pre)) (lastOf 0 (headers B (segs false 0 pre))) n).wp O v g Q T := by
  have hvalid := h.valid
  have hfalse := segs_false_release hvalid.pos hvalid.coalesced
  obtain ⟨hfree, har⟩ := h.around hn
  have hin := har.inside
  have hloc : locate true (size pre) (pre ++ owned n :: post) = some (pre, n, post) :=
    locate_complete fun t ht => hvalid.pos t (by simp [ht])
  have hr : release (size pre) (pre ++ owned n :: post) =
      some (n, coalesce (pre ++ gap n :: post)) := by
    simp [release, hloc]
  have hg (x : Nat) : entryOf { g with fbHead := x } (B.addr (size pre)) = B.entryAddr (size pre) :=
    B.entryOf_addr h.start h.table (by omega)
  rw [freeAfter, Prog.wp_bind]
  refine hfree.wp_chainFree har.sorted hown fun v₁ x hf₁ hv₁ => ?_
  have hend (v' : Cells) (hf : FreeList B x v' (rejoin (segs false 0 pre)
      (absorb (size pre, n) (segs false (size pre + n) post))))
      (hv : FreeList.HeadersOnly (v₁.set (B.entryAddr (size pre)) .entry 0) v') :
      Q memSuccess v' { g with fbHead := x } := by
    refine hQ v' x (fun a f h1 h2 h3 h4 => ?_) (h.of_release hr (by rwa [hfalse]) fun j => ?_)
    · rw [hv a f h1 h2 h3, hv₁.set_entry _ _ a f h1 h2 h3 h4]
    · rw [hv _ _ (by decide) (by decide) (by decide), set_entry (by decide),
        hv₁ _ _ (by decide) (by decide) (by decide)]
  simp only [Prog.wp_bind, wp_globals, wp_wr, wp_rd, hg, hcell, true_and, Prog.wp_pure]
  refine (hf₁.set_entry _ _).wp_mergeBlocks hown fun _ v₂ hf₂ hv₂ => ?_
  refine ⟨(hown (B.addr (size pre)) (by simp)).prev, ?_⟩
  have hprev : v₂ (B.addr (size pre)) .fbPrev = lastOf 0 (headers B (segs false 0 pre)) := by
    obtain ⟨m, tl, habs⟩ := absorb_head (size pre, n) (segs false (size pre + n) post)
    rw [habs] at hf₂
    exact hf₂.prev_eq
  rw [hprev]
  rcases List.eq_nil_or_concat (segs false 0 pre) with hnil | ⟨init, t, hinit⟩
  · -- No free block comes before the released ones.
    rw [hnil] at hf₂ hend ⊢
    simp only [headers_nil, lastOf_nil, mergeBlocks, if_true, Prog.wp_pure]
    exact hend v₂ hf₂ hv₂
  · rw [List.concat_eq_append] at hinit
    rw [hinit] at hf₂ hend hown ⊢
    rw [rejoin_concat] at hend
    rw [headers_append, headers_cons, headers_nil, lastOf_append]
    rw [List.append_assoc, List.singleton_append] at hf₂
    refine hf₂.wp_mergeBlocks (fun a ha => hown a ?_) fun _ v₃ hf₃ hv₃ => hend v₃ hf₃ (hv₂.trans hv₃)
    have habs := headers_absorb_subset B (size pre, n) (segs false (size pre + n) post)
    simp only [headers_append, headers_cons, headers_nil, List.mem_append, List.mem_cons,
      List.not_mem_nil, or_false] at ha ⊢
    rcases ha with ha | ha | ha
    · exact .inl (.inl ha)
    · exact .inl (.inr ha)
    · exact .inr (List.mem_cons.mp (habs ha))

/-- The search of `free` for the start of an allocation ends between the free headers around it. -/
theorem wp_findPrev_owned {pre post : List Tile} {n : Nat} {Q : Option Nat → Cells → Globals → Prop}
    {T : Switch → Kernel (Option Nat) → Cells → Globals → Prop}
    (h : HeapRep B (pre ++ owned n :: post) v g) (hn : 0 < n)
    (hown : ∀ a ∈ headers B (segs false 0 pre ++ segs false (size pre + n) post), HeaderCells O a)
    (hQ : Q (some (lastOf 0 (headers B (segs false 0 pre)))) v g) :
    (findPrev (B.addr (size pre)) walkLimit g.fbHead 0).wp O v g Q T := by
  obtain ⟨hfree, har⟩ := h.around hn
  have hf : FreeList B g.fbHead v ([] ++ segs false 0 pre ++ segs false (size pre + n) post) := hfree
  rw [hfree.head_eq]
  refine hf.wp_findPrev (fun a ha => hown a ?_) har.before (fun r hr => ?_) ?_ hQ
  · simpa only [List.nil_append] using ha
  · have := har.after r hr
    omega
  · have := hfree.length_lt_walkLimit
    rw [List.length_append] at this
    omega

/-- `free` of the start of an allocation does to memory what release does to the tiling. -/
theorem wp_free {n i : Nat} {Q : Int → Cells → Globals → Prop}
    {T : Switch → Kernel Int → Cells → Globals → Prop} (h : HeapRep B ts v g)
    (hr : release i ts = some (n, ts')) (cells : HeapCells B ts' O)
    (hQ : ∀ v' x, HeapOnly v v' → HeapRep B ts' v' { g with fbHead := x } →
      Q memSuccess v' { g with fbHead := x }) :
    (MemoryAllocator.free (B.addr i)).wp O v g Q T := by
  have hpos := h.valid.pos
  have hsize := h.valid.size
  have hmem : (i, n) ∈ segs true 0 ts := (exists_release_iff hpos).mp ⟨ts', hr⟩
  have hn : 0 < n := segs_pos hpos hmem
  have hentry : v (B.entryAddr i) .entry = n := h.live (i, n) hmem
  obtain ⟨pre, post, rfl, rfl, rfl⟩ := release_eq_some hr
  obtain ⟨hfree, har⟩ := h.around hn
  have hin := har.inside
  have hown : ∀ a ∈ headers B (segs false 0 pre ++ (size pre, n) :: segs false (size pre + n) post),
      HeaderCells O a := by
    intro a ha
    obtain ⟨s, hs, rfl⟩ := mem_headers.mp ha
    have hlen := har.sorted.pos s hs
    have hlt := har.sorted.inside s hs
    refine cells.headers s.1 ((holds_false_coalesce ?_).mpr ⟨s, ?_, le_rfl, by omega⟩)
    · simp only [size_append, size_cons] at hsize ⊢
      omega
    · simpa [segs_append, segs] using hs
  have hcell := cells.entries (size pre) (by omega)
  have hg : entryOf g (B.addr (size pre)) = B.entryAddr (size pre) :=
    B.entryOf_addr h.start h.table (by omega)
  have hal : B.addr (size pre) % memBlockSize = 0 := B.addr_aligned _
  simp only [MemoryAllocator.free, B.addr_ne_zero, if_false, hal, ne_eq, not_true, Prog.wp_bind,
    wp_globals, wp_rd, hg, hcell, true_and, hentry, hn.ne']
  refine h.wp_findPrev_owned hn (fun a ha => hown a ?_) ?_
  · simp only [headers_append, List.mem_append, headers_cons, List.mem_cons] at ha ⊢
    exact ha.imp_right .inr
  exact h.wp_freeAfter hn hcell hown hQ

/-- `free` rejects a block where no allocation starts. -/
theorem wp_free_unused {i : Nat} {Q : Int → Cells → Globals → Prop}
    {T : Switch → Kernel Int → Cells → Globals → Prop} (h : HeapRep B ts v g) (hi : i < B.total)
    (hno : ∀ n, (i, n) ∉ segs true 0 ts) (hcell : O (B.entryAddr i) .entry)
    (hQ : Q addressIsNotUsed v g) : (MemoryAllocator.free (B.addr i)).wp O v g Q T := by
  have hg := B.entryOf_addr h.start h.table hi
  have hal : B.addr i % memBlockSize = 0 := B.addr_aligned _
  simp only [MemoryAllocator.free, B.addr_ne_zero, if_false, hal, ne_eq, not_true, Prog.wp_bind,
    wp_globals, wp_rd, hg, hcell, true_and, h.clear i hi hno, if_true, Prog.wp_pure]
  exact hQ

/-- `free` rejects the null pointer and addresses that are not those of blocks. -/
theorem wp_free_misaligned {a : Nat} {Q : Int → Cells → Globals → Prop}
    {T : Switch → Kernel Int → Cells → Globals → Prop} (ha : a = 0 ∨ a % memBlockSize ≠ 0)
    (hQ : ∀ r, r ≠ memSuccess → Q r v g) : (MemoryAllocator.free a).wp O v g Q T := by
  unfold MemoryAllocator.free
  split
  · exact hQ _ (by decide)
  · rename_i h0
    rw [if_pos (ha.resolve_left h0)]
    exact hQ _ (by decide)

/-! ### The constructor -/

theorem wp_zeroTable {a n : Nat} {Q : Unit → Cells → Globals → Prop}
    {T : Switch → Kernel Unit → Cells → Globals → Prop} (own : ∀ i < n, O (a + i * 4) .entry)
    (hQ : ∀ v', (∀ i < n, v' (a + i * 4) .entry = 0) →
      (∀ b f, f ≠ .entry → v' b f = v b f) → Q () v' g) : (zeroTable a n).wp O v g Q T := by
  induction n generalizing Q T with
  | zero => exact hQ v (by simp) fun _ _ _ => rfl
  | succ n ih =>
    rw [zeroTable, Prog.wp_bind]
    refine ih (fun i hi => own i (by omega)) fun v' hv hf => ?_
    rw [wp_wr]
    refine ⟨own n (by omega), hQ _ (fun i hi => ?_) fun b f hne => ?_⟩
    · rw [set_half (by decide) (by decide)]
      split
      · rfl
      · rename_i hne
        exact hv i (by simp only [sizeofBlocksT, and_true] at hne; omega)
    · rw [View.set_field_ne hne]
      exact hf b f hne

theorem valid_gap (n : Nat) (h : 0 < n) : Valid n [gap n] :=
  ⟨by simpa [Pos] using h, .singleton _, by simp⟩

/-- The constructor leaves one free tile. -/
theorem wp_construct {Q : Unit → Cells → Globals → Prop}
    {T : Switch → Kernel Unit → Cells → Globals → Prop} (cells : HeapCells B [gap B.total] O)
    (hQ : ∀ v' g', HeapOnly v v' →
      g' = { g with allocTable := B.start, heapStartAddr := B.base, fbHead := B.base } →
      HeapRep B [gap B.total] v' g' → Q () v' g') :
    (construct B.start B.stop).wp O v g Q T := by
  have hend := B.spec.base_end
  have htotal := B.total_lt
  have hpos := B.spec.total_pos
  have hstop := B.stop_lt
  have hbase : u64 (B.start + B.total * sizeofBlocksT +
      MemoryAllocator.paddingSize B.start B.stop) = B.base := by
    rw [sizeofBlocksT, ← B.base_def]
    exact u64_of_lt (by omega)
  have haddr : B.addr 0 = B.base := by simp [HeapBounds.addr]
  have hown := cells.headers 0 ⟨(0, B.total), by simp [segs], le_rfl, by simp; omega⟩
  rw [haddr] at hown
  have hne := haddr ▸ B.addr_ne_zero 0
  simp only [construct, Prog.wp_bind, wp_modifyGlobals, ← B.total_def, hbase]
  refine wp_zeroTable (fun i hi => cells.entries i hi) fun v' hv hf => ?_
  simp only [wp_wr, hown.next, hown.prev, hown.blocks, true_and]
  refine hQ _ _ (fun a f h1 h2 h3 h4 => ?_) rfl ⟨valid_gap _ hpos, rfl, rfl, ?_, by simp [segs], ?_⟩
  · rw [View.set_field_ne h2, View.set_field_ne h1, View.set_field_ne h3, hf a f h4]
  · refine ⟨⟨by simpa [segs] using hpos, by simp [segs], by simp [segs]⟩, ⟨?_, ?_⟩, ?_⟩
    · simp (disch := first | assumption | decide) [segs, fbNx, fbPv, haddr, Links, hne, set_word]
    · simpa [segs, haddr] using hne.symm
    · simp (disch := first | assumption | decide) [segs, haddr, set_word, set_half]
  · intro i hi _
    rw [View.set_field_ne (by decide), View.set_field_ne (by decide), View.set_field_ne (by decide)]
    exact hv i hi

end HeapRep

end Os1Kernel
