import Mathlib.Data.List.Basic
import Mathlib.Data.List.Chain
import Mathlib.Algebra.BigOperators.Group.List.Basic
import Mathlib.Tactic.Ring

/-! Tilings of an interval by used and free tiles, the abstract state of an allocator that keeps no
two free tiles next to each other: best-fit allocation carves a used tile out of a free one, and
release makes a used tile free and joins it to its free neighbours.  The free tiles are the maximal
free runs by construction, so there is nothing to say about coalescing beyond the type. -/

namespace Tiling

structure Tile where
  used : Bool
  len : Nat
  deriving DecidableEq, Repr

/-- A free tile and a used one, of length `n`. -/
abbrev gap (n : Nat) : Tile := ⟨false, n⟩
abbrev owned (n : Nat) : Tile := ⟨true, n⟩

/-- The length of the interval that the tiles cover. -/
def size (ts : List Tile) : Nat := (ts.map Tile.len).sum

@[simp] theorem size_nil : size [] = 0 := rfl
@[simp] theorem size_cons (t : Tile) (ts : List Tile) : size (t :: ts) = t.len + size ts := by
  simp [size]
@[simp] theorem size_append (ts us : List Tile) : size (ts ++ us) = size ts + size us := by
  simp [size]

/-- The tiles of kind `u`, as pairs of a position and a length, in a tiling that starts at `i`. -/
def segs (u : Bool) : Nat → List Tile → List (Nat × Nat)
  | _, [] => []
  | i, t :: ts => if t.used = u then (i, t.len) :: segs u (i + t.len) ts else segs u (i + t.len) ts

@[simp] theorem segs_nil (u : Bool) (i : Nat) : segs u i [] = [] := rfl

theorem segs_append (u : Bool) (i : Nat) (ts us : List Tile) :
    segs u i (ts ++ us) = segs u i ts ++ segs u (i + size ts) us := by
  induction ts generalizing i with
  | nil => simp
  | cons t ts ih =>
    simp only [List.cons_append, segs, ih, size_cons, Nat.add_assoc]
    split <;> simp

/-- No tile is empty. -/
def Pos (ts : List Tile) : Prop := ∀ t ∈ ts, 0 < t.len

theorem pos_append {ts us : List Tile} : Pos (ts ++ us) ↔ Pos ts ∧ Pos us := by
  simp only [Pos, List.mem_append, or_imp, forall_and]

theorem pos_cons {t : Tile} {ts : List Tile} : Pos (t :: ts) ↔ 0 < t.len ∧ Pos ts := by
  simp only [Pos, List.mem_cons, forall_eq_or_imp]

/-- Free tiles have used neighbours. -/
def Coalesced (ts : List Tile) : Prop := ts.IsChain fun s t => s.used = true ∨ t.used = true

theorem mem_segs {u : Bool} {i : Nat} {ts : List Tile} {s : Nat × Nat} :
    s ∈ segs u i ts ↔ ∃ pre post, ts = pre ++ ⟨u, s.2⟩ :: post ∧ s.1 = i + size pre := by
  induction ts generalizing i with
  | nil => simp
  | cons t ts ih =>
    constructor
    · intro hs
      by_cases ht : t.used = u
      · simp only [segs, if_pos ht, List.mem_cons] at hs
        rcases hs with rfl | hs
        · exact ⟨[], ts, by simp [← ht], by simp⟩
        · obtain ⟨pre, post, rfl, hi⟩ := ih.mp hs
          exact ⟨t :: pre, post, rfl, by simp; omega⟩
      · simp only [segs, if_neg ht] at hs
        obtain ⟨pre, post, rfl, hi⟩ := ih.mp hs
        exact ⟨t :: pre, post, rfl, by simp; omega⟩
    · rintro ⟨pre, post, heq, hi⟩
      rw [heq, segs_append]
      exact List.mem_append_right _ (by simp [segs, ← hi])

theorem segs_bounds {u : Bool} {i : Nat} {ts : List Tile} {s : Nat × Nat} (hs : s ∈ segs u i ts) :
    i ≤ s.1 ∧ s.1 + s.2 ≤ i + size ts := by
  obtain ⟨pre, post, rfl, hi⟩ := mem_segs.mp hs
  simp only [size_append, size_cons]
  omega

theorem segs_pos {u : Bool} {i : Nat} {ts : List Tile} (hp : Pos ts) {s : Nat × Nat}
    (hs : s ∈ segs u i ts) : 0 < s.2 := by
  obtain ⟨pre, post, rfl, -⟩ := mem_segs.mp hs
  exact hp ⟨u, s.2⟩ (by simp)

/-- Segments of one kind take no more room than there is. -/
theorem segs_sum_le (u : Bool) (i : Nat) (ts : List Tile) :
    ((segs u i ts).map Prod.snd).sum ≤ size ts := by
  induction ts generalizing i with
  | nil => exact le_rfl
  | cons t ts ih =>
    have hrest := ih (i + t.len)
    rw [segs, size_cons]
    split
    · rw [List.map_cons, List.sum_cons]
      omega
    · omega

/-- Segments of one kind come in order and do not overlap. -/
theorem segs_sorted (u : Bool) (i : Nat) (ts : List Tile) :
    (segs u i ts).Pairwise fun s t => s.1 + s.2 ≤ t.1 := by
  induction ts generalizing i with
  | nil => exact .nil
  | cons t ts ih =>
    rw [segs]
    split
    · exact List.pairwise_cons.mpr ⟨fun s hs => (segs_bounds hs).1, ih _⟩
    · exact ih _

/-- Different segments start at different positions. -/
theorem segs_nodup (u : Bool) (i : Nat) {ts : List Tile} (hp : Pos ts) :
    ((segs u i ts).map Prod.fst).Nodup := by
  refine List.pairwise_map.mpr ((segs_sorted u i ts).imp_of_mem fun {s t} hs _ hst heq => ?_)
  have := segs_pos hp hs
  omega

/-- Segments of different kinds do not overlap. -/
theorem segs_apart {i : Nat} {ts : List Tile} {s t : Nat × Nat} (hs : s ∈ segs true i ts)
    (ht : t ∈ segs false i ts) : s.1 + s.2 ≤ t.1 ∨ t.1 + t.2 ≤ s.1 := by
  induction ts generalizing i with
  | nil => simp at hs
  | cons a ts ih =>
    cases ha : a.used <;> simp only [segs, ha, Bool.false_eq_true, Bool.true_eq_false, if_true,
      if_false, List.mem_cons] at hs ht
    · rcases ht with rfl | ht
      · exact .inr (segs_bounds hs).1
      · exact ih hs ht
    · rcases hs with rfl | hs
      · exact .inl (segs_bounds ht).1
      · exact ih hs ht

/-- Free segments do not touch: a used tile lies between them. -/
theorem segs_false_gaps {i : Nat} {ts : List Tile} (hp : Pos ts) (hc : Coalesced ts) :
    (segs false i ts).Pairwise fun s t => s.1 + s.2 < t.1 := by
  induction ts generalizing i with
  | nil => exact .nil
  | cons t ts ih =>
    have hrest := ih (i := i + t.len) (pos_cons.mp hp).2 hc.of_cons
    rw [segs]
    split
    · rename_i hfree
      refine List.pairwise_cons.mpr ⟨fun s hs => ?_, hrest⟩
      cases ts with
      | nil => simp at hs
      | cons u us =>
        have hu : u.used = true := (List.isChain_cons_cons.mp hc).1.resolve_left (by simp [hfree])
        have hlen := hp u (by simp)
        rw [segs, if_neg (by simp [hu])] at hs
        have := (segs_bounds hs).1
        simp only
        omega
    · exact hrest

/-- Block `b` lies in the segment `s`. -/
def Covers (b : Nat) (s : Nat × Nat) : Prop := s.1 ≤ b ∧ b < s.1 + s.2

instance (b : Nat) (s : Nat × Nat) : Decidable (Covers b s) := inferInstanceAs (Decidable (_ ∧ _))

theorem countP_covers_eq_zero {u : Bool} {i : Nat} {ts : List Tile} {b : Nat}
    (hb : b < i ∨ i + size ts ≤ b) : (segs u i ts).countP (fun s => decide (Covers b s)) = 0 := by
  rw [List.countP_eq_zero]
  intro s hs
  have := segs_bounds hs
  rw [decide_eq_true_eq]
  rintro ⟨h1, h2⟩
  omega

/-- Every block of the interval lies in exactly one segment. -/
theorem countP_covers {i : Nat} {ts : List Tile} {b : Nat} (hi : i ≤ b) (hb : b < i + size ts) :
    (segs false i ts ++ segs true i ts).countP (fun s => decide (Covers b s)) = 1 := by
  induction ts generalizing i with
  | nil => simp at hb; omega
  | cons t ts ih =>
    simp only [size_cons] at hb
    rw [List.countP_append]
    by_cases ht : b < i + t.len
    · have h0 (u : Bool) : (segs u (i + t.len) ts).countP (fun s => decide (Covers b s)) = 0 :=
        countP_covers_eq_zero (.inl ht)
      have hc : Covers b (i, t.len) := ⟨hi, ht⟩
      cases hu : t.used <;> simp [segs, hu, h0, hc]
    · have hrec := ih (i := i + t.len) (by omega) (by omega)
      have hc : ¬Covers b (i, t.len) := fun h => ht h.2
      rw [List.countP_append] at hrec
      cases hu : t.used <;> simpa [segs, hu, hc] using hrec

/-! ### The tile at a position -/

/-- The tile of kind `u` that starts at position `i`, with the tiles before it, its length, and the
tiles after it. -/
def locate (u : Bool) : Nat → List Tile → Option (List Tile × Nat × List Tile)
  | _, [] => none
  | i, t :: ts =>
    if i = 0 then if t.used = u then some ([], t.len, ts) else none
    else if i < t.len then none
    else (locate u (i - t.len) ts).map fun z => (t :: z.1, z.2)

theorem locate_sound {u : Bool} {i n : Nat} {ts pre post : List Tile}
    (h : locate u i ts = some (pre, n, post)) : ts = pre ++ ⟨u, n⟩ :: post ∧ size pre = i := by
  induction ts generalizing i pre with
  | nil => simp [locate] at h
  | cons t ts ih =>
    rw [locate] at h
    by_cases hi : i = 0
    · rw [if_pos hi] at h
      split at h
      · rename_i hu
        cases h
        exact ⟨by simp [← hu], by simp [hi]⟩
      · contradiction
    · rw [if_neg hi] at h
      split at h
      · contradiction
      · rename_i hlt
        obtain ⟨⟨pre', z⟩, hz, heq⟩ := Option.map_eq_some_iff.mp h
        simp only [Prod.mk.injEq] at heq
        obtain ⟨rfl, rfl⟩ := heq
        obtain ⟨rfl, hs⟩ := ih hz
        exact ⟨rfl, by simp only [size_cons]; omega⟩

theorem locate_complete {u : Bool} {n : Nat} {pre post : List Tile} (hp : Pos pre) :
    locate u (size pre) (pre ++ ⟨u, n⟩ :: post) = some (pre, n, post) := by
  induction pre with
  | nil => simp [locate]
  | cons t pre ih =>
    have ht : 0 < t.len := hp t (by simp)
    have hrec := ih fun s hs => hp s (List.mem_cons_of_mem _ hs)
    simp only [List.cons_append, locate, size_cons]
    rw [if_neg (by omega), if_neg (by omega), Nat.add_sub_cancel_left, hrec]
    rfl

theorem mem_segs_iff_locate {u : Bool} {ts : List Tile} (hp : Pos ts) {i n : Nat} :
    (i, n) ∈ segs u 0 ts ↔ ∃ pre post, locate u i ts = some (pre, n, post) := by
  constructor
  · intro h
    obtain ⟨pre, post, rfl, hi⟩ := mem_segs.mp h
    simp only [Nat.zero_add] at hi
    subst hi
    exact ⟨pre, post, locate_complete fun t ht => hp t (by simp [ht])⟩
  · rintro ⟨pre, post, h⟩
    obtain ⟨rfl, hi⟩ := locate_sound h
    exact mem_segs.mpr ⟨pre, post, rfl, by simp [hi]⟩

/-! ### Best fit -/

/-- The first of the smallest segments with at least `n` blocks, starting from the candidate
`best`; the search stops at a segment of exactly `n` blocks. -/
def bestFit (n : Nat) : Option (Nat × Nat) → List (Nat × Nat) → Option (Nat × Nat)
  | best, [] => best
  | best, s :: ss =>
    if best.any fun b => b.2 = n then best
    else bestFit n (if n ≤ s.2 ∧ best.all fun b => s.2 < b.2 then some s else best) ss

/-- What a best-fit search may answer. -/
def IsBest (n : Nat) (ss : List (Nat × Nat)) : Option (Nat × Nat) → Prop
  | none => ∀ s ∈ ss, s.2 < n
  | some s => ∃ before after, ss = before ++ s :: after ∧ n ≤ s.2 ∧
      (∀ t ∈ before, n ≤ t.2 → s.2 < t.2) ∧ ∀ t ∈ after, n ≤ t.2 → s.2 ≤ t.2

theorem IsBest.extend {n : Nat} {done : List (Nat × Nat)} {best : Option (Nat × Nat)}
    (h : IsBest n done best) (s : Nat × Nat) :
    IsBest n (done ++ [s]) (if n ≤ s.2 ∧ best.all fun b => s.2 < b.2 then some s else best) := by
  cases best with
  | none =>
    by_cases hn : n ≤ s.2
    · simp only [hn, Option.all_none, and_self, if_true]
      exact ⟨done, [], rfl, hn, fun t ht hnt => absurd hnt (by have := h t ht; omega), by simp⟩
    · simp only [hn, false_and, if_false]
      intro t ht
      rcases List.mem_append.mp ht with ht | ht
      · exact h t ht
      · obtain rfl : t = s := by simpa using ht
        omega
  | some b =>
    obtain ⟨before, after, rfl, hb, hbefore, hafter⟩ := h
    by_cases hs : n ≤ s.2 ∧ s.2 < b.2
    · simp only [Option.all_some, decide_eq_true_eq, hs, and_self, if_true]
      refine ⟨before ++ b :: after, [], by simp, hs.1, fun t ht hnt => ?_, by simp⟩
      rcases List.mem_append.mp ht with ht | ht
      · have := hbefore t ht hnt; omega
      · rcases List.mem_cons.mp ht with rfl | ht
        · exact hs.2
        · have := hafter t ht hnt; omega
    · simp only [Option.all_some, decide_eq_true_eq, hs, if_false]
      refine ⟨before, after ++ [s], by simp, hb, hbefore, fun t ht hnt => ?_⟩
      rcases List.mem_append.mp ht with ht | ht
      · exact hafter t ht hnt
      · obtain rfl : t = s := by simpa using ht
        omega

theorem bestFit_isBest_from {n : Nat} {done : List (Nat × Nat)} {best : Option (Nat × Nat)}
    (h : IsBest n done best) (ss : List (Nat × Nat)) : IsBest n (done ++ ss) (bestFit n best ss) := by
  induction ss generalizing done best with
  | nil => simpa [bestFit] using h
  | cons s ss ih =>
    rw [bestFit]
    by_cases hstop : best.any fun b => b.2 = n
    · rw [if_pos hstop]
      cases best with
      | none => simp at hstop
      | some b =>
        simp only [Option.any_some, decide_eq_true_eq] at hstop
        obtain ⟨before, after, rfl, hb, hbefore, hafter⟩ := h
        refine ⟨before, after ++ s :: ss, by simp, hb, hbefore, fun t ht hnt => by omega⟩
    · rw [if_neg hstop, List.append_cons]
      exact ih (h.extend s)

theorem bestFit_isBest (n : Nat) (ss : List (Nat × Nat)) : IsBest n ss (bestFit n none ss) :=
  bestFit_isBest_from (show IsBest n [] none by simp [IsBest]) ss

theorem bestFit_some {n : Nat} {ss : List (Nat × Nat)} {s : Nat × Nat}
    (h : bestFit n none ss = some s) : s ∈ ss ∧ n ≤ s.2 := by
  have hb := bestFit_isBest n ss
  rw [h] at hb
  obtain ⟨before, after, rfl, hn, -⟩ := hb
  exact ⟨by simp, hn⟩

/-! ### Allocation -/

/-- A free tile of length `k` after `n` blocks of it have been taken. -/
def carve (n k : Nat) : List Tile :=
  (if n = 0 then [] else [owned n]) ++ if k - n = 0 then [] else [gap (k - n)]

/-- Best-fit allocation of `n` blocks: the position, and the tiling after it. -/
def alloc (n : Nat) (ts : List Tile) : Option (Nat × List Tile) :=
  (bestFit n none (segs false 0 ts)).bind fun s =>
    (locate false s.1 ts).map fun z => (s.1, z.1 ++ carve n s.2 ++ z.2.2)

/-- Releasing a tile joins it to a free tile on its right. -/
def glue (t : Tile) : List Tile → List Tile
  | [] => [t]
  | s :: ts => if t.used = true ∨ s.used = true then t :: s :: ts else gap (t.len + s.len) :: ts

/-- Neighbouring free tiles joined. -/
def coalesce (ts : List Tile) : List Tile := ts.foldr glue []

/-- The length of the used tile at position `i`, and the tiling after its release. -/
def release (i : Nat) (ts : List Tile) : Option (Nat × List Tile) :=
  (locate true i ts).map fun z => (z.2.1, coalesce (z.1 ++ gap z.2.1 :: z.2.2))

theorem carve_pos (n k : Nat) : Pos (carve n k) := by
  unfold carve Pos
  intro t ht
  rcases List.mem_append.mp ht with ht | ht <;> split at ht <;> simp at ht <;> subst ht <;>
    simp only <;> omega

theorem carve_size {n k : Nat} (h : n ≤ k) : size (carve n k) = k := by
  unfold carve
  split <;> split <;> simp <;> omega

theorem segs_true_carve (i n k : Nat) :
    segs true i (carve n k) = if n = 0 then [] else [(i, n)] := by
  unfold carve
  split <;> split <;> simp [segs]

theorem segs_false_carve (i : Nat) {n k : Nat} :
    segs false i (carve n k) = if k - n = 0 then [] else [(i + n, k - n)] := by
  unfold carve
  split
  · rename_i h
    subst h
    split <;> simp [segs]
  · split <;> simp [segs]

/-- A run of used and free tiles fits where a free tile was. -/
theorem Coalesced.replace {pre mid post : List Tile} {k : Nat}
    (h : Coalesced (pre ++ gap k :: post)) (hmid : Coalesced mid) :
    Coalesced (pre ++ mid ++ post) := by
  unfold Coalesced at *
  rw [List.isChain_append, List.isChain_cons] at h
  rw [List.isChain_append, List.isChain_append]
  obtain ⟨hpre, ⟨hpost, hch⟩, hseam⟩ := h
  refine ⟨⟨hpre, hmid, ?_⟩, hch, ?_⟩
  · intro x hx y hy
    have := hseam x hx (gap k) (by simp)
    simp at this
    exact .inl this
  · intro x hx y hy
    have := hpost y hy
    simp at this
    exact .inr this

theorem carve_coalesced (n k : Nat) : Coalesced (carve n k) := by
  unfold carve Coalesced
  split <;> split <;> simp

/-- A tiling of `total` blocks in which no tile is empty and free tiles have used neighbours. -/
structure Valid (total : Nat) (ts : List Tile) : Prop where
  pos : Pos ts
  coalesced : Coalesced ts
  size : size ts = total

/-- What a successful allocation does to a tiling. -/
theorem alloc_eq_some {n i : Nat} {ts ts' : List Tile} (hp : Pos ts)
    (h : alloc n ts = some (i, ts')) :
    ∃ pre k post, ts = pre ++ gap k :: post ∧ i = Tiling.size pre ∧ n ≤ k ∧
      ts' = pre ++ carve n k ++ post ∧ bestFit n none (segs false 0 ts) = some (i, k) := by
  obtain ⟨⟨i', k⟩, hb, hl⟩ := Option.bind_eq_some_iff.mp h
  obtain ⟨⟨pre, k', post⟩, hloc, heq⟩ := Option.map_eq_some_iff.mp hl
  simp only [Prod.mk.injEq] at heq
  obtain ⟨rfl, rfl⟩ := heq
  obtain ⟨hmem, hn⟩ := bestFit_some hb
  obtain ⟨pre2, post2, hloc2⟩ := (mem_segs_iff_locate hp).mp hmem
  obtain ⟨rfl, rfl, rfl⟩ : pre = pre2 ∧ k' = k ∧ post = post2 := by simpa [hloc] using hloc2
  obtain ⟨hts, hpre⟩ := locate_sound hloc
  exact ⟨pre, k', post, hts, hpre.symm, hn, rfl, hb⟩

theorem alloc_of_bestFit {n : Nat} {ts : List Tile} {s : Nat × Nat} (hp : Pos ts)
    (h : bestFit n none (segs false 0 ts) = some s) : ∃ ts', alloc n ts = some (s.1, ts') := by
  obtain ⟨pre, post, hloc⟩ := (mem_segs_iff_locate hp).mp (bestFit_some h).1
  exact ⟨pre ++ carve n s.2 ++ post, by simp [alloc, h, hloc]⟩

theorem alloc_eq_none {n : Nat} {ts : List Tile} (hp : Pos ts) :
    alloc n ts = none ↔ ∀ s ∈ segs false 0 ts, s.2 < n := by
  have hb := bestFit_isBest n (segs false 0 ts)
  unfold alloc
  cases hf : bestFit n none (segs false 0 ts) with
  | none => simpa [hf, IsBest] using hb
  | some s =>
    obtain ⟨hmem, hn⟩ := bestFit_some hf
    obtain ⟨pre, post, hloc⟩ := (mem_segs_iff_locate hp).mp hmem
    simp only [Option.bind_some, hloc, Option.map_some, reduceCtorEq, false_iff, not_forall]
    exact ⟨s, hmem, by omega⟩

theorem Valid.alloc {total n i : Nat} {ts ts' : List Tile} (h : Valid total ts)
    (ha : alloc n ts = some (i, ts')) : Valid total ts' := by
  obtain ⟨pre, k, post, rfl, -, hn, rfl, -⟩ := alloc_eq_some h.pos ha
  have hpos := h.pos
  have hsize := h.size
  rw [pos_append, pos_cons] at hpos
  refine ⟨?_, h.coalesced.replace (carve_coalesced n k), ?_⟩
  · rw [pos_append, pos_append]
    exact ⟨⟨hpos.1, carve_pos n k⟩, hpos.2.2⟩
  · simp only [size_append, size_cons] at hsize ⊢
    rw [carve_size hn]
    omega

/-- The free and the used segments after an allocation. -/
theorem segs_false_alloc {pre post : List Tile} {n k : Nat} (hn : n ≤ k) :
    segs false 0 (pre ++ carve n k ++ post) = segs false 0 pre ++
      (if k - n = 0 then [] else [(size pre + n, k - n)]) ++ segs false (size pre + k) post := by
  simp only [segs_append, size_append, carve_size hn, Nat.zero_add, segs_false_carve]

/-! ### Release -/

theorem glue_pos {t : Tile} {ts : List Tile} (ht : 0 < t.len) (hp : Pos ts) : Pos (glue t ts) := by
  cases ts with
  | nil => simpa [glue, Pos] using ht
  | cons s ts =>
    rw [glue]
    split
    · exact pos_cons.mpr ⟨ht, hp⟩
    · exact pos_cons.mpr ⟨Nat.add_pos_left ht _, (pos_cons.mp hp).2⟩

theorem glue_size (t : Tile) (ts : List Tile) : size (glue t ts) = t.len + size ts := by
  cases ts with
  | nil => simp [glue]
  | cons s ts =>
    rw [glue]
    split
    · simp
    · simp; omega

theorem glue_coalesced {t : Tile} {ts : List Tile} (h : Coalesced ts) : Coalesced (glue t ts) := by
  cases ts with
  | nil => exact .singleton t
  | cons s ts =>
    rw [glue]
    split
    · rename_i hu
      exact List.isChain_cons_cons.mpr ⟨hu, h⟩
    · rename_i hu
      cases ts with
      | nil => exact .singleton _
      | cons r ts =>
        obtain ⟨hsr, hr⟩ := List.isChain_cons_cons.mp h
        exact List.isChain_cons_cons.mpr ⟨.inr (hsr.resolve_left fun hs => hu (.inr hs)), hr⟩

theorem glue_of_coalesced {t : Tile} {ts : List Tile} (h : Coalesced (t :: ts)) :
    glue t ts = t :: ts := by
  cases ts with
  | nil => rfl
  | cons s ts => rw [glue, if_pos (List.isChain_cons_cons.mp h).1]

theorem segs_true_glue (i : Nat) (t : Tile) (ts : List Tile) :
    segs true i (glue t ts) = segs true i (t :: ts) := by
  cases ts with
  | nil => rfl
  | cons s ts =>
    rw [glue]
    split
    · rfl
    · rename_i hu
      simp only [not_or, Bool.not_eq_true] at hu
      simp [segs, hu, Nat.add_assoc]

theorem coalesce_coalesced (ts : List Tile) : Coalesced (coalesce ts) := by
  induction ts with
  | nil => exact .nil
  | cons t ts ih => exact glue_coalesced ih

theorem coalesce_pos {ts : List Tile} (hp : Pos ts) : Pos (coalesce ts) := by
  induction ts with
  | nil => exact hp
  | cons t ts ih => exact glue_pos (pos_cons.mp hp).1 (ih (pos_cons.mp hp).2)

theorem coalesce_size (ts : List Tile) : size (coalesce ts) = size ts := by
  induction ts with
  | nil => rfl
  | cons t ts ih => rw [coalesce, List.foldr_cons, ← coalesce, glue_size, ih, size_cons]

theorem segs_true_coalesce (i : Nat) (ts : List Tile) :
    segs true i (coalesce ts) = segs true i ts := by
  induction ts generalizing i with
  | nil => rfl
  | cons t ts ih =>
    rw [coalesce, List.foldr_cons, ← coalesce, segs_true_glue, segs, segs, ih]

theorem coalesce_of_coalesced {ts : List Tile} (h : Coalesced ts) : coalesce ts = ts := by
  induction ts with
  | nil => rfl
  | cons t ts ih =>
    rw [coalesce, List.foldr_cons, ← coalesce, ih (List.IsChain.of_cons h), glue_of_coalesced h]

/-- The segment `s` joined to the first of `ss` if they touch. -/
def absorb (s : Nat × Nat) : List (Nat × Nat) → List (Nat × Nat)
  | [] => [s]
  | t :: ss => if t.1 = s.1 + s.2 then (s.1, s.2 + t.2) :: ss else s :: t :: ss

/-- The last of `before`, if there is one, joined to the first of `ss` if they touch. -/
def rejoin (before ss : List (Nat × Nat)) : List (Nat × Nat) :=
  match before.getLast? with
  | none => ss
  | some s => before.dropLast ++ absorb s ss

theorem segs_false_glue {i n : Nat} {ts : List Tile} (hp : Pos ts) (h : Coalesced ts) :
    segs false i (glue (gap n) ts) = absorb (i, n) (segs false (i + n) ts) := by
  cases ts with
  | nil => rfl
  | cons t ts =>
    cases ht : t.used with
    | false => simp [glue, segs, ht, absorb, Nat.add_assoc]
    | true =>
      have hlen := hp t (by simp)
      have hne : ∀ s ∈ segs false (i + n + t.len) ts, s.1 ≠ i + n := fun s hs => by
        have := (segs_bounds hs).1
        omega
      simp only [glue, ht, segs, if_true, or_true, Bool.true_eq_false, if_false]
      cases hss : segs false (i + n + t.len) ts with
      | nil => rfl
      | cons s ss => rw [absorb, if_neg (hne s (by simp [hss]))]

theorem absorb_apart {s : Nat × Nat} {ss : List (Nat × Nat)}
    (h : ∀ t ∈ ss.head?, t.1 ≠ s.1 + s.2) : absorb s ss = s :: ss := by
  cases ss with
  | nil => rfl
  | cons t ss => rw [absorb, if_neg (h t rfl)]

theorem absorb_head (s : Nat × Nat) (ss : List (Nat × Nat)) :
    ∃ n tail, absorb s ss = (s.1, n) :: tail := by
  cases ss with
  | nil => exact ⟨s.2, [], rfl⟩
  | cons t ss =>
    rw [absorb]
    split
    · exact ⟨_, _, rfl⟩
    · exact ⟨_, _, rfl⟩

/-- Segments that end before `s` are not joined to it. -/
theorem rejoin_apart {before ss : List (Nat × Nat)} {s : Nat × Nat}
    (h : ∀ t ∈ before, t.1 + t.2 < s.1) : rejoin before (absorb s ss) = before ++ absorb s ss := by
  obtain ⟨n, tail, hss⟩ := absorb_head s ss
  rcases List.eq_nil_or_concat before with rfl | ⟨init, t, rfl⟩
  · rfl
  · have ht : t.1 + t.2 < s.1 := h t (by simp)
    rw [rejoin, List.concat_eq_append, List.getLast?_concat, hss]
    simp only [List.dropLast_concat]
    rw [absorb_apart (by simp; omega)]
    simp

theorem rejoin_concat (before ss : List (Nat × Nat)) (s : Nat × Nat) :
    rejoin (before ++ [s]) ss = before ++ absorb s ss := by
  simp [rejoin]

theorem Coalesced.foldr_glue {pre ts : List Tile} (h : Coalesced (pre ++ ts)) :
    pre.foldr glue ts = pre ++ ts := by
  induction pre with
  | nil => rfl
  | cons t pre ih =>
    rw [List.foldr_cons, ih (List.IsChain.of_cons h)]
    exact glue_of_coalesced h

theorem Coalesced.after_owned {pre ts : List Tile} {n : Nat} (h : Coalesced (pre ++ [owned n]))
    (hts : Coalesced ts) : Coalesced (pre ++ [owned n] ++ ts) := by
  refine List.isChain_append.mpr ⟨h, hts, fun x hx y _ => ?_⟩
  rw [List.getLast?_concat, Option.mem_some_iff] at hx
  exact .inl (by rw [← hx])

theorem Coalesced.before_gap {pre ts : List Tile} {n : Nat} (h : Coalesced (pre ++ [gap n]))
    (hts : Coalesced ts) : Coalesced (pre ++ ts) := by
  obtain ⟨hpre, -, hseam⟩ := List.isChain_append.mp h
  refine List.isChain_append.mpr ⟨hpre, hts, fun x hx y _ => ?_⟩
  have hor := hseam x hx (gap n) (by simp)
  simp only [Bool.false_eq_true, or_false] at hor
  exact .inl hor

/-- The free tiles after a release: the released segment joins the free segment after it if they
touch, and then the free segment before it if they touch. -/
theorem segs_false_release {pre post : List Tile} {n : Nat} (hp : Pos (pre ++ owned n :: post))
    (h : Coalesced (pre ++ owned n :: post)) :
    segs false 0 (coalesce (pre ++ gap n :: post)) =
      rejoin (segs false 0 pre) (absorb (size pre, n) (segs false (size pre + n) post)) := by
  obtain ⟨hpre, hrest, -⟩ := List.isChain_append.mp h
  have hpost : Coalesced post := hrest.of_cons
  rw [pos_append, pos_cons] at hp
  have hmid : Coalesced (glue (gap n) post) := glue_coalesced hpost
  have hseg := segs_false_glue (i := size pre) (n := n) hp.2.2 hpost
  have hcoal : coalesce (pre ++ gap n :: post) = pre.foldr glue (glue (gap n) post) := by
    rw [coalesce, List.foldr_append, List.foldr_cons, ← coalesce, coalesce_of_coalesced hpost]
  rw [hcoal]
  rcases List.eq_nil_or_concat pre with rfl | ⟨init, ⟨used, len⟩, hinit⟩
  · simpa [rejoin] using hseg
  rw [List.concat_eq_append] at hinit
  subst hinit
  rw [pos_append, pos_cons] at hp
  cases used with
  | true =>
    have hends : ∀ s ∈ segs false 0 (init ++ [owned len]), s.1 + s.2 < size (init ++ [owned len]) := by
      intro s hs
      have hb := (segs_bounds (by simpa [segs_append, segs] using hs : s ∈ segs false 0 init)).2
      have hlen := hp.1.2.1
      simp only [size_append, size_cons, size_nil] at hb hlen ⊢
      omega
    rw [(Coalesced.after_owned hpre hmid).foldr_glue, segs_append, Nat.zero_add, hseg,
      rejoin_apart hends]
  | false =>
    -- The free tile that ends `pre` absorbs the released one.
    have hglue : Coalesced (glue (gap len) (glue (gap n) post)) := glue_coalesced hmid
    have hsize : size (init ++ [gap len]) = size init + len := by simp
    have hn : 0 < (gap n).len := hp.2.1
    rw [hsize] at hseg ⊢
    rw [List.foldr_append, List.foldr_cons, List.foldr_nil,
      (Coalesced.before_gap hpre hglue).foldr_glue, segs_append, segs_append, Nat.zero_add,
      segs_false_glue (glue_pos hn hp.2.2) hmid, hseg]
    simp only [segs, if_true]
    rw [rejoin_concat]

theorem Valid.release {total n i : Nat} {ts ts' : List Tile} (h : Valid total ts)
    (hr : release i ts = some (n, ts')) : Valid total ts' := by
  obtain ⟨⟨pre, n', post⟩, hloc, heq⟩ := Option.map_eq_some_iff.mp hr
  simp only [Prod.mk.injEq] at heq
  obtain ⟨rfl, rfl⟩ := heq
  obtain ⟨rfl, rfl⟩ := locate_sound hloc
  have hpos := h.pos
  have hsize := h.size
  refine ⟨coalesce_pos ?_, coalesce_coalesced _, ?_⟩
  · rw [pos_append, pos_cons] at hpos ⊢
    exact hpos
  · rw [coalesce_size, ← hsize]
    simp

theorem release_eq_some {i n : Nat} {ts ts' : List Tile} (h : release i ts = some (n, ts')) :
    ∃ pre post, ts = pre ++ owned n :: post ∧ i = size pre ∧
      ts' = coalesce (pre ++ gap n :: post) := by
  obtain ⟨⟨pre, n', post⟩, hloc, heq⟩ := Option.map_eq_some_iff.mp h
  simp only [Prod.mk.injEq] at heq
  obtain ⟨rfl, rfl⟩ := heq
  obtain ⟨hts, hpre⟩ := locate_sound hloc
  exact ⟨pre, post, hts, hpre.symm, rfl⟩

/-- Exactly the live segments can be released. -/
theorem exists_release_iff {i n : Nat} {ts : List Tile} (hp : Pos ts) :
    (∃ ts', release i ts = some (n, ts')) ↔ (i, n) ∈ segs true 0 ts := by
  rw [mem_segs_iff_locate hp, release]
  simp only [Option.map_eq_some_iff, Prod.exists, Prod.mk.injEq]
  constructor
  · rintro ⟨_, pre, _, post, h, rfl, -⟩
    exact ⟨pre, post, h⟩
  · rintro ⟨pre, post, h⟩
    exact ⟨_, pre, n, post, h, rfl, rfl⟩

/-! ### The live segments and the free blocks -/

/-- Allocation adds one live segment, none when it takes no block. -/
theorem alloc_live {n i : Nat} {ts ts' : List Tile} (hp : Pos ts) (h : alloc n ts = some (i, ts')) :
    (segs true 0 ts').Perm ((if n = 0 then [] else [(i, n)]) ++ segs true 0 ts) := by
  obtain ⟨pre, k, post, rfl, rfl, hn, rfl, -⟩ := alloc_eq_some hp h
  simp only [segs_append, segs, size_append, carve_size hn, segs_true_carve, Nat.zero_add,
    Bool.false_eq_true, if_false, ← Nat.add_assoc]
  split
  · simp
  · rw [List.append_assoc]
    exact List.perm_middle

theorem release_live {n i : Nat} {ts ts' : List Tile} (h : release i ts = some (n, ts')) :
    (segs true 0 ts).Perm ((i, n) :: segs true 0 ts') := by
  obtain ⟨pre, post, rfl, rfl, rfl⟩ := release_eq_some h
  rw [segs_true_coalesce]
  simp only [segs_append, segs, Nat.zero_add, if_true, Bool.false_eq_true, if_false]
  exact List.perm_middle

/-- Block `b` is in a tile of kind `u`. -/
def Holds (u : Bool) (ts : List Tile) (b : Nat) : Prop := ∃ s ∈ segs u 0 ts, Covers b s

theorem Holds.lt {u : Bool} {total b : Nat} {ts : List Tile} (h : Holds u ts b)
    (hv : Valid total ts) : b < total := by
  obtain ⟨s, hs, hc⟩ := h
  have h1 := (segs_bounds hs).2
  have h2 := hc.2
  rw [hv.size] at h1
  omega

theorem holds_true_iff {ts : List Tile} {b : Nat} (hb : b < size ts) :
    Holds true ts b ↔ ¬Holds false ts b := by
  have h := countP_covers (i := 0) (Nat.zero_le b) (by simpa using hb)
  rw [List.countP_append] at h
  have hpos (u : Bool) : Holds u ts b ↔ 0 < (segs u 0 ts).countP fun s => decide (Covers b s) := by
    simp [Holds, List.countP_pos_iff]
  rw [hpos, hpos]
  omega

/-- Allocation frees nothing. -/
theorem holds_false_alloc {n i b : Nat} {ts ts' : List Tile} (hp : Pos ts)
    (h : alloc n ts = some (i, ts')) (hb : Holds false ts' b) : Holds false ts b := by
  obtain ⟨pre, k, post, rfl, rfl, hn, rfl, -⟩ := alloc_eq_some hp h
  have hsegs : segs false 0 (pre ++ gap k :: post) =
      segs false 0 pre ++ (size pre, k) :: segs false (size pre + k) post := by
    simp [segs_append, segs]
  obtain ⟨s, hs, hc⟩ := hb
  rw [segs_false_alloc hn] at hs
  rw [Holds, hsegs]
  rcases List.mem_append.mp hs with hs | hs
  · rcases List.mem_append.mp hs with hs | hs
    · exact ⟨s, by simp [hs], hc⟩
    · split at hs
      · simp at hs
      · obtain rfl := List.mem_singleton.mp hs
        obtain ⟨h1, h2⟩ := hc
        exact ⟨(size pre, k), by simp, by simp only at h1; omega, by simp only at h2 ⊢; omega⟩
  · exact ⟨s, by simp [hs], hc⟩

theorem holds_false_coalesce {ts : List Tile} {b : Nat} (hb : b < size ts) :
    Holds false (coalesce ts) b ↔ Holds false ts b := by
  rw [← not_iff_not, ← holds_true_iff hb, ← holds_true_iff (by rwa [coalesce_size])]
  simp only [Holds, segs_true_coalesce]

/-- No used tile starts in a free one. -/
theorem not_mem_segs_of_gap {i j n : Nat} {ts : List Tile} {t : Tile} (h : j < i + t.len) :
    (j, n) ∉ segs true (i + t.len) ts := fun hmem => by
  have := (segs_bounds hmem).1
  simp only at this
  omega

/-- A tiling is determined by its used tiles. -/
theorem ext_of_segs {i : Nat} {ts us : List Tile} (hp : Pos ts) (hp' : Pos us)
    (hc : Coalesced ts) (hc' : Coalesced us) (hsize : size ts = size us)
    (h : segs true i ts = segs true i us) : ts = us := by
  induction ts generalizing i us with
  | nil =>
    cases us with
    | nil => rfl
    | cons u us =>
      have := (pos_cons.mp hp').1
      simp only [size_nil, size_cons] at hsize
      omega
  | cons t ts ih =>
    obtain ⟨hlen, hpt⟩ := pos_cons.mp hp
    cases us with
    | nil =>
      simp only [size_nil, size_cons] at hsize
      omega
    | cons u us =>
      obtain ⟨hlen', hpu⟩ := pos_cons.mp hp'
      simp only [size_cons] at hsize
      -- The first tiles agree, and then the rest does by induction.
      suffices htu : t = u by
        subst htu
        rw [ih hpt hpu hc.of_cons hc'.of_cons (by omega)]
        rw [segs, segs] at h
        split at h
        · exact List.tail_eq_of_cons_eq h
        · exact h
      obtain ⟨tu, tl⟩ := t
      obtain ⟨uu, ul⟩ := u
      cases tu <;> cases uu <;> simp only [segs, Bool.false_eq_true, if_false, if_true] at h
      · rw [Tile.mk.injEq]
        refine ⟨rfl, ?_⟩
        simp only at hlen hlen' hsize
        have hcase {tl ul : Nat} {ts us : List Tile} (hp : Pos ts) (hc : Coalesced (⟨false, tl⟩ :: ts))
            (hsize : tl + size ts = ul + size us) (hne : tl < ul)
            (h : segs true (i + tl) ts = segs true (i + ul) us) : False := by
          cases ts with
          | nil =>
            simp only [size_nil] at hsize
            omega
          | cons a ts =>
            have ha : a.used = true := (List.isChain_cons_cons.mp hc).1.resolve_left (by simp)
            rw [segs, if_pos ha] at h
            have hmem : (i + tl, a.len) ∈ segs true (i + ul) us := h ▸ List.mem_cons_self
            have := (segs_bounds hmem).1
            simp only at this
            omega
        rcases Nat.lt_trichotomy tl ul with hlt | heq | hlt
        · exact (hcase hpt hc hsize hlt h).elim
        · exact heq
        · exact (hcase hpu hc' hsize.symm hlt h.symm).elim
      · have hmem : (i, ul) ∈ segs true (i + tl) ts := h ▸ List.mem_cons_self
        exact (not_mem_segs_of_gap (t := ⟨false, tl⟩) (by simp only at hlen ⊢; omega) hmem).elim
      · have hmem : (i, tl) ∈ segs true (i + ul) us := h ▸ List.mem_cons_self
        exact (not_mem_segs_of_gap (t := ⟨false, ul⟩) (by simp only at hlen' ⊢; omega) hmem).elim
      · simpa using List.head_eq_of_cons_eq h

/-- Used tiles in any order determine a valid tiling. -/
theorem Valid.ext {total : Nat} {ts us : List Tile} (h : Valid total ts) (h' : Valid total us)
    (hperm : (segs true 0 ts).Perm (segs true 0 us)) : ts = us := by
  refine ext_of_segs (i := 0) h.pos h'.pos h.coalesced h'.coalesced (h.size.trans h'.size.symm) ?_
  have hlt {ts : List Tile} (hp : Pos ts) : (segs true 0 ts).Pairwise fun s t => s.1 < t.1 :=
    (segs_sorted true 0 ts).imp_of_mem fun {s t} hs _ hst => by
      have := segs_pos hp hs
      omega
  exact hperm.eq_of_pairwise (fun s t _ _ h1 h2 => absurd h1 (by omega)) (hlt h.pos) (hlt h'.pos)

end Tiling
