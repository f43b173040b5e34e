import Mathlib.Data.List.Chain
import Mathlib.Data.List.Nodup

/-! Doubly linked lists over link functions.  `nx a` is the node after `a` and `pv a` the one before
it.  A list without a sentinel node is a ring through its null pointer `z`: `nx z` is its first node
and `pv z` its last, so an edit at either end is like an edit in the middle. -/

namespace Linked

variable {α : Type} {nx pv nx' pv' : α → α}

/-- Neighbours in `l` are linked both ways. -/
def Links (nx pv : α → α) (l : List α) : Prop :=
  l.IsChain fun a b => nx a = b ∧ pv b = a

/-- Links of a list are read from every node but the last and into every node but the first. -/
theorem Links.congr {l : List α} (h : Links nx pv l) (hn : ∀ a ∈ l.dropLast, nx' a = nx a)
    (hp : ∀ b ∈ l.tail, pv' b = pv b) : Links nx' pv' l := by
  induction l with
  | nil => exact .nil
  | cons a l ih =>
    cases l with
    | nil => exact .singleton a
    | cons b l =>
      obtain ⟨hab, hl⟩ := List.isChain_cons_cons.mp h
      refine List.isChain_cons_cons.mpr ⟨⟨?_, ?_⟩, ih hl ?_ ?_⟩
      · rw [hn a (by simp), hab.1]
      · rw [hp b (by simp), hab.2]
      · intro c hc
        exact hn c (by simp [hc])
      · intro c hc
        exact hp c (by simp only [List.tail_cons] at hc ⊢; exact List.mem_cons_of_mem _ hc)

/-- The list `xs` threaded through the null pointer `z`. -/
structure Ring (nx pv : α → α) (z : α) (xs : List α) : Prop where
  links : Links nx pv (z :: xs ++ [z])
  nodup : (z :: xs).Nodup

/-- The node before the part of a ring after `ls`. -/
def lastOf (z : α) (ls : List α) : α := (z :: ls).getLast (List.cons_ne_nil z ls)

/-- The node after the part of a ring before `rs`. -/
def firstOf (z : α) (rs : List α) : α := (rs ++ [z]).head (by simp)

@[simp] theorem lastOf_nil (z : α) : lastOf z [] = z := rfl

@[simp] theorem lastOf_singleton (z x : α) : lastOf z [x] = x := rfl

@[simp] theorem lastOf_append (z x : α) (ls : List α) : lastOf z (ls ++ [x]) = x := by
  simp [lastOf]

@[simp] theorem firstOf_nil (z : α) : firstOf z [] = z := rfl

@[simp] theorem firstOf_cons (z x : α) (rs : List α) : firstOf z (x :: rs) = x := rfl

theorem lastOf_cases (z : α) (ls : List α) :
    ls = [] ∧ lastOf z ls = z ∨ ∃ init x, ls = init ++ [x] ∧ lastOf z ls = x := by
  rcases List.eq_nil_or_concat ls with rfl | ⟨init, x, rfl⟩
  · exact .inl ⟨rfl, rfl⟩
  · exact .inr ⟨init, x, by simp, by simp⟩

theorem firstOf_cases (z : α) (rs : List α) :
    rs = [] ∧ firstOf z rs = z ∨ ∃ x tail, rs = x :: tail ∧ firstOf z rs = x := by
  cases rs with
  | nil => exact .inl ⟨rfl, rfl⟩
  | cons x tail => exact .inr ⟨x, tail, rfl, rfl⟩

theorem lastOf_mem (z : α) (ls : List α) : lastOf z ls ∈ z :: ls := List.getLast_mem _

theorem firstOf_mem (z : α) (rs : List α) : firstOf z rs ∈ rs ++ [z] := List.head_mem _

/-- A walk along `nx` from `a` on visits the nodes `xs` and then ends at `z`. -/
def Walk (nx : α → α) (z : α) : α → List α → Prop
  | a, [] => a = z
  | a, x :: xs => a = x ∧ x ≠ z ∧ Walk nx z (nx x) xs

theorem Walk.congr {z a : α} {xs : List α} (h : Walk nx z a xs) (hn : ∀ x ∈ xs, nx' x = nx x) :
    Walk nx' z a xs := by
  induction xs generalizing a with
  | nil => exact h
  | cons x xs ih =>
    obtain ⟨ha, hx, hrest⟩ := h
    refine ⟨ha, hx, ih ?_ fun y hy => hn y (List.mem_cons_of_mem _ hy)⟩
    rwa [hn x List.mem_cons_self]

namespace Ring

variable {z : α} {xs ls mid mid' rs : List α}

theorem cons_eq_dropLast_append (z : α) (ls : List α) :
    z :: ls = (z :: ls).dropLast ++ [lastOf z ls] :=
  (List.dropLast_append_getLast _).symm

theorem append_eq_cons_tail (z : α) (rs : List α) :
    rs ++ [z] = firstOf z rs :: (rs ++ [z]).tail := by
  cases rs <;> rfl

theorem split_eq (z : α) (ls mid rs : List α) :
    z :: (ls ++ mid ++ rs) ++ [z] = (z :: ls).dropLast ++
      lastOf z ls :: (mid ++ firstOf z rs :: (rs ++ [z]).tail) := by
  rw [← append_eq_cons_tail, List.append_cons _ (lastOf z ls), ← cons_eq_dropLast_append]
  simp

/-- A ring taken apart at `mid`, with the links across the ends of `mid`. -/
theorem links_split : Links nx pv (z :: (ls ++ mid ++ rs) ++ [z]) ↔
    Links nx pv (z :: ls) ∧ Links nx pv (lastOf z ls :: mid ++ [firstOf z rs]) ∧
      Links nx pv (rs ++ [z]) := by
  rw [split_eq, Links, List.isChain_split, ← cons_eq_dropLast_append, ← List.cons_append,
    List.isChain_split, ← append_eq_cons_tail]
  rfl

/-- Nodes outside a ring do not matter to it. -/
theorem congr (h : Ring nx pv z xs) (hn : ∀ a ∈ z :: xs, nx' a = nx a)
    (hp : ∀ a ∈ z :: xs, pv' a = pv a) : Ring nx' pv' z xs := by
  refine ⟨h.links.congr ?_ ?_, h.nodup⟩
  · intro a ha
    rw [List.dropLast_concat] at ha
    exact hn a ha
  · intro b hb
    exact hp b (by simp at hb ⊢; tauto)

theorem next (h : Ring nx pv z (ls ++ rs)) : nx (lastOf z ls) = firstOf z rs := by
  have hl : Links nx pv (z :: (ls ++ [] ++ rs) ++ [z]) := by simpa using h.links
  exact (List.isChain_cons_cons.mp (links_split.mp hl).2.1).1.1

theorem prev (h : Ring nx pv z (ls ++ rs)) : pv (firstOf z rs) = lastOf z ls := by
  have hl : Links nx pv (z :: (ls ++ [] ++ rs) ++ [z]) := by simpa using h.links
  exact (List.isChain_cons_cons.mp (links_split.mp hl).2.1).1.2

theorem head (h : Ring nx pv z xs) : nx z = firstOf z xs :=
  next (show Ring nx pv z ([] ++ xs) from h)

theorem last (h : Ring nx pv z xs) : pv z = lastOf z xs :=
  prev (show Ring nx pv z (xs ++ []) by simpa using h)

theorem next_of (h : Ring nx pv z (ls ++ a :: rs)) : nx a = firstOf z rs := by
  rw [List.append_cons] at h
  simpa using h.next

theorem prev_of (h : Ring nx pv z (ls ++ a :: rs)) : pv a = lastOf z ls := by
  simpa using h.prev

/-- Part `mid` of a ring replaced by `mid'`: the links across the ends of `mid'` and inside it are
new, and all others are kept. -/
theorem splice (h : Ring nx pv z (ls ++ mid ++ rs)) (hnd : (z :: (ls ++ mid' ++ rs)).Nodup)
    (hmid : Links nx' pv' (lastOf z ls :: mid' ++ [firstOf z rs]))
    (hnl : ∀ a ∈ z :: ls, a ≠ lastOf z ls → nx' a = nx a) (hpl : ∀ a ∈ ls, pv' a = pv a)
    (hnr : ∀ a ∈ rs, nx' a = nx a) (hpr : ∀ a ∈ rs ++ [z], a ≠ firstOf z rs → pv' a = pv a) :
    Ring nx' pv' z (ls ++ mid' ++ rs) := by
  obtain ⟨h1, -, h3⟩ := links_split.mp h.links
  have hz : z ∉ ls ++ mid' ++ rs := (List.nodup_cons.mp hnd).1
  have hxs : (ls ++ mid' ++ rs).Nodup := (List.nodup_cons.mp hnd).2
  simp only [List.mem_append, not_or] at hz
  refine ⟨links_split.mpr ⟨h1.congr ?_ hpl, hmid, h3.congr ?_ ?_⟩, hnd⟩
  · intro a ha
    have hn : (z :: ls).Nodup := List.nodup_cons.mpr ⟨hz.1.1, hxs.of_append_left.of_append_left⟩
    refine hnl a (List.dropLast_subset _ ha) ?_
    rintro rfl
    rw [cons_eq_dropLast_append, List.nodup_append] at hn
    exact hn.2.2 _ ha _ (by simp) rfl
  · intro a ha
    exact hnr a (by simpa using ha)
  · intro a ha
    have hn : (rs ++ [z]).Nodup :=
      List.nodup_append.mpr ⟨hxs.of_append_right, by simp, by simpa using fun b hb => ne_of_mem_of_not_mem hb hz.2⟩
    refine hpr a (List.mem_of_mem_tail ha) ?_
    rintro rfl
    rw [append_eq_cons_tail, List.nodup_cons] at hn
    exact hn.1 ha

/-- A node linked into a ring between two neighbours. -/
theorem insert {t : α} [DecidableEq α] (h : Ring nx pv z (ls ++ rs)) (ht : t ∉ z :: (ls ++ rs))
    (hn : ∀ a, nx' a = if a = lastOf z ls then t else if a = t then firstOf z rs else nx a)
    (hp : ∀ a, pv' a = if a = firstOf z rs then t else if a = t then lastOf z ls else pv a) :
    Ring nx' pv' z (ls ++ t :: rs) := by
  have hlast : t ≠ lastOf z ls := by
    rintro rfl
    refine ht (List.mem_cons.mpr ((List.mem_cons.mp (lastOf_mem z ls)).imp_right fun hm => ?_))
    exact List.mem_append_left _ hm
  have hfirst : t ≠ firstOf z rs := by
    rintro rfl
    rcases List.mem_append.mp (firstOf_mem z rs) with hm | hm
    · exact ht (List.mem_cons_of_mem _ (List.mem_append_right _ hm))
    · exact ht (List.mem_cons.mpr (.inl (List.mem_singleton.mp hm)))
  have hne : ∀ a ∈ z :: (ls ++ rs), a ≠ t := fun a ha hat => ht (hat ▸ ha)
  have hnd : (z :: (ls ++ [t] ++ rs)).Nodup := by
    have hcons : (t :: z :: (ls ++ rs)).Nodup := List.nodup_cons.mpr ⟨ht, h.nodup⟩
    refine (List.Perm.nodup_iff ?_).mp hcons
    refine (List.Perm.swap z t _).trans (List.Perm.cons z ?_)
    rw [List.append_assoc, List.singleton_append]
    exact List.perm_middle.symm
  have hr : Ring nx pv z (ls ++ [] ++ rs) := by simpa using h
  rw [List.append_cons]
  refine hr.splice hnd ?_ (fun a ha hal => ?_) (fun a ha => ?_) (fun a ha => ?_) fun a ha haf => ?_
  · refine .cons_cons ⟨?_, ?_⟩ (.cons_cons ⟨?_, ?_⟩ (.singleton _))
    · rw [hn, if_pos rfl]
    · rw [hp, if_neg hfirst, if_pos rfl]
    · rw [hn, if_neg hlast, if_pos rfl]
    · rw [hp, if_pos rfl]
  · rw [hn, if_neg hal, if_neg (hne a ?_)]
    exact List.mem_cons.mpr ((List.mem_cons.mp ha).imp_right (List.mem_append_left _))
  · have haf : a ≠ firstOf z rs := by
      rintro rfl
      rcases List.mem_append.mp (firstOf_mem z rs) with hm | hm
      · exact (List.nodup_append.mp (List.nodup_cons.mp h.nodup).2).2.2 _ ha _ hm rfl
      · rw [List.mem_singleton] at hm
        exact (List.nodup_cons.mp h.nodup).1 (List.mem_append_left _ (hm ▸ ha))
    rw [hp, if_neg haf, if_neg (hne a (List.mem_cons_of_mem _ (List.mem_append_left _ ha)))]
  · have hal : a ≠ lastOf z ls := by
      rintro rfl
      rcases List.mem_cons.mp (lastOf_mem z ls) with hm | hm
      · exact (List.nodup_cons.mp h.nodup).1 (List.mem_append_right _ (hm ▸ ha))
      · exact (List.nodup_append.mp (List.nodup_cons.mp h.nodup).2).2.2 _ hm _ ha rfl
    rw [hn, if_neg hal, if_neg (hne a (List.mem_cons_of_mem _ (List.mem_append_right _ ha)))]
  · rw [hp, if_neg haf, if_neg (hne a ?_)]
    rcases List.mem_append.mp ha with hm | hm
    · exact List.mem_cons_of_mem _ (List.mem_append_right _ hm)
    · rw [List.mem_singleton.mp hm]
      exact List.mem_cons_self

/-- The first node taken out of a ring. -/
theorem behead {t : α} [DecidableEq α] (h : Ring nx pv z (t :: rs))
    (hn : ∀ a, a ≠ t → nx' a = if a = z then firstOf z rs else nx a)
    (hp : ∀ a, a ≠ t → pv' a = if a = firstOf z rs then z else pv a) : Ring nx' pv' z rs := by
  have hnd := h.nodup
  have hzt : z ≠ t := fun hz => (List.nodup_cons.mp hnd).1 (hz ▸ List.mem_cons_self)
  have htr : t ∉ rs := (List.nodup_cons.mp (List.nodup_cons.mp hnd).2).1
  have hzr : z ∉ rs := fun hz => (List.nodup_cons.mp hnd).1 (List.mem_cons_of_mem _ hz)
  have hfirst : firstOf z rs ≠ t := by
    rintro rfl
    rcases List.mem_append.mp (firstOf_mem z rs) with hm | hm
    · exact htr hm
    · exact hzt (List.mem_singleton.mp hm).symm
  have hr : Ring nx pv z ([] ++ [t] ++ rs) := h
  have hmid : Links nx' pv' (lastOf z [] :: [] ++ [firstOf z rs]) := by
    refine .cons_cons ⟨?_, ?_⟩ (.singleton _)
    · rw [lastOf_nil, hn z hzt, if_pos rfl]
    · rw [hp _ hfirst, if_pos rfl, lastOf_nil]
  have hnd' : (z :: ([] ++ [] ++ rs)).Nodup :=
    List.nodup_cons.mpr ⟨hzr, (List.nodup_cons.mp (List.nodup_cons.mp hnd).2).2⟩
  refine hr.splice hnd' hmid (fun a ha hne => ?_) (by simp) (fun a ha => ?_) fun a ha hne => ?_
  · exact absurd (List.mem_singleton.mp ha) hne
  · rw [hn a (ne_of_mem_of_not_mem ha htr), if_neg (ne_of_mem_of_not_mem ha hzr)]
  · have hat : a ≠ t := by
      rcases List.mem_append.mp ha with hm | hm
      · exact ne_of_mem_of_not_mem hm htr
      · exact (List.mem_singleton.mp hm) ▸ hzt
    rw [hp a hat, if_neg hne]

/-- A ring the other way round. -/
theorem reverse (h : Ring nx pv z xs) : Ring pv nx z xs.reverse := by
  refine ⟨?_, ?_⟩
  · have hrev : z :: xs.reverse ++ [z] = (z :: xs ++ [z]).reverse := by simp
    rw [hrev, Links, List.isChain_reverse]
    exact h.links.imp fun a b hab => ⟨hab.2, hab.1⟩
  · have hnd := h.nodup
    rw [List.nodup_cons] at hnd ⊢
    exact ⟨by simpa using hnd.1, List.nodup_reverse.mpr hnd.2⟩

theorem firstOf_reverse (z : α) (ls : List α) : firstOf z ls.reverse = lastOf z ls := by
  rcases lastOf_cases z ls with ⟨rfl, h⟩ | ⟨init, x, rfl, h⟩
  · exact h.symm
  · rw [h, List.reverse_append]
    rfl

/-- The last node taken out of a ring. -/
theorem belast {t : α} [DecidableEq α] (h : Ring nx pv z (ls ++ [t]))
    (hn : ∀ a, a ≠ t → nx' a = if a = lastOf z ls then z else nx a)
    (hp : ∀ a, a ≠ t → pv' a = if a = z then lastOf z ls else pv a) : Ring nx' pv' z ls := by
  have hrev : Ring pv nx z (t :: ls.reverse) := by simpa using h.reverse
  have hbehead : Ring pv' nx' z ls.reverse := by
    refine hrev.behead ?_ ?_
    · simpa only [firstOf_reverse] using hp
    · simpa only [firstOf_reverse] using hn
  simpa using hbehead.reverse

/-- A walk through a ring ends, and visits the nodes in order. -/
theorem walk_from (hz : z ∉ xs) (h : Links nx pv (a :: xs ++ [z])) : Walk nx z (nx a) xs := by
  induction xs generalizing a with
  | nil => exact (List.isChain_cons_cons.mp h).1.1
  | cons x xs ih =>
    obtain ⟨hax, hrest⟩ := List.isChain_cons_cons.mp h
    refine ⟨hax.1, fun hx => hz (by simp [hx]), ih (fun hm => hz (List.mem_cons_of_mem _ hm)) hrest⟩

theorem walk (h : Ring nx pv z xs) : Walk nx z (nx z) xs :=
  walk_from (List.nodup_cons.mp h.nodup).1 h.links

/-- The list is what a walk along `nx` visits, so the links determine it. -/
theorem unique_from {ys : List α} (hx : z ∉ xs) (hy : z ∉ ys) (h1 : Links nx pv (a :: xs ++ [z]))
    (h2 : Links nx pv (a :: ys ++ [z])) : xs = ys := by
  induction xs generalizing a ys with
  | nil =>
    cases ys with
    | nil => rfl
    | cons y ys =>
      have e1 := (List.isChain_cons_cons.mp h1).1.1
      have e2 := (List.isChain_cons_cons.mp h2).1.1
      exact absurd (by rw [← e1, e2]; simp) hy
  | cons x xs ih =>
    cases ys with
    | nil =>
      have e1 := (List.isChain_cons_cons.mp h1).1.1
      have e2 := (List.isChain_cons_cons.mp h2).1.1
      exact absurd (by rw [← e2, e1]; simp) hx
    | cons y ys =>
      obtain ⟨e1, h1⟩ := List.isChain_cons_cons.mp h1
      obtain ⟨e2, h2⟩ := List.isChain_cons_cons.mp h2
      obtain rfl : x = y := by rw [← e1.1, e2.1]
      rw [ih (fun h => hx (List.mem_cons_of_mem _ h)) (fun h => hy (List.mem_cons_of_mem _ h)) h1 h2]

theorem unique {ys : List α} (h1 : Ring nx pv z xs) (h2 : Ring nx pv z ys) : xs = ys :=
  unique_from (List.nodup_cons.mp h1.nodup).1 (List.nodup_cons.mp h2.nodup).1 h1.links h2.links

end Ring

end Linked
