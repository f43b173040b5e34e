import Os1Kernel.Lib.Linked
import Os1Kernel.Source.List

/-! What memory holds for a list of threads, and what the operations on lists do to it. -/

namespace Os1Kernel

open Memory Linked

/-- The links of the list at `l`, as those of a ring through the null pointer. -/
def tcbNext (v : Cells) (l a : Nat) : Nat := if a = 0 then v l .head else v a .next
def tcbPrev (v : Cells) (l a : Nat) : Nat := if a = 0 then v l .tail else v a .prev

/-- The list at `l` holds the threads `xs`. -/
structure IsList (v : Cells) (l : Nat) (xs : List Nat) : Prop where
  ring : Ring (tcbNext v l) (tcbPrev v l) 0 xs
  lt : ∀ x ∈ xs, x < 2 ^ 64

structure ListCells (O : Nat → Field → Prop) (l : Nat) : Prop where
  head : O l .head
  tail : O l .tail

structure LinkCells (O : Nat → Field → Prop) (t : Nat) : Prop where
  next : O t .next
  prev : O t .prev

/-- Only the ends of the list at `l` and the links of the threads `xs` differ. -/
def LinksOnly (l : Nat) (xs : List Nat) (v v' : Cells) : Prop :=
  ∀ a f, ¬(a = l ∧ (f = .head ∨ f = .tail)) → ¬(a ∈ xs ∧ (f = .next ∨ f = .prev)) → v' a f = v a f

namespace LinksOnly

variable {v v' : Cells} {l a x : Nat} {xs : List Nat} {f : Field}

theorem refl : LinksOnly l xs v v := fun _ _ _ _ => rfl

theorem setEnd (h : LinksOnly l xs v v') (hf : f = .head ∨ f = .tail) :
    LinksOnly l xs v (v'.set l f x) := by
  intro b g hl hx
  rw [View.set_apply, if_neg]
  · exact h b g hl hx
  · rintro ⟨rfl, rfl⟩
    exact hl ⟨rfl, hf⟩

theorem setLink (h : LinksOnly l xs v v') (ha : a ∈ xs) (hf : f = .next ∨ f = .prev) :
    LinksOnly l xs v (v'.set a f x) := by
  intro b g hl hx
  rw [View.set_apply, if_neg]
  · exact h b g hl hx
  · rintro ⟨rfl, rfl⟩
    exact hx ⟨ha, hf⟩

end LinksOnly

/-- The links that `unlink` leaves. -/
theorem unlinked (v : Cells) (t : Nat) : ((v.set t .next 0).set t .prev 0) t .next = 0 ∧
    ((v.set t .next 0).set t .prev 0) t .prev = 0 := by
  refine ⟨?_, View.set_same⟩
  rw [View.set_field_ne (by decide)]
  exact View.set_same

namespace IsList

variable {O : Nat → Field → Prop} {v v' : Cells} {g : Globals} {l t : Nat} {xs ls rs : List Nat}

theorem nodup (h : IsList v l xs) : xs.Nodup := (List.nodup_cons.mp h.ring.nodup).2

theorem zero_notMem (h : IsList v l xs) : 0 ∉ xs := (List.nodup_cons.mp h.ring.nodup).1

theorem head_eq (h : IsList v l xs) : v l .head = firstOf 0 xs := h.ring.head

theorem tail_eq (h : IsList v l xs) : v l .tail = lastOf 0 xs := h.ring.last

theorem next_eq (h : IsList v l (ls ++ t :: rs)) : v t .next = firstOf 0 rs := by
  have ht : t ≠ 0 := fun h0 => h.zero_notMem (by simp [← h0])
  have hn := h.ring.next_of
  rwa [tcbNext, if_neg ht] at hn

theorem prev_eq (h : IsList v l (ls ++ t :: rs)) : v t .prev = lastOf 0 ls := by
  have ht : t ≠ 0 := fun h0 => h.zero_notMem (by simp [← h0])
  have hp := h.ring.prev_of
  rwa [tcbPrev, if_neg ht] at hp

theorem lastOf_lt (h : IsList v l xs) (hx : ∀ x ∈ ls, x ∈ xs) : lastOf 0 ls < 2 ^ 64 := by
  rcases List.mem_cons.mp (lastOf_mem 0 ls) with h0 | hm
  · rw [h0]
    decide
  · exact h.lt _ (hx _ hm)

theorem firstOf_lt (h : IsList v l xs) (hx : ∀ x ∈ rs, x ∈ xs) : firstOf 0 rs < 2 ^ 64 := by
  rcases List.mem_append.mp (firstOf_mem 0 rs) with hm | h0
  · exact h.lt _ (hx _ hm)
  · rw [List.mem_singleton.mp h0]
    decide

theorem firstOf_eq_zero (h : IsList v l (ls ++ rs)) : firstOf 0 rs = 0 ↔ rs = [] := by
  cases rs with
  | nil => simp
  | cons x rs =>
    have hx : x ≠ 0 := fun h0 => h.zero_notMem (by simp [← h0])
    simp [hx]

theorem lastOf_eq_zero (h : IsList v l (ls ++ rs)) : lastOf 0 ls = 0 ↔ ls = [] := by
  rcases lastOf_cases 0 ls with ⟨rfl, -⟩ | ⟨init, x, rfl, hx⟩
  · simp
  · have hx0 : x ≠ 0 := fun h0 => h.zero_notMem (by simp [← h0])
    simp [hx0]

/-- Cells outside of a list do not matter to it. -/
theorem congr (h : IsList v l xs) (hl : v' l .head = v l .head ∧ v' l .tail = v l .tail)
    (hx : ∀ x ∈ xs, v' x .next = v x .next ∧ v' x .prev = v x .prev) : IsList v' l xs := by
  refine ⟨h.ring.congr (fun a ha => ?_) fun a ha => ?_, h.lt⟩
  · unfold tcbNext
    split
    · exact hl.1
    · rename_i h0
      exact (hx a (List.mem_of_ne_of_mem h0 ha)).1
  · unfold tcbPrev
    split
    · exact hl.2
    · rename_i h0
      exact (hx a (List.mem_of_ne_of_mem h0 ha)).2

theorem insert (h : IsList v l (ls ++ rs)) (h0 : t ≠ 0) (ht : t ∉ ls ++ rs) (hlt : t < 2 ^ 64)
    (hn : ∀ a, tcbNext v' l a =
      if a = lastOf 0 ls then t else if a = t then firstOf 0 rs else tcbNext v l a)
    (hp : ∀ a, tcbPrev v' l a =
      if a = firstOf 0 rs then t else if a = t then lastOf 0 ls else tcbPrev v l a) :
    IsList v' l (ls ++ t :: rs) := by
  refine ⟨h.ring.insert (by simpa [h0] using ht) hn hp, fun x hx => ?_⟩
  rw [List.mem_append, List.mem_cons] at hx
  rcases hx with hx | rfl | hx
  · exact h.lt x (List.mem_append_left _ hx)
  · exact hlt
  · exact h.lt x (List.mem_append_right _ hx)

theorem behead (h : IsList v l (t :: rs))
    (hn : ∀ a, a ≠ t → tcbNext v' l a = if a = 0 then firstOf 0 rs else tcbNext v l a)
    (hp : ∀ a, a ≠ t → tcbPrev v' l a = if a = firstOf 0 rs then 0 else tcbPrev v l a) :
    IsList v' l rs :=
  ⟨h.ring.behead hn hp, fun x hx => h.lt x (List.mem_cons_of_mem _ hx)⟩

theorem belast (h : IsList v l (ls ++ [t]))
    (hn : ∀ a, a ≠ t → tcbNext v' l a = if a = lastOf 0 ls then 0 else tcbNext v l a)
    (hp : ∀ a, a ≠ t → tcbPrev v' l a = if a = 0 then lastOf 0 ls else tcbPrev v l a) :
    IsList v' l ls :=
  ⟨h.ring.belast hn hp, fun x hx => h.lt x (List.mem_append_left _ hx)⟩

variable {Q : Unit → Cells → Globals → Prop} {T : Switch → Kernel Unit → Cells → Globals → Prop}

theorem wp_addLast (h : IsList v l xs) (h0 : t ≠ 0) (ht : t ∉ xs) (hlt : t < 2 ^ 64)
    (hl : ListCells O l) (hown : ∀ x ∈ t :: xs, LinkCells O x)
    (hQ : ∀ v', LinksOnly l (t :: xs) v v' → IsList v' l (xs ++ [t]) → Q () v' g) :
    (ListTCB.addLast l t).wp O v g Q T := by
  have hpt := hown t List.mem_cons_self
  have hhead := h.head_eq
  have htail := h.tail_eq
  have hr : IsList v l (xs ++ []) := by simpa using h
  have hxlt : lastOf 0 xs < 2 ^ 64 := h.lastOf_lt fun _ hx => hx
  rcases lastOf_cases 0 xs with ⟨rfl, hx⟩ | ⟨init, x, rfl, hx⟩
  · simp only [firstOf_nil] at hhead
    simp only [ListTCB.addLast, ListTCB.isEmpty, ListTCB.setFirst, ListTCB.unlink, Prog.wp_bind,
      Prog.wp_pure, wp_rd, hl.head, hhead, true_and, beq_self_eq_true, if_true, h0, ne_eq,
      not_false_eq_true, wp_wr, hpt.next, hpt.prev, hl.tail]
    have ht' : t ∈ [t] := List.mem_singleton_self t
    refine hQ _ ((((LinksOnly.refl.setLink ht' (.inl rfl)).setLink ht' (.inr rfl)).setEnd
      (.inl rfl)).setEnd (.inr rfl)) (hr.insert h0 ht hlt (fun a => ?_) fun a => ?_)
    · simp (disch := first | assumption | decide) only [tcbNext, set_word, lastOf_nil, firstOf_nil]
      grind
    · simp (disch := first | assumption | decide) only [tcbPrev, set_word, lastOf_nil, firstOf_nil]
      grind
  · have hx0 : x ≠ 0 := fun hx0 => h.zero_notMem (by simp [← hx0])
    have hxt : t ≠ x := fun hxt => ht (by simp [hxt])
    have hownx := hown x (by simp)
    have hne : firstOf 0 (init ++ [x]) ≠ 0 := fun hf =>
      absurd ((@IsList.firstOf_eq_zero _ _ [] _ h).mp hf) (by simp)
    rw [hx] at htail hxlt
    simp only [ListTCB.addLast, ListTCB.isEmpty, Prog.wp_bind, Prog.wp_pure, wp_rd, hl.head, hhead,
      true_and, beq_iff_eq, hne, if_false, h0, ne_eq, not_false_eq_true, if_true, wp_wr, hpt.next,
      hpt.prev, hl.tail]
    simp (disch := first | assumption | decide) only [set_word, reduceCtorEq, and_false,
      if_false, htail, hownx.next, true_and]
    have hmem : x ∈ t :: (init ++ [x]) := by simp
    have hmem' : t ∈ t :: (init ++ [x]) := by simp
    refine hQ _ ((((LinksOnly.refl.setLink hmem' (.inl rfl)).setLink hmem' (.inr rfl)).setLink hmem
      (.inl rfl)).setEnd (.inr rfl)) (hr.insert h0 (by simpa using ht) hlt (fun a => ?_) fun a => ?_)
    · simp (disch := first | assumption | decide) only [tcbNext, set_word, hx, firstOf_nil]
      grind
    · simp (disch := first | assumption | decide) only [tcbPrev, set_word, hx, firstOf_nil]
      grind

theorem wp_addFirst (h : IsList v l xs) (h0 : t ≠ 0) (ht : t ∉ xs) (hlt : t < 2 ^ 64)
    (hl : ListCells O l) (hown : ∀ x ∈ t :: xs, LinkCells O x)
    (hQ : ∀ v', LinksOnly l (t :: xs) v v' → IsList v' l (t :: xs) → Q () v' g) :
    (ListTCB.addFirst l t).wp O v g Q T := by
  have hpt := hown t List.mem_cons_self
  have hhead := h.head_eq
  have hr : IsList v l ([] ++ xs) := h
  have hflt : firstOf 0 xs < 2 ^ 64 := h.firstOf_lt fun _ hx => hx
  rcases firstOf_cases 0 xs with ⟨rfl, hx⟩ | ⟨x, rest, rfl, hx⟩
  · simp only [firstOf_nil] at hhead
    simp only [ListTCB.addFirst, ListTCB.isEmpty, ListTCB.setFirst, ListTCB.unlink, Prog.wp_bind,
      Prog.wp_pure, wp_rd, hl.head, hhead, true_and, beq_self_eq_true, if_true, h0, ne_eq,
      not_false_eq_true, wp_wr, hpt.next, hpt.prev, hl.tail]
    have ht' : t ∈ [t] := List.mem_singleton_self t
    refine hQ _ ((((LinksOnly.refl.setLink ht' (.inl rfl)).setLink ht' (.inr rfl)).setEnd
      (.inl rfl)).setEnd (.inr rfl)) (hr.insert h0 ht hlt (fun a => ?_) fun a => ?_)
    · simp (disch := first | assumption | decide) only [tcbNext, set_word, lastOf_nil, firstOf_nil]
      grind
    · simp (disch := first | assumption | decide) only [tcbPrev, set_word, lastOf_nil, firstOf_nil]
      grind
  · have hx0 : x ≠ 0 := fun hx0 => h.zero_notMem (by simp [← hx0])
    have hxt : x ≠ t := fun hxt => ht (by simp [hxt])
    have hownx := hown x (by simp)
    rw [hx] at hhead hflt
    simp only [ListTCB.addFirst, ListTCB.isEmpty, Prog.wp_bind, Prog.wp_pure, wp_rd, hl.head, hhead,
      true_and, beq_iff_eq, hx0, if_false, h0, ne_eq, not_false_eq_true, if_true, wp_wr, hpt.next,
      hpt.prev]
    simp (disch := first | assumption | decide) only [set_word, reduceCtorEq, and_false,
      if_false, hhead, hownx.prev, true_and]
    have hmem : x ∈ t :: x :: rest := by simp
    have hmem' : t ∈ t :: x :: rest := by simp
    refine hQ _ ((((LinksOnly.refl.setLink hmem' (.inr rfl)).setLink hmem' (.inl rfl)).setLink hmem
      (.inr rfl)).setEnd (.inl rfl)) (hr.insert h0 ht hlt (fun a => ?_) fun a => ?_)
    · simp (disch := first | assumption | decide) only [tcbNext, set_word, hx, lastOf_nil]
      grind
    · simp (disch := first | assumption | decide) only [tcbPrev, set_word, hx, lastOf_nil]
      grind

/-- `set_first` is `add_last` for an empty list. -/
theorem wp_setFirst (h : IsList v l []) (h0 : t ≠ 0) (hlt : t < 2 ^ 64) (hl : ListCells O l)
    (hown : LinkCells O t) (hQ : ∀ v', LinksOnly l [t] v v' → IsList v' l [t] → Q () v' g) :
    (ListTCB.setFirst l t).wp O v g Q T := by
  have hhead : v l .head = 0 := h.head_eq
  have hadd := h.wp_addLast (T := T) h0 (by simp) hlt hl (by simpa using hown) hQ
  simp only [ListTCB.addLast, ListTCB.isEmpty, Prog.wp_bind, Prog.wp_pure, wp_rd, hhead,
    beq_self_eq_true, if_true] at hadd
  exact hadd.2

variable {Q : Nat → Cells → Globals → Prop} {T : Switch → Kernel Nat → Cells → Globals → Prop}

theorem wp_takeFirst_nil (h : IsList v l []) (hl : ListCells O l) (hQ : Q 0 v g) :
    (ListTCB.takeFirst l).wp O v g Q T := by
  have hhead := h.head_eq
  simp only [firstOf_nil] at hhead
  simp only [ListTCB.takeFirst, ListTCB.isEmpty, ListTCB.unlink, Prog.wp_bind, Prog.wp_pure, wp_rd,
    hl.head, hhead, true_and, beq_self_eq_true, if_true, ne_eq, not_true, if_false]
  exact hQ

theorem wp_takeFirst (h : IsList v l (t :: xs)) (hl : ListCells O l)
    (hown : ∀ x ∈ t :: xs, LinkCells O x)
    (hQ : ∀ v', LinksOnly l (t :: xs) v v' → IsList v' l xs → v' t .next = 0 → v' t .prev = 0 →
      Q t v' g) : (ListTCB.takeFirst l).wp O v g Q T := by
  have hpt := hown t List.mem_cons_self
  have ht0 : t ≠ 0 := fun h0 => h.zero_notMem (by simp [← h0])
  have htl : t ∉ xs := (List.nodup_cons.mp h.nodup).1
  have hhead : v l .head = t := h.head_eq
  have hnext : v t .next = firstOf 0 xs := @IsList.next_eq _ _ _ [] _ h
  have hlt : firstOf 0 xs < 2 ^ 64 := h.firstOf_lt fun _ hx => List.mem_cons_of_mem _ hx
  have hh : IsList v l ([t] ++ xs) := h
  have hf0 := hh.firstOf_eq_zero
  have hft : firstOf 0 xs ≠ t := by
    rcases firstOf_cases 0 xs with ⟨rfl, hf⟩ | ⟨x, rest, rfl, hf⟩
    · exact hf ▸ ht0.symm
    · exact fun heq => htl (by simp [← heq])
  have hownf : firstOf 0 xs ≠ 0 → LinkCells O (firstOf 0 xs) := fun hne => by
    refine hown _ (List.mem_cons_of_mem _ ?_)
    exact (List.mem_append.mp (firstOf_mem 0 xs)).resolve_right (by simpa using hne)
  have hmem : t ∈ t :: xs := List.mem_cons_self
  have hfmem : firstOf 0 xs ≠ 0 → firstOf 0 xs ∈ t :: xs := fun hne => List.mem_cons_of_mem _
    ((List.mem_append.mp (firstOf_mem 0 xs)).resolve_right (by simpa using hne))
  have hlast := h.tail_eq
  simp only [ListTCB.takeFirst, ListTCB.isEmpty, ListTCB.dropFirst, ListTCB.unlink, Prog.wp_bind,
    Prog.wp_pure, wp_rd, hl.head, hhead, true_and, beq_iff_eq, ht0, if_false, hpt.next, hnext,
    wp_wr, ne_eq, not_false_eq_true, if_true, hpt.prev]
  simp (disch := first | assumption | decide) only [set_word, and_self, if_true]
  generalize hfx : firstOf 0 xs = x at *
  by_cases hx : x = 0
  · subst hx
    obtain rfl : xs = [] := hf0.mp rfl
    simp only [if_true, wp_wr, hl.tail, true_and]
    refine hQ _ ((((LinksOnly.refl.setEnd (.inl rfl)).setEnd (.inr rfl)).setLink hmem
      (.inl rfl)).setLink hmem (.inr rfl)) (h.behead (fun a ha => ?_) fun a ha => ?_)
      (unlinked _ t).1 (unlinked _ t).2
    · simp (disch := first | assumption | decide) only [tcbNext, set_word, firstOf_nil]
      grind
    · simp (disch := first | assumption | decide) only [tcbPrev, set_word, firstOf_nil]
      grind
  · simp only [hx, if_false, Prog.wp_bind, wp_rd, hl.head, true_and, wp_wr]
    simp (disch := first | assumption | decide) only [set_word, and_self, if_true]
    refine ⟨(hownf hx).prev, ?_⟩
    refine hQ _ ((((LinksOnly.refl.setEnd (.inl rfl)).setLink (hfmem hx) (.inr rfl)).setLink hmem
      (.inl rfl)).setLink hmem (.inr rfl)) (h.behead (fun a ha => ?_) fun a ha => ?_)
      (unlinked _ t).1 (unlinked _ t).2
    · simp (disch := first | assumption | decide) only [tcbNext, set_word, hfx]
      grind
    · simp (disch := first | assumption | decide) only [tcbPrev, set_word, hfx]
      grind

theorem wp_takeLast_nil (h : IsList v l []) (hl : ListCells O l) (hQ : Q 0 v g) :
    (ListTCB.takeLast l).wp O v g Q T := by
  have hhead := h.head_eq
  have htail := h.tail_eq
  simp only [firstOf_nil] at hhead
  simp only [lastOf_nil] at htail
  simp only [ListTCB.takeLast, ListTCB.isEmpty, ListTCB.unlink, Prog.wp_bind, Prog.wp_pure, wp_rd,
    hl.head, hl.tail, hhead, htail, true_and, beq_self_eq_true, if_true, ne_eq, not_true, if_false]
  exact hQ

theorem wp_takeLast (h : IsList v l (xs ++ [t])) (hl : ListCells O l)
    (hown : ∀ x ∈ xs ++ [t], LinkCells O x)
    (hQ : ∀ v', LinksOnly l (xs ++ [t]) v v' → IsList v' l xs → v' t .next = 0 → v' t .prev = 0 →
      Q t v' g) : (ListTCB.takeLast l).wp O v g Q T := by
  have hmem : t ∈ xs ++ [t] := by simp
  have hpt := hown t hmem
  have ht0 : t ≠ 0 := fun h0 => h.zero_notMem (by simp [← h0])
  have htl : t ∉ xs := fun hm => (List.nodup_append.mp h.nodup).2.2 t hm t (by simp) rfl
  have htail : v l .tail = t := by rw [h.tail_eq, lastOf_append]
  have hprev : v t .prev = lastOf 0 xs := h.prev_eq
  have hlt : lastOf 0 xs < 2 ^ 64 := h.lastOf_lt fun _ hx => List.mem_append_left _ hx
  have hl0 := h.lastOf_eq_zero
  have hlm : lastOf 0 xs ≠ 0 → lastOf 0 xs ∈ xs := fun hne =>
    (List.mem_cons.mp (lastOf_mem 0 xs)).resolve_left hne
  have hltne : lastOf 0 xs ≠ t := by
    intro heq
    exact htl (heq ▸ hlm (heq ▸ ht0))
  have hne : v l .head ≠ 0 := by
    rw [h.head_eq]
    exact fun hf => absurd ((@IsList.firstOf_eq_zero _ _ [] _ h).mp hf) (by simp)
  simp only [ListTCB.takeLast, ListTCB.isEmpty, ListTCB.dropLast, ListTCB.unlink, Prog.wp_bind,
    Prog.wp_pure, wp_rd, hl.head, hl.tail, htail, true_and, beq_iff_eq, hne, if_false, hpt.prev,
    hprev, wp_wr, ne_eq, ht0, not_false_eq_true, if_true, hpt.next]
  simp (disch := first | assumption | decide) only [set_word, and_self, if_true]
  generalize hfx : lastOf 0 xs = x at *
  by_cases hx : x = 0
  · subst hx
    obtain rfl : xs = [] := hl0.mp rfl
    simp only [if_true, wp_wr, hl.head, true_and]
    refine hQ _ ((((LinksOnly.refl.setEnd (.inr rfl)).setEnd (.inl rfl)).setLink hmem
      (.inl rfl)).setLink hmem (.inr rfl)) (h.belast (fun a ha => ?_) fun a ha => ?_)
      (unlinked _ t).1 (unlinked _ t).2
    · simp (disch := first | assumption | decide) only [tcbNext, set_word, lastOf_nil]
      grind
    · simp (disch := first | assumption | decide) only [tcbPrev, set_word, lastOf_nil]
      grind
  · have hxm : x ∈ xs ++ [t] := List.mem_append_left _ (hlm hx)
    simp only [hx, if_false, Prog.wp_bind, wp_rd, hl.tail, true_and, wp_wr]
    simp (disch := first | assumption | decide) only [set_word, and_self, if_true]
    refine ⟨(hown x hxm).next, ?_⟩
    refine hQ _ ((((LinksOnly.refl.setEnd (.inr rfl)).setLink hxm (.inl rfl)).setLink hmem
      (.inl rfl)).setLink hmem (.inr rfl)) (h.belast (fun a ha => ?_) fun a ha => ?_)
      (unlinked _ t).1 (unlinked _ t).2
    · simp (disch := first | assumption | decide) only [tcbNext, set_word, hfx]
      grind
    · simp (disch := first | assumption | decide) only [tcbPrev, set_word, hfx]
      grind

end IsList

end Os1Kernel
