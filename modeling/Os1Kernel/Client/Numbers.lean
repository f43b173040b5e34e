import Mathlib.Data.Nat.Digits.Lemmas
import Os1Kernel.Console.Decimal

/-! The numbers of the test programs' printing (`printInt` and `stringToInt` of `test/printing.cpp`). -/

namespace Os1Kernel.Client.Numbers

/-- `digits`, with the null at its end -/
def digits : List UInt8 := chars "0123456789ABCDEF" ++ [0]

/-- The bytes of `buf` in `printInt`. -/
def bufLength : Nat := 16

/-- The loop of `printInt` over the digits of `x`, when `room` bytes of `buf` are left; none when it
leaves `buf` or `digits`. -/
def digitsLoop (base : UInt32) : Nat → UInt32 → List UInt8 → Option (List UInt8)
  | 0, _, _ => none
  | room + 1, x, buf => do
    let c ← digits[(x % base).toNat]?
    if x / base ≠ 0 then digitsLoop base room (x / base) (buf ++ [c]) else some (buf ++ [c])

/-- `printInt`: the characters that it writes, from the end of `buf` to its start. -/
def printInt (xx : Int32) (base : UInt32) (sgn : Bool) : Option (List UInt8) :=
  if sgn = true ∧ xx < 0 then do
    let buf ← digitsLoop base bufLength (-xx).toUInt32 []
    if buf.length < bufLength then some (buf ++ [45]).reverse else none
  else do
    let buf ← digitsLoop base bufLength xx.toUInt32 []
    some buf.reverse

/-- The loop of `stringToInt`; none when it leaves the string. -/
def stringToIntLoop (n : Int32) : List UInt8 → Option Int32
  | [] => none
  | c :: s =>
    if 48 ≤ c ∧ c ≤ 57 then stringToIntLoop (n * 10 + Int32.ofNat c.toNat - 48) s else some n

/-- `stringToInt` -/
def stringToInt (s : List UInt8) : Option Int32 := stringToIntLoop 0 s

/-! ### Writing -/

/-- The digits of a number, the last first; zero has one. -/
def numerals (base x : Nat) : List Nat := if x = 0 then [0] else Nat.digits base x

/-- The character of a digit. -/
def digitChar (d : Nat) : UInt8 := digits.getD d 0

variable {base x d : Nat}

theorem numerals_of_lt (hx : x < base) : numerals base x = [x] := by
  by_cases h0 : x = 0
  · rw [numerals, if_pos h0, h0]
  · rw [numerals, if_neg h0, Nat.digits_of_lt base x h0 hx]

theorem numerals_of_le (hb : 2 ≤ base) (hx : base ≤ x) :
    numerals base x = x % base :: numerals base (x / base) := by
  have hdiv : x / base ≠ 0 := (Nat.div_pos hx (by omega)).ne'
  rw [numerals, if_neg (by omega), numerals, if_neg hdiv, Nat.digits_def' (by omega) (by omega)]

theorem numerals_ne_nil (base x : Nat) : numerals base x ≠ [] := by
  unfold numerals
  split
  · exact List.cons_ne_nil 0 []
  · rename_i h0
    exact Nat.digits_ne_nil_iff_ne_zero.mpr h0

theorem numerals_lt (hb : 2 ≤ base) : ∀ d ∈ numerals base x, d < base := by
  intro d hd
  unfold numerals at hd
  split at hd
  · obtain rfl := List.mem_singleton.mp hd
    omega
  · exact Nat.digits_lt_base hb hd

theorem ofDigits_numerals : Nat.ofDigits base (numerals base x) = x := by
  unfold numerals
  split
  · rename_i h0
    rw [h0, Nat.ofDigits_singleton]
  · exact Nat.ofDigits_digits base x

theorem digits_getElem (hd : d < 16) : digits[d]? = some (digitChar d) := by
  have hlt : d < digits.length := Nat.lt_trans hd (by decide)
  rw [digitChar, List.getD_eq_getElem?_getD, List.getElem?_eq_getElem hlt, Option.getD_some]

/-- The loop fills `buf` with the digits, if there is room for them. -/
theorem digitsLoop_eq {base : UInt32} (hb : 2 ≤ base.toNat) (hb' : base.toNat ≤ 16) (room : Nat) :
    ∀ (x : UInt32) (buf : List UInt8), digitsLoop base room x buf =
      if (numerals base.toNat x.toNat).length ≤ room then
        some (buf ++ (numerals base.toNat x.toNat).map digitChar) else none := by
  induction room with
  | zero =>
    intro x buf
    have hpos := List.length_pos_of_ne_nil (numerals_ne_nil base.toNat x.toNat)
    rw [digitsLoop, if_neg (by omega)]
  | succ room ih =>
    intro x buf
    have hdigit : (x % base).toNat = x.toNat % base.toNat := UInt32.toNat_mod x base
    have hquot : (x / base).toNat = x.toNat / base.toNat := UInt32.toNat_div x base
    have hlt : x.toNat % base.toNat < 16 := Nat.lt_of_lt_of_le (Nat.mod_lt _ (by omega)) hb'
    have hzero : x / base = 0 ↔ x.toNat < base.toNat := by
      rw [← UInt32.toNat_inj, hquot]
      exact Nat.div_eq_zero_iff_lt (by omega)
    rw [digitsLoop, hdigit, digits_getElem hlt, Option.bind_eq_bind, Option.bind_some]
    by_cases hx : x.toNat < base.toNat
    · rw [if_neg (not_not.mpr (hzero.mpr hx)), numerals_of_lt hx, Nat.mod_eq_of_lt hx,
        List.length_singleton, if_pos (Nat.le_add_left 1 room), List.map_singleton]
    · rw [if_pos (mt hzero.mp hx), ih, hquot, numerals_of_le hb (Nat.le_of_not_lt hx)]
      simp only [List.length_cons, Nat.add_le_add_iff_right, List.map_cons, List.append_assoc,
        List.singleton_append]

/-! ### Reading -/

theorem digitChar_spec (hd : d < 10) :
    48 ≤ digitChar d ∧ digitChar d ≤ 57 ∧ (digitChar d).toNat = 48 + d := by
  have hall : ∀ e ∈ List.range 10,
      48 ≤ digitChar e ∧ digitChar e ≤ 57 ∧ (digitChar e).toNat = 48 + e := by decide
  exact hall d (List.mem_range.mpr hd)

/-- A digit is read, with the wrap of `n * 10 + c` undone by the difference. -/
theorem stringToIntLoop_digit (hd : d < 10) (v : Nat) (s : List UInt8) :
    stringToIntLoop (Int32.ofNat v) (digitChar d :: s) =
      stringToIntLoop (Int32.ofNat (v * 10 + d)) s := by
  obtain ⟨hlow, hhigh, hnum⟩ := digitChar_spec hd
  have hn : Int32.ofNat v * 10 + Int32.ofNat (48 + d) - 48 = Int32.ofNat (v * 10 + d) := by
    calc Int32.ofNat v * 10 + Int32.ofNat (48 + d) - 48 = Int32.ofNat (v * 10 + (48 + d)) - Int32.ofNat 48 := by
          rw [Int32.ofNat_add (v * 10), Int32.ofNat_mul]
          rfl
      _ = Int32.ofNat (v * 10 + (48 + d) - 48) := (Int32.ofNat_sub _ _ (by omega)).symm
      _ = Int32.ofNat (v * 10 + d) := by rw [show v * 10 + (48 + d) - 48 = v * 10 + d by omega]
  rw [stringToIntLoop, if_pos ⟨hlow, hhigh⟩, hnum, hn]

/-- The digits of a number are read, the first first. -/
theorem stringToIntLoop_digits (ds : List Nat) (hds : ∀ d ∈ ds, d < 10) (v : Nat) :
    ∀ s : List UInt8, stringToIntLoop (Int32.ofNat v) ((ds.map digitChar).reverse ++ s) =
      stringToIntLoop (Int32.ofNat (v * 10 ^ ds.length + Nat.ofDigits 10 ds)) s := by
  induction ds with
  | nil =>
    intro s
    rw [List.length_nil, pow_zero, mul_one, Nat.ofDigits_nil, add_zero]
    rfl
  | cons d ds ih =>
    intro s
    obtain ⟨hd, hds⟩ := List.forall_mem_cons.mp hds
    have hvalue : (v * 10 ^ ds.length + Nat.ofDigits 10 ds) * 10 + d =
        v * 10 ^ (ds.length + 1) + (d + 10 * Nat.ofDigits 10 ds) := by
      rw [pow_succ]
      ring
    rw [List.map_cons, List.reverse_cons, List.append_assoc, List.singleton_append, ih hds,
      stringToIntLoop_digit hd, hvalue, List.length_cons, Nat.ofDigits_cons]

/-- The number whose digits `printInt` writes. -/
def magnitude (xx : Int32) (sgn : Bool) : Nat :=
  if sgn = true ∧ xx < 0 then xx.toInt.natAbs else xx.toUInt32.toNat

theorem neg_toNat {xx : Int32} (h : xx < 0) : (-xx).toUInt32.toNat = xx.toInt.natAbs := by
  have hneg : xx.toBitVec.toInt < 0 := Int32.lt_iff_toInt_lt.mp h
  have hlt := xx.toBitVec.isLt
  rw [← Int32.toNat_toBitVec, Int32.toBitVec_neg, BitVec.toNat_neg,
    show xx.toInt = xx.toBitVec.toInt from rfl]
  rw [BitVec.toInt_eq_toNat_cond] at hneg ⊢
  split at hneg
  · omega
  · omega

theorem ofNat_toNat (xx : Int32) : Int32.ofNat xx.toUInt32.toNat = xx := by
  rw [← UInt32.toInt32_ofNat', UInt32.ofNat_toNat, Int32.toInt32_toUInt32]

/-- The numeral of a number in `buf`. -/
def numeral (xx : Int32) (base : UInt32) (sgn : Bool) : List UInt8 :=
  (if sgn = true ∧ xx < 0 then [45] else []) ++
    ((numerals base.toNat (magnitude xx sgn)).map digitChar).reverse

theorem printInt_eq {base : UInt32} (hb : 2 ≤ base.toNat) (hb' : base.toNat ≤ 16) (xx : Int32)
    (sgn : Bool) : printInt xx base sgn =
      if (numeral xx base sgn).length ≤ bufLength then some (numeral xx base sgn) else none := by
  by_cases hneg : sgn = true ∧ xx < 0
  · rw [printInt, if_pos hneg, digitsLoop_eq hb hb', neg_toNat hneg.2, numeral, magnitude, if_pos hneg,
      if_pos hneg]
    generalize numerals base.toNat xx.toInt.natAbs = ds
    simp only [List.nil_append, List.reverse_append, List.reverse_singleton, List.singleton_append,
      List.length_cons, List.length_reverse, List.length_map]
    by_cases hfits : ds.length ≤ bufLength
    · rw [if_pos hfits, Option.bind_eq_bind, Option.bind_some, List.length_map]
      simp only [Nat.lt_iff_add_one_le]
    · rw [if_neg hfits, if_neg (by omega)]
      rfl
  · rw [printInt, if_neg hneg, digitsLoop_eq hb hb', numeral, magnitude, if_neg hneg, if_neg hneg]
    simp only [List.nil_append, List.length_reverse, List.length_map]
    split
    · rfl
    · rfl

/-- A numeral without a sign. -/
theorem numeral_eq {xx : Int32} {sgn : Bool} (h : sgn = false ∨ 0 ≤ xx) (base : UInt32) :
    numeral xx base sgn = ((numerals base.toNat xx.toUInt32.toNat).map digitChar).reverse := by
  have hneg : ¬(sgn = true ∧ xx < 0) := by
    rintro ⟨hs, hlt⟩
    rcases h with h | h
    · exact Bool.false_ne_true (h.symm.trans hs)
    · exact Int32.not_le.mpr hlt h
  rw [numeral, magnitude, if_neg hneg, if_neg hneg, List.nil_append]

/-- A number below `10 ^ 10` has ten decimal digits at most. -/
theorem numerals_length (hx : x < 10 ^ 10) : (numerals 10 x).length ≤ 10 := by
  unfold numerals
  split
  · decide
  · exact (Nat.digits_length_le_iff (by decide) _).mpr hx

theorem magnitude_lt (xx : Int32) (sgn : Bool) : magnitude xx sgn < 2 ^ 32 := by
  unfold magnitude
  split
  · rename_i hneg
    rw [← neg_toNat hneg.2]
    exact UInt32.toNat_lt _
  · exact UInt32.toNat_lt _

/-- In base 10 there is room for the sign and the digits. -/
theorem numeral_length (xx : Int32) (sgn : Bool) : (numeral xx 10 sgn).length ≤ bufLength := by
  have hdigits : (numerals 10 (magnitude xx sgn)).length ≤ 10 :=
    numerals_length (Nat.lt_trans (magnitude_lt xx sgn) (by decide))
  have hsign : (if sgn = true ∧ xx < 0 then [(45 : UInt8)] else []).length ≤ 1 := by
    split
    · exact Nat.le_refl 1
    · exact Nat.zero_le 1
  rw [numeral, List.length_append, List.length_reverse, List.length_map]
  have hbuf : bufLength = 16 := rfl
  change _ + (numerals 10 (magnitude xx sgn)).length ≤ bufLength
  omega

/-- `printInt` writes the numeral of every number in every base up to 16, or leaves `buf` when that is
longer, which it never is in base 10.  `stringToInt` reads back what it writes in base 10, but for a
sign. -/
theorem print_read {base : UInt32} (hb : 2 ≤ base.toNat) (hb' : base.toNat ≤ 16) (xx : Int32)
    (sgn : Bool) :
    printInt xx base sgn =
      (if (numeral xx base sgn).length ≤ bufLength then some (numeral xx base sgn) else none) ∧
    (base = 10 → (numeral xx base sgn).length ≤ bufLength ∧
      (sgn = false ∨ 0 ≤ xx → ∀ s, stringToInt (numeral xx base sgn ++ 0 :: s) = some xx)) := by
  constructor
  · exact printInt_eq hb hb' xx sgn
  · rintro rfl
    refine ⟨numeral_length xx sgn, fun hsgn s => ?_⟩
    have hdigits := stringToIntLoop_digits (numerals 10 xx.toUInt32.toNat)
      (numerals_lt (by decide)) 0 (0 :: s)
    rw [ofDigits_numerals, Nat.zero_mul, Nat.zero_add, ofNat_toNat] at hdigits
    rw [stringToInt, numeral_eq hsgn]
    refine hdigits.trans ?_
    rw [stringToIntLoop, if_neg (by decide)]

/-- Minus one without its sign. -/
theorem print_read_unsigned : printInt (-1) 10 false = some (chars "4294967295") ∧
    stringToInt (chars "4294967295" ++ [0]) = some (-1) := by
  obtain ⟨hprint, hread⟩ := @print_read 10 (by decide) (by decide) (-1) false
  have hnum : numeral (-1) 10 false = chars "4294967295" := by
    decide
  obtain ⟨hfits, hread⟩ := hread rfl
  rw [if_pos hfits, hnum] at hprint
  exact ⟨hprint, hnum ▸ hread (.inl rfl) []⟩

end Os1Kernel.Client.Numbers
