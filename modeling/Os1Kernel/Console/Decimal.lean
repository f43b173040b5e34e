import Os1Kernel.Console.Line
import Os1Kernel.Source.TrapHandlers

/-! Numbers in decimal, as `Console::print_uint64` and the panic message print them. -/

namespace Os1Kernel

open Memory

/-- The loop of `Utils::get_decimal_weight`, in words of 64 bits. -/
def decimalWeightLoop (number weight : UInt64) : UInt64 :=
  if weight * 10 ≤ number ∧ weight * 10 > weight then decimalWeightLoop number (weight * 10)
  else weight
termination_by 2 ^ 64 - weight.toNat
decreasing_by
  have hlt := (weight * 10).toNat_lt
  have hgt := UInt64.lt_iff_toNat_lt.mp (by assumption : weight * 10 ≤ number ∧ weight * 10 > weight).2
  omega

/-- `Utils::get_decimal_weight` -/
def getDecimalWeight (number : UInt64) : UInt64 := decimalWeightLoop number 1

/-- The loop over the digits of a number, from left to right. -/
def digitLoop {m : Type → Type} [Monad m] (emit : UInt8 → m Unit) (number weight : UInt64) : m Unit :=
  if weight = 0 then pure ()
  else do
    emit (48 + number / weight % 10).toUInt8
    digitLoop emit number (weight / 10)
termination_by weight.toNat
decreasing_by
  have hne : weight.toNat ≠ 0 := fun h => (by assumption : ¬weight = 0) (UInt64.toNat_inj.mp h)
  rw [UInt64.toNat_div]
  exact Nat.div_lt_self (Nat.pos_of_ne_zero hne) (by decide)

/-- `Console::print_uint64` -/
def Console.printUint64 (number : UInt64) (endChar : UInt8) : Console.Session Unit := do
  let weight := getDecimalWeight number
  Console.event .lock
  digitLoop Console.putc number weight
  Console.putc endChar
  Console.event .unlock

/-- `putc_buffer.put` -/
def bufferPut (c : UInt8) : Kernel Unit :=
  modifyGlobals fun g => { g with putcBuffer := g.putcBuffer.put c }

def chars (s : String) : List UInt8 := s.toList.map fun c => UInt8.ofNat c.toNat

def panicMessages : List String := [
  "KERNEL PANIC! ILLEGAL INSTRUCTION AT: ",
  "KERNEL PANIC! ILLEGAL READ OPERATION AT: ",
  "KERNEL PANIC! ILLEGAL WRITE OPERATION AT: "]

/-- What `k_handle_ecall` writes to the buffer after an exception, before it flushes the buffer and
stops. -/
def panicMessage (scause : Nat) (sepc : UInt64) : Kernel Unit := do
  (chars (panicMessages.getD ((scause - 2) / 2) "")).forM bufferPut
  digitLoop bufferPut sepc (getDecimalWeight sepc)
  bufferPut 10

/-! ### The weight -/

variable {number weight : UInt64} {k : Nat}

theorem mul_ten_toNat (hw : weight.toNat = 10 ^ k) :
    (weight * 10).toNat = 10 ^ (k + 1) % 2 ^ 64 := by
  rw [UInt64.toNat_mul, hw, show (10 : UInt64).toNat = 10 from rfl, ← Nat.pow_succ]

/-- The loop goes on as long as there is another digit, and the wrap of `weight * 10` ends it. -/
theorem decimalWeight_guard (hw : weight.toNat = 10 ^ k) (hk : k ≤ 19) :
    (weight * 10 ≤ number ∧ weight * 10 > weight) ↔ 10 ^ (k + 1) ≤ number.toNat := by
  rw [UInt64.le_iff_toNat_le, gt_iff_lt, UInt64.lt_iff_toNat_lt, mul_ten_toNat hw, hw]
  rcases Nat.lt_or_eq_of_le hk with hlt | rfl
  · have hpow : 10 ^ (k + 1) < 2 ^ 64 :=
      Nat.lt_of_le_of_lt (Nat.pow_le_pow_right (by decide) (show k + 1 ≤ 19 by omega)) (by decide)
    rw [Nat.mod_eq_of_lt hpow]
    exact ⟨And.left, fun h => ⟨h, Nat.pow_lt_pow_right (by decide) (Nat.lt_succ_self k)⟩⟩
  · have hnum := number.toNat_lt
    refine ⟨fun h => absurd h.2 (by decide), fun h => ?_⟩
    omega

theorem decimalWeightLoop_spec (hw : weight.toNat = 10 ^ k) (hk : k ≤ 19)
    (hle : 10 ^ k ≤ max number.toNat 1) : ∃ j, (decimalWeightLoop number weight).toNat = 10 ^ j ∧
      10 ^ j ≤ max number.toNat 1 ∧ number.toNat < 10 ^ (j + 1) := by
  fun_induction decimalWeightLoop number weight generalizing k with
  | case1 weight hguard ih =>
    have hnext := (decimalWeight_guard hw hk).mp hguard
    have hlt : 10 ^ (k + 1) < 10 ^ 20 :=
      Nat.lt_of_le_of_lt hnext (Nat.lt_trans number.toNat_lt (by decide))
    have hk' : k + 1 < 20 := (Nat.pow_lt_pow_iff_right (by decide)).mp hlt
    refine ih (k := k + 1) ?_ (by omega) (Nat.le_trans hnext (Nat.le_max_left _ _))
    rw [mul_ten_toNat hw, Nat.mod_eq_of_lt (Nat.lt_of_le_of_lt hnext number.toNat_lt)]
  | case2 weight hguard =>
    rw [decimalWeight_guard hw hk, Nat.not_le] at hguard
    exact ⟨k, hw, hle, hguard⟩

theorem getDecimalWeight_spec (number : UInt64) : ∃ k, (getDecimalWeight number).toNat = 10 ^ k ∧
    10 ^ k ≤ max number.toNat 1 ∧ number.toNat < 10 ^ (k + 1) :=
  decimalWeightLoop_spec (k := 0) rfl (by decide) (Nat.le_max_right _ _)

/-! ### The digits -/

/-- The character of a digit. -/
def digitChar (d : Nat) : UInt8 := UInt8.ofNat (48 + d)

/-- The digits of `n` from the one of weight `10 ^ k` on. -/
def digitsFrom (n : Nat) : Nat → List UInt8
  | 0 => [digitChar (n % 10)]
  | k + 1 => digitChar (n / 10 ^ (k + 1) % 10) :: digitsFrom n k

/-- A number in decimal. -/
def decimal (n : Nat) : List UInt8 := (Nat.toDigits 10 n).map fun c => UInt8.ofNat c.toNat

theorem digitsFrom_succ (n k : Nat) :
    digitsFrom n (k + 1) = digitsFrom (n / 10) k ++ [digitChar (n % 10)] := by
  induction k with
  | zero => simp [digitsFrom]
  | succ k ih =>
    rw [digitsFrom, ih, digitsFrom, List.cons_append, Nat.div_div_eq_div_mul, ← Nat.pow_succ']

theorem digitChar_eq {d : Nat} (hd : d < 10) : UInt8.ofNat d.digitChar.toNat = digitChar d := by
  rw [Nat.toNat_digitChar_of_lt_ten hd]
  rfl

/-- The digits from the first one on are the number in decimal. -/
theorem digitsFrom_eq_decimal {n : Nat} (hle : 10 ^ k ≤ max n 1) (hlt : n < 10 ^ (k + 1)) :
    digitsFrom n k = decimal n := by
  induction k generalizing n with
  | zero =>
    have hn : n < 10 := by simpa using hlt
    rw [digitsFrom, decimal, Nat.toDigits_of_lt_base hn, Nat.mod_eq_of_lt hn, List.map_singleton,
      digitChar_eq hn]
  | succ k ih =>
    have hten : 10 ≤ 10 ^ (k + 1) := Nat.le_self_pow (by simp) 10
    have hn : 10 ^ (k + 1) ≤ n := by omega
    have hlow : 10 ^ k ≤ n / 10 := (Nat.le_div_iff_mul_le (by decide)).mpr hn
    have hhigh : n / 10 < 10 ^ (k + 1) := (Nat.div_lt_iff_lt_mul (by decide)).mpr hlt
    rw [digitsFrom_succ, ih (Nat.le_trans hlow (Nat.le_max_left _ _)) hhigh, decimal, decimal,
      Nat.toDigits_of_base_le (by decide) (Nat.le_trans hten hn), List.map_append,
      List.map_singleton, digitChar_eq (Nat.mod_lt _ (by decide))]

theorem decimal_zero : decimal 0 = [48] := by
  rw [decimal, Nat.toDigits_zero]
  rfl

/-- The first digit of a number in decimal is not a zero. -/
theorem decimal_head {n : Nat} (hn : n ≠ 0) : (decimal n).head? ≠ some 48 := by
  induction n using Nat.strong_induction_on with
  | _ n ih =>
  by_cases hlt : n < 10
  · rw [decimal, Nat.toDigits_of_lt_base hlt, List.map_singleton, digitChar_eq hlt]
    intro hhead
    have hval := congrArg UInt8.toNat (Option.some.inj hhead)
    rw [digitChar, UInt8.toNat_ofNat'] at hval
    change (48 + n) % 2 ^ 8 = 48 at hval
    omega
  · have hdiv : n / 10 ≠ 0 := by omega
    have hrest := ih (n / 10) (by omega) hdiv
    rw [decimal, Nat.toDigits_of_base_le (by decide) (by omega), List.map_append, List.head?_append]
    cases hhead : (decimal (n / 10)).head? with
    | none =>
      rw [decimal, List.head?_eq_none_iff, List.map_eq_nil_iff] at hhead
      exact absurd hhead Nat.toDigits_ne_nil
    | some c =>
      rw [hhead] at hrest
      rw [decimal] at hhead
      rw [hhead]
      exact hrest

/-- The character that the loop emits. -/
theorem emitted (hw : weight.toNat = 10 ^ k) :
    (48 + number / weight % 10).toUInt8 = digitChar (number.toNat / 10 ^ k % 10) := by
  apply UInt8.toNat_inj.mp
  have hmod : number.toNat / 10 ^ k % 10 < 10 := Nat.mod_lt _ (by decide)
  rw [UInt64.toNat_toUInt8, UInt64.toNat_add, UInt64.toNat_mod, UInt64.toNat_div, hw, digitChar,
    UInt8.toNat_ofNat', show (48 : UInt64).toNat = 48 from rfl, show (10 : UInt64).toNat = 10 from rfl]
  omega

/-- The loop emits one digit after the other. -/
theorem digitLoop_eq {m : Type → Type} [Monad m] [LawfulMonad m] (emit : UInt8 → m Unit)
    (hw : weight.toNat = 10 ^ k) :
    digitLoop emit number weight = (digitsFrom number.toNat k).forM emit := by
  have hne {w : UInt64} {j : Nat} (hj : w.toNat = 10 ^ j) : w ≠ 0 := by
    rintro rfl
    exact absurd hj (Nat.pow_pos (by decide)).ne
  induction k generalizing weight with
  | zero =>
    have hstop : weight / 10 = 0 := by
      apply UInt64.toNat_inj.mp
      rw [UInt64.toNat_div, hw]
      decide
    rw [digitLoop, if_neg (hne hw), emitted hw, hstop, digitLoop, if_pos rfl]
    simp [digitsFrom]
  | succ k ih =>
    have hnext : (weight / 10).toNat = 10 ^ k := by
      rw [UInt64.toNat_div, hw, show (10 : UInt64).toNat = 10 from rfl, Nat.pow_succ,
        Nat.mul_div_cancel _ (by decide)]
    rw [digitLoop, if_neg (hne hw), emitted hw, ih hnext]
    rfl

theorem digitLoop_decimal {m : Type → Type} [Monad m] [LawfulMonad m] (emit : UInt8 → m Unit)
    (number : UInt64) : digitLoop emit number (getDecimalWeight number) =
      (decimal number.toNat).forM emit := by
  obtain ⟨k, hw, hle, hlt⟩ := getDecimalWeight_spec number
  rw [digitLoop_eq emit hw, digitsFrom_eq_decimal hle hlt]

/-! ### What is printed -/

theorem run_putc (xs : List UInt8) (m : Mem) (t : List Console.Event) :
    (xs.forM Console.putc).run m t = .done () m (t ++ xs.map .putc) := by
  rw [Prog.run_forM (u := fun t c => t ++ [.putc c]) fun _ _ => rfl]
  congr 1
  induction xs generalizing t with
  | nil => simp
  | cons c xs ih => simp [ih]

theorem run_bufferPut (xs : List UInt8) (m : Mem) (g : Globals) : (xs.forM bufferPut).run m g =
    .done () m { g with putcBuffer := xs.foldl Queue.put g.putcBuffer } := by
  rw [Prog.run_forM (u := fun g c => { g with putcBuffer := g.putcBuffer.put c }) fun _ _ => rfl]
  congr 1
  induction xs generalizing g with
  | nil => rfl
  | cons c xs ih => exact ih _

/-- A number is printed in decimal, and its weight is the largest power of ten up to it. -/
theorem decimal_printed (number : UInt64) :
    (∃ k, (getDecimalWeight number).toNat = 10 ^ k ∧ 10 ^ k ≤ max number.toNat 1 ∧
      ∀ j, 10 ^ j ≤ max number.toNat 1 → 10 ^ j ≤ 10 ^ k) ∧
    (∀ endChar m t, (Console.printUint64 number endChar).run m t = .done () m
      (t ++ .lock :: (decimal number.toNat).map .putc ++ [.putc endChar, .unlock])) ∧
    (∀ scause m g, (panicMessage scause number).run m g = .done () m { g with
      putcBuffer := (chars (panicMessages.getD ((scause - 2) / 2) "") ++ decimal number.toNat ++
        [10]).foldl Queue.put g.putcBuffer }) ∧
    (number = 0 → decimal number.toNat = [48]) ∧
    (number ≠ 0 → (decimal number.toNat).head? ≠ some 48) := by
  refine ⟨?_, fun endChar m t => ?_, fun scause m g => ?_, ?_, fun hne => decimal_head fun h0 =>
    hne (UInt64.toNat_inj.mp h0)⟩
  · obtain ⟨k, hw, hle, hlt⟩ := getDecimalWeight_spec number
    refine ⟨k, hw, hle, fun j hj => Nat.pow_le_pow_right (by decide) ?_⟩
    have hten : 1 < 10 ^ (k + 1) := Nat.one_lt_pow (by simp) (by decide)
    have hjk : 10 ^ j < 10 ^ (k + 1) := Nat.lt_of_le_of_lt hj (Nat.max_lt.mpr ⟨hlt, hten⟩)
    exact Nat.le_of_lt_succ ((Nat.pow_lt_pow_iff_right (by decide)).mp hjk)
  · have hlock : (Console.event .lock).run m t = .done () m (t ++ [.lock]) := rfl
    simp only [Console.printUint64, digitLoop_decimal, Prog.run_bind, hlock, run_putc]
    simp [Console.putc, Console.event, Prog.run]
  · simp only [panicMessage, digitLoop_decimal, Prog.run_bind, run_bufferPut]
    simp [bufferPut, modifyGlobals, Prog.run, List.foldl_append]
  · rintro rfl
    exact decimal_zero

end Os1Kernel
