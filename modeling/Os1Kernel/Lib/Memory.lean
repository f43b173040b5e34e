import Mathlib.Tactic.Ring
import Mathlib.Data.Nat.Basic

/-! Memory as bytes, and memory as the fields of objects.  A program reads and writes the fields of
objects at addresses.  `Mem` holds them as little-endian bytes, so fields of different objects may
overlap; `View` holds a number for every field of every address, and nothing overlaps.  On a set of
cells that are apart in memory the two behave alike, and `Sim` says that they hold the same. -/

namespace Memory

/-- Byte-addressed memory. -/
abbrev Mem := Nat → UInt8

/-- The `n` bytes from `a` on, as a little-endian number. -/
def load (m : Mem) (a : Nat) : Nat → Nat
  | 0 => 0
  | n + 1 => (m a).toNat + 256 * load m (a + 1) n

/-- `v`, modulo `256 ^ n`, in the `n` bytes from `a` on. -/
def store (m : Mem) (a n v : Nat) : Mem :=
  fun x => if a ≤ x ∧ x < a + n then UInt8.ofNat (v / 256 ^ (x - a)) else m x

theorem store_outside {m : Mem} {a n v x : Nat} (h : x < a ∨ a + n ≤ x) : store m a n v x = m x := by
  rw [store, if_neg (by omega)]

theorem load_congr {m m' : Mem} {a n : Nat} (h : ∀ x, a ≤ x → x < a + n → m' x = m x) :
    load m' a n = load m a n := by
  induction n generalizing a with
  | zero => rfl
  | succ n ih =>
    rw [load, load, h a (by omega) (by omega), ih fun x hx hx' => h x (by omega) (by omega)]

theorem load_lt (m : Mem) (a n : Nat) : load m a n < 256 ^ n := by
  induction n generalizing a with
  | zero => simp [load]
  | succ n ih =>
    have hb := (m a).toNat_lt
    have := ih (a + 1)
    rw [load, pow_succ]
    omega

/-- The bytes of `v`, read back from anywhere inside the range they were stored in. -/
theorem load_store_within (m : Mem) (a n v k j : Nat) (h : k + j = n) :
    load (store m a n v) (a + j) k = v / 256 ^ j % 256 ^ k := by
  induction k generalizing j with
  | zero => simp [load, Nat.mod_one]
  | succ k ih =>
    have hin : a ≤ a + j ∧ a + j < a + n := by omega
    rw [load, show a + j + 1 = a + (j + 1) by omega, ih (j + 1) (by omega), store, if_pos hin,
      UInt8.toNat_ofNat', show a + j - a = j by omega, pow_succ 256 j, ← Nat.div_div_eq_div_mul,
      pow_succ 256 k, Nat.mul_comm (256 ^ k) 256, Nat.mod_mul]

theorem load_store_same (m : Mem) (a n v : Nat) : load (store m a n v) a n = v % 256 ^ n := by
  simpa using load_store_within m a n v n 0 (by omega)

/-- The byte ranges `[a, a + n)` and `[b, b + k)` do not meet. -/
def Apart (a n b k : Nat) : Prop := a + n ≤ b ∨ b + k ≤ a

theorem Apart.symm {a n b k : Nat} (h : Apart a n b k) : Apart b k a n := Or.symm h

/-- Ranges inside ranges that do not meet do not meet. -/
theorem Apart.within {a n b k a' n' b' k' : Nat} (h : Apart a n b k) (ha : a ≤ a')
    (hn : a' + n' ≤ a + n) (hb : b ≤ b') (hk : b' + k' ≤ b + k) : Apart a' n' b' k' := by
  unfold Apart at *; omega

theorem load_store_apart {m : Mem} {a n v b k : Nat} (h : Apart a n b k) :
    load (store m a n v) b k = load m b k :=
  load_congr fun x hx hx' => store_outside (by unfold Apart at h; omega)

/-- Where the fields of an object lie, from its address on. -/
class FieldLayout (F : Type) where
  offset : F → Nat
  size : F → Nat

export FieldLayout (offset size)

section Fields

variable {F : Type} [FieldLayout F]

/-- Field `f` of the object at `a`. -/
def Mem.field (m : Mem) (a : Nat) (f : F) : Nat := load m (a + offset f) (size f)

/-- `x`, modulo the size of the field, in field `f` of the object at `a`. -/
def Mem.assign (m : Mem) (a : Nat) (f : F) (x : Nat) : Mem := store m (a + offset f) (size f) x

/-- A number for each field of the object at each address. -/
abbrev View (F : Type) := Nat → F → Nat

/-- The view with `x`, modulo the size of the field, in field `f` of the object at `a`. -/
def View.set [DecidableEq F] (v : View F) (a : Nat) (f : F) (x : Nat) : View F :=
  fun b g => if b = a ∧ g = f then x % 256 ^ size f else v b g

/-- What memory holds in the fields of objects. -/
def Mem.view (m : Mem) : View F := fun a f => m.field a f

namespace View

variable [DecidableEq F] {v : View F} {a b : Nat} {f g : F} {x : Nat}

theorem set_apply : v.set a f x b g = if b = a ∧ g = f then x % 256 ^ size f else v b g := rfl

@[simp] theorem set_same : v.set a f x a f = x % 256 ^ size f := by
  simp [set_apply]

theorem set_addr_ne (h : b ≠ a) : v.set a f x b g = v b g := by
  simp [set_apply, h]

theorem set_field_ne (h : g ≠ f) : v.set a f x b g = v b g := by
  simp [set_apply, h]

end View

/-- The cells `O`, pairs of an address and a field, are apart in memory, and none is at the null
pointer. -/
structure Separate (O : Nat → F → Prop) : Prop where
  apart : ∀ a f b g, O a f → O b g → ¬(b = a ∧ g = f) →
    Apart (a + offset f) (size f) (b + offset g) (size g)
  nonnull : ∀ f, ¬O 0 f

/-- `m` holds in the cells `O` what `v` does. -/
def Sim (O : Nat → F → Prop) (m : Mem) (v : View F) : Prop :=
  ∀ a f, O a f → m.field a f = v a f

/-- `m'` differs from `m` only inside the cells `O`. -/
def Frame (O : Nat → F → Prop) (m m' : Mem) : Prop :=
  ∀ x, (∀ a f, O a f → x < a + offset f ∨ a + offset f + size f ≤ x) → m' x = m x

theorem Frame.refl (O : Nat → F → Prop) (m : Mem) : Frame O m m := fun _ _ => rfl

theorem Frame.trans {O : Nat → F → Prop} {m m' m'' : Mem} (h : Frame O m m') (h' : Frame O m' m'') :
    Frame O m m'' :=
  fun x hx => (h' x hx).trans (h x hx)

theorem Frame.mono {O O' : Nat → F → Prop} {m m' : Mem} (h : Frame O m m')
    (hO : ∀ a f, O a f → O' a f) : Frame O' m m' :=
  fun x hx => h x fun a f ha => hx a f (hO a f ha)

theorem Frame.assign {O : Nat → F → Prop} {a : Nat} {f : F} (ha : O a f) (m : Mem) (x : Nat) :
    Frame O m (m.assign a f x) :=
  fun _ hy => store_outside (hy a f ha)

namespace Sim

variable {O O' : Nat → F → Prop} {m m' : Mem} {v v' : View F}

theorem self (O : Nat → F → Prop) (m : Mem) : Sim O m m.view := fun _ _ _ => rfl

theorem lt (h : Sim O m v) {a : Nat} {f : F} (ha : O a f) : v a f < 256 ^ size f := by
  rw [← h a f ha]
  exact load_lt m _ _

theorem mono (h : Sim O m v) (hO : ∀ a f, O' a f → O a f) : Sim O' m v :=
  fun a f ha => h a f (hO a f ha)

/-- What other code does to memory between the cells does not matter. -/
theorem frame (h : Sim O m v)
    (hm : ∀ a f, O a f → ∀ x, a + offset f ≤ x → x < a + offset f + size f → m' x = m x) :
    Sim O m' v :=
  fun a f ha => (load_congr (hm a f ha)).trans (h a f ha)

/-- A view for more cells: the new ones hold what memory does. -/
theorem extend (h : Sim O m v) (hO : ∀ a f, O' a f → O a f ∨ v' a f = m.field a f)
    (hv : ∀ a f, O a f → O' a f → v' a f = v a f) : Sim O' m v' := by
  intro a f ha
  rcases hO a f ha with ho | hn
  · rw [h a f ho, hv a f ho ha]
  · exact hn.symm

theorem assign [DecidableEq F] (h : Sim O m v) (sep : Separate O) {a : Nat} {f : F} (ha : O a f)
    (x : Nat) : Sim O (m.assign a f x) (v.set a f x) := by
  intro b g hb
  by_cases heq : b = a ∧ g = f
  · obtain ⟨rfl, rfl⟩ := heq
    simpa [Mem.field, Mem.assign] using load_store_same m _ _ x
  · rw [View.set_apply, if_neg heq, ← h b g hb]
    exact load_store_apart (sep.apart a f b g ha hb heq)

end Sim

end Fields

end Memory
