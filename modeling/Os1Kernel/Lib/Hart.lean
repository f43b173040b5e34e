import Mathlib.Data.List.Nodup
import Mathlib.Logic.Function.Basic
import Os1Kernel.Lib.Memory

/-! Straight-line code of RV64: the registers, the control and status registers that trap handlers use,
and memory.  Code that spills registers to memory and fills them again is a list of instructions made
from a list of slots; what it does is proved once for all lists. -/

namespace Rv64

open Memory

abbrev Word := BitVec 64

inductive Reg
  | zero | ra | sp | gp | tp
  | t0 | t1 | t2 | t3 | t4 | t5 | t6
  | s0 | s1 | s2 | s3 | s4 | s5 | s6 | s7 | s8 | s9 | s10 | s11
  | a0 | a1 | a2 | a3 | a4 | a5 | a6 | a7
  deriving DecidableEq, Repr

inductive Csr
  | sepc | sstatus | sscratch
  deriving DecidableEq, Repr

structure Hart where
  reg : Reg → Word
  csr : Csr → Word
  mem : Mem

/-- Instructions that go on to the next one.  The operand of `lds` and `la` is the address of a
symbol. -/
inductive Instr
  | sd (rs : Reg) (offset : Nat) (base : Reg)
  | ld (rd : Reg) (offset : Nat) (base : Reg)
  | lds (rd : Reg) (symbol : Word)
  | la (rd : Reg) (symbol : Word)
  | lui (rd : Reg) (imm : Nat)
  | addi (rd rs : Reg) (imm : Int)
  | csrr (rd : Reg) (csr : Csr)
  | csrw (csr : Csr) (rs : Reg)
  deriving DecidableEq, Repr

/-! ### Words in memory -/

def loadWord (m : Mem) (a : Nat) : Word := BitVec.ofNat 64 (load m a 8)

def storeWord (m : Mem) (a : Nat) (x : Word) : Mem := store m a 8 x.toNat

/-- The address at the offset `o` from `x`. -/
def address (x : Word) (o : Nat) : Nat := (x + BitVec.ofNat 64 o).toNat

theorem address_eq {x : Word} {o : Nat} (h : x.toNat + o < 2 ^ 64) : address x o = x.toNat + o := by
  rw [address, BitVec.toNat_add, BitVec.toNat_ofNat]
  omega

@[simp] theorem loadWord_storeWord_same (m : Mem) (a : Nat) (x : Word) :
    loadWord (storeWord m a x) a = x := by
  apply BitVec.eq_of_toNat_eq
  have hx := x.isLt
  rw [loadWord, storeWord, load_store_same, BitVec.toNat_ofNat]
  omega

theorem loadWord_congr {m m' : Mem} {a : Nat} (h : ∀ y, a ≤ y → y < a + 8 → m' y = m y) :
    loadWord m' a = loadWord m a := by
  rw [loadWord, loadWord, load_congr h]

theorem storeWord_outside {m : Mem} {a y : Nat} {x : Word} (h : y < a ∨ a + 8 ≤ y) :
    storeWord m a x y = m y := store_outside h

theorem loadWord_storeWord_apart {m : Mem} {a b : Nat} {x : Word} (h : Apart a 8 b 8) :
    loadWord (storeWord m a x) b = loadWord m b := by
  rw [loadWord, storeWord, load_store_apart h, loadWord]

/-! ### Areas -/

/-- `m'` differs from `m` only inside the areas, pairs of an address and a size. -/
def Writes (areas : List (Nat × Nat)) (m m' : Mem) : Prop :=
  ∀ y, (∀ p ∈ areas, y < p.1 ∨ p.1 + p.2 ≤ y) → m' y = m y

namespace Writes

variable {areas areas' : List (Nat × Nat)} {m m' m'' : Mem} {a n : Nat}

theorem refl (areas : List (Nat × Nat)) (m : Mem) : Writes areas m m := fun _ _ => rfl

theorem trans (h : Writes areas m m') (h' : Writes areas m' m'') : Writes areas m m'' :=
  fun y hy => (h' y hy).trans (h y hy)

/-- Areas inside other areas. -/
theorem mono (h : Writes areas m m')
    (hin : ∀ p ∈ areas, ∃ q ∈ areas', q.1 ≤ p.1 ∧ p.1 + p.2 ≤ q.1 + q.2) : Writes areas' m m' := by
  refine fun y hy => h y fun p hp => ?_
  obtain ⟨q, hq, hlow, hhigh⟩ := hin p hp
  have := hy q hq
  omega

theorem storeWord (m : Mem) (a : Nat) (x : Word) : Writes [(a, 8)] m (Rv64.storeWord m a x) :=
  fun _ hy => storeWord_outside (hy _ List.mem_cons_self)

/-- What lies apart from the areas is as before. -/
theorem same (h : Writes areas m m') (hap : ∀ p ∈ areas, Apart a n p.1 p.2) :
    ∀ y, a ≤ y → y < a + n → m' y = m y := by
  refine fun y hlow hhigh => h y fun p hp => ?_
  have := hap p hp
  unfold Apart at this
  omega

theorem loadWord (h : Writes areas m m') (hap : ∀ p ∈ areas, Apart a 8 p.1 p.2) :
    Rv64.loadWord m' a = Rv64.loadWord m a := loadWord_congr (h.same hap)

end Writes

/-! ### Execution -/

namespace Hart

def setReg (h : Hart) (rd : Reg) (x : Word) : Hart :=
  if rd = .zero then h else { h with reg := Function.update h.reg rd x }

def setCsr (h : Hart) (c : Csr) (x : Word) : Hart := { h with csr := Function.update h.csr c x }

def exec (h : Hart) : Instr → Hart
  | .sd rs o base => { h with mem := storeWord h.mem (address (h.reg base) o) (h.reg rs) }
  | .ld rd o base => h.setReg rd (loadWord h.mem (address (h.reg base) o))
  | .lds rd s => h.setReg rd (loadWord h.mem s.toNat)
  | .la rd s => h.setReg rd s
  | .lui rd imm => h.setReg rd (BitVec.ofNat 64 (imm * 2 ^ 12))
  | .addi rd rs imm => h.setReg rd (h.reg rs + BitVec.ofInt 64 imm)
  | .csrr rd c => h.setReg rd (h.csr c)
  | .csrw c rs => h.setCsr c (h.reg rs)

def run (h : Hart) (code : List Instr) : Hart := code.foldl exec h

variable {h : Hart} {code code' : List Instr} {i : Instr} {r rd : Reg} {x : Word} {c : Csr}

@[simp] theorem run_nil : h.run [] = h := rfl

@[simp] theorem run_cons : h.run (i :: code) = (h.exec i).run code := rfl

theorem run_append : h.run (code ++ code') = (h.run code).run code' := List.foldl_append ..

@[simp] theorem setReg_mem : (h.setReg rd x).mem = h.mem := by
  unfold setReg
  split <;> rfl

@[simp] theorem setReg_csr : (h.setReg rd x).csr = h.csr := by
  unfold setReg
  split <;> rfl

theorem setReg_same (hr : rd ≠ .zero) : (h.setReg rd x).reg rd = x := by
  rw [setReg, if_neg hr]
  exact Function.update_self ..

theorem setReg_ne (hr : r ≠ rd) : (h.setReg rd x).reg r = h.reg r := by
  unfold setReg
  split
  · rfl
  · exact Function.update_of_ne hr _ _

@[simp] theorem setCsr_mem : (h.setCsr c x).mem = h.mem := rfl

@[simp] theorem setCsr_reg : (h.setCsr c x).reg = h.reg := rfl

end Hart

/-! ### Spilling and filling -/

/-- A register and the offset of its word from the base of the area. -/
abbrev Slot := Reg × Nat

def spill (base : Reg) (slots : List Slot) : List Instr := slots.map fun s => .sd s.1 s.2 base

def fill (base : Reg) (slots : List Slot) : List Instr := slots.map fun s => .ld s.1 s.2 base

/-- The words of different slots do not overlap, and lie inside the first `size` bytes. -/
def Fits (size : Nat) (slots : List Slot) : Prop :=
  (slots.Pairwise fun s t => s.2 + 8 ≤ t.2 ∨ t.2 + 8 ≤ s.2) ∧ ∀ s ∈ slots, s.2 + 8 ≤ size

instance (size : Nat) (slots : List Slot) : Decidable (Fits size slots) :=
  inferInstanceAs (Decidable (_ ∧ _))

/-- The area at `a` holds the values `v` of the registers of the slots. -/
def Saved (m : Mem) (a : Nat) (slots : List Slot) (v : Reg → Word) : Prop :=
  ∀ s ∈ slots, loadWord m (a + s.2) = v s.1

theorem Saved.congr {m m' : Mem} {a size : Nat} {slots : List Slot} {v : Reg → Word}
    (h : Saved m a slots v) (hfit : Fits size slots)
    (hm : ∀ y, a ≤ y → y < a + size → m' y = m y) : Saved m' a slots v := by
  intro s hs
  have hin := hfit.2 s hs
  rw [loadWord_congr fun y h1 h2 => hm y (by omega) (by omega)]
  exact h s hs

/-- Whatever the area holds, it holds values of the registers. -/
theorem exists_saved {slots : List Slot} (hnd : (slots.map Prod.fst).Nodup) (m : Mem) (a : Nat) :
    ∃ v, Saved m a slots v := by
  induction slots with
  | nil => exact ⟨fun _ => 0, fun s hs => absurd hs List.not_mem_nil⟩
  | cons s slots ih =>
    rw [List.map_cons, List.nodup_cons] at hnd
    obtain ⟨v, hv⟩ := ih hnd.2
    refine ⟨Function.update v s.1 (loadWord m (a + s.2)), fun t ht => ?_⟩
    rcases List.mem_cons.mp ht with rfl | ht
    · rw [Function.update_self]
    · have hne : t.1 ≠ s.1 := by
        intro heq
        apply hnd.1
        rw [← heq]
        exact List.mem_map_of_mem ht
      rw [Function.update_of_ne hne]
      exact hv t ht

section Spill

variable {h : Hart} {base : Reg} {slots : List Slot} {size : Nat}

theorem spill_cons (s : Slot) (slots : List Slot) :
    spill base (s :: slots) = .sd s.1 s.2 base :: spill base slots := rfl

/-- Spilling changes the words of the slots and nothing else. -/
theorem run_spill (hfit : Fits size slots) (hwrap : (h.reg base).toNat + size < 2 ^ 64) :
    (h.run (spill base slots)).reg = h.reg ∧ (h.run (spill base slots)).csr = h.csr ∧
      Saved (h.run (spill base slots)).mem (h.reg base).toNat slots h.reg ∧
      ∀ y, (∀ s ∈ slots, y < (h.reg base).toNat + s.2 ∨ (h.reg base).toNat + s.2 + 8 ≤ y) →
        (h.run (spill base slots)).mem y = h.mem y := by
  induction slots generalizing h with
  | nil => exact ⟨rfl, rfl, fun s hs => absurd hs List.not_mem_nil, fun _ _ => rfl⟩
  | cons s slots ih =>
    obtain ⟨hpair, hsize⟩ := hfit
    rw [List.pairwise_cons] at hpair
    have hs := hsize s List.mem_cons_self
    have haddr : address (h.reg base) s.2 = (h.reg base).toNat + s.2 := address_eq (by omega)
    obtain ⟨hreg, hcsr, hsaved, hframe⟩ := ih (h := h.exec (.sd s.1 s.2 base))
      ⟨hpair.2, fun t ht => hsize t (List.mem_cons_of_mem _ ht)⟩ hwrap
    have hbase : (h.exec (.sd s.1 s.2 base)).reg = h.reg := rfl
    rw [hbase] at hreg hsaved hframe
    have hmem : (h.exec (.sd s.1 s.2 base)).mem =
        storeWord h.mem ((h.reg base).toNat + s.2) (h.reg s.1) := by
      rw [← haddr]
      rfl
    rw [spill_cons, Hart.run_cons]
    refine ⟨hreg, hcsr, fun t ht => ?_, fun y hy => ?_⟩
    · rcases List.mem_cons.mp ht with rfl | ht
      · -- the word that has just been stored is in none of the other slots
        rw [loadWord_congr (m := (h.exec (.sd t.1 t.2 base)).mem) fun y h1 h2 =>
          hframe y fun u hu => by have := hpair.1 u hu; omega]
        rw [hmem, loadWord_storeWord_same]
      · exact hsaved t ht
    · have hother := hy s List.mem_cons_self
      rw [hframe y fun t ht => hy t (List.mem_cons_of_mem _ ht), hmem]
      exact storeWord_outside hother

end Spill

section Fill

variable {h : Hart} {base : Reg} {slots : List Slot} {size a : Nat} {v : Reg → Word}

theorem fill_cons (s : Slot) (slots : List Slot) :
    fill base (s :: slots) = .ld s.1 s.2 base :: fill base slots := rfl

/-- Filling gives the registers of the slots the values that the area holds. -/
theorem run_fill (hfit : Fits size slots) (ha : (h.reg base).toNat = a) (hwrap : a + size < 2 ^ 64)
    (hnd : (slots.map Prod.fst).Nodup) (hbase : base ∉ slots.map Prod.fst)
    (hzero : .zero ∉ slots.map Prod.fst) (hv : Saved h.mem a slots v) :
    (h.run (fill base slots)).mem = h.mem ∧ (h.run (fill base slots)).csr = h.csr ∧
      (∀ r ∈ slots.map Prod.fst, (h.run (fill base slots)).reg r = v r) ∧
      ∀ r, r ∉ slots.map Prod.fst → (h.run (fill base slots)).reg r = h.reg r := by
  induction slots generalizing h with
  | nil => exact ⟨rfl, rfl, fun r hr => absurd hr List.not_mem_nil, fun _ _ => rfl⟩
  | cons s slots ih =>
    obtain ⟨hpair, hsize⟩ := hfit
    rw [List.pairwise_cons] at hpair
    rw [List.map_cons, List.nodup_cons] at hnd
    rw [List.map_cons, List.mem_cons, not_or] at hbase hzero
    have hs := hsize s List.mem_cons_self
    have haddr : address (h.reg base) s.2 = a + s.2 := by
      rw [address_eq (by omega), ha]
    have hexec : h.exec (.ld s.1 s.2 base) = h.setReg s.1 (v s.1) := by
      rw [← hv s List.mem_cons_self, ← haddr]
      rfl
    have hsaved : Saved (h.setReg s.1 (v s.1)).mem a slots v := by
      rw [Hart.setReg_mem]
      exact fun t ht => hv t (List.mem_cons_of_mem _ ht)
    obtain ⟨hmem, hcsr, hin, hout⟩ := ih (h := h.setReg s.1 (v s.1))
      ⟨hpair.2, fun t ht => hsize t (List.mem_cons_of_mem _ ht)⟩
      (by rw [Hart.setReg_ne hbase.1]; exact ha) hnd.2 hbase.2 hzero.2 hsaved
    rw [fill_cons, Hart.run_cons, hexec]
    refine ⟨hmem.trans Hart.setReg_mem, hcsr.trans Hart.setReg_csr, fun r hr => ?_, fun r hr => ?_⟩
    · rw [List.map_cons, List.mem_cons] at hr
      by_cases hlater : r ∈ slots.map Prod.fst
      · exact hin r hlater
      · obtain rfl := hr.resolve_right hlater
        rw [hout _ hlater]
        exact Hart.setReg_same (Ne.symm hzero.1)
    · rw [List.map_cons, List.mem_cons, not_or] at hr
      rw [hout r hr.2]
      exact Hart.setReg_ne hr.1

end Fill

end Rv64
