import Os1Kernel.Threads.Memory
import Os1Kernel.Traps.Context

/-! The switch of `yield` as the kernel's data sees it, and as the code in assembly does it: the C++ code
uses only some words of a context, and these two agree on them. -/

namespace Os1Kernel.Assembly

open Memory Rv64

/-! ### Bytes -/

theorem load_byte {m : Mem} {a n y : Nat} (hlow : a ≤ y) (hhigh : y < a + n) :
    (m y).toNat = load m a n / 256 ^ (y - a) % 256 := by
  induction n generalizing a with
  | zero => omega
  | succ n ih =>
    have hb := (m a).toNat_lt
    rw [load]
    by_cases heq : y = a
    · rw [heq, Nat.sub_self, pow_zero, Nat.div_one]
      omega
    · rw [ih (a := a + 1) (by omega) (by omega), show y - a = y - (a + 1) + 1 by omega, pow_succ',
        ← Nat.div_div_eq_div_mul]
      congr 2
      omega

/-- Words that are the same have the same bytes. -/
theorem bytes_of_loadWord {m m' : Mem} {a y : Nat} (h : loadWord m' a = loadWord m a) (hlow : a ≤ y)
    (hhigh : y < a + 8) : m' y = m y := by
  have hload : load m' a 8 = load m a 8 := by
    have hlt := load_lt m a 8
    have hlt' := load_lt m' a 8
    have hnat := congrArg BitVec.toNat h
    rw [loadWord, loadWord, BitVec.toNat_ofNat, BitVec.toNat_ofNat] at hnat
    omega
  apply UInt8.toNat_inj.mp
  rw [load_byte hlow hhigh, load_byte hlow hhigh, hload]

theorem loadWord_toNat (m : Mem) (a : Nat) : (loadWord m a).toNat = load m a 8 := by
  have hlt := load_lt m a 8
  rw [loadWord, BitVec.toNat_ofNat]
  omega

/-! ### The two levels -/

/-- The bytes of the context at `c` that only the code in assembly reads. -/
def Registries (c y : Nat) : Prop :=
  (c + 0x08 ≤ y ∧ y < c + 0xf8) ∨ (c + 0x100 ≤ y ∧ y < c + 0x108)

/-- The hart has what the kernel's data says, but for the bytes `P` that C++ code does not read. -/
structure Mirrors (K : Symbols) (P : Nat → Prop) (m : Mem) (g : Globals) (h : Hart) : Prop where
  mem : ∀ y, ¬P y → h.mem y = m y
  current : loadWord h.mem K.kCurrentContext.toNat = BitVec.ofNat 64 g.kCurrentContext
  sstatus : (h.csr .sstatus).toNat = g.sstatus

/-- A `TCB` at `c`. -/
structure TcbAt (K : Symbols) (P : Nat → Prop) (c : Nat) : Prop where
  ne : c ≠ 0
  lt : c + sizeofTCB < 2 ^ 64
  registries : ∀ y, c ≤ y → y < c + sizeofTCB → (P y ↔ Registries c y)
  symbol : Apart c sizeofTCB K.kCurrentContext.toNat 8

/-- The registers in the call of `k_save_context`. -/
def saveReg (K : Symbols) (oldTcb : Nat) (before : Reg → Word) : Reg → Word :=
  Function.update (Function.update before .ra K.afterSave) .a0 (BitVec.ofNat 64 oldTcb)

/-- The hart after `k_save_context` in `yield`, which calls it with the registers `before`. -/
def saveHart (K : Symbols) (h : Hart) (oldTcb : Nat) (before : Reg → Word) : Hart :=
  Hart.run { h with reg := saveReg K oldTcb before } kSaveContext

/-- The hart after `k_restore_context`, which the rest of `yield` calls with the registers `after`. -/
def restoreHart (K : Symbols) (h : Hart) (newTcb : Nat) (after : Reg → Word) : Hart :=
  let reg := Function.update after .a0 (BitVec.ofNat 64 newTcb)
  let mem := h.mem.assign newTcb Field.status TCBStatus.running.code
  let mem := storeWord mem K.kCurrentContext.toNat (BitVec.ofNat 64 newTcb)
  Hart.run { h with reg, mem } kRestoreContext

section Yield

variable {L : Layout} {K : Symbols} {P : Nat → Prop} {m : Mem} {g : Globals} {h : Hart} {c t : Nat}

/-- A word of a context that C++ code reads is the same at both levels. -/
theorem Mirrors.word (hm : Mirrors K P m g h) (hc : TcbAt K P c) {o : Nat} (ho : o + 8 ≤ sizeofTCB)
    (hreg : ∀ y, c + o ≤ y → y < c + o + 8 → ¬Registries c y) :
    (loadWord h.mem (c + o)).toNat = load m (c + o) 8 := by
  rw [loadWord_toNat]
  refine load_congr fun y hlow hhigh => hm.mem y fun hP => ?_
  exact hreg y hlow hhigh ((hc.registries y (by omega) (by omega)).mp hP)

/-- `k_save_context` writes what `saveContext` says, and registers. -/
theorem Mirrors.save (hm : Mirrors K P m g h) (hc : TcbAt K P c) (hK : K.afterSave.toNat = L.inYield)
    (before : Reg → Word) : (saveHart K h c before).reg .a0 = 0 ∧
      Mirrors K P ((m.assign c Field.ra L.inYield).assign c Field.sstatus g.sstatus) g
        (saveHart K h c before) := by
  have hlt := hc.lt
  have hsize : sizeofTCB = 360 := rfl
  have ha0 : (BitVec.ofNat 64 c).toNat = c := by
    rw [BitVec.toNat_ofNat]
    omega
  have hbase : saveReg K c before .a0 = BitVec.ofNat 64 c := by rw [saveReg, Function.update_self]
  have hstow : Stowed { h with reg := saveReg K c before } (saveHart K h c before) c :=
    run_kSaveContext ((congrArg BitVec.toNat hbase).trans ha0) (by omega)
  generalize saveHart K h c before = h' at hstow
  have hra : loadWord h'.mem c = loadWord (m.assign c Field.ra L.inYield) c := by
    have hword := hstow.saved (.ra, 0x00) (by decide)
    change loadWord h'.mem c = saveReg K c before .ra at hword
    rw [saveReg, Function.update_of_ne (by decide), Function.update_self] at hword
    have hassign : m.assign c Field.ra L.inYield = storeWord m c K.afterSave := by
      rw [storeWord, hK]
      rfl
    rw [hassign, loadWord_storeWord_same]
    exact hword
  have hsstatus : loadWord h'.mem (c + 0x108) =
      loadWord ((m.assign c Field.ra L.inYield).assign c Field.sstatus g.sstatus) (c + 0x108) := by
    have hassign : (m.assign c Field.ra L.inYield).assign c Field.sstatus g.sstatus =
        storeWord (m.assign c Field.ra L.inYield) (c + 0x108) (h.csr .sstatus) := by
      rw [storeWord, hm.sstatus]
      rfl
    rw [hassign, loadWord_storeWord_same]
    exact hstow.sstatus
  refine ⟨hstow.a0, fun y hy => ?_, ?_, ?_⟩
  · have hout (hin : y < c ∨ (c + 8 ≤ y ∧ y < c + 0x108) ∨ c + 0x110 ≤ y) :
        (m.assign c Field.ra L.inYield).assign c Field.sstatus g.sstatus y = m y := by
      rw [Mem.assign, store_outside (by change y < c + 0x108 ∨ c + 0x108 + 8 ≤ y; omega), Mem.assign,
        store_outside (by change y < c + 0 ∨ c + 0 + 8 ≤ y; omega)]
    by_cases hin : c ≤ y ∧ y < c + 0x110
    · obtain ⟨hlow, hhigh⟩ := hin
      have hreg : ¬Registries c y := fun hr => hy ((hc.registries y hlow (by omega)).mpr hr)
      unfold Registries at hreg
      -- the words that C++ code reads: `ra`, `a0` and `sstatus`
      rcases (by omega : y < c + 8 ∨ (c + 0xf8 ≤ y ∧ y < c + 0x100) ∨ c + 0x108 ≤ y) with hr | hr | hr
      · rw [bytes_of_loadWord hra hlow hr]
        exact (store_outside (.inl (by change y < c + 0x108; omega))).symm
      · rw [hout (by omega), bytes_of_loadWord hstow.result hr.1 (by omega)]
        exact hm.mem y hy
      · exact bytes_of_loadWord hsstatus hr (by omega)
    · rw [hout (by omega), hstow.writes y (by simp only [List.mem_singleton, forall_eq]; omega)]
      exact hm.mem y hy
  · have hap := hc.symbol
    rw [← hm.current]
    apply hstow.writes.loadWord
    intro p hp
    rw [List.mem_singleton.mp hp]
    unfold Apart at hap ⊢
    omega
  · rw [hstow.csr]
    exact hm.sstatus

/-- The rest of `yield`. -/
theorem Mirrors.restore (hm : Mirrors K P m g h) (ht : TcbAt K P t)
    (hsymbol : ∀ y, K.kCurrentContext.toNat ≤ y → y < K.kCurrentContext.toNat + 8 → P y)
    (after : Reg → Word) :
    let m' := m.assign t Field.status TCBStatus.running.code
    Mirrors K P m' { g with kCurrentContext := t, sstatus := m'.field t Field.sstatus }
        (restoreHart K h t after) ∧
      ((restoreHart K h t after).reg .ra).toNat = m'.field t Field.ra ∧
      (restoreHart K h t after).reg .a0 ≠ 0 := by
  intro m'
  have hlt := ht.lt
  have hsize : sizeofTCB = 360 := rfl
  have hap := ht.symbol
  have ha0 : (BitVec.ofNat 64 t).toNat = t := by
    rw [BitVec.toNat_ofNat]
    omega
  let h' : Hart := { h with
    reg := Function.update after .a0 (BitVec.ofNat 64 t)
    mem := storeWord (h.mem.assign t Field.status TCBStatus.running.code) K.kCurrentContext.toNat
      (BitVec.ofNat 64 t) }
  have hm' : Mirrors K P m' { g with kCurrentContext := t } h' := by
    refine ⟨fun y hy => ?_, loadWord_storeWord_same _ _ _, hm.sstatus⟩
    have hy' : y < K.kCurrentContext.toNat ∨ K.kCurrentContext.toNat + 8 ≤ y := by
      by_contra hno
      exact hy (hsymbol y (by omega) (by omega))
    change storeWord _ _ _ y = _
    rw [storeWord_outside hy']
    change store h.mem _ _ _ y = store m _ _ _ y
    unfold store
    rw [hm.mem y hy]
  obtain ⟨v, hv⟩ := exists_saved contextSlots_nodup h'.mem t
  have hrest : Restored h' (restoreHart K h t after) t v :=
    run_kRestoreContext (by change (Function.update after .a0 _ .a0).toNat = t; rw [Function.update_self]; exact ha0)
      (by omega) hv
  have hwords : (loadWord h'.mem (t + 0x108)).toNat = m'.field t Field.sstatus ∧
      (loadWord h'.mem (t + 0)).toNat = m'.field t Field.ra := by
    constructor
    · exact hm'.word ht (by omega) fun y h1 h2 => by unfold Registries; omega
    · exact hm'.word ht (by omega) fun y h1 h2 => by unfold Registries; omega
  refine ⟨⟨fun y hy => ?_, ?_, ?_⟩, ?_, hrest.a0⟩
  · rw [hrest.mem]
    exact hm'.mem y hy
  · rw [hrest.mem]
    exact hm'.current
  · rw [hrest.sstatus]
    exact hwords.1
  · rw [hrest.reg .ra (by decide) (by decide), ← hwords.2]
    exact congrArg BitVec.toNat (hv (.ra, 0x00) (by decide)).symm

end Yield

/-! ### All threads -/

/-- What C++ code does not read: the registers in the contexts of the threads `T`, the variable
`k_current_context`, which the kernel's data has beside memory, and the kernel stacks. -/
def Hidden (K : Symbols) (T kstacks : Nat → Prop) (y : Nat) : Prop :=
  (∃ c, T c ∧ Registries c y) ∨
    (K.kCurrentContext.toNat ≤ y ∧ y < K.kCurrentContext.toNat + 8) ∨ kstacks y

/-- The `TCB`s of the threads lie apart from each other and from all that. -/
structure Spaced (K : Symbols) (T kstacks : Nat → Prop) : Prop where
  ne : ∀ c, T c → c ≠ 0
  lt : ∀ c, T c → c + sizeofTCB < 2 ^ 64
  apart : ∀ c t, T c → T t → c ≠ t → Apart c sizeofTCB t sizeofTCB
  symbol : ∀ c, T c → Apart c sizeofTCB K.kCurrentContext.toNat 8
  stack : ∀ c y, T c → c ≤ y → y < c + sizeofTCB → ¬kstacks y

section Threads

variable {L : Layout} {K : Symbols} {T kstacks : Nat → Prop} {m : Mem} {g : Globals} {h : Hart} {c t : Nat}

theorem Spaced.tcb (hs : Spaced K T kstacks) (hc : T c) : TcbAt K (Hidden K T kstacks) c := by
  refine ⟨hs.ne c hc, hs.lt c hc, fun y hlow hhigh => ⟨?_, fun hr => .inl ⟨c, hc, hr⟩⟩, hs.symbol c hc⟩
  rintro (⟨d, hd, hr⟩ | hy | hy)
  · by_cases heq : d = c
    · rwa [heq] at hr
    · have hap := hs.apart d c hd hc heq
      have hsize : sizeofTCB = 360 := rfl
      unfold Registries at hr
      unfold Apart at hap
      omega
  · have hap := hs.symbol c hc
    unfold Apart at hap
    omega
  · exact absurd hy (hs.stack c y hc hlow hhigh)

/-- The code in assembly and the kernel's data agree on a switch: on what C++ code reads of memory, on
`sstatus`, on the two returns of `k_save_context`, and on where the hart goes on. -/
theorem yield_code (hs : Spaced K T kstacks) (hK : K.afterSave.toNat = L.inYield)
    (hm : Mirrors K (Hidden K T kstacks) m g h) (hc : T c) (ht : T t) (hcur : g.currentTcb = t)
    (before after : Reg → Word) :
    let h₁ := saveHart K h c before
    let h₂ := restoreHart K h₁ t after
    ∃ ra k m' g', (yield L c t).run m g = .suspended ⟨c, t, ra⟩ k m' g' ∧
      Mirrors K (Hidden K T kstacks) m' g' h₂ ∧ h₁.reg .a0 = 0 ∧ (h₂.reg .ra).toNat = ra ∧ h₂.reg .a0 ≠ 0 := by
  intro h₁ h₂
  have hold := hs.tcb hc
  have hnew := hs.tcb ht
  obtain ⟨hzero, hsave⟩ := hm.save hold hK before
  obtain ⟨hrest, hra, ha0⟩ := hsave.restore hnew (fun y hlow hhigh => .inr (.inl ⟨hlow, hhigh⟩)) after
  suffices hrun : ∃ k, (yield L c t).run m g = .suspended ⟨c, t, _⟩ k _ _ by
    obtain ⟨k, hrun⟩ := hrun
    exact ⟨_, k, _, _, hrun, hrest, hzero, hra, ha0⟩
  simp only [yield, if_pos hold.ne, if_pos hnew.ne, saveContext, restoreContext, Prog.run_bind,
    run_wr hold.ne, run_wr hnew.ne, run_rd hnew.ne, run_globals, run_modifyGlobals, hcur]
  exact ⟨_, rfl⟩

/-- Two threads of the image that `bootImage` describes. -/
def twoSymbols : Symbols where
  kCurrentContext := 16
  kTcbStart := 512
  kTcbRunWrapper := 600
  afterSave := 520
  distinct := by decide

def twoTcbs (c : Nat) : Prop := c = 1000 ∨ c = 2000

def twoStacks (y : Nat) : Prop := 4096 ≤ y ∧ y < 4096 + 2 * defaultStackSize

theorem spaced_two : Spaced twoSymbols twoTcbs twoStacks where
  ne c hc := by
    rcases hc with rfl | rfl <;> decide
  lt c hc := by
    rcases hc with rfl | rfl <;> decide
  apart c t hc ht hne := by
    rcases hc with rfl | rfl <;> rcases ht with rfl | rfl
    · exact absurd rfl hne
    · exact .inl (by decide)
    · exact .inr (by decide)
    · exact absurd rfl hne
  symbol c hc := by
    rcases hc with rfl | rfl <;> exact .inr (by decide)
  stack c y hc hlow hhigh hy := by
    have hsize : sizeofTCB = 360 := rfl
    unfold twoStacks at hy
    rcases hc with rfl | rfl <;> omega

/-- The first thread gives way to the second. -/
theorem yield_code_two :
    let h : Hart :=
      ⟨fun _ => 0, fun _ => 0, storeWord (fun _ => 0) twoSymbols.kCurrentContext.toNat (BitVec.ofNat 64 1000)⟩
    let g := { Globals.image 2000 0 with kCurrentContext := 1000 }
    let h₁ := saveHart twoSymbols h 1000 fun _ => 1
    let h₂ := restoreHart twoSymbols h₁ 2000 fun _ => 2
    ∃ ra k m' g', (yield bootImage 1000 2000).run (fun _ => 0) g = .suspended ⟨1000, 2000, ra⟩ k m' g' ∧
      Mirrors twoSymbols (Hidden twoSymbols twoTcbs twoStacks) m' g' h₂ ∧ h₁.reg .a0 = 0 ∧
      (h₂.reg .ra).toNat = ra ∧ h₂.reg .a0 ≠ 0 := by
  intro h g
  have hm : Mirrors twoSymbols (Hidden twoSymbols twoTcbs twoStacks) (fun _ => 0) g h := by
    constructor
    · intro y hy
      apply storeWord_outside
      by_contra hno
      apply hy
      exact .inr (.inl (by omega))
    · exact loadWord_storeWord_same _ _ _
    · rfl
  exact yield_code spaced_two rfl hm (.inl rfl) (.inr rfl) rfl (fun _ => 1) fun _ => 2

/-- After an environment call the thread has in `a0` what the kernel's data has in its context. -/
theorem ecallReturn_code (hs : Spaced K T kstacks) (hm : Mirrors K (Hidden K T kstacks) m g h)
    (hc : T g.kCurrentContext) {top : Nat} {v : Reg → Word} (htop : 240 ≤ top) (hlt : top < 2 ^ 64)
    (hsp : (h.reg .sp).toNat = top - 240) (hv : Saved h.mem (top - 240) cpuRegistries v) :
    let h' := h.run (trapExit K true)
    ∃ g', ecallReturn.run m g = .done () m g' ∧ Mirrors K (Hidden K T kstacks) m g' h' ∧
      g'.trace = g.trace ++ [.ecallReturned g.currentTcb (h'.reg .a0).toNat] ∧
      ∀ r, r ≠ .zero → r ≠ .sp → r ≠ .a0 → h'.reg r = v r := by
  intro h'
  have htcb := hs.tcb hc
  have hfits := htcb.lt
  have hsize : sizeofTCB = 360 := rfl
  have hctx : (BitVec.ofNat 64 g.kCurrentContext).toNat = g.kCurrentContext := by
    rw [BitVec.toNat_ofNat]
    omega
  have hexit : Exited h h' g.kCurrentContext top true v :=
    run_trapExit hm.current hctx (by omega) htop hlt hsp hv
  have ha0 : (h'.reg .a0).toNat = m.field g.kCurrentContext Field.a0 := by
    rw [hexit.a0 rfl]
    exact hm.word htcb (by omega) fun y h1 h2 => by unfold Registries; omega
  have hword {y : Nat} (hy : g.kCurrentContext + 0x10 ≤ y ∧ y < g.kCurrentContext + 0x18) :
      Hidden K T kstacks y := .inl ⟨_, hc, .inl (by omega)⟩
  refine ⟨{ g with trace := g.trace ++ [.ecallReturned g.currentTcb (h'.reg .a0).toNat] }, ?_,
    ⟨fun y hy => ?_, ?_, ?_⟩, rfl, fun r hz hr h0 => hexit.reg r hz hr fun _ => h0⟩
  · rw [ha0]
    simp only [ecallReturn, Prog.run_bind, run_globals, run_rd htcb.ne]
    rfl
  · have hout : ¬(g.kCurrentContext + 0x10 ≤ y ∧ y < g.kCurrentContext + 0x18) := fun hin => hy (hword hin)
    rw [hexit.writes y (by simp only [List.mem_singleton, forall_eq]; omega)]
    exact hm.mem y hy
  · have hap := htcb.symbol
    rw [← hm.current]
    apply hexit.writes.loadWord
    intro p hp
    rw [List.mem_singleton.mp hp]
    unfold Apart at hap ⊢
    omega
  · rw [hexit.csr .sstatus (by decide)]
    exact hm.sstatus

end Threads

end Os1Kernel.Assembly
