import Os1Kernel.Source.Assembly
import Os1Kernel.Source.TrapHandlers

/-! The hart as the threads share it.  A thread runs its own code until a trap; the code in assembly
moves to its kernel stack, the handler runs there and may switch to another thread, and `sret` ends the
trap.  Handlers are compiled code: what they may do to registers and memory is what the convention for
calls and the allocator allow. -/

namespace Os1Kernel.Harts

open Memory Rv64 Assembly

/-! ### sstatus -/

/-- The bits `SIE`, `SPIE` and `SPP`. -/
def sie (x : Word) : Bool := x.getLsbD 1

def spie (x : Word) : Bool := x.getLsbD 5

def spp (x : Word) : Bool := x.getLsbD 8

/-- `sstatus` when a trap starts: interrupts are masked, and `SPIE` and `SPP` keep what was before. -/
def trapSstatus (x : Word) (supervisor : Bool) : Word :=
  (x &&& ~~~0x122#64) ||| (if sie x then 0x20#64 else 0#64) |||
    (if supervisor then 0x100#64 else 0#64)

/-- `sstatus` after `sret`. -/
def sretSstatus (x : Word) : Word :=
  (x &&& ~~~0x122#64) ||| (if spie x then 0x2#64 else 0#64) ||| 0x20#64

theorem sie_trapSstatus (x : Word) (b : Bool) : sie (trapSstatus x b) = false := by
  change (trapSstatus x b).getLsbD 1 = false
  cases b <;> cases hx : sie x <;> simp [trapSstatus, hx]

theorem spie_trapSstatus (x : Word) (b : Bool) : spie (trapSstatus x b) = sie x := by
  cases b <;> cases hx : sie x <;> simp [spie, trapSstatus, hx]

theorem spp_trapSstatus (x : Word) (b : Bool) : spp (trapSstatus x b) = b := by
  cases b <;> cases hx : sie x <;> simp [spp, trapSstatus, hx]

theorem sie_sretSstatus (x : Word) : sie (sretSstatus x) = spie x := by
  cases hx : spie x <;> simp [sie, sretSstatus, hx]

/-! ### Threads -/

/-- Where a thread's context and its kernel stack are. -/
structure Place where
  context : Nat
  stack : Nat

/-- The end of the kernel stack. -/
def Place.top (p : Place) : Nat := p.stack + defaultStackSize

/-- What a thread is doing.  In a trap its kernel stack holds the registers and, below them, `depth`
bytes of the handler. -/
inductive Phase
  /-- `create_tcb` has set its context -/
  | fresh
  /-- it runs its own code -/
  | user
  | handling (ecall : Bool) (depth : Nat)
  /-- it has called `k_save_context`, and another thread has been picked -/
  | suspended (ecall : Bool) (depth : Nat)

def Phase.suspend : Phase → Phase
  | .handling ecall depth => .suspended ecall depth
  | p => p

def Phase.resume : Phase → Phase
  | .suspended ecall depth => .handling ecall depth
  | p => p

/-- The hart, the place and the phase of each thread that exists, and the one that runs. -/
structure Shared (T : Type) where
  hart : Hart
  pc : Word
  supervisor : Bool
  current : T
  place : T → Place
  phase : T → Option Phase

namespace Shared

variable {T : Type} [DecidableEq T] (K : Symbols) (S : Shared T)

/-- The context that `k_current_context` points to. -/
def context (m : Mem) : Nat := (loadWord m K.kCurrentContext.toNat).toNat

def setPhase (p : Option Phase) : Shared T := { S with phase := Function.update S.phase S.current p }

@[simp] theorem setPhase_same (p : Option Phase) : (S.setPhase p).phase S.current = p :=
  Function.update_self ..

theorem setPhase_ne {t : T} (h : t ≠ S.current) (p : Option Phase) :
    (S.setPhase p).phase t = S.phase t := Function.update_of_ne h _ _

/-- A trap up to the call of the handler. -/
def trap (ecall : Bool) : Shared T :=
  let csr := Function.update (Function.update S.hart.csr .sepc S.pc) .sstatus
    (trapSstatus (S.hart.csr .sstatus) S.supervisor)
  { S.setPhase (some (.handling ecall 0)) with
    hart := Hart.run { S.hart with csr } (trapEntry K)
    supervisor := true }

/-- The start of `k_handle_ecall`: `sepc` moves past the `ecall`, and the call is taken to fail. -/
def startEcall : Shared T :=
  { S with hart :=
    { S.hart with
      csr := Function.update S.hart.csr .sepc (S.hart.csr .sepc + 4)
      mem := storeWord S.hart.mem (context K S.hart.mem + 0xf8) (BitVec.ofInt 64 failedSyscall) } }

/-- `k_current_context->a0 = x` -/
def answer (x : Word) : Shared T :=
  { S with hart :=
    { S.hart with mem := storeWord S.hart.mem (context K S.hart.mem + 0xf8) x } }

/-- `prepare_user_mode` -/
def prepareUserMode : Shared T :=
  { S with hart :=
    { S.hart with
      csr := Function.update S.hart.csr .sstatus (S.hart.csr .sstatus &&& ~~~(0x100#64)) } }

/-- `sret` in the thread that runs. -/
def sret : Shared T :=
  let sstatus := S.hart.csr .sstatus
  { S.setPhase (some .user) with
    hart := { S.hart with csr := Function.update S.hart.csr .sstatus (sretSstatus sstatus) }
    pc := S.hart.csr .sepc
    supervisor := spp sstatus }

/-- A trap after the return of the handler. -/
def leave (ecall : Bool) : Shared T :=
  sret { S with hart := S.hart.run (trapExit K ecall) }

/-- The part of `create_tcb` that sets the context at `c`. -/
def initContext (c : Nat) (usrSp sysSp sstatus : Word) (m : Mem) : Mem :=
  let m := storeWord m (c + 0x08) usrSp
  let m := storeWord m (c + 0x10) sysSp
  let m := storeWord m (c + 0x20) 0
  let m := storeWord m (c + 0x108) (sstatus ||| 0x20#64)
  storeWord m (c + 0x00) K.kTcbStart

/-- A new thread `t`, which is not ready to run yet in the scheduler's sense, but could be. -/
def create (t : T) (p : Place) (usrSp : Word) : Shared T :=
  { S with
    hart :=
      { S.hart with
        mem := initContext K p.context usrSp (BitVec.ofNat 64 p.top) (S.hart.csr .sstatus) S.hart.mem }
    place := Function.update S.place t p
    phase := Function.update S.phase t (some .fresh) }

/-- The registers and memory when `yield` calls `k_restore_context`, where `regs` are the registers as
the compiled code has them. -/
def restoreHart (t : T) (regs : Reg → Word) : Hart :=
  let c := BitVec.ofNat 64 (S.place t).context
  { S.hart with
    reg := Function.update regs .a0 c
    mem := storeWord S.hart.mem K.kCurrentContext.toNat c }

/-- The part of `yield` after the first return of `k_save_context`, and what follows the return of
`k_restore_context`: a new thread starts, and any other is again where it called `k_save_context`. -/
def restore (t : T) (regs : Reg → Word) : Option (Shared T) :=
  let h := (S.restoreHart K t regs).run kRestoreContext
  let S : Shared T :=
    { S with
      hart := h
      current := t
      phase := Function.update S.phase t ((S.phase t).map Phase.resume) }
  if h.reg .ra = K.kTcbStart then some (sret { S with hart := h.run (kTcbStart K) })
  else if h.reg .ra = K.afterSave ∧ h.reg .a0 ≠ 0 then some S
  else none

/-- The registers in the call of `k_save_context`. -/
def saveRegs : Reg → Word :=
  Function.update (Function.update S.hart.reg .ra K.afterSave) .a0
    (BitVec.ofNat 64 (S.place S.current).context)

/-- `yield` with both threads. -/
def yield (t : T) (regs : Reg → Word) : Option (Shared T) :=
  let h := Hart.run { S.hart with reg := S.saveRegs K } kSaveContext
  if h.reg .a0 ≠ 0 then some { S with hart := h }
  else restore K { S.setPhase ((S.phase S.current).map Phase.suspend) with hart := h } t regs

/-- What neither a thread's own code nor a handler writes: `k_current_context`, the contexts, and the
kernel stacks, but for the part of the current one that the handler uses. -/
def Guarded (y : Nat) : Prop :=
  (K.kCurrentContext.toNat ≤ y ∧ y < K.kCurrentContext.toNat + 8) ∨
    ∃ t, S.phase t ≠ none ∧
      (((S.place t).context ≤ y ∧ y < (S.place t).context + 0x110) ∨
        ((S.place t).stack ≤ y ∧ y < (S.place t).top ∧
          (t = S.current → (S.place t).top - 240 ≤ y)))

/-- Another thread can be picked: it is new, or it has been suspended. -/
def Waits (t : T) : Prop :=
  S.phase t = some .fresh ∨ ∃ ecall depth, S.phase t = some (.suspended ecall depth)

end Shared

/-! ### Steps -/

/-- The ranges of `p` are apart from the `n` bytes at `a`. -/
def Place.Clear (p : Place) (a n : Nat) : Prop :=
  Apart a n p.context 0x110 ∧ Apart a n p.stack defaultStackSize

/-- The context and the stack lie apart from each other and from `k_current_context`. -/
structure Place.Sound (K : Symbols) (p : Place) : Prop where
  context_lt : p.context + 0x110 < 2 ^ 64
  top_lt : p.top < 2 ^ 64
  own : Apart p.context 0x110 p.stack defaultStackSize
  symbol : p.Clear K.kCurrentContext.toNat 8

def Place.Disjoint (p q : Place) : Prop :=
  p.Clear q.context 0x110 ∧ p.Clear q.stack defaultStackSize

/-- A hart of a thread's own: the registers, the next instruction, the mode, and whether interrupts are
enabled. -/
structure Own where
  reg : Reg → Word
  pc : Word
  supervisor : Bool
  enabled : Bool

inductive Event (T : Type)
  /-- the thread's own code, with what it leaves -/
  | code (own : Own)
  | interrupt
  | ecall
  /-- the handler goes on -/
  | kernel
  | answer (x : Word)
  | userMode
  /-- a new thread with its stack -/
  | create (t : T) (usrSp : Word)
  /-- `yield` from the thread whose kernel registers are `before` to `t`, whose registers are then
  `after` -/
  | switch (t : T) (before after : Reg → Word)
  | exit (t : T) (after : Reg → Word)
  | sret

variable {T : Type} [DecidableEq T]

inductive Step (K : Symbols) : Shared T → Event T → Shared T → Prop
  | code {S : Shared T} {reg : Reg → Word} {csr : Csr → Word} {mem : Mem} {pc : Word}
      (hphase : S.phase S.current = some .user) (hzero : reg .zero = 0)
      (hcsr : S.supervisor = false → csr = S.hart.csr)
      (hmem : ∀ y, S.Guarded K y → mem y = S.hart.mem y) :
      Step K S (.code { reg, pc, supervisor := S.supervisor, enabled := sie (csr .sstatus) })
        { S with hart := ⟨reg, csr, mem⟩, pc }
  | interrupt {S : Shared T} (h : S.supervisor = false ∨ sie (S.hart.csr .sstatus) = true) :
      Step K S .interrupt (S.trap K false)
  | ecall {S : Shared T} (hphase : S.phase S.current = some .user) :
      Step K S .ecall ((S.trap K true).startEcall K)
  | kernel {S : Shared T} {ecall : Bool} {depth depth' : Nat} {reg : Reg → Word} {csr : Csr → Word}
      {mem : Mem} (hphase : S.phase S.current = some (.handling ecall depth))
      (hzero : reg .zero = 0) (hdepth : 240 + depth' ≤ defaultStackSize)
      -- the handler moves `sp` by what its frames take
      (hsp : reg .sp + BitVec.ofNat 64 depth' = S.hart.reg .sp + BitVec.ofNat 64 depth)
      (hsepc : csr .sepc = S.hart.csr .sepc) (hsstatus : csr .sstatus = S.hart.csr .sstatus)
      (hmem : ∀ y, S.Guarded K y → mem y = S.hart.mem y) :
      Step K S .kernel { S.setPhase (some (.handling ecall depth')) with hart := ⟨reg, csr, mem⟩ }
  | answer {S : Shared T} {depth : Nat} (x : Word)
      (hphase : S.phase S.current = some (.handling true depth)) :
      Step K S (.answer x) (S.answer K x)
  | userMode {S : Shared T} {depth : Nat} (hphase : S.phase S.current = some (.handling true depth)) :
      Step K S .userMode S.prepareUserMode
  | create {S : Shared T} {depth : Nat} {t : T} {p : Place} (usrSp : Word)
      (hphase : S.phase S.current = some (.handling true depth)) (ht : S.phase t = none)
      (hp : p.Sound K) (hapart : ∀ u, S.phase u ≠ none → (S.place u).Disjoint p) :
      Step K S (.create t usrSp) (S.create K t p usrSp)
  | switch {S S' : Shared T} {ecall : Bool} {depth : Nat} {t : T} {regs : Reg → Word}
      (hphase : S.phase S.current = some (.handling ecall depth)) (ht : t = S.current ∨ S.Waits t)
      (hzero : regs .zero = 0) (hy : S.yield K t regs = some S') :
      Step K S (.switch t (S.saveRegs K) S'.hart.reg) S'
  | exit {S S' : Shared T} {depth : Nat} {t : T} {regs : Reg → Word}
      (hphase : S.phase S.current = some (.handling true depth)) (ht : S.Waits t)
      (hzero : regs .zero = 0) (hy : (S.setPhase none).restore K t regs = some S') :
      Step K S (.exit t S'.hart.reg) S'
  | sret {S : Shared T} {ecall : Bool} (hphase : S.phase S.current = some (.handling ecall 0)) :
      Step K S .sret (S.leave K ecall)

end Os1Kernel.Harts
