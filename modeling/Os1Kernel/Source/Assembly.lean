import Os1Kernel.Lib.Hart

/-! The code in assembly: the macros and the traps of `k_traps.S`, `k_save_context.S`,
`k_restore_context.S` and `k_tcb_start.S`.  A trap is the code before the call of its handler and the
code after it, up to `sret`; the other pieces end before their `ret` or `sret`. -/

namespace Os1Kernel.Assembly

open Rv64

/-- The addresses of the symbols that the code mentions, and of the instruction after the call of
`k_save_context` in `yield`. -/
structure Symbols where
  kCurrentContext : Word
  kTcbStart : Word
  kTcbRunWrapper : Word
  afterSave : Word
  distinct : afterSave ≠ kTcbStart

/-! ### k_traps.S -/

def switchToKernelStack (K : Symbols) : List Instr :=
  [.csrw .sscratch .ra, .lds .ra K.kCurrentContext, .sd .sp 0x08 .ra, .ld .sp 0x10 .ra,
    .csrr .ra .sscratch]

def switchToUserStack (K : Symbols) : List Instr :=
  [.csrw .sscratch .ra, .lds .ra K.kCurrentContext, .sd .sp 0x10 .ra, .ld .sp 0x08 .ra,
    .csrr .ra .sscratch]

def switchToUserStackEcall (K : Symbols) : List Instr :=
  [.csrw .sscratch .ra, .lds .ra K.kCurrentContext, .sd .sp 0x10 .ra, .ld .sp 0x08 .ra,
    .ld .a0 0xf8 .ra, .csrr .ra .sscratch]

/-- The registers that the `.irp` lines of the macros name, each at the next eight bytes. -/
def cpuRegistries : List Slot :=
  [(.ra, 0), (.s0, 8), (.s1, 16), (.s2, 24), (.s3, 32), (.s4, 40), (.s5, 48), (.s6, 56), (.s7, 64),
    (.s8, 72), (.s9, 80), (.s10, 88), (.s11, 96), (.a0, 104), (.a1, 112), (.a2, 120), (.a3, 128),
    (.a4, 136), (.a5, 144), (.a6, 152), (.a7, 160), (.t0, 168), (.t1, 176), (.t2, 184), (.t3, 192),
    (.t4, 200), (.t5, 208), (.t6, 216), (.gp, 224), (.tp, 232)]

def saveCpuRegistriesOnStack : List Instr := .addi .sp .sp (-240) :: spill .sp cpuRegistries

def restoreCpuRegistriesFromStack : List Instr := fill .sp cpuRegistries ++ [.addi .sp .sp 240]

/-- The traps, which start alike. -/
def trapEntry (K : Symbols) : List Instr := switchToKernelStack K ++ saveCpuRegistriesOnStack

/-- The rest of `k_ecall_trap`, or that of `k_timer_trap` and `k_console_trap`. -/
def trapExit (K : Symbols) (ecall : Bool) : List Instr :=
  restoreCpuRegistriesFromStack ++ if ecall then switchToUserStackEcall K else switchToUserStack K

/-! ### k_save_context.S and k_restore_context.S -/

/-- The registers that a `Context` keeps for the kernel, `sp` as `sys_sp`, in the order in which they
are saved. -/
def contextRegistries : List Slot :=
  [(.ra, 0x00), (.sp, 0x10), (.gp, 0x18), (.tp, 0x20), (.s11, 0x28), (.s10, 0x30), (.s9, 0x38),
    (.s8, 0x40), (.s7, 0x48), (.s6, 0x50), (.s5, 0x58), (.s4, 0x60), (.s3, 0x68), (.s2, 0x70),
    (.s1, 0x78), (.s0, 0x80), (.t6, 0x88), (.t5, 0x90), (.t4, 0x98), (.t3, 0xa0), (.t2, 0xa8),
    (.t1, 0xb0), (.t0, 0xb8), (.a7, 0xc0), (.a6, 0xc8), (.a5, 0xd0), (.a4, 0xd8), (.a3, 0xe0),
    (.a2, 0xe8)]

/-- The registers that a `Context` keeps for the kernel, with `a1`. -/
def contextSlots : List Slot := contextRegistries ++ [(.a1, 0xf0)]

def kSaveContext : List Instr :=
  spill .a0 contextSlots ++
    [.csrr .a1 .sepc, .sd .a1 0x100 .a0, .csrr .a1 .sstatus, .sd .a1 0x108 .a0, .ld .a1 0xf0 .a0,
      .lui .a0 0x0000000000000000]

def kRestoreContext : List Instr :=
  fill .a0 contextRegistries ++
    [.ld .a1 0x100 .a0, .csrw .sepc .a1, .ld .a1 0x108 .a0, .csrw .sstatus .a1, .ld .a1 0xf0 .a0,
      .lui .a0 0x0000000000000001]

/-! ### k_tcb_start.S -/

def kTcbStart (K : Symbols) : List Instr :=
  switchToUserStack K ++ [.la .ra K.kTcbRunWrapper, .csrw .sepc .ra]

/-! ### The layout -/

theorem cpuRegistries_fits : Fits 240 cpuRegistries := by decide

theorem contextSlots_fits : Fits 0x110 contextSlots := by decide

theorem cpuRegistries_nodup : (cpuRegistries.map Prod.fst).Nodup := by decide

theorem contextRegistries_nodup : (contextRegistries.map Prod.fst).Nodup := by decide

theorem contextSlots_nodup : (contextSlots.map Prod.fst).Nodup := by decide

/-- A trap keeps every register but `sp`, which the context keeps as `usr_sp`. -/
theorem mem_cpuRegistries (r : Reg) (hz : r ≠ .zero) (hs : r ≠ .sp) :
    r ∈ cpuRegistries.map Prod.fst := by
  revert hz hs
  cases r <;> decide

/-- The context keeps every register but `a0` and `a1`, whose places come last. -/
theorem mem_contextRegistries (r : Reg) (hz : r ≠ .zero) (h0 : r ≠ .a0) (h1 : r ≠ .a1) :
    r ∈ contextRegistries.map Prod.fst := by
  revert hz h0 h1
  cases r <;> decide

end Os1Kernel.Assembly
