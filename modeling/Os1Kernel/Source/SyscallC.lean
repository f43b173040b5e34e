import Os1Kernel.Source.Machine

/-! The C interface to the system calls, as far as it does more than one environment call
(`syscall_c.cpp`). -/

namespace Os1Kernel.SyscallC

/-- `k_system_call`, where the call returns to the caller before any other event. -/
def kSystemCall (L : Layout) (a0 a1 a2 a3 a4 : UInt64) (M : Machine) : Option (UInt64 × Machine) :=
  (M.step L (.ecall a0 a1 a2 a3 a4)).map fun M => (UInt64.ofNat M.a0, M)

/-- `mem_alloc` -/
def memAlloc (L : Layout) (size : UInt64) (M : Machine) : Option (UInt64 × Machine) :=
  kSystemCall L 0x01 (UInt64.ofNat (toBlocks size.toNat)) 0 0 0 M

/-- `thread_create` -/
def threadCreate (L : Layout) (handle startRoutine arg : UInt64) (M : Machine) :
    Option (Int × Machine) :=
  if handle ≠ 0 ∧ startRoutine ≠ 0 then
    -- the stack of user mode
    (memAlloc L (UInt64.ofNat defaultStackSize) M).bind fun stackSpace =>
      if stackSpace.1 ≠ 0 then
        (kSystemCall L 0x11 handle startRoutine arg (stackSpace.1 + UInt64.ofNat defaultStackSize)
          stackSpace.2).map fun result => (toInt (u32 result.1.toNat), result.2)
      else some (failedSyscall, stackSpace.2)
  else some (failedSyscall, M)

end Os1Kernel.SyscallC
