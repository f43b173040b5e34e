import Os1Kernel.Source.Tcb
import Os1Kernel.Source.SleepQueue

/-! The trap handlers (`k_trap_handlers.cpp`).  The pending bits of `sip` are not part of the kernel's
data here. -/

namespace Os1Kernel

open Memory

def successSyscall : Int := 0
def failedSyscall : Int := -1

/-- `k_current_context->a0 = x` -/
def setA0 (x : Nat) : Kernel Unit := do
  wr (← globals).kCurrentContext .a0 x

/-- `flush_putc_buffer`, when the console can take `tx` characters. -/
def flushPutcBuffer (L : Layout) : Nat → Kernel Unit
  | 0 => pure ()
  | tx + 1 => do
    let g ← globals
    if 0 < g.putcBuffer.getLength then
      let (c, putcBuffer) := g.putcBuffer.get
      modifyGlobals fun g => { g with putcBuffer, console := g.console ++ [c] }
      let _ ← Sem.signal L L.putcSem
      flushPutcBuffer L tx
    else pure ()

/-- `fill_getc_buffer`, when the console has the character `rx`, or none. -/
def fillGetcBuffer (L : Layout) : Option UInt8 → Kernel Unit
  | none => pure ()
  | some temp => do
    let g ← globals
    if g.getcBuffer.getLength < g.getcBuffer.getCapacity then
      modifyGlobals fun g => { g with getcBuffer := g.getcBuffer.put temp }
      log (.received temp)
      let _ ← Sem.signal L L.getcSem
      dispatch L
    else pure ()

/-- `prepare_user_mode` -/
def prepareUserMode : Kernel Unit :=
  modifyGlobals fun g => { g with
    sstatus := if g.sstatus.testBit 8 then g.sstatus - 2 ^ 8 else g.sstatus }

/-! ### The system calls -/

def memAllocCall (p0 : Nat) : Kernel Unit := do
  let address ← MemoryAllocator.alloc p0
  if address ≠ 0 ∧ u32 p0 ≠ 0 then
    record fun h => { h with blocks := (address, u32 p0) :: h.blocks }
  else pure ()
  setA0 address

def memFreeCall (p0 : Nat) : Kernel Unit := do
  let code ← MemoryAllocator.free p0
  record fun h => { h with blocks := h.blocks.filter fun t => t.1 ≠ p0 }
  setA0 (signExtend code)

def createThreadCall (L : Layout) (p0 p1 p2 p3 : Nat) : Kernel Unit :=
  if p0 ≠ 0 then do
    wr p0 .handle (← createTcb L p1 p2 p3)
    if (← rd p0 .handle) ≠ 0 then
      let tcb ← rd p0 .handle
      record fun h => { h with
        threads := tcb :: h.threads
        stackBlocks := (tcb, p3 - defaultStackSize) :: h.stackBlocks }
      log (.created (← globals).currentTcb tcb)
      Scheduler.putTcb L (← rd p0 .handle)
      setA0 (signExtend successSyscall)
    else pure ()
  else pure ()

def threadExitCall (L : Layout) : Kernel Unit := do
  let currentTcb := (← globals).currentTcb
  if currentTcb ≠ L.mainTcb then
    wr currentTcb .status TCBStatus.terminating.code
    setA0 (signExtend successSyscall)
    record fun h => { h with
      threads := h.threads.filter (· ≠ currentTcb)
      stackBlocks := h.stackBlocks.filter fun t => t.1 ≠ currentTcb }
    dispatch L
  else pure ()

def threadJoinCall (L : Layout) (p0 : Nat) : Kernel Unit := do
  if p0 ≠ 0 then
    let joinSem ← rd p0 .joinSem
    if joinSem ≠ 0 then
      let _ ← Sem.wait L joinSem
      pure ()
    else pure ()
  else pure ()

def semOpenCall (p0 p1 : Nat) : Kernel Unit :=
  if p0 ≠ 0 then do
    wr p0 .handle (← Sem.createSem (u32 p1))
    if (← rd p0 .handle) ≠ 0 then
      let sem ← rd p0 .handle
      record fun h => { h with sems := sem :: h.sems }
      setA0 (signExtend successSyscall)
    else pure ()
  else pure ()

def semCloseCall (L : Layout) (p0 : Nat) : Kernel Unit :=
  if p0 ≠ 0 then do
    let code ← Sem.close L p0
    record fun h => { h with sems := h.sems.filter (· ≠ p0) }
    if (← Sem.freeSem p0) = MemoryAllocator.memSuccess then setA0 (signExtend code) else pure ()
  else pure ()

def semWaitCall (L : Layout) (p0 : Nat) : Kernel Unit :=
  if p0 ≠ 0 then do
    let code ← Sem.wait L p0
    setA0 (signExtend code)
  else pure ()

def semSignalCall (L : Layout) (p0 : Nat) : Kernel Unit :=
  if p0 ≠ 0 then do
    let code ← Sem.signal L p0
    setA0 (signExtend code)
  else pure ()

def timeSleepCall (L : Layout) (p0 : Nat) : Kernel Unit :=
  if 0 < p0 then do
    TCBSleepQueue.putToSleep L.sleepQueue (← globals).currentTcb p0
    setA0 (signExtend successSyscall)
    dispatch L
  else pure ()

/-- The rest of `GET_C_CODE` after the wait. -/
def takeChar : Kernel Unit := do
  let (c, getcBuffer) := (← globals).getcBuffer.get
  modifyGlobals fun g => { g with getcBuffer }
  log (.got (← globals).currentTcb c)
  setA0 c.toNat

def getCCall (L : Layout) : Kernel Unit := do
  let _ ← Sem.wait L L.getcSem
  takeChar

/-- The rest of `PUT_C_CODE` after the wait. -/
def storeChar (p0 : Nat) : Kernel Unit := do
  modifyGlobals fun g => { g with putcBuffer := g.putcBuffer.put (UInt8.ofNat p0) }
  log (.stored (← globals).currentTcb (UInt8.ofNat p0))

def putCCall (L : Layout) (p0 : Nat) : Kernel Unit := do
  let _ ← Sem.wait L L.putcSem
  storeChar p0

def userModeCall : Kernel Unit := do
  prepareUserMode
  setA0 (signExtend successSyscall)

/-- The switch of `k_handle_ecall`. -/
def syscall (L : Layout) (code p0 p1 p2 p3 : Nat) : Kernel Unit :=
  match code with
  | 0x01 => memAllocCall p0
  | 0x02 => memFreeCall p0
  | 0x11 => createThreadCall L p0 p1 p2 p3
  | 0x12 => threadExitCall L
  | 0x13 => dispatch L
  | 0x14 => threadJoinCall L p0
  | 0x21 => semOpenCall p0 p1
  | 0x22 => semCloseCall L p0
  | 0x23 => semWaitCall L p0
  | 0x24 => semSignalCall L p0
  | 0x31 => timeSleepCall L p0
  | 0x41 => getCCall L
  | 0x42 => putCCall L p0
  | 0xff => userModeCall
  | _ => pure ()

/-- `k_handle_ecall`, for an environment call. -/
def handleEcall (L : Layout) (code p0 p1 p2 p3 : Nat) : Kernel Unit := do
  log (.called (← globals).currentTcb code p0)
  setA0 (signExtend failedSyscall)
  syscall L code p0 p1 p2 p3

/-- `k_handle_timer` -/
def handleTimer (L : Layout) : Kernel Unit := do
  TCBSleepQueue.timerTick L L.sleepQueue
  modifyGlobals fun g => { g with timerTicks := u64 (g.timerTicks + 1) }
  log .ticked
  let g ← globals
  if g.timerTicks ≥ (← rd g.currentTcb .timeSlice) then dispatch L else pure ()

/-- `k_handle_console` -/
def handleConsole (L : Layout) (rx : Option UInt8) : Kernel Unit := fillGetcBuffer L rx

/-- The end of `k_ecall_trap`, which loads the result of the call from the context. -/
def ecallReturn : Kernel Unit := do
  let g ← globals
  log (.ecallReturned g.currentTcb (← rd g.kCurrentContext .a0))

end Os1Kernel
