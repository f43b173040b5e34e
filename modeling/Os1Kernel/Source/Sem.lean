import Os1Kernel.Source.Allocator
import Os1Kernel.Source.Scheduler

/-! `Sem` (`k_sem.cpp`).  `this` is the address of the semaphore, and its list of suspended threads
lies eight bytes further on.  The value is kept as the bits of an `int`. -/

namespace Os1Kernel.Sem

open Memory

def unblockFail : Int := -1
def unblockSuccess : Int := 0
def waitFail : Int := -1
def waitSuccess : Int := 0
def signalSuccess : Int := 0
def closeSuccess : Int := 0

def suspendedTcbs (this : Nat) : Nat := this + 8

/-- `Sem::initialize` -/
def initializeSem (this value : Nat) : Kernel Unit := do
  wr this .value value
  ListTCB.initializeList (suspendedTcbs this)
  log (.initialized this value)

/-- `Sem::create_sem` -/
def createSem (value : Nat) : Kernel Nat := do
  let newSem ← MemoryAllocator.alloc (toBlocks sizeofSem)
  initializeSem newSem value
  pure newSem

/-- `Sem::free_sem` -/
def freeSem (sem : Nat) : Kernel Int := do
  let code ← MemoryAllocator.free sem
  log (.freed sem code)
  pure code

/-- `Sem::block` -/
def block (L : Layout) (this : Nat) : Kernel Unit := do
  let suspendedTcb := (← globals).currentTcb
  wr suspendedTcb .status TCBStatus.suspended.code
  ListTCB.addLast (suspendedTcbs this) suspendedTcb
  log (.blocked suspendedTcb this)
  let tcb ← Scheduler.nextTcb L
  modifyGlobals fun g => { g with currentTcb := tcb }
  yield L suspendedTcb tcb

def waitReturn (this : Nat) (code : Int) : Kernel Int := do
  log (.waitReturned (← globals).currentTcb this code)
  pure code

/-- The rest of `Sem::wait` for a thread that has been blocked. -/
def afterBlock (this : Nat) : Kernel Int := do
  if (← rd (← globals).currentTcb .interrupted) ≠ 0 then waitReturn this waitFail
  else waitReturn this waitSuccess

/-- `Sem::wait` -/
def wait (L : Layout) (this : Nat) : Kernel Int := do
  log (.waitCalled (← globals).currentTcb this)
  wr this .value (u32 ((← rd this .value) + 2 ^ 32 - 1))
  if toInt (← rd this .value) < 0 then
    block L this
    afterBlock this
  else waitReturn this waitSuccess

/-- `Sem::unblock` -/
def unblock (L : Layout) (this : Nat) (waitError : Bool) : Kernel Int := do
  let tcb ← ListTCB.takeFirst (suspendedTcbs this)
  if tcb ≠ 0 then
    wr tcb .interrupted waitError.toNat
    log (.released tcb this waitError)
    Scheduler.putTcb L tcb
    pure unblockSuccess
  else pure unblockFail

/-- `Sem::signal` -/
def signal (L : Layout) (this : Nat) : Kernel Int := do
  log (.signalled this)
  wr this .value (u32 ((← rd this .value) + 1))
  if toInt (← rd this .value) ≤ 0 then
    let _ ← unblock L this false
    pure signalSuccess
  else pure signalSuccess

/-- The loop of `Sem::close`. -/
def unblockAll (L : Layout) (this : Nat) : Nat → Kernel Unit
  | 0 => fault .diverges
  | fuel + 1 => do
    if (← unblock L this true) = unblockSuccess then unblockAll L this fuel else pure ()

/-- `Sem::close` -/
def close (L : Layout) (this : Nat) : Kernel Int := do
  unblockAll L this walkLimit
  pure closeSuccess

end Os1Kernel.Sem
