import Os1Kernel.Source.Sem

/-! The life of a thread (`k_tcb.cpp`). -/

namespace Os1Kernel

open Memory

/-- One of the calls of `free` in `free_tcb`. -/
def freePart (address : Nat) : Kernel Unit := do
  log (.freed address (← MemoryAllocator.free address))

/-- `free_tcb` -/
def freeTcb (L : Layout) (tcb : Nat) : Kernel Unit := do
  if tcb ≠ 0 ∧ tcb ≠ L.mainTcb then
    freePart (u64 ((← rd tcb .usrStack) + 2 ^ 64 - defaultStackSize))
    wr tcb .usrStack 0
    freePart (← rd tcb .sysStack)
    wr tcb .sysStack 0
    let _ ← Sem.freeSem (← rd tcb .joinSem)
    wr tcb .joinSem 0
    freePart tcb
  else pure ()

/-- The fields that `create_tcb` sets before it allocates the kernel stack. -/
def initTcb (tcb body args stackSpace : Nat) : Kernel Unit := do
  wr tcb .sleepFor 0
  wr tcb .timeSlice defaultTimeSlice
  wr tcb .status TCBStatus.initializing.code
  wr tcb .interrupted 0
  wr tcb .body body
  wr tcb .args args
  wr tcb .next 0
  wr tcb .prev 0
  wr tcb .usrStack stackSpace
  wr tcb .usrSp stackSpace

/-- The context from which a new thread starts. -/
def initContext (L : Layout) (tcb : Nat) : Kernel Unit := do
  wr tcb .sysSp (u64 ((← rd tcb .sysStack) + defaultStackSize))
  wr tcb .tp 0
  wr tcb .sstatus (← globals).sstatus
  wr tcb .sstatus ((← rd tcb .sstatus) ||| 2 ^ 5)
  wr tcb .ra L.kTcbStart

/-- `create_tcb` -/
def createTcb (L : Layout) (body args stackSpace : Nat) : Kernel Nat := do
  if body ≠ 0 ∧ stackSpace ≠ 0 then
    let newTcb ← MemoryAllocator.alloc (toBlocks sizeofTCB)
    if newTcb = 0 then pure 0
    else
      initTcb newTcb body args stackSpace
      record fun h => { h with
        blocks := h.blocks.filter fun t => t.1 ≠ stackSpace - defaultStackSize }
      wr newTcb .sysStack (← MemoryAllocator.alloc (toBlocks defaultStackSize))
      if (← rd newTcb .sysStack) = 0 then
        freeTcb L newTcb
        pure 0
      else
        initContext L newTcb
        wr newTcb .joinSem (← Sem.createSem 0)
        if (← rd newTcb .joinSem) = 0 then
          freeTcb L newTcb
          pure 0
        else pure newTcb
  else pure 0

/-- The part of `dispatch` before the switch: the thread to be saved. -/
def retire (L : Layout) (previousTcb : Nat) : Kernel Nat := do
  let status ← rd previousTcb .status
  if status = TCBStatus.running.code then
    Scheduler.putTcb L previousTcb
    pure previousTcb
  else if status = TCBStatus.terminating.code then
    log (.terminated previousTcb)
    let joinSem ← rd previousTcb .joinSem
    if joinSem ≠ 0 then
      let _ ← Sem.close L joinSem
      freeTcb L previousTcb
    else freeTcb L previousTcb
    pure 0
  else pure previousTcb

def dispatch (L : Layout) : Kernel Unit := do
  let previousTcb := (← globals).currentTcb
  let previousTcb ← if previousTcb ≠ 0 then retire L previousTcb else pure previousTcb
  let tcb ← Scheduler.nextTcb L
  modifyGlobals fun g => { g with currentTcb := tcb }
  yield L previousTcb tcb

end Os1Kernel
