import Os1Kernel.Source.List

/-! The scheduler (`k_scheduler.cpp`) and the context switch (`yield` in `k_tcb.cpp`).  The address of
a `TCB` is also the address of its context. -/

namespace Os1Kernel

open Memory

/-- `Scheduler::next_tcb` -/
def Scheduler.nextTcb (L : Layout) : Kernel Nat := do
  let tcb ← ListTCB.takeFirst L.scheduler
  log (.picked tcb)
  pure tcb

/-- `Scheduler::put_tcb` -/
def Scheduler.putTcb (L : Layout) (tcb : Nat) : Kernel Unit :=
  if tcb ≠ 0 then do
    wr tcb .status TCBStatus.ready.code
    ListTCB.addLast L.scheduler tcb
    log (.readied tcb)
  else pure ()

/-- What `k_save_context` writes of the return address and of the status register. -/
def saveContext (L : Layout) (context : Nat) : Kernel Unit := do
  wr context .ra L.inYield
  wr context .sstatus (← globals).sstatus

/-- `k_restore_context`, which does not return.  What follows it in a program is what follows the
second return of `k_save_context` in `yield`, for the thread that is saved. -/
def restoreContext (saved context : Nat) : Kernel Unit := do
  let sstatus ← rd context .sstatus
  modifyGlobals fun g => { g with sstatus }
  let ra ← rd context .ra
  .suspend { saved, restored := context, ra } (.ret ())

def yield (L : Layout) (oldTcb newTcb : Nat) : Kernel Unit := do
  if oldTcb ≠ 0 then saveContext L oldTcb else pure ()
  if newTcb ≠ 0 then
    wr newTcb .status TCBStatus.running.code
    modifyGlobals fun g => { g with kCurrentContext := g.currentTcb }
    restoreContext oldTcb newTcb
    modifyGlobals fun g => { g with timerTicks := 0 }
  else pure ()

end Os1Kernel
