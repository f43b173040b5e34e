import Os1Kernel.Source.Scheduler

/-! `TCBSleepQueue` (`k_tcb_sleep_queue.cpp`): the sleeping threads, each with the number of ticks
that it sleeps longer than the one before it. -/

namespace Os1Kernel.TCBSleepQueue

open Memory

/-- `x + y` in `uint64`. -/
def addTime (x y : Nat) : Kernel Nat := do
  if 2 ^ 64 ≤ x + y then log .wrapped else pure ()
  pure (u64 (x + y))

/-- `x - y` in `uint64`. -/
def subTime (x y : Nat) : Kernel Nat := do
  if x < y then log .wrapped else pure ()
  pure (u64 (x + 2 ^ 64 - y))

/-- `tcb` in front of `current`, before which threads sleep for `totalTime` ticks. -/
def insertBefore (this tcb current totalTime : Nat) : Kernel Unit := do
  wr tcb .next current
  wr tcb .prev (← rd current .prev)
  if (← rd tcb .prev) ≠ 0 then
    wr (← rd tcb .prev) .next tcb
    wr tcb .sleepFor (← subTime (← rd tcb .sleepFor) totalTime)
  else wr this .head tcb
  wr current .sleepFor (← subTime (← rd current .sleepFor) (← rd tcb .sleepFor))
  wr current .prev tcb

/-- The loop of `put_to_sleep`; its result is the total time after it. -/
def findPlace (this tcb : Nat) : Nat → Nat → Nat → Kernel Nat
  | 0, _, _ => fault .diverges
  | fuel + 1, current, totalTime => do
    if current ≠ 0 then
      let totalTime ← addTime totalTime (← rd current .sleepFor)
      if (← rd tcb .sleepFor) ≥ totalTime then
        findPlace this tcb fuel (← rd current .next) totalTime
      else
        let totalTime ← subTime totalTime (← rd current .sleepFor)
        insertBefore this tcb current totalTime
        pure totalTime
    else pure totalTime

/-- `TCBSleepQueue::put_to_sleep` -/
def putToSleep (this tcb sleepFor : Nat) : Kernel Unit :=
  if tcb = 0 then pure ()
  else do
    wr tcb .sleepFor sleepFor
    wr tcb .status TCBStatus.suspended.code
    ListTCB.unlink tcb
    if ← ListTCB.isEmpty this then ListTCB.setFirst this tcb
    else
      let totalTime ← findPlace this tcb walkLimit (← rd this .head) 0
      if (← rd tcb .next) = 0 then
        wr tcb .sleepFor (← subTime (← rd tcb .sleepFor) totalTime)
        ListTCB.addLast this tcb
      else pure ()

/-- The loop of `timer_tick`. -/
def wake (L : Layout) (this : Nat) : Nat → Kernel Unit
  | 0 => fault .diverges
  | fuel + 1 => do
    let first ← ListTCB.peekFirst this
    if first ≠ 0 then
      if (← rd first .sleepFor) = 0 then
        Scheduler.putTcb L (← ListTCB.takeFirst this)
        wake L this fuel
      else pure ()
    else pure ()

/-- `TCBSleepQueue::timer_tick` -/
def timerTick (L : Layout) (this : Nat) : Kernel Unit := do
  if ← ListTCB.isEmpty this then pure ()
  else
    let first ← ListTCB.peekFirst this
    wr first .sleepFor (← subTime (← rd first .sleepFor) 1)
    wake L this walkLimit

end Os1Kernel.TCBSleepQueue
