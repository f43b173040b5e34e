import Os1Kernel.Threads.Queues
import Os1Kernel.Source.Machine

/-! The kernel as an abstract machine of threads, lists and counters, and what memory holds for a state
of it. -/

namespace Os1Kernel

open Memory

/-- A state of the abstract machine.  `status` is that of the thread that is in no list, `mode t` says
that `t` runs in supervisor mode, and `resuming` that the current thread has just been picked. -/
structure Spec where
  owners : Owners
  abs : Abs
  status : TCBStatus
  mode : Nat → Bool
  resuming : Bool
  globals : Globals

/-- The bits of the `int` that is one less. -/
def decBits (b : Nat) : Nat := u32 (b + 2 ^ 32 - 1)

theorem decBits_lt (b : Nat) : decBits b < 2 ^ 32 := u32_lt _

namespace Spec

/-- The state with other variables. -/
def on (σ : Spec) (g : Globals) : Spec := { σ with globals := g }

def current (σ : Spec) : Nat := σ.globals.currentTcb

def log (σ : Spec) (x : Action) : Spec :=
  σ.on { σ.globals with trace := σ.globals.trace ++ [x] }

def setBits (σ : Spec) (s b : Nat) : Spec :=
  { σ with abs := { σ.abs with bits := Function.update σ.abs.bits s b } }

/-- The running thread becomes ready, and will go on at `c`. -/
def requeue (σ : Spec) (c : Cont) : Spec :=
  { σ with abs := { σ.abs with
      moving := []
      ready := σ.abs.ready ++ [σ.current]
      cont := Function.update σ.abs.cont σ.current c } }.log (.readied σ.current)

/-- The running thread is suspended on the semaphore `s`, and will go on at `c`. -/
def suspend (σ : Spec) (s : Nat) (c : Cont) : Spec :=
  { σ with abs := { σ.abs with
      moving := []
      waiting := Function.update σ.abs.waiting s (σ.abs.waiting s ++ [σ.current])
      cont := Function.update σ.abs.cont σ.current c } }.log (.blocked σ.current s)

/-- The running thread sleeps for `n` ticks. -/
def sleep (σ : Spec) (n : Nat) : Spec :=
  { σ with abs := { σ.abs with
      moving := []
      asleep := insertSleep σ.current (σ.abs.now + n) σ.abs.asleep
      cont := Function.update σ.abs.cont σ.current .dispatched } }

/-- The thread `t`, the first one that waits on `s`, becomes ready; `R` wait on. -/
def release (σ : Spec) (s t : Nat) (R : List Nat) (waitError : Bool) : Spec :=
  { σ with abs := { σ.abs with
      waiting := Function.update σ.abs.waiting s R
      flag := Function.update σ.abs.flag t waitError
      ready := σ.abs.ready ++ [t] } }.log (.released t s waitError) |>.log (.readied t)

/-- The threads whose deadline comes with the next tick. -/
def woken (σ : Spec) : List Nat := SleepList.woken (σ.abs.now + 1) σ.abs.asleep

/-- The threads whose deadline comes become ready. -/
def wake (σ : Spec) : Spec :=
  { σ with
    abs := { σ.abs with
      now := σ.abs.now + 1
      asleep := SleepList.asleep (σ.abs.now + 1) σ.abs.asleep
      ready := σ.abs.ready ++ σ.woken }
    globals := { σ.globals with trace := σ.globals.trace ++ σ.woken.map .readied } }

/-- A tick of the timer. -/
def tick (σ : Spec) : Spec :=
  σ.wake.on { σ.wake.globals with timerTicks := u64 (σ.globals.timerTicks + 1) } |>.log .ticked

/-- The thread `t`, the first one that is ready, runs; `R` stay ready.  Its context has `sstatus`. -/
def switch (σ : Spec) (t : Nat) (R : List Nat) (sstatus : Nat) : Spec :=
  let τ := σ.log (.picked t)
  { τ with
    abs := { σ.abs with moving := [t], ready := R }
    status := .running
    resuming := true
    globals := { τ.globals with currentTcb := t, kCurrentContext := t, sstatus } }

/-- What a thread does first that goes on in `yield`. -/
def reset (σ : Spec) : Spec := σ.on { σ.globals with timerTicks := 0 }

/-- The part of `Sem::wait` before the test of the value. -/
def waitStart (σ : Spec) (s : Nat) : Spec :=
  (σ.log (.waitCalled σ.current s)).setBits s (decBits (σ.abs.bits s))

def waitReturn (σ : Spec) (s : Nat) (code : Int) : Spec := σ.log (.waitReturned σ.current s code)

/-- The end of `Sem::wait` for a thread that has been blocked. -/
def afterBlock (σ : Spec) (s : Nat) : Spec :=
  σ.waitReturn s (if σ.abs.flag σ.current then Sem.waitFail else Sem.waitSuccess)

/-- The part of `Sem::signal` before the test of the value. -/
def signalStart (σ : Spec) (s : Nat) : Spec :=
  (σ.log (.signalled s)).setBits s (u32 (σ.abs.bits s + 1))

/-- `Sem::signal` -/
def signal (σ : Spec) (s : Nat) : Spec :=
  if toInt (u32 (σ.abs.bits s + 1)) ≤ 0 then
    match σ.abs.waiting s with
    | [] => σ.signalStart s
    | t :: R => (σ.signalStart s).release s t R false
  else σ.signalStart s

/-- `Sem::close`: all threads that wait on `s` become ready, in order. -/
def releaseAll (σ : Spec) (s : Nat) : List Nat → Spec
  | [] => σ
  | t :: R => (σ.release s t R true).releaseAll s R

end Spec

/-- The fields of threads that stay what `create_tcb` has made them. -/
structure Base (L : Layout) (W : Owners) (v : Cells) : Prop where
  usrStack : ∀ t ∈ W.threads, v t .usrStack = W.stack t + defaultStackSize
  sysStack : ∀ t ∈ W.threads, v t .sysStack = W.kernelStack t
  joinSem : ∀ t ∈ W.threads, v t .joinSem = W.join t
  mainJoin : v L.mainTcb .joinSem = 0
  slice : ∀ t ∈ W.tcbs L, v t .timeSlice = defaultTimeSlice

/-- The context of a thread that does not run. -/
structure Context (L : Layout) (σ : Spec) (v : Cells) (t : Nat) : Prop where
  ra : v t .ra = if σ.abs.cont t = .fresh then L.kTcbStart else L.inYield
  mode : spp (v t .sstatus) = σ.mode t

/-- The record of what the threads may use. -/
def Owners.handles (W : Owners) (flush : Nat) : Handles where
  flush := flush
  threads := W.threads
  sems := W.sems
  blocks := W.blocks
  stackBlocks := W.threads.map fun t => (t, W.stack t)

/-- Memory holds a state of the abstract machine. -/
structure Holds (L : Layout) (σ : Spec) (v : Cells) : Prop where
  heap : HeapRep L.heap σ.owners.tiles v σ.globals
  tiled : σ.owners.Tiled L
  queues : Queues L σ.owners σ.abs v
  base : Base L σ.owners v
  contexts : ∀ t ∈ σ.owners.tcbs L, t ≠ σ.globals.kCurrentContext → Context L σ v t
  status : ∀ t ∈ σ.abs.moving, v t .status = σ.status.code

/-- The variables that memory depends on are the same. -/
structure SameVars (g g' : Globals) : Prop where
  heapStartAddr : g'.heapStartAddr = g.heapStartAddr
  fbHead : g'.fbHead = g.fbHead
  allocTable : g'.allocTable = g.allocTable
  kCurrentContext : g'.kCurrentContext = g.kCurrentContext

/-- The fields of free headers are neither those of lists nor those of contexts. -/
theorem Field.ofHeader_ne {f : Field} (h : f.ofHeader = true) :
    f ∉ Field.queue ∧ f ≠ .ra ∧ f ≠ .sstatus := by
  cases f <;> revert h <;> decide

namespace Holds

variable {L : Layout} {σ σ' : Spec} {v v' : Cells} {t s : Nat}

/-- A change of the lists. -/
theorem of_quiet (h : Holds L σ v) (hq : Quiet v v') (hQ : Queues L σ'.owners σ'.abs v')
    (how : σ'.owners = σ.owners) (hmode : σ'.mode = σ.mode)
    (hcont : ∀ t, t ≠ σ.globals.kCurrentContext → σ'.abs.cont t = σ.abs.cont t)
    (hvars : SameVars σ.globals σ'.globals)
    (hstatus : ∀ t ∈ σ'.abs.moving, v' t .status = σ'.status.code) : Holds L σ' v' := by
  have hb := h.base
  refine ⟨?_, how ▸ h.tiled, hQ, how ▸ ⟨?_, ?_, ?_, ?_, ?_⟩, fun t ht hne => ?_, hstatus⟩
  · rw [how]
    refine (h.heap.congr fun a f ⟨o, ho, hcell⟩ => hq a f ?_).globals hvars.heapStartAddr hvars.fbHead
      hvars.allocTable
    cases o with
    | entry i =>
      rw [hcell.2]
      decide
    | header i => exact (Field.ofHeader_ne hcell.2).1
    | tcb _ => exact ho.elim
    | sem _ => exact ho.elim
    | list _ => exact ho.elim
  · exact fun t ht => (hq _ _ (by decide)).trans (hb.usrStack t ht)
  · exact fun t ht => (hq _ _ (by decide)).trans (hb.sysStack t ht)
  · exact fun t ht => (hq _ _ (by decide)).trans (hb.joinSem t ht)
  · exact (hq _ _ (by decide)).trans hb.mainJoin
  · exact fun t ht => (hq _ _ (by decide)).trans (hb.slice t ht)
  · rw [hvars.kCurrentContext] at hne
    rw [how] at ht
    have hc := h.contexts t ht hne
    refine ⟨?_, ?_⟩
    · rw [hq _ _ (by decide), hcont t hne]
      exact hc.ra
    · rw [hq _ _ (by decide), hmode]
      exact hc.mode

/-- Variables that memory does not depend on. -/
theorem on (h : Holds L σ v) {g : Globals} (hvars : SameVars σ.globals g) : Holds L (σ.on g) v :=
  h.of_quiet (.refl v) h.queues rfl rfl (fun _ _ => rfl) hvars h.status

theorem log (h : Holds L σ v) (x : Action) : Holds L (σ.log x) v := h.on ⟨rfl, rfl, rfl, rfl⟩

theorem reset (h : Holds L σ v) : Holds L σ.reset v := h.on ⟨rfl, rfl, rfl, rfl⟩

end Holds

end Os1Kernel
