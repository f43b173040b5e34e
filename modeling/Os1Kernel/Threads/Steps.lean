import Os1Kernel.Threads.Waits

/-! The steps of the abstract machine. -/

namespace Os1Kernel

open Memory

namespace Spec

def called (σ : Spec) (code p0 : Nat) : Spec := σ.log (.called σ.current code p0)

def returned (σ : Spec) (a0 : Nat) : Spec := σ.log (.ecallReturned σ.current a0)

/-- A wait that does not block. -/
def pass (σ : Spec) (s : Nat) : Spec := (σ.waitStart s).waitReturn s Sem.waitSuccess

/-- A wait that blocks; the thread will go on at `c`. -/
def block (σ : Spec) (s : Nat) (c : Cont) : Spec := (σ.waitStart s).suspend s c

/-- The rest of `getc` after the wait. -/
def take (σ : Spec) : Spec :=
  (σ.on { σ.globals with getcBuffer := σ.globals.getcBuffer.get.2 }).log
    (.got σ.current σ.globals.getcBuffer.get.1)

/-- The rest of `putc` after the wait. -/
def store (σ : Spec) (p0 : Nat) : Spec :=
  (σ.on { σ.globals with putcBuffer := σ.globals.putcBuffer.put (UInt8.ofNat p0) }).log
    (.stored σ.current (UInt8.ofNat p0))

/-- A character of the console for which there is room. -/
def receive (σ : Spec) (L : Layout) (temp : UInt8) : Spec :=
  ((σ.on { σ.globals with getcBuffer := σ.globals.getcBuffer.put temp }).log
    (.received temp)).signal L.getcSem

/-- A character that the flush thread writes to the console. -/
def flushChar (σ : Spec) (L : Layout) : Spec :=
  (σ.on { σ.globals with
    putcBuffer := σ.globals.putcBuffer.get.2
    console := σ.globals.console ++ [σ.globals.putcBuffer.get.1] }).signal L.putcSem

/-- The characters that the flush thread writes when the console can take `tx` of them. -/
def flushChars (σ : Spec) (L : Layout) : Nat → Spec
  | 0 => σ
  | tx + 1 => if 0 < σ.globals.putcBuffer.count then (σ.flushChar L).flushChars L tx else σ

/-- What the thread that has been picked does first. -/
def resume (σ : Spec) (L : Layout) : Spec :=
  let τ := match σ.abs.cont σ.current with
    | .fresh => σ.log (.started σ.current σ.globals.timerTicks)
    | .preempted | .dispatched => σ.reset
    | .joining s | .waiting s => σ.reset.afterBlock s
    | .reading => (σ.reset.afterBlock L.getcSem).take
    | .writing p0 => (σ.reset.afterBlock L.putcSem).store p0
  { τ with resuming := false }

/-- `set_user_mode`; the status register holds `sstatus` after it. -/
def userMode (σ : Spec) (p0 sstatus : Nat) : Spec :=
  let τ := σ.called 0xff p0
  { τ with
    mode := Function.update σ.mode σ.current false
    globals := { τ.globals with sstatus } }

/-- The allocations have other owners. -/
def retile (σ : Spec) (W : Owners) (fbHead : Nat) : Spec :=
  { σ with
    owners := W
    globals := { σ.globals with fbHead, handles := W.handles σ.globals.handles.flush } }

/-- A semaphore at `s` with the value of the bits `value`. -/
def openSem (σ : Spec) (s value : Nat) (W : Owners) (fbHead : Nat) : Spec :=
  let τ := σ.retile W fbHead
  { τ with abs := { σ.abs with
      waiting := Function.update σ.abs.waiting s []
      bits := Function.update σ.abs.bits s value } }.log (.initialized s value)

/-- `sem_close` -/
def closeSem (σ : Spec) (s : Nat) (W : Owners) (fbHead : Nat) : Spec :=
  ((σ.releaseAll s (σ.abs.waiting s)).retile W fbHead).log (.freed s MemoryAllocator.memSuccess)

/-- A new thread `t` whose semaphore is at `j`. -/
def create (σ : Spec) (t j : Nat) (W : Owners) (fbHead : Nat) : Spec :=
  let τ := σ.retile W fbHead
  { τ with
    abs := { σ.abs with
      ready := σ.abs.ready ++ [t]
      waiting := Function.update σ.abs.waiting j []
      bits := Function.update σ.abs.bits j 0
      flag := Function.update σ.abs.flag t false
      cont := Function.update σ.abs.cont t .fresh }
    mode := Function.update σ.mode t (σ.mode σ.current) }.log (.initialized j 0)
      |>.log (.created σ.current t) |>.log (.readied t)

/-- `Scheduler::flush_tcb` is known. -/
def setFlush (σ : Spec) (flush : Nat) : Spec :=
  σ.on { σ.globals with handles := { σ.globals.handles with flush } }

def freed (σ : Spec) (a : Nat) (code : Int) : Spec := σ.log (.freed a code)

/-- The running thread ends: those who wait for it become ready, and its memory is freed. -/
def exit (σ : Spec) (W : Owners) (fbHead : Nat) : Spec :=
  let t := σ.current
  let j := σ.owners.join t
  let τ := ((σ.log (.terminated t)).releaseAll j (σ.abs.waiting j)).retile W fbHead
  { τ with abs := { τ.abs with moving := [] } }.freed (σ.owners.stack t) 0
    |>.freed (σ.owners.kernelStack t) 0 |>.freed j 0 |>.freed t 0

end Spec

/-- Why a thread waits on a semaphore, and where it goes on then. -/
inductive Reason (L : Layout) (σ : Spec) : Nat → Cont → Prop
  | join {h : Nat} (hh : h ∈ σ.owners.threads) : Reason L σ (σ.owners.join h) (.joining (σ.owners.join h))
  | wait {s : Nat} (hs : s ∈ σ.owners.sems) : Reason L σ s (.waiting s)
  | read : Reason L σ L.getcSem .reading

/-- What holds between the steps. -/
structure Valid (L : Layout) (σ : Spec) : Prop where
  tiled : σ.owners.Tiled L
  place : (σ.owners.tcbs L).Perm (σ.abs.moving ++ σ.abs.queued L σ.owners)
  bits : ∀ s ∈ σ.owners.semaphores L, σ.abs.bits s < 2 ^ 32
  moving : σ.abs.moving = [σ.current]

/-- The owners after an allocation of user code or its release. -/
structure SameThreads (W W' : Owners) : Prop where
  mainStack : W'.mainStack = W.mainStack
  threads : W'.threads = W.threads
  join : W'.join = W.join
  stack : W'.stack = W.stack
  kernelStack : W'.kernelStack = W.kernelStack
  sems : W'.sems = W.sems

/-- The steps of the abstract machine, for the current thread. -/
inductive Step (L : Layout) (σ : Spec) : Spec → Prop
  | called (hv : Valid L σ) (hr : σ.resuming = false) (code p0 : Nat)
      (hcode : code ≠ 0xff ∧ code ≠ 0x42) : Step L σ (σ.called code p0)
  | returned (hv : Valid L σ) (hr : σ.resuming = false) (a0 : Nat) : Step L σ (σ.returned a0)
  | pass (hv : Valid L σ) (hr : σ.resuming = false) {s : Nat} {c : Cont} (hc : Reason L σ s c)
      (hcont : c = .joining s ∨ c = .waiting s) (hs : s ∈ σ.owners.semaphores L)
      (h : 0 ≤ toInt (decBits (σ.abs.bits s))) : Step L σ (σ.pass s)
  | passRead (hv : Valid L σ) (hr : σ.resuming = false)
      (h : 0 ≤ toInt (decBits (σ.abs.bits L.getcSem))) : Step L σ (σ.pass L.getcSem).take
  | passWrite (hv : Valid L σ) (hr : σ.resuming = false) (p0 : Nat)
      (h : 0 ≤ toInt (decBits (σ.abs.bits L.putcSem))) :
      Step L σ (((σ.called 0x42 p0).pass L.putcSem).store p0)
  | blockWrite (hv : Valid L σ) (hr : σ.resuming = false) {n x : Nat} {R : List Nat} (p0 : Nat)
      (h : toInt (decBits (σ.abs.bits L.putcSem)) < 0) (hR : σ.abs.ready = n :: R) :
      Step L σ (((σ.called 0x42 p0).block L.putcSem (.writing p0)).switch n R x)
  | block (hv : Valid L σ) (hr : σ.resuming = false) {s n x : Nat} {c : Cont} {R : List Nat}
      (hc : Reason L σ s c) (hs : s ∈ σ.owners.semaphores L)
      (h : toInt (decBits (σ.abs.bits s)) < 0) (hR : σ.abs.ready = n :: R) :
      Step L σ ((σ.block s c).switch n R x)
  | signal (hv : Valid L σ) (hr : σ.resuming = false) {s : Nat} (hs : s ∈ σ.owners.sems) :
      Step L σ (σ.signal s)
  | receive (hv : Valid L σ) (hr : σ.resuming = false) (temp : UInt8)
      (hlen : σ.globals.getcBuffer.count < ioBufferSize) : Step L σ (σ.receive L temp)
  | flushChar (hv : Valid L σ) (hr : σ.resuming = false) (hlen : 0 < σ.globals.putcBuffer.count) :
      Step L σ (σ.flushChar L)
  | dispatch (hv : Valid L σ) (hr : σ.resuming = false) {n x : Nat} {c : Cont} {R : List Nat}
      (hc : c = .preempted ∨ c = .dispatched) (hR : (σ.requeue c).abs.ready = n :: R) :
      Step L σ ((σ.requeue c).switch n R x)
  | sleep (hv : Valid L σ) (hr : σ.resuming = false) {k n x : Nat} {R : List Nat}
      (hk : 1 ≤ k ∧ k < 2 ^ 64) (hR : σ.abs.ready = n :: R) : Step L σ ((σ.sleep k).switch n R x)
  | tick (hv : Valid L σ) (hr : σ.resuming = false)
      (h : σ.tick.globals.timerTicks < defaultTimeSlice) : Step L σ σ.tick
  | preempt (hv : Valid L σ) (hr : σ.resuming = false) {n x : Nat} {R : List Nat}
      (h : defaultTimeSlice ≤ σ.tick.globals.timerTicks)
      (hR : (σ.tick.requeue .preempted).abs.ready = n :: R) :
      Step L σ ((σ.tick.requeue .preempted).switch n R x)
  | resume (hv : Valid L σ) (hr : σ.resuming = true) : Step L σ (σ.resume L)
  | userMode (hv : Valid L σ) (hr : σ.resuming = false) (p0 sstatus : Nat) :
      Step L σ (σ.userMode p0 sstatus)
  | sstatus (sstatus : Nat) : Step L σ (σ.on { σ.globals with sstatus })
  | retile (hv : Valid L σ) (hr : σ.resuming = false) {W : Owners} (fbHead : Nat)
      (hW : SameThreads σ.owners W) : Step L σ (σ.retile W fbHead)
  | openSem (hv : Valid L σ) (hr : σ.resuming = false) {s value : Nat} {W : Owners} (fbHead : Nat)
      (hvalue : value < 2 ^ 32) (hnew : s ∉ σ.owners.semaphores L)
      (hW : SameThreads { σ.owners with sems := s :: σ.owners.sems } W) :
      Step L σ (σ.openSem s value W fbHead)
  | closeSem (hv : Valid L σ) (hr : σ.resuming = false) {s : Nat} {W : Owners} (fbHead : Nat)
      (hs : s ∈ σ.owners.sems)
      (hW : SameThreads { σ.owners with sems := σ.owners.sems.filter (· ≠ s) } W) :
      Step L σ (σ.closeSem s W fbHead)
  | create (hv : Valid L σ) (hr : σ.resuming = false) {t j usr kernel : Nat} {W : Owners}
      (fbHead : Nat) (ht : t ∉ σ.owners.tcbs L) (hj : j ∉ σ.owners.semaphores L)
      (hW : SameThreads { σ.owners with
        threads := t :: σ.owners.threads
        join := Function.update σ.owners.join t j
        stack := Function.update σ.owners.stack t usr
        kernelStack := Function.update σ.owners.kernelStack t kernel } W) :
      Step L σ (σ.create t j W fbHead)
  | flush (hv : Valid L σ) (hr : σ.resuming = false) {f : Nat} (h0 : σ.globals.handles.flush = 0)
      (hf : f ∈ σ.owners.threads) (hready : f ∈ σ.abs.ready) : Step L σ (σ.setFlush f)
  | freed (hv : Valid L σ) (hr : σ.resuming = false) (a : Nat) (code : Int)
      (ha : code = MemoryAllocator.memSuccess → a ∉ σ.owners.threads ∧ a ∉ σ.owners.semaphores L) :
      Step L σ (σ.freed a code)
  | exit (hv : Valid L σ) (hr : σ.resuming = false) {n x : Nat} {W : Owners} {R : List Nat}
      (fbHead : Nat) (ht : σ.current ∈ σ.owners.threads)
      (hcur : σ.current ≠ σ.globals.handles.flush)
      (hW : SameThreads { σ.owners with threads := σ.owners.threads.filter (· ≠ σ.current) } W)
      (hR : (σ.exit W fbHead).abs.ready = n :: R) : Step L σ ((σ.exit W fbHead).switch n R x)

/-- A property that the steps of the abstract machine keep. -/
def Kept (L : Layout) (I : Spec → Prop) : Prop := ∀ σ σ', Step L σ σ' → I σ → I σ'

end Os1Kernel
