import Os1Kernel.Source.TrapHandlers

/-! The hart, the boot of the kernel, and the steps of a run: traps, the flush thread, and what user
code does to memory.  A trap runs its handler until the hart returns to user code, be it that of the
interrupted thread or of another one. -/

namespace Os1Kernel

open Memory

/-- A state of the machine.  `saved` holds what is left to do for the contexts that `k_save_context`
has filled, and `supervisor` is the mode of the code that runs outside of traps.  `flushSstatus` is
the local variable of `flush_putc_buffer` in the flush thread. -/
structure Machine where
  mem : Mem
  globals : Globals
  saved : Nat → Option (Kernel Unit)
  supervisor : Bool
  flushSstatus : Option Nat

/-- The bit `SPP` of `sstatus`. -/
def spp (sstatus : Nat) : Bool := sstatus.testBit 8

def setSpp (sstatus : Nat) (b : Bool) : Nat :=
  if spp sstatus = b then sstatus else if b then sstatus + 2 ^ 8 else sstatus - 2 ^ 8

namespace Machine

/-- The end of a switch: the hart goes on with a context that `k_save_context` has filled, or starts
a new thread. -/
def switchTo (L : Layout) (run : Kernel Unit → Machine → Option Machine) (s : Switch)
    (k : Kernel Unit) (M : Machine) : Option Machine :=
  let saved := if s.saved ≠ 0 then Function.update M.saved s.saved (some k) else M.saved
  let M := { M with saved }
  if s.ra = L.kTcbStart then
    some { M with globals := { M.globals with
      trace := M.globals.trace ++ [.started s.restored M.globals.timerTicks] } }
  else if s.ra = L.inYield then (saved s.restored).bind fun k' => run k' M
  else none

/-- Kernel code, until the trap returns.  Code that faults never does. -/
def exec (L : Layout) : Nat → Kernel Unit → Machine → Option Machine
  | 0, _, _ => none
  | fuel + 1, p, M =>
    match p.run M.mem M.globals with
    | .done () m g => some { M with mem := m, globals := g }
    | .fault _ => none
    | .suspended s k m g => switchTo L (exec L fuel) s k { M with mem := m, globals := g }

/-- What the hart does when it enters a trap, and when it leaves it by `sret`. -/
def enter (M : Machine) : Machine :=
  { M with globals := { M.globals with sstatus := setSpp M.globals.sstatus M.supervisor } }

def sret (M : Machine) : Machine :=
  { M with
    supervisor := spp M.globals.sstatus
    globals := { M.globals with sstatus := setSpp M.globals.sstatus false } }

def trap (L : Layout) (p : Kernel Unit) (M : Machine) : Option Machine :=
  (M.enter.exec L walkLimit p).map sret

end Machine

/-- What happens to the machine: an environment call, an interrupt, a part of `flush_putc_buffer`, or
user code that changes memory. -/
inductive Event
  | ecall (code p0 p1 p2 p3 : UInt64)
  | timer
  | console (rx : Option UInt8)
  | flushRead
  | flushPutc (tx : Nat)
  | user (m : Mem)

/-- The trap `k_ecall_trap`. -/
def ecallTrap (L : Layout) (code p0 p1 p2 p3 : Nat) : Kernel Unit := do
  handleEcall L code p0 p1 p2 p3
  ecallReturn

def Machine.step (L : Layout) (M : Machine) : Event → Option Machine
  | .ecall code p0 p1 p2 p3 =>
    M.trap L (ecallTrap L code.toNat p0.toNat p1.toNat p2.toNat p3.toNat)
  | .timer => M.trap L (handleTimer L)
  | .console rx => M.trap L (handleConsole L rx)
  | .flushRead => some { M with flushSstatus := some M.globals.sstatus }
  | .flushPutc tx =>
    M.flushSstatus.bind fun sstatus => (M.exec L walkLimit (flushPutcBuffer L tx)).map fun M =>
      { M with flushSstatus := none, globals := { M.globals with sstatus } }
  | .user m => some { M with mem := m }

/-! ### Boot -/

/-- A structure of `n` bytes of static storage. -/
def zeroFill (m : Mem) (r : Nat × Nat) : Mem := store m r.1 r.2 0

/-- The image in memory: the static objects are zero but for `main_tcb`. -/
def loadStatics (L : Layout) (m : Mem) : Mem :=
  let m := [(L.mainTcb, 360), (L.scheduler, 24), (L.sleepQueue, 16), (L.putcSem, 24),
    (L.getcSem, 24)].foldl zeroFill m
  let m := m.assign L.mainTcb Field.timeSlice defaultTimeSlice
  m.assign L.mainTcb Field.status TCBStatus.running.code

/-- `main`, up to the initialisation of the scheduler. -/
def mainInit (L : Layout) : Kernel Unit := do
  MemoryAllocator.construct L.heap.start L.heap.stop
  wr L.mainTcb .sysStack (← MemoryAllocator.alloc (toBlocks defaultStackSize))
  wr L.mainTcb .sysSp (u64 ((← rd L.mainTcb .sysStack) + defaultStackSize))
  Sem.initializeSem L.putcSem ioBufferSize
  Sem.initializeSem L.getcSem 0

/-- The address of `Scheduler::flush_tcb`. -/
def Layout.flushTcb (L : Layout) : Nat := L.scheduler + 16

def Machine.a0 (M : Machine) : Nat := M.mem.field M.globals.currentTcb Field.a0

/-- `Scheduler::initialize`: the flush thread is created like any other thread. -/
def schedulerInit (L : Layout) (M : Machine) : Option Machine := do
  let M ← M.trap L (ecallTrap L 0x01 (toBlocks defaultStackSize) 0 0 0)
  if M.a0 = 0 then none
  else
    let M ← M.trap L (ecallTrap L 0x11 L.flushTcb L.flushPutcLoop 0 (M.a0 + defaultStackSize))
    let flush := M.mem.field L.flushTcb Field.handle
    if flush = 0 then none
    else some { M with globals := { M.globals with handles := { M.globals.handles with flush } } }

/-- The boot of the kernel on any memory, if it can create the flush thread. -/
def boot (L : Layout) (m : Mem) (sstatus : Nat) : Option Machine := do
  let M ← Machine.exec L walkLimit (mainInit L)
    { mem := loadStatics L m, globals := .image L.mainTcb sstatus, saved := fun _ => none,
      supervisor := true, flushSstatus := none }
  schedulerInit L M

/-! ### What user code may do -/

/-- The byte at `x` belongs to a block or a stack of user code, or lies outside of the kernel's static
objects and of the heap. -/
def UserByte (L : Layout) (M : Machine) (x : Nat) : Prop :=
  (∃ t ∈ M.globals.handles.blocks, t.1 ≤ x ∧ x < t.1 + 64 * t.2) ∨
  (∃ t ∈ M.globals.handles.stackBlocks, t.2 ≤ x ∧ x < t.2 + defaultStackSize) ∨
  (x < L.heap.start ∨ L.heap.stop < x) ∧ ∀ r ∈ [(L.mainTcb, 360), (L.scheduler, 24),
    (L.sleepQueue, 16), (L.putcSem, 24), (L.getcSem, 24)], x < r.1 ∨ r.1 + r.2 ≤ x

def UserWord (L : Layout) (M : Machine) (p : Nat) : Prop :=
  p ≠ 0 ∧ ∀ x, p ≤ x → x < p + 8 → UserByte L M x

/-- `free` rejects the address: it is null, or not aligned, or inside the heap where no allocation
starts. -/
def FreeRejects (L : Layout) (M : Machine) (a : Nat) : Prop :=
  a = 0 ∨ a % memBlockSize ≠ 0 ∨
  (M.globals.heapStartAddr ≤ a ∧
    a < M.globals.heapStartAddr + 64 * MemoryAllocator.totalBlocks L.heap.start L.heap.stop) ∧
  M.mem.field (MemoryAllocator.entryOf M.globals a) Field.entry = 0

/-- User code keeps to the interface: handles of threads that have not exited and of semaphores that
have not been closed, blocks of its own, and of the flush thread only what its loop does. -/
def Allowed (L : Layout) (M : Machine) : Event → Prop
  | .ecall code p0 p1 _ p3 =>
    let h := M.globals.handles
    (M.globals.currentTcb = h.flush → code = 0x13) ∧
    (code = 0x02 → (∃ n, (p0.toNat, n) ∈ h.blocks) ∨ FreeRejects L M p0.toNat) ∧
    (code = 0x11 → p0 = 0 ∨ UserWord L M p0.toNat ∧ (p1 = 0 ∨ p3 = 0 ∨
      (p3.toNat - defaultStackSize, toBlocks defaultStackSize) ∈ h.blocks ∧
      (p0.toNat + 8 ≤ p3.toNat - defaultStackSize ∨ p3.toNat ≤ p0.toNat))) ∧
    (code = 0x14 → p0 = 0 ∨ p0.toNat ∈ h.threads) ∧
    (code = 0x21 → p0 = 0 ∨ UserWord L M p0.toNat) ∧
    (code = 0x22 ∨ code = 0x23 ∨ code = 0x24 → p0 = 0 ∨ p0.toNat ∈ h.sems)
  | .timer => True
  | .console _ => True
  | .flushRead => M.globals.currentTcb = M.globals.handles.flush
  | .flushPutc _ => M.globals.currentTcb = M.globals.handles.flush
  | .user m => M.globals.currentTcb ≠ M.globals.handles.flush ∧ ∀ x, ¬UserByte L M x → m x = M.mem x

/-- Where `create_tcb` gets a block for the thread but none for its kernel stack, `free_tcb` frees
what the block holds as `join_sem`: `free` rejects that, or it is the user stack that has just been
freed. -/
def LeftoverRejected (L : Layout) (M : Machine) : Event → Prop
  | .ecall code _ _ _ p3 => code = 0x11 → ∀ tcb m g m' g',
    (MemoryAllocator.alloc (toBlocks sizeofTCB)).run M.mem M.globals = .done tcb m g → tcb ≠ 0 →
    (MemoryAllocator.alloc (toBlocks defaultStackSize)).run m g = .done 0 m' g' →
    FreeRejects L { M with mem := m', globals := g' } (M.mem.field tcb Field.joinSem) ∨
      M.mem.field tcb Field.joinSem = p3.toNat - defaultStackSize
  | _ => True

/-- The states that the kernel reaches by steps that satisfy `ok`. -/
inductive Reach (L : Layout) (ok : Machine → Event → Prop) : Machine → Prop
  | boot {M : Machine} (m : Mem) (sstatus : Nat) (h : boot L m sstatus = some M) : Reach L ok M
  | step {M M' : Machine} (e : Event) (h : Reach L ok M) (ha : Allowed L M e) (hok : ok M e)
      (hs : M.step L e = some M') : Reach L ok M'

end Os1Kernel
