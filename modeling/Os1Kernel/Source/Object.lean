import Os1Kernel.Lib.Prog
import Os1Kernel.Source.Queue

/-! The kernel's data: the structures in memory by field, the variables outside of them, the image
that the kernel is linked into, and the programs over these. -/

namespace Os1Kernel

open Memory

/-- The fields of the kernel's structures.  A `Sem` is a `value` and, from `suspended_tcbs` on, a
`List<TCB>`; a `TCB` starts with its `Context`. -/
inductive Field
  -- List<TCB>
  | head | tail
  -- Sem
  | value
  -- MemoryAllocator::FreeBlocks
  | fbNext | fbPrev | nBlocks
  -- an element of alloc_table
  | entry
  -- TCB::context
  | ra | usrSp | sysSp | tp | a0 | sstatus
  -- TCB
  | usrStack | sysStack | interrupted | joinSem | sleepFor | timeSlice | status | body | args
  | next | prev
  -- where a handle is stored for the caller of a system call
  | handle
  deriving DecidableEq, Repr

namespace Field

def offset : Field → Nat
  | .head => 0x00
  | .tail => 0x08
  | .value => 0x00
  | .fbNext => 0x00
  | .fbPrev => 0x08
  | .nBlocks => 0x10
  | .entry => 0x00
  | .ra => 0x00
  | .usrSp => 0x08
  | .sysSp => 0x10
  | .tp => 0x20
  | .a0 => 0xf8
  | .sstatus => 0x108
  | .usrStack => 0x110
  | .sysStack => 0x118
  | .interrupted => 0x120
  | .joinSem => 0x128
  | .sleepFor => 0x130
  | .timeSlice => 0x138
  | .status => 0x140
  | .body => 0x148
  | .args => 0x150
  | .next => 0x158
  | .prev => 0x160
  | .handle => 0x00

def size : Field → Nat
  | .value | .nBlocks | .entry | .status => 4
  | .interrupted => 1
  | _ => 8

end Field

instance : FieldLayout Field := ⟨Field.offset, Field.size⟩

/-- The fields of objects, without addresses that overlap. -/
abbrev Cells := View Field

def u32 (n : Nat) : Nat := n % 2 ^ 32
def u64 (n : Nat) : Nat := n % 2 ^ 64

/-- The bits of an `int`, and the `int` of some bits. -/
def intBits (i : Int) : Nat := (i % 2 ^ 32).toNat
def toInt (n : Nat) : Int := if n < 2 ^ 31 then n else n - 2 ^ 32

/-- An `int` converted to `uint64`. -/
def signExtend (i : Int) : Nat := (i % 2 ^ 64).toNat

theorem toInt_intBits {i : Int} (hlow : -2 ^ 31 ≤ i) (hhigh : i < 2 ^ 31) : toInt (intBits i) = i := by
  unfold toInt intBits
  split <;> omega

def memBlockSize : Nat := 64

/-- `Utils::to_blocks` -/
def toBlocks (nBytes : Nat) : Nat := u32 (u64 (nBytes + (memBlockSize - 1)) / memBlockSize)

def sizeofFreeBlocks : Nat := 24
def sizeofSem : Nat := 24
def sizeofTCB : Nat := 360
def sizeofBlocksT : Nat := 4

def defaultStackSize : Nat := 4096
def defaultTimeSlice : Nat := 2
def ioBufferSize : Nat := 2048

/-- A walk along a chain that has not ended after so many nodes has come back to one of them. -/
def walkLimit : Nat := 2 ^ 64

theorem walkLimit_eq : ∃ n, walkLimit = n + 2 := ⟨walkLimit - 2, by decide⟩

/-- `TCBStatus` -/
inductive TCBStatus
  | initializing | suspended | terminating | ready | running
  deriving DecidableEq, Repr

def TCBStatus.code : TCBStatus → Nat
  | .initializing => 0
  | .suspended => 1
  | .terminating => 2
  | .ready => 3
  | .running => 4

/-- What the kernel has done, in order.  The code appends to this record and never reads it. -/
inductive Action
  | called (tcb code p0 : Nat)
  | initialized (sem value : Nat)
  | waitCalled (tcb sem : Nat)
  | blocked (tcb sem : Nat)
  | waitReturned (tcb sem : Nat) (code : Int)
  | signalled (sem : Nat)
  | released (tcb sem : Nat) (waitError : Bool)
  | readied (tcb : Nat)
  | picked (tcb : Nat)
  | created (tcb child : Nat)
  | terminated (tcb : Nat)
  | freed (address : Nat) (code : Int)
  | stored (tcb : Nat) (c : UInt8)
  | received (c : UInt8)
  | got (tcb : Nat) (c : UInt8)
  | ecallReturned (tcb a0 : Nat)
  | ticked
  | started (tcb ticks : Nat)
  | wrapped
  deriving DecidableEq, Repr

/-- What the threads may use: the threads that have not exited, the semaphores that have not been
closed, and the blocks, by address and number, that have been allocated and neither freed nor given
away as a thread's stack.  The code never reads this record either. -/
structure Handles where
  /-- the flush thread -/
  flush : Nat
  threads : List Nat
  sems : List Nat
  blocks : List (Nat × Nat)
  /-- the threads' stacks: the address of the block of each -/
  stackBlocks : List (Nat × Nat)

/-- The kernel's variables other than the objects that are reached by pointers. -/
structure Globals where
  heapStartAddr : Nat
  fbHead : Nat
  allocTable : Nat
  currentTcb : Nat
  kCurrentContext : Nat
  timerTicks : Nat
  putcBuffer : Queue UInt8 ioBufferSize
  getcBuffer : Queue UInt8 ioBufferSize
  /-- the control and status register -/
  sstatus : Nat
  /-- the characters that have been written to `CONSOLE_TX_DATA` -/
  console : List UInt8
  trace : List Action
  handles : Handles

/-- The variables of the image as it is loaded, and `sstatus` as the kernel finds it. -/
def Globals.image (mainTcb sstatus : Nat) : Globals where
  heapStartAddr := 0
  fbHead := 0
  allocTable := 0
  currentTcb := mainTcb
  kCurrentContext := mainTcb
  timerTicks := 0
  putcBuffer := .empty
  getcBuffer := .empty
  sstatus := sstatus
  console := []
  trace := []
  handles := { flush := 0, threads := [], sems := [], blocks := [], stackBlocks := [] }

/-- What `k_save_context` and `k_restore_context` do to the control flow: the rest of the program
waits until `saved` is restored, and the hart goes on in the context of `restored`, whose return
address is `ra`. -/
structure Switch where
  saved : Nat
  restored : Nat
  ra : Nat

/-- Kernel code. -/
abbrev Kernel := Prog Field Globals Switch

def rd (a : Nat) (f : Field) : Kernel Nat := .read a f .ret

def wr (a : Nat) (f : Field) (x : Nat) : Kernel Unit := .write a f x (.ret ())

def globals : Kernel Globals := .get .ret

def modifyGlobals (u : Globals → Globals) : Kernel Unit := .get fun g => .set (u g) (.ret ())

def fault {α : Type} (e : Fault) : Kernel α := .fault e

/-- `p->f = x`, guarded by `if (p)`. -/
def wrIf (p : Nat) (f : Field) (x : Nat) : Kernel Unit := if p ≠ 0 then wr p f x else pure ()

def log (x : Action) : Kernel Unit := modifyGlobals fun g => { g with trace := g.trace ++ [x] }

def record (u : Handles → Handles) : Kernel Unit :=
  modifyGlobals fun g => { g with handles := u g.handles }

/-- The bounds of the heap, `HEAP_START_ADDR` and `HEAP_END_ADDR`; `stop` is its last byte.  The heap
has room for a block and its entry in the table, and for the alignment of the blocks. -/
structure HeapBounds where
  start : Nat
  stop : Nat
  start_pos : 0 < start
  start_le : start ≤ stop
  stop_lt : stop + 1 < 2 ^ 64
  one_le : 1 ≤ (stop - start + 1) / 68
  two_le : (start + (stop - start + 1) / 68 * 4) % 64 ≠ 0 → 2 ≤ (stop - start + 1) / 68
  lt : (stop - start + 1) / 68 < 2 ^ 32

/-- The image that the kernel is linked into: the addresses of its static objects, which lie below
the heap and do not overlap, and of the code that contexts return to. -/
structure Layout where
  heap : HeapBounds
  mainTcb : Nat
  scheduler : Nat
  sleepQueue : Nat
  putcSem : Nat
  getcSem : Nat
  flushPutcLoop : Nat
  kTcbStart : Nat
  /-- where `k_save_context` returns to in `yield` -/
  inYield : Nat
  apart : [(mainTcb, 360), (scheduler, 24), (sleepQueue, 16), (putcSem, 24), (getcSem, 24)].Pairwise
    fun r s => Apart r.1 r.2 s.1 s.2
  inside : ∀ r ∈ [(mainTcb, 360), (scheduler, 24), (sleepQueue, 16), (putcSem, 24), (getcSem, 24)],
    0 < r.1 ∧ r.1 + r.2 ≤ heap.start
  code_ne : kTcbStart ≠ inYield
  code_lt : kTcbStart < 2 ^ 64 ∧ inYield < 2 ^ 64
  flush_pos : 0 < flushPutcLoop ∧ flushPutcLoop < 2 ^ 64

/-- A heap of 59 blocks. -/
def smallHeap : HeapBounds where
  start := 8192
  stop := 12287
  start_pos := by decide
  start_le := by decide
  stop_lt := by decide
  one_le := by decide
  two_le := by decide
  lt := by decide

/-- An image with a heap of 59 blocks. -/
def smallImage : Layout where
  heap := smallHeap
  mainTcb := 4096
  scheduler := 4480
  sleepQueue := 4512
  putcSem := 4544
  getcSem := 4576
  flushPutcLoop := 256
  kTcbStart := 512
  inYield := 520
  apart := by simp [Apart]
  inside := by simp [smallHeap]
  code_ne := by decide
  code_lt := by decide
  flush_pos := by decide

/-- A heap of 272 blocks. -/
def bootHeap : HeapBounds where
  start := 8192
  stop := 26687
  start_pos := by decide
  start_le := by decide
  stop_lt := by decide
  one_le := by decide
  two_le := by decide
  lt := by decide

/-- An image with a heap of 272 blocks. -/
def bootImage : Layout where
  heap := bootHeap
  mainTcb := 4096
  scheduler := 4480
  sleepQueue := 4512
  putcSem := 4544
  getcSem := 4576
  flushPutcLoop := 256
  kTcbStart := 512
  inYield := 520
  apart := by simp [Apart]
  inside := by simp [bootHeap]
  code_ne := by decide
  code_lt := by decide
  flush_pos := by decide

/-- The static objects: their addresses and sizes. -/
def Layout.statics (L : Layout) : List (Nat × Nat) :=
  [(L.mainTcb, 360), (L.scheduler, 24), (L.sleepQueue, 16), (L.putcSem, 24), (L.getcSem, 24)]

theorem Layout.scheduler_ne (L : Layout) : L.scheduler ≠ L.sleepQueue := by
  have hap := L.apart
  simp only [List.pairwise_cons] at hap
  have := hap.2.1 (L.sleepQueue, 16) List.mem_cons_self
  simp only [Apart] at this
  omega

/-! ### The logic of kernel code -/

section Logic

variable {O : Nat → Field → Prop} {v : Cells} {g : Globals} {α : Type}

@[simp] theorem wp_rd {a : Nat} {f : Field} {Q : Nat → Cells → Globals → Prop}
    {T : Switch → Kernel Nat → Cells → Globals → Prop} :
    (rd a f).wp O v g Q T ↔ O a f ∧ Q (v a f) v g := ⟨id, id⟩

@[simp] theorem wp_wr {a x : Nat} {f : Field} {Q : Unit → Cells → Globals → Prop}
    {T : Switch → Kernel Unit → Cells → Globals → Prop} :
    (wr a f x).wp O v g Q T ↔ O a f ∧ Q () (v.set a f x) g := ⟨id, id⟩

@[simp] theorem wp_globals {Q : Globals → Cells → Globals → Prop}
    {T : Switch → Kernel Globals → Cells → Globals → Prop} :
    globals.wp O v g Q T ↔ Q g v g := ⟨id, id⟩

@[simp] theorem wp_modifyGlobals {u : Globals → Globals} {Q : Unit → Cells → Globals → Prop}
    {T : Switch → Kernel Unit → Cells → Globals → Prop} :
    (modifyGlobals u).wp O v g Q T ↔ Q () v (u g) := ⟨id, id⟩

@[simp] theorem wp_log {x : Action} {Q : Unit → Cells → Globals → Prop}
    {T : Switch → Kernel Unit → Cells → Globals → Prop} :
    (log x).wp O v g Q T ↔ Q () v { g with trace := g.trace ++ [x] } := ⟨id, id⟩

@[simp] theorem wp_record {u : Handles → Handles} {Q : Unit → Cells → Globals → Prop}
    {T : Switch → Kernel Unit → Cells → Globals → Prop} :
    (record u).wp O v g Q T ↔ Q () v { g with handles := u g.handles } := ⟨id, id⟩

@[simp] theorem wp_wrIf {p x : Nat} {f : Field} {Q : Unit → Cells → Globals → Prop}
    {T : Switch → Kernel Unit → Cells → Globals → Prop} :
    (wrIf p f x).wp O v g Q T ↔ (p ≠ 0 → O p f) ∧ Q () (if p ≠ 0 then v.set p f x else v) g := by
  unfold wrIf
  split <;> simp_all [Prog.wp_pure]

end Logic

theorem u32_of_lt {n : Nat} (h : n < 2 ^ 32) : u32 n = n := Nat.mod_eq_of_lt h
theorem u64_of_lt {n : Nat} (h : n < 2 ^ 64) : u64 n = n := Nat.mod_eq_of_lt h
theorem u32_lt (n : Nat) : u32 n < 2 ^ 32 := Nat.mod_lt _ (by decide)

/-- A field of eight bytes holds an address as it is. -/
theorem set_word {v : Cells} {a b : Nat} {f g : Field} {x : Nat} (hf : f.size = 8)
    (hx : x < 2 ^ 64) : v.set a f x b g = if b = a ∧ g = f then x else v b g := by
  rw [View.set_apply, show size f = 8 from hf, Nat.mod_eq_of_lt (by simpa using hx)]

/-- A field of four bytes holds a number below `2 ^ 32` as it is. -/
theorem set_half {v : Cells} {a b : Nat} {f g : Field} {x : Nat} (hf : f.size = 4)
    (hx : x < 2 ^ 32) : v.set a f x b g = if b = a ∧ g = f then x else v b g := by
  rw [View.set_apply, show size f = 4 from hf, Nat.mod_eq_of_lt (by simpa using hx)]

theorem setIf_word {v : Cells} {a b : Nat} {f g : Field} {x : Nat} (hf : f.size = 8)
    (hx : x < 2 ^ 64) :
    (if a ≠ 0 then v.set a f x else v) b g = if a ≠ 0 ∧ b = a ∧ g = f then x else v b g := by
  by_cases ha : a = 0
  · simp [ha]
  · simp only [ne_eq, ha, not_false_eq_true, if_true, true_and, set_word hf hx]

end Os1Kernel
