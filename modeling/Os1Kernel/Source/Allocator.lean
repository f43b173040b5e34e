import Os1Kernel.Source.Object

/-! `MemoryAllocator` (`k_memory.cpp`).  The allocation table is an array of `blocks_t` at the old
`HEAP_START_ADDR`; the blocks start at the new one; free blocks hold the headers of a doubly linked
list in the memory that they manage. -/

namespace Os1Kernel.MemoryAllocator

open Memory

def memSuccess : Int := 0
def memFailed : Int := -1
def addressIsNull : Int := -2
def addressIsNotAligned : Int := -3
def addressIsNotUsed : Int := -4

/-- The number of blocks if the alignment of the blocks takes no room. -/
def maxBlocks (heapStartAddr heapEndAddr : Nat) : Nat :=
  u32 (u64 (heapEndAddr + 2 ^ 64 - heapStartAddr + 1) / (memBlockSize + sizeofBlocksT))

/-- The number of bytes in front of the blocks behind the last multiple of the block size. -/
def misalignment (heapStartAddr blocks : Nat) : Nat :=
  u64 (heapStartAddr + blocks * sizeofBlocksT) % memBlockSize

/-- `total_blocks` of the constructor: one block is given up for the alignment of the others. -/
def totalBlocks (heapStartAddr heapEndAddr : Nat) : Nat :=
  let blocks := maxBlocks heapStartAddr heapEndAddr
  if misalignment heapStartAddr blocks ≠ 0 then u32 (blocks + 2 ^ 32 - 1) else blocks

/-- `padding_size` of the constructor. -/
def paddingSize (heapStartAddr heapEndAddr : Nat) : Nat :=
  if misalignment heapStartAddr (maxBlocks heapStartAddr heapEndAddr) ≠ 0 then
    u32 (memBlockSize - misalignment heapStartAddr (totalBlocks heapStartAddr heapEndAddr))
  else 0

/-- The loop of the constructor, which writes the entries below the given one. -/
def zeroTable (allocTable : Nat) : Nat → Kernel Unit
  | 0 => pure ()
  | i + 1 => do
    zeroTable allocTable i
    wr (allocTable + i * sizeofBlocksT) .entry 0

/-- `MemoryAllocator::MemoryAllocator` -/
def construct (heapStartAddr heapEndAddr : Nat) : Kernel Unit := do
  let blocks := totalBlocks heapStartAddr heapEndAddr
  let padding := paddingSize heapStartAddr heapEndAddr
  modifyGlobals fun g => { g with allocTable := heapStartAddr }
  zeroTable heapStartAddr blocks
  let heapStartAddr := u64 (heapStartAddr + blocks * sizeofBlocksT + padding)
  modifyGlobals fun g => { g with heapStartAddr, fbHead := heapStartAddr }
  wr heapStartAddr .nBlocks blocks
  wr heapStartAddr .fbNext 0
  wr heapStartAddr .fbPrev 0

/-- The address of the table entry for the block at `address`.  The subtraction is modular. -/
def entryOf (g : Globals) (address : Nat) : Nat :=
  u64 (g.allocTable + u64 (address + 2 ^ 64 - g.heapStartAddr) / memBlockSize * sizeofBlocksT)

/-- `fb->n_blocks`, if there is an `fb`. -/
def blocksOf (fb : Nat) : Kernel Nat := if fb ≠ 0 then rd fb .nBlocks else pure 0

/-- The loop of `alloc`: the best fit from `curr` on, given the best one before it. -/
def findBest (nBlocks : Nat) : Nat → Nat → Nat → Kernel Nat
  | 0, _, _ => fault .diverges
  | fuel + 1, curr, best => do
    let bestBlocks ← blocksOf best
    if curr ≠ 0 ∧ (best = 0 ∨ bestBlocks ≠ nBlocks) then
      let currBlocks ← rd curr .nBlocks
      let next ← rd curr .fbNext
      if nBlocks ≤ currBlocks ∧ (best = 0 ∨ currBlocks < bestBlocks) then
        findBest nBlocks fuel next curr
      else findBest nBlocks fuel next best
    else pure best

/-- `fb_head = fb`, guarded by `if (fb_head == best)`. -/
def moveHead (best fb : Nat) : Kernel Unit :=
  modifyGlobals fun g => { g with fbHead := if g.fbHead = best then fb else g.fbHead }

/-- The header of the blocks that `alloc` leaves free takes the place of `best` in the list. -/
def splitFree (best nBlocks remainingBlocks : Nat) : Kernel Unit := do
  let newFb := u64 (best + nBlocks * memBlockSize)
  wr newFb .nBlocks remainingBlocks
  wr newFb .fbNext (← rd best .fbNext)
  wr newFb .fbPrev (← rd best .fbPrev)
  wrIf (← rd newFb .fbPrev) .fbNext newFb
  wrIf (← rd newFb .fbNext) .fbPrev newFb
  moveHead best newFb

def unchainFree (best : Nat) : Kernel Unit := do
  wrIf (← rd best .fbPrev) .fbNext (← rd best .fbNext)
  wrIf (← rd best .fbNext) .fbPrev (← rd best .fbPrev)
  moveHead best (← rd best .fbNext)

/-- `MemoryAllocator::alloc`; the result 0 is the null pointer. -/
def alloc (nBlocks : Nat) : Kernel Nat := do
  let nBlocks := u32 nBlocks
  let best ← findBest nBlocks walkLimit (← globals).fbHead 0
  if best ≠ 0 then
    let remainingBlocks := (← rd best .nBlocks) - nBlocks
    if toBlocks sizeofFreeBlocks ≤ remainingBlocks then splitFree best nBlocks remainingBlocks
    else unchainFree best
    wr (entryOf (← globals) best) .entry nBlocks
    pure best
  else pure 0

/-- The loop of `free`: the last free header before `newFb`, or nothing if `newFb` lies in free
blocks. -/
def findPrev (newFb : Nat) : Nat → Nat → Nat → Kernel (Option Nat)
  | 0, _, _ => fault .diverges
  | fuel + 1, currFb, prev => do
    if currFb ≠ 0 ∧ newFb ≥ currFb then
      let currBlocks ← rd currFb .nBlocks
      if newFb < u64 (currFb + currBlocks * memBlockSize) then pure none
      else findPrev newFb fuel (← rd currFb .fbNext) currFb
    else pure (some prev)

/-- The blocks at `newFb` enter the list after `prev`. -/
def chainFree (newFb prev nBlocks : Nat) : Kernel Unit := do
  wr newFb .nBlocks nBlocks
  if prev ≠ 0 then
    wr newFb .fbPrev prev
    wr newFb .fbNext (← rd prev .fbNext)
    wrIf (← rd newFb .fbNext) .fbPrev newFb
    wr prev .fbNext newFb
  else
    let fbHead := (← globals).fbHead
    wr newFb .fbNext fbHead
    wr newFb .fbPrev 0
    wrIf fbHead .fbPrev newFb
    modifyGlobals fun g => { g with fbHead := newFb }

/-- `MemoryAllocator::merge_blocks` -/
def mergeBlocks (fb : Nat) : Kernel Int := do
  if fb = 0 then pure addressIsNull
  else
    let next ← rd fb .fbNext
    let blocks ← rd fb .nBlocks
    if next ≠ 0 ∧ next = u64 (fb + blocks * memBlockSize) then
      wr fb .nBlocks (blocks + (← rd next .nBlocks))
      wr fb .fbNext (← rd next .fbNext)
      wrIf (← rd fb .fbNext) .fbPrev fb
      pure memSuccess
    else pure memFailed

/-- `free` after its search. -/
def freeAfter (newFb prev nBlocks : Nat) : Kernel Int := do
  chainFree newFb prev nBlocks
  wr (entryOf (← globals) newFb) .entry 0
  let _ ← mergeBlocks newFb
  let _ ← mergeBlocks (← rd newFb .fbPrev)
  pure memSuccess

/-- `MemoryAllocator::free` -/
def free (address : Nat) : Kernel Int := do
  if address = 0 then pure addressIsNull
  else if address % memBlockSize ≠ 0 then pure addressIsNotAligned
  else
    let nBlocks ← rd (entryOf (← globals) address) .entry
    if nBlocks = 0 then pure addressIsNotUsed
    else
      match ← findPrev address walkLimit (← globals).fbHead 0 with
      | none => pure addressIsNotUsed
      | some prev => freeAfter address prev nBlocks

end Os1Kernel.MemoryAllocator
