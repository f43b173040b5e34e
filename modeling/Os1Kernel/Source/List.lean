import Os1Kernel.Source.Object

/-! `List<TCB>` (`list.hpp`): lists threaded through the `next` and `prev` fields of their elements.
`this` is the address of the list. -/

namespace Os1Kernel.ListTCB

open Memory

def isEmpty (this : Nat) : Kernel Bool := do
  pure ((← rd this .head) == 0)

def peekFirst (this : Nat) : Kernel Nat := rd this .head

/-- `List::initialize` -/
def initializeList (this : Nat) : Kernel Unit := do
  wr this .head 0
  wr this .tail 0

/-- `List::unlink` -/
def unlink (t : Nat) : Kernel Unit :=
  if t ≠ 0 then do
    wr t .next 0
    wr t .prev 0
  else pure ()

/-- `List::set_first` -/
def setFirst (this t : Nat) : Kernel Unit := do
  if t ≠ 0 ∧ (← isEmpty this) then
    unlink t
    wr this .head t
    wr this .tail t
  else pure ()

/-- `List::add_first` -/
def addFirst (this t : Nat) : Kernel Unit := do
  if ← isEmpty this then setFirst this t
  else if t ≠ 0 then
    wr t .prev 0
    wr t .next (← rd this .head)
    wr (← rd this .head) .prev t
    wr this .head t
  else pure ()

/-- `List::add_last` -/
def addLast (this t : Nat) : Kernel Unit := do
  if ← isEmpty this then setFirst this t
  else if t ≠ 0 then
    wr t .next 0
    wr t .prev (← rd this .tail)
    wr (← rd this .tail) .next t
    wr this .tail t
  else pure ()

/-- The part of `take_first` for a list with elements. -/
def dropFirst (this : Nat) : Kernel Unit := do
  wr this .head (← rd (← rd this .head) .next)
  if (← rd this .head) = 0 then wr this .tail 0
  else wr (← rd this .head) .prev 0

/-- `List::take_first` -/
def takeFirst (this : Nat) : Kernel Nat := do
  let t ← rd this .head
  if ← isEmpty this then pure () else dropFirst this
  unlink t
  pure t

/-- The part of `take_last` for a list with elements. -/
def dropLast (this : Nat) : Kernel Unit := do
  wr this .tail (← rd (← rd this .tail) .prev)
  if (← rd this .tail) = 0 then wr this .head 0
  else wr (← rd this .tail) .next 0

/-- `List::take_last` -/
def takeLast (this : Nat) : Kernel Nat := do
  let t ← rd this .tail
  if ← isEmpty this then pure () else dropLast this
  unlink t
  pure t

end Os1Kernel.ListTCB
