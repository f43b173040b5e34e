/-! `Queue<T, size>` (`queue.hpp`): the ring buffer that holds the characters on their way to and from
the console. -/

namespace Os1Kernel

structure Queue (T : Type) (size : Nat) where
  head : Nat
  tail : Nat
  count : Nat
  buffer : Nat → T

namespace Queue

variable {T : Type} {size : Nat}

/-- A queue of static storage: its members are zero. -/
def empty [Inhabited T] : Queue T size :=
  { head := 0, tail := 0, count := 0, buffer := fun _ => default }

def getLength (q : Queue T size) : Nat := q.count

def getCapacity (_ : Queue T size) : Nat := size

/-- `Queue::get`; an empty queue answers `T()`. -/
def get [Inhabited T] (q : Queue T size) : T × Queue T size :=
  if 0 < q.count then
    (q.buffer q.head, { q with head := (q.head + 1) % size, count := q.count - 1 })
  else (default, q)

/-- `Queue::put`; a full queue drops the element. -/
def put (q : Queue T size) (t : T) : Queue T size :=
  if q.count < size then
    { q with
      buffer := fun i => if i = q.tail then t else q.buffer i
      tail := (q.tail + 1) % size
      count := q.count + 1 }
  else q

def clear (q : Queue T size) : Queue T size := { q with head := 0, tail := 0, count := 0 }

end Queue

end Os1Kernel
