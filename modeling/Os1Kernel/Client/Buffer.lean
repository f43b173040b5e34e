import Mathlib.Algebra.Order.BigOperators.Group.Finset
import Os1Kernel.Console.Buffer
import Os1Kernel.Console.Lock

/-! The bounded buffer of the test programs (`test/buffer.cpp`, and `test/buffer_CPP_API.cpp` with the
C++ interface): any number of threads put and get, and may be preempted between any two steps. -/

namespace Os1Kernel

/-! ### The code -/

namespace Client

/-- The semaphores of a `Buffer`. -/
inductive Gate
  | spaceAvailable
  | itemAvailable
  | mutexHead
  | mutexTail
  deriving DecidableEq

/-- The next step of a thread in `put`, `get` or `getCnt`, with the parameter `val` and the variable
`ret`. -/
inductive Line
  | outside
  -- put
  | waitSpace (val : Int)
  | lockTail (val : Int)
  | store (val : Int)
  | moveTail (val : Int)
  | unlockTail
  | signalItem
  -- get
  | waitItem
  | lockHead
  | load
  | moveHead (ret : Int)
  | unlockHead (ret : Int)
  | signalSpace (ret : Int)
  -- getCnt
  | countLockHead
  | countLockTail
  | countRead
  | countUnlockTail (ret : Int)
  | countUnlockHead (ret : Int)
  deriving DecidableEq

/-- A call of `sem_wait`, and the line after it. -/
def Line.wait : Line → Option (Gate × Line)
  | .waitSpace val => some (.spaceAvailable, .lockTail val)
  | .lockTail val => some (.mutexTail, .store val)
  | .waitItem => some (.itemAvailable, .lockHead)
  | .lockHead => some (.mutexHead, .load)
  | .countLockHead => some (.mutexHead, .countLockTail)
  | .countLockTail => some (.mutexTail, .countRead)
  | _ => none

/-- A call of `sem_signal`, and the line after it. -/
def Line.signal : Line → Option (Gate × Line)
  | .unlockTail => some (.mutexTail, .signalItem)
  | .signalItem => some (.itemAvailable, .outside)
  | .unlockHead ret => some (.mutexHead, .signalSpace ret)
  | .signalSpace _ => some (.spaceAvailable, .outside)
  | .countUnlockTail ret => some (.mutexTail, .countUnlockHead ret)
  | .countUnlockHead _ => some (.mutexHead, .outside)
  | _ => none

inductive Place
  | runs (l : Line)
  /-- it is suspended in the wait before the line -/
  | suspended (l : Line)
  /-- it has been released and has not run since -/
  | granted (l : Line)
  deriving DecidableEq

/-- A `Buffer`, where each thread is, and what has been put and taken so far, by whom. -/
structure State where
  sem : Gate → Semaphore
  buffer : Nat → Int
  head : Nat
  tail : Nat
  place : Nat → Place
  stored : List (Nat × Int)
  taken : List (Nat × Int)

/-- The constructor `Buffer(_cap)`; its field `cap` is `_cap + 1`. -/
def State.start (cap : Nat) (buffer : Nat → Int) : State where
  sem
    | .spaceAvailable => .initSem cap
    | .itemAvailable => .initSem 0
    | .mutexHead => .initSem 1
    | .mutexTail => .initSem 1
  buffer := buffer
  head := 0
  tail := 0
  place := fun _ => .runs .outside
  stored := []
  taken := []

inductive Op
  | put (val : Int)
  | get
  | getCnt
  | wait
  | signal
  | resume
  | go
  deriving DecidableEq

def State.move (B : State) (t : Nat) (p : Place) : State :=
  { B with place := Function.update B.place t p }

def State.setSem (B : State) (g : Gate) (s : Semaphore) : State :=
  { B with sem := Function.update B.sem g s }

/-- The steps of `put`, `get` and `getCnt` that are not calls. -/
def State.go (B : State) (cap t : Nat) : Option State :=
  match B.place t with
  | .runs (.store val) =>
    some { B.move t (.runs (.moveTail val)) with buffer := Function.update B.buffer B.tail val }
  | .runs (.moveTail val) =>
    some { B.move t (.runs .unlockTail) with
      tail := (B.tail + 1) % (cap + 1)
      stored := B.stored ++ [(t, val)] }
  | .runs .load => some (B.move t (.runs (.moveHead (B.buffer B.head))))
  | .runs (.moveHead ret) =>
    some { B.move t (.runs (.unlockHead ret)) with
      head := (B.head + 1) % (cap + 1)
      taken := B.taken ++ [(t, ret)] }
  | .runs .countRead =>
    let ret : Int := if B.head ≤ B.tail then B.tail - B.head else (cap + 1 : Nat) - B.head + B.tail
    some (B.move t (.runs (.countUnlockTail ret)))
  | _ => none

/-- Releases the thread that `sem_signal` has taken out of the queue. -/
def State.release (B : State) : Option Nat → State
  | none => B
  | some u => B.move u (match B.place u with
    | .suspended l => .granted l
    | p => p)

/-- One step of the thread `t`. -/
def State.step (B : State) (cap t : Nat) : Op → Option State
  | .put val => if B.place t = .runs .outside then some (B.move t (.runs (.waitSpace val))) else none
  | .get => if B.place t = .runs .outside then some (B.move t (.runs .waitItem)) else none
  | .getCnt => if B.place t = .runs .outside then some (B.move t (.runs .countLockHead)) else none
  | .wait =>
    match B.place t with
    | .runs l => l.wait.map fun w =>
      let r := (B.sem w.1).wait t
      (B.setSem w.1 r.1).move t (if r.2 then .suspended w.2 else .runs w.2)
    | _ => none
  | .resume =>
    match B.place t with
    | .granted l => some (B.move t (.runs l))
    | _ => none
  | .signal =>
    match B.place t with
    | .runs l => l.signal.map fun w =>
      let r := (B.sem w.1).signal
      ((B.setSem w.1 r.1).move t (.runs w.2)).release r.2
    | _ => none
  | .go => B.go cap t

/-- The states that the threads reach. -/
inductive Reach (U : Console.Users) (cap : Nat) : State → Prop
  | start (buffer : Nat → Int) : Reach U cap (.start cap buffer)
  | step {B B' : State} (t : Nat) (op : Op) (h : Reach U cap B) (ht : t ∈ U.threads)
      (hs : B.step cap t op = some B') : Reach U cap B'

/-! ### Semaphores -/

end Client

/-- The semaphore has `units` to give, and threads wait for it only when it has none. -/
structure Semaphore.Has (s : Semaphore) (units : Nat) : Prop where
  value : s.value = (units : Int) - s.suspended.length
  empty : s.suspended ≠ [] → units = 0

section Has

variable {s : Semaphore} {units t u : Nat} {xs : List Nat}

theorem Semaphore.Has.start (units : Nat) : (initSem units).Has units :=
  ⟨(Int.sub_zero _).symm, fun h => absurd rfl h⟩

theorem Semaphore.Has.unique {k : Nat} (h : s.Has units) (h' : s.Has k) : units = k := by
  by_cases hnil : s.suspended = []
  · have h1 := h.value
    have h2 := h'.value
    omega
  · rw [h.empty hnil, h'.empty hnil]

theorem Semaphore.Has.wait_pos (h : s.Has (units + 1)) (hlt : units < 2 ^ 31) :
    s.wait t = ({ s with value := s.value - 1 }, false) ∧ ({ s with value := s.value - 1 } : Semaphore).Has units := by
  have hnil : s.suspended = [] := by
    by_contra hne
    exact absurd (h.empty hne) (Nat.succ_ne_zero _)
  have hvalue := h.value
  rw [hnil, List.length_nil] at hvalue
  have hbits : toInt (intBits (s.value - 1)) = s.value - 1 := toInt_intBits (by omega) (by omega)
  have hnonneg : ¬s.value - 1 < 0 := by omega
  refine ⟨?_, ?_, fun hne => absurd hnil hne⟩
  · simp only [wait, hbits, hnonneg, if_false]
  · change s.value - 1 = (units : Int) - s.suspended.length
    rw [hnil, List.length_nil]
    omega

theorem Semaphore.Has.wait_zero (h : s.Has 0) (hlen : s.suspended.length < 2 ^ 30) :
    s.wait t = ({ value := s.value - 1, suspended := s.suspended ++ [t] }, true) ∧
      ({ value := s.value - 1, suspended := s.suspended ++ [t] } : Semaphore).Has 0 := by
  have hvalue := h.value
  have hbits : toInt (intBits (s.value - 1)) = s.value - 1 := toInt_intBits (by omega) (by omega)
  have hneg : s.value - 1 < 0 := by omega
  refine ⟨?_, ?_, fun _ => rfl⟩
  · simp only [wait, hbits, hneg, if_true]
  · change s.value - 1 = (0 : Nat) - ((s.suspended ++ [t]).length : Int)
    rw [List.length_append, List.length_singleton]
    omega

theorem Semaphore.Has.signal_nil (h : s.Has units) (hnil : s.suspended = []) (hlt : units < 2 ^ 31 - 1) :
    s.signal = ({ s with value := s.value + 1 }, none) ∧
      ({ s with value := s.value + 1 } : Semaphore).Has (units + 1) := by
  have hvalue := h.value
  rw [hnil, List.length_nil] at hvalue
  have hbits : toInt (intBits (s.value + 1)) = s.value + 1 := toInt_intBits (by omega) (by omega)
  have hpos : ¬s.value + 1 ≤ 0 := by omega
  refine ⟨?_, ?_, fun hne => absurd hnil hne⟩
  · simp only [signal, hbits, hpos, if_false]
  · change s.value + 1 = ((units + 1 : Nat) : Int) - s.suspended.length
    rw [hnil, List.length_nil]
    omega

theorem Semaphore.Has.signal_cons (h : s.Has units) (hcons : s.suspended = u :: xs)
    (hlen : s.suspended.length < 2 ^ 30) :
    units = 0 ∧ s.signal = ({ value := s.value + 1, suspended := xs }, some u) ∧
      ({ value := s.value + 1, suspended := xs } : Semaphore).Has 0 := by
  have hzero : units = 0 := h.empty (by rw [hcons]; simp)
  have hvalue := h.value
  rw [hcons, List.length_cons] at hvalue hlen
  have hbits : toInt (intBits (s.value + 1)) = s.value + 1 := toInt_intBits (by omega) (by omega)
  have hle : s.value + 1 ≤ 0 := by omega
  refine ⟨hzero, ?_, ?_, fun _ => rfl⟩
  · simp only [signal, hbits, hle, if_true, hcons, List.tail_cons, List.head?_cons]
  · change s.value + 1 = ((0 : Nat) : Int) - (xs.length : Int)
    omega

end Has

namespace Client

/-! ### Units -/

/-- The wait before a line. -/
def Line.gate : Line → Option Gate
  | .lockTail _ => some .spaceAvailable
  | .store _ | .countRead => some .mutexTail
  | .lockHead => some .itemAvailable
  | .load | .countLockTail => some .mutexHead
  | _ => none

/-- The units of a semaphore that a thread at a line has taken and not given back, or that it owes: the
space of an item that it puts, the item that it takes, and the locks. -/
def Line.holds : Gate → Line → Nat
  | .spaceAvailable, .lockTail _ | .spaceAvailable, .store _ | .spaceAvailable, .moveTail _
  | .spaceAvailable, .unlockHead _ | .spaceAvailable, .signalSpace _ => 1
  | .itemAvailable, .lockHead | .itemAvailable, .load | .itemAvailable, .moveHead _
  | .itemAvailable, .unlockTail | .itemAvailable, .signalItem => 1
  | .mutexTail, .store _ | .mutexTail, .moveTail _ | .mutexTail, .unlockTail
  | .mutexTail, .countRead | .mutexTail, .countUnlockTail _ => 1
  | .mutexHead, .load | .mutexHead, .moveHead _ | .mutexHead, .unlockHead _
  | .mutexHead, .countLockTail | .mutexHead, .countRead | .mutexHead, .countUnlockTail _
  | .mutexHead, .countUnlockHead _ => 1
  | _, _ => 0

def Place.holds (g : Gate) : Place → Nat
  | .runs l | .granted l => l.holds g
  | .suspended l => if l.gate = some g then 0 else l.holds g

/-- The units that there are, when the buffer has `n` items. -/
def Gate.total (cap n : Nat) : Gate → Nat
  | .spaceAvailable => cap - n
  | .itemAvailable => n
  | .mutexHead | .mutexTail => 1

theorem Line.holds_wait {l l' : Line} {g : Gate} (h : l.wait = some (g, l')) (f : Gate) :
    l'.gate = some g ∧ l'.holds f = l.holds f + (if f = g then 1 else 0) := by
  cases l <;> simp only [Line.wait, Option.some.injEq, Prod.mk.injEq, reduceCtorEq] at h
  all_goals
    obtain ⟨rfl, rfl⟩ := h
    cases f <;> simp [Line.gate, Line.holds]

theorem Line.holds_signal {l l' : Line} {g : Gate} (h : l.signal = some (g, l')) (f : Gate) :
    l.holds f = l'.holds f + (if f = g then 1 else 0) := by
  cases l <;> simp only [Line.signal, Option.some.injEq, Prod.mk.injEq, reduceCtorEq] at h
  all_goals
    obtain ⟨rfl, rfl⟩ := h
    cases f <;> simp [Line.holds]

theorem Line.holds_gate {l : Line} {g : Gate} (h : l.gate = some g) : l.holds g = 1 := by
  cases l <;> simp only [Line.gate, Option.some.injEq, reduceCtorEq] at h
  all_goals
    subst h
    rfl

/-- What the threads hold together. -/
def held (T : Finset Nat) (g : Gate) (place : Nat → Place) : Nat := ∑ t ∈ T, (place t).holds g

theorem held_move {T : Finset Nat} {t : Nat} (ht : t ∈ T) (g : Gate) (place : Nat → Place) (p : Place) :
    held T g (Function.update place t p) + (place t).holds g = held T g place + p.holds g := by
  have hrest : ∑ u ∈ T.erase t, (Function.update place t p u).holds g = ∑ u ∈ T.erase t, (place u).holds g :=
    Finset.sum_congr rfl fun u hu => by rw [Function.update_of_ne (Finset.ne_of_mem_erase hu)]
  rw [held, held, ← Finset.add_sum_erase T _ ht, ← Finset.add_sum_erase T (fun t => (place t).holds g) ht,
    hrest, Function.update_self]
  omega

theorem holds_le_held {T : Finset Nat} {t : Nat} (ht : t ∈ T) (g : Gate) (place : Nat → Place) :
    (place t).holds g ≤ held T g place :=
  Finset.single_le_sum (f := fun t => (place t).holds g) (fun _ _ => Nat.zero_le _) ht

/-- Two threads. -/
theorem holds_add_le_held {T : Finset Nat} {t u : Nat} (ht : t ∈ T) (hu : u ∈ T) (hne : t ≠ u) (g : Gate)
    (place : Nat → Place) : (place t).holds g + (place u).holds g ≤ held T g place := by
  rw [held, ← Finset.add_sum_erase T _ ht]
  exact Nat.add_le_add_left (Finset.single_le_sum (f := fun t => (place t).holds g)
    (fun _ _ => Nat.zero_le _) (Finset.mem_erase.mpr ⟨hne.symm, hu⟩)) _

end Client

end Os1Kernel
