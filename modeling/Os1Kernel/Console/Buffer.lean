import Os1Kernel.Lib.Refine
import Os1Kernel.Source.Queue
import Mathlib.Data.Nat.ModEq

/-! The ring buffer is a bounded queue: first in, first out. -/

namespace Os1Kernel

/-! ### A bounded queue -/

namespace Fifo

variable {T : Type}

def put (size : Nat) (xs : List T) (t : T) : List T := if xs.length < size then xs ++ [t] else xs

def get [Inhabited T] : List T → T × List T
  | [] => (default, [])
  | x :: xs => (x, xs)

end Fifo

namespace Queue

/-- The operations on a queue. -/
inductive Op (T : Type)
  | put (t : T)
  | get
  | clear

variable {T : Type} {size : Nat}

/-- An operation of the ring buffer, with what it returns. -/
def Op.run [Inhabited T] : Op T → Queue T size → Option T × Queue T size
  | .put t, q => (none, q.put t)
  | .get, q => (some q.get.1, q.get.2)
  | .clear, q => (none, q.clear)

/-- The operation on the sequence of the elements. -/
def Op.spec [Inhabited T] (size : Nat) : Op T → List T → Option T × List T
  | .put t, xs => (none, Fifo.put size xs t)
  | .get, xs => (some (Fifo.get xs).1, (Fifo.get xs).2)
  | .clear, _ => (none, [])

/-- The buffer holds the elements from `head` on, around its end. -/
structure IsFifo (q : Queue T size) (xs : List T) : Prop where
  head_lt : q.head < size
  tail_lt : q.tail < size
  count_eq : q.count = xs.length
  length_le : xs.length ≤ size
  tail_eq : q.tail = (q.head + q.count) % size
  cells : ∀ i (h : i < xs.length), q.buffer ((q.head + i) % size) = xs[i]

/-- Places less than the size apart are different elements of the buffer. -/
theorem wrap_ne {head i j : Nat} (hij : i < j) (hj : j < size) :
    (head + i) % size ≠ (head + j) % size := by
  intro heq
  have hmod : i % size = j % size := Nat.ModEq.add_left_cancel' head heq
  rw [Nat.mod_eq_of_lt (hij.trans hj), Nat.mod_eq_of_lt hj] at hmod
  omega

namespace IsFifo

variable {q : Queue T size} {xs : List T} {t : T}

theorem start (hsize : 1 ≤ size) (buffer : Nat → T) :
    IsFifo (⟨0, 0, 0, buffer⟩ : Queue T size) [] where
  head_lt := hsize
  tail_lt := hsize
  count_eq := rfl
  length_le := Nat.zero_le _
  tail_eq := (Nat.zero_mod size).symm
  cells _ h := absurd h (Nat.not_lt_zero _)

theorem put (h : IsFifo q xs) (hlt : xs.length < size) : IsFifo (q.put t) (xs ++ [t]) := by
  have hcount := h.count_eq
  rw [Queue.put, if_pos (by omega)]
  refine ⟨h.head_lt, Nat.mod_lt _ (by omega), by simp [hcount], by simp; omega, ?_, fun i hi => ?_⟩
  · change (q.tail + 1) % size = (q.head + (q.count + 1)) % size
    rw [h.tail_eq, Nat.mod_add_mod, Nat.add_assoc]
  · change (if (q.head + i) % size = q.tail then t else q.buffer ((q.head + i) % size)) = _
    rw [h.tail_eq, hcount]
    rw [List.length_append, List.length_singleton] at hi
    rcases Nat.lt_or_eq_of_le (Nat.le_of_lt_succ hi) with hlow | rfl
    · rw [if_neg (wrap_ne hlow hlt), h.cells i hlow, List.getElem_append_left hlow]
    · rw [if_pos rfl, List.getElem_concat_length rfl]

theorem put_full (h : IsFifo q xs) (hfull : xs.length = size) : q.put t = q := by
  have hcount := h.count_eq
  rw [Queue.put, if_neg (by omega)]

theorem clear (h : IsFifo q xs) : IsFifo q.clear [] :=
  .start (Nat.lt_of_le_of_lt (Nat.zero_le _) h.head_lt) q.buffer

variable [Inhabited T]

theorem get_nil (h : IsFifo q []) : q.get = (default, q) := by
  have hcount : q.count = 0 := h.count_eq
  rw [Queue.get, if_neg (by omega)]

theorem get_cons (h : IsFifo q (t :: xs)) : q.get.1 = t ∧ IsFifo q.get.2 xs := by
  have hcount : q.count = xs.length + 1 := h.count_eq
  have hle : xs.length + 1 ≤ size := h.length_le
  have hshift (i : Nat) : ((q.head + 1) % size + i) % size = (q.head + (i + 1)) % size := by
    rw [Nat.mod_add_mod, Nat.add_assoc, Nat.add_comm 1 i]
  rw [Queue.get, if_pos (by omega)]
  refine ⟨?_, Nat.mod_lt _ (by omega), h.tail_lt, ?_, by omega, ?_, fun i hi => ?_⟩
  · have hfirst := h.cells 0 (by simp)
    rwa [Nat.add_zero, Nat.mod_eq_of_lt h.head_lt] at hfirst
  · change q.count - 1 = xs.length
    omega
  · change q.tail = ((q.head + 1) % size + (q.count - 1)) % size
    rw [hshift, h.tail_eq, hcount, Nat.add_sub_cancel]
  · change q.buffer (((q.head + 1) % size + i) % size) = xs[i]
    rw [hshift, h.cells (i + 1) (by simpa using hi), List.getElem_cons_succ]

end IsFifo

variable [Inhabited T]

/-- An operation writes to the buffer only. -/
theorem run_buffer {q : Queue T size} {xs : List T} (h : IsFifo q xs) (o : Op T) {i : Nat}
    (hi : size ≤ i) : (o.run q).2.buffer i = q.buffer i := by
  cases o with
  | put t =>
    have htail := h.tail_lt
    simp only [Op.run, Queue.put]
    split
    · exact if_neg (by omega)
    · rfl
  | get =>
    simp only [Op.run, Queue.get]
    split <;> rfl
  | clear => rfl

/-- Every operation on the ring buffer is the one on the sequence. -/
theorem simulates (buffer : Nat → T) : Refine.Simulates Op.run (Op.spec size)
    fun (q : Queue T size) xs => IsFifo q xs ∧ ∀ i, size ≤ i → q.buffer i = buffer i := by
  rintro o q xs ⟨h, hout⟩
  have hout' : ∀ i, size ≤ i → (o.run q).2.buffer i = buffer i := fun i hi =>
    (run_buffer h o hi).trans (hout i hi)
  cases o with
  | put t =>
    refine ⟨rfl, ?_, hout'⟩
    simp only [Op.run, Op.spec, Fifo.put]
    split
    · next hlt => exact h.put hlt
    · next hge =>
      rw [h.put_full (Nat.le_antisymm h.length_le (Nat.not_lt.mp hge))]
      exact h
  | get =>
    cases xs with
    | nil =>
      simp only [Op.run, Op.spec, Fifo.get, h.get_nil, true_and]
      exact ⟨h, hout⟩
    | cons x xs =>
      obtain ⟨hfirst, hrest⟩ := h.get_cons
      exact ⟨congrArg some hfirst, hrest, hout'⟩
  | clear => exact ⟨rfl, h.clear, hout'⟩

/-- After any operations the ring buffer answers as a bounded queue does and holds its elements, and
its indices are inside of the buffer. -/
theorem fifo_of_operations (hsize : 1 ≤ size) (buffer : Nat → T) (ops : List (Op T)) :
    ∃ q xs, Refine.runAll Op.run ops (⟨0, 0, 0, buffer⟩ : Queue T size) =
        ((Refine.runAll (Op.spec size) ops []).1, q) ∧
      (Refine.runAll (Op.spec size) ops []).2 = xs ∧ IsFifo q xs ∧
      (∀ i, size ≤ i → q.buffer i = buffer i) ∧
      (∀ t, xs.length < size → IsFifo (q.put t) (xs ++ [t])) ∧
      (∀ t, xs.length = size → q.put t = q) ∧ (xs = [] → q.get = (default, q)) ∧
      ∀ x rest, xs = x :: rest → q.get.1 = x ∧ IsFifo q.get.2 rest := by
  obtain ⟨hans, h, hout⟩ := (simulates buffer).runAll ops
    ⟨IsFifo.start hsize buffer, fun _ _ => rfl⟩
  refine ⟨_, _, Prod.ext hans rfl, rfl, h, hout, fun t => h.put, fun t => h.put_full, fun hnil => ?_,
    fun x rest hcons => ?_⟩
  · rw [hnil] at h
    exact h.get_nil
  · rw [hcons] at h
    exact h.get_cons

/-- Two characters go through a buffer of one place. -/
theorem fifo_of_operations_one : ∃ q xs, Refine.runAll Op.run [.put 7, .put 8, .get, .put 9]
      (⟨0, 0, 0, fun _ => 0⟩ : Queue UInt8 1) = ([7], q) ∧ xs = [9] ∧ IsFifo q xs := by
  obtain ⟨q, xs, hrun, hxs, h, -⟩ := @fifo_of_operations UInt8 1 _ le_rfl (fun _ => 0)
    [.put 7, .put 8, .get, .put 9]
  exact ⟨q, xs, hrun, hxs.symm, h⟩

end Queue

end Os1Kernel
