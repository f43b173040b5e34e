import Mathlib.Logic.Function.Basic
import Os1Kernel.Lib.Refine

/-! The lock of the test programs' printing (`test/lock.S`, and the macros `LOCK` and `UNLOCK` of
`test/printing.cpp`): one hart, any number of threads, and a switch between any two instructions. -/

namespace Os1Kernel.Client.Spin

/-! ### The code -/

/-- The next instruction of `copy_and_swap`, with `t0` where it is used, or the return with `a0`. -/
inductive Pc
  | lr
  | bne (t0 : UInt32)
  | sc
  | bnez (t0 : UInt32)
  | ret (a0 : UInt32)
  deriving DecidableEq

/-- `lockPrint`, and whether the hart has a reservation for it. -/
structure Cell where
  word : UInt32
  reserved : Bool

/-- An instruction of `copy_and_swap(lockPrint, expected, desired)`.  A store-conditional may fail though
there is a reservation, and ends it. -/
def Pc.step (expected desired : UInt32) (fails : Bool) (C : Cell) : Pc → Pc × Cell
  | .lr => (.bne C.word, { C with reserved := true })
  | .bne t0 => (if t0 ≠ expected then .ret 1 else .sc, C)
  | .sc =>
    if C.reserved = true ∧ fails = false then (.bnez 0, ⟨desired, false⟩)
    else (.bnez 1, ⟨C.word, false⟩)
  | .bnez t0 => (if t0 ≠ 0 then .lr else .ret 0, C)
  | .ret a0 => (.ret a0, C)

inductive Place
  | outside
  | locking (pc : Pc)
  /-- in the `thread_dispatch` of `LOCK` -/
  | dispatching
  | inside
  | unlocking (pc : Pc)
  deriving DecidableEq

structure State (T : Type) where
  cell : Cell
  current : T
  place : T → Place

variable {T : Type}

def State.start (t : T) : State T := ⟨⟨0, false⟩, t, fun _ => .outside⟩

inductive Op (T : Type)
  | lock
  | unlock
  | code (fails : Bool)
  | switch (t : T)

variable [DecidableEq T]

/-- The thread that runs is at `p`, and the lock is `C`. -/
def State.move (S : State T) (C : Cell) (p : Place) : State T :=
  { S with cell := C, place := Function.update S.place S.current p }

/-- One step of the hart; `keeps` says whether a reservation outlasts a trap. -/
def State.step (keeps : Bool) (S : State T) : Op T → Option (State T)
  | .lock => if S.place S.current = .outside then some (S.move S.cell (.locking .lr)) else none
  | .unlock => if S.place S.current = .inside then some (S.move S.cell (.unlocking .lr)) else none
  | .code fails =>
    match S.place S.current with
    | .locking (.ret a0) => some (S.move S.cell (if a0 ≠ 0 then .dispatching else .inside))
    | .locking pc => let r := pc.step 0 1 fails S.cell; some (S.move r.2 (.locking r.1))
    | .dispatching => some (S.move ⟨S.cell.word, keeps && S.cell.reserved⟩ (.locking .lr))
    | .unlocking (.ret a0) => some (S.move S.cell (if a0 ≠ 0 then .unlocking .lr else .outside))
    | .unlocking pc => let r := pc.step 1 0 fails S.cell; some (S.move r.2 (.unlocking r.1))
    | _ => none
  | .switch t => some { S with current := t, cell := ⟨S.cell.word, keeps && S.cell.reserved⟩ }

/-- The states that the threads reach. -/
inductive Reach (keeps : Bool) : State T → Prop
  | start (t : T) : Reach keeps (.start t)
  | step {S S' : State T} (op : Op T) (h : Reach keeps S) (hs : S.step keeps op = some S') :
      Reach keeps S'

/-- One thread at most is between `LOCK` and `UNLOCK`, and the lock is taken while it is there. -/
structure Exclusive (S : State T) : Prop where
  one : ∀ t u, S.place t = .inside → S.place u = .inside → t = u
  word : ∀ t, S.place t = .inside → S.cell.word = 1

/-! ### The invariant -/

/-- The word has been changed. -/
def Pc.done : Pc → Bool
  | .bnez t0 => t0 = 0
  | .ret a0 => a0 = 0
  | _ => false

/-- What a thread knows about the word as long as it has a reservation. -/
def Pc.knows (expected word : UInt32) : Pc → Prop
  | .bne t0 => t0 = word
  | .sc => word = expected
  | _ => True

/-- The thread has taken the lock and not given it back. -/
def Place.holds : Place → Bool
  | .locking pc => pc.done
  | .inside => true
  | .unlocking pc => !pc.done
  | _ => false

def Place.knows (word : UInt32) : Place → Prop
  | .locking pc => pc.knows 0 word
  | .unlocking pc => pc.knows 1 word
  | _ => True

/-- The word says whether a thread holds the lock. -/
inductive Held (place : T → Place) : UInt32 → Prop
  | free (h : ∀ t, (place t).holds = false) : Held place 0
  | taken (t : T) (ht : (place t).holds = true) (hone : ∀ u, (place u).holds = true → u = t) : Held place 1

structure Inv (S : State T) : Prop where
  held : Held S.place S.cell.word
  knows : S.cell.reserved = true → (S.place S.current).knows S.cell.word

section Steps

variable {S S' : State T} {place : T → Place} {word : UInt32} {t : T} {p : Place} {pc : Pc}

/-- A thread that moves holds the lock as before. -/
theorem Held.same (h : Held place word) (hp : p.holds = (place t).holds) :
    Held (Function.update place t p) word := by
  have hall (u : T) : (Function.update place t p u).holds = (place u).holds := by
    by_cases hu : u = t
    · rw [hu, Function.update_self, hp]
    · rw [Function.update_of_ne hu]
  cases h with
  | free h => exact .free fun u => (hall u).trans (h u)
  | taken u hu hone => exact .taken u ((hall u).trans hu) fun v hv => hone v ((hall v).symm.trans hv)

/-- A thread takes the lock. -/
theorem Held.take (h : Held place 0) (hp : p.holds = true) : Held (Function.update place t p) 1 := by
  cases h with
  | free h =>
    apply Held.taken t
    · rw [Function.update_self, hp]
    · intro u hu
      by_contra hne
      rw [Function.update_of_ne hne, h u] at hu
      cases hu

/-- The thread that holds the lock gives it back. -/
theorem Held.give (h : Held place 1) (ht : (place t).holds = true) (hp : p.holds = false) :
    Held (Function.update place t p) 0 := by
  cases h with
  | taken v hv hone =>
    apply Held.free
    intro u
    by_cases hu : u = t
    · rw [hu, Function.update_self, hp]
    · rw [Function.update_of_ne hu]
      by_contra hno
      exact hu ((hone u (Bool.not_eq_false _ ▸ hno)).trans (hone t ht).symm)

omit [DecidableEq T] in
theorem Inv.start (t : T) : Inv (State.start t) where
  held := .free fun _ => rfl
  knows h := by cases h

/-- The thread that runs goes on to a place where it knows as much. -/
theorem Inv.move (h : Inv S) (hp : p.holds = (S.place S.current).holds) {reserved : Bool}
    (hk : reserved = true → p.knows S.cell.word) : Inv (S.move ⟨S.cell.word, reserved⟩ p) where
  held := h.held.same hp
  knows hr := by
    change (Function.update S.place S.current p S.current).knows S.cell.word
    rw [Function.update_self]
    exact hk hr

/-- An instruction of `copy_and_swap`, in `LOCK` or in `UNLOCK`. -/
theorem Inv.copyAndSwap (h : Inv S) (side : Pc → Place) (free : Bool) {expected desired : UInt32}
    (hholds : ∀ pc, (side pc).holds = (pc.done ^^ free))
    (hknows : ∀ pc word, (side pc).knows word = pc.knows expected word)
    (hswap : (S.place S.current).holds = free → Held S.place expected →
      Held (Function.update S.place S.current (side (.bnez 0))) desired)
    (hpc : S.place S.current = side pc) (fails : Bool) :
    Inv (S.move (pc.step expected desired fails S.cell).2 (side (pc.step expected desired fails S.cell).1)) := by
  have hknown (hr : S.cell.reserved = true) : pc.knows expected S.cell.word := by
    rw [← hknows, ← hpc]
    exact h.knows hr
  have hmove {k : Pc} {reserved : Bool} (hdone : k.done = pc.done)
      (hk : reserved = true → k.knows expected S.cell.word) :
      Inv (S.move ⟨S.cell.word, reserved⟩ (side k)) := by
    apply h.move
    · rw [hpc, hholds, hholds, hdone]
    · intro hr
      rw [hknows]
      exact hk hr
  cases pc with
  | lr => exact hmove rfl fun _ => rfl
  | bne t0 =>
    by_cases heq : t0 = expected
    · simp only [Pc.step, heq, ne_eq, not_true, if_false]
      exact hmove rfl fun hr => (hknown hr).symm.trans heq
    · simp only [Pc.step, ne_eq, heq, not_false_eq_true, if_true]
      exact hmove rfl fun _ => trivial
  | sc =>
    by_cases hsc : S.cell.reserved = true ∧ fails = false
    · simp only [Pc.step, if_pos hsc]
      have hword : S.cell.word = expected := hknown hsc.1
      have hfree : (S.place S.current).holds = free := by
        rw [hpc, hholds]
        exact Bool.false_xor free
      exact ⟨hswap hfree (hword ▸ h.held), fun hr => by cases hr⟩
    · simp only [Pc.step, if_neg hsc]
      exact hmove rfl fun hr => by cases hr
  | bnez t0 =>
    by_cases heq : t0 = 0
    · simp only [Pc.step, heq, ne_eq, not_true, if_false]
      exact hmove (by rw [heq]; rfl) fun _ => trivial
    · simp only [Pc.step, ne_eq, heq, not_false_eq_true, if_true]
      exact hmove (by simp [Pc.done, heq]) fun _ => trivial
  | ret a0 => exact hmove rfl fun _ => trivial

/-- Every step keeps the invariant when a trap ends a reservation. -/
theorem Inv.step (h : Inv S) (op : Op T) (hs : S.step false op = some S') : Inv S' := by
  cases op with
  | lock =>
    simp only [State.step, Option.ite_none_right_eq_some, Option.some.injEq] at hs
    obtain ⟨hp, rfl⟩ := hs
    exact h.move (by rw [hp]; rfl) fun _ => trivial
  | unlock =>
    simp only [State.step, Option.ite_none_right_eq_some, Option.some.injEq] at hs
    obtain ⟨hp, rfl⟩ := hs
    exact h.move (by rw [hp]; rfl) fun _ => trivial
  | switch t =>
    cases hs
    exact ⟨h.held, fun hr => by cases hr⟩
  | code fails =>
    cases hp : S.place S.current with
    | outside => simp [State.step, hp] at hs
    | inside => simp [State.step, hp] at hs
    | dispatching =>
      simp only [State.step, hp, Option.some.injEq] at hs
      subst hs
      exact h.move (by rw [hp]; rfl) fun hr => by cases hr
    | locking pc =>
      have hcode := h.copyAndSwap .locking false (fun _ => (Bool.xor_false _).symm)
        (fun _ _ => rfl) (fun _ hf => hf.take rfl) hp fails
      cases pc with
      | ret a0 =>
        simp only [State.step, hp, Option.some.injEq] at hs
        subst hs
        by_cases ha0 : a0 = 0
        · rw [if_neg (by simp [ha0])]
          exact h.move (by rw [hp, ha0]; rfl) fun _ => trivial
        · rw [if_pos ha0]
          exact h.move (by rw [hp]; simp [Place.holds, Pc.done, ha0]) fun _ => trivial
      | lr | bne | sc | bnez =>
        simp only [State.step, hp, Option.some.injEq] at hs
        subst hs
        exact hcode
    | unlocking pc =>
      have hcode := h.copyAndSwap .unlocking true (fun _ => (Bool.xor_true _).symm)
        (fun _ _ => rfl) (fun hf hheld => hheld.give hf rfl) hp fails
      cases pc with
      | ret a0 =>
        simp only [State.step, hp, Option.some.injEq] at hs
        subst hs
        by_cases ha0 : a0 = 0
        · rw [if_neg (by simp [ha0])]
          exact h.move (by rw [hp, ha0]; rfl) fun _ => trivial
        · rw [if_pos ha0]
          exact h.move (by rw [hp]; simp [Place.holds, Pc.done, ha0]) fun _ => trivial
      | lr | bne | sc | bnez =>
        simp only [State.step, hp, Option.some.injEq] at hs
        subst hs
        exact hcode

omit [DecidableEq T] in
theorem Inv.exclusive (h : Inv S) : Exclusive S := by
  have hinside {t : T} (ht : S.place t = .inside) : (S.place t).holds = true := by rw [ht]; rfl
  have hheld := h.held
  generalize hword : S.cell.word = word at hheld
  constructor
  · intro t u ht hu
    cases hheld with
    | free hfree => exact absurd ((hfree t).symm.trans (hinside ht)) Bool.false_ne_true
    | taken v hv hone => exact (hone t (hinside ht)).trans (hone u (hinside hu)).symm
  · intro t ht
    rw [hword]
    cases hheld with
    | free hfree => exact absurd ((hfree t).symm.trans (hinside ht)) Bool.false_ne_true
    | taken v hv hone => rfl

end Steps

/-! ### With and without the reservation -/

/-- The steps of the hart, in order. -/
def State.run (keeps : Bool) (S : State T) (ops : List (Op T)) : Option (State T) :=
  ops.foldlM (State.step keeps) S

theorem Reach.run {keeps : Bool} {S S' : State T} (ops : List (Op T)) (h : Reach keeps S)
    (hrun : S.run keeps ops = some S') : Reach keeps S' :=
  Refine.foldlM_inv ops (fun op _ _ _ hS hstep => hS.step op hstep) h hrun

/-- The first thread loads the word, the second takes the lock, the third loads the word again, and the
first stores. -/
def stolen : List (Op Nat) :=
  [.lock, .code false, .switch 1, .lock, .code false, .code false, .code false, .code false, .code false,
    .switch 2, .lock, .code false, .switch 0, .code false, .code false, .code false, .code false]

/-- The lock excludes the other threads on a hart that ends a reservation at a trap, in every order of the
instructions and switches.  On a hart that keeps it, it does not. -/
theorem spin_lock : (∀ (T : Type) [DecidableEq T] (S : State T), Reach false S → Exclusive S) ∧
    ¬∀ S : State Nat, Reach true S → Exclusive S := by
  constructor
  · intro T _ S h
    suffices hinv : Inv S from hinv.exclusive
    induction h with
    | start t => exact .start t
    | step op _ hs ih => exact ih.step op hs
  · intro hall
    have hreach : Reach true (((State.start 0).run true stolen).get rfl) :=
      .run stolen (.start 0) (Option.some_get _).symm
    exact absurd ((hall _ hreach).one 0 1 rfl rfl) (by decide)

/-- The first thread takes the lock, and the second one finds it taken. -/
def asked : List (Op Nat) :=
  [.lock, .code false, .code false, .code false, .code false, .code false, .switch 1, .lock, .code false,
    .code false, .code false]

theorem spin_lock_asked : ∃ S : State Nat, Reach false S ∧ S.place 0 = .inside ∧
    S.place 1 = .dispatching ∧ Exclusive S := by
  have hreach : Reach false (((State.start 0).run false asked).get rfl) :=
    .run asked (.start 0) (Option.some_get _).symm
  exact ⟨_, hreach, rfl, rfl, spin_lock.1 Nat _ hreach⟩

end Os1Kernel.Client.Spin
