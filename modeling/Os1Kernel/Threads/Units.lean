import Os1Kernel.Console.Lock
import Os1Kernel.Threads.Steps

/-! The units of a semaphore of user code: its initial value is unsigned and the value that it keeps
is an `int`. -/

namespace Os1Kernel

open Memory Console

/-! ### A semaphore of the abstract machine -/

namespace Spec

/-- The semaphore at `s`. -/
def semaphore (σ : Spec) (s : Nat) : Semaphore where
  value := toInt (σ.abs.bits s)
  suspended := σ.abs.waiting s

variable {σ : Spec} {s : Nat}

theorem intBits_pred {b : Nat} (h : b < 2 ^ 32) : intBits (toInt b - 1) = decBits b := by
  unfold intBits toInt decBits u32
  split <;> omega

theorem intBits_succ {b : Nat} (h : b < 2 ^ 32) : intBits (toInt b + 1) = u32 (b + 1) := by
  unfold intBits toInt u32
  split <;> omega

/-- A wait that does not block, and one that does. -/
theorem wait_semaphore (hb : σ.abs.bits s < 2 ^ 32) (c : Cont) :
    (σ.semaphore s).wait σ.current = if toInt (decBits (σ.abs.bits s)) < 0
      then ((σ.block s c).semaphore s, true) else ((σ.pass s).semaphore s, false) := by
  have hvalue : (σ.semaphore s).value = toInt (σ.abs.bits s) := rfl
  rw [Semaphore.wait, hvalue, intBits_pred hb]
  split <;>
    simp [block, pass, waitStart, waitReturn, suspend, setBits, semaphore, Spec.log, Spec.on, current]

theorem signal_semaphore (hb : σ.abs.bits s < 2 ^ 32) :
    (σ.semaphore s).signal.1 = (σ.signal s).semaphore s := by
  have hvalue : (σ.semaphore s).value = toInt (σ.abs.bits s) := rfl
  rw [Semaphore.signal, hvalue, intBits_succ hb, signal]
  split
  · cases hw : σ.abs.waiting s with
    | nil => simp [signalStart, setBits, semaphore, Spec.log, Spec.on, hw]
    | cons t R => simp [signalStart, release, setBits, semaphore, Spec.log, Spec.on, hw]
  · simp [signalStart, setBits, semaphore, Spec.log, Spec.on]

end Spec

/-! ### Units -/

/-- A semaphore that `sem_open` has made with the value `init`, the calls of `sem_signal`, the waits
that have been granted, and those that have suspended their caller although units were left. -/
structure Units where
  init : Nat
  sem : Semaphore
  signals : Nat
  granted : Nat
  early : Nat
  deriving DecidableEq

namespace Units

/-- A call on the semaphore. -/
inductive Call
  | wait
  | signal
  deriving DecidableEq

def openSem (init : Nat) : Units where
  init := init
  sem := .initSem (toInt (u32 init))
  signals := 0
  granted := 0
  early := 0

/-- The units that have not been taken. -/
def left (C : Units) : Nat := C.init + C.signals - C.granted

/-- The thread `t` makes a call; it cannot while it is suspended. -/
def step (C : Units) (t : Nat) (call : Call) : Option Units :=
  if t ∈ C.sem.suspended then none
  else match call with
    | .wait =>
      let r := C.sem.wait t
      if r.2 then some { C with sem := r.1, early := C.early + if 0 < C.left then 1 else 0 }
      else some { C with sem := r.1, granted := C.granted + 1 }
    | .signal =>
      let r := C.sem.signal
      some { C with
        sem := r.1
        signals := C.signals + 1
        granted := C.granted + if r.2.isSome then 1 else 0 }

/-- The states of the semaphore in runs whose steps satisfy `ok`. -/
inductive Reach (U : Users) (init : Nat) (ok : Units → Nat → Call → Prop) : Units → Prop
  | openSem : Reach U init ok (openSem init)
  | step {C C' : Units} (t : Nat) (call : Call) (h : Reach U init ok C) (ht : t ∈ U.threads)
      (hok : ok C t call) (hs : C.step t call = some C') : Reach U init ok C'

/-- No wait has suspended its caller while units were left, and no more waits have been granted than
there were units. -/
structure Honoured (C : Units) : Prop where
  early : C.early = 0
  granted : C.granted ≤ C.init + C.signals

/-- A wait that takes a unit leaves a number of them whose lower 32 bits are not negative. -/
def LeavesInt (C : Units) (_ : Nat) (call : Call) : Prop :=
  call = .wait → 0 < C.left → (C.left - 1) % 2 ^ 32 < 2 ^ 31

/-- Threads are suspended only while no unit is left, and the value is that of the units less the
suspended threads. -/
structure Inv (U : Users) (C : Units) : Prop where
  honoured : C.Honoured
  nodup : C.sem.suspended.Nodup
  users : ∀ t ∈ C.sem.suspended, t ∈ U.threads
  none_left : C.sem.suspended ≠ [] → C.left = 0
  value : C.sem.value = toInt (intBits (C.left - C.sem.suspended.length))

variable {U : Users} {C C' : Units} {t init : Nat}

theorem toInt_intBits_congr (i j : Int) : toInt (intBits (toInt (intBits i) + j)) =
    toInt (intBits (i + j)) := by
  have hbits : intBits (toInt (intBits i) + j) = intBits (i + j) := by
    unfold toInt intBits
    split <;> omega
  rw [hbits]

theorem Inv.openSem (U : Users) (init : Nat) : Inv U (openSem init) where
  honoured := ⟨rfl, Nat.zero_le _⟩
  nodup := List.nodup_nil
  users := by simp [Units.openSem, Semaphore.initSem]
  none_left h := absurd rfl h
  value := by
    have hbits : intBits (init : Int) = u32 init := by
      unfold intBits u32
      omega
    simp [Units.openSem, Semaphore.initSem, left, hbits]

/-- No more threads are suspended than there are. -/
theorem Inv.length_lt (h : Inv U C) : (C.sem.suspended.length : Int) < 2 ^ 31 - 1 := by
  have hle := (List.subperm_of_subset h.nodup fun t ht => h.users t ht).length_le
  have hfits := U.fits
  omega

theorem Inv.wait (h : Inv U C) (ht : t ∈ U.threads) (hok : LeavesInt C t .wait)
    (hs : C.step t .wait = some C') : Inv U C' := by
  have hlen := h.length_lt
  have hbits : toInt (intBits (C.sem.value - 1)) =
      toInt (intBits (C.left - C.sem.suspended.length - 1)) := by
    rw [h.value]
    exact toInt_intBits_congr _ (-1)
  have hgranted := h.honoured.granted
  unfold Units.step at hs
  split at hs
  · cases hs
  next hnot =>
  simp only [Semaphore.wait, hbits] at hs
  by_cases hleft : 0 < C.left
  · -- a unit is left, so no thread is suspended and the value is not negative
    have hnil : C.sem.suspended = [] := by
      by_contra hne
      have := h.none_left hne
      omega
    have hmod := hok rfl hleft
    have hpos : ¬toInt (intBits ((C.left : Int) - C.sem.suspended.length - 1)) < 0 := by
      rw [hnil, List.length_nil]
      unfold toInt intBits
      split <;> omega
    simp only [hpos, if_false] at hs
    cases hs
    unfold Units.left at hleft ⊢
    refine ⟨⟨h.honoured.early, ?_⟩, h.nodup, h.users, fun hne => absurd hnil hne, ?_⟩
    · simp only
      omega
    · unfold Units.left
      simp only
      congr 2
      omega
  · -- no unit is left, and the value counts the suspended threads
    have hzero : C.left = 0 := by omega
    have hneg : toInt (intBits ((C.left : Int) - C.sem.suspended.length - 1)) < 0 := by
      rw [hzero, toInt_intBits] <;> omega
    simp only [hneg, if_true] at hs
    cases hs
    refine ⟨⟨by simpa [hzero] using h.honoured.early, hgranted⟩, ?_, fun u hu => ?_, fun _ => hzero, ?_⟩
    · exact List.nodup_append.mpr ⟨h.nodup, List.nodup_singleton t, fun a ha b hb hab =>
        hnot (by simp_all)⟩
    · rcases List.mem_append.mp hu with hu | hu
      · exact h.users u hu
      · rwa [List.mem_singleton.mp hu]
    · have hleft' : Units.left { C with
          sem := ⟨toInt (intBits (C.left - C.sem.suspended.length - 1)), C.sem.suspended ++ [t]⟩
          early := C.early + if 0 < C.left then 1 else 0 } = C.left := rfl
      rw [hleft']
      simp only [List.length_append, List.length_singleton]
      congr 2
      omega

/-- Without suspended threads a signal only counts. -/
theorem signal_nil {s : Semaphore} (h : s.suspended = []) :
    s.signal = (⟨toInt (intBits (s.value + 1)), []⟩, none) := by
  unfold Semaphore.signal
  simp only [h, List.tail_nil, List.head?_nil]
  split <;> rfl

theorem signal_cons {s : Semaphore} {u : Nat} {R : List Nat} (h : s.suspended = u :: R)
    (hle : toInt (intBits (s.value + 1)) ≤ 0) :
    s.signal = (⟨toInt (intBits (s.value + 1)), R⟩, some u) := by
  unfold Semaphore.signal
  simp only [h, List.tail_cons, List.head?_cons, hle, if_true]

theorem Inv.signal (h : Inv U C) (hs : C.step t .signal = some C') : Inv U C' := by
  have hlen := h.length_lt
  have hbits : toInt (intBits (C.sem.value + 1)) =
      toInt (intBits (C.left - C.sem.suspended.length + 1)) := by
    rw [h.value]
    exact toInt_intBits_congr _ 1
  have hgranted := h.honoured.granted
  unfold Units.step at hs
  split at hs
  · cases hs
  cases hq : C.sem.suspended with
  | nil =>
    simp only [signal_nil hq, hbits] at hs
    cases hs
    have hleft : C.init + (C.signals + 1) - C.granted = C.left + 1 := by
      unfold left
      omega
    refine ⟨⟨h.honoured.early, by simp only; simp; omega⟩, List.nodup_nil, by simp, by simp, ?_⟩
    simp only [left, Option.isSome_none, Bool.false_eq_true, if_false, Nat.add_zero, hleft, hq,
      List.length_nil]
    congr 2
  | cons u R =>
    -- a thread is suspended, so no unit is left and the value is negative
    have hzero := h.none_left (by simp [hq])
    have hvalue : toInt (intBits (C.sem.value + 1)) = -(R.length : Int) := by
      rw [hq, List.length_cons] at hlen
      rw [hbits, hzero, hq, List.length_cons, toInt_intBits] <;> omega
    have hnodup := h.nodup
    rw [hq] at hnodup
    simp only [signal_cons hq (by omega), hvalue] at hs
    cases hs
    have hleft : C.init + (C.signals + 1) - (C.granted + 1) = 0 := by
      unfold left at hzero
      omega
    refine ⟨⟨h.honoured.early, by simp only; simp; omega⟩, (List.nodup_cons.mp hnodup).2,
      fun w hw => h.users w (hq ▸ List.mem_cons_of_mem u hw), fun _ => ?_, ?_⟩
    · simpa [left] using hleft
    · simp only [left, Option.isSome_some, if_true, hleft]
      rw [hq, List.length_cons] at hlen
      rw [toInt_intBits] <;> omega

theorem Inv.reach (h : Reach U init LeavesInt C) : Inv U C ∧ C.init = init := by
  induction h with
  | openSem => exact ⟨.openSem U init, rfl⟩
  | step t call _ ht hok hs ih =>
    have hinit {C C' : Units} (hs : C.step t call = some C') : C'.init = C.init := by
      unfold Units.step at hs
      split at hs
      · cases hs
      · cases call <;> simp only at hs
        · split at hs <;> cases hs <;> rfl
        · cases hs
          rfl
    refine ⟨?_, (hinit hs).trans ih.2⟩
    cases call with
    | wait => exact ih.1.wait ht hok hs
    | signal => exact ih.1.signal hs

/-- The units of a semaphore are honoured in every run in which each wait that takes a unit leaves a
number of them whose lower 32 bits are not negative. -/
theorem units_honoured (h : Reach U init LeavesInt C) : C.init = init ∧ C.Honoured :=
  ⟨(Inv.reach h).2, (Inv.reach h).1.honoured⟩

def oneUser : Users := ⟨[64], by decide⟩

/-- A semaphore with two units after a wait. -/
theorem units_honoured_two : ∃ C, Reach oneUser 2 LeavesInt C ∧ C.granted = 1 ∧ C.Honoured := by
  have h : Reach oneUser 2 LeavesInt ⟨2, ⟨1, []⟩, 0, 1, 0⟩ :=
    .step 64 .wait .openSem (by decide) (fun _ _ => by decide) (by decide)
  exact ⟨_, h, rfl, (units_honoured h).2⟩

/-- The first wait on a semaphore with `2 ^ 32 - 1` units suspends its caller. -/
theorem units_not_honoured : ¬∀ (U : Users) (init : Nat) (C : Units), init < 2 ^ 32 →
    Reach U init (fun _ _ _ => True) C → C.Honoured := by
  intro hall
  have h : Reach oneUser (2 ^ 32 - 1) (fun _ _ _ => True) ⟨2 ^ 32 - 1, ⟨-2, [64]⟩, 0, 0, 1⟩ :=
    .step 64 .wait .openSem (by decide) trivial (by decide)
  have := (hall oneUser (2 ^ 32 - 1) _ (by decide) h).early
  cases this

end Units

end Os1Kernel
