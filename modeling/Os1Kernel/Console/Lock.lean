import Os1Kernel.Threads.Queues

/-! The lock of the console (`console.cpp`), which initialises its semaphore at the first use, in code
that may be preempted between any two of its steps. -/

namespace Os1Kernel

/-- A semaphore: its value, an `int`, and the threads that it suspends. -/
structure Semaphore where
  value : Int
  suspended : List Nat
  deriving DecidableEq

namespace Semaphore

/-- `Sem::initialize` -/
def initSem (value : Int) : Semaphore := { value, suspended := [] }

/-- `Sem::wait` of the thread `t`, and whether it blocks. -/
def wait (s : Semaphore) (t : Nat) : Semaphore × Bool :=
  let value := toInt (intBits (s.value - 1))
  if value < 0 then ({ value, suspended := s.suspended ++ [t] }, true)
  else ({ s with value }, false)

/-- `Sem::signal`, and the thread that it releases. -/
def signal (s : Semaphore) : Semaphore × Option Nat :=
  let value := toInt (intBits (s.value + 1))
  if value ≤ 0 then ({ value, suspended := s.suspended.tail }, s.suspended.head?)
  else ({ s with value }, none)

end Semaphore

namespace Console

/-- Where a thread is in `console_lock` and `console_unlock`. -/
inductive Place
  | outside
  /-- it has found `initialized` to be false -/
  | checked
  /-- it has initialised the semaphore -/
  | initialized
  | locking
  | suspended
  /-- it has been released and has not run since -/
  | granted
  /-- `console_lock` has returned -/
  | inside
  deriving DecidableEq

/-- `initialized` and `console_sem`, and where each thread is. -/
structure State where
  initialized : Bool
  consoleSem : Semaphore
  place : Nat → Place

def State.start : State where
  initialized := false
  consoleSem := { value := 0, suspended := [] }
  place := fun _ => .outside

/-- The parts of `console_lock` and `console_unlock` that run without preemption. -/
inductive Op
  | check
  | initSem
  | setInitialized
  | wait
  | resume
  | unlock
  deriving DecidableEq

def State.move (C : State) (t : Nat) (p : Place) : State :=
  { C with place := Function.update C.place t p }

/-- One part of `console_lock` or `console_unlock` in the thread `t`. -/
def State.step (C : State) (t : Nat) : Op → Option State
  | .check =>
    if C.place t = .outside then
      some (if C.initialized then C.move t .locking else C.move t .checked)
    else none
  | .initSem =>
    if C.place t = .checked then
      some { C.move t .initialized with consoleSem := .initSem 1 }
    else none
  | .setInitialized =>
    if C.place t = .initialized then some { C.move t .locking with initialized := true } else none
  | .wait =>
    if C.place t = .locking then
      let r := C.consoleSem.wait t
      some { C.move t (if r.2 then .suspended else .inside) with consoleSem := r.1 }
    else none
  | .resume => if C.place t = .granted then some (C.move t .inside) else none
  | .unlock =>
    if C.place t = .inside then
      let r := C.consoleSem.signal
      let C := { C.move t .outside with consoleSem := r.1 }
      some (match r.2 with
        | some u => C.move u .granted
        | none => C)
    else none

/-- The threads that share the console, no more than a heap has room for: each thread but the first
one takes 135 blocks. -/
structure Users where
  threads : List Nat
  fits : 135 * threads.length < 2 ^ 32 + 135

/-- The states that the threads reach by steps that satisfy `ok`. -/
inductive Reach (U : Users) (ok : State → Nat → Op → Prop) : State → Prop
  | start : Reach U ok .start
  | step {C C' : State} (t : Nat) (op : Op) (h : Reach U ok C) (ht : t ∈ U.threads)
      (hok : ok C t op) (hs : C.step t op = some C') : Reach U ok C'

/-- At most one thread holds the console, and every suspended thread is in the queue. -/
structure Exclusive (C : State) : Prop where
  one : ∀ t u, C.place t = .inside → C.place u = .inside → t = u
  kept : ∀ t, C.place t = .suspended → t ∈ C.consoleSem.suspended

/-- The thread has the lock, or waits for it. -/
def Place.uses : Place → Bool
  | .suspended | .granted | .inside => true
  | _ => false

/-- The semaphore is initialised only while no thread has the lock or waits for it. -/
def InitializedFree (C : State) (_ : Nat) (op : Op) : Prop :=
  op = .initSem → ∀ u, (C.place u).uses = false

/-- The thread has been given the lock. -/
def Place.holds : Place → Bool
  | .granted | .inside => true
  | _ => false

/-- The lock has not been used yet. -/
def Unused (C : State) : Prop :=
  C.initialized = false ∧ ∀ t, C.place t = .outside ∨ C.place t = .checked

/-- The value of the semaphore says whether a thread has the lock and how many wait for it. -/
structure Inv (U : Users) (C : State) : Prop where
  nodup : C.consoleSem.suspended.Nodup
  users : ∀ t ∈ C.consoleSem.suspended, t ∈ U.threads
  queue : ∀ t, t ∈ C.consoleSem.suspended ↔ C.place t = .suspended
  lock : (C.consoleSem.suspended = [] ∧ (∀ t, (C.place t).holds = false) ∧
      (C.consoleSem.value = 1 ∨ Unused C)) ∨
    ∃ h, (C.place h).holds = true ∧ (∀ t, (C.place t).holds = true → t = h) ∧
      C.consoleSem.value = -C.consoleSem.suspended.length

theorem Place.uses_of_holds {p : Place} (h : p.holds = true) : p.uses = true := by
  cases p <;> simp_all [holds, uses]

/-- The place of a thread that moves, and of the others. -/
theorem State.move_place {C : State} {t u : Nat} {p : Place} :
    (C.move t p).place u = if u = t then p else C.place u := by
  simp [move, Function.update_apply]

@[simp] theorem State.move_consoleSem {C : State} {t : Nat} {p : Place} :
    (C.move t p).consoleSem = C.consoleSem := rfl

variable {U : Users} {C C' : State} {t : Nat}

theorem Inv.start (U : Users) : Inv U .start where
  nodup := List.nodup_nil
  users := by simp [State.start]
  queue := by simp [State.start]
  lock := .inl ⟨rfl, fun _ => rfl, .inr ⟨rfl, fun _ => .inl rfl⟩⟩

theorem Inv.exclusive (h : Inv U C) : Exclusive C where
  one t u ht hu := by
    rcases h.lock with ⟨-, hfree, -⟩ | ⟨x, -, hone, -⟩
    · simpa [ht, Place.holds] using hfree t
    · rw [hone t (by simp [ht, Place.holds]), hone u (by simp [hu, Place.holds])]
  kept t ht := (h.queue t).mpr ht

/-- No more threads wait than there are. -/
theorem Inv.length_lt (h : Inv U C) : (C.consoleSem.suspended.length : Int) < 2 ^ 31 := by
  have hle := (List.subperm_of_subset h.nodup fun t ht => h.users t ht).length_le
  have hfits := U.fits
  omega

/-- A thread goes on without the semaphore. -/
theorem Inv.move (h : Inv U C) {p : Place} (hp : p.uses = false) (hq : (C.place t).uses = false)
    (hunused : Unused C → p = .outside ∨ p = .checked) : Inv U (C.move t p) where
  nodup := h.nodup
  users := h.users
  queue u := by
    rw [State.move_place, State.move_consoleSem, h.queue u]
    split
    · subst u
      constructor
      · intro hu
        simp [hu, Place.uses] at hq
      · rintro rfl
        simp [Place.uses] at hp
    · rfl
  lock := by
    have hnot {q : Place} (hq : q.uses = false) : q.holds = false := by
      cases hh : q.holds with
      | false => rfl
      | true => simp [Place.uses_of_holds hh] at hq
    rcases h.lock with ⟨hnil, hfree, hvalue⟩ | ⟨x, hx, hone, hvalue⟩
    · refine .inl ⟨hnil, fun u => ?_, hvalue.imp id fun hun => ⟨hun.1, fun u => ?_⟩⟩
      · rw [State.move_place]
        split
        · exact hnot hp
        · exact hfree u
      · rw [State.move_place]
        split
        · exact hunused hun
        · exact hun.2 u
    · have hne : x ≠ t := by
        rintro rfl
        simp [hnot hq] at hx
      refine .inr ⟨x, by rwa [State.move_place, if_neg hne], fun u hu => ?_, hvalue⟩
      rw [State.move_place] at hu
      split at hu
      · simp [hnot hp] at hu
      · exact hone u hu

/-- The semaphore is initialised while it is free. -/
theorem Inv.initSem {C : State} (hfree : ∀ u, (C.place u).uses = false) :
    Inv U { C.move t .initialized with consoleSem := .initSem 1 } where
  nodup := List.nodup_nil
  users := by simp [Semaphore.initSem]
  queue u := by
    have hu := hfree u
    simp only [Semaphore.initSem, List.not_mem_nil, false_iff, State.move_place]
    split
    · simp
    · intro heq
      simp [heq, Place.uses] at hu
  lock := by
    refine .inl ⟨rfl, fun u => ?_, .inl rfl⟩
    have hu := hfree u
    simp only [State.move_place]
    split
    · rfl
    · cases hp : C.place u <;> simp_all [Place.uses, Place.holds]

/-- `sem_wait` takes the lock, or the thread joins the queue. -/
theorem Inv.wait (h : Inv U C) (hp : C.place t = .locking) (ht : t ∈ U.threads) :
    Inv U { C.move t (if (C.consoleSem.wait t).2 then .suspended else .inside) with
      consoleSem := (C.consoleSem.wait t).1 } := by
  have hlen := h.length_lt
  have hout : t ∉ C.consoleSem.suspended := by simp [h.queue, hp]
  rcases h.lock with ⟨hnil, hfree, hvalue⟩ | ⟨x, hx, hone, hvalue⟩
  · have hone : C.consoleSem.value = 1 := by
      refine hvalue.resolve_right fun hun => ?_
      have := hun.2 t
      simp [hp] at this
    have hwait : C.consoleSem.wait t = ({ C.consoleSem with value := 0 }, false) := by
      simp [Semaphore.wait, hone, toInt_intBits]
    rw [hwait]
    refine ⟨h.nodup, h.users, fun u => ?_, .inr ⟨t, ?_, fun u hu => ?_, ?_⟩⟩
    · simp only [State.move_place]
      split
      · subst u
        simp [hout]
      · exact h.queue u
    · simp [State.move_place, Place.holds]
    · simp only [State.move_place] at hu
      split at hu
      · assumption
      · simp [hfree u] at hu
    · simp [hnil]
  · have hwait : C.consoleSem.wait t =
        ({ value := C.consoleSem.value - 1, suspended := C.consoleSem.suspended ++ [t] }, true) := by
      have hbits : toInt (intBits (C.consoleSem.value - 1)) = C.consoleSem.value - 1 :=
        toInt_intBits (by omega) (by omega)
      have hneg : C.consoleSem.value - 1 < 0 := by omega
      simp only [Semaphore.wait, hbits, hneg, if_true]
    rw [hwait]
    have hxt : x ≠ t := by
      rintro rfl
      simp [hp, Place.holds] at hx
    refine ⟨?_, fun u hu => ?_, fun u => ?_, .inr ⟨x, ?_, fun u hu => ?_, ?_⟩⟩
    · exact List.nodup_append.mpr ⟨h.nodup, List.nodup_singleton t, fun a ha b hb hab =>
        hout (by simp_all)⟩
    · rcases List.mem_append.mp hu with hu | hu
      · exact h.users u hu
      · rwa [List.mem_singleton.mp hu]
    · simp only [State.move_place, List.mem_append, List.mem_singleton, if_true]
      split
      · simp_all
      · simp_all [h.queue u]
    · simpa [State.move_place, hxt] using hx
    · simp only [State.move_place] at hu
      split at hu
      · simp [Place.holds] at hu
      · exact hone u hu
    · simp only [List.length_append, List.length_singleton]
      omega

/-- The first thread of the queue gets the lock, or no one. -/
theorem Inv.unlock (h : Inv U C) (hp : C.place t = .inside) :
    Inv U (match C.consoleSem.signal.2 with
      | some u => { C.move t .outside with consoleSem := C.consoleSem.signal.1 }.move u .granted
      | none => { C.move t .outside with consoleSem := C.consoleSem.signal.1 }) := by
  have hlen := h.length_lt
  have hnot : (C.place t).holds = true := by simp [hp, Place.holds]
  rcases h.lock with ⟨-, hfree, -⟩ | ⟨x, -, hone, hvalue⟩
  · simp [hfree t] at hnot
  have hother (u : Nat) (hu : u ≠ t) : (C.place u).holds = false := by
    cases hh : (C.place u).holds with
    | false => rfl
    | true => exact absurd ((hone u hh).trans (hone t hnot).symm) hu
  have hbits : toInt (intBits (C.consoleSem.value + 1)) = C.consoleSem.value + 1 :=
    toInt_intBits (by omega) (by omega)
  cases hq : C.consoleSem.suspended with
  | nil =>
    have hsignal : C.consoleSem.signal = ({ C.consoleSem with value := 1 }, none) := by
      simp [Semaphore.signal, hvalue, hq, toInt_intBits]
    rw [hsignal]
    refine ⟨h.nodup, h.users, fun u => ?_, .inl ⟨hq, fun u => ?_, .inl rfl⟩⟩
    · have hu := h.queue u
      simp only [State.move_place]
      split
      · simp_all
      · exact hu
    · simp only [State.move_place]
      split
      · rfl
      · exact hother u (by assumption)
  | cons a as =>
    have hsignal : C.consoleSem.signal =
        ({ value := C.consoleSem.value + 1, suspended := as }, some a) := by
      have hle : C.consoleSem.value + 1 ≤ 0 := by simp [hvalue, hq]
      simp only [Semaphore.signal, hbits, hle, if_true, hq, List.tail_cons, List.head?_cons]
    rw [hsignal]
    have hnd := h.nodup
    have ha : C.place a = .suspended := (h.queue a).mp (by simp [hq])
    have hat : a ≠ t := by
      rintro rfl
      simp [hp] at ha
    rw [hq] at hnd
    refine ⟨(List.nodup_cons.mp hnd).2, fun u hu => h.users u (by simp [hq, show u ∈ as from hu]),
      fun u => ?_, .inr ⟨a, ?_, fun u hu => ?_, ?_⟩⟩
    · have hu := h.queue u
      simp only [State.move_place, hq, List.mem_cons] at hu ⊢
      by_cases hua : u = a
      · subst u
        simp [(List.nodup_cons.mp hnd).1]
      · by_cases hut : u = t
        · subst u
          simp_all
        · simp_all
    · simp [State.move_place, Place.holds]
    · simp only [State.move_place] at hu
      split at hu
      · assumption
      · split at hu
        · simp [Place.holds] at hu
        · rename_i hut
          simp [hother u hut] at hu
    · have hv : C.consoleSem.value = -((as.length : Int) + 1) := by simpa [hq] using hvalue
      simp [State.move, hv]

/-- A thread that has been released goes on with the lock. -/
theorem Inv.resume (h : Inv U C) (hp : C.place t = .granted) : Inv U (C.move t .inside) where
  nodup := h.nodup
  users := h.users
  queue u := by
    have hu := h.queue u
    simp only [State.move_place, State.move_consoleSem]
    split
    · simp_all
    · exact hu
  lock := by
    have hsame (u : Nat) : ((C.move t .inside).place u).holds = (C.place u).holds := by
      rw [State.move_place]
      split
      · simp_all [Place.holds]
      · rfl
    rcases h.lock with ⟨-, hfree, -⟩ | ⟨x, hx, hone, hvalue⟩
    · simpa [hp, Place.holds] using hfree t
    · exact .inr ⟨x, by rwa [hsame], fun u hu => hone u (by rwa [← hsame]), hvalue⟩

theorem Inv.step (h : Inv U C) (ht : t ∈ U.threads) {op : Op} (hok : InitializedFree C t op)
    (hs : C.step t op = some C') : Inv U C' := by
  cases op with
  | check =>
    simp only [State.step, Option.ite_none_right_eq_some, Option.some.injEq] at hs
    obtain ⟨hp, rfl⟩ := hs
    split
    · rename_i hini
      exact h.move rfl (by simp [hp, Place.uses]) fun hun => by simp [hun.1] at hini
    · exact h.move rfl (by simp [hp, Place.uses]) fun _ => .inr rfl
  | initSem =>
    simp only [State.step, Option.ite_none_right_eq_some, Option.some.injEq] at hs
    obtain ⟨-, rfl⟩ := hs
    exact .initSem (hok rfl)
  | setInitialized =>
    simp only [State.step, Option.ite_none_right_eq_some, Option.some.injEq] at hs
    obtain ⟨hp, rfl⟩ := hs
    have hused : ¬Unused C := fun hun => by simpa [hp] using hun.2 t
    have hmove := h.move (t := t) (p := .locking) rfl (by simp [hp, Place.uses]) (absurd · hused)
    refine ⟨hmove.nodup, hmove.users, hmove.queue, hmove.lock.imp_left fun hl => ⟨hl.1, hl.2.1, ?_⟩⟩
    refine .inl (hl.2.2.resolve_right fun hun => ?_)
    simpa [State.move_place] using hun.2 t
  | wait =>
    simp only [State.step, Option.ite_none_right_eq_some, Option.some.injEq] at hs
    obtain ⟨hp, rfl⟩ := hs
    exact h.wait hp ht
  | resume =>
    simp only [State.step, Option.ite_none_right_eq_some, Option.some.injEq] at hs
    obtain ⟨hp, rfl⟩ := hs
    exact h.resume hp
  | unlock =>
    simp only [State.step, Option.ite_none_right_eq_some, Option.some.injEq] at hs
    obtain ⟨hp, rfl⟩ := hs
    exact h.unlock hp

/-- Threads that never initialise the semaphore while it is in use exclude each other. -/
theorem console_exclusive (U : Users) (h : Reach U InitializedFree C) : Exclusive C := by
  suffices hinv : Inv U C from hinv.exclusive
  induction h with
  | start => exact .start U
  | step t op _ ht hok hs ih => exact ih.step ht hok hs

/-- Two threads that use the console. -/
def twoUsers : Users := ⟨[1, 2], by decide⟩

/-- One thread takes the lock and returns it. -/
theorem console_exclusive_twoUsers : ∃ C, Reach twoUsers InitializedFree C ∧ C.place 1 = .inside ∧
    Exclusive C := by
  have hreach : Reach twoUsers InitializedFree
      { initialized := true, consoleSem := { value := 0, suspended := [] },
        place := Function.update (Function.update (Function.update (Function.update
          (fun _ => .outside) 1 .checked) 1 .initialized) 1 .locking) 1 .inside } := by
    refine .step 1 .wait (.step 1 .setInitialized (.step 1 .initSem (.step 1 .check .start ?_ ?_ rfl)
      ?_ ?_ rfl) ?_ ?_ rfl) ?_ ?_ rfl
    all_goals first | decide | skip
    all_goals intro hop u
    all_goals first | exact absurd hop (by decide) | skip
    simp only [State.start, Bool.false_eq_true, if_false, State.move_place]
    split <;> rfl
  exact ⟨_, hreach, rfl, console_exclusive twoUsers hreach⟩

/-- Both threads find the semaphore uninitialised; the second one initialises it after the first one
has taken the lock, and takes it too. -/
theorem console_not_exclusive : ¬∀ C, Reach twoUsers (fun _ _ _ => True) C → Exclusive C := by
  intro hall
  have hreach : ∃ C, Reach twoUsers (fun _ _ _ => True) C ∧ C.place 1 = .inside ∧
      C.place 2 = .inside := by
    refine ⟨_, .step 2 .wait (.step 2 .setInitialized (.step 2 .initSem (.step 1 .wait
      (.step 1 .setInitialized (.step 1 .initSem (.step 2 .check (.step 1 .check .start
      ?_ trivial rfl) ?_ trivial rfl) ?_ trivial rfl) ?_ trivial rfl) ?_ trivial rfl)
      ?_ trivial rfl) ?_ trivial rfl) ?_ trivial rfl, rfl, rfl⟩
    all_goals decide
  obtain ⟨C, hC, h1, h2⟩ := hreach
  exact absurd ((hall C hC).one 1 2 h1 h2) (by decide)

end Console

end Os1Kernel
