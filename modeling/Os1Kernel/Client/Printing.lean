import Os1Kernel.Client.Numbers
import Os1Kernel.Client.Spin

/-! `printString` and `printInt` of the test programs (`test/printing.cpp`) in any number of threads: the
lock, the loops over the characters, and a switch between any two steps. -/

namespace Os1Kernel.Client.Printing

/-- What a call prints. -/
inductive Text
  | string (string : List UInt8)
  | int (xx : Int32) (base : UInt32) (sgn : Bool)

/-- The characters that the call writes, in the order of its loop. -/
def Text.chars : Text → Option (List UInt8)
  | .string s => some (s.takeWhile (· ≠ 0))
  | .int xx base sgn => Numbers.printInt xx base sgn

structure State (T : Type) where
  hart : Spin.State T
  /-- what is left for the loop of a call -/
  rest : T → List UInt8
  /-- what the calls of a thread print, in order -/
  called : T → List (List UInt8)
  /-- the calls that have taken the lock, in order -/
  begun : List (T × List UInt8)
  /-- what `putc` has stored -/
  out : List UInt8

variable {T : Type}

def State.start (t : T) : State T := ⟨.start t, fun _ => [], fun _ => [], [], []⟩

inductive Op (T : Type)
  | print (text : Text)
  | putc
  | unlock
  | code (fails : Bool)
  | switch (t : T)

variable [DecidableEq T]

/-- One step of the thread that runs, or a switch; `keeps` says whether a reservation of the lock outlasts
a trap. -/
def State.step (keeps : Bool) (S : State T) : Op T → Option (State T)
  | .print text => do
    let s ← text.chars
    let hart ← S.hart.step keeps .lock
    some { S with
      hart
      rest := Function.update S.rest S.hart.current s
      called := Function.update S.called S.hart.current (S.called S.hart.current ++ [s]) }
  | .putc =>
    match S.rest S.hart.current with
    | [] => none
    | c :: s =>
      if S.hart.place S.hart.current = .inside then
        some { S with rest := Function.update S.rest S.hart.current s, out := S.out ++ [c] }
      else none
  | .unlock =>
    if S.rest S.hart.current = [] then (S.hart.step keeps .unlock).map fun hart => { S with hart }
    else none
  | .code fails =>
    (S.hart.step keeps (.code fails)).map fun hart => { S with
      hart
      begun := if S.hart.place S.hart.current = .locking (.ret 0) then
        S.begun ++ [(S.hart.current, S.rest S.hart.current)] else S.begun }
  | .switch t => (S.hart.step keeps (.switch t)).map fun hart => { S with hart }

/-- The states that the threads reach. -/
inductive Reach (keeps : Bool) : State T → Prop
  | start (t : T) : Reach keeps (.start t)
  | step {S S' : State T} (op : Op T) (h : Reach keeps S) (hs : S.step keeps op = some S') :
      Reach keeps S'

/-- The thread is in `LOCK`. -/
def waits : Spin.Place → Bool
  | .locking _ | .dispatching => true
  | _ => false

/-- Everything that the calls print before. -/
def State.texts (S : State T) : List UInt8 := (S.begun.map Prod.snd).flatten

/-- What has been stored is what the calls that have taken the lock print, one after the other, but for
what the last of them has still to write; and each call of a thread has taken the lock in its turn, but
for the last one while it is in `LOCK`. -/
structure Whole (S : State T) : Prop where
  inside : ∀ t, S.hart.place t = .inside → S.out ++ S.rest t = S.texts
  outside : (∀ t, S.hart.place t ≠ .inside) → S.out = S.texts
  calls : ∀ t, S.called t = (S.begun.filter fun b => b.1 = t).map Prod.snd ++
    if waits (S.hart.place t) then [S.rest t] else []

/-! ### The steps of the lock -/

section Steps

variable {S S' : State T} {H H' : Spin.State T} {t : T} {p : Spin.Place}

/-- An instruction of the lock moves the thread that runs, which is not yet inside; it gets there
when `copy_and_swap` has returned zero in `LOCK`. -/
theorem code_place {fails : Bool} (hs : H.step false (.code fails) = some H') :
    H.place H.current ≠ .inside ∧ ∃ p, H'.place = Function.update H.place H.current p ∧
      (H.place H.current = .locking (.ret 0) ∧ p = .inside ∨
        H.place H.current ≠ .locking (.ret 0) ∧ p ≠ .inside ∧ waits p = waits (H.place H.current)) := by
  cases hp : H.place H.current with
  | outside => simp [Spin.State.step, hp] at hs
  | inside => simp [Spin.State.step, hp] at hs
  | dispatching =>
    simp only [Spin.State.step, hp, Option.some.injEq] at hs
    subst hs
    exact ⟨by simp, .locking .lr, rfl, .inr ⟨by simp, by simp, rfl⟩⟩
  | locking pc =>
    refine ⟨by simp, ?_⟩
    cases pc with
    | ret a0 =>
      simp only [Spin.State.step, hp, Option.some.injEq] at hs
      subst hs
      by_cases ha0 : a0 = 0
      · exact ⟨.inside, by simp [Spin.State.move, ha0], .inl ⟨by rw [ha0], rfl⟩⟩
      · exact ⟨.dispatching, by simp [Spin.State.move, ha0], .inr ⟨by simp [ha0], by simp, rfl⟩⟩
    | lr | bne | sc | bnez =>
      simp only [Spin.State.step, hp, Option.some.injEq] at hs
      subst hs
      exact ⟨_, rfl, .inr ⟨by simp, by simp, rfl⟩⟩
  | unlocking pc =>
    refine ⟨by simp, ?_⟩
    cases pc with
    | ret a0 =>
      simp only [Spin.State.step, hp, Option.some.injEq] at hs
      subst hs
      refine ⟨_, rfl, .inr ⟨by simp, ?_, ?_⟩⟩
      · split <;> simp
      · split <;> rfl
    | lr | bne | sc | bnez =>
      simp only [Spin.State.step, hp, Option.some.injEq] at hs
      subst hs
      exact ⟨_, rfl, .inr ⟨by simp, by simp, rfl⟩⟩

omit [DecidableEq T] in
/-- Nobody is inside when a thread has the lock and is not inside itself. -/
theorem nobody_inside (h : Spin.Inv H) (hholds : (H.place t).holds = true) (ht : H.place t ≠ .inside)
    (u : T) : H.place u ≠ .inside := by
  intro hu
  have hone : u = t := by
    have hheld := h.held
    generalize H.cell.word = word at hheld
    cases hheld with
    | free hfree => exact absurd ((hfree t).symm.trans hholds) Bool.false_ne_true
    | taken v hv hone => exact (hone u (by rw [hu]; rfl)).trans (hone t hholds).symm
  exact ht (hone ▸ hu)

omit [DecidableEq T] in
theorem texts_append (t : T) (s : List UInt8) :
    State.texts { S with begun := S.begun ++ [(t, s)] } = S.texts ++ s := by
  unfold State.texts
  rw [List.map_append, List.flatten_append, List.map_singleton, List.flatten_singleton]

/-- The thread that moves is not the one inside. -/
theorem inside_of_update {place : T → Spin.Place} {c : T} (hp : p ≠ .inside)
    (ht : Function.update place c p t = .inside) : t ≠ c ∧ place t = .inside := by
  by_cases hc : t = c
  · rw [hc, Function.update_self] at ht
    exact absurd ht hp
  · rw [Function.update_of_ne hc] at ht
    exact ⟨hc, ht⟩

/-- Nobody was inside before a thread from outside has moved. -/
theorem outside_of_update {place : T → Spin.Place} {c : T} (hc : place c ≠ .inside)
    (hno : ∀ t, Function.update place c p t ≠ .inside) (t : T) : place t ≠ .inside := by
  by_cases ht : t = c
  · rw [ht]
    exact hc
  · have hmoved := hno t
    rwa [Function.update_of_ne ht] at hmoved

structure Inv (S : State T) : Prop where
  lock : Spin.Inv S.hart
  whole : Whole S

theorem Inv.start (t : T) : Inv (State.start t) where
  lock := .start t
  whole := {
    inside := fun _ h => by cases h
    outside := fun _ => rfl
    calls := fun _ => rfl }

theorem Inv.print (h : Inv S) {text : Text} (hs : S.step false (.print text) = some S') : Inv S' := by
  simp only [State.step, Option.bind_eq_bind, Option.bind_eq_some_iff, Option.some.injEq] at hs
  obtain ⟨s, -, H, hlock, rfl⟩ := hs
  refine ⟨h.lock.step .lock hlock, ?_⟩
  simp only [Spin.State.step, Option.ite_none_right_eq_some, Option.some.injEq] at hlock
  obtain ⟨hout, rfl⟩ := hlock
  constructor
  · intro t ht
    obtain ⟨hcur, hin⟩ := inside_of_update (by simp) ht
    simp only [Function.update_of_ne hcur]
    exact h.whole.inside t hin
  · intro hno
    exact h.whole.outside (outside_of_update (by simp [hout]) hno)
  · intro t
    have hcalls := h.whole.calls t
    by_cases hcur : t = S.hart.current
    · subst hcur
      rw [hout] at hcalls
      simp only [waits, Bool.false_eq_true, if_false, List.append_nil] at hcalls
      simp [Spin.State.move, hcalls, waits]
    · simpa only [Spin.State.move, Function.update_of_ne hcur] using hcalls

theorem Inv.putc (h : Inv S) (hs : S.step false .putc = some S') : Inv S' := by
  cases hrest : S.rest S.hart.current with
  | nil => simp [State.step, hrest] at hs
  | cons c s =>
    simp only [State.step, hrest, Option.ite_none_right_eq_some, Option.some.injEq] at hs
    obtain ⟨hin, rfl⟩ := hs
    refine ⟨h.lock, ?_⟩
    constructor
    · intro t ht
      obtain rfl := h.lock.exclusive.one t _ ht hin
      have hleft : S.out ++ [c] ++ Function.update S.rest S.hart.current s S.hart.current = S.out ++ c :: s := by
        simp
      have hall := h.whole.inside _ hin
      rw [hrest] at hall
      exact hleft.trans hall
    · intro hno
      exact absurd hin (hno S.hart.current)
    · intro t
      have hcalls := h.whole.calls t
      by_cases hcur : t = S.hart.current
      · subst hcur
        rw [hin] at hcalls ⊢
        exact hcalls
      · simpa only [Function.update_of_ne hcur] using hcalls

theorem Inv.unlock (h : Inv S) (hs : S.step false .unlock = some S') : Inv S' := by
  simp only [State.step, Option.ite_none_right_eq_some, Option.map_eq_some_iff] at hs
  obtain ⟨hrest, H, hunlock, rfl⟩ := hs
  refine ⟨h.lock.step .unlock hunlock, ?_⟩
  simp only [Spin.State.step, Option.ite_none_right_eq_some, Option.some.injEq] at hunlock
  obtain ⟨hin, rfl⟩ := hunlock
  constructor
  · intro t ht
    obtain ⟨hcur, ht⟩ := inside_of_update (by simp) ht
    exact absurd (h.lock.exclusive.one t _ ht hin) hcur
  · intro _
    have hall := h.whole.inside _ hin
    rwa [hrest, List.append_nil] at hall
  · intro t
    have hcalls := h.whole.calls t
    by_cases hcur : t = S.hart.current
    · subst hcur
      rw [hin] at hcalls
      simpa [Spin.State.move, waits] using hcalls
    · simpa only [Spin.State.move, Function.update_of_ne hcur] using hcalls

/-- A thread gets inside, or goes on in `LOCK` or `UNLOCK`. -/
theorem Inv.code (h : Inv S) {fails : Bool} (hs : S.step false (.code fails) = some S') : Inv S' := by
  simp only [State.step, Option.map_eq_some_iff] at hs
  obtain ⟨H, hcode, rfl⟩ := hs
  refine ⟨h.lock.step _ hcode, ?_⟩
  obtain ⟨hnot, p, hplace, ⟨hret, rfl⟩ | ⟨hret, hp, hwaits⟩⟩ := code_place hcode
  · have hnobody := nobody_inside h.lock (by rw [hret]; rfl) hnot
    simp only [if_pos hret]
    constructor
    · intro t ht
      by_cases hcur : t = S.hart.current
      · rw [hcur]
        exact (congrArg (· ++ _) (h.whole.outside hnobody)).trans (texts_append _ _).symm
      · simp only [hplace, Function.update_of_ne hcur] at ht
        exact absurd ht (hnobody t)
    · intro hno
      refine absurd ?_ (hno S.hart.current)
      rw [hplace, Function.update_self]
    · intro t
      have hcalls := h.whole.calls t
      by_cases hcur : t = S.hart.current
      · subst hcur
        rw [hret] at hcalls
        simpa [hplace, waits] using hcalls
      · simp only [hplace, Function.update_of_ne hcur]
        simpa [Ne.symm hcur] using hcalls
  · simp only [if_neg hret]
    constructor
    · intro t ht
      simp only [hplace] at ht
      exact h.whole.inside t (inside_of_update hp ht).2
    · intro hno
      simp only [hplace] at hno
      exact h.whole.outside (outside_of_update hnot hno)
    · intro t
      have hcalls := h.whole.calls t
      by_cases hcur : t = S.hart.current
      · subst hcur
        rwa [hplace, Function.update_self, hwaits]
      · simpa only [hplace, Function.update_of_ne hcur] using hcalls

theorem Inv.step (h : Inv S) (op : Op T) (hs : S.step false op = some S') : Inv S' := by
  cases op with
  | print text => exact h.print hs
  | putc => exact h.putc hs
  | unlock => exact h.unlock hs
  | code fails => exact h.code hs
  | switch t =>
    simp only [State.step, Option.map_eq_some_iff] at hs
    obtain ⟨H, hswitch, rfl⟩ := hs
    refine ⟨h.lock.step _ hswitch, ?_⟩
    cases hswitch
    exact ⟨h.whole.inside, h.whole.outside, h.whole.calls⟩

end Steps

/-- The steps of the hart, in order. -/
def State.run (keeps : Bool) (S : State T) (ops : List (Op T)) : Option (State T) :=
  ops.foldlM (State.step keeps) S

theorem Reach.run {keeps : Bool} {S S' : State T} (ops : List (Op T)) (h : Reach keeps S)
    (hrun : S.run keeps ops = some S') : Reach keeps S' :=
  Refine.foldlM_inv ops (fun op _ _ _ hS hstep => hS.step op hstep) h hrun

/-- What the threads print is never mixed, and nothing of it is lost, whatever the order of their steps
and of the switches between them, on a hart that ends a reservation at a trap. -/
theorem printed_whole {S : State T} (h : Reach false S) : Whole S := by
  suffices hinv : Inv S from hinv.whole
  induction h with
  | start t => exact .start t
  | step op _ hs ih => exact ih.step op hs

/-- The first thread prints a string, and the second one asks for the lock in the middle of it. -/
def twoTexts : List (Op Nat) :=
  [.print (.string [72, 105, 0]), .code false, .code false, .code false, .code false, .code false, .putc,
    .switch 1, .print (.int (-7) 10 true), .code false, .code false, .code false, .switch 0, .putc]

theorem printed_whole_twoTexts : ∃ S : State Nat, Reach false S ∧ S.out = [72, 105] ∧
    S.called 1 = [[45, 55]] ∧ Whole S := by
  have hreach : Reach false (((State.start 0).run false twoTexts).get rfl) :=
    .run twoTexts (.start 0) (Option.some_get _).symm
  exact ⟨_, hreach, rfl, rfl, printed_whole hreach⟩

end Os1Kernel.Client.Printing
