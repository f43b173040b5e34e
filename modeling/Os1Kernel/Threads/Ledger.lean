import Mathlib.Data.List.Nodup
import Os1Kernel.Lib.Refine
import Os1Kernel.Source.Tcb

/-! What the log of the kernel says.  A machine reads the actions one by one and keeps account of the
semaphores, of the threads that wait on them, and of the ready threads; it goes on only while the log
makes sense. -/

namespace Os1Kernel

open Refine

/-- A semaphore since its initialisation. -/
structure Account where
  init : Nat
  waits : Nat
  signals : Nat
  suspended : List Nat

namespace Account

def opened (init : Nat) : Account := ⟨init, 0, 0, []⟩

def value (A : Account) : Int := A.init + A.signals - A.waits

end Account

/-- How far a thread is in a wait that has suspended it. -/
inductive Standing
  | free
  | blocked (sem : Nat)
  | released (sem : Nat) (waitError : Bool)
  deriving DecidableEq

/-- What the log has to go on with. -/
inductive Due
  | nothing
  | wait (tcb sem : Nat)
  | release (sem : Nat)
  | ready (tcb : Nat) (closing : Option Nat)
  | close (sem : Nat)
  | drop (tcb : Nat)
  deriving DecidableEq

/-- What follows when a thread has become ready. -/
def Due.after : Option Nat → Due
  | none => .nothing
  | some s => .close s

/-- What follows when the semaphore of a thread, or of none, has been freed. -/
def Due.dropped : Option Nat → Due
  | none => .nothing
  | some t => .drop t

/-- The account: the semaphores, the threads that wait, the ready threads in order, what is due, the
semaphore that was initialised last, and the threads that semaphores belong to. -/
structure Ledger where
  sem : Nat → Option Account
  standing : Nat → Standing
  ready : List Nat
  due : Due
  fresh : Nat
  owner : Nat → Option Nat

/-- The actions that say nothing about semaphores and about the scheduler. -/
def Action.plain : Action → Bool
  | .called .. | .stored .. | .received .. | .got .. | .ecallReturned .. | .ticked | .started ..
  | .wrapped => true
  | _ => false

namespace Ledger

def empty : Ledger where
  sem _ := none
  standing _ := .free
  ready := []
  due := .nothing
  fresh := 0
  owner _ := none

def setSem (K : Ledger) (s : Nat) (A : Account) : Ledger :=
  { K with sem := Function.update K.sem s (some A) }

def setStanding (K : Ledger) (t : Nat) (x : Standing) : Ledger :=
  { K with standing := Function.update K.standing t x }

def setDue (K : Ledger) (due : Due) : Ledger := { K with due }

/-- The account with one more action. -/
inductive Reads (K : Ledger) : Action → Ledger → Prop
  | initialized {s v : Nat} (hd : K.due = .nothing) (hs : K.sem s = none) :
      Reads K (.initialized s v) { K.setSem s (.opened v) with fresh := s }
  | waitCalled {t s : Nat} {A : Account} (hd : K.due = .nothing) (hs : K.sem s = some A)
      (ht : K.standing t = .free) :
      Reads K (.waitCalled t s) ((K.setSem s { A with waits := A.waits + 1 }).setDue (.wait t s))
  | blocked {t s : Nat} {A : Account} (hd : K.due = .wait t s) (hs : K.sem s = some A)
      (h : toInt (intBits A.value) < 0) :
      Reads K (.blocked t s) (((K.setSem s { A with suspended := A.suspended ++ [t] }).setStanding t
        (.blocked s)).setDue .nothing)
  | passed {t s : Nat} {A : Account} (hd : K.due = .wait t s) (hs : K.sem s = some A)
      (h : 0 ≤ toInt (intBits A.value)) :
      Reads K (.waitReturned t s Sem.waitSuccess) (K.setDue .nothing)
  | resumed {t s : Nat} {waitError : Bool} (hd : K.due = .nothing)
      (ht : K.standing t = .released s waitError) :
      Reads K (.waitReturned t s (if waitError then Sem.waitFail else Sem.waitSuccess))
        (K.setStanding t .free)
  | signalled {s : Nat} {A : Account} (hd : K.due = .nothing) (hs : K.sem s = some A)
      (h : 0 < toInt (intBits (A.value + 1)) ∨ A.suspended = []) :
      Reads K (.signalled s) (K.setSem s { A with signals := A.signals + 1 })
  | woke {s : Nat} {A : Account} (hd : K.due = .nothing) (hs : K.sem s = some A)
      (h : toInt (intBits (A.value + 1)) ≤ 0) (hne : A.suspended ≠ []) :
      Reads K (.signalled s) ((K.setSem s { A with signals := A.signals + 1 }).setDue (.release s))
  | released {t s : Nat} {A : Account} {R : List Nat} (hd : K.due = .release s)
      (hs : K.sem s = some A) (hq : A.suspended = t :: R) (ht : K.standing t = .blocked s)
      (ho : K.owner s = none) :
      Reads K (.released t s false) (((K.setSem s { A with suspended := R }).setStanding t
        (.released s false)).setDue (.ready t none))
  | failed {t s : Nat} {A : Account} {R : List Nat}
      (hd : K.due = .nothing ∧ K.owner s = none ∨ K.due = .close s)
      (hs : K.sem s = some A) (hq : A.suspended = t :: R) (ht : K.standing t = .blocked s) :
      Reads K (.released t s true) (((K.setSem s { A with suspended := R }).setStanding t
        (.released s true)).setDue (.ready t (some s)))
  | readied {t : Nat} (hd : K.due = .nothing) (ht : t ∉ K.ready) :
      Reads K (.readied t) { K with ready := K.ready ++ [t] }
  | followed {t : Nat} {closing : Option Nat} (hd : K.due = .ready t closing) (ht : t ∉ K.ready) :
      Reads K (.readied t) { K with ready := K.ready ++ [t], due := .after closing }
  | picked {t : Nat} {R : List Nat} (hd : K.due = .nothing) (hr : K.ready = t :: R) (h0 : t ≠ 0) :
      Reads K (.picked t) { K with ready := R }
  | created {t h : Nat} (hd : K.due = .nothing) (ho : K.owner K.fresh = none)
      (hs : K.sem K.fresh = some (.opened 0)) (hh : ∀ s, K.owner s ≠ some h) :
      Reads K (.created t h) { K with owner := Function.update K.owner K.fresh (some h) }
  | terminated {t s : Nat} (hd : K.due = .nothing) (ho : K.owner s = some t) :
      Reads K (.terminated t) (K.setDue (.close s))
  | freedSem {s : Nat} {A : Account} (hd : K.due = .nothing ∧ K.owner s = none ∨ K.due = .close s)
      (hs : K.sem s = some A) (hq : A.suspended = []) :
      Reads K (.freed s MemoryAllocator.memSuccess) { K with
        sem := Function.update K.sem s none
        due := .dropped (K.owner s)
        owner := Function.update K.owner s none }
  | freedTcb {t : Nat} (hd : K.due = .drop t) (hs : K.sem t = none) :
      Reads K (.freed t MemoryAllocator.memSuccess) (K.setDue .nothing)
  | freed {a : Nat} {code : Int} (hd : K.due = .nothing ∨ ∃ s, K.due = .close s)
      (ha : code = MemoryAllocator.memSuccess → K.sem a = none ∧ ∀ s, K.owner s ≠ some a) :
      Reads K (.freed a code) K
  | plain {x : Action} (hd : K.due = .nothing) (hx : x.plain = true) : Reads K x K

end Ledger

/-! ### Counting in a log -/

namespace Log

/-- The waits on the semaphore `s`. -/
def waits (s : Nat) (l : List Action) : Nat :=
  l.countP fun x => match x with
    | .waitCalled _ u => u = s
    | _ => false

def signals (s : Nat) (l : List Action) : Nat :=
  l.countP fun x => match x with
    | .signalled u => u = s
    | _ => false

/-- The threads that `s` has suspended, in order. -/
def blocked (s : Nat) (l : List Action) : List Nat :=
  l.filterMap fun x => match x with
    | .blocked t u => if u = s then some t else none
    | _ => none

/-- The threads that have been released from `s`, in order. -/
def released (s : Nat) (l : List Action) : List Nat :=
  l.filterMap fun x => match x with
    | .released t u _ => if u = s then some t else none
    | _ => none

/-- The waits that did not block, and those that ended with a release. -/
def granted (s : Nat) (l : List Action) : Nat :=
  waits s l - (blocked s l).length + (released s l).length

/-- The threads that have been put into the scheduler, and those that have been taken out. -/
def readied (l : List Action) : List Nat :=
  l.filterMap fun x => match x with
    | .readied t => some t
    | _ => none

def picked (l : List Action) : List Nat :=
  l.filterMap fun x => match x with
    | .picked t => some t
    | _ => none

/-- The semaphore that was initialised last. -/
def fresh (l : List Action) : Nat :=
  l.foldl (fun s x => match x with
    | .initialized u _ => u
    | _ => s) 0

/-- What an action says about the thread `t`. -/
def stand (t : Nat) (x : Standing) : Action → Standing
  | .blocked u s => if u = t then .blocked s else x
  | .released u s waitError => if u = t then .released s waitError else x
  | .waitReturned u _ _ => if u = t then .free else x
  | _ => x

/-- How far the thread `t` is. -/
def standing (t : Nat) (l : List Action) : Standing := l.foldl (stand t) .free

end Log

/-- The account of `s` with one more action. -/
def Account.read (s : Nat) (A : Account) : Action → Account
  | .waitCalled _ u => if u = s then { A with waits := A.waits + 1 } else A
  | .signalled u => if u = s then { A with signals := A.signals + 1 } else A
  | .blocked t u => if u = s then { A with suspended := A.suspended ++ [t] } else A
  | .released _ u _ => if u = s then { A with suspended := A.suspended.tail } else A
  | _ => A

/-- No counter is too large for an `int`. -/
structure Account.Fits (A : Account) : Prop where
  given : A.init + A.signals < 2 ^ 31
  taken : A.waits < 2 ^ 31

namespace Ledger

variable {K K' : Ledger} {x : Action} {s t : Nat} {A : Account} {l : List Action}

theorem setSem_sem {u : Nat} {B : Account} (f : Account → Account) (hu : K.sem u = some B)
    (hs : K.sem s = some A) : (K.setSem u (f B)).sem s = some (if u = s then f A else A) := by
  by_cases heq : u = s
  · subst heq
    rw [if_pos rfl, Option.some.inj (hs.symm.trans hu)]
    exact Function.update_self ..
  · rw [if_neg heq, ← hs]
    exact Function.update_of_ne (Ne.symm heq) _ _

theorem Reads.sem (h : Reads K x K') (hs : K.sem s = some A)
    (hx : x ≠ .freed s MemoryAllocator.memSuccess) : K'.sem s = some (A.read s x) := by
  cases h with
  | @initialized u v hd hu =>
    have hne : s ≠ u := by
      rintro rfl
      rw [hs] at hu
      cases hu
    exact (Function.update_of_ne hne _ _).trans hs
  | waitCalled hd hu => exact setSem_sem (fun A => { A with waits := A.waits + 1 }) hu hs
  | @blocked t _ _ hd hu => exact setSem_sem (fun A => { A with suspended := A.suspended ++ [t] }) hu hs
  | signalled hd hu => exact setSem_sem (fun A => { A with signals := A.signals + 1 }) hu hs
  | woke hd hu => exact setSem_sem (fun A => { A with signals := A.signals + 1 }) hu hs
  | released hd hu hq =>
    have hset := setSem_sem (fun A => { A with suspended := A.suspended.tail }) hu hs
    rwa [hq] at hset
  | failed hd hu hq =>
    have hset := setSem_sem (fun A => { A with suspended := A.suspended.tail }) hu hs
    rwa [hq] at hset
  | @freedSem u _ hd hu =>
    have hne : s ≠ u := fun heq => hx (by rw [heq])
    exact (Function.update_of_ne hne _ _).trans hs
  | plain hd hp =>
    rw [hs]
    cases x <;> first | rfl | cases hp
  | _ => exact hs

/-- An action that says nothing about the scheduler. -/
theorem plain_ready {x : Action} (h : x.plain = true) : Log.readied [x] = [] ∧ Log.picked [x] = [] := by
  cases x <;> first | exact ⟨rfl, rfl⟩ | cases h

theorem Reads.ready (h : Reads K x K') :
    K.ready ++ Log.readied [x] = Log.picked [x] ++ K'.ready := by
  cases h with
  | plain hd hp => simp [plain_ready hp]
  | picked hd hr => simp [Log.readied, Log.picked, hr]
  | _ => simp [Log.readied, Log.picked, setSem, setDue, setStanding]

theorem Reads.ready_nodup (h : Reads K x K') (hn : K.ready.Nodup) : K'.ready.Nodup := by
  cases h with
  | readied hd ht => exact List.nodup_append.mpr ⟨hn, List.nodup_singleton _, by simp; grind⟩
  | followed hd ht => exact List.nodup_append.mpr ⟨hn, List.nodup_singleton _, by simp; grind⟩
  | picked hd hr =>
    rw [hr] at hn
    exact (List.nodup_cons.mp hn).2
  | _ => exact hn

/-! ### The value of a semaphore and its suspended threads -/

/-- The semaphore `s` is being closed. -/
def Closing (K : Ledger) (s : Nat) : Prop := K.due = .close s ∨ ∃ t, K.due = .ready t (some s)

/-- The waits on `s` whose callers have not been suspended yet, and the signals whose threads have not
been released yet. -/
def waiting (K : Ledger) (s : Nat) : Nat :=
  match K.due with
  | .wait _ u => if u = s then 1 else 0
  | _ => 0

def releasing (K : Ledger) (s : Nat) : Nat :=
  match K.due with
  | .release u => if u = s then 1 else 0
  | _ => 0

/-- The suspended threads are as many as there are more waits than units. -/
structure Balanced (s : Nat) (K : Ledger) (A : Account) : Prop where
  waiting : K.waiting s ≤ A.waits
  releasing : K.releasing s ≤ A.signals
  length : A.suspended.length =
    A.waits - K.waiting s - (A.init + (A.signals - K.releasing s))
  some : K.releasing s ≤ A.suspended.length

/-- The numbers of `s` agree as long as they are in range and it is not being closed. -/
def Sound (s : Nat) (K : Ledger) : Prop :=
  ∀ A, K.sem s = some A → A.Fits → ¬K.Closing s → K.Balanced s A

theorem toInt_value {A : Account} (h : A.Fits) {d : Int} (hd : 0 ≤ d)
    (hlt : A.init + A.signals + d < 2 ^ 31) : toInt (intBits (A.value + d)) = A.value + d := by
  have htaken := h.taken
  unfold Account.value
  exact toInt_intBits (by omega) (by omega)

theorem sound_empty (s : Nat) : empty.Sound s := by
  intro A hA
  cases hA

theorem Sound.of_sem (h : K.Sound s) (hsem : K'.sem s = K.sem s) (hw : K'.waiting s = K.waiting s)
    (hr : K'.releasing s = K.releasing s) (hc : K.Closing s → K'.Closing s) : K'.Sound s := by
  intro A hA hfits hnot
  rw [hsem] at hA
  have hb := h A hA hfits fun hcl => hnot (hc hcl)
  exact ⟨hw ▸ hb.waiting, hr ▸ hb.releasing, hw ▸ hr ▸ hb.length, hr ▸ hb.some⟩

/-- A semaphore whose account is another one. -/
theorem setSem_same (K : Ledger) (s : Nat) (A : Account) : (K.setSem s A).sem s = some A :=
  Function.update_self ..

theorem setSem_ne (K : Ledger) {s u : Nat} (h : s ≠ u) (A : Account) :
    (K.setSem u A).sem s = K.sem s := Function.update_of_ne h _ _

theorem Reads.sound (h : Reads K x K') (hK : K.Sound s) : K'.Sound s := by
  cases h with
  | @initialized u v hd hu =>
    by_cases hs : s = u
    · subst hs
      intro A hA _ _
      obtain rfl := Option.some.inj (hA.symm.trans (setSem_same K s _))
      refine ⟨?_, ?_, ?_, ?_⟩ <;>
        simp [waiting, releasing, setSem, hd, Account.opened]
    · exact hK.of_sem (setSem_ne K hs _) rfl rfl fun hc => hc
  | @waitCalled t u B hd hu ht =>
    by_cases hs : s = u
    · subst hs
      intro A hA hfits _
      obtain rfl := Option.some.inj (hA.symm.trans (setSem_same K s _))
      have hb := hK B hu ⟨hfits.given, by have := hfits.taken; simp only at this; omega⟩ (by
        simp [Closing, hd])
      have hlen := hb.length
      simp only [waiting, releasing, hd] at hlen
      refine ⟨?_, ?_, ?_, ?_⟩ <;>
        simp [waiting, releasing, setSem, setDue, hlen]
    · refine hK.of_sem (setSem_ne K hs _) ?_ ?_ fun hc => ?_
      · simp [waiting, setDue, hd, Ne.symm hs]
      · simp [releasing, setDue, hd]
      · simp [Closing, hd] at hc
  | @blocked t u B hd hu hneg =>
    by_cases hs : s = u
    · subst hs
      intro A hA hfits _
      obtain rfl := Option.some.inj (hA.symm.trans (setSem_same K s _))
      have hB : B.Fits := ⟨hfits.given, hfits.taken⟩
      have hb := hK B hu hB (by simp [Closing, hd])
      have hlen := hb.length
      have hle := hb.waiting
      have hgiven := hB.given
      have hval := toInt_value hB (d := 0) (by omega) (by omega)
      rw [Int.add_zero] at hval
      rw [hval] at hneg
      simp only [waiting, releasing, hd, if_true] at hlen hle
      unfold Account.value at hneg
      refine ⟨?_, ?_, ?_, ?_⟩ <;>
        simp [waiting, releasing, setDue]
      omega
    · refine hK.of_sem (setSem_ne K hs _) ?_ ?_ fun hc => ?_
      · simp [waiting, setDue, hd, Ne.symm hs]
      · simp [releasing, setDue, hd]
      · simp [Closing, hd] at hc
  | @passed t u B hd hu hpos =>
    by_cases hs : s = u
    · subst hs
      intro A hA hfits _
      have hA' : K.sem s = some A := hA
      obtain rfl := Option.some.inj (hA'.symm.trans hu)
      have hb := hK A hu hfits (by simp [Closing, hd])
      have hlen := hb.length
      have hle := hb.waiting
      have hgiven := hfits.given
      have hval := toInt_value hfits (d := 0) (by omega) (by omega)
      rw [Int.add_zero] at hval
      rw [hval] at hpos
      simp only [waiting, releasing, hd, if_true] at hlen hle
      unfold Account.value at hpos
      refine ⟨?_, ?_, ?_, ?_⟩ <;>
        simp [waiting, releasing, setDue]
      omega
    · refine hK.of_sem rfl ?_ ?_ fun hc => ?_
      · simp [waiting, setDue, hd, Ne.symm hs]
      · simp [releasing, setDue, hd]
      · simp [Closing, hd] at hc
  | resumed hd => exact hK.of_sem rfl rfl rfl fun hc => hc
  | @signalled u B hd hu hnone =>
    by_cases hs : s = u
    · subst hs
      intro A hA hfits _
      obtain rfl := Option.some.inj (hA.symm.trans (setSem_same K s _))
      have hB : B.Fits := ⟨by have := hfits.given; simp only at this; omega, hfits.taken⟩
      have hb := hK B hu hB (by simp [Closing, hd])
      have hlen := hb.length
      have hgiven := hfits.given
      simp only at hgiven
      have hval := toInt_value hB (d := 1) (by omega) (by omega)
      rw [hval] at hnone
      simp only [waiting, releasing, hd] at hlen
      unfold Account.value at hnone
      refine ⟨?_, ?_, ?_, ?_⟩ <;> simp [waiting, releasing, setSem, hd]
      rcases hnone with hpos | hnil
      · omega
      · rw [hnil, List.length_nil] at hlen ⊢
        omega
    · exact hK.of_sem (setSem_ne K hs _) rfl rfl fun hc => hc
  | @woke u B hd hu hle hne =>
    by_cases hs : s = u
    · subst hs
      intro A hA hfits _
      obtain rfl := Option.some.inj (hA.symm.trans (setSem_same K s _))
      have hB : B.Fits := ⟨by have := hfits.given; simp only at this; omega, hfits.taken⟩
      have hb := hK B hu hB (by simp [Closing, hd])
      have hlen := hb.length
      have hpos := List.length_pos_of_ne_nil hne
      simp only [waiting, releasing, hd] at hlen
      refine ⟨?_, ?_, ?_, ?_⟩ <;> simp [waiting, releasing, setDue]
      · omega
      · omega
    · refine hK.of_sem (setSem_ne K hs _) ?_ ?_ fun hc => ?_
      · simp [waiting, setDue, hd]
      · simp [releasing, setDue, hd, Ne.symm hs]
      · simp [Closing, hd] at hc
  | @released t u B R hd hu hq =>
    by_cases hs : s = u
    · subst hs
      intro A hA hfits _
      obtain rfl := Option.some.inj (hA.symm.trans (setSem_same K s _))
      have hb := hK B hu ⟨hfits.given, hfits.taken⟩ (by simp [Closing, hd])
      have hlen := hb.length
      have hle := hb.releasing
      rw [hq, List.length_cons] at hlen
      simp only [waiting, releasing, hd, if_true] at hlen hle
      refine ⟨?_, ?_, ?_, ?_⟩ <;> simp [waiting, releasing, setDue]
      omega
    · refine hK.of_sem (setSem_ne K hs _) ?_ ?_ fun hc => ?_
      · simp [waiting, setDue, hd]
      · simp [releasing, setDue, hd, Ne.symm hs]
      · simp [Closing, hd] at hc
  | @failed t u B R hd hu hq =>
    by_cases hs : s = u
    · subst hs
      intro A _ _ hnot
      exact absurd (.inr ⟨t, rfl⟩) hnot
    · refine hK.of_sem (setSem_ne K hs _) ?_ ?_ fun hc => ?_
      · rcases hd with ⟨hd, -⟩ | hd <;> simp [waiting, setDue, hd]
      · rcases hd with ⟨hd, -⟩ | hd <;> simp [releasing, setDue, hd]
      · rcases hd with ⟨hd, -⟩ | hd <;> simp [Closing, hd] at hc
        exact absurd hc.symm hs
  | readied hd => exact hK.of_sem rfl rfl rfl fun hc => hc
  | @followed t c hd =>
    refine hK.of_sem rfl ?_ ?_ fun hc => ?_
    · cases c <;> simp [waiting, Due.after, hd]
    · cases c <;> simp [releasing, Due.after, hd]
    · cases c with
      | none => simp [Closing, hd] at hc
      | some u =>
        have heq : u = s := by simpa [Closing, hd] using hc
        exact .inl (heq ▸ rfl)
  | picked | created => exact hK.of_sem rfl rfl rfl fun hc => hc
  | terminated hd =>
    refine hK.of_sem rfl ?_ ?_ fun hc => ?_
    · simp [waiting, setDue, hd]
    · simp [releasing, setDue, hd]
    · simp [Closing, hd] at hc
  | freedTcb hd =>
    refine hK.of_sem rfl ?_ ?_ fun hc => ?_
    · simp [waiting, setDue, hd]
    · simp [releasing, setDue, hd]
    · simp [Closing, hd] at hc
  | @freedSem u B hd hu hq =>
    by_cases hs : s = u
    · subst hs
      intro A hA
      have hnone : Function.update K.sem s none s = some A := hA
      rw [Function.update_self] at hnone
      cases hnone
    · refine hK.of_sem (Function.update_of_ne hs _ _) ?_ ?_ fun hc => ?_
      · rcases hd with ⟨hd, -⟩ | hd <;> cases K.owner u <;> simp [waiting, Due.dropped, hd]
      · rcases hd with ⟨hd, -⟩ | hd <;> cases K.owner u <;> simp [releasing, Due.dropped, hd]
      · rcases hd with ⟨hd, -⟩ | hd <;> simp [Closing, hd] at hc
        exact absurd hc.symm hs
  | freed | plain => exact hK

end Ledger

end Os1Kernel
