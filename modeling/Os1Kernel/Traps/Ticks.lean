import Os1Kernel.Threads.Reach
import Os1Kernel.Threads.Starts

/-! The pending bits of `sip`: the timer of the machine mode raises one of them, at any instruction, and
the trap handlers of the kernel clear them. -/

namespace Os1Kernel.Ticks

/-- Where the hart is: outside of traps, in a handler before its `csrc`, or after it. -/
inductive Phase
  | thread
  | entered (e : Event)
  | handling (e : Event)

/-- The machine with `sip`, the ticks that have been raised, and those that `k_handle_timer` has given
to the sleep queue and to `timer_ticks`. -/
structure Hart where
  machine : Machine
  sip : Nat
  phase : Phase
  raised : Nat
  processed : Nat

def Hart.start (M : Machine) : Hart where
  machine := M
  sip := 0
  phase := .thread
  raised := 0
  processed := 0

/-- The bit `SSIP`, a tick, and the bit `SEIP`, an interrupt of the console. -/
def ssip : Nat := 1
def seip : Nat := 9

def Hart.pending (H : Hart) : Bool := H.sip.testBit ssip

/-- `csrc sip` -/
def csrc (sip mask : Nat) : Nat := sip ^^^ (sip &&& mask)

/-- What the handler of a trap clears in `sip`. -/
def clears : Event → Nat
  | .ecall .. => 0x02
  | .timer => 0x02
  | .console _ => 0x200
  | _ => 0

/-- What happens between two instructions that concern `sip`. -/
inductive Op
  /-- the timer raises a tick -/
  | raise
  /-- the console raises its interrupt -/
  | external
  /-- a trap, or a step outside of traps -/
  | enter (e : Event)
  /-- the `csrc` of the handler -/
  | clear
  /-- the rest of the handler, until the hart has left the trap -/
  | handle

/-- A trap that the hart may enter: an interrupt has to be pending. -/
def Hart.enters (H : Hart) : Event → Bool
  | .ecall .. => true
  | .timer => H.pending
  | .console _ => H.sip.testBit seip
  | _ => false

/-- `k_handle_timer` has accepted a tick and not handled it yet. -/
def Phase.accepted : Phase → Nat
  | .handling .timer => 1
  | _ => 0

def Hart.step (L : Layout) (H : Hart) : Op → Option Hart
  | .raise =>
    if H.pending then none
    else some { H with sip := H.sip ||| 2 ^ ssip, raised := H.raised + 1 }
  | .external => some { H with sip := H.sip ||| 2 ^ seip }
  | .enter e =>
    match H.phase with
    | .thread =>
      match e with
      | .ecall .. | .timer | .console _ =>
        if H.enters e then some { H with phase := .entered e } else none
      | _ => (H.machine.step L e).map fun M => { H with machine := M }
    | _ => none
  | .clear =>
    match H.phase with
    | .entered e => some { H with sip := csrc H.sip (clears e), phase := .handling e }
    | _ => none
  | .handle =>
    match H.phase with
    | .handling e => (H.machine.step L e).map fun M =>
      { H with machine := M, phase := .thread, processed := H.processed + e.ticks }
    | _ => none

/-- The states that the hart reaches from `M` by steps that satisfy `ok`. -/
inductive Reach (L : Layout) (ok : Hart → Op → Prop) (M : Machine) : Hart → Prop
  | start : Reach L ok M (.start M)
  | step {H H' : Hart} (op : Op) (h : Reach L ok M H) (hok : ok H op) (hs : H.step L op = some H') :
      Reach L ok M H'

/-- Every tick has been processed, is being processed, or is pending. -/
def Accounted (H : Hart) : Prop :=
  H.raised = H.processed + H.phase.accepted + H.pending.toNat

/-- No tick is pending when an environment call clears `SSIP`. -/
def NotPending (H : Hart) : Op → Prop
  | .clear => ∀ code p0 p1 p2 p3, H.phase = .entered (.ecall code p0 p1 p2 p3) → H.pending = false
  | _ => True

/-- The hart enters `k_handle_timer` only for a tick, which stays pending until the `csrc`. -/
structure Inv (H : Hart) : Prop where
  accounted : Accounted H
  timer : H.phase = .entered .timer → H.pending = true

variable {L : Layout} {M : Machine} {H H' : Hart}

theorem testBit_csrc {x mask i : Nat} : (csrc x mask).testBit i = (x.testBit i && !mask.testBit i) := by
  simp only [csrc, Nat.testBit_xor, Nat.testBit_and]
  cases x.testBit i <;> cases mask.testBit i <;> rfl

/-- The console's handler leaves the ticks alone; the two others clear them. -/
theorem pending_csrc (e : Event) : (csrc H.sip (clears e)).testBit ssip =
    match e with
    | .ecall .. | .timer => false
    | _ => H.pending := by
  have h2 : Nat.testBit 0x02 ssip = true := by decide
  have h200 : Nat.testBit 0x200 ssip = false := by decide
  cases e <;> simp [testBit_csrc, clears, h2, h200, Hart.pending]

theorem Inv.start (M : Machine) : Inv (.start M) := by
  refine ⟨?_, nofun⟩
  simp [Accounted, Hart.start, Phase.accepted, Hart.pending]

theorem Inv.raise (h : Inv H) (hp : H.pending = false) :
    Inv { H with sip := H.sip ||| 2 ^ ssip, raised := H.raised + 1 } := by
  have hacc := h.accounted
  have hset : (H.sip ||| 2 ^ ssip).testBit ssip = true := by
    simp [Nat.testBit_or, Nat.testBit_two_pow_self]
  refine ⟨?_, fun _ => hset⟩
  have hp' : H.sip.testBit ssip = false := hp
  simp only [Accounted, Hart.pending, hset, hp', Bool.toNat_true, Bool.toNat_false] at hacc ⊢
  omega

theorem Inv.external (h : Inv H) : Inv { H with sip := H.sip ||| 2 ^ seip } := by
  have hsame : (H.sip ||| 2 ^ seip).testBit ssip = H.pending := by
    have hbit : Nat.testBit (2 ^ seip) ssip = false := by decide
    simp [Nat.testBit_or, hbit, Hart.pending]
  refine ⟨?_, fun hph => hsame.trans (h.timer hph)⟩
  have hacc := h.accounted
  simp only [Accounted, Hart.pending, hsame] at hacc ⊢
  exact hacc

theorem Inv.enter (h : Inv H) (hph : H.phase = .thread) {e : Event} (he : H.enters e = true) :
    Inv { H with phase := .entered e } := by
  have hacc := h.accounted
  refine ⟨?_, fun heq => ?_⟩
  · simpa [Accounted, Hart.pending, Phase.accepted, hph] using hacc
  · cases heq
    exact he

/-- The `csrc` of the timer's handler accepts the tick that is pending; that of the others finds none
or leaves it alone. -/
theorem Inv.clear (h : Inv H) {e : Event} (hph : H.phase = .entered e) (hok : NotPending H .clear) :
    Inv { H with sip := csrc H.sip (clears e), phase := .handling e } := by
  have hacc := h.accounted
  refine ⟨?_, nofun⟩
  simp only [Accounted, hph, Phase.accepted] at hacc
  simp only [Accounted, Hart.pending, pending_csrc]
  cases e with
  | ecall code p0 p1 p2 p3 =>
    simpa [Phase.accepted, hok code p0 p1 p2 p3 hph] using hacc
  | timer =>
    simpa [Phase.accepted, h.timer hph] using hacc
  | console rx => simpa [Phase.accepted, Hart.pending] using hacc
  | flushRead => simpa [Phase.accepted, Hart.pending] using hacc
  | flushPutc tx => simpa [Phase.accepted, Hart.pending] using hacc
  | user m => simpa [Phase.accepted, Hart.pending] using hacc

theorem Inv.handle (h : Inv H) {e : Event} (hph : H.phase = .handling e) (M : Machine) :
    Inv { H with machine := M, phase := .thread, processed := H.processed + e.ticks } := by
  have hacc := h.accounted
  refine ⟨?_, nofun⟩
  simp only [Accounted, hph, Hart.pending] at hacc ⊢
  cases e <;> simp only [Phase.accepted, Event.ticks] at hacc ⊢ <;> omega

theorem Inv.other (h : Inv H) (M : Machine) : Inv { H with machine := M } :=
  ⟨h.accounted, h.timer⟩

theorem Inv.step (h : Inv H) {op : Op} (hok : NotPending H op) (hs : H.step L op = some H') :
    Inv H' := by
  cases op with
  | raise =>
    simp only [Hart.step, Option.ite_none_left_eq_some, Option.some.injEq] at hs
    obtain ⟨hp, rfl⟩ := hs
    exact h.raise (by simpa using hp)
  | external =>
    obtain rfl := Option.some.inj hs
    exact h.external
  | enter e =>
    simp only [Hart.step] at hs
    split at hs
    · rename_i hph
      split at hs
      case h_4 =>
        obtain ⟨M, -, rfl⟩ := Option.map_eq_some_iff.mp hs
        exact h.other M
      all_goals
        obtain ⟨he, heq⟩ := Option.ite_none_right_eq_some.mp hs
        obtain rfl := Option.some.inj heq
        exact h.enter hph he
    · cases hs
  | clear =>
    simp only [Hart.step] at hs
    split at hs
    · obtain rfl := Option.some.inj hs
      exact h.clear (by assumption) hok
    · cases hs
  | handle =>
    simp only [Hart.step] at hs
    split at hs
    · obtain ⟨M, -, rfl⟩ := Option.map_eq_some_iff.mp hs
      exact h.handle (by assumption) M
    · cases hs

/-- No tick is lost, as long as none is pending when an environment call clears `SSIP`. -/
theorem ticks_accounted (h : Reach L NotPending M H) : Accounted H := by
  suffices hinv : Inv H from hinv.accounted
  induction h with
  | start => exact .start M
  | step op _ hok hs ih => exact ih.step hok hs

/-- The machine as the image is loaded. -/
def loaded : Machine where
  mem := loadStatics smallImage fun _ => 0
  globals := .image smallImage.mainTcb 0
  saved := fun _ => none
  supervisor := true
  flushSstatus := none

/-- A tick is raised and its interrupt accepted. -/
theorem ticks_accounted_loaded : ∃ H, Reach smallImage NotPending loaded H ∧ H.raised = 1 ∧
    Accounted H := by
  have hreach : Reach smallImage NotPending loaded
      { machine := loaded, sip := csrc (0 ||| 2 ^ ssip) 0x02, phase := .handling .timer, raised := 1,
        processed := 0 } := by
    refine .step .clear (.step (.enter .timer) (.step .raise .start trivial rfl) trivial rfl) ?_ rfl
    intro code p0 p1 p2 p3 heq
    cases heq
  exact ⟨_, hreach, rfl, ticks_accounted hreach⟩

/-! ### The record of the kernel -/

/-- The step of the machine, if there is one, is one that user code may cause, and `create_tcb` takes
nothing for a semaphore in it. -/
def Permitted (L : Layout) (H : Hart) : Op → Prop
  | .enter e => Allowed L H.machine e ∧ LeftoverRejected L H.machine e
  | .handle => ∀ e, H.phase = .handling e → Allowed L H.machine e ∧ LeftoverRejected L H.machine e
  | _ => True

/-- A step of the machine, which handles the ticks of its event. -/
theorem machine_ticked {M' : Machine} {e : Event} (h : Os1Kernel.Reach L (LeftoverRejected L) M)
    (hok : Allowed L M e ∧ LeftoverRejected L M e) (hs : M.step L e = some M') :
    Os1Kernel.Reach L (LeftoverRejected L) M' ∧
      M'.globals.trace.count .ticked = M.globals.trace.count .ticked + e.ticks := by
  obtain ⟨σ, hrests⟩ := reach_rests (kept_true L) (fun _ _ _ _ => trivial) h
  obtain ⟨q, hq⟩ := (hrests.mono hrests.inside.inv.2).records (kept_flush L) hrests.inside.inv.2 hok.1
    hok.2 hs
  refine ⟨h.step e hok.1 hok.2 hs, ?_⟩
  rw [hq.trace, List.count_append, hq.ticks]

/-- The ticks that have been handled are those in the record of the kernel, from a state that it
reaches. -/
theorem processed_ticked {M₀ : Machine} (h₀ : Os1Kernel.Reach L (LeftoverRejected L) M₀)
    (h : Reach L (Permitted L) M₀ H) : Os1Kernel.Reach L (LeftoverRejected L) H.machine ∧
      H.machine.globals.trace.count .ticked = M₀.globals.trace.count .ticked + H.processed := by
  induction h with
  | start => exact ⟨h₀, rfl⟩
  | @step H H' op _ hok hs ih =>
    obtain ⟨hreach, hcount⟩ := ih
    cases op with
    | raise =>
      simp only [Hart.step, Option.ite_none_left_eq_some, Option.some.injEq] at hs
      obtain ⟨-, rfl⟩ := hs
      exact ⟨hreach, hcount⟩
    | external =>
      obtain rfl := Option.some.inj hs
      exact ⟨hreach, hcount⟩
    | enter e =>
      simp only [Hart.step] at hs
      split at hs
      · split at hs
        case h_4 hecall htimer hconsole =>
          obtain ⟨M', hs', rfl⟩ := Option.map_eq_some_iff.mp hs
          obtain ⟨hreach', hcount'⟩ := machine_ticked hreach hok hs'
          have hnone : e.ticks = 0 := by
            cases e with
            | timer => exact absurd rfl htimer
            | _ => rfl
          exact ⟨hreach', by rw [hcount', hnone, hcount, Nat.add_zero]⟩
        all_goals
          obtain ⟨-, heq⟩ := Option.ite_none_right_eq_some.mp hs
          obtain rfl := Option.some.inj heq
          exact ⟨hreach, hcount⟩
      · cases hs
    | clear =>
      simp only [Hart.step] at hs
      split at hs
      · obtain rfl := Option.some.inj hs
        exact ⟨hreach, hcount⟩
      · cases hs
    | handle =>
      simp only [Hart.step] at hs
      split at hs
      case h_1 e hph =>
        obtain ⟨M', hs', rfl⟩ := Option.map_eq_some_iff.mp hs
        obtain ⟨hreach', hcount'⟩ := machine_ticked hreach (hok e hph) hs'
        exact ⟨hreach', by rw [hcount', hcount, Nat.add_assoc]⟩
      case h_2 => cases hs

/-- From every state: a tick that is raised after an environment call has entered its trap and before
the `csrc` of `k_handle_ecall` is lost. -/
theorem ticks_not_accounted : ¬∃ L : Layout, ∃ M : Machine, ∀ H, Reach L (fun _ _ => True) M H →
    Accounted H := by
  rintro ⟨L, M, hall⟩
  have hsip : csrc (0 ||| 2 ^ ssip) 0x02 = 0 := by decide
  have hreach : Reach L (fun _ _ => True) M
      { machine := M, sip := csrc (0 ||| 2 ^ ssip) 0x02, phase := .handling (.ecall 0x13 0 0 0 0),
        raised := 1, processed := 0 } := by
    have henter : Reach L (fun _ _ => True) M
        { Hart.start M with phase := .entered (.ecall 0x13 0 0 0 0) } :=
      .step (.enter (.ecall 0x13 0 0 0 0)) .start trivial rfl
    have hraise : Reach L (fun _ _ => True) M
        { machine := M, sip := 0 ||| 2 ^ ssip, phase := .entered (.ecall 0x13 0 0 0 0), raised := 1,
          processed := 0 } :=
      .step .raise henter trivial (by simp [Hart.step, Hart.start, Hart.pending])
    exact .step .clear hraise trivial rfl
  have hacc := hall _ hreach
  rw [hsip] at hacc
  simp [Accounted, Phase.accepted, Hart.pending] at hacc

end Os1Kernel.Ticks
