import Os1Kernel.Threads.Modes
import Os1Kernel.Threads.Starts

/-! The turns of the threads.  `timer_ticks` is set to zero where a thread goes on in `yield`, and not
where it starts. -/

namespace Os1Kernel

open Memory

/-- A turn of a thread: what `timer_ticks` was when the thread started in it, if it did, and the timer
interrupts since the thread has been switched in. -/
structure Turn where
  tcb : Nat
  late : Nat
  ticks : Nat

def Turn.read (T : Turn) : Action → Turn
  | .picked t => ⟨t, 0, 0⟩
  | .started _ k => { T with late := k }
  | .ticked => { T with ticks := T.ticks + 1 }
  | _ => T

/-- The last turn of a log; the first one is that of the main thread. -/
def Log.turn (L : Layout) (l : List Action) : Turn := l.foldl Turn.read ⟨L.mainTcb, 0, 0⟩

section Log

variable {L : Layout} {l q : List Action} {x : Action}

theorem turn_append : Log.turn L (l ++ q) = q.foldl Turn.read (Log.turn L l) := List.foldl_append ..

theorem turn_snoc : Log.turn L (l ++ [x]) = (Log.turn L l).read x := turn_append

theorem turn_same (h : ∀ x ∈ q, ∀ T : Turn, T.read x = T) : Log.turn L (l ++ q) = Log.turn L l := by
  rw [turn_append]
  induction q with
  | nil => rfl
  | cons x q ih =>
    rw [List.foldl_cons, h x List.mem_cons_self]
    exact ih fun y hy => h y (List.mem_cons_of_mem _ hy)

theorem turn_of_wakes (hq : ∀ x ∈ q, x.wakes = true) : ∀ x ∈ q, ∀ T : Turn, T.read x = T := by
  intro x hx T
  have hwakes := hq x hx
  cases x <;> first | rfl | cases hwakes

/-- A thread that has not started late has no ticks that are not its own. -/
theorem turn_late (h : ∀ t k, .started t k ∈ l → k = 0) : (Log.turn L l).late = 0 := by
  induction l using List.reverseRecOn with
  | nil => rfl
  | append_singleton l x ih =>
    have hrest := ih fun t k hm => h t k (List.mem_append_left _ hm)
    rw [turn_snoc]
    cases x with
    | started t k => exact h t k (List.mem_append_right _ (List.mem_singleton_self _))
    | picked => rfl
    | _ => exact hrest

end Log

/-! ### The turns of the abstract machine -/

/-- `timer_ticks` counts the interrupts of the turn, and what it was at a late start. -/
structure InTurn (L : Layout) (σ : Spec) : Prop where
  tcb : σ.current = (Log.turn L σ.globals.trace).tcb
  lt : σ.globals.timerTicks < 2 ^ 64
  ticks : σ.resuming = false → σ.globals.timerTicks =
    u64 ((Log.turn L σ.globals.trace).late + (Log.turn L σ.globals.trace).ticks)
  slice : σ.resuming = false → (Log.turn L σ.globals.trace).late = 0 →
    (Log.turn L σ.globals.trace).ticks < defaultTimeSlice
  picked : σ.resuming = true →
    (Log.turn L σ.globals.trace).late = 0 ∧ (Log.turn L σ.globals.trace).ticks = 0

namespace InTurn

variable {L : Layout} {σ τ : Spec} {s : Nat} {x : Action} {q : List Action}

theorem initial (L : Layout) (mainStack : Nat) (tiles : List Tiling.Tile) (fbHead sstatus : Nat) :
    InTurn L (.initial L mainStack tiles fbHead sstatus) where
  tcb := rfl
  lt := by
    change 0 < 2 ^ 64
    decide
  ticks _ := rfl
  slice _ _ := by
    change 0 < defaultTimeSlice
    decide
  picked h := by cases h

/-- A step that only adds to the log what is not about turns. -/
theorem extend (h : InTurn L σ) (hcur : τ.current = σ.current)
    (hticks : τ.globals.timerTicks = σ.globals.timerTicks) (hres : τ.resuming = σ.resuming)
    (htrace : τ.globals.trace = σ.globals.trace ++ q) (hq : ∀ x ∈ q, ∀ T : Turn, T.read x = T) :
    InTurn L τ := by
  have hturn : Log.turn L τ.globals.trace = Log.turn L σ.globals.trace := by rw [htrace, turn_same hq]
  refine ⟨?_, ?_, ?_, ?_, ?_⟩
  · rw [hcur, hturn]
    exact h.tcb
  · rw [hticks]
    exact h.lt
  · rw [hticks, hres, hturn]
    exact h.ticks
  · rw [hres, hturn]
    exact h.slice
  · rw [hres, hturn]
    exact h.picked

theorem log (h : InTurn L σ) (hx : ∀ T : Turn, T.read x = T) : InTurn L (σ.log x) :=
  h.extend rfl rfl rfl rfl fun _ hy => List.mem_singleton.mp hy ▸ hx

theorem same (h : InTurn L σ) (hcur : τ.current = σ.current)
    (hticks : τ.globals.timerTicks = σ.globals.timerTicks) (hres : τ.resuming = σ.resuming)
    (htrace : τ.globals.trace = σ.globals.trace) : InTurn L τ :=
  h.extend (q := []) hcur hticks hres (by rw [htrace, List.append_nil]) (by simp)

theorem releaseAll (h : InTurn L σ) (s : Nat) (xs : List Nat) : InTurn L (σ.releaseAll s xs) := by
  obtain ⟨q, hg, hq⟩ := σ.releaseAll_adds s xs
  exact h.extend (by rw [Spec.current, hg]; rfl) (by rw [hg])
    (Inside.releaseAll_same σ s xs).2.2.2.2.2.2.1 (by rw [hg]) (turn_of_wakes hq)

theorem signal (h : InTurn L σ) (s : Nat) : InTurn L (σ.signal s) := by
  obtain ⟨q, hg, hq⟩ := σ.signal_adds s
  exact h.extend (by rw [Spec.current, hg]; rfl) (by rw [hg])
    (Inside.signal_same σ s).2.2.2.2.2.2.1 (by rw [hg]) (turn_of_wakes hq)

theorem exit (h : InTurn L σ) (W : Owners) (fbHead : Nat) : InTurn L (σ.exit W fbHead) := by
  have hterm : InTurn L (σ.log (.terminated σ.current)) := h.log fun _ => rfl
  have hend := hterm.releaseAll (σ.owners.join σ.current) (σ.abs.waiting (σ.owners.join σ.current))
  have hstack := hend.log (x := .freed (σ.owners.stack σ.current) 0) fun _ => rfl
  have hkernel := hstack.log (x := .freed (σ.owners.kernelStack σ.current) 0) fun _ => rfl
  have hjoin := hkernel.log (x := .freed (σ.owners.join σ.current) 0) fun _ => rfl
  have hblock := hjoin.log (x := .freed σ.current 0) fun _ => rfl
  exact hblock.same rfl rfl rfl rfl

theorem wake (h : InTurn L σ) : InTurn L σ.wake := by
  refine h.extend rfl rfl rfl rfl fun x hx => ?_
  obtain ⟨t, -, rfl⟩ := List.mem_map.mp hx
  exact fun _ => rfl

/-- A thread is switched in. -/
theorem switch (hlt : σ.globals.timerTicks < 2 ^ 64) (t : Nat) (R : List Nat) (sstatus : Nat) :
    InTurn L (σ.switch t R sstatus) := by
  have hturn : Log.turn L (σ.switch t R sstatus).globals.trace = ⟨t, 0, 0⟩ := turn_snoc
  refine ⟨?_, hlt, fun hres => (by cases hres), fun hres => (by cases hres), fun _ => ?_⟩
  · rw [hturn]
    rfl
  · rw [hturn]
    exact ⟨rfl, rfl⟩

theorem tick (h : InTurn L σ) (hr : σ.resuming = false)
    (hslice : σ.tick.globals.timerTicks < defaultTimeSlice) : InTurn L σ.tick := by
  have hw := h.wake
  have hturn : Log.turn L σ.tick.globals.trace = (Log.turn L σ.wake.globals.trace).read .ticked :=
    turn_snoc
  have hticks : σ.globals.timerTicks =
    u64 ((Log.turn L σ.wake.globals.trace).late + (Log.turn L σ.wake.globals.trace).ticks) := hw.ticks hr
  have hnew : σ.tick.globals.timerTicks = u64 (σ.globals.timerTicks + 1) := rfl
  refine ⟨?_, ?_, fun _ => ?_, fun _ hlate => ?_, fun hres => ?_⟩
  · rw [hturn]
    exact hw.tcb
  · rw [hnew]
    exact Nat.mod_lt _ (by decide)
  · rw [hnew, hticks, hturn]
    simp only [u64, Turn.read]
    omega
  · rw [hturn] at hlate ⊢
    have hlt := hw.slice hr hlate
    rw [hnew, hticks] at hslice
    simp only [u64, Turn.read, defaultTimeSlice] at hlate hlt hslice ⊢
    omega
  · exact absurd hres (by rw [show σ.tick.resuming = σ.resuming from rfl, hr]; simp)

/-- The thread that has been switched in goes on in `yield`, -/
theorem goOn (h : InTurn L σ) (hr : σ.resuming = true) : InTurn L { σ.reset with resuming := false } := by
  obtain ⟨hlate, hticks⟩ := h.picked hr
  refine ⟨h.tcb, by change 0 < 2 ^ 64; decide, fun _ => ?_, fun _ _ => ?_, fun hres => by cases hres⟩
  · change 0 = u64 ((Log.turn L σ.globals.trace).late + (Log.turn L σ.globals.trace).ticks)
    rw [hlate, hticks]
    rfl
  · change (Log.turn L σ.globals.trace).ticks < defaultTimeSlice
    rw [hticks]
    decide

/-- or it starts. -/
theorem start (h : InTurn L σ) (hr : σ.resuming = true) :
    InTurn L { σ.log (.started σ.current σ.globals.timerTicks) with resuming := false } := by
  obtain ⟨hlate, hticks⟩ := h.picked hr
  have hturn : Log.turn L (σ.log (.started σ.current σ.globals.timerTicks)).globals.trace =
    { Log.turn L σ.globals.trace with late := σ.globals.timerTicks } := turn_snoc
  refine ⟨?_, h.lt, fun _ => ?_, fun _ _ => ?_, fun hres => by cases hres⟩
  · change σ.current = (Log.turn L (σ.log (.started σ.current σ.globals.timerTicks)).globals.trace).tcb
    rw [hturn]
    exact h.tcb
  · change σ.globals.timerTicks =
      u64 ((Log.turn L (σ.log (.started σ.current σ.globals.timerTicks)).globals.trace).late +
        (Log.turn L (σ.log (.started σ.current σ.globals.timerTicks)).globals.trace).ticks)
    rw [hturn]
    simp only [hticks, Nat.add_zero]
    exact (Nat.mod_eq_of_lt h.lt).symm
  · change (Log.turn L (σ.log (.started σ.current σ.globals.timerTicks)).globals.trace).ticks <
      defaultTimeSlice
    rw [hturn]
    simp only [hticks]
    decide

theorem resume (h : InTurn L σ) (hr : σ.resuming = true) : InTurn L (σ.resume L) := by
  have hgo := h.goOn hr
  have hafter (s : Nat) : InTurn L { σ.reset.afterBlock s with resuming := false } := by
    exact hgo.log (x := .waitReturned σ.current s _) fun _ => rfl
  unfold Spec.resume
  cases σ.abs.cont σ.current with
  | fresh => exact h.start hr
  | preempted => exact hgo
  | dispatched => exact hgo
  | joining s => exact hafter s
  | waiting s => exact hafter s
  | reading =>
    have hread : InTurn L (({ σ.reset.afterBlock L.getcSem with resuming := false } : Spec).take) :=
      ((hafter L.getcSem).same (τ := ({ σ.reset.afterBlock L.getcSem with resuming := false } : Spec).on
        { (σ.reset.afterBlock L.getcSem).globals with
          getcBuffer := (σ.reset.afterBlock L.getcSem).globals.getcBuffer.get.2 }) rfl rfl rfl rfl).log
        fun _ => rfl
    exact hread
  | writing p0 =>
    have hwrite : InTurn L (({ σ.reset.afterBlock L.putcSem with resuming := false } : Spec).store p0) :=
      ((hafter L.putcSem).same (τ := ({ σ.reset.afterBlock L.putcSem with resuming := false } : Spec).on
        { (σ.reset.afterBlock L.putcSem).globals with
          putcBuffer := (σ.reset.afterBlock L.putcSem).globals.putcBuffer.put (UInt8.ofNat p0) })
        rfl rfl rfl rfl).log fun _ => rfl
    exact hwrite

end InTurn

/-- The steps keep the turns. -/
theorem kept_inTurn (L : Layout) : Kept L (InTurn L) := by
  intro σ σ' hs h
  have hcalled (code p0 : Nat) : InTurn L (σ.called code p0) := h.log fun _ => rfl
  have hpass {τ : Spec} (hτ : InTurn L τ) (s : Nat) : InTurn L (τ.pass s) := by
    have hwait := hτ.log (x := .waitCalled τ.current s) fun _ => rfl
    have hret := hwait.log (x := .waitReturned τ.current s Sem.waitSuccess) fun _ => rfl
    exact hret.same rfl rfl rfl rfl
  cases hs with
  | called _ _ code p0 => exact hcalled code p0
  | returned _ _ a0 => exact h.log fun _ => rfl
  | @pass _ _ s => exact hpass h s
  | passRead =>
    have htake := (hpass h L.getcSem).log (x := .got σ.current σ.globals.getcBuffer.get.1) fun _ => rfl
    exact htake.same rfl rfl rfl rfl
  | passWrite _ _ p0 =>
    have hstore := (hpass (hcalled 0x42 p0) L.putcSem).log
      (x := .stored σ.current (UInt8.ofNat p0)) fun _ => rfl
    exact hstore.same rfl rfl rfl rfl
  | blockWrite | block | dispatch | sleep =>
    apply InTurn.switch
    exact h.lt
  | signal => exact h.signal _
  | receive _ _ temp =>
    have hput : InTurn L ((σ.on { σ.globals with getcBuffer := σ.globals.getcBuffer.put temp }).log
        (.received temp)) := InTurn.log (h.same rfl rfl rfl rfl) fun _ => rfl
    exact hput.signal _
  | flushChar =>
    have hget : InTurn L (σ.on { σ.globals with
      putcBuffer := σ.globals.putcBuffer.get.2
      console := σ.globals.console ++ [σ.globals.putcBuffer.get.1] }) := h.same rfl rfl rfl rfl
    exact hget.signal _
  | tick _ hr hslice => exact h.tick hr hslice
  | preempt => exact .switch (Nat.mod_lt _ (by decide)) _ _ _
  | resume _ hr => exact h.resume hr
  | userMode _ _ p0 => exact (hcalled 0xff p0).same rfl rfl rfl rfl
  | sstatus | retile | flush => exact h.same rfl rfl rfl rfl
  | @openSem _ _ s value =>
    exact (h.log (x := .initialized s value) fun _ => rfl).same rfl rfl rfl rfl
  | @closeSem _ _ s W fbHead =>
    have hend := (h.releaseAll s (σ.abs.waiting s)).log (x := .freed s MemoryAllocator.memSuccess)
      fun _ => rfl
    exact hend.same rfl rfl rfl rfl
  | @create _ _ t j =>
    have hopen := h.log (x := .initialized j 0) fun _ => rfl
    have hcreated := hopen.log (x := .created σ.current t) fun _ => rfl
    have hready := hcreated.log (x := .readied t) fun _ => rfl
    exact hready.same rfl rfl rfl rfl
  | freed => exact h.log fun _ => rfl
  | exit _ _ fbHead => exact .switch (h.exit _ fbHead).lt _ _ _

/-! ### Turns in every run -/

/-- The turns of a machine. -/
structure TurnsCounted (L : Layout) (M : Machine) : Prop where
  /-- The running thread is the one that has been switched in last, -/
  tcb : M.globals.currentTcb = (Log.turn L M.globals.trace).tcb
  /-- and `timer_ticks` counts the interrupts since then. -/
  ticks : M.globals.timerTicks = (Log.turn L M.globals.trace).ticks
  /-- A timer interrupt ends its turn only after as many of them as its slice has. -/
  slice : ∀ M', M.step L .timer = some M' → Log.picked M'.globals.trace ≠ Log.picked M.globals.trace →
    M.mem.field M.globals.currentTcb Field.timeSlice ≤ (Log.turn L M.globals.trace).ticks + 1

/-- Where the handler picks a thread that has never run, `timer_ticks` is zero. -/
def StartsOnTime (L : Layout) (M : Machine) (e : Event) : Prop := PicksFresh L M e → e.timerTicks M = 0

theorem started_on_time {L : Layout} {M : Machine}
    (h : Reach L (fun M e => LeftoverRejected L M e ∧ StartsOnTime L M e) M) :
    ∀ t k, .started t k ∈ M.globals.trace → k = 0 := by
  induction h with
  | boot m sstatus hb =>
    obtain ⟨σ, hrests, hbooted⟩ := boot_rests (kept_true L) (fun _ _ _ _ => trivial) hb
    obtain ⟨j, a, b, htrace⟩ := hbooted.trace
    intro t k hm
    rw [hrests.of_sstatus] at htrace
    rw [show _ = _ from htrace] at hm
    simp at hm
  | step e h ha hok hs ih =>
    obtain ⟨σ, hrests⟩ := reach_rests (kept_true L) (fun _ _ _ _ => trivial)
      (h.mono fun _ _ hok => hok.1)
    obtain ⟨q, hq⟩ := (hrests.mono hrests.inside.inv.2).records (kept_flush L) hrests.inside.inv.2 ha
      hok.1 hs
    intro t k hm
    rw [hq.trace] at hm
    rcases List.mem_append.mp hm with hm | hm
    · exact ih t k hm
    · obtain ⟨hpicks, rfl⟩ := hq.starts t k hm
      exact hok.2 hpicks

/-- Where the running thread has not started late its turn is counted. -/
theorem Rests.turnsCounted {L : Layout} {M : Machine} {σ : Spec} (h : Rests L (InTurn L) M σ)
    (hlate : (Log.turn L M.globals.trace).late = 0) : TurnsCounted L M := by
  have hinv := h.inside.inv
  have hsame : σ.globals.trace = M.globals.trace ∧ σ.globals.timerTicks = M.globals.timerTicks := by
    rw [h.of_sstatus]
    exact ⟨rfl, rfl⟩
  have htcb := hinv.tcb
  have hlt := hinv.slice h.inside.resuming
  have hticks := hinv.ticks h.inside.resuming
  rw [hsame.1] at htcb hlt hticks
  rw [hsame.2, hlate, Nat.zero_add] at hticks
  have hcount : M.globals.timerTicks = (Log.turn L M.globals.trace).ticks := by
    rw [hticks]
    refine Nat.mod_eq_of_lt ((hlt hlate).trans ?_)
    decide
  refine ⟨h.current ▸ htcb, hcount, fun M' hs hne => ?_⟩
  have hslice : M.mem.field M.globals.currentTcb Field.timeSlice = defaultTimeSlice := by
    rw [← h.current]
    exact h.inside.holds.base.slice _ (h.inside.holds.current_mem h.inside.running)
  rw [hslice]
  by_contra hshort
  have hnew : σ.tick.globals.timerTicks = u64 (M.globals.timerTicks + 1) := by
    rw [← hsame.2]
    rfl
  obtain ⟨M'', hs', h'⟩ := h.timer (kept_inTurn L) (by
    rw [hnew, hcount]
    unfold u64
    unfold defaultTimeSlice at hshort ⊢
    omega)
  obtain rfl := Option.some.inj (hs.symm.trans hs')
  apply hne
  have htrace : M'.globals.trace = (M.globals.trace ++ σ.woken.map .readied) ++ [.ticked] := by
    have htick : σ.tick.globals.trace = M'.globals.trace := by rw [h'.of_sstatus]
    rw [← htick, ← hsame.1]
    rfl
  rw [htrace, Log.picked_append, Log.picked_append]
  have hwoken (xs : List Nat) : Log.picked (xs.map .readied) = [] := by
    induction xs with
    | nil => rfl
    | cons t xs ih => exact ih
  rw [hwoken, List.append_nil]
  exact List.append_nil _

/-- Turns are counted in every run in which no thread starts while `timer_ticks` is not zero, and `free`
rejects what a `thread_create` that finds no kernel stack takes for a semaphore. -/
theorem turns_counted {L : Layout} {M : Machine}
    (h : Reach L (fun M e => LeftoverRejected L M e ∧ StartsOnTime L M e) M) : TurnsCounted L M := by
  obtain ⟨σ, hrests⟩ := reach_rests (kept_inTurn L) (fun _ _ _ _ => InTurn.initial _ _ _ _ _)
    (h.mono fun _ _ hok => hok.1)
  exact (hrests.mono hrests.inside.inv.1).turnsCounted (turn_late (started_on_time h))

/-- The turn of a new thread that another one waits for: it has started in time, and the timer has
ticked. -/
theorem turns_counted_joined : ∃ M, Reach roomyImage (fun M e => LeftoverRejected roomyImage M e ∧
    StartsOnTime roomyImage M e) M ∧ M.globals.currentTcb = 34880 ∧ M.globals.timerTicks = 1 ∧
      TurnsCounted roomyImage M := by
  obtain ⟨M₀, M, σ₀, σ, -, -, h, c⟩ := thread_joined
  have hreach : Reach roomyImage (fun M e => LeftoverRejected roomyImage M e ∧
      StartsOnTime roomyImage M e) M := by
    refine (h.follows.reach h.start).mono fun M e hok => ⟨hok.1, fun _ => ?_⟩
    cases e with
    | timer => exact absurd rfl hok.2.2
    | _ => exact hok.2.1
  have hticks : σ.tick.globals.timerTicks = 1 := by
    change u64 (σ.globals.timerTicks + 1) = 1
    rw [h.ticks]
    rfl
  have hlt : σ.tick.globals.timerTicks < defaultTimeSlice := by
    rw [hticks]
    decide
  obtain ⟨M', hs, h'⟩ := h.rests.timer (kept_flush _) hlt
  -- the tick does not end the turn
  have hontime : StartsOnTime roomyImage M .timer := by
    rintro ⟨s, r, m, g, hrun, -⟩
    have hpost := h.rests.post_timer (kept_flush _) hlt
    rw [← h.rests.globals, show handleTimer roomyImage = Event.handler roomyImage .timer from rfl, hrun,
      Prog.post_suspended] at hpost
    exact hpost.elim
  have hreach' := hreach.step .timer trivial ⟨trivial, hontime⟩ hs
  refine ⟨M', hreach', h'.current.symm.trans c.current, ?_, turns_counted hreach'⟩
  rw [← hticks, h'.of_sstatus]

/-! ### The flush thread starts late -/

/-- The flush thread starts after a tick in the turn of the main thread. -/
theorem turns_not_counted :
    ¬∀ (L : Layout) (M : Machine), Reach L (LeftoverRejected L) M → TurnsCounted L M := by
  intro hall
  obtain ⟨M₀, hb⟩ := boot_bootImage (fun _ => 0) 0
  obtain ⟨σ, hrests, hbooted⟩ := boot_rests (kept_true bootImage) (fun _ _ _ _ => trivial) hb
  have hticks : σ.tick.globals.timerTicks = 1 := by
    change u64 (σ.globals.timerTicks + 1) = 1
    rw [hbooted.ticks]
    rfl
  obtain ⟨M₁, hs₁, h₁⟩ := hrests.timer (kept_true _) (by rw [hticks]; decide)
  have hready : σ.tick.abs.ready = [σ.globals.handles.flush] := by
    change σ.abs.ready ++ SleepList.woken _ σ.abs.asleep = _
    rw [hbooted.ready, hbooted.asleep]
    rfl
  have hne : σ.globals.handles.flush ≠ σ.tick.current := by
    have hp := bootImage.places
    have hstart := bootImage.heap.start_le_addr 128
    change _ ≠ σ.current
    rw [hbooted.current, hbooted.image.2]
    omega
  obtain ⟨M₂, x, hs₂, h₂⟩ := h₁.dispatch_fresh (kept_true _) hready hbooted.fresh hne
  have hsame : M₂.globals.timerTicks = σ.tick.globals.timerTicks :=
    (congrArg Globals.timerTicks h₂.of_sstatus).symm
  have htrace : M₂.globals.trace = (σ.tick.handOver σ.globals.handles.flush [] x).globals.trace :=
    (congrArg Globals.trace h₂.of_sstatus).symm
  have hr₁ : Reach bootImage (LeftoverRejected bootImage) M₁ :=
    (Reach.boot _ _ hb).step .timer trivial trivial hs₁
  have hr₂ := hr₁.step (.ecall 0x13 0 0 0 0) (by simp [Allowed]) (by simp [LeftoverRejected])
    ((step_ecall rfl rfl rfl rfl rfl).trans hs₂)
  have hcount := (hall _ _ hr₂).ticks
  rw [hsame, hticks, htrace, Spec.handOver_trace, hticks, turn_append] at hcount
  simp [Turn.read] at hcount

end Os1Kernel
