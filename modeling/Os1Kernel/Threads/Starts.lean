import Os1Kernel.Threads.Grows
import Os1Kernel.Threads.Run

/-! What a step adds to the record of starts and ticks: a thread starts only where a trap switches to it,
and `k_handle_timer` handles one tick. -/

namespace Os1Kernel

open Memory

/-- The record has grown by `n` ticks and what is neither a start nor a tick. -/
def Marks (n : Nat) (g g' : Globals) : Prop :=
  ∃ q, g'.trace = g.trace ++ q ∧ (∀ t k, .started t k ∉ q) ∧ q.count .ticked = n

namespace Marks

variable {n n' : Nat} {g g' g'' : Globals} {x : Action}

theorem same (h : g'.trace = g.trace) : Marks 0 g g' := ⟨[], by rw [h, List.append_nil], by simp, rfl⟩

theorem log (hx : x.marks = false) : Marks 0 g { g with trace := g.trace ++ [x] } := by
  refine ⟨[x], rfl, fun t k hm => ?_, List.count_singleton.trans (if_neg fun heq => ?_)⟩
  · obtain rfl := List.mem_singleton.mp hm
    cases hx
  · obtain rfl := eq_of_beq heq
    cases hx

theorem trans (h : Marks n g g') (h' : Marks n' g' g'') : Marks (n + n') g g'' := by
  obtain ⟨q, hq, hno, hcount⟩ := h
  obtain ⟨q', hq', hno', hcount'⟩ := h'
  refine ⟨q ++ q', by rw [hq', hq, List.append_assoc], fun t k hm => ?_, ?_⟩
  · exact (List.mem_append.mp hm).elim (hno t k) (hno' t k)
  · rw [List.count_append, hcount, hcount']

end Marks

/-- `n` ticks have been handled, and no thread has started. -/
structure Ticked (n : Nat) (g g' : Globals) : Prop where
  marks : Marks n g g'
  ticks : g'.timerTicks = (fun k => u64 (k + 1))^[n] g.timerTicks

theorem Ticked.trans {n n' : Nat} {g g' g'' : Globals} (h : Ticked n g g') (h' : Ticked n' g' g'') :
    Ticked (n + n') g g'' where
  marks := h.marks.trans h'.marks
  ticks := by rw [h'.ticks, h.ticks, ← Function.iterate_add_apply, Nat.add_comm]

theorem admits_ticked : AdmitsSwitch (Ticked 0) where
  refl _ := ⟨.same rfl, rfl⟩
  trans _ _ _ := .trans
  log _ _ hx := ⟨.log hx, rfl⟩
  registers _ _ h h' := ⟨.same h, h'⟩

/-- The code handles `n` ticks, until it returns or another thread is picked. -/
def TicksOf (n : Nat) (p : Kernel Unit) : Prop := ∀ m g,
  Prog.Post (fun _ => True) (fun _ _ g' => Ticked n g g') (fun _ _ _ g' => Ticked n g g') (p.run m g)

theorem Grows.ticks {p : Kernel Unit} (h : Grows (Ticked 0) True p) : TicksOf 0 p := fun m g =>
  Prog.post_mono (h.post admits_ticked.admits m g) (fun _ _ _ h => h) fun _ _ _ _ h => h.2

/-- `k_handle_timer` handles one tick. -/
theorem ticksOf_timer (L : Layout) : TicksOf 1 (handleTimer L) := by
  intro m g
  have htick : Grows (Ticked 0) False (TCBSleepQueue.timerTick L L.sleepQueue) :=
    .timerTick admits_ticked.admits _
  have hrest : Grows (Ticked 0) True (globals >>= fun g => rd g.currentTcb .timeSlice >>= fun slice =>
      if g.timerTicks ≥ slice then dispatch L else Pure.pure ()) := by
    refine Grows.globals.bind fun _ => (Grows.rd _ _).bind fun _ => ?_
    split
    · exact .dispatch admits_ticked
    · exact .pure _
  refine Prog.post_bind (Prog.post_mono (htick.post admits_ticked.admits m g) (fun _ m₁ g₁ h₁ => ?_)
    fun _ _ _ _ h => h.1.elim)
  refine post_of_run run_modifyGlobals (post_of_run run_log ?_)
  have hone : Ticked 1 g { g₁ with
      timerTicks := u64 (g₁.timerTicks + 1)
      trace := g₁.trace ++ [.ticked] } := by
    rw [← Nat.zero_add 1]
    exact h₁.trans ⟨⟨[.ticked], rfl, by simp, rfl⟩, rfl⟩
  exact Prog.post_mono (hrest.ticks _ _) (fun _ _ _ h => hone.trans h) fun _ _ _ _ h => hone.trans h

/-! ### Steps -/

/-- A thread that has run before goes on without a start. -/
theorem Away.Resumes.marks {L : Layout} {σ τ : Spec} (h : Away.Resumes L σ τ)
    (hne : σ.abs.cont σ.current ≠ .fresh) : Marks 0 σ.globals τ.globals := by
  have hresume : Marks 0 σ.globals (σ.resume L).globals := by
    have hreset : Marks 0 σ.globals σ.reset.globals := .same rfl
    unfold Spec.resume
    cases hc : σ.abs.cont σ.current with
    | fresh => exact absurd hc hne
    | preempted | dispatched => exact hreset
    | joining | waiting => exact hreset.trans (.log rfl)
    | reading => exact (hreset.trans (.log (x := .waitReturned ..) rfl)).trans (.log (x := .got ..) rfl)
    | writing => exact (hreset.trans (.log (x := .waitReturned ..) rfl)).trans (.log (x := .stored ..) rfl)
  rcases h with rfl | ⟨a0, rfl⟩
  · exact hresume
  · exact hresume.trans (.log rfl)

/-- The handler of the trap, if the event is one. -/
def Event.handler (L : Layout) : Event → Kernel Unit
  | .ecall code p0 p1 p2 p3 => ecallTrap L code.toNat p0.toNat p1.toNat p2.toNat p3.toNat
  | .timer => handleTimer L
  | .console rx => handleConsole L rx
  | _ => pure ()

/-- The ticks that a step handles. -/
def Event.ticks : Event → Nat
  | .timer => 1
  | _ => 0

/-- `timer_ticks` when the tick of the event, if it is one, has been counted. -/
def Event.timerTicks (M : Machine) : Event → Nat
  | .timer => u64 (M.globals.timerTicks + 1)
  | _ => M.globals.timerTicks

theorem ticksOf_handler (L : Layout) (e : Event) : TicksOf e.ticks (e.handler L) := by
  cases e with
  | ecall => exact (Grows.ecallTrap admits_ticked _ _ _ _ _).ticks
  | timer => exact ticksOf_timer L
  | console => exact (Grows.handleConsole admits_ticked _).ticks
  | flushRead | flushPutc | user => exact (Grows.pure _).ticks

/-- The handler picks a thread that has never run: its context returns to `k_tcb_start`. -/
def PicksFresh (L : Layout) (M : Machine) (e : Event) : Prop :=
  ∃ s r m g, (e.handler L).run M.mem M.enter.globals = .suspended s r m g ∧ s.ra = L.kTcbStart

/-- What a step adds to the record: its ticks, and the start of a thread only where the handler has
picked it. -/
structure Records (L : Layout) (M M' : Machine) (e : Event) (q : List Action) : Prop where
  trace : M'.globals.trace = M.globals.trace ++ q
  starts : ∀ t k, .started t k ∈ q → PicksFresh L M e ∧ k = e.timerTicks M
  ticks : q.count .ticked = e.ticks

theorem Marks.records {L : Layout} {M M' : Machine} {e : Event}
    (h : Marks e.ticks M.globals M'.globals) : ∃ q, Records L M M' e q := by
  obtain ⟨q, hq, hno, hcount⟩ := h
  exact ⟨q, hq, fun t k hm => absurd hm (hno t k), hcount⟩

namespace Rests

variable {L : Layout} {I : Spec → Prop} {M M' : Machine} {σ : Spec} {e : Event}

theorem trap_records {E : Fault → Prop} {W : Owners} {X : Nat → Prop} {m : Mem} (h : Rests L I M σ)
    (hI : Kept L I) (hpost : Prog.Post E (BackFrom L M.saved I W X m) (GoneFrom L M.saved I W X m)
      ((e.handler L).run M.mem σ.globals)) (hs : M.trap L (e.handler L) = some M') :
    ∃ q, Records L M M' e q := by
  have hticks := ticksOf_handler L e M.mem M.enter.globals
  rw [← h.globals] at hpost
  obtain ⟨n, hn⟩ := walkLimit_eq
  have hmem : M.enter.mem = M.mem := rfl
  rw [Machine.trap, hn, Machine.exec, hmem] at hs
  cases hrun : (e.handler L).run M.mem M.enter.globals with
  | fault f =>
    rw [hrun] at hs
    cases hs
  | done r m' g =>
    rw [hrun] at hs
    rw [hrun, Prog.post_done] at hticks
    obtain rfl := Option.some.inj hs
    exact hticks.marks.records
  | suspended sw k m' g =>
    rw [hrun] at hs
    rw [hrun, Prog.post_suspended] at hticks hpost
    obtain ⟨τ, rfl, haway, -⟩ := hpost
    obtain ⟨M'', σ', hsome, hret, hτ, -, hfresh⟩ := switchTo_returns
      (M := { M.enter with mem := m', globals := τ.globals }) hI n haway rfl
    simp only [hsome, Option.map_some] at hs
    obtain rfl := Option.some.inj hs
    have htrace : (Machine.sret M'').globals.trace = σ'.globals.trace := by
      rw [← hret.globals]
      rfl
    by_cases hnew : τ.abs.cont τ.current = .fresh
    · rw [hfresh hnew, Spec.resume_fresh hnew] at htrace
      obtain ⟨⟨q, hq, hno, hcount⟩, hcounted⟩ := hticks
      refine ⟨q ++ [.started τ.current τ.globals.timerTicks], ?_, fun t k hm => ?_, ?_⟩
      · rw [htrace, ← List.append_assoc]
        exact congrArg (· ++ _) hq
      · rcases List.mem_append.mp hm with hm | hm
        · exact absurd hm (hno t k)
        · obtain ⟨-, rfl⟩ := Action.started.inj (List.mem_singleton.mp hm)
          refine ⟨⟨sw, _, m', _, hrun, ?_⟩, hcounted.trans ?_⟩
          · rw [haway.switches.ra, if_pos hnew]
          · cases e <;> rfl
      · rw [List.count_append, hcount, List.count_singleton]
        rfl
    · obtain ⟨q, hq, hmarks⟩ := hticks.marks.trans (hτ.marks hnew)
      exact Marks.records ⟨q, htrace.trans hq, hmarks⟩

/-- What a step adds to the record. -/
theorem records (h : Rests L I M σ) (hI : Kept L I) (hf : σ.globals.handles.flush ≠ 0)
    (ha : Allowed L M e) (hok : LeftoverRejected L M e) (hs : M.step L e = some M') :
    ∃ q, Records L M M' e q := by
  cases e with
  | ecall code p0 p1 p2 p3 =>
    exact h.trap_records hI (h.inside.spared_ecall (E := fun _ => True) (X := fun _ => True) hI
      (fun _ => trivial) hf (h.call ha hok) (fun _ _ _ _ => trivial) fun _ _ _ _ => trivial) hs
  | timer =>
    exact h.trap_records (E := fun _ => False) (X := fun _ => False) hI
      (h.inside.spared_of_wp (h.inside.wp_timer hI)) hs
  | console rx =>
    exact h.trap_records (E := fun _ => False) (X := fun _ => False) hI
      (h.inside.spared_of_wp (h.inside.wp_console hI rx)) hs
  | flushRead | user =>
    obtain rfl := Option.some.inj hs
    exact Marks.records (.same rfl)
  | flushPutc tx =>
    have hgrows := (Grows.flushPutcBuffer (L := L) admits_ticked tx).post admits_ticked.admits M.mem
      M.globals
    obtain ⟨n, hn⟩ := walkLimit_eq
    cases hss : M.flushSstatus with
    | none => simp [Machine.step, hss] at hs
    | some sstatus =>
      simp only [Machine.step, hss, Option.bind_some, hn, Machine.exec] at hs
      cases hrun : (flushPutcBuffer L tx).run M.mem M.globals with
      | fault f =>
        rw [hrun] at hs
        cases hs
      | done r m g =>
        rw [hrun] at hs
        rw [hrun, Prog.post_done] at hgrows
        obtain rfl := Option.some.inj hs
        exact Marks.records (e := .flushPutc tx) hgrows.marks
      | suspended s k m g =>
        rw [hrun, Prog.post_suspended] at hgrows
        exact hgrows.1.elim

end Rests

end Os1Kernel
