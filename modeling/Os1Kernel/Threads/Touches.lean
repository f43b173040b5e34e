import Os1Kernel.Threads.Modes
import Os1Kernel.Threads.Pool

/-! The steps that have to do with the semaphores of the console, and the others. -/

namespace Os1Kernel

open Memory

/-- The steps that take or give a unit of a semaphore of the console. -/
inductive Touches (L : Layout) (σ : Spec) : Nat → Spec → Prop
  | read (hr : σ.resuming = false) (h : 0 ≤ toInt (decBits (σ.abs.bits L.getcSem))) :
      Touches L σ L.getcSem (σ.pass L.getcSem).take
  | blockRead (hr : σ.resuming = false) {n x : Nat} {R : List Nat}
      (h : toInt (decBits (σ.abs.bits L.getcSem)) < 0) :
      Touches L σ L.getcSem ((σ.block L.getcSem .reading).switch n R x)
  | receive (hr : σ.resuming = false) (temp : UInt8) (hlen : σ.globals.getcBuffer.count < ioBufferSize) :
      Touches L σ L.getcSem (σ.receive L temp)
  | goOnRead (hr : σ.resuming = true) (hc : σ.abs.cont σ.current = .reading) :
      Touches L σ L.getcSem (σ.resume L)
  | write (hr : σ.resuming = false) (p0 : Nat) (h : 0 ≤ toInt (decBits (σ.abs.bits L.putcSem))) :
      Touches L σ L.putcSem (((σ.called 0x42 p0).pass L.putcSem).store p0)
  | blockWrite (hr : σ.resuming = false) (p0 : Nat) {n x : Nat} {R : List Nat}
      (h : toInt (decBits (σ.abs.bits L.putcSem)) < 0) :
      Touches L σ L.putcSem (((σ.called 0x42 p0).block L.putcSem (.writing p0)).switch n R x)
  | flushChar (hr : σ.resuming = false) (hlen : 0 < σ.globals.putcBuffer.count) :
      Touches L σ L.putcSem (σ.flushChar L)
  | goOnWrite (hr : σ.resuming = true) (p0 : Nat) (hc : σ.abs.cont σ.current = .writing p0) :
      Touches L σ L.putcSem (σ.resume L)

/-- Only threads in calls of `getc` and `putc` wait on the semaphores of the console. -/
def Kinds (L : Layout) (s : Nat) (σ : Spec) : Prop :=
  ∀ t c, σ.away L t = some c → c.sem L = some s → c = .reading ∨ ∃ p0, c = .writing p0

namespace Adds

variable {L : Layout} {s u : Nat} {l l' : List Action} {σ : Spec} {xs : List Nat}

theorem refl (l : List Action) : Adds L s l l := ⟨[], by simp, by simp⟩

theorem snoc (h : Adds L s l l') {x : Action} (hx : x.touches L s = false) :
    Adds L s l (l' ++ [x]) := by
  obtain ⟨q, rfl, hq⟩ := h
  refine ⟨q ++ [x], by rw [List.append_assoc], fun y hy => ?_⟩
  rcases List.mem_append.mp hy with hy | hy
  · exact hq y hy
  · rw [List.mem_singleton.mp hy]
    exact hx

theorem append (h : Adds L s l l') {q : List Action} (hq : ∀ x ∈ q, x.touches L s = false) :
    Adds L s l (l' ++ q) := by
  obtain ⟨q', rfl, hq'⟩ := h
  refine ⟨q' ++ q, by rw [List.append_assoc], fun y hy => ?_⟩
  exact (List.mem_append.mp hy).elim (hq' y) (hq y)

theorem touches_of_wakes {x : Action} (h : x.wakes = true) : x.touches L s = false := by
  cases x <;> first | rfl | cases h

theorem signal (h : Adds L s l σ.globals.trace) (u : Nat) :
    Adds L s l (σ.signal u).globals.trace := by
  obtain ⟨q, hg, hq⟩ := σ.signal_adds u
  rw [hg]
  exact h.append fun x hx => touches_of_wakes (hq x hx)

theorem releaseAll (h : Adds L s l σ.globals.trace) (u : Nat) (xs : List Nat) :
    Adds L s l (σ.releaseAll u xs).globals.trace := by
  obtain ⟨q, hg, hq⟩ := σ.releaseAll_adds u xs
  rw [hg]
  exact h.append fun x hx => touches_of_wakes (hq x hx)

theorem tick (h : Adds L s l σ.globals.trace) : Adds L s l σ.tick.globals.trace := by
  refine (h.append (q := σ.woken.map .readied) fun x hx => ?_).snoc (x := .ticked) rfl
  obtain ⟨t, -, rfl⟩ := List.mem_map.mp hx
  rfl

end Adds

namespace Valid

variable {L : Layout} {σ : Spec} {s u : Nat} {c : Cont}

/-- The semaphores of the console are neither those of threads nor of user code. -/
theorem ne_console (hv : Valid L σ) (hs : s = L.putcSem ∨ s = L.getcSem)
    (hu : u ∈ σ.owners.threads.map σ.owners.join ++ σ.owners.sems) : u ≠ s := by
  have hnd := hv.tiled.semaphores_nodup
  rw [Owners.semaphores, List.nodup_cons, List.nodup_cons] at hnd
  rintro rfl
  rcases hs with rfl | rfl
  · exact hnd.1 (List.mem_cons_of_mem _ hu)
  · exact hnd.2.1 hu

theorem mem_console (hs : s = L.putcSem ∨ s = L.getcSem) : s ∈ σ.owners.semaphores L := by
  rcases hs with rfl | rfl
  · exact List.mem_cons_self
  · exact List.mem_cons_of_mem _ List.mem_cons_self

end Valid

namespace Aside

variable {L : Layout} {σ τ ρ : Spec} {s u : Nat} {c : Cont} {R : List Nat}

theorem of_same (hbits : τ.abs.bits s = σ.abs.bits s) (hwait : τ.abs.waiting s = σ.abs.waiting s)
    (haway : τ.away L = σ.away L) (hlog : Adds L s σ.globals.trace τ.globals.trace)
    (hget : s = L.getcSem → τ.globals.getcBuffer = σ.globals.getcBuffer)
    (hput : s = L.putcSem → τ.globals.putcBuffer = σ.globals.putcBuffer ∧
      τ.globals.console = σ.globals.console) : Aside L s σ τ :=
  ⟨hbits, hwait, fun t => .inl (congrFun haway t), hlog, hget, hput⟩

theorem trans (h : Aside L s σ τ) (h' : Aside L s τ ρ) : Aside L s σ ρ where
  bits := h'.bits.trans h.bits
  waiting := h'.waiting.trans h.waiting
  away t := by
    rcases h.away t with heq | ⟨hσ, hτ⟩
    · rw [← heq]
      exact h'.away t
    · rcases h'.away t with heq | ⟨-, hρ⟩
      · rw [heq]
        exact .inr ⟨hσ, hτ⟩
      · exact .inr ⟨hσ, hρ⟩
  trace := by
    obtain ⟨q, heq, hq⟩ := h'.trace
    rw [heq]
    exact h.trace.append hq
  input hs := (h'.input hs).trans (h.input hs)
  output hs := ⟨(h'.output hs).1.trans (h.output hs).1, (h'.output hs).2.trans (h.output hs).2⟩

/-- A signal of another semaphore. -/
theorem signal (σ : Spec) (hu : u ≠ s) : Aside L s σ (σ.signal u) := by
  obtain ⟨q, hg, -⟩ := σ.signal_adds u
  have hbits (b : Nat) : Function.update σ.abs.bits u b s = σ.abs.bits s :=
    Function.update_of_ne hu.symm _ _
  have hstart : Aside L s σ (σ.signalStart u) :=
    of_same (hbits _) rfl (away_congr rfl rfl rfl rfl) ((Adds.refl _).snoc rfl) (fun _ => rfl) fun _ => ⟨rfl, rfl⟩
  rw [Spec.signal]
  split
  · split
    · exact hstart
    · rename_i R _
      have hwait : Function.update σ.abs.waiting u R s = σ.abs.waiting s :=
        Function.update_of_ne hu.symm _ _
      refine hstart.trans ?_
      exact of_same rfl hwait (away_congr rfl rfl rfl rfl) (((Adds.refl _).snoc rfl).snoc rfl)
        (fun _ => rfl) fun _ => ⟨rfl, rfl⟩
  · exact hstart

/-- The end of another semaphore. -/
theorem releaseAll (σ : Spec) (hu : u ≠ s) (xs : List Nat) : Aside L s σ (σ.releaseAll u xs) := by
  induction xs generalizing σ with
  | nil => exact of_same rfl rfl rfl (Adds.refl _) (fun _ => rfl) fun _ => ⟨rfl, rfl⟩
  | cons t R ih =>
    have hwait : Function.update σ.abs.waiting u R s = σ.abs.waiting s :=
      Function.update_of_ne hu.symm _ _
    have hone : Aside L s σ (σ.release u t R true) :=
      of_same rfl hwait (away_congr rfl rfl rfl rfl) (((Adds.refl _).snoc rfl).snoc rfl) (fun _ => rfl) fun _ => ⟨rfl, rfl⟩
    exact hone.trans (ih _)

theorem log (σ : Spec) {x : Action} (hx : x.touches L s = false) : Aside L s σ (σ.log x) :=
  of_same rfl rfl (away_congr rfl rfl rfl rfl) ((Adds.refl _).snoc hx) (fun _ => rfl) fun _ => ⟨rfl, rfl⟩

/-- A thread goes away that is not in a wait on `s`. -/
theorem switched (hv : Valid L σ) (hr : σ.resuming = false) (hc : c.sem L ≠ some s)
    (hthreads : τ.owners.threads = σ.owners.threads) (hres : τ.resuming = true)
    (hcont : τ.abs.cont = Function.update σ.abs.cont σ.current c)
    (hbits : τ.abs.bits s = σ.abs.bits s) (hwait : τ.abs.waiting s = σ.abs.waiting s)
    (hlog : Adds L s σ.globals.trace τ.globals.trace)
    (hget : s = L.getcSem → τ.globals.getcBuffer = σ.globals.getcBuffer)
    (hput : s = L.putcSem → τ.globals.putcBuffer = σ.globals.putcBuffer ∧
      τ.globals.console = σ.globals.console) : Aside L s σ τ where
  bits := hbits
  waiting := hwait
  away t := by
    rw [away_switched (hv.mem_tcbs.mpr (.inl rfl)) hthreads hres hcont]
    by_cases ht : t = σ.current
    · rw [ht, Function.update_self, away_current hr]
      exact .inr ⟨by simp [Plain], hc⟩
    · rw [Function.update_of_ne ht]
      exact .inl rfl
  trace := hlog
  input := hget
  output := hput

/-- The thread that has been picked goes on, and was not in a wait on `s`. -/
theorem resumed (hplain : Plain L s (σ.away L σ.current))
    (hthreads : τ.owners.threads = σ.owners.threads) (hcur : τ.current = σ.current)
    (hr : τ.resuming = false) (habs : τ.abs = σ.abs)
    (hlog : Adds L s σ.globals.trace τ.globals.trace)
    (hget : s = L.getcSem → τ.globals.getcBuffer = σ.globals.getcBuffer)
    (hput : s = L.putcSem → τ.globals.putcBuffer = σ.globals.putcBuffer ∧
      τ.globals.console = σ.globals.console) : Aside L s σ τ where
  bits := by rw [habs]
  waiting := by rw [habs]
  away t := by
    rw [away_resumed hthreads hcur hr (by rw [habs])]
    by_cases ht : t = σ.current
    · rw [ht, Function.update_self]
      exact .inr ⟨hplain, by simp [Plain]⟩
    · rw [Function.update_of_ne ht]
      exact .inl rfl
  trace := hlog
  input := hget
  output := hput

end Aside

/-! ### What a step does to a semaphore of the console -/

namespace Step

variable {L : Layout} {σ τ : Spec} {s u t j usr kernel : Nat} {W : Owners}

/-- A wait that does not block, on another semaphore. -/
theorem aside_pass (σ : Spec) (hu : u ≠ s) : Aside L s σ (σ.pass u) :=
  .of_same (Function.update_of_ne hu.symm _ _) rfl (away_congr rfl rfl rfl rfl)
    (((Adds.refl _).snoc rfl).snoc rfl) (fun _ => rfl) fun _ => ⟨rfl, rfl⟩

/-- A wait that blocks, on another semaphore. -/
theorem aside_block {n x : Nat} {R : List Nat} {c : Cont} (hv : Valid L σ) (hr : σ.resuming = false)
    (hu : u ≠ s) (hc : c.sem L = some u) : Aside L s σ ((σ.block u c).switch n R x) := by
  have hne : c.sem L ≠ some s := by
    rw [hc]
    exact fun h => hu (Option.some.inj h)
  have hwait : Function.update σ.abs.waiting u (σ.abs.waiting u ++ [σ.current]) s = σ.abs.waiting s :=
    Function.update_of_ne hu.symm _ _
  exact .switched hv hr hne rfl rfl rfl (Function.update_of_ne hu.symm _ _) hwait
    ((((Adds.refl _).snoc rfl).snoc rfl).snoc rfl) (fun _ => rfl) fun _ => ⟨rfl, rfl⟩

/-- The thread that has been picked goes on, after a wait on another semaphore or after none. -/
theorem aside_resume (hr : σ.resuming = true) (hv : Valid L σ) (hs : s = L.putcSem ∨ s = L.getcSem)
    (hk : Kinds L s σ) : Touches L σ s (σ.resume L) ∨ Aside L s σ (σ.resume L) := by
  have hmem : σ.current ∈ σ.owners.tcbs L := hv.mem_tcbs.mpr (.inl rfl)
  have haway : σ.away L σ.current = some (σ.abs.cont σ.current) := if_pos ⟨hmem, fun _ => hr⟩
  have hne : L.putcSem ≠ L.getcSem := hv.putc_ne_getc
  have hkind := hk _ _ haway
  obtain ⟨hown, habs, -, -, ticks, putc, getc, trace, hg⟩ := Away.resume_same σ L
  have hcur : (σ.resume L).current = σ.current := by
    rw [Spec.current, hg]
    rfl
  have hres : (σ.resume L).resuming = false := rfl
  have hthreads : (σ.resume L).owners.threads = σ.owners.threads := by rw [hown]
  have hplain (h : (σ.abs.cont σ.current).sem L ≠ some s) : Plain L s (σ.away L σ.current) := by
    rw [haway]
    exact h
  have hnone (h : (σ.abs.cont σ.current).sem L = some s) : σ.abs.cont σ.current = .reading ∨
      ∃ p0, σ.abs.cont σ.current = .writing p0 := hkind h
  have haside (h : (σ.abs.cont σ.current).sem L ≠ some s) := Aside.resumed (hplain h) hthreads hcur
    hres habs
  cases hc : σ.abs.cont σ.current with
  | fresh | preempted | dispatched =>
    refine .inr (haside (by simp [hc, Cont.sem]) ?_ (fun _ => ?_) fun _ => ?_) <;>
      simp only [Spec.resume, hc]
    · first | exact (Adds.refl _).snoc rfl | exact Adds.refl _
    · rfl
    · exact ⟨rfl, rfl⟩
  | joining u | waiting u =>
    have hsem : (σ.abs.cont σ.current).sem L ≠ some s := by
      intro heq
      rcases hnone heq with h | ⟨p0, h⟩ <;> rw [hc] at h <;> cases h
    refine .inr (haside hsem ?_ (fun _ => ?_) fun _ => ?_) <;> simp only [Spec.resume, hc]
    · exact (Adds.refl _).snoc rfl
    · rfl
    · exact ⟨rfl, rfl⟩
  | reading =>
    rcases hs with rfl | rfl
    · refine .inr (haside (by simp [hc, Cont.sem, hne.symm]) ?_ (fun h => absurd h hne) fun _ => ?_) <;>
        simp only [Spec.resume, hc]
      · exact ((Adds.refl _).snoc rfl).snoc (by simp [Action.touches, hne])
      · exact ⟨rfl, rfl⟩
    · exact .inl (.goOnRead hr hc)
  | writing p0 =>
    rcases hs with rfl | rfl
    · exact .inl (.goOnWrite hr p0 hc)
    · refine .inr (haside (by simp [hc, Cont.sem, hne]) ?_ (fun _ => ?_) fun h => absurd h hne.symm) <;>
        simp only [Spec.resume, hc]
      · exact ((Adds.refl _).snoc rfl).snoc (by simp [Action.touches, hne.symm])
      · rfl

/-- A new thread is in no wait. -/
theorem aside_create {fbHead : Nat} (ht : t ∉ σ.owners.tcbs L) (hj : j ≠ s)
    (hthreads : W.threads = t :: σ.owners.threads) : Aside L s σ (σ.create t j W fbHead) where
  bits := Function.update_of_ne hj.symm _ _
  waiting := by
    change Function.update σ.abs.waiting j [] s = _
    exact Function.update_of_ne hj.symm _ _
  away u := by
    have htcbs : u ∈ (σ.create t j W fbHead).owners.tcbs L ↔ u = t ∨ u ∈ σ.owners.tcbs L := by
      change u ∈ L.mainTcb :: W.threads ↔ u = t ∨ u ∈ L.mainTcb :: σ.owners.threads
      rw [hthreads]
      simp only [List.mem_cons]
      tauto
    have hcont : (σ.create t j W fbHead).abs.cont u = Function.update σ.abs.cont t .fresh u := rfl
    have hcur : (σ.create t j W fbHead).current = σ.current := rfl
    have hres : (σ.create t j W fbHead).resuming = σ.resuming := rfl
    simp only [Spec.away, htcbs, hcont, hcur, hres]
    by_cases hu : u = t
    · subst hu
      refine .inr ⟨by simp [Plain, ht], ?_⟩
      rw [Function.update_self]
      split <;> simp [Plain, Cont.sem]
    · rw [Function.update_of_ne hu]
      simp only [hu, false_or, true_or]
  trace := (((Adds.refl _).snoc rfl).snoc rfl).snoc rfl
  input _ := rfl
  output _ := ⟨rfl, rfl⟩

/-- The thread that runs ends. -/
theorem aside_exit {fbHead n x : Nat} {R : List Nat} (hr : σ.resuming = false)
    (hmain : σ.current ≠ L.mainTcb) (hj : σ.owners.join σ.current ≠ s)
    (hthreads : W.threads = σ.owners.threads.filter (· ≠ σ.current)) :
    Aside L s σ ((σ.exit W fbHead).switch n R x) := by
  have hlog := Aside.log (L := L) (s := s) σ (x := .terminated σ.current) rfl
  have hrel := Aside.releaseAll (L := L) (σ.log (.terminated σ.current)) hj
    (σ.abs.waiting (σ.owners.join σ.current))
  have hcont : ((σ.exit W fbHead).switch n R x).abs.cont = σ.abs.cont := by
    change (σ.exit W fbHead).abs.cont = _
    rw [Reasoned.exit_abs]
    rfl
  have hτ := hlog.trans hrel
  refine ⟨hτ.bits, hτ.waiting, fun u => .inl ?_, ?_, hτ.input, hτ.output⟩
  · have htcbs : u ∈ ((σ.exit W fbHead).switch n R x).owners.tcbs L ↔
        u ∈ σ.owners.tcbs L ∧ u ≠ σ.current := by
      change u ∈ L.mainTcb :: W.threads ↔ u ∈ L.mainTcb :: σ.owners.threads ∧ _
      rw [hthreads, List.mem_cons, List.mem_cons, List.mem_filter, decide_eq_true_eq]
      constructor
      · rintro (rfl | ⟨h, hne⟩)
        · exact ⟨.inl rfl, hmain.symm⟩
        · exact ⟨.inr h, hne⟩
      · rintro ⟨h | h, hne⟩
        · exact .inl h
        · exact .inr ⟨h, hne⟩
    have hres : ((σ.exit W fbHead).switch n R x).resuming = true := rfl
    simp only [Spec.away, htcbs, hcont, hres, hr, implies_true, and_true, Bool.false_eq_true, imp_false,
      ne_eq]
  · exact ((((hτ.trace.snoc rfl).snoc rfl).snoc rfl).snoc rfl).snoc rfl

/-- A step of the abstract machine takes or gives a unit of the semaphore, or has nothing to do with
it. -/
theorem touches (h : Step L σ τ) (hs : s = L.putcSem ∨ s = L.getcSem) (hk : Kinds L s σ) :
    Valid L σ ∧ Touches L σ s τ ∨ Aside L s σ τ := by
  have hnot {u : Nat} (hu : u ∉ σ.owners.semaphores L) : s ≠ u :=
    fun heq => hu (heq ▸ Valid.mem_console hs)
  have hnil {u : Nat} (hu : s ≠ u) : Function.update σ.abs.waiting u [] s = σ.abs.waiting s :=
    Function.update_of_ne hu _ _
  have haside_tick : Aside L s σ σ.tick := .of_same rfl rfl (away_congr rfl rfl rfl rfl)
    (Adds.refl _).tick (fun _ => rfl) fun _ => ⟨rfl, rfl⟩
  cases h with
  | called hv hr code p0 hcode =>
    refine .inr (Aside.log σ ?_)
    simp [Action.touches, hcode.2]
  | returned => exact .inr (Aside.log σ rfl)
  | @pass hv hr u c hc hcont =>
    have hu : u ∈ σ.owners.threads.map σ.owners.join ++ σ.owners.sems := by
      cases hc with
      | join hh => exact List.mem_append_left _ (List.mem_map_of_mem hh)
      | wait hu => exact List.mem_append_right _ hu
      | read => rcases hcont with h | h <;> cases h
    exact .inr (aside_pass σ (hv.ne_console hs hu))
  | passRead hv hr hpos =>
    rcases hs with rfl | rfl
    · refine .inr ((aside_pass σ hv.putc_ne_getc.symm).trans ?_)
      exact .of_same rfl rfl (away_congr rfl rfl rfl rfl)
        ((Adds.refl _).snoc (by simp [Action.touches, hv.putc_ne_getc]))
        (fun h => absurd h hv.putc_ne_getc) fun _ => ⟨rfl, rfl⟩
    · exact .inl ⟨hv, .read hr hpos⟩
  | passWrite hv hr p0 hpos =>
    rcases hs with rfl | rfl
    · exact .inl ⟨hv, .write hr p0 hpos⟩
    · have hcalled : Aside L L.getcSem σ (σ.called 0x42 p0) :=
        Aside.log σ (by simp [Action.touches, hv.putc_ne_getc.symm])
      refine .inr ((hcalled.trans (aside_pass _ hv.putc_ne_getc)).trans ?_)
      exact .of_same rfl rfl (away_congr rfl rfl rfl rfl)
        ((Adds.refl _).snoc (by simp [Action.touches, hv.putc_ne_getc.symm])) (fun _ => rfl)
        fun h => absurd h hv.putc_ne_getc.symm
  | blockWrite hv hr p0 hneg hR =>
    rcases hs with rfl | rfl
    · exact .inl ⟨hv, .blockWrite hr p0 hneg⟩
    · have hcalled : Aside L L.getcSem σ (σ.called 0x42 p0) :=
        Aside.log σ (by simp [Action.touches, hv.putc_ne_getc.symm])
      have hv' : Valid L (σ.called 0x42 p0) := ⟨hv.tiled, hv.place, hv.bits, hv.moving⟩
      exact .inr (hcalled.trans (aside_block hv' hr hv.putc_ne_getc rfl))
  | block hv hr hc hu hneg hR =>
    cases hc with
    | join hh => exact .inr (aside_block hv hr (hv.ne_console hs (List.mem_append_left _
        (List.mem_map_of_mem hh))) rfl)
    | wait hu => exact .inr (aside_block hv hr (hv.ne_console hs (List.mem_append_right _ hu)) rfl)
    | read =>
      rcases hs with rfl | rfl
      · exact .inr (aside_block hv hr hv.putc_ne_getc.symm rfl)
      · exact .inl ⟨hv, .blockRead hr hneg⟩
  | signal hv hr hu => exact .inr (.signal σ (hv.ne_console hs (List.mem_append_right _ hu)))
  | receive hv hr temp hlen =>
    rcases hs with rfl | rfl
    · refine .inr (Aside.trans ?_ (.signal _ hv.putc_ne_getc.symm))
      exact .of_same rfl rfl (away_congr rfl rfl rfl rfl)
        ((Adds.refl _).snoc (by simp [Action.touches, hv.putc_ne_getc]))
        (fun h => absurd h hv.putc_ne_getc) fun _ => ⟨rfl, rfl⟩
    · exact .inl ⟨hv, .receive hr temp hlen⟩
  | flushChar hv hr hlen =>
    rcases hs with rfl | rfl
    · exact .inl ⟨hv, .flushChar hr hlen⟩
    · refine .inr (Aside.trans ?_ (.signal _ hv.putc_ne_getc))
      exact .of_same rfl rfl (away_congr rfl rfl rfl rfl) (Adds.refl _) (fun _ => rfl)
        fun h => absurd h hv.putc_ne_getc.symm
  | dispatch hv hr hc hR =>
    refine .inr (.switched hv hr ?_ rfl rfl rfl rfl rfl (((Adds.refl _).snoc rfl).snoc rfl)
      (fun _ => rfl) fun _ => ⟨rfl, rfl⟩)
    rcases hc with rfl | rfl <;> simp [Cont.sem]
  | sleep hv hr hk hR =>
    exact .inr (.switched (c := .dispatched) hv hr (by simp [Cont.sem]) rfl rfl rfl rfl rfl
      ((Adds.refl _).snoc rfl) (fun _ => rfl) fun _ => ⟨rfl, rfl⟩)
  | tick => exact .inr haside_tick
  | preempt hv hr _ hR =>
    refine .inr (haside_tick.trans ?_)
    exact .switched (c := .preempted) hv.tick hr (by simp [Cont.sem]) rfl rfl rfl rfl rfl
      (((Adds.refl _).snoc rfl).snoc rfl) (fun _ => rfl) fun _ => ⟨rfl, rfl⟩
  | resume hv hr => exact (aside_resume hr hv hs hk).imp_left (.intro hv)
  | userMode =>
    exact .inr (.of_same rfl rfl (away_congr rfl rfl rfl rfl)
      ((Adds.refl _).snoc (by simp [Action.touches])) (fun _ => rfl) fun _ => ⟨rfl, rfl⟩)
  | sstatus | flush =>
    exact .inr (.of_same rfl rfl (away_congr rfl rfl rfl rfl) (Adds.refl _) (fun _ => rfl)
      fun _ => ⟨rfl, rfl⟩)
  | retile _ _ _ hW =>
    exact .inr (.of_same rfl rfl (away_congr hW.threads rfl rfl rfl) (Adds.refl _) (fun _ => rfl)
      fun _ => ⟨rfl, rfl⟩)
  | openSem _ _ _ _ hnew hW =>
    have hne := hnot hnew
    exact .inr (.of_same (Function.update_of_ne hne _ _) (hnil hne) (away_congr hW.threads rfl rfl rfl)
      ((Adds.refl _).snoc rfl) (fun _ => rfl) fun _ => ⟨rfl, rfl⟩)
  | @closeSem hv _ u W fbHead hu hW =>
    have hrel := Aside.releaseAll (L := L) σ (hv.ne_console hs (List.mem_append_right _ hu))
      (σ.abs.waiting u)
    have hown : (σ.releaseAll u (σ.abs.waiting u)).owners = σ.owners :=
      (Inside.releaseAll_same σ u _).1
    refine .inr (hrel.trans (.of_same rfl rfl (away_congr ?_ rfl rfl rfl) ((Adds.refl _).snoc rfl)
      (fun _ => rfl) fun _ => ⟨rfl, rfl⟩))
    rw [hown]
    exact hW.threads
  | create _ _ _ ht hj hW => exact .inr (aside_create ht (hnot hj).symm hW.threads)
  | freed => exact .inr (Aside.log σ rfl)
  | exit hv hr fbHead ht _ hW hR =>
    have hmain : σ.current ≠ L.mainTcb := by
      have hnd := hv.tiled.tcbs_nodup
      rw [Owners.tcbs, List.nodup_cons] at hnd
      exact fun heq => hnd.1 (heq ▸ ht)
    have hj := hv.ne_console hs (List.mem_append_left _ (List.mem_map_of_mem ht))
    exact .inr (aside_exit hr hmain hj hW.threads)

end Step

end Os1Kernel
