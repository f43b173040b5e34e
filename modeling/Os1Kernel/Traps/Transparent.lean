import Os1Kernel.Traps.PrivateRun

/-! A trap is transparent to the thread that it interrupts: whatever runs until its `sret`, the thread
goes on where it was with the registers it had, but for the result of its system call. -/

namespace Os1Kernel.Harts

open Memory Rv64 Assembly

variable {T : Type} [DecidableEq T]

/-- What the system call of `t` has stored last for its `a0`, which was `x` before the step `o`. -/
def stored (t : T) (S : Shared T) (o : Event T) (x : Word) : Word :=
  match o with
  | .answer y => if S.current = t then y else x
  | _ => x

/-- A run in which `t` does not come back to its own code.  The words are the results that its system
call has stored before and after. -/
inductive Away (K : Symbols) (t : T) : Shared T → Word → Shared T → Word → Prop
  | refl (S : Shared T) (x : Word) : Away K t S x S x
  | step {S S' S'' : Shared T} {o : Event T} {x y : Word} (hs : Step K S o S')
      (haway : S'.phase t ≠ some .user) (hrest : Away K t S' (stored t S o x) S'' y) :
      Away K t S x S'' y

/-- The registers of a thread whose system call, if `ecall`, has stored `x`. -/
def answered (ecall : Bool) (x : Word) (reg : Reg → Word) : Reg → Word :=
  if ecall then Function.update reg .a0 x else reg

section Away

variable {K : Symbols} {S S' S'' : Shared T} {A A' : Private T} {o : Event T} {os : List (Event T)} {e : Bool}
  {v : Own} {t u : T} {x y : Word} {reg : Reg → Word} {pc : Word}

theorem stored_ne (h : S.current ≠ t) : stored t S o x = x := by
  cases o with
  | answer y => exact if_neg h
  | _ => rfl

/-- What `k_restore_context` does to the phases. -/
theorem restore_phase {regs : Reg → Word} (h : S.restore K u regs = some S') :
    S'.current = u ∧ (∀ t, t ≠ u → S'.phase t = S.phase t) ∧
      (S'.phase u = some .user ∨ S'.phase u = (S.phase u).map Phase.resume) := by
  simp only [Shared.restore] at h
  generalize (S.restoreHart K u regs).run kRestoreContext = g at h
  generalize g.run (kTcbStart K) = j at h
  split at h
  · cases h
    refine ⟨rfl, fun t ht => ?_, .inl (Function.update_self ..)⟩
    exact (Function.update_of_ne ht _ _).trans (Function.update_of_ne ht _ _)
  · split at h
    · cases h
      exact ⟨rfl, fun t ht => Function.update_of_ne ht _ _, .inr (Function.update_self ..)⟩
    · cases h

/-- What `yield` does to the phases. -/
theorem Related.yield_phase {d : Nat} {regs : Reg → Word} (h : Related K S A)
    (hp : S.phase S.current = some (.handling e d)) (hy : S.yield K u regs = some S') :
    (∀ t, t ≠ u → S'.phase t = (S.setPhase (some (.suspended e d))).phase t) ∧
      (S'.phase u = some .user ∨
        S'.phase u = ((S.setPhase (some (.suspended e d))).phase u).map Phase.resume) := by
  rw [h.yield_eq hp] at hy
  have hrestore := restore_phase hy
  exact hrestore.2

/-- A thread that has exited or has not started yet. -/
def Out (f : Option Phase) : Prop := f = none ∨ f = some .fresh

/-- A thread in its trap. -/
def In (ecall : Bool) (f : Option Phase) : Prop :=
  ∃ d, f = some (.handling ecall d) ∨ f = some (.suspended ecall d)

/-- A thread in a trap that has left its registers as they are but for the result. -/
structure Trapped (S : Shared T) (A : Private T) (t : T) (ecall : Bool) (v : Own) (x : Word) : Prop where
  phase : In ecall (S.phase t)
  life : ∃ w k, A.life t = some (.live w k) ∧ w.reg = answered ecall x v.reg ∧ w.pc = v.pc

/-- The thread stays away from its own code in the step. -/
theorem Related.out (h : Related K S A) (hs : Step K S o S') (ht : Out (S.phase t))
    (haway : S'.phase t ≠ some .user) : Out (S'.phase t) := by
  have hne : t ≠ S.current := by
    rintro rfl
    obtain ⟨v, k, -, hrun⟩ := h.running
    rcases ht with hp | hp
    · exact h.alive hp
    · rw [hp] at hrun
      cases hrun
  have hsame (p : Option Phase) : Out ((S.setPhase p).phase t) := by
    rwa [S.setPhase_ne hne]
  have hpicked (hpick : S'.phase t = some .user ∨ S'.phase t = (S.phase t).map Phase.resume) :
      Out (S'.phase t) := by
    rw [hpick.resolve_left haway]
    rcases ht with hp | hp
    · exact .inl (by rw [hp, Option.map_none])
    · refine .inr ?_
      rw [hp]
      rfl
  cases hs with
  | code | answer | userMode => exact ht
  | interrupt => exact hsame _
  | ecall => exact hsame _
  | kernel => exact hsame _
  | sret => exact hsame _
  | @create _ u p usrSp _ _ _ _ =>
    by_cases heq : t = u
    · rw [heq]
      exact .inr (Function.update_self ..)
    · have hother : (S.create K u p usrSp).phase t = S.phase t := Function.update_of_ne heq _ _
      rwa [hother]
  | @switch _ _ _ u regs hphase _ _ hy =>
    obtain ⟨hother, hpick⟩ := h.yield_phase hphase hy
    by_cases heq : t = u
    · subst heq
      rw [S.setPhase_ne hne] at hpick
      exact hpicked hpick
    · rw [hother t heq]
      exact hsame _
  | @exit _ _ u regs _ _ _ hy =>
    obtain ⟨-, hother, hpick⟩ := restore_phase hy
    by_cases heq : t = u
    · subst heq
      rw [S.setPhase_ne hne] at hpick
      exact hpicked hpick
    · rw [hother t heq]
      exact hsame _

/-- A thread in a trap is where it was when a thread has been picked, be it this one. -/
theorem Trapped.picked {after : Reg → Word} (h : Trapped S A t e v x) (hpicks : A.Picks K u after A')
    (hother : ∀ t, t ≠ u → S'.phase t = S.phase t)
    (hpick : S'.phase u = some .user ∨ S'.phase u = (S.phase u).map Phase.resume)
    (haway : S'.phase t ≠ some .user) : Trapped S' A' t e v x := by
  obtain ⟨w, k, hl, hreg, hpc⟩ := h.life
  by_cases heq : t = u
  · subst heq
    cases hpicks with
    | resumed _ _ =>
      refine ⟨?_, w, k, hl, hreg, hpc⟩
      rw [hpick.resolve_left haway]
      obtain ⟨d, hd | hd⟩ := h.phase
      · exact ⟨d, .inl (by rw [hd]; rfl)⟩
      · exact ⟨d, .inl (by rw [hd]; rfl)⟩
    | started hl' _ _ _ _ =>
      rw [hl] at hl'
      cases hl'
  · have hphase : In e (S'.phase t) := by
      rw [hother t heq]
      exact h.phase
    cases hpicks with
    | resumed _ _ => exact ⟨hphase, w, k, hl, hreg, hpc⟩
    | started _ _ _ _ _ => exact ⟨hphase, w, k, (Function.update_of_ne heq _ _).trans hl, hreg, hpc⟩

/-- Nothing else than the results of its own system call changes a thread in a trap. -/
theorem Related.trapped (h : Related K S A) (hs : Step K S o S') (hown : A.Step K o A')
    (ht : Trapped S A t e v x) (haway : S'.phase t ≠ some .user) :
    Out (S'.phase t) ∨ Trapped S' A' t e v (stored t S o x) := by
  obtain ⟨w, k, hl, hreg, hpc⟩ := ht.life
  have hcurrent := h.current
  -- another thread runs, and nothing becomes of `t`
  have hrest (hne : S.current ≠ t) (hphase : In e (S'.phase t)) (hlife : A'.life t = A.life t) :
      Trapped S' A' t e v (stored t S o x) := by
    rw [stored_ne hne]
    exact ⟨hphase, w, k, hlife.trans hl, hreg, hpc⟩
  have hset (hne : S.current ≠ t) (l : Option Life) : (A.set l).life t = A.life t := by
    refine Function.update_of_ne ?_ _ _
    rw [hcurrent]
    exact hne.symm
  have hphase (hne : S.current ≠ t) (p : Option Phase) : In e ((S.setPhase p).phase t) := by
    rw [S.setPhase_ne hne.symm]
    exact ht.phase
  have huser (hp : S.phase S.current = some .user) : S.current ≠ t := by
    rintro rfl
    obtain ⟨d, hd | hd⟩ := ht.phase
    · rw [hp] at hd
      cases hd
    · rw [hp] at hd
      cases hd
  have hsame {e' : Bool} {d : Nat} (hp : S.phase S.current = some (.handling e' d)) (heq : S.current = t) :
      e = e' := by
    subst heq
    obtain ⟨d', hd | hd⟩ := ht.phase
    · rw [hp] at hd
      cases hd
      rfl
    · rw [hp] at hd
      cases hd
  cases hs with
  | code hp _ _ _ =>
    cases hown
    exact .inr (hrest (huser hp) ht.phase (hset (huser hp) _))
  | interrupt hen =>
    cases hown
    have hne := huser (h.interrupted hen)
    exact .inr (hrest hne (hphase hne _) rfl)
  | ecall hp =>
    cases hown
    exact .inr (hrest (huser hp) (hphase (huser hp) _) (hset (huser hp) _))
  | @kernel e' d d' _ _ _ hp _ _ _ _ _ _ =>
    cases hown
    by_cases hne : S.current = t
    · subst hne
      refine .inr ⟨⟨d', .inl ?_⟩, w, k, hl, hreg, hpc⟩
      rw [← hsame hp rfl]
      exact S.setPhase_same _
    · exact .inr (hrest hne (hphase hne _) rfl)
  | answer y hp =>
    cases hown with
    | answer _ hl' =>
    by_cases hne : S.current = t
    · subst hne
      cases hsame hp rfl
      rw [hcurrent, hl] at hl'
      cases hl'
      refine .inr ⟨ht.phase, { w with reg := Function.update w.reg .a0 y }, k, ?_, ?_, hpc⟩
      · rw [← hcurrent]
        exact A.set_life _
      · change Function.update w.reg .a0 y = answered true (if S.current = S.current then y else x) v.reg
        rw [if_pos rfl, hreg]
        exact Function.update_idem ..
    · exact .inr (hrest hne ht.phase (hset hne _))
  | userMode hp =>
    cases hown with
    | userMode hl' =>
    by_cases hne : S.current = t
    · subst hne
      rw [hcurrent, hl] at hl'
      cases hl'
      refine .inr ⟨ht.phase, { w with supervisor := false }, k, ?_, hreg, hpc⟩
      rw [← hcurrent]
      exact A.set_life _
    · exact .inr (hrest hne ht.phase (hset hne _))
  | @create _ u p usrSp hp hnew _ _ =>
    cases hown
    have hne : t ≠ u := by
      rintro rfl
      obtain ⟨d, hd | hd⟩ := ht.phase
      · rw [hnew] at hd
        cases hd
      · rw [hnew] at hd
        cases hd
    refine .inr ⟨?_, w, k, (Function.update_of_ne hne _ _).trans hl, hreg, hpc⟩
    have hphase : (S.create K u p usrSp).phase t = S.phase t := Function.update_of_ne hne _ _
    rw [hphase]
    exact ht.phase
  | @switch _ e' d u regs hp _ _ hy =>
    obtain ⟨hother, hpick⟩ := h.yield_phase hp hy
    cases hown with
    | @switch _ v' _ _ _ _ hl' hpicks =>
    have hsuspended : Trapped (S.setPhase (some (.suspended e' d))) (A.set (some (.live v' (S.saveRegs K)))) t
        e v x := by
      by_cases hne : S.current = t
      · subst hne
        rw [hcurrent, hl] at hl'
        cases hl'
        refine ⟨⟨d, .inr ?_⟩, w, S.saveRegs K, ?_, hreg, hpc⟩
        · rw [← hsame hp rfl]
          exact S.setPhase_same _
        · rw [← hcurrent]
          exact A.set_life _
      · exact ⟨hphase hne _, w, k, (hset hne _).trans hl, hreg, hpc⟩
    exact .inr (hsuspended.picked hpicks hother hpick haway)
  | @exit _ d u regs hp hwaits _ hy =>
    obtain ⟨-, hother, hpick⟩ := restore_phase hy
    cases hown with
    | exit hu hpicks =>
    by_cases hne : S.current = t
    · subst hne
      refine .inl (.inl ?_)
      rw [hother _ (by rw [← hcurrent]; exact hu.symm)]
      exact S.setPhase_same _
    · have hgone : Trapped (S.setPhase none) (A.set none) t e v x :=
        ⟨hphase hne _, w, k, (hset hne _).trans hl, hreg, hpc⟩
      exact .inr (hgone.picked hpicks hother hpick haway)
  | sret hp =>
    cases hown
    by_cases hne : S.current = t
    · subst hne
      exact absurd (S.setPhase_same _) haway
    · exact .inr (hrest hne (hphase hne _) rfl)

theorem Away.trapped (haway : Away K t S x S' y) (h : Related K S A)
    (ht : Out (S.phase t) ∨ Trapped S A t e v x) :
    ∃ A', Related K S' A' ∧ (Out (S'.phase t) ∨ Trapped S' A' t e v y) := by
  induction haway generalizing A with
  | refl S x => exact ⟨A, h, ht⟩
  | step hs hne _ ih =>
    obtain ⟨A₁, hown, hrel⟩ := h.step hs
    apply ih hrel
    rcases ht with hout | htrapped
    · exact .inl (h.out hs hout hne)
    · exact h.trapped hs hown htrapped hne

/-- Where a thread is at the start of its trap. -/
theorem Related.entered (h : Related K S A) (e : Bool)
    (hs : Step K S (if e then .ecall else .interrupt) S') :
    ∃ A', Related K S' A' ∧ Trapped S' A' S.current e
      { reg := S.hart.reg, pc := if e then S.pc + 4 else S.pc, supervisor := S.supervisor,
        enabled := sie (S.hart.csr .sstatus) } (BitVec.ofInt 64 failedSyscall) := by
  obtain ⟨A', hown, hrel⟩ := h.step hs
  have hcurrent := h.current
  cases e with
  | false =>
    cases hs with
    | interrupt hen =>
    cases hown
    obtain ⟨w, k, hl, hw⟩ := h.shown (h.interrupted hen)
    exact ⟨A, hrel, ⟨0, .inl (S.setPhase_same _)⟩, w, k, hl, hw.reg.symm, hw.pc.symm⟩
  | true =>
    cases hs with
    | ecall hp =>
    obtain ⟨w, k, hl, hw⟩ := h.shown hp
    cases hown with
    | ecall hl' =>
    rw [hcurrent, hl] at hl'
    cases hl'
    refine ⟨_, hrel, ⟨0, .inl (S.setPhase_same _)⟩,
      { w with reg := Function.update w.reg .a0 (BitVec.ofInt 64 failedSyscall), pc := w.pc + 4 }, k,
      ?_, ?_, ?_⟩
    · rw [← hcurrent]
      exact A.set_life _
    · change Function.update w.reg .a0 _ = Function.update S.hart.reg .a0 _
      rw [hw.reg]
    · change w.pc + 4 = S.pc + 4
      rw [hw.pc]

/-- When a thread returns from a trap, it goes on where it was, behind the `ecall` if it was one, and its
registers are what they were, but for the result that its own system call has stored in `a0`.  At both
ends `k_current_context` points to the context of the thread that runs. -/
theorem traps_transparent {S₀ S₁ S₂ S₃ : Shared T} (e : Bool) (h : Alone K S₀)
    (hrun : Refine.Runs (Step K) S₀ os S) (hentry : Step K S (if e then .ecall else .interrupt) S₁)
    (haway : Away K S.current S₁ (BitVec.ofInt 64 failedSyscall) S₂ x) (hback : S₂.current = S.current)
    (hreturn : Step K S₂ .sret S₃) :
    S₃.current = S.current ∧ S₃.pc = (if e then S.pc + 4 else S.pc) ∧
      S₃.hart.reg = answered e x S.hart.reg ∧
      Shared.context K S.hart.mem = (S.place S.current).context ∧
      Shared.context K S₃.hart.mem = (S₃.place S₃.current).context := by
  obtain ⟨A, -, hrel⟩ := hrun.simulate (fun _ _ _ _ hs hr => hr.step hs) h.related
  obtain ⟨A₁, hrel₁, htrapped⟩ := hrel.entered e hentry
  obtain ⟨A₂, hrel₂, htrapped₂⟩ := haway.trapped hrel₁ (.inr htrapped)
  obtain ⟨A₃, hown, hrel₃⟩ := hrel₂.step hreturn
  cases hreturn with
  | @sret e' hp =>
  cases hown
  rw [hback] at hp
  have hin := htrapped₂.resolve_left fun hout => by
    rcases hout with hout | hout
    · rw [hp] at hout
      cases hout
    · rw [hp] at hout
      cases hout
  obtain ⟨w, k, hl, hreg, hpc⟩ := hin.life
  have hcurrent : (S₂.leave K e').current = S.current := hback
  have huser : (S₂.leave K e').phase (S₂.leave K e').current = some .user := Function.update_self ..
  obtain ⟨w', k', hl', hshown⟩ := hrel₃.shown huser
  rw [hcurrent, hl] at hl'
  cases hl'
  exact ⟨hback, hshown.pc.trans hpc, hshown.reg.trans hreg, hrel.pointer, hrel₃.pointer⟩

/-! ### A run -/

/-- A new thread that `yield` picks runs its own code, with interrupts enabled. -/
theorem Related.yield_fresh {d : Nat} {regs : Reg → Word} (h : Related K S A)
    (hp : S.phase S.current = some (.handling e d)) (ht : S.phase t = some .fresh) (hregs : regs .zero = 0) :
    ∃ S', S.yield K t regs = some S' ∧ S'.current = t ∧ S'.phase t = some .user ∧
      sie (S'.hart.csr .sstatus) = true ∧
      ∀ u, u ≠ t → S'.phase u = (S.setPhase (some (.suspended e d))).phase u := by
  obtain ⟨S', A', hyield, hown, hrel⟩ := h.yield hp (.inr (.inl ht)) hregs
  obtain ⟨hother, hpick⟩ := h.yield_phase hp hyield
  have hne : t ≠ S.current := by
    rintro rfl
    rw [hp] at ht
    cases ht
  rw [S.setPhase_ne hne, ht] at hpick
  have hparked := h.parked t hne
  rw [ht] at hparked
  generalize hnew : A.life t = l at hparked
  cases hparked with
  | fresh hprepared =>
  have hset (l : Option Life) : (A.set l).life t = A.life t := by
    refine Function.update_of_ne ?_ _ _
    rw [h.current]
    exact hne
  obtain ⟨hcur, hlife⟩ : S'.current = t ∧ ∀ v k, A'.life t = some (.live v k) → v.enabled = true := by
    rw [← hrel.current]
    cases hown with
    | switch _ hpicks =>
    cases hpicks with
    | resumed hl _ =>
      rw [hset, hnew] at hl
      cases hl
    | started _ _ _ _ _ =>
      refine ⟨rfl, fun v k hv => ?_⟩
      simp only [Function.update_self] at hv
      cases hv
      rfl
  subst hcur
  have huser : S'.phase S'.current = some .user := by
    refine hpick.resolve_right fun hsome => ?_
    obtain ⟨v, k, -, hrun⟩ := hrel.running
    rw [hsome] at hrun
    cases hrun
  obtain ⟨v, k, hl, hshown⟩ := hrel.shown huser
  exact ⟨S', hyield, rfl, huser, hshown.enabled.trans (hlife v k hl), hother⟩

/-- A thread that `yield` picks again is in its trap. -/
theorem Related.yield_suspended {e' : Bool} {d d' : Nat} {regs : Reg → Word} (h : Related K S A)
    (hp : S.phase S.current = some (.handling e d)) (ht : S.phase t = some (.suspended e' d'))
    (hregs : regs .zero = 0) :
    ∃ S', S.yield K t regs = some S' ∧ S'.current = t ∧ S'.phase t = some (.handling e' d') := by
  obtain ⟨v, k, hl, -⟩ := h.handling hp
  have hhalf : (S.halfway K e d).phase t = some (.suspended e' d') := by
    refine (S.setPhase_ne ?_ _).trans ht
    rintro rfl
    rw [hp] at ht
    cases ht
  obtain ⟨S', A', hrestore, -, -, hphase⟩ := (h.suspend hp hl).2.restore_suspended hhalf hregs
  have hcur := (restore_phase hrestore).1
  rw [← h.yield_eq hp] at hrestore
  exact ⟨S', hrestore, hcur, hphase⟩

end Away

/-- The main thread creates a thread and lets it run; a timer tick takes the hart from that thread, and
the call of the main thread returns 7. -/
theorem traps_transparent_created : ∃ S₁ S₂ S₃, Step exampleSymbols exampleStart .ecall S₁ ∧
    Away exampleSymbols false S₁ (BitVec.ofInt 64 failedSyscall) S₂ 7 ∧
    Step exampleSymbols S₂ .sret S₃ ∧ S₃.current = false ∧ S₃.pc = exampleStart.pc + 4 ∧
    S₃.hart.reg = answered true 7 exampleStart.hart.reg := by
  obtain ⟨S₁, S₂, hcall, hcreate, hcur₂, hmain₂, hfresh⟩ := exampleStart_creates
  obtain ⟨A₁, -, hrel₁⟩ := exampleStart_alone.related.step hcall
  obtain ⟨A₂, -, hrel₂⟩ := hrel₁.step hcreate
  have hzero : exampleStart.hart.reg .zero = 0 := rfl
  have hp₂ : S₂.phase S₂.current = some (.handling true 0) := by
    rw [hcur₂]
    exact hmain₂
  -- the new thread starts
  obtain ⟨S₃, hyield₃, hcur₃, huser, hsie, hother⟩ := hrel₂.yield_fresh hp₂ hfresh hzero
  have hstart := Step.switch (K := exampleSymbols) hp₂ (.inr (.inl hfresh)) hzero hyield₃
  have hmain₃ : S₃.phase false = some (.suspended true 0) := by
    rw [hother false (by decide), ← hcur₂]
    exact S₂.setPhase_same _
  obtain ⟨A₃, -, hrel₃⟩ := hrel₂.step hstart
  have htick : Step exampleSymbols S₃ .interrupt (S₃.trap exampleSymbols false) := .interrupt (.inr hsie)
  obtain ⟨A₄, -, hrel₄⟩ := hrel₃.step htick
  have hmain₄ : (S₃.trap exampleSymbols false).phase false = some (.suspended true 0) := by
    refine (S₃.setPhase_ne ?_ _).trans hmain₃
    rw [hcur₃]
    decide
  have hp₄ : (S₃.trap exampleSymbols false).phase (S₃.trap exampleSymbols false).current =
      some (.handling false 0) := S₃.setPhase_same _
  generalize S₃.trap exampleSymbols false = S₄ at *
  -- the main thread is back in its call
  obtain ⟨S₅, hyield₅, hcur₅, hmain₅⟩ := hrel₄.yield_suspended hp₄ hmain₄ hzero
  have hresume := Step.switch (K := exampleSymbols) hp₄ (.inr (.inr ⟨true, 0, hmain₄⟩)) hzero hyield₅
  have hp₅ : S₅.phase S₅.current = some (.handling true 0) := by
    rw [hcur₅]
    exact hmain₅
  have hanswer : Step exampleSymbols S₅ (.answer 7) (S₅.answer exampleSymbols 7) := .answer 7 hp₅
  have hreturn : Step exampleSymbols (S₅.answer exampleSymbols 7) .sret
      ((S₅.answer exampleSymbols 7).leave exampleSymbols true) := .sret hp₅
  have hlast : Away exampleSymbols false S₅ (BitVec.ofInt 64 failedSyscall)
      (S₅.answer exampleSymbols 7) 7 := by
    refine .step hanswer ?_ ?_
    · change S₅.phase false ≠ _
      simp [hmain₅]
    · simp only [stored, hcur₅, if_true]
      exact .refl _ _
  have haway : Away exampleSymbols false S₁ (BitVec.ofInt 64 failedSyscall)
      (S₅.answer exampleSymbols 7) 7 :=
    .step hcreate (by simp [hmain₂]) (.step hstart (by simp [hmain₃]) (.step htick (by simp [hmain₄])
      (.step hresume (by simp [hmain₅]) hlast)))
  have hrun : Refine.Runs (Step exampleSymbols) exampleStart [] exampleStart := rfl
  obtain ⟨hcur, hpc, hreg, -, -⟩ :=
    traps_transparent true exampleStart_alone hrun hcall haway hcur₅ hreturn
  exact ⟨S₁, _, _, hcall, haway, hreturn, hcur, hpc, hreg⟩

end Os1Kernel.Harts
