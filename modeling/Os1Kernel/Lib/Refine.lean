/-! Machines that take operations one after the other: those that answer some of them, with simulations
between them, and those that a relation describes. -/

namespace Refine

variable {O S S' A : Type}

/-- The answers to some operations, and the state after them. -/
def runAll (step : O → S → Option A × S) : List O → S → List A × S
  | [], s => ([], s)
  | o :: os, s => ((step o s).1.toList ++ (runAll step os (step o s).2).1,
      (runAll step os (step o s).2).2)

/-- Related states answer alike and stay related. -/
def Simulates (step : O → S → Option A × S) (step' : O → S' → Option A × S') (R : S → S' → Prop) :
    Prop :=
  ∀ o s s', R s s' → (step o s).1 = (step' o s').1 ∧ R (step o s).2 (step' o s').2

theorem Simulates.runAll {step : O → S → Option A × S} {step' : O → S' → Option A × S'}
    {R : S → S' → Prop} (h : Simulates step step' R) (os : List O) {s : S} {s' : S'} (hr : R s s') :
    (runAll step os s).1 = (runAll step' os s').1 ∧
      R (runAll step os s).2 (runAll step' os s').2 := by
  induction os generalizing s s' with
  | nil => exact ⟨rfl, hr⟩
  | cons o os ih =>
    obtain ⟨hans, hnext⟩ := h o s s' hr
    obtain ⟨hrest, hend⟩ := ih hnext
    refine ⟨?_, hend⟩
    rw [Refine.runAll, Refine.runAll, hans, hrest]

/-! ### Steps with labels -/

section Runs

variable {step : S → O → S → Prop} {s t u : S} {o : O} {os ps : List O}

/-- The operations lead from one state to the other. -/
def Runs (step : S → O → S → Prop) : S → List O → S → Prop
  | s, [], u => s = u
  | s, o :: os, u => ∃ t, step s o t ∧ Runs step t os u

theorem runs_append : Runs step s (os ++ ps) u ↔ ∃ t, Runs step s os t ∧ Runs step t ps u := by
  induction os generalizing s with
  | nil => simp [Runs]
  | cons o os ih =>
    simp only [List.cons_append, Runs, ih]
    constructor
    · rintro ⟨r, hs, t, hr, ht⟩
      exact ⟨t, ⟨r, hs, hr⟩, ht⟩
    · rintro ⟨t, ⟨r, hs, hr⟩, ht⟩
      exact ⟨r, hs, t, hr, ht⟩

theorem Runs.snoc (h : Runs step s os t) (hs : step t o u) : Runs step s (os ++ [o]) u :=
  runs_append.mpr ⟨t, h, u, hs, rfl⟩

/-- Where each step is matched by one with the same label, so is each run. -/
theorem Runs.simulate {step' : S' → O → S' → Prop} {R : S → S' → Prop} {s' : S'}
    (h : Runs step s os u) (hR : ∀ s o t s', step s o t → R s s' → ∃ t', step' s' o t' ∧ R t t')
    (hr : R s s') : ∃ u', Runs step' s' os u' ∧ R u u' := by
  induction os generalizing s s' with
  | nil => exact ⟨s', rfl, h ▸ hr⟩
  | cons o os ih =>
    obtain ⟨t, hstep, h⟩ := h
    obtain ⟨t', hstep', hr'⟩ := hR s o t s' hstep hr
    obtain ⟨u', hrun, hend⟩ := ih h hr'
    exact ⟨u', ⟨t', hstep', hrun⟩, hend⟩

/-- Where the label of a step fixes the next state, the labels of a run fix the last one. -/
theorem Runs.unique (h : Runs step s os t) (hstep : ∀ s o t u, step s o t → step s o u → t = u)
    (h' : Runs step s os u) : t = u := by
  induction os generalizing s with
  | nil => exact h.symm.trans h'
  | cons o os ih =>
    obtain ⟨r, hr, h⟩ := h
    obtain ⟨r', hr', h'⟩ := h'
    cases hstep s o r r' hr hr'
    exact ih h h'

/-- What every step keeps holds in the end. -/
theorem Runs.inv {P : S → Prop} (h : Runs step s os u) (hP : ∀ s o t, step s o t → P s → P t)
    (hs : P s) : P u := by
  induction os generalizing s with
  | nil => exact h ▸ hs
  | cons o os ih =>
    obtain ⟨t, hstep, h⟩ := h
    exact ih h (hP s o t hstep hs)

end Runs

/-- What every step of a list keeps holds after the list. -/
theorem foldlM_inv {step : S → O → Option S} {P : S → Prop} (os : List O)
    (hP : ∀ o ∈ os, ∀ s t, P s → step s o = some t → P t) {s u : S} (hs : P s)
    (h : os.foldlM step s = some u) : P u := by
  induction os generalizing s with
  | nil =>
    cases h
    exact hs
  | cons o os ih =>
    obtain ⟨t, hstep, hrest⟩ := Option.bind_eq_some_iff.mp h
    have ht := hP o List.mem_cons_self s t hs hstep
    exact ih (fun p hp => hP p (List.mem_cons_of_mem o hp)) ht hrest

end Refine
