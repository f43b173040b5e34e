import Os1Kernel.Threads.Log
import Os1Kernel.Threads.Reasons

/-! The log of the abstract machine makes sense: an account can be kept of it, and it agrees with the
state. -/

namespace Os1Kernel

open Refine

theorem decBits_intBits (i : Int) : decBits (intBits i) = intBits (i - 1) := by
  unfold decBits intBits u32
  omega

theorem succ_intBits (i : Int) : u32 (intBits i + 1) = intBits (i + 1) := by
  unfold intBits u32
  omega

/-- How far a thread is that does not run. -/
def Spec.standing (L : Layout) (σ : Spec) (t : Nat) : Standing :=
  match (σ.abs.cont t).sem L with
  | none => .free
  | some s => if t ∈ σ.abs.waiting s then .blocked s else .released s (σ.abs.flag t)

namespace Ledger

/-- The account agrees with the state, but for the current thread. -/
structure Of (L : Layout) (σ : Spec) (K : Ledger) : Prop where
  ready : K.ready = σ.abs.ready
  dead : ∀ s, s ∉ σ.owners.semaphores L → K.sem s = none
  sem : ∀ s ∈ σ.owners.semaphores L, ∃ A, K.sem s = some A ∧ A.suspended = σ.abs.waiting s ∧
    σ.abs.bits s = intBits A.value
  standing : ∀ t ∈ σ.owners.tcbs L, t ≠ σ.current ∨ σ.resuming = true →
    K.standing t = σ.standing L t
  gone : ∀ t, t ∉ σ.owners.tcbs L → K.standing t = .free
  owner : ∀ t ∈ σ.owners.threads, K.owner (σ.owners.join t) = some t
  owned : ∀ s t, K.owner s = some t → t ∈ σ.owners.threads ∧ s = σ.owners.join t

/-- Two states that an account agrees with alike. -/
structure Alike (L : Layout) (σ τ : Spec) : Prop where
  abs : τ.abs.ready = σ.abs.ready ∧ τ.abs.waiting = σ.abs.waiting ∧ τ.abs.bits = σ.abs.bits ∧
    τ.abs.flag = σ.abs.flag ∧ τ.abs.cont = σ.abs.cont
  threads : τ.owners.threads = σ.owners.threads
  join : τ.owners.join = σ.owners.join
  sems : τ.owners.sems = σ.owners.sems
  current : τ.current = σ.current
  resuming : τ.resuming = σ.resuming

variable {L : Layout} {σ τ : Spec} {K K' : Ledger} {s t n x : Nat} {c : Cont} {R : List Nat}
  {A B : Account} {waitError : Bool}

theorem Alike.semaphores (h : Alike L σ τ) : τ.owners.semaphores L = σ.owners.semaphores L := by
  rw [Owners.semaphores, Owners.semaphores, h.threads, h.join, h.sems]

namespace Of

theorem alike (h : K.Of L σ) (ha : Alike L σ τ) : K.Of L τ := by
  obtain ⟨hready, hwait, hbits, hflag, hcont⟩ := ha.abs
  have htcbs : τ.owners.tcbs L = σ.owners.tcbs L := by rw [Owners.tcbs, Owners.tcbs, ha.threads]
  refine ⟨?_, ?_, ?_, ?_, ?_, ?_, ?_⟩
  · rw [hready]
    exact h.ready
  · rw [ha.semaphores]
    exact h.dead
  · rw [ha.semaphores, hwait, hbits]
    exact h.sem
  · intro t ht hne
    rw [htcbs] at ht
    rw [ha.current, ha.resuming] at hne
    rw [h.standing t ht hne, Spec.standing, Spec.standing, hcont, hwait, hflag]
  · rw [htcbs]
    exact h.gone
  · rw [ha.threads, ha.join]
    exact h.owner
  · rw [ha.threads, ha.join]
    exact h.owned

theorem setDue (h : K.Of L σ) (d : Due) : (K.setDue d).Of L σ := { h with }

theorem log (h : K.Of L σ) (x : Action) : K.Of L (σ.log x) :=
  h.alike ⟨⟨rfl, rfl, rfl, rfl, rfl⟩, rfl, rfl, rfl, rfl, rfl⟩

/-- The value of a semaphore changes. -/
theorem setBits (h : K.Of L σ) (hs : K.sem s = some A) (hB : B.suspended = A.suspended) {b : Nat}
    (hb : b = intBits B.value) : (K.setSem s B).Of L (σ.setBits s b) := by
  refine { h with dead := fun u hu => ?_, sem := fun u hu => ?_, standing := h.standing }
  · have hne : u ≠ s := by
      rintro rfl
      rw [h.dead u hu] at hs
      cases hs
    exact (setSem_ne K hne B).trans (h.dead u hu)
  · obtain ⟨C, hC, hsusp, hbits⟩ := h.sem u hu
    by_cases hus : u = s
    · subst hus
      obtain rfl := Option.some.inj (hC.symm.trans hs)
      refine ⟨B, setSem_same K u B, hB.trans hsusp, ?_⟩
      exact (Function.update_self (β := fun _ => Nat) ..).trans hb
    · refine ⟨C, (setSem_ne K hus B).trans hC, hsusp, ?_⟩
      exact (Function.update_of_ne hus _ _).trans hbits

/-- The current thread is suspended. -/
theorem suspend (h : K.Of L σ) (hr : σ.resuming = false) (hcur : σ.current ∈ σ.owners.tcbs L)
    (hs : K.sem s = some A) :
    ((K.setSem s { A with suspended := A.suspended ++ [σ.current] }).setStanding σ.current
      (.blocked s)).Of L (σ.suspend s c) := by
  refine ⟨h.ready, fun u hu => ?_, fun u hu => ?_, fun t ht hne => ?_, fun t ht => ?_, h.owner, h.owned⟩
  · have hne : u ≠ s := by
      rintro rfl
      rw [h.dead u hu] at hs
      cases hs
    exact (setSem_ne K hne _).trans (h.dead u hu)
  · obtain ⟨C, hC, hsusp, hbits⟩ := h.sem u hu
    change ∃ B, _ ∧ _ = Function.update σ.abs.waiting s (σ.abs.waiting s ++ [σ.current]) u ∧ _
    by_cases hus : u = s
    · subst hus
      obtain rfl := Option.some.inj (hC.symm.trans hs)
      refine ⟨_, setSem_same K u _, ?_, hbits⟩
      rw [Function.update_self, hsusp]
    · refine ⟨C, (setSem_ne K hus _).trans hC, ?_, hbits⟩
      rw [Function.update_of_ne hus, hsusp]
  · have htc : t ≠ σ.current := hne.resolve_right fun hres => by
      have hres' : σ.resuming = true := hres
      rw [hr] at hres'
      cases hres'
    have hcont : (σ.suspend s c).abs.cont t = σ.abs.cont t := Function.update_of_ne htc _ _
    have hmem (u : Nat) : t ∈ (σ.suspend s c).abs.waiting u ↔ t ∈ σ.abs.waiting u := by
      change t ∈ Function.update σ.abs.waiting s (σ.abs.waiting s ++ [σ.current]) u ↔ _
      by_cases hus : u = s
      · subst hus
        simp [htc]
      · rw [Function.update_of_ne hus]
    refine (Function.update_of_ne htc _ _).trans ((h.standing t ht (.inl htc)).trans ?_)
    rw [Spec.standing, Spec.standing, hcont]
    cases (σ.abs.cont t).sem L with
    | none => rfl
    | some u =>
      simp only [hmem]
      rfl
  · have htc : t ≠ σ.current := fun heq => ht (heq ▸ hcur)
    exact (Function.update_of_ne htc _ _).trans (h.gone t ht)

/-- The current thread becomes ready. -/
theorem requeue (h : K.Of L σ) (hr : σ.resuming = false) :
    ({ K with ready := K.ready ++ [σ.current] } : Ledger).Of L (σ.requeue c) := by
  refine ⟨congrArg (· ++ [σ.current]) h.ready, h.dead, h.sem, fun t ht hne => ?_, h.gone, h.owner,
    h.owned⟩
  have htc : t ≠ σ.current := hne.resolve_right fun hres => by
    have hres' : σ.resuming = true := hres
    rw [hr] at hres'
    cases hres'
  have hcont : (σ.requeue c).abs.cont t = σ.abs.cont t := Function.update_of_ne htc _ _
  refine (h.standing t ht (.inl htc)).trans ?_
  rw [Spec.standing, Spec.standing, hcont]
  rfl

/-- The current thread sleeps. -/
theorem sleep (h : K.Of L σ) (hr : σ.resuming = false) (n : Nat) : K.Of L (σ.sleep n) := by
  refine ⟨h.ready, h.dead, h.sem, fun t ht hne => ?_, h.gone, h.owner, h.owned⟩
  have htc : t ≠ σ.current := hne.resolve_right fun hres => by
    have hres' : σ.resuming = true := hres
    rw [hr] at hres'
    cases hres'
  have hcont : (σ.sleep n).abs.cont t = σ.abs.cont t := Function.update_of_ne htc _ _
  refine (h.standing t ht (.inl htc)).trans ?_
  rw [Spec.standing, Spec.standing, hcont]
  rfl

/-- The first ready thread runs. -/
theorem switch (h : K.Of L σ) (hcur : σ.current ∈ σ.owners.tcbs L →
    K.standing σ.current = σ.standing L σ.current) (sstatus : Nat) :
    ({ K with ready := R } : Ledger).Of L (σ.switch n R sstatus) := by
  refine ⟨rfl, h.dead, h.sem, fun t ht _ => ?_, h.gone, h.owner, h.owned⟩
  change K.standing t = σ.standing L t
  by_cases htc : t = σ.current
  · subst htc
    exact hcur ht
  · exact h.standing t ht (.inl htc)

/-- A thread is released. -/
theorem release (h : K.Of L σ) (ht : t ∈ σ.owners.tcbs L) (htc : t ≠ σ.current)
    (hs : K.sem s = some A) (hcont : (σ.abs.cont t).sem L = some s)
    (hw : σ.abs.waiting s = t :: R) (hnd : t ∉ R) (hR : A.suspended = t :: R) (waitError : Bool) :
    ({ (K.setSem s { A with suspended := R }).setStanding t (.released s waitError) with
      ready := K.ready ++ [t] } : Ledger).Of L (σ.release s t R waitError) := by
  refine ⟨congrArg (· ++ [t]) h.ready, fun u hu => ?_, fun u hu => ?_, fun u hu hne => ?_,
    fun u hu => ?_, h.owner, h.owned⟩
  · have hne : u ≠ s := by
      rintro rfl
      rw [h.dead u hu] at hs
      cases hs
    exact (setSem_ne K hne _).trans (h.dead u hu)
  · obtain ⟨C, hC, hsusp, hbits⟩ := h.sem u hu
    change ∃ B, _ ∧ _ = Function.update σ.abs.waiting s R u ∧ _
    by_cases hus : u = s
    · subst hus
      obtain rfl := Option.some.inj (hC.symm.trans hs)
      refine ⟨_, setSem_same K u _, ?_, hbits⟩
      rw [Function.update_self]
    · refine ⟨C, (setSem_ne K hus _).trans hC, ?_, hbits⟩
      rw [Function.update_of_ne hus, hsusp]
  · have hwait : (σ.release s t R waitError).abs.waiting = Function.update σ.abs.waiting s R := rfl
    have hflag : (σ.release s t R waitError).abs.flag = Function.update σ.abs.flag t waitError := rfl
    have hsame : (σ.release s t R waitError).abs.cont = σ.abs.cont := rfl
    by_cases hut : u = t
    · subst hut
      refine (Function.update_self ..).trans ?_
      rw [Spec.standing, hsame, hcont]
      simp only [hwait, hflag, Function.update_self, hnd, if_false]
    · refine (Function.update_of_ne hut _ _).trans ((h.standing u hu hne).trans ?_)
      rw [Spec.standing, Spec.standing, hsame, hwait, hflag, Function.update_of_ne hut]
      cases (σ.abs.cont u).sem L with
      | none => rfl
      | some v =>
        simp only
        by_cases hvs : v = s
        · subst hvs
          simp [hw, hut]
        · rw [Function.update_of_ne hvs]
  · have hut : u ≠ t := fun heq => hu (heq ▸ ht)
    exact (Function.update_of_ne hut _ _).trans (h.gone u hu)

/-- The current thread goes on. -/
theorem resume (h : K.Of L σ) (hτ : τ.abs = σ.abs) (how : τ.owners = σ.owners)
    (hcur : τ.current = σ.current) (hres : σ.resuming = true) (hmem : σ.current ∈ σ.owners.tcbs L)
    (x : Standing) : (K.setStanding σ.current x).Of L { τ with resuming := false } := by
  refine ⟨?_, ?_, ?_, fun t ht hne => ?_, fun t ht => ?_, ?_, ?_⟩
  · change K.ready = τ.abs.ready
    rw [hτ]
    exact h.ready
  · change ∀ s, s ∉ τ.owners.semaphores L → _
    rw [how]
    exact h.dead
  · change ∀ s ∈ τ.owners.semaphores L, ∃ A, _ ∧ _ = τ.abs.waiting s ∧ τ.abs.bits s = _
    rw [how, hτ]
    exact h.sem
  · have htc : t ≠ σ.current := hne.elim (fun h => hcur ▸ h) fun h => by cases h
    change t ∈ τ.owners.tcbs L at ht
    rw [how] at ht
    refine (Function.update_of_ne htc _ _).trans ((h.standing t ht (.inr hres)).trans ?_)
    change _ = τ.standing L t
    rw [Spec.standing, Spec.standing, hτ]
  · change t ∉ τ.owners.tcbs L at ht
    rw [how] at ht
    have htc : t ≠ σ.current := fun heq => ht (heq ▸ hmem)
    exact (Function.update_of_ne htc _ _).trans (h.gone t ht)
  · change ∀ t ∈ τ.owners.threads, K.owner (τ.owners.join t) = some t
    rw [how]
    exact h.owner
  · change ∀ s t, K.owner s = some t → t ∈ τ.owners.threads ∧ s = τ.owners.join t
    rw [how]
    exact h.owned

/-- A new semaphore. -/
theorem sem_open (h : K.Of L σ) {j v : Nat} (hj : j ∉ σ.owners.semaphores L)
    (hw : σ.abs.waiting j = []) (hv : v < 2 ^ 32) (hmem : ∀ u, u ∈ τ.owners.semaphores L ↔
      u = j ∨ u ∈ σ.owners.semaphores L)
    (hwait : τ.abs.waiting = Function.update σ.abs.waiting j [])
    (hbits : τ.abs.bits = Function.update σ.abs.bits j v) :
    (∀ s, s ∉ τ.owners.semaphores L → (K.setSem j (.opened v)).sem s = none) ∧
    ∀ s ∈ τ.owners.semaphores L, ∃ A, (K.setSem j (.opened v)).sem s = some A ∧
      A.suspended = τ.abs.waiting s ∧ τ.abs.bits s = intBits A.value := by
  have hsame : τ.abs.waiting = σ.abs.waiting := by
    rw [hwait, ← hw, Function.update_eq_self]
  refine ⟨fun u hu => ?_, fun u hu => ?_⟩
  · obtain ⟨hne, hno⟩ := not_or.mp fun hm => hu ((hmem u).mpr hm)
    exact (setSem_ne K hne _).trans (h.dead u hno)
  · by_cases huj : u = j
    · subst huj
      refine ⟨_, setSem_same K u _, ?_, ?_⟩
      · rw [hsame, hw]
        rfl
      · rw [hbits, Function.update_self]
        have hval : (Account.opened v).value = v := by simp [Account.value, Account.opened]
        rw [hval]
        unfold intBits
        omega
    · obtain ⟨A, hA, hsusp, hb⟩ := h.sem u (((hmem u).mp hu).resolve_left huj)
      refine ⟨A, (setSem_ne K huj _).trans hA, ?_, ?_⟩
      · rw [hsame]
        exact hsusp
      · rw [hbits, Function.update_of_ne huj]
        exact hb

theorem openSem (h : K.Of L σ) {v : Nat} {W : Owners} (fbHead : Nat)
    (hs : s ∉ σ.owners.semaphores L) (hw : σ.abs.waiting s = []) (hv : v < 2 ^ 32)
    (hW : SameThreads { σ.owners with sems := s :: σ.owners.sems } W) :
    ({ K.setSem s (.opened v) with fresh := s } : Ledger).Of L (σ.openSem s v W fbHead) := by
  have hsem := h.sem_open (τ := σ.openSem s v W fbHead) hs hw hv (fun _ => hW.mem_open) rfl rfl
  have hsame : (σ.openSem s v W fbHead).abs.waiting = σ.abs.waiting := by
    change Function.update σ.abs.waiting s [] = _
    rw [← hw, Function.update_eq_self]
  refine ⟨h.ready, hsem.1, hsem.2, fun t ht hne => ?_, fun t ht => ?_, ?_, ?_⟩
  · change t ∈ W.tcbs L at ht
    rw [(hW.tcbs L).1] at ht
    refine (h.standing t ht hne).trans ?_
    rw [Spec.standing, Spec.standing, hsame]
    rfl
  · change t ∉ W.tcbs L at ht
    rw [(hW.tcbs L).1] at ht
    exact h.gone t ht
  · change ∀ t ∈ W.threads, K.owner (W.join t) = some t
    rw [hW.threads, hW.join]
    exact h.owner
  · change ∀ s t, K.owner s = some t → t ∈ W.threads ∧ s = W.join t
    rw [hW.threads, hW.join]
    exact h.owned

/-- A new thread. -/
theorem create (h : K.Of L σ) {j usr kernel : Nat} {W : Owners} (fbHead : Nat)
    (ht : t ∉ σ.owners.tcbs L) (hj : j ∉ σ.owners.semaphores L)
    (hw : σ.abs.waiting j = []) (hW : SameThreads { σ.owners with
        threads := t :: σ.owners.threads
        join := Function.update σ.owners.join t j
        stack := Function.update σ.owners.stack t usr
        kernelStack := Function.update σ.owners.kernelStack t kernel } W) :
    ({ K.setSem j (.opened 0) with
      fresh := j
      owner := Function.update K.owner j (some t)
      ready := K.ready ++ [t] } : Ledger).Of L (σ.create t j W fbHead) := by
  have hsem := h.sem_open (τ := σ.create t j W fbHead) hj hw (by decide) (fun _ => hW.mem_create ht)
    rfl rfl
  have hsame : (σ.create t j W fbHead).abs.waiting = σ.abs.waiting := by
    change Function.update σ.abs.waiting j [] = _
    rw [← hw, Function.update_eq_self]
  have htcbs (u : Nat) : u ∈ W.tcbs L ↔ u = t ∨ u ∈ σ.owners.tcbs L := by
    rw [(hW.tcbs L).1]
    simp only [Owners.tcbs, List.mem_cons]
    tauto
  have hown (u : Nat) (hu : u ∈ σ.owners.threads) : u ≠ t ∧ σ.owners.join u ≠ j := by
    refine ⟨fun heq => ht (heq ▸ List.mem_cons_of_mem _ hu), fun heq => hj ?_⟩
    rw [← heq]
    exact List.mem_cons_of_mem _ (List.mem_cons_of_mem _ (List.mem_append_left _
      (List.mem_map_of_mem hu)))
  refine ⟨congrArg (· ++ [t]) h.ready, hsem.1, hsem.2, fun u hu hne => ?_, fun u hu => ?_, ?_, ?_⟩
  · rcases (htcbs u).mp hu with rfl | hu
    · refine (h.gone u ht).trans ?_
      have hcont : (σ.create u j W fbHead).abs.cont u = .fresh :=
        Function.update_self (β := fun _ => Cont) ..
      rw [Spec.standing, hcont]
      rfl
    · have hut : u ≠ t := fun heq => ht (heq ▸ hu)
      have hcont : (σ.create t j W fbHead).abs.cont u = σ.abs.cont u := Function.update_of_ne hut _ _
      have hflag : (σ.create t j W fbHead).abs.flag u = σ.abs.flag u := Function.update_of_ne hut _ _
      refine (h.standing u hu hne).trans ?_
      rw [Spec.standing, Spec.standing, hsame, hcont, hflag]
  · exact h.gone u fun hm => hu ((htcbs u).mpr (.inr hm))
  · change ∀ u ∈ W.threads, Function.update K.owner j (some t) (W.join u) = some u
    rw [hW.threads, hW.join]
    intro u hu
    rcases List.mem_cons.mp hu with rfl | hu
    · simp only [Function.update_self]
    · obtain ⟨hut, huj⟩ := hown u hu
      simp only [Function.update_of_ne hut, Function.update_of_ne huj]
      exact h.owner u hu
  · change ∀ s u, Function.update K.owner j (some t) s = some u → u ∈ W.threads ∧ s = W.join u
    rw [hW.threads, hW.join]
    intro s u hsu
    by_cases hsj : s = j
    · subst hsj
      rw [Function.update_self] at hsu
      cases hsu
      simp
    · rw [Function.update_of_ne hsj] at hsu
      obtain ⟨hu, rfl⟩ := h.owned s u hsu
      exact ⟨List.mem_cons_of_mem _ hu, (Function.update_of_ne (hown u hu).1 _ _).symm⟩

/-- A semaphore is freed. -/
theorem sem_drop (h : K.Of L σ) (hmem : ∀ u, u ∈ τ.owners.semaphores L ↔
      u ≠ s ∧ u ∈ σ.owners.semaphores L)
    (hwait : τ.abs.waiting = σ.abs.waiting) (hbits : τ.abs.bits = σ.abs.bits) :
    (∀ u, u ∉ τ.owners.semaphores L → Function.update K.sem s none u = none) ∧
    ∀ u ∈ τ.owners.semaphores L, ∃ A, Function.update K.sem s none u = some A ∧
      A.suspended = τ.abs.waiting u ∧ τ.abs.bits u = intBits A.value := by
  refine ⟨fun u hu => ?_, fun u hu => ?_⟩
  · by_cases hus : u = s
    · rw [hus, Function.update_self]
    · rw [Function.update_of_ne hus]
      exact h.dead u fun hm => hu ((hmem u).mpr ⟨hus, hm⟩)
  · obtain ⟨hus, hu⟩ := (hmem u).mp hu
    rw [Function.update_of_ne hus, hwait, hbits]
    exact h.sem u hu

theorem dropSem (h : K.Of L σ) {W : Owners} (hW : SameThreads { σ.owners with
      sems := σ.owners.sems.filter (· ≠ s) } W) (hσ : σ.owners.Tiled L) (hs : s ∈ σ.owners.sems)
    (ho : K.owner s = none) (fbHead : Nat) :
    ({ K with
      sem := Function.update K.sem s none
      due := .nothing
      owner := Function.update K.owner s none } : Ledger).Of L (σ.retile W fbHead) := by
  have hsem := h.sem_drop (τ := σ.retile W fbHead) (fun _ => hW.mem_close hσ hs) rfl rfl
  have howner : Function.update K.owner s none = K.owner := by rw [← ho, Function.update_eq_self]
  refine ⟨h.ready, hsem.1, hsem.2, fun t ht hne => ?_, fun t ht => ?_, ?_, ?_⟩
  · change t ∈ W.tcbs L at ht
    rw [(hW.tcbs L).1] at ht
    exact h.standing t ht hne
  · change t ∉ W.tcbs L at ht
    rw [(hW.tcbs L).1] at ht
    exact h.gone t ht
  · change ∀ t ∈ W.threads, Function.update K.owner s none (W.join t) = some t
    rw [howner, hW.threads, hW.join]
    exact h.owner
  · change ∀ u t, Function.update K.owner s none u = some t → t ∈ W.threads ∧ u = W.join t
    rw [howner, hW.threads, hW.join]
    exact h.owned

/-- The current thread ends. -/
theorem dropThread (h : K.Of L σ) {W : Owners} (hW : SameThreads { σ.owners with
      threads := σ.owners.threads.filter (· ≠ σ.current) } W) (hσ : σ.owners.Tiled L)
    (ht : σ.current ∈ σ.owners.threads) (hfree : K.standing σ.current = .free) (fbHead : Nat) :
    ({ K with
      sem := Function.update K.sem (σ.owners.join σ.current) none
      due := .nothing
      owner := Function.update K.owner (σ.owners.join σ.current) none } : Ledger).Of L
        (σ.retile W fbHead) := by
  have hsem := h.sem_drop (τ := σ.retile W fbHead) (fun _ => hW.mem_exit hσ ht) rfl rfl
  have hmem (u : Nat) : u ∈ W.threads ↔ u ∈ σ.owners.threads ∧ u ≠ σ.current := by
    rw [hW.threads]
    simp [List.mem_filter]
  have htcbs (u : Nat) (hu : u ∉ W.tcbs L) : u = σ.current ∨ u ∉ σ.owners.tcbs L := by
    by_contra hno
    obtain ⟨hne, hin⟩ := not_or.mp hno
    refine hu ?_
    rcases List.mem_cons.mp (not_not.mp hin) with rfl | hin
    · exact List.mem_cons_self
    · exact List.mem_cons_of_mem _ ((hmem u).mpr ⟨hin, hne⟩)
  have hjoin (u : Nat) (hu : u ∈ σ.owners.threads) (hne : u ≠ σ.current) :
      σ.owners.join u ≠ σ.owners.join σ.current := by
    intro heq
    have h1 := h.owner u hu
    rw [heq, h.owner _ ht] at h1
    exact hne (Option.some.inj h1).symm
  refine ⟨h.ready, hsem.1, hsem.2, fun u hu hne => ?_, fun u hu => ?_, ?_, ?_⟩
  · refine h.standing u ?_ hne
    rcases List.mem_cons.mp hu with rfl | hu
    · exact List.mem_cons_self
    · exact List.mem_cons_of_mem _ ((hmem u).mp hu).1
  · rcases htcbs u hu with rfl | hu
    · exact hfree
    · exact h.gone u hu
  · intro u hu
    obtain ⟨hin, hne⟩ := (hmem u).mp hu
    change Function.update K.owner _ none (W.join u) = some u
    rw [hW.join, Function.update_of_ne (hjoin u hin hne)]
    exact h.owner u hin
  · intro s u hsu
    change u ∈ W.threads ∧ s = W.join u
    by_cases hs : s = σ.owners.join σ.current
    · subst hs
      change Function.update K.owner _ none _ = some u at hsu
      rw [Function.update_self] at hsu
      cases hsu
    · have hsu' : K.owner s = some u := (Function.update_of_ne hs _ _).symm.trans hsu
      obtain ⟨hin, rfl⟩ := h.owned s u hsu'
      refine ⟨(hmem u).mpr ⟨hin, ?_⟩, by rw [hW.join]⟩
      rintro rfl
      exact hs rfl

end Of

end Ledger

end Os1Kernel
