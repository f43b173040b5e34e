import Os1Kernel.Threads.Reach

/-! Which threads wait, and for what: a thread that a semaphore suspends goes on after that wait. -/

namespace Os1Kernel

open Memory

/-- The semaphore after whose wait a thread goes on. -/
def Cont.sem (L : Layout) : Cont → Option Nat
  | .fresh => none
  | .preempted => none
  | .dispatched => none
  | .joining s => some s
  | .waiting s => some s
  | .reading => some L.getcSem
  | .writing _ => some L.putcSem

theorem Reason.sem {L : Layout} {σ : Spec} {s : Nat} {c : Cont} (h : Reason L σ s c) :
    c.sem L = some s := by
  cases h <;> rfl

/-! ### The semaphores and threads after a step -/

section Owners

variable {L : Layout} {W W' : Owners} {s t j u usr kernel : Nat}

theorem SameThreads.mem_open (h : SameThreads { W with sems := s :: W.sems } W') :
    u ∈ W'.semaphores L ↔ u = s ∨ u ∈ W.semaphores L := by
  rw [(h.tcbs L).2]
  simp only [Owners.semaphores, List.mem_cons, List.mem_append]
  tauto

theorem SameThreads.mem_close (h : SameThreads { W with sems := W.sems.filter (· ≠ s) } W')
    (hW : W.Tiled L) (hs : s ∈ W.sems) :
    u ∈ W'.semaphores L ↔ u ≠ s ∧ u ∈ W.semaphores L := by
  have hnd := hW.semaphores_nodup
  simp only [Owners.semaphores, List.nodup_cons, List.nodup_append, List.mem_cons, List.mem_append,
    not_or] at hnd
  obtain ⟨⟨-, -, hputc⟩, ⟨-, hgetc⟩, -, -, hdisj⟩ := hnd
  rw [(h.tcbs L).2]
  simp only [Owners.semaphores, List.mem_cons, List.mem_append, List.mem_filter, decide_eq_true_eq]
  constructor
  · rintro (rfl | rfl | hm | hm)
    · exact ⟨fun heq => hputc (heq ▸ hs), .inl rfl⟩
    · exact ⟨fun heq => hgetc (heq ▸ hs), .inr (.inl rfl)⟩
    · exact ⟨fun heq => hdisj u hm s hs heq, .inr (.inr (.inl hm))⟩
    · exact ⟨hm.2, .inr (.inr (.inr hm.1))⟩
  · rintro ⟨hne, h | h | h | h⟩
    · exact .inl h
    · exact .inr (.inl h)
    · exact .inr (.inr (.inl h))
    · exact .inr (.inr (.inr ⟨h, hne⟩))

theorem SameThreads.mem_create (h : SameThreads { W with
      threads := t :: W.threads
      join := Function.update W.join t j
      stack := Function.update W.stack t usr
      kernelStack := Function.update W.kernelStack t kernel } W') (ht : t ∉ W.tcbs L) :
    u ∈ W'.semaphores L ↔ u = j ∨ u ∈ W.semaphores L := by
  have hmap : W.threads.map (Function.update W.join t j) = W.threads.map W.join := by
    refine List.map_congr_left fun x hx => Function.update_of_ne (fun heq => ht ?_) _ _
    exact heq ▸ List.mem_cons_of_mem _ hx
  rw [(h.tcbs L).2]
  simp only [Owners.semaphores, List.map_cons, Function.update_self, hmap, List.mem_cons,
    List.mem_append]
  tauto

theorem SameThreads.mem_exit (h : SameThreads { W with threads := W.threads.filter (· ≠ t) } W')
    (hW : W.Tiled L) (ht : t ∈ W.threads) :
    u ∈ W'.semaphores L ↔ u ≠ W.join t ∧ u ∈ W.semaphores L := by
  have hnd := hW.semaphores_nodup
  simp only [Owners.semaphores, List.nodup_cons, List.nodup_append, List.mem_cons, List.mem_append,
    not_or] at hnd
  obtain ⟨⟨-, hputc, -⟩, ⟨hgetc, -⟩, hjoin, -, hdisj⟩ := hnd
  have htj : W.join t ∈ W.threads.map W.join := List.mem_map_of_mem ht
  rw [(h.tcbs L).2]
  simp only [Owners.semaphores, List.mem_cons, List.mem_append, List.mem_map, List.mem_filter,
    decide_eq_true_eq]
  constructor
  · rintro (rfl | rfl | ⟨x, ⟨hx, hne⟩, rfl⟩ | hm)
    · exact ⟨fun heq => hputc (heq ▸ htj), .inl rfl⟩
    · exact ⟨fun heq => hgetc (heq ▸ htj), .inr (.inl rfl)⟩
    · exact ⟨fun heq => hne (List.inj_on_of_nodup_map hjoin hx ht heq), .inr (.inr (.inl ⟨x, hx, rfl⟩))⟩
    · exact ⟨fun heq => hdisj _ htj u hm heq.symm, .inr (.inr (.inr hm))⟩
  · rintro ⟨hne, h | h | ⟨x, hx, rfl⟩ | h⟩
    · exact .inl h
    · exact .inr (.inl h)
    · exact .inr (.inr (.inl ⟨x, ⟨hx, fun heq => hne (heq ▸ rfl)⟩, rfl⟩))
    · exact .inr (.inr (.inr h))

end Owners

/-! ### The places of threads -/

namespace Valid

variable {L : Layout} {σ : Spec} {s t u : Nat}

theorem nodup (h : Valid L σ) : (σ.current :: σ.abs.queued L σ.owners).Nodup := by
  have hplace := h.place
  rw [h.moving] at hplace
  exact hplace.nodup_iff.mp h.tiled.tcbs_nodup

theorem mem_tcbs (h : Valid L σ) : t ∈ σ.owners.tcbs L ↔ t = σ.current ∨ t ∈ σ.abs.queued L σ.owners := by
  rw [h.place.mem_iff, h.moving]
  exact List.mem_cons

theorem queued_ready (ht : t ∈ σ.abs.ready) : t ∈ σ.abs.queued L σ.owners :=
  List.mem_append_left _ (List.mem_append_left _ ht)

theorem queued_asleep (ht : t ∈ σ.abs.asleep.map Prod.fst) : t ∈ σ.abs.queued L σ.owners :=
  List.mem_append_left _ (List.mem_append_right _ ht)

theorem queued_waiting (hs : s ∈ σ.owners.semaphores L) (ht : t ∈ σ.abs.waiting s) :
    t ∈ σ.abs.queued L σ.owners :=
  List.mem_append_right _ (List.mem_flatMap.mpr ⟨s, hs, ht⟩)

theorem not_queued (h : Valid L σ) : σ.current ∉ σ.abs.queued L σ.owners :=
  (List.nodup_cons.mp h.nodup).1

theorem not_ready (h : Valid L σ) : σ.current ∉ σ.abs.ready := fun ht => h.not_queued (queued_ready ht)

theorem not_asleep (h : Valid L σ) : σ.current ∉ σ.abs.asleep.map Prod.fst :=
  fun ht => h.not_queued (queued_asleep ht)

theorem not_waiting (h : Valid L σ) (hs : s ∈ σ.owners.semaphores L) :
    σ.current ∉ σ.abs.waiting s := fun ht => h.not_queued (queued_waiting hs ht)

theorem ready_pos (h : Valid L σ) (ht : t ∈ σ.abs.ready) : t ≠ 0 :=
  (h.tiled.tcb_inside (h.mem_tcbs.mpr (.inr (queued_ready ht)))).1.ne'

theorem ready_nodup (h : Valid L σ) : σ.abs.ready.Nodup :=
  (List.nodup_append.mp (List.nodup_append.mp (List.nodup_cons.mp h.nodup).2).1).1

theorem asleep_nodup (h : Valid L σ) : (σ.abs.asleep.map Prod.fst).Nodup :=
  (List.nodup_append.mp (List.nodup_append.mp (List.nodup_cons.mp h.nodup).2).1).2.1

theorem asleep_ready (h : Valid L σ) (ht : t ∈ σ.abs.asleep.map Prod.fst) : t ∉ σ.abs.ready :=
  fun hr => (List.nodup_append.mp (List.nodup_append.mp (List.nodup_cons.mp h.nodup).2).1).2.2 t hr t
    ht rfl

theorem waiting_nodup (h : Valid L σ) (hs : s ∈ σ.owners.semaphores L) : (σ.abs.waiting s).Nodup :=
  (List.nodup_flatMap.mp (List.nodup_append.mp (List.nodup_cons.mp h.nodup).2).2.1).1 s hs

theorem waiting_ready (h : Valid L σ) (hs : s ∈ σ.owners.semaphores L) (ht : t ∈ σ.abs.waiting s) :
    t ∉ σ.abs.ready :=
  fun hr => (List.nodup_append.mp (List.nodup_cons.mp h.nodup).2).2.2 t (List.mem_append_left _ hr) t
    (List.mem_flatMap.mpr ⟨s, hs, ht⟩) rfl

theorem putc_ne_getc (h : Valid L σ) : L.putcSem ≠ L.getcSem := by
  have hnd := h.tiled.semaphores_nodup
  rw [Owners.semaphores, List.nodup_cons] at hnd
  exact fun heq => hnd.1 (heq ▸ List.mem_cons_self)

/-- The threads whose deadline comes are ready instead of asleep. -/
theorem tick (h : Valid L σ) : Valid L σ.tick where
  tiled := h.tiled
  place := by
    have hsplit : σ.abs.asleep.map Prod.fst = σ.woken ++
        (SleepList.asleep (σ.abs.now + 1) σ.abs.asleep).map Prod.fst := by
      rw [Spec.woken, SleepList.woken, SleepList.asleep, ← List.map_append,
        List.takeWhile_append_dropWhile]
    have hplace := h.place
    rw [Abs.queued, hsplit, ← List.append_assoc σ.abs.ready] at hplace
    exact hplace
  bits := h.bits
  moving := h.moving

end Valid

/-! ### What `Sem::close` and `Sem::signal` leave -/

namespace Spec

variable {σ : Spec} {s t : Nat} {xs : List Nat}

/-- The abstract state in which the threads `xs` that waited on `s` are ready. -/
def closed (A : Abs) (s : Nat) (xs : List Nat) : Abs :=
  { A with
    waiting := Function.update A.waiting s []
    flag := fun t => if t ∈ xs then true else A.flag t
    ready := A.ready ++ xs }

theorem releaseAll_abs (h : σ.abs.waiting s = xs) : (σ.releaseAll s xs).abs = closed σ.abs s xs := by
  induction xs generalizing σ with
  | nil =>
    have hsame : Function.update σ.abs.waiting s [] = σ.abs.waiting := by
      rw [← h, Function.update_eq_self]
    simp [releaseAll, closed, hsame]
  | cons t R ih =>
    rw [releaseAll, ih (Function.update_self (β := fun _ => List Nat) ..)]
    have hready : (σ.release s t R true).abs.ready = σ.abs.ready ++ [t] := rfl
    have hwait : Function.update (σ.release s t R true).abs.waiting s [] =
        Function.update σ.abs.waiting s [] := by
      change Function.update (Function.update _ _ _) _ _ = _
      rw [Function.update_idem]
    have hflag : (fun u => if u ∈ R then true else (σ.release s t R true).abs.flag u) =
        fun u => if u ∈ t :: R then true else σ.abs.flag u := by
      funext u
      change (if u ∈ R then true else Function.update σ.abs.flag t true u) = _
      by_cases hu : u = t
      · simp [hu]
      · simp [hu, List.mem_cons]
    simp only [closed, hready, hwait, hflag, List.append_assoc, List.singleton_append]
    rfl

end Spec

/-! ### The invariant -/

/-- The threads that a semaphore suspends go on after a wait on it, the sleeping ones after no wait, and
only semaphores suspend threads. -/
structure Reasoned (L : Layout) (σ : Spec) : Prop where
  waiting : ∀ s ∈ σ.owners.semaphores L, ∀ t ∈ σ.abs.waiting s, (σ.abs.cont t).sem L = some s
  unused : ∀ s, s ∉ σ.owners.semaphores L → σ.abs.waiting s = []
  asleep : ∀ t ∈ σ.abs.asleep.map Prod.fst, (σ.abs.cont t).sem L = none

namespace Reasoned

variable {L : Layout} {σ τ : Spec} {s t : Nat} {c : Cont} {xs : List Nat}

theorem initial (mainStack : Nat) (tiles : List Tiling.Tile) (fbHead sstatus : Nat) :
    Reasoned L (.initial L mainStack tiles fbHead sstatus) where
  waiting _ _ _ ht := absurd ht List.not_mem_nil
  unused _ _ := rfl
  asleep _ ht := absurd ht List.not_mem_nil

/-- Fewer threads wait and sleep, and they go on where they would have. -/
theorem of_subset (h : Reasoned L σ) (hsem : τ.owners.semaphores L = σ.owners.semaphores L)
    (hw : ∀ s, τ.abs.waiting s ⊆ σ.abs.waiting s)
    (ha : τ.abs.asleep.map Prod.fst ⊆ σ.abs.asleep.map Prod.fst)
    (hc : τ.abs.cont = σ.abs.cont) : Reasoned L τ where
  waiting s hs t ht := by
    rw [hsem] at hs
    rw [hc]
    exact h.waiting s hs t (hw s ht)
  unused s hs := by
    rw [hsem] at hs
    exact List.subset_nil.mp (h.unused s hs ▸ hw s)
  asleep t ht := by
    rw [hc]
    exact h.asleep t (ha ht)

/-- Lists and continuations are the same. -/
theorem same (h : Reasoned L σ) (hsem : τ.owners.semaphores L = σ.owners.semaphores L)
    (habs : τ.abs.waiting = σ.abs.waiting ∧ τ.abs.asleep = σ.abs.asleep ∧ τ.abs.cont = σ.abs.cont) :
    Reasoned L τ := by
  refine h.of_subset hsem (fun s => ?_) ?_ habs.2.2
  · rw [habs.1]
    exact List.Subset.refl _
  · rw [habs.2.1]
    exact List.Subset.refl _

/-- A thread that neither waits nor sleeps will go on elsewhere. -/
theorem recont (h : Reasoned L σ) (ht : ∀ s ∈ σ.owners.semaphores L, t ∉ σ.abs.waiting s)
    (ha : t ∉ σ.abs.asleep.map Prod.fst) : Reasoned L { σ with
      abs := { σ.abs with cont := Function.update σ.abs.cont t c } } where
  waiting s hs u hu := by
    have hne : u ≠ t := fun heq => ht s hs (heq ▸ hu)
    exact (congrArg (Cont.sem L) (Function.update_of_ne hne _ _)).trans (h.waiting s hs u hu)
  unused := h.unused
  asleep u hu := by
    have hne : u ≠ t := fun heq => ha (heq ▸ hu)
    exact (congrArg (Cont.sem L) (Function.update_of_ne hne _ _)).trans (h.asleep u hu)

theorem tick (h : Reasoned L σ) : Reasoned L σ.tick := by
  refine h.of_subset rfl (fun _ => List.Subset.refl _) ?_ rfl
  exact List.map_subset _ (List.dropWhile_subset _)

theorem releaseAll (h : Reasoned L σ) (hw : σ.abs.waiting s = xs) :
    Reasoned L (σ.releaseAll s xs) := by
  have hown := (Inside.releaseAll_same σ s xs).1
  refine h.of_subset (by rw [hown]) (fun u => ?_) ?_ ?_ <;> rw [Spec.releaseAll_abs hw]
  · intro t ht
    simp only [Spec.closed, Function.update_apply] at ht
    split at ht
    · exact absurd ht List.not_mem_nil
    · exact ht
  · exact List.Subset.refl _
  · rfl

theorem signal (h : Reasoned L σ) (s : Nat) : Reasoned L (σ.signal s) := by
  have hstart : Reasoned L (σ.signalStart s) := h.same rfl ⟨rfl, rfl, rfl⟩
  unfold Spec.signal
  split
  · split
    · exact hstart
    · rename_i t R hw
      refine hstart.of_subset rfl (fun u x hx => ?_) (List.Subset.refl _) rfl
      change x ∈ Function.update σ.abs.waiting s R u at hx
      rw [Function.update_apply] at hx
      split at hx
      · rename_i heq
        change x ∈ σ.abs.waiting u
        rw [heq, hw]
        exact List.mem_cons_of_mem _ hx
      · exact hx
  · exact hstart

/-- The current thread is suspended. -/
theorem suspend (h : Reasoned L σ) (hv : Valid L σ) (hs : s ∈ σ.owners.semaphores L)
    (hc : c.sem L = some s) : Reasoned L (σ.suspend s c) := by
  have hrec := h.recont (c := c) (fun s hs => hv.not_waiting hs) hv.not_asleep
  refine ⟨fun u hu t ht => ?_, fun u hu => ?_, hrec.asleep⟩
  · change t ∈ Function.update σ.abs.waiting s (σ.abs.waiting s ++ [σ.current]) u at ht
    change (Function.update σ.abs.cont σ.current c t).sem L = some u
    rw [Function.update_apply] at ht
    split at ht
    · rename_i heq
      rcases List.mem_append.mp ht with ht | ht
      · exact hrec.waiting u hu t (heq ▸ ht)
      · rw [List.mem_singleton.mp ht, Function.update_self, hc, heq]
    · exact hrec.waiting u hu t ht
  · have hne : u ≠ s := by
      rintro rfl
      exact hu hs
    change Function.update σ.abs.waiting s (σ.abs.waiting s ++ [σ.current]) u = []
    rw [Function.update_of_ne hne]
    exact h.unused u hu

/-- The current thread sleeps. -/
theorem sleep (h : Reasoned L σ) (hv : Valid L σ) (n : Nat) : Reasoned L (σ.sleep n) := by
  have hrec := h.recont (c := .dispatched) (fun s hs => hv.not_waiting hs) hv.not_asleep
  refine ⟨hrec.waiting, hrec.unused, fun t ht => ?_⟩
  change (Function.update σ.abs.cont σ.current .dispatched t).sem L = none
  by_cases htc : t = σ.current
  · rw [htc, Function.update_self]
    rfl
  · refine hrec.asleep t ?_
    obtain ⟨p, hp, rfl⟩ := List.mem_map.mp ht
    refine List.mem_map.mpr ⟨p, ?_, rfl⟩
    have hp' : p ∈ insertSleep σ.current (σ.abs.now + n) σ.abs.asleep := hp
    rcases List.mem_append.mp hp' with hp' | hp'
    · exact List.takeWhile_subset _ hp'
    · rcases List.mem_cons.mp hp' with rfl | hp'
      · exact absurd rfl htc
      · exact List.dropWhile_subset _ hp'

/-- A new semaphore suspends no thread. -/
theorem openSem (h : Reasoned L σ) (hsem : ∀ u, u ∈ τ.owners.semaphores L ↔
      u = s ∨ u ∈ σ.owners.semaphores L)
    (hw : τ.abs.waiting = Function.update σ.abs.waiting s []) (ha : τ.abs.asleep = σ.abs.asleep)
    (hc : τ.abs.cont = σ.abs.cont) : Reasoned L τ := by
  refine ⟨fun u hu t ht => ?_, fun u hu => ?_, ?_⟩
  · rw [hw, Function.update_apply] at ht
    split at ht
    · exact absurd ht List.not_mem_nil
    · rename_i hne
      rw [hc]
      exact h.waiting u (((hsem u).mp hu).resolve_left hne) t ht
  · rw [hw, Function.update_of_ne fun heq => hu ((hsem u).mpr (.inl heq))]
    exact h.unused u fun hm => hu ((hsem u).mpr (.inr hm))
  · rw [ha, hc]
    exact h.asleep

/-- A semaphore that suspends no thread is closed. -/
theorem dropSem (h : Reasoned L σ) (hsem : ∀ u ∈ τ.owners.semaphores L, u ∈ σ.owners.semaphores L)
    (hdrop : ∀ u ∈ σ.owners.semaphores L, u ∉ τ.owners.semaphores L → σ.abs.waiting u = [])
    (hw : τ.abs.waiting = σ.abs.waiting) (ha : τ.abs.asleep = σ.abs.asleep)
    (hc : τ.abs.cont = σ.abs.cont) : Reasoned L τ := by
  refine ⟨fun u hu t ht => ?_, fun u hu => ?_, ?_⟩
  · rw [hc]
    rw [hw] at ht
    exact h.waiting u (hsem u hu) t ht
  · rw [hw]
    by_cases hm : u ∈ σ.owners.semaphores L
    · exact hdrop u hm hu
    · exact h.unused u hm
  · rw [ha, hc]
    exact h.asleep

theorem closeSem (h : Reasoned L σ) (hv : Valid L σ) {W : Owners} (hs : s ∈ σ.owners.sems)
    (hW : SameThreads { σ.owners with sems := σ.owners.sems.filter (· ≠ s) } W) (fbHead : Nat) :
    Reasoned L (σ.closeSem s W fbHead) := by
  have hrel := h.releaseAll (s := s) rfl
  have hown := (Inside.releaseAll_same σ s (σ.abs.waiting s)).1
  have hmem (u : Nat) : u ∈ W.semaphores L ↔ u ≠ s ∧ u ∈ σ.owners.semaphores L :=
    hW.mem_close hv.tiled hs
  refine hrel.dropSem (fun u hu => ?_) (fun u hu hnot => ?_) rfl rfl rfl
  · rw [hown]
    exact ((hmem u).mp hu).2
  · rw [hown] at hu
    have heq : u = s := by
      by_contra hne
      exact hnot ((hmem u).mpr ⟨hne, hu⟩)
    rw [heq, Spec.releaseAll_abs rfl]
    exact Function.update_self ..

/-- The closed form of an end of a thread. -/
theorem exit_abs (σ : Spec) (W : Owners) (fbHead : Nat) : (σ.exit W fbHead).abs =
    { Spec.closed σ.abs (σ.owners.join σ.current) (σ.abs.waiting (σ.owners.join σ.current)) with
      moving := [] } := by
  have habs := Spec.releaseAll_abs (σ := σ.log (.terminated σ.current))
    (s := σ.owners.join σ.current) rfl
  change { (Spec.releaseAll (σ.log (.terminated σ.current)) (σ.owners.join σ.current)
    ((σ.log (.terminated σ.current)).abs.waiting (σ.owners.join σ.current))).abs with moving := [] } = _
  rw [habs]
  rfl

theorem exit (h : Reasoned L σ) (hv : Valid L σ) {W : Owners} (fbHead : Nat)
    (ht : σ.current ∈ σ.owners.threads)
    (hW : SameThreads { σ.owners with threads := σ.owners.threads.filter (· ≠ σ.current) } W) :
    Reasoned L (σ.exit W fbHead) := by
  have hrel := h.releaseAll (s := σ.owners.join σ.current) rfl
  have hrel_abs := Spec.releaseAll_abs (σ := σ) (s := σ.owners.join σ.current) rfl
  have hown := (Inside.releaseAll_same σ (σ.owners.join σ.current)
    (σ.abs.waiting (σ.owners.join σ.current))).1
  have hmem (u : Nat) : u ∈ W.semaphores L ↔ _ := hW.mem_exit hv.tiled ht
  refine hrel.dropSem (fun u hu => ?_) (fun u hu hnot => ?_) ?_ ?_ ?_
  · rw [hown]
    exact ((hmem u).mp hu).2
  · rw [hown] at hu
    have heq : u = σ.owners.join σ.current := by
      by_contra hne
      exact hnot ((hmem u).mpr ⟨hne, hu⟩)
    rw [heq, hrel_abs]
    exact Function.update_self ..
  · rw [exit_abs, hrel_abs]
  · rw [exit_abs, hrel_abs]
  · rw [exit_abs, hrel_abs]

end Reasoned

/-- The steps keep the reasons. -/
theorem kept_reasoned (L : Layout) : Kept L (Reasoned L) := by
  intro σ σ' hs h
  cases hs with
  | called | returned | pass | passRead | passWrite | userMode | sstatus | flush | freed =>
    exact h.same rfl ⟨rfl, rfl, rfl⟩
  | retile _ _ _ hW => exact h.same ((hW.tcbs L).2) ⟨rfl, rfl, rfl⟩
  | block hv _ hc hs =>
    exact (h.suspend hv hs hc.sem).same rfl ⟨rfl, rfl, rfl⟩
  | blockWrite hv _ p0 =>
    exact (h.suspend (c := .writing p0) hv List.mem_cons_self rfl).same rfl ⟨rfl, rfl, rfl⟩
  | signal => exact h.signal _
  | receive _ _ temp =>
    have hput : Reasoned L ((σ.on { σ.globals with getcBuffer := σ.globals.getcBuffer.put temp }).log
      (.received temp)) := h.same rfl ⟨rfl, rfl, rfl⟩
    exact hput.signal _
  | flushChar =>
    have hget : Reasoned L (σ.on { σ.globals with
      putcBuffer := σ.globals.putcBuffer.get.2
      console := σ.globals.console ++ [σ.globals.putcBuffer.get.1] }) := h.same rfl ⟨rfl, rfl, rfl⟩
    exact hget.signal _
  | dispatch hv =>
    exact (h.recont (fun s hs => hv.not_waiting hs) hv.not_asleep).same rfl ⟨rfl, rfl, rfl⟩
  | sleep hv => exact (h.sleep hv _).same rfl ⟨rfl, rfl, rfl⟩
  | tick => exact h.tick
  | preempt hv =>
    have hv' : Valid L σ.tick := hv.tick
    exact (h.tick.recont (fun s hs => hv'.not_waiting hs) hv'.not_asleep).same rfl ⟨rfl, rfl, rfl⟩
  | resume =>
    obtain ⟨hown, habs, -⟩ := Away.resume_same σ L
    exact h.same (by rw [hown]) (by rw [habs]; exact ⟨rfl, rfl, rfl⟩)
  | openSem _ _ _ _ _ hW => exact h.openSem (fun _ => hW.mem_open) rfl rfl rfl
  | closeSem hv _ _ hs hW => exact h.closeSem hv hs hW _
  | create hv _ _ ht hj hW =>
    have hnot (t : Nat) (ht : t ∉ σ.owners.tcbs L) : t ∉ σ.abs.queued L σ.owners :=
      fun hm => ht (hv.mem_tcbs.mpr (.inr hm))
    have hrec := h.recont (c := .fresh) (fun s hs hm => hnot _ ht (Valid.queued_waiting hs hm))
      fun hm => hnot _ ht (Valid.queued_asleep hm)
    exact hrec.openSem (fun _ => hW.mem_create ht) rfl rfl rfl
  | exit hv _ fbHead ht _ hW =>
    exact (h.exit hv fbHead ht hW).same rfl ⟨rfl, rfl, rfl⟩

end Os1Kernel
