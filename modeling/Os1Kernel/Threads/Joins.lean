import Os1Kernel.Threads.Lost

/-! Threads that wait for the end of another one: they are suspended on the semaphore that was made with
it, which is closed when it ends. -/

namespace Os1Kernel

open Refine Ledger Memory

namespace Ledger

variable {K K' : Ledger} {s t h : Nat} {A : Account} {x : Action} {k l mid : List Action}

/-! ### Whom a semaphore belongs to -/

theorem Reads.fresh (h : Reads K x K') (k : List Action) (hK : K.fresh = Log.fresh k) :
    K'.fresh = Log.fresh (k ++ [x]) := by
  rw [Log.fresh, List.foldl_append]
  cases h with
  | initialized => rfl
  | plain _ hp => cases x <;> first | exact hK | cases hp
  | _ => exact hK

theorem runs_fresh (h : Runs Reads empty l K) : K.fresh = Log.fresh l := by
  induction l using List.reverseRecOn generalizing K with
  | nil =>
    cases h
    rfl
  | append_singleton l x ih =>
    obtain ⟨K₁, hl, K₂, hx, rfl⟩ := runs_append.mp h
    exact hx.fresh l (ih hl)

theorem Reads.owner (hx : Reads K x K') (ho : K.owner s = some h)
    (hne : x ≠ .freed s MemoryAllocator.memSuccess) : K'.owner s = some h := by
  cases hx with
  | created hd hnone =>
    have hfresh : s ≠ K.fresh := by
      rintro rfl
      rw [ho] at hnone
      cases hnone
    exact (Function.update_of_ne hfresh _ _).trans ho
  | @freedSem u =>
    have hsu : s ≠ u := fun heq => hne (by rw [heq])
    exact (Function.update_of_ne hsu _ _).trans ho
  | _ => exact ho

theorem runs_owner (hl : Runs Reads K l K') (ho : K.owner s = some h)
    (hf : .freed s MemoryAllocator.memSuccess ∉ l) : K'.owner s = some h := by
  induction l generalizing K with
  | nil =>
    cases hl
    exact ho
  | cons x l ih =>
    obtain ⟨K₁, hx, hl⟩ := hl
    rw [List.mem_cons, not_or] at hf
    exact ih hl (hx.owner ho (Ne.symm hf.1)) hf.2

/-- No thread has two semaphores. -/
def Single (K : Ledger) : Prop := ∀ s s' h, K.owner s = some h → K.owner s' = some h → s = s'

theorem Reads.single (hx : Reads K x K') (hK : K.Single) : K'.Single := by
  intro s s' h hs hs'
  cases hx with
  | @created t u hd ho hsem hh =>
    change Function.update K.owner K.fresh (some u) s = some h at hs
    change Function.update K.owner K.fresh (some u) s' = some h at hs'
    simp only [Function.update_apply] at hs hs'
    split at hs
    · rename_i hsf
      split at hs'
      · rename_i hsf'
        rw [hsf, hsf']
      · obtain rfl := Option.some.inj hs
        exact absurd hs' (hh s')
    · split at hs'
      · obtain rfl := Option.some.inj hs'
        exact absurd hs (hh s)
      · exact hK s s' h hs hs'
  | @freedSem u =>
    change Function.update K.owner u none s = some h at hs
    change Function.update K.owner u none s' = some h at hs'
    simp only [Function.update_apply] at hs hs'
    split at hs
    · cases hs
    · split at hs'
      · cases hs'
      · exact hK s s' h hs hs'
  | _ => exact hK s s' h hs hs'

theorem runs_single (hl : Runs Reads empty l K) : K.Single :=
  hl.inv (fun _ _ _ hx hK => hx.single hK) fun _ _ _ hs _ => by cases hs

/-- A semaphore that belongs to a thread has not been freed. -/
def Known (K : Ledger) : Prop := ∀ s h, K.owner s = some h → ∃ A, K.sem s = some A

theorem Reads.known (hx : Reads K x K') (hK : K.Known) : K'.Known := by
  intro s h ho
  have hread := hx
  cases hx with
  | @created t u hd hnone hsem =>
    change Function.update K.owner K.fresh (some u) s = some h at ho
    simp only [Function.update_apply] at ho
    split at ho
    · rename_i hsf
      exact ⟨_, hsf ▸ hsem⟩
    · exact hK s h ho
  | @freedSem u =>
    change Function.update K.owner u none s = some h at ho
    change ∃ A, Function.update K.sem u none s = some A
    simp only [Function.update_apply] at ho ⊢
    split at ho
    · cases ho
    · rename_i hsu
      rw [if_neg hsu]
      exact hK s h ho
  | freedTcb => exact hK s h ho
  | freed => exact hK s h ho
  | plain => exact hK s h ho
  | _ =>
    obtain ⟨A, hA⟩ := hK s h ho
    exact ⟨_, hread.sem hA (by simp)⟩

theorem runs_known (hl : Runs Reads empty l K) : K.Known :=
  hl.inv (fun _ _ _ hx hK => hx.known hK) fun _ _ hs => by cases hs

/-- The thread that a semaphore belongs to has been created with it. -/
theorem runs_created (hl : Runs Reads empty l K) (ho : K.owner s = some h) :
    ∃ before c after, l = before ++ .created c h :: after ∧ Log.fresh before = s ∧
      .freed s MemoryAllocator.memSuccess ∉ after := by
  induction l using List.reverseRecOn generalizing K with
  | nil =>
    cases hl
    cases ho
  | append_singleton l x ih =>
    obtain ⟨K₁, hl₁, K₂, hx, rfl⟩ := runs_append.mp hl
    have hkeep (ho₁ : K₁.owner s = some h) (hne : x ≠ .freed s MemoryAllocator.memSuccess) :
        ∃ before c after, l ++ [x] = before ++ .created c h :: after ∧ Log.fresh before = s ∧
          .freed s MemoryAllocator.memSuccess ∉ after := by
      obtain ⟨before, c, after, rfl, hfresh, hf⟩ := ih hl₁ ho₁
      refine ⟨before, c, after ++ [x], by simp, hfresh, fun hm => ?_⟩
      rcases List.mem_append.mp hm with hm | hm
      · exact hf hm
      · exact hne (List.mem_singleton.mp hm).symm
    cases hx with
    | @created t u hd hnone =>
      change Function.update K₁.owner K₁.fresh (some u) s = some h at ho
      simp only [Function.update_apply] at ho
      split at ho
      · rename_i hsf
        obtain rfl := Option.some.inj ho
        exact ⟨l, t, [], rfl, by rw [hsf, runs_fresh hl₁], List.not_mem_nil⟩
      · exact hkeep ho (by simp)
    | @freedSem u =>
      change Function.update K₁.owner u none s = some h at ho
      simp only [Function.update_apply] at ho
      split at ho
      · cases ho
      · rename_i hsu
        exact hkeep ho (by simp [Ne.symm hsu])
    | @freedTcb u hd hsem =>
      refine hkeep ho fun heq => ?_
      obtain ⟨A, hA⟩ := runs_known hl₁ s h ho
      rw [(Action.freed.inj heq).1, hA] at hsem
      cases hsem
    | freed hd ha =>
      refine hkeep ho fun heq => ?_
      obtain ⟨A, hA⟩ := runs_known hl₁ s h ho
      obtain ⟨rfl, hcode⟩ := Action.freed.inj heq
      rw [(ha hcode).1] at hA
      cases hA
    | plain hd hp => exact hkeep ho (by rintro rfl; cases hp)
    | _ => exact hkeep ho (by simp)

/-! ### The end of a thread -/

theorem Reads.of_drop (hx : Reads K x K') (hd : K.due = .drop t) :
    x = .freed t MemoryAllocator.memSuccess := by
  cases hx with
  | freedTcb hd' =>
    rw [hd] at hd'
    cases hd'
    rfl
  | failed hd' =>
    rcases hd' with ⟨hd', -⟩ | hd' <;> rw [hd] at hd' <;> cases hd'
  | freedSem hd' =>
    rcases hd' with ⟨hd', -⟩ | hd' <;> rw [hd] at hd' <;> cases hd'
  | freed hd' =>
    rcases hd' with hd' | ⟨_, hd'⟩ <;> rw [hd] at hd' <;> cases hd'
  | initialized hd' | waitCalled hd' | blocked hd' | passed hd' | resumed hd' | signalled hd'
  | woke hd' | released hd' | followed hd' | readied hd' | picked hd' | created hd'
  | terminated hd' | plain hd' =>
    rw [hd] at hd'
    cases hd'

theorem not_closing_dropped {o : Option Nat} (hd : K.due = .dropped o) : ¬K.Closing s := by
  rintro (hc | ⟨u, hc⟩) <;> rw [hd] at hc <;> cases o <;> cases hc

theorem ends_blocked (hx : Ends s x) : Log.blocked s [x] = [] := by
  cases hx <;> rfl

/-- The semaphore of a thread that ends is freed, and then the thread, after all who waited for it have
been released. -/
theorem runs_exit (hl : Runs Reads K l K') (hc : K.Closing s) (ho : K.owner s = some h)
    (hs : K.sem s = some A) (hd : K'.due = .nothing) :
    ∃ m r, l = m ++ .freed s MemoryAllocator.memSuccess :: .freed h MemoryAllocator.memSuccess :: r ∧
      (∀ x ∈ m, Ends s x) ∧ Log.released s m = A.suspended := by
  induction l generalizing K A with
  | nil =>
    cases hl
    rcases hc with hc | ⟨_, hc⟩ <;> rw [hd] at hc <;> cases hc
  | cons x l ih =>
    obtain ⟨K₁, hx, hl⟩ := hl
    have hstep (hends : Ends s x) (hc₁ : K₁.Closing s) (ho₁ : K₁.owner s = some h) :
        ∃ m r, x :: l = m ++ .freed s MemoryAllocator.memSuccess ::
          .freed h MemoryAllocator.memSuccess :: r ∧ (∀ x ∈ m, Ends s x) ∧
            Log.released s m = A.suspended := by
      have hne : x ≠ .freed s MemoryAllocator.memSuccess := by
        rintro rfl
        exact not_closing_dropped (hx.of_freed hs).2 hc₁
      obtain ⟨m, r, rfl, hm, hrel⟩ := ih hl hc₁ ho₁ (hx.sem hs hne)
      refine ⟨x :: m, r, rfl, List.forall_mem_cons.mpr ⟨hends, hm⟩, ?_⟩
      have hsusp := hx.suspended hs
      rw [ends_blocked hends, List.append_nil] at hsusp
      rw [← List.singleton_append, Log.released_append, hrel, hsusp]
    rcases hc with hc | ⟨t, hc⟩
    · rcases hx.of_close hc with ⟨rfl, hdue⟩ | ⟨hends, hc₁, ho₁⟩
      · rw [ho] at hdue
        cases l with
        | nil =>
          cases hl
          rw [hd] at hdue
          cases hdue
        | cons y l =>
          obtain ⟨K₂, hy, -⟩ := hl
          obtain rfl := hy.of_drop hdue
          exact ⟨[], l, rfl, by simp, (hx.of_freed hs).1.symm⟩
      · exact hstep hends hc₁ (ho₁.trans ho)
    · obtain ⟨rfl, hd₁⟩ := hx.of_ready hc
      exact hstep (.readied t) (.inl hd₁) (hx.owner ho (by simp))

/-- A semaphore that belongs to a thread is closed when that ends. -/
theorem runs_terminated (hl : Runs Reads K l K') (hd : K.due = .nothing) (ho : K.owner s = some h)
    (hf : .freed s MemoryAllocator.memSuccess ∉ l) (hc : K'.Closing s) : .terminated h ∈ l := by
  induction l using List.reverseRecOn generalizing K' with
  | nil =>
    cases hl
    rcases hc with hc | ⟨_, hc⟩ <;> rw [hd] at hc <;> cases hc
  | append_singleton l x ih =>
    obtain ⟨K₁, hl₁, K₂, hx, rfl⟩ := runs_append.mp hl
    rw [List.mem_append, not_or] at hf
    have ho₁ := runs_owner hl₁ ho hf.1
    have hprev (hc₁ : K₁.Closing s) : .terminated h ∈ l ++ [x] := List.mem_append_left _ (ih hl₁ hf.1 hc₁)
    cases hx with
    | terminated hd' ho' =>
      rcases hc with hc | ⟨_, hc⟩ <;> cases hc
      obtain rfl := Option.some.inj (ho₁.symm.trans ho')
      exact List.mem_append_right _ (List.mem_singleton_self _)
    | @followed t c hd' =>
      rcases hc with hc | ⟨_, hc⟩ <;> cases c <;> cases hc
      exact hprev (.inr ⟨t, hd'⟩)
    | failed hd' =>
      rcases hc with hc | ⟨_, hc⟩ <;> cases hc
      rcases hd' with ⟨-, hnone⟩ | hd'
      · rw [ho₁] at hnone
        cases hnone
      · exact hprev (.inl hd')
    | freedSem => exact absurd hc (not_closing_dropped rfl)
    | waitCalled | blocked | passed | woke | released | freedTcb =>
      rcases hc with hc | ⟨_, hc⟩ <;> cases hc
    | _ => exact hprev hc

/-- A thread is released from the semaphore of another one when that has ended. -/
theorem runs_only {e : Bool} (hl : Runs Reads K (l ++ .released t s e :: k) K') (hd : K.due = .nothing)
    (ho : K.owner s = some h) (hf : .freed s MemoryAllocator.memSuccess ∉ l) :
    e = true ∧ .terminated h ∈ l := by
  obtain ⟨K₁, hl₁, K₂, hx, -⟩ := runs_append.mp hl
  have ho₁ := runs_owner hl₁ ho hf
  cases hx with
  | released _ _ _ _ hnone =>
    rw [ho₁] at hnone
    cases hnone
  | failed hd' =>
    rcases hd' with ⟨-, hnone⟩ | hd'
    · rw [ho₁] at hnone
      cases hnone
    · exact ⟨rfl, runs_terminated hl₁ hd ho hf (.inl hd')⟩
  | plain _ hp => cases hp

/-- While the semaphore of a thread is not freed, and nothing is due, no thread has been released from
it. -/
theorem runs_alive {e : Bool} (hl : Runs Reads K l K') (ho : K.owner s = some h)
    (hf : .freed s MemoryAllocator.memSuccess ∉ l) (hd : K'.due = .nothing) :
    .released t s e ∉ l := by
  intro hm
  obtain ⟨a, b, rfl⟩ := List.append_of_mem hm
  rw [List.mem_append, not_or, List.mem_cons, not_or] at hf
  obtain ⟨K₁, hl₁, K₂, hx, hl₂⟩ := runs_append.mp hl
  have ho₁ := runs_owner hl₁ ho hf.1
  cases hx with
  | released _ _ _ _ hnone =>
    rw [ho₁] at hnone
    cases hnone
  | failed =>
    obtain ⟨m, r, rfl, -⟩ := runs_closing hl₂ (.inr ⟨t, rfl⟩) hd
    exact hf.2.2 (List.mem_append_right _ List.mem_cons_self)
  | plain _ hp => cases hp

/-- What is known after a thread has been created. -/
theorem runs_of_created {before after : List Action} {c : Nat}
    (hl : Runs Reads empty (before ++ .created c h :: after) K') : ∃ K, K.due = .nothing ∧
      K.owner (Log.fresh before) = some h ∧ K.sem (Log.fresh before) = some (.opened 0) ∧
      Runs Reads empty (before ++ [.created c h]) K ∧ Runs Reads K after K' := by
  rw [← List.singleton_append, ← List.append_assoc] at hl
  obtain ⟨K, hl₁, hl₂⟩ := runs_append.mp hl
  obtain ⟨K₀, hl₀, K₁, hx, rfl⟩ := runs_append.mp hl₁
  have hfresh := runs_fresh hl₀
  cases hx with
  | created hd ho hs hh =>
    rw [← hfresh]
    exact ⟨{ K₀ with owner := Function.update K₀.owner K₀.fresh (some h) }, hd,
      Function.update_self .., hs, hl₁, hl₂⟩
  | plain _ hp => cases hp

theorem log_released {s : Nat} {l : List Action} (h : ∀ t e, .released t s e ∉ l) :
    Log.released s l = [] := by
  refine List.filterMap_eq_nil_iff.mpr fun x hx => ?_
  cases x with
  | released t u e =>
    refine if_neg fun heq => ?_
    exact h t e (heq ▸ hx)
  | _ => rfl

end Ledger

/-- What becomes of the threads that wait for the end of another one. -/
structure JoinsEnd (L : Layout) (M : Machine) : Prop where
  /-- Joining a thread is waiting on its semaphore. -/
  join : ∀ h ∈ M.globals.handles.threads, ∀ g, (threadJoinCall L h).run M.mem g =
    (Sem.wait L (M.mem.field h Field.joinSem) >>= fun _ => pure ()).run M.mem g
  /-- While the thread runs, all that have been suspended on its semaphore still are, in order. -/
  alive : ∀ h ∈ M.globals.handles.threads, ∃ before c after,
    M.globals.trace = before ++ .created c h :: after ∧
    Log.fresh before = M.mem.field h Field.joinSem ∧
    (∀ t e, .released t (M.mem.field h Field.joinSem) e ∉ after) ∧
    IsList M.mem.view (Sem.suspendedTcbs (M.mem.field h Field.joinSem))
      (Log.blocked (M.mem.field h Field.joinSem) after)
  /-- A thread is released from it only after the other one has ended, -/
  only : ∀ before c h after t e rest, M.globals.trace = before ++ .created c h ::
      (after ++ .released t (Log.fresh before) e :: rest) →
    .freed (Log.fresh before) MemoryAllocator.memSuccess ∉ after → e = true ∧ .terminated h ∈ after
  /-- and becomes ready at once. -/
  ready : ∀ before t s e rest, M.globals.trace = before ++ .released t s e :: rest →
    ∃ r, rest = .readied t :: r
  /-- When a thread ends, all that wait for it are released, once and in order, before its semaphore and
  its block are freed. -/
  ended : ∀ before c h after rest, M.globals.trace = before ++ .created c h ::
      (after ++ .terminated h :: rest) →
    .freed (Log.fresh before) MemoryAllocator.memSuccess ∉ after →
    ∃ m r, rest = m ++ .freed (Log.fresh before) MemoryAllocator.memSuccess ::
        .freed h MemoryAllocator.memSuccess :: r ∧
      (∀ x ∈ m, Ends (Log.fresh before) x) ∧
      Log.released (Log.fresh before) m = Log.blocked (Log.fresh before) after
  /-- What a released thread does in `wait` does not touch the semaphore. -/
  resumed : ∀ s m g, (Sem.afterBlock s).reads m g = [(g.currentTcb, .interrupted)] ∧
    (Sem.afterBlock s).writes m g = []

section Log

variable {L : Layout} {M : Machine} {K : Ledger} {before after rest : List Action} {c h : Nat}

theorem ended_of_runs (hl : Runs Reads empty (before ++ .created c h ::
      (after ++ .terminated h :: rest)) K) (hd : K.due = .nothing)
    (hf : .freed (Log.fresh before) MemoryAllocator.memSuccess ∉ after) :
    ∃ m r, rest = m ++ .freed (Log.fresh before) MemoryAllocator.memSuccess ::
        .freed h MemoryAllocator.memSuccess :: r ∧
      (∀ x ∈ m, Ends (Log.fresh before) x) ∧
      Log.released (Log.fresh before) m = Log.blocked (Log.fresh before) after := by
  obtain ⟨K₁, hd₁, ho₁, hs₁, hl₁, hl₂⟩ := runs_of_created hl
  obtain ⟨K₂, hafter, K₃, hx, hrest⟩ := runs_append.mp hl₂
  have ho₂ := runs_owner hafter ho₁ hf
  obtain ⟨A, hA, -, -, -, hsusp⟩ := runs_sem hafter hs₁ hf
  cases hx with
  | @terminated _ s hd₂ ho =>
    obtain rfl : s = Log.fresh before :=
      runs_single (runs_append.mpr ⟨K₁, hl₁, hafter⟩) _ _ h ho ho₂
    obtain ⟨m, r, rfl, hm, hrel⟩ := runs_exit hrest (.inl rfl) ho hA hd
    refine ⟨m, r, rfl, hm, hrel.trans ?_⟩
    rw [log_released fun t e => runs_alive hafter ho₁ hf hd₂] at hsusp
    simpa [Account.opened] using hsusp.symm
  | plain _ hp => cases hp

end Log

/-- Threads that wait for the end of another one are released then, and not before, in every run in which
`free` rejects what a `thread_create` that finds no kernel stack takes for a semaphore. -/
theorem joins_end {L : Layout} {M : Machine} (h : Reach L (LeftoverRejected L) M) : JoinsEnd L M := by
  obtain ⟨σ, K, hrests, hK, htrace⟩ := reach_books h
  have hruns {l : List Action} (hl : M.globals.trace = l) : Runs Reads empty l K := by
    rw [← hl, ← htrace]
    exact hK.runs
  have hthreads : M.globals.handles.threads = σ.owners.threads := by
    rw [hrests.handles]
    rfl
  have hjoin (t : Nat) (ht : t ∈ M.globals.handles.threads) :
      M.mem.field t Field.joinSem = σ.owners.join t :=
    hrests.inside.holds.base.joinSem t (hthreads ▸ ht)
  have hmem (t : Nat) (ht : t ∈ M.globals.handles.threads) :
      σ.owners.join t ∈ σ.owners.semaphores L := Inside.mem_join (hthreads ▸ ht)
  refine ⟨fun t ht g => ?_, fun t ht => ?_, fun before c t after u e rest hl hf => ?_,
    fun _ _ _ _ _ hl => ready_of_runs (hruns hl) hK.due, fun _ _ _ _ _ hl hf =>
    ended_of_runs (hruns hl) hK.due hf, fun s m g => ?_⟩
  · have ht0 : t ≠ 0 :=
      (hrests.inside.holds.tiled.tcb_inside (List.mem_cons_of_mem _ (hthreads ▸ ht))).1.ne'
    have hs0 : M.mem.field t Field.joinSem ≠ 0 := by
      have hin := hrests.inside.holds.tiled.inside (Owners.Tiled.mem_thread (hthreads ▸ ht)
        (r := (σ.owners.join t, toBlocks sizeofSem)) (by simp [Owners.ofThread]))
      have hbase := L.heap.base_pos
      rw [hjoin t ht]
      simp only at hin
      omega
    rw [threadJoinCall, if_pos ht0, run_of_run (run_rd ht0), if_pos hs0]
  · have ho : K.owner (σ.owners.join t) = some t := hK.of.owner t (hthreads ▸ ht)
    obtain ⟨before, c, after, hl, hfresh, hf⟩ := runs_created (hruns rfl) ho
    obtain ⟨K₁, hd₁, ho₁, hs₁, hl₁, hl₂⟩ := runs_of_created (hruns hl)
    rw [hjoin t ht]
    rw [hfresh] at ho₁ hs₁
    have hnone (u : Nat) (e : Bool) : .released u (σ.owners.join t) e ∉ after :=
      runs_alive hl₂ ho₁ hf hK.due
    refine ⟨before, c, after, hl, hfresh, hnone, ?_⟩
    obtain ⟨A, hA, -, -, -, hsusp⟩ := runs_sem hl₂ hs₁ hf
    obtain ⟨B, hB, hwaiting, -⟩ := hK.of.sem _ (hmem t ht)
    obtain rfl := Option.some.inj (hA.symm.trans hB)
    rw [log_released hnone] at hsusp
    simp only [Account.opened, List.nil_append] at hsusp
    rw [hsusp, hwaiting]
    exact hrests.inside.holds.queues.waiting _ (hmem t ht)
  · obtain ⟨K₁, hd₁, ho₁, hs₁, hl₁, hl₂⟩ := runs_of_created (hruns hl)
    exact runs_only hl₂ hd₁ ho₁ hf
  · refine ⟨?_, ?_⟩
    · change (g.currentTcb, Field.interrupted) :: (if g.currentTcb = 0 then [] else
        Prog.reads (if m.field g.currentTcb Field.interrupted ≠ 0 then Sem.waitReturn s Sem.waitFail
          else Sem.waitReturn s Sem.waitSuccess) m g) = _
      split
      · rfl
      · split <;> rfl
    · change (if g.currentTcb = 0 then [] else
        Prog.writes (if m.field g.currentTcb Field.interrupted ≠ 0 then Sem.waitReturn s Sem.waitFail
          else Sem.waitReturn s Sem.waitSuccess) m g) = _
      split
      · rfl
      · split <;> rfl

/-- A thread has ended that `main` has waited for. -/
theorem joins_end_joined : ∃ M, Reach roomyImage (LeftoverRejected roomyImage) M ∧
    .waitReturned roomyImage.mainTcb 39360 Sem.waitFail ∈ M.globals.trace ∧
    34880 ∉ M.globals.handles.threads ∧ JoinsEnd roomyImage M := by
  obtain ⟨M, hr, -, hthreads, hwaited⟩ := joiner_released
  exact ⟨M, hr, hwaited, by rw [hthreads]; decide, joins_end hr⟩

/-- The main thread waits for the flush thread, and is released although that has not ended. -/
theorem joins_not_end : ¬∀ (L : Layout) (M : Machine), Reach L (fun _ _ => True) M → JoinsEnd L M := by
  intro hall
  obtain ⟨M₀, M, q, ticks, hb, hr, -, -, hthreads, -, hjoin, hq, htrace⟩ := Lost.flush_lost
  obtain ⟨before, c, after, hl, -, hnone, -⟩ := (hall _ _ hr).alive 17472 (by
    rw [hthreads]
    exact List.mem_cons_self)
  rw [hjoin] at hnone
  rw [htrace] at hl
  -- the thread has been created before all this
  have hnot : .created c 17472 ∉ q ++ Lost.actions bootImage 17472 22016 0 ticks := by
    intro hm
    rcases List.mem_append.mp hm with hm | hm
    · cases hq _ hm
    · simp [Lost.actions] at hm
  rw [List.append_assoc] at hl
  obtain ⟨k, -, hk⟩ | ⟨k, -, hk⟩ := List.append_eq_append_iff.mp hl
  · exact hnot (by rw [hk]; exact List.mem_append_right _ List.mem_cons_self)
  · cases k with
    | nil => exact hnot (by rw [← List.nil_append (q ++ _), ← hk]; exact List.mem_cons_self)
    | cons x k =>
      refine hnone bootImage.mainTcb false ?_
      rw [(List.cons.inj hk).2]
      exact List.mem_append_right _ (List.mem_append_right _ (by simp [Lost.actions]))

end Os1Kernel
