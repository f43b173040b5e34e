import Os1Kernel.Threads.BooksRun
import Os1Kernel.Threads.Places

/-! Semaphores and the scheduler in every run: what they have counted, whom they have suspended and
released, and in which order threads run. -/

namespace Os1Kernel

open Refine Ledger Memory

/-! ### The books of a machine -/

variable {L : Layout} {M : Machine}

/-- An account can be kept of the log of every state that the kernel reaches. -/
theorem reach_books (h : Reach L (LeftoverRejected L) M) : ∃ σ K,
    Rests L (fun σ => (Reasoned L σ ∧ Booked L σ) ∧ σ.globals.handles.flush ≠ 0) M σ ∧
      Books L σ K ∧ σ.globals.trace = M.globals.trace := by
  obtain ⟨σ, hrests⟩ := reach_rests (kept_booked L)
    (fun i ts x s => ⟨Reasoned.initial _ _ _ _, booked_initial L _ _ _ _⟩) h
  obtain ⟨K, hK⟩ := hrests.inside.inv.1.2
  exact ⟨σ, K, hrests, hK, by rw [hrests.of_sstatus]⟩

/-! ### Counting -/

/-- What the log since the initialisation of `s` with the value `v` says of its value and of the threads
`W` that are suspended. -/
structure Counted (s v : Nat) (log : List Action) (value : Int) (W : List Nat) : Prop where
  units : value = v + Log.signals s log - Log.waits s log
  suspended : (W.length : Int) = max 0 (-value)
  granted : Log.granted s log = min (Log.waits s log) (v + Log.signals s log)
  /-- The threads that have been suspended are released in their order. -/
  order : Log.blocked s log = Log.released s log ++ W
  /-- A signal that finds a suspended thread makes the first one ready, -/
  found : ∀ a t R b, log = a ++ .signalled s :: b → Log.blocked s a = Log.released s a ++ t :: R →
    ∃ c, b = .released t s false :: .readied t :: c
  /-- and no thread is released otherwise. -/
  once : ∀ a t e b, log = a ++ .released t s e :: b → ∃ c, a = c ++ [.signalled s]

/-- Every semaphore counts, from its initialisation with an `int` that is not negative on, until it is
closed and as long as the numbers are those of an `int`. -/
def SemaphoresCount (M : Machine) : Prop :=
  ∀ before after s v, M.globals.trace = before ++ .initialized s v :: after → v < 2 ^ 31 →
    .freed s MemoryAllocator.memSuccess ∉ after → Log.waits s after < 2 ^ 31 →
    v + Log.signals s after < 2 ^ 31 →
    ∃ W, IsList M.mem.view (Sem.suspendedTcbs s) W ∧
      Counted s v after (toInt (M.mem.field s Field.value)) W

section Log

variable {K : Ledger} {before after a b : List Action} {s v t : Nat} {A : Account} {R : List Nat}

/-- A release without a close follows a signal. -/
theorem once_of_runs {e : Bool} (h : Runs Reads empty (before ++ .released t s e :: b) K)
    (hd : K.due = .nothing) (hb : .freed s MemoryAllocator.memSuccess ∉ b) :
    ∃ c, before = c ++ [.signalled s] := by
  obtain ⟨K₁, h₁, K₂, hx, h₂⟩ := runs_append.mp h
  cases hx with
  | released hd₁ =>
    obtain ⟨c, x, K₀, rfl, -, hlast⟩ := runs_last h₁ (by rw [hd₁]; simp)
    exact ⟨c, by rw [hlast.due_release hd₁]⟩
  | failed =>
    obtain ⟨m, r, rfl, -⟩ := runs_closing h₂ (.inr ⟨t, rfl⟩) hd
    exact absurd (List.mem_append_right _ List.mem_cons_self) hb
  | plain _ hp => cases hp

/-- A signal that finds a suspended thread releases the first one. -/
theorem found_of_runs (h : Runs Reads empty (before ++ .initialized s v :: (a ++ .signalled s :: b)) K)
    (hd : K.due = .nothing) (ha : .freed s MemoryAllocator.memSuccess ∉ a)
    (hv : v + Log.signals s a + 1 < 2 ^ 31) (hw : Log.waits s a < 2 ^ 31)
    (hq : Log.blocked s a = Log.released s a ++ t :: R) :
    ∃ c, b = .released t s false :: .readied t :: c := by
  rw [← List.cons_append, ← List.append_assoc] at h
  obtain ⟨K₁, h₁, K₂, hx, h₂⟩ := runs_append.mp h
  obtain ⟨A, hA, hinit, hwaits, hsignals, hsusp⟩ := runs_initialized h₁ ha
  have hA' : A.suspended = t :: R := List.append_cancel_left (hsusp.symm.trans hq)
  have hfits : A.Fits := ⟨by omega, by omega⟩
  cases hx with
  | @signalled _ B hd₁ hB hnone =>
    obtain rfl := Option.some.inj (hA.symm.trans hB)
    have hbal := runs_sound h₁ s A hA hfits (by simp [Closing, hd₁])
    have hlen := hbal.length
    simp only [Ledger.waiting, Ledger.releasing, hd₁, hA', List.length_cons] at hlen
    rcases hnone with hpos | hnil
    · rw [toInt_value hfits (by omega) (by omega)] at hpos
      unfold Account.value at hpos
      omega
    · rw [hA'] at hnil
      cases hnil
  | @woke _ B hd₁ hB =>
    obtain rfl := Option.some.inj (hA.symm.trans hB)
    cases b with
    | nil =>
      cases h₂
      cases hd
    | cons y b =>
      obtain ⟨K₃, hy, h₃⟩ := h₂
      obtain ⟨u, C, Q, rfl, hd₃, hC, hQ⟩ := hy.of_release rfl
      obtain rfl := Option.some.inj ((setSem_same K₁ s _).symm.trans hC)
      have htu : t = u := (List.cons.inj (hA'.symm.trans hQ)).1
      obtain ⟨c, rfl⟩ := runs_ready h₃ hd₃ hd
      exact ⟨c, by rw [htu]⟩
  | plain _ hp => cases hp

theorem counted_of_runs (h : Runs Reads empty (before ++ .initialized s v :: after) K)
    (hd : K.due = .nothing) (hf : .freed s MemoryAllocator.memSuccess ∉ after)
    (hw : Log.waits s after < 2 ^ 31) (hv : v + Log.signals s after < 2 ^ 31) :
    ∃ A, K.sem s = some A ∧ Counted s v after (toInt (intBits A.value)) A.suspended := by
  obtain ⟨A, hA, hinit, hwaits, hsignals, hsusp⟩ := runs_initialized h hf
  have hfits : A.Fits := ⟨by omega, by omega⟩
  have hlen := (runs_sound h s A hA hfits (by simp [Closing, hd])).length
  have hval := toInt_value hfits (d := 0) (by omega) (by have := hfits.given; omega)
  rw [Int.add_zero] at hval
  simp only [Ledger.waiting, Ledger.releasing, hd] at hlen
  refine ⟨A, hA, ?_, ?_, ?_, hsusp, fun a t R b hl hq => ?_, fun a t e b hl => ?_⟩
  · rw [hval, Account.value, hinit, hwaits, hsignals]
  · rw [hval, Account.value]
    omega
  · have hcount : (Log.blocked s after).length = (Log.released s after).length + A.suspended.length := by
      rw [hsusp, List.length_append]
    have hle : (Log.blocked s after).length ≤ Log.waits s after := by
      obtain ⟨K₁, -, K₂, hx, h₂⟩ := runs_append.mp h
      have hle := runs_blocked_le h₂ s
      have hzero : K₂.waiting s = 0 := by
        cases hx with
        | initialized hd₁ => simp [Ledger.waiting, setSem, hd₁]
        | plain _ hp => cases hp
      omega
    unfold Log.granted
    omega
  · subst hl
    rw [List.mem_append, not_or] at hf
    rw [Log.signals_append] at hv
    rw [Log.waits_append] at hw
    refine found_of_runs h hd hf.1 ?_ (by omega) hq
    have hone : Log.signals s (.signalled s :: b) = 1 + Log.signals s b := by
      rw [← List.singleton_append, Log.signals_append]
      simp [Log.signals]
    omega
  · subst hl
    rw [List.mem_append, not_or] at hf
    rw [← List.cons_append, ← List.append_assoc] at h
    obtain ⟨c, hc⟩ := once_of_runs h hd fun hm => hf.2 (List.mem_cons_of_mem _ hm)
    rcases List.eq_nil_or_concat a with rfl | ⟨a, x, rfl⟩
    · cases (List.append_inj' hc rfl).2
    · rw [List.concat_eq_append, ← List.cons_append, ← List.append_assoc] at hc
      rw [List.concat_eq_append, (List.append_inj' hc rfl).2]
      exact ⟨a, rfl⟩

end Log

/-- Semaphores count, suspend and release as their values say, whatever the threads do and in whatever
order. -/
theorem semaphores_count (h : Reach L (LeftoverRejected L) M) : SemaphoresCount M := by
  obtain ⟨σ, K, hrests, hK, htrace⟩ := reach_books h
  intro before after s v htr hv hf hw hs
  have hruns : Runs Reads empty (before ++ .initialized s v :: after) K := by
    rw [← htr, ← htrace]
    exact hK.runs
  obtain ⟨A, hA, hcounted⟩ := counted_of_runs hruns hK.due hf hw hs
  have hmem : s ∈ σ.owners.semaphores L := by
    by_contra hno
    rw [hK.of.dead s hno] at hA
    cases hA
  obtain ⟨B, hB, hsusp, hbits⟩ := hK.of.sem s hmem
  obtain rfl := Option.some.inj (hA.symm.trans hB)
  have hQ := hrests.inside.holds.queues
  have hvalue : M.mem.field s Field.value = intBits A.value := (hQ.bits s hmem).1.trans hbits
  refine ⟨A.suspended, ?_, hvalue ▸ hcounted⟩
  rw [hsusp]
  exact hQ.waiting s hmem

/-- A thread waits on a semaphore, whose value is -1. -/
theorem semaphores_count_joined : ∃ M, Reach roomyImage (LeftoverRejected roomyImage) M ∧
    M.mem.field 34880 Field.joinSem = 39360 ∧ toInt (M.mem.field 39360 Field.value) = -1 ∧
    SemaphoresCount M := by
  obtain ⟨M, hr, -, -, hjoin, hvalue, -⟩ := joiner_waits
  exact ⟨M, hr, hjoin, by rw [hvalue]; decide, semaphores_count hr⟩

/-! ### What a wait returns -/

section Log

variable {K : Ledger} {before after rest : List Action} {s v t : Nat} {code : Int}

theorem ready_of_runs {e : Bool} (h : Runs Reads empty (before ++ .released t s e :: after) K)
    (hd : K.due = .nothing) : ∃ c, after = .readied t :: c := by
  obtain ⟨K₁, h₁, K₂, hx, h₂⟩ := runs_append.mp h
  cases hx with
  | released => exact runs_ready h₂ rfl hd
  | failed => exact runs_ready h₂ rfl hd
  | plain _ hp => cases hp

end Log

/-- The scheduler holds the threads that it has been given and has not handed out, in order; a thread
that is behind `k` others is the next one after these, and no thread is handed out twice before it. -/
structure RoundRobin (L : Layout) (M : Machine) : Prop where
  queue : ∃ R, IsList M.mem.view L.scheduler R ∧
    Log.readied M.globals.trace = Log.picked M.globals.trace ++ R
  turn : ∀ before t after k, M.globals.trace = before ++ .readied t :: after →
    (Log.readied before).length = (Log.picked before).length + k →
    (∀ u, (Log.picked after)[k]? = some u → u = t) ∧ t ∉ (Log.picked after).take k ∧
      ((Log.picked after).take (k + 1)).Nodup

theorem turn_of_runs {K : Ledger} {before after : List Action} {t k : Nat}
    (h : Runs Reads empty (before ++ .readied t :: after) K)
    (hk : (Log.readied before).length = (Log.picked before).length + k) :
    (∀ u, (Log.picked after)[k]? = some u → u = t) ∧ t ∉ (Log.picked after).take k ∧
      ((Log.picked after).take (k + 1)).Nodup := by
  obtain ⟨K₁, h₁, h₂⟩ := runs_append.mp h
  have hbefore := runs_readied h₁
  have hall := runs_readied h₂
  have hnodup : (K₁.ready ++ [t]).Nodup := by
    obtain ⟨K₂, hx, -⟩ := h₂
    have hn := hx.ready_nodup (runs_nodup h₁)
    have hr := hx.ready
    simp only [Log.readied, Log.picked, List.filterMap_cons, List.filterMap_nil, List.nil_append] at hr
    rwa [hr]
  have hlen : K₁.ready.length = k := by
    have := congrArg List.length hbefore
    simp only [empty, List.nil_append, List.length_append] at this
    omega
  -- the threads ahead, the thread and what follows are picked in this order
  have hpicks : K₁.ready ++ [t] ++ Log.readied after = Log.picked after ++ K.ready := by
    rw [← List.singleton_append, Log.readied_append, Log.picked_append] at hall
    simpa [Log.readied, Log.picked] using hall
  have htake : (Log.picked after).take (k + 1) <+: K₁.ready ++ [t] := by
    have hpre : (Log.picked after).take (k + 1) <+: K₁.ready ++ [t] ++ Log.readied after := by
      rw [hpicks]
      exact (List.take_prefix _ _).trans (List.prefix_append _ _)
    refine List.prefix_of_prefix_length_le hpre (List.prefix_append _ _) ?_
    rw [List.length_append, hlen, List.length_singleton]
    exact List.length_take_le _ _
  refine ⟨fun u hu => ?_, fun ht => ?_, hnodup.sublist htake.sublist⟩
  · have hget : (K₁.ready ++ [t] ++ Log.readied after)[k]? = (Log.picked after ++ K.ready)[k]? := by
      rw [hpicks]
    rw [List.getElem?_append_left (by rw [List.length_append, hlen]; simp),
      List.getElem?_append_right (by omega), hlen, Nat.sub_self,
      List.getElem?_append_left (List.getElem?_eq_some_iff.mp hu).1, hu] at hget
    exact (Option.some.inj hget).symm
  · have hsub : (Log.picked after).take k <+: K₁.ready := by
      have hpre : (Log.picked after).take k <+: K₁.ready ++ [t] ++ Log.readied after := by
        rw [hpicks]
        exact (List.take_prefix _ _).trans (List.prefix_append _ _)
      rw [List.append_assoc] at hpre
      refine List.prefix_of_prefix_length_le hpre (List.prefix_append _ _) ?_
      rw [hlen]
      exact List.length_take_le _ _
    exact (List.nodup_append.mp hnodup).2.2 t (hsub.subset ht) t (List.mem_singleton_self t) rfl

/-- Threads run in the order in which they have become ready, in every run in which `free` rejects what
a `thread_create` that finds no kernel stack takes for a semaphore. -/
theorem round_robin (h : Reach L (LeftoverRejected L) M) : RoundRobin L M := by
  obtain ⟨σ, K, hrests, hK, htrace⟩ := reach_books h
  refine ⟨⟨σ.abs.ready, hrests.inside.holds.queues.ready, ?_⟩, fun before t after k hl hk => ?_⟩
  · rw [← htrace, ← hK.of.ready]
    exact runs_readied hK.runs
  · have hruns : Runs Reads empty (before ++ .readied t :: after) K := by
      rw [← hl, ← htrace]
      exact hK.runs
    exact turn_of_runs hruns hk

/-- The flush thread and a new one have run in turn. -/
theorem round_robin_joined : ∃ M, Reach roomyImage (LeftoverRejected roomyImage) M ∧
    M.globals.handles.threads = [34880, 26240] ∧ M.globals.currentTcb = 34880 ∧
    RoundRobin roomyImage M := by
  obtain ⟨M, hr, hcur, hthreads, -⟩ := joiner_waits
  exact ⟨M, hr, hthreads, hcur, round_robin hr⟩

/-! ### The flush thread -/

/-- The flush thread runs or is ready, the scheduler has never handed out null, and no step goes wrong
for want of a thread. -/
structure FlushAwake (L : Layout) (M : Machine) : Prop where
  awake : M.globals.handles.flush = M.globals.currentTcb ∨
    ∃ R, IsList M.mem.view L.scheduler R ∧ M.globals.handles.flush ∈ R
  picked : ∀ t, .picked t ∈ M.globals.trace → t ≠ 0
  current : M.globals.currentTcb ≠ 0
  step : ∀ e, Allowed L M e → LeftoverRejected L M e → M.step L e = none → Rests.Stuck M e

/-- The flush thread is awake in every run in which `free` rejects what a `thread_create` that finds no
kernel stack takes for a semaphore. -/
theorem flush_awake (h : Reach L (LeftoverRejected L) M) : FlushAwake L M := by
  obtain ⟨σ, K, hrests, hK, htrace⟩ := reach_books h
  have hflush := hrests.inside.inv.2
  refine ⟨?_, fun t ht => ?_, ?_, fun e ha hok hnone => ?_⟩
  · have hmem := (hrests.inside.awake hflush).2
    rw [hrests.inside.running.moving, hrests.current, hrests.flush] at hmem
    rcases List.mem_cons.mp hmem with heq | hm
    · exact .inl heq
    · exact .inr ⟨_, hrests.inside.holds.queues.ready, hm⟩
  · rw [← htrace] at ht
    refine runs_picked hK.runs (List.mem_filterMap.mpr ⟨_, ht, rfl⟩)
  · rw [← hrests.current]
    exact (hrests.inside.holds.current_pos hrests.inside.running).ne'
  · have hkept := (kept_booked L).and (kept_flush L)
    rcases hrests.step hkept hflush ha hok with ⟨-, hstuck⟩ | ⟨M', -, hs, -⟩
    · exact hstuck
    · rw [hnone] at hs
      cases hs

/-- A new thread runs while `main` waits for it: the flush thread is ready. -/
theorem flush_awake_joined : ∃ M, Reach roomyImage (LeftoverRejected roomyImage) M ∧
    M.globals.currentTcb = 34880 ∧
    M.mem.field roomyImage.mainTcb Field.status = TCBStatus.suspended.code ∧ FlushAwake roomyImage M := by
  obtain ⟨M, hr, hcur, -, -, -, hstatus⟩ := joiner_waits
  exact ⟨M, hr, hcur, hstatus, flush_awake hr⟩

end Os1Kernel
