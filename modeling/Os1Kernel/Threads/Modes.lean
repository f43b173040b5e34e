import Os1Kernel.Threads.Lost

/-! The modes in which the threads run: `sstatus` is one register for all of them, and each trap
returns to the mode of the thread that it returns to. -/

namespace Os1Kernel

open Memory

namespace Log

/-- The modes of the threads after an action, `true` for supervisor mode: a call of `set_user_mode`
leaves it, and a new thread has the mode of the one that creates it. -/
def mode (f : Nat → Bool) : Action → Nat → Bool
  | .called t code _ => if code = 0xff then Function.update f t false else f
  | .created c h => Function.update f h (f c)
  | _ => f

def modes (l : List Action) : Nat → Bool := l.foldl mode fun _ => true

variable {l q : List Action} {x : Action} {t : Nat}

theorem modes_append : modes (l ++ q) = q.foldl mode (modes l) := List.foldl_append ..

theorem mode_called (f : Nat → Bool) (t code p0 : Nat) : mode f (.called t code p0) =
    if code = 0xff then Function.update f t false else f := rfl

theorem modes_snoc : modes (l ++ [x]) = mode (modes l) x := modes_append

/-- Other actions leave the modes alone. -/
theorem modes_same (h : ∀ x ∈ q, ∀ f, mode f x = f) : modes (l ++ q) = modes l := by
  rw [modes_append]
  induction q with
  | nil => rfl
  | cons x q ih =>
    rw [List.foldl_cons, h x List.mem_cons_self]
    exact ih fun y hy => h y (List.mem_cons_of_mem _ hy)

/-- The mode of a thread that does not call `set_user_mode` stays. -/
theorem modes_stay (hu : ∀ p0, .called t 0xff p0 ∉ q) (hc : ∀ c, .created c t ∉ q) :
    modes (l ++ q) t = modes l t := by
  induction q using List.reverseRecOn with
  | nil => rw [List.append_nil]
  | append_singleton q x ih =>
    have hrest := ih (fun p0 hm => hu p0 (List.mem_append_left _ hm))
      fun c hm => hc c (List.mem_append_left _ hm)
    rw [← List.append_assoc, modes_snoc, ← hrest]
    cases x with
    | called u code p0 =>
      rw [mode_called]
      split
      · rename_i hcode
        refine Function.update_of_ne (fun heq => hu p0 ?_) _ _
        rw [heq, ← hcode]
        exact List.mem_append_right _ (List.mem_singleton_self _)
      · rfl
    | created c h =>
      refine Function.update_of_ne (fun heq => hc c ?_) _ _
      rw [heq]
      exact List.mem_append_right _ (List.mem_singleton_self _)
    | _ => rfl

/-- A thread does not come back from user mode. -/
theorem modes_user (hl : modes l t = false) (hc : ∀ c, .created c t ∉ q) :
    modes (l ++ q) t = false := by
  induction q using List.reverseRecOn with
  | nil => rwa [List.append_nil]
  | append_singleton q x ih =>
    have hrest := ih fun c hm => hc c (List.mem_append_left _ hm)
    rw [← List.append_assoc, modes_snoc]
    cases x with
    | called u code p0 =>
      rw [mode_called]
      split
      · by_cases htu : t = u
        · rw [htu, Function.update_self]
        · rwa [Function.update_of_ne htu]
      · exact hrest
    | created c h =>
      refine (Function.update_of_ne (fun heq => hc c ?_) _ _).trans hrest
      rw [heq]
      exact List.mem_append_right _ (List.mem_singleton_self _)
    | _ => exact hrest

end Log

/-! ### What steps add to the log -/

/-- The actions of a signal and of the end of a semaphore. -/
def Action.wakes : Action → Bool
  | .signalled _ | .released .. | .readied _ => true
  | _ => false

namespace Spec

variable (σ : Spec) (s : Nat)

theorem signal_adds : ∃ q, (σ.signal s).globals =
    { σ.globals with trace := σ.globals.trace ++ q } ∧ ∀ x ∈ q, x.wakes = true := by
  have hone : ∃ q, (σ.signalStart s).globals = { σ.globals with trace := σ.globals.trace ++ q } ∧
      ∀ x ∈ q, x.wakes = true := ⟨[.signalled s], rfl, by simp [Action.wakes]⟩
  unfold signal
  split
  · split
    · exact hone
    · rename_i t R _
      refine ⟨[.signalled s, .released t s false, .readied t], ?_, by simp [Action.wakes]⟩
      simp [release, signalStart, setBits, log, on]
  · exact hone

theorem releaseAll_adds (xs : List Nat) : ∃ q, (σ.releaseAll s xs).globals =
    { σ.globals with trace := σ.globals.trace ++ q } ∧ ∀ x ∈ q, x.wakes = true := by
  induction xs generalizing σ with
  | nil => exact ⟨[], by rw [List.append_nil]; rfl, by simp⟩
  | cons t R ih =>
    obtain ⟨q, hg, hq⟩ := ih (σ.release s t R true)
    refine ⟨.released t s true :: .readied t :: q, ?_, ?_⟩
    · rw [releaseAll, hg]
      simp [release, log, on]
    · simpa [Action.wakes] using hq

end Spec

/-! ### The modes of the abstract machine -/

/-- The modes are those that the log tells. -/
def Moded (σ : Spec) : Prop := σ.mode = Log.modes σ.globals.trace

namespace Moded

variable {σ τ : Spec} {s : Nat} {x : Action} {q : List Action}

theorem same (h : Moded σ) (hmode : τ.mode = σ.mode) (htrace : τ.globals.trace = σ.globals.trace) :
    Moded τ := by
  rw [Moded, hmode, htrace]
  exact h

theorem snoc (h : Moded σ) (hmode : τ.mode = Log.mode σ.mode x)
    (htrace : τ.globals.trace = σ.globals.trace ++ [x]) : Moded τ := by
  rw [Moded, hmode, htrace, Log.modes_snoc, ← h]

theorem log (h : Moded σ) (hx : ∀ f, Log.mode f x = f) : Moded (σ.log x) :=
  h.snoc (hx σ.mode).symm rfl

theorem extend (h : Moded σ) (hmode : τ.mode = σ.mode)
    (htrace : τ.globals.trace = σ.globals.trace ++ q) (hq : ∀ x ∈ q, ∀ f, Log.mode f x = f) :
    Moded τ := by
  rw [Moded, hmode, htrace, Log.modes_same hq]
  exact h

theorem of_wakes (hq : ∀ x ∈ q, x.wakes = true) : ∀ x ∈ q, ∀ f, Log.mode f x = f := by
  intro x hx f
  have hwakes := hq x hx
  cases x <;> first | rfl | cases hwakes

theorem releaseAll (h : Moded σ) (s : Nat) (xs : List Nat) : Moded (σ.releaseAll s xs) := by
  obtain ⟨q, hg, hq⟩ := σ.releaseAll_adds s xs
  exact h.extend (Inside.releaseAll_same σ s xs).2.2.2.2.2.1 (by rw [hg]) (of_wakes hq)

theorem signal (h : Moded σ) (s : Nat) : Moded (σ.signal s) := by
  obtain ⟨q, hg, hq⟩ := σ.signal_adds s
  exact h.extend (Inside.signal_same σ s).2.2.2.2.2.1 (by rw [hg]) (of_wakes hq)

/-- The end of the running thread. -/
theorem exit (h : Moded σ) (W : Owners) (fbHead : Nat) : Moded (σ.exit W fbHead) := by
  have hend : Moded ((σ.log (.terminated σ.current)).releaseAll (σ.owners.join σ.current)
      (σ.abs.waiting (σ.owners.join σ.current))) := Moded.releaseAll (h.log fun _ => rfl) _ _
  exact (((hend.log fun _ => rfl).log fun _ => rfl).log fun _ => rfl).log fun _ => rfl

theorem tick (h : Moded σ) : Moded σ.tick := by
  have hwake : Moded σ.wake := by
    refine h.extend rfl rfl fun x hx => ?_
    obtain ⟨t, -, rfl⟩ := List.mem_map.mp hx
    exact fun _ => rfl
  exact (Moded.log (x := .ticked) (hwake.same (τ := σ.wake.on { σ.wake.globals with
    timerTicks := u64 (σ.globals.timerTicks + 1) }) rfl rfl)) fun _ => rfl

theorem resume (h : Moded σ) (L : Layout) : Moded (σ.resume L) := by
  have hafter (s : Nat) : Moded (σ.reset.afterBlock s) := h.log fun _ => rfl
  unfold Spec.resume
  cases σ.abs.cont σ.current with
  | fresh => exact h.log fun _ => rfl
  | preempted => exact h
  | dispatched => exact h
  | joining s => exact hafter s
  | waiting s => exact hafter s
  | reading => exact (hafter L.getcSem).log fun _ => rfl
  | writing p0 => exact (hafter L.putcSem).log fun _ => rfl

theorem requeue (h : Moded σ) (c : Cont) : Moded (σ.requeue c) := h.log fun _ => rfl

theorem switch (h : Moded σ) (t : Nat) (R : List Nat) (sstatus : Nat) :
    Moded (σ.switch t R sstatus) := h.log fun _ => rfl

theorem pass (h : Moded σ) : Moded (σ.pass s) := by
  have hstart : Moded (σ.waitStart s) := h.log fun _ => rfl
  exact hstart.log fun _ => rfl

theorem block (h : Moded σ) (c : Cont) : Moded (σ.block s c) := by
  have hstart : Moded (σ.waitStart s) := h.log fun _ => rfl
  exact hstart.log fun _ => rfl

theorem called (h : Moded σ) {code : Nat} (p0 : Nat) (hcode : code ≠ 0xff) :
    Moded (σ.called code p0) := h.log fun _ => if_neg hcode

end Moded

/-- The steps keep the modes. -/
theorem kept_moded (L : Layout) : Kept L Moded := by
  intro σ σ' hs h
  cases hs with
  | called _ _ _ p0 hcode => exact h.called p0 hcode.1
  | returned => exact h.log fun _ => rfl
  | pass => exact h.pass
  | passRead =>
    have hpass : Moded (σ.pass L.getcSem) := h.pass
    exact hpass.log fun _ => rfl
  | passWrite _ _ p0 =>
    have hpass : Moded ((σ.called 0x42 p0).pass L.putcSem) := (h.called p0 (by decide)).pass
    exact hpass.log fun _ => rfl
  | blockWrite _ _ p0 => exact ((h.called p0 (by decide)).block _).switch _ _ _
  | block => exact (h.block _).switch _ _ _
  | signal => exact h.signal _
  | receive _ _ temp =>
    have hput : Moded ((σ.on { σ.globals with getcBuffer := σ.globals.getcBuffer.put temp }).log
      (.received temp)) := h.log fun _ => rfl
    exact hput.signal _
  | flushChar =>
    have hget : Moded (σ.on { σ.globals with
      putcBuffer := σ.globals.putcBuffer.get.2
      console := σ.globals.console ++ [σ.globals.putcBuffer.get.1] }) := h
    exact hget.signal _
  | dispatch => exact (h.requeue _).switch _ _ _
  | @sleep _ _ k =>
    have hsleep : Moded (σ.sleep k) := h
    exact hsleep.switch _ _ _
  | tick => exact h.tick
  | preempt => exact (h.tick.requeue _).switch _ _ _
  | resume => exact h.resume L
  | userMode _ _ p0 sstatus =>
    refine h.snoc (x := .called σ.current 0xff p0) ?_ rfl
    rw [Log.mode_called, if_pos rfl]
    rfl
  | sstatus | retile | flush => exact h
  | openSem | freed => exact h.log fun _ => rfl
  | @closeSem _ _ s W fbHead =>
    have hend : Moded ((σ.releaseAll s (σ.abs.waiting s)).retile W fbHead) := h.releaseAll s _
    exact hend.log fun _ => rfl
  | @create _ _ t j usr kernel W fbHead =>
    have hopen : Moded ((σ.retile W fbHead).log (.initialized j 0)) := h.log fun _ => rfl
    have hcreated : Moded (({ (σ.retile W fbHead).log (.initialized j 0) with
      mode := Function.update σ.mode t (σ.mode σ.current) }).log (.created σ.current t)) :=
      hopen.snoc rfl rfl
    exact (Moded.log (x := .readied t) hcreated fun _ => rfl)
  | @exit _ _ n x W R fbHead => exact (h.exit W fbHead).switch n R x

theorem moded_initial (L : Layout) (mainStack : Nat) (tiles : List Tiling.Tile) (fbHead sstatus : Nat) :
    Moded (.initial L mainStack tiles fbHead sstatus) := rfl

/-- The modes of a machine. -/
structure ModesKept (M : Machine) : Prop where
  /-- The code of a thread runs in the mode that the thread has, -/
  mode : M.supervisor = Log.modes M.globals.trace M.globals.currentTcb
  /-- which is user mode once it has called `set_user_mode`, -/
  user : ∀ before p0 after, M.globals.trace = before ++ .called M.globals.currentTcb 0xff p0 :: after →
    (∀ c, .created c M.globals.currentTcb ∉ after) → M.supervisor = false
  /-- or when a thread in user mode has created it, -/
  child : ∀ before c after, M.globals.trace = before ++ .created c M.globals.currentTcb :: after →
    Log.modes before c = false → (∀ c, .created c M.globals.currentTcb ∉ after) → M.supervisor = false
  /-- and no other thread and no switch changes it. -/
  kept : ∀ before after, M.globals.trace = before ++ after →
    (∀ p0, .called M.globals.currentTcb 0xff p0 ∉ after) →
    (∀ c, .created c M.globals.currentTcb ∉ after) →
    M.supervisor = Log.modes before M.globals.currentTcb

theorem ModesKept.of_mode {M : Machine}
    (h : M.supervisor = Log.modes M.globals.trace M.globals.currentTcb) : ModesKept M where
  mode := h
  user before p0 after hl hc := by
    rw [h, hl, ← List.singleton_append, ← List.append_assoc]
    refine Log.modes_user ?_ hc
    rw [Log.modes_snoc, Log.mode_called, if_pos rfl]
    exact Function.update_self ..
  child before c after hl hm hc := by
    rw [h, hl, ← List.singleton_append, ← List.append_assoc]
    refine Log.modes_user ?_ hc
    rw [Log.modes_snoc]
    exact (Function.update_self ..).trans hm
  kept before after hl hu hc := by
    rw [h, hl]
    exact Log.modes_stay hu hc

/-- Privilege never rises in any run in which `free` rejects what a `thread_create` that finds no kernel
stack takes for a semaphore. -/
theorem modes_kept {L : Layout} {M : Machine} (h : Reach L (LeftoverRejected L) M) : ModesKept M := by
  obtain ⟨σ, hrests⟩ := reach_rests (kept_moded L) (moded_initial L) h
  refine .of_mode ?_
  have hinv : σ.mode = Log.modes σ.globals.trace := hrests.inside.inv.1
  rw [hrests.supervisor, hinv, hrests.current, hrests.of_sstatus]

/-- A new thread has called `set_user_mode`. -/
theorem modes_kept_joined : ∃ M, Reach roomyImage (LeftoverRejected roomyImage) M ∧
    M.globals.currentTcb = 34880 ∧ M.supervisor = false ∧ ModesKept M := by
  obtain ⟨M₀, M, σ, h, hcur, hmode⟩ := joined_userMode
  exact ⟨M, h.reach, h.rests.current.symm.trans hcur, hmode, modes_kept h.reach⟩

/-! ### The flush thread starts in user mode -/

namespace Lost

/-- The flush thread is created in supervisor mode. -/
theorem booted_modes {M : Machine} (hb : boot bootImage (fun _ => 0) 0 = some M) (t : Nat) :
    Log.modes M.globals.trace t = true := by
  obtain ⟨σ, hrests, hbooted⟩ := boot_rests (kept_true bootImage) (fun _ _ _ _ => trivial) hb
  obtain ⟨j, a, b, htrace⟩ := hbooted.trace
  have hsame : M.globals.trace = σ.globals.trace := by rw [hrests.of_sstatus]
  rw [hsame, htrace]
  simp only [Log.modes, List.foldl_cons, List.foldl_nil, Log.mode]
  simp

theorem mode_of_idle {x : Action} (hx : x.idle = true) (f : Nat → Bool) : Log.mode f x = f := by
  cases x with
  | called t code p0 => exact if_neg (of_decide_eq_true hx)
  | ecallReturned => rfl
  | freed => rfl
  | _ => cases hx

/-- User code may change the status register in the context of what it has forged. -/
theorem Forged.sstatus {m : Mem} {F B : Nat} {L : Layout} (hb : Blocks L F B) (h : Forged L F B m.view)
    (x : Nat) : Forged L F B (m.assign F Field.sstatus x).view := by
  have hstart := hb.start
  have hapart := hb.apart
  have hp := L.places
  have hoff : offset Field.sstatus + size Field.sstatus ≤ 360 := by decide
  have hstatic {a : Nat} {f : Field} (ha : a + offset f + size f ≤ L.heap.start) :
      (m.assign F Field.sstatus x).view a f = m.view a f :=
    load_store_apart (.inr (by omega))
  have hblock {f : Field} (hf : f.ofTcb = true) :
      (m.assign F Field.sstatus x).view B f = m.view B f := load_store_apart (.inl (by omega))
  have hsame {f : Field} (hf : f.ofTcb = true) (hne : f ≠ .sstatus) :
      (m.assign F Field.sstatus x).view F f = m.view F f := field_assign_ne rfl hf hne
  have hcells : offset Field.value = 0 ∧ size Field.value = 4 ∧ offset Field.head = 0 ∧
    size Field.head = 8 ∧ offset Field.tail = 8 ∧ size Field.tail = 8 := ⟨rfl, rfl, rfl, rfl, rfl, rfl⟩
  refine ⟨(hstatic (by omega)).trans h.value, h.waiting.congr ⟨hstatic (by omega), hstatic (by omega)⟩
    (by simp), (hstatic (by omega)).trans h.head, (hstatic (by omega)).trans h.tail,
    (hsame rfl (by decide)).trans h.joinSem, (hsame rfl (by decide)).trans h.next,
    (hsame rfl (by decide)).trans h.ra, (hblock rfl).trans h.last, (hblock rfl).trans h.start⟩

end Lost

/-- The flush thread was created in supervisor mode and starts in user mode, as user code has written
in its block. -/
theorem modes_not_kept : ¬∀ (L : Layout) (M : Machine), Reach L (fun _ _ => True) M → ModesKept M := by
  intro hall
  obtain ⟨M₀, M, hs, ts, hb, hr, h, hthreads, hflush, hmem, hforged⟩ := Lost.flush_forged
  obtain ⟨q, htrace, hq⟩ := h.trace
  have hne : M.globals.currentTcb ≠ M.globals.handles.flush := by
    rw [h.current, h.handles, hflush]
    decide
  have hr₁ := hr.step (.user (M.mem.assign 17472 Field.sstatus 0)) (allowed_assign rfl hne
    (n := 6) (by rw [h.handles]; exact hmem) (by decide)) trivial rfl
  obtain ⟨M₂, v, g, hs₂, -, ⟨-, hg⟩, hmode, y, hM₂⟩ := Lost.trap_started
    Lost.blocks_bootImage.separate (Sim.self _ (M.mem.assign 17472 Field.sstatus 0))
    (Lost.wp_join (g := Machine.globals (Machine.enter { M with
      mem := M.mem.assign 17472 Field.sstatus 0 })) Lost.uses_own Lost.blocks_bootImage
      (hforged.sstatus Lost.blocks_bootImage 0) h.current h.context)
  have hr₂ := hr₁.step (.ecall 0x14 17472 0 0 0) (allowed_join hne (by
    change 17472 ∈ M.globals.handles.threads
    rw [h.handles, hthreads]
    exact List.mem_cons_self)) trivial ((step_ecall rfl rfl rfl rfl rfl).trans hs₂)
  have hkept := (hall _ _ hr₂).mode
  have huser : M₂.supervisor = false := by
    rw [hmode, hg]
    change spp ((M.mem.assign 17472 Field.sstatus 0).field 17472 Field.sstatus) = false
    rw [field_assign_same]
    rfl
  have hcur : M₂.globals.currentTcb = 17472 := by rw [hM₂, hg]
  have hlog : M₂.globals.trace = M₀.globals.trace ++ (q ++ [.called bootImage.mainTcb 0x14 17472,
      .waitCalled bootImage.mainTcb bootImage.getcSem, .blocked bootImage.mainTcb bootImage.getcSem,
      .picked 17472, .started 17472 g.timerTicks]) := by
    rw [hM₂, hg]
    change M.globals.trace ++ _ ++ _ = _
    rw [htrace]
    simp
  rw [huser, hcur, hlog, Log.modes_same, Lost.booted_modes hb] at hkept
  · cases hkept
  · intro x hx f
    rcases List.mem_append.mp hx with hx | hx
    · exact Lost.mode_of_idle (hq x hx) f
    · simp only [List.mem_cons, List.not_mem_nil, or_false] at hx
      rcases hx with rfl | rfl | rfl | rfl | rfl
      · rw [Log.mode_called, if_neg (by decide)]
      · rfl
      · rfl
      · rfl
      · rfl

end Os1Kernel
