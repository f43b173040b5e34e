import Os1Kernel.Threads.Inside

/-! The system calls and handlers that leave the heap alone, as steps of the abstract machine. -/

namespace Os1Kernel

open Memory

/-- The trap's program has ended. -/
def Returned (L : Layout) (S : Nat → Option (Kernel Unit)) (I : Spec → Prop) (W : Owners) :
    Unit → Cells → Globals → Prop :=
  fun _ v g => ∃ σ, g = σ.globals ∧ σ.owners = W ∧ Inside L S I σ v

/-- Another thread has been picked. -/
def Left (L : Layout) (S : Nat → Option (Kernel Unit)) (I : Spec → Prop) (W : Owners) :
    Switch → Kernel Unit → Cells → Globals → Prop :=
  fun sw k v g => ∃ σ, g = σ.globals ∧ σ.owners = W ∧ Away L S I σ sw k v

namespace Inside

variable {L : Layout} {S : Nat → Option (Kernel Unit)} {I : Spec → Prop} {σ : Spec} {v : Cells}
  {s : Nat} {T : Switch → Kernel Unit → Cells → Globals → Prop}

theorem context_cell (h : Inside L S I σ v) {f : Field} (hf : f.ofTcb = true) :
    σ.owners.cells L σ.globals.kCurrentContext f := by
  rw [h.running.context]
  exact Owners.cells_tcb (h.holds.current_mem h.running) hf

theorem called (h : Inside L S I σ v) (hI : Kept L I) {code : Nat} (p0 : Nat)
    (hcode : code ≠ 0xff ∧ code ≠ 0x42) : Inside L S I (σ.called code p0) v :=
  h.step hI (.called h.valid h.resuming code p0 hcode) (h.holds.log _) rfl rfl rfl (List.Subset.refl _)
    rfl rfl rfl h.running.mode rfl rfl

theorem setA0 (h : Inside L S I σ v) (x : Nat) :
    Inside L S I σ (v.set σ.globals.kCurrentContext .a0 x) :=
  { h with holds := h.holds.setA0 x }

/-- `setA0`, after which `p` runs. -/
theorem wp_setA0 (h : Inside L S I σ v) {x : Nat} {p : Unit → Kernel Unit}
    {Q : Unit → Cells → Globals → Prop}
    (hp : ∀ v', Inside L S I σ v' → (p ()).wp (σ.owners.cells L) v' σ.globals Q T) :
    (Os1Kernel.setA0 x >>= p).wp (σ.owners.cells L) v σ.globals Q T := by
  simp only [Os1Kernel.setA0, Prog.wp_bind, wp_globals, wp_wr]
  exact ⟨h.context_cell rfl, hp _ (h.setA0 x)⟩

/-- The end of a system call. -/
theorem wp_returned (h : Inside L S I σ v) (hI : Kept L I) {Q : Unit → Cells → Globals → Prop}
    (hQ : ∀ a0, Inside L S I (σ.returned a0) v → Q () v (σ.returned a0).globals) :
    ecallReturn.wp (σ.owners.cells L) v σ.globals Q T := by
  simp only [ecallReturn, Prog.wp_bind, wp_globals, wp_rd, wp_log]
  refine ⟨h.context_cell rfl, hQ (v σ.globals.kCurrentContext .a0) ?_⟩
  exact h.step hI (.returned h.valid h.resuming _) (h.holds.log _) rfl rfl rfl (List.Subset.refl _)
    rfl rfl rfl h.running.mode rfl rfl

theorem wp_return (h : Inside L S I σ v) (hI : Kept L I) :
    ecallReturn.wp (σ.owners.cells L) v σ.globals (Returned L S I σ.owners) T :=
  h.wp_returned hI fun a0 h' => ⟨σ.returned a0, rfl, rfl, h'⟩

theorem pass (h : Inside L S I σ v) (hI : Kept L I) {c : Cont} {v' : Cells} (hc : Reason L σ s c)
    (hcont : c = .joining s ∨ c = .waiting s) (hs : s ∈ σ.owners.semaphores L)
    (hle : 0 ≤ toInt (decBits (σ.abs.bits s))) (hholds : Holds L (σ.pass s) v') :
    Inside L S I (σ.pass s) v' :=
  h.step hI (.pass h.valid h.resuming hc hcont hs hle) hholds rfl rfl rfl (List.Subset.refl _)
    rfl rfl rfl h.running.mode rfl rfl

theorem mem_sems (hs : s ∈ σ.owners.sems) : s ∈ σ.owners.semaphores L := by
  simp [Owners.semaphores, hs]

theorem mem_join {t : Nat} (ht : t ∈ σ.owners.threads) :
    σ.owners.join t ∈ σ.owners.semaphores L := by
  simp only [Owners.semaphores, List.mem_cons, List.mem_append, List.mem_map]
  exact .inr (.inr (.inl ⟨t, ht, rfl⟩))

theorem mem_putc : L.putcSem ∈ σ.owners.semaphores L := List.mem_cons_self
theorem mem_getc : L.getcSem ∈ σ.owners.semaphores L := List.mem_cons_of_mem _ List.mem_cons_self

theorem wp_semWait (h : Inside L S I σ v) (hI : Kept L I) {p0 : Nat} (hp : p0 = 0 ∨ p0 ∈ σ.owners.sems)
    (hf : σ.globals.handles.flush ≠ 0) (hcur : σ.current ≠ σ.globals.handles.flush) :
    (semWaitCall L p0 >>= fun _ => ecallReturn).wp (σ.owners.cells L) v σ.globals
      (Returned L S I σ.owners) (Left L S I σ.owners) := by
  unfold semWaitCall
  split
  · have hs := hp.resolve_left (by assumption)
    rw [Prog.wp_bind, Prog.wp_bind]
    refine h.holds.wp_wait (c := .waiting p0) h.running (mem_sems hs) (by simp)
      (fun _ => h.ready_ne_nil hf hcur) (fun v' hle hv' => ?_) fun n R x v' sw hneg hR hv' hsw => ?_
    · have hpass := h.pass hI (.wait hs) (.inr rfl) (mem_sems hs) hle hv'
      exact Prog.wp_bind.mp (hpass.wp_setA0 fun v'' h'' => h''.wp_return hI)
    · exact ⟨_, rfl, rfl, h.away_block hI (.wait hs) (mem_sems hs) hneg hR hcur hv' hsw
        (by simp only [Cont.prog, bind_assoc])⟩
  · exact h.wp_return hI

theorem wp_threadJoin (h : Inside L S I σ v) (hI : Kept L I) {p0 : Nat}
    (hp : p0 = 0 ∨ p0 ∈ σ.owners.threads) (hf : σ.globals.handles.flush ≠ 0)
    (hcur : σ.current ≠ σ.globals.handles.flush) :
    (threadJoinCall L p0 >>= fun _ => ecallReturn).wp (σ.owners.cells L) v σ.globals
      (Returned L S I σ.owners) (Left L S I σ.owners) := by
  by_cases h0 : p0 = 0
  · simp only [threadJoinCall, h0, ne_eq, not_true, if_false, Prog.wp_bind, Prog.wp_pure]
    exact h.wp_return hI
  have ht := hp.resolve_left h0
  have hjoin := h.holds.base.joinSem p0 ht
  have hcell := Owners.cells_tcb (W := σ.owners) (List.mem_cons_of_mem L.mainTcb ht)
    (f := .joinSem) rfl
  have hs := mem_join (L := L) ht
  by_cases hj0 : σ.owners.join p0 = 0
  · simp only [threadJoinCall, h0, ne_eq, not_false_eq_true, if_true, Prog.wp_bind, wp_rd, hjoin, hj0,
      not_true, if_false, Prog.wp_pure]
    exact ⟨hcell, h.wp_return hI⟩
  simp only [threadJoinCall, h0, ne_eq, not_false_eq_true, if_true, Prog.wp_bind, wp_rd, hjoin, hj0]
  refine ⟨hcell, ?_⟩
  refine h.holds.wp_wait (c := .joining (σ.owners.join p0)) h.running hs (by simp)
    (fun _ => h.ready_ne_nil hf hcur) (fun v' hle hv' => ?_) fun n R x v' sw hneg hR hv' hsw => ?_
  · rw [Prog.wp_pure]
    exact (h.pass hI (.join ht) (.inl rfl) hs hle hv').wp_return hI
  · exact ⟨_, rfl, rfl, h.away_block hI (.join ht) hs hneg hR hcur hv' hsw
        (by simp only [Cont.prog, bind_assoc, pure_bind])⟩

theorem signal_same (σ : Spec) (s : Nat) : (σ.signal s).owners = σ.owners ∧
    (σ.signal s).abs.moving = σ.abs.moving ∧ σ.abs.ready ⊆ (σ.signal s).abs.ready ∧
    (σ.signal s).abs.cont = σ.abs.cont ∧ (σ.signal s).status = σ.status ∧
    (σ.signal s).mode = σ.mode ∧ (σ.signal s).resuming = σ.resuming ∧
    ∃ trace, (σ.signal s).globals = { σ.globals with trace } := by
  have hstart : (σ.signalStart s).abs.ready = σ.abs.ready := rfl
  unfold Spec.signal
  split
  · split
    · exact ⟨rfl, rfl, List.Subset.refl _, rfl, rfl, rfl, rfl, _, rfl⟩
    · exact ⟨rfl, rfl, List.subset_append_left _ _, rfl, rfl, rfl, rfl, _, rfl⟩
  · exact ⟨rfl, rfl, List.Subset.refl _, rfl, rfl, rfl, rfl, _, rfl⟩

/-- A step that ends with `signal`. -/
theorem signal {τ : Spec} {v' : Cells} (h : Inside L S I σ v) (hI : Kept L I)
    (hs : Step L σ (τ.signal s)) (hholds : Holds L (τ.signal s) v') (how : τ.owners = σ.owners)
    (habs : τ.abs = σ.abs) (hstatus : τ.status = σ.status) (hmode : τ.mode = σ.mode)
    (hresuming : τ.resuming = σ.resuming) (hcur : τ.current = σ.current)
    (hcontext : τ.globals.kCurrentContext = σ.globals.kCurrentContext)
    (hsstatus : τ.globals.sstatus = σ.globals.sstatus)
    (hhandles : τ.globals.handles = σ.globals.handles) : Inside L S I (τ.signal s) v' := by
  obtain ⟨h1, h2, h3, h4, h5, h6, h7, trace, hg⟩ := signal_same τ s
  have hcur' : (τ.signal s).current = σ.current := by
    rw [Spec.current, hg]
    exact hcur
  refine h.step hI hs hholds (h1.trans how) hcur' (by rw [h2, habs]) (by rwa [habs] at h3)
    (by rw [h4, habs]) (h5.trans hstatus) (by rw [hg]; exact hcontext) ?_ (h7.trans hresuming)
    (by rw [hg]; exact hhandles)
  rw [hcur', h6, hg, hmode]
  exact hsstatus ▸ h.running.mode

theorem wp_semSignal (h : Inside L S I σ v) (hI : Kept L I) {p0 : Nat}
    (hp : p0 = 0 ∨ p0 ∈ σ.owners.sems) :
    (semSignalCall L p0 >>= fun _ => ecallReturn).wp (σ.owners.cells L) v σ.globals
      (Returned L S I σ.owners) (Left L S I σ.owners) := by
  unfold semSignalCall
  split
  · have hs := hp.resolve_left (by assumption)
    rw [Prog.wp_bind, Prog.wp_bind]
    refine h.holds.wp_signal (mem_sems hs) fun v' hv' => ?_
    have hstep : Inside L S I (σ.signal p0) v' := h.signal hI (.signal h.valid h.resuming hs) hv' rfl
      rfl rfl rfl rfl rfl rfl rfl rfl
    have hown := (signal_same σ p0).1
    have hret : (Os1Kernel.setA0 (signExtend Sem.signalSuccess) >>= fun _ => ecallReturn).wp
        ((σ.signal p0).owners.cells L) v' (σ.signal p0).globals
        (Returned L S I (σ.signal p0).owners) (Left L S I σ.owners) :=
      hstep.wp_setA0 fun v'' h'' => h''.wp_return hI
    rw [hown] at hret
    exact Prog.wp_bind.mp hret
  · exact h.wp_return hI

theorem wp_dispatch (h : Inside L S I σ v) (hI : Kept L I) :
    (dispatch L >>= fun _ => ecallReturn).wp (σ.owners.cells L) v σ.globals
      (Returned L S I σ.owners) (Left L S I σ.owners) := by
  rw [Prog.wp_bind]
  refine h.holds.wp_dispatch (c := .dispatched) h.running (by decide) fun n R x v' sw hR hv' hsw => ?_
  exact ⟨_, rfl, rfl, h.away_dispatch hI (.inr rfl) hR hv' hsw rfl⟩

/-- `dispatch` at the end of an interrupt. -/
theorem wp_preempt (h : Inside L S I σ v) (hI : Kept L I) :
    (dispatch L).wp (σ.owners.cells L) v σ.globals (Returned L S I σ.owners)
      (Left L S I σ.owners) := by
  refine h.holds.wp_dispatch (c := .preempted) h.running (by decide) fun n R x v' sw hR hv' hsw => ?_
  exact ⟨_, rfl, rfl, h.away_dispatch hI (.inl rfl) hR hv' hsw rfl⟩

theorem wp_timeSleep (h : Inside L S I σ v) (hI : Kept L I) {p0 : Nat} (hp : p0 < 2 ^ 64)
    (hf : σ.globals.handles.flush ≠ 0) (hcur : σ.current ≠ σ.globals.handles.flush) :
    (timeSleepCall L p0 >>= fun _ => ecallReturn).wp (σ.owners.cells L) v σ.globals
      (Returned L S I σ.owners) (Left L S I σ.owners) := by
  unfold timeSleepCall
  split
  · rename_i hpos
    obtain ⟨n, R, hR⟩ := List.exists_cons_of_ne_nil (h.ready_ne_nil hf hcur)
    have hmem := h.holds.current_mem h.running
    rw [Prog.wp_bind, Prog.wp_bind, wp_globals, Prog.wp_bind]
    refine h.holds.wp_sleep h.running ⟨hpos, hp⟩ fun v' hst hv' => ?_
    simp only [Os1Kernel.setA0, Prog.wp_bind, wp_globals, wp_wr]
    refine ⟨h.context_cell rfl, ?_⟩
    have hset : Holds L (σ.sleep p0) (v'.set σ.globals.kCurrentContext .a0 (signExtend successSyscall)) :=
      hv'.setA0 _
    refine hset.wp_dispatch_asleep rfl h.running.context.symm hmem ?_ hR ?_ h.running.mode
      fun x v'' sw hv'' hsw => ?_
    · rw [View.set_field_ne (by decide)]
      exact hst
    · exact fun heq => absurd ((Function.update_self _ _ _).symm.trans heq) (by decide)
    · exact ⟨_, rfl, rfl, h.away_sleep hI ⟨hpos, hp⟩ hR hcur hv'' hsw rfl⟩
  · exact h.wp_return hI

/-- What a `putc` that does not block leaves as it was. -/
theorem store_same (τ : Spec) (s p0 : Nat) : ((τ.pass s).store p0).current = τ.current ∧
    ((τ.pass s).store p0).mode = τ.mode ∧ ((τ.pass s).store p0).resuming = τ.resuming ∧
    ((τ.pass s).store p0).globals.kCurrentContext = τ.globals.kCurrentContext ∧
    ((τ.pass s).store p0).globals.sstatus = τ.globals.sstatus ∧
    ((τ.pass s).store p0).globals.handles = τ.globals.handles := ⟨rfl, rfl, rfl, rfl, rfl, rfl⟩

theorem wp_getC (h : Inside L S I σ v) (hI : Kept L I)
    (hf : σ.globals.handles.flush ≠ 0) (hcur : σ.current ≠ σ.globals.handles.flush) :
    (getCCall L >>= fun _ => ecallReturn).wp (σ.owners.cells L) v σ.globals
      (Returned L S I σ.owners) (Left L S I σ.owners) := by
  unfold getCCall
  rw [Prog.wp_bind, Prog.wp_bind]
  refine h.holds.wp_wait (c := .reading) h.running mem_getc (by decide)
    (fun _ => h.ready_ne_nil hf hcur) (fun v' hle hv' => ?_) fun n R x v' sw hneg hR hv' hsw => ?_
  · have htake : Inside L S I (σ.pass L.getcSem).take v' :=
      h.step hI (.passRead h.valid h.resuming hle) hv'.take rfl rfl rfl
        (List.Subset.refl _) rfl rfl rfl h.running.mode rfl rfl
    simp only [takeChar, Prog.wp_bind, wp_globals, wp_modifyGlobals, wp_log]
    exact Prog.wp_bind.mp (htake.wp_setA0 fun v'' h'' => h''.wp_return hI)
  · exact ⟨_, rfl, rfl, h.away_block hI .read mem_getc hneg hR hcur hv' hsw
        (by simp only [Cont.prog, bind_assoc])⟩

/-- `putc`, after the start of `k_handle_ecall`. -/
theorem wp_putC (h : Inside L S I σ v) (hI : Kept L I) (p0 : Nat)
    (hf : σ.globals.handles.flush ≠ 0) (hcur : σ.current ≠ σ.globals.handles.flush) :
    (putCCall L p0 >>= fun _ => ecallReturn).wp (σ.owners.cells L) v (σ.called 0x42 p0).globals
      (Returned L S I σ.owners) (Left L S I σ.owners) := by
  have hcalled : Holds L (σ.called 0x42 p0) v := h.holds.log _
  have hrun : Holds.Running (σ.called 0x42 p0) :=
    ⟨h.running.moving, h.running.context, h.running.status, h.running.mode⟩
  have habs : (σ.called 0x42 p0).abs = σ.abs := rfl
  unfold putCCall
  rw [Prog.wp_bind, Prog.wp_bind]
  refine hcalled.wp_wait (c := .writing p0) hrun mem_putc (by simp)
    (fun _ => h.ready_ne_nil hf hcur) (fun v' hle hv' => ?_) fun n R x v' sw hneg hR hv' hsw => ?_
  · rw [habs] at hle
    obtain ⟨hcur', hmode, hres, hctx, hss, hhandles⟩ := store_same (σ.called 0x42 p0) L.putcSem p0
    have hstore : Inside L S I (((σ.called 0x42 p0).pass L.putcSem).store p0) v' :=
      h.step hI (.passWrite h.valid h.resuming p0 hle) (hv'.store p0) rfl hcur' rfl
        (List.Subset.refl _) rfl rfl hctx (by rw [hss, hmode, hcur']; exact hrun.mode) hres hhandles
    simp only [storeChar, Prog.wp_bind, wp_globals, wp_modifyGlobals, wp_log]
    exact hstore.wp_return hI
  · rw [habs] at hneg hR
    exact ⟨_, rfl, rfl, h.away hI (.blockWrite h.valid h.resuming p0 hneg hR) hv' hsw rfl rfl
      (h.ready_suspend hR hcur) rfl rfl rfl rfl rfl (by simp only [Cont.prog, bind_assoc])⟩

/-! ### Interrupts -/

/-- `k_handle_timer` -/
theorem wp_handleTimer (h : Inside L S I σ v) {Q : Unit → Cells → Globals → Prop}
    {T : Switch → Kernel Unit → Cells → Globals → Prop}
    (hQ : σ.tick.globals.timerTicks < defaultTimeSlice → ∀ v', Holds L σ.tick v' →
      Q () v' σ.tick.globals)
    (hT : defaultTimeSlice ≤ σ.tick.globals.timerTicks → ∀ v', Holds L σ.tick v' →
      (dispatch L).wp (σ.owners.cells L) v' σ.tick.globals Q T) :
    (handleTimer L).wp (σ.owners.cells L) v σ.globals Q T := by
  have hmem := h.holds.current_mem h.running
  unfold handleTimer
  rw [Prog.wp_bind]
  refine h.holds.wp_wake fun v' hv' => ?_
  have htick : Holds L σ.tick v' := hv'.tick
  simp only [Prog.wp_bind, wp_modifyGlobals, wp_log, wp_globals, wp_rd]
  refine ⟨Owners.cells_tcb hmem rfl, ?_⟩
  rw [show v' σ.wake.globals.currentTcb .timeSlice = defaultTimeSlice from htick.base.slice _ hmem]
  split
  · rename_i hle
    exact hT hle v' htick
  · rename_i hlt
    exact hQ (not_le.mp hlt) v' htick

/-- A tick in the thread's turn. -/
theorem tick {v' : Cells} (h : Inside L S I σ v) (hI : Kept L I)
    (hlt : σ.tick.globals.timerTicks < defaultTimeSlice) (hv' : Holds L σ.tick v') :
    Inside L S I σ.tick v' :=
  h.step hI (.tick h.valid h.resuming hlt) hv' rfl rfl rfl (List.subset_append_left _ _) rfl rfl rfl
    h.running.mode rfl rfl

theorem wp_timer (h : Inside L S I σ v) (hI : Kept L I) :
    (handleTimer L).wp (σ.owners.cells L) v σ.globals (Returned L S I σ.owners)
      (Left L S I σ.owners) := by
  refine h.wp_handleTimer (fun hlt v' hv' => ⟨σ.tick, rfl, rfl, h.tick hI hlt hv'⟩)
    fun hle v' hv' => ?_
  have hrun : Holds.Running σ.tick :=
    ⟨h.running.moving, h.running.context, h.running.status, h.running.mode⟩
  refine hv'.wp_dispatch (c := .preempted) hrun (by decide) fun n R x v'' sw hR hv'' hsw => ?_
  exact ⟨_, rfl, rfl, h.away hI (.preempt h.valid h.resuming hle hR) hv'' hsw rfl rfl
    (fun f hf _ => h.ready_requeue (List.subset_append_left _ _) hR f hf) rfl rfl rfl rfl rfl rfl⟩

theorem wp_console (h : Inside L S I σ v) (hI : Kept L I) (rx : Option UInt8) :
    (handleConsole L rx).wp (σ.owners.cells L) v σ.globals (Returned L S I σ.owners)
      (Left L S I σ.owners) := by
  cases rx with
  | none => exact ⟨_, rfl, rfl, h⟩
  | some temp =>
    simp only [handleConsole, fillGetcBuffer]
    rw [Prog.wp_bind, wp_globals]
    split
    · rename_i hlen
      simp only [Prog.wp_bind, wp_modifyGlobals, wp_log]
      have hput : Holds L ((σ.on { σ.globals with getcBuffer := σ.globals.getcBuffer.put temp }).log
          (.received temp)) v :=
        Holds.log (Holds.on (g := { σ.globals with getcBuffer := σ.globals.getcBuffer.put temp })
          h.holds ⟨rfl, rfl, rfl, rfl⟩) _
      refine hput.wp_signal mem_getc fun v' hv' => ?_
      have hstep : Inside L S I (σ.receive L temp) v' := h.signal hI
        (.receive h.valid h.resuming temp hlen) hv' rfl rfl rfl rfl rfl rfl rfl rfl rfl
      have hown : (σ.receive L temp).owners = σ.owners := (signal_same _ _).1
      have hret := hstep.wp_preempt hI
      rwa [hown] at hret
    · exact ⟨_, rfl, rfl, h⟩

theorem signal_sstatus (σ : Spec) (s x : Nat) :
    (σ.on { σ.globals with sstatus := x }).signal s =
      (σ.signal s).on { (σ.signal s).globals with sstatus := x } := by
  by_cases hle : toInt (u32 (σ.abs.bits s + 1)) ≤ 0
  · have hle' : toInt (u32 ((σ.on { σ.globals with sstatus := x }).abs.bits s + 1)) ≤ 0 := hle
    cases hw : σ.abs.waiting s with
    | nil =>
      have hw' : (σ.on { σ.globals with sstatus := x }).abs.waiting s = [] := hw
      simp only [Spec.signal, if_pos hle, if_pos hle', hw, hw']
      rfl
    | cons t R =>
      have hw' : (σ.on { σ.globals with sstatus := x }).abs.waiting s = t :: R := hw
      simp only [Spec.signal, if_pos hle, if_pos hle', hw, hw']
      rfl
  · have hle' : ¬toInt (u32 ((σ.on { σ.globals with sstatus := x }).abs.bits s + 1)) ≤ 0 := hle
    simp only [Spec.signal, if_neg hle, if_neg hle']
    rfl

/-- The loop of the flush thread, which runs outside of traps: `sstatus` is not that of a trap. -/
theorem wp_flush (h : Inside L S I σ v) (hI : Kept L I) (x tx : Nat) :
    (flushPutcBuffer L tx).wp (σ.owners.cells L) v { σ.globals with sstatus := x }
      (fun _ v' g => g = { (σ.flushChars L tx).globals with sstatus := x } ∧
        (σ.flushChars L tx).owners = σ.owners ∧
        (σ.flushChars L tx).globals.sstatus = σ.globals.sstatus ∧
        Inside L S I (σ.flushChars L tx) v') T := by
  induction tx generalizing σ v with
  | zero => exact ⟨rfl, rfl, rfl, h⟩
  | succ tx ih =>
    unfold flushPutcBuffer Spec.flushChars
    rw [Prog.wp_bind, wp_globals]
    split
    · rename_i hlen
      simp only [Prog.wp_bind, wp_modifyGlobals]
      rw [if_pos (show 0 < σ.globals.putcBuffer.count from hlen)]
      let τ := σ.on { σ.globals with
        putcBuffer := σ.globals.putcBuffer.get.2
        console := σ.globals.console ++ [σ.globals.putcBuffer.get.1] }
      have hget : Holds L (τ.on { τ.globals with sstatus := x }) v :=
        Holds.on h.holds ⟨rfl, rfl, rfl, rfl⟩
      refine hget.wp_signal mem_putc fun v' hv' => ?_
      rw [signal_sstatus τ L.putcSem x] at hv' ⊢
      have hv : Holds L (σ.flushChar L) v' :=
        Holds.on (g := (σ.flushChar L).globals) hv' ⟨rfl, rfl, rfl, rfl⟩
      have hstep : Inside L S I (σ.flushChar L) v' := h.signal hI
        (.flushChar h.valid h.resuming hlen) hv rfl rfl rfl rfl rfl rfl rfl rfl rfl
      obtain ⟨hown, -, -, -, -, -, -, trace, hg⟩ := signal_same τ L.putcSem
      have hsstatus : (σ.flushChar L).globals.sstatus = σ.globals.sstatus := by
        rw [show (σ.flushChar L).globals = (τ.signal L.putcSem).globals from rfl, hg]
        rfl
      have hret := ih hstep
      rw [show (σ.flushChar L).owners = σ.owners from hown, hsstatus] at hret
      exact hret
    · rename_i hlen
      rw [if_neg (show ¬0 < σ.globals.putcBuffer.count from hlen)]
      exact ⟨rfl, rfl, rfl, h⟩

end Inside

/-! ### Threads that go on -/

namespace Away

variable {L : Layout} {S : Nat → Option (Kernel Unit)} {I : Spec → Prop} {σ : Spec} {v : Cells}
  {sw : Switch} {k : Kernel Unit} {T : Switch → Kernel Unit → Cells → Globals → Prop}

theorem resume_same (σ : Spec) (L : Layout) : (σ.resume L).owners = σ.owners ∧
    (σ.resume L).abs = σ.abs ∧ (σ.resume L).status = σ.status ∧ (σ.resume L).mode = σ.mode ∧
    ∃ timerTicks putcBuffer getcBuffer trace, (σ.resume L).globals =
      { σ.globals with timerTicks, putcBuffer, getcBuffer, trace } := by
  unfold Spec.resume
  cases σ.abs.cont σ.current <;> exact ⟨rfl, rfl, rfl, rfl, _, _, _, _, rfl⟩

/-- What is left to do for the threads that do not run. -/
def rest (S : Nat → Option (Kernel Unit)) (sw : Switch) (k : Kernel Unit) :
    Nat → Option (Kernel Unit) := if sw.saved ≠ 0 then Function.update S sw.saved (some k) else S

theorem valid (h : Away L S I σ sw k v) : Valid L σ where
  tiled := h.holds.tiled
  place := h.holds.queues.place
  bits s hs := (h.holds.queues.bits s hs).2
  moving := h.running.moving

/-- The state when the thread that has been picked is back in its own code: it has gone on, and may have
come back from a system call. -/
def Resumes (L : Layout) (σ τ : Spec) : Prop :=
  τ = σ.resume L ∨ ∃ a0, τ = (σ.resume L).returned a0

theorem Resumes.same {τ : Spec} (h : Resumes L σ τ) : τ.owners = σ.owners ∧ τ.abs = σ.abs ∧
    τ.mode = σ.mode ∧ ∃ timerTicks putcBuffer getcBuffer trace, τ.globals =
      { σ.globals with timerTicks, putcBuffer, getcBuffer, trace } := by
  obtain ⟨h1, h2, -, h4, ticks, putc, getc, trace, hg⟩ := resume_same σ L
  rcases h with rfl | ⟨a0, rfl⟩
  · exact ⟨h1, h2, h4, ticks, putc, getc, trace, hg⟩
  · refine ⟨h1, h2, h4, ticks, putc, getc, trace ++ [.ecallReturned (σ.resume L).current a0], ?_⟩
    rw [Spec.returned, Spec.log, Spec.on, hg]

theorem Resumes.owners {τ : Spec} (h : Resumes L σ τ) : τ.owners = σ.owners := h.same.1

theorem Resumes.abs {τ : Spec} (h : Resumes L σ τ) : τ.abs = σ.abs := h.same.2.1

theorem Resumes.current {τ : Spec} (h : Resumes L σ τ) : τ.current = σ.current := by
  obtain ⟨-, -, -, _, _, _, _, hg⟩ := h.same
  rw [Spec.current, hg]
  rfl

theorem Resumes.handles {τ : Spec} (h : Resumes L σ τ) : τ.globals.handles = σ.globals.handles := by
  obtain ⟨-, -, -, _, _, _, _, hg⟩ := h.same
  rw [hg]

/-- The thread that has been picked goes on. -/
theorem inside (h : Away L S I σ sw k v) (hI : Kept L I) :
    Inside L (rest S sw k) I (σ.resume L) v := by
  obtain ⟨h1, h2, h3, h4, ticks, putc, getc, trace, hg⟩ := resume_same σ L
  have hcur : (σ.resume L).current = σ.current := by
    rw [Spec.current, hg]
    rfl
  have hctx : (σ.resume L).globals.kCurrentContext = σ.globals.kCurrentContext := by rw [hg]
  have hholds : Holds L (σ.resume L) v := by
    refine h.holds.of_quiet (.refl v) (by rw [h1, h2]; exact h.holds.queues) h1 h4
      (fun _ _ => by rw [h2]) (by rw [hg]; exact ⟨rfl, rfl, rfl, rfl⟩) fun t ht => ?_
    rw [h2] at ht
    rw [h3]
    exact h.holds.status t ht
  refine ⟨hholds, ⟨?_, ?_, ?_, ?_⟩, rfl, fun t ht _ hne => ?_, ?_, ?_, ?_⟩
  · rw [h2, hcur, h.running.moving]
  · rw [hctx, hcur, h.running.context]
  · rw [h3, h.running.status]
  · rw [hcur, h4, hg]
    exact h.running.mode
  · rw [h2] at hne ⊢
    rw [h1] at ht
    exact h.saved t ht hne
  · rw [h1, hg]
    exact h.handles
  · intro hf
    rw [hg] at hf ⊢
    rw [h1, h2]
    exact h.awake hf
  · exact hI _ _ (.resume h.valid h.resuming) h.inv

theorem wp_resume (h : Away L S I σ sw k v) (hI : Kept L I) (hne : σ.abs.cont σ.current ≠ .fresh) :
    ((σ.abs.cont σ.current).prog L).wp (σ.owners.cells L) v σ.globals
      (fun _ v' g => ∃ τ, g = τ.globals ∧ Resumes L σ τ ∧ Inside L (rest S sw k) I τ v') T := by
  have hin := h.inside hI
  have hown := (resume_same σ L).1
  have hreset : Holds L σ.reset v := h.holds.reset
  have hrun : Holds.Running σ.reset :=
    ⟨h.running.moving, h.running.context, h.running.status, h.running.mode⟩
  have hdone {v' : Cells} (h' : Inside L (rest S sw k) I (σ.resume L) v') :
      ecallReturn.wp ((σ.resume L).owners.cells L) v' (σ.resume L).globals
        (fun _ v' g => ∃ τ, g = τ.globals ∧ Resumes L σ τ ∧ Inside L (rest S sw k) I τ v') T :=
    h'.wp_returned hI fun a0 h'' => ⟨_, rfl, .inr ⟨a0, rfl⟩, h''⟩
  have hret := hdone hin
  have hset (x : Nat) : (Os1Kernel.setA0 x >>= fun _ => ecallReturn).wp ((σ.resume L).owners.cells L) v
      (σ.resume L).globals
      (fun _ v' g => ∃ τ, g = τ.globals ∧ Resumes L σ τ ∧ Inside L (rest S sw k) I τ v') T :=
    hin.wp_setA0 fun v' h' => hdone h'
  have hstay (hprog : σ.resume L = { σ.reset with resuming := false }) :
      ∃ τ, σ.reset.globals = τ.globals ∧ Resumes L σ τ ∧ Inside L (rest S sw k) I τ v :=
    ⟨_, (congrArg Spec.globals hprog).symm, .inl rfl, hin⟩
  rw [hown] at hret hset
  unfold Spec.resume at hin hret hset
  cases hc : σ.abs.cont σ.current with
  | fresh => exact absurd hc hne
  | preempted =>
    simp only [Cont.prog, resetTicks, wp_modifyGlobals]
    exact hstay (by rw [Spec.resume, hc])
  | dispatched =>
    simp only [hc] at hret
    simp only [Cont.prog, resetTicks, Prog.wp_bind, wp_modifyGlobals]
    exact hret
  | joining s =>
    simp only [hc] at hret
    simp only [Cont.prog, resetTicks]
    rw [Prog.wp_bind, wp_modifyGlobals, Prog.wp_bind]
    exact hreset.wp_afterBlock (s := s) hrun fun _ => hret
  | waiting s =>
    simp only [hc] at hset
    simp only [Cont.prog, resetTicks]
    rw [Prog.wp_bind, wp_modifyGlobals, Prog.wp_bind]
    exact hreset.wp_afterBlock (s := s) hrun fun _ => hset _
  | reading =>
    simp only [hc] at hset
    simp only [Cont.prog, resetTicks]
    rw [Prog.wp_bind, wp_modifyGlobals, Prog.wp_bind]
    refine hreset.wp_afterBlock (s := L.getcSem) hrun fun _ => ?_
    simp only [takeChar, Prog.wp_bind, wp_globals, wp_modifyGlobals, wp_log]
    exact Prog.wp_bind.mp (hset _)
  | writing p0 =>
    simp only [hc] at hret
    simp only [Cont.prog, resetTicks]
    rw [Prog.wp_bind, wp_modifyGlobals, Prog.wp_bind]
    refine hreset.wp_afterBlock (s := L.putcSem) hrun fun _ => ?_
    simp only [storeChar, Prog.wp_bind, wp_globals, wp_modifyGlobals, wp_log]
    exact hret

end Away

end Os1Kernel
