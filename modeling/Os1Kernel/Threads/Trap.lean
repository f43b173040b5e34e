import Os1Kernel.Threads.Exit

/-! Traps as steps of the abstract machine. -/

namespace Os1Kernel

open Memory MemoryAllocator

theorem testBit_add (s : Nat) (h : s.testBit 8 = false) : (s + 2 ^ 8).testBit 8 = true := by
  rw [Nat.add_comm, Nat.testBit_two_pow_add_eq, h]
  rfl

theorem testBit_sub (s : Nat) (h : s.testBit 8 = true) : (s - 2 ^ 8).testBit 8 = false := by
  have hle : 2 ^ 8 ≤ s := Nat.ge_two_pow_of_testBit h
  have hs : (2 ^ 8 + (s - 2 ^ 8)).testBit 8 = true := by rwa [Nat.add_sub_cancel' hle]
  rw [Nat.testBit_two_pow_add_eq] at hs
  simpa using hs

theorem spp_setSpp (s : Nat) (b : Bool) : spp (setSpp s b) = b := by
  unfold setSpp
  split
  · assumption
  · rename_i hne
    cases b with
    | true => exact testBit_add s (by simpa [spp] using hne)
    | false => exact testBit_sub s (by simpa [spp] using hne)

theorem setSpp_setSpp (s : Nat) : setSpp (setSpp s false) (spp s) = s := by
  by_cases h : spp s = true
  · have hle : 2 ^ 8 ≤ s := Nat.ge_two_pow_of_testBit h
    have hf : setSpp s false = s - 2 ^ 8 := by simp [setSpp, h]
    have hb : spp (s - 2 ^ 8) = false := testBit_sub s h
    rw [h, hf]
    simp only [setSpp, hb, if_true, Bool.false_eq_true, if_false]
    omega
  · have h' : spp s = false := by simpa using h
    simp [setSpp, h']

theorem spp_clear (s : Nat) : spp (if s.testBit 8 then s - 2 ^ 8 else s) = false := by
  split
  · exact testBit_sub s (by assumption)
  · rename_i h
    simpa [spp] using h

namespace Inside

variable {L : Layout} {S : Nat → Option (Kernel Unit)} {I : Spec → Prop} {σ : Spec} {v : Cells}
  {m : Mem} {E : Fault → Prop} {X : Nat → Prop} {code p0 p1 p2 p3 : Nat}

/-- The start of `k_handle_ecall`. -/
theorem ecallTrap_eq : ecallTrap L code p0 p1 p2 p3 =
    (globals >>= fun g => Os1Kernel.log (.called g.currentTcb code p0) >>= fun _ =>
      Os1Kernel.setA0 (signExtend failedSyscall) >>= fun _ =>
      syscall L code p0 p1 p2 p3 >>= fun _ => ecallReturn) := by
  simp only [ecallTrap, handleEcall, bind_assoc]

theorem context_mem (h : Inside L S I σ v) : σ.globals.kCurrentContext ∈ σ.owners.tcbs L := by
  rw [h.running.context]
  exact h.holds.current_mem h.running

theorem run_setA0 (h : Inside L S I σ v) (x : Nat) {g : Globals}
    (hg : g.kCurrentContext = σ.globals.kCurrentContext) : (Os1Kernel.setA0 x).run m g =
      .done () (m.assign σ.globals.kCurrentContext Field.a0 x) g := by
  have hpos := (h.holds.tiled.tcb_inside h.context_mem).1.ne'
  rw [Os1Kernel.setA0, run_of_run run_globals, hg, run_wr hpos]

theorem assign_a0 (h : Inside L S I σ m.view) (x : Nat) :
    Inside L S I σ (m.assign σ.globals.kCurrentContext Field.a0 x).view :=
  { h with holds := h.holds.assign_a0 h.context_mem x }

theorem spares_a0 (h : Inside L S I σ m.view) (x : Nat) :
    σ.owners.Spares L m (m.assign σ.globals.kCurrentContext Field.a0 x) :=
  h.holds.tiled.spares_of_cells (Frame.assign (Owners.cells_tcb h.context_mem rfl) m x)

/-- What comes after the start of a system call. -/
theorem spared_a0 (h : Inside L S I σ m.view) (x : Nat) {o : Outcome Field Globals Switch Unit}
    (ho : Prog.Post E (BackFrom L S I σ.owners X (m.assign σ.globals.kCurrentContext Field.a0 x))
      (GoneFrom L S I σ.owners X (m.assign σ.globals.kCurrentContext Field.a0 x)) o) :
    Prog.Post E (BackFrom L S I σ.owners X m) (GoneFrom L S I σ.owners X m) o :=
  Prog.post_mono ho
    (fun _ _ _ ⟨τ, hg, hin, hs⟩ => ⟨τ, hg, hin, fun y hy hy' hout =>
      (hs y hy hy' hout).trans (h.spares_a0 x y hy)⟩)
    fun _ _ _ _ ⟨τ, hg, haway, hs⟩ => ⟨τ, hg, haway, fun y hy hy' hout =>
      (hs y hy hy' hout).trans (h.spares_a0 x y hy)⟩

/-- `set_user_mode` -/
theorem userMode (h : Inside L S I σ v) (hI : Kept L I) (p0 : Nat) {s : Nat} (hs : spp s = false) :
    Inside L S I (σ.userMode p0 s) v := by
  have hH : Holds L (σ.userMode p0 s) v := by
    refine ⟨h.holds.heap.globals rfl rfl rfl, h.holds.tiled, h.holds.queues, h.holds.base,
      fun t ht hne => ?_, h.holds.status⟩
    have hc := h.holds.contexts t ht hne
    have hne' : t ≠ σ.current := h.running.context ▸ hne
    refine ⟨hc.ra, hc.mode.trans ?_⟩
    exact (Function.update_of_ne hne' _ _).symm
  have hmode : (σ.userMode p0 s).mode (σ.userMode p0 s).current = false :=
    Function.update_self (β := fun _ => Bool) ..
  exact h.step hI (.userMode h.valid h.resuming p0 s) hH rfl rfl rfl (List.Subset.refl _) rfl rfl rfl
    (hs.trans hmode.symm) rfl rfl

theorem spared_userMode (h : Inside L S I σ m.view) (hI : Kept L I) :
    Prog.Post E (BackFrom L S I σ.owners X m) (GoneFrom L S I σ.owners X m)
      ((ecallTrap L 0xff p0 p1 p2 p3).run m σ.globals) := by
  rw [ecallTrap_eq]
  refine post_of_run run_globals (post_of_run run_log (post_of_run (h.run_setA0 _ rfl)
    (h.spared_a0 (signExtend failedSyscall) ?_)))
  change Prog.Post _ _ _ ((userModeCall >>= fun _ => ecallReturn).run _ _)
  rw [userModeCall, prepareUserMode, bind_assoc]
  refine post_of_run run_modifyGlobals ?_
  exact ((h.assign_a0 _).userMode hI p0 (spp_clear σ.globals.sstatus)).spared_setA0 hI _

/-- `putc` -/
theorem spared_putC (h : Inside L S I σ m.view) (hI : Kept L I) (hf : σ.globals.handles.flush ≠ 0)
    (hcur : σ.current ≠ σ.globals.handles.flush) :
    Prog.Post E (BackFrom L S I σ.owners X m) (GoneFrom L S I σ.owners X m)
      ((ecallTrap L 0x42 p0 p1 p2 p3).run m σ.globals) := by
  rw [ecallTrap_eq]
  refine post_of_run run_globals (post_of_run run_log (post_of_run (h.run_setA0 _ rfl)
    (h.spared_a0 (signExtend failedSyscall) ?_)))
  change Prog.Post _ _ _ ((putCCall L p0 >>= fun _ => ecallReturn).run _ _)
  exact spared_of_cells h.holds.tiled ((h.assign_a0 _).wp_putC hI p0 hf hcur)

/-- What user code may ask for. -/
structure Call (L : Layout) (σ : Spec) (m : Mem) (code p0 p1 p3 : Nat) : Prop where
  word : p0 < 2 ^ 64
  flush : σ.current = σ.globals.handles.flush → code = 0x13
  free : code = 0x02 → σ.owners.Freeable L p0
  create : code = 0x11 → p0 = 0 ∨ (∀ y, p0 ≤ y → y < p0 + 8 → σ.owners.User L y) ∧
    (p1 = 0 ∨ p3 = 0 ∨ ∃ usr, p3 = usr + defaultStackSize ∧
      (usr, toBlocks defaultStackSize) ∈ σ.owners.blocks ∧
      (p0 + 8 ≤ usr ∨ usr + defaultStackSize ≤ p0) ∧ Leftover L σ m usr)
  join : code = 0x14 → p0 = 0 ∨ p0 ∈ σ.owners.threads
  semOpen : code = 0x21 → p0 = 0 ∨ ∀ y, p0 ≤ y → y < p0 + 8 → σ.owners.User L y
  sem : code = 0x22 ∨ code = 0x23 ∨ code = 0x24 → p0 = 0 ∨ p0 ∈ σ.owners.sems

/-- A system call, after the start of `k_handle_ecall`. -/
theorem post_syscall (h : Inside L S I σ m.view) (hI : Kept L I) (hff : code ≠ 0xff ∧ code ≠ 0x42)
    {Q : Unit → Mem → Globals → Prop} {T : Switch → Kernel Unit → Mem → Globals → Prop}
    (hQ : Inside L S I (σ.called code p0)
        (m.assign σ.globals.kCurrentContext Field.a0 (signExtend failedSyscall)).view →
      Prog.Post E Q T ((syscall L code p0 p1 p2 p3 >>= fun _ => ecallReturn).run
        (m.assign σ.globals.kCurrentContext Field.a0 (signExtend failedSyscall))
        (σ.called code p0).globals)) :
    Prog.Post E Q T ((ecallTrap L code p0 p1 p2 p3).run m σ.globals) := by
  rw [ecallTrap_eq]
  exact post_of_run run_globals (post_of_run run_log (post_of_run (h.run_setA0 _ rfl)
    (hQ ((h.assign_a0 (signExtend failedSyscall)).called hI p0 hff))))

theorem spared_ecall (h : Inside L S I σ m.view) (hI : Kept L I)
    (hE : code = 0x11 ∨ code = 0x21 → E .nullPointer) (hf : σ.globals.handles.flush ≠ 0)
    (hc : Call L σ (m.assign σ.globals.kCurrentContext Field.a0 (signExtend failedSyscall)) code p0 p1
      p3) (hX : code = 0x11 ∨ code = 0x21 → ∀ y, p0 ≤ y → y < p0 + 8 → X y)
    (hX' : code = 0x11 → NoStack σ.owners.tiles → ∀ y, σ.owners.Free L y → X y) :
    Prog.Post E (BackFrom L S I σ.owners X m) (GoneFrom L S I σ.owners X m)
      ((ecallTrap L code p0 p1 p2 p3).run m σ.globals) := by
  by_cases hff : code = 0xff
  · rw [hff]
    exact h.spared_userMode hI
  by_cases hputc : code = 0x42
  · rw [hputc] at hc ⊢
    exact h.spared_putC hI hf fun heq => absurd (hc.flush heq) (by decide)
  refine h.post_syscall hI ⟨hff, hputc⟩ fun hin =>
    h.spared_a0 (signExtend failedSyscall) ?_
  have hcur (hne : code ≠ 0x13) : (σ.called code p0).current ≠
      (σ.called code p0).globals.handles.flush := fun heq => hne (hc.flush heq)
  unfold syscall
  split
  · exact hin.spared_memAlloc hI p0
  · exact hin.spared_memFree hI (hc.free rfl)
  · exact hin.spared_createThread hI (hE (.inl rfl)) (hc.create rfl) (hX (.inl rfl)) (hX' rfl)
  · exact hin.spared_threadExit hI hf (hcur (by decide))
  · exact hin.spared_of_wp (hin.wp_dispatch hI)
  · exact hin.spared_of_wp (hin.wp_threadJoin hI (hc.join rfl) hf (hcur (by decide)))
  · exact hin.spared_semOpen hI (hE (.inr rfl)) (hc.semOpen rfl) (hX (.inr rfl))
  · exact hin.spared_semClose hI (hc.sem (.inl rfl))
  · exact hin.spared_of_wp (hin.wp_semWait hI (hc.sem (.inr (.inl rfl))) hf (hcur (by decide)))
  · exact hin.spared_of_wp (hin.wp_semSignal hI (hc.sem (.inr (.inr rfl))))
  · exact hin.spared_of_wp (hin.wp_timeSleep hI hc.word hf (hcur (by decide)))
  · exact hin.spared_of_wp (hin.wp_getC hI hf (hcur (by decide)))
  · exact absurd rfl hputc
  · exact absurd rfl hff
  · exact hin.spared_return hI

end Inside

/-! ### From the entry of a trap to its return -/

variable {L : Layout} {I : Spec → Prop} {E : Fault → Prop} {σ : Spec} {W : Owners} {X : Nat → Prop}

/-- The hart has come back from kernel code to the code of the current thread. -/
structure Returns (L : Layout) (I : Spec → Prop) (M M' : Machine) (σ : Spec) : Prop where
  globals : M'.globals = σ.globals
  inside : Inside L M'.saved I σ M'.mem.view
  supervisor : M'.supervisor = M.supervisor
  flushSstatus : M'.flushSstatus = M.flushSstatus

/-- The thread that has been picked goes on to the end of its trap. -/
theorem switchTo_returns {M : Machine} {sw : Switch} {k : Kernel Unit} (hI : Kept L I) (n : Nat)
    (haway : Away L M.saved I σ sw k M.mem.view) (hg : M.globals = σ.globals) :
    ∃ M' σ', Machine.switchTo L (Machine.exec L (n + 1)) sw k M = some M' ∧ Returns L I M M' σ' ∧
      Away.Resumes L σ σ' ∧ σ.owners.Spares L M.mem M'.mem ∧
      (σ.abs.cont σ.current = .fresh → σ' = σ.resume L) := by
  have hra := haway.switches.ra
  by_cases hfresh : σ.abs.cont σ.current = .fresh
  · rw [if_pos hfresh] at hra
    refine ⟨{ M with saved := Away.rest M.saved sw k, globals := { M.globals with
      trace := M.globals.trace ++ [.started sw.restored M.globals.timerTicks] } }, σ.resume L, ?_,
      ⟨?_, haway.inside hI, rfl, rfl⟩, .inl rfl, fun _ _ => rfl, fun _ => rfl⟩
    · rw [Machine.switchTo, if_pos hra]
      rfl
    · simp only [Spec.resume, hfresh, hg, haway.switches.restored]
      rfl
  · rw [if_neg hfresh] at hra
    have hne : sw.ra ≠ L.kTcbStart := fun heq => L.code_ne (heq.symm.trans hra)
    have hcur : σ.current ∈ σ.owners.tcbs L := haway.holds.current_mem haway.running
    have hsaved := haway.saved σ.current hcur hfresh
    obtain ⟨_, m', g', v', hrun, hsim, hframe, τ, rfl, hτ, hin⟩ := Prog.returns
      haway.holds.tiled.separate (Sim.self _ M.mem) (haway.wp_resume hI hfresh)
    refine ⟨{ M with mem := m', globals := τ.globals, saved := Away.rest M.saved sw k }, τ, ?_,
      ⟨rfl, { hin with holds := hin.holds.of_sim (hτ.owners ▸ hsim) }, rfl, rfl⟩, hτ,
      haway.holds.tiled.spares_of_cells hframe, fun h => absurd h hfresh⟩
    rw [Machine.switchTo, if_neg hne, if_pos hra, haway.switches.restored]
    simp only [hsaved, Option.bind_some, Machine.exec, hg, hrun]
    rfl

/-- Kernel code returns, or it faults as `E` allows. -/
theorem exec_returns {M : Machine} {m : Mem} {p : Kernel Unit} (hI : Kept L I) (n : Nat)
    (hpost : Prog.Post E (BackFrom L M.saved I W X m) (GoneFrom L M.saved I W X m)
      (p.run M.mem M.globals)) :
    (Machine.exec L (n + 2) p M = none ∧ ∃ e, E e) ∨
      ∃ M' σ', Machine.exec L (n + 2) p M = some M' ∧ Returns L I M M' σ' ∧
        Spared L W σ'.owners X m M'.mem := by
  cases hrun : p.run M.mem M.globals with
  | fault e =>
    rw [hrun, Prog.post_fault] at hpost
    exact .inl ⟨by simp only [Machine.exec, hrun], e, hpost⟩
  | done r m' g' =>
    rw [hrun, Prog.post_done] at hpost
    obtain ⟨τ, rfl, hin, hs⟩ := hpost
    exact .inr ⟨{ M with mem := m', globals := τ.globals }, τ, by simp only [Machine.exec, hrun], ⟨rfl,
      hin, rfl, rfl⟩, hs⟩
  | suspended sw k m' g' =>
    rw [hrun, Prog.post_suspended] at hpost
    obtain ⟨τ, rfl, haway, hs⟩ := hpost
    obtain ⟨M', σ', hsome, hret, hτ, hspares, -⟩ := switchTo_returns
      (M := { M with mem := m', globals := τ.globals }) hI n haway rfl
    refine .inr ⟨M', σ', ?_, ⟨hret.globals, hret.inside, hret.supervisor, hret.flushSstatus⟩,
      fun y hy hy' hout => ?_⟩
    · rw [Machine.exec, hrun]
      exact hsome
    · rw [hτ.owners] at hy'
      exact (hspares y hy').trans (hs y hy hy' hout)

/-- Between traps the machine is as if the current thread had just entered one. -/
structure Rests (L : Layout) (I : Spec → Prop) (M : Machine) (σ : Spec) : Prop where
  globals : M.enter.globals = σ.globals
  inside : Inside L M.saved I σ M.mem.view

theorem Rests.supervisor {M : Machine} (h : Rests L I M σ) : M.supervisor = σ.mode σ.current := by
  rw [← h.inside.running.mode, ← h.globals]
  exact (spp_setSpp _ _).symm

theorem Returns.sret {M M' : Machine} (h : Returns L I M M' σ) : Rests L I M'.sret σ where
  globals := by
    rw [← h.globals, Machine.sret, Machine.enter]
    simp only [setSpp_setSpp]
  inside := h.inside

/-- A trap returns, or it faults as `E` allows. -/
theorem trap_returns {M : Machine} {m : Mem} {p : Kernel Unit} (hI : Kept L I) (h : Rests L I M σ)
    (hpost : Prog.Post E (BackFrom L M.saved I W X m) (GoneFrom L M.saved I W X m)
      (p.run M.mem σ.globals)) :
    (M.trap L p = none ∧ ∃ e, E e) ∨ ∃ M' σ', M.trap L p = some M' ∧ Rests L I M' σ' ∧
      Spared L W σ'.owners X m M'.mem := by
  have hpost' : Prog.Post E (BackFrom L M.enter.saved I W X m) (GoneFrom L M.enter.saved I W X m)
      (p.run M.enter.mem M.enter.globals) := by
    rw [h.globals]
    exact hpost
  obtain ⟨n, hn⟩ := walkLimit_eq
  rw [Machine.trap, hn]
  rcases exec_returns hI n hpost' with ⟨hnone, he⟩ | ⟨M', σ', hsome, hret, hs⟩
  · exact .inl ⟨by rw [hnone, Option.map_none], he⟩
  · exact .inr ⟨M'.sret, σ', by rw [hsome, Option.map_some], hret.sret, hs⟩

/-- A trap that ends in another thread, of which `P` is known where it has been picked. -/
theorem trap_gone {M : Machine} {p : Kernel Unit} {P : Spec → Mem → Prop} (hI : Kept L I)
    (h : Rests L I M σ) (hpost : Prog.Post (fun _ => False) (fun _ _ _ => False)
      (fun sw k m g => ∃ τ, P τ m ∧ g = τ.globals ∧ Away L M.saved I τ sw k m.view)
      (p.run M.mem σ.globals)) : ∃ M' τ m σ', M.trap L p = some M' ∧ P τ m ∧ Rests L I M' σ' ∧
        Away.Resumes L τ σ' ∧ τ.owners.Spares L m M'.mem ∧
        (τ.abs.cont τ.current = .fresh → σ' = τ.resume L) := by
  obtain ⟨n, hn⟩ := walkLimit_eq
  have hmem : M.enter.mem = M.mem := rfl
  rw [← h.globals] at hpost
  cases hrun : p.run M.mem M.enter.globals with
  | fault e =>
    rw [hrun, Prog.post_fault] at hpost
    exact hpost.elim
  | done r m g =>
    rw [hrun, Prog.post_done] at hpost
    exact hpost.elim
  | suspended sw k m g =>
    rw [hrun, Prog.post_suspended] at hpost
    obtain ⟨τ, hP, rfl, haway⟩ := hpost
    obtain ⟨M', σ', hsome, hret, hτ, hspares, hfresh⟩ := switchTo_returns
      (M := { M.enter with mem := m, globals := τ.globals }) hI n haway rfl
    refine ⟨M'.sret, τ, m, σ', ?_, hP,
      Returns.sret (M := M) ⟨hret.globals, hret.inside, hret.supervisor, hret.flushSstatus⟩, hτ, hspares,
      hfresh⟩
    rw [Machine.trap, hn, Machine.exec, hmem, hrun]
    simp only [hsome, Option.map_some]

theorem Spec.resume_fresh (h : σ.abs.cont σ.current = .fresh) : σ.resume L =
    { σ.log (.started σ.current σ.globals.timerTicks) with resuming := false } := by
  rw [Spec.resume, h]

/-- The state when the thread `n`, which is new, starts because the current one has called
`thread_dispatch`. -/
def Spec.handOver (σ : Spec) (n : Nat) (R : List Nat) (sstatus : Nat) : Spec :=
  { (((σ.called 0x13 0).requeue .dispatched).switch n (R ++ [σ.current]) sstatus).log
      (.started n σ.globals.timerTicks) with
    resuming := false }

theorem Spec.handOver_trace (σ : Spec) (n : Nat) (R : List Nat) (x : Nat) :
    (σ.handOver n R x).globals.trace = σ.globals.trace ++ [.called σ.current 0x13 0,
      .readied σ.current, .picked n, .started n σ.globals.timerTicks] := by
  simp [Spec.handOver, Spec.switch, Spec.requeue, Spec.called, Spec.log, Spec.on, Spec.current]

/-- A thread that gives up the hart. -/
theorem Rests.dispatches {M : Machine} {n : Nat} {R : List Nat} (h : Rests L I M σ) (hI : Kept L I)
    (hR : σ.abs.ready ++ [σ.current] = n :: R) : ∃ M' x σ',
      M.trap L (ecallTrap L 0x13 0 0 0 0) = some M' ∧ Rests L I M' σ' ∧
      Away.Resumes L (((σ.called 0x13 0).requeue .dispatched).switch n R x) σ' ∧
      (n ≠ σ.current → σ.abs.cont n = .fresh →
        σ' = (((σ.called 0x13 0).requeue .dispatched).switch n R x).resume L) := by
  have hcode : (0x13 : Nat) ≠ 0xff ∧ (0x13 : Nat) ≠ 0x42 := by decide
  obtain ⟨M', τ, m, σ', hs, ⟨x, rfl⟩, h', hτ, -, hfresh⟩ := trap_gone (p := ecallTrap L 0x13 0 0 0 0)
    (P := fun τ _ => ∃ x, τ = ((σ.called 0x13 0).requeue .dispatched).switch n R x) hI h <|
    h.inside.post_syscall hI hcode fun hin => by
      change Prog.Post _ _ _ ((dispatch L >>= fun _ => ecallReturn).run _ _)
      refine Inside.post_gone hin.holds.tiled ?_
      rw [Prog.wp_bind]
      refine hin.holds.wp_dispatch (c := .dispatched) hin.running (by decide)
        fun n' R' x v' sw hR' hv' hsw => ?_
      have hready : n :: R = n' :: R' := by
        rw [← hR]
        exact hR'
      obtain ⟨rfl, rfl⟩ := List.cons.inj hready
      exact ⟨_, ⟨x, rfl⟩, rfl, rfl, hin.away_dispatch hI (.inr rfl) hR' hv' hsw rfl⟩
  exact ⟨M', x, σ', hs, h', hτ, fun hne hn => hfresh ((Function.update_of_ne hne _ _).trans hn)⟩

/-- A thread that gives up the hart to one that is new. -/
theorem Rests.dispatch_fresh {M : Machine} {n : Nat} {R : List Nat} (h : Rests L I M σ) (hI : Kept L I)
    (hR : σ.abs.ready = n :: R) (hn : σ.abs.cont n = .fresh) (hne : n ≠ σ.current) : ∃ M' x,
      M.trap L (ecallTrap L 0x13 0 0 0 0) = some M' ∧ Rests L I M' (σ.handOver n R x) := by
  obtain ⟨M', x, σ', hs, h', -, hfresh⟩ := h.dispatches hI (congrArg (· ++ [σ.current]) hR)
  have hcont : Function.update σ.abs.cont σ.current .dispatched n = .fresh :=
    (Function.update_of_ne hne _ _).trans hn
  rw [hfresh hne hn, Spec.resume_fresh hcont] at h'
  exact ⟨M', x, hs, h'⟩

/-- A trap that does not switch. -/
theorem trap_done {M : Machine} {p : Kernel Unit} {Q : Unit → Mem → Globals → Prop}
    (hpost : Prog.Post E Q (fun _ _ _ _ => False) (p.run M.mem M.enter.globals)) :
    (M.trap L p = none ∧ ∃ e, E e) ∨ ∃ m g, Q () m g ∧
      M.trap L p = some (Machine.sret { M with mem := m, globals := g }) := by
  obtain ⟨n, hn⟩ := walkLimit_eq
  rw [Machine.trap, hn]
  have hmem : M.enter.mem = M.mem := rfl
  cases hrun : p.run M.mem M.enter.globals with
  | fault e =>
    rw [hrun, Prog.post_fault] at hpost
    exact .inl ⟨by simp only [Machine.exec, hmem, hrun, Option.map_none], e, hpost⟩
  | suspended s k m g =>
    rw [hrun, Prog.post_suspended] at hpost
    exact hpost.elim
  | done r m g =>
    rw [hrun, Prog.post_done] at hpost
    refine .inr ⟨m, g, hpost, ?_⟩
    simp only [Machine.exec, hmem, hrun, Option.map_some]
    rfl

/-- A trap that comes back to its thread, of which `P` is known then. -/
theorem trap_back {M : Machine} {p : Kernel Unit} {P : Spec → Prop} (h : Rests L I M σ)
    (hpost : Prog.Post (fun _ => False)
      (fun _ m g => ∃ τ, P τ ∧ g = τ.globals ∧ Inside L M.saved I τ m.view) (fun _ _ _ _ => False)
      (p.run M.mem σ.globals)) : ∃ M' τ, M.trap L p = some M' ∧ P τ ∧ Rests L I M' τ := by
  rw [← h.globals] at hpost
  rcases trap_done hpost with ⟨-, _, hf⟩ | ⟨m, g, ⟨τ, hP, rfl, hin⟩, hs⟩
  · exact hf.elim
  · exact ⟨_, τ, hs, hP, Returns.sret (M := M) ⟨rfl, hin, rfl, rfl⟩⟩

end Os1Kernel
