import Os1Kernel.Threads.Trap

/-! Steps of the machine as steps of the abstract machine. -/

namespace Os1Kernel

open Memory MemoryAllocator

/-- The bytes that user code writes itself, or has the kernel write for a handle. -/
def Event.Writes (M : Machine) (x : Nat) : Event → Prop
  | .ecall code p0 _ _ _ => (code = 0x11 ∨ code = 0x21) ∧ p0.toNat ≤ x ∧ x < p0.toNat + 8
  | .user m => m x ≠ M.mem x
  | _ => False

/-- The event is a call of `thread_create`. -/
def Event.creates : Event → Bool
  | .ecall code _ _ _ _ => code = 0x11
  | _ => false

namespace Rests

variable {L : Layout} {I : Spec → Prop} {M : Machine} {σ : Spec}

/-- Only `sstatus` differs at the entry of a trap. -/
theorem of_sstatus (h : Rests L I M σ) : σ.globals = { M.globals with
    sstatus := setSpp M.globals.sstatus M.supervisor } := h.globals.symm

theorem handles (h : Rests L I M σ) :
    M.globals.handles = σ.owners.handles σ.globals.handles.flush := by
  have heq := h.inside.handles
  rw [h.of_sstatus] at heq ⊢
  exact heq

theorem current (h : Rests L I M σ) : σ.current = M.globals.currentTcb := by
  rw [Spec.current, h.of_sstatus]

theorem flush (h : Rests L I M σ) : σ.globals.handles.flush = M.globals.handles.flush := by
  rw [h.of_sstatus]

/-- Memory holds the state also with the variables of the machine. -/
theorem holds (h : Rests L I M σ) : Holds L (σ.on M.globals) M.mem.view := by
  refine h.inside.holds.on ?_
  rw [h.of_sstatus]
  exact ⟨rfl, rfl, rfl, rfl⟩

theorem user (h : Rests L I M σ) {x : Nat} (hx : UserByte L M x) : σ.owners.User L x := by
  rw [UserByte, h.handles] at hx
  rcases hx with hx | ⟨t, ht, hx⟩ | ⟨hout, hx⟩
  · exact .inl hx
  · obtain ⟨u, hu, rfl⟩ := List.mem_map.mp ht
    exact .inr (.inl ⟨u, hu, hx⟩)
  · exact .inr (.inr ⟨hout, .inl hx⟩)

theorem user_word (h : Rests L I M σ) {p : Nat} (hp : UserWord L M p) :
    ∀ y, p ≤ y → y < p + 8 → σ.owners.User L y :=
  fun y hy hy' => h.user (hp.2 y hy hy')

theorem unused (h : Rests L I M σ) {a : Nat} (ha : FreeRejects L M a) : σ.owners.Unused L a :=
  h.holds.unused_of_rejects ha

end Rests

namespace Holds

variable {L : Layout} {σ : Spec} {m : Mem} {a t n : Nat}

/-- The context of a thread and a block of user code. -/
theorem field_block (h : Holds L σ m.view) (hr : (a, n) ∈ σ.owners.blocks) (hn : 360 ≤ 64 * n)
    (ht : t ∈ σ.owners.tcbs L) (m' : Mem) (x : Nat) :
    (m'.assign t Field.a0 x).field a Field.joinSem = m'.field a Field.joinSem := by
  obtain ⟨o, ho, hc⟩ := Owners.cells_tcb (L := L) ht (f := .a0) rfl
  refine load_congr fun y hy hy' => store_outside (not_not.mp fun hin => ?_)
  refine h.tiled.not_user ho hc (x := y) (by omega) (by omega) (.inl ⟨_, hr, ?_, ?_⟩)
  · simp only
    omega
  · simp only [show offset Field.joinSem = 296 from rfl, show size Field.joinSem = 8 from rfl] at hy'
    simp only
    omega

end Holds

namespace Rests

variable {L : Layout} {I : Spec → Prop} {M : Machine} {σ : Spec} {code p0 p1 p2 p3 : UInt64}

theorem leftover (h : Rests L I M σ) {usr : Nat} (husr : usr = p3.toNat - defaultStackSize)
    (hok : LeftoverRejected L M (.ecall 0x11 p0 p1 p2 p3)) (x : Nat) :
    Leftover L σ (M.mem.assign σ.globals.kCurrentContext Field.a0 x) usr := by
  intro i ts halloc hnone
  obtain ⟨a, m₁, x₁, ts₁, hrun₁, -, hcase₁, hH₁⟩ := h.holds.alloc (toBlocks sizeofTCB)
  have hsize : u32 (toBlocks sizeofTCB) = toBlocks sizeofTCB ∧ toBlocks sizeofTCB ≠ 0 ∧
      u32 (toBlocks defaultStackSize) = toBlocks defaultStackSize ∧
      360 ≤ 64 * toBlocks sizeofTCB := by decide
  rw [hsize.1] at hcase₁ hH₁
  obtain ⟨rfl, rfl⟩ := allocated_some halloc hcase₁
  have ha := L.heap.addr_ne_zero i
  rw [if_pos ⟨ha, hsize.2.1⟩] at hH₁
  obtain ⟨b, m₂, x₂, ts₂, hrun₂, -, hcase₂, hH₂⟩ := hH₁.alloc (toBlocks defaultStackSize)
  obtain rfl := allocated_none (by rwa [hsize.2.2.1]) hcase₂
  have hblock : (L.heap.addr i, toBlocks sizeofTCB) ∈
      (L.heap.addr i, toBlocks sizeofTCB) :: σ.owners.blocks := List.mem_cons_self
  rw [hH₁.field_block hblock hsize.2.2.2 h.inside.context_mem]
  refine (hok rfl _ _ _ _ _ hrun₁ ha hrun₂).imp (fun hrej => ?_) fun heq => heq.trans husr.symm
  exact hH₂.unused_of_rejects hrej

/-- What user code may ask for. -/
theorem call (h : Rests L I M σ) (ha : Allowed L M (.ecall code p0 p1 p2 p3))
    (hok : LeftoverRejected L M (.ecall code p0 p1 p2 p3)) : Inside.Call L σ
      (M.mem.assign σ.globals.kCurrentContext Field.a0 (signExtend failedSyscall)) code.toNat p0.toNat
      p1.toNat p3.toNat := by
  simp only [Allowed, h.handles] at ha
  obtain ⟨hflush, hfree, hcreate, hjoin, hopen, hsem⟩ := ha
  have hcode {n : Nat} {c : UInt64} (hn : code.toNat = n) (hc : c.toNat = n) : code = c :=
    UInt64.toNat_inj.mp (hn.trans hc.symm)
  have hzero {p : UInt64} (hp : p = 0) : p.toNat = 0 := by rw [hp]; rfl
  refine ⟨p0.toNat_lt, fun hcur => ?_, fun hc => ?_, fun hc => ?_, fun hc => ?_, fun hc => ?_,
    fun hc => ?_⟩
  · rw [hflush (h.current.symm.trans hcur)]
    rfl
  · exact (hfree (hcode hc rfl)).imp id h.unused
  · refine (hcreate (hcode hc rfl)).imp hzero fun ⟨hw, hp⟩ => ⟨h.user_word hw, ?_⟩
    refine hp.imp hzero fun hp => hp.imp hzero fun ⟨hb, hap⟩ => ?_
    have hle : defaultStackSize ≤ p3.toNat := by
      by_contra hlt
      rw [Nat.sub_eq_zero_of_le (by omega)] at hb
      exact h.inside.holds.block_ne_zero hb rfl
    refine ⟨p3.toNat - defaultStackSize, by omega, hb, by omega, ?_⟩
    obtain rfl := hcode hc (c := 0x11) rfl
    exact h.leftover rfl hok _
  · exact (hjoin (hcode hc rfl)).imp hzero id
  · exact (hopen (hcode hc rfl)).imp hzero h.user_word
  · refine (hsem ?_).imp hzero id
    exact hc.imp (hcode · rfl) fun hc => hc.imp (hcode · rfl) (hcode · rfl)

/-- The flush thread writes to the console what it can. -/
theorem flushPutc (h : Rests L I M σ) (hI : Kept L I) {s : Nat} (hs : M.flushSstatus = some s) (tx : Nat) :
    ∃ M', M.step L (.flushPutc tx) = some M' ∧
      Rests L I M' ((σ.flushChars L tx).on
        { (σ.flushChars L tx).globals with sstatus := setSpp s M.supervisor }) ∧
      σ.owners.Spares L M.mem M'.mem := by
  have hwp := h.inside.wp_flush (T := fun _ _ _ _ => False) hI M.globals.sstatus tx
  have hglobals : ({ σ.globals with sstatus := M.globals.sstatus } : Globals) = M.globals := by
    rw [h.of_sstatus]
  rw [hglobals] at hwp
  obtain ⟨_, m', g', v', hrun, hsim, hframe, rfl, how, hss, hin⟩ :=
    Prog.returns h.inside.holds.tiled.separate (Sim.self _ _) hwp
  obtain ⟨n, hn⟩ := walkLimit_eq
  refine ⟨{ M with
    mem := m'
    flushSstatus := none
    globals := { (σ.flushChars L tx).globals with sstatus := s } }, ?_, ⟨rfl, ?_⟩,
    h.inside.holds.tiled.spares_of_cells hframe⟩
  · simp only [Machine.step, hs, Option.bind_some, hn, Machine.exec, hrun, Option.map_some]
  · have hholds : Holds L (σ.flushChars L tx) m'.view := hin.holds.of_sim (how ▸ hsim)
    refine hin.step hI (.sstatus _) (hholds.on ⟨rfl, rfl, rfl, rfl⟩) rfl rfl rfl
      (List.Subset.refl _) rfl rfl rfl ?_ rfl rfl
    refine (spp_setSpp _ _).trans ?_
    rw [h.supervisor, ← h.inside.running.mode, ← hss]
    exact hin.running.mode

/-- The steps that do not return: there is no memory for a new thread or semaphore, or the flush
thread has not read `sstatus`. -/
def Stuck (M : Machine) : Event → Prop
  | .ecall code _ _ _ _ => code = 0x11 ∨ code = 0x21
  | .flushPutc _ => M.flushSstatus = none
  | _ => False

/-- A step of the machine, and what it leaves alone of user code's memory and of free memory, where a
thread that has no kernel stack may have been given up. -/
theorem step_spares (h : Rests L I M σ) (hI : Kept L I) (hf : σ.globals.handles.flush ≠ 0) {e : Event}
    (ha : Allowed L M e) (hok : LeftoverRejected L M e) :
    M.step L e = none ∧ Stuck M e ∨ ∃ M' σ', M.step L e = some M' ∧ Rests L I M' σ' ∧
      Spared L σ.owners σ'.owners (fun x => e.Writes M x ∨
        e.creates = true ∧ NoStack σ.owners.tiles ∧ σ.owners.Free L x) M.mem M'.mem := by
  cases e with
  | ecall code p0 p1 p2 p3 =>
    have hcode {n : Nat} {c : UInt64} (hc : c.toNat = n) (hn : code.toNat = n) : code = c :=
      UInt64.toNat_inj.mp (hn.trans hc.symm)
    exact (trap_returns hI h (h.inside.spared_ecall (E := fun _ => code = 0x11 ∨ code = 0x21)
      (X := fun x => Event.Writes M x (.ecall code p0 p1 p2 p3) ∨
        Event.creates (.ecall code p0 p1 p2 p3) = true ∧ NoStack σ.owners.tiles ∧ σ.owners.Free L x)
      hI (fun hc => hc.imp (hcode rfl) (hcode rfl)) hf (h.call ha hok)
      (fun hc y hy hy' => .inl ⟨hc.imp (hcode rfl) (hcode rfl), hy, hy'⟩)
      fun hc hno y hy => .inr ⟨decide_eq_true (hcode rfl hc), hno, hy⟩)).imp_left
        fun ⟨hn, _, he⟩ => ⟨hn, he⟩
  | timer =>
    exact (trap_returns (E := fun _ => False) hI h
      (h.inside.spared_of_wp (h.inside.wp_timer hI))).imp_left fun ⟨hn, _, he⟩ => ⟨hn, he⟩
  | console rx =>
    exact (trap_returns (E := fun _ => False) hI h
      (h.inside.spared_of_wp (h.inside.wp_console hI rx))).imp_left fun ⟨hn, _, he⟩ => ⟨hn, he⟩
  | flushRead => exact .inr ⟨_, σ, rfl, ⟨h.globals, h.inside⟩, fun _ _ _ _ => rfl⟩
  | flushPutc tx =>
    cases hs : M.flushSstatus with
    | none => exact .inl ⟨by simp only [Machine.step, hs, Option.bind_none], hs⟩
    | some s =>
      obtain ⟨M', hstep, h', hs⟩ := h.flushPutc hI hs tx
      exact .inr ⟨M', _, hstep, h', hs.spared⟩
  | user m =>
    refine .inr ⟨_, σ, rfl, ⟨h.globals, { h.inside with holds := ?_ }⟩, fun x _ _ hx => ?_⟩
    · exact h.inside.holds.of_user fun x hx => ha.2 x fun hu => hx (h.user hu)
    · exact not_not.mp fun hne => hx (.inl hne)

/-- A step of the machine. -/
theorem step (h : Rests L I M σ) (hI : Kept L I) (hf : σ.globals.handles.flush ≠ 0) {e : Event}
    (ha : Allowed L M e) (hok : LeftoverRejected L M e) :
    M.step L e = none ∧ Stuck M e ∨ ∃ M' σ', M.step L e = some M' ∧ Rests L I M' σ' :=
  (h.step_spares hI hf ha hok).imp_right fun ⟨M', σ', hs, h', _⟩ => ⟨M', σ', hs, h'⟩

end Rests

end Os1Kernel
