import Os1Kernel.Traps.Switch

/-! What the shared hart does in one step and in a run is what the threads' own harts do. -/

namespace Os1Kernel.Harts

open Memory Rv64 Assembly

variable {T : Type}

/-! ### Steps -/

section Steps

variable {K : Symbols} {S S' : Shared T} {A : Private T} {o : Event T} {os : List (Event T)}
  {e : Bool} {d : Nat}

/-- Interrupts are masked in a trap. -/
theorem Related.interrupted (h : Related K S A)
    (hen : S.supervisor = false ∨ sie (S.hart.csr .sstatus) = true) :
    S.phase S.current = some .user := by
  obtain ⟨v, k, -, hrun⟩ := h.running
  generalize S.phase S.current = f at hrun
  cases hrun with
  | user _ => rfl
  | handling hs =>
    rw [hs.supervisor, hs.status.1] at hen
    simp at hen

theorem startEcall_eq (R : Shared T) : R.startEcall K =
    { R.answer K (BitVec.ofInt 64 failedSyscall) with hart :=
      { (R.answer K (BitVec.ofInt 64 failedSyscall)).hart with
        csr := Function.update R.hart.csr .sepc (R.hart.csr .sepc + 4) } } := rfl

variable [DecidableEq T]

theorem Related.code {reg : Reg → Word} {csr : Csr → Word} {mem : Mem} {pc : Word}
    (h : Related K S A) (hphase : S.phase S.current = some .user) (hzero : reg .zero = 0)
    (hcsr : S.supervisor = false → csr = S.hart.csr)
    (hmem : ∀ y, S.Guarded K y → mem y = S.hart.mem y) :
    ∃ A', A.Step K (.code { reg, pc, supervisor := S.supervisor, enabled := sie (csr .sstatus) }) A' ∧
      Related K { S with hart := ⟨reg, csr, mem⟩, pc } A' := by
  obtain ⟨v, k, hl, hs⟩ := h.shown hphase
  obtain ⟨hpointer, hsame⟩ := h.guarded hmem
  refine ⟨_, .code (h.current ▸ hl) hzero hs.supervisor fun huser => ?_, ?_⟩
  · change sie (csr .sstatus) = v.enabled
    rw [hcsr (hs.supervisor.trans huser)]
    exact hs.enabled
  · apply h.next (R := { S with hart := ⟨reg, csr, mem⟩, pc }) rfl rfl (fun _ _ => rfl) hzero
      ⟨hpointer, fun t _ => hsame t⟩
    change Running _ _ _ (S.phase S.current)
    rw [hphase]
    refine .user ⟨rfl, rfl, rfl, rfl, ?_⟩
    rw [(hsame _ h.alive).word (by omega)]
    exact hs.sysSp

theorem Related.kernel {d' : Nat} {reg : Reg → Word} {csr : Csr → Word} {mem : Mem}
    (h : Related K S A) (hphase : S.phase S.current = some (.handling e d)) (hzero : reg .zero = 0)
    (hdepth : 240 + d' ≤ defaultStackSize)
    (hsp : reg .sp + BitVec.ofNat 64 d' = S.hart.reg .sp + BitVec.ofNat 64 d)
    (hsepc : csr .sepc = S.hart.csr .sepc) (hsstatus : csr .sstatus = S.hart.csr .sstatus)
    (hmem : ∀ y, S.Guarded K y → mem y = S.hart.mem y) :
    Related K { S.setPhase (some (.handling e d')) with hart := ⟨reg, csr, mem⟩ } A := by
  obtain ⟨v, k, hl, hs⟩ := h.handling hphase
  obtain ⟨hpointer, hsame⟩ := h.guarded hmem
  refine h.stay hl (h.next rfl rfl (fun t ht => S.setPhase_ne ht _) hzero
    ⟨hpointer, fun t _ => hsame t⟩ ?_)
  change Running _ _ _ ((S.setPhase (some (.handling e d'))).phase S.current)
  rw [S.setPhase_same]
  refine .handling ⟨hs.framed.same (hsame _ h.alive), hdepth, ?_, hsepc.trans hs.sepc, ?_, hs.supervisor⟩
  · -- both sides of `hsp` are the top of what the handler uses
    have hroom := hs.room
    have hsize : defaultStackSize = 4096 := rfl
    have htop : (S.place S.current).top < 2 ^ 64 := h.placed.top_lt
    have hge : defaultStackSize ≤ (S.place S.current).top := Nat.le_add_left _ _
    have heq := congrArg BitVec.toNat hsp
    rw [BitVec.toNat_add, BitVec.toNat_add, hs.sp, BitVec.toNat_ofNat, BitVec.toNat_ofNat] at heq
    have hlt := (reg .sp).isLt
    change (reg .sp).toNat = _
    omega
  · change Status (csr .sstatus) v
    rw [hsstatus]
    exact hs.status

/-- The handler writes `sepc` or `sstatus`. -/
theorem Related.writeCsr {v w : Own} {k : Reg → Word} {csr : Csr → Word} (h : Related K S A)
    (hphase : S.phase S.current = some (.handling e d)) (hl : A.life S.current = some (.live v k))
    (hreg : w.reg = v.reg) (hsepc : csr .sepc = w.pc) (hstatus : Status (csr .sstatus) w) :
    Related K { S with hart := { S.hart with csr } } (A.set (some (.live w k))) := by
  have hs := h.of_handling hphase hl
  apply h.next (R := { S with hart := { S.hart with csr } }) rfl rfl (fun _ _ => rfl) h.zero
    ⟨h.pointer, fun _ _ _ => ⟨fun _ _ _ => rfl, fun _ _ _ => rfl⟩⟩
  change Running _ _ _ (S.phase S.current)
  obtain ⟨hzero, hframe, husrSp, ha0⟩ := hs.framed
  rw [← hreg] at hzero hframe husrSp ha0
  rw [hphase]
  exact .handling ⟨⟨hzero, hframe, husrSp, ha0⟩, hs.room, hs.sp, hsepc, hstatus, hs.supervisor⟩

theorem Related.userMode (h : Related K S A)
    (hphase : S.phase S.current = some (.handling true d)) :
    ∃ A', A.Step K .userMode A' ∧ Related K S.prepareUserMode A' := by
  obtain ⟨v, k, hl, hs⟩ := h.handling hphase
  obtain ⟨h1, h5, -⟩ := hs.status
  refine ⟨_, .userMode (h.current ▸ hl), h.writeCsr hphase hl rfl ?_ ?_⟩
  · rw [Function.update_of_ne (by decide)]
    exact hs.sepc
  · rw [Function.update_self]
    refine ⟨?_, ?_, ?_⟩
    · simpa [sie] using h1
    · simpa [spie] using h5
    · simp [spp]

/-- The start of `k_handle_ecall`. -/
theorem Related.startEcall {v : Own} {k : Reg → Word} (h : Related K S A)
    (hphase : S.phase S.current = some (.handling true d)) (hl : A.life S.current = some (.live v k)) :
    Related K (S.startEcall K) (A.set (some (.live
      { v with reg := Function.update v.reg .a0 (BitVec.ofInt 64 failedSyscall), pc := v.pc + 4 } k))) := by
  have hs := h.of_handling hphase hl
  let w : Own := { v with reg := Function.update v.reg .a0 (BitVec.ofInt 64 failedSyscall) }
  have hanswer := h.answer hphase hl (BitVec.ofInt 64 failedSyscall)
  have hl' : (A.set (some (.live w k))).life S.current = some (.live w k) := by
    rw [← h.current]
    exact A.set_life _
  rw [startEcall_eq, ← Private.set_set A (some (.live w k))]
  refine hanswer.writeCsr (w := { w with pc := v.pc + 4 }) hphase hl' rfl ?_ ?_
  · rw [Function.update_self, hs.sepc]
  · rw [Function.update_of_ne (by decide)]
    exact hs.status

theorem Related.ecall (h : Related K S A) (hphase : S.phase S.current = some .user) :
    ∃ A', A.Step K .ecall A' ∧ Related K ((S.trap K true).startEcall K) A' := by
  obtain ⟨v, k, x, hl, -, htrap⟩ := h.trap hphase true
  have hp : (S.trap K true).phase (S.trap K true).current = some (.handling true 0) :=
    S.setPhase_same _
  have hcur : (S.trap K true).current = A.current := h.current.symm
  generalize S.trap K true = R at htrap hp hcur
  have hstart := htrap.startEcall hp (by rw [hcur]; exact A.set_life _)
  rw [Private.set_set] at hstart
  simp only [if_true, Function.update_idem] at hstart
  exact ⟨_, .ecall (h.current ▸ hl), hstart⟩

/-- Every step of the shared hart is one of the threads' own harts. -/
theorem Related.step (h : Related K S A) (hs : Step K S o S') :
    ∃ A', A.Step K o A' ∧ Related K S' A' := by
  cases hs with
  | code hphase hzero hcsr hmem => exact h.code hphase hzero hcsr hmem
  | interrupt hen =>
    obtain ⟨v, k, x, hl, hs, htrap⟩ := h.trap (h.interrupted hen) false
    refine ⟨A, .interrupt (h.current ▸ hl) ?_, h.stay hl htrap⟩
    rw [← hs.supervisor, ← hs.enabled]
    exact hen
  | ecall hphase => exact h.ecall hphase
  | kernel hphase hzero hdepth hsp hsepc hsstatus hmem =>
    exact ⟨A, .kernel, h.kernel hphase hzero hdepth hsp hsepc hsstatus hmem⟩
  | answer x hphase =>
    obtain ⟨v, k, hl, -⟩ := h.handling hphase
    exact ⟨_, .answer x (h.current ▸ hl), h.answer hphase hl x⟩
  | userMode hphase => exact h.userMode hphase
  | create usrSp hphase ht hp hapart =>
    obtain ⟨v, k, hl, -⟩ := h.handling hphase
    rename_i t _
    refine ⟨_, .create usrSp (h.current ▸ hl) ?_, h.create hphase hl ht hp hapart usrSp⟩
    have hne : t ≠ S.current := fun heq => h.alive (heq ▸ ht)
    have hparked := h.parked t hne
    rw [ht] at hparked
    generalize A.life t = l at hparked
    cases hparked
    rfl
  | switch hphase ht hzero hy =>
    obtain ⟨R, A', hyield, hstep, hrel⟩ := h.yield hphase ht hzero
    rw [hy] at hyield
    cases hyield
    exact ⟨A', hstep, hrel⟩
  | exit hphase ht hzero hy =>
    obtain ⟨R, A', hexit, hstep, hrel⟩ := h.exit hphase ht hzero
    rw [hy] at hexit
    cases hexit
    exact ⟨A', hstep, hrel⟩
  | sret hphase =>
    obtain ⟨v, k, hl, -⟩ := h.handling hphase
    exact ⟨A, .sret, h.leave hphase hl⟩

/-! ### Runs -/

/-- The main thread has the hart to itself, and its context knows its kernel stack. -/
structure Alone (K : Symbols) (S : Shared T) : Prop where
  only : ∀ t, S.phase t = if t = S.current then some .user else none
  zero : S.hart.reg .zero = 0
  sound : (S.place S.current).Sound K
  pointer : Shared.context K S.hart.mem = (S.place S.current).context
  sysSp : (loadWord S.hart.mem ((S.place S.current).context + 0x10)).toNat = (S.place S.current).top

/-- The hart of the main thread. -/
def Private.alone (S : Shared T) : Private T where
  current := S.current
  life t :=
    if t = S.current then
      some (.live ⟨S.hart.reg, S.pc, S.supervisor, sie (S.hart.csr .sstatus)⟩ S.hart.reg)
    else none

theorem Alone.related (h : Alone K S) : Related K S (.alone S) := by
  have hlive (t : T) (ht : S.phase t ≠ none) : t = S.current := by
    by_contra hne
    rw [h.only, if_neg hne] at ht
    exact ht rfl
  constructor
  · rfl
  · exact h.zero
  · constructor
    · intro t ht
      rw [hlive t ht]
      exact h.sound
    · intro t u ht hu hne
      exact absurd ((hlive t ht).trans (hlive u hu).symm) hne
  · exact h.pointer
  · refine ⟨_, _, if_pos rfl, ?_⟩
    rw [h.only, if_pos rfl]
    exact .user ⟨rfl, rfl, rfl, rfl, h.sysSp⟩
  · intro t ht
    have hl : (Private.alone S).life t = none := if_neg ht
    rw [h.only, if_neg ht, hl]
    exact .absent

/-- The shared hart in a state is the own hart of the thread that runs there: its registers and its mode
while the thread runs its own code, and in a trap nothing but the kernel, which no interrupt disturbs and
which can go on with any other thread. -/
structure Shows (K : Symbols) (S : Shared T) (A : Private T) : Prop where
  current : A.current = S.current
  own : S.phase S.current = some .user → ∃ v k, A.life S.current = some (.live v k) ∧
    S.hart.reg = v.reg ∧ S.pc = v.pc ∧ S.supervisor = v.supervisor ∧
    sie (S.hart.csr .sstatus) = v.enabled
  kernel : S.phase S.current ≠ some .user → S.supervisor = true ∧ sie (S.hart.csr .sstatus) = false
  yields : ∀ e d t regs, S.phase S.current = some (.handling e d) → (t = S.current ∨ S.Waits t) →
    regs .zero = 0 → ∃ S', S.yield K t regs = some S'

theorem Related.shows (h : Related K S A) : Shows K S A where
  current := h.current
  own hphase := by
    obtain ⟨v, k, hl, hs⟩ := h.shown hphase
    exact ⟨v, k, hl, hs.reg, hs.pc, hs.supervisor, hs.enabled⟩
  kernel hphase := by
    obtain ⟨v, k, -, hrun⟩ := h.running
    generalize S.phase S.current = f at hrun hphase
    cases hrun with
    | user _ => exact absurd rfl hphase
    | handling hs => exact ⟨hs.supervisor, hs.status.1⟩
  yields e d t regs hphase ht hregs := by
    obtain ⟨S', A', hyield, -⟩ := h.yield hphase ht hregs
    exact ⟨S', hyield⟩

/-- In every run of the threads on one hart each thread sees a hart of its own, on which its own code,
the results of its system calls and nothing else have an effect: the events of the run fix these harts. -/
theorem private_harts (h : Alone K S) (hrun : Refine.Runs (Step K) S os S') :
    ∃ A, Refine.Runs (Private.Step K) (.alone S) os A ∧ Shows K S' A ∧
      ∀ B, Refine.Runs (Private.Step K) (.alone S) os B → B = A := by
  obtain ⟨A, hown, hrel⟩ := hrun.simulate (fun _ _ _ _ hs hr => hr.step hs) h.related
  exact ⟨A, hown, hrel.shows, fun B hB => hB.unique (fun _ _ _ _ h h' => h.unique h') hown⟩

end Steps

/-! ### A run -/

def exampleSymbols : Symbols where
  kCurrentContext := 0x1000
  kTcbStart := 0x2000
  kTcbRunWrapper := 0x3000
  afterSave := 0x4000
  distinct := by decide

/-- A main thread, and the place of one that it can create. -/
def exampleStart : Shared Bool where
  hart :=
    { reg := fun _ => 0
      csr := fun _ => 0
      mem := storeWord (storeWord (fun _ => 0) 0x1000 0x5000) 0x5010 0x7000 }
  pc := 0x100
  supervisor := true
  current := false
  place t := if t then { context := 0x8000, stack := 0x9000 } else { context := 0x5000, stack := 0x6000 }
  phase t := if t = false then some .user else none

theorem exampleStart_sound (t : Bool) : (exampleStart.place t).Sound exampleSymbols := by
  cases t
  · exact ⟨by decide, by decide, .inl (by decide), .inl (by decide), .inl (by decide)⟩
  · exact ⟨by decide, by decide, .inl (by decide), .inl (by decide), .inl (by decide)⟩

theorem exampleStart_alone : Alone exampleSymbols exampleStart where
  only _ := rfl
  zero := rfl
  sound := exampleStart_sound false
  pointer := by
    change (loadWord (storeWord (storeWord (fun _ => 0) 0x1000 0x5000) 0x5010 0x7000) 0x1000).toNat = _
    rw [loadWord_storeWord_apart (.inr (by decide)), loadWord_storeWord_same]
    rfl
  sysSp := by
    change (loadWord (storeWord (storeWord (fun _ => 0) 0x1000 0x5000) 0x5010 0x7000) 0x5010).toNat = _
    rw [loadWord_storeWord_same]
    rfl

/-- The main thread creates a thread. -/
theorem exampleStart_creates : ∃ S₁ S₂, Step exampleSymbols exampleStart .ecall S₁ ∧
    Step exampleSymbols S₁ (.create true 0xb000) S₂ ∧ S₂.current = false ∧
    S₂.phase false = some (.handling true 0) ∧ S₂.phase true = some .fresh := by
  have hcall : Step exampleSymbols exampleStart .ecall
      ((exampleStart.trap exampleSymbols true).startEcall exampleSymbols) := .ecall rfl
  have hphase : ((exampleStart.trap exampleSymbols true).startEcall exampleSymbols).phase =
      Function.update exampleStart.phase false (some (.handling true 0)) := rfl
  have hplace : ((exampleStart.trap exampleSymbols true).startEcall exampleSymbols).place =
      exampleStart.place := rfl
  have hcur : ((exampleStart.trap exampleSymbols true).startEcall exampleSymbols).current = false := rfl
  generalize (exampleStart.trap exampleSymbols true).startEcall exampleSymbols = S₁ at *
  have hrunning : S₁.phase S₁.current = some (.handling true 0) := by
    rw [hphase, hcur, Function.update_self]
  have hcreate : Step exampleSymbols S₁ (.create true 0xb000)
      (S₁.create exampleSymbols true (exampleStart.place true) 0xb000) := by
    refine .create 0xb000 hrunning ?_ (exampleStart_sound true) fun u hu => ?_
    · rw [hphase]
      rfl
    · rw [hphase] at hu
      rw [hplace]
      cases u
      · exact ⟨⟨.inr (by decide), .inr (by decide)⟩, ⟨.inr (by decide), .inr (by decide)⟩⟩
      · exact absurd rfl hu
  refine ⟨S₁, _, hcall, hcreate, hcur, ?_, ?_⟩
  · change Function.update S₁.phase true (some .fresh) false = _
    rw [Function.update_of_ne (by decide), ← hrunning, hcur]
  · change Function.update S₁.phase true (some .fresh) true = _
    exact Function.update_self ..

/-- The main thread creates a thread and switches to it. -/
theorem private_harts_created : ∃ S A before after,
    Refine.Runs (Step exampleSymbols) exampleStart [.ecall, .create true 0xb000, .switch true before after] S ∧
      Refine.Runs (Private.Step exampleSymbols) (.alone exampleStart)
        [.ecall, .create true 0xb000, .switch true before after] A ∧ Shows exampleSymbols S A := by
  obtain ⟨S₁, S₂, hcall, hcreate, hcur, hrunning, hfresh⟩ := exampleStart_creates
  obtain ⟨A₁, -, hrel₁⟩ := exampleStart_alone.related.step hcall
  obtain ⟨A₂, -, hrel₂⟩ := hrel₁.step hcreate
  rw [← hcur] at hrunning
  have hzero : exampleStart.hart.reg .zero = 0 := rfl
  obtain ⟨S, A₃, hyield, -⟩ := hrel₂.yield hrunning (.inr (.inl hfresh)) hzero
  have hswitch := Step.switch (K := exampleSymbols) hrunning (.inr (.inl hfresh)) hzero hyield
  have hrun : Refine.Runs (Step exampleSymbols) exampleStart
      [.ecall, .create true 0xb000, .switch true _ _] S := ⟨_, hcall, _, hcreate, _, hswitch, rfl⟩
  obtain ⟨A, hown, hshows, -⟩ := private_harts exampleStart_alone hrun
  exact ⟨S, A, _, _, hrun, hown, hshows⟩

end Os1Kernel.Harts
