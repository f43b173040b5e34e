import Os1Kernel.Threads.Moves

/-! The operations of semaphores and `dispatch`, as moves of the abstract machine. -/

namespace Os1Kernel

open Memory

theorem Sem.block_eq (L : Layout) (this : Nat) : Sem.block L this = (do
    let g ← globals
    wr g.currentTcb .status TCBStatus.suspended.code
    ListTCB.addLast (Sem.suspendedTcbs this) g.currentTcb
    log (.blocked g.currentTcb this)
    Holds.switchFrom L g.currentTcb) := rfl

theorem Sem.wait_eq (L : Layout) (this : Nat) : Sem.wait L this = (do
    log (.waitCalled (← globals).currentTcb this)
    wr this .value (decBits (← rd this .value))
    if toInt (← rd this .value) < 0 then
      Sem.block L this
      Sem.afterBlock this
    else Sem.waitReturn this Sem.waitSuccess) := rfl

theorem dispatch_eq (L : Layout) : dispatch L = (do
    let g ← globals
    if g.currentTcb ≠ 0 then retire L g.currentTcb >>= Holds.switchFrom L
    else pure g.currentTcb >>= Holds.switchFrom L) := rfl

/-- What a thread does that goes on in `yield`. -/
def resetTicks : Kernel Unit := modifyGlobals fun g => { g with timerTicks := 0 }

namespace Holds

variable {L : Layout} {σ : Spec} {v : Cells} {t s n : Nat} {R : List Nat} {c : Cont}

theorem bits_lt (h : Holds L σ v) (hs : s ∈ σ.owners.semaphores L) : v s .value = σ.abs.bits s :=
  (h.queues.bits s hs).1

section Switching

variable {Q : Unit → Cells → Globals → Prop} {T : Switch → Kernel Unit → Cells → Globals → Prop}

theorem wp_block (h : Holds L σ v) (hrun : Running σ) (hs : s ∈ σ.owners.semaphores L)
    (hR : σ.abs.ready = n :: R) (hc : c ≠ .fresh)
    (hT : ∀ x v' sw, Holds L ((σ.suspend s c).switch n R x) v' →
      Switches L ((σ.suspend s c).switch n R x) σ.current sw →
      T sw resetTicks v' ((σ.suspend s c).switch n R x).globals) :
    (Sem.block L s).wp (σ.owners.cells L) v σ.globals Q T := by
  have hmem : σ.current ∈ σ.abs.moving := by simp [hrun.moving]
  have hcell := Owners.cells_tcb (W := σ.owners) (h.current_mem hrun) (f := .status) rfl
  have hset := h.queues.set_moving h.tiled hmem (f := .status) (x := TCBStatus.suspended.code)
    (by decide)
  rw [Sem.block_eq, Prog.wp_bind, wp_globals, Prog.wp_bind, wp_wr]
  refine ⟨hcell, ?_⟩
  rw [Prog.wp_bind]
  refine hset.wp_addWaiting h.tiled hs hrun.moving ?_ fun v' hc' hQ' => ?_
  · rw [set_half (by decide) (by decide), if_pos ⟨rfl, rfl⟩]
  rw [Prog.wp_bind, wp_log]
  have hq : Quiet v v' := .trans (.set (by simp [Field.queue])) (.of_changes hc' (by simp [Field.queue]))
  have hend : Holds L (σ.suspend s c) v' := by
    refine h.of_quiet hq (hQ'.of_cont _) rfl rfl (fun t ht => ?_) ⟨rfl, rfl, rfl, rfl⟩ ?_
    · rw [hrun.context] at ht
      exact Function.update_of_ne ht _ _
    · exact fun t ht => absurd ht List.not_mem_nil
  refine hend.wp_switchFrom rfl hR (.inr ⟨hrun.context.symm, h.current_mem hrun, ?_, hrun.mode⟩) hT
  exact fun heq => hc ((Function.update_self _ _ _).symm.trans heq)

/-- `dispatch` of a thread that goes on running. -/
theorem wp_dispatch (h : Holds L σ v) (hrun : Running σ) (hc : c ≠ .fresh)
    (hT : ∀ n R x v' sw, (σ.requeue c).abs.ready = n :: R →
      Holds L ((σ.requeue c).switch n R x) v' → Switches L ((σ.requeue c).switch n R x) σ.current sw →
      T sw resetTicks v' ((σ.requeue c).switch n R x).globals) :
    (dispatch L).wp (σ.owners.cells L) v σ.globals Q T := by
  have hcell := Owners.cells_tcb (W := σ.owners) (h.current_mem hrun) (f := .status) rfl
  have hstatus := h.status σ.current (by simp [hrun.moving])
  have hne : σ.globals.currentTcb ≠ 0 := (h.current_pos hrun).ne'
  rw [hrun.status] at hstatus
  rw [dispatch_eq, Prog.wp_bind, wp_globals, if_pos hne, Prog.wp_bind]
  simp only [retire, Prog.wp_bind, wp_rd]
  refine ⟨hcell, ?_⟩
  rw [show v σ.globals.currentTcb .status = TCBStatus.running.code from hstatus, if_pos rfl,
    Prog.wp_bind]
  refine h.wp_requeue (c := c) hrun fun v' h' => ?_
  rw [Prog.wp_pure]
  obtain ⟨n, R, hR⟩ : ∃ n R, (σ.requeue c).abs.ready = n :: R :=
    List.exists_cons_of_ne_nil (by simp [Spec.requeue, Spec.log, Spec.on])
  refine h'.wp_switchFrom rfl hR (.inr ⟨hrun.context.symm, h.current_mem hrun, ?_, hrun.mode⟩)
    fun x v' sw => hT n R x v' sw hR
  exact fun heq => hc ((Function.update_self _ _ _).symm.trans heq)

/-- `dispatch` of a thread that has gone to sleep. -/
theorem wp_dispatch_asleep (h : Holds L σ v) (hm : σ.abs.moving = [])
    (hcur : σ.current = σ.globals.kCurrentContext) (hmem : σ.current ∈ σ.owners.tcbs L)
    (hst : v σ.current .status = TCBStatus.suspended.code) (hR : σ.abs.ready = n :: R)
    (hc : σ.abs.cont σ.current ≠ .fresh) (hmode : spp σ.globals.sstatus = σ.mode σ.current)
    (hT : ∀ x v' sw, Holds L (σ.switch n R x) v' → Switches L (σ.switch n R x) σ.current sw →
      T sw resetTicks v' (σ.switch n R x).globals) :
    (dispatch L).wp (σ.owners.cells L) v σ.globals Q T := by
  have hcell := Owners.cells_tcb (W := σ.owners) hmem (f := .status) rfl
  have hne : σ.globals.currentTcb ≠ 0 := (h.tiled.tcb_inside hmem).1.ne'
  rw [dispatch_eq, Prog.wp_bind, wp_globals, if_pos hne, Prog.wp_bind]
  simp only [retire, Prog.wp_bind, wp_rd]
  refine ⟨hcell, ?_⟩
  rw [show v σ.globals.currentTcb .status = TCBStatus.suspended.code from hst, if_neg (by decide),
    if_neg (by decide), Prog.wp_pure]
  exact h.wp_switchFrom hm hR (.inr ⟨hcur, hmem, hc, hmode⟩) hT

end Switching

section Semaphores

variable {Q : Int → Cells → Globals → Prop} {T : Switch → Kernel Int → Cells → Globals → Prop}

theorem wp_afterBlock (h : Holds L σ v) (hrun : Running σ)
    (hQ : Holds L (σ.afterBlock s) v →
      Q (if σ.abs.flag σ.current then Sem.waitFail else Sem.waitSuccess) v (σ.afterBlock s).globals) :
    (Sem.afterBlock s).wp (σ.owners.cells L) v σ.globals Q T := by
  have hmem := h.current_mem hrun
  have hcell := Owners.cells_tcb (W := σ.owners) hmem (f := .interrupted) rfl
  have hflag : v σ.globals.currentTcb .interrupted = (σ.abs.flag σ.current).toNat :=
    h.queues.flag σ.current hmem
  have hend := hQ (h.log _)
  unfold Sem.afterBlock Sem.waitReturn
  simp only [Prog.wp_bind, wp_globals, wp_rd, hflag]
  refine ⟨hcell, ?_⟩
  simp only [Spec.afterBlock, Spec.waitReturn] at hend
  cases hf : σ.abs.flag σ.current with
  | true =>
    simp only [hf, if_true] at hend
    simp only [Bool.toNat_true, ne_eq, one_ne_zero, not_false_eq_true, if_true, Prog.wp_bind,
      wp_globals, wp_log, Prog.wp_pure]
    exact hend
  | false =>
    simp only [hf, Bool.false_eq_true, if_false] at hend
    simp only [Bool.toNat_false, ne_eq, not_true, if_false, Prog.wp_bind, wp_globals, wp_log,
      Prog.wp_pure]
    exact hend

/-- `Sem::wait`: the thread goes on, or it is suspended and another one runs. -/
theorem wp_wait (h : Holds L σ v) (hrun : Running σ) (hs : s ∈ σ.owners.semaphores L)
    (hc : c ≠ .fresh) (hready : toInt (decBits (σ.abs.bits s)) < 0 → σ.abs.ready ≠ [])
    (hQ : ∀ v', 0 ≤ toInt (decBits (σ.abs.bits s)) →
      Holds L ((σ.waitStart s).waitReturn s Sem.waitSuccess) v' →
      Q Sem.waitSuccess v' ((σ.waitStart s).waitReturn s Sem.waitSuccess).globals)
    (hT : ∀ n R x v' sw, toInt (decBits (σ.abs.bits s)) < 0 → σ.abs.ready = n :: R →
      Holds L (((σ.waitStart s).suspend s c).switch n R x) v' →
      Switches L (((σ.waitStart s).suspend s c).switch n R x) σ.current sw →
      T sw (resetTicks >>= fun _ => Sem.afterBlock s) v'
        (((σ.waitStart s).suspend s c).switch n R x).globals) :
    (Sem.wait L s).wp (σ.owners.cells L) v σ.globals Q T := by
  have hcell := (Owners.cells_sem (W := σ.owners) hs).1
  have hbits := h.bits_lt hs
  have hlt := decBits_lt (σ.abs.bits s)
  have hstart : Holds L (σ.waitStart s) (v.set s .value (decBits (σ.abs.bits s))) :=
    (h.log _).setBits hlt
  have hval : v.set s .value (decBits (σ.abs.bits s)) s .value = decBits (σ.abs.bits s) := by
    rw [set_half (by decide) hlt, if_pos ⟨rfl, rfl⟩]
  by_cases hneg : toInt (decBits (σ.abs.bits s)) < 0
  · obtain ⟨n, R, hR⟩ := List.exists_cons_of_ne_nil (hready hneg)
    rw [Sem.wait_eq]
    simp only [Prog.wp_bind, wp_globals, wp_log, wp_rd, wp_wr, hbits]
    refine ⟨hcell, hcell, hcell, ?_⟩
    rw [hval, if_pos hneg, Prog.wp_bind]
    exact hstart.wp_block ⟨hrun.moving, hrun.context, hrun.status, hrun.mode⟩ hs hR hc
      fun x v' sw => hT n R x v' sw hneg hR
  · rw [Sem.wait_eq]
    simp only [Prog.wp_bind, wp_globals, wp_log, wp_rd, wp_wr, hbits]
    refine ⟨hcell, hcell, hcell, ?_⟩
    rw [hval, if_neg hneg]
    simp only [Sem.waitReturn, Prog.wp_bind, wp_globals, wp_log, Prog.wp_pure]
    exact hQ _ (not_lt.mp hneg) (hstart.log _)

theorem wp_signal (h : Holds L σ v) (hs : s ∈ σ.owners.semaphores L)
    (hQ : ∀ v', Holds L (σ.signal s) v' → Q Sem.signalSuccess v' (σ.signal s).globals) :
    (Sem.signal L s).wp (σ.owners.cells L) v σ.globals Q T := by
  have hcell := (Owners.cells_sem (W := σ.owners) hs).1
  have hbits := h.bits_lt hs
  have hlt := u32_lt (σ.abs.bits s + 1)
  have hstart : Holds L (σ.signalStart s) (v.set s .value (u32 (σ.abs.bits s + 1))) :=
    (h.log _).setBits hlt
  unfold Sem.signal
  simp only [Prog.wp_bind, wp_log, wp_rd, wp_wr, hbits]
  refine ⟨hcell, hcell, hcell, ?_⟩
  simp only [set_half (f := .value) rfl hlt, and_self, if_true]
  unfold Spec.signal at hQ
  split
  · rename_i hle
    rw [if_pos hle] at hQ
    rw [Prog.wp_bind]
    cases hR : σ.abs.waiting s with
    | nil =>
      simp only [hR] at hQ
      exact hstart.wp_unblock_nil hs hR (hQ _ hstart)
    | cons t R =>
      simp only [hR] at hQ
      exact hstart.wp_unblock hs hR hQ
  · rename_i hle
    rw [if_neg hle] at hQ
    exact hQ _ hstart

/-- The loop of `Sem::close`. -/
theorem wp_unblockAll {fuel : Nat} {xs : List Nat} {Q : Unit → Cells → Globals → Prop}
    {T : Switch → Kernel Unit → Cells → Globals → Prop} (h : Holds L σ v)
    (hs : s ∈ σ.owners.semaphores L) (hx : σ.abs.waiting s = xs) (hfuel : xs.length < fuel)
    (hQ : ∀ v', Holds L (σ.releaseAll s xs) v' → Q () v' (σ.releaseAll s xs).globals) :
    (Sem.unblockAll L s fuel).wp (σ.owners.cells L) v σ.globals Q T := by
  induction xs generalizing σ v fuel with
  | nil =>
    obtain ⟨fuel, rfl⟩ := Nat.exists_eq_succ_of_ne_zero (by omega : fuel ≠ 0)
    rw [Sem.unblockAll, Prog.wp_bind]
    refine h.wp_unblock_nil hs hx ?_
    rw [if_neg (by decide), Prog.wp_pure]
    exact hQ v h
  | cons t R ih =>
    obtain ⟨fuel, rfl⟩ := Nat.exists_eq_succ_of_ne_zero (by omega : fuel ≠ 0)
    rw [Sem.unblockAll, Prog.wp_bind]
    refine h.wp_unblock hs hx fun v' h' => ?_
    rw [if_pos rfl]
    refine ih h' hs ?_ (by simpa using hfuel) hQ
    simp [Spec.release, Spec.log, Spec.on]

theorem wp_close (h : Holds L σ v) (hs : s ∈ σ.owners.semaphores L)
    (hQ : ∀ v', Holds L (σ.releaseAll s (σ.abs.waiting s)) v' →
      Q Sem.closeSuccess v' (σ.releaseAll s (σ.abs.waiting s)).globals) :
    (Sem.close L s).wp (σ.owners.cells L) v σ.globals Q T := by
  have hlen := h.tiled.length_lt (h.queues.waiting s hs).nodup fun x hx => h.queues.waiting_mem hs hx
  rw [Sem.close, Prog.wp_bind]
  exact h.wp_unblockAll hs rfl hlen fun v' h' => hQ v' h'

end Semaphores

end Holds

end Os1Kernel
