import Os1Kernel.Threads.Spec

/-! What the kernel does to memory when threads move between lists, as moves of the abstract
machine. -/

namespace Os1Kernel

open Memory

/-- The lists do not depend on other fields. -/
theorem Queues.of_fields {L : Layout} {W : Owners} {A : Abs} {v v' : Cells} (h : Queues L W A v)
    (hv : ∀ a f, f ∈ Field.queue → v' a f = v a f) : Queues L W A v' := by
  refine ⟨?_, ⟨?_, ?_, h.asleep.lt⟩, h.future, fun s hs => ?_, h.place, fun t ht => ?_, fun t ht => ?_,
    fun s hs t ht => ?_, fun s hs => ?_, fun t ht => ?_⟩
  · exact h.ready.congr ⟨hv _ _ (by decide), hv _ _ (by decide)⟩
      fun _ _ => ⟨hv _ _ (by decide), hv _ _ (by decide)⟩
  · exact h.asleep.list.congr ⟨hv _ _ (by decide), hv _ _ (by decide)⟩
      fun _ _ => ⟨hv _ _ (by decide), hv _ _ (by decide)⟩
  · exact h.asleep.delays.congr fun _ _ => hv _ _ (by decide)
  · exact (h.waiting s hs).congr ⟨hv _ _ (by decide), hv _ _ (by decide)⟩
      fun _ _ => ⟨hv _ _ (by decide), hv _ _ (by decide)⟩
  · exact (hv _ _ (by decide)).trans (h.readyStatus t ht)
  · exact (hv _ _ (by decide)).trans (h.asleepStatus t ht)
  · exact (hv _ _ (by decide)).trans (h.waitingStatus s hs t ht)
  · rw [hv _ _ (by decide)]
    exact h.bits s hs
  · exact (hv _ _ (by decide)).trans (h.flag t ht)

/-- The lists do not depend on where threads go on. -/
theorem Queues.of_cont {L : Layout} {W : Owners} {A : Abs} {v : Cells} (h : Queues L W A v)
    (cont : Nat → Cont) : Queues L W { A with cont } v :=
  ⟨h.ready, h.asleep, h.future, h.waiting, h.place, h.readyStatus, h.asleepStatus, h.waitingStatus,
    h.bits, h.flag⟩

/-- `k_save_context` has put the context of `old` away, if there is one to save, and the hart goes on
in the context of the thread that runs now. -/
structure Switches (L : Layout) (σ : Spec) (old : Nat) (sw : Switch) : Prop where
  saved : sw.saved = old
  restored : sw.restored = σ.current
  ra : sw.ra = if σ.abs.cont σ.current = .fresh then L.kTcbStart else L.inYield
  mode : spp σ.globals.sstatus = σ.mode σ.current

theorem spp_u64 (n : Nat) : spp (n % 256 ^ 8) = spp n := by
  rw [spp, spp, show 256 ^ 8 = 2 ^ 64 from rfl, Nat.testBit_mod_two_pow]
  simp

namespace Holds

variable {L : Layout} {σ : Spec} {v : Cells} {t s n : Nat} {R : List Nat} {c : Cont}

/-- The current thread is the only one that is in no list. -/
structure Running (σ : Spec) : Prop where
  moving : σ.abs.moving = [σ.current]
  context : σ.globals.kCurrentContext = σ.current
  status : σ.status = .running
  mode : spp σ.globals.sstatus = σ.mode σ.current

theorem current_mem (h : Holds L σ v) (hrun : Running σ) : σ.current ∈ σ.owners.tcbs L :=
  h.queues.moving_mem (by simp [hrun.moving])

theorem current_pos (h : Holds L σ v) (hrun : Running σ) : 0 < σ.current :=
  (h.tiled.tcb_inside (h.current_mem hrun)).1

section Moves

variable {Q : Unit → Cells → Globals → Prop} {T : Switch → Kernel Unit → Cells → Globals → Prop}

/-- `put_tcb` of the current thread. -/
theorem wp_requeue (h : Holds L σ v) (hrun : Running σ)
    (hQ : ∀ v', Holds L (σ.requeue c) v' → Q () v' (σ.requeue c).globals) :
    (Scheduler.putTcb L σ.current).wp (σ.owners.cells L) v σ.globals Q T := by
  refine h.queues.wp_putTcb h.tiled hrun.moving fun v' hq _ hQ' => ?_
  refine hQ v' (h.of_quiet hq (hQ'.of_cont _) rfl rfl (fun t ht => ?_) ⟨rfl, rfl, rfl, rfl⟩ ?_)
  · rw [hrun.context] at ht
    exact Function.update_of_ne ht _ _
  · exact fun t ht => absurd ht List.not_mem_nil

/-- `put_to_sleep` of the current thread. -/
theorem wp_sleep (h : Holds L σ v) (hrun : Running σ) (hn : 1 ≤ n ∧ n < 2 ^ 64)
    (hQ : ∀ v', v' σ.current .status = TCBStatus.suspended.code → Holds L (σ.sleep n) v' →
      Q () v' (σ.sleep n).globals) :
    (TCBSleepQueue.putToSleep L.sleepQueue σ.current n).wp (σ.owners.cells L) v σ.globals Q T := by
  refine h.queues.wp_putToSleep h.tiled hrun.moving hn fun v' hq hQ' => ?_
  refine hQ v' ?_ (h.of_quiet hq (hQ'.of_cont _) rfl rfl (fun t ht => ?_) ⟨rfl, rfl, rfl, rfl⟩ ?_)
  · refine hQ'.asleepStatus _ ?_
    simp [insertSleep]
  · rw [hrun.context] at ht
    exact Function.update_of_ne ht _ _
  · exact fun t ht => absurd ht List.not_mem_nil

/-- `timer_tick` -/
theorem wp_wake (h : Holds L σ v) (hQ : ∀ v', Holds L σ.wake v' → Q () v' σ.wake.globals) :
    (TCBSleepQueue.timerTick L L.sleepQueue).wp (σ.owners.cells L) v σ.globals Q T := by
  refine h.queues.wp_timerTick h.tiled fun v' hq hst hQ' => ?_
  refine hQ v' (h.of_quiet hq hQ' rfl rfl (fun _ _ => rfl) ⟨rfl, rfl, rfl, rfl⟩ fun t ht => ?_)
  exact (hst t ht).trans (h.status t ht)

/-- A semaphore's value. -/
theorem setBits (h : Holds L σ v) {b : Nat} (hb : b < 2 ^ 32) :
    Holds L (σ.setBits s b) (v.set s .value b) :=
  h.of_quiet (.set (by decide)) (h.queues.set_bits hb) rfl rfl (fun _ _ => rfl)
    ⟨rfl, rfl, rfl, rfl⟩ fun t ht => (View.set_field_ne (by decide)).trans (h.status t ht)

end Moves

section Release

variable {Q : Int → Cells → Globals → Prop} {T : Switch → Kernel Int → Cells → Globals → Prop}
  {waitError : Bool}

/-- `unblock` of the thread that waits first. -/
theorem wp_unblock (h : Holds L σ v) (hs : s ∈ σ.owners.semaphores L) (hR : σ.abs.waiting s = t :: R)
    (hQ : ∀ v', Holds L (σ.release s t R waitError) v' →
      Q Sem.unblockSuccess v' (σ.release s t R waitError).globals) :
    (Sem.unblock L s waitError).wp (σ.owners.cells L) v σ.globals Q T := by
  have ht := h.queues.waiting_mem hs (show t ∈ σ.abs.waiting s by simp [hR])
  have hne := (h.tiled.tcb_inside ht).1.ne'
  have hcell := Owners.cells_tcb (W := σ.owners) ht (f := .interrupted) rfl
  unfold Sem.unblock Sem.suspendedTcbs
  rw [Prog.wp_bind]
  refine h.queues.wp_takeWaiting h.tiled hs hR fun v₁ hc₁ hQ₁ => ?_
  simp only [hne, ne_eq, not_false_eq_true, if_true, Prog.wp_bind, wp_wr, hcell, true_and, wp_log,
    Prog.wp_pure]
  refine (hQ₁.set_flag (t := t) waitError).wp_putTcb h.tiled rfl fun v₂ hq₂ hst₂ hQ₂ => ?_
  have hq : Quiet v v₂ := .trans (.of_changes hc₁ (by simp [Field.queue]))
    (.trans (.set (by simp [Field.queue])) hq₂)
  refine hQ v₂ (h.of_quiet hq hQ₂ rfl rfl (fun _ _ => rfl) ⟨rfl, rfl, rfl, rfl⟩ fun u hu => ?_)
  have hut : u ≠ t := by
    rintro rfl
    exact (h.queues.nowhere h.tiled hu).waiting s hs (by simp [hR])
  rw [hst₂ u hut, View.set_field_ne (by decide), hc₁ _ _ (by simp) (by simp)]
  exact h.status u hu

theorem wp_unblock_nil (h : Holds L σ v) (hs : s ∈ σ.owners.semaphores L)
    (hnil : σ.abs.waiting s = []) (hQ : Q Sem.unblockFail v σ.globals) :
    (Sem.unblock L s waitError).wp (σ.owners.cells L) v σ.globals Q T := by
  unfold Sem.unblock Sem.suspendedTcbs
  rw [Prog.wp_bind]
  refine h.queues.wp_takeWaiting_nil hs hnil ?_
  simpa [Prog.wp_pure] using hQ

end Release

section Switching

variable {T : Switch → Kernel Unit → Cells → Globals → Prop}
  {Q : Unit → Cells → Globals → Prop}

/-- The end of `dispatch` and of `block`. -/
def switchFrom (L : Layout) (old : Nat) : Kernel Unit := do
  let tcb ← Scheduler.nextTcb L
  modifyGlobals fun g => { g with currentTcb := tcb }
  yield L old tcb

/-- The first ready thread runs.  The thread that ran before goes on at a place in `yield`, or has been
freed. -/
theorem wp_switchFrom {old : Nat} (h : Holds L σ v) (hm : σ.abs.moving = [])
    (hR : σ.abs.ready = n :: R)
    (hold : old = 0 ∧ σ.globals.kCurrentContext ∉ σ.owners.tcbs L ∨
      old = σ.globals.kCurrentContext ∧ old ∈ σ.owners.tcbs L ∧ σ.abs.cont old ≠ .fresh ∧
        spp σ.globals.sstatus = σ.mode old)
    (hT : ∀ x v' sw, Holds L (σ.switch n R x) v' → Switches L (σ.switch n R x) old sw →
      T sw (modifyGlobals fun g => { g with timerTicks := 0 }) v' (σ.switch n R x).globals) :
    (switchFrom L old).wp (σ.owners.cells L) v σ.globals Q T := by
  have hn := h.queues.ready_mem (show n ∈ σ.abs.ready by simp [hR])
  have hn0 := (h.tiled.tcb_inside hn).1.ne'
  have hcode := L.code_lt
  unfold switchFrom
  rw [Prog.wp_bind]
  refine h.queues.wp_nextTcb h.tiled hR fun v₁ hc₁ hQ₁ => ?_
  have hq₁ : Quiet v v₁ := .of_changes hc₁ (by simp [Field.queue])
  have hcell (u : Nat) (hu : u ∈ σ.owners.tcbs L) (f : Field) (hf : f.ofTcb = true) :
      σ.owners.cells L u f := Owners.cells_tcb hu hf
  have hnm : n ∈ ({ σ.abs with moving := n :: σ.abs.moving, ready := R } : Abs).moving := by simp
  -- the abstract state, from the memory after the switch
  have hend (v₃ : Cells) (old : Nat)
      (hv : ∀ a f, f ≠ .ra → f ≠ .sstatus → v₃ a f = v₁.set n .status TCBStatus.running.code a f)
      (hx : ∀ t, t ∈ σ.owners.tcbs L → t ≠ n → Context L σ v₃ t) :
      Holds L (σ.switch n R (v₃ n .sstatus)) v₃ := by
    have hset := hQ₁.set_moving h.tiled hnm (f := .status) (x := TCBStatus.running.code) (by decide)
    have hsame (a : Nat) (f : Field) (hf : f ∉ Field.queue) (h1 : f ≠ .ra) (h2 : f ≠ .sstatus) :
        v₃ a f = v a f := by
      have hne : f ≠ .status := by
        rintro rfl
        exact hf (by decide)
      rw [hv a f h1 h2, View.set_field_ne hne, hq₁ a f hf]
    have hb := h.base
    refine ⟨?_, h.tiled, ?_, ⟨?_, ?_, ?_, ?_, ?_⟩, fun t ht hne => ?_, fun t ht => ?_⟩
    · refine (h.heap.congr fun a f hown => ?_).globals rfl rfl rfl
      obtain ⟨o, ho, hcell⟩ := hown
      cases o with
      | entry i =>
        rw [hcell.2]
        exact hsame _ _ (by decide) (by decide) (by decide)
      | header i =>
        have hf := Field.ofHeader_ne hcell.2
        exact hsame _ _ hf.1 hf.2.1 hf.2.2
      | tcb _ => exact ho.elim
      | sem _ => exact ho.elim
      | list _ => exact ho.elim
    · have hQ₃ := hset.of_fields fun a f hf => hv a f (by rintro rfl; revert hf; decide)
        (by rintro rfl; revert hf; decide)
      rw [hm] at hQ₃
      exact hQ₃
    · exact fun t ht => (hsame _ _ (by decide) (by decide) (by decide)).trans (hb.usrStack t ht)
    · exact fun t ht => (hsame _ _ (by decide) (by decide) (by decide)).trans (hb.sysStack t ht)
    · exact fun t ht => (hsame _ _ (by decide) (by decide) (by decide)).trans (hb.joinSem t ht)
    · exact (hsame _ _ (by decide) (by decide) (by decide)).trans hb.mainJoin
    · exact fun t ht => (hsame _ _ (by decide) (by decide) (by decide)).trans (hb.slice t ht)
    · have hcx := hx t ht hne
      exact ⟨hcx.ra, hcx.mode⟩
    · obtain rfl := List.mem_singleton.mp ht
      rw [hv _ _ (by decide) (by decide), set_half (by decide) (by decide), if_pos ⟨rfl, rfl⟩]
      rfl
  rcases hold with ⟨rfl, hkc⟩ | ⟨rfl, hmem, hcont, hspp⟩
  · have hx (v₃ : Cells) (hv : ∀ a, v₃ a .ra = v a .ra ∧ v₃ a .sstatus = v a .sstatus) (t : Nat)
        (ht : t ∈ σ.owners.tcbs L) : Context L σ v₃ t := by
      have hcx := h.contexts t ht fun heq => hkc (heq ▸ ht)
      exact ⟨(hv t).1.trans hcx.ra, by rw [(hv t).2]; exact hcx.mode⟩
    have hctx (a : Nat) : v₁.set n .status TCBStatus.running.code a .ra = v a .ra ∧
        v₁.set n .status TCBStatus.running.code a .sstatus = v a .sstatus := by
      rw [View.set_field_ne (by decide), View.set_field_ne (by decide), hq₁ _ _ (by decide),
        hq₁ _ _ (by decide)]
      exact ⟨rfl, rfl⟩
    simp only [yield, restoreContext, Prog.wp_bind, wp_modifyGlobals, ne_eq, not_true, if_false, hn0,
      not_false_eq_true, if_true, wp_wr, hcell n hn .status rfl, wp_rd, hcell n hn .sstatus rfl,
      hcell n hn .ra rfl, true_and]
    refine hT _ _ _ (hend _ 0 (fun _ _ _ _ => rfl) fun t ht _ => hx _ hctx t ht) ⟨rfl, rfl, ?_, ?_⟩
    · exact (hx _ hctx n hn).ra
    · exact (hx _ hctx n hn).mode
  · have hold0 := (h.tiled.tcb_inside hmem).1.ne'
    set old := σ.globals.kCurrentContext with hk
    simp only [yield, saveContext, restoreContext, Prog.wp_bind, wp_modifyGlobals, ne_eq, hold0, hn0,
      not_false_eq_true, if_true, wp_wr, hcell n hn .status rfl, wp_rd, hcell n hn .sstatus rfl,
      hcell n hn .ra rfl, hcell old hmem .ra rfl, hcell old hmem .sstatus rfl, true_and, wp_globals]
    set v₃ := ((v₁.set old .ra L.inYield).set old .sstatus σ.globals.sstatus).set n .status
      TCBStatus.running.code with hv₃
    have hra (t : Nat) : v₃ t .ra = if t = old then L.inYield else v t .ra := by
      rw [hv₃, View.set_field_ne (by decide), View.set_field_ne (by decide),
        set_word (by decide) hcode.2, hq₁ _ _ (by decide)]
      simp
    have hst (t : Nat) : spp (v₃ t .sstatus) = if t = old then spp σ.globals.sstatus
        else spp (v t .sstatus) := by
      rw [hv₃, View.set_field_ne (by decide), View.set_apply]
      by_cases ht : t = old
      · simp only [ht, and_self, if_true]
        exact spp_u64 _
      · simp only [ht, false_and, if_false]
        rw [View.set_field_ne (by decide), hq₁ _ _ (by decide)]
    have hx (t : Nat) (ht : t ∈ σ.owners.tcbs L) : Context L σ v₃ t := by
      by_cases hto : t = old
      · refine ⟨?_, ?_⟩
        · rw [hra, if_pos hto, hto, if_neg hcont]
        · rw [hst, if_pos hto, hto, hspp]
      · have hcx := h.contexts t ht hto
        refine ⟨?_, ?_⟩
        · rw [hra, if_neg hto, hcx.ra]
        · rw [hst, if_neg hto, hcx.mode]
    refine hT _ _ _ (hend _ old (fun a f h1 h2 => ?_) fun t ht _ => hx t ht) ⟨rfl, rfl, ?_, ?_⟩
    · rw [hv₃, View.set_apply, View.set_apply (a := n)]
      split
      · rfl
      · rw [View.set_field_ne h2, View.set_field_ne h1]
    · exact (hx n hn).ra
    · exact (hx n hn).mode

end Switching

end Holds

end Os1Kernel
