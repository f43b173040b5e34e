import Os1Kernel.Threads.Create

/-! Threads end. -/

namespace Os1Kernel

open Memory MemoryAllocator
open Tiling hiding alloc

namespace Spec

/-- The running thread has another status, and the record of handles is another one. -/
def ending (σ : Spec) (handles : Handles) : Spec :=
  { σ with status := .terminating, globals := { σ.globals with handles } }

theorem releaseAll_ending (σ : Spec) (handles : Handles) (s : Nat) (xs : List Nat) :
    (σ.ending handles).releaseAll s xs = (σ.releaseAll s xs).ending handles := by
  induction xs generalizing σ with
  | nil => rfl
  | cons t R ih => exact ih (σ.release s t R true)

/-- What those who wait for the current thread find when it ends. -/
def exitRelease (σ : Spec) : Spec :=
  (σ.log (.terminated σ.current)).releaseAll (σ.owners.join σ.current)
    (σ.abs.waiting (σ.owners.join σ.current))

end Spec

namespace Holds

variable {L : Layout} {σ : Spec} {m : Mem}

/-- The status of the running thread. -/
theorem assign_status (h : Holds L σ m.view) (hrun : Running σ) (handles : Handles) :
    Holds L (σ.ending handles) (m.assign σ.current Field.status TCBStatus.terminating.code).view := by
  have hmem : σ.current ∈ σ.abs.moving := by simp [hrun.moving]
  have hcell := Owners.cells_tcb (h.current_mem hrun) (f := .status) rfl
  have hset : Holds L (σ.ending handles)
      (View.set m.view σ.current Field.status TCBStatus.terminating.code) := by
    refine h.of_quiet (.set (by decide)) (h.queues.set_moving h.tiled hmem (by decide)) rfl rfl
      (fun _ _ => rfl) ⟨rfl, rfl, rfl, rfl⟩ fun t ht => ?_
    have heq : t = σ.current := by
      have ht' : t ∈ σ.abs.moving := ht
      rw [hrun.moving] at ht'
      exact List.mem_singleton.mp ht'
    rw [heq, View.set_same]
    rfl
  exact hset.of_sim ((Sim.self (σ.owners.cells L) m).assign h.tiled.separate hcell _)

/-- The status of the running thread no longer matters when it is in no list. -/
theorem of_gone {τ : Spec} (h : Holds L σ m.view) (hm : τ.abs.moving = []) (habs : τ.abs = σ.abs)
    (how : τ.owners = σ.owners) (hmode : τ.mode = σ.mode) (hvars : SameVars σ.globals τ.globals) :
    Holds L τ m.view :=
  h.of_quiet (.refl _) (by rw [how, habs]; exact h.queues) how hmode (fun _ _ => by rw [habs]) hvars
    fun t ht => by simp [hm] at ht

end Holds

namespace Inside

variable {L : Layout} {S : Nat → Option (Kernel Unit)} {I : Spec → Prop} {σ : Spec} {v : Cells}
  {m : Mem} {E : Fault → Prop} {X : Nat → Prop} {t x n : Nat} {R : List Nat}

theorem exitRelease_same (σ : Spec) : σ.exitRelease.owners = σ.owners ∧
    σ.exitRelease.abs.moving = σ.abs.moving ∧ σ.abs.ready ⊆ σ.exitRelease.abs.ready ∧
    σ.exitRelease.abs.cont = σ.abs.cont ∧ σ.exitRelease.mode = σ.mode ∧
    (∃ trace, σ.exitRelease.globals = { σ.globals with trace }) ∧
    σ.exitRelease.abs.waiting (σ.owners.join σ.current) = [] := by
  obtain ⟨h1, h2, h3, h4, -, h6, -, trace, hg⟩ := releaseAll_same (σ.log (.terminated σ.current))
    (σ.owners.join σ.current) (σ.abs.waiting (σ.owners.join σ.current))
  exact ⟨h1, h2, h3, h4, h6, ⟨trace, hg⟩, releaseAll_waiting _ _ rfl⟩

/-- The blocks without those of a thread. -/
theorem filter_ofThread {W : Owners} (hW : (W.dropThread t).Tiled L) :
    (((((W.dropThread t).blocks.filter fun u => u.1 ≠ W.stack t).filter fun u =>
      u.1 ≠ W.kernelStack t).filter fun u => u.1 ≠ W.join t).filter fun u => u.1 ≠ t) = W.blocks ∧
    (W.kernelStack t, toBlocks defaultStackSize) ∈
      ((W.dropThread t).blocks.filter fun u => u.1 ≠ W.stack t) ∧
    (W.join t, toBlocks sizeofSem) ∈ (((W.dropThread t).blocks.filter fun u => u.1 ≠ W.stack t).filter
      fun u => u.1 ≠ W.kernelStack t) := by
  have hpair : List.Pairwise (fun r u : Nat × Nat => r.1 ≠ u.1) (W.ofThread t ++ W.blocks) :=
    hW.blocks_pairwise
  simp only [Owners.ofThread, List.cons_append, List.nil_append, List.pairwise_cons, List.mem_cons,
    forall_eq_or_imp] at hpair
  obtain ⟨⟨h1, h2, h3, h4⟩, ⟨h5, h6, h7⟩, ⟨h8, h9⟩, h10, -⟩ := hpair
  have hblocks : (W.dropThread t).blocks = W.ofThread t ++ W.blocks := rfl
  rw [hblocks]
  refine ⟨?_, ?_, ?_⟩
  · rw [List.filter_filter, List.filter_filter, List.filter_filter, List.filter_append]
    have hnil : (W.ofThread t).filter (fun a => decide (a.1 ≠ t) && decide (a.1 ≠ W.join t) &&
        decide (a.1 ≠ W.kernelStack t) && decide (a.1 ≠ W.stack t)) = [] := by
      simp [Owners.ofThread]
    rw [hnil, List.nil_append]
    refine List.filter_eq_self.mpr fun r hr => ?_
    simp [(h4 r hr).symm, (h7 r hr).symm, (h9 r hr).symm, (h10 r hr).symm]
  · refine List.mem_filter.mpr ⟨by simp [Owners.ofThread], by simpa using Ne.symm h5⟩
  · refine List.mem_filter.mpr ⟨List.mem_filter.mpr ⟨by simp [Owners.ofThread], ?_⟩, ?_⟩
    · simpa using Ne.symm h6
    · simpa using Ne.symm h8

/-- The word `join_sem` of a thread that has ended is free memory, where no header lies. -/
theorem word_free {W : Owners} {t y : Nat} (h : (W.dropThread t).Tiled L) (ts : List Tile)
    (hy : t + offset Field.joinSem ≤ y) (hy' : y < t + offset Field.joinSem + size Field.joinSem) :
    ((W.dropThread t).withBlocks ts W.blocks).Free L y := by
  have hnum : toBlocks sizeofTCB = 6 ∧ offset Field.joinSem = 296 ∧ size Field.joinSem = 8 := by decide
  rw [hnum.2.1] at hy hy'
  rw [hnum.2.2] at hy'
  have hblock : (t, toBlocks sizeofTCB) ∈ (W.dropThread t).blocks :=
    List.mem_append_left _ (by simp [Owners.ofThread])
  have hused := Owners.Tiled.mem_block hblock
  obtain ⟨i, -, heq, -⟩ := h.aligned hused
  have hin := h.inside hused
  have hend := L.heap.spec.base_end
  simp only [HeapBounds.addr, hnum.1] at heq hin
  refine ⟨by omega, by omega, ?_, fun r hr hi => ?_⟩
  · simp only [sizeofFreeBlocks, memBlockSize]
    omega
  · have hold : r ∈ (W.dropThread t).used := by
      rcases Owners.used_withBlocks (W := W.dropThread t) (W.dropThread t).tiles
        (W.dropThread t).blocks hr with hr | hr
      · exact hr
      · exact Owners.Tiled.mem_block (List.mem_append_right _ hr)
    obtain rfl := h.eq_of_in hold hused hi ⟨by simp only; omega, by simp only [hnum.1]; omega⟩
    have hcount := (SameThreads.withBlocks (W.dropThread t) ts W.blocks).count_used
      (t, toBlocks sizeofTCB)
    have hone := List.nodup_iff_count_le_one.mp h.nodup (t, toBlocks sizeofTCB)
    have hthread : 0 < (W.ofThread t).count (t, toBlocks sizeofTCB) :=
      List.count_pos_iff.mpr (by simp [Owners.ofThread])
    have hagain := List.count_pos_iff.mpr hr
    have hblocks : (W.dropThread t).blocks = W.ofThread t ++ W.blocks := rfl
    rw [hblocks, List.count_append] at hcount
    simp only [Owners.withBlocks] at hcount hagain
    omega

/-- The memory of a thread that has ended is freed. -/
theorem holds_exit (h : Inside L S I σ v) (ht : σ.current ∈ σ.owners.threads) {hs : Handles}
    (hhs : hs = { σ.globals.handles with
      threads := σ.globals.handles.threads.filter (· ≠ σ.current)
      stackBlocks := σ.globals.handles.stackBlocks.filter fun t => t.1 ≠ σ.current })
    (hH : Holds L (σ.exitRelease.ending hs) m.view) : ∃ m' x ts,
    let W := (σ.owners.dropThread σ.current).withBlocks ts σ.owners.blocks
    (freeTcb L σ.current).run m (σ.exitRelease.ending hs).globals =
      .done () m' (σ.exit W x).globals ∧ Holds L (σ.exit W x) m'.view ∧
      (∀ y, σ.owners.Quiet L y → W.Quiet L y → m' y = m y) ∧
      m'.field σ.current Field.joinSem = 0 ∧ (σ.owners.dropThread σ.current).Tiled L := by
  obtain ⟨how, hmoving, -, -, hmode, ⟨trace, hg⟩, hnil⟩ := exitRelease_same σ
  have hbase := hH.base
  have hfields : m.view σ.current Field.usrStack = σ.owners.stack σ.current + defaultStackSize ∧
      m.view σ.current Field.sysStack = σ.owners.kernelStack σ.current ∧
      m.view σ.current Field.joinSem = σ.owners.join σ.current := by
    have how' : (σ.exitRelease.ending hs).owners = σ.owners := how
    rw [how'] at hbase
    exact ⟨hbase.usrStack _ ht, hbase.sysStack _ ht, hbase.joinSem _ ht⟩
  have hdrop : Holds L ((σ.exitRelease.ending hs).dropThread σ.current) m.view := by
    refine hH.dropThread ?_ ?_ ?_
    · exact how ▸ ht
    · exact hmoving.trans h.running.moving
    · have how' : (σ.exitRelease.ending hs).owners = σ.owners := how
      rw [how']
      exact hnil
  obtain ⟨W₀, hW₀⟩ : ∃ W₀, (σ.exitRelease.ending hs).dropThread σ.current = W₀ := ⟨_, rfl⟩
  have hown : W₀.owners = σ.owners.dropThread σ.current := by
    rw [← hW₀, ← how]
    rfl
  rw [hW₀] at hdrop
  have htiled : (σ.owners.dropThread σ.current).Tiled L := hown ▸ hdrop.tiled
  obtain ⟨hfilter, hk, hj⟩ := filter_ofThread htiled
  have hblocks : W₀.owners.blocks = σ.owners.ofThread σ.current ++ σ.owners.blocks := by
    rw [hown]
    rfl
  have hpair := hdrop.tiled.blocks_pairwise
  rw [hblocks] at hpair
  simp only [Owners.ofThread, List.cons_append, List.nil_append, List.pairwise_cons, List.mem_cons,
    forall_eq_or_imp] at hpair
  obtain ⟨⟨h1, h2, h3, -⟩, -⟩ := hpair
  have hmem {r : Nat × Nat} (hr : r ∈ σ.owners.ofThread σ.current) : r ∈ W₀.owners.blocks := by
    rw [hblocks]
    exact List.mem_append_left _ hr
  have hstack : (σ.owners.stack σ.current, toBlocks defaultStackSize) ∈ W₀.owners.blocks :=
    hmem (by simp [Owners.ofThread])
  obtain ⟨c₁, c₂, c₃, m', x, ts, hrun, hc₁, hc₂, hc₃, hH', hspares, hword⟩ := hdrop.freeTcb
    (hmem (r := (σ.current, toBlocks sizeofTCB)) (by simp [Owners.ofThread])) (by decide)
    (.inl ⟨_, hstack⟩)
    (.inl ⟨_, hmem (r := (σ.owners.kernelStack σ.current, toBlocks defaultStackSize))
      (by simp [Owners.ofThread])⟩)
    (.inl ⟨_, hmem (r := (σ.owners.join σ.current, toBlocks sizeofSem)) (by simp [Owners.ofThread])⟩)
    ⟨h1.symm, h2.symm, h3.symm⟩ hfields.1 (hdrop.block_lt hstack) hfields.2.1 hfields.2.2
  obtain rfl := hc₁.mpr ⟨_, hstack⟩
  obtain rfl := hc₂.mpr ⟨_, by rw [hown]; exact hk⟩
  obtain rfl := hc₃.mpr ⟨_, by rw [hown]; exact hj⟩
  rw [hown, hfilter] at hH' hspares hword
  have hvars : W₀.globals = (σ.exitRelease.ending hs).globals := by
    rw [← hW₀]
    rfl
  have hstacks : (σ.owners.threads.map fun t => (t, σ.owners.stack t)).filter
      (fun t => t.1 ≠ σ.current) =
        (σ.owners.threads.filter (· ≠ σ.current)).map fun t => (t, σ.owners.stack t) := by
    rw [List.filter_map]
    rfl
  have hexit : σ.exit ((σ.owners.dropThread σ.current).withBlocks ts σ.owners.blocks) x =
      { W₀.heap ((σ.owners.dropThread σ.current).withBlocks ts σ.owners.blocks) x with
        status := σ.exitRelease.status
        globals := { (σ.exitRelease.ending hs).globals with
          fbHead := x
          trace := σ.exitRelease.globals.trace ++ [.freed (σ.owners.stack σ.current) memSuccess] ++
            [.freed (σ.owners.kernelStack σ.current) memSuccess] ++
              [.freed (σ.owners.join σ.current) memSuccess] ++ [.freed σ.current memSuccess] } } := by
    have hhandles : hs = ((σ.owners.dropThread σ.current).withBlocks ts σ.owners.blocks).handles
        σ.exitRelease.globals.handles.flush := by
      rw [hhs, hg, h.handles]
      simp only [Owners.handles, Owners.withBlocks, Owners.dropThread]
      rw [hstacks]
    rw [← hW₀]
    simp only [Spec.ending]
    rw [hhandles]
    rfl
  have hout {y : Nat} (hy : σ.owners.Quiet L y) : y < σ.current ∨ σ.current + 360 ≤ y := by
    have hsize : 64 * toBlocks sizeofTCB = 384 := by decide
    have hno := (h.holds.tiled.quiet_not_in_thread ht hy).1
    unfold Owners.In at hno
    omega
  refine ⟨m', x, ts, ?_, ?_, fun y hy hy' => hspares y (.inl hy') (hout hy),
    hword fun y hy hy' => .inr (word_free htiled ts hy hy'), htiled⟩
  · rw [hvars] at hrun
    rw [hrun, hexit]
    rfl
  · refine hH'.of_gone ?_ ?_ ?_ ?_ ?_
    · rfl
    · rw [hexit]
    · rw [hexit]
    · rw [hexit]
    · rw [hexit]
      change SameVars { W₀.globals with fbHead := x } _
      rw [hvars]
      exact ⟨rfl, rfl, rfl, rfl⟩

/-- Another thread goes on when the current one has ended. -/
theorem away_exit {sw : Switch} {k : Kernel Unit} {W : Owners} {y : Nat} (h : Inside L S I σ m.view)
    (hI : Kept L I) (ht : σ.current ∈ σ.owners.threads)
    (hcur : σ.current ≠ σ.globals.handles.flush)
    (hW : SameThreads { σ.owners with threads := σ.owners.threads.filter (· ≠ σ.current) } W)
    (hR : (σ.exit W x).abs.ready = n :: R) (hholds : Holds L ((σ.exit W x).switch n R y) v)
    (hsw : Switches L ((σ.exit W x).switch n R y) 0 sw) :
    Away L S I ((σ.exit W x).switch n R y) sw k v := by
  obtain ⟨how, -, hready, hcont, hmode, ⟨trace, hg⟩, -⟩ := exitRelease_same σ
  have hthreads : W.threads = σ.owners.threads.filter (· ≠ σ.current) := hW.threads
  have hflush : σ.exitRelease.globals.handles.flush = σ.globals.handles.flush := by rw [hg]
  refine ⟨hholds, ⟨rfl, rfl, rfl, hsw.mode⟩, rfl, hsw.saved ▸ hsw, fun u hu hne => ?_, ?_, ?_, ?_⟩
  · have hcont' : ((σ.exit W x).switch n R y).abs.cont = σ.abs.cont := hcont
    rw [hcont'] at hne ⊢
    rw [hsw.saved, if_neg (by simp)]
    have hu' : u ∈ σ.owners.tcbs L ∧ u ≠ σ.current := by
      have hu₀ : u ∈ L.mainTcb :: W.threads := hu
      rw [hthreads] at hu₀
      rcases List.mem_cons.mp hu₀ with rfl | hu₀
      · refine ⟨List.mem_cons_self, fun heq => ?_⟩
        exact (List.nodup_cons.mp h.holds.tiled.tcbs_nodup).1 (heq ▸ ht)
      · obtain ⟨h1, h2⟩ := List.mem_filter.mp hu₀
        exact ⟨List.mem_cons_of_mem _ h1, by simpa using h2⟩
    exact h.saved u hu'.1 hu'.2 hne
  · rfl
  · intro hf
    have hf' : σ.globals.handles.flush ≠ 0 := fun h0 => hf (hflush.trans h0)
    obtain ⟨h1, h2⟩ := h.awake hf'
    change σ.exitRelease.globals.handles.flush ∈ W.threads ∧
      σ.exitRelease.globals.handles.flush ∈ [n] ++ R
    rw [hflush, hthreads]
    refine ⟨List.mem_filter.mpr ⟨h1, by simpa using hcur.symm⟩, ?_⟩
    rw [h.running.moving] at h2
    have hmem := hready ((List.mem_append.mp h2).resolve_left fun hm =>
      hcur (List.mem_singleton.mp hm).symm)
    have hR' : σ.exitRelease.abs.ready = n :: R := hR
    rw [hR'] at hmem
    exact hmem
  · exact hI _ _ (.exit h.valid h.resuming x ht hcur hW hR) h.inv

/-- The switch to the next thread when the current one has ended. -/
theorem switchFrom_gone (h : Inside L S I σ m.view) (hI : Kept L I)
    (ht : σ.current ∈ σ.owners.threads) (hf : σ.globals.handles.flush ≠ 0)
    (hcur : σ.current ≠ σ.globals.handles.flush) {W : Owners} {m' : Mem}
    (hW : SameThreads { σ.owners with threads := σ.owners.threads.filter (· ≠ σ.current) } W)
    (hH : Holds L (σ.exit W x) m'.view) :
    Prog.Post E (fun _ _ _ => False) (fun sw k m g => ∃ τ,
        ((∃ n R y, (σ.exit W x).abs.ready = n :: R ∧ τ = (σ.exit W x).switch n R y) ∧ W.Spares L m' m) ∧
          g = τ.globals ∧ Away L S I τ sw k m.view)
      ((Holds.switchFrom L 0 >>= fun _ => ecallReturn).run m' (σ.exit W x).globals) := by
  obtain ⟨-, -, hready, -, -, ⟨trace, hg⟩, -⟩ := exitRelease_same σ
  have hne : (σ.exit W x).abs.ready ≠ [] := by
    have hmem := (h.awake hf).2
    rw [h.running.moving] at hmem
    exact List.ne_nil_of_mem (hready ((List.mem_append.mp hmem).resolve_left fun hm =>
      hcur (List.mem_singleton.mp hm).symm))
  obtain ⟨n, R, hR⟩ := List.exists_cons_of_ne_nil hne
  have hgone : (σ.exit W x).globals.kCurrentContext ∉ (σ.exit W x).owners.tcbs L := by
    change σ.exitRelease.globals.kCurrentContext ∉ L.mainTcb :: W.threads
    have hthreads : W.threads = σ.owners.threads.filter (· ≠ σ.current) := hW.threads
    rw [hg, hthreads]
    change σ.globals.kCurrentContext ∉ _
    rw [h.running.context]
    intro hm
    rcases List.mem_cons.mp hm with heq | hm
    · exact (List.nodup_cons.mp h.holds.tiled.tcbs_nodup).1 (heq ▸ ht)
    · simpa using (List.mem_filter.mp hm).2
  refine Prog.post_of_wp hH.tiled.separate ?_
  rw [Prog.wp_bind]
  refine hH.wp_switchFrom rfl hR (.inl ⟨rfl, hgone⟩) fun y v' sw hv' hsw m'' hsim hframe => ?_
  exact ⟨_, ⟨⟨n, R, y, hR, rfl⟩, hH.tiled.spares_of_cells hframe⟩, rfl,
    h.away_exit hI ht hcur hW hR (hv'.of_sim hsim) hsw⟩

/-- `thread_exit`, for a thread other than that of `main`. -/
theorem threadExitCall_eq : (threadExitCall L >>= fun _ => ecallReturn) =
    (globals >>= fun g => if g.currentTcb ≠ L.mainTcb then
      wr g.currentTcb .status TCBStatus.terminating.code >>= fun _ =>
      Os1Kernel.setA0 (signExtend successSyscall) >>= fun _ =>
      record (fun h => { h with
        threads := h.threads.filter (· ≠ g.currentTcb)
        stackBlocks := h.stackBlocks.filter fun t => t.1 ≠ g.currentTcb }) >>= fun _ =>
      dispatch L >>= fun _ => ecallReturn
    else ecallReturn) := by
  rw [threadExitCall]
  simp only [bind_assoc]
  refine bind_congr fun g => ?_
  split
  · simp only [bind_assoc]
  · rfl

/-- `dispatch` for a thread that ends. -/
theorem retire_eq {t : Nat} : (retire L t >>= Holds.switchFrom L >>= fun _ => ecallReturn) =
    (rd t .status >>= fun status => if status = TCBStatus.running.code then
      Scheduler.putTcb L t >>= fun _ => Holds.switchFrom L t >>= fun _ => ecallReturn
    else if status = TCBStatus.terminating.code then
      Os1Kernel.log (.terminated t) >>= fun _ => rd t .joinSem >>= fun j =>
        (if j ≠ 0 then Sem.close L j >>= fun _ => freeTcb L t else freeTcb L t) >>= fun _ =>
          Holds.switchFrom L 0 >>= fun _ => ecallReturn
    else Holds.switchFrom L t >>= fun _ => ecallReturn) := by
  rw [retire]
  simp only [bind_assoc]
  refine bind_congr fun status => ?_
  split
  · simp only [bind_assoc, pure_bind]
  · split
    · simp only [bind_assoc]
      refine bind_congr fun _ => bind_congr fun j => ?_
      split <;> simp only [bind_assoc, pure_bind]
    · simp only [pure_bind]

/-- `thread_exit`, up to the switch. -/
theorem threadExit_frees (h : Inside L S I σ m.view) (hmain : σ.globals.currentTcb ≠ L.mainTcb) : ∃ m' x ts,
    let W := (σ.owners.dropThread σ.current).withBlocks ts σ.owners.blocks
    (threadExitCall L >>= fun _ => ecallReturn).run m σ.globals =
      (Holds.switchFrom L 0 >>= fun _ => ecallReturn).run m' (σ.exit W x).globals ∧
    Holds L (σ.exit W x) m'.view ∧ (∀ y, σ.owners.Quiet L y → W.Quiet L y → m' y = m y) ∧
    m'.field σ.current Field.joinSem = 0 ∧ (σ.owners.dropThread σ.current).Tiled L := by
  have hmem := h.holds.current_mem h.running
  have ht : σ.current ∈ σ.owners.threads := (List.mem_cons.mp hmem).resolve_left hmain
  have hpos : σ.globals.currentTcb ≠ 0 := (h.holds.current_pos h.running).ne'
  have hctx : σ.globals.kCurrentContext = σ.globals.currentTcb := h.running.context
  let hs : Handles := { σ.globals.handles with
    threads := σ.globals.handles.threads.filter (· ≠ σ.current)
    stackBlocks := σ.globals.handles.stackBlocks.filter fun t => t.1 ≠ σ.current }
  let m₁ := m.assign σ.current Field.status TCBStatus.terminating.code
  let m₂ := m₁.assign σ.globals.kCurrentContext Field.a0 (signExtend successSyscall)
  have hH₁ : Holds L (σ.ending hs) m₁.view := h.holds.assign_status h.running hs
  have hH₂ : Holds L (σ.ending hs) m₂.view :=
    Holds.assign_a0 (σ := σ.ending hs) hH₁ (by
      change σ.globals.kCurrentContext ∈ σ.owners.tcbs L
      rw [hctx]
      exact hmem) _
  have hrun₂ : (Os1Kernel.setA0 (signExtend successSyscall)).run m₁ σ.globals =
      .done () m₂ σ.globals := by
    rw [Os1Kernel.setA0, run_of_run run_globals, run_wr (by rw [hctx]; exact hpos)]
  have hstatus : m₂.field σ.globals.currentTcb Field.status = TCBStatus.terminating.code := by
    have hne : m₂.field σ.current Field.status = m₁.field σ.current Field.status := by
      change (m₁.assign σ.globals.kCurrentContext Field.a0 _).field σ.current Field.status = _
      rw [hctx]
      exact field_assign_ne rfl rfl (by decide)
    refine hne.trans ?_
    change (m.assign σ.current Field.status _).field σ.current Field.status = _
    rw [field_assign_same]
    decide
  have hjoin : m₂.field σ.globals.currentTcb Field.joinSem = σ.owners.join σ.current :=
    hH₂.base.joinSem σ.current ht
  have hj0 : σ.owners.join σ.current ≠ 0 := by
    obtain ⟨i, -, heq, -⟩ := h.holds.tiled.aligned (Owners.Tiled.mem_thread ht
      (r := (σ.owners.join σ.current, toBlocks sizeofSem)) (by simp [Owners.ofThread]))
    simp only at heq
    exact heq ▸ L.heap.addr_ne_zero i
  have hH₃ : Holds L ((σ.ending hs).log (.terminated σ.current)) m₂.view := hH₂.log _
  have hrel : ((σ.ending hs).log (.terminated σ.current)).releaseAll (σ.owners.join σ.current)
      (σ.abs.waiting (σ.owners.join σ.current)) = σ.exitRelease.ending hs :=
    Spec.releaseAll_ending (σ.log (.terminated σ.current)) hs _ _
  have hwp := hH₃.wp_close (T := fun _ _ _ _ => False) (Q := fun _ v g =>
    Holds L (σ.exitRelease.ending hs) v ∧ g = (σ.exitRelease.ending hs).globals) (mem_join ht)
      fun v hv => ⟨hrel ▸ hv, congrArg Spec.globals hrel⟩
  obtain ⟨c, m₃, g₃, v₃, hrun₃, hsim, hframe, hv₃, rfl⟩ :=
    Prog.returns h.holds.tiled.separate (Sim.self _ m₂) hwp
  have how : (σ.exitRelease.ending hs).owners = σ.owners := (exitRelease_same σ).1
  have hH₄ : Holds L (σ.exitRelease.ending hs) m₃.view := hv₃.of_sim (by rw [how]; exact hsim)
  obtain ⟨m₅, x, ts, hrun, hH₅, hspares₅, hword, htiled⟩ := h.holds_exit ht rfl hH₄
  refine ⟨m₅, x, ts, ?_, hH₅, fun y hσ hy => ?_, hword, htiled⟩
  · rw [threadExitCall_eq, run_of_run run_globals, if_pos hmain]
    refine (run_of_run (run_wr hpos)).trans ((run_of_run hrun₂).trans ((run_of_run run_record).trans ?_))
    rw [dispatch_eq, bind_assoc]
    refine (run_of_run run_globals).trans ?_
    rw [if_pos hpos, retire_eq]
    refine (run_of_run (run_rd hpos)).trans ?_
    rw [hstatus, if_neg (by decide), if_pos rfl]
    refine (run_of_run run_log).trans ((run_of_run (run_rd hpos)).trans ?_)
    rw [hjoin, if_pos hj0, bind_assoc]
    exact (run_of_run hrun₃).trans (run_of_run hrun)
  · have hassign {m₀ : Mem} {t x : Nat} {f : Field} (htcb : t ∈ σ.owners.tcbs L) (hf : f.ofTcb = true) :
        (m₀.assign t f x) y = m₀ y :=
      h.holds.tiled.spares_of_cells (Frame.assign (Owners.cells_tcb htcb hf) m₀ x) y hσ
    calc m₅ y = m₃ y := hspares₅ y hσ hy
      _ = m₂ y := h.holds.tiled.spares_of_cells hframe y hσ
      _ = m₁ y := hassign (hctx ▸ hmem) rfl
      _ = m y := hassign hmem rfl

theorem spared_threadExit (h : Inside L S I σ m.view) (hI : Kept L I)
    (hf : σ.globals.handles.flush ≠ 0) (hcur : σ.current ≠ σ.globals.handles.flush) :
    Prog.Post E (BackFrom L S I σ.owners X m) (GoneFrom L S I σ.owners X m)
      ((threadExitCall L >>= fun _ => ecallReturn).run m σ.globals) := by
  by_cases hmain : σ.globals.currentTcb = L.mainTcb
  · rw [threadExitCall_eq]
    refine post_of_run run_globals ?_
    rw [if_neg (not_not.mpr hmain)]
    exact h.spared_return hI
  have ht := (List.mem_cons.mp (h.holds.current_mem h.running)).resolve_left hmain
  obtain ⟨m', x, ts, hrun, hH, hspares, -⟩ := h.threadExit_frees hmain
  rw [hrun]
  refine Prog.post_mono (h.switchFrom_gone hI ht hf hcur ⟨rfl, rfl, rfl, rfl, rfl, rfl⟩ hH)
    (fun _ _ _ hno => hno.elim) fun _ _ m₂ _ hgone => ?_
  obtain ⟨τ, ⟨⟨n, R, x', -, rfl⟩, hs⟩, hg, haway⟩ := hgone
  exact ⟨_, hg, haway, fun y hy hy' _ => (hs y hy').trans (hspares y hy hy')⟩

/-- Once the memory of a thread is freed, the word of its semaphore is null, in free memory. -/
theorem post_threadExit (h : Inside L S I σ m.view) (hI : Kept L I)
    (hf : σ.globals.handles.flush ≠ 0) (hcur : σ.current ≠ σ.globals.handles.flush)
    (hmain : σ.globals.currentTcb ≠ L.mainTcb) : ∃ ts x m',
      let W := (σ.owners.dropThread σ.current).withBlocks ts σ.owners.blocks
      m'.field σ.current Field.joinSem = 0 ∧
      (∀ y, σ.current + offset Field.joinSem ≤ y →
        y < σ.current + offset Field.joinSem + size Field.joinSem → W.Free L y) ∧
      Prog.Post E (fun _ _ _ => False) (fun sw k m g => ∃ τ,
          ((∃ n R y, (σ.exit W x).abs.ready = n :: R ∧ τ = (σ.exit W x).switch n R y) ∧
            W.Spares L m' m) ∧ g = τ.globals ∧ Away L S I τ sw k m.view)
        ((threadExitCall L >>= fun _ => ecallReturn).run m σ.globals) := by
  have ht := (List.mem_cons.mp (h.holds.current_mem h.running)).resolve_left hmain
  obtain ⟨m', x, ts, hrun, hH, -, hword, htiled⟩ := h.threadExit_frees hmain
  refine ⟨ts, x, m', hword, fun y hy hy' => word_free htiled ts hy hy', ?_⟩
  rw [hrun]
  exact h.switchFrom_gone hI ht hf hcur ⟨rfl, rfl, rfl, rfl, rfl, rfl⟩ hH

end Inside

end Os1Kernel
