import Os1Kernel.Threads.Grows
import Os1Kernel.Threads.SemOpen

/-! `sem_close` of a handle that is not that of a live semaphore. -/

namespace Os1Kernel

open Memory MemoryAllocator
open Tiling hiding alloc

/-- The record has only grown, and the context of the caller is the same. -/
structure Onward (g g' : Globals) : Prop where
  trace : g.trace <+: g'.trace
  context : g'.kCurrentContext = g.kCurrentContext

theorem Onward.trans {g g' g'' : Globals} (h : Onward g g') (h' : Onward g' g'') : Onward g g'' :=
  ⟨h.trace.trans h'.trace, h'.context.trans h.context⟩

theorem admits_onward : Admits Onward where
  refl _ := ⟨List.prefix_rfl, rfl⟩
  trans _ _ _ := Onward.trans
  log _ _ _ := ⟨List.prefix_append _ _, rfl⟩
  handles _ _ := ⟨List.prefix_rfl, rfl⟩
  fbHead _ _ := ⟨List.prefix_rfl, rfl⟩

theorem onward {α : Type} {p : Kernel α} {m m' : Mem} {g g' : Globals} {r : α} (h : Grows Onward False p)
    (hrun : p.run m g = .done r m' g') : Onward g g' :=
  h.run admits_onward hrun

/-! ### The call -/

/-- Memory when the call starts: its result is a failure so far. -/
def HeapState.called (s : HeapState) : Mem :=
  s.mem.assign s.globals.kCurrentContext Field.a0 (signExtend failedSyscall)

/-- `sem_close` fails and changes nothing but the result in the caller's context; no thread becomes
ready. -/
def ClosesAtomically (L : Layout) (s : HeapState) (p : Nat) : Prop :=
  ∃ g rest, (handleEcall L 0x22 p 0 0 0).run s.mem s.globals = .done () s.called g ∧
    g = { s.globals with trace := s.globals.trace ++ rest, handles := g.handles } ∧
    ∀ t, Action.readied t ∉ rest

/-- The word that `Sem::close` takes for the head of the queue is null, and `free` finds the handle
misaligned, or not in its table. -/
structure CloseRejected (s : HeapState) (p : Nat) : Prop where
  empty : s.called.field (Sem.suspendedTcbs p) Field.head = 0
  unused : p % memBlockSize ≠ 0 ∨
    entryOf s.globals p ≠ 0 ∧ s.called.field (entryOf s.globals p) Field.entry = 0

section Calls

variable {L : Layout} {m m' : Mem} {g g' : Globals} {p : Nat}

theorem takeFirst_empty {this : Nat} (h0 : this ≠ 0) (h : m.field this Field.head = 0) :
    (ListTCB.takeFirst this).run m g = .done 0 m g := by
  have hempty : (ListTCB.isEmpty this).run m g = .done true m g := by
    rw [ListTCB.isEmpty, run_of_run (run_rd h0), h]
    rfl
  rw [ListTCB.takeFirst, run_of_run (run_rd h0), run_of_run hempty, h]
  rfl

/-- `Sem::close` of an empty queue. -/
theorem close_empty (h : m.field (Sem.suspendedTcbs p) Field.head = 0) :
    (Sem.close L p).run m g = .done Sem.closeSuccess m g := by
  have hthis : Sem.suspendedTcbs p ≠ 0 := Nat.succ_ne_zero _
  have hunblock : (Sem.unblock L p true).run m g = .done Sem.unblockFail m g := by
    rw [Sem.unblock, run_of_run (takeFirst_empty hthis h)]
    rfl
  obtain ⟨n, hn⟩ := walkLimit_eq
  rw [Sem.close, hn, Sem.unblockAll, bind_assoc, run_of_run hunblock]
  rfl

/-- `free` of a handle that is misaligned or not in the table. -/
theorem free_unused (hp : p ≠ 0) (h : p % memBlockSize ≠ 0 ∨
    entryOf g p ≠ 0 ∧ m.field (entryOf g p) Field.entry = 0) :
    ∃ r, (MemoryAllocator.free p).run m g = .done r m g ∧ r ≠ memSuccess := by
  rw [MemoryAllocator.free, if_neg hp]
  split
  · exact ⟨_, rfl, by decide⟩
  next hal =>
  obtain ⟨hentry, hzero⟩ := h.resolve_left hal
  refine ⟨addressIsNotUsed, ?_, by decide⟩
  rw [run_of_run run_globals, run_of_run (run_rd hentry), hzero]
  rfl

/-- The call up to `Sem::close`. -/
theorem handleEcall_semClose {s : HeapState} (hctx : s.globals.kCurrentContext ≠ 0) (hp : p ≠ 0) :
    (handleEcall L 0x22 p 0 0 0).run s.mem s.globals =
      (Sem.close L p >>= fun code =>
        record (fun h => { h with sems := h.sems.filter (· ≠ p) }) >>= fun _ =>
          MemoryAllocator.free p >>= fun r => log (.freed p r) >>= fun _ =>
            if r = memSuccess then setA0 (signExtend code) else pure ()).run s.called
        { s.globals with trace := s.globals.trace ++ [.called s.globals.currentTcb 0x22 p] } := by
  rw [handleEcall, run_of_run run_globals, run_of_run run_log]
  refine (run_of_run (run_setA0 (g := { s.globals with
    trace := s.globals.trace ++ [.called s.globals.currentTcb 0x22 p] }) hctx _)).trans ?_
  change (semCloseCall L p).run _ _ = _
  rw [semCloseCall, if_pos hp]
  simp only [Sem.freeSem, bind_assoc, pure_bind]
  rfl

theorem closes_of_rejected {s : HeapState} (hctx : s.globals.kCurrentContext ≠ 0) (hp : p ≠ 0)
    (h : CloseRejected s p) : ClosesAtomically L s p := by
  obtain ⟨r, hfree, hr⟩ := free_unused (m := s.called) (g := { s.globals with
    trace := s.globals.trace ++ [.called s.globals.currentTcb 0x22 p]
    handles := { s.globals.handles with
      sems := s.globals.handles.sems.filter (· ≠ p) } }) hp h.unused
  refine ⟨{ s.globals with
    trace := s.globals.trace ++ ([.called s.globals.currentTcb 0x22 p] ++ [.freed p r])
    handles := { s.globals.handles with sems := s.globals.handles.sems.filter (· ≠ p) } },
    _, ?_, rfl, by simp⟩
  rw [handleEcall_semClose hctx hp, run_of_run (close_empty h.empty), run_of_run run_record,
    run_of_run hfree, run_of_run run_log, if_neg hr, ← List.append_assoc]
  rfl

theorem takeFirst_value {this t : Nat} (h0 : this ≠ 0)
    (h : (ListTCB.takeFirst this).run m g = .done t m' g') : t = m.field this Field.head := by
  rw [ListTCB.takeFirst, run_of_run (run_rd h0)] at h
  obtain ⟨e, _, _, -, h₁⟩ := Prog.run_bind_done h
  have hend {m₂ : Mem} {g₂ : Globals} (hp : (ListTCB.unlink (m.field this Field.head) >>= fun _ =>
      pure (m.field this Field.head)).run m₂ g₂ = .done t m' g') : t = m.field this Field.head := by
    obtain ⟨_, _, _, -, h₂⟩ := Prog.run_bind_done hp
    cases h₂
    rfl
  dsimp only at h₁
  split at h₁
  · exact hend h₁
  · obtain ⟨_, _, _, -, h₂⟩ := Prog.run_bind_done h₁
    exact hend h₂

/-- A thread that `Sem::unblock` finds becomes ready. -/
theorem unblock_readied {r : Int} (hne : m.field (Sem.suspendedTcbs p) Field.head ≠ 0)
    (h : (Sem.unblock L p true).run m g = .done r m' g') :
    ∃ t T, g.trace <+: T ∧ g'.trace = T ++ [.readied t] := by
  obtain ⟨t, _, g₁, htake, h₁⟩ := Prog.run_bind_done h
  have ht : t ≠ 0 := takeFirst_value (Nat.succ_ne_zero _) htake ▸ hne
  have hgrow₁ := onward (.takeFirst _) htake
  rw [if_pos ht] at h₁
  obtain ⟨_, _, g₂, hwr, h₂⟩ := Prog.run_bind_done h₁
  obtain ⟨_, _, g₃, hlog, h₃⟩ := Prog.run_bind_done h₂
  obtain ⟨_, _, g₄, hput, h₄⟩ := Prog.run_bind_done h₃
  cases h₄
  have hgrow₃ := (onward (.wr _ _ _) hwr).trans (onward (.log admits_onward rfl) hlog)
  rw [Scheduler.putTcb, if_pos ht] at hput
  obtain ⟨_, _, g₅, hstatus, h₅⟩ := Prog.run_bind_done hput
  obtain ⟨_, _, g₆, hadd, h₆⟩ := Prog.run_bind_done h₅
  have hgrow₆ := (onward (.wr _ _ _) hstatus).trans (onward (.addLast _ _) hadd)
  refine ⟨t, g₆.trace, ((hgrow₁.trans hgrow₃).trans hgrow₆).trace, ?_⟩
  rw [run_log] at h₆
  cases h₆
  rfl

/-- A search of `free` that ends in free blocks has walked to them. -/
theorem findPrev_none {fs : List (Nat × Nat)} {a : Nat} (hwalk : FreeWalk m a fs)
    (hsmall : ∀ t ∈ fs, t.1 + 64 * t.2 < 2 ^ 64) {fuel k prev : Nat}
    (h : (findPrev p fuel ((fs.map Prod.fst).getD k 0) prev).run m g = .done none m' g') :
    ∃ t ∈ fs, t.1 ≤ p ∧ p < t.1 + 64 * t.2 := by
  induction fuel generalizing k prev with
  | zero => cases h
  | succ fuel ih =>
    unfold findPrev at h
    split at h
    · next hcond =>
      have hk : k < fs.length := by
        by_contra hno
        rw [List.getD_eq_getElem?_getD, List.getElem?_eq_none (by simp; omega)] at hcond
        exact hcond.1 rfl
      have hat : (fs.map Prod.fst).getD k 0 = fs[k].1 := by simp [List.getD_eq_getElem?_getD, hk]
      have hmem := List.getElem_mem hk
      have hnext := hwalk.next k hk
      rw [hat] at hcond h
      rw [run_of_run (run_rd hcond.1), hwalk.blocks _ hmem] at h
      split at h
      · next hlt =>
        have := hsmall _ hmem
        unfold memBlockSize at hlt
        rw [u64_of_lt (by omega)] at hlt
        exact ⟨_, hmem, hcond.2, by omega⟩
      · rw [run_of_run (run_rd hcond.1), hnext] at h
        exact ih h
    · cases h

/-- A call of `free` that fails for an address where no allocation starts has found it misaligned or
not in the table. -/
theorem unused_of_free {B : HeapBounds} {live : List (Nat × Nat)} (h : HeapInv B ⟨m, g, live⟩)
    (hp : p ≠ 0) (hdead : ∀ n, (p, n) ∉ live) {r : Int}
    (hrun : (MemoryAllocator.free p).run m g = .done r m' g') (hr : r ≠ memSuccess) :
    p % memBlockSize ≠ 0 ∨ entryOf g p ≠ 0 ∧ m.field (entryOf g p) Field.entry = 0 := by
  by_cases hal : p % memBlockSize = 0
  · refine .inr ?_
    rw [MemoryAllocator.free, if_neg hp, if_neg (not_not.mpr hal), run_of_run run_globals] at hrun
    have hentry : entryOf g p ≠ 0 := by
      intro h0
      rw [h0] at hrun
      cases hrun
    refine ⟨hentry, ?_⟩
    by_contra hne
    rw [run_of_run (run_rd hentry), if_neg hne, run_of_run run_globals] at hrun
    obtain ⟨q, _, _, hfind, h₁⟩ := Prog.run_bind_done hrun
    cases q with
    | some prev => exact hr (freeAfter_success h₁)
    | none =>
      -- the search has ended in free blocks, and the table has nothing there
      obtain ⟨ts, hrep, hlive⟩ := h
      have hwalk := freeWalk_of_freeList hrep.freeList
      have hin {t : Nat × Nat} (ht : t ∈ (segs false 0 ts).map (located B)) :=
        located_inside hrep.valid ht
      have hend := B.spec.base_end
      have hstop := B.stop_lt
      have hhead : g.fbHead = (((segs false 0 ts).map (located B)).map Prod.fst).getD 0 0 := by
        rw [hwalk.head, List.headD_eq_head?_getD, List.head?_eq_getElem?, List.getD_eq_getElem?_getD]
      rw [hhead] at hfind
      obtain ⟨t, ht, hlow, hhigh⟩ := findPrev_none hwalk (fun t ht => by have := hin ht; omega) hfind
      have hbounds := hin ht
      obtain ⟨i, hi, rfl⟩ := hrep.block_of_inside hal (by rw [hrep.start, ← B.total_def]; omega)
      refine hne ?_
      rw [B.entryOf_addr hrep.start hrep.table hi]
      refine (hrep.table_eq hlive hi).trans ?_
      cases hf : live.find? fun t => decide (t.1 = B.addr i) with
      | none => rfl
      | some t =>
        obtain ⟨a, n⟩ := t
        have heq := List.find?_some hf
        rw [decide_eq_true_eq] at heq
        obtain rfl : a = B.addr i := heq
        exact absurd (List.mem_of_find?_eq_some hf) (hdead n)
  · exact .inl hal

/-- `Sem::close` of a queue that is not empty makes a thread ready. -/
theorem close_readied {code : Int} (hne : m.field (Sem.suspendedTcbs p) Field.head ≠ 0)
    (h : (Sem.close L p).run m g = .done code m' g') :
    ∃ t T, g.trace <+: T ∧ T ++ [.readied t] <+: g'.trace := by
  obtain ⟨n, hn⟩ := walkLimit_eq
  rw [Sem.close, hn, Sem.unblockAll] at h
  obtain ⟨_, _, g₁, hall, h₁⟩ := Prog.run_bind_done h
  obtain ⟨r, _, g₂, hunblock, h₂⟩ := Prog.run_bind_done hall
  cases h₁
  obtain ⟨t, T, hT, heq⟩ := unblock_readied hne hunblock
  refine ⟨t, T, hT, heq ▸ ?_⟩
  split at h₂
  · exact (onward (.unblockAll admits_onward _ _ _) h₂).trace
  · cases h₂
    exact List.prefix_rfl

end Calls

/-! ### When the call is atomic -/

variable {L : Layout} {B : HeapBounds} {s : HeapState} {p : Nat}

/-- `sem_close` of a handle where no allocation starts fails without an effect exactly when the word
that it takes for the head of the queue is null and `free` rejects the handle. -/
theorem semClose_atomic (h : HeapReach B s) (hctx : s.globals.kCurrentContext ≠ 0)
    (hspare : ∀ x, s.globals.kCurrentContext + 0xf8 ≤ x →
      x < s.globals.kCurrentContext + 0xf8 + 8 → s.Spare B x)
    (hp : p ≠ 0) (hdead : ∀ n, (p, n) ∉ s.live) :
    ClosesAtomically L s p ↔ CloseRejected s p := by
  refine ⟨?_, closes_of_rejected hctx hp⟩
  rintro ⟨g, rest, hrun, hg, hno⟩
  rw [handleEcall_semClose hctx hp] at hrun
  obtain ⟨code, m₁, g₁, hclose, h₁⟩ := Prog.run_bind_done hrun
  obtain ⟨_, m₂, g₂, hrecord, h₂⟩ := Prog.run_bind_done h₁
  obtain ⟨r, m₃, g₃, hfree, h₃⟩ := Prog.run_bind_done h₂
  obtain ⟨_, m₄, g₄, hlog, h₄⟩ := Prog.run_bind_done h₃
  have hempty : s.called.field (Sem.suspendedTcbs p) Field.head = 0 := by
    by_contra hne
    obtain ⟨t, T, hT, hready⟩ := close_readied hne hclose
    have hend : Onward g₄ g := by
      split at h₄
      · exact onward (.setA0 _) h₄
      · cases h₄
        exact admits_onward.refl _
    have hrest := ((onward (.record admits_onward _) hrecord).trans (onward (.free admits_onward _) hfree)).trans
      ((onward (.log admits_onward rfl) hlog).trans hend)
    have hall := hready.trans hrest.trace
    obtain ⟨x, hx⟩ := hT
    have htrace : g.trace = s.globals.trace ++ rest := by rw [hg]
    rw [← hx, htrace, List.append_assoc, List.append_assoc, List.prefix_append_right_inj] at hall
    exact hno t (hall.subset (by simp))
  refine ⟨hempty, ?_⟩
  rw [close_empty hempty] at hclose
  obtain ⟨rfl, rfl, rfl⟩ := Outcome.done.inj hclose
  rw [run_record] at hrecord
  obtain ⟨-, rfl, hg₂⟩ := Outcome.done.inj hrecord
  have hinv : HeapInv B ⟨s.called, g₂, s.live⟩ := ((heapInv_of_reach h).assign (f := Field.a0) hspare).on
    (by rw [← hg₂]) (by rw [← hg₂]) (by rw [← hg₂])
  have hentry : entryOf g₂ p = entryOf s.globals p := by
    rw [← hg₂]
    rfl
  have hr : r ≠ memSuccess := by
    intro hr
    rw [if_pos hr, setA0, run_of_run run_globals] at h₄
    have hctx₄ : g₄.kCurrentContext ≠ 0 := by
      intro h0
      rw [h0] at h₄
      cases h₄
    rw [run_wr hctx₄] at h₄
    obtain ⟨-, hmem, rfl⟩ := Outcome.done.inj h₄
    have heq : g₄.kCurrentContext = s.globals.kCurrentContext := by rw [hg]
    have hread := field_assign_same (m := m₄) (t := g₄.kCurrentContext) (f := .a0)
      (x := signExtend Sem.closeSuccess)
    rw [hmem, heq, HeapState.called, field_assign_same] at hread
    exact absurd hread (by decide)
  rw [← hentry]
  exact unused_of_free hinv hp hdead hfree hr

/-! ### A semaphore that is closed twice -/

/-- An allocation of one block where the free blocks are those from block `c` on. -/
theorem alloc_next (h : HeapReach B s) {c : Nat} (hc : c < B.total)
    (hfree : ∀ j, s.IsFree B j ↔ c ≤ j ∧ j < B.total) : ∃ m g,
    HeapReach B ⟨m, g, (B.addr c, 1) :: s.live⟩ ∧
    (∀ j, HeapState.IsFree B ⟨m, g, (B.addr c, 1) :: s.live⟩ j ↔ c + 1 ≤ j ∧ j < B.total) ∧
    g.kCurrentContext = s.globals.kCurrentContext := by
  obtain ⟨a, m, g, hrun, hnull, -, htakes, -⟩ := alloc_best_fit h le_rfl (by decide : 1 < 2 ^ 32)
  have hwhole : s.Run B c (B.total - c) := by
    refine ⟨by omega, fun j hj hj' => (hfree j).mpr (by omega), ?_, fun hf => ?_⟩
    · by_cases h0 : c = 0
      · exact .inl h0
      · refine .inr fun hf => ?_
        have := (hfree _).mp hf
        omega
    · have := (hfree _).mp hf
      omega
  have ha : a ≠ 0 := by
    intro h0
    have := hnull.mp h0 _ _ hwhole
    omega
  obtain ⟨i, k, haddr, hbest, htake⟩ := htakes ha
  obtain rfl : i = c := by
    have hi := (hfree i).mp (hbest.run.free i le_rfl (by have := hbest.run.pos; omega))
    rcases hbest.run.before with h0 | hno
    · omega
    · by_contra hne
      exact hno ((hfree _).mpr (by omega))
  obtain ⟨ts, hr, -⟩ := heapInv_of_reach h
  obtain rfl : a = B.addr i := by
    rw [haddr, hr.start, HeapBounds.addr, Nat.mul_comm]
  have hstep := h.step (.alloc _ hrun)
  rw [u32_of_lt (by decide), if_pos ⟨ha, by decide⟩] at hstep
  refine ⟨m, g, hstep, fun j => ?_, alloc_context (heapInv_of_reach h) hrun⟩
  rw [htake.free j, hfree j]
  omega

/-- An allocation is freed. -/
theorem free_step (h : HeapReach B s) {n : Nat} (hmem : (p, n) ∈ s.live) : ∃ m g,
    HeapReach B ⟨m, g, s.live.eraseP fun t => t.1 = p⟩ ∧
    g.kCurrentContext = s.globals.kCurrentContext := by
  obtain ⟨m, g, hrun⟩ := (undisturbed_of_live h hmem).release
  obtain ⟨ts, hr, hlive⟩ := heapInv_of_reach h
  have hin := located_inside hr.valid (hlive.mem_iff.mp hmem)
  have hstep := h.step (.free p (.inr (.inr (by
    rw [hr.start, ← B.total_def]
    simp only at hin
    omega))) hrun)
  exact ⟨m, g, hstep, (onward (.free admits_onward _) hrun).context⟩

/-- The header of free blocks is behind the null pointer only for the first ones. -/
theorem fbPrev_ne_zero (h : HeapReach B s) {i k j l : Nat} (hi : s.Run B i k) (hj : s.Run B j l)
    (hlt : i < j) : s.mem.field (s.globals.heapStartAddr + 64 * j) Field.fbPrev ≠ 0 := by
  obtain ⟨fs, hwalk, hruns⟩ := (heapInv_of_reach h).listsRuns
  obtain ⟨gs, hinv⟩ := (allocator_invariant h).1
  obtain rfl := hwalk.unique hinv.walk
  obtain ⟨a, ha, hia⟩ := List.getElem_of_mem ((hruns i k).mp hi)
  obtain ⟨b, hb, hjb⟩ := List.getElem_of_mem ((hruns j l).mp hj)
  have hne : b ≠ 0 := by
    rintro rfl
    have ha0 : a ≠ 0 := by
      rintro rfl
      have := congrArg Prod.fst (hia.symm.trans hjb)
      simp only at this
      omega
    have hinc := List.pairwise_iff_getElem.mp hinv.increasing 0 a hb ha (by omega)
    rw [hia, hjb] at hinc
    simp only at hinc
    omega
  have hprev := hwalk.prev b hb
  rw [hjb, if_neg hne] at hprev
  rw [hprev, List.getD_eq_getElem?_getD, List.getElem?_eq_getElem (by simp; omega)]
  simp only [List.getElem_map, Option.getD_some]
  exact hwalk.nonnull _ (List.getElem_mem _)

/-- Three semaphores, of which the first and then the third are closed: what was the head of the queue
of the third is now a link of the free list. -/
theorem closed_semaphore (h : HeapReach B s) (hnil : s.live = []) (hB : 3 ≤ B.total) :
    ∃ s', HeapReach B s' ∧ s'.globals.kCurrentContext = s.globals.kCurrentContext ∧
      (∀ n, (B.addr 2, n) ∉ s'.live) ∧ s'.mem.field (B.addr 2) Field.fbPrev ≠ 0 := by
  have h012 : B.addr 0 ≠ B.addr 1 ∧ B.addr 0 ≠ B.addr 2 ∧ B.addr 1 ≠ B.addr 2 := by
    simp [HeapBounds.addr_inj]
  obtain ⟨m₁, g₁, h₁, hfree₁, hctx₁⟩ := alloc_next (c := 0) h (by omega)
    fun j => by simp [HeapState.IsFree, hnil, B.total_def]
  obtain ⟨m₂, g₂, h₂, hfree₂, hctx₂⟩ := alloc_next h₁ (by omega) hfree₁
  obtain ⟨m₃, g₃, h₃, -, hctx₃⟩ := alloc_next h₂ (by omega) hfree₂
  have h₃ : HeapReach B ⟨m₃, g₃, [(B.addr 2, 1), (B.addr 1, 1), (B.addr 0, 1)]⟩ := by
    simpa [hnil] using h₃
  obtain ⟨m₄, g₄, h₄, hctx₄⟩ := free_step h₃ (p := B.addr 0) (n := 1) (by simp)
  have h₄ : HeapReach B ⟨m₄, g₄, [(B.addr 2, 1), (B.addr 1, 1)]⟩ := by
    simpa [B.addr_inj] using h₄
  obtain ⟨m₅, g₅, h₅, hctx₅⟩ := free_step h₄ (p := B.addr 2) (n := 1) (by simp)
  have h₅ : HeapReach B ⟨m₅, g₅, [(B.addr 1, 1)]⟩ := by
    simpa using h₅
  refine ⟨_, h₅, hctx₅.trans (hctx₄.trans (hctx₃.trans (hctx₂.trans hctx₁))), fun n hn => ?_, ?_⟩
  · simp [B.addr_inj] at hn
  · obtain ⟨ts, hr, -⟩ := heapInv_of_reach h₅
    have hstart : g₅.heapStartAddr = B.base := hr.start
    have hfree (j : Nat) : HeapState.IsFree B ⟨m₅, g₅, [(B.addr 1, 1)]⟩ j ↔ j < B.total ∧ j ≠ 1 := by
      simp only [HeapState.IsFree, hstart, ← B.total_def, List.mem_singleton, forall_eq,
        HeapBounds.addr]
      omega
    have hfirst : HeapState.Run B ⟨m₅, g₅, [(B.addr 1, 1)]⟩ 0 1 :=
      ⟨by omega, fun j _ hj => (hfree j).mpr (by omega), .inl rfl, fun hf => by
        have := (hfree _).mp hf
        omega⟩
    have hsecond : HeapState.Run B ⟨m₅, g₅, [(B.addr 1, 1)]⟩ 2 (B.total - 2) :=
      ⟨by omega, fun j hj hj' => (hfree j).mpr (by omega), .inr fun hf => by
        have := (hfree _).mp hf
        omega, fun hf => by
        have := (hfree _).mp hf
        omega⟩
    have hprev := fbPrev_ne_zero h₅ hfirst hsecond (by omega)
    simp only [hstart, Nat.mul_comm 64] at hprev
    exact hprev

theorem closed_smallHeap : ∃ s, HeapReach smallHeap s ∧
    s.globals.kCurrentContext = smallImage.mainTcb ∧ (∀ n, (smallHeap.addr 2, n) ∉ s.live) ∧
      s.mem.field (smallHeap.addr 2) Field.fbPrev ≠ 0 := by
  obtain ⟨s₀, h₀, hnil, hg₀⟩ := smallHeap_constructed
  have hB : 3 ≤ smallHeap.total := by
    have h₁ := smallHeap.spec.le_total
    have h₂ : (smallHeap.stop - smallHeap.start + 1) / 68 = 60 := by decide
    omega
  obtain ⟨s, h, hg, hdead, hprev⟩ := closed_semaphore h₀ hnil hB
  exact ⟨s, h, hg.trans hg₀, hdead, hprev⟩

/-- A semaphore of the small image that has been opened and closed, and lies in the free list. -/
theorem semClose_atomic_closed : ∃ s, HeapReach smallHeap s ∧
    s.mem.field (smallHeap.addr 2) Field.fbPrev ≠ 0 ∧
    (ClosesAtomically smallImage s (smallHeap.addr 2) ↔ CloseRejected s (smallHeap.addr 2)) := by
  obtain ⟨s, h, hg, hdead, hprev⟩ := closed_smallHeap
  have hc := callSite_smallHeap hg
  exact ⟨s, h, hprev, semClose_atomic h hc.context_ne hc.contextSpare (smallHeap.addr_ne_zero 2) hdead⟩

/-- The second `sem_close` of a semaphore takes a link of the free list for a suspended thread. -/
theorem semClose_twice : ¬∀ (L : Layout) (B : HeapBounds) (s : HeapState) (p : Nat), HeapReach B s →
    s.globals.kCurrentContext ≠ 0 → (∀ x, s.globals.kCurrentContext + 0xf8 ≤ x →
      x < s.globals.kCurrentContext + 0xf8 + 8 → s.Spare B x) →
    p ≠ 0 → (∀ n, (p, n) ∉ s.live) → ClosesAtomically L s p := by
  intro hall
  obtain ⟨s, h, hg, hdead, hprev⟩ := closed_smallHeap
  have hc := callSite_smallHeap hg
  have hclose := hall smallImage smallHeap s _ h hc.context_ne hc.contextSpare
    (smallHeap.addr_ne_zero 2) hdead
  have hempty := ((semClose_atomic h hc.context_ne hc.contextSpare (smallHeap.addr_ne_zero 2)
    hdead).mp hclose).empty
  -- the head of the queue and the link are the same eight bytes
  have hlow := smallHeap.spec.table_le_base
  have hstart : smallHeap.start = 8192 := rfl
  have hmain : smallImage.mainTcb = 4096 := rfl
  have haddr : smallHeap.base ≤ smallHeap.addr 2 := Nat.le_add_right _ _
  refine hprev ((load_store_apart (.inl ?_)).symm.trans hempty)
  rw [hg, hmain]
  change 4096 + 0xf8 + 8 ≤ smallHeap.addr 2 + 8
  omega

end Os1Kernel
