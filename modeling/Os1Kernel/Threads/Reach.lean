import Os1Kernel.Threads.Boot

/-! The states that the kernel reaches are states of the abstract machine. -/

namespace Os1Kernel

open Memory MemoryAllocator
open Tiling hiding alloc

variable {L : Layout} {I J : Spec → Prop} {M : Machine} {σ : Spec}

theorem kept_true (L : Layout) : Kept L fun _ => True := fun _ _ _ _ => trivial

theorem Kept.and (hI : Kept L I) (hJ : Kept L J) : Kept L fun σ => I σ ∧ J σ :=
  fun σ σ' hs h => ⟨hI σ σ' hs h.1, hJ σ σ' hs h.2⟩

theorem releaseAll_handles (σ : Spec) (s : Nat) (xs : List Nat) :
    (σ.releaseAll s xs).globals.handles = σ.globals.handles := by
  obtain ⟨-, -, -, -, -, -, -, trace, hg⟩ := Inside.releaseAll_same σ s xs
  rw [hg]

theorem signal_handles (σ : Spec) (s : Nat) : (σ.signal s).globals.handles = σ.globals.handles := by
  obtain ⟨-, -, -, -, -, -, -, trace, hg⟩ := Inside.signal_same σ s
  rw [hg]

theorem resume_handles (σ : Spec) (L : Layout) :
    (σ.resume L).globals.handles = σ.globals.handles := by
  obtain ⟨-, -, -, -, _, _, _, _, hg⟩ := Away.resume_same σ L
  rw [hg]

/-- Once the flush thread is known it stays so. -/
theorem kept_flush (L : Layout) : Kept L fun σ => σ.globals.handles.flush ≠ 0 := by
  intro σ σ' hs h
  cases hs with
  | signal => rwa [signal_handles]
  | receive =>
    rw [Spec.receive, signal_handles]
    exact h
  | flushChar =>
    rw [Spec.flushChar, signal_handles]
    exact h
  | resume => rwa [resume_handles]
  | closeSem =>
    change (Spec.releaseAll σ _ _).globals.handles.flush ≠ 0
    rwa [releaseAll_handles]
  | flush hv _ _ hf => exact (hv.tiled.tcb_inside (List.mem_cons_of_mem _ hf)).1.ne'
  | exit =>
    change (Spec.releaseAll (σ.log _) _ _).globals.handles.flush ≠ 0
    rw [releaseAll_handles]
    exact h
  | _ => exact h

theorem Rests.mono (h : Rests L I M σ) (hJ : J σ) : Rests L J M σ :=
  ⟨h.globals, { h.inside with inv := hJ }⟩

/-- Every state that the kernel reaches is one of the abstract machine, with the invariants that its
steps keep. -/
theorem reach_rests (hI : Kept L I) (hinit : ∀ i ts x s, I (.initial L (L.heap.addr i) ts x s))
    (h : Reach L (LeftoverRejected L) M) :
    ∃ σ, Rests L (fun σ => I σ ∧ σ.globals.handles.flush ≠ 0) M σ := by
  induction h with
  | boot m sstatus hb =>
    obtain ⟨σ, hrests, hbooted⟩ := boot_rests hI hinit hb
    exact ⟨σ, hrests.mono ⟨hrests.inside.inv, hbooted.flush⟩⟩
  | step e _ ha hok hs ih =>
    obtain ⟨σ, hrests⟩ := ih
    rcases hrests.step (hI.and (kept_flush L)) hrests.inside.inv.2 ha hok with ⟨hn, -⟩ | ⟨M', σ', hs', h'⟩
    · rw [hn] at hs
      cases hs
    · obtain rfl := Option.some.inj (hs.symm.trans hs')
      exact ⟨σ', h'⟩

/-! ### An image that boots -/

theorem bootHeap_total : bootHeap.total = 272 := by
  rw [bootHeap.total_eq]
  decide

theorem room_bootImage : Room [owned 64, owned 64, gap 144] := by
  have hsize : toBlocks sizeofTCB = 6 ∧ toBlocks defaultStackSize = 64 ∧ toBlocks sizeofSem = 1 := by
    decide
  have h₁ : Tiling.alloc 6 [owned 64, owned 64, gap 144] =
    some (128, [owned 64, owned 64, owned 6, gap 138]) := by decide
  have h₂ : Tiling.alloc 64 [owned 64, owned 64, owned 6, gap 138] =
    some (134, [owned 64, owned 64, owned 6, owned 64, gap 74]) := by decide
  refine ⟨?_, ?_, ?_⟩
  · rw [NoTcb, hsize.1, h₁]
    simp
  · rintro ⟨i, ts, h, hnone⟩
    rw [hsize.1, h₁] at h
    cases h
    rw [hsize.2.1, h₂] at hnone
    cases hnone
  · rintro ⟨i, ts, k, ts', h, h', hnone⟩
    rw [hsize.1, h₁] at h
    cases h
    rw [hsize.2.1, h₂] at h'
    cases h'
    rw [hsize.2.2] at hnone
    revert hnone
    decide

theorem boot_bootImage (m : Mem) (sstatus : Nat) : ∃ M, boot bootImage m sstatus = some M := by
  have hmain : Tiling.alloc (toBlocks defaultStackSize) [gap bootImage.heap.total] =
      some (0, [owned 64, gap 208]) := by
    change Tiling.alloc _ [gap bootHeap.total] = _
    rw [bootHeap_total]
    decide
  have hstack : Tiling.alloc (toBlocks defaultStackSize) [owned 64, gap 208] =
      some (64, [owned 64, owned 64, gap 144]) := by decide
  exact boot_succeeds bootImage hmain hstack room_bootImage m sstatus

end Os1Kernel
