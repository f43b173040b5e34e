import Os1Kernel.Threads.Outcomes

/-! The kernel leaves the memory of user code alone. -/

namespace Os1Kernel

open Memory

variable {L : Layout} {M M' : Machine} {x : Nat}

/-- A byte of user code that is one after a step too is the same, unless user code has it written. -/
theorem step_keeps (h : Reach L (LeftoverRejected L) M) {e : Event} (ha : Allowed L M e)
    (hok : LeftoverRejected L M e) (hs : M.step L e = some M') (hx : UserByte L M x)
    (hx' : UserByte L M' x) (hw : ¬e.Writes M x) : M'.mem x = M.mem x := by
  obtain ⟨σ, hrests⟩ := reach_rests (kept_true L) (fun _ _ _ _ => trivial) h
  rcases hrests.step_spares ((kept_true L).and (kept_flush L)) hrests.inside.inv.2 ha hok with
    ⟨hnone, -⟩ | ⟨M₁, σ', hs', hrests', hspared⟩
  · rw [hnone] at hs
    cases hs
  · obtain rfl := Option.some.inj (hs'.symm.trans hs)
    refine hspared x (.inl (hrests.user hx)) (.inl (hrests'.user hx')) fun hout => ?_
    rcases hout with hout | ⟨-, -, hfree⟩
    · exact hw hout
    · exact Owners.Tiled.user_not_free (hrests.user hx) hfree

/-- The states of a run from `M` in which the byte stays with user code, which does not have it
written. -/
inductive Untouched (L : Layout) (x : Nat) (M : Machine) : Machine → Prop
  | start (hx : UserByte L M x) : Untouched L x M M
  | step {M₁ M₂ : Machine} (e : Event) (h : Untouched L x M M₁) (ha : Allowed L M₁ e)
      (hok : LeftoverRejected L M₁ e) (hs : M₁.step L e = some M₂) (hw : ¬e.Writes M₁ x)
      (hx : UserByte L M₂ x) : Untouched L x M M₂

/-- In every run of threads, system calls and interrupts, the blocks, the stacks and the static data of
user code hold what user code has written there, and the handles that it has asked for. -/
theorem user_memory_kept (h : Reach L (LeftoverRejected L) M) (hr : Untouched L x M M') :
    M'.mem x = M.mem x := by
  suffices hinv : Reach L (LeftoverRejected L) M' ∧ UserByte L M' x ∧ M'.mem x = M.mem x from hinv.2.2
  induction hr with
  | start hx => exact ⟨h, hx, rfl⟩
  | step e _ ha hok hs hw hx ih =>
    obtain ⟨hreach, hx₁, hkept⟩ := ih
    have hstep := step_keeps hreach ha hok hs hx₁ hx hw
    exact ⟨hreach.step e ha hok hs, hx, hstep.trans hkept⟩

open Tiling in
/-- A stack of the main thread when it takes another block. -/
theorem user_memory_kept_stack : ∃ M M', Reach roomyImage (LeftoverRejected roomyImage) M ∧
    M.step roomyImage (.ecall 0x01 6 0 0 0) = some M' ∧ M'.mem 30784 = M.mem 30784 := by
  obtain ⟨M, hs, m₀, M₀, hr, h, hne, hblock⟩ := stack_taken
  have halloc : Tiling.alloc (u32 6) [owned 64, owned 64, owned 6, owned 64, owned 1, owned 64, gap 153] =
    some (263, [owned 64, owned 64, owned 6, owned 64, owned 1, owned 64, owned 6, gap 147]) := by decide
  obtain ⟨M', htrap, h'⟩ := h.memAlloc (by decide) halloc
  have hstep : M.step roomyImage (.ecall 0x01 6 0 0 0) = some M' :=
    (step_ecall rfl rfl rfl rfl rfl).trans htrap
  have hx : UserByte roomyImage M 30784 := .inl ⟨_, hblock, by decide, by decide⟩
  have hx' : UserByte roomyImage M' 30784 := by
    refine .inl ⟨(30784, 64), ?_, by decide, by decide⟩
    rw [h'.handles]
    rw [h.handles] at hblock
    exact List.mem_cons_of_mem _ hblock
  have hw : ¬Event.Writes M 30784 (.ecall 0x01 6 0 0 0) := by
    simp [Event.Writes]
  exact ⟨M, M', hr, hstep, user_memory_kept hr ((Untouched.start hx).step _ (allowed_memAlloc 6 hne)
    (by simp [LeftoverRejected]) hstep hw hx')⟩

end Os1Kernel
