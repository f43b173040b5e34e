import Os1Kernel.Threads.Ended

/-! The memory of the threads, from `thread_create` to `thread_exit`. -/

namespace Os1Kernel

open Memory MemoryAllocator
open Tiling hiding alloc

namespace Log

/-- What the kernel has freed itself, with the codes that `free` has returned. -/
def freed (l : List Action) : List (Nat × Int) :=
  l.filterMap fun x => match x with
    | .freed a code => some (a, code)
    | _ => none

end Log

/-- The event is no call of `thread_create`, or one that succeeds. -/
def CreateSucceeds (L : Layout) (M : Machine) : Event → Prop
  | .ecall code p0 p1 p2 p3 => code = 0x11 → p0 ≠ 0 ∧
    ∃ M', M.step L (.ecall code p0 p1 p2 p3) = some M' ∧ M'.mem.field p0.toNat Field.handle ≠ 0
  | _ => True

section Steps

variable {L : Layout} {I : Spec → Prop} {M M' : Machine} {σ τ : Spec} {e : Event}

/-! ### A successful `thread_create` -/

namespace Rests

/-- A `thread_create` that has no kernel stack for its thread gives null. -/
theorem create_null (h : Rests L I M σ) (hI : Kept L I) {p0 p1 p2 p3 : UInt64}
    (ha : Allowed L M (.ecall 0x11 p0 p1 p2 p3)) (h0 : p0 ≠ 0) (hno : NoStack σ.owners.tiles)
    (hs : M.step L (.ecall 0x11 p0 p1 p2 p3) = some M') :
    M'.mem.field p0.toNat Field.handle = 0 := by
  obtain ⟨hword, hargs⟩ := (ha.2.2.1 rfl).resolve_left h0
  have hpost : Prog.Post (fun _ => True) (fun _ m _ => m.field p0.toNat Field.handle = 0)
      (fun _ _ _ _ => False)
      ((ecallTrap L 0x11 p0.toNat p1.toNat p2.toNat p3.toNat).run M.mem M.enter.globals) := by
    rw [h.globals]
    refine h.inside.post_syscall hI (by decide) fun hin => ?_
    by_cases hnull : p1.toNat = 0 ∨ p3.toNat = 0
    · exact hin.post_createThread_of hI (fun _ => trivial) (toNat_ne_zero h0)
        (h.user_word hword) (hnull.imp id .inl) (X := fun _ => True) (fun _ _ _ => trivial)
        (fun _ _ _ => trivial) (fun _ _ _ _ hfield _ => hfield)
        fun _ _ _ _ _ _ _ hplaced _ _ _ => absurd hno hplaced.stack
    · rw [not_or] at hnull
      obtain ⟨hb, -⟩ := (hargs.resolve_left fun hp => hnull.1 (by rw [hp]; rfl)).resolve_left
        fun hp => hnull.2 (by rw [hp]; rfl)
      rw [h.handles] at hb
      have hle : defaultStackSize ≤ p3.toNat := by
        by_contra hlt
        rw [Nat.sub_eq_zero_of_le (by omega)] at hb
        exact h.inside.holds.block_ne_zero hb rfl
      have hlt : p3.toNat - defaultStackSize + defaultStackSize < 2 ^ 64 := by
        have := p3.toNat_lt
        omega
      have hpost := hin.createThread_noStack p2.toNat (toNat_ne_zero h0) hnull.1 hlt hno
      rw [Nat.sub_add_cancel hle] at hpost
      exact hpost
  rcases trap_done hpost with ⟨hnone, -⟩ | ⟨m, g, hfield, hsome⟩
  · exact absurd (hnone.symm.trans hs) (by simp)
  · rw [← Option.some.inj (hsome.symm.trans hs)]
    exact hfield

end Rests

/-- Where `thread_create` succeeds, `create_tcb` has not taken anything for a semaphore. -/
theorem CreateSucceeds.leftover (h : Reach L (LeftoverRejected L) M) (ha : Allowed L M e)
    (hc : CreateSucceeds L M e) : LeftoverRejected L M e := by
  cases e with
  | ecall code p0 p1 p2 p3 =>
    rintro rfl tcb m g m' g' hrun ht hrun'
    obtain ⟨σ, hrests⟩ := reach_rests (kept_true L) (fun _ _ _ _ => trivial) h
    obtain ⟨h0, M', hs, hne⟩ := hc rfl
    exact absurd (hrests.create_null ((kept_true L).and (kept_flush L)) ha h0
      (hrests.noStack hrun ht hrun') hs) hne
  | timer => trivial
  | console rx => trivial
  | flushRead => trivial
  | flushPutc tx => trivial
  | user m => trivial

namespace Rests

end Rests

/-! ### Runs -/

/-- The main thread has the kernel stack that it had, and the flush thread all that it had. -/
structure Steady (σ₀ σ : Spec) : Prop where
  mainStack : σ.owners.mainStack = σ₀.owners.mainStack
  flush : σ.globals.handles.flush = σ₀.globals.handles.flush
  mem : σ₀.globals.handles.flush ∈ σ.owners.threads
  parts : σ.owners.ofThread σ₀.globals.handles.flush = σ₀.owners.ofThread σ₀.globals.handles.flush

variable {σ₀ : Spec}

theorem Steady.same (h : Steady σ₀ σ) (how : τ.owners = σ.owners)
    (hf : τ.globals.handles.flush = σ.globals.handles.flush) : Steady σ₀ τ :=
  ⟨how ▸ h.mainStack, hf.trans h.flush, how ▸ h.mem, how ▸ h.parts⟩

/-- Other owners, by whom the flush thread keeps what it has. -/
theorem Steady.change (h : Steady σ₀ σ) (hmain : τ.owners.mainStack = σ.owners.mainStack)
    (hmem : σ₀.globals.handles.flush ∈ τ.owners.threads)
    (hparts : τ.owners.ofThread σ₀.globals.handles.flush = σ.owners.ofThread σ₀.globals.handles.flush)
    (hf : τ.globals.handles.flush = σ.globals.handles.flush) : Steady σ₀ τ :=
  ⟨hmain.trans h.mainStack, hf.trans h.flush, hmem, hparts.trans h.parts⟩

theorem SameThreads.ofThread {W W' : Owners} (h : SameThreads W W') : W'.ofThread = W.ofThread := by
  funext t
  simp only [Owners.ofThread, h.stack, h.kernelStack, h.join]

theorem kept_steady (L : Layout) (σ₀ : Spec) : Kept L (Steady σ₀) := by
  intro σ σ' hs h
  have hsignal {τ : Spec} (s : Nat) (h : Steady σ₀ τ) : Steady σ₀ (τ.signal s) :=
    h.same (Inside.signal_same τ s).1 (congrArg Handles.flush (signal_handles τ s))
  cases hs with
  | signal => exact hsignal _ h
  | receive => exact hsignal _ (h.same rfl rfl)
  | flushChar => exact hsignal _ (h.same rfl rfl)
  | resume => exact h.same (Away.resume_same σ L).1 (congrArg Handles.flush (resume_handles σ L))
  | retile _ _ _ hW => exact h.change hW.mainStack (hW.threads ▸ h.mem) (congrFun hW.ofThread _) rfl
  | openSem _ _ _ _ _ hW => exact h.change hW.mainStack (hW.threads ▸ h.mem) (congrFun hW.ofThread _) rfl
  | closeSem _ _ _ _ hW =>
    refine h.change hW.mainStack (hW.threads ▸ h.mem) (congrFun hW.ofThread _) ?_
    change (σ.releaseAll _ _).globals.handles.flush = _
    rw [releaseAll_handles]
  | @create _ _ t _ _ _ _ _ ht _ hW =>
    have hne : σ₀.globals.handles.flush ≠ t := fun heq =>
      ht (heq ▸ List.mem_cons_of_mem _ h.mem)
    refine h.change hW.mainStack (hW.threads ▸ List.mem_cons_of_mem _ h.mem) ?_ rfl
    refine (congrFun hW.ofThread _).trans ?_
    simp only [Owners.ofThread, Function.update_of_ne hne]
  | flush hv _ h0 =>
    have hpos := (hv.tiled.tcb_inside (List.mem_cons_of_mem _ h.mem)).1.ne'
    exact absurd (h.flush.symm.trans h0) hpos
  | exit _ _ _ _ hcur hW _ =>
    have hmem : σ₀.globals.handles.flush ∈ σ.owners.threads.filter (· ≠ σ.current) :=
      List.mem_filter.mpr ⟨h.mem, by simpa [h.flush] using hcur.symm⟩
    refine h.change hW.mainStack (hW.threads ▸ hmem) (congrFun hW.ofThread _) ?_
    change ((σ.log _).releaseAll _ _).globals.handles.flush = _
    rw [releaseAll_handles]
    rfl
  | _ => exact h.same rfl rfl

/-- In every state of a run the main thread and the flush thread have what they had. -/
theorem Follows.rests (hr : Follows L (fun M e => CreateSucceeds L M e ∨ LeftoverRejected L M e) M M')
    (h : Reach L (LeftoverRejected L) M)
    (hrests : Rests L (fun σ => Steady σ₀ σ ∧ σ.globals.handles.flush ≠ 0) M σ) :
    Reach L (LeftoverRejected L) M' ∧
      ∃ σ', Rests L (fun σ => Steady σ₀ σ ∧ σ.globals.handles.flush ≠ 0) M' σ' := by
  induction hr with
  | start => exact ⟨h, σ, hrests⟩
  | step e _ ha hok hs ih =>
    obtain ⟨hreach, σ₁, h₁⟩ := ih
    have hleft := hok.elim (CreateSucceeds.leftover hreach ha) id
    refine ⟨hreach.step e ha hleft hs, ?_⟩
    rcases h₁.step ((kept_steady L σ₀).and (kept_flush L)) h₁.inside.inv.2 ha hleft with
      ⟨hnone, -⟩ | ⟨M₂, σ₂, hs₂, h₂⟩
    · exact absurd (hnone.symm.trans hs) (by simp)
    · obtain rfl := Option.some.inj (hs₂.symm.trans hs)
      exact ⟨σ₂, h₂⟩

end Steps

end Os1Kernel
