import Mathlib.Logic.Relation
import Os1Kernel.Heap.Canonical
import Os1Kernel.Threads.Joins

/-! The kernel refines the abstract machine: what a trap does to memory is a sequence of its steps.  And
the heap is owned: its live allocations are those of the threads, the semaphores and user code. -/

namespace Os1Kernel

open Memory MemoryAllocator
open Tiling hiding alloc

variable {L : Layout} {I : Spec → Prop} {M M' : Machine} {σ σ₀ : Spec} {e : Event}

/-! ### Refinement -/

/-- Runs of the abstract machine. -/
abbrev Spec.Leads (L : Layout) : Spec → Spec → Prop := Relation.ReflTransGen (Step L)

/-- The states in which the abstract machine starts. -/
def Spec.Starts (L : Layout) (σ : Spec) : Prop :=
  ∃ i ts x s, σ = .initial L (L.heap.addr i) ts x s

/-- Between traps memory holds the state `σ` of the abstract machine, and the flush thread is known. -/
def Refines (L : Layout) (M : Machine) (σ : Spec) : Prop :=
  Rests L (fun σ => σ.globals.handles.flush ≠ 0) M σ

theorem kept_leads (L : Layout) (σ₀ : Spec) : Kept L (Spec.Leads L σ₀) :=
  fun _ _ hs h => h.tail hs

/-- An event is a run of the abstract machine from the state that memory holds to the one that it holds
then, or the trap does not return for the reasons that `Stuck` gives. -/
theorem Refines.step (h : Refines L M σ) (ha : Allowed L M e) (hok : LeftoverRejected L M e) :
    M.step L e = none ∧ Rests.Stuck M e ∨
      ∃ M' σ', M.step L e = some M' ∧ σ.Leads L σ' ∧ Refines L M' σ' := by
  have hstart : Rests L (fun τ => σ.Leads L τ ∧ τ.globals.handles.flush ≠ 0) M σ :=
    Rests.mono h ⟨.refl, h.inside.inv⟩
  have hkept := (kept_leads L σ).and (kept_flush L)
  rcases hstart.step hkept h.inside.inv ha hok with hstuck | ⟨M', σ', hs, h'⟩
  · exact .inl hstuck
  · exact .inr ⟨M', σ', hs, h'.inside.inv.1, h'.mono h'.inside.inv.2⟩

/-- Every state that the kernel reaches holds a state that the abstract machine reaches, and every event
there is matched by steps of it. -/
theorem kernel_refines (h : Reach L (LeftoverRejected L) M) :
    ∃ σ₀ σ : Spec, σ₀.Starts L ∧ σ₀.Leads L σ ∧ Refines L M σ ∧
      ∀ e, Allowed L M e → LeftoverRejected L M e → M.step L e = none ∧ Rests.Stuck M e ∨
        ∃ M' σ', M.step L e = some M' ∧ σ.Leads L σ' ∧ Refines L M' σ' := by
  have hkept : Kept L fun σ => ∃ σ₀ : Spec, σ₀.Starts L ∧ σ₀.Leads L σ :=
    fun _ _ hs ⟨σ₀, hstart, hrun⟩ => ⟨σ₀, hstart, hrun.tail hs⟩
  obtain ⟨σ, hrests⟩ := reach_rests hkept
    (fun i ts x s => ⟨_, ⟨i, ts, x, s, rfl⟩, Relation.ReflTransGen.refl⟩) h
  obtain ⟨⟨σ₀, hstart, hrun⟩, hflush⟩ := hrests.inside.inv
  have hrefines : Refines L M σ := hrests.mono hflush
  exact ⟨σ₀, σ, hstart, hrun, hrefines, fun e => hrefines.step⟩

/-- A thread runs for which `main` waits, and then ends. -/
theorem kernel_refines_joined : ∃ M M' : Machine, Reach roomyImage (LeftoverRejected roomyImage) M ∧
    M.globals.handles.threads = [34880, 26240] ∧ M.step roomyImage (.ecall 0x12 0 0 0 0) = some M' ∧
    ∃ σ₀ σ σ' : Spec, σ₀.Starts roomyImage ∧ σ₀.Leads roomyImage σ ∧ Refines roomyImage M σ ∧
      σ.Leads roomyImage σ' ∧ Refines roomyImage M' σ' := by
  obtain ⟨M₀, M, M₁, -, τ₀, τ, -, -, -, h, c, hs, -⟩ := thread_ended
  have hthreads : M.globals.handles.threads = [34880, 26240] := by
    rw [h.rests.handles]
    exact c.threads
  have hne := h.rests.not_flush (by rw [c.current, c.flush]; decide)
  obtain ⟨σ₀, σ, hstart, hrun, hrefines, hstep⟩ := kernel_refines h.reach
  rcases hstep _ (allowed_exit hne) (.of_ne (by decide)) with ⟨hnone, -⟩ | ⟨M', σ', hs', hrun', h'⟩
  · exact absurd (hnone.symm.trans hs) (by simp)
  · obtain rfl := Option.some.inj (hs.symm.trans hs')
    exact ⟨M, M₁, h.reach, hthreads, hs, σ₀, σ, σ', hstart, hrun, hrefines, hrun', h'⟩

/-! ### Owners -/

namespace Machine

/-- What belongs to the thread `t`: its `TCB`, its stacks, and the semaphore for those who join it. -/
def ofThread (M : Machine) (t : Nat) : List (Nat × Nat) :=
  [(t, toBlocks sizeofTCB),
    (M.mem.field t Field.usrStack - defaultStackSize, toBlocks defaultStackSize),
    (M.mem.field t Field.sysStack, toBlocks defaultStackSize),
    (M.mem.field t Field.joinSem, toBlocks sizeofSem)]

/-- The allocations, of which `stack` is the kernel stack of the main thread. -/
def used (M : Machine) (stack : Nat) : List (Nat × Nat) :=
  (stack, toBlocks defaultStackSize) :: (M.globals.handles.threads.flatMap M.ofThread ++
    (M.globals.handles.sems.map fun s => (s, toBlocks sizeofSem)) ++ M.globals.handles.blocks)

/-- The allocator as it stands in memory, with the allocations that are in use. -/
def heap (M : Machine) (stack : Nat) : HeapState := ⟨M.mem, M.globals, M.used stack⟩

end Machine

/-- The live allocations are those in use, no two of them overlap, and all lie in the heap. -/
structure MemoryOwned (L : Layout) (M : Machine) (stack : Nat) : Prop where
  heap : HeapInv L.heap (M.heap stack)
  apart : (M.used stack).Pairwise Owners.BlocksApart
  inside : ∀ r ∈ M.used stack,
    L.heap.base ≤ r.1 ∧ r.1 + 64 * r.2 ≤ L.heap.base + 64 * L.heap.total ∧ 0 < r.2

namespace Rests

theorem ofThread (h : Rests L I M σ) {t : Nat} (ht : t ∈ σ.owners.threads) :
    M.ofThread t = σ.owners.ofThread t := by
  have hbase := h.inside.holds.base
  have husr : M.mem.field t Field.usrStack = σ.owners.stack t + defaultStackSize := hbase.usrStack t ht
  have hsys : M.mem.field t Field.sysStack = σ.owners.kernelStack t := hbase.sysStack t ht
  have hjoin : M.mem.field t Field.joinSem = σ.owners.join t := hbase.joinSem t ht
  rw [Machine.ofThread, Owners.ofThread, husr, hsys, hjoin, Nat.add_sub_cancel]

theorem used (h : Rests L I M σ) : M.used σ.owners.mainStack = σ.owners.used := by
  have hthreads : σ.owners.threads.flatMap M.ofThread = σ.owners.threads.flatMap σ.owners.ofThread :=
    List.flatMap_congr fun t ht => h.ofThread ht
  rw [Machine.used, h.handles]
  simp only [Owners.handles, hthreads]
  rfl

theorem memoryOwned (h : Rests L I M σ) : MemoryOwned L M σ.owners.mainStack where
  heap := ⟨_, h.holds.heap, by
    rw [Machine.heap, h.used]
    exact h.inside.holds.tiled.used⟩
  apart := by
    rw [h.used]
    exact h.inside.holds.tiled.pairwise
  inside r hr := by
    rw [h.used] at hr
    exact h.inside.holds.tiled.inside hr

end Rests

/-- In every state that the kernel reaches the live allocations are the kernel stack of the main
thread, four for each thread that has not exited, one for each semaphore that has not been closed, and
the blocks of user code.  Two states in which these are the same have the same heap. -/
theorem memory_owned (h : Reach L (LeftoverRejected L) M) : ∃ stack, MemoryOwned L M stack ∧
    ∀ M' stack', MemoryOwned L M' stack' → (M'.used stack').Perm (M.used stack) →
      SameHeap L.heap (M'.heap stack') (M.heap stack) := by
  obtain ⟨σ, hrests⟩ := reach_rests (kept_true L) (fun _ _ _ _ => trivial) h
  refine ⟨_, hrests.memoryOwned, fun M' stack' h' hperm => ?_⟩
  exact sameHeap_of_inv h'.heap hrests.memoryOwned.heap hperm

/-- Two threads have their memory, of which one has been created by user code. -/
theorem memory_owned_joined : ∃ M, Reach roomyImage (LeftoverRejected roomyImage) M ∧
    M.globals.handles.threads = [34880, 26240] ∧ ∃ stack, MemoryOwned roomyImage M stack := by
  obtain ⟨M, hr, -, hthreads, -⟩ := joiner_waits
  obtain ⟨stack, h, -⟩ := memory_owned hr
  exact ⟨M, hr, hthreads, stack, h⟩

end Os1Kernel
