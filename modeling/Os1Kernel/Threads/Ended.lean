import Os1Kernel.Threads.UserMemory

/-! What `thread_join` does with the handle of a thread that has ended. -/

namespace Os1Kernel

open Memory MemoryAllocator
open Tiling hiding alloc

/-- Where `create_tcb` gets a block for the thread, it gets one for its kernel stack too. -/
def StackFound (M : Machine) : Event → Prop
  | .ecall code _ _ _ _ => code = 0x11 → ∀ tcb m g m' g',
    (MemoryAllocator.alloc (toBlocks sizeofTCB)).run M.mem M.globals = .done tcb m g → tcb ≠ 0 →
    (MemoryAllocator.alloc (toBlocks defaultStackSize)).run m g ≠ .done 0 m' g'
  | _ => True

section Steps

variable {L : Layout} {I : Spec → Prop} {M M' : Machine} {σ : Spec} {e : Event} {t y i : Nat}

theorem StackFound.leftover (h : StackFound M e) : LeftoverRejected L M e := by
  cases e with
  | ecall code p0 p1 p2 p3 => exact fun hc _ _ _ _ _ hrun ht hrun' => absurd hrun' (h hc _ _ _ _ _ hrun ht)
  | timer => trivial
  | console rx => trivial
  | flushRead => trivial
  | flushPutc tx => trivial
  | user m => trivial

namespace Rests

/-- The `TCB` of a thread other than that of `main` is in the heap. -/
theorem tcb_inside (h : Rests L I M σ) (hmain : M.globals.currentTcb ≠ L.mainTcb) :
    ∃ i, M.globals.currentTcb = L.heap.addr i ∧ L.heap.addr i + 384 ≤ L.heap.stop + 1 := by
  rw [← h.current] at hmain ⊢
  have ht := (List.mem_cons.mp (h.inside.holds.current_mem h.inside.running)).resolve_left hmain
  have hused := Owners.Tiled.mem_thread ht (r := (σ.current, toBlocks sizeofTCB))
    (by simp [Owners.ofThread])
  obtain ⟨i, -, heq, -⟩ := h.inside.holds.tiled.aligned hused
  have hin := h.inside.holds.tiled.inside hused
  have hend := L.heap.spec.base_end
  have hsize : 64 * toBlocks sizeofTCB = 384 := by decide
  simp only at heq hin
  exact ⟨i, heq, by omega⟩

end Rests

end Steps

end Os1Kernel
