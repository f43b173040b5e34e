import Os1Kernel.Threads.Reach

/-! What single events do where their outcome is known. -/

namespace Os1Kernel

open Memory MemoryAllocator
open Tiling hiding alloc

/-- The states of a run from `M` by steps that satisfy `ok`. -/
inductive Follows (L : Layout) (ok : Machine → Event → Prop) (M : Machine) : Machine → Prop
  | start : Follows L ok M M
  | step {M₁ M₂ : Machine} (e : Event) (h : Follows L ok M M₁) (ha : Allowed L M₁ e) (hok : ok M₁ e)
      (hs : M₁.step L e = some M₂) : Follows L ok M M₂

/-- The word `join_sem` of the `TCB` at `t`. -/
def InJoinSem (t y : Nat) : Prop :=
  t + offset Field.joinSem ≤ y ∧ y < t + offset Field.joinSem + size Field.joinSem

section Steps

variable {L : Layout} {ok ok' : Machine → Event → Prop} {I : Spec → Prop} {M : Machine} {σ : Spec}

theorem Reach.mono (h : Reach L ok M) (hok : ∀ M e, ok M e → ok' M e) : Reach L ok' M := by
  induction h with
  | boot m s hb => exact .boot m s hb
  | step e _ ha h' hs ih => exact ih.step e ha (hok _ _ h') hs

theorem Follows.reach {M' : Machine} (hf : Follows L ok M M') (h : Reach L ok M) : Reach L ok M' := by
  induction hf with
  | start => exact h
  | step e _ ha hok hs ih => exact ih.step e ha hok hs

theorem Follows.trans {M₁ M₂ : Machine} (h₁ : Follows L ok M M₁) (h₂ : Follows L ok M₁ M₂) :
    Follows L ok M M₂ := by
  induction h₂ with
  | start => exact h₁
  | step e _ ha hok hs ih => exact ih.step e ha hok hs

theorem Follows.mono {M' : Machine} (hf : Follows L ok M M') (hok : ∀ M e, ok M e → ok' M e) :
    Follows L ok' M M' := by
  induction hf with
  | start => exact .start
  | step e _ ha h hs ih => exact ih.step e ha (hok _ _ h) hs

/-! ### Events of user code -/

theorem step_ecall {code p0 p1 p2 p3 : UInt64} {c a b d e : Nat} (hc : code.toNat = c)
    (h0 : p0.toNat = a) (h1 : p1.toNat = b) (h2 : p2.toNat = d) (h3 : p3.toNat = e) :
    M.step L (.ecall code p0 p1 p2 p3) = M.trap L (ecallTrap L c a b d e) := by
  rw [Machine.step, hc, h0, h1, h2, h3]

theorem allowed_memAlloc (n : UInt64) (hne : M.globals.currentTcb ≠ M.globals.handles.flush) :
    Allowed L M (.ecall 0x01 n 0 0 0) := by
  simp [Allowed, hne]

theorem allowed_memFree {p : UInt64} {n : Nat} (hne : M.globals.currentTcb ≠ M.globals.handles.flush)
    (hmem : (p.toNat, n) ∈ M.globals.handles.blocks) : Allowed L M (.ecall 0x02 p 0 0 0) := by
  simp only [Allowed]
  refine ⟨fun h => absurd h hne, fun _ => .inl ⟨n, hmem⟩, ?_, ?_, ?_, ?_⟩ <;> simp

theorem allowed_create {p0 p1 p2 p3 : UInt64} (hne : M.globals.currentTcb ≠ M.globals.handles.flush)
    (hword : UserWord L M p0.toNat)
    (hmem : (p3.toNat - defaultStackSize, toBlocks defaultStackSize) ∈ M.globals.handles.blocks)
    (hapart : p0.toNat + 8 ≤ p3.toNat - defaultStackSize ∨ p3.toNat ≤ p0.toNat) :
    Allowed L M (.ecall 0x11 p0 p1 p2 p3) := by
  simp only [Allowed]
  refine ⟨fun h => absurd h hne, ?_, fun _ => .inr ⟨hword, .inr (.inr ⟨hmem, hapart⟩)⟩, ?_, ?_, ?_⟩
    <;> simp

theorem allowed_exit (hne : M.globals.currentTcb ≠ M.globals.handles.flush) :
    Allowed L M (.ecall 0x12 0 0 0 0) := by
  simp [Allowed, hne]

theorem allowed_dispatch : Allowed L M (.ecall 0x13 0 0 0 0) := by
  simp [Allowed]

theorem allowed_join {p0 : UInt64} (hne : M.globals.currentTcb ≠ M.globals.handles.flush)
    (ht : p0.toNat ∈ M.globals.handles.threads) : Allowed L M (.ecall 0x14 p0 0 0 0) := by
  simp only [Allowed]
  refine ⟨fun h => absurd h hne, ?_, ?_, fun _ => .inr ht, ?_, ?_⟩ <;> simp

/-- The calls of the console and `set_user_mode`. -/
theorem allowed_plain {code : UInt64} (p0 : UInt64) (hne : M.globals.currentTcb ≠ M.globals.handles.flush)
    (hcode : code = 0x41 ∨ code = 0x42 ∨ code = 0xff) : Allowed L M (.ecall code p0 0 0 0) := by
  rcases hcode with rfl | rfl | rfl <;> simp [Allowed, hne]

/-- A word below all that belongs to the kernel. -/
theorem userWord_below {p : Nat} (h0 : p ≠ 0) (hheap : p + 8 ≤ L.heap.start)
    (hstatic : ∀ r ∈ L.statics, p + 8 ≤ r.1) : UserWord L M p :=
  ⟨h0, fun _ _ hy => .inr (.inr ⟨.inl (Nat.lt_of_lt_of_le hy hheap),
    fun r hr => .inl (Nat.lt_of_lt_of_le hy (hstatic r hr))⟩)⟩

theorem LeftoverRejected.of_ne {code p0 p1 p2 p3 : UInt64} (hcode : code ≠ 0x11) :
    LeftoverRejected L M (.ecall code p0 p1 p2 p3) := fun hc => absurd hc hcode

theorem Placed.room {ts ts' : List Tile} {t k j : Nat} (h : Placed L ts ts' t k j) : Room ts := by
  have hstack := h.stack
  obtain ⟨i, ts₁, i', ts₂, i'', ⟨halloc, -⟩, ⟨halloc', -⟩, halloc'', -⟩ := h
  refine ⟨?_, hstack, ?_⟩
  · intro hnone
    exact absurd (hnone.symm.trans halloc) (by simp)
  · rintro ⟨_, _, _, _, hsome, hsome', hnone⟩
    obtain ⟨rfl, rfl⟩ := Prod.mk.inj (Option.some.inj (hsome.symm.trans halloc))
    obtain ⟨rfl, rfl⟩ := Prod.mk.inj (Option.some.inj (hsome'.symm.trans halloc'))
    exact absurd (hnone.symm.trans halloc'') (by simp)

namespace Rests

theorem not_flush (h : Rests L I M σ) (hne : σ.current ≠ σ.globals.handles.flush) :
    M.globals.currentTcb ≠ M.globals.handles.flush := by
  rw [← h.current, ← h.flush]
  exact hne

/-- The allocator has a block for a thread and then none for its kernel stack. -/
theorem noStack (h : Rests L I M σ) {tcb : Nat} {m m' : Mem} {g g' : Globals}
    (hrun : (MemoryAllocator.alloc (toBlocks sizeofTCB)).run M.mem M.globals = .done tcb m g)
    (ht : tcb ≠ 0)
    (hrun' : (MemoryAllocator.alloc (toBlocks defaultStackSize)).run m g = .done 0 m' g') :
    NoStack σ.owners.tiles := by
  have hsize : u32 (toBlocks sizeofTCB) = toBlocks sizeofTCB ∧
      u32 (toBlocks defaultStackSize) = toBlocks defaultStackSize := by decide
  obtain ⟨a, m₁, x₁, ts, hrun₁, -, hcase₁, hH₁⟩ := h.holds.alloc (toBlocks sizeofTCB)
  injection hrun₁.symm.trans hrun with ha hm hg
  subst ha hm hg
  obtain ⟨b, m₂, x₂, ts₂, hrun₂, -, hcase₂, -⟩ := hH₁.alloc (toBlocks defaultStackSize)
  injection hrun₂.symm.trans hrun' with hb
  rw [hsize.1] at hcase₁
  rw [hsize.2] at hcase₂
  rcases hcase₁ with ⟨h0, -⟩ | ⟨i, -, halloc⟩
  · exact absurd h0 ht
  rcases hcase₂ with ⟨-, hnone⟩ | ⟨j, hj, -⟩
  · exact ⟨i, ts, halloc, hnone⟩
  · exact absurd (hj.symm.trans hb) (L.heap.addr_ne_zero j)

theorem rejected (h : Rests L I M σ) (hno : ¬NoStack σ.owners.tiles) (code p0 p1 p2 p3 : UInt64) :
    LeftoverRejected L M (.ecall code p0 p1 p2 p3) :=
  fun _ _ _ _ _ _ hrun ht hrun' => absurd (h.noStack hrun ht hrun') hno

/-- `mem_alloc` where there is such a run of free blocks. -/
theorem memAllocs {n i : Nat} {ts : List Tile} (h : Rests L I M σ) (hI : Kept L I) (hn : u32 n ≠ 0)
    (halloc : Tiling.alloc (u32 n) σ.owners.tiles = some (i, ts)) : ∃ M' x,
      M.trap L (ecallTrap L 0x01 n 0 0 0) = some M' ∧
      Rests L I M' (((σ.called 0x01 n).retile
        (σ.owners.withBlocks ts ((L.heap.addr i, u32 n) :: σ.owners.blocks)) x).returned
          (L.heap.addr i)) := by
  obtain ⟨M', a, x, ts', hs, -, hcase, h'⟩ := h.memAlloc hI n
  obtain ⟨rfl, rfl⟩ := allocated_some halloc hcase
  rw [Inside.allocated, if_pos ⟨L.heap.addr_ne_zero i, hn⟩] at h'
  exact ⟨M', x, hs, h'⟩

/-- `thread_create` where the allocator has the blocks for a thread. -/
theorem creates {p0 p1 usr t k j : Nat} {ts : List Tile} (h : Rests L I M σ) (hI : Kept L I)
    (h0 : p0 ≠ 0) (h1 : p1 ≠ 0) (huser : UserWord L M p0)
    (husr : (usr, toBlocks defaultStackSize) ∈ σ.owners.blocks) (hapart : p0 + 8 ≤ usr)
    (hplaced : Placed L σ.owners.tiles ts t k j) : ∃ M' x a0,
      M.trap L (ecallTrap L 0x11 p0 p1 0 (usr + defaultStackSize)) = some M' ∧
      Rests L I M' (((σ.called 0x11 p0).create t j (σ.owners.created ts t usr k j) x).returned a0) := by
  obtain ⟨M', τ, hs, ⟨x, a0, rfl⟩, h'⟩ := trap_back (p := ecallTrap L 0x11 p0 p1 0 (usr + defaultStackSize))
    (P := fun τ => ∃ x a0, τ =
      ((σ.called 0x11 p0).create t j (σ.owners.created ts t usr k j) x).returned a0) h <|
    h.inside.post_syscall hI (by decide) fun hin => by
    refine hin.post_createThread_of hI (fun hno => hplaced.room.sem hno) h0 (h.user_word huser)
      (.inr (.inr ⟨usr, rfl, husr, .inl hapart, fun i ts halloc hnone =>
        absurd ⟨i, ts, halloc, hnone⟩ hplaced.stack⟩)) (X := fun _ => True) (fun _ _ _ => trivial)
      (fun _ _ _ => trivial) (fun hno => ?_) fun t' k' j' ts' x a0 m' hp' hτ _ _ => ?_
    · rcases hno with hno | hno | hno | hno
      · exact absurd hno h1
      · unfold defaultStackSize at hno
        omega
      · exact absurd hno hplaced.room.tcb
      · exact absurd hno hplaced.stack
    · obtain ⟨rfl, rfl, rfl, rfl⟩ := hp'.unique hplaced
      rw [Nat.add_sub_cancel] at hτ ⊢
      exact ⟨_, ⟨x, a0, rfl⟩, rfl, hτ⟩
  exact ⟨M', x, a0, hs, h'⟩

/-- `thread_join` with the handle of a thread that has not ended. -/
theorem joins {t n : Nat} {R : List Nat} (h : Rests L I M σ) (hI : Kept L I)
    (ht : t ∈ σ.owners.threads) (hneg : toInt (decBits (σ.abs.bits (σ.owners.join t))) < 0)
    (hR : σ.abs.ready = n :: R) (hcur : σ.current ≠ σ.globals.handles.flush) : ∃ M' x σ',
      M.trap L (ecallTrap L 0x14 t 0 0 0) = some M' ∧ Rests L I M' σ' ∧
      Away.Resumes L (((σ.called 0x14 t).block (σ.owners.join t) (.joining (σ.owners.join t))).switch n R
        x) σ' ∧
      (σ.abs.cont n = .fresh → n ≠ σ.current → σ' =
        (((σ.called 0x14 t).block (σ.owners.join t) (.joining (σ.owners.join t))).switch n R x).resume L) := by
  have hcode : (0x14 : Nat) ≠ 0xff ∧ (0x14 : Nat) ≠ 0x42 := by decide
  have ht0 : t ≠ 0 := (h.inside.holds.tiled.tcb_inside (List.mem_cons_of_mem _ ht)).1.ne'
  have hs := Inside.mem_join (L := L) ht
  have hj0 : σ.owners.join t ≠ 0 := by
    obtain ⟨i, -, heq, -⟩ := h.inside.holds.tiled.aligned (Owners.Tiled.mem_thread ht
      (r := (σ.owners.join t, toBlocks sizeofSem)) (by simp [Owners.ofThread]))
    simp only at heq
    exact heq ▸ L.heap.addr_ne_zero i
  obtain ⟨M', τ, m, σ', hstep, ⟨x, rfl⟩, h', hτ, -, hfresh⟩ := trap_gone
    (p := ecallTrap L 0x14 t 0 0 0) (P := fun τ _ => ∃ x, τ =
      ((σ.called 0x14 t).block (σ.owners.join t) (.joining (σ.owners.join t))).switch n R x) hI h <|
    h.inside.post_syscall hI hcode fun hin => by
      change Prog.Post _ _ _ ((threadJoinCall L t >>= fun _ => ecallReturn).run _ _)
      refine Inside.post_gone hin.holds.tiled ?_
      have hword := hin.holds.base.joinSem t ht
      simp only [threadJoinCall, ht0, ne_eq, not_false_eq_true, if_true, Prog.wp_bind, wp_rd, hword]
      refine ⟨Owners.cells_tcb (List.mem_cons_of_mem L.mainTcb ht) rfl, ?_⟩
      change Prog.wp _ (if ¬σ.owners.join t = 0 then _ else _) _ _ _ _
      rw [if_pos hj0, Prog.wp_bind]
      refine hin.holds.wp_wait (c := .joining (σ.owners.join t)) hin.running hs (by simp)
        (fun _ => List.ne_nil_of_mem (hR ▸ List.mem_cons_self))
        (fun v' hle _ => absurd hneg (not_lt.mpr hle)) fun n' R' x v' sw hneg hR' hv' hsw => ?_
      obtain ⟨rfl, rfl⟩ := List.cons.inj (hR.symm.trans hR')
      exact ⟨_, ⟨x, rfl⟩, rfl, rfl, hin.away_block hI (.join ht) hs hneg hR' hcur hv'
        hsw (by simp only [Cont.prog, bind_assoc, pure_bind]; rfl)⟩
  exact ⟨M', x, σ', hstep, h', hτ, fun hn hne => hfresh ((Function.update_of_ne hne _ _).trans hn)⟩

/-- `getc` where a character has come. -/
theorem getCs (h : Rests L I M σ) (hI : Kept L I) (hle : 0 ≤ toInt (decBits (σ.abs.bits L.getcSem))) :
    ∃ M' a0, M.trap L (ecallTrap L 0x41 0 0 0 0) = some M' ∧
      Rests L I M' (((σ.called 0x41 0).pass L.getcSem).take.returned a0) := by
  obtain ⟨M', τ, hs, ⟨a0, rfl⟩, h'⟩ := trap_back (p := ecallTrap L 0x41 0 0 0 0)
    (P := fun τ => ∃ a0, τ = ((σ.called 0x41 0).pass L.getcSem).take.returned a0) h <|
    h.inside.post_syscall hI (by decide) fun hin => by
      change Prog.Post _ _ _ ((getCCall L >>= fun _ => ecallReturn).run _ _)
      refine Inside.post_back hin.holds.tiled ?_
      rw [getCCall, Prog.wp_bind, Prog.wp_bind]
      refine hin.holds.wp_wait (c := .reading) hin.running Inside.mem_getc (by decide)
        (fun hneg => absurd hneg (not_lt.mpr hle)) (fun v' hle hv' => ?_) fun _ _ _ _ _ hneg =>
          absurd hneg (not_lt.mpr hle)
      have htake : Inside L M.saved I ((σ.called 0x41 0).pass L.getcSem).take v' :=
        hin.step hI (.passRead hin.valid hin.resuming hle) hv'.take rfl rfl rfl
          (List.Subset.refl _) rfl rfl rfl hin.running.mode rfl rfl
      have hend (c : Nat) := htake.wp_setA0 (x := c) (p := fun _ => ecallReturn)
        (Q := fun _ v g => ∃ τ, (∃ a0, τ = ((σ.called 0x41 0).pass L.getcSem).take.returned a0) ∧
          g = τ.globals ∧ τ.owners = σ.owners ∧ Inside L M.saved I τ v) (T := fun _ _ _ _ => False)
        fun v'' h'' => h''.wp_returned hI fun a0 hτ => ⟨_, ⟨a0, rfl⟩, rfl, rfl, hτ⟩
      simp only [takeChar, Prog.wp_bind, wp_globals, wp_modifyGlobals, wp_log]
      exact Prog.wp_bind.mp (hend _)
  exact ⟨M', a0, hs, h'⟩

/-- `putc` where there is room for the character. -/
theorem putCs (h : Rests L I M σ) (hI : Kept L I) (p0 : Nat)
    (hle : 0 ≤ toInt (decBits (σ.abs.bits L.putcSem))) :
    ∃ M' a0, M.trap L (ecallTrap L 0x42 p0 0 0 0) = some M' ∧
      Rests L I M' ((((σ.called 0x42 p0).pass L.putcSem).store p0).returned a0) := by
  have hin := h.inside.assign_a0 (signExtend failedSyscall)
  have hcalled := hin.holds.log (.called σ.current 0x42 p0)
  have hrun : Holds.Running (σ.called 0x42 p0) :=
    ⟨hin.running.moving, hin.running.context, hin.running.status, hin.running.mode⟩
  have hpost : Prog.Post (fun _ => False) (fun _ m g => ∃ τ,
      (∃ a0, τ = (((σ.called 0x42 p0).pass L.putcSem).store p0).returned a0) ∧ g = τ.globals ∧
        Inside L M.saved I τ m.view) (fun _ _ _ _ => False)
      ((putCCall L p0 >>= fun _ => ecallReturn).run
        (M.mem.assign σ.globals.kCurrentContext Field.a0 (signExtend failedSyscall))
        (σ.called 0x42 p0).globals) := by
    refine Inside.post_back hin.holds.tiled ?_
    rw [putCCall, Prog.wp_bind, Prog.wp_bind]
    refine hcalled.wp_wait (c := .writing p0) hrun Inside.mem_putc (by simp)
      (fun hneg => absurd hneg (not_lt.mpr hle)) (fun v' hle hv' => ?_) fun _ _ _ _ _ hneg =>
        absurd hneg (not_lt.mpr hle)
    obtain ⟨hcur, hmode, hres, hctx, hss, hhandles⟩ := Inside.store_same (σ.called 0x42 p0) L.putcSem p0
    have hstore : Inside L M.saved I (((σ.called 0x42 p0).pass L.putcSem).store p0) v' :=
      hin.step hI (.passWrite hin.valid hin.resuming p0 hle) (hv'.store p0) rfl hcur rfl
        (List.Subset.refl _) rfl rfl hctx (by rw [hss, hmode, hcur]; exact hrun.mode) hres hhandles
    have hend := hstore.wp_returned hI (T := fun _ _ _ _ => False) (Q := fun _ v g => ∃ τ,
      (∃ a0, τ = (((σ.called 0x42 p0).pass L.putcSem).store p0).returned a0) ∧ g = τ.globals ∧
        τ.owners = σ.owners ∧ Inside L M.saved I τ v) fun a0 hτ => ⟨_, ⟨a0, rfl⟩, rfl, rfl, hτ⟩
    simp only [storeChar, Prog.wp_bind, wp_globals, wp_modifyGlobals, wp_log]
    exact hend
  obtain ⟨M', τ, hs, ⟨a0, rfl⟩, h'⟩ := trap_back (p := ecallTrap L 0x42 p0 0 0 0) h (by
    rw [Inside.ecallTrap_eq]
    exact post_of_run run_globals (post_of_run run_log (post_of_run (h.inside.run_setA0 _ rfl) hpost)))
  exact ⟨M', a0, hs, h'⟩

/-- A character of the console for which there is room. -/
theorem receives {n : Nat} {R : List Nat} (h : Rests L I M σ) (hI : Kept L I) (temp : UInt8)
    (hlen : σ.globals.getcBuffer.count < ioBufferSize)
    (hR : (σ.receive L temp).abs.ready ++ [σ.current] = n :: R) : ∃ M' x σ',
      M.step L (.console (some temp)) = some M' ∧ Rests L I M' σ' ∧
      Away.Resumes L (((σ.receive L temp).requeue .preempted).switch n R x) σ' ∧
      (n ≠ σ.current → σ.abs.cont n = .fresh →
        σ' = (((σ.receive L temp).requeue .preempted).switch n R x).resume L) := by
  obtain ⟨hown, -, -, hcont, -, -, -, trace, hg⟩ := Inside.signal_same
    ((σ.on { σ.globals with getcBuffer := σ.globals.getcBuffer.put temp }).log (.received temp)) L.getcSem
  have hcur : (σ.receive L temp).current = σ.current := by
    rw [Spec.current, Spec.receive, hg]
    rfl
  obtain ⟨M', τ, m, σ', hs, ⟨x, rfl⟩, h', hτ, -, hfresh⟩ := trap_gone (p := handleConsole L (some temp))
    (P := fun τ _ => ∃ x, τ = ((σ.receive L temp).requeue .preempted).switch n R x) hI h <| by
      refine Inside.post_gone h.inside.holds.tiled ?_
      simp only [handleConsole, fillGetcBuffer]
      rw [Prog.wp_bind, wp_globals, if_pos (by exact hlen)]
      simp only [Prog.wp_bind, wp_modifyGlobals, wp_log]
      have hput : Holds L ((σ.on { σ.globals with getcBuffer := σ.globals.getcBuffer.put temp }).log
          (.received temp)) M.mem.view :=
        Holds.log (Holds.on (g := { σ.globals with getcBuffer := σ.globals.getcBuffer.put temp })
          h.inside.holds ⟨rfl, rfl, rfl, rfl⟩) _
      refine hput.wp_signal Inside.mem_getc fun v' hv' => ?_
      have hstep : Inside L M.saved I (σ.receive L temp) v' := h.inside.signal hI
        (.receive h.inside.valid h.inside.resuming temp hlen) hv' rfl rfl rfl rfl rfl rfl rfl rfl rfl
      have hwp := hstep.holds.wp_dispatch (c := .preempted) (Q := fun _ _ _ => False) (T := fun sw k v g =>
        ∃ τ, (∃ x, τ = ((σ.receive L temp).requeue .preempted).switch n R x) ∧ g = τ.globals ∧
          τ.owners = (σ.receive L temp).owners ∧ Away L M.saved I τ sw k v) hstep.running (by decide)
          fun n' R' x v' sw hR' hv' hsw => by
            have hready : n :: R = n' :: R' := by
              rw [← hR, ← hcur]
              exact hR'
            obtain ⟨rfl, rfl⟩ := List.cons.inj hready
            exact ⟨_, ⟨x, rfl⟩, rfl, rfl, hstep.away_dispatch hI (.inl rfl) hR' hv' hsw rfl⟩
      rwa [show (σ.receive L temp).owners = σ.owners from hown] at hwp
  refine ⟨M', x, σ', hs, h', hτ, fun hne hn => hfresh ?_⟩
  change Function.update (σ.receive L temp).abs.cont (σ.receive L temp).current .preempted n = .fresh
  rw [hcur, Function.update_of_ne hne, show (σ.receive L temp).abs.cont = σ.abs.cont from hcont, hn]

/-- `set_user_mode` -/
theorem userModes (h : Rests L I M σ) (hI : Kept L I) : ∃ M' x a0,
    M.trap L (ecallTrap L 0xff 0 0 0 0) = some M' ∧ Rests L I M' ((σ.userMode 0 x).returned a0) := by
  obtain ⟨M', τ, hs, ⟨x, a0, rfl⟩, h'⟩ := trap_back (p := ecallTrap L 0xff 0 0 0 0)
    (P := fun τ => ∃ x a0, τ = (σ.userMode 0 x).returned a0) h <| by
      rw [Inside.ecallTrap_eq]
      refine post_of_run run_globals (post_of_run run_log (post_of_run (h.inside.run_setA0 _ rfl) ?_))
      change Prog.Post _ _ _ ((userModeCall >>= fun _ => ecallReturn).run _ _)
      rw [userModeCall, prepareUserMode, bind_assoc]
      refine post_of_run run_modifyGlobals ?_
      have hin := (h.inside.assign_a0 (signExtend failedSyscall)).userMode hI 0
        (spp_clear σ.globals.sstatus)
      exact Inside.post_back hin.holds.tiled (hin.wp_setA0 fun v' h' => h'.wp_returned hI fun a0 hτ =>
        ⟨_, ⟨_, a0, rfl⟩, rfl, rfl, hτ⟩)
  exact ⟨M', x, a0, hs, h'⟩

/-- A thread ends: what belongs to it is free, its word `join_sem` too, and that is null. -/
theorem exits (h : Rests L I M σ) (hI : Kept L I) (hf : σ.globals.handles.flush ≠ 0)
    (hcur : M.globals.currentTcb ≠ M.globals.handles.flush)
    (hmain : M.globals.currentTcb ≠ L.mainTcb) (p0 p1 p2 p3 : Nat) : ∃ M' σ',
      M.trap L (ecallTrap L 0x12 p0 p1 p2 p3) = some M' ∧ Rests L I M' σ' ∧
      (∃ ts x n R y, ((σ.called 0x12 p0).exit
          ((σ.owners.dropThread σ.current).withBlocks ts σ.owners.blocks) x).abs.ready = n :: R ∧
        Away.Resumes L (((σ.called 0x12 p0).exit
          ((σ.owners.dropThread σ.current).withBlocks ts σ.owners.blocks) x).switch n R y) σ') ∧
      (∀ y, InJoinSem M.globals.currentTcb y → σ'.owners.Free L y) ∧
      M'.mem.field M.globals.currentTcb Field.joinSem = 0 := by
  rw [← h.current] at hcur hmain ⊢
  rw [← h.flush] at hcur
  have hcode : (0x12 : Nat) ≠ 0xff ∧ (0x12 : Nat) ≠ 0x42 := by decide
  have hin := (h.inside.assign_a0 (signExtend failedSyscall)).called hI p0 hcode
  obtain ⟨ts, x, m', hword, hfree, hpost⟩ :=
    hin.post_threadExit (E := fun _ => False) hI hf hcur hmain
  obtain ⟨W, hW⟩ : ∃ W, (σ.owners.dropThread σ.current).withBlocks ts σ.owners.blocks = W := ⟨_, rfl⟩
  obtain ⟨M', τ, m, σ', hs, ⟨⟨n, R, y, hR, rfl⟩, hspares⟩, h', hsame, hspares', -⟩ := trap_gone
    (P := fun τ m => (∃ n R y, ((σ.called 0x12 p0).exit W x).abs.ready = n :: R ∧
      τ = ((σ.called 0x12 p0).exit W x).switch n R y) ∧ W.Spares L m' m) hI h
    (h.inside.post_syscall hI hcode fun _ => by rw [← hW]; exact hpost)
  have how : σ'.owners = W := hsame.owners
  refine ⟨M', σ', hs, h', ⟨ts, x, n, R, y, hW ▸ hR, hW ▸ hsame⟩, fun y hy => ?_, ?_⟩
  · rw [how, ← hW]
    exact hfree y hy.1 hy.2
  · refine Eq.trans (load_congr fun y hy hy' => ?_) hword
    have hquiet : W.Quiet L y := by
      rw [← hW]
      exact .inr (hfree y hy hy')
    exact (hspares' y hquiet).trans (hspares y hquiet)

/-- A tick in the turn of the current thread, -/
theorem post_timer (h : Rests L I M σ) (hI : Kept L I)
    (hlt : σ.tick.globals.timerTicks < defaultTimeSlice) : Prog.Post (fun _ => False)
      (fun _ m g => ∃ τ, τ = σ.tick ∧ g = τ.globals ∧ Inside L M.saved I τ m.view) (fun _ _ _ _ => False)
      ((handleTimer L).run M.mem σ.globals) := by
  refine Prog.post_of_wp h.inside.holds.tiled.separate (h.inside.wp_handleTimer
    (fun _ v' hv' m' hs _ => ⟨_, rfl, rfl, h.inside.tick hI hlt (hv'.of_sim hs)⟩) fun hle => ?_)
  exact absurd hlt (not_lt.mpr hle)

/-- after which the thread goes on. -/
theorem timer (h : Rests L I M σ) (hI : Kept L I) (hlt : σ.tick.globals.timerTicks < defaultTimeSlice) :
    ∃ M', M.step L .timer = some M' ∧ Rests L I M' σ.tick := by
  obtain ⟨M', τ, hs, rfl, h'⟩ := trap_back h (h.post_timer hI hlt)
  exact ⟨M', hs, h'⟩

end Rests

end Steps

end Os1Kernel
