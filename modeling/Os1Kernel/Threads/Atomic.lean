import Os1Kernel.Source.SyscallC
import Os1Kernel.Threads.Outcomes

/-! What is left when the `thread_create` of user code fails. -/

namespace Os1Kernel

open Memory MemoryAllocator
open Tiling hiding alloc

/-- The call returns an error code, and there are the same threads, the same ready threads and the same
live allocations as before. -/
def FailsCleanly (L : Layout) (M : Machine) (r : Option (Int × Machine)) : Prop :=
  ∃ code M', r = some (code, M') ∧ code < 0 ∧
    M'.globals.handles.threads = M.globals.handles.threads ∧
    Log.readied M'.globals.trace = Log.readied M.globals.trace ∧
    ∀ i < L.heap.total, M'.mem.field (L.heap.entryAddr i) Field.entry =
      M.mem.field (L.heap.entryAddr i) Field.entry

section Entries

variable {L : Layout} {σ σ' : Spec} {v v' : Cells} {i n : Nat}

/-- The allocations decide the table. -/
theorem Holds.entry_eq (h : Holds L σ v) (h' : Holds L σ' v') (hused : σ'.owners.used.Perm σ.owners.used)
    (hi : i < L.heap.total) : v' (L.heap.entryAddr i) .entry = v (L.heap.entryAddr i) .entry := by
  have hrep := h'.heap
  rw [h'.tiled.tiles_eq h.tiled hused] at hrep
  exact hrep.entry_eq h.heap hi

/-- A new block has an entry that it did not have before. -/
theorem Holds.entry_new (h : Holds L σ v) (h' : Holds L σ' v')
    (hused : σ'.owners.used.Perm ((L.heap.addr i, n) :: σ.owners.used)) :
    i < L.heap.total ∧ v' (L.heap.entryAddr i) .entry ≠ v (L.heap.entryAddr i) .entry := by
  have hmem : (L.heap.addr i, n) ∈ σ'.owners.used := hused.mem_iff.mpr List.mem_cons_self
  obtain ⟨j, hj, heq, hseg⟩ := h'.tiled.aligned hmem
  obtain rfl := L.heap.addr_inj.mp heq
  refine ⟨hj, ?_⟩
  have hpair := List.pairwise_cons.mp ((hused.pairwise_iff fun h => h.symm).mp h'.tiled.pairwise)
  have hfresh : ∀ k, (i, k) ∉ segs true 0 σ.owners.tiles := by
    intro k hk
    have hold : (L.heap.addr i, k) ∈ σ.owners.used :=
      h.tiled.used.mem_iff.mpr (List.mem_map.mpr ⟨_, hk, rfl⟩)
    have hap := hpair.1 _ hold
    have h1 := (h'.tiled.inside hmem).2.2
    have h2 := (h.tiled.inside hold).2.2
    unfold Owners.BlocksApart Apart at hap
    simp only at hap h1 h2
    omega
  have hpos := (h'.tiled.inside hmem).2.2
  rw [h'.heap.live _ hseg, h.heap.clear i hj hfresh]
  exact hpos.ne'

end Entries

section Call

variable {L : Layout} {I : Spec → Prop} {M M' : Machine} {σ σ' : Spec}

theorem kSystemCall_some {a0 a1 a2 a3 a4 : UInt64} {n0 n1 n2 n3 n4 : Nat} (h0 : a0.toNat = n0)
    (h1 : a1.toNat = n1) (h2 : a2.toNat = n2) (h3 : a3.toNat = n3) (h4 : a4.toNat = n4)
    (hs : M.trap L (ecallTrap L n0 n1 n2 n3 n4) = some M') :
    SyscallC.kSystemCall L a0 a1 a2 a3 a4 M = some (UInt64.ofNat M'.a0, M') := by
  rw [SyscallC.kSystemCall, (step_ecall h0 h1 h2 h3 h4).trans hs]
  rfl

/-- `mem_alloc` of a stack. -/
theorem Rests.takesStack (h : Rests L I M σ) (hI : Kept L I) : ∃ M' a σ',
    SyscallC.memAlloc L (UInt64.ofNat defaultStackSize) M = some (UInt64.ofNat a, M') ∧
    Rests L I M' σ' ∧ Log.readied M'.globals.trace = Log.readied M.globals.trace ∧
    M'.globals.currentTcb = M.globals.currentTcb ∧ M'.globals.handles.flush = M.globals.handles.flush ∧
    (a = 0 ∧ Tiling.alloc (toBlocks defaultStackSize) σ.owners.tiles = none ∧
        σ'.owners = σ.owners.withBlocks σ'.owners.tiles σ.owners.blocks ∨
      ∃ i, a = L.heap.addr i ∧
        Tiling.alloc (toBlocks defaultStackSize) σ.owners.tiles = some (i, σ'.owners.tiles) ∧
        σ'.owners = σ.owners.withBlocks σ'.owners.tiles ((a, toBlocks defaultStackSize) :: σ.owners.blocks)) := by
  have hsize : u32 (toBlocks defaultStackSize) = toBlocks defaultStackSize ∧
      toBlocks defaultStackSize ≠ 0 := by decide
  obtain ⟨M', a, x, ts, hs, rfl, hcase, h'⟩ := h.memAlloc hI (toBlocks defaultStackSize)
  refine ⟨M', _, _, kSystemCall_some rfl (by decide) rfl rfl rfl hs, h', ?_, ?_, ?_, ?_⟩
  · rw [show M'.globals.trace = σ.globals.trace ++ [.called σ.current 0x01 (toBlocks defaultStackSize)] ++
        [.ecallReturned σ.current M'.a0] from (congrArg Globals.trace h'.of_sstatus).symm,
      show M.globals.trace = σ.globals.trace from (congrArg Globals.trace h.of_sstatus).symm]
    simp only [Log.readied_append]
    simp [Log.readied]
  · exact h'.current.symm.trans h.current
  · exact h'.flush.symm.trans h.flush
  · rw [hsize.1] at hcase
    rcases hcase with ⟨h0, hnone⟩ | ⟨i, hi, hsome⟩
    · refine .inl ⟨h0, hnone, ?_⟩
      change Inside.allocated σ.owners ts M'.a0 (toBlocks defaultStackSize) = _
      rw [Inside.allocated, if_neg fun hne => hne.1 h0, List.nil_append]
      rfl
    · refine .inr ⟨i, hi, hsome, ?_⟩
      change Inside.allocated σ.owners ts M'.a0 (toBlocks defaultStackSize) = _
      rw [Inside.allocated, if_pos ⟨hi ▸ L.heap.addr_ne_zero i, hsize.1 ▸ hsize.2⟩, hsize.1]
      rfl

theorem Owners.used_cons (W : Owners) (ts : List Tile) (t : Nat × Nat) :
    (W.withBlocks ts (t :: W.blocks)).used.Perm (t :: W.used) := by
  simp only [Owners.used, Owners.withBlocks, ← List.cons_append]
  exact List.perm_middle

/-- What the caller gets when the kernel gives up. -/
theorem GivenUp.result {p0 : Nat} {bs : List (Nat × Nat)} {m : Mem} {g : Globals}
    (h : GivenUp L σ p0 bs m g) :
    (Machine.sret { M with mem := m, globals := g }).a0 = u64 (signExtend failedSyscall) := by
  have ha0 := h.a0
  rw [← h.current] at ha0
  exact ha0

theorem failed_result : toInt (u32 (UInt64.ofNat (u64 (signExtend failedSyscall))).toNat) = -1 := by decide

variable {M₁ : Machine} {σ₁ : Spec} {ts : List Tile} {p0 i n : Nat} {m : Mem} {g : Globals} {code : Int}

/-- Nothing is left of the call when user code has the blocks that it had before. -/
theorem Rests.clean (h : Rests L I M σ) (h₁ : Rests L I M₁ σ₁)
    (hreadied : Log.readied M₁.globals.trace = Log.readied M.globals.trace) {bs : List (Nat × Nat)}
    (howners : σ₁.owners = σ.owners.withBlocks ts bs)
    (hg : GivenUp L (σ₁.called 0x11 p0) p0 σ.owners.blocks m g) (hcode : code < 0) :
    FailsCleanly L M (some (code, Machine.sret { M₁ with mem := m, globals := g })) := by
  obtain ⟨us, x, hH⟩ := hg.holds
  refine ⟨code, _, rfl, hcode, ?_, ?_, fun j hj => ?_⟩
  · have hthreads : g.handles.threads = M₁.globals.handles.threads := by
      rw [hg.handles, h₁.called_handles]
    change g.handles.threads = _
    rw [hthreads, h₁.handles, h.handles, howners]
    rfl
  · exact (hg.readied.trans (h₁.called_readied _ _)).trans hreadied
  · refine h.inside.holds.entry_eq hH (.of_eq ?_) hj
    change (σ₁.owners.withBlocks us σ.owners.blocks).used = _
    rw [howners]
    rfl

/-- The stack is left when there is no block for the thread. -/
theorem Rests.not_clean (h : Rests L I M σ)
    (howners : σ₁.owners = σ.owners.withBlocks ts ((L.heap.addr i, n) :: σ.owners.blocks))
    (hg : GivenUp L (σ₁.called 0x11 p0) p0 σ₁.owners.blocks m g) :
    ¬FailsCleanly L M (some (code, Machine.sret { M₁ with mem := m, globals := g })) := by
  obtain ⟨us, x, hH⟩ := hg.holds
  rintro ⟨_, _, heq, -, -, -, hentries⟩
  obtain ⟨rfl, rfl⟩ := Prod.mk.inj (Option.some.inj heq)
  have hused : (((σ₁.called 0x11 p0).heap ((σ₁.called 0x11 p0).owners.withBlocks us σ₁.owners.blocks)
      x).owners.used).Perm ((L.heap.addr i, n) :: σ.owners.used) := by
    change (σ₁.owners.withBlocks us σ₁.owners.blocks).used.Perm _
    rw [howners]
    exact σ.owners.used_cons us (L.heap.addr i, n)
  obtain ⟨hi, hne⟩ := h.inside.holds.entry_new hH hused
  exact hne (hentries i hi)

/-- A word of user code stays one. -/
theorem Rests.word_stays (h : Rests L I M σ) (h₁ : Rests L I M₁ σ₁) {t : Nat × Nat}
    (howners : σ₁.owners = σ.owners.withBlocks ts (t :: σ.owners.blocks)) (hword : UserWord L M p0) :
    UserWord L M₁ p0 := by
  refine ⟨hword.1, fun x hx hx' => ?_⟩
  have hbyte := hword.2 x hx hx'
  rw [UserByte, h.handles] at hbyte
  rw [UserByte, h₁.handles, howners]
  rcases hbyte with ⟨u, hu, hi⟩ | hbyte
  · exact .inl ⟨u, List.mem_cons_of_mem _ hu, hi⟩
  · exact .inr hbyte

/-- It does not lie in a new block. -/
theorem Rests.word_apart (h : Rests L I M σ) (h₁ : Rests L I M₁ σ₁) {a : Nat}
    (howners : σ₁.owners = σ.owners.withBlocks ts ((a, n) :: σ.owners.blocks)) (hword : UserWord L M p0) :
    p0 + 8 ≤ a ∨ a + 64 * n ≤ p0 := by
  by_contra hnot
  have htiled : (σ.owners.withBlocks ts ([(a, n)] ++ σ.owners.blocks)).Tiled L :=
    howners ▸ h₁.inside.holds.tiled
  have hpos := (htiled.inside (Owners.Tiled.mem_block (List.mem_append_left _ List.mem_cons_self))).2.2
  simp only at hpos
  have hin : Owners.In (max p0 a) (a, n) := ⟨Nat.le_max_right _ _, by simp only; omega⟩
  exact htiled.user_not_in List.mem_cons_self
    (h.user_word hword (max p0 a) (Nat.le_max_left _ _) (by omega)) hin

theorem Rests.stack_toNat (h₁ : Rests L I M₁ σ₁) {bs : List (Nat × Nat)}
    (howners : σ₁.owners = σ.owners.withBlocks ts ((L.heap.addr i, toBlocks defaultStackSize) :: bs)) :
    (UInt64.ofNat (L.heap.addr i)).toNat = L.heap.addr i ∧
      (UInt64.ofNat (L.heap.addr i) + UInt64.ofNat defaultStackSize).toNat =
        L.heap.addr i + defaultStackSize := by
  have hsize : 64 * toBlocks defaultStackSize = defaultStackSize := by decide
  have hmem : (L.heap.addr i, toBlocks defaultStackSize) ∈ σ₁.owners.blocks := by
    rw [howners]
    exact List.mem_cons_self
  have hin := h₁.inside.holds.tiled.inside (Owners.Tiled.mem_block hmem)
  have hend := L.heap.spec.base_end
  have hstop := L.heap.stop_lt
  have ha : (UInt64.ofNat (L.heap.addr i)).toNat = L.heap.addr i := by
    rw [UInt64.toNat_ofNat']
    exact Nat.mod_eq_of_lt (by simp only at hin; omega)
  refine ⟨ha, ?_⟩
  rw [UInt64.toNat_add, ha, show (UInt64.ofNat defaultStackSize).toNat = defaultStackSize by decide]
  exact Nat.mod_eq_of_lt (by simp only at hin; omega)

theorem Rests.stack_ne_zero (h₁ : Rests L I M₁ σ₁) {bs : List (Nat × Nat)}
    (howners : σ₁.owners = σ.owners.withBlocks ts ((L.heap.addr i, toBlocks defaultStackSize) :: bs)) :
    UInt64.ofNat (L.heap.addr i) ≠ 0 := fun h0 =>
  L.heap.addr_ne_zero i ((h₁.stack_toNat howners).1.symm.trans (by rw [h0]; rfl))

/-- The kernel's part of the call, when user code has got the stack. -/
theorem Rests.threadCreate_ends (h : Rests L I M σ) (h₁ : Rests L I M₁ σ₁) (hI : Kept L I)
    {handle startRoutine arg : UInt64} (hne : M₁.globals.currentTcb ≠ M₁.globals.handles.flush)
    (hword : UserWord L M handle.toNat) (hstart : startRoutine ≠ 0)
    (hs : SyscallC.memAlloc L (UInt64.ofNat defaultStackSize) M = some (UInt64.ofNat (L.heap.addr i), M₁))
    (howners : σ₁.owners = σ.owners.withBlocks ts ((L.heap.addr i, toBlocks defaultStackSize) ::
      σ.owners.blocks))
    (hok : LeftoverRejected L M₁ (.ecall 0x11 handle startRoutine arg
      (UInt64.ofNat (L.heap.addr i) + UInt64.ofNat defaultStackSize))) :
    (SyscallC.threadCreate L handle startRoutine arg M = none ∧ NoSem σ₁.owners.tiles ∨
      ∃ m g, Ends L (σ₁.called 0x11 handle.toNat) handle.toNat (L.heap.addr i) m g ∧
        SyscallC.threadCreate L handle startRoutine arg M =
          some (toInt (u32 (UInt64.ofNat (Machine.sret { M₁ with mem := m, globals := g }).a0).toNat),
            Machine.sret { M₁ with mem := m, globals := g })) := by
  have hsize : 64 * toBlocks defaultStackSize = defaultStackSize := by decide
  have hmem : (L.heap.addr i, toBlocks defaultStackSize) ∈ σ₁.owners.blocks := by
    rw [howners]
    exact List.mem_cons_self
  have htop := (h₁.stack_toNat howners).2
  have h0 : handle ≠ 0 := fun h0 => hword.1 (by rw [h0]; rfl)
  have hcreate : SyscallC.threadCreate L handle startRoutine arg M =
      (SyscallC.kSystemCall L 0x11 handle startRoutine arg
        (UInt64.ofNat (L.heap.addr i) + UInt64.ofNat defaultStackSize) M₁).map
          fun result => (toInt (u32 result.1.toNat), result.2) := by
    rw [SyscallC.threadCreate, if_pos ⟨h0, hstart⟩, hs, Option.bind_some]
    exact if_pos (h₁.stack_ne_zero howners)
  have hallowed : Allowed L M₁ (.ecall 0x11 handle startRoutine arg
      (UInt64.ofNat (L.heap.addr i) + UInt64.ofNat defaultStackSize)) := by
    refine allowed_create hne (h.word_stays h₁ howners hword) ?_ ?_
    · rw [htop, Nat.add_sub_cancel, h₁.handles]
      exact hmem
    · rw [htop, Nat.add_sub_cancel]
      exact hsize ▸ h.word_apart h₁ howners hword
  have htop0 : UInt64.ofNat (L.heap.addr i) + UInt64.ofNat defaultStackSize ≠ 0 := fun h0 => by
    rw [h0] at htop
    exact absurd htop (by simp [defaultStackSize])
  obtain ⟨usr, hp3, hcase⟩ := h₁.createEnds hI hallowed hok h0 hstart htop0
  obtain rfl : usr = L.heap.addr i := by omega
  rw [hcreate, SyscallC.kSystemCall]
  rcases hcase with ⟨hnone, hno⟩ | ⟨m, g, hends, hsome⟩
  · rw [hnone]
    exact .inl ⟨rfl, hno⟩
  · rw [hsome]
    exact .inr ⟨m, g, hends, rfl⟩

end Call

/-- Where the `thread_create` of user code does not get its four blocks, it fails without a trace if it
has got none of them, or the stack and the `TCB` only and `free` rejects what `create_tcb` then takes for
a semaphore.  With the stack only, the stack is lost, and with all but the semaphore the kernel
dereferences null. -/
theorem thread_create_atomic {L : Layout} {M : Machine} (h : Reach L (LeftoverRejected L) M)
    (hne : M.globals.currentTcb ≠ M.globals.handles.flush) {handle startRoutine arg : UInt64}
    (hword : UserWord L M handle.toNat) (hstart : startRoutine ≠ 0)
    (hok : ∀ stackSpace M₁,
      SyscallC.memAlloc L (UInt64.ofNat defaultStackSize) M = some (stackSpace, M₁) → stackSpace ≠ 0 →
        LeftoverRejected L M₁ (.ecall 0x11 handle startRoutine arg
          (stackSpace + UInt64.ofNat defaultStackSize))) :
    ∃ as m g, (allocAll (toBlocks defaultStackSize :: tcbRequests)).run M.mem M.globals = .done as m g ∧
      (as.length < 4 → (FailsCleanly L M (SyscallC.threadCreate L handle startRoutine arg M) ↔
        as.length ≠ 1 ∧ as.length ≠ 3)) := by
  obtain ⟨σ, hrests⟩ := reach_rests (kept_true L) (fun _ _ _ _ => trivial) h
  have hI := (kept_true L).and (kept_flush L)
  have hsmall : ∀ n ∈ toBlocks defaultStackSize :: tcbRequests, u32 n = n := by decide
  obtain ⟨as, m, g, hrun, hgives⟩ := allocAll_returns hsmall hrests.holds.heap
  refine ⟨as, m, g, hrun, fun hlen => ?_⟩
  have h0 : handle ≠ 0 := fun h0 => hword.1 (by rw [h0]; rfl)
  obtain ⟨M₁, a, σ₁, hs, h₁, hreadied, hcur, hflush, hcase⟩ := hrests.takesStack hI
  rcases hcase with ⟨rfl, hnone, howners⟩ | ⟨i, rfl, hsome, howners⟩
  · -- there is no stack
    have hfail : SyscallC.threadCreate L handle startRoutine arg M = some (failedSyscall, M₁) := by
      rw [SyscallC.threadCreate, if_pos ⟨h0, hstart⟩, hs]
      rfl
    cases hgives with
    | next hsome => exact absurd (hnone.symm.trans hsome) (by simp)
    | fails =>
      rw [hfail]
      refine iff_of_true ⟨_, _, rfl, by decide, ?_, hreadied, fun j hj => ?_⟩ (by simp)
      · rw [h₁.handles, hrests.handles, howners]
        rfl
      · refine hrests.inside.holds.entry_eq h₁.inside.holds (.of_eq ?_) hj
        rw [howners]
        rfl
  cases hgives with
  | fails hnone => exact absurd (hnone.symm.trans hsome) (by simp)
  | @next _ ts' _ j _ as hsome' hgives =>
    obtain ⟨rfl, rfl⟩ := Prod.mk.inj (Option.some.inj (hsome'.symm.trans hsome))
    have ha0 : UInt64.ofNat (L.heap.addr j) ≠ 0 := h₁.stack_ne_zero howners
    rcases hrests.threadCreate_ends h₁ hI (by rwa [hcur, hflush]) hword hstart hs howners
      (hok _ _ hs ha0) with ⟨hnone, hno⟩ | ⟨m', g', hends, hcreate⟩
    · obtain ⟨t, k, rfl⟩ := hgives.noSem hno
      rw [hnone]
      exact iff_of_false (fun ⟨_, _, hf, _⟩ => nomatch hf) (by simp)
    rw [hcreate]
    rcases hends with ⟨hno, hg⟩ | ⟨hno, hg⟩ | ⟨us, t, k, l, hp, -⟩
    · obtain rfl := hgives.noTcb hno
      exact iff_of_false (hrests.not_clean howners hg) (by simp)
    · obtain ⟨t, rfl⟩ := hgives.noStack hno
      have hblocks : (σ₁.owners.blocks.filter fun t => t.1 ≠ L.heap.addr j) = σ.owners.blocks :=
        h₁.inside.holds.tiled.filter_cons (congrArg Owners.blocks howners)
      change GivenUp L _ _ (σ₁.owners.blocks.filter fun t => t.1 ≠ L.heap.addr j) m' g' at hg
      rw [hblocks] at hg
      refine iff_of_true (hrests.clean h₁ hreadied howners hg ?_) (by simp)
      rw [hg.result, failed_result]
      decide
    · obtain rfl := hgives.placed hp
      simp at hlen

/-! ### A heap that is nearly full -/

/-- `main` has taken a block, and there is what the allocator leaves. -/
theorem block_taken (n : UInt64) (ts : List Tile) (hn : u32 n.toNat ≠ 0)
    (halloc : Tiling.alloc (u32 n.toNat) [owned 64, owned 64, owned 6, owned 64, owned 1, gap 217] =
      some (199, ts)) : ∃ M₀ M σ, Scene roomyImage M₀ M σ ∧
    M.globals.currentTcb ≠ M.globals.handles.flush ∧ UserWord roomyImage M 64 ∧ σ.owners.tiles = ts := by
  obtain ⟨M₀, σ₀, h₀, hb⟩ := scene_booted
  have c := hb.alone
  have hcur : σ₀.current ≠ σ₀.globals.handles.flush := by
    rw [c.current, c.flush]
    decide
  rw [← hb.roomy.1] at halloc
  obtain ⟨M, x, h⟩ := h₀.memAllocs n hcur hn halloc
  have hstatic : ∀ r ∈ roomyImage.statics, 64 + 8 ≤ r.1 := by decide
  exact ⟨M₀, M, _, h, h.rests.not_flush hcur, userWord_below (by decide) (by decide) hstatic, rfl⟩

/-- There is a block for the stack of user mode only, and the call loses it. -/
theorem thread_create_not_atomic : ∃ M, Reach roomyImage (LeftoverRejected roomyImage) M ∧
    M.globals.currentTcb ≠ M.globals.handles.flush ∧ UserWord roomyImage M 64 ∧
    (∃ a m g, (allocAll (toBlocks defaultStackSize :: tcbRequests)).run M.mem M.globals =
      .done [a] m g) ∧
    ¬FailsCleanly roomyImage M (SyscallC.threadCreate roomyImage 64 1 0 M) := by
  obtain ⟨M₀, M, σ, h, hne, hword, htiles⟩ := block_taken 153
    [owned 64, owned 64, owned 6, owned 64, owned 1, owned 153, gap 64] (by decide) (by decide)
  have hsmall : ∀ n ∈ toBlocks defaultStackSize :: tcbRequests, u32 n = n := by decide
  have hstack : Tiling.alloc (toBlocks defaultStackSize) σ.owners.tiles =
      some (352, [owned 64, owned 64, owned 6, owned 64, owned 1, owned 153, owned 64]) := by
    rw [htiles]
    decide
  have hno : NoTcb [owned 64, owned 64, owned 6, owned 64, owned 1, owned 153, owned 64] := by
    unfold NoTcb
    decide
  refine ⟨M, h.reach, hne, hword, ?_, ?_⟩
  · obtain ⟨as, m, g, hrun, hgives⟩ := allocAll_returns hsmall h.rests.holds.heap
    cases hgives with
    | fails hnone => exact absurd (hnone.symm.trans hstack) (by simp)
    | next hsome hgives =>
      obtain ⟨rfl, rfl⟩ := Prod.mk.inj (Option.some.inj (hsome.symm.trans hstack))
      obtain rfl := hgives.noTcb hno
      exact ⟨_, m, g, hrun⟩
  · have hI := kept_flush roomyImage
    obtain ⟨M₁, a, σ₁, hs, h₁, -, hcur, hflush, hcase⟩ := h.rests.takesStack hI
    obtain ⟨i, rfl, hsome, howners⟩ := hcase.resolve_left fun ⟨_, hnone, _⟩ =>
      absurd (hnone.symm.trans hstack) (by simp)
    obtain ⟨rfl, htiles₁⟩ := Prod.mk.inj (Option.some.inj (hsome.symm.trans hstack))
    rw [← htiles₁] at hno
    have hnoStack : ¬NoStack σ₁.owners.tiles := fun ⟨_, _, hsome, _⟩ =>
      absurd (hno.symm.trans hsome) (by simp)
    rcases h.rests.threadCreate_ends h₁ hI (by rwa [hcur, hflush])
      (show UserWord roomyImage M (64 : UInt64).toNat from hword) (show (1 : UInt64) ≠ 0 by decide) hs
      howners (h₁.rejected hnoStack _ _ _ 0 _) with ⟨-, _, _, _, _, hsome, -⟩ | ⟨m, g, hends, hcreate⟩
    · exact absurd (hno.symm.trans hsome) (by simp)
    rw [hcreate]
    rcases hends with ⟨-, hg⟩ | ⟨hno', -⟩ | ⟨_, _, _, _, hp, -⟩
    · exact h.rests.not_clean howners hg
    · exact absurd hno' hnoStack
    · exact absurd hno hp.tcb

/-- The main thread has given back a stack and another block, which holds a null pointer where a `TCB`
has its semaphore. -/
theorem null_left : ∃ M hs M₀, Reach bootImage (LeftoverRejected bootImage) M ∧
    Idle bootImage [owned 64, owned 64, owned 6, owned 64, owned 1, gap 73] hs M₀ M.mem M.mem M.globals ∧
    M.globals.currentTcb ≠ M.globals.handles.flush ∧
    M.mem.field (bootImage.heap.addr 263) Field.joinSem = 0 := by
  obtain ⟨M₀, σ, -, h₀⟩ := boot_atBoot
  obtain ⟨M, hs, hr, h, -, hflush, hblock, hleft⟩ := word_left h₀ 0
  have hrel : release 199 [owned 64, owned 64, owned 6, owned 64, owned 1, owned 64, gap 9] =
    some (64, [owned 64, owned 64, owned 6, owned 64, owned 1, gap 73]) := by decide
  obtain ⟨M₁, hs₁, h₁⟩ := h.memFree hrel
  rw [bootImage_addr] at hs₁
  rw [← h.handles] at hblock
  have hr₁ := hr.step (.ecall 0x02 22016 0 0 0) (allowed_memFree (h.current_ne_flush hflush) hblock)
    (.of_ne (by decide)) ((step_ecall rfl rfl rfl rfl rfl).trans hs₁)
  refine ⟨M₁, _, M₀, hr₁, h₁.refl, h₁.current_ne_flush hflush, ?_⟩
  refine (load_congr fun y hy hy' => h₁.frame y (outside_bootImage hy hy') ?_).trans hleft
  rw [bootImage_addr] at hy
  exact .inr (Nat.le_trans (by decide) hy)

/-- There are blocks for the stack of user mode and the `TCB` only, and the call gives them back. -/
theorem thread_create_atomic_undone : ∃ M, Reach bootImage (LeftoverRejected bootImage) M ∧
    (∃ a t m g, (allocAll (toBlocks defaultStackSize :: tcbRequests)).run M.mem M.globals =
      .done [a, t] m g) ∧
    FailsCleanly bootImage M (SyscallC.threadCreate bootImage 64 1 0 M) := by
  obtain ⟨M, hs, M₀, hr, h, hne, hleft⟩ := null_left
  have hstack : Tiling.alloc (u32 (toBlocks defaultStackSize))
    [owned 64, owned 64, owned 6, owned 64, owned 1, gap 73] =
      some (199, [owned 64, owned 64, owned 6, owned 64, owned 1, owned 64, gap 9]) := by decide
  have hnone : Tiling.alloc (toBlocks defaultStackSize)
    [owned 64, owned 64, owned 6, owned 64, owned 1, owned 64, owned 6, gap 3] = none := by decide
  have htcb : Tiling.alloc (u32 (toBlocks sizeofTCB)) [owned 64, owned 64, owned 6, owned 64, owned 1,
    owned 64, gap 9] = some (263, [owned 64, owned 64, owned 6, owned 64, owned 1, owned 64, owned 6,
      gap 3]) := by decide
  have hsmall : ∀ n ∈ toBlocks defaultStackSize :: tcbRequests, u32 n = n := by decide
  have hok (stackSpace : UInt64) (M₁ : Machine) (hs : SyscallC.memAlloc bootImage
      (UInt64.ofNat defaultStackSize) M = some (stackSpace, M₁)) (_ : stackSpace ≠ 0) :
      LeftoverRejected bootImage M₁ (.ecall 0x11 64 1 0
        (stackSpace + UInt64.ofNat defaultStackSize)) := by
    obtain ⟨M', hs', h'⟩ := h.memAlloc (by decide) hstack
    obtain ⟨-, rfl⟩ := Prod.mk.inj (Option.some.inj
      (hs.symm.trans (kSystemCall_some rfl (by decide) rfl rfl rfl hs')))
    intro _ tcb m g _ _ hrun _ _
    obtain ⟨m', x, hrun', -⟩ := h'.alloc htcb
    obtain ⟨b, hb⟩ : ∃ b, bootImage.heap.addr 263 = b := ⟨_, rfl⟩
    rw [hb] at hrun'
    obtain rfl : tcb = b := by
      injection hrun.symm.trans hrun'
    rw [← hb]
    refine .inl (.inl ((load_congr fun y hy hy' => h'.frame y (outside_bootImage hy hy') ?_).trans hleft))
    rw [bootImage_addr] at hy
    exact .inr (Nat.le_trans (by decide) hy)
  obtain ⟨as, m, g, hrun, hatomic⟩ := thread_create_atomic hr hne
    (show UserWord bootImage M (64 : UInt64).toNat from userWord_bootImage M)
    (show (1 : UInt64) ≠ 0 by decide) hok
  obtain ⟨as', m', g', hrun', hgives⟩ := allocAll_returns hsmall h.heap
  obtain ⟨rfl, rfl, rfl⟩ : as = as' ∧ m = m' ∧ g = g' := by
    injection hrun.symm.trans hrun' with h1 h2 h3
    exact ⟨h1, h2, h3⟩
  cases hgives with
  | fails hnone => exact absurd (hnone.symm.trans hstack) (by simp)
  | next hsome hgives =>
    obtain ⟨rfl, rfl⟩ := Prod.mk.inj (Option.some.inj (hsome.symm.trans hstack))
    obtain ⟨t, rfl⟩ := hgives.noStack ⟨263, _, alloc_block, hnone⟩
    exact ⟨M, hr, ⟨_, _, _, _, hrun⟩, (hatomic (by simp)).mpr (by simp)⟩

end Os1Kernel
