import Os1Kernel.Threads.Refinement

/-! What `thread_create` does in every state that the kernel reaches, by what the allocator can give of the
three blocks that `create_tcb` asks for. -/

namespace Os1Kernel

open Memory Tiling

/-! ### Requests -/

/-- The blocks that the allocator gives for requests, one after the other, until it fails. -/
def allocAll : List Nat → Kernel (List Nat)
  | [] => pure []
  | n :: ns => do
    let a ← MemoryAllocator.alloc n
    if a = 0 then pure []
    else
      let as ← allocAll ns
      pure (a :: as)

/-- The requests of `create_tcb`. -/
def tcbRequests : List Nat := [toBlocks sizeofTCB, toBlocks defaultStackSize, toBlocks sizeofSem]

theorem tcbRequests_small : ∀ n ∈ tcbRequests, u32 n = n := by decide

/-- What the tiles of the heap have for requests. -/
inductive Gives (L : Layout) : List Tile → List Nat → List Nat → Prop
  | all (ts : List Tile) : Gives L ts [] []
  | fails {ts : List Tile} {n : Nat} {ns : List Nat} (hnone : Tiling.alloc n ts = none) :
      Gives L ts (n :: ns) []
  | next {ts ts' : List Tile} {n i : Nat} {ns as : List Nat} (hsome : Tiling.alloc n ts = some (i, ts'))
      (h : Gives L ts' ns as) : Gives L ts (n :: ns) (L.heap.addr i :: as)

section Requests

variable {L : Layout} {ns as : List Nat} {ts : List Tile}

theorem allocAll_returns (hns : ∀ n ∈ ns, u32 n = n) : ∀ {ts : List Tile} {m : Mem} {g : Globals},
    HeapRep L.heap ts m.view g → ∃ as m' g', (allocAll ns).run m g = .done as m' g' ∧ Gives L ts ns as := by
  induction ns with
  | nil => exact fun _ => ⟨[], _, _, rfl, .all _⟩
  | cons n ns ih =>
    intro ts m g h
    obtain ⟨a, m₁, x, ts₁, hrun, -, hcase, h₁⟩ := h.alloc_returns n
    rw [hns n List.mem_cons_self] at hcase
    rcases hcase with ⟨rfl, hnone, -⟩ | ⟨i, rfl, hsome⟩
    · refine ⟨[], m₁, { g with fbHead := x }, ?_, .fails hnone⟩
      rw [allocAll, run_of_run hrun, if_pos rfl]
      rfl
    · obtain ⟨as, m', g', hrest, hgives⟩ := ih (fun k hk => hns k (List.mem_cons_of_mem n hk)) h₁
      refine ⟨L.heap.addr i :: as, m', g', ?_, .next hsome hgives⟩
      rw [allocAll, run_of_run hrun, if_neg (L.heap.addr_ne_zero i), run_of_run hrest]
      rfl

/-- The blocks decide between the cases of `create_tcb`. -/
theorem Gives.noTcb (h : Gives L ts tcbRequests as) (hnone : NoTcb ts) : as = [] := by
  cases h with
  | fails => rfl
  | next hsome => exact absurd (hnone.symm.trans hsome) (by simp)

theorem Gives.noStack (h : Gives L ts tcbRequests as) (hno : NoStack ts) : ∃ t, as = [t] := by
  obtain ⟨i, ts₁, halloc, hnone⟩ := hno
  cases h with
  | fails hfail => exact absurd (hfail.symm.trans halloc) (by simp)
  | next hsome h =>
    obtain ⟨rfl, rfl⟩ := Prod.mk.inj (Option.some.inj (hsome.symm.trans halloc))
    cases h with
    | fails => exact ⟨_, rfl⟩
    | next hsome => exact absurd (hnone.symm.trans hsome) (by simp)

theorem Gives.noSem (h : Gives L ts tcbRequests as) (hno : NoSem ts) : ∃ t k, as = [t, k] := by
  obtain ⟨i, ts₁, k, ts₂, halloc, halloc', hnone⟩ := hno
  cases h with
  | fails hfail => exact absurd (hfail.symm.trans halloc) (by simp)
  | next hsome h =>
    obtain ⟨rfl, rfl⟩ := Prod.mk.inj (Option.some.inj (hsome.symm.trans halloc))
    cases h with
    | fails hfail => exact absurd (hfail.symm.trans halloc') (by simp)
    | next hsome' h =>
      obtain ⟨rfl, rfl⟩ := Prod.mk.inj (Option.some.inj (hsome'.symm.trans halloc'))
      cases h with
      | fails => exact ⟨_, _, rfl⟩
      | next hsome => exact absurd (hnone.symm.trans hsome) (by simp)

theorem Gives.placed {ts' : List Tile} {t k j : Nat} (h : Gives L ts tcbRequests as)
    (hp : Placed L ts ts' t k j) : as = [t, k, j] := by
  obtain ⟨i, ts₁, i', ts₂, i'', ⟨halloc, rfl⟩, ⟨halloc', rfl⟩, halloc'', rfl⟩ := hp
  cases h with
  | fails hfail => exact absurd (hfail.symm.trans halloc) (by simp)
  | next hsome h =>
    obtain ⟨rfl, rfl⟩ := Prod.mk.inj (Option.some.inj (hsome.symm.trans halloc))
    cases h with
    | fails hfail => exact absurd (hfail.symm.trans halloc') (by simp)
    | next hsome' h =>
      obtain ⟨rfl, rfl⟩ := Prod.mk.inj (Option.some.inj (hsome'.symm.trans halloc'))
      cases h with
      | fails hfail => exact absurd (hfail.symm.trans halloc'') (by simp)
      | next hsome'' h =>
        obtain ⟨rfl, rfl⟩ := Prod.mk.inj (Option.some.inj (hsome''.symm.trans halloc''))
        cases h
        rfl

end Requests

/-! ### The outcomes -/

/-- No thread has been created, and user code then has the blocks `blocks`. -/
structure NotCreated (M M' : Machine) (p0 : Nat) (blocks : List (Nat × Nat)) : Prop where
  handle : M'.mem.field p0 Field.handle = 0
  handles : M'.globals.handles = { M.globals.handles with blocks }
  readied : Log.readied M'.globals.trace = Log.readied M.globals.trace

/-- The thread `t` has been created, on the stack `usr` that was a block of user code. -/
structure ThreadCreated (M M' : Machine) (p0 usr t : Nat) : Prop where
  handle : M'.mem.field p0 Field.handle = t
  ne : t ≠ 0
  new : t ∉ M.globals.handles.threads
  handles : M'.globals.handles = { M.globals.handles with
    blocks := M.globals.handles.blocks.filter fun t => t.1 ≠ usr
    threads := t :: M.globals.handles.threads
    stackBlocks := (t, usr) :: M.globals.handles.stackBlocks }
  readied : Log.readied M'.globals.trace = Log.readied M.globals.trace ++ [t]

/-- The outcome by the blocks that the allocator gives for the `TCB`, the kernel stack and the
semaphore. -/
def CreateOutcome (M : Machine) (r : Option Machine) (p0 usr : Nat) : List Nat → Prop
  | [] => ∃ M', r = some M' ∧ NotCreated M M' p0 M.globals.handles.blocks
  | [_] => ∃ M', r = some M' ∧
    NotCreated M M' p0 (M.globals.handles.blocks.filter fun t => t.1 ≠ usr)
  | [_, _] => r = none
  | t :: _ => ∃ M', r = some M' ∧ ThreadCreated M M' p0 usr t

/-- The kernel gives up: there is no new thread, the caller gets the error code, and user code has the
blocks `bs`. -/
structure GivenUp (L : Layout) (σ : Spec) (p0 : Nat) (bs : List (Nat × Nat)) (m : Mem)
    (g : Globals) : Prop where
  handle : m.field p0 Field.handle = 0
  handles : g.handles = { σ.globals.handles with blocks := bs }
  readied : Log.readied g.trace = Log.readied σ.globals.trace
  current : g.currentTcb = σ.current
  a0 : m.field σ.current Field.a0 = u64 (signExtend failedSyscall)
  holds : ∃ ts x, Holds L (σ.heap (σ.owners.withBlocks ts bs) x) m.view

/-- The outcomes in which the call returns, on what the kernel's data is before and after it. -/
def Ends (L : Layout) (σ : Spec) (p0 usr : Nat) (m : Mem) (g : Globals) : Prop :=
  (NoTcb σ.owners.tiles ∧ GivenUp L σ p0 σ.owners.blocks m g) ∨
    (NoStack σ.owners.tiles ∧
      GivenUp L σ p0 (σ.owners.blocks.filter fun t => t.1 ≠ usr) m g) ∨
    ∃ ts t k j, Placed L σ.owners.tiles ts t k j ∧ m.field p0 Field.handle = t ∧
      t ∉ σ.owners.threads ∧
      g.handles = { σ.globals.handles with
        blocks := σ.globals.handles.blocks.filter fun t => t.1 ≠ usr
        threads := t :: σ.globals.handles.threads
        stackBlocks := (t, usr) :: σ.globals.handles.stackBlocks } ∧
      Log.readied g.trace = Log.readied σ.globals.trace ++ [t]

namespace Inside

variable {L : Layout} {S : Nat → Option (Kernel Unit)} {I : Spec → Prop} {σ : Spec} {m : Mem}
  {g : Globals} {E : Fault → Prop} {Q : Unit → Mem → Globals → Prop}
  {T : Switch → Kernel Unit → Mem → Globals → Prop} {usr p0 p1 p2 : Nat}

/-- `create_tcb` has returned null. -/
theorem post_givenUp {ts : List Tile} {x : Nat} {bs : List (Nat × Nat)} {m' : Mem} (hp : p0 ≠ 0)
    (hcur : σ.current ∈ σ.owners.tcbs L) (hctx : g.kCurrentContext ≠ 0) (hsame : g.currentTcb = σ.current)
    (hhandles : g.handles = { σ.globals.handles with blocks := bs })
    (hreadied : Log.readied g.trace = Log.readied σ.globals.trace)
    (ha0 : m.field σ.current Field.a0 = u64 (signExtend failedSyscall))
    (hheld : ∀ y, σ.owners.Held L y → m' y = m y)
    (hH : Holds L (σ.heap (σ.owners.withBlocks ts bs) x) m'.view)
    (huser : ∀ y, p0 ≤ y → y < p0 + 8 → (σ.owners.withBlocks ts bs).User L y) :
    Prog.Post E (fun _ => GivenUp L σ p0 bs) T ((afterCreate L p0 usr 0).run m' g) := by
  refine post_handle hp (by decide) ?_
  rw [if_neg (by simp), ecallReturn, run_of_run run_globals, run_of_run (run_rd hctx), run_log,
    Prog.post_done]
  have htcb : (σ.owners.withBlocks ts bs).objs L (.tcb σ.current) :=
    List.mem_cons.mp hcur
  refine ⟨field_assign_same, hhandles, ?_, hsame, ?_, ts, x, holds_assign hH huser⟩
  · rw [Log.readied_append]
    exact (List.append_nil _).trans hreadied
  · -- the result lies in the thread's `TCB`
    refine (load_congr fun y hy hy' => ?_).trans ha0
    have hno := hH.tiled.not_user htcb (f := .a0) ⟨rfl, rfl⟩ hy hy'
    have hout : y < p0 ∨ p0 + 8 ≤ y := by
      by_contra hin
      exact hno (huser y (by omega) (by omega))
    exact (store_outside hout).trans (hheld y (Owners.held_of_tcb hcur rfl hy hy'))

/-- `CREATE_THREAD_CODE` -/
theorem post_ends (h : Inside L S I σ m.view) (hI : Kept L I) (h0 : p0 ≠ 0) (h1 : p1 ≠ 0)
    (huser : ∀ y, p0 ≤ y → y < p0 + 8 → σ.owners.User L y)
    (husr : (usr, toBlocks defaultStackSize) ∈ σ.owners.blocks)
    (hapart : p0 + 8 ≤ usr ∨ usr + defaultStackSize ≤ p0)
    (ha0 : m.field σ.current Field.a0 = u64 (signExtend failedSyscall)) (hleft : Leftover L σ m usr) :
    Prog.Post (fun _ => NoSem σ.owners.tiles) (fun _ => Ends L σ p0 usr) (fun _ _ _ _ => False)
      ((createThreadCall L p0 p1 p2 (usr + defaultStackSize) >>= fun _ => ecallReturn).run m
        σ.globals) := by
  have hcur := h.holds.current_mem h.running
  have hctx : σ.globals.kCurrentContext ≠ 0 := by
    rw [h.running.context]
    exact (h.holds.current_pos h.running).ne'
  have hblocks : σ.globals.handles.blocks = σ.owners.blocks := by
    rw [h.handles]
    rfl
  rw [createThreadCall_eq h0, Nat.add_sub_cancel]
  refine Prog.post_bind (Prog.post_mono (h.holds.createTcb id h1 h.running.mode husr hleft)
    (fun t m' g' ⟨hc, hheld, _⟩ => ?_) fun _ _ _ _ hf => hf.elim)
  cases hc with
  | nothing hnone hH =>
    refine Prog.post_mono (post_givenUp (m := m) h0 hcur hctx rfl ?_ rfl ha0 (hheld rfl) hH ?_)
      (fun _ _ _ hg => .inl ⟨hnone, hg⟩) fun _ _ _ _ hf => hf
    · rw [← hblocks]
    · exact fun y hy hy' => (huser y hy hy').blocks _ (List.Subset.refl _)
  | undone hnone hH _ =>
    refine Prog.post_mono (post_givenUp (m := m) h0 hcur hctx rfl ?_ ?_ ha0 (hheld rfl) hH ?_)
      (fun _ _ _ hg => .inr (.inl ⟨hnone, hg⟩)) fun _ _ _ _ hf => hf
    · rw [hblocks]
    · simp only [Log.readied_append]
      simp [Log.readied]
    · intro y hy hy'
      have hsz : 64 * toBlocks defaultStackSize = defaultStackSize := by decide
      refine (huser y hy hy').filter_ne h.holds.tiled husr (fun hi => ?_) _
      unfold Owners.In at hi
      simp only at hi
      omega
  | @thread _ ts x _ k j ht hplaced hH hfresh =>
    refine h.post_afterCreate hI h0 huser husr ht hH hfresh fun a0 m'' hin hword _ => ?_
    have hnew : t ∉ σ.owners.threads := by
      have hblock : (t, toBlocks sizeofTCB) ∈ (σ.owners.withBlocks ts ((j, toBlocks sizeofSem) ::
          (k, toBlocks defaultStackSize) :: (t, toBlocks sizeofTCB) :: σ.owners.blocks)).blocks := by
        simp [Owners.withBlocks]
      intro hmem
      exact hH.tiled.block_not_tcb hblock (List.mem_cons_of_mem _ hmem)
    refine .inr (.inr ⟨ts, t, k, j, hplaced, hword, hnew, ?_, ?_⟩)
    · have hstack : σ.owners.threads.map (fun u => (u, Function.update σ.owners.stack t usr u)) =
          σ.owners.threads.map fun u => (u, σ.owners.stack u) := by
        apply List.map_congr_left
        intro u hu
        have hne : u ≠ t := fun heq => hnew (heq ▸ hu)
        rw [Function.update_of_ne hne]
      rw [hin.handles, h.handles]
      change Owners.handles (σ.owners.created ts t usr k j) _ = _
      simp only [Owners.handles, Owners.created, Owners.addThread, Owners.withBlocks, List.map_cons,
        Function.update_self, hstack]
      rfl
    · change Log.readied (σ.globals.trace ++ [.initialized j 0] ++ [.created σ.current t] ++
        [.readied t] ++ [.ecallReturned σ.current a0]) = _
      simp only [Log.readied_append]
      simp [Log.readied]

end Inside

section Call

variable {L : Layout} {I : Spec → Prop} {M : Machine} {σ : Spec} {p0 p1 p2 p3 : UInt64}

theorem toNat_ne_zero (hp : p0 ≠ 0) : p0.toNat ≠ 0 := fun heq => hp (UInt64.toNat_inj.mp heq)

/-- `thread_create` with a stack of the caller. -/
theorem Rests.createEnds (h : Rests L I M σ) (hI : Kept L I)
    (ha : Allowed L M (.ecall 0x11 p0 p1 p2 p3)) (hok : LeftoverRejected L M (.ecall 0x11 p0 p1 p2 p3))
    (h0 : p0 ≠ 0) (h1 : p1 ≠ 0) (h3 : p3 ≠ 0) : ∃ usr, p3.toNat = usr + defaultStackSize ∧
      (M.step L (.ecall 0x11 p0 p1 p2 p3) = none ∧ NoSem σ.owners.tiles ∨
        ∃ m g, Ends L (σ.called 0x11 p0.toNat) p0.toNat usr m g ∧
          M.step L (.ecall 0x11 p0 p1 p2 p3) = some (Machine.sret { M with mem := m, globals := g })) := by
  obtain ⟨huser, hargs⟩ := ((h.call ha hok).create rfl).resolve_left (toNat_ne_zero h0)
  obtain ⟨usr, hp3, husr, hapart, hleft⟩ :=
    (hargs.resolve_left (toNat_ne_zero h1)).resolve_left (toNat_ne_zero h3)
  refine ⟨usr, hp3, ?_⟩
  have hpost : Prog.Post (fun _ => NoSem σ.owners.tiles)
      (fun _ => Ends L (σ.called 0x11 p0.toNat) p0.toNat usr) (fun _ _ _ _ => False)
      ((ecallTrap L 0x11 p0.toNat p1.toNat p2.toNat p3.toNat).run M.mem M.enter.globals) := by
    rw [h.globals, hp3]
    refine h.inside.post_syscall hI (by decide) fun hin => ?_
    refine hin.post_ends hI (toNat_ne_zero h0) (toNat_ne_zero h1) huser husr hapart ?_ hleft
    rw [h.inside.running.context]
    exact field_assign_same
  rcases trap_done hpost with ⟨hnone, -, hno⟩ | ⟨m, g, hends, hsome⟩
  · exact .inl ⟨hnone, hno⟩
  · exact .inr ⟨m, g, hends, hsome⟩

theorem Rests.called_handles (h : Rests L I M σ) (code n : Nat) :
    (σ.called code n).globals.handles = M.globals.handles := by
  rw [h.handles]
  exact h.inside.handles

theorem Rests.called_readied (h : Rests L I M σ) (code n : Nat) :
    Log.readied (σ.called code n).globals.trace = Log.readied M.globals.trace := by
  change Log.readied (σ.globals.trace ++ [.called σ.current code n]) = _
  rw [Log.readied_append, h.of_sstatus]
  exact List.append_nil _

theorem Rests.notCreated {bs : List (Nat × Nat)} {m : Mem} {g : Globals} {n : Nat} (h : Rests L I M σ)
    (hg : GivenUp L (σ.called 0x11 n) n bs m g) :
    NotCreated M (Machine.sret { M with mem := m, globals := g }) n bs :=
  ⟨hg.handle, hg.handles.trans (by rw [h.called_handles]), hg.readied.trans (h.called_readied _ _)⟩

end Call

/-- In every state that the kernel reaches, `thread_create` with a start routine and a stack of the caller
does what the allocator has blocks for: it creates a thread when there are three; it leaves all as it
was when there is none, and so the stack with the caller; it leaves nothing, and frees the stack too,
when there is one; and when there are two it dereferences null. -/
theorem thread_create_outcome {L : Layout} {M : Machine} (h : Reach L (LeftoverRejected L) M)
    {p0 p1 p2 p3 : UInt64} (ha : Allowed L M (.ecall 0x11 p0 p1 p2 p3))
    (hok : LeftoverRejected L M (.ecall 0x11 p0 p1 p2 p3)) (h0 : p0 ≠ 0) (h1 : p1 ≠ 0) (h3 : p3 ≠ 0) :
    ∃ as m g, (allocAll tcbRequests).run M.mem M.globals = .done as m g ∧
      CreateOutcome M (M.step L (.ecall 0x11 p0 p1 p2 p3)) p0.toNat (p3.toNat - defaultStackSize) as := by
  obtain ⟨σ, hrests⟩ := reach_rests (kept_true L) (fun _ _ _ _ => trivial) h
  obtain ⟨as, m, g, hrun, hgives⟩ := allocAll_returns tcbRequests_small hrests.holds.heap
  refine ⟨as, m, g, hrun, ?_⟩
  obtain ⟨usr, hp3, hcase⟩ := hrests.createEnds ((kept_true L).and (kept_flush L)) ha hok h0 h1 h3
  have howned : M.globals.handles.threads = σ.owners.threads ∧
      M.globals.handles.blocks = σ.owners.blocks := by
    rw [hrests.handles]
    exact ⟨rfl, rfl⟩
  rw [hp3, Nat.add_sub_cancel]
  rcases hcase with ⟨hnone, hno⟩ | ⟨m', g', hends, hsome⟩
  · obtain ⟨t, k, rfl⟩ := hgives.noSem hno
    exact hnone
  · unfold Ends at hends
    rw [hrests.called_handles, hrests.called_readied] at hends
    rcases hends with ⟨hno, hg⟩ | ⟨hno, hg⟩ | ⟨ts, t, k, j, hp, hword, hnew, hh, hr⟩
    · obtain rfl := hgives.noTcb hno
      exact ⟨_, hsome, hrests.notCreated (howned.2 ▸ hg)⟩
    · obtain ⟨t, rfl⟩ := hgives.noStack hno
      exact ⟨_, hsome, hrests.notCreated (howned.2 ▸ hg)⟩
    · obtain rfl := hgives.placed hp
      obtain ⟨_, _, _, _, _, ⟨-, rfl⟩, -⟩ := hp
      exact ⟨_, hsome, hword, L.heap.addr_ne_zero _, howned.1 ▸ hnew, hh, hr⟩

/-! ### A thread of user code -/

/-- The main thread has taken a stack. -/
theorem stack_taken : ∃ M hs m₀ M₀, Reach roomyImage (LeftoverRejected roomyImage) M ∧
    Idle roomyImage [owned 64, owned 64, owned 6, owned 64, owned 1, owned 64, gap 153] hs M₀ m₀ M.mem
      M.globals ∧ M.globals.currentTcb ≠ M.globals.handles.flush ∧
    (30784, 64) ∈ M.globals.handles.blocks := by
  obtain ⟨M, hb⟩ := boot_roomyImage (fun _ => 0) 0
  obtain ⟨σ, hrests, hbooted⟩ := boot_rests (kept_true _) (fun _ _ _ _ => trivial) hb
  obtain ⟨htiles, hflush⟩ := hbooted.roomy
  have h := hrests.idle hbooted.current
  rw [htiles] at h
  have hflush' : M.globals.handles.flush = 26240 := by
    rw [← hrests.flush, hflush, roomyImage_addr]
  have hne {M' : Machine} (hc : M'.globals.currentTcb = roomyImage.mainTcb)
      (hf : M'.globals.handles.flush = M.globals.handles.flush) :
      M'.globals.currentTcb ≠ M'.globals.handles.flush := by
    rw [hc, hf, hflush']
    decide
  have halloc : Tiling.alloc (u32 64) [owned 64, owned 64, owned 6, owned 64, owned 1, gap 217] =
    some (199, [owned 64, owned 64, owned 6, owned 64, owned 1, owned 64, gap 153]) := by decide
  obtain ⟨M₁, hs₁, h₁⟩ := h.memAlloc (by decide) halloc
  have hr := (@Reach.boot roomyImage (LeftoverRejected roomyImage) M _ _ hb).step (.ecall 0x01 64 0 0 0)
    (allowed_memAlloc 64 (hne h.current rfl)) (by simp [LeftoverRejected])
    ((step_ecall rfl rfl rfl rfl rfl).trans hs₁)
  refine ⟨M₁, _, _, _, hr, h₁, hne h₁.current (by rw [h₁.handles]), ?_⟩
  rw [h₁.handles, roomyImage_addr]
  exact List.mem_cons_self

/-- It creates a thread on the stack. -/
theorem thread_create_outcome_created : ∃ M M', Reach roomyImage (LeftoverRejected roomyImage) M ∧
    M.step roomyImage (.ecall 0x11 64 1 0 34880) = some M' ∧
    ThreadCreated M M' 64 30784 34880 := by
  obtain ⟨M, hs, m₀, M₀, hr, h, hne, hblock⟩ := stack_taken
  have hstatic : ∀ r ∈ roomyImage.statics, 72 ≤ r.1 := by decide
  have hword : UserWord roomyImage M 64 := ⟨by decide, fun y _ hy => .inr (.inr
    ⟨.inl (Nat.lt_trans hy (by decide)), fun r hr => .inl (Nat.lt_of_lt_of_le hy (hstatic r hr))⟩)⟩
  have ha : Allowed roomyImage M (.ecall 0x11 64 1 0 34880) :=
    allowed_create hne hword hblock (.inl (by decide))
  have hok : LeftoverRejected roomyImage M (.ecall 0x11 64 1 0 34880) := by
    intro _ tcb m g m' g' hrun _ hrun'
    have halloc₁ : Tiling.alloc (u32 (toBlocks sizeofTCB))
        [owned 64, owned 64, owned 6, owned 64, owned 1, owned 64, gap 153] = some (263,
          [owned 64, owned 64, owned 6, owned 64, owned 1, owned 64, owned 6, gap 147]) := by decide
    have halloc₂ : Tiling.alloc (u32 (toBlocks defaultStackSize))
        [owned 64, owned 64, owned 6, owned 64, owned 1, owned 64, owned 6, gap 147] = some (269,
          [owned 64, owned 64, owned 6, owned 64, owned 1, owned 64, owned 6, owned 64, gap 83]) := by
      decide
    obtain ⟨m₁, x₁, hrun₁, h₁⟩ := h.alloc halloc₁
    obtain ⟨m₂, x₂, hrun₂, -⟩ := h₁.alloc halloc₂
    rw [hrun₁] at hrun
    cases hrun
    rw [hrun₂] at hrun'
    injection hrun' with haddr
    exact absurd haddr (roomyImage.heap.addr_ne_zero 269)
  obtain ⟨as, m, g, hrun, hout⟩ := thread_create_outcome hr ha hok (by decide) (by decide) (by decide)
  obtain ⟨as', m', g', hrun', hgives⟩ := allocAll_returns tcbRequests_small h.heap
  rw [hrun] at hrun'
  cases hrun'
  obtain rfl := hgives.placed placed_created
  obtain ⟨M', hs, hcreated⟩ := hout
  exact ⟨M, M', hr, hs, hcreated⟩

end Os1Kernel
