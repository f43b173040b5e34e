import Os1Kernel.Heap.Canonical
import Os1Kernel.Threads.Events

/-! Runs of user code event by event: a thread is created, is joined and ends, and characters come and
go. -/

namespace Os1Kernel

open Memory MemoryAllocator
open Tiling hiding alloc

/-- Where `create_tcb` takes nothing for a semaphore, and before any tick of the timer. -/
def Quietly (L : Layout) (M : Machine) (e : Event) : Prop :=
  LeftoverRejected L M e ∧ M.globals.timerTicks = 0 ∧ e ≠ .timer

/-- A state of a run from `M₀`, and the state of the abstract machine that it is. -/
structure Scene (L : Layout) (M₀ M : Machine) (σ : Spec) : Prop where
  start : Reach L (Quietly L) M₀
  follows : Follows L (Quietly L) M₀ M
  rests : Rests L (fun σ => σ.globals.handles.flush ≠ 0) M σ
  ticks : σ.globals.timerTicks = 0

namespace Scene

variable {L : Layout} {M₀ M M' : Machine} {σ σ' τ : Spec} {n : Nat} {R : List Nat}

theorem reach (h : Scene L M₀ M σ) : Reach L (LeftoverRejected L) M :=
  (h.follows.reach h.start).mono fun _ _ hok => hok.1

theorem next {e : Event} (h : Scene L M₀ M σ) (ha : Allowed L M e) (hok : LeftoverRejected L M e)
    (he : e ≠ .timer) (hs : M.step L e = some M')
    (h' : Rests L (fun σ => σ.globals.handles.flush ≠ 0) M' σ') (hticks : σ'.globals.timerTicks = 0) :
    Scene L M₀ M' σ' :=
  ⟨h.start, h.follows.step e ha ⟨hok, (congrArg Globals.timerTicks h.rests.globals).trans h.ticks, he⟩ hs,
    h', hticks⟩

/-- A thread that goes on finds no ticks. -/
theorem resumes_ticks (h : Away.Resumes L τ σ) (hticks : τ.globals.timerTicks = 0) :
    σ.globals.timerTicks = 0 := by
  have hresume : (τ.resume L).globals.timerTicks = 0 := by
    unfold Spec.resume
    cases τ.abs.cont τ.current with
    | fresh => exact hticks
    | preempted => rfl
    | dispatched => rfl
    | joining s => rfl
    | waiting s => rfl
    | reading => rfl
    | writing p0 => rfl
  rcases h with rfl | ⟨a0, rfl⟩
  · exact hresume
  · exact hresume

/-- A scene begins a run. -/
theorem rebase (h : Scene L M₀ M σ) : Scene L M M σ :=
  ⟨h.follows.reach h.start, .start, h.rests, h.ticks⟩

theorem trans {M₁ : Machine} {σ₁ : Spec} (h₁ : Scene L M₀ M₁ σ₁) (h : Scene L M₁ M σ) : Scene L M₀ M σ :=
  ⟨h₁.start, h₁.follows.trans h.follows, h.rests, h.ticks⟩

theorem memAllocs {i : Nat} {ts : List Tile} (h : Scene L M₀ M σ) (n : UInt64)
    (hcur : σ.current ≠ σ.globals.handles.flush) (hn : u32 n.toNat ≠ 0)
    (halloc : Tiling.alloc (u32 n.toNat) σ.owners.tiles = some (i, ts)) : ∃ M' x,
      Scene L M₀ M' (((σ.called 0x01 n.toNat).retile
        (σ.owners.withBlocks ts ((L.heap.addr i, u32 n.toNat) :: σ.owners.blocks)) x).returned
          (L.heap.addr i)) := by
  obtain ⟨M', x, hs, h'⟩ := h.rests.memAllocs (kept_flush L) hn halloc
  exact ⟨M', x, h.next (allowed_memAlloc n (h.rests.not_flush hcur)) (.of_ne (by decide)) (by simp)
    ((step_ecall rfl rfl rfl rfl rfl).trans hs) h' h.ticks⟩

theorem creates {usr t k j : Nat} {ts : List Tile} (h : Scene L M₀ M σ) (p0 p1 p3 : UInt64)
    (hcur : σ.current ≠ σ.globals.handles.flush) (h1 : p1 ≠ 0) (huser : UserWord L M p0.toNat)
    (h3 : p3.toNat = usr + defaultStackSize)
    (husr : (usr, toBlocks defaultStackSize) ∈ σ.owners.blocks) (hapart : p0.toNat + 8 ≤ usr)
    (hplaced : Placed L σ.owners.tiles ts t k j) : ∃ M' x a0, Scene L M₀ M'
      (((σ.called 0x11 p0.toNat).create t j (σ.owners.created ts t usr k j) x).returned a0) := by
  obtain ⟨M', x, a0, hs, h'⟩ := h.rests.creates (kept_flush L) huser.1
    (fun hp => h1 (UInt64.toNat_inj.mp hp)) huser husr hapart hplaced
  refine ⟨M', x, a0, h.next (e := .ecall 0x11 p0 p1 0 p3) (allowed_create (h.rests.not_flush hcur) huser
    ?_ ?_) (h.rests.rejected hplaced.stack _ _ _ _ _) (by simp) ((step_ecall rfl rfl rfl rfl h3).trans hs) h'
    h.ticks⟩
  · rw [h3, Nat.add_sub_cancel, h.rests.handles]
    exact husr
  · rw [h3, Nat.add_sub_cancel]
    exact .inl hapart

theorem dispatches (h : Scene L M₀ M σ) (hR : σ.abs.ready ++ [σ.current] = n :: R) : ∃ M' x σ',
    M.step L (.ecall 0x13 0 0 0 0) = some M' ∧ Scene L M₀ M' σ' ∧
      Away.Resumes L (((σ.called 0x13 0).requeue .dispatched).switch n R x) σ' := by
  obtain ⟨M', x, σ', hs, h', hτ, -⟩ := h.rests.dispatches (kept_flush L) hR
  have hstep : M.step L (.ecall 0x13 0 0 0 0) = some M' := (step_ecall rfl rfl rfl rfl rfl).trans hs
  exact ⟨M', x, σ', hstep, h.next allowed_dispatch (.of_ne (by decide)) (by simp) hstep h'
    (resumes_ticks hτ h.ticks), hτ⟩

theorem joins (h : Scene L M₀ M σ) (p0 : UInt64) (ht : p0.toNat ∈ σ.owners.threads)
    (hneg : toInt (decBits (σ.abs.bits (σ.owners.join p0.toNat))) < 0) (hR : σ.abs.ready = n :: R)
    (hcur : σ.current ≠ σ.globals.handles.flush) : ∃ M' x σ',
      M.step L (.ecall 0x14 p0 0 0 0) = some M' ∧ Scene L M₀ M' σ' ∧
      Away.Resumes L (((σ.called 0x14 p0.toNat).block (σ.owners.join p0.toNat)
        (.joining (σ.owners.join p0.toNat))).switch n R x) σ' := by
  obtain ⟨M', x, σ', hs, h', hτ, -⟩ := h.rests.joins (kept_flush L) ht hneg hR hcur
  have hstep : M.step L (.ecall 0x14 p0 0 0 0) = some M' := (step_ecall rfl rfl rfl rfl rfl).trans hs
  refine ⟨M', x, σ', hstep, h.next (allowed_join (h.rests.not_flush hcur) ?_) (.of_ne (by decide)) (by simp)
    hstep h' (resumes_ticks hτ h.ticks), hτ⟩
  rw [h.rests.handles]
  exact ht

theorem exits (h : Scene L M₀ M σ) (hcur : σ.current ≠ σ.globals.handles.flush)
    (hmain : σ.current ≠ L.mainTcb) : ∃ M' ts x n R y σ', M.step L (.ecall 0x12 0 0 0 0) = some M' ∧
      Scene L M₀ M' σ' ∧ ((σ.called 0x12 0).exit
          ((σ.owners.dropThread σ.current).withBlocks ts σ.owners.blocks) x).abs.ready = n :: R ∧
        Away.Resumes L (((σ.called 0x12 0).exit
          ((σ.owners.dropThread σ.current).withBlocks ts σ.owners.blocks) x).switch n R y) σ' ∧
        ∀ y, InJoinSem σ.current y → σ'.owners.Free L y := by
  have hne := h.rests.not_flush hcur
  obtain ⟨M', σ', hs, h', ⟨ts, x, n, R, y, hR, hτ⟩, hfree, -⟩ := h.rests.exits (kept_flush L) h.rests.inside.inv
    hne (h.rests.current ▸ hmain) 0 0 0 0
  have hstep : M.step L (.ecall 0x12 0 0 0 0) = some M' := (step_ecall rfl rfl rfl rfl rfl).trans hs
  refine ⟨M', ts, x, n, R, y, σ', hstep, h.next (allowed_exit hne) (.of_ne (by decide)) (by simp) hstep
    h' (resumes_ticks hτ ?_), hR, hτ, h.rests.current ▸ hfree⟩
  change (Spec.releaseAll ((σ.called 0x12 0).log _) _ _).globals.timerTicks = 0
  obtain ⟨-, -, -, -, -, -, -, trace, hg⟩ := Inside.releaseAll_same
    ((σ.called 0x12 0).log (.terminated (σ.called 0x12 0).current))
    ((σ.called 0x12 0).owners.join (σ.called 0x12 0).current)
    ((σ.called 0x12 0).abs.waiting ((σ.called 0x12 0).owners.join (σ.called 0x12 0).current))
  rw [hg]
  exact h.ticks

theorem userModes (h : Scene L M₀ M σ) (hcur : σ.current ≠ σ.globals.handles.flush) : ∃ M' x a0,
    Scene L M₀ M' ((σ.userMode 0 x).returned a0) := by
  obtain ⟨M', x, a0, hs, h'⟩ := h.rests.userModes (kept_flush L)
  exact ⟨M', x, a0, h.next (e := .ecall 0xff 0 0 0 0)
    (allowed_plain 0 (h.rests.not_flush hcur) (.inr (.inr rfl)))
    (.of_ne (by decide)) (by simp) ((step_ecall rfl rfl rfl rfl rfl).trans hs) h' h.ticks⟩

theorem getCs (h : Scene L M₀ M σ) (hcur : σ.current ≠ σ.globals.handles.flush)
    (hle : 0 ≤ toInt (decBits (σ.abs.bits L.getcSem))) : ∃ M' a0,
      Scene L M₀ M' (((σ.called 0x41 0).pass L.getcSem).take.returned a0) := by
  obtain ⟨M', a0, hs, h'⟩ := h.rests.getCs (kept_flush L) hle
  have hticks : (((σ.called 0x41 0).pass L.getcSem).take.returned a0).globals.timerTicks = 0 := by
    simp only [Spec.returned, Spec.take, Spec.pass, Spec.waitReturn, Spec.waitStart, Spec.setBits,
      Spec.called, Spec.log, Spec.on, h.ticks]
  exact ⟨M', a0, h.next (e := .ecall 0x41 0 0 0 0) (allowed_plain 0 (h.rests.not_flush hcur) (.inl rfl))
    (.of_ne (by decide)) (by simp) ((step_ecall rfl rfl rfl rfl rfl).trans hs) h' hticks⟩

theorem putCs (h : Scene L M₀ M σ) (p0 : UInt64) (hcur : σ.current ≠ σ.globals.handles.flush)
    (hle : 0 ≤ toInt (decBits (σ.abs.bits L.putcSem))) : ∃ M' a0,
      Scene L M₀ M' ((((σ.called 0x42 p0.toNat).pass L.putcSem).store p0.toNat).returned a0) := by
  obtain ⟨M', a0, hs, h'⟩ := h.rests.putCs (kept_flush L) p0.toNat hle
  have hticks : ((((σ.called 0x42 p0.toNat).pass L.putcSem).store p0.toNat).returned
      a0).globals.timerTicks = 0 := by
    simp only [Spec.returned, Spec.store, Spec.pass, Spec.waitReturn, Spec.waitStart, Spec.setBits,
      Spec.called, Spec.log, Spec.on, h.ticks]
  exact ⟨M', a0, h.next (e := .ecall 0x42 p0 0 0 0)
    (allowed_plain p0 (h.rests.not_flush hcur) (.inr (.inl rfl))) (.of_ne (by decide)) (by simp)
    ((step_ecall rfl rfl rfl rfl rfl).trans hs) h' hticks⟩

theorem receives (h : Scene L M₀ M σ) (temp : UInt8) (hlen : σ.globals.getcBuffer.count < ioBufferSize)
    (hR : (σ.receive L temp).abs.ready ++ [σ.current] = n :: R) : ∃ M' x σ', Scene L M₀ M' σ' ∧
      Away.Resumes L (((σ.receive L temp).requeue .preempted).switch n R x) σ' := by
  obtain ⟨M', x, σ', hs, h', hτ, -⟩ := h.rests.receives (kept_flush L) temp hlen hR
  refine ⟨M', x, σ', h.next (e := .console (some temp)) trivial trivial (by simp) hs h'
    (resumes_ticks hτ ?_), hτ⟩
  obtain ⟨-, -, -, -, -, -, -, trace, hg⟩ := Inside.signal_same
    ((σ.on { σ.globals with getcBuffer := σ.globals.getcBuffer.put temp }).log (.received temp)) L.getcSem
  change (σ.receive L temp).globals.timerTicks = 0
  rw [Spec.receive, hg]
  exact h.ticks

/-- The flush thread reads `sstatus` and writes to the console what it can. -/
theorem flushes (h : Scene L M₀ M σ) (hcur : σ.current = σ.globals.handles.flush)
    (hlen : 0 < σ.globals.putcBuffer.count) : ∃ M' x,
      Scene L M₀ M' ((σ.flushChar L).on { (σ.flushChar L).globals with sstatus := x }) := by
  have hflush : M.globals.currentTcb = M.globals.handles.flush := by
    rw [← h.rests.current, ← h.rests.flush]
    exact hcur
  have h₁ : Scene L M₀ { M with flushSstatus := some M.globals.sstatus } σ :=
    h.next (e := .flushRead) hflush trivial (by simp) rfl ⟨h.rests.globals, h.rests.inside⟩ h.ticks
  obtain ⟨M', hs, h', -⟩ := h₁.rests.flushPutc (kept_flush L) rfl 1
  rw [show σ.flushChars L 1 = σ.flushChar L by
    rw [Spec.flushChars, if_pos hlen]
    rfl] at h'
  refine ⟨M', _, h₁.next (e := .flushPutc 1) hflush trivial (by simp) hs h' ?_⟩
  change (σ.flushChar L).globals.timerTicks = 0
  obtain ⟨-, -, -, -, -, -, -, trace, hg⟩ := Inside.signal_same
    (σ.on { σ.globals with
      putcBuffer := σ.globals.putcBuffer.get.2
      console := σ.globals.console ++ [σ.globals.putcBuffer.get.1] }) L.putcSem
  rw [Spec.flushChar, hg]
  exact h.ticks

end Scene

/-- The boot starts a run. -/
theorem scene_boot {L : Layout} {M : Machine} {m : Mem} {sstatus : Nat} (hb : boot L m sstatus = some M) :
    ∃ σ, Scene L M M σ ∧ Booted L σ := by
  obtain ⟨σ, hrests, hbooted⟩ := boot_rests (kept_true _) (fun _ _ _ _ => trivial) hb
  exact ⟨σ, ⟨.boot _ _ hb, .start, hrests.mono hbooted.flush, hbooted.ticks⟩, hbooted⟩

/-! ### A heap with room for a thread of user code -/

/-- A heap of 416 blocks. -/
def roomyHeap : HeapBounds where
  start := 16384
  stop := 44671
  start_pos := by decide
  start_le := by decide
  stop_lt := by decide
  one_le := by decide
  two_le := by decide
  lt := by decide

/-- `bootImage` with a heap of 416 blocks. -/
def roomyImage : Layout :=
  { bootImage with heap := roomyHeap, inside := by simp [bootImage, roomyHeap] }

theorem roomyHeap_total : roomyHeap.total = 416 := by
  rw [roomyHeap.total_eq]
  decide

theorem roomyImage_addr (i : Nat) : roomyImage.heap.addr i = 18048 + i * 64 := by
  have hbase : roomyHeap.base = 18048 := by
    rw [roomyHeap.base_eq, roomyHeap_total]
    decide
  change roomyHeap.base + i * 64 = _
  rw [hbase]

/-- The thread that the boot creates. -/
theorem placed_roomyImage : Placed roomyImage [owned 64, owned 64, gap 288]
    [owned 64, owned 64, owned 6, owned 64, owned 1, gap 217] (roomyImage.heap.addr 128)
    (roomyImage.heap.addr 134) (roomyImage.heap.addr 198) :=
  ⟨128, [owned 64, owned 64, owned 6, gap 282], 134, [owned 64, owned 64, owned 6, owned 64, gap 218], 198,
    ⟨by decide, rfl⟩, ⟨by decide, rfl⟩, by decide, rfl⟩

/-- A thread that user code creates after it has taken a stack. -/
theorem placed_created : Placed roomyImage
    [owned 64, owned 64, owned 6, owned 64, owned 1, owned 64, gap 153]
    [owned 64, owned 64, owned 6, owned 64, owned 1, owned 64, owned 6, owned 64, owned 1, gap 82]
    34880 35264 39360 :=
  ⟨263, [owned 64, owned 64, owned 6, owned 64, owned 1, owned 64, owned 6, gap 147], 269,
    [owned 64, owned 64, owned 6, owned 64, owned 1, owned 64, owned 6, owned 64, gap 83], 333,
    ⟨by decide, by rw [roomyImage_addr]⟩, ⟨by decide, by rw [roomyImage_addr]⟩, by decide,
    by rw [roomyImage_addr]⟩

theorem boot_roomyImage (m : Mem) (sstatus : Nat) : ∃ M, boot roomyImage m sstatus = some M := by
  have hmain : Tiling.alloc (toBlocks defaultStackSize) [gap roomyImage.heap.total] =
      some (0, [owned 64, gap 352]) := by
    change Tiling.alloc _ [gap roomyHeap.total] = _
    rw [roomyHeap_total]
    decide
  have hstack : Tiling.alloc (toBlocks defaultStackSize) [owned 64, gap 352] =
      some (64, [owned 64, owned 64, gap 288]) := by decide
  exact boot_succeeds roomyImage hmain hstack placed_roomyImage.room m sstatus

theorem Booted.roomy {σ : Spec} (hb : Booted roomyImage σ) :
    σ.owners.tiles = [owned 64, owned 64, owned 6, owned 64, owned 1, gap 217] ∧
      σ.globals.handles.flush = roomyImage.heap.addr 128 := by
  obtain ⟨i, i', ts, ts', k, j, h₁, h₂, hp⟩ := hb.tiles
  change Tiling.alloc _ [gap roomyHeap.total] = _ at h₁
  rw [roomyHeap_total, show Tiling.alloc (toBlocks defaultStackSize) [gap 416] =
    some (0, [owned 64, gap 352]) by decide] at h₁
  cases h₁
  rw [show Tiling.alloc (toBlocks defaultStackSize) [owned 64, gap 352] =
    some (64, [owned 64, owned 64, gap 288]) by decide] at h₂
  cases h₂
  obtain ⟨htiles, hflush, -⟩ := hp.unique placed_roomyImage
  exact ⟨htiles, hflush⟩

theorem userWord_roomyImage (M : Machine) : UserWord roomyImage M 64 :=
  userWord_below (by decide) (by decide) (by decide)

theorem scene_booted : ∃ M σ, Scene roomyImage M M σ ∧ Booted roomyImage σ := by
  obtain ⟨M, hb⟩ := boot_roomyImage (fun _ => 0) 0
  obtain ⟨σ, h, hbooted⟩ := scene_boot hb
  exact ⟨M, σ, h, hbooted⟩

/-- There are `main` and the flush thread, with the memory that they had in `σ₀`, and nothing else. -/
structure Alone (σ₀ σ : Spec) : Prop where
  current : σ.current = roomyImage.mainTcb
  ready : σ.abs.ready = [26240]
  flush : σ.globals.handles.flush = 26240
  threads : σ.owners.threads = [26240]
  sems : σ.owners.sems = []
  blocks : σ.owners.blocks = []
  mainStack : σ.owners.mainStack = σ₀.owners.mainStack
  parts : σ.owners.ofThread 26240 = σ₀.owners.ofThread 26240

theorem Booted.alone {σ : Spec} (hb : Booted roomyImage σ) : Alone σ σ := by
  have hflush : σ.globals.handles.flush = 26240 := by rw [hb.roomy.2, roomyImage_addr]
  exact ⟨hb.current, by rw [hb.ready, hflush], hflush, by rw [hb.threads, hflush], hb.sems, hb.blocks, rfl,
    rfl⟩

/-- The allocations decide the heap. -/
theorem Owners.Tiled.tiles_eq {L : Layout} {W W' : Owners} (h : W.Tiled L) (h' : W'.Tiled L)
    (hused : W.used.Perm W'.used) : W.tiles = W'.tiles :=
  h.valid.ext h'.valid ((List.map_perm_map_iff (located_injective L.heap)).mp
    ((h.used.symm.trans hused).trans h'.used))

/-- The heap is then as after the boot. -/
theorem Alone.tiles {I J : Spec → Prop} {M M₀ : Machine} {σ₀ σ : Spec} (c : Alone σ₀ σ)
    (h : Rests roomyImage I M σ) (h₀ : Rests roomyImage J M₀ σ₀) (hb : Booted roomyImage σ₀) :
    σ.owners.tiles = [owned 64, owned 64, owned 6, owned 64, owned 1, gap 217] := by
  have c₀ := hb.alone
  have hused : σ.owners.used = σ₀.owners.used := by
    rw [Owners.used, Owners.used, c.threads, c₀.threads, c.sems, c₀.sems, c.blocks, c₀.blocks,
      c.mainStack, List.flatMap_singleton, List.flatMap_singleton, c.parts]
  rw [← hb.roomy.1]
  exact h.inside.holds.tiled.tiles_eq h₀.inside.holds.tiled (.of_eq hused)

/-- `main` has taken a stack and has created a thread on it. -/
structure WithThread (σ₀ σ : Spec) : Prop where
  current : σ.current = roomyImage.mainTcb
  ready : σ.abs.ready = [26240, 34880]
  flush : σ.globals.handles.flush = 26240
  threads : σ.owners.threads = [34880, 26240]
  join : σ.owners.join 34880 = 39360
  bits : σ.abs.bits 39360 = 0
  waiting : σ.abs.waiting 39360 = []
  sems : σ.owners.sems = []
  blocks : σ.owners.blocks = []
  mainStack : σ.owners.mainStack = σ₀.owners.mainStack
  parts : σ.owners.ofThread 26240 = σ₀.owners.ofThread 26240

theorem Scene.thread {M₀ M : Machine} {σ₀ σ : Spec} (h : Scene roomyImage M₀ M σ) (c : Alone σ₀ σ)
    (htiles : σ.owners.tiles = [owned 64, owned 64, owned 6, owned 64, owned 1, gap 217]) :
    ∃ M' σ', Scene roomyImage M₀ M' σ' ∧ WithThread σ₀ σ' := by
  have hcur : σ.current ≠ σ.globals.handles.flush := by
    rw [c.current, c.flush]
    decide
  have halloc : Tiling.alloc (u32 (64 : UInt64).toNat) σ.owners.tiles =
      some (199, [owned 64, owned 64, owned 6, owned 64, owned 1, owned 64, gap 153]) := by
    rw [htiles]
    decide
  obtain ⟨M₁, x₁, h₁⟩ := h.memAllocs 64 hcur (by decide) halloc
  rw [roomyImage_addr, show u32 (64 : UInt64).toNat = 64 from rfl] at h₁
  obtain ⟨M₂, x₂, a₂, h₂⟩ := h₁.creates 64 1 34880 hcur (by decide)
    (userWord_roomyImage M₁) (show (34880 : UInt64).toNat = 30784 + defaultStackSize from rfl)
    List.mem_cons_self (by decide) placed_created
  refine ⟨M₂, _, h₂, c.current, ?_, c.flush, ?_, ?_, ?_, ?_, c.sems, ?_, c.mainStack, ?_⟩
  · change σ.abs.ready ++ [34880] = _
    rw [c.ready]
    rfl
  · change 34880 :: σ.owners.threads = _
    rw [c.threads]
  · change Function.update σ.owners.join 34880 39360 34880 = _
    exact Function.update_self ..
  · change Function.update σ.abs.bits 39360 0 39360 = _
    exact Function.update_self ..
  · change Function.update σ.abs.waiting 39360 [] 39360 = _
    exact Function.update_self ..
  · change List.filter (fun t => decide (t.1 ≠ 30784)) ((18048 + 199 * 64, 64) :: σ.owners.blocks) = []
    rw [c.blocks]
    rfl
  · rw [← c.parts]
    change [_, (Function.update σ.owners.stack 34880 30784 26240, _),
      (Function.update σ.owners.kernelStack 34880 35264 26240, _),
      (Function.update σ.owners.join 34880 39360 26240, _)] = _
    rw [Function.update_of_ne (by decide), Function.update_of_ne (by decide),
      Function.update_of_ne (by decide)]
    rfl

theorem thread_created : ∃ M₀ M σ₀ σ, Scene roomyImage M₀ M₀ σ₀ ∧ Booted roomyImage σ₀ ∧
    Scene roomyImage M₀ M σ ∧ WithThread σ₀ σ := by
  obtain ⟨M₀, σ₀, h₀, hb⟩ := scene_booted
  obtain ⟨M, σ, h, c⟩ := h₀.thread hb.alone hb.roomy.1
  exact ⟨M₀, M, σ₀, σ, h₀, hb, h, c⟩

/-- `main` waits for the end of the thread, which runs. -/
structure Joined (σ₀ σ : Spec) : Prop where
  current : σ.current = 34880
  ready : σ.abs.ready = [26240]
  flush : σ.globals.handles.flush = 26240
  threads : σ.owners.threads = [34880, 26240]
  join : σ.owners.join 34880 = 39360
  waiting : σ.abs.waiting 39360 = [roomyImage.mainTcb]
  bits : σ.abs.bits 39360 = 2 ^ 32 - 1
  cont : σ.abs.cont roomyImage.mainTcb = .joining 39360
  sems : σ.owners.sems = []
  blocks : σ.owners.blocks = []
  mainStack : σ.owners.mainStack = σ₀.owners.mainStack
  parts : σ.owners.ofThread 26240 = σ₀.owners.ofThread 26240

theorem thread_joined : ∃ M₀ M σ₀ σ, Scene roomyImage M₀ M₀ σ₀ ∧ Booted roomyImage σ₀ ∧
    Scene roomyImage M₀ M σ ∧ Joined σ₀ σ := by
  obtain ⟨M₀, M₁, σ₀, σ₁, h₀, hb, h₁, c₁⟩ := thread_created
  have hcur₁ : σ₁.current ≠ σ₁.globals.handles.flush := by
    rw [c₁.current, c₁.flush]
    decide
  -- the flush thread runs, and then the new one
  obtain ⟨M₂, x₂, σ₂, -, h₂, r₂⟩ := h₁.joins 34880 (c₁.threads ▸ List.mem_cons_self) (by
    rw [show (34880 : UInt64).toNat = 34880 from rfl, c₁.join, c₁.bits]
    decide) c₁.ready hcur₁
  obtain ⟨M₃, x₃, σ₃, -, h₃, r₃⟩ := h₂.dispatches (n := 34880) (R := [26240]) (by
    rw [r₂.abs, r₂.current]
    rfl)
  rw [show (34880 : UInt64).toNat = 34880 from rfl, c₁.join] at r₂
  have how : σ₃.owners = σ₁.owners := by
    rw [r₃.owners]
    exact r₂.owners
  refine ⟨M₀, M₃, σ₀, σ₃, h₀, hb, h₃, ?_, ?_, ?_, how ▸ c₁.threads, how ▸ c₁.join, ?_, ?_, ?_,
    how ▸ c₁.sems, how ▸ c₁.blocks, how ▸ c₁.mainStack, how ▸ c₁.parts⟩
  · exact r₃.current
  · rw [r₃.abs]
    rfl
  · rw [r₃.handles]
    exact (congrArg Handles.flush r₂.handles).trans c₁.flush
  · rw [r₃.abs]
    change σ₂.abs.waiting 39360 = _
    rw [r₂.abs]
    change Function.update σ₁.abs.waiting 39360 (σ₁.abs.waiting 39360 ++ [σ₁.current]) 39360 = _
    rw [Function.update_self, c₁.waiting, c₁.current]
    rfl
  · rw [r₃.abs]
    change σ₂.abs.bits 39360 = _
    rw [r₂.abs]
    change Function.update σ₁.abs.bits 39360 (decBits (σ₁.abs.bits 39360)) 39360 = _
    rw [Function.update_self, c₁.bits]
    rfl
  · rw [r₃.abs]
    change Function.update σ₂.abs.cont σ₂.current .dispatched _ = _
    rw [r₂.current, r₂.abs]
    change Function.update (Function.update σ₁.abs.cont σ₁.current (.joining 39360)) 26240 _ _ = _
    rw [Function.update_of_ne (by decide), c₁.current, Function.update_self]

/-- A thread that has waited for another one to end is told so. -/
theorem resumes_joining {L : Layout} {τ σ : Spec} {s : Nat} (h : Away.Resumes L τ σ)
    (hc : τ.abs.cont τ.current = .joining s) (hflag : τ.abs.flag τ.current = true) :
    .waitReturned τ.current s Sem.waitFail ∈ σ.globals.trace := by
  have hresume : .waitReturned τ.current s Sem.waitFail ∈ (τ.resume L).globals.trace := by
    rw [Spec.resume, hc]
    change _ ∈ τ.globals.trace ++ [.waitReturned τ.current s (if τ.abs.flag τ.current then Sem.waitFail
      else Sem.waitSuccess)]
    rw [hflag]
    exact List.mem_append_right _ List.mem_cons_self
  rcases h with rfl | ⟨a0, rfl⟩
  · exact hresume
  · exact List.mem_append_left _ hresume

/-- The thread has ended, and `main` has come back from `thread_join`. -/
structure Rejoined (σ₀ σ : Spec) : Prop extends Alone σ₀ σ where
  free : ∀ y, InJoinSem 34880 y → σ.owners.Free roomyImage y
  waited : .waitReturned roomyImage.mainTcb 39360 Sem.waitFail ∈ σ.globals.trace

theorem thread_ended : ∃ M₀ M M₁ M₂ σ₀ σ σ₂, Scene roomyImage M₀ M₀ σ₀ ∧ Booted roomyImage σ₀ ∧
    Scene roomyImage M₀ M σ ∧ Joined σ₀ σ ∧ M.step roomyImage (.ecall 0x12 0 0 0 0) = some M₁ ∧
    M₁.step roomyImage (.ecall 0x13 0 0 0 0) = some M₂ ∧ Scene roomyImage M₀ M₂ σ₂ ∧
    Scene roomyImage M₁ M₂ σ₂ ∧ Rejoined σ₀ σ₂ := by
  obtain ⟨M₀, M, σ₀, σ, h₀, hb, h, c⟩ := thread_joined
  obtain ⟨M₁, ts, x, n, R, y, σ₁, hs, h₁, hR, r₁, hfree⟩ := h.exits (by rw [c.current, c.flush]; decide)
    (by rw [c.current]; decide)
  obtain ⟨W, hW⟩ : ∃ W, (σ.owners.dropThread σ.current).withBlocks ts σ.owners.blocks = W := ⟨_, rfl⟩
  -- the end of the thread releases `main`
  have habs : ((σ.called 0x12 0).exit W x).abs =
      { (((σ.called 0x12 0).log (.terminated σ.current)).release 39360 roomyImage.mainTcb [] true).abs with
        moving := [] } := by
    change { (((σ.called 0x12 0).log _).releaseAll (σ.owners.join σ.current)
      (σ.abs.waiting (σ.owners.join σ.current))).abs with moving := [] } = _
    rw [c.current, c.join, c.waiting]
    rfl
  rw [hW] at r₁ hR
  have hready : ((σ.called 0x12 0).exit W x).abs.ready = [26240, roomyImage.mainTcb] := by
    rw [habs]
    change σ.abs.ready ++ [roomyImage.mainTcb] = _
    rw [c.ready]
    rfl
  obtain ⟨rfl, rfl⟩ := List.cons.inj (hR.symm.trans hready)
  have hhandles : σ₁.globals.handles = W.handles 26240 := by
    rw [r₁.handles]
    change W.handles (((σ.called 0x12 0).log _).releaseAll _ _).globals.handles.flush = _
    rw [releaseAll_handles]
    exact congrArg W.handles c.flush
  obtain ⟨M₂, x₂, σ₂, hs₂, h₂, r₂⟩ := h₁.rebase.dispatches (n := roomyImage.mainTcb) (R := [26240]) (by
    rw [r₁.abs, r₁.current]
    rfl)
  have how : σ₂.owners = W := by
    rw [r₂.owners]
    exact r₁.owners
  refine ⟨M₀, M, M₁, M₂, σ₀, σ, σ₂, h₀, hb, h, c, hs, hs₂, h₁.trans h₂, h₂, ⟨r₂.current, ?_, ?_, ?_, ?_,
    ?_, ?_, ?_⟩, ?_, ?_⟩
  · rw [r₂.abs]
    rfl
  · rw [r₂.handles]
    exact congrArg Handles.flush hhandles
  · rw [how, ← hW]
    change σ.owners.threads.filter (· ≠ σ.current) = _
    rw [c.threads, c.current]
    rfl
  · rw [how, ← hW]
    exact c.sems
  · rw [how, ← hW]
    exact c.blocks
  · rw [how, ← hW]
    exact c.mainStack
  · rw [how, ← hW]
    exact c.parts
  · rw [r₂.owners, ← c.current]
    exact hfree
  · refine resumes_joining r₂ ?_ ?_
    · change Function.update σ₁.abs.cont σ₁.current .dispatched roomyImage.mainTcb = _
      rw [r₁.current, r₁.abs]
      change Function.update ((σ.called 0x12 0).exit W x).abs.cont 26240 _ _ = _
      rw [Function.update_of_ne (by decide), habs]
      exact c.cont
    · change σ₁.abs.flag roomyImage.mainTcb = true
      rw [r₁.abs]
      change ((σ.called 0x12 0).exit W x).abs.flag _ = _
      rw [habs]
      change Function.update σ.abs.flag roomyImage.mainTcb true roomyImage.mainTcb = true
      exact Function.update_self ..

/-- User code runs in a new thread, for whose end `main` waits. -/
theorem joiner_waits : ∃ M, Reach roomyImage (LeftoverRejected roomyImage) M ∧
    M.globals.currentTcb = 34880 ∧ M.globals.handles.threads = [34880, 26240] ∧
    M.mem.field 34880 Field.joinSem = 39360 ∧ M.mem.field 39360 Field.value = 2 ^ 32 - 1 ∧
    M.mem.field roomyImage.mainTcb Field.status = TCBStatus.suspended.code := by
  obtain ⟨M₀, M, σ₀, σ, -, -, h, c⟩ := thread_joined
  have hmem : 34880 ∈ σ.owners.threads := c.threads ▸ List.mem_cons_self
  have hsem : 39360 ∈ σ.owners.semaphores roomyImage := c.join ▸ Inside.mem_join hmem
  have hQ := h.rests.inside.holds.queues
  refine ⟨M, h.reach, h.rests.current.symm.trans c.current, ?_, ?_, ?_, ?_⟩
  · rw [h.rests.handles]
    exact c.threads
  · exact (h.rests.inside.holds.base.joinSem _ hmem).trans c.join
  · exact (hQ.bits _ hsem).1.trans c.bits
  · exact hQ.waitingStatus _ hsem _ (c.waiting ▸ List.mem_cons_self)

/-- The thread has ended, and `main` goes on. -/
theorem joiner_released : ∃ M, Reach roomyImage (LeftoverRejected roomyImage) M ∧
    M.globals.currentTcb = roomyImage.mainTcb ∧ M.globals.handles.threads = [26240] ∧
    .waitReturned roomyImage.mainTcb 39360 Sem.waitFail ∈ M.globals.trace := by
  obtain ⟨M₀, M, M₁, M₂, σ₀, σ, σ₂, -, -, -, -, -, -, h, -, c⟩ := thread_ended
  refine ⟨M₂, h.reach, h.rests.current.symm.trans c.current, ?_, ?_⟩
  · rw [h.rests.handles]
    exact c.threads
  · have hwaited := c.waited
    rwa [h.rests.of_sstatus] at hwaited

/-- The thread goes on in user mode. -/
theorem joined_userMode : ∃ M₀ M σ, Scene roomyImage M₀ M σ ∧ σ.current = 34880 ∧
    M.supervisor = false := by
  obtain ⟨M₀, M, σ₀, σ, -, -, h, c⟩ := thread_joined
  obtain ⟨M', x, a0, h'⟩ := h.userModes (by rw [c.current, c.flush]; decide)
  refine ⟨M₀, M', _, h', c.current, h'.rests.supervisor.trans ?_⟩
  exact Function.update_self (β := fun _ => Bool) ..

/-! ### A character that comes and one that goes -/

/-- What stays when a thread that waits for no character takes over from one that is ready. -/
theorem resumes_chars {L : Layout} {σ τ : Spec} {c : Cont} {n x : Nat} {R : List Nat}
    (h : Away.Resumes L ((σ.requeue c).switch n R x) τ)
    (hc : (σ.requeue c).abs.cont n = .fresh ∨ (σ.requeue c).abs.cont n = .preempted ∨
      (σ.requeue c).abs.cont n = .dispatched) :
    τ.globals.getcBuffer = σ.globals.getcBuffer ∧ τ.globals.putcBuffer = σ.globals.putcBuffer ∧
      τ.globals.console = σ.globals.console ∧ σ.globals.trace ⊆ τ.globals.trace := by
  obtain ⟨ρ, hρ⟩ : ∃ ρ, (σ.requeue c).switch n R x = ρ := ⟨_, rfl⟩
  have hsame : ρ.abs.cont ρ.current = (σ.requeue c).abs.cont n ∧
      ρ.globals.getcBuffer = σ.globals.getcBuffer ∧ ρ.globals.putcBuffer = σ.globals.putcBuffer ∧
      ρ.globals.console = σ.globals.console ∧ σ.globals.trace ⊆ ρ.globals.trace := by
    subst hρ
    exact ⟨rfl, rfl, rfl, rfl, List.Subset.trans (List.subset_append_left _ [.readied σ.current])
      (List.subset_append_left _ [Action.picked n])⟩
  obtain ⟨hcont, hg, hp, hcons, htrace⟩ := hsame
  have hresume : (ρ.resume L).globals.getcBuffer = ρ.globals.getcBuffer ∧
      (ρ.resume L).globals.putcBuffer = ρ.globals.putcBuffer ∧
      (ρ.resume L).globals.console = ρ.globals.console ∧
      ρ.globals.trace ⊆ (ρ.resume L).globals.trace := by
    unfold Spec.resume
    rw [hcont]
    rcases hc with hc | hc | hc
    · rw [hc]
      exact ⟨rfl, rfl, rfl, List.subset_append_left _ _⟩
    · rw [hc]
      exact ⟨rfl, rfl, rfl, List.Subset.refl _⟩
    · rw [hc]
      exact ⟨rfl, rfl, rfl, List.Subset.refl _⟩
  rw [hρ] at h
  rw [← hg, ← hp, ← hcons]
  rcases h with rfl | ⟨a0, rfl⟩
  · exact ⟨hresume.1, hresume.2.1, hresume.2.2.1, List.Subset.trans htrace hresume.2.2.2⟩
  · exact ⟨hresume.1, hresume.2.1, hresume.2.2.1, List.Subset.trans htrace
      (List.Subset.trans hresume.2.2.2 (List.subset_append_left _ _))⟩

/-- Since the boot, in `σ₀`, a character has come, and `main` runs again. -/
structure Received (L : Layout) (σ₀ σ : Spec) : Prop where
  current : σ.current = L.mainTcb
  ready : σ.abs.ready = [σ₀.globals.handles.flush]
  handles : σ.globals.handles = σ₀.globals.handles
  owners : σ.owners = σ₀.owners
  cont : σ.abs.cont σ₀.globals.handles.flush = .dispatched
  getc : σ.abs.bits L.getcSem = 1
  putc : σ.abs.bits L.putcSem = ioBufferSize
  getcBuffer : σ.globals.getcBuffer = Queue.empty.put 97
  putcBuffer : σ.globals.putcBuffer = .empty
  console : σ.globals.console = []

theorem char_received {L : Layout} {M₀ M : Machine} {σ₀ : Spec} (h₀ : Scene L M₀ M σ₀)
    (hb : Booted L σ₀) : ∃ M' σ, Scene L M₀ M' σ ∧ Received L σ₀ σ := by
  have hputc : L.putcSem ≠ L.getcSem := by
    have hp := L.places
    omega
  have hne : σ₀.globals.handles.flush ≠ L.mainTcb := by
    have hnd := h₀.rests.inside.holds.tiled.tcbs_nodup
    rw [Owners.tcbs, hb.threads] at hnd
    exact fun heq => (List.nodup_cons.mp hnd).1 (List.mem_singleton.mpr heq.symm)
  obtain ⟨F, hF⟩ : ∃ F, σ₀.globals.handles.flush = F := ⟨_, rfl⟩
  rw [hF] at hne
  have hrec : σ₀.receive L 97 = ((σ₀.on { σ₀.globals with
      getcBuffer := σ₀.globals.getcBuffer.put 97 }).log (.received 97)).signalStart L.getcSem := by
    rw [Spec.receive, Spec.signal, if_neg]
    change ¬toInt (u32 (σ₀.abs.bits L.getcSem + 1)) ≤ 0
    rw [hb.getc.1]
    decide
  obtain ⟨M₁, x₁, σ₁, h₁, r₁⟩ := h₀.receives 97 (by rw [hb.getcBuffer]; decide) (n := F)
    (R := [L.mainTcb]) (by
      rw [hrec]
      change σ₀.abs.ready ++ [σ₀.current] = _
      rw [hb.ready, hb.current, hF]
      rfl)
  -- the character changes nothing but the buffer and its semaphore
  have hsame : (σ₀.receive L 97).current = σ₀.current ∧
      (σ₀.receive L 97).owners = σ₀.owners ∧ (σ₀.receive L 97).abs.cont = σ₀.abs.cont ∧
      (σ₀.receive L 97).abs.bits = Function.update σ₀.abs.bits L.getcSem
        (u32 (σ₀.abs.bits L.getcSem + 1)) ∧
      (σ₀.receive L 97).globals.handles = σ₀.globals.handles ∧
      (σ₀.receive L 97).globals.getcBuffer = σ₀.globals.getcBuffer.put 97 ∧
      (σ₀.receive L 97).globals.putcBuffer = σ₀.globals.putcBuffer ∧
      (σ₀.receive L 97).globals.console = σ₀.globals.console := by
    rw [hrec]
    exact ⟨rfl, rfl, rfl, rfl, rfl, rfl, rfl, rfl⟩
  obtain ⟨ρ, hρ⟩ : ∃ ρ, σ₀.receive L 97 = ρ := ⟨_, rfl⟩
  rw [hρ] at hsame r₁
  obtain ⟨hc, ho, hk, hb', hh, hg, hp, hcons⟩ := hsame
  have hfresh := hb.fresh
  rw [hF] at hfresh
  have hcont : (ρ.requeue .preempted).abs.cont =
      Function.update σ₀.abs.cont L.mainTcb .preempted := by
    rw [← hk, ← hb.current, ← hc]
    rfl
  obtain ⟨hg₁, hp₁, hcons₁, -⟩ := resumes_chars r₁ (.inl (by
    rw [hcont, Function.update_of_ne hne]
    exact hfresh))
  obtain ⟨M₂, x₂, σ₂, -, h₂, r₂⟩ := h₁.dispatches (n := L.mainTcb) (R := [F]) (by
    rw [r₁.abs, r₁.current]
    rfl)
  have hcur₁ : σ₁.current = F := r₁.current
  have hcont₁ : σ₁.abs.cont = Function.update σ₀.abs.cont L.mainTcb .preempted := by
    rw [r₁.abs, ← hcont]
    rfl
  have hcont₂ : ((σ₁.called 0x13 0).requeue .dispatched).abs.cont =
      Function.update (Function.update σ₀.abs.cont L.mainTcb .preempted) F .dispatched := by
    rw [← hcont₁, ← hcur₁]
    rfl
  obtain ⟨hg₂, hp₂, hcons₂, -⟩ := resumes_chars r₂ (.inr (.inl (by
    rw [hcont₂, Function.update_of_ne hne.symm]
    exact Function.update_self ..)))
  have hbits : σ₂.abs.bits = Function.update σ₀.abs.bits L.getcSem
      (u32 (σ₀.abs.bits L.getcSem + 1)) := by
    rw [r₂.abs, ← hb']
    change σ₁.abs.bits = _
    rw [r₁.abs]
    rfl
  refine ⟨M₂, σ₂, h₂, ⟨r₂.current, ?_, ?_, ?_, ?_, ?_, ?_, ?_, ?_, ?_⟩⟩
  · rw [r₂.abs, hF]
    rfl
  · rw [r₂.handles]
    change σ₁.globals.handles = _
    rw [r₁.handles]
    exact hh
  · rw [r₂.owners]
    change σ₁.owners = _
    rw [r₁.owners]
    exact ho
  · rw [r₂.abs, hF]
    change ((σ₁.called 0x13 0).requeue .dispatched).abs.cont F = _
    rw [hcont₂]
    exact Function.update_self ..
  · rw [hbits, Function.update_self, hb.getc.1]
    rfl
  · rw [hbits, Function.update_of_ne hputc]
    exact hb.putc.1
  · rw [hg₂, show (σ₁.called 0x13 0).globals.getcBuffer = σ₁.globals.getcBuffer from rfl, hg₁, hg,
      hb.getcBuffer]
  · rw [hp₂, show (σ₁.called 0x13 0).globals.putcBuffer = σ₁.globals.putcBuffer from rfl, hp₁, hp,
      hb.putcBuffer]
  · rw [hcons₂, show (σ₁.called 0x13 0).globals.console = σ₁.globals.console from rfl, hcons₁, hcons,
      hb.console]

/-- `main` has got the character, and has stored one. -/
structure Stored (σ : Spec) : Prop where
  current : σ.current = roomyImage.mainTcb
  ready : σ.abs.ready = [26240]
  flush : σ.globals.handles.flush = 26240
  cont : σ.abs.cont 26240 = .dispatched
  putcBuffer : σ.globals.putcBuffer = Queue.empty.put 98
  console : σ.globals.console = []
  got : .got roomyImage.mainTcb 97 ∈ σ.globals.trace
  stored : .stored roomyImage.mainTcb 98 ∈ σ.globals.trace

theorem char_stored : ∃ M₀ M σ, Scene roomyImage M₀ M σ ∧ Stored σ := by
  obtain ⟨M₀, σ₀, h₀, hb⟩ := scene_booted
  obtain ⟨M, σ, h, c⟩ := char_received h₀ hb
  have hflush : σ₀.globals.handles.flush = 26240 := by
    rw [hb.roomy.2, roomyImage_addr]
  have hready := c.ready
  have hcont := c.cont
  have hhandles := congrArg Handles.flush c.handles
  rw [hflush] at hready hcont hhandles
  have hcur : σ.current ≠ σ.globals.handles.flush := by
    rw [c.current, hhandles]
    decide
  obtain ⟨M₁, a₁, h₁⟩ := h.getCs hcur (by rw [c.getc]; decide)
  obtain ⟨σ₁, hσ₁⟩ : ∃ σ₁, ((σ.called 0x41 0).pass roomyImage.getcSem).take.returned a₁ = σ₁ := ⟨_, rfl⟩
  rw [hσ₁] at h₁
  have hsame : σ₁.current = σ.current ∧ σ₁.abs.ready = σ.abs.ready ∧ σ₁.abs.cont = σ.abs.cont ∧
      σ₁.abs.bits = Function.update σ.abs.bits roomyImage.getcSem (decBits (σ.abs.bits roomyImage.getcSem)) ∧
      σ₁.globals.handles = σ.globals.handles ∧ σ₁.globals.putcBuffer = σ.globals.putcBuffer ∧
      σ₁.globals.console = σ.globals.console ∧
      .got σ.current σ.globals.getcBuffer.get.1 ∈ σ₁.globals.trace := by
    subst hσ₁
    simp [Spec.returned, Spec.take, Spec.pass, Spec.waitReturn, Spec.waitStart, Spec.setBits,
      Spec.called, Spec.log, Spec.on, Spec.current]
  obtain ⟨hc₁, hr₁, hk₁, hb₁, hh₁, hp₁, hcons₁, hgot⟩ := hsame
  obtain ⟨M₂, a₂, h₂⟩ := h₁.putCs 98 (by rw [hc₁, hh₁]; exact hcur) (by
    rw [hb₁, Function.update_of_ne (by decide), c.putc]
    decide)
  obtain ⟨σ₂, hσ₂⟩ : ∃ σ₂, (((σ₁.called 0x42 (98 : UInt64).toNat).pass roomyImage.putcSem).store
    (98 : UInt64).toNat).returned a₂ = σ₂ := ⟨_, rfl⟩
  rw [hσ₂] at h₂
  have hsame : σ₂.current = σ₁.current ∧ σ₂.abs.ready = σ₁.abs.ready ∧ σ₂.abs.cont = σ₁.abs.cont ∧
      σ₂.globals.handles = σ₁.globals.handles ∧
      σ₂.globals.putcBuffer = σ₁.globals.putcBuffer.put (UInt8.ofNat (98 : UInt64).toNat) ∧
      σ₂.globals.console = σ₁.globals.console ∧ σ₁.globals.trace ⊆ σ₂.globals.trace ∧
      .stored σ₁.current (UInt8.ofNat (98 : UInt64).toNat) ∈ σ₂.globals.trace := by
    subst hσ₂
    simp [Spec.returned, Spec.store, Spec.pass, Spec.waitReturn, Spec.waitStart, Spec.setBits,
      Spec.called, Spec.log, Spec.on, Spec.current]
  obtain ⟨hc₂, hr₂, hk₂, hh₂, hp₂, hcons₂, htrace₂, hstored⟩ := hsame
  rw [c.getcBuffer, c.current] at hgot
  rw [hc₁, c.current] at hc₂ hstored
  exact ⟨M₀, M₂, σ₂, h₂, hc₂, hr₂.trans (hr₁.trans hready),
    (congrArg Handles.flush (hh₂.trans hh₁)).trans hhandles,
    (congrFun (hk₂.trans hk₁) _).trans hcont, by rw [hp₂, hp₁, c.putcBuffer]; rfl,
    hcons₂.trans (hcons₁.trans c.console), htrace₂ hgot, hstored⟩

theorem signal_trace (σ : Spec) (s : Nat) : σ.globals.trace ⊆ (σ.signal s).globals.trace := by
  unfold Spec.signal
  split
  · split
    · exact List.subset_append_left _ [Action.signalled s]
    · rename_i t R _
      exact List.Subset.trans (List.subset_append_left _ [Action.signalled s]) (List.Subset.trans
        (List.subset_append_left _ [Action.released t s false]) (List.subset_append_left _ [Action.readied t]))
  · exact List.subset_append_left _ [Action.signalled s]

/-- The flush thread has written the character. -/
theorem char_written : ∃ M, Reach roomyImage (LeftoverRejected roomyImage) M ∧
    .got roomyImage.mainTcb 97 ∈ M.globals.trace ∧ .stored roomyImage.mainTcb 98 ∈ M.globals.trace ∧
    M.globals.console = [98] := by
  obtain ⟨M₀, M, σ, h, c⟩ := char_stored
  obtain ⟨M₁, x₁, σ₁, -, h₁, r₁⟩ := h.dispatches (n := 26240) (R := [roomyImage.mainTcb]) (by
    rw [c.ready, c.current]
    rfl)
  obtain ⟨-, hp₁, hcons₁, htrace₁⟩ := resumes_chars r₁ (.inr (.inr (by
    change Function.update σ.abs.cont σ.current .dispatched 26240 = _
    rw [c.current, Function.update_of_ne (by decide)]
    exact c.cont)))
  have hp : σ₁.globals.putcBuffer = Queue.empty.put 98 := hp₁.trans c.putcBuffer
  have hcons : σ₁.globals.console = [] := hcons₁.trans c.console
  have htrace : σ.globals.trace ⊆ σ₁.globals.trace :=
    List.Subset.trans (List.subset_append_left _ [Action.called σ.current 0x13 0]) htrace₁
  obtain ⟨M₂, x₂, h₂⟩ := h₁.flushes (by
    rw [r₁.current, r₁.handles]
    exact c.flush.symm) (by rw [hp]; decide)
  have hflush : (σ₁.flushChar roomyImage).globals.console = [98] ∧
      σ₁.globals.trace ⊆ (σ₁.flushChar roomyImage).globals.trace := by
    obtain ⟨τ, hτ⟩ : ∃ τ, σ₁.on { σ₁.globals with
      putcBuffer := σ₁.globals.putcBuffer.get.2
      console := σ₁.globals.console ++ [σ₁.globals.putcBuffer.get.1] } = τ := ⟨_, rfl⟩
    have hstart : τ.globals.console = [98] ∧ σ₁.globals.trace ⊆ τ.globals.trace := by
      subst hτ
      refine ⟨?_, List.Subset.refl _⟩
      change σ₁.globals.console ++ [σ₁.globals.putcBuffer.get.1] = _
      rw [hcons, hp]
      rfl
    obtain ⟨-, -, -, -, -, -, -, trace, hg⟩ := Inside.signal_same τ roomyImage.putcSem
    rw [Spec.flushChar, hτ]
    exact ⟨(congrArg Globals.console hg).trans hstart.1,
      List.Subset.trans hstart.2 (signal_trace τ roomyImage.putcSem)⟩
  have hsame : M₂.globals.console = (σ₁.flushChar roomyImage).globals.console ∧
      M₂.globals.trace = (σ₁.flushChar roomyImage).globals.trace := by
    have hg := h₂.rests.of_sstatus
    have hcons := congrArg Globals.console hg
    have htrace := congrArg Globals.trace hg
    exact ⟨hcons.symm, htrace.symm⟩
  rw [← hsame.1, ← hsame.2] at hflush
  exact ⟨M₂, h₂.reach, hflush.2 (htrace c.got), hflush.2 (htrace c.stored), hflush.1⟩

end Os1Kernel
