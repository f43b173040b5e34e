import Os1Kernel.Threads.Idle
import Os1Kernel.Threads.Scenes

/-! Every thread that has not exited is in exactly one place, and its status says in which. -/

namespace Os1Kernel

open Memory MemoryAllocator
open Tiling hiding alloc

namespace Machine

/-- The threads that have not exited. -/
def tcbs (L : Layout) (M : Machine) : List Nat := L.mainTcb :: M.globals.handles.threads

/-- The semaphores: those of the console, those for the threads' ends, and those that have been opened
and not closed. -/
def semaphores (L : Layout) (M : Machine) : List Nat :=
  L.putcSem :: L.getcSem :: (M.globals.handles.threads.map (fun t => M.mem.field t Field.joinSem) ++
    M.globals.handles.sems)

end Machine

/-- The lists in memory hold each thread but the current one exactly once, and nothing else. -/
structure OnePlace (L : Layout) (M : Machine) (R S : List Nat) (W : Nat → List Nat) : Prop where
  ready : IsList M.mem.view L.scheduler R
  asleep : IsList M.mem.view L.sleepQueue S
  waiting : ∀ s ∈ M.semaphores L, IsList M.mem.view (Sem.suspendedTcbs s) (W s)
  nodup : (M.tcbs L).Nodup
  place : (M.tcbs L).Perm (M.globals.currentTcb :: (R ++ S ++ (M.semaphores L).flatMap W))
  running : ∀ t ∈ M.tcbs L, M.mem.field t Field.status = TCBStatus.running.code ↔
    t = M.globals.currentTcb
  isReady : ∀ t ∈ M.tcbs L, M.mem.field t Field.status = TCBStatus.ready.code ↔ t ∈ R
  suspended : ∀ t ∈ M.tcbs L, M.mem.field t Field.status = TCBStatus.suspended.code ↔
    t ∈ S ∨ ∃ s ∈ M.semaphores L, t ∈ W s

def InOnePlace (L : Layout) (M : Machine) : Prop := ∃ R S W, OnePlace L M R S W

namespace Rests

variable {L : Layout} {I : Spec → Prop} {M : Machine} {σ : Spec} {t : Nat}

theorem tcbs (h : Rests L I M σ) : M.tcbs L = σ.owners.tcbs L := by
  rw [Machine.tcbs, h.handles]
  rfl

theorem semaphores (h : Rests L I M σ) : M.semaphores L = σ.owners.semaphores L := by
  have hjoin : σ.owners.threads.map (fun t => M.mem.field t Field.joinSem) =
      σ.owners.threads.map σ.owners.join :=
    List.map_congr_left fun t ht => h.inside.holds.base.joinSem t ht
  rw [Machine.semaphores, h.handles]
  simp only [Owners.handles, hjoin]
  rfl

theorem place (h : Rests L I M σ) : (M.tcbs L).Perm (M.globals.currentTcb ::
    (σ.abs.ready ++ σ.abs.asleep.map Prod.fst ++ (M.semaphores L).flatMap σ.abs.waiting)) := by
  have hplace := h.inside.holds.queues.place
  rw [h.inside.running.moving, h.current] at hplace
  rw [h.tcbs, h.semaphores]
  exact hplace

/-- The status of a thread says where it is. -/
theorem status (h : Rests L I M σ) (ht : t ∈ M.tcbs L) :
    t = M.globals.currentTcb ∧ M.mem.field t Field.status = TCBStatus.running.code ∨
    t ∈ σ.abs.ready ∧ M.mem.field t Field.status = TCBStatus.ready.code ∨
    (t ∈ σ.abs.asleep.map Prod.fst ∨ ∃ s ∈ M.semaphores L, t ∈ σ.abs.waiting s) ∧
      M.mem.field t Field.status = TCBStatus.suspended.code := by
  have hQ := h.inside.holds.queues
  rcases List.mem_cons.mp (h.place.mem_iff.mp ht) with heq | hm
  · refine .inl ⟨heq, ?_⟩
    rw [← h.inside.running.status]
    refine h.inside.holds.status t ?_
    rw [h.inside.running.moving, h.current]
    exact List.mem_singleton.mpr heq
  rcases List.mem_append.mp hm with hm | hm
  · rcases List.mem_append.mp hm with hm | hm
    · exact .inr (.inl ⟨hm, hQ.readyStatus t hm⟩)
    · exact .inr (.inr ⟨.inl hm, hQ.asleepStatus t hm⟩)
  · obtain ⟨s, hs, hm⟩ := List.mem_flatMap.mp hm
    refine .inr (.inr ⟨.inr ⟨s, hs, hm⟩, ?_⟩)
    rw [h.semaphores] at hs
    exact hQ.waitingStatus s hs t hm

/-- No thread is in two places. -/
theorem apart (h : Rests L I M σ) (t : Nat) :
    (t = M.globals.currentTcb → M.mem.field t Field.status = TCBStatus.running.code) ∧
    (t ∈ σ.abs.ready → M.mem.field t Field.status = TCBStatus.ready.code) ∧
    ((t ∈ σ.abs.asleep.map Prod.fst ∨ ∃ s ∈ M.semaphores L, t ∈ σ.abs.waiting s) →
      M.mem.field t Field.status = TCBStatus.suspended.code) := by
  have hQ := h.inside.holds.queues
  refine ⟨fun heq => ?_, hQ.readyStatus t, ?_⟩
  · rw [← h.inside.running.status]
    refine h.inside.holds.status t ?_
    rw [h.inside.running.moving, h.current]
    exact List.mem_singleton.mpr heq
  · rintro (hm | ⟨s, hs, hm⟩)
    · exact hQ.asleepStatus t hm
    · rw [h.semaphores] at hs
      exact hQ.waitingStatus s hs t hm

theorem onePlace (h : Rests L I M σ) :
    OnePlace L M σ.abs.ready (σ.abs.asleep.map Prod.fst) σ.abs.waiting where
  ready := h.inside.holds.queues.ready
  asleep := h.inside.holds.queues.asleep.list
  waiting s hs := by
    rw [h.semaphores] at hs
    exact h.inside.holds.queues.waiting s hs
  nodup := by
    rw [h.tcbs]
    exact h.inside.holds.tiled.tcbs_nodup
  place := h.place
  running t ht := by
    refine ⟨fun hst => ?_, (h.apart t).1⟩
    rcases h.status ht with ⟨heq, -⟩ | ⟨-, hst'⟩ | ⟨-, hst'⟩
    · exact heq
    · exact absurd (hst.symm.trans hst') (by decide)
    · exact absurd (hst.symm.trans hst') (by decide)
  isReady t ht := by
    refine ⟨fun hst => ?_, (h.apart t).2.1⟩
    rcases h.status ht with ⟨-, hst'⟩ | ⟨hm, -⟩ | ⟨-, hst'⟩
    · exact absurd (hst.symm.trans hst') (by decide)
    · exact hm
    · exact absurd (hst.symm.trans hst') (by decide)
  suspended t ht := by
    refine ⟨fun hst => ?_, (h.apart t).2.2⟩
    rcases h.status ht with ⟨-, hst'⟩ | ⟨-, hst'⟩ | ⟨hm, -⟩
    · exact absurd (hst.symm.trans hst') (by decide)
    · exact absurd (hst.symm.trans hst') (by decide)
    · exact hm

end Rests

/-- Every thread that has not exited is in exactly one place, in every run in which `free` rejects what
a `thread_create` that finds no kernel stack takes for a semaphore. -/
theorem threads_in_one_place {L : Layout} {M : Machine} (h : Reach L (LeftoverRejected L) M) :
    InOnePlace L M := by
  obtain ⟨σ, hrests⟩ := reach_rests (kept_true L) (fun _ _ _ _ => trivial) h
  exact ⟨_, _, _, hrests.onePlace⟩

/-- A new thread runs, `main` waits for it, and the flush thread is ready. -/
theorem threads_in_one_place_joined : ∃ M, Reach roomyImage (LeftoverRejected roomyImage) M ∧
    M.tcbs roomyImage = [roomyImage.mainTcb, 34880, 26240] ∧ M.globals.currentTcb = 34880 ∧
    M.mem.field roomyImage.mainTcb Field.status = TCBStatus.suspended.code ∧ InOnePlace roomyImage M := by
  obtain ⟨M, hr, hcur, hthreads, -, -, hstatus⟩ := joiner_waits
  exact ⟨M, hr, congrArg (roomyImage.mainTcb :: ·) hthreads, hcur, hstatus, threads_in_one_place hr⟩

/-! ### A block that two threads use -/

theorem bootImage_base : bootImage.heap.base = 9280 := by
  change bootHeap.base = 9280
  rw [bootHeap.base_eq, bootHeap_total]
  decide

theorem bootImage_addr (i : Nat) : bootImage.heap.addr i = 9280 + i * 64 := by
  rw [HeapBounds.addr, bootImage_base]

/-- From where the main thread runs on. -/
theorem Rests.idle {L : Layout} {I : Spec → Prop} {M : Machine} {σ : Spec} (h : Rests L I M σ)
    (hcur : σ.current = L.mainTcb) :
    Idle L σ.owners.tiles M.globals.handles M M.mem M.mem M.globals where
  heap := h.holds.heap
  current := by rw [← h.current, hcur]
  context := by
    have hctx := h.inside.running.context
    rw [hcur] at hctx
    rw [← hctx, h.of_sstatus]
  handles := rfl
  frame _ _ _ := rfl
  still _ _ := rfl
  trace := ⟨[], (List.append_nil _).symm, by simp⟩
  getcBuffer := rfl
  putcBuffer := rfl

/-- Where the boot has put the flush thread. -/
theorem Booted.image {σ : Spec} (hb : Booted bootImage σ) :
    σ.owners.tiles = [owned 64, owned 64, owned 6, owned 64, owned 1, gap 73] ∧
      σ.globals.handles.flush = bootImage.heap.addr 128 := by
  obtain ⟨i, i', ts, ts', k, j, h₁, h₂, i₃, ts₃, i₄, ts₄, i₅, ⟨h₃, hflush⟩, ⟨h₄, -⟩, h₅, -⟩ := hb.tiles
  have hsize : toBlocks sizeofTCB = 6 ∧ toBlocks defaultStackSize = 64 ∧ toBlocks sizeofSem = 1 := by
    decide
  change Tiling.alloc _ [gap bootHeap.total] = _ at h₁
  rw [hsize.2.1, bootHeap_total, show Tiling.alloc 64 [gap 272] = some (0, [owned 64, gap 208]) from rfl]
    at h₁
  cases h₁
  rw [hsize.2.1, show Tiling.alloc 64 [owned 64, gap 208] = some (64, [owned 64, owned 64, gap 144])
    from rfl] at h₂
  cases h₂
  rw [hsize.1, show Tiling.alloc 6 [owned 64, owned 64, gap 144] = some (128, [owned 64, owned 64,
    owned 6, gap 138]) from rfl] at h₃
  cases h₃
  rw [hsize.2.1, show Tiling.alloc 64 [owned 64, owned 64, owned 6, gap 138] = some (134, [owned 64,
    owned 64, owned 6, owned 64, gap 74]) from rfl] at h₄
  cases h₄
  rw [hsize.2.2, show Tiling.alloc 1 [owned 64, owned 64, owned 6, owned 64, gap 74] = some (198,
    [owned 64, owned 64, owned 6, owned 64, owned 1, gap 73]) from rfl] at h₅
  exact ⟨(Prod.mk.inj (Option.some.inj h₅)).2.symm, hflush⟩

/-- The main thread runs, and what is allocated is what the boot has left. -/
structure AtBoot (M₀ : Machine) (σ : Spec) : Prop where
  reach : Reach bootImage (LeftoverRejected bootImage) M₀
  rests : Rests bootImage (fun σ => σ.globals.handles.flush ≠ 0) M₀ σ
  current : σ.current = bootImage.mainTcb
  tiles : σ.owners.tiles = [owned 64, owned 64, owned 6, owned 64, owned 1, gap 73]
  threads : σ.owners.threads = [bootImage.heap.addr 128]
  flush : σ.globals.handles.flush = bootImage.heap.addr 128

theorem Booted.atBoot {M : Machine} {σ : Spec} (hb : Booted bootImage σ) (h : Scene bootImage M M σ) :
    AtBoot M σ := by
  obtain ⟨htiles, hflush⟩ := hb.image
  exact ⟨h.reach, h.rests, hb.current, htiles, by rw [hb.threads, hflush], hflush⟩

theorem boot_atBoot : ∃ M₀ σ, boot bootImage (fun _ => 0) 0 = some M₀ ∧ AtBoot M₀ σ := by
  obtain ⟨M₀, hb⟩ := boot_bootImage (fun _ => 0) 0
  obtain ⟨σ, h, hbooted⟩ := scene_boot hb
  exact ⟨M₀, σ, hb, hbooted.atBoot h⟩

/-- User code may write to its blocks. -/
theorem allowed_assign {L : Layout} {M : Machine} {a n x : Nat} {f : Field} (hf : f.ofTcb = true)
    (hne : M.globals.currentTcb ≠ M.globals.handles.flush)
    (hmem : (a, n) ∈ M.globals.handles.blocks) (hn : 360 ≤ 64 * n) :
    Allowed L M (.user (M.mem.assign a f x)) := by
  refine ⟨hne, fun y hy => store_outside ?_⟩
  have hb := Obj.ofTcb_bounds hf
  by_contra hin
  exact hy (.inl ⟨_, hmem, by omega, by omega⟩)

/-- The image leaves the word at 64 to user code. -/
theorem userWord_bootImage (M : Machine) : UserWord bootImage M 64 :=
  userWord_below (by decide) (by decide) (by decide)

theorem outside_bootImage {i y : Nat} (h8 : bootImage.heap.addr i + offset Field.joinSem ≤ y)
    (hlt : y < bootImage.heap.addr i + offset Field.joinSem + size Field.joinSem) :
    bootImage.heap.Outside y := by
  have hbase := bootImage_base
  rw [bootImage_addr, show offset Field.joinSem = 296 from rfl] at h8 hlt
  rw [show size Field.joinSem = 8 from rfl] at hlt
  unfold HeapBounds.Outside
  omega

theorem Idle.current_ne_flush {M₀ M : Machine} {ts : List Tile} {hs : Handles} {m₀ : Mem}
    (h : Idle bootImage ts hs M₀ m₀ M.mem M.globals) (hf : hs.flush = bootImage.heap.addr 128) :
    M.globals.currentTcb ≠ M.globals.handles.flush := by
  rw [h.current, h.handles, hf, bootImage_addr]
  decide

theorem alloc_block : Tiling.alloc (u32 6) [owned 64, owned 64, owned 6, owned 64, owned 1, owned 64,
    gap 9] = some (263, [owned 64, owned 64, owned 6, owned 64, owned 1, owned 64, owned 6, gap 3]) := by
  decide

/-- The main thread takes a block for a stack and another one, and frees that with a word in it.  There is
then no place for another kernel stack. -/
theorem word_left {M₀ : Machine} {σ : Spec} (h₀ : AtBoot M₀ σ) (x : Nat) : ∃ M hs,
    Reach bootImage (LeftoverRejected bootImage) M ∧
    Idle bootImage [owned 64, owned 64, owned 6, owned 64, owned 1, owned 64, gap 9] hs M₀ M.mem M.mem
      M.globals ∧
    hs.threads = [bootImage.heap.addr 128] ∧ hs.flush = bootImage.heap.addr 128 ∧
    (22016, 64) ∈ hs.blocks ∧
    M.mem.field (bootImage.heap.addr 263) Field.joinSem = u64 x := by
  have h := h₀.rests.idle h₀.current
  have hthreads : M₀.globals.handles.threads = [bootImage.heap.addr 128] := by
    rw [h₀.rests.handles]
    exact h₀.threads
  have hflush : M₀.globals.handles.flush = bootImage.heap.addr 128 := h₀.rests.flush.symm.trans h₀.flush
  rw [h₀.tiles] at h
  have halloc : Tiling.alloc (u32 64) [owned 64, owned 64, owned 6, owned 64, owned 1, gap 73] =
    some (199, [owned 64, owned 64, owned 6, owned 64, owned 1, owned 64, gap 9]) := by decide
  obtain ⟨M₁, hs₁, h₁⟩ := h.memAlloc (by decide) halloc
  obtain ⟨M₂, hs₂, h₂⟩ := h₁.memAlloc (by decide) alloc_block
  obtain ⟨M₃, hs₃, hval, h₃⟩ := h₂.write (i := 263) (n := 6) (f := .joinSem) (by decide) (by decide) rfl x
  have hrel : release 263 [owned 64, owned 64, owned 6, owned 64, owned 1, owned 64, owned 6, gap 3] =
    some (6, [owned 64, owned 64, owned 6, owned 64, owned 1, owned 64, gap 9]) := by decide
  obtain ⟨M₄, hs₄, h₄⟩ := h₃.memFree hrel
  have hsame : M₄.mem.field (bootImage.heap.addr 263) Field.joinSem =
      M₃.mem.field (bootImage.heap.addr 263) Field.joinSem := by
    refine load_congr fun y hy hy' => h₄.frame y (outside_bootImage hy hy') ?_
    rw [bootImage_addr] at hy
    exact .inr (Nat.le_trans (by decide) hy)
  have hr₁ := h₀.reach.step (.ecall 0x01 64 0 0 0)
    (allowed_memAlloc 64 (h.current_ne_flush hflush)) (.of_ne (by decide))
    ((step_ecall rfl rfl rfl rfl rfl).trans hs₁)
  have hr₂ := hr₁.step (.ecall 0x01 6 0 0 0) (allowed_memAlloc 6 (h₁.current_ne_flush hflush))
    (.of_ne (by decide)) ((step_ecall rfl rfl rfl rfl rfl).trans hs₂)
  have hr₃ := hr₂.step _ (allowed_assign (n := 6) rfl (h₂.current_ne_flush hflush)
    (by rw [h₂.handles]; exact List.mem_cons_self) (by decide)) trivial hs₃
  have hr₄ := hr₃.step (.ecall 0x02 26112 0 0 0) (allowed_memFree (h₃.current_ne_flush hflush)
    (by rw [h₃.handles, bootImage_addr 263]; exact List.mem_cons_self)) (.of_ne (by decide))
    ((step_ecall rfl (by rw [bootImage_addr]; rfl) rfl rfl rfl).trans hs₄)
  refine ⟨M₄, _, hr₄, h₄.refl, hthreads, hflush, ?_, ?_⟩
  · simp [bootImage_addr, u32]
  · exact hsame.trans hval

/-- A `thread_create` then frees the block of the flush thread. -/
theorem flush_block_free {M₀ : Machine} {σ : Spec} (h₀ : AtBoot M₀ σ) : ∃ M hs,
    Reach bootImage (fun _ _ => True) M ∧
    Idle bootImage [owned 64, owned 64, gap 6, owned 64, owned 1, gap 73] hs M₀ M.mem M.mem M.globals ∧
    hs.threads = [bootImage.heap.addr 128] ∧ hs.flush = bootImage.heap.addr 128 := by
  obtain ⟨M, hs, hr, h, hthreads, hflush, hblock, hleft⟩ := word_left h₀ (bootImage.heap.addr 128)
  have hnone : Tiling.alloc (toBlocks defaultStackSize) [owned 64, owned 64, owned 6, owned 64, owned 1,
    owned 64, owned 6, gap 3] = none := by decide
  have husr : release 199 [owned 64, owned 64, owned 6, owned 64, owned 1, owned 64, owned 6, gap 3] =
    some (64, [owned 64, owned 64, owned 6, owned 64, owned 1, gap 64, owned 6, gap 3]) := by decide
  have hsem : release 128 [owned 64, owned 64, owned 6, owned 64, owned 1, gap 64, owned 6, gap 3] =
    some (6, [owned 64, owned 64, gap 6, owned 64, owned 1, gap 64, owned 6, gap 3]) := by decide
  have htcb : release 263 [owned 64, owned 64, gap 6, owned 64, owned 1, gap 64, owned 6, gap 3] =
    some (6, [owned 64, owned 64, gap 6, owned 64, owned 1, gap 73]) := by decide
  have hword (y : Nat) (_ : 64 ≤ y) (hy : y < 64 + 8) :
      bootImage.heap.Outside y ∧ ¬bootImage.Still y := by
    refine ⟨.inl (Nat.lt_trans hy (by decide)), fun hstill => ?_⟩
    have hstatic : 72 ≤ bootImage.scheduler ∧ 72 ≤ bootImage.putcSem ∧ 72 ≤ bootImage.getcSem := by
      decide
    unfold Layout.Still at hstill
    omega
  obtain ⟨M₁, hs₁, h₁⟩ := h.createFails 64 1 0 (by decide) (by decide) hword
    (by rw [bootImage_addr]; decide) alloc_block hnone (by decide) (by decide) (by decide) husr hsem htcb
    (hleft.trans (by rw [bootImage_addr]; rfl))
  rw [bootImage_addr] at hs₁
  rw [← h.handles] at hblock
  have hr₁ := (hr.mono fun _ _ _ => trivial).step (.ecall 0x11 64 1 0 26112) (allowed_create (h.current_ne_flush hflush)
    (userWord_bootImage M) hblock (by decide)) trivial ((step_ecall rfl rfl rfl rfl rfl).trans hs₁)
  exact ⟨M₁, _, hr₁, h₁, hthreads, hflush⟩

/-- The main thread gets the block and writes to it. -/
theorem flush_block_taken {M₀ : Machine} {σ : Spec} (h₀ : AtBoot M₀ σ) {f : Field}
    (hf : f.ofTcb = true) (x : Nat) : ∃ M hs, Reach bootImage (fun _ _ => True) M ∧
    Idle bootImage [owned 64, owned 64, owned 6, owned 64, owned 1, gap 73] hs M₀ M.mem M.mem M.globals ∧
    hs.threads = [bootImage.heap.addr 128] ∧ hs.flush = bootImage.heap.addr 128 ∧
    M.mem.field (bootImage.heap.addr 128) f = x % 256 ^ size f := by
  obtain ⟨M, hs, hr, h, hthreads, hflush⟩ := flush_block_free h₀
  have halloc : Tiling.alloc (u32 6) [owned 64, owned 64, gap 6, owned 64, owned 1, gap 73] =
    some (128, [owned 64, owned 64, owned 6, owned 64, owned 1, gap 73]) := by decide
  obtain ⟨M₁, hs₁, h₁⟩ := h.memAlloc (by decide) halloc
  obtain ⟨M₂, hs₂, hval, h₂⟩ := h₁.write (i := 128) (n := 6) (by decide) (by decide) hf x
  have hr₁ := hr.step (.ecall 0x01 6 0 0 0) (allowed_memAlloc 6 (h.current_ne_flush hflush)) trivial
    ((step_ecall rfl rfl rfl rfl rfl).trans hs₁)
  have hr₂ := hr₁.step _ (allowed_assign (n := 6) hf (h₁.current_ne_flush hflush)
    (by rw [h₁.handles]; exact List.mem_cons_self) (by decide)) trivial hs₂
  exact ⟨M₂, _, hr₂, h₂, hthreads, hflush, hval⟩

/-- The status of the flush thread then says that it runs, while the main thread does. -/
theorem threads_not_in_one_place :
    ¬∀ (L : Layout) (M : Machine), Reach L (fun _ _ => True) M → InOnePlace L M := by
  intro hall
  obtain ⟨M₀, σ, -, h₀⟩ := boot_atBoot
  obtain ⟨M, hs, hr, h, hthreads, -, hst⟩ := flush_block_taken h₀ (f := .status) rfl
    TCBStatus.running.code
  obtain ⟨R, S, W, hone⟩ := hall _ _ hr
  have hflush : bootImage.heap.addr 128 ∈ M.tcbs bootImage := by
    rw [Machine.tcbs, h.handles, hthreads]
    exact List.mem_cons_of_mem _ List.mem_cons_self
  have heq := (hone.running _ hflush).mp hst
  rw [h.current, bootImage_addr] at heq
  exact absurd heq (by decide)

end Os1Kernel
