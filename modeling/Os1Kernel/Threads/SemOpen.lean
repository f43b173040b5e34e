import Os1Kernel.Heap.Sizes
import Os1Kernel.Threads.HeapCalls

/-! `sem_open` on a heap that may be exhausted. -/

namespace Os1Kernel

open Memory MemoryAllocator
open Tiling hiding alloc

/-- The allocator neither reads nor writes the byte: it is outside of the heap's memory, or in an
allocation. -/
def HeapState.Spare (B : HeapBounds) (s : HeapState) (x : Nat) : Prop :=
  x < B.start ∨ B.stop < x ∨ ∃ t ∈ s.live, t.1 ≤ x ∧ x < t.1 + 64 * t.2

/-- Where `sem_open` puts the handle, and the result in the context of the caller: memory that is not
the allocator's. -/
structure CallSite (B : HeapBounds) (s : HeapState) (handle : Nat) : Prop where
  handle_ne : handle ≠ 0
  context_ne : s.globals.kCurrentContext ≠ 0
  handleSpare : ∀ x, handle ≤ x → x < handle + 8 → s.Spare B x
  contextSpare : ∀ x, s.globals.kCurrentContext + 0xf8 ≤ x → x < s.globals.kCurrentContext + 0xf8 + 8 →
    s.Spare B x
  apart : Apart handle 8 (s.globals.kCurrentContext + 0xf8) 8

/-- The semaphore has the value and suspends no thread. -/
structure FreshSem (m : Mem) (sem value : Nat) : Prop where
  value : m.field sem Field.value = value
  head : m.field (Sem.suspendedTcbs sem) Field.head = 0
  tail : m.field (Sem.suspendedTcbs sem) Field.tail = 0

/-- `sem_open` returns 0 with a fresh semaphore in a new allocation; or there is no free block, and it
returns a negative code and a null handle and leaves the heap as it is. -/
def SemOpens (L : Layout) (B : HeapBounds) (s : HeapState) (handle init : Nat) : Prop :=
  ∃ m g, (handleEcall L 0x21 handle init 0 0).run s.mem s.globals = .done () m g ∧
    let sem := m.field handle Field.handle
    let code := m.field s.globals.kCurrentContext Field.a0
    (code = signExtend successSyscall ∧ sem ≠ 0 ∧ FreshSem m sem (u32 init) ∧
        (∀ t ∈ s.live, t.1 + 64 * t.2 ≤ sem ∨ sem + 64 * toBlocks sizeofSem ≤ t.1) ∧
        ∃ fs, AllocatorInvariant B ⟨m, g, (sem, toBlocks sizeofSem) :: s.live⟩ fs) ∨
      ((∀ i, ¬s.IsFree B i) ∧ code = signExtend failedSyscall ∧ sem = 0 ∧ SameHeap B s ⟨m, g, s.live⟩)

variable {L : Layout} {B : HeapBounds} {s : HeapState} {ts : List Tile} {handle init : Nat}

theorem HeapInv.on {m : Mem} {g g' : Globals} {live : List (Nat × Nat)} (h : HeapInv B ⟨m, g, live⟩)
    (h1 : g'.heapStartAddr = g.heapStartAddr) (h2 : g'.fbHead = g.fbHead)
    (h3 : g'.allocTable = g.allocTable) : HeapInv B ⟨m, g', live⟩ := by
  obtain ⟨ts, hr, hlive⟩ := h
  exact ⟨ts, hr.globals h1 h2 h3, hlive⟩

/-- Writes to bytes that are not the allocator's. -/
theorem HeapInv.write (h : HeapInv B s) {m : Mem} (hm : ∀ x, ¬s.Spare B x → m x = s.mem x) :
    HeapInv B ⟨m, s.globals, s.live⟩ := by
  refine heapInv_write h fun x hlow hhigh hout => hm x ?_
  rintro (hx | hx | ⟨t, ht, hx⟩)
  · omega
  · omega
  · have := hout t ht
    omega

theorem HeapInv.assign (h : HeapInv B s) {a x : Nat} {f : Field}
    (hspare : ∀ y, a + offset f ≤ y → y < a + offset f + size f → s.Spare B y) :
    HeapInv B ⟨s.mem.assign a f x, s.globals, s.live⟩ := by
  refine h.write fun y hy => store_outside ?_
  by_contra hin
  exact hy (hspare y (by omega) (by omega))

/-- Segments of one kind do not overlap. -/
theorem segs_self_apart {t u : Nat × Nat} (ht : t ∈ segs true 0 ts) (hu : u ∈ segs true 0 ts)
    (hne : t ≠ u) : t.1 + t.2 ≤ u.1 ∨ u.1 + u.2 ≤ t.1 := by
  have hpair := (segs_sorted true 0 ts).imp
    (S := fun t u : Nat × Nat => t.1 + t.2 ≤ u.1 ∨ u.1 + u.2 ≤ t.1) fun h => .inl h
  have hsymm : Std.Symm fun t u : Nat × Nat => t.1 + t.2 ≤ u.1 ∨ u.1 + u.2 ≤ t.1 :=
    ⟨fun _ _ => Or.symm⟩
  exact hpair.forall ht hu hne

/-- An allocation lies in the heap and apart from the others. -/
theorem HeapInv.head_apart {m : Mem} {g : Globals} {a n : Nat} {live : List (Nat × Nat)}
    (h : HeapInv B ⟨m, g, (a, n) :: live⟩) : B.start ≤ a ∧ a + 64 * n ≤ B.stop + 1 ∧
      ∀ t ∈ live, t.1 + 64 * t.2 ≤ a ∨ a + 64 * n ≤ t.1 := by
  obtain ⟨ts, hr, hlive⟩ := h
  have hin := located_inside hr.valid (hlive.mem_iff.mp List.mem_cons_self)
  have hend := B.spec.base_end
  have htable := B.spec.table_le_base
  simp only at hin
  refine ⟨by omega, by omega, fun t ht => ?_⟩
  have hnodup : ((a, n) :: live).Pairwise fun t u => t.1 ≠ u.1 :=
    (hlive.pairwise_iff fun {t u} => Ne.symm).mpr (located_nodup hr.valid.pos)
  have hne : a ≠ t.1 := (List.pairwise_cons.mp hnodup).1 t ht
  obtain ⟨r, hrseg, hloc⟩ := List.mem_map.mp (hlive.mem_iff.mp (List.mem_cons_self (a := (a, n))))
  obtain ⟨u, huseg, rfl⟩ := List.mem_map.mp (hlive.mem_iff.mp (List.mem_cons_of_mem (a, n) ht))
  obtain ⟨rfl, rfl⟩ := Prod.mk.inj hloc
  have hru : r ≠ u := by
    rintro rfl
    exact hne rfl
  have := segs_self_apart hrseg huseg hru
  simp only [located, HeapBounds.addr]
  omega

/-- There is a run of free blocks where there is a free block. -/
theorem HeapInv.exists_run (h : HeapInv B s) : (∃ i k, s.Run B i k) ↔ ∃ i, s.IsFree B i := by
  obtain ⟨ts, hr, hlive⟩ := h
  constructor
  · rintro ⟨i, k, hrun⟩
    exact ⟨i, hrun.free i le_rfl (by have := hrun.pos; omega)⟩
  · rintro ⟨i, hi⟩
    obtain ⟨t, ht, -⟩ := (HeapState.isFree_iff hr hlive).mp hi
    exact ⟨t.1, t.2, (HeapState.run_iff hr hlive).mpr ht⟩

/-- An allocation for a semaphore: null, and nothing changes, or a block of its own. -/
theorem HeapInv.alloc_sem (h : HeapInv B s) : ∃ sem m x,
    (MemoryAllocator.alloc (toBlocks sizeofSem)).run s.mem s.globals =
      .done sem m { s.globals with fbHead := x } ∧
    (sem = 0 ↔ ∀ i, ¬s.IsFree B i) ∧
    (sem ≠ 0 → HeapInv B ⟨m, { s.globals with fbHead := x }, (sem, toBlocks sizeofSem) :: s.live⟩) := by
  have hexists := h.exists_run
  obtain ⟨_, _, _, hrun₁, -, hnull⟩ := memAlloc_returns h sizeofSem
  obtain ⟨_, _, _, hrun₂, hinv⟩ := heapInv_alloc h (toBlocks sizeofSem)
  obtain ⟨ts, hr, -⟩ := h
  obtain ⟨sem, m, x, _, hrun, -⟩ := hr.alloc_returns (toBlocks sizeofSem)
  rw [memAlloc, hrun] at hrun₁
  rw [hrun] at hrun₂
  cases hrun₁
  cases hrun₂
  refine ⟨_, _, x, hrun, ?_, fun hsem => ?_⟩
  · have hone : toBlocks sizeofSem = 1 := rfl
    rw [hnull, ← not_exists, ← hexists, hone]
    refine ⟨fun hall hex => ?_, fun hno i k hk => absurd ⟨i, k, hk⟩ hno⟩
    obtain ⟨i, k, hk⟩ := hex
    have := hall i k hk
    have := hk.pos
    omega
  · rw [if_pos ⟨hsem, by decide⟩] at hinv
    exact hinv

/-- The call up to the initialisation of the semaphore. -/
theorem handleEcall_semOpen (hc : CallSite B s handle) (L : Layout) (init : Nat) :
    (handleEcall L 0x21 handle init 0 0).run s.mem s.globals =
      (MemoryAllocator.alloc (toBlocks sizeofSem) >>= fun sem =>
        Sem.initializeSem sem (u32 init) >>= fun _ => wr handle .handle sem >>= fun _ =>
          rd handle .handle >>= fun x =>
            if x ≠ 0 then rd handle .handle >>= fun sem =>
              record (fun h => { h with sems := sem :: h.sems }) >>= fun _ =>
                setA0 (signExtend successSyscall)
            else pure ()).run
        (s.mem.assign s.globals.kCurrentContext Field.a0 (signExtend failedSyscall))
        { s.globals with
          trace := s.globals.trace ++ [.called s.globals.currentTcb 0x21 handle] } := by
  rw [handleEcall, run_of_run run_globals, run_of_run run_log]
  refine (run_of_run (run_setA0 (g := { s.globals with
    trace := s.globals.trace ++ [.called s.globals.currentTcb 0x21 handle] }) hc.context_ne _)).trans ?_
  change (semOpenCall handle init).run _ _ = _
  rw [semOpenCall, if_pos hc.handle_ne, Sem.createSem]
  simp only [bind_assoc, pure_bind]

/-- `sem_open` writes through the null pointer when the heap is exhausted. -/
theorem semOpen_exhausted (h : HeapReach B s) (hc : CallSite B s handle)
    (hfull : ∀ i, ¬s.IsFree B i) :
    (handleEcall L 0x21 handle init 0 0).run s.mem s.globals = .fault .nullPointer := by
  have hcalled := (heapInv_of_reach h).assign (f := Field.a0) (x := signExtend failedSyscall)
    hc.contextSpare
  have hinv := @HeapInv.on _ _ _ { s.globals with
    trace := s.globals.trace ++ [.called s.globals.currentTcb 0x21 handle] } _ hcalled rfl rfl rfl
  obtain ⟨sem, m, x, hrun, hnull, -⟩ := hinv.alloc_sem
  obtain rfl := hnull.mpr hfull
  rw [handleEcall_semOpen hc, run_of_run hrun, Prog.run_bind]
  rfl

/-- Bytes that are not the allocator's lie apart from a new semaphore. -/
theorem apart_of_spare {m : Mem} {g : Globals} {a p : Nat}
    (h : HeapInv B ⟨m, g, (a, toBlocks sizeofSem) :: s.live⟩)
    (hspare : ∀ x, p ≤ x → x < p + 8 → s.Spare B x) : p + 8 ≤ a ∨ a + 64 ≤ p := by
  obtain ⟨hlow, hhigh, hapart⟩ := h.head_apart
  have hone : toBlocks sizeofSem = 1 := rfl
  rw [hone] at hhigh hapart
  by_contra hno
  have hin : p ≤ max p a ∧ max p a < p + 8 ∧ a ≤ max p a ∧ max p a < a + 64 := by omega
  rcases hspare _ hin.1 hin.2.1 with hx | hx | ⟨t, ht, hx⟩
  · omega
  · omega
  · have := hapart t ht
    omega

/-- The fields of a semaphore do not change with bytes outside of it. -/
theorem FreshSem.congr {m m' : Mem} {sem value : Nat} (h : FreshSem m sem value)
    (hm : ∀ x, sem ≤ x → x < sem + 24 → m' x = m x) : FreshSem m' sem value := by
  have hfield {a : Nat} {f : Field} (hlow : sem ≤ a + offset f)
      (hhigh : a + offset f + Memory.size f ≤ sem + 24) : m'.field a f = m.field a f :=
    load_congr fun x hx hx' => hm x (by omega) (by omega)
  refine ⟨(hfield ?_ ?_).trans h.value, (hfield ?_ ?_).trans h.head, (hfield ?_ ?_).trans h.tail⟩
  · exact Nat.le_add_right _ _
  · change sem + 0 + 4 ≤ sem + 24
    omega
  · change sem ≤ sem + 8 + 0
    omega
  · change sem + 8 + 0 + 8 ≤ sem + 24
    omega
  · change sem ≤ sem + 8 + 8
    omega
  · change sem + 8 + 8 + 8 ≤ sem + 24
    omega

/-- `sem_open` succeeds when there is a free block. -/
theorem semOpen_succeeds (h : HeapReach B s) (hc : CallSite B s handle) (hfree : ∃ i, s.IsFree B i) :
    SemOpens L B s handle init := by
  have hcalled := (heapInv_of_reach h).assign (f := Field.a0) (x := signExtend failedSyscall)
    hc.contextSpare
  have hinv := @HeapInv.on _ _ _ { s.globals with
    trace := s.globals.trace ++ [.called s.globals.currentTcb 0x21 handle] } _ hcalled rfl rfl rfl
  obtain ⟨sem, m, x, hrun, hnull, hinv'⟩ := hinv.alloc_sem
  have hsem : sem ≠ 0 := by
    intro h0
    obtain ⟨i, hi⟩ := hfree
    exact hnull.mp h0 i hi
  have hinv₂ := hinv' hsem
  have hone : toBlocks sizeofSem = 1 := rfl
  have hhandle := apart_of_spare hinv₂ hc.handleSpare
  have hcontext := apart_of_spare hinv₂ hc.contextSpare
  obtain ⟨hlow, hhigh, hapart⟩ := hinv₂.head_apart
  have hstop := B.stop_lt
  obtain ⟨m₃, hrun₃, hframe, hvalue, hhead, htail⟩ := initializeSem_returns hsem (u32_lt init) m
    { s.globals with
      trace := s.globals.trace ++ [.called s.globals.currentTcb 0x21 handle]
      fbHead := x }
  have hlt : sem < 2 ^ 64 := by omega
  have hread : (m₃.assign handle Field.handle sem).field handle Field.handle = sem := by
    rw [field_assign_same]
    exact Nat.mod_eq_of_lt hlt
  have hcode : signExtend successSyscall % 256 ^ size Field.a0 = signExtend successSyscall := rfl
  refine ⟨(m₃.assign handle Field.handle sem).assign s.globals.kCurrentContext Field.a0
    (signExtend successSyscall), { s.globals with
      fbHead := x
      trace := s.globals.trace ++ [.called s.globals.currentTcb 0x21 handle] ++
        [.initialized sem (u32 init)]
      handles := { s.globals.handles with sems := sem :: s.globals.handles.sems } }, ?_, .inl ?_⟩
  · rw [handleEcall_semOpen hc, run_of_run hrun, run_of_run hrun₃,
      run_of_run (run_wr hc.handle_ne), run_of_run (run_rd hc.handle_ne), hread, if_pos hsem,
      run_of_run (run_rd hc.handle_ne), hread, run_of_run run_record]
    exact run_setA0 (by exact hc.context_ne) _
  · have hsemHandle : ((m₃.assign handle Field.handle sem).assign s.globals.kCurrentContext Field.a0
        (signExtend successSyscall)).field handle Field.handle = sem :=
      (load_store_apart hc.apart.symm).trans hread
    simp only [hsemHandle]
    refine ⟨field_assign_same, hsem, ?_, fun t ht => hapart t ht, ?_⟩
    · refine FreshSem.congr (m := m₃) ⟨hvalue, hhead, htail⟩ fun y hy hy' => ?_
      refine (store_outside ?_).trans (store_outside ?_)
      · change y < s.globals.kCurrentContext + 0xf8 ∨ s.globals.kCurrentContext + 0xf8 + 8 ≤ y
        omega
      · change y < handle + 0 ∨ handle + 0 + 8 ≤ y
        omega
    · have hnew (y : Nat) (hy : ∃ t ∈ s.live, t.1 ≤ y ∧ y < t.1 + 64 * t.2) :
          ∃ t ∈ (sem, toBlocks sizeofSem) :: s.live, t.1 ≤ y ∧ y < t.1 + 64 * t.2 := by
        obtain ⟨t, ht, hin⟩ := hy
        exact ⟨t, List.mem_cons_of_mem _ ht, hin⟩
      have hinv₃ := hinv₂.write (m := m₃) fun y hy => hframe y (by
        by_contra hin
        exact hy (.inr (.inr ⟨_, List.mem_cons_self, by rw [hone]; omega⟩)))
      have hinv₄ := hinv₃.assign (f := Field.handle) (x := sem) fun y hy hy' =>
        (hc.handleSpare y hy hy').imp_right (Or.imp_right (hnew y))
      have hinv₅ := hinv₄.assign (a := s.globals.kCurrentContext) (f := Field.a0)
        (x := signExtend successSyscall) fun y hy hy' =>
          (hc.contextSpare y hy hy').imp_right (Or.imp_right (hnew y))
      exact HeapInv.allocatorInvariant (HeapInv.on hinv₅ (by rfl) (by rfl) (by rfl))

/-- `sem_open` keeps its promise as long as there is a free block. -/
theorem semOpen_iff (h : HeapReach B s) (hc : CallSite B s handle) :
    SemOpens L B s handle init ↔ ∃ i, s.IsFree B i := by
  refine ⟨fun hopens => ?_, semOpen_succeeds h hc⟩
  by_contra hno
  obtain ⟨m, g, hrun, -⟩ := hopens
  rw [semOpen_exhausted h hc (not_exists.mp hno)] at hrun
  cases hrun

/-- The handle and the context of a call on the small image. -/
theorem callSite_smallHeap (h : s.globals.kCurrentContext = smallImage.mainTcb) :
    CallSite smallHeap s 64 := by
  have hstart : smallHeap.start = 8192 := rfl
  have hmain : smallImage.mainTcb = 4096 := rfl
  rw [hmain] at h
  refine ⟨by decide, ?_, fun x _ hx => .inl ?_, fun x _ hx => .inl ?_, .inl ?_⟩ <;> omega

/-- The constructor of the heap leaves the context of the caller. -/
theorem construct_context (B : HeapBounds) (m₀ : Mem) (g₀ : Globals) : ∃ m g,
    (construct B.start B.stop).run m₀ g₀ = .done () m g ∧
    g.kCurrentContext = g₀.kCurrentContext := by
  obtain ⟨_, m, g, _, hrun, -, -, hg⟩ := Prog.returns (separate_ofHeap B _) (Sim.self _ m₀)
    (HeapRep.wp_construct (g := g₀) (Q := fun _ _ g => g.kCurrentContext = g₀.kCurrentContext)
      (HeapCells.of_own fun _ _ h => h) fun _ _ _ hg _ => hg ▸ rfl)
  exact ⟨m, g, hrun, hg⟩

/-- A heap that has just been constructed for the small image. -/
theorem smallHeap_constructed : ∃ s, HeapReach smallHeap s ∧ s.live = [] ∧
    s.globals.kCurrentContext = smallImage.mainTcb := by
  obtain ⟨m, g, hrun, hg⟩ := construct_context smallHeap (fun _ => 0) (.image smallImage.mainTcb 0)
  exact ⟨_, .construct _ _ hrun, rfl, hg⟩

/-- A semaphore on a heap where nothing is allocated. -/
theorem semOpen_iff_smallHeap : ∃ s, HeapReach smallHeap s ∧
    (SemOpens smallImage smallHeap s 64 1 ↔ ∃ i, s.IsFree smallHeap i) := by
  obtain ⟨s, h, -, hg⟩ := smallHeap_constructed
  exact ⟨s, h, semOpen_iff h (callSite_smallHeap hg)⟩

theorem alloc_context (h : HeapInv B s) {n a : Nat} {m : Mem} {g : Globals}
    (hrun : (MemoryAllocator.alloc n).run s.mem s.globals = .done a m g) :
    g.kCurrentContext = s.globals.kCurrentContext := by
  obtain ⟨ts, hr, -⟩ := h
  obtain ⟨_, _, x, _, hrun', -⟩ := hr.alloc_returns n
  rw [hrun] at hrun'
  cases hrun'
  rfl

/-- An allocation of all blocks of an empty heap. -/
theorem exhausted (h : HeapReach B s) (hnil : s.live = []) : ∃ s', HeapReach B s' ∧
    (∀ i, ¬s'.IsFree B i) ∧ s'.globals.kCurrentContext = s.globals.kCurrentContext := by
  obtain ⟨a, m, g, hrun, hnull, -, htakes, -⟩ := alloc_best_fit h B.spec.total_pos B.total_lt
  have ha : a ≠ 0 := fun h0 => absurd (hnull.mp h0 0 _ (run_of_empty hnil)) (lt_irrefl _)
  obtain ⟨i, k, -, hbest, htake⟩ := htakes ha
  have hle := hbest.le
  have hpos := hbest.run.pos
  have hlast := (hbest.run.free (i + k - 1) (by omega) (by omega)).1
  rw [← B.total_def] at hlast
  have hstep := h.step (.alloc _ hrun)
  rw [u32_of_lt B.total_lt, if_pos ⟨ha, B.spec.total_pos.ne'⟩] at hstep
  refine ⟨_, hstep, fun j hj => ?_, alloc_context (heapInv_of_reach h) hrun⟩
  obtain ⟨hfree, hno⟩ := (htake.free j).mp hj
  have hlt := hfree.1
  rw [← B.total_def] at hlt
  omega

/-- After an allocation of all blocks `sem_open` does not keep its promise. -/
theorem semOpen_fails : ¬∀ (L : Layout) (B : HeapBounds) (s : HeapState) (handle init : Nat),
    HeapReach B s → CallSite B s handle → SemOpens L B s handle init := by
  intro hall
  obtain ⟨s, h, hnil, hg⟩ := smallHeap_constructed
  obtain ⟨s', h', hfull, hg'⟩ := exhausted h hnil
  have hc := callSite_smallHeap (hg'.trans hg)
  obtain ⟨m, g, hrun, -⟩ := hall smallImage smallHeap s' 64 1 h' hc
  rw [semOpen_exhausted h' hc hfull] at hrun
  cases hrun

end Os1Kernel
