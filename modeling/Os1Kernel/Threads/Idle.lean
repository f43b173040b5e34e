import Os1Kernel.Threads.Reach

/-! System calls of the main thread that only use the heap.  They follow the tiling of the heap also
where the kernel has freed what a thread still uses. -/

namespace Os1Kernel

open Memory MemoryAllocator
open Tiling hiding alloc

/-- The blocks of the heap lie above its start. -/
theorem HeapBounds.start_le_addr (B : HeapBounds) (i : Nat) : B.start ≤ B.addr i := by
  have hlow : B.base ≤ B.addr i := Nat.le_add_right _ _
  have := B.spec.table_le_base
  omega

section Heap

variable {B : HeapBounds} {ts ts' : List Tile} {m m' : Mem} {g : Globals} {i n x : Nat}

/-- No entry of the table and no header lies at the byte, whatever is free. -/
def HeapBounds.Outside (B : HeapBounds) (x : Nat) : Prop :=
  x < B.start ∨ B.base ≤ x ∧ 24 ≤ (x - B.base) % 64

theorem HeapBounds.Outside.not_cell (hx : B.Outside x) {o : Obj} (ho : Obj.ofHeap B ts o) {a : Nat}
    {f : Field} (hc : o.cells B a f) : x < a + offset f ∨ a + offset f + size f ≤ x := by
  have hb := Obj.cells_bounds hc
  have htable := B.spec.table_le_base
  cases o with
  | entry j =>
    have hlow : B.start ≤ B.entryAddr j := Nat.le_add_right _ _
    have hlt := B.entryAddr_lt ho
    simp only [Obj.region] at hb
    rcases hx with hx | hx <;> omega
  | header j =>
    simp only [Obj.region, HeapBounds.addr] at hb
    rcases hx with hx | hx <;> omega
  | tcb _ => exact ho.elim
  | sem _ => exact ho.elim
  | list _ => exact ho.elim

/-- A byte of an allocation. -/
theorem not_cell_of_used (hv : Tiling.Valid B.total ts) (hmem : (i, n) ∈ segs true 0 ts)
    (hx : B.addr i ≤ x ∧ x < B.addr i + 64 * n) {o : Obj} (ho : Obj.ofHeap B ts o) {a : Nat}
    {f : Field} (hc : o.cells B a f) : x < a + offset f ∨ a + offset f + size f ≤ x := by
  have hb := Obj.cells_bounds hc
  have hin : B.base ≤ B.addr i := Nat.le_add_right _ _
  cases o with
  | entry j =>
    have hlt := B.entryAddr_lt ho
    simp only [Obj.region] at hb
    omega
  | header j =>
    have hout := free_outside hv ho (List.mem_map.mpr ⟨_, hmem, rfl⟩)
    simp only [Obj.region] at hb
    simp only [located] at hout
    omega
  | tcb _ => exact ho.elim
  | sem _ => exact ho.elim
  | list _ => exact ho.elim

/-- Writes to an allocation, or outside of the heap's cells. -/
theorem HeapRep.of_outside (h : HeapRep B ts m.view g)
    (hm : ∀ x, ¬B.Outside x → (∀ i n, (i, n) ∈ segs true 0 ts →
      ¬(B.addr i ≤ x ∧ x < B.addr i + 64 * n)) → m' x = m x) : HeapRep B ts m'.view g :=
  h.congr fun a f ⟨o, ho, hc⟩ => load_congr fun x hx hx' => hm x
    (fun hout => by have := hout.not_cell ho hc; omega)
    fun i n hmem hin => by have := not_cell_of_used h.valid hmem hin ho hc; omega

/-- The allocator does not touch an allocation. -/
theorem field_of_used (hv : Tiling.Valid B.total ts) (hmem : (i, n) ∈ segs true 0 ts)
    (hn : 360 ≤ 64 * n) (hf : Frame (Obj.own B (Obj.ofHeap B ts)) m m') {f : Field}
    (hof : f.ofTcb = true) : m'.field (B.addr i) f = m.field (B.addr i) f := by
  have hb := Obj.ofTcb_bounds hof
  exact load_congr fun x hx hx' => hf x fun _ _ ⟨_, ho, hc⟩ =>
    not_cell_of_used hv hmem ⟨by omega, by omega⟩ ho hc

end Heap

/-- The bytes of the scheduler's list and of the console's semaphores. -/
def Layout.Still (L : Layout) (x : Nat) : Prop :=
  L.scheduler ≤ x ∧ x < L.scheduler + 16 ∨ L.putcSem ≤ x ∧ x < L.putcSem + 24 ∨
    L.getcSem ≤ x ∧ x < L.getcSem + 24

theorem Layout.Still.below {L : Layout} {x : Nat} (h : L.Still x) :
    x < L.heap.start ∧ (x < L.mainTcb ∨ L.mainTcb + 360 ≤ x) := by
  have hp := L.places
  unfold Still at h
  omega

theorem Layout.Still.outside {L : Layout} {x : Nat} (h : L.Still x) : L.heap.Outside x :=
  .inl h.below.1

/-- The actions of system calls that only use the heap. -/
def Action.idle : Action → Bool
  | .called _ code _ => code ≠ 0xff
  | .ecallReturned .. | .freed .. => true
  | _ => false

/-- The main thread runs, the heap is tiled by `ts`, and memory has only changed from `m₀` where the
allocator writes and in the main thread's context.  Since `M₀` only the heap has been used. -/
structure Idle (L : Layout) (ts : List Tile) (hs : Handles) (M₀ : Machine) (m₀ m : Mem) (g : Globals) :
    Prop where
  heap : HeapRep L.heap ts m.view g
  current : g.currentTcb = L.mainTcb
  context : g.kCurrentContext = L.mainTcb
  handles : g.handles = hs
  frame : ∀ x, L.heap.Outside x → x < L.mainTcb ∨ L.mainTcb + 360 ≤ x → m x = m₀ x
  still : ∀ x, L.Still x → m x = M₀.mem x
  trace : ∃ q, g.trace = M₀.globals.trace ++ q ∧ ∀ x ∈ q, x.idle = true
  getcBuffer : g.getcBuffer = M₀.globals.getcBuffer
  putcBuffer : g.putcBuffer = M₀.globals.putcBuffer

namespace Idle

variable {L : Layout} {ts ts' : List Tile} {hs : Handles} {M₀ : Machine} {m₀ m m' : Mem} {g : Globals}
  {i n x : Nat} {E : Fault → Prop} {Q : Unit → Mem → Globals → Prop}
  {T : Switch → Kernel Unit → Mem → Globals → Prop}

theorem refl (h : Idle L ts hs M₀ m₀ m g) : Idle L ts hs M₀ m m g := { h with frame := fun _ _ _ => rfl }

theorem context_ne (h : Idle L ts hs M₀ m₀ m g) : g.kCurrentContext ≠ 0 := by
  have hp := L.places
  have := h.context
  omega

theorem log (h : Idle L ts hs M₀ m₀ m g) {x : Action} (hx : x.idle = true) :
    Idle L ts hs M₀ m₀ m { g with trace := g.trace ++ [x] } := by
  obtain ⟨q, htrace, hq⟩ := h.trace
  refine ⟨h.heap.globals rfl rfl rfl, h.current, h.context, h.handles, h.frame, h.still,
    ⟨q ++ [x], by simp only [htrace, List.append_assoc], fun y hy => ?_⟩, h.getcBuffer, h.putcBuffer⟩
  rcases List.mem_append.mp hy with hy | hy
  · exact hq y hy
  · exact List.mem_singleton.mp hy ▸ hx

theorem record (h : Idle L ts hs M₀ m₀ m g) (u : Handles → Handles) :
    Idle L ts (u hs) M₀ m₀ m { g with handles := u g.handles } :=
  ⟨h.heap.globals rfl rfl rfl, h.current, h.context, congrArg u h.handles, h.frame,
    h.still, h.trace, h.getcBuffer, h.putcBuffer⟩

theorem sstatus (h : Idle L ts hs M₀ m₀ m g) (s : Nat) : Idle L ts hs M₀ m₀ m { g with sstatus := s } :=
  { h with heap := h.heap.globals rfl rfl rfl }

theorem a0 (h : Idle L ts hs M₀ m₀ m g) (x : Nat) :
    Idle L ts hs M₀ m₀ (m.assign g.kCurrentContext Field.a0 x) g := by
  have hp := L.places
  have hctx := h.context
  have ha0 : offset Field.a0 + size Field.a0 ≤ 360 := by decide
  refine { h with heap := h.heap.of_below fun y hy => store_outside (.inr (by omega)),
                  frame := fun y hy hout => (store_outside ?_).trans (h.frame y hy hout)
                  still := fun y hy => (store_outside ?_).trans (h.still y hy) }
  · omega
  · have := hy.below
    omega

/-- The end of a system call. -/
theorem post_return (h : Idle L ts hs M₀ m₀ m g)
    (hQ : ∀ g', Idle L ts hs M₀ m₀ m g' → Q () m g') : Prog.Post E Q T (ecallReturn.run m g) := by
  rw [ecallReturn, run_of_run run_globals, run_of_run (run_rd h.context_ne), run_log, Prog.post_done]
  exact hQ _ (h.log rfl)

theorem post_setA0 (h : Idle L ts hs M₀ m₀ m g) (x : Nat)
    (hQ : ∀ m' g', Idle L ts hs M₀ m₀ m' g' → m'.field L.mainTcb Field.a0 = x % 2 ^ 64 → Q () m' g') :
    Prog.Post E Q T ((setA0 x >>= fun _ => ecallReturn).run m g) := by
  refine post_of_run (run_setA0 h.context_ne x) ((h.a0 x).post_return fun g' h' => hQ _ _ h' ?_)
  rw [h.context, field_assign_same]
  rfl

/-- A system call of the main thread. -/
theorem ecall {M : Machine} (h : Idle L ts hs M₀ m₀ M.mem M.globals) {code : Nat} (hcode : code ≠ 0xff)
    (p0 p1 p2 p3 : Nat) {Q : Mem → Globals → Prop}
    (hQ : ∀ m g, Idle L ts hs M₀ m₀ m g → Prog.Post (fun _ => False) (fun _ m g => Q m g)
      (fun _ _ _ _ => False) ((syscall L code p0 p1 p2 p3 >>= fun _ => ecallReturn).run m g)) :
    ∃ m g, Q m g ∧ M.trap L (ecallTrap L code p0 p1 p2 p3) =
      some (Machine.sret { M with mem := m, globals := g }) := by
  have henter : Idle L ts hs M₀ m₀ M.mem M.enter.globals := h.sstatus _
  have hpost : Prog.Post (fun _ => False) (fun _ m g => Q m g) (fun _ _ _ _ => False)
      ((ecallTrap L code p0 p1 p2 p3).run M.mem M.enter.globals) := by
    rw [Inside.ecallTrap_eq]
    refine post_of_run run_globals (post_of_run run_log ?_)
    have hlog := henter.log (x := .called M.enter.globals.currentTcb code p0) (decide_eq_true hcode)
    exact post_of_run (run_setA0 hlog.context_ne _) (hQ _ _ (hlog.a0 _))
  rcases trap_done hpost with ⟨-, _, hf⟩ | hdone
  · exact hf.elim
  · exact hdone

theorem of_frame (h : Idle L ts hs M₀ m₀ m g)
    (hf : Frame (Obj.own L.heap (Obj.ofHeap L.heap ts')) m m') (hrep : HeapRep L.heap ts' m'.view
      { g with fbHead := x }) : Idle L ts' hs M₀ m₀ m' { g with fbHead := x } :=
  ⟨hrep, h.current, h.context, h.handles, fun y hy hout =>
    (hf y fun _ _ ⟨_, ho, hc⟩ => hy.not_cell ho hc).trans (h.frame y hy hout), fun y hy =>
    (hf y fun _ _ ⟨_, ho, hc⟩ => hy.outside.not_cell ho hc).trans (h.still y hy), h.trace,
    h.getcBuffer, h.putcBuffer⟩

theorem alloc (h : Idle L ts hs M₀ m₀ m g) (halloc : Tiling.alloc (u32 n) ts = some (i, ts')) :
    ∃ m' x, (MemoryAllocator.alloc n).run m g = .done (L.heap.addr i) m' { g with fbHead := x } ∧
      Idle L ts' hs M₀ m₀ m' { g with fbHead := x } := by
  obtain ⟨a, m', x, us, hrun, hf, hcase, hrep⟩ := h.heap.alloc_returns n
  rcases hcase with ⟨-, hnone, -⟩ | ⟨j, rfl, hsome⟩
  · exact absurd (hnone.symm.trans halloc) (by simp)
  · obtain ⟨rfl, rfl⟩ := Prod.mk.inj (Option.some.inj (hsome.symm.trans halloc))
    refine ⟨m', x, hrun, hrep, h.current, h.context, h.handles, fun y hy hout => ?_, fun y hy => ?_,
      h.trace, h.getcBuffer, h.putcBuffer⟩
    · exact (hf y fun _ _ ⟨_, ho, hc⟩ => hy.not_cell ho hc).trans (h.frame y hy hout)
    · exact (hf y fun _ _ ⟨_, ho, hc⟩ => hy.outside.not_cell ho hc).trans (h.still y hy)

theorem alloc_none (h : Idle L ts hs M₀ m₀ m g) (halloc : Tiling.alloc (u32 n) ts = none) :
    ∃ m' x, (MemoryAllocator.alloc n).run m g = .done 0 m' { g with fbHead := x } ∧
      Idle L ts hs M₀ m₀ m' { g with fbHead := x } ∧
      Frame (Obj.own L.heap (Obj.ofHeap L.heap ts)) m m' := by
  obtain ⟨a, m', x, us, hrun, hf, hcase, hrep⟩ := h.heap.alloc_returns n
  rcases hcase with ⟨rfl, -, rfl⟩ | ⟨j, -, hsome⟩
  · exact ⟨m', x, hrun, h.of_frame hf hrep, hf⟩
  · exact absurd (halloc.symm.trans hsome) (by simp)

theorem free (h : Idle L ts hs M₀ m₀ m g) (hrel : release i ts = some (n, ts')) :
    ∃ m' x, (MemoryAllocator.free (L.heap.addr i)).run m g =
        .done memSuccess m' { g with fbHead := x } ∧ Idle L ts' hs M₀ m₀ m' { g with fbHead := x } ∧
      Frame (Obj.own L.heap (Obj.ofHeap L.heap ts')) m m' := by
  obtain ⟨r, m', g', v', hrun, hsim, hf, rfl, x, rfl, hrep⟩ := Prog.returns
    (separate_ofHeap L.heap ts') (Sim.self _ m) (h.heap.wp_free (Q := fun r v g' => r = memSuccess ∧
      ∃ x, g' = { g with fbHead := x } ∧ HeapRep L.heap ts' v g') (T := fun _ _ _ _ => False)
      hrel (HeapCells.of_own fun _ _ h => h) fun v' x _ hr' => ⟨rfl, x, rfl, hr'⟩)
  exact ⟨m', x, hrun, h.of_frame hf (hrep.of_sim hsim fun _ _ h => h), hf⟩

/-- `mem_alloc` of the main thread. -/
theorem memAlloc {M : Machine} (h : Idle L ts hs M₀ m₀ M.mem M.globals) (hn : u32 n ≠ 0)
    (halloc : Tiling.alloc (u32 n) ts = some (i, ts')) : ∃ M',
    M.trap L (ecallTrap L 0x01 n 0 0 0) = some M' ∧
      Idle L ts' { hs with blocks := (L.heap.addr i, u32 n) :: hs.blocks } M₀ m₀ M'.mem M'.globals := by
  obtain ⟨m, g, hQ, hrun⟩ := h.ecall (show 0x01 ≠ 0xff by decide) n 0 0 0
    (Q := Idle L ts' { hs with blocks := (L.heap.addr i, u32 n) :: hs.blocks } M₀ m₀) fun m g hm => by
      change Prog.Post _ _ _ ((memAllocCall n >>= fun _ => ecallReturn).run _ _)
      rw [Inside.memAllocCall_eq]
      obtain ⟨m', x, hrun, h'⟩ := hm.alloc halloc
      refine post_of_run hrun ?_
      rw [if_pos ⟨L.heap.addr_ne_zero i, hn⟩]
      exact post_of_run run_record ((h'.record fun hs => { hs with
        blocks := (L.heap.addr i, u32 n) :: hs.blocks }).post_setA0 _ fun _ _ h'' _ => h'')
  exact ⟨_, hrun, hQ.sstatus _⟩

/-- `mem_free` of the main thread. -/
theorem memFree {M : Machine} (h : Idle L ts hs M₀ m₀ M.mem M.globals)
    (hrel : release i ts = some (n, ts')) : ∃ M',
    M.trap L (ecallTrap L 0x02 (L.heap.addr i) 0 0 0) = some M' ∧
      Idle L ts' { hs with blocks := hs.blocks.filter fun t => t.1 ≠ L.heap.addr i } M₀ m₀ M'.mem
        M'.globals := by
  obtain ⟨m, g, hQ, hrun⟩ := h.ecall (show 0x02 ≠ 0xff by decide) (L.heap.addr i) 0 0 0
    (Q := Idle L ts' { hs with blocks := hs.blocks.filter fun t => t.1 ≠ L.heap.addr i } M₀ m₀)
    fun m g hm => by
      change Prog.Post _ _ _ ((memFreeCall (L.heap.addr i) >>= fun _ => ecallReturn).run _ _)
      rw [Inside.memFreeCall_eq]
      obtain ⟨m', x, hrun, h', -⟩ := hm.free hrel
      exact post_of_run hrun (post_of_run run_record ((h'.record fun hs => { hs with
        blocks := hs.blocks.filter fun t => t.1 ≠ L.heap.addr i }).post_setA0 _
          fun _ _ h'' _ => h''))
  exact ⟨_, hrun, hQ.sstatus _⟩

/-- Writes to an allocation. -/
theorem of_block (h : Idle L ts hs M₀ m₀ m g) (hmem : (i, n) ∈ segs true 0 ts) (hn : 360 ≤ 64 * n)
    (hm : ∀ x, x < L.heap.addr i ∨ L.heap.addr i + 360 ≤ x → m' x = m x) : Idle L ts hs M₀ m' m' g where
  heap := h.heap.of_outside fun x _ hno => hm x (by
    have := hno i n hmem
    omega)
  current := h.current
  context := h.context
  handles := h.handles
  frame _ _ _ := rfl
  still x hx := by
    have hlow := L.heap.start_le_addr i
    exact (hm x (.inl (hx.below.1.trans_le hlow))).trans (h.still x hx)
  trace := h.trace
  getcBuffer := h.getcBuffer
  putcBuffer := h.putcBuffer

theorem assign_block (h : Idle L ts hs M₀ m₀ m g) (hmem : (i, n) ∈ segs true 0 ts) (hn : 360 ≤ 64 * n)
    {f : Field} (hf : f.ofTcb = true) (x : Nat) :
    Idle L ts hs M₀ (m.assign (L.heap.addr i) f x) (m.assign (L.heap.addr i) f x) g := by
  have hb := Obj.ofTcb_bounds hf
  exact h.of_block hmem hn fun y hy => store_outside (by omega)

/-- User code of the main thread writes to an allocation. -/
theorem write {M : Machine} (h : Idle L ts hs M₀ m₀ M.mem M.globals) (hmem : (i, n) ∈ segs true 0 ts)
    (hn : 360 ≤ 64 * n) {f : Field} (hf : f.ofTcb = true) (x : Nat) : ∃ M',
    M.step L (.user (M.mem.assign (L.heap.addr i) f x)) = some M' ∧
      M'.mem.field (L.heap.addr i) f = x % 256 ^ size f ∧ Idle L ts hs M₀ M'.mem M'.mem M'.globals :=
  ⟨_, rfl, field_assign_same, h.assign_block hmem hn hf x⟩

/-- `free_tcb` of a thread without a kernel stack frees its user stack, what its block holds for a
semaphore, and its block. -/
theorem freeTcb {u j k l : Nat} {ts₁ ts₂ ts₃ ts₄ : List Tile} (h : Idle L ts₁ hs M₀ m₀ m g)
    (hn : 360 ≤ 64 * n) (hi₂ : (i, n) ∈ segs true 0 ts₂)
    (hi₃ : (i, n) ∈ segs true 0 ts₃) (husr : release u ts₁ = some (k, ts₂))
    (hsem : release j ts₂ = some (l, ts₃)) (htcb : release i ts₃ = some (n, ts₄))
    (hlt : L.heap.addr u + defaultStackSize < 2 ^ 64)
    (h1 : m.field (L.heap.addr i) Field.usrStack = L.heap.addr u + defaultStackSize)
    (h2 : m.field (L.heap.addr i) Field.sysStack = 0)
    (h3 : m.field (L.heap.addr i) Field.joinSem = L.heap.addr j) :
    ∃ m' g', (Os1Kernel.freeTcb L (L.heap.addr i)).run m g = .done () m' g' ∧
      Idle L ts₄ hs M₀ m' m' g' := by
  have hp := L.places
  have ht0 := L.heap.addr_ne_zero i
  have hmain : L.heap.addr i ≠ L.mainTcb := by
    have hlow := L.heap.start_le_addr i
    omega
  have hu : u64 (L.heap.addr u + defaultStackSize + 2 ^ 64 - defaultStackSize) = L.heap.addr u := by
    unfold u64
    omega
  rw [Holds.freeTcb_eq ⟨ht0, hmain⟩, run_of_run (run_rd ht0), h1, hu]
  obtain ⟨m₁, x₁, hrun₁, hid₁, hf₁⟩ := h.free husr
  rw [run_of_run hrun₁, run_of_run run_log, run_of_run (run_wr ht0), run_of_run (run_rd ht0)]
  have hkeep₁ {f : Field} (hf : f.ofTcb = true) (hne : f ≠ .usrStack) :
      (m₁.assign (L.heap.addr i) Field.usrStack 0).field (L.heap.addr i) f =
        m.field (L.heap.addr i) f :=
    (field_assign_ne rfl hf hne).trans (field_of_used hid₁.heap.valid hi₂ hn hf₁ hf)
  rw [hkeep₁ rfl (by decide), h2]
  have hnull {m : Mem} {g : Globals} : (MemoryAllocator.free 0).run m g = .done addressIsNull m g := rfl
  rw [run_of_run hnull, run_of_run run_log, run_of_run (run_wr ht0), run_of_run (run_rd ht0),
    field_assign_ne rfl rfl (by decide), hkeep₁ rfl (by decide), h3]
  have hid₂ := ((((hid₁.log (x := .freed (L.heap.addr u) memSuccess) rfl).assign_block hi₂ hn
    (f := .usrStack) rfl 0).log (x := .freed 0 addressIsNull) rfl).assign_block hi₂ hn (f := .sysStack) rfl 0)
  obtain ⟨m₃, x₃, hrun₃, hid₃, hf₃⟩ := hid₂.free hsem
  rw [run_of_run hrun₃, run_of_run run_log, run_of_run (run_wr ht0)]
  have hid₄ := (hid₃.log (x := .freed (L.heap.addr j) memSuccess) rfl).assign_block hi₃ hn (f := .joinSem) rfl 0
  obtain ⟨m₅, x₅, hrun₅, hid₅, -⟩ := hid₄.free htcb
  rw [run_of_run hrun₅, run_log]
  exact ⟨_, _, rfl, (hid₅.log rfl).refl⟩

/-- `thread_create` where there is no kernel stack, and the word for the semaphore holds the address of
an allocation. -/
theorem createFails {M : Machine} {u j k l : Nat} {ts₁ ts₂ ts₃ ts₄ : List Tile}
    (h : Idle L ts hs M₀ M.mem M.mem M.globals) (p0 body args : Nat) (hbody : body ≠ 0) (hp0 : p0 ≠ 0)
    (hword : ∀ y, p0 ≤ y → y < p0 + 8 → L.heap.Outside y ∧ ¬L.Still y)
    (hlt : L.heap.addr u + defaultStackSize < 2 ^ 64)
    (halloc : Tiling.alloc (toBlocks sizeofTCB) ts = some (i, ts₁))
    (hnone : Tiling.alloc (toBlocks defaultStackSize) ts₁ = none)
    (hi₁ : (i, toBlocks sizeofTCB) ∈ segs true 0 ts₁) (hi₂ : (i, toBlocks sizeofTCB) ∈ segs true 0 ts₂)
    (hi₃ : (i, toBlocks sizeofTCB) ∈ segs true 0 ts₃) (husr : release u ts₁ = some (k, ts₂))
    (hsem : release j ts₂ = some (l, ts₃)) (hfree : release i ts₃ = some (toBlocks sizeofTCB, ts₄))
    (hleft : M.mem.field (L.heap.addr i) Field.joinSem = L.heap.addr j) : ∃ M',
    M.trap L (ecallTrap L 0x11 p0 body args (L.heap.addr u + defaultStackSize)) = some M' ∧
      Idle L ts₄ { hs with blocks := hs.blocks.filter fun t => t.1 ≠ L.heap.addr u } M₀ M'.mem M'.mem
        M'.globals := by
  have hp := L.places
  have ht0 := L.heap.addr_ne_zero i
  have hsize : u32 (toBlocks sizeofTCB) = toBlocks sizeofTCB ∧
    u32 (toBlocks defaultStackSize) = toBlocks defaultStackSize ∧ 360 ≤ 64 * toBlocks sizeofTCB := by
    decide
  have hlow : L.heap.base ≤ L.heap.addr i := Nat.le_add_right _ _
  have hbase := L.heap.spec.table_le_base
  -- the word for the semaphore lies where the allocator does not write
  have hjoin {m₁ : Mem} {g₁ : Globals} {us : List Tile} (h' : Idle L us hs M₀ M.mem m₁ g₁) :
      m₁.field (L.heap.addr i) Field.joinSem = L.heap.addr j := by
    refine (load_congr fun y hy hy' => h'.frame y ?_ ?_).trans hleft
    · simp only [HeapBounds.addr, show offset Field.joinSem = 296 from rfl,
        show size Field.joinSem = 8 from rfl] at hy hy'
      unfold HeapBounds.Outside
      omega
    · omega
  obtain ⟨m, g, hQ, hrun⟩ := h.ecall (show 0x11 ≠ 0xff by decide) p0 body args
    (L.heap.addr u + defaultStackSize) (Q := fun m g =>
      Idle L ts₄ { hs with blocks := hs.blocks.filter fun t => t.1 ≠ L.heap.addr u } M₀ m m g)
    fun m g hm => by
      change Prog.Post _ _ _ ((createThreadCall L p0 body args (L.heap.addr u + defaultStackSize)
        >>= fun _ => ecallReturn).run _ _)
      rw [Inside.createThreadCall_eq hp0, Holds.createTcb_eq ⟨hbody, by unfold defaultStackSize; omega⟩,
        Nat.add_sub_cancel]
      refine Prog.post_bind ?_
      obtain ⟨m₁, x₁, hrun₁, hid₁⟩ := hm.alloc (hsize.1 ▸ halloc)
      refine post_of_run hrun₁ ?_
      rw [if_neg ht0]
      obtain ⟨m₂, hrun₂, hout₂, -, -, husr₂, hjoin₂⟩ := @initTcb_returns _ _ body args
        ht0 hlt m₁ { g with fbHead := x₁ }
      refine post_of_run hrun₂ (post_of_run run_record ?_)
      have hid₂ := (hid₁.of_block hi₁ hsize.2.2 hout₂).record fun hs => { hs with
        blocks := hs.blocks.filter fun t => t.1 ≠ L.heap.addr u }
      obtain ⟨m₃, x₃, hrun₃, hid₃, hf₃⟩ := hid₂.alloc_none (hsize.2.1 ▸ hnone)
      refine post_of_run hrun₃ (post_of_run (run_wr ht0) (post_of_run (run_rd ht0) ?_))
      rw [field_assign_same, if_pos (by simp)]
      have hkeep {f : Field} (hf : f.ofTcb = true) (hne : f ≠ .sysStack) :
          (m₃.assign (L.heap.addr i) Field.sysStack 0).field (L.heap.addr i) f =
            m₂.field (L.heap.addr i) f :=
        (field_assign_ne rfl hf hne).trans (field_of_used hid₃.heap.valid hi₁ hsize.2.2 hf₃ hf)
      obtain ⟨m₄, g₄, hrun₄, hid₄⟩ := (hid₃.assign_block hi₁ hsize.2.2 (f := .sysStack) rfl 0).freeTcb
        hsize.2.2 hi₂ hi₃ husr hsem hfree hlt ((hkeep rfl (by decide)).trans husr₂) field_assign_same
        ((hkeep rfl (by decide)).trans (hjoin₂.trans (hjoin hid₁)))
      refine post_of_run hrun₄ ?_
      rw [show (pure 0 : Kernel Nat).run m₄ g₄ = .done 0 m₄ g₄ from rfl, Prog.post_done]
      refine Inside.post_handle hp0 (by decide) ?_
      rw [if_neg (by simp)]
      have hid₅ : Idle L ts₄ { hs with blocks := hs.blocks.filter fun t => t.1 ≠ L.heap.addr u } M₀
          (m₄.assign p0 Field.handle 0) (m₄.assign p0 Field.handle 0) g₄ :=
        ⟨hid₄.heap.of_outside fun y hy _ => store_outside (by
          by_contra hin
          have h8 : offset Field.handle = 0 ∧ size Field.handle = 8 := ⟨rfl, rfl⟩
          exact hy (hword y (by omega) (by omega)).1), hid₄.current, hid₄.context, hid₄.handles,
          fun _ _ _ => rfl, fun y hy => (store_outside (by
          by_contra hin
          have h8 : offset Field.handle = 0 ∧ size Field.handle = 8 := ⟨rfl, rfl⟩
          exact (hword y (by omega) (by omega)).2 hy)).trans (hid₄.still y hy), hid₄.trace,
          hid₄.getcBuffer, hid₄.putcBuffer⟩
      exact hid₅.post_return fun g' h' => h'
  exact ⟨_, hrun, hQ.sstatus _⟩

end Idle

end Os1Kernel
