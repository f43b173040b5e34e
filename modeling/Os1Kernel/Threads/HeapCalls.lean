import Os1Kernel.Threads.Convert

/-! The system calls that allocate or free memory, as steps of the abstract machine. -/

namespace Os1Kernel

open Memory MemoryAllocator
open Tiling hiding alloc

theorem post_of_run {α β : Type} {p : Kernel α} {q : α → Kernel β} {r : α} {m m' : Mem}
    {g g' : Globals} {E : Fault → Prop} {Q : β → Mem → Globals → Prop}
    {T : Switch → Kernel β → Mem → Globals → Prop} (hrun : p.run m g = .done r m' g')
    (h : Prog.Post E Q T ((q r).run m' g')) : Prog.Post E Q T ((p >>= q).run m g) := by
  refine Prog.post_bind ?_
  rw [hrun, Prog.post_done]
  exact h

/-- The address of an allocation. -/
theorem HeapBounds.addr_lt_of_alloc (B : HeapBounds) {ts ts' : List Tile} {n i : Nat}
    (hv : Tiling.Valid B.total ts) (h : Tiling.alloc n ts = some (i, ts')) : B.addr i < 2 ^ 64 := by
  obtain ⟨pre, k, post, rfl, rfl, -⟩ := alloc_eq_some hv.pos h
  have hsize := hv.size
  have hend := B.spec.base_end
  have hstop := B.stop_lt
  rw [size_append] at hsize
  unfold HeapBounds.addr
  omega

theorem run_of_run {α β : Type} {p : Kernel α} {q : α → Kernel β} {r : α} {m m' : Mem} {g g' : Globals}
    (h : p.run m g = .done r m' g') : (p >>= q).run m g = (q r).run m' g' := by
  rw [Prog.run_bind, h]

theorem run_setA0 {m : Mem} {g : Globals} (h : g.kCurrentContext ≠ 0) (x : Nat) :
    (setA0 x).run m g = .done () (m.assign g.kCurrentContext Field.a0 x) g := by
  rw [setA0, run_of_run run_globals, run_wr h]

theorem field_assign_same {m : Mem} {t x : Nat} {f : Field} :
    (m.assign t f x).field t f = x % 256 ^ size f :=
  load_store_same m _ _ x

/-- Field `g` of an object does not change with field `f`. -/
theorem field_assign_ne {m : Mem} {t x : Nat} {f g : Field} (hf : f.ofTcb = true)
    (hg : g.ofTcb = true) (hne : g ≠ f) : (m.assign t f x).field t g = m.field t g :=
  load_store_apart (Obj.apart_add (Obj.ofTcb_apart hf hg hne))

/-- The result of a system call. -/
theorem Holds.assign_a0 {L : Layout} {σ : Spec} {m : Mem} (h : Holds L σ m.view)
    (hctx : σ.globals.kCurrentContext ∈ σ.owners.tcbs L) (x : Nat) :
    Holds L σ (m.assign σ.globals.kCurrentContext Field.a0 x).view :=
  (h.setA0 x).of_sim ((Sim.self (σ.owners.cells L) m).assign h.tiled.separate
    (Owners.cells_tcb hctx rfl) _)

/-- The bytes that the kernel does not write before and after a call are the same, but for those in `X`. -/
def Spared (L : Layout) (W W' : Owners) (X : Nat → Prop) (m m' : Mem) : Prop :=
  ∀ y, W.Quiet L y → W'.Quiet L y → ¬X y → m' y = m y

/-- The trap's program has ended, and has spared user code since `m`. -/
def BackFrom (L : Layout) (S : Nat → Option (Kernel Unit)) (I : Spec → Prop) (W : Owners)
    (X : Nat → Prop) (m : Mem) : Unit → Mem → Globals → Prop :=
  fun _ m' g => ∃ σ, g = σ.globals ∧ Inside L S I σ m'.view ∧ Spared L W σ.owners X m m'

/-- Another thread has been picked, and user code has been spared since `m`. -/
def GoneFrom (L : Layout) (S : Nat → Option (Kernel Unit)) (I : Spec → Prop) (W : Owners)
    (X : Nat → Prop) (m : Mem) : Switch → Kernel Unit → Mem → Globals → Prop :=
  fun sw k m' g => ∃ σ, g = σ.globals ∧ Away L S I σ sw k m'.view ∧ Spared L W σ.owners X m m'

theorem Owners.Spares.spared {L : Layout} {W W' : Owners} {X : Nat → Prop} {m m' : Mem}
    (h : W.Spares L m m') : Spared L W W' X m m' := fun y hy _ _ => h y hy

namespace Inside

variable {L : Layout} {S : Nat → Option (Kernel Unit)} {I : Spec → Prop} {σ τ : Spec} {v v' : Cells}
  {m : Mem} {E : Fault → Prop} {X : Nat → Prop}

/-- Code that leaves the heap alone, on bytes. -/
theorem spared_of_cells {W : Owners} (hW : W.Tiled L) {g : Globals} {p : Kernel Unit}
    (hwp : p.wp (W.cells L) m.view g (Returned L S I W) (Left L S I W)) :
    Prog.Post E (BackFrom L S I W X m) (GoneFrom L S I W X m) (p.run m g) := by
  refine Prog.post_of_wp hW.separate (Prog.wp_post hwp ?_ ?_)
  · rintro _ v' g ⟨τ, rfl, how, hin⟩ m' hs hframe
    exact ⟨τ, rfl, { hin with holds := hin.holds.of_sim (how ▸ hs) }, (hW.spares_of_cells hframe).spared⟩
  · rintro sw k v' g ⟨τ, rfl, how, haway⟩ m' hs hframe
    exact ⟨τ, rfl, { haway with holds := haway.holds.of_sim (how ▸ hs) },
      (hW.spares_of_cells hframe).spared⟩

/-- Code that comes back to its thread, of which `P` is known then, on bytes. -/
theorem post_back {W : Owners} {P : Spec → Prop} (hW : W.Tiled L) {g : Globals} {p : Kernel Unit}
    (hwp : p.wp (W.cells L) m.view g
      (fun _ v g => ∃ τ, P τ ∧ g = τ.globals ∧ τ.owners = W ∧ Inside L S I τ v)
      (fun _ _ _ _ => False)) :
    Prog.Post E (fun _ m g => ∃ τ, P τ ∧ g = τ.globals ∧ Inside L S I τ m.view) (fun _ _ _ _ => False)
      (p.run m g) := by
  refine Prog.post_of_wp hW.separate (Prog.wp_post hwp ?_ fun _ _ _ _ hf => hf.elim)
  rintro _ v' g ⟨τ, hP, rfl, how, hin⟩ m' hs -
  exact ⟨τ, hP, rfl, { hin with holds := hin.holds.of_sim (how ▸ hs) }⟩

/-- Code that ends in a switch to another thread. -/
theorem post_gone {W : Owners} {P : Spec → Prop} (hW : W.Tiled L) {g : Globals} {p : Kernel Unit}
    (hwp : p.wp (W.cells L) m.view g (fun _ _ _ => False)
      fun sw k v g => ∃ τ, P τ ∧ g = τ.globals ∧ τ.owners = W ∧ Away L S I τ sw k v) :
    Prog.Post E (fun _ _ _ => False) (fun sw k m g => ∃ τ, P τ ∧ g = τ.globals ∧ Away L S I τ sw k m.view)
      (p.run m g) := by
  refine Prog.post_of_wp hW.separate (Prog.wp_post hwp (fun _ _ _ hf => hf.elim) ?_)
  rintro sw k v' g ⟨τ, hP, rfl, how, haway⟩ m' hs -
  exact ⟨τ, hP, rfl, { haway with holds := haway.holds.of_sim (how ▸ hs) }⟩

/-- A call that leaves the heap alone, on bytes. -/
theorem spared_of_wp (h : Inside L S I σ m.view) {p : Kernel Unit}
    (hwp : p.wp (σ.owners.cells L) m.view σ.globals (Returned L S I σ.owners)
      (Left L S I σ.owners)) :
    Prog.Post E (BackFrom L S I σ.owners X m) (GoneFrom L S I σ.owners X m) (p.run m σ.globals) :=
  spared_of_cells h.holds.tiled hwp

/-- A step of the abstract machine that changes the owners of the heap. -/
theorem change (h : Inside L S I σ v) (hI : Kept L I) (hs : Step L σ τ) (hholds : Holds L τ v')
    (hcur : τ.current = σ.current) (hmoving : τ.abs.moving = σ.abs.moving)
    (hready : σ.abs.ready ⊆ τ.abs.ready) (hthreads : σ.owners.threads ⊆ τ.owners.threads)
    (hcont : ∀ t ∈ τ.owners.tcbs L, τ.abs.cont t ≠ .fresh →
      t ∈ σ.owners.tcbs L ∧ τ.abs.cont t = σ.abs.cont t) (hstatus : τ.status = σ.status)
    (hcontext : τ.globals.kCurrentContext = σ.globals.kCurrentContext)
    (hmode : spp τ.globals.sstatus = τ.mode τ.current) (hresuming : τ.resuming = σ.resuming)
    (hhandles : τ.globals.handles = τ.owners.handles σ.globals.handles.flush) :
    Inside L S I τ v' where
  holds := hholds
  running := ⟨by rw [hmoving, hcur, h.running.moving], by rw [hcontext, hcur, h.running.context],
    hstatus.trans h.running.status, hmode⟩
  resuming := hresuming.trans h.resuming
  saved t ht hne hfresh := by
    obtain ⟨ht', heq⟩ := hcont t ht hfresh
    rw [heq] at hfresh ⊢
    exact h.saved t ht' (hcur ▸ hne) hfresh
  handles := by
    rw [hhandles]
    rfl
  awake := by
    have hflush : τ.globals.handles.flush = σ.globals.handles.flush := by
      rw [hhandles]
      rfl
    intro hf
    rw [hflush] at hf ⊢
    obtain ⟨h1, h2⟩ := h.awake hf
    rw [hmoving]
    exact ⟨hthreads h1, List.append_subset.mpr ⟨List.subset_append_left _ _,
      List.Subset.trans hready (List.subset_append_right _ _)⟩ h2⟩
  inv := hI σ τ hs h.inv

/-- Other blocks of user code. -/
theorem retile (h : Inside L S I σ v) (hI : Kept L I) {W : Owners} {x : Nat}
    (hW : SameThreads σ.owners W) (hholds : Holds L (σ.heap W x) v') :
    Inside L S I (σ.retile W x) v' := by
  have hholds' : Holds L (σ.retile W x) v' :=
    Holds.on (g := { (σ.heap W x).globals with handles := W.handles σ.globals.handles.flush }) hholds
      ⟨rfl, rfl, rfl, rfl⟩
  refine h.change hI (.retile h.valid h.resuming x hW) hholds' rfl rfl (List.Subset.refl _) ?_
    (fun t ht _ => ⟨?_, rfl⟩) rfl rfl h.running.mode rfl rfl
  · exact hW.threads ▸ List.Subset.refl _
  · exact (hW.tcbs L).1 ▸ ht

theorem run_return (h : Inside L S I σ m.view) :
    ecallReturn.run m σ.globals = .done () m (σ.returned (m.field σ.current Field.a0)).globals := by
  have hpos : σ.globals.kCurrentContext ≠ 0 := by
    rw [h.running.context]
    exact (h.holds.current_pos h.running).ne'
  rw [ecallReturn, run_of_run run_globals, run_of_run (run_rd hpos), run_log]
  have hread : m.field σ.globals.kCurrentContext Field.a0 = m.field σ.current Field.a0 := by
    rw [h.running.context]
  rw [hread]
  rfl

theorem returned (h : Inside L S I σ v) (hI : Kept L I) (a0 : Nat) :
    Inside L S I (σ.returned a0) v :=
  h.step hI (.returned h.valid h.resuming _) (h.holds.log _) rfl rfl rfl (List.Subset.refl _)
    rfl rfl rfl h.running.mode rfl rfl

/-- The end of a system call whose result is `x`. -/
theorem post_setA0_of (h : Inside L S I σ m.view) (hI : Kept L I) (x : Nat)
    {Q : Unit → Mem → Globals → Prop} {T : Switch → Kernel Unit → Mem → Globals → Prop}
    (hQ : ∀ m', Inside L S I (σ.returned (u64 x)) m'.view → σ.owners.Spares L m m' →
      m'.field σ.current Field.a0 = u64 x → Q () m' (σ.returned (u64 x)).globals) :
    Prog.Post E Q T ((Os1Kernel.setA0 x >>= fun _ => ecallReturn).run m σ.globals) := by
  have hctx := h.running.context
  have hmem : σ.globals.kCurrentContext ∈ σ.owners.tcbs L := by
    rw [hctx]
    exact h.holds.current_mem h.running
  have hpos : σ.globals.kCurrentContext ≠ 0 := (h.holds.tiled.tcb_inside hmem).1.ne'
  have hin : Inside L S I σ (m.assign σ.globals.kCurrentContext Field.a0 x).view :=
    { h with holds := h.holds.assign_a0 hmem x }
  have hspares : σ.owners.Spares L m (m.assign σ.globals.kCurrentContext Field.a0 x) :=
    h.holds.tiled.spares_of_cells (Frame.assign (Owners.cells_tcb hmem rfl) m x)
  refine @post_of_run _ _ _ _ () _ (m.assign σ.globals.kCurrentContext Field.a0 x) _ σ.globals _ _ _ ?_ ?_
  · rw [Os1Kernel.setA0, run_of_run run_globals, run_wr hpos]
  · have ha0 : (m.assign σ.globals.kCurrentContext Field.a0 x).field σ.current Field.a0 = u64 x := by
      rw [hctx, field_assign_same]
      rfl
    rw [hin.run_return, Prog.post_done, ha0]
    exact hQ _ (hin.returned hI _) hspares ha0

theorem spared_return (h : Inside L S I σ m.view) (hI : Kept L I) :
    Prog.Post E (BackFrom L S I σ.owners X m) (GoneFrom L S I σ.owners X m)
      (ecallReturn.run m σ.globals) :=
  h.spared_of_wp (h.wp_return hI)

/-- The result of a system call, at its end. -/
theorem spared_setA0 (h : Inside L S I σ m.view) (hI : Kept L I) (x : Nat) :
    Prog.Post E (BackFrom L S I σ.owners X m) (GoneFrom L S I σ.owners X m)
      ((Os1Kernel.setA0 x >>= fun _ => ecallReturn).run m σ.globals) :=
  h.spared_of_wp (h.wp_setA0 fun _ h' => h'.wp_return hI)

theorem retile_globals {W : Owners} {x : Nat} {r : Handles}
    (h : r = W.handles σ.globals.handles.flush) :
    (σ.retile W x).globals = { σ.globals with fbHead := x, handles := r } := by
  rw [h]
  rfl

theorem memAllocCall_eq (p0 : Nat) : (memAllocCall p0 >>= fun _ => ecallReturn) =
    (MemoryAllocator.alloc p0 >>= fun address =>
      (if address ≠ 0 ∧ u32 p0 ≠ 0 then
        record fun h => { h with blocks := (address, u32 p0) :: h.blocks }
      else pure ()) >>= fun _ => Os1Kernel.setA0 address >>= fun _ => ecallReturn) := by
  rw [memAllocCall, bind_assoc]
  refine bind_congr fun address => ?_
  split <;> rfl

/-- The owners after `mem_alloc` has returned `a`. -/
def allocated (W : Owners) (ts : List Tile) (a n : Nat) : Owners :=
  W.withBlocks ts ((if a ≠ 0 ∧ u32 n ≠ 0 then [(a, u32 n)] else []) ++ W.blocks)

theorem post_memAlloc_of (h : Inside L S I σ m.view) (hI : Kept L I) (p0 : Nat)
    {Q : Unit → Mem → Globals → Prop} {T : Switch → Kernel Unit → Mem → Globals → Prop}
    (hQ : ∀ a x ts m', (a = 0 ∧ Tiling.alloc (u32 p0) σ.owners.tiles = none ∨
        ∃ i, a = L.heap.addr i ∧ Tiling.alloc (u32 p0) σ.owners.tiles = some (i, ts)) →
      Inside L S I ((σ.retile (allocated σ.owners ts a p0) x).returned a) m'.view →
      σ.owners.Spares L m m' → m'.field σ.current Field.a0 = a →
      Q () m' ((σ.retile (allocated σ.owners ts a p0) x).returned a).globals) :
    Prog.Post E Q T ((memAllocCall p0 >>= fun _ => ecallReturn).run m σ.globals) := by
  obtain ⟨a, m', x, ts, hrun, -, hcase, hH⟩ := h.holds.alloc p0
  have hlt : a < 2 ^ 64 := by
    rcases hcase with ⟨rfl, -⟩ | ⟨i, rfl, halloc⟩
    · decide
    · exact L.heap.addr_lt_of_alloc h.holds.heap.valid halloc
  have hin := h.retile hI (.withBlocks _ _ _) hH
  rw [memAllocCall_eq]
  refine post_of_run hrun ?_
  have hword : u64 a = a := Nat.mod_eq_of_lt hlt
  have hret := hin.post_setA0_of (E := E) (Q := Q) (T := T) hI a
  rw [hword] at hret
  replace hret := hret fun m'' hτ hs ha => hQ a x ts m'' hcase hτ (fun y hy =>
    (hs y (hy.blocks ts (List.subset_append_right _ _))).trans (h.holds.alloc_spares hrun y hy)) ha
  split
  · rename_i hpos
    refine post_of_run run_record ?_
    rw [if_pos hpos] at hret
    rwa [retile_globals (r := { σ.globals.handles with
      blocks := (a, u32 p0) :: σ.globals.handles.blocks }) (by rw [h.handles]; rfl)] at hret
  · rename_i hpos
    refine post_of_run (r := ()) rfl ?_
    rw [if_neg hpos] at hret
    rwa [retile_globals (r := σ.globals.handles) (by rw [h.handles]; rfl)] at hret

theorem spared_memAlloc (h : Inside L S I σ m.view) (hI : Kept L I) (p0 : Nat) :
    Prog.Post E (BackFrom L S I σ.owners X m) (GoneFrom L S I σ.owners X m)
      ((memAllocCall p0 >>= fun _ => ecallReturn).run m σ.globals) :=
  h.post_memAlloc_of hI p0 fun _ _ _ _ _ hin hs _ => ⟨_, rfl, hin, hs.spared⟩

theorem memFreeCall_eq (p0 : Nat) : (memFreeCall p0 >>= fun _ => ecallReturn) =
    (MemoryAllocator.free p0 >>= fun code =>
      record (fun h => { h with blocks := h.blocks.filter fun t => t.1 ≠ p0 }) >>= fun _ =>
        Os1Kernel.setA0 (signExtend code) >>= fun _ => ecallReturn) := by
  simp only [memFreeCall, bind_assoc]

/-- An address where no allocation starts is not that of a block. -/
theorem filter_unused {W : Owners} (hW : W.Tiled L) {a : Nat} (ha : W.Unused L a) :
    (W.blocks.filter fun t => t.1 ≠ a) = W.blocks := by
  refine List.filter_eq_self.mpr fun r hr => ?_
  have hne : r.1 ≠ a := by
    obtain ⟨i, -, heq, -⟩ := hW.aligned (Owners.Tiled.mem_block hr)
    rcases ha with rfl | hal | ⟨-, hno⟩
    · rw [heq]
      exact L.heap.addr_ne_zero i
    · rintro rfl
      exact hal (heq ▸ L.heap.addr_aligned i)
    · exact hno r (Owners.Tiled.mem_block hr)
  simpa using hne

theorem spared_memFree (h : Inside L S I σ m.view) (hI : Kept L I) {p0 : Nat}
    (hp : σ.owners.Freeable L p0) : Prog.Post E (BackFrom L S I σ.owners X m)
      (GoneFrom L S I σ.owners X m) ((memFreeCall p0 >>= fun _ => ecallReturn).run m σ.globals) := by
  rw [memFreeCall_eq]
  rcases hp with ⟨n, hn⟩ | hp
  · obtain ⟨m', x, ts, hrun, -, hH⟩ := h.holds.free hn
    have hret := (h.retile hI (.withBlocks _ _ _) hH).post_setA0_of (E := E)
      (Q := BackFrom L S I σ.owners X m) (T := GoneFrom L S I σ.owners X m) hI (signExtend memSuccess)
      fun m'' hin hs _ => ⟨_, rfl, hin, fun y _ hy _ => (hs y hy).trans
        (h.holds.free_spares (.inl ⟨n, hn⟩) ts hrun y hy)⟩
    refine post_of_run hrun (post_of_run run_record ?_)
    rwa [retile_globals (r := { σ.globals.handles with
      blocks := σ.globals.handles.blocks.filter fun t => t.1 ≠ p0 }) (by rw [h.handles]; rfl)] at hret
  · obtain ⟨r, m', -, hrun, -, hH⟩ := h.holds.free_unused hp
    have hin : Inside L S I σ m'.view := { h with holds := hH }
    have hf := filter_unused h.holds.tiled hp
    have hret := hin.post_setA0_of (E := E) (Q := BackFrom L S I σ.owners X m)
      (T := GoneFrom L S I σ.owners X m) hI (signExtend r) fun m'' hin hs _ =>
        ⟨_, rfl, hin, fun y hy _ _ => (hs y hy).trans
          (h.holds.free_spares (.inr hp) σ.owners.tiles hrun y (by rwa [hf]))⟩
    refine post_of_run hrun (post_of_run run_record ?_)
    have heq : { σ.globals.handles with
        blocks := σ.globals.handles.blocks.filter fun t => t.1 ≠ p0 } = σ.globals.handles := by
      rw [h.handles]
      simp only [Owners.handles]
      rw [hf]
    rw [heq]
    exact hret

/-! ### Writes to blocks -/

end Inside

/-- One object is apart from itself. -/
theorem Obj.separate_one {B : HeapBounds} {o : Obj} (h : 0 < (o.region B).1) :
    Separate (Obj.own B (· = o)) :=
  Obj.separate (fun _ _ h h' hne => absurd (h.trans h'.symm) hne) fun _ h' => h' ▸ h

/-- Writes to one object. -/
theorem Obj.frame_one {B : HeapBounds} {o : Obj} {m m' : Mem} (h : Frame (Obj.own B (· = o)) m m')
    {x : Nat} (hx : x < (o.region B).1 ∨ (o.region B).1 + (o.region B).2 ≤ x) : m' x = m x := by
  refine h x fun a f ⟨o', ho, hc⟩ => ?_
  subst ho
  have hb := Obj.cells_bounds hc
  omega

theorem initializeSem_returns {s value : Nat} (hs : s ≠ 0) (hv : value < 2 ^ 32) (m : Mem)
    (g : Globals) : ∃ m', (Sem.initializeSem s value).run m g =
        .done () m' { g with trace := g.trace ++ [.initialized s value] } ∧
      (∀ x, x < s ∨ s + 24 ≤ x → m' x = m x) ∧ m'.view s Field.value = value ∧
      m'.view (s + 8) Field.head = 0 ∧ m'.view (s + 8) Field.tail = 0 := by
  have hown : ∀ {a : Nat} {f : Field}, (a = s ∧ f = .value ∨ a = s + 8 ∧ f.ofList = true) →
      Obj.own smallHeap (· = .sem s) a f := fun h => ⟨_, rfl, h⟩
  have hwp : (Sem.initializeSem s value).wp (Obj.own smallHeap (· = .sem s)) m.view g
      (fun _ v g' => g' = { g with trace := g.trace ++ [.initialized s value] } ∧
        v s .value = value ∧ v (s + 8) .head = 0 ∧ v (s + 8) .tail = 0)
      fun _ _ _ _ => False := by
    simp only [Sem.initializeSem, ListTCB.initializeList, Sem.suspendedTcbs, Prog.wp_bind, wp_wr, wp_log]
    refine ⟨hown (.inl ⟨rfl, rfl⟩), hown (.inr ⟨rfl, rfl⟩), hown (.inr ⟨rfl, rfl⟩), trivial, ?_, ?_, ?_⟩
    · rw [View.set_field_ne (by decide), View.set_field_ne (by decide), View.set_same]
      exact Nat.mod_eq_of_lt hv
    · rw [View.set_field_ne (by decide), View.set_same]
      rfl
    · rw [View.set_same]
      rfl
  obtain ⟨_, m', g', v', hrun, hsim, hframe, rfl, h1, h2, h3⟩ := Prog.returns
    (Obj.separate_one (o := .sem s) (Nat.pos_of_ne_zero hs)) (Sim.self _ m) hwp
  refine ⟨m', hrun, fun x hx => Obj.frame_one hframe hx, ?_, ?_, ?_⟩
  · exact (hsim _ _ (hown (.inl ⟨rfl, rfl⟩))).trans h1
  · exact (hsim _ _ (hown (.inr ⟨rfl, rfl⟩))).trans h2
  · exact (hsim _ _ (hown (.inr ⟨rfl, rfl⟩))).trans h3

namespace Inside

variable {L : Layout} {S : Nat → Option (Kernel Unit)} {I : Spec → Prop} {σ τ : Spec} {v v' : Cells}
  {m : Mem} {E : Fault → Prop}

/-! ### Semaphores of user code -/

/-- A word of user code is written and read back. -/
theorem post_handle {α : Type} {p x : Nat} {q : Nat → Kernel α} {Q : α → Mem → Globals → Prop}
    {T : Switch → Kernel α → Mem → Globals → Prop} {g : Globals} (hp : p ≠ 0) (hx : x < 2 ^ 64)
    (h : Prog.Post E Q T ((q x).run (m.assign p Field.handle x) g)) :
    Prog.Post E Q T ((wr p .handle x >>= fun _ => rd p .handle >>= q).run m g) := by
  refine post_of_run (run_wr hp) (post_of_run (run_rd hp) ?_)
  have hread : (m.assign p Field.handle x).field p Field.handle = x := by
    rw [Mem.field, Mem.assign, load_store_same]
    exact Nat.mod_eq_of_lt hx
  rwa [hread]

theorem holds_assign {p x : Nat} (h : Holds L σ m.view)
    (hp : ∀ y, p ≤ y → y < p + 8 → σ.owners.User L y) :
    Holds L σ (m.assign p Field.handle x).view := by
  refine h.of_user fun y hy => ?_
  have hout : y < p ∨ p + 8 ≤ y := by
    by_contra hin
    exact hy (hp y (by omega) (by omega))
  exact store_outside hout

/-- What is left of `sem_open` when the block of the semaphore is known. -/
theorem semOpenCall_eq {p0 p1 : Nat} (hp : p0 ≠ 0) : (semOpenCall p0 p1 >>= fun _ => ecallReturn) =
    (MemoryAllocator.alloc (toBlocks sizeofSem) >>= fun s =>
      Sem.initializeSem s (u32 p1) >>= fun _ => wr p0 .handle s >>= fun _ =>
        rd p0 .handle >>= fun x =>
          if x ≠ 0 then rd p0 .handle >>= fun sem =>
            record (fun h => { h with sems := sem :: h.sems }) >>= fun _ =>
              Os1Kernel.setA0 (signExtend successSyscall) >>= fun _ => ecallReturn
          else ecallReturn) := by
  rw [semOpenCall, if_pos hp, Sem.createSem]
  simp only [bind_assoc, pure_bind]
  refine bind_congr fun s => bind_congr fun _ => bind_congr fun _ => bind_congr fun x => ?_
  split
  · simp only [bind_assoc]
  · rfl

theorem initializeSem_null (value : Nat) (m : Mem) (g : Globals) :
    (Sem.initializeSem 0 value).run m g = .fault .nullPointer := rfl

theorem spared_semOpen (h : Inside L S I σ m.view) (hI : Kept L I) (hE : E .nullPointer) {p0 p1 : Nat}
    (hp : p0 = 0 ∨ ∀ y, p0 ≤ y → y < p0 + 8 → σ.owners.User L y)
    (hX : ∀ y, p0 ≤ y → y < p0 + 8 → X y) :
    Prog.Post E (BackFrom L S I σ.owners X m) (GoneFrom L S I σ.owners X m)
      ((semOpenCall p0 p1 >>= fun _ => ecallReturn).run m σ.globals) := by
  by_cases h0 : p0 = 0
  · rw [semOpenCall, if_neg (not_not.mpr h0)]
    exact h.spared_return hI
  have huser := hp.resolve_left h0
  rw [semOpenCall_eq h0]
  obtain ⟨s, m₁, x, ts, hrun, -, -, hH⟩ := h.holds.alloc (toBlocks sizeofSem)
  refine post_of_run hrun ?_
  by_cases hs : s = 0
  · refine Prog.post_bind ?_
    rw [hs, initializeSem_null, Prog.post_fault]
    exact hE
  have hone : u32 (toBlocks sizeofSem) = toBlocks sizeofSem ∧ toBlocks sizeofSem ≠ 0 ∧
      24 ≤ 64 * toBlocks sizeofSem ∧ toBlocks sizeofSem ≠ toBlocks defaultStackSize := by decide
  rw [if_pos ⟨hs, hone.1 ▸ hone.2.1⟩, hone.1] at hH
  obtain ⟨m₂, hrun₂, hframe, h1, h2, h3⟩ := initializeSem_returns hs (u32_lt p1) m₁
    { σ.globals with fbHead := x }
  refine post_of_run hrun₂ ?_
  have hblock : (s, toBlocks sizeofSem) ∈
      (σ.owners.withBlocks ts ([(s, toBlocks sizeofSem)] ++ σ.owners.blocks)).blocks :=
    List.mem_cons_self
  have hH₂ : Holds L (σ.heap _ x) m₂.view := hH.of_user fun y hy => hframe y (by
    by_contra hin
    exact hy (.inl ⟨_, hblock, by simp only; omega, by simp only; omega⟩))
  have hH₃ := hH₂.addSem (s := s) (.refl _) (u32_lt p1) h1 h2 h3
  have hH₄ := (holds_assign (x := s) hH₃ huser).log (.initialized s (u32 p1))
  have hlt : s < 2 ^ 64 := by
    have hin := hH.tiled.inside (Owners.Tiled.mem_block hblock)
    have hend := L.heap.spec.base_end
    have hstop := L.heap.stop_lt
    simp only at hin
    omega
  have hnew : s ∉ σ.owners.semaphores L := hH.tiled.block_not_sem hblock
  let W := (σ.owners.withBlocks ts ([(s, toBlocks sizeofSem)] ++ σ.owners.blocks)).addSem s
    σ.owners.blocks
  have hfinal : Holds L (σ.openSem s (u32 p1) W x) (m₂.assign p0 Field.handle s).view :=
    Holds.on (g := (σ.openSem s (u32 p1) W x).globals) hH₄ ⟨rfl, rfl, rfl, rfl⟩
  have hin : Inside L S I (σ.openSem s (u32 p1) W x) (m₂.assign p0 Field.handle s).view :=
    h.change hI (.openSem h.valid h.resuming x (u32_lt p1) hnew ⟨rfl, rfl, rfl, rfl, rfl, rfl⟩) hfinal
      rfl rfl (List.Subset.refl _) (List.Subset.refl _) (fun t ht _ => ⟨ht, rfl⟩) rfl rfl
      h.running.mode rfl rfl
  refine post_handle h0 hlt ?_
  rw [if_pos hs]
  have hread : (m₂.assign p0 Field.handle s).field p0 Field.handle = s := by
    rw [Mem.field, Mem.assign, load_store_same]
    exact Nat.mod_eq_of_lt hlt
  refine post_of_run (run_rd h0) (post_of_run run_record ?_)
  rw [hread]
  have hspares {y : Nat} (hy : σ.owners.Quiet L y) (hy' : W.Quiet L y) (hout : ¬X y) :
      (m₂.assign p0 Field.handle s) y = m y := by
    have hout₀ : y < p0 ∨ p0 + 8 ≤ y := by
      by_contra hin
      exact hout (hX y (by omega) (by omega))
    have hout₁ : y < s ∨ s + 24 ≤ y := by
      have hno := hfinal.tiled.quiet_not_in (r := (s, toBlocks sizeofSem)) (List.mem_append_right _
        List.mem_cons_self) hone.2.2.2 hy'
      unfold Owners.In at hno
      omega
    calc (m₂.assign p0 Field.handle s) y = m₂ y := store_outside hout₀
      _ = m₁ y := hframe y hout₁
      _ = m y := h.holds.alloc_spares hrun y hy
  have hret := hin.post_setA0_of (E := E) (Q := BackFrom L S I σ.owners X m)
    (T := GoneFrom L S I σ.owners X m) hI (signExtend successSyscall) fun m' hin' hs _ =>
      ⟨_, rfl, hin', fun y hy hy' hout => (hs y hy').trans (hspares hy hy' hout)⟩
  have hg : (σ.openSem s (u32 p1) W x).globals = { σ.globals with
      fbHead := x
      trace := σ.globals.trace ++ [.initialized s (u32 p1)]
      handles := { σ.globals.handles with sems := s :: σ.globals.handles.sems } } := by
    rw [h.handles]
    rfl
  rwa [hg] at hret

theorem releaseAll_same (σ : Spec) (s : Nat) (xs : List Nat) :
    (σ.releaseAll s xs).owners = σ.owners ∧ (σ.releaseAll s xs).abs.moving = σ.abs.moving ∧
    σ.abs.ready ⊆ (σ.releaseAll s xs).abs.ready ∧ (σ.releaseAll s xs).abs.cont = σ.abs.cont ∧
    (σ.releaseAll s xs).status = σ.status ∧ (σ.releaseAll s xs).mode = σ.mode ∧
    (σ.releaseAll s xs).resuming = σ.resuming ∧
    ∃ trace, (σ.releaseAll s xs).globals = { σ.globals with trace } := by
  induction xs generalizing σ with
  | nil => exact ⟨rfl, rfl, List.Subset.refl _, rfl, rfl, rfl, rfl, _, rfl⟩
  | cons t R ih =>
    obtain ⟨h1, h2, h3, h4, h5, h6, h7, trace, hg⟩ := ih (σ.release s t R true)
    exact ⟨h1, h2, List.Subset.trans (List.subset_append_left _ _) h3, h4, h5, h6, h7, trace, hg⟩

theorem releaseAll_waiting (σ : Spec) (s : Nat) {xs : List Nat} (h : σ.abs.waiting s = xs) :
    (σ.releaseAll s xs).abs.waiting s = [] := by
  induction xs generalizing σ with
  | nil => exact h
  | cons t R ih =>
    refine ih (σ.release s t R true) ?_
    exact Function.update_self (β := fun _ => List Nat) ..

theorem semCloseCall_eq {p0 : Nat} (hp : p0 ≠ 0) :
    (semCloseCall L p0 >>= fun _ => ecallReturn) =
    (Sem.close L p0 >>= fun code =>
      record (fun h => { h with sems := h.sems.filter (· ≠ p0) }) >>= fun _ =>
        MemoryAllocator.free p0 >>= fun r => log (.freed p0 r) >>= fun _ =>
          if r = memSuccess then Os1Kernel.setA0 (signExtend code) >>= fun _ => ecallReturn
          else ecallReturn) := by
  rw [semCloseCall, if_pos hp]
  simp only [Sem.freeSem, bind_assoc, pure_bind]
  refine bind_congr fun _ => bind_congr fun _ => bind_congr fun _ => bind_congr fun _ => ?_
  split <;> rfl

/-- A semaphore that suspends no thread is freed. -/
theorem holds_freeSem {s : Nat} (h : Holds L σ m.view) (hs : s ∈ σ.owners.sems)
    (hnil : σ.abs.waiting s = []) (u : Handles) : ∃ m' x ts,
      (MemoryAllocator.free s).run m { σ.globals with handles := u } =
        .done memSuccess m' { σ.globals with handles := u, fbHead := x } ∧
      ((σ.owners.dropSem s).withBlocks ts σ.owners.blocks).Spares L m m' ∧
      Holds L (σ.heap ((σ.owners.dropSem s).withBlocks ts σ.owners.blocks) x) m'.view := by
  have hH : Holds L ((σ.dropSem s).on { σ.globals with handles := u }) m.view :=
    (h.dropSem hs hnil).on ⟨rfl, rfl, rfl, rfl⟩
  have hblock : (s, toBlocks sizeofSem) ∈ (σ.owners.dropSem s).blocks := List.mem_cons_self
  obtain ⟨m', x, ts, hrun, -, hH'⟩ := hH.free hblock
  have hspares := hH.free_spares (.inl ⟨_, hblock⟩) ts hrun
  have hf := hH.tiled.filter_cons (a := s) (n := toBlocks sizeofSem) rfl
  have hblocks : ((σ.dropSem s).on { σ.globals with handles := u }).owners.blocks =
      (σ.owners.dropSem s).blocks := rfl
  rw [hf] at hH' hspares
  exact ⟨m', x, ts, hrun, hspares, hH'.on (g := { σ.globals with fbHead := x }) ⟨rfl, rfl, rfl, rfl⟩⟩

/-- `sem_close`, once no thread is suspended. -/
theorem inside_closeSem {s x : Nat} {W : Owners} {τ : Spec} (h : Inside L S I σ m.view) (hI : Kept L I)
    (hs : s ∈ σ.owners.sems)
    (hW : SameThreads { σ.owners with sems := σ.owners.sems.filter (· ≠ s) } W)
    (hτ : σ.releaseAll s (σ.abs.waiting s) = τ) {m' : Mem}
    (hm : Holds L (τ.heap W x) m'.view) : Inside L S I (σ.closeSem s W x) m'.view := by
  obtain ⟨how, hmoving, hready, hcont, hstatus, hmode, hresuming, trace, hg⟩ :=
    releaseAll_same σ s (σ.abs.waiting s)
  rw [hτ] at how hmoving hready hcont hstatus hmode hresuming hg
  have hfinal : Holds L (σ.closeSem s W x) m'.view := by
    have hlog := Holds.on (g := (σ.closeSem s W x).globals) hm ?_
    · unfold Spec.closeSem at hlog ⊢
      rw [hτ] at hlog ⊢
      exact hlog
    · unfold Spec.closeSem
      rw [hτ]
      exact ⟨rfl, rfl, rfl, rfl⟩
  refine h.change hI (.closeSem h.valid h.resuming x hs hW) hfinal ?_ ?_ ?_ ?_ ?_ ?_ ?_ ?_ ?_ ?_ <;>
    unfold Spec.closeSem <;> rw [hτ]
  · exact (congrArg Globals.currentTcb hg :)
  · exact hmoving
  · exact hready
  · exact hW.threads ▸ List.Subset.refl _
  · intro t ht _
    refine ⟨?_, congrFun hcont t⟩
    have htcbs := (hW.tcbs L).1
    change t ∈ W.tcbs L at ht
    rw [htcbs] at ht
    exact ht
  · exact hstatus
  · exact (congrArg Globals.kCurrentContext hg :)
  · change spp τ.globals.sstatus = τ.mode τ.globals.currentTcb
    rw [hmode, hg]
    exact h.running.mode
  · exact hresuming
  · change W.handles τ.globals.handles.flush = W.handles σ.globals.handles.flush
    rw [hg]

theorem spared_semClose (h : Inside L S I σ m.view) (hI : Kept L I) {p0 : Nat}
    (hp : p0 = 0 ∨ p0 ∈ σ.owners.sems) : Prog.Post E (BackFrom L S I σ.owners X m)
      (GoneFrom L S I σ.owners X m) ((semCloseCall L p0 >>= fun _ => ecallReturn).run m σ.globals) := by
  by_cases h0 : p0 = 0
  · rw [semCloseCall, if_neg (not_not.mpr h0)]
    exact h.spared_return hI
  have hs := hp.resolve_left h0
  rw [semCloseCall_eq h0]
  refine Prog.post_bind (Prog.post_of_wp h.holds.tiled.separate
    (h.holds.wp_close (mem_sems hs) fun v₁ hv₁ m₁ hsim hframe => ?_))
  obtain ⟨how, -, -, -, -, -, -, trace, hg⟩ := releaseAll_same σ p0 (σ.abs.waiting p0)
  have hnil := releaseAll_waiting σ p0 rfl
  obtain ⟨τ, hτ⟩ : ∃ τ, σ.releaseAll p0 (σ.abs.waiting p0) = τ := ⟨_, rfl⟩
  rw [hτ] at hv₁ how hg hnil ⊢
  have hH₁ : Holds L τ m₁.view := hv₁.of_sim (how ▸ hsim)
  refine post_of_run run_record ?_
  obtain ⟨m₂, x, ts, hrun, hspares₂, hH₂⟩ := holds_freeSem hH₁ (how ▸ hs) hnil
    { τ.globals.handles with sems := τ.globals.handles.sems.filter (· ≠ p0) }
  refine post_of_run hrun (post_of_run run_log ?_)
  rw [if_pos rfl]
  rw [how] at hH₂ hspares₂
  have hin := h.inside_closeSem (W := (σ.owners.dropSem p0).withBlocks ts σ.owners.blocks) hI hs
    ⟨rfl, rfl, rfl, rfl, rfl, rfl⟩ hτ hH₂
  have hspares {y : Nat} (hy : σ.owners.Quiet L y)
      (hy' : ((σ.owners.dropSem p0).withBlocks ts σ.owners.blocks).Quiet L y) : m₂ y = m y :=
    (hspares₂ y hy').trans (h.holds.tiled.spares_of_cells hframe y hy)
  have hret := hin.post_setA0_of (E := E) (Q := BackFrom L S I σ.owners X m)
    (T := GoneFrom L S I σ.owners X m) hI (signExtend Sem.closeSuccess) fun m' hin' hs _ =>
      ⟨_, rfl, hin', fun y hy hy' _ => (hs y hy').trans (hspares hy hy')⟩
  have heq : (σ.closeSem p0 ((σ.owners.dropSem p0).withBlocks ts σ.owners.blocks) x).globals =
      { τ.globals with
        fbHead := x
        trace := τ.globals.trace ++ [.freed p0 memSuccess]
        handles := { τ.globals.handles with
          sems := τ.globals.handles.sems.filter (· ≠ p0) } } := by
    unfold Spec.closeSem
    rw [hτ]
    have hh : τ.globals.handles = σ.owners.handles σ.globals.handles.flush := by
      rw [hg]
      exact h.handles
    rw [hh]
    simp only [Spec.log, Spec.on, Spec.retile, hh]
    rfl
  rwa [heq] at hret

end Inside

/-! ### `free_tcb` -/

namespace Owners

variable {L : Layout} {W : Owners} {a b : Nat} {ts : List Tile}

/-- The allocations are blocks of user code, or have a block apart from theirs. -/
theorem mem_used {r : Nat × Nat} : r ∈ W.used ↔ (r = (W.mainStack, toBlocks defaultStackSize) ∨
    (∃ t ∈ W.threads, r ∈ W.ofThread t) ∨ ∃ s ∈ W.sems, r = (s, toBlocks sizeofSem)) ∨
      r ∈ W.blocks := by
  simp only [used, List.mem_cons, List.mem_append, List.mem_flatMap, List.mem_map, eq_comm (b := r)]
  exact or_assoc.symm

/-- What `free` may get stays so when a block is freed. -/
theorem Freeable.filter (h : W.Freeable L b) (hW : W.Tiled L) :
    (W.withBlocks ts (W.blocks.filter fun t => t.1 ≠ a)).Freeable L b := by
  have hused {r : Nat × Nat} (hr : r ∈ (W.withBlocks ts (W.blocks.filter fun t => t.1 ≠ a)).used) :
      r ∈ W.used ∧ ((∃ n, (a, n) ∈ W.blocks) → r.1 ≠ a) := by
    rcases mem_used.mp hr with hr | hr
    · exact ⟨mem_used.mpr (.inl hr), fun ⟨n, hn⟩ => hW.block_ne hn hr⟩
    · obtain ⟨hr, hne⟩ := List.mem_filter.mp hr
      exact ⟨mem_used.mpr (.inr hr), fun _ => by simpa using hne⟩
  rcases h with ⟨n, hn⟩ | hu
  · by_cases heq : b = a
    · subst heq
      obtain ⟨i, hi, heq, -⟩ := hW.aligned (Tiled.mem_block hn)
      exact .inr (.inr (.inr ⟨⟨i, hi, heq⟩, fun r hr => (hused hr).2 ⟨n, hn⟩⟩))
    · exact .inl ⟨n, List.mem_filter.mpr ⟨hn, by simpa using heq⟩⟩
  · exact .inr (hu.imp_right (Or.imp_right (And.imp_right fun hno r hr => hno r (hused hr).1)))

end Owners

namespace Holds

variable {L : Layout} {σ : Spec} {m m' : Mem} {a b t n x : Nat} {f : Field}

/-- `free` of a block, or of an address that it rejects. -/
theorem free_any (h : Holds L σ m.view) (ha : σ.owners.Freeable L a) : ∃ code m' x ts,
    let W := σ.owners.withBlocks ts (σ.owners.blocks.filter fun t => t.1 ≠ a)
    (MemoryAllocator.free a).run m σ.globals = .done code m' { σ.globals with fbHead := x } ∧
    (code = memSuccess ↔ ∃ n, (a, n) ∈ σ.owners.blocks) ∧ W.Keeps L m m' ∧
    Holds L (σ.heap W x) m'.view := by
  rcases ha with ⟨n, hn⟩ | hu
  · obtain ⟨m', x, ts, hrun, hkeeps, hH⟩ := h.free hn
    exact ⟨_, m', x, ts, hrun, by simpa using ⟨n, hn⟩, hkeeps, hH⟩
  · obtain ⟨r, m', hne, hrun, hkeeps, hH⟩ := h.free_unused hu
    have hf := Inside.filter_unused h.tiled hu
    refine ⟨r, m', σ.globals.fbHead, σ.owners.tiles, hrun, ?_, ?_, ?_⟩
    · refine iff_of_false hne fun ⟨n, hn⟩ => ?_
      have hmem : (a, n) ∈ σ.owners.blocks.filter fun t => t.1 ≠ a := by
        rw [hf]
        exact hn
      simpa using (List.mem_filter.mp hmem).2
    · rw [hf]
      exact hkeeps
    · rw [hf]
      exact hH

/-- A field of a block is written. -/
theorem assign_block (h : Holds L σ m.view) (ht : (t, n) ∈ σ.owners.blocks) (hn : 360 ≤ 64 * n)
    (hf : f.ofTcb = true) : Holds L σ (m.assign t f x).view := by
  refine h.of_user fun y hy => store_outside ?_
  have hb := Obj.ofTcb_bounds hf
  by_contra hin
  exact hy (.inl ⟨_, ht, by simp only; omega, by simp only; omega⟩)

/-- One round of `free_tcb`. -/
theorem free_field (h : Holds L σ m.view) (ht : (t, n) ∈ σ.owners.blocks) (hn : 360 ≤ 64 * n)
    (ha : σ.owners.Freeable L a) (hne : a ≠ t) (hf : f.ofTcb = true) : ∃ code m' x ts,
    let W := σ.owners.withBlocks ts (σ.owners.blocks.filter fun t => t.1 ≠ a)
    (∀ {α : Type} (q : Unit → Kernel α), (MemoryAllocator.free a >>= fun code =>
      Os1Kernel.log (.freed a code) >>= fun _ => wr t f 0 >>= q).run m σ.globals =
        (q ()).run m' ((σ.heap W x).log (.freed a code)).globals) ∧
    (code = memSuccess ↔ ∃ n, (a, n) ∈ σ.owners.blocks) ∧
    Holds L ((σ.heap W x).log (.freed a code)) m'.view ∧ (t, n) ∈ W.blocks ∧
    (∀ g : Field, g.ofTcb = true → g ≠ f → m'.field t g = m.field t g) ∧ m'.field t f = 0 ∧
    ∀ y, W.Quiet L y ∨ W.Held L y → y < t ∨ t + 360 ≤ y → m' y = m y := by
  obtain ⟨code, m', x, ts, hrun, hcode, hkeeps, hH⟩ := h.free_any ha
  have ht0 : t ≠ 0 := by
    obtain ⟨i, -, heq, -⟩ := h.tiled.aligned (Owners.Tiled.mem_block ht)
    simp only at heq
    exact heq ▸ L.heap.addr_ne_zero i
  have hmem : (t, n) ∈ (σ.owners.blocks.filter fun t => t.1 ≠ a) :=
    List.mem_filter.mpr ⟨ht, by simpa using hne.symm⟩
  refine ⟨code, m'.assign t f 0, x, ts, fun q => ?_, hcode, ?_, hmem, fun g hg hgf => ?_,
    field_assign_same.trans (Nat.zero_mod _), fun y hy hout => ?_⟩
  · rw [run_of_run hrun, run_of_run run_log, run_of_run (run_wr ht0)]
    rfl
  · exact (hH.log _).assign_block hmem hn hf
  · rw [field_assign_ne hf hg hgf]
    have hb := Obj.ofTcb_bounds hg
    exact hkeeps.field (Owners.Tiled.mem_block hmem) (Nat.le_add_right _ _) (by simp only; omega)
  · have hb := Obj.ofTcb_bounds hf
    refine (store_outside (by omega)).trans ?_
    rcases hy with hy | hy
    · exact h.free_spares ha ts hrun y hy
    · exact hkeeps y hy.byte

theorem freeTcb_eq (ht : t ≠ 0 ∧ t ≠ L.mainTcb) : Os1Kernel.freeTcb L t =
    (rd t .usrStack >>= fun a => MemoryAllocator.free (u64 (a + 2 ^ 64 - defaultStackSize)) >>=
      fun code => Os1Kernel.log (.freed (u64 (a + 2 ^ 64 - defaultStackSize)) code) >>= fun _ =>
        wr t .usrStack 0 >>= fun _ => rd t .sysStack >>= fun k =>
      MemoryAllocator.free k >>= fun code => Os1Kernel.log (.freed k code) >>= fun _ =>
        wr t .sysStack 0 >>= fun _ => rd t .joinSem >>= fun j =>
      MemoryAllocator.free j >>= fun code => Os1Kernel.log (.freed j code) >>= fun _ =>
        wr t .joinSem 0 >>= fun _ =>
      MemoryAllocator.free t >>= fun code => Os1Kernel.log (.freed t code)) := by
  rw [Os1Kernel.freeTcb, if_pos ht]
  simp only [freePart, Sem.freeSem, bind_assoc, pure_bind]

/-- `free_tcb` frees the stacks, the semaphore and the block of a thread, as far as they are blocks. -/
theorem freeTcb {usr k j : Nat} (h : Holds L σ m.view) (ht : (t, n) ∈ σ.owners.blocks)
    (hn : 360 ≤ 64 * n) (husr : σ.owners.Freeable L usr) (hk : σ.owners.Freeable L k)
    (hj : σ.owners.Freeable L j) (hne : usr ≠ t ∧ k ≠ t ∧ j ≠ t)
    (h1 : m.field t Field.usrStack = usr + defaultStackSize)
    (hlt : usr < 2 ^ 64) (h2 : m.field t Field.sysStack = k)
    (h3 : m.field t Field.joinSem = j) : ∃ c₁ c₂ c₃ m' x ts,
    (Os1Kernel.freeTcb L t).run m σ.globals = .done () m' { σ.globals with
      fbHead := x
      trace := σ.globals.trace ++ [.freed usr c₁] ++ [.freed k c₂] ++ [.freed j c₃] ++
        [.freed t memSuccess] } ∧
    (c₁ = memSuccess ↔ ∃ n, (usr, n) ∈ σ.owners.blocks) ∧
    (c₂ = memSuccess ↔ ∃ n, (k, n) ∈ σ.owners.blocks.filter fun t => t.1 ≠ usr) ∧
    (c₃ = memSuccess ↔ ∃ n, (j, n) ∈ (σ.owners.blocks.filter fun t => t.1 ≠ usr).filter
      fun t => t.1 ≠ k) ∧
    let W := σ.owners.withBlocks ts ((((σ.owners.blocks.filter fun t => t.1 ≠ usr).filter
      fun t => t.1 ≠ k).filter fun t => t.1 ≠ j).filter fun u => u.1 ≠ t)
    Holds L (σ.heap W x) m'.view ∧
    (∀ y, W.Quiet L y ∨ W.Held L y → y < t ∨ t + 360 ≤ y → m' y = m y) ∧
    ((∀ y, t + offset Field.joinSem ≤ y → y < t + offset Field.joinSem + size Field.joinSem → W.Quiet L y) →
      m'.field t Field.joinSem = 0) := by
  have ht0 : t ≠ 0 := by
    obtain ⟨i, -, heq, -⟩ := h.tiled.aligned (Owners.Tiled.mem_block ht)
    simp only at heq
    exact heq ▸ L.heap.addr_ne_zero i
  have hmain : t ≠ L.mainTcb := fun heq =>
    h.tiled.block_not_tcb ht (heq ▸ List.mem_cons_self)
  have hu : u64 (usr + defaultStackSize + 2 ^ 64 - defaultStackSize) = usr := by
    unfold u64 defaultStackSize
    omega
  obtain ⟨c₁, m₁, x₁, ts₁, hrun₁, hc₁, hH₁, ht₁, hf₁, -, hs₁⟩ :=
    h.free_field (f := .usrStack) ht hn husr hne.1 rfl
  obtain ⟨c₂, m₂, x₂, ts₂, hrun₂, hc₂, hH₂, ht₂, hf₂, -, hs₂⟩ :=
    hH₁.free_field (f := .sysStack) ht₁ hn (hk.filter h.tiled) hne.2.1 rfl
  obtain ⟨c₃, m₃, x₃, ts₃, hrun₃, hc₃, hH₃, ht₃, -, hzero₃, hs₃⟩ :=
    hH₂.free_field (f := .joinSem) ht₂ hn ((hj.filter h.tiled).filter hH₁.tiled) hne.2.2 rfl
  obtain ⟨m₄, x₄, ts₄, hrun₄, hkeeps₄, hH₄⟩ := hH₃.free ht₃
  have hk₁ : m₁.field t Field.sysStack = k := (hf₁ _ rfl (by decide)).trans h2
  have hj₂ : m₂.field t Field.joinSem = j :=
    ((hf₂ _ rfl (by decide)).trans (hf₁ _ rfl (by decide))).trans h3
  have hspares₄ := hH₃.free_spares (.inl ⟨_, ht₃⟩) ts₄ hrun₄
  refine ⟨c₁, c₂, c₃, m₄, x₄, ts₄, ?_, hc₁, hc₂, hc₃, ?_, fun y hy hout => ?_, fun hword => ?_⟩
  · rw [freeTcb_eq ⟨ht0, hmain⟩, run_of_run (run_rd ht0), h1, hu, hrun₁, run_of_run (run_rd ht0), hk₁,
      hrun₂, run_of_run (run_rd ht0), hj₂, hrun₃, run_of_run hrun₄, run_log]
    rfl
  · exact Holds.on (g := { σ.globals with fbHead := x₄ }) hH₄ ⟨rfl, rfl, rfl, rfl⟩
  · have hy₃ : (σ.owners.withBlocks ts₃ (((σ.owners.blocks.filter fun t => t.1 ≠ usr).filter
      fun t => t.1 ≠ k).filter fun t => t.1 ≠ j)).Quiet L y ∨ σ.owners.Held L y :=
      hy.imp_left Owners.Quiet.filter
    have hy₂ : (σ.owners.withBlocks ts₂ ((σ.owners.blocks.filter fun t => t.1 ≠ usr).filter
      fun t => t.1 ≠ k)).Quiet L y ∨ σ.owners.Held L y := hy₃.imp_left Owners.Quiet.filter
    have hy₁ : (σ.owners.withBlocks ts₁ (σ.owners.blocks.filter fun t => t.1 ≠ usr)).Quiet L y ∨
      σ.owners.Held L y := hy₂.imp_left Owners.Quiet.filter
    have hlast : m₄ y = m₃ y := by
      rcases hy with hy | hy
      · exact hspares₄ y hy
      · exact hkeeps₄ y (Owners.Held.byte (W := σ.owners) hy)
    calc m₄ y = m₃ y := hlast
      _ = m₂ y := hs₃ y hy₃ hout
      _ = m₁ y := hs₂ y hy₂ hout
      _ = m y := hs₁ y hy₁ hout
  · exact (load_congr fun y hy hy' => hspares₄ y (hword y hy hy')).trans hzero₃

end Holds

end Os1Kernel
