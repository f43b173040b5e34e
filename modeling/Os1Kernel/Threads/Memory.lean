import Os1Kernel.Threads.Change

/-! What calls of the allocator, and writes to memory that is not the kernel's, do to a state of the
abstract machine. -/

namespace Os1Kernel

open Memory MemoryAllocator
open Tiling hiding alloc

/-- The allocator's cells lie in the heap. -/
theorem Obj.ofHeap_inside {B : HeapBounds} {ts : List Tile} (hv : Tiling.Valid B.total ts) {o : Obj}
    (ho : Obj.ofHeap B ts o) {a : Nat} {f : Field} (hc : o.cells B a f) :
    B.start ≤ a ∧ a + offset f + size f ≤ B.stop + 1 := by
  have hb := Obj.cells_bounds hc
  have htable := B.spec.table_le_base
  have hend := B.spec.base_end
  cases o with
  | entry i =>
    have := B.entryAddr_lt ho
    simp only [Obj.region] at hb
    refine ⟨le_trans (Nat.le_add_right _ _) hb.1, by omega⟩
  | header i =>
    have hi := ho.lt hv
    simp only [Obj.region, HeapBounds.addr] at hb
    omega
  | tcb _ => exact ho.elim
  | sem _ => exact ho.elim
  | list _ => exact ho.elim

/-! ### Runs of the primitives -/

section Run

variable {m : Mem} {g : Globals} {a x : Nat} {f : Field}

theorem run_globals : globals.run m g = .done g m g := rfl

theorem run_rd (ha : a ≠ 0) : (rd a f).run m g = .done (m.field a f) m g := by
  rw [rd, Prog.run, if_neg ha]
  rfl

theorem run_wr (ha : a ≠ 0) : (wr a f x).run m g = .done () (m.assign a f x) g := by
  rw [wr, Prog.run, if_neg ha]
  rfl

theorem run_modifyGlobals {u : Globals → Globals} : (modifyGlobals u).run m g = .done () m (u g) :=
  rfl

theorem run_log {y : Action} :
    (log y).run m g = .done () m { g with trace := g.trace ++ [y] } := rfl

theorem run_record {u : Handles → Handles} :
    (record u).run m g = .done () m { g with handles := u g.handles } := rfl

end Run

namespace Owners

/-- The byte at `x` is inside of the range `r`, a pair of an address and a number of blocks. -/
def In (x : Nat) (r : Nat × Nat) : Prop := r.1 ≤ x ∧ x < r.1 + 64 * r.2

/-- The bytes below the heap, in allocations, and in blocks where no header lies: the allocator does
not touch them. -/
def Byte (L : Layout) (W : Owners) (x : Nat) : Prop :=
  x < L.heap.start ∨ (∃ r ∈ W.used, In x r) ∨
    L.heap.base ≤ x ∧ sizeofFreeBlocks ≤ (x - L.heap.base) % memBlockSize

/-- The bytes that user code may write, and those of `Scheduler::flush_tcb`. -/
def User (L : Layout) (W : Owners) (x : Nat) : Prop :=
  (∃ r ∈ W.blocks, In x r) ∨ (∃ t ∈ W.threads, In x (W.stack t, toBlocks defaultStackSize)) ∨
    (x < L.heap.start ∨ L.heap.stop < x) ∧
      ((∀ r ∈ L.statics, x < r.1 ∨ r.1 + r.2 ≤ x) ∨ L.flushTcb ≤ x ∧ x < L.flushTcb + 8)

/-- The bytes of static storage, of threads and of semaphores. -/
def Held (L : Layout) (W : Owners) (x : Nat) : Prop :=
  x < L.heap.start ∨ ∃ r ∈ W.threads.flatMap W.ofThread ++ W.sems.map fun s => (s, toBlocks sizeofSem),
    In x r

/-- The bytes of free blocks where no header lies. -/
def Free (L : Layout) (W : Owners) (x : Nat) : Prop :=
  L.heap.base ≤ x ∧ x ≤ L.heap.stop ∧ sizeofFreeBlocks ≤ (x - L.heap.base) % memBlockSize ∧
    ∀ r ∈ W.used, ¬In x r

/-- The bytes that the kernel does not write. -/
def Quiet (L : Layout) (W : Owners) (x : Nat) : Prop := W.User L x ∨ W.Free L x

/-- Memory is the same in these bytes. -/
def Keeps (L : Layout) (W : Owners) (m m' : Mem) : Prop := ∀ x, W.Byte L x → m' x = m x

/-- Memory is the same in the bytes that the kernel does not write. -/
def Spares (L : Layout) (W : Owners) (m m' : Mem) : Prop := ∀ x, W.Quiet L x → m' x = m x

/-- `free` rejects the address: no allocation starts there. -/
def Unused (L : Layout) (W : Owners) (a : Nat) : Prop :=
  a = 0 ∨ a % memBlockSize ≠ 0 ∨ (∃ i < L.heap.total, a = L.heap.addr i) ∧ ∀ r ∈ W.used, r.1 ≠ a

/-- `free` of the address frees a block, or rejects it. -/
def Freeable (L : Layout) (W : Owners) (a : Nat) : Prop :=
  (∃ n, (a, n) ∈ W.blocks) ∨ W.Unused L a

theorem Keeps.trans {L : Layout} {W : Owners} {m m' m'' : Mem} (h : W.Keeps L m m')
    (h' : W.Keeps L m' m'') : W.Keeps L m m'' := fun x hx => (h' x hx).trans (h x hx)

/-- A field of an allocation. -/
theorem Keeps.field {L : Layout} {W : Owners} {m m' : Mem} (h : W.Keeps L m m') {r : Nat × Nat}
    (hr : r ∈ W.used) {a : Nat} {f : Field} (hlow : r.1 ≤ a + offset f)
    (hhigh : a + offset f + size f ≤ r.1 + 64 * r.2) : m'.field a f = m.field a f :=
  load_congr fun x hx hx' => h x (.inr (.inl ⟨r, hr, by omega, by omega⟩))

theorem Spares.mono {L : Layout} {W W' : Owners} {m m' : Mem} (h : W.Spares L m m')
    (hW : ∀ x, W'.Quiet L x → W.Quiet L x) : W'.Spares L m m' := fun x hx => h x (hW x hx)

variable {L : Layout} {W : Owners} {m m' : Mem}

namespace Tiled

/-- The seat of an object of the kernel outside of the allocator: static storage, or an allocation
that is neither a stack nor user code's. -/
theorem cell_seat {o : Obj} (ho : W.objs L o) (he : ∀ i, o ≠ .entry i)
    (hh : ∀ i, o ≠ .header i) {a : Nat} {f : Field} (hc : o.cells L.heap a f) :
    (∃ r ∈ L.statics, r.1 ≤ a + offset f ∧ a + offset f + size f ≤ r.1 + r.2 ∧
      r.1 + r.2 ≤ L.heap.start) ∨
    ∃ r ∈ W.heapSeats.map Prod.snd, r.1 ≤ a + offset f ∧ a + offset f + size f ≤ r.1 + r.2 := by
  have hb := Obj.cells_bounds hc
  obtain ⟨r, hr, h1, h2⟩ := seat_of_objs ho he hh
  rcases List.mem_append.mp hr with hr | hr
  · have hlow := (statics_below L hr).2
    refine .inl ⟨r, ?_, by omega, by omega, hlow⟩
    exact (show (staticSeats L).map Prod.snd = L.statics from rfl) ▸ List.mem_map.mpr ⟨_, hr, rfl⟩
  · exact .inr ⟨r, List.mem_map.mpr ⟨_, hr, rfl⟩, by omega, by omega⟩

theorem byte_of_cell {o : Obj} (ho : W.objs L o) (he : ∀ i, o ≠ .entry i)
    (hh : ∀ i, o ≠ .header i) {a : Nat} {f : Field} (hc : o.cells L.heap a f) {x : Nat}
    (hx : a + offset f ≤ x) (hx' : x < a + offset f + size f) : W.Byte L x := by
  rcases cell_seat ho he hh hc with ⟨r, -, h1, h2, h3⟩ | ⟨r, hr, h1, h2⟩
  · exact .inl (by omega)
  · obtain ⟨u, hu, heq⟩ := List.mem_map.mp ((heapSeats_sublist W).subset hr)
    rw [← heq] at h1 h2
    exact .inr (.inl ⟨u, hu, by simp only at h1; omega, by simp only at h2; omega⟩)

/-- Two different allocations have no byte in common. -/
theorem eq_of_in (h : W.Tiled L) {r u : Nat × Nat} (hr : r ∈ W.used) (hu : u ∈ W.used) {x : Nat}
    (hx : In x r) (hx' : In x u) : r = u := by
  by_contra hne
  have hap := h.apart_of_ne hr hu hne
  unfold BlocksApart Apart at hap
  unfold In at hx hx'
  omega

/-- The allocator's cells lie in no allocation and not below the heap. -/
theorem heap_not_byte (h : W.Tiled L) {o : Obj} (ho : Obj.ofHeap L.heap W.tiles o) {a : Nat}
    {f : Field} (hc : o.cells L.heap a f) {x : Nat} (hx : W.Byte L x) :
    x < a + offset f ∨ a + offset f + size f ≤ x := by
  have hb := Obj.cells_bounds hc
  have htable := L.heap.spec.table_le_base
  have hstart : ∀ i, L.heap.start ≤ L.heap.entryAddr i := fun i => Nat.le_add_right _ _
  rcases hx with hx | ⟨r, hr, hx⟩ | ⟨hx, hgap⟩
  · cases o with
    | entry i =>
      have := hstart i
      simp only [Obj.region] at hb
      omega
    | header i =>
      simp only [Obj.region, HeapBounds.addr] at hb
      omega
    | tcb _ => exact ho.elim
    | sem _ => exact ho.elim
    | list _ => exact ho.elim
  · have hin := h.inside hr
    unfold In at hx
    cases o with
    | entry i =>
      have hi := L.heap.entryAddr_lt ho
      simp only [Obj.region] at hb
      omega
    | header i =>
      have hout := free_outside h.valid ho (h.used.mem_iff.mp hr)
      simp only [Obj.region] at hb
      omega
    | tcb _ => exact ho.elim
    | sem _ => exact ho.elim
    | list _ => exact ho.elim
  · cases o with
    | entry i =>
      have := L.heap.entryAddr_lt ho
      simp only [Obj.region] at hb
      omega
    | header i =>
      simp only [Obj.region, HeapBounds.addr] at hb
      simp only [sizeofFreeBlocks, memBlockSize] at hgap
      omega
    | tcb _ => exact ho.elim
    | sem _ => exact ho.elim
    | list _ => exact ho.elim

theorem keeps_of_frame (h : W.Tiled L) (hf : Frame (Obj.own L.heap (Obj.ofHeap L.heap W.tiles)) m m') :
    W.Keeps L m m' :=
  fun x hx => hf x fun _ _ ⟨_, ho, hc⟩ => h.heap_not_byte ho hc hx

/-- What belongs to a thread, or is a semaphore, is no block of user code. -/
theorem held_used (h : W.Tiled L) {u : Nat × Nat} (hu : u ∈ W.threads.flatMap W.ofThread ++
    W.sems.map fun s => (s, toBlocks sizeofSem)) : u ∈ W.used ∧ u ∉ W.blocks := by
  have hnd := (List.nodup_append.mp (List.nodup_cons.mp h.nodup).2).2.2
  exact ⟨List.mem_cons_of_mem _ (List.mem_append_left _ hu), fun hb => hnd u hu u hb rfl⟩

/-- The allocation of a seat is neither a block of user code nor a stack. -/
theorem seat_used (h : W.Tiled L) {r : Nat × Nat} (hr : r ∈ W.heapSeats.map Prod.snd) {x : Nat}
    (hx : r.1 ≤ x) (hx' : x < r.1 + r.2) :
    ∃ u ∈ W.used, In x u ∧ u ∉ W.blocks ∧ u.2 ≠ toBlocks defaultStackSize := by
  have hnum : toBlocks sizeofTCB ≠ toBlocks defaultStackSize ∧
      toBlocks sizeofSem ≠ toBlocks defaultStackSize ∧ 64 * toBlocks sizeofTCB = 384 ∧
      64 * toBlocks sizeofSem = 64 := by decide
  obtain ⟨⟨o, q⟩, hp, rfl⟩ := List.mem_map.mp hr
  simp only [heapSeats, List.mem_append, List.mem_flatMap, List.mem_map, List.mem_cons,
    List.not_mem_nil, or_false] at hp
  rcases hp with ⟨t, ht, heq | heq⟩ | ⟨s, hs, heq⟩
  · obtain ⟨rfl, rfl⟩ := Prod.mk.inj heq
    obtain ⟨h1, h2⟩ := h.held_used (u := (t, toBlocks sizeofTCB))
      (List.mem_append_left _ (List.mem_flatMap.mpr ⟨t, ht, by simp [ofThread]⟩))
    exact ⟨_, h1, ⟨hx, by simp only at hx' ⊢; omega⟩, h2, hnum.1⟩
  · obtain ⟨rfl, rfl⟩ := Prod.mk.inj heq
    obtain ⟨h1, h2⟩ := h.held_used (u := (W.join t, toBlocks sizeofSem))
      (List.mem_append_left _ (List.mem_flatMap.mpr ⟨t, ht, by simp [ofThread]⟩))
    exact ⟨_, h1, ⟨hx, by simp only at hx' ⊢; omega⟩, h2, hnum.2.1⟩
  · obtain ⟨rfl, rfl⟩ := Prod.mk.inj heq
    obtain ⟨h1, h2⟩ := h.held_used (u := (s, toBlocks sizeofSem))
      (List.mem_append_right _ (List.mem_map.mpr ⟨s, hs, rfl⟩))
    exact ⟨_, h1, ⟨hx, by simp only at hx' ⊢; omega⟩, h2, hnum.2.1⟩

/-- The kernel's objects do not hold `Scheduler::flush_tcb`. -/
theorem not_flush_word (h : W.Tiled L) {o : Obj} (ho : W.objs L o) (hcore : o.core = true) {a : Nat}
    {f : Field} (hc : o.cells L.heap a f) {x : Nat} (hx : a + offset f ≤ x)
    (hx' : x < a + offset f + size f) : ¬(L.flushTcb ≤ x ∧ x < L.flushTcb + 8) := by
  have hb := Obj.cells_bounds hc
  have hkind : (∀ i, o ≠ .entry i) ∧ ∀ i, o ≠ .header i := by
    cases o <;> simp [Obj.core] at hcore ⊢
  unfold Layout.flushTcb
  by_cases heq : o = .list L.scheduler
  · subst heq
    simp only [Obj.region] at hb
    omega
  · obtain ⟨r, hr, h1, h2⟩ := seat_of_objs ho hkind.1 hkind.2
    have hseat : (Obj.list L.scheduler, L.scheduler, 24) ∈ staticSeats L ++ W.heapSeats :=
      List.mem_append_left _ (by simp [staticSeats])
    have hap := h.seats_apart.forall hr hseat fun he => heq (Prod.mk.inj he).1
    unfold RangesApart Apart at hap
    simp only at hap
    omega

/-- The bytes of objects do not belong to user code. -/
theorem not_user (h : W.Tiled L) {o : Obj} (ho : W.objs L o) {a : Nat} {f : Field}
    (hc : o.cells L.heap a f) {x : Nat} (hx : a + offset f ≤ x) (hx' : x < a + offset f + size f) :
    ¬W.User L x := by
  have hheap (hh : Obj.ofHeap L.heap W.tiles o) : ¬W.User L x := by
    have hout := fun hb => h.heap_not_byte hh hc (x := x) hb
    have hin := Obj.ofHeap_inside h.valid hh hc
    rintro (⟨r, hr, hi⟩ | ⟨t, ht, hi⟩ | ⟨hi, -⟩)
    · have := hout (.inr (.inl ⟨r, mem_block hr, hi⟩))
      omega
    · have := hout (.inr (.inl ⟨_, mem_thread ht (by simp [ofThread]), hi⟩))
      omega
    · omega
  by_cases hcore : o.core = true
  · have hb : o.core = true → (∀ i, o ≠ .entry i) ∧ ∀ i, o ≠ .header i := by
      cases o <;> simp [Obj.core]
    rcases cell_seat ho (hb hcore).1 (hb hcore).2 hc with ⟨r, hr, h1, h2, h3⟩ | ⟨r, hr, h1, h2⟩
    · rintro (⟨u, hu, hi⟩ | ⟨t, ht, hi⟩ | ⟨-, hi | hi⟩)
      · have := h.inside (mem_block hu)
        have := L.heap.spec.table_le_base
        unfold In at hi
        omega
      · have := h.inside (mem_thread ht (r := (W.stack t, toBlocks defaultStackSize))
          (by simp [ofThread]))
        have := L.heap.spec.table_le_base
        unfold In at hi
        simp only at this hi
        omega
      · have := hi r hr
        omega
      · exact h.not_flush_word ho hcore hc hx hx' hi
    · obtain ⟨u, hu, hi, hblocks, hstacks⟩ := h.seat_used hr (x := x) (by omega) (by omega)
      rintro (⟨u', hu', hi'⟩ | ⟨t, ht, hi'⟩ | ⟨hi', -⟩)
      · exact hblocks (h.eq_of_in hu (mem_block hu') hi hi' ▸ hu')
      · exact hstacks (h.eq_of_in hu (mem_thread ht (by simp [ofThread])) hi hi' ▸ rfl)
      · have := h.inside hu
        have := L.heap.spec.table_le_base
        have := L.heap.spec.base_end
        unfold In at hi
        omega
  · refine hheap ?_
    cases o with
    | entry i => exact ho
    | header i => exact ho
    | tcb _ => exact absurd rfl hcore
    | sem _ => exact absurd rfl hcore
    | list _ => exact absurd rfl hcore

/-- The bytes of objects do not lie in free memory, but for headers. -/
theorem not_free (h : W.Tiled L) {o : Obj} (ho : W.objs L o) {a : Nat} {f : Field}
    (hc : o.cells L.heap a f) {x : Nat} (hx : a + offset f ≤ x) (hx' : x < a + offset f + size f) :
    ¬W.Free L x := by
  rintro ⟨hbase, hstop, hgap, hfree⟩
  have hheap (hh : Obj.ofHeap L.heap W.tiles o) : False := by
    have hout := h.heap_not_byte hh hc (.inr (.inr ⟨hbase, hgap⟩))
    omega
  by_cases hcore : o.core = true
  · have hb : o.core = true → (∀ i, o ≠ .entry i) ∧ ∀ i, o ≠ .header i := by
      cases o <;> simp [Obj.core]
    rcases cell_seat ho (hb hcore).1 (hb hcore).2 hc with ⟨r, hr, h1, h2, h3⟩ | ⟨r, hr, h1, h2⟩
    · have := L.heap.spec.table_le_base
      omega
    · obtain ⟨u, hu, hi, -⟩ := h.seat_used hr (x := x) (by omega) (by omega)
      exact hfree u hu hi
  · cases o with
    | entry i => exact hheap ho
    | header i => exact hheap ho
    | tcb _ => exact absurd rfl hcore
    | sem _ => exact absurd rfl hcore
    | list _ => exact absurd rfl hcore

/-- Code that writes the kernel's objects spares the other bytes. -/
theorem spares_of_cells (h : W.Tiled L) (hf : Frame (W.cells L) m m') : W.Spares L m m' := by
  refine fun x hx => hf x fun a f ⟨o, ho, hc⟩ => ?_
  by_contra hin
  rcases hx with hx | hx
  · exact h.not_user ho hc (by omega) (by omega : x < a + offset f + size f) hx
  · exact h.not_free ho hc (by omega) (by omega : x < a + offset f + size f) hx

/-- The bytes that the kernel does not write lie in no allocation of its own. -/
theorem quiet_not_in (h : W.Tiled L) {r : Nat × Nat} (hr : r ∈ W.threads.flatMap W.ofThread ++
    W.sems.map fun s => (s, toBlocks sizeofSem)) (hsize : r.2 ≠ toBlocks defaultStackSize) {x : Nat}
    (hx : W.Quiet L x) : ¬In x r := by
  intro hin
  obtain ⟨hused, hno⟩ := h.held_used hr
  rcases hx with (⟨u, hu, hi⟩ | ⟨t, ht, hi⟩ | ⟨hi, -⟩) | ⟨-, -, -, hfree⟩
  · exact hno (h.eq_of_in hused (mem_block hu) hin hi ▸ hu)
  · exact hsize (h.eq_of_in hused (mem_thread ht (by simp [ofThread])) hin hi ▸ rfl)
  · have hb := h.inside hused
    have hend := L.heap.spec.base_end
    have htable := L.heap.spec.table_le_base
    unfold In at hin
    omega
  · exact hfree r hused hin

theorem user_not_free {x : Nat} (hx : W.User L x) : ¬W.Free L x := by
  rintro ⟨hbase, hstop, -, hfree⟩
  rcases hx with ⟨u, hu, hi⟩ | ⟨t, ht, hi⟩ | ⟨hi, -⟩
  · exact hfree u (mem_block hu) hi
  · exact hfree _ (mem_thread ht (by simp [ofThread])) hi
  · have htable := L.heap.spec.table_le_base
    omega

/-- The `TCB` of a thread and the semaphore for those who join it. -/
theorem quiet_not_in_thread (h : W.Tiled L) {t : Nat} (ht : t ∈ W.threads) {x : Nat} (hx : W.Quiet L x) :
    ¬In x (t, toBlocks sizeofTCB) ∧ ¬In x (W.join t, toBlocks sizeofSem) := by
  have hmem {r : Nat × Nat} (hr : r ∈ W.ofThread t) : r ∈ W.threads.flatMap W.ofThread ++
      W.sems.map fun s => (s, toBlocks sizeofSem) :=
    List.mem_append_left _ (List.mem_flatMap.mpr ⟨t, ht, hr⟩)
  have hsize : toBlocks sizeofTCB ≠ toBlocks defaultStackSize ∧
      toBlocks sizeofSem ≠ toBlocks defaultStackSize := by decide
  exact ⟨h.quiet_not_in (hmem (by simp [ofThread])) hsize.1 hx,
    h.quiet_not_in (hmem (by simp [ofThread])) hsize.2 hx⟩

theorem spares_of_frame (h : W.Tiled L)
    (hf : Frame (Obj.own L.heap (Obj.ofHeap L.heap W.tiles)) m m') : W.Spares L m m' := by
  refine h.spares_of_cells (hf.mono fun a f ⟨o, ho, hc⟩ => ⟨o, ?_, hc⟩)
  cases o with
  | entry i => exact ho
  | header i => exact ho
  | tcb _ => exact ho.elim
  | sem _ => exact ho.elim
  | list _ => exact ho.elim

theorem agree_of_keeps (hk : W.Keeps L m m') (W' : Owners) :
    W.Agree L W' m.view m'.view := by
  intro o ho _ hcore a f hc
  have hb : o.core = true → (∀ i, o ≠ .entry i) ∧ ∀ i, o ≠ .header i := by
    cases o <;> simp [Obj.core]
  exact load_congr fun x hx hx' => hk x (byte_of_cell ho (hb hcore).1 (hb hcore).2 hc hx hx')

theorem agree_of_keeps' (hk : W.Keeps L m m') (W' : Owners) :
    W'.Agree L W m.view m'.view :=
  fun o ho ho' => agree_of_keeps hk W' o ho' ho

/-- The blocks start at different addresses. -/
theorem blocks_pairwise (h : W.Tiled L) : W.blocks.Pairwise fun r u => r.1 ≠ u.1 := by
  refine List.Pairwise.sublist ?_ (h.pairwise.imp_of_mem fun {r u} hr hu hap heq => ?_)
  · exact .cons _ (List.sublist_append_right _ _)
  · have h1 := (h.inside hr).2.2
    have h2 := (h.inside hu).2.2
    unfold BlocksApart Apart at hap
    omega

theorem blocks_eq (h : W.Tiled L) {r u : Nat × Nat} (hr : r ∈ W.blocks) (hu : u ∈ W.blocks)
    (heq : r.1 = u.1) : r = u := by
  by_contra hne
  have h1 := (h.inside (mem_block hr)).2.2
  have h2 := (h.inside (mem_block hu)).2.2
  have hap := h.apart_of_ne (mem_block hr) (mem_block hu) hne
  unfold BlocksApart Apart at hap
  omega

theorem filter_cons (h : W.Tiled L) {a n : Nat} {bs : List (Nat × Nat)}
    (hb : W.blocks = (a, n) :: bs) : (W.blocks.filter fun t => t.1 ≠ a) = bs := by
  have hpair := h.blocks_pairwise
  rw [hb] at hpair ⊢
  rw [List.filter_cons_of_neg (by simp)]
  refine List.filter_eq_self.mpr fun u hu => ?_
  simpa using ((List.pairwise_cons.mp hpair).1 u hu).symm

/-- The blocks without one of them. -/
theorem blocks_erase (h : W.Tiled L) {a n : Nat} (hr : (a, n) ∈ W.blocks) :
    W.blocks.Perm ((a, n) :: W.blocks.filter fun t => t.1 ≠ a) := by
  have hpair := h.blocks_pairwise
  generalize W.blocks = bs at hr hpair
  induction bs with
  | nil => simp at hr
  | cons b bs ih =>
    obtain ⟨hb, hbs⟩ := List.pairwise_cons.mp hpair
    rcases List.mem_cons.mp hr with rfl | hr
    · rw [List.filter_cons_of_neg (by simp)]
      refine List.Perm.cons _ (.of_eq (List.filter_eq_self.mpr fun u hu => ?_).symm)
      simpa using (hb u hu).symm
    · rw [List.filter_cons_of_pos (by simpa using hb _ hr)]
      exact ((ih hr hbs).cons b).trans (.swap _ _ _)

end Tiled

end Owners

/-- The heap after a call of the allocator. -/
def Spec.heap (σ : Spec) (W : Owners) (fbHead : Nat) : Spec :=
  { σ with owners := W, globals := { σ.globals with fbHead } }

theorem SameThreads.refl (W : Owners) : SameThreads W W := ⟨rfl, rfl, rfl, rfl, rfl, rfl⟩

/-- Other tiles and blocks. -/
def Owners.withBlocks (W : Owners) (tiles : List Tile) (blocks : List (Nat × Nat)) : Owners :=
  { W with tiles, blocks }

/-- The allocator does not touch them, whatever the blocks of user code are. -/
theorem Owners.Held.byte {L : Layout} {W : Owners} {ts : List Tile} {bs : List (Nat × Nat)} {x : Nat}
    (h : W.Held L x) : (W.withBlocks ts bs).Byte L x :=
  h.imp_right fun ⟨r, hr, hi⟩ => .inl ⟨r, List.mem_cons_of_mem _ (List.mem_append_left _ hr), hi⟩

theorem Owners.held_of_tcb {L : Layout} {W : Owners} {t x : Nat} {f : Field} (ht : t ∈ W.tcbs L)
    (hf : f.ofTcb = true) (hx : t + offset f ≤ x) (hx' : x < t + offset f + size f) : W.Held L x := by
  have hb := Obj.ofTcb_bounds hf
  rcases List.mem_cons.mp ht with rfl | ht
  · have hmain := Owners.Tiled.statics_below L (p := (.tcb L.mainTcb, L.mainTcb, 360)) (by simp [staticSeats])
    simp only at hmain
    exact .inl (by omega)
  · have hsize : 64 * toBlocks sizeofTCB = 384 := by decide
    refine .inr ⟨(t, toBlocks sizeofTCB), List.mem_append_left _
      (List.mem_flatMap.mpr ⟨t, ht, by simp [Owners.ofThread]⟩), ?_⟩
    exact ⟨by simp only; omega, by simp only; omega⟩

theorem Owners.Tiled.held_not_in {L : Layout} {W : Owners} {r : Nat × Nat} {x : Nat} (h : W.Tiled L)
    (hx : W.Held L x) (hr : r ∈ W.blocks) : ¬Owners.In x r := by
  intro hi
  rcases hx with hx | ⟨u, hu, hi'⟩
  · have hb := h.inside (Owners.Tiled.mem_block hr)
    have htable := L.heap.spec.table_le_base
    unfold Owners.In at hi
    omega
  · obtain ⟨hused, hno⟩ := h.held_used hu
    exact hno (h.eq_of_in hused (Owners.Tiled.mem_block hr) hi' hi ▸ hr)

/-- Some of the blocks. -/
theorem Owners.User.filter {L : Layout} {W : Owners} {ts : List Tile} {p : Nat × Nat → Bool} {x : Nat}
    (h : (W.withBlocks ts (W.blocks.filter p)).User L x) : W.User L x :=
  h.imp_left fun ⟨r, hr, hi⟩ => ⟨r, (List.mem_filter.mp hr).1, hi⟩

/-- More blocks. -/
theorem Owners.User.blocks {L : Layout} {W : Owners} {bs : List (Nat × Nat)} {x : Nat}
    (h : W.User L x) (ts : List Tile) (hbs : W.blocks ⊆ bs) : (W.withBlocks ts bs).User L x :=
  h.imp_left fun ⟨r, hr, hi⟩ => ⟨r, hbs hr, hi⟩

/-- All blocks but one. -/
theorem Owners.User.filter_ne {L : Layout} {W : Owners} {a n x : Nat} (h : W.User L x) (hW : W.Tiled L)
    (ha : (a, n) ∈ W.blocks) (hx : ¬Owners.In x (a, n)) (ts : List Tile) :
    (W.withBlocks ts (W.blocks.filter fun t => t.1 ≠ a)).User L x := by
  refine h.imp_left fun ⟨r, hr, hi⟩ => ⟨r, List.mem_filter.mpr ⟨hr, ?_⟩, hi⟩
  have hne : r.1 ≠ a := fun heq => hx (hW.blocks_eq hr ha heq ▸ hi)
  simpa using hne

theorem Owners.used_withBlocks {W : Owners} {ts : List Tile} {bs : List (Nat × Nat)} {r : Nat × Nat}
    (ts' : List Tile) (bs' : List (Nat × Nat)) (h : r ∈ (W.withBlocks ts bs).used) :
    r ∈ (W.withBlocks ts' bs').used ∨ r ∈ bs := by
  simp only [Owners.used, List.mem_cons, List.mem_append] at h ⊢
  rcases h with h | h | h
  · exact .inl (.inl h)
  · exact .inl (.inr (.inl h))
  · exact .inr h

/-- Some of the blocks: the others are free, or were user code's. -/
theorem Owners.Quiet.filter {L : Layout} {W : Owners} {ts : List Tile} {p : Nat × Nat → Bool} {x : Nat}
    (h : (W.withBlocks ts (W.blocks.filter p)).Quiet L x) : W.Quiet L x := by
  rcases h with h | ⟨hbase, hstop, hgap, hfree⟩
  · exact .inl h.filter
  · by_cases hb : ∃ r ∈ W.blocks, Owners.In x r
    · exact .inl (.inl hb)
    · refine .inr ⟨hbase, hstop, hgap, fun r hr hi => ?_⟩
      rcases Owners.used_withBlocks (W := W) ts (W.blocks.filter p) hr with hr | hr
      · exact hfree r hr hi
      · exact hb ⟨r, hr, hi⟩

/-- More blocks: user code has them, or they are free. -/
theorem Owners.Quiet.blocks {L : Layout} {W : Owners} {bs : List (Nat × Nat)} {x : Nat}
    (h : W.Quiet L x) (ts : List Tile) (hbs : W.blocks ⊆ bs) : (W.withBlocks ts bs).Quiet L x := by
  rcases h with h | ⟨hbase, hstop, hgap, hfree⟩
  · exact .inl (h.blocks ts hbs)
  · by_cases hb : ∃ r ∈ bs, Owners.In x r
    · exact .inl (.inl hb)
    · refine .inr ⟨hbase, hstop, hgap, fun r hr hi => ?_⟩
      rcases Owners.used_withBlocks W.tiles W.blocks hr with hr | hr
      · exact hfree r hr hi
      · exact hb ⟨r, hr, hi⟩

/-- The bytes of user code do not lie in new blocks that are no stacks. -/
theorem Owners.Tiled.user_not_in {L : Layout} {W : Owners} {ts : List Tile}
    {new : List (Nat × Nat)} {r : Nat × Nat} {x : Nat} (h : (W.withBlocks ts (new ++ W.blocks)).Tiled L)
    (hr : r ∈ new) (hx : W.User L x) : ¬Owners.In x r := by
  intro hin
  have hused : r ∈ (W.withBlocks ts (new ++ W.blocks)).used :=
    Owners.Tiled.mem_block (List.mem_append_left _ hr)
  rcases hx with ⟨u, hu, hi⟩ | ⟨t, ht, hi⟩ | ⟨hi, -⟩
  · have huW : u ∈ (W.withBlocks ts (new ++ W.blocks)).used :=
      Owners.Tiled.mem_block (List.mem_append_right _ hu)
    obtain rfl := h.eq_of_in huW hused hi hin
    exact (List.pairwise_append.mp h.blocks_pairwise).2.2 _ hr _ hu rfl
  · obtain ⟨huW, hno⟩ := h.held_used (u := (W.stack t, toBlocks defaultStackSize))
      (List.mem_append_left _ (List.mem_flatMap.mpr ⟨t, ht, by simp [Owners.ofThread, Owners.withBlocks]⟩))
    exact hno (h.eq_of_in huW hused hi hin ▸ List.mem_append_left _ hr)
  · have hb := h.inside hused
    have hend := L.heap.spec.base_end
    have htable := L.heap.spec.table_le_base
    unfold Owners.In at hin
    omega

theorem SameThreads.withBlocks (W : Owners) (ts : List Tile) (bs : List (Nat × Nat)) :
    SameThreads W (W.withBlocks ts bs) := ⟨rfl, rfl, rfl, rfl, rfl, rfl⟩

theorem SameThreads.tcbs {W W' : Owners} (h : SameThreads W W') (L : Layout) :
    W'.tcbs L = W.tcbs L ∧ W'.semaphores L = W.semaphores L := by
  simp only [Owners.tcbs, Owners.semaphores, h.threads, h.join, h.sems, and_self]

/-- Only the blocks of user code differ. -/
theorem SameThreads.count_used {W W' : Owners} (h : SameThreads W W') (r : Nat × Nat) :
    W'.used.count r + W.blocks.count r = W.used.count r + W'.blocks.count r := by
  have hof : W'.ofThread = W.ofThread := by
    funext t
    simp only [Owners.ofThread, h.stack, h.kernelStack, h.join]
  simp only [Owners.used, hof, h.mainStack, h.threads, h.sems, List.count_append, List.count_cons]
  omega

namespace Holds

variable {L : Layout} {σ σ' : Spec} {m m' : Mem} {a n : Nat}

/-- Memory that holds what a view does. -/
theorem of_sim {v : Cells} (h : Holds L σ v) (hs : Sim (σ.owners.cells L) m v) : Holds L σ m.view :=
  h.of_cells fun a f hc _ => hs a f hc

/-- Writes to memory of user code. -/
theorem of_user (h : Holds L σ m.view) (hm : ∀ x, ¬σ.owners.User L x → m' x = m x) :
    Holds L σ m'.view :=
  h.of_cells fun _ _ ⟨_, ho, hc⟩ _ => load_congr fun x hx hx' =>
    hm x (h.tiled.not_user ho hc hx hx')

/-- Other tiles for the same threads and semaphores. -/
theorem of_heap (h : Holds L σ m.view) {W : Owners} {x : Nat} (hW : W.Tiled L)
    (hsame : SameThreads σ.owners W)
    (hrep : HeapRep L.heap W.tiles m'.view { σ.globals with fbHead := x })
    (hagree : σ.owners.Agree L W m.view m'.view) : Holds L (σ.heap W x) m'.view := by
  obtain ⟨htcbs, hsems⟩ := hsame.tcbs L
  refine (@Rest.change _ _ (σ.heap W x) _ _ h.rest hW hrep hagree rfl ⟨rfl, rfl⟩ fun t ht => .inl ⟨?_, ?_, rfl,
    rfl⟩).holds (h.queues.change hagree rfl rfl rfl ?_ (fun s hs => .inl ⟨?_, rfl, rfl⟩)
      fun t ht => .inl ⟨?_, rfl⟩) fun t ht => ?_
  · exact hsame.threads ▸ ht
  · exact ⟨congrFun hsame.stack t, congrFun hsame.kernelStack t, congrFun hsame.join t⟩
  · change (W.tcbs L).Perm (σ.abs.moving ++ σ.abs.queued L W)
    rw [htcbs, Abs.queued, hsems]
    exact h.queues.place
  · exact hsems ▸ hs
  · exact htcbs ▸ ht
  · have hmem := h.queues.moving_mem ht
    exact (hagree.tcb hmem (htcbs.symm ▸ hmem) rfl).trans (h.status t ht)

/-- `alloc` fails, or there is one more block. -/
theorem alloc (h : Holds L σ m.view) (n : Nat) : ∃ a m' x ts,
    (MemoryAllocator.alloc n).run m σ.globals = .done a m' { σ.globals with fbHead := x } ∧
    σ.owners.Keeps L m m' ∧ (a = 0 ∧ Tiling.alloc (u32 n) σ.owners.tiles = none ∨
      ∃ i, a = L.heap.addr i ∧ Tiling.alloc (u32 n) σ.owners.tiles = some (i, ts)) ∧
    Holds L (σ.heap (σ.owners.withBlocks ts
      ((if a ≠ 0 ∧ u32 n ≠ 0 then [(a, u32 n)] else []) ++ σ.owners.blocks)) x) m'.view := by
  have hW := h.tiled
  have hheap := h.heap
  obtain ⟨a, m', x, ts, hrun, hframe, hcase, hr⟩ := hheap.alloc_returns n
  have hkeeps := hW.keeps_of_frame hframe
  have hagree (W' : Owners) := Owners.Tiled.agree_of_keeps hkeeps W'
  rcases hcase with ⟨rfl, hnone, rfl⟩ | ⟨i, rfl, ha⟩
  · exact ⟨0, m', x, σ.owners.tiles, hrun, hkeeps, .inl ⟨rfl, hnone⟩, h.of_heap
      (W := σ.owners.withBlocks σ.owners.tiles ([] ++ σ.owners.blocks)) hW (.refl _) hr (hagree _)⟩
  · have hlive := (alloc_live hheap.valid.pos ha).map (located L.heap)
    rw [List.map_append] at hlive
    have hif : (if u32 n = 0 then [] else [(i, u32 n)]).map (located L.heap) =
        if L.heap.addr i ≠ 0 ∧ u32 n ≠ 0 then [(L.heap.addr i, u32 n)] else [] := by
      have hne := L.heap.addr_ne_zero i
      split <;> rename_i h0
      · simp [h0]
      · rw [if_pos ⟨hne, h0⟩]
        rfl
    rw [hif] at hlive
    refine ⟨_, m', x, ts, hrun, hkeeps, .inr ⟨i, rfl, ha⟩, h.of_heap (x := x) ⟨hheap.valid.alloc ha, ?_⟩
      (.withBlocks _ _ _) hr (hagree _)⟩
    refine List.Perm.trans ?_ hlive.symm
    refine List.Perm.trans ?_ (hW.used.append_left _)
    refine List.perm_iff_count.mpr fun r => ?_
    have hcount := (SameThreads.withBlocks σ.owners ts
      ((if L.heap.addr i ≠ 0 ∧ u32 n ≠ 0 then [(L.heap.addr i, u32 n)] else []) ++
        σ.owners.blocks)).count_used r
    simp only [Owners.withBlocks, List.count_append] at hcount ⊢
    omega

/-- `free` of a block, on the tiles. -/
theorem free_block (h : Holds L σ m.view) (hr : (a, n) ∈ σ.owners.blocks) : ∃ m' x ts,
    let W := σ.owners.withBlocks ts (σ.owners.blocks.filter fun t => t.1 ≠ a)
    (MemoryAllocator.free a).run m σ.globals = .done memSuccess m' { σ.globals with fbHead := x } ∧
    Frame (Obj.own L.heap (Obj.ofHeap L.heap ts)) m m' ∧ W.Tiled L ∧
    HeapRep L.heap ts m'.view { σ.globals with fbHead := x } := by
  have hW := h.tiled
  have hheap := h.heap
  obtain ⟨i, -, heq, hseg⟩ := hW.aligned (Owners.Tiled.mem_block hr)
  obtain rfl : a = L.heap.addr i := heq
  obtain ⟨ts, hrel⟩ := (exists_release_iff hheap.valid.pos).mpr hseg
  obtain ⟨r, m', g', v', hrun, hs, hframe, rfl, x, rfl, hrep⟩ := Prog.returns
    (separate_ofHeap L.heap ts) (Sim.self _ m) (hheap.wp_free (Q := fun r v g => r = memSuccess ∧
      ∃ x, g = { σ.globals with fbHead := x } ∧ HeapRep L.heap ts v g)
      hrel (HeapCells.of_own fun _ _ h => h) fun v' x _ hr' => ⟨rfl, x, rfl, hr'⟩)
  have hlive := (release_live hrel).map (located L.heap)
  have htiled : Owners.Tiled L (σ.owners.withBlocks ts
      (σ.owners.blocks.filter fun t => t.1 ≠ L.heap.addr i)) := by
    refine ⟨hrep.valid, ?_⟩
    have hsplit := hW.blocks_erase hr
    refine (List.perm_cons (located L.heap (i, n))).mp (List.Perm.trans ?_ hlive)
    refine List.Perm.trans (List.perm_iff_count.mpr fun r => ?_) hW.used
    have hcount := (SameThreads.withBlocks σ.owners ts
      (σ.owners.blocks.filter fun t => t.1 ≠ L.heap.addr i)).count_used r
    have hblocks := hsplit.count_eq r
    rw [show located L.heap (i, n) = (L.heap.addr i, n) from rfl]
    rw [List.count_cons] at hblocks ⊢
    simp only [Owners.withBlocks] at hcount ⊢
    omega
  exact ⟨m', x, ts, hrun, hframe, htiled, hrep.of_sim hs fun _ _ h => h⟩

/-- `free` of a block. -/
theorem free (h : Holds L σ m.view) (hr : (a, n) ∈ σ.owners.blocks) : ∃ m' x ts,
    let W := σ.owners.withBlocks ts (σ.owners.blocks.filter fun t => t.1 ≠ a)
    (MemoryAllocator.free a).run m σ.globals = .done memSuccess m' { σ.globals with fbHead := x } ∧
    W.Keeps L m m' ∧ Holds L (σ.heap W x) m'.view := by
  obtain ⟨m', x, ts, hrun, hframe, htiled, hrep⟩ := h.free_block hr
  have hkeeps := htiled.keeps_of_frame hframe
  exact ⟨m', x, ts, hrun, hkeeps, h.of_heap htiled (.withBlocks _ _ _) hrep
    (Owners.Tiled.agree_of_keeps' hkeeps _)⟩

/-- `free` of an address where no allocation starts, on the tiles. -/
theorem free_nothing (h : Holds L σ m.view) (ha : σ.owners.Unused L a) :
    ∃ r m', r ≠ memSuccess ∧ (MemoryAllocator.free a).run m σ.globals = .done r m' σ.globals ∧
      Frame (Obj.own L.heap (Obj.ofHeap L.heap σ.owners.tiles)) m m' ∧
      HeapRep L.heap σ.owners.tiles m'.view σ.globals := by
  have hheap := h.heap
  have hwp : (MemoryAllocator.free a).wp (Obj.own L.heap (Obj.ofHeap L.heap σ.owners.tiles)) m.view
      σ.globals (fun r v g => r ≠ memSuccess ∧ g = σ.globals ∧ HeapRep L.heap σ.owners.tiles v g)
      fun _ _ _ _ => False := by
    by_cases hmis : a = 0 ∨ a % memBlockSize ≠ 0
    · exact HeapRep.wp_free_misaligned hmis fun _ hne => ⟨hne, rfl, hheap⟩
    obtain ⟨h0, hal⟩ := not_or.mp hmis
    obtain ⟨⟨i, hi, rfl⟩, hno⟩ := (ha.resolve_left h0).resolve_left hal
    refine hheap.wp_free_unused hi (fun k hk => ?_) ⟨.entry i, hi, rfl, rfl⟩ ⟨by decide, rfl, hheap⟩
    exact hno _ (h.tiled.used.mem_iff.mpr (List.mem_map.mpr ⟨(i, k), hk, rfl⟩)) rfl
  obtain ⟨r, m', g', v', hrun, hs, hframe, hne, rfl, hrep⟩ := Prog.returns
    (separate_ofHeap L.heap σ.owners.tiles) (Sim.self _ m) hwp
  exact ⟨r, m', hne, hrun, hframe, hrep.of_sim hs fun _ _ h => h⟩

/-- `free` of an address where no allocation starts. -/
theorem free_unused (h : Holds L σ m.view) (ha : σ.owners.Unused L a) :
    ∃ r m', r ≠ memSuccess ∧ (MemoryAllocator.free a).run m σ.globals = .done r m' σ.globals ∧
      σ.owners.Keeps L m m' ∧ Holds L σ m'.view := by
  obtain ⟨r, m', hne, hrun, hframe, hrep⟩ := h.free_nothing ha
  have hkeeps := h.tiled.keeps_of_frame hframe
  exact ⟨r, m', hne, hrun, hkeeps, h.of_heap (x := σ.globals.fbHead) h.tiled (.refl _) hrep
    (Owners.Tiled.agree_of_keeps hkeeps _)⟩

theorem alloc_spares {g : Globals} (h : Holds L σ m.view)
    (hrun : (MemoryAllocator.alloc n).run m σ.globals = .done a m' g) : σ.owners.Spares L m m' := by
  obtain ⟨_, m₁, x, ts, hrun₁, hframe, -, -⟩ := h.heap.alloc_returns n
  rw [hrun] at hrun₁
  cases hrun₁
  exact h.tiled.spares_of_frame hframe

theorem free_spares {code : Int} {g : Globals} (h : Holds L σ m.view) (ha : σ.owners.Freeable L a)
    (ts : List Tile) (hrun : (MemoryAllocator.free a).run m σ.globals = .done code m' g) :
    (σ.owners.withBlocks ts (σ.owners.blocks.filter fun t => t.1 ≠ a)).Spares L m m' := by
  rcases ha with ⟨n, hn⟩ | hu
  · obtain ⟨m₁, x, ts₁, hrun₁, hframe, htiled, -⟩ := h.free_block hn
    rw [hrun] at hrun₁
    cases hrun₁
    exact htiled.spares_of_frame hframe
  · obtain ⟨r, m₁, -, hrun₁, hframe, -⟩ := h.free_nothing hu
    rw [hrun] at hrun₁
    cases hrun₁
    exact (h.tiled.spares_of_frame hframe).mono fun _ => Owners.Quiet.filter

theorem unused_of_rejects (h : Holds L σ m.view) (ha : a = 0 ∨ a % memBlockSize ≠ 0 ∨
    (σ.globals.heapStartAddr ≤ a ∧
      a < σ.globals.heapStartAddr + 64 * totalBlocks L.heap.start L.heap.stop) ∧
    m.field (entryOf σ.globals a) Field.entry = 0) : σ.owners.Unused L a := by
  have hheap := h.heap
  refine ha.imp_right fun ha => ?_
  by_cases hal : a % memBlockSize ≠ 0
  · exact .inl hal
  obtain ⟨hin, hentry⟩ := ha.resolve_left hal
  obtain ⟨i, hi, rfl⟩ := HeapRep.block_of_inside (s := ⟨m, σ.globals, []⟩) hheap (not_not.mp hal) hin
  refine .inr ⟨⟨i, hi, rfl⟩, fun r hr heq => ?_⟩
  obtain ⟨⟨j, k⟩, hk, rfl⟩ := List.mem_map.mp (h.tiled.used.mem_iff.mp hr)
  obtain rfl : j = i := L.heap.addr_inj.mp heq
  rw [L.heap.entryOf_addr hheap.start hheap.table hi] at hentry
  have hpos := Tiling.segs_pos hheap.valid.pos hk
  have hlive : m.field (L.heap.entryAddr j) Field.entry = k := hheap.live (j, k) hk
  simp only at hpos
  omega

end Holds

end Os1Kernel
