import Os1Kernel.Threads.HeapCalls

/-! Threads are created: `create_tcb`, with its failures. -/

namespace Os1Kernel

open Memory MemoryAllocator
open Tiling hiding alloc

/-- What `create_tcb` sets before it allocates the kernel stack. -/
theorem initTcb_returns {t usr body args : Nat} (ht : t ≠ 0) (husr : usr < 2 ^ 64) (m : Mem)
    (g : Globals) : ∃ m', (initTcb t body args usr).run m g = .done () m' g ∧
      (∀ x, x < t ∨ t + 360 ≤ x → m' x = m x) ∧ m'.field t Field.timeSlice = defaultTimeSlice ∧
      m'.field t Field.interrupted = 0 ∧ m'.field t Field.usrStack = usr ∧
      m'.field t Field.joinSem = m.field t Field.joinSem := by
  have hown {f : Field} (hf : f.ofTcb = true) : Obj.own smallHeap (· = .tcb t) t f := ⟨_, rfl, rfl, hf⟩
  have hwp : (initTcb t body args usr).wp (Obj.own smallHeap (· = .tcb t)) m.view g
      (fun _ v g' => g' = g ∧ v t .timeSlice = defaultTimeSlice ∧ v t .interrupted = 0 ∧
        v t .usrStack = usr ∧ v t .joinSem = m.view t Field.joinSem) fun _ _ _ _ => False := by
    simp only [initTcb, Prog.wp_bind, wp_wr]
    refine ⟨hown rfl, hown rfl, hown rfl, hown rfl, hown rfl, hown rfl, hown rfl, hown rfl, hown rfl,
      hown rfl, trivial, ?_, ?_, ?_, ?_⟩
    · simp [View.set_apply]
      decide
    · simp [View.set_apply]
    · simp only [View.set_apply]
      simp
      exact Nat.mod_eq_of_lt husr
    · simp [View.set_apply]
  obtain ⟨_, m', g', v', hrun, hsim, hframe, rfl, h1, h2, h3, h4⟩ := Prog.returns
    (Obj.separate_one (o := .tcb t) (Nat.pos_of_ne_zero ht)) (Sim.self _ m) hwp
  exact ⟨m', hrun, fun x hx => Obj.frame_one hframe hx, (hsim _ _ (hown rfl)).trans h1,
    (hsim _ _ (hown rfl)).trans h2, (hsim _ _ (hown rfl)).trans h3, (hsim _ _ (hown rfl)).trans h4⟩

/-- The context from which a new thread starts. -/
theorem initContext_returns {L : Layout} {t : Nat} (ht : t ≠ 0) (m : Mem) (g : Globals) :
    ∃ m', (initContext L t).run m g = .done () m' g ∧
      (∀ x, x < t ∨ t + 360 ≤ x → m' x = m x) ∧ m'.field t Field.ra = L.kTcbStart ∧
      spp (m'.field t Field.sstatus) = spp g.sstatus ∧
      ∀ f : Field, f = .timeSlice ∨ f = .interrupted ∨ f = .usrStack ∨ f = .sysStack →
        m'.field t f = m.field t f := by
  have hown {f : Field} (hf : f.ofTcb = true) : Obj.own smallHeap (· = .tcb t) t f := ⟨_, rfl, rfl, hf⟩
  have hcode := L.code_lt
  have hwp : (initContext L t).wp (Obj.own smallHeap (· = .tcb t)) m.view g
      (fun _ v g' => g' = g ∧ v t .ra = L.kTcbStart ∧ spp (v t .sstatus) = spp g.sstatus ∧
        ∀ f : Field, f = .timeSlice ∨ f = .interrupted ∨ f = .usrStack ∨ f = .sysStack →
          v t f = m.view t f) fun _ _ _ _ => False := by
    simp only [initContext, Prog.wp_bind, wp_wr, wp_rd, wp_globals]
    refine ⟨hown rfl, hown rfl, hown rfl, hown rfl, hown rfl, hown rfl, hown rfl, trivial, ?_, ?_, ?_⟩
    · rw [View.set_same]
      exact Nat.mod_eq_of_lt hcode.1
    · simp only [View.set_apply]
      simp
      rw [show Memory.size Field.sstatus = 8 from rfl, spp_u64]
      have hbit : Nat.testBit 32 8 = false := by decide
      rw [spp, Nat.testBit_or, hbit, Bool.or_false]
      exact spp_u64 _
    · rintro f (rfl | rfl | rfl | rfl) <;> simp [View.set_apply]
  obtain ⟨_, m', g', v', hrun, hsim, hframe, rfl, h1, h2, h3⟩ := Prog.returns
    (Obj.separate_one (o := .tcb t) (Nat.pos_of_ne_zero ht)) (Sim.self _ m) hwp
  refine ⟨m', hrun, fun x hx => Obj.frame_one hframe hx, (hsim _ _ (hown rfl)).trans h1, ?_, ?_⟩
  · rw [hsim _ _ (hown rfl)]
    exact h2
  · intro f hf
    refine (hsim _ _ (hown ?_)).trans (h3 f hf)
    rcases hf with rfl | rfl | rfl | rfl <;> rfl

/-- There is no block for a new thread. -/
def NoTcb (ts : List Tile) : Prop := Tiling.alloc (toBlocks sizeofTCB) ts = none

/-- There is a block for a new thread but none for its kernel stack. -/
def NoStack (ts : List Tile) : Prop := ∃ i ts₁,
  Tiling.alloc (toBlocks sizeofTCB) ts = some (i, ts₁) ∧
    Tiling.alloc (toBlocks defaultStackSize) ts₁ = none

/-- There are blocks for a new thread and its kernel stack but none for its semaphore. -/
def NoSem (ts : List Tile) : Prop := ∃ i ts₁ k ts₂,
  Tiling.alloc (toBlocks sizeofTCB) ts = some (i, ts₁) ∧
    Tiling.alloc (toBlocks defaultStackSize) ts₁ = some (k, ts₂) ∧
      Tiling.alloc (toBlocks sizeofSem) ts₂ = none

/-- The blocks for a new thread `t`, its kernel stack `k` and its semaphore `j`. -/
def Placed (L : Layout) (ts₀ ts : List Tile) (t k j : Nat) : Prop := ∃ i ts₁ i' ts₂ i'',
  (Tiling.alloc (toBlocks sizeofTCB) ts₀ = some (i, ts₁) ∧ t = L.heap.addr i) ∧
  (Tiling.alloc (toBlocks defaultStackSize) ts₁ = some (i', ts₂) ∧ k = L.heap.addr i') ∧
  Tiling.alloc (toBlocks sizeofSem) ts₂ = some (i'', ts) ∧ j = L.heap.addr i''

theorem Placed.stack {L : Layout} {ts₀ ts : List Tile} {t k j : Nat} (h : Placed L ts₀ ts t k j) :
    ¬NoStack ts₀ := by
  obtain ⟨i, ts₁, i', ts₂, i'', ⟨halloc, -⟩, ⟨halloc', -⟩, -⟩ := h
  rintro ⟨_, _, hsome, hnone⟩
  obtain ⟨rfl, rfl⟩ := Prod.mk.inj (Option.some.inj (hsome.symm.trans halloc))
  exact absurd (hnone.symm.trans halloc') (by simp)

theorem Placed.tcb {L : Layout} {ts₀ ts : List Tile} {t k j : Nat} (h : Placed L ts₀ ts t k j) :
    ¬NoTcb ts₀ := by
  obtain ⟨i, ts₁, -, -, -, ⟨halloc, -⟩, -⟩ := h
  intro hnone
  exact absurd (hnone.symm.trans halloc) (by simp)

theorem Placed.unique {L : Layout} {ts ts₁ ts₂ : List Tile} {t t' k k' j j' : Nat}
    (h : Placed L ts ts₁ t k j) (h' : Placed L ts ts₂ t' k' j') :
    ts₁ = ts₂ ∧ t = t' ∧ k = k' ∧ j = j' := by
  obtain ⟨_, _, _, _, _, ⟨h₁, rfl⟩, ⟨h₂, rfl⟩, h₃, rfl⟩ := h
  obtain ⟨_, _, _, _, _, ⟨h₁', rfl⟩, ⟨h₂', rfl⟩, h₃', rfl⟩ := h'
  obtain ⟨rfl, rfl⟩ := Prod.mk.inj (Option.some.inj (h₁.symm.trans h₁'))
  obtain ⟨rfl, rfl⟩ := Prod.mk.inj (Option.some.inj (h₂.symm.trans h₂'))
  obtain ⟨rfl, rfl⟩ := Prod.mk.inj (Option.some.inj (h₃.symm.trans h₃'))
  exact ⟨rfl, rfl, rfl, rfl⟩

/-- The owners when the thread `t` has been created, on the stack `usr`. -/
def Owners.created (W : Owners) (ts : List Tile) (t usr k j : Nat) : Owners :=
  (W.withBlocks ts ((j, toBlocks sizeofSem) :: (k, toBlocks defaultStackSize) ::
    (t, toBlocks sizeofTCB) :: W.blocks)).addThread t usr k j (W.blocks.filter fun t => t.1 ≠ usr)

theorem Owners.Tiled.quiet_not_in_created {L : Layout} {W : Owners} {ts : List Tile} {t usr k j y : Nat}
    (h : (W.created ts t usr k j).Tiled L) (hy : (W.created ts t usr k j).Quiet L y) :
    ¬Owners.In y (t, toBlocks sizeofTCB) ∧ ¬Owners.In y (j, toBlocks sizeofSem) := by
  have hnew := h.quiet_not_in_thread (t := t) List.mem_cons_self hy
  rwa [show (W.created ts t usr k j).join t = j from Function.update_self (β := fun _ => Nat) ..] at hnew

/-- What `create_tcb` leaves: nothing new, or nothing new but a freed user stack, or a new thread in
blocks of the heap. -/
inductive Created (L : Layout) (σ : Spec) (usr : Nat) : Nat → Mem → Globals → Prop
  | nothing {m' : Mem} {ts : List Tile} {x : Nat} (hnone : NoTcb σ.owners.tiles)
      (h : Holds L (σ.heap (σ.owners.withBlocks ts σ.owners.blocks) x) m'.view) :
      Created L σ usr 0 m' { σ.globals with fbHead := x }
  | undone {m' : Mem} {ts : List Tile} {x t j : Nat} {c₁ c₂ c₃ : Int}
      (hnone : NoStack σ.owners.tiles)
      (h : Holds L (σ.heap (σ.owners.withBlocks ts (σ.owners.blocks.filter fun t => t.1 ≠ usr)) x)
        m'.view)
      (hcodes : ∀ p ∈ [(usr, c₁), (0, c₂), (j, c₃), (t, memSuccess)], p.2 = memSuccess →
        p.1 ∉ σ.owners.tcbs L ∧ p.1 ∉ σ.owners.semaphores L) :
      Created L σ usr 0 m' { σ.globals with
        fbHead := x
        trace := σ.globals.trace ++ [.freed usr c₁] ++ [.freed 0 c₂] ++ [.freed j c₃] ++
          [.freed t memSuccess]
        handles := { σ.globals.handles with
          blocks := σ.globals.handles.blocks.filter fun t => t.1 ≠ usr } }
  | thread {m' : Mem} {ts : List Tile} {x t k j : Nat} (ht : t ≠ 0)
      (hplaced : Placed L σ.owners.tiles ts t k j)
      (h : Holds L (σ.heap (σ.owners.withBlocks ts ((j, toBlocks sizeofSem) ::
        (k, toBlocks defaultStackSize) :: (t, toBlocks sizeofTCB) :: σ.owners.blocks)) x) m'.view)
      (hfresh : Holds.Fresh L σ m'.view t usr k j) :
      Created L σ usr t m' { σ.globals with
        fbHead := x
        trace := σ.globals.trace ++ [.initialized j 0]
        handles := { σ.globals.handles with
          blocks := σ.globals.handles.blocks.filter fun t => t.1 ≠ usr } }

/-- The word that a failing `create_tcb` takes for a semaphore is none, or the user stack. -/
def Leftover (L : Layout) (σ : Spec) (m : Mem) (usr : Nat) : Prop :=
  ∀ i ts, Tiling.alloc (toBlocks sizeofTCB) σ.owners.tiles = some (i, ts) →
    Tiling.alloc (toBlocks defaultStackSize) ts = none →
    (σ.owners.withBlocks ts ((L.heap.addr i, toBlocks sizeofTCB) :: σ.owners.blocks)).Unused L
        (m.field (L.heap.addr i) Field.joinSem) ∨
      m.field (L.heap.addr i) Field.joinSem = usr

namespace Holds

variable {L : Layout} {σ : Spec} {m m' : Mem} {t usr k j n body args : Nat} {E : Fault → Prop}

/-- Writes to a `TCB` in a block. -/
theorem of_block (h : Holds L σ m.view) (ht : (t, n) ∈ σ.owners.blocks) (hn : 360 ≤ 64 * n)
    (hm : ∀ x, x < t ∨ t + 360 ≤ x → m' x = m x) : Holds L σ m'.view := by
  refine h.of_user fun x hx => hm x ?_
  by_contra hin
  exact hx (.inl ⟨_, ht, by simp only; omega, by simp only; omega⟩)

theorem block_ne_zero (h : Holds L σ m.view) (ht : (t, n) ∈ σ.owners.blocks) : t ≠ 0 := by
  obtain ⟨i, -, heq, -⟩ := h.tiled.aligned (Owners.Tiled.mem_block ht)
  simp only at heq
  exact heq ▸ L.heap.addr_ne_zero i

theorem block_lt (h : Holds L σ m.view) (ht : (t, n) ∈ σ.owners.blocks) : t < 2 ^ 64 := by
  have hin := h.tiled.inside (Owners.Tiled.mem_block ht)
  have hend := L.heap.spec.base_end
  have hstop := L.heap.stop_lt
  simp only at hin
  omega

/-- The end of `create_tcb` where there is no kernel stack. -/
theorem undo {x : Nat} {ts : List Tile} (h : Holds L (σ.heap (σ.owners.withBlocks ts
      ((t, toBlocks sizeofTCB) :: σ.owners.blocks)) x) m.view)
    (hnone : NoStack σ.owners.tiles)
    (husr : (usr, toBlocks defaultStackSize) ∈ σ.owners.blocks) (hlt : usr < 2 ^ 64)
    (h1 : m.field t Field.usrStack = usr + defaultStackSize) (h2 : m.field t Field.sysStack = 0)
    (h3 : m.field t Field.joinSem = j)
    (hj : (σ.owners.withBlocks ts ((t, toBlocks sizeofTCB) :: σ.owners.blocks)).Unused L j ∨
      j = usr) : ∃ m' g', (Os1Kernel.freeTcb L t).run m { σ.globals with
        fbHead := x
        handles := { σ.globals.handles with
          blocks := σ.globals.handles.blocks.filter fun t => t.1 ≠ usr } } = .done () m' g' ∧
      Created L σ usr 0 m' g' ∧ ∀ y, (σ.owners.withBlocks ts (σ.owners.blocks.filter
        fun t => t.1 ≠ usr)).Quiet L y ∨ σ.owners.Held L y → y < t ∨ t + 360 ≤ y → m' y = m y := by
  let hs : Handles := { σ.globals.handles with
    blocks := σ.globals.handles.blocks.filter fun t => t.1 ≠ usr }
  let W := σ.owners.withBlocks ts ((t, toBlocks sizeofTCB) :: σ.owners.blocks)
  have hH : Holds L ((σ.heap W x).on { σ.globals with fbHead := x, handles := hs }) m.view :=
    h.on ⟨rfl, rfl, rfl, rfl⟩
  have hW : W.Tiled L := h.tiled
  have htW : (t, toBlocks sizeofTCB) ∈ W.blocks := List.mem_cons_self
  have husrW : (usr, toBlocks defaultStackSize) ∈ W.blocks := List.mem_cons_of_mem _ husr
  have ht0 : t ≠ 0 := h.block_ne_zero htW
  have hpair := List.pairwise_cons.mp hW.blocks_pairwise
  have hut : usr ≠ t := (hpair.1 _ husr).symm
  have hjt : j ≠ t := by
    rintro rfl
    rcases hj with (h0 | hal | ⟨-, hno⟩) | rfl
    · exact ht0 h0
    · obtain ⟨i, -, heq, -⟩ := hW.aligned (Owners.Tiled.mem_block htW)
      simp only at heq
      exact hal (heq ▸ L.heap.addr_aligned i)
    · exact hno _ (Owners.Tiled.mem_block htW) rfl
    · exact hut rfl
  have hjfree : W.Freeable L j := by
    rcases hj with hj | rfl
    · exact .inr hj
    · exact .inl ⟨_, husrW⟩
  obtain ⟨c₁, c₂, c₃, m', x', ts', hrun, hc₁, hc₂, hc₃, hH', hspares, -⟩ := hH.freeTcb htW (by decide)
    (.inl ⟨_, husrW⟩) (k := 0) (.inr (.inl rfl)) hjfree ⟨hut, ht0.symm, hjt⟩ h1 hlt h2 h3
  have hout {p : Nat × Int} (hp : ∃ n, (p.1, n) ∈ W.blocks) :
      p.1 ∉ σ.owners.tcbs L ∧ p.1 ∉ σ.owners.semaphores L := by
    obtain ⟨n, hn⟩ := hp
    exact ⟨hW.block_not_tcb hn, hW.block_not_sem hn⟩
  have hf {a : Nat} {bs : List (Nat × Nat)} {p : Nat × Nat → Bool} (h : ∃ n, (a, n) ∈ bs.filter p) :
      ∃ n, (a, n) ∈ bs := h.imp fun n hn => (List.mem_filter.mp hn).1
  have hblocks : (((((t, toBlocks sizeofTCB) :: σ.owners.blocks).filter fun t => t.1 ≠ usr).filter
      fun t => t.1 ≠ 0).filter fun t => t.1 ≠ j).filter (fun u => u.1 ≠ t) =
        σ.owners.blocks.filter fun t => t.1 ≠ usr := by
    rw [List.filter_filter, List.filter_filter, List.filter_filter,
      List.filter_cons_of_neg (by simp)]
    refine List.filter_congr fun r hr => ?_
    have hr0 : r.1 ≠ 0 := h.block_ne_zero (n := r.2) (List.mem_cons_of_mem _ hr)
    have hrt : r.1 ≠ t := (hpair.1 r hr).symm
    by_cases hru : r.1 = usr
    · simp [hru]
    · have hrj : r.1 ≠ j := by
        rintro rfl
        rcases hj with hj | rfl
        · have hfil := Inside.filter_unused hW hj
          have hmem : r ∈ W.blocks.filter fun t => t.1 ≠ r.1 := by
            rw [hfil]
            exact List.mem_cons_of_mem _ hr
          simpa using (List.mem_filter.mp hmem).2
        · exact hru rfl
      simp [hr0, hrt, hru, hrj]
  have hfinal : Holds L (σ.heap (σ.owners.withBlocks ts' (σ.owners.blocks.filter fun t => t.1 ≠ usr))
      x') m'.view := by
    rw [← hblocks]
    exact hH'.on (g := { σ.globals with fbHead := x' }) ⟨rfl, rfl, rfl, rfl⟩
  have hspared (y : Nat) (hy : (σ.owners.withBlocks ts (σ.owners.blocks.filter
      fun t => t.1 ≠ usr)).Quiet L y ∨ σ.owners.Held L y) (hy' : y < t ∨ t + 360 ≤ y) : m' y = m y := by
    refine hspares y (hy.imp_left fun hy => ?_) hy'
    change (σ.owners.withBlocks ts' (((((t, toBlocks sizeofTCB) :: σ.owners.blocks).filter
      fun t => t.1 ≠ usr).filter fun t => t.1 ≠ 0).filter (fun t => t.1 ≠ j) |>.filter
        fun u => u.1 ≠ t)).Quiet L y
    rw [hblocks]
    exact hy
  refine ⟨m', _, hrun, .undone (σ := σ) hnone hfinal ?_, hspared⟩
  intro p hp hcode
  simp only [List.mem_cons, List.not_mem_nil, or_false] at hp
  rcases hp with rfl | rfl | rfl | rfl
  · exact hout (hc₁.mp hcode)
  · exact hout (hf (hc₂.mp hcode))
  · exact hout (hf (hf (hc₃.mp hcode)))
  · exact hout ⟨_, htW⟩

theorem createTcb_eq {L : Layout} {body args usr : Nat} (hb : body ≠ 0 ∧ usr + defaultStackSize ≠ 0) :
    createTcb L body args (usr + defaultStackSize) =
    (MemoryAllocator.alloc (toBlocks sizeofTCB) >>= fun t =>
      if t = 0 then pure 0
      else initTcb t body args (usr + defaultStackSize) >>= fun _ =>
        record (fun h => { h with blocks := h.blocks.filter fun t => t.1 ≠ usr }) >>= fun _ =>
        MemoryAllocator.alloc (toBlocks defaultStackSize) >>= fun k =>
        wr t .sysStack k >>= fun _ => rd t .sysStack >>= fun x =>
        if x = 0 then Os1Kernel.freeTcb L t >>= fun _ => pure 0
        else initContext L t >>= fun _ => MemoryAllocator.alloc (toBlocks sizeofSem) >>= fun j =>
          Sem.initializeSem j 0 >>= fun _ => wr t .joinSem j >>= fun _ => rd t .joinSem >>= fun x =>
          if x = 0 then Os1Kernel.freeTcb L t >>= fun _ => pure 0 else pure t) := by
  rw [createTcb, if_pos hb, Sem.createSem]
  simp only [bind_assoc, pure_bind, Nat.add_sub_cancel]

/-- Fields of a block do not change where another block is written. -/
theorem field_of_apart {W : Owners} (hW : W.Tiled L) {r u : Nat × Nat} (hr : r ∈ W.used)
    (hu : u ∈ W.used) (hne : r ≠ u) (h360 : 360 ≤ 64 * r.2) {len : Nat} (hlen : len ≤ 64 * u.2)
    (hm : ∀ x, x < u.1 ∨ u.1 + len ≤ x → m' x = m x) {f : Field} (hf : f.ofTcb = true) :
    m'.field r.1 f = m.field r.1 f := by
  refine load_congr fun x hx hx' => hm x ?_
  have hap := hW.apart_of_ne hr hu hne
  have hb := Obj.ofTcb_bounds hf
  unfold Owners.BlocksApart Apart at hap
  omega

/-- `create_tcb` -/
theorem createTcb (h : Holds L σ m.view) (hE : NoSem σ.owners.tiles → E .nullPointer)
    (hbody : body ≠ 0) (hmode : spp σ.globals.sstatus = σ.mode σ.current)
    (husr : (usr, toBlocks defaultStackSize) ∈ σ.owners.blocks) (hleft : Leftover L σ m usr) :
    Prog.Post E (fun r m' g' => Created L σ usr r m' g' ∧ (r = 0 → ∀ y, σ.owners.Held L y → m' y = m y) ∧
        ∀ y, σ.owners.Quiet L y →
        (NoStack σ.owners.tiles → σ.owners.User L y ∧ (σ.owners.withBlocks σ.owners.tiles
          (σ.owners.blocks.filter fun t => t.1 ≠ usr)).Quiet L y) →
        (∀ ts k j, Placed L σ.owners.tiles ts r k j → ¬Owners.In y (r, toBlocks sizeofTCB) ∧
          ¬Owners.In y (j, toBlocks sizeofSem)) → m' y = m y)
      (fun _ _ _ _ => False) ((createTcb L body args (usr + defaultStackSize)).run m σ.globals) := by
  have hsize : u32 (toBlocks sizeofTCB) = toBlocks sizeofTCB ∧ toBlocks sizeofTCB ≠ 0 ∧
      u32 (toBlocks defaultStackSize) = toBlocks defaultStackSize ∧ toBlocks defaultStackSize ≠ 0 ∧
      u32 (toBlocks sizeofSem) = toBlocks sizeofSem ∧ toBlocks sizeofSem ≠ 0 ∧
      360 ≤ 64 * toBlocks sizeofTCB ∧ 24 ≤ 64 * toBlocks sizeofSem ∧
      64 * toBlocks defaultStackSize = defaultStackSize ∧
      toBlocks sizeofTCB ≠ toBlocks sizeofSem ∧ toBlocks sizeofTCB ≠ toBlocks defaultStackSize := by
    decide
  have hlt : usr + defaultStackSize < 2 ^ 64 := by
    have hin := h.tiled.inside (Owners.Tiled.mem_block husr)
    have hend := L.heap.spec.base_end
    have hstop := L.heap.stop_lt
    simp only at hin
    omega
  rw [createTcb_eq ⟨hbody, by unfold defaultStackSize; omega⟩]
  obtain ⟨t, m₁, x₁, ts₁, hrun₁, hkeeps₁, hcase₁, hH₁⟩ := h.alloc (toBlocks sizeofTCB)
  refine post_of_run hrun₁ ?_
  by_cases ht0 : t = 0
  · rw [if_pos ht0, show (pure 0 : Kernel Nat).run m₁ { σ.globals with fbHead := x₁ } =
      .done 0 m₁ { σ.globals with fbHead := x₁ } from rfl, Prog.post_done]
    rw [if_neg (by simp [ht0]), List.nil_append] at hH₁
    refine ⟨.nothing ?_ hH₁, fun _ y hy => hkeeps₁ y (Owners.Held.byte (W := σ.owners) hy),
      fun y hy _ _ => h.alloc_spares hrun₁ y hy⟩
    rcases hcase₁ with ⟨-, hnone⟩ | ⟨i, rfl, -⟩
    · rwa [hsize.1] at hnone
    · exact absurd ht0 (L.heap.addr_ne_zero i)
  rw [if_neg ht0]
  rw [if_pos ⟨ht0, hsize.1 ▸ hsize.2.1⟩, hsize.1] at hH₁
  obtain ⟨i, rfl, halloc₁⟩ := hcase₁.resolve_left fun hn => ht0 hn.1
  rw [hsize.1] at halloc₁
  obtain ⟨t, htdef⟩ : ∃ t, L.heap.addr i = t := ⟨_, rfl⟩
  rw [htdef] at hH₁ hrun₁ ht0 ⊢
  have htW : (t, toBlocks sizeofTCB) ∈ (σ.owners.withBlocks ts₁
      ([(t, toBlocks sizeofTCB)] ++ σ.owners.blocks)).blocks := List.mem_cons_self
  have hout {y : Nat} (hy : σ.owners.User L y) : y < t ∨ t + 360 ≤ y := by
    have hno := hH₁.tiled.user_not_in List.mem_cons_self hy
    unfold Owners.In at hno
    omega
  have hjoin₁ : m₁.field t Field.joinSem = m.field t Field.joinSem := by
    refine load_congr fun y hy hy' => hkeeps₁ y (.inr (.inr ?_))
    rw [← htdef] at hy hy'
    simp only [HeapBounds.addr, show offset Field.joinSem = 296 from rfl,
      show size Field.joinSem = 8 from rfl] at hy hy'
    simp only [sizeofFreeBlocks, memBlockSize]
    omega
  obtain ⟨m₂, hrun₂, hframe₂, hslice₂, hflag₂, husr₂, hjoin₂⟩ :=
    initTcb_returns ht0 hlt m₁ { σ.globals with fbHead := x₁ }
  refine post_of_run hrun₂ (post_of_run run_record ?_)
  have hH₂ : Holds L ((σ.heap (σ.owners.withBlocks ts₁
      ([(t, toBlocks sizeofTCB)] ++ σ.owners.blocks)) x₁).on { σ.globals with
        fbHead := x₁
        handles := { σ.globals.handles with
          blocks := σ.globals.handles.blocks.filter fun t => t.1 ≠ usr } }) m₂.view :=
    (hH₁.of_block htW hsize.2.2.2.2.2.2.1 hframe₂).on ⟨rfl, rfl, rfl, rfl⟩
  obtain ⟨k, m₃, x₃, ts₃, hrun₃, hkeeps₃, hcase₃, hH₃⟩ := hH₂.alloc (toBlocks defaultStackSize)
  refine post_of_run hrun₃ (post_of_run (run_wr ht0) (post_of_run (run_rd ht0) ?_))
  have hfield₃ {f : Field} (hf : f.ofTcb = true) : m₃.field t f = m₂.field t f := by
    have hb := Obj.ofTcb_bounds hf
    exact hkeeps₃.field (Owners.Tiled.mem_block htW) (Nat.le_add_right _ _) (by simp only; omega)
  have hspares₃ {y : Nat} (hy : σ.owners.Quiet L y) (hy' : y < t ∨ t + 360 ≤ y) :
      (m₃.assign t Field.sysStack k) y = m y := by
    have hb : offset Field.sysStack + size Field.sysStack ≤ 360 := by decide
    calc (m₃.assign t Field.sysStack k) y = m₃ y := store_outside (by omega)
      _ = m₂ y := hH₂.alloc_spares hrun₃ y (hy.blocks ts₁ (List.subset_cons_self _ _))
      _ = m₁ y := hframe₂ y hy'
      _ = m y := h.alloc_spares hrun₁ y hy
  have hklt : k < 2 ^ 64 := by
    rcases hcase₃ with ⟨rfl, -⟩ | ⟨i, rfl, -⟩
    · decide
    · by_cases hk0 : L.heap.addr i = 0
      · rw [hk0]
        decide
      · rw [if_pos ⟨hk0, hsize.2.2.1 ▸ hsize.2.2.2.1⟩, hsize.2.2.1] at hH₃
        exact hH₃.block_lt (n := toBlocks defaultStackSize) List.mem_cons_self
  have hkmod : k % 256 ^ 8 = k := Nat.mod_eq_of_lt hklt
  rw [field_assign_same, show size Field.sysStack = 8 from rfl, hkmod]
  have hsys : (m₃.assign t Field.sysStack k).field t Field.sysStack = k := by
    rw [field_assign_same]
    exact Nat.mod_eq_of_lt hklt
  by_cases hk0 : k = 0
  · rw [if_pos hk0]
    rw [if_neg (by simp [hk0]), List.nil_append] at hH₃
    have hnone : Tiling.alloc (toBlocks defaultStackSize) ts₁ = none := by
      rcases hcase₃ with ⟨-, hnone⟩ | ⟨i, rfl, -⟩
      · rwa [hsize.2.2.1] at hnone
      · exact absurd hk0 (L.heap.addr_ne_zero i)
    have hH₄ : Holds L (σ.heap (σ.owners.withBlocks ts₃
        ((t, toBlocks sizeofTCB) :: σ.owners.blocks)) x₃) (m₃.assign t Field.sysStack k).view :=
      Holds.on (g := { σ.globals with fbHead := x₃ })
        (hH₃.assign_block htW hsize.2.2.2.2.2.2.1 rfl) ⟨rfl, rfl, rfl, rfl⟩
    have hrej := hleft i ts₁ halloc₁ hnone
    rw [htdef] at hrej
    obtain ⟨m', g', hrun, hcreated, hspares⟩ := hH₄.undo ⟨i, ts₁, halloc₁, hnone⟩ husr (by omega)
      (by rw [field_assign_ne rfl rfl (by decide), hfield₃ rfl, husr₂]) (hk0 ▸ hsys)
      (by rw [field_assign_ne rfl rfl (by decide), hfield₃ rfl, hjoin₂, hjoin₁]) hrej
    refine post_of_run hrun ?_
    rw [show (pure 0 : Kernel Nat).run m' g' = .done 0 m' g' from rfl, Prog.post_done]
    refine ⟨hcreated, fun _ y hy => ?_, fun y hy hy' _ => ?_⟩
    · have hno : y < t ∨ t + 360 ≤ y := by
        have hno := hH₁.tiled.held_not_in (x := y) hy htW
        unfold Owners.In at hno
        omega
      have hb : offset Field.sysStack + size Field.sysStack ≤ 360 := by decide
      calc m' y = (m₃.assign t Field.sysStack k) y := hspares y (.inr hy) hno
        _ = m₃ y := store_outside (by omega)
        _ = m₂ y := hkeeps₃ y (Owners.Held.byte (W := σ.owners) hy)
        _ = m₁ y := hframe₂ y hno
        _ = m y := hkeeps₁ y (Owners.Held.byte (W := σ.owners) hy)
    · obtain ⟨huser, hfilter⟩ := hy' ⟨i, ts₁, halloc₁, hnone⟩
      exact (hspares y (.inl hfilter) (hout huser)).trans (hspares₃ hy (hout huser))
  rw [if_neg hk0]
  rw [if_pos ⟨hk0, hsize.2.2.1 ▸ hsize.2.2.2.1⟩, hsize.2.2.1] at hH₃
  have hH₄ := hH₃.assign_block (t := t) (x := k) (f := .sysStack) (List.mem_cons_of_mem _ htW)
    hsize.2.2.2.2.2.2.1 rfl
  obtain ⟨m₅, hrun₅, hframe₅, hra₅, hmode₅, hfield₅⟩ := initContext_returns (L := L) ht0
    (m₃.assign t Field.sysStack k) { σ.globals with
      fbHead := x₃
      handles := { σ.globals.handles with
        blocks := σ.globals.handles.blocks.filter fun t => t.1 ≠ usr } }
  refine post_of_run hrun₅ ?_
  have hH₅ := hH₄.of_block (t := t) (List.mem_cons_of_mem _ htW) hsize.2.2.2.2.2.2.1 hframe₅
  obtain ⟨j, m₆, x₆, ts₆, hrun₆, hkeeps₆, hcase₆, hH₆⟩ := hH₅.alloc (toBlocks sizeofSem)
  refine post_of_run hrun₆ ?_
  by_cases hj0 : j = 0
  · refine Prog.post_bind ?_
    rw [hj0, Inside.initializeSem_null, Prog.post_fault]
    refine hE ?_
    obtain ⟨i', -, halloc₃⟩ := hcase₃.resolve_left fun hn => hk0 hn.1
    rcases hcase₆ with ⟨-, hnone⟩ | ⟨i, rfl, -⟩
    · rw [hsize.2.2.2.2.1] at hnone
      rw [hsize.2.2.1] at halloc₃
      exact ⟨i, ts₁, i', ts₃, halloc₁, halloc₃, hnone⟩
    · exact absurd hj0 (L.heap.addr_ne_zero i)
  rw [if_pos ⟨hj0, hsize.2.2.2.2.1 ▸ hsize.2.2.2.2.2.1⟩, hsize.2.2.2.2.1] at hH₆
  obtain ⟨m₇, hrun₇, hframe₇, hvalue₇, hhead₇, htail₇⟩ := @initializeSem_returns _ 0 hj0
    (by decide) m₆ { σ.globals with
      fbHead := x₆
      handles := { σ.globals.handles with
        blocks := σ.globals.handles.blocks.filter fun t => t.1 ≠ usr } }
  refine post_of_run hrun₇ (post_of_run (run_wr ht0) (post_of_run (run_rd ht0) ?_))
  have hH₆' : Holds L (σ.heap (σ.owners.withBlocks ts₆ ((j, toBlocks sizeofSem) ::
      (k, toBlocks defaultStackSize) :: (t, toBlocks sizeofTCB) :: σ.owners.blocks)) x₆) m₆.view :=
    Holds.on (g := { σ.globals with fbHead := x₆ }) hH₆ ⟨rfl, rfl, rfl, rfl⟩
  have hjW : (j, toBlocks sizeofSem) ∈ ((j, toBlocks sizeofSem) ::
      (k, toBlocks defaultStackSize) :: (t, toBlocks sizeofTCB) :: σ.owners.blocks) :=
    List.mem_cons_self
  have htW' : (t, toBlocks sizeofTCB) ∈ ((j, toBlocks sizeofSem) ::
      (k, toBlocks defaultStackSize) :: (t, toBlocks sizeofTCB) :: σ.owners.blocks) := by simp
  have hjlt : j < 2 ^ 64 := hH₆'.block_lt hjW
  have hjmod : j % 256 ^ 8 = j := Nat.mod_eq_of_lt hjlt
  rw [field_assign_same, show size Field.joinSem = 8 from rfl, hjmod, if_neg hj0]
  have hH₇ := hH₆'.of_user fun y hy => hframe₇ y (by
    by_contra hin
    exact hy (.inl ⟨_, hjW, by simp only; omega, by simp only; omega⟩))
  have hH₈ := hH₇.assign_block (x := j) (f := .joinSem) htW' hsize.2.2.2.2.2.2.1 rfl
  have htj : (t, toBlocks sizeofTCB) ≠ (j, toBlocks sizeofSem) := fun heq =>
    hsize.2.2.2.2.2.2.2.2.2.1 (Prod.mk.inj heq).2
  have hfield₇ {f : Field} (hf : f.ofTcb = true) : m₇.field t f = m₅.field t f := by
    have hb := Obj.ofTcb_bounds hf
    have h7 := field_of_apart hH₆'.tiled (Owners.Tiled.mem_block htW') (Owners.Tiled.mem_block hjW)
      htj hsize.2.2.2.2.2.2.1 hsize.2.2.2.2.2.2.2.1 hframe₇ hf
    exact h7.trans (hkeeps₆.field (Owners.Tiled.mem_block (List.mem_cons_of_mem _ htW))
      (Nat.le_add_right _ _) (by simp only; omega))
  have hap := hH₆'.tiled.apart_of_ne (Owners.Tiled.mem_block htW') (Owners.Tiled.mem_block hjW) htj
  have hjcell {a : Nat} {f : Field} (ha : j ≤ a + offset f) (ha' : a + offset f + size f ≤ j + 24) :
      (m₇.assign t Field.joinSem j).field a f = m₇.field a f := by
    refine load_store_apart ?_
    have hb : offset Field.joinSem + size Field.joinSem ≤ 360 := by decide
    unfold Owners.BlocksApart Apart at hap
    unfold Apart
    simp only at hap
    omega
  rw [show (pure t : Kernel Nat).run (m₇.assign t Field.joinSem j) _ =
    .done t (m₇.assign t Field.joinSem j) _ from rfl, Prog.post_done]
  have hplaced : Placed L σ.owners.tiles ts₆ t k j := by
    obtain ⟨i₃, hk, halloc₃⟩ := hcase₃.resolve_left fun hn => hk0 hn.1
    obtain ⟨i₆, hj, halloc₆⟩ := hcase₆.resolve_left fun hn => hj0 hn.1
    rw [hsize.2.2.1] at halloc₃
    rw [hsize.2.2.2.2.1] at halloc₆
    exact ⟨i, ts₁, i₃, ts₃, i₆, ⟨halloc₁, htdef.symm⟩, ⟨halloc₃, hk⟩, halloc₆, hj⟩
  have hspares₈ {y : Nat} (hy : σ.owners.Quiet L y) (ht : ¬Owners.In y (t, toBlocks sizeofTCB))
      (hj : ¬Owners.In y (j, toBlocks sizeofSem)) : (m₇.assign t Field.joinSem j) y = m y := by
    have hb : offset Field.joinSem + size Field.joinSem ≤ 360 := by decide
    unfold Owners.In at ht hj
    have hy' : y < t ∨ t + 360 ≤ y := by omega
    have hj' : y < j ∨ j + 24 ≤ y := by omega
    calc (m₇.assign t Field.joinSem j) y = m₇ y := store_outside (by omega)
      _ = m₆ y := hframe₇ y hj'
      _ = m₅ y := hH₅.alloc_spares hrun₆ y (hy.blocks ts₃ (List.subset_append_right [_, _] _))
      _ = (m₃.assign t Field.sysStack k) y := hframe₅ y hy'
      _ = m y := hspares₃ hy hy'
  refine ⟨.thread ht0 hplaced hH₈ ⟨?_, ?_, ?_, ?_, ?_, ?_, ?_, ?_, ?_, ?_⟩, fun h0 => absurd h0 ht0,
    fun y hy _ hnew => ?_⟩
  · change (m₇.assign t Field.joinSem j).field t Field.usrStack = _
    rw [field_assign_ne rfl rfl (by decide), hfield₇ rfl, hfield₅ _ (by simp),
      field_assign_ne rfl rfl (by decide), hfield₃ rfl, husr₂]
  · change (m₇.assign t Field.joinSem j).field t Field.sysStack = _
    rw [field_assign_ne rfl rfl (by decide), hfield₇ rfl, hfield₅ _ (by simp), hsys]
  · change (m₇.assign t Field.joinSem j).field t Field.joinSem = _
    rw [field_assign_same]
    exact Nat.mod_eq_of_lt hjlt
  · change (m₇.assign t Field.joinSem j).field t Field.timeSlice = _
    rw [field_assign_ne rfl rfl (by decide), hfield₇ rfl, hfield₅ _ (by simp),
      field_assign_ne rfl rfl (by decide), hfield₃ rfl, hslice₂]
  · change (m₇.assign t Field.joinSem j).field t Field.interrupted = _
    rw [field_assign_ne rfl rfl (by decide), hfield₇ rfl, hfield₅ _ (by simp),
      field_assign_ne rfl rfl (by decide), hfield₃ rfl, hflag₂]
  · change (m₇.assign t Field.joinSem j).field t Field.ra = _
    rw [field_assign_ne rfl rfl (by decide), hfield₇ rfl, hra₅]
  · change spp ((m₇.assign t Field.joinSem j).field t Field.sstatus) = _
    rw [field_assign_ne rfl rfl (by decide), hfield₇ rfl, hmode₅]
    exact hmode
  · change (m₇.assign t Field.joinSem j).field j Field.value = _
    rw [hjcell (Nat.le_add_right _ _) (Nat.add_le_add_left (by decide : offset Field.value +
      size Field.value ≤ 24) j)]
    exact hvalue₇
  · change (m₇.assign t Field.joinSem j).field (j + 8) Field.head = _
    rw [hjcell (by omega) (Nat.add_le_add_left (by decide : 8 + (offset Field.head +
      size Field.head) ≤ 24) j |>.trans' (by omega))]
    exact hhead₇
  · change (m₇.assign t Field.joinSem j).field (j + 8) Field.tail = _
    rw [hjcell (by omega) (Nat.add_le_add_left (by decide : 8 + (offset Field.tail +
      size Field.tail) ≤ 24) j |>.trans' (by omega))]
    exact htail₇
  · obtain ⟨ht, hj⟩ := hnew ts₆ k j hplaced
    exact hspares₈ hy ht hj

end Holds

namespace Holds.Fresh

variable {L : Layout} {σ : Spec} {v v' : Cells} {t usr k j : Nat}

theorem congr (h : Holds.Fresh L σ v t usr k j) (ht : ∀ f : Field, f.ofTcb = true → v' t f = v t f)
    (hj : v' j .value = v j .value ∧ v' (j + 8) .head = v (j + 8) .head ∧
      v' (j + 8) .tail = v (j + 8) .tail) : Holds.Fresh L σ v' t usr k j where
  usrStack := (ht _ rfl).trans h.usrStack
  sysStack := (ht _ rfl).trans h.sysStack
  joinSem := (ht _ rfl).trans h.joinSem
  slice := (ht _ rfl).trans h.slice
  flag := (ht _ rfl).trans h.flag
  ra := (ht _ rfl).trans h.ra
  mode := by
    rw [ht _ rfl]
    exact h.mode
  value := hj.1.trans h.value
  head := hj.2.1.trans h.head
  tail := hj.2.2.trans h.tail

end Holds.Fresh

namespace Inside

variable {L : Layout} {S : Nat → Option (Kernel Unit)} {I : Spec → Prop} {σ : Spec} {v : Cells}
  {m : Mem} {E : Fault → Prop} {X : Nat → Prop} {t usr k j x p0 p1 p2 : Nat}

/-- What is left of `thread_create` when `create_tcb` has returned. -/
def afterCreate (L : Layout) (p0 usr t : Nat) : Kernel Unit :=
  wr p0 .handle t >>= fun _ => rd p0 .handle >>= fun x =>
    if x ≠ 0 then rd p0 .handle >>= fun tcb =>
      record (fun h => { h with
        threads := tcb :: h.threads
        stackBlocks := (tcb, usr) :: h.stackBlocks }) >>= fun _ =>
      globals >>= fun g => Os1Kernel.log (.created g.currentTcb tcb) >>= fun _ =>
      rd p0 .handle >>= fun tcb => Scheduler.putTcb L tcb >>= fun _ =>
      Os1Kernel.setA0 (signExtend successSyscall) >>= fun _ => ecallReturn
    else ecallReturn

theorem createThreadCall_eq (hp : p0 ≠ 0) {p3 : Nat} :
    (createThreadCall L p0 p1 p2 p3 >>= fun _ => ecallReturn) =
      (createTcb L p1 p2 p3 >>= afterCreate L p0 (p3 - defaultStackSize)) := by
  rw [createThreadCall, if_pos hp]
  simp only [bind_assoc]
  refine bind_congr fun t => bind_congr fun _ => bind_congr fun x => ?_
  split
  · simp only [bind_assoc]
  · rfl

/-- No thread has been created. -/
theorem post_afterCreate_zero (h : Inside L S I σ m.view) (hI : Kept L I) (hp : p0 ≠ 0)
    (huser : ∀ y, p0 ≤ y → y < p0 + 8 → σ.owners.User L y)
    {Q : Unit → Mem → Globals → Prop} {T : Switch → Kernel Unit → Mem → Globals → Prop}
    (hQ : ∀ τ m', Inside L S I τ m'.view → m'.field p0 Field.handle = 0 → τ.owners = σ.owners →
      (∀ y, y < p0 ∨ p0 + 8 ≤ y → m' y = m y) → Q () m' τ.globals) :
    Prog.Post E Q T ((afterCreate L p0 usr 0).run m σ.globals) := by
  have hin : Inside L S I σ (m.assign p0 Field.handle 0).view :=
    { h with holds := holds_assign h.holds huser }
  refine post_handle hp (by decide) ?_
  rw [if_neg (by simp), hin.run_return, Prog.post_done]
  exact hQ _ _ (hin.returned hI _) field_assign_same rfl fun y hy => store_outside hy

theorem freed (h : Inside L S I σ v) (hI : Kept L I) {a : Nat} {code : Int}
    (ha : code = memSuccess → a ∉ σ.owners.threads ∧ a ∉ σ.owners.semaphores L) :
    Inside L S I (σ.freed a code) v :=
  h.step hI (.freed h.valid h.resuming a code ha) (h.holds.log _) rfl rfl rfl (List.Subset.refl _)
    rfl rfl rfl h.running.mode rfl rfl

/-- A thread has been created. -/
theorem post_afterCreate (h : Inside L S I σ m.view) (hI : Kept L I) (hp : p0 ≠ 0)
    (huser : ∀ y, p0 ≤ y → y < p0 + 8 → σ.owners.User L y)
    (husr : (usr, toBlocks defaultStackSize) ∈ σ.owners.blocks) {m' : Mem} {ts : List Tile}
    (ht : t ≠ 0)
    (hH : Holds L (σ.heap (σ.owners.withBlocks ts ((j, toBlocks sizeofSem) ::
      (k, toBlocks defaultStackSize) :: (t, toBlocks sizeofTCB) :: σ.owners.blocks)) x) m'.view)
    (hfresh : Holds.Fresh L σ m'.view t usr k j)
    {Q : Unit → Mem → Globals → Prop} {T : Switch → Kernel Unit → Mem → Globals → Prop}
    (hQ : ∀ a0 m'', Inside L S I ((σ.create t j (σ.owners.created ts t usr k j) x).returned a0)
        m''.view → m''.field p0 Field.handle = t →
      (∀ y, (σ.owners.created ts t usr k j).Quiet L y → y < p0 ∨ p0 + 8 ≤ y → m'' y = m' y) →
      Q () m'' ((σ.create t j (σ.owners.created ts t usr k j) x).returned a0).globals) :
    Prog.Post E Q T ((afterCreate L p0 usr t).run m' { σ.globals with
      fbHead := x
      trace := σ.globals.trace ++ [.initialized j 0]
      handles := { σ.globals.handles with
        blocks := σ.globals.handles.blocks.filter fun t => t.1 ≠ usr } }) := by
  let W := σ.owners.withBlocks ts ((j, toBlocks sizeofSem) :: (k, toBlocks defaultStackSize) ::
    (t, toBlocks sizeofTCB) :: σ.owners.blocks)
  have hW : W.Tiled L := hH.tiled
  have htW : (t, toBlocks sizeofTCB) ∈ W.blocks := by simp [W, Owners.withBlocks]
  have hjW : (j, toBlocks sizeofSem) ∈ W.blocks := List.mem_cons_self
  have htlt : t < 2 ^ 64 := hH.block_lt htW
  have hsize : toBlocks sizeofTCB ≠ toBlocks defaultStackSize ∧
      toBlocks sizeofSem ≠ toBlocks defaultStackSize ∧ 360 ≤ 64 * toBlocks sizeofTCB ∧
      24 ≤ 64 * toBlocks sizeofSem := by decide
  -- the word of the handle lies in none of the new blocks
  have hout {y : Nat} (hy : σ.owners.User L y) {r : Nat × Nat}
      (hr : r = (t, toBlocks sizeofTCB) ∨ r = (j, toBlocks sizeofSem)) (hin : Owners.In y r) :
      False := by
    have htiled : (σ.owners.withBlocks ts ([(j, toBlocks sizeofSem), (k, toBlocks defaultStackSize),
      (t, toBlocks sizeofTCB)] ++ σ.owners.blocks)).Tiled L := hW
    rcases hr with rfl | rfl
    · exact htiled.user_not_in (by simp) hy hin
    · exact htiled.user_not_in (by simp) hy hin
  have hfresh' : Holds.Fresh L σ (m'.assign p0 Field.handle t).view t usr k j := by
    have hkeep {a : Nat} {f : Field} {r : Nat × Nat}
        (hr : r = (t, toBlocks sizeofTCB) ∨ r = (j, toBlocks sizeofSem)) (ha : r.1 ≤ a + offset f)
        (ha' : a + offset f + size f ≤ r.1 + 64 * r.2) :
        (m'.assign p0 Field.handle t).field a f = m'.field a f := by
      refine load_congr fun y hy hy' => store_outside ?_
      by_contra hno
      have h8 : offset Field.handle = 0 ∧ size Field.handle = 8 := ⟨rfl, rfl⟩
      exact hout (huser y (by omega) (by omega)) hr ⟨by omega, by omega⟩
    refine hfresh.congr (fun f hf => ?_) ⟨?_, ?_, ?_⟩
    · have hb := Obj.ofTcb_bounds hf
      exact hkeep (.inl rfl) (Nat.le_add_right _ _) (by simp only; omega)
    · have hb : offset Field.value + size Field.value ≤ 24 := by decide
      exact hkeep (.inr rfl) (Nat.le_add_right _ _) (by simp only; omega)
    · have hb : offset Field.head + size Field.head ≤ 16 := by decide
      exact hkeep (.inr rfl) (by simp only; omega) (by simp only; omega)
    · have hb : offset Field.tail + size Field.tail ≤ 16 := by decide
      exact hkeep (.inr rfl) (by simp only; omega) (by simp only; omega)
  have hH' : Holds L (σ.heap W x) (m'.assign p0 Field.handle t).view := by
    refine holds_assign (σ := σ.heap W x) hH fun y hy hy' => ?_
    rcases huser y hy hy' with ⟨u, hu, hi⟩ | hu | hu
    · exact .inl ⟨u, by simp [Spec.heap, W, Owners.withBlocks, hu], hi⟩
    · exact .inr (.inl hu)
    · exact .inr (.inr hu)
  have hread : (m'.assign p0 Field.handle t).field p0 Field.handle = t := by
    rw [field_assign_same]
    exact Nat.mod_eq_of_lt htlt
  refine post_handle hp htlt ?_
  rw [if_pos ht]
  refine post_of_run (run_rd hp) (post_of_run run_record (post_of_run run_globals
    (post_of_run run_log (post_of_run (run_rd hp) ?_))))
  rw [hread]
  -- the blocks become a thread, which becomes ready
  have hperm : W.blocks.Perm ([(t, toBlocks sizeofTCB), (usr, toBlocks defaultStackSize),
      (k, toBlocks defaultStackSize), (j, toBlocks sizeofSem)] ++
        σ.owners.blocks.filter fun t => t.1 ≠ usr) := by
    refine List.perm_iff_count.mpr fun r => ?_
    have hcount := (h.holds.tiled.blocks_erase husr).count_eq r
    simp only [W, Owners.withBlocks, List.count_append, List.count_cons, List.count_nil] at hcount ⊢
    omega
  obtain ⟨hrest, hQ'⟩ := hH'.addThread hperm { hfresh' with }
  have htnew := hW.block_not_tcb htW
  have hjnew := hW.block_not_sem hjW
  simp only at htnew hjnew
  let W' := W.addThread t usr k j (σ.owners.blocks.filter fun t => t.1 ≠ usr)
  have hhandles : ({ σ.globals.handles with
      blocks := σ.globals.handles.blocks.filter fun t => t.1 ≠ usr
      threads := t :: σ.globals.handles.threads
      stackBlocks := (t, usr) :: σ.globals.handles.stackBlocks } : Handles) =
        W'.handles σ.globals.handles.flush := by
    have hstack : σ.owners.threads.map (fun u => (u, σ.owners.stack u)) =
        σ.owners.threads.map fun u => (u, Function.update σ.owners.stack t usr u) := by
      refine List.map_congr_left fun u hu => ?_
      have hne : u ≠ t := fun heq => htnew (List.mem_cons_of_mem _ (heq ▸ hu))
      rw [Function.update_of_ne hne]
    rw [h.handles]
    simp only [Owners.handles, W', W, Owners.addThread, Owners.withBlocks, hstack, List.map_cons,
      Function.update_self]
  have huserW {y : Nat} (hy : σ.owners.User L y) : W'.User L y := by
    rcases hy with ⟨r, hr, hi⟩ | ⟨u, hu, hi⟩ | hu
    · by_cases hru : r.1 = usr
      · refine .inr (.inl ⟨t, List.mem_cons_self, ?_⟩)
        have hstack : W'.stack t = usr := Function.update_self (β := fun _ => Nat) ..
        have hsame := h.holds.tiled.blocks_eq hr husr hru
        subst hsame
        change Owners.In y (W'.stack t, toBlocks defaultStackSize)
        rw [hstack]
        exact hi
      · exact .inl ⟨r, List.mem_filter.mpr ⟨hr, by simpa using hru⟩, hi⟩
    · refine .inr (.inl ⟨u, List.mem_cons_of_mem _ hu, ?_⟩)
      have hne : u ≠ t := fun heq => htnew (List.mem_cons_of_mem _ (heq ▸ hu))
      have hstack : W'.stack u = σ.owners.stack u := Function.update_of_ne hne _ _
      change Owners.In y (W'.stack u, toBlocks defaultStackSize)
      rw [hstack]
      exact hi
    · exact .inr (.inr hu)
  have hspares {m'' : Mem} (hframe : Frame (W'.cells L) (m'.assign p0 Field.handle t) m'') {y : Nat}
      (hy : W'.Quiet L y) : m'' y = (m'.assign p0 Field.handle t) y :=
    hrest.tiled.spares_of_cells hframe y hy
  have hword {m'' : Mem} (hframe : Frame (W'.cells L) (m'.assign p0 Field.handle t) m'') :
      m''.field p0 Field.handle = t := by
    refine (load_congr fun y hy hy' => hspares hframe (.inl (huserW (huser y ?_ ?_)))).trans hread <;>
      · have h8 : offset Field.handle = 0 ∧ size Field.handle = 8 := ⟨rfl, rfl⟩
        omega
  refine Prog.post_of_wp hrest.tiled.separate ?_
  rw [Prog.wp_bind]
  refine hQ'.wp_putTcb hrest.tiled rfl fun v' hq hst hQ'' => ?_
  have hcreate : Holds L (σ.create t j W' x) v' := by
    refine (@Rest.of_quiet _ _ (σ.create t j W' x) _ _ hrest hq rfl rfl (fun _ _ => rfl)
      ⟨rfl, rfl, rfl, rfl⟩).holds hQ'' fun u hu => ?_
    have hne : u ≠ t := fun heq => htnew (heq ▸ h.holds.queues.moving_mem hu)
    exact (hst u hne).trans (hH'.status u hu)
  have hcur : (σ.create t j W' x).mode (σ.create t j W' x).current = σ.mode σ.current := by
    have hne : σ.current ≠ t := fun heq => htnew (heq ▸ h.holds.current_mem h.running)
    exact Function.update_of_ne hne _ _
  have hin : Inside L S I (σ.create t j W' x) v' := by
    refine h.change hI (.create h.valid h.resuming x htnew hjnew ⟨rfl, rfl, rfl, rfl, rfl, rfl⟩)
      hcreate rfl rfl (List.subset_append_left _ _) (List.subset_cons_self _ _) (fun u hu hf => ?_) rfl
      rfl (h.running.mode.trans hcur.symm) rfl rfl
    have hne : u ≠ t := by
      rintro rfl
      exact hf (Function.update_self (β := fun _ => Cont) ..)
    refine ⟨?_, Function.update_of_ne hne _ _⟩
    rcases List.mem_cons.mp hu with rfl | hu
    · exact List.mem_cons_self
    · exact List.mem_cons_of_mem _ ((List.mem_cons.mp hu).resolve_left hne)
  have hret := hin.wp_setA0 (p := fun _ => ecallReturn)
    (Q := fun r v'' g => ∀ m'', Sim (W'.cells L) m'' v'' →
      Frame (W'.cells L) (m'.assign p0 Field.handle t) m'' → Q r m'' g)
    (T := fun s k v'' g => ∀ m'', Sim (W'.cells L) m'' v'' →
      Frame (W'.cells L) (m'.assign p0 Field.handle t) m'' → T s k m'' g)
    (x := signExtend successSyscall) fun v'' h'' => h''.wp_returned hI fun a0 h₃ m'' hsim hframe =>
      hQ a0 m'' { h₃ with holds := h₃.holds.of_sim hsim } (hword hframe) fun y hy hout =>
        (hspares hframe hy).trans (store_outside hout)
  have hg : (σ.create t j W' x).globals = { σ.globals with
      fbHead := x
      trace := σ.globals.trace ++ [.initialized j 0] ++ [.created σ.globals.currentTcb t] ++
        [.readied t]
      handles := { σ.globals.handles with
        blocks := σ.globals.handles.blocks.filter fun t => t.1 ≠ usr
        threads := t :: σ.globals.handles.threads
        stackBlocks := (t, usr) :: σ.globals.handles.stackBlocks } } := by
    rw [hhandles]
    rfl
  rw [hg] at hret
  exact hret

/-- `thread_create` -/
theorem post_createThread_of (h : Inside L S I σ m.view) (hI : Kept L I)
    (hE : NoSem σ.owners.tiles → E .nullPointer) {p3 : Nat} (h0 : p0 ≠ 0)
    (huser : ∀ y, p0 ≤ y → y < p0 + 8 → σ.owners.User L y)
    (hp : p1 = 0 ∨ p3 = 0 ∨
      ∃ usr, p3 = usr + defaultStackSize ∧ (usr, toBlocks defaultStackSize) ∈ σ.owners.blocks ∧
        (p0 + 8 ≤ usr ∨ usr + defaultStackSize ≤ p0) ∧ Leftover L σ m usr)
    {Q : Unit → Mem → Globals → Prop} {T : Switch → Kernel Unit → Mem → Globals → Prop}
    (hX : ∀ y, p0 ≤ y → y < p0 + 8 → X y)
    (hX' : NoStack σ.owners.tiles → ∀ y, σ.owners.Free L y → X y)
    (hQ₀ : p1 = 0 ∨ p3 = 0 ∨ NoTcb σ.owners.tiles ∨ NoStack σ.owners.tiles →
      ∀ τ m', Inside L S I τ m'.view → m'.field p0 Field.handle = 0 →
        Spared L σ.owners τ.owners X m m' → Q () m' τ.globals)
    (hQ : ∀ t k j ts x a0 m', Placed L σ.owners.tiles ts t k j →
      Inside L S I ((σ.create t j (σ.owners.created ts t (p3 - defaultStackSize) k j) x).returned a0)
        m'.view → m'.field p0 Field.handle = t →
      Spared L σ.owners (σ.owners.created ts t (p3 - defaultStackSize) k j) X m m' →
      Q () m' ((σ.create t j (σ.owners.created ts t (p3 - defaultStackSize) k j) x).returned
        a0).globals) :
    Prog.Post E Q T ((createThreadCall L p0 p1 p2 p3 >>= fun _ => ecallReturn).run m σ.globals) := by
  rw [createThreadCall_eq h0]
  have hout {y : Nat} (hy : ¬X y) : y < p0 ∨ p0 + 8 ≤ y := by
    by_contra hin
    exact hy (hX y (by omega) (by omega))
  by_cases hzero : ¬(p1 ≠ 0 ∧ p3 ≠ 0)
  · have hfail : p1 = 0 ∨ p3 = 0 ∨ NoTcb σ.owners.tiles ∨ NoStack σ.owners.tiles := by
      rw [not_and_or, not_not, not_not] at hzero
      exact hzero.imp id .inl
    refine post_of_run (r := 0) ?_ (h.post_afterCreate_zero hI h0 huser fun τ m' hin hfield _ hs =>
      hQ₀ hfail τ m' hin hfield fun y _ _ hy => hs y (hout hy))
    rw [createTcb, if_neg hzero]
    rfl
  obtain ⟨hp1, hp3⟩ := not_not.mp hzero
  obtain ⟨usr, rfl, husr, hapart, hleft⟩ := (hp.resolve_left hp1).resolve_left hp3
  rw [Nat.add_sub_cancel] at hQ ⊢
  refine Prog.post_bind (Prog.post_mono (h.holds.createTcb hE hp1 h.running.mode
    husr hleft) (fun r m' g' ⟨hc, _, hspares⟩ => ?_) fun _ _ _ _ hf => hf.elim)
  cases hc with
  | @nothing m' ts x hnone hH =>
    have hin := h.retile hI (.withBlocks σ.owners ts σ.owners.blocks) hH
    have hno : ¬NoStack σ.owners.tiles := fun ⟨_, _, hsome, _⟩ => by
      rw [NoTcb, hsome] at hnone
      cases hnone
    have hret := @post_afterCreate_zero _ _ _ _ _ E usr _ hin hI h0 huser _ T fun τ m'' hin' hfield _ hs =>
      hQ₀ (.inr (.inr (.inl hnone))) τ m'' hin' hfield fun y hy _ hy' =>
        (hs y (hout hy')).trans (hspares y hy (fun hn => absurd hn hno) fun _ _ _ hplaced =>
          absurd hnone hplaced.tcb)
    rwa [retile_globals (r := σ.globals.handles) (by rw [h.handles]; rfl)] at hret
  | @undone m' ts x t j c₁ c₂ c₃ hnone hH hcodes =>
    have hin := h.retile hI (.withBlocks σ.owners ts (σ.owners.blocks.filter fun t => t.1 ≠ usr)) hH
    have hcode {p : Nat × Int} (hmem : p ∈ [(usr, c₁), (0, c₂), (j, c₃), (t, memSuccess)])
        (hs : p.2 = memSuccess) : p.1 ∉ σ.owners.threads ∧ p.1 ∉ σ.owners.semaphores L :=
      (hcodes p hmem hs).imp_left fun hn hm => hn (List.mem_cons_of_mem _ hm)
    have hin' := (((hin.freed hI (hcode (p := (usr, c₁)) (by simp))).freed hI
      (hcode (p := (0, c₂)) (by simp))).freed hI (hcode (p := (j, c₃)) (by simp))).freed hI
        (hcode (p := (t, memSuccess)) (by simp))
    have huser' : ∀ y, p0 ≤ y → y < p0 + 8 →
        (σ.owners.withBlocks ts (σ.owners.blocks.filter fun t => t.1 ≠ usr)).User L y := by
      intro y hy hy'
      have hsz : 64 * toBlocks defaultStackSize = defaultStackSize := by decide
      refine (huser y hy hy').filter_ne h.holds.tiled husr (fun hi => ?_) ts
      unfold Owners.In at hi
      simp only at hi
      omega
    have hret := @post_afterCreate_zero _ _ _ _ _ E usr _ hin' hI h0 huser' _ T
      fun τ m'' hin' hfield how hs => hQ₀ (.inr (.inr (.inr hnone))) τ m'' hin' hfield
        fun y hy hy' hy'' => by
          rw [how] at hy'
          have huser : σ.owners.User L y := hy.resolve_right fun hfree => hy'' (hX' hnone y hfree)
          exact (hs y (hout hy'')).trans (hspares y hy (fun _ => ⟨huser, hy'⟩) fun _ _ _ hplaced =>
            absurd hnone hplaced.stack)
    simp only [Spec.freed, Spec.log, Spec.on] at hret
    rwa [retile_globals (r := { σ.globals.handles with
      blocks := σ.globals.handles.blocks.filter fun t => t.1 ≠ usr }) (by rw [h.handles]; rfl)] at hret
  | thread ht hplaced hH hfresh =>
    exact h.post_afterCreate hI h0 huser husr ht hH hfresh fun a0 m'' hin hfield hs =>
      hQ _ _ _ _ _ a0 m'' hplaced hin hfield fun y hy hy' hy'' => by
        refine (hs y hy' (hout hy'')).trans (hspares y hy (fun hn => absurd hn hplaced.stack) ?_)
        intro ts' k' j' hplaced'
        obtain ⟨-, -, -, rfl⟩ := hplaced.unique hplaced'
        exact hin.holds.tiled.quiet_not_in_created hy'

theorem spared_createThread (h : Inside L S I σ m.view) (hI : Kept L I) (hE : E .nullPointer) {p3 : Nat}
    (hp : p0 = 0 ∨ (∀ y, p0 ≤ y → y < p0 + 8 → σ.owners.User L y) ∧ (p1 = 0 ∨ p3 = 0 ∨
      ∃ usr, p3 = usr + defaultStackSize ∧ (usr, toBlocks defaultStackSize) ∈ σ.owners.blocks ∧
        (p0 + 8 ≤ usr ∨ usr + defaultStackSize ≤ p0) ∧ Leftover L σ m usr))
    (hX : ∀ y, p0 ≤ y → y < p0 + 8 → X y)
    (hX' : NoStack σ.owners.tiles → ∀ y, σ.owners.Free L y → X y) :
    Prog.Post E (BackFrom L S I σ.owners X m) (GoneFrom L S I σ.owners X m)
      ((createThreadCall L p0 p1 p2 p3 >>= fun _ => ecallReturn).run m σ.globals) := by
  by_cases h0 : p0 = 0
  · rw [createThreadCall, if_neg (not_not.mpr h0)]
    exact h.spared_return hI
  obtain ⟨huser, hp⟩ := hp.resolve_left h0
  exact h.post_createThread_of hI (fun _ => hE) h0 huser hp hX hX' (fun _ τ _ hin _ hs => ⟨τ, rfl, hin, hs⟩)
    fun _ _ _ _ _ _ _ _ hin _ hs => ⟨_, rfl, hin, hs⟩

end Inside

end Os1Kernel
