import Os1Kernel.Threads.Grows
import Os1Kernel.Threads.Run

/-! The boot of the kernel reaches the first state of the abstract machine, and every step from there
on is simulated. -/

namespace Os1Kernel

open Memory MemoryAllocator
open Tiling hiding alloc

/-- The heap does not depend on memory outside of it. -/
theorem HeapRep.of_below {B : HeapBounds} {ts : List Tile} {m m' : Mem} {g : Globals}
    (h : HeapRep B ts m.view g) (hm : ∀ x, B.start ≤ x → m' x = m x) :
    HeapRep B ts m'.view g :=
  h.congr fun a f ⟨o, ho, hc⟩ => load_congr fun x hx _ => hm x (by
    have := Obj.ofHeap_inside h.valid ho hc
    omega)

theorem load_zero {m : Mem} {a n : Nat} (h : ∀ x, a ≤ x → x < a + n → m x = 0) : load m a n = 0 := by
  induction n generalizing a with
  | zero => rfl
  | succ n ih =>
    rw [load, h a (le_refl a) (by omega), ih fun x hx hx' => h x (by omega) (by omega)]
    rfl

theorem zeroFill_zero {rs : List (Nat × Nat)} {m : Mem} {x : Nat}
    (h : m x = 0 ∨ ∃ r ∈ rs, r.1 ≤ x ∧ x < r.1 + r.2) : (rs.foldl zeroFill m) x = 0 := by
  induction rs generalizing m with
  | nil => simpa using h
  | cons r rs ih =>
    refine ih ?_
    rcases h with h | ⟨u, hu, hin⟩
    · left
      unfold zeroFill store
      split
      · simp
      · exact h
    · rcases List.mem_cons.mp hu with rfl | hu
      · left
        rw [zeroFill, store, if_pos hin]
        simp
      · exact .inr ⟨u, hu, hin⟩

/-- The static objects do not overlap, and lie below the heap. -/
theorem Layout.places (L : Layout) :
    (L.mainTcb + 360 ≤ L.scheduler ∨ L.scheduler + 24 ≤ L.mainTcb) ∧
    (L.mainTcb + 360 ≤ L.sleepQueue ∨ L.sleepQueue + 16 ≤ L.mainTcb) ∧
    (L.mainTcb + 360 ≤ L.putcSem ∨ L.putcSem + 24 ≤ L.mainTcb) ∧
    (L.mainTcb + 360 ≤ L.getcSem ∨ L.getcSem + 24 ≤ L.mainTcb) ∧
    (L.scheduler + 24 ≤ L.putcSem ∨ L.putcSem + 24 ≤ L.scheduler) ∧
    (L.scheduler + 24 ≤ L.getcSem ∨ L.getcSem + 24 ≤ L.scheduler) ∧
    (L.sleepQueue + 16 ≤ L.putcSem ∨ L.putcSem + 24 ≤ L.sleepQueue) ∧
    (L.sleepQueue + 16 ≤ L.getcSem ∨ L.getcSem + 24 ≤ L.sleepQueue) ∧
    (L.putcSem + 24 ≤ L.getcSem ∨ L.getcSem + 24 ≤ L.putcSem) ∧
    (0 < L.mainTcb ∧ 0 < L.scheduler ∧ 0 < L.putcSem ∧ 0 < L.getcSem) ∧
    L.mainTcb + 360 ≤ L.heap.start ∧ L.scheduler + 24 ≤ L.heap.start ∧
    L.sleepQueue + 16 ≤ L.heap.start ∧ L.putcSem + 24 ≤ L.heap.start ∧
    L.getcSem + 24 ≤ L.heap.start := by
  have hap := L.apart
  have hin := L.inside
  simp only [List.pairwise_cons, List.mem_cons, List.not_mem_nil, or_false, forall_eq_or_imp,
    forall_eq, Apart] at hap hin
  omega

/-- What the boot relies on in the static objects. -/
structure Loaded (L : Layout) (m : Mem) : Prop where
  ready : m.field L.scheduler Field.head = 0 ∧ m.field L.scheduler Field.tail = 0
  asleep : m.field L.sleepQueue Field.head = 0 ∧ m.field L.sleepQueue Field.tail = 0
  status : m.field L.mainTcb Field.status = TCBStatus.running.code
  join : m.field L.mainTcb Field.joinSem = 0
  flag : m.field L.mainTcb Field.interrupted = 0
  slice : m.field L.mainTcb Field.timeSlice = defaultTimeSlice

namespace Loaded

variable {L : Layout} {m m' : Mem}

theorem congr (h : Loaded L m) (hmain : ∀ x, L.mainTcb ≤ x → x < L.mainTcb + 360 → m' x = m x)
    (hready : ∀ x, L.scheduler ≤ x → x < L.scheduler + 16 → m' x = m x)
    (hasleep : ∀ x, L.sleepQueue ≤ x → x < L.sleepQueue + 16 → m' x = m x) : Loaded L m' := by
  have hlist (f : Field) (hf : f = .head ∨ f = .tail) : offset f + size f ≤ 16 := by
    rcases hf with rfl | rfl <;> decide
  have hr (f : Field) (hf : f = .head ∨ f = .tail) :
      m'.field L.scheduler f = m.field L.scheduler f :=
    load_congr fun x hx hx' => hready x (by omega) (by have := hlist f hf; omega)
  have hs (f : Field) (hf : f = .head ∨ f = .tail) :
      m'.field L.sleepQueue f = m.field L.sleepQueue f :=
    load_congr fun x hx hx' => hasleep x (by omega) (by have := hlist f hf; omega)
  have hm (f : Field) (hf : f.ofTcb = true) : m'.field L.mainTcb f = m.field L.mainTcb f :=
    load_congr fun x hx hx' => hmain x (by omega) (by have := Obj.ofTcb_bounds hf; omega)
  refine ⟨?_, ?_, ?_, ?_, ?_, ?_⟩
  · rw [hr _ (.inl rfl), hr _ (.inr rfl)]
    exact h.ready
  · rw [hs _ (.inl rfl), hs _ (.inr rfl)]
    exact h.asleep
  · exact (hm _ rfl).trans h.status
  · exact (hm _ rfl).trans h.join
  · exact (hm _ rfl).trans h.flag
  · exact (hm _ rfl).trans h.slice

/-- The stack of the main thread. -/
theorem assign (h : Loaded L m) {f : Field} (hf : f = .sysStack ∨ f = .sysSp) (x : Nat) :
    Loaded L (m.assign L.mainTcb f x) := by
  have hp := L.places
  have hbound : offset f + size f ≤ 360 ∧ f.ofTcb = true := by rcases hf with rfl | rfl <;> decide
  have hlist {a : Nat} {g : Field} (ha : L.mainTcb + 360 ≤ a ∨ a + 16 ≤ L.mainTcb)
      (hg : g = .head ∨ g = .tail) : (m.assign L.mainTcb f x).field a g = m.field a g := by
    refine load_store_apart ?_
    have : offset g + size g ≤ 16 := by rcases hg with rfl | rfl <;> decide
    unfold Apart
    omega
  have hmain {g : Field} (hg : g.ofTcb = true) (hne : g ≠ f) :
      (m.assign L.mainTcb f x).field L.mainTcb g = m.field L.mainTcb g :=
    field_assign_ne hbound.2 hg hne
  refine ⟨?_, ?_, ?_, ?_, ?_, ?_⟩
  · rw [hlist (by omega) (.inl rfl), hlist (by omega) (.inr rfl)]
    exact h.ready
  · rw [hlist (by omega) (.inl rfl), hlist (by omega) (.inr rfl)]
    exact h.asleep
  · exact (hmain rfl (by rcases hf with rfl | rfl <;> decide)).trans h.status
  · exact (hmain rfl (by rcases hf with rfl | rfl <;> decide)).trans h.join
  · exact (hmain rfl (by rcases hf with rfl | rfl <;> decide)).trans h.flag
  · exact (hmain rfl (by rcases hf with rfl | rfl <;> decide)).trans h.slice

end Loaded

theorem loaded_statics (L : Layout) (m : Mem) : Loaded L (loadStatics L m) := by
  have hp := L.places
  obtain ⟨m₀, hm₀⟩ : ∃ m₀, [(L.mainTcb, 360), (L.scheduler, 24), (L.sleepQueue, 16), (L.putcSem, 24),
    (L.getcSem, 24)].foldl zeroFill m = m₀ := ⟨_, rfl⟩
  have hzero {x : Nat} (hx : ∃ r ∈ [(L.mainTcb, 360), (L.scheduler, 24), (L.sleepQueue, 16),
      (L.putcSem, 24), (L.getcSem, 24)], r.1 ≤ x ∧ x < r.1 + r.2) : m₀ x = 0 :=
    hm₀ ▸ zeroFill_zero (.inr hx)
  have hlist {a : Nat} (ha : (a, 24) = (L.scheduler, 24) ∨ (a, 16) = (L.sleepQueue, 16)) {g : Field}
      (hg : g = .head ∨ g = .tail) : m₀.field a g = 0 := by
    have : offset g + size g ≤ 16 := by rcases hg with rfl | rfl <;> decide
    refine load_zero fun x hx hx' => hzero ?_
    rcases ha with ha | ha
    · obtain ⟨rfl, -⟩ := Prod.mk.inj ha
      exact ⟨(L.scheduler, 24), by simp, by simp only; omega, by simp only; omega⟩
    · obtain ⟨rfl, -⟩ := Prod.mk.inj ha
      exact ⟨(L.sleepQueue, 16), by simp, by simp only; omega, by simp only; omega⟩
  have hmain {f : Field} (hf : f.ofTcb = true) : m₀.field L.mainTcb f = 0 := by
    have := Obj.ofTcb_bounds hf
    exact load_zero fun x hx hx' =>
      hzero ⟨(L.mainTcb, 360), by simp, by simp only; omega, by simp only; omega⟩
  have happ {a x : Nat} {f g : Field} (hf : f.ofTcb = true)
      (ha : L.mainTcb + 360 ≤ a ∨ a + 16 ≤ L.mainTcb) (hg : g = .head ∨ g = .tail) (m' : Mem) :
      (m'.assign L.mainTcb f x).field a g = m'.field a g := by
    refine load_store_apart ?_
    have h16 : offset g + size g ≤ 16 := by rcases hg with rfl | rfl <;> decide
    have := Obj.ofTcb_bounds hf
    unfold Apart
    omega
  simp only [loadStatics, hm₀]
  refine ⟨⟨?_, ?_⟩, ⟨?_, ?_⟩, ?_, ?_, ?_, ?_⟩
  · rw [happ rfl (by omega) (.inl rfl), happ rfl (by omega) (.inl rfl)]
    exact hlist (.inl rfl) (.inl rfl)
  · rw [happ rfl (by omega) (.inr rfl), happ rfl (by omega) (.inr rfl)]
    exact hlist (.inl rfl) (.inr rfl)
  · rw [happ rfl (by omega) (.inl rfl), happ rfl (by omega) (.inl rfl)]
    exact hlist (.inr rfl) (.inl rfl)
  · rw [happ rfl (by omega) (.inr rfl), happ rfl (by omega) (.inr rfl)]
    exact hlist (.inr rfl) (.inr rfl)
  · exact field_assign_same
  · rw [field_assign_ne rfl rfl (by decide), field_assign_ne rfl rfl (by decide)]
    exact hmain rfl
  · rw [field_assign_ne rfl rfl (by decide), field_assign_ne rfl rfl (by decide)]
    exact hmain rfl
  · rw [field_assign_ne rfl rfl (by decide)]
    exact field_assign_same

/-- The variables when `main` initialises the scheduler. -/
noncomputable def Globals.started (L : Layout) (fbHead sstatus : Nat) : Globals :=
  { Globals.image L.mainTcb sstatus with
    heapStartAddr := L.heap.base
    fbHead := fbHead
    allocTable := L.heap.start
    trace := [.initialized L.putcSem ioBufferSize, .initialized L.getcSem 0] }

/-- `main`, up to the initialisation of the scheduler. -/
theorem mainInit_returns (L : Layout) (m : Mem) (sstatus : Nat) : ∃ a m' x ts,
    (mainInit L).run (loadStatics L m) (.image L.mainTcb sstatus) =
      .done () m' (.started L x sstatus) ∧
    (a = 0 ∧ Tiling.alloc (toBlocks defaultStackSize) [gap L.heap.total] = none ∧
        ts = [gap L.heap.total] ∨
      ∃ i, a = L.heap.addr i ∧
        Tiling.alloc (toBlocks defaultStackSize) [gap L.heap.total] = some (i, ts)) ∧
    HeapRep L.heap ts m'.view (.started L x sstatus) ∧ Loaded L m' ∧
    (m'.field L.putcSem Field.value = ioBufferSize ∧ m'.field (L.putcSem + 8) Field.head = 0 ∧
      m'.field (L.putcSem + 8) Field.tail = 0) ∧
    m'.field L.getcSem Field.value = 0 ∧ m'.field (L.getcSem + 8) Field.head = 0 ∧
      m'.field (L.getcSem + 8) Field.tail = 0 := by
  have hp := L.places
  have hu : u32 (toBlocks defaultStackSize) = toBlocks defaultStackSize := by decide
  obtain ⟨_, m₁, g₁, v₁, hrun₁, hsim₁, hframe₁, rfl, hrep₁⟩ := Prog.returns
    (separate_ofHeap L.heap [gap L.heap.total]) (Sim.self _ (loadStatics L m))
    (HeapRep.wp_construct (g := .image L.mainTcb sstatus)
      (Q := fun _ v g => g = { Globals.image L.mainTcb sstatus with
          allocTable := L.heap.start, heapStartAddr := L.heap.base, fbHead := L.heap.base } ∧
        HeapRep L.heap [gap L.heap.total] v g) (HeapCells.of_own fun _ _ h => h)
      fun v' g' _ hg hr => ⟨hg, hr⟩)
  have hrep₁' := hrep₁.of_sim hsim₁ fun _ _ h => h
  have hlow₁ : ∀ x, x < L.heap.start → m₁ x = loadStatics L m x := fun x hx =>
    hframe₁ x fun a f ⟨o, ho, hc⟩ => by
      have := Obj.ofHeap_inside hrep₁.valid ho hc
      omega
  obtain ⟨a, m₂, x, ts, hrun₂, hframe₂, hcase, hrep₂⟩ :=
    hrep₁'.alloc_returns (toBlocks defaultStackSize)
  have hlow₂ : ∀ x, x < L.heap.start → m₂ x = loadStatics L m x := fun x hx =>
    (hframe₂ x fun a f ⟨o, ho, hc⟩ => by
      have := Obj.ofHeap_inside hrep₁.valid ho hc
      omega).trans (hlow₁ x hx)
  have hload₂ : Loaded L m₂ := (loaded_statics L m).congr (fun x _ _ => hlow₂ x (by omega))
    (fun x _ _ => hlow₂ x (by omega)) fun x _ _ => hlow₂ x (by omega)
  have hassign {m' : Mem} {ts : List Tile} {g : Globals} {f : Field} (hf : offset f + size f ≤ 360)
      (y : Nat) (hr : HeapRep L.heap ts m'.view g) :
      HeapRep L.heap ts (m'.assign L.mainTcb f y).view g :=
    hr.of_below fun z hz => store_outside (.inr (by omega))
  obtain ⟨y, hy⟩ : ∃ y, u64 ((m₂.assign L.mainTcb Field.sysStack a).field L.mainTcb Field.sysStack +
    defaultStackSize) = y := ⟨_, rfl⟩
  have hload₃ := (hload₂.assign (f := .sysStack) (.inl rfl) a).assign (f := .sysSp) (.inr rfl) y
  have hrep₃ := hassign (f := .sysSp) (by decide) y (hassign (f := .sysStack) (by decide) a hrep₂)
  obtain ⟨m₄, hrun₄, hframe₄, hvalue₄, hhead₄, htail₄⟩ := @initializeSem_returns L.putcSem
    ioBufferSize (by omega) (by decide)
    ((m₂.assign L.mainTcb Field.sysStack a).assign L.mainTcb Field.sysSp y)
    { Globals.image L.mainTcb sstatus with
      allocTable := L.heap.start, heapStartAddr := L.heap.base, fbHead := x }
  obtain ⟨m₅, hrun₅, hframe₅, hvalue₅, hhead₅, htail₅⟩ := @initializeSem_returns L.getcSem
    0 (by omega) (by decide) m₄ { Globals.image L.mainTcb sstatus with
      allocTable := L.heap.start, heapStartAddr := L.heap.base, fbHead := x,
      trace := [] ++ [.initialized L.putcSem ioBufferSize] }
  have hkeep₅ {b : Nat} {f : Field} (hb : L.putcSem ≤ b + offset f)
      (hb' : b + offset f + size f ≤ L.putcSem + 24) : m₅.field b f = m₄.field b f :=
    load_congr fun z hz hz' => hframe₅ z (by omega)
  refine ⟨a, m₅, x, ts, ?_, ?_, ?_, ?_, ⟨?_, ?_, ?_⟩, hvalue₅, hhead₅, htail₅⟩
  · rw [mainInit, run_of_run hrun₁, run_of_run hrun₂, run_of_run (run_wr (by omega)),
      run_of_run (run_rd (by omega)), hy, run_of_run (run_wr (by omega))]
    exact (run_of_run hrun₄).trans hrun₅
  · rwa [hu] at hcase
  · refine (@HeapRep.globals _ _ _ _ (.started L x sstatus) hrep₃ rfl rfl rfl).of_below fun z hz => ?_
    rw [hframe₅ z (by omega), hframe₄ z (by omega)]
  · refine hload₃.congr (fun z _ _ => ?_) (fun z _ _ => ?_) fun z _ _ => ?_
    · rw [hframe₅ z (by omega), hframe₄ z (by omega)]
    · rw [hframe₅ z (by omega), hframe₄ z (by omega)]
    · rw [hframe₅ z (by omega), hframe₄ z (by omega)]
  · exact (hkeep₅ (Nat.le_add_right _ _) (Nat.add_le_add_left (by decide : offset Field.value +
      size Field.value ≤ 24) L.putcSem)).trans hvalue₄
  · exact (hkeep₅ (by omega) (Nat.add_le_add_left (by decide : 8 + (offset Field.head +
      size Field.head) ≤ 24) L.putcSem |>.trans' (by omega))).trans hhead₄
  · exact (hkeep₅ (by omega) (Nat.add_le_add_left (by decide : 8 + (offset Field.tail +
      size Field.tail) ≤ 24) L.putcSem |>.trans' (by omega))).trans htail₄

/-- The first state of the abstract machine: the main thread runs alone. -/
noncomputable def Spec.initial (L : Layout) (mainStack : Nat) (tiles : List Tile)
    (fbHead sstatus : Nat) : Spec where
  owners := {
    tiles
    mainStack
    threads := []
    join := fun _ => 0
    stack := fun _ => 0
    kernelStack := fun _ => 0
    sems := []
    blocks := [] }
  abs := {
    moving := [L.mainTcb]
    ready := []
    now := 0
    asleep := []
    waiting := fun _ => []
    bits := fun s => if s = L.putcSem then ioBufferSize else 0
    flag := fun _ => false
    cont := fun _ => .dispatched }
  status := .running
  mode := fun _ => true
  resuming := false
  globals := .started L fbHead (setSpp sstatus true)

/-- `main` has made the objects of the first state. -/
theorem inside_initial {L : Layout} {I : Spec → Prop} {m : Mem} {i x sstatus : Nat} {ts : List Tile}
    (hI : I (.initial L (L.heap.addr i) ts x sstatus))
    (halloc : Tiling.alloc (toBlocks defaultStackSize) [gap L.heap.total] = some (i, ts))
    (hrep : HeapRep L.heap ts m.view (.started L x sstatus)) (hload : Loaded L m)
    (hputc : m.field L.putcSem Field.value = ioBufferSize ∧ m.field (L.putcSem + 8) Field.head = 0 ∧
      m.field (L.putcSem + 8) Field.tail = 0)
    (hgetc : m.field L.getcSem Field.value = 0 ∧ m.field (L.getcSem + 8) Field.head = 0 ∧
      m.field (L.getcSem + 8) Field.tail = 0) :
    Inside L (fun _ => none) I (.initial L (L.heap.addr i) ts x sstatus) m.view := by
  have hpos : Pos [gap L.heap.total] :=
    (HeapRep.valid_gap L.heap.total L.heap.spec.total_pos).pos
  have hsem : ∀ s ∈ (Spec.initial L (L.heap.addr i) ts x sstatus).owners.semaphores L,
      s = L.putcSem ∨ s = L.getcSem := by
    simp [Owners.semaphores, Spec.initial]
  have hne : L.getcSem ≠ L.putcSem := by
    have := L.places
    omega
  refine ⟨⟨hrep.globals rfl rfl rfl, ⟨hrep.valid, ?_⟩, ⟨isList_nil hload.ready.1 hload.ready.2,
    ⟨isList_nil hload.asleep.1 hload.asleep.2, trivial, by simp [Spec.initial]⟩,
    by simp [Spec.initial], fun s hs => ?_, ?_, by simp [Spec.initial], by simp [Spec.initial],
    by simp [Spec.initial], fun s hs => ?_, fun t ht => ?_⟩, ⟨by simp [Spec.initial],
    by simp [Spec.initial], by simp [Spec.initial], hload.join, fun t ht => ?_⟩, fun t ht hne => ?_,
    fun t ht => ?_⟩, ⟨rfl, rfl, rfl, spp_setSpp _ _⟩, rfl, fun t ht hne => ?_, rfl,
    fun hf => absurd rfl hf, hI⟩
  · have hlive := (alloc_live hpos halloc).map (located L.heap)
    refine List.Perm.trans ?_ hlive.symm
    rw [if_neg (by decide)]
    simp [Spec.initial, Owners.used, segs, located]
  · rcases hsem s hs with rfl | rfl
    · exact isList_nil hputc.2.1 hputc.2.2
    · exact isList_nil hgetc.2.1 hgetc.2.2
  · simp [Spec.initial, Owners.tcbs, Abs.queued, Owners.semaphores]
  · rcases hsem s hs with rfl | rfl
    · refine ⟨hputc.1.trans (if_pos rfl).symm, ?_⟩
      simp only [Spec.initial, if_true]
      decide
    · refine ⟨hgetc.1.trans (if_neg hne).symm, ?_⟩
      simp only [Spec.initial, if_neg hne]
      decide
  · obtain rfl : t = L.mainTcb := by simpa [Owners.tcbs, Spec.initial] using ht
    exact hload.flag
  · obtain rfl : t = L.mainTcb := by simpa [Owners.tcbs, Spec.initial] using ht
    exact hload.slice
  · obtain rfl : t = L.mainTcb := by simpa [Owners.tcbs, Spec.initial] using ht
    exact absurd rfl hne
  · obtain rfl : t = L.mainTcb := by simpa [Spec.initial] using ht
    exact hload.status
  · obtain rfl : t = L.mainTcb := by simpa [Owners.tcbs, Spec.initial] using ht
    exact absurd rfl hne

/-! ### The flush thread -/

/-- `create_tcb` fails where there is no kernel stack, whatever it takes for a semaphore. -/
theorem Holds.createTcb_noStack {L : Layout} {σ : Spec} {m : Mem} {usr body args : Nat}
    (h : Holds L σ m.view) (hbody : body ≠ 0) (hlt : usr + defaultStackSize < 2 ^ 64)
    (hno : NoStack σ.owners.tiles) :
    Prog.Post (fun _ => True) (fun r _ _ => r = 0) (fun _ _ _ _ => False)
      ((Os1Kernel.createTcb L body args (usr + defaultStackSize)).run m σ.globals) := by
  have hsize : u32 (toBlocks sizeofTCB) = toBlocks sizeofTCB ∧ toBlocks sizeofTCB ≠ 0 ∧
      u32 (toBlocks defaultStackSize) = toBlocks defaultStackSize ∧
      360 ≤ 64 * toBlocks sizeofTCB := by decide
  obtain ⟨i, ts, halloc, hnone⟩ := hno
  rw [Holds.createTcb_eq ⟨hbody, by unfold defaultStackSize; omega⟩]
  obtain ⟨t, m₁, x₁, ts₁, hrun₁, -, hcase₁, hH₁⟩ := h.alloc (toBlocks sizeofTCB)
  rw [hsize.1] at hcase₁ hH₁
  obtain ⟨rfl, rfl⟩ := allocated_some halloc hcase₁
  have ht0 := L.heap.addr_ne_zero i
  rw [if_pos ⟨ht0, hsize.2.1⟩] at hH₁
  refine post_of_run hrun₁ ?_
  rw [if_neg ht0]
  obtain ⟨m₂, hrun₂, hframe₂, -⟩ :=
    initTcb_returns ht0 hlt m₁ { σ.globals with fbHead := x₁ }
  refine post_of_run hrun₂ (post_of_run run_record ?_)
  have htW : (L.heap.addr i, toBlocks sizeofTCB) ∈ (σ.owners.withBlocks ts₁
      ([(L.heap.addr i, toBlocks sizeofTCB)] ++ σ.owners.blocks)).blocks := List.mem_cons_self
  have hH₂ := (hH₁.of_block htW hsize.2.2.2 hframe₂).on (g := { σ.globals with
    fbHead := x₁
    handles := { σ.globals.handles with
      blocks := σ.globals.handles.blocks.filter fun t => t.1 ≠ usr } }) ⟨rfl, rfl, rfl, rfl⟩
  obtain ⟨k, m₃, x₃, ts₃, hrun₃, -, hcase₃, -⟩ := hH₂.alloc (toBlocks defaultStackSize)
  obtain rfl := allocated_none (by rwa [hsize.2.2.1]) hcase₃
  refine post_of_run hrun₃ (post_of_run (run_wr ht0) (post_of_run (run_rd ht0) ?_))
  rw [field_assign_same, if_pos (by simp)]
  -- `free_tcb` does not switch threads
  have hadmits : Admits fun _ _ => True := ⟨fun _ => trivial, fun _ _ _ _ _ => trivial,
    fun _ _ _ => trivial, fun _ _ => trivial, fun _ _ => trivial⟩
  have hfree : Grows (fun _ _ => True) False (Os1Kernel.freeTcb L (L.heap.addr i)) :=
    .freeTcb hadmits L _
  exact Prog.post_bind (Prog.post_mono (hfree.post hadmits _ _)
    (fun _ _ _ _ => Prog.post_done.mpr rfl) fun _ _ _ _ h => h.1)

theorem post_ecallReturn (m : Mem) (g : Globals) {T : Switch → Kernel Unit → Mem → Globals → Prop} :
    Prog.Post (fun _ => True) (fun _ m' _ => m' = m) T (ecallReturn.run m g) := by
  by_cases h : g.kCurrentContext = 0
  · have hrun : ecallReturn.run m g = .fault .nullPointer := by
      rw [ecallReturn, run_of_run run_globals, Prog.run_bind, rd, Prog.run, if_pos h]
    rw [hrun, Prog.post_fault]
    trivial
  · rw [ecallReturn, run_of_run run_globals, run_of_run (run_rd h), run_log, Prog.post_done]

/-- `thread_create` gives null where there is no kernel stack, whatever `create_tcb` takes for a
semaphore. -/
theorem Inside.createThread_noStack {L : Layout} {S : Nat → Option (Kernel Unit)} {I : Spec → Prop}
    {σ : Spec} {m : Mem} {p0 body usr : Nat} (h : Inside L S I σ m.view) (args : Nat) (h0 : p0 ≠ 0)
    (hbody : body ≠ 0) (hlt : usr + defaultStackSize < 2 ^ 64) (hno : NoStack σ.owners.tiles) :
    Prog.Post (fun _ => True) (fun _ m _ => m.field p0 Field.handle = 0) (fun _ _ _ _ => False)
      ((createThreadCall L p0 body args (usr + defaultStackSize) >>= fun _ => ecallReturn).run m
        σ.globals) := by
  rw [Inside.createThreadCall_eq h0]
  refine Prog.post_bind (Prog.post_mono (h.holds.createTcb_noStack hbody hlt hno)
    (fun r m g hr => ?_) fun _ _ _ _ hf => hf.elim)
  subst hr
  refine post_of_run (run_wr h0) (post_of_run (run_rd h0) ?_)
  rw [field_assign_same, if_neg (by simp)]
  refine Prog.post_mono (post_ecallReturn _ _) (fun _ m' _ hm => ?_) fun _ _ _ _ hf => hf
  rw [hm, field_assign_same]
  exact Nat.zero_mod _

/-- There is room for a new thread. -/
structure Room (ts : List Tile) : Prop where
  tcb : ¬NoTcb ts
  stack : ¬NoStack ts
  sem : ¬NoSem ts

namespace Rests

variable {L : Layout} {I : Spec → Prop} {M : Machine} {σ : Spec}

/-- `mem_alloc` returns null or a block of the caller. -/
theorem memAlloc (h : Rests L I M σ) (hI : Kept L I) (n : Nat) : ∃ M' a x ts,
    M.trap L (ecallTrap L 0x01 n 0 0 0) = some M' ∧ M'.a0 = a ∧
      (a = 0 ∧ Tiling.alloc (u32 n) σ.owners.tiles = none ∨
        ∃ i, a = L.heap.addr i ∧ Tiling.alloc (u32 n) σ.owners.tiles = some (i, ts)) ∧
      Rests L I M' (((σ.called 0x01 n).retile (Inside.allocated σ.owners ts a n) x).returned a) := by
  have hpost : Prog.Post (fun _ => False) (fun _ m g => ∃ a x ts,
      m.field σ.current Field.a0 = a ∧
      (a = 0 ∧ Tiling.alloc (u32 n) σ.owners.tiles = none ∨
        ∃ i, a = L.heap.addr i ∧ Tiling.alloc (u32 n) σ.owners.tiles = some (i, ts)) ∧
      g = (((σ.called 0x01 n).retile (Inside.allocated σ.owners ts a n) x).returned a).globals ∧
      Inside L M.saved I (((σ.called 0x01 n).retile (Inside.allocated σ.owners ts a n) x).returned a)
        m.view) (fun _ _ _ _ => False) ((ecallTrap L 0x01 n 0 0 0).run M.mem σ.globals) :=
    h.inside.post_syscall hI (by decide) fun hin =>
      hin.post_memAlloc_of hI n fun a x ts _ hcase hτ _ ha => ⟨a, x, ts, ha, hcase, rfl, hτ⟩
  rw [← h.globals] at hpost
  rcases trap_done hpost with ⟨-, _, hf⟩ | ⟨m, g, ⟨a, x, ts, ha, hcase, rfl, hτ⟩, hrun⟩
  · exact hf.elim
  · exact ⟨_, a, x, ts, hrun, ha, hcase, Returns.sret (M := M) ⟨rfl, hτ, rfl, rfl⟩⟩

/-- The word of the scheduler for the flush thread. -/
theorem flushTcb_user (W : Owners) {y : Nat} (hy : L.flushTcb ≤ y) (hy' : y < L.flushTcb + 8) :
    W.User L y := by
  have hp := L.places
  refine .inr (.inr ⟨.inl ?_, .inr ⟨hy, hy'⟩⟩)
  unfold Layout.flushTcb at hy'
  omega

/-- It is not in the heap. -/
theorem flushTcb_apart {σ : Spec} {v : Cells} (h : Holds L σ v) {usr n : Nat}
    (husr : (usr, n) ∈ σ.owners.blocks) : L.flushTcb + 8 ≤ usr := by
  have hp := L.places
  have hin := h.tiled.inside (Owners.Tiled.mem_block husr)
  have hbase := L.heap.spec.table_le_base
  unfold Layout.flushTcb
  simp only at hin
  omega

/-- The creation of the flush thread. -/
theorem createFlush (h : Rests L I M σ) (hI : Kept L I) {usr : Nat}
    (husr : (usr, toBlocks defaultStackSize) ∈ σ.owners.blocks) {M' : Machine}
    (hs : M.trap L (ecallTrap L 0x11 L.flushTcb L.flushPutcLoop 0 (usr + defaultStackSize)) = some M')
    (hne : M'.mem.field L.flushTcb Field.handle ≠ 0) : ∃ t k j ts x a0,
      Placed L σ.owners.tiles ts t k j ∧ M'.mem.field L.flushTcb Field.handle = t ∧
      Rests L I M' (((σ.called 0x11 L.flushTcb).create t j (σ.owners.created ts t usr k j)
        x).returned a0) := by
  have hp := L.places
  have h0 : L.flushTcb ≠ 0 := Nat.succ_ne_zero _
  have hbody : L.flushPutcLoop ≠ 0 := L.flush_pos.1.ne'
  have hin := h.inside.holds.tiled.inside (Owners.Tiled.mem_block husr)
  have hapart := flushTcb_apart h.inside.holds husr
  have hlt : usr + defaultStackSize < 2 ^ 64 := by
    have hend := L.heap.spec.base_end
    have hstop := L.heap.stop_lt
    have hsz : 64 * toBlocks defaultStackSize = defaultStackSize := by decide
    simp only at hin
    omega
  have hpost : Prog.Post (fun _ => True) (fun _ m g => m.field L.flushTcb Field.handle ≠ 0 →
      ∃ t k j ts x a0, Placed L σ.owners.tiles ts t k j ∧ m.field L.flushTcb Field.handle = t ∧
        g = (((σ.called 0x11 L.flushTcb).create t j (σ.owners.created ts t usr k j)
          x).returned a0).globals ∧
        Inside L M.saved I (((σ.called 0x11 L.flushTcb).create t j (σ.owners.created ts t usr k j)
          x).returned a0) m.view) (fun _ _ _ _ => False)
      ((ecallTrap L 0x11 L.flushTcb L.flushPutcLoop 0 (usr + defaultStackSize)).run M.mem
        σ.globals) := by
    refine h.inside.post_syscall hI (by decide) fun hin => ?_
    by_cases hno : NoStack σ.owners.tiles
    · -- what the block for the thread held is freed, so nothing is known but that there is no thread
      exact Prog.post_mono (hin.createThread_noStack _ h0 hbody hlt hno)
        (fun _ _ _ hzero hne => absurd hzero hne) fun _ _ _ _ hf => hf
    · exact hin.post_createThread_of hI (fun _ => trivial) h0
        (fun y hy hy' => flushTcb_user _ hy hy')
        (.inr (.inr ⟨usr, rfl, husr, .inl hapart, fun i ts halloc hnone =>
          absurd ⟨i, ts, halloc, hnone⟩ hno⟩)) (X := fun _ => True) (fun _ _ _ => trivial)
        (fun _ _ _ => trivial)
        (fun _ _ _ _ hzero _ hne => absurd hzero hne)
        fun t k j ts x a0 m' hplaced hτ hfield _ _ => by
          rw [Nat.add_sub_cancel] at hτ ⊢
          exact ⟨t, k, j, ts, x, a0, hplaced, hfield, rfl, hτ⟩
  rw [← h.globals] at hpost
  rcases trap_done hpost with ⟨hnone, -⟩ | ⟨m, g, hQ, hrun⟩
  · rw [hnone] at hs
    cases hs
  · rw [hrun] at hs
    cases hs
    obtain ⟨t, k, j, ts, x, a0, hplaced, hfield, rfl, hτ⟩ := hQ hne
    exact ⟨t, k, j, ts, x, a0, hplaced, hfield, Returns.sret (M := M) ⟨rfl, hτ, rfl, rfl⟩⟩

/-- The creation of the flush thread where there is room for it. -/
theorem createFlush_some (h : Rests L I M σ) (hI : Kept L I) {usr : Nat}
    (husr : (usr, toBlocks defaultStackSize) ∈ σ.owners.blocks) (hroom : Room σ.owners.tiles) : ∃ M',
      M.trap L (ecallTrap L 0x11 L.flushTcb L.flushPutcLoop 0 (usr + defaultStackSize)) = some M' ∧
        M'.mem.field L.flushTcb Field.handle ≠ 0 := by
  have h0 : L.flushTcb ≠ 0 := Nat.succ_ne_zero _
  have hbody : L.flushPutcLoop ≠ 0 := L.flush_pos.1.ne'
  have hpost : Prog.Post (fun _ => False) (fun _ m _ => m.field L.flushTcb Field.handle ≠ 0)
      (fun _ _ _ _ => False) ((ecallTrap L 0x11 L.flushTcb L.flushPutcLoop 0
        (usr + defaultStackSize)).run M.mem σ.globals) := by
    refine h.inside.post_syscall hI (by decide) fun hin => ?_
    refine hin.post_createThread_of hI (fun hno => hroom.sem hno) h0 (fun y hy hy' => flushTcb_user _ hy hy')
      (.inr (.inr ⟨usr, rfl, husr, .inl (flushTcb_apart h.inside.holds husr),
        fun i ts halloc hnone => absurd ⟨i, ts, halloc, hnone⟩ hroom.stack⟩)) (X := fun _ => True)
      (fun _ _ _ => trivial) (fun _ _ _ => trivial) (fun hno => ?_) fun t k j ts x a0 m' _ hτ hfield _ => ?_
    · rcases hno with hno | hno | hno | hno
      · exact absurd hno hbody
      · unfold defaultStackSize at hno
        omega
      · exact absurd hno hroom.tcb
      · exact absurd hno hroom.stack
    · rw [hfield]
      exact (hτ.holds.tiled.tcb_inside (List.mem_cons_of_mem _ List.mem_cons_self)).1.ne'
  rw [← h.globals] at hpost
  rcases trap_done hpost with ⟨-, _, hf⟩ | ⟨m, g, hne, hrun⟩
  · exact hf.elim
  · exact ⟨_, hrun, hne⟩

/-- The scheduler knows its flush thread. -/
theorem setFlush (h : Rests L I M σ) (hI : Kept L I) {f : Nat} (h0 : σ.globals.handles.flush = 0)
    (ht : f ∈ σ.owners.threads) (hready : f ∈ σ.abs.ready) : Rests L I { M with globals := { M.globals with
      handles := { M.globals.handles with flush := f } } } (σ.setFlush f) := by
  have hin := h.inside
  refine ⟨by rw [Spec.setFlush, h.of_sstatus]; rfl, hin.holds.on ⟨rfl, rfl, rfl, rfl⟩,
    ⟨hin.running.moving, hin.running.context, hin.running.status, hin.running.mode⟩, hin.resuming,
    hin.saved, ?_, fun _ => ⟨ht, List.mem_append_right _ hready⟩,
    hI _ _ (.flush hin.valid hin.resuming h0 ht hready) hin.inv⟩
  change ({ σ.globals.handles with flush := f } : Handles) = _
  rw [hin.handles]
  rfl

end Rests

/-- A call of `mem_alloc` where there is no such run of free blocks. -/
theorem memAlloc_none {L : Layout} {M : Machine} {ts : List Tile} {n : Nat}
    (hrep : HeapRep L.heap ts M.mem.view M.globals) (hcur : M.globals.currentTcb = L.mainTcb)
    (hctx : M.globals.kCurrentContext = L.mainTcb) (hnone : Tiling.alloc (u32 n) ts = none)
    {M' : Machine} (hs : M.trap L (ecallTrap L 0x01 n 0 0 0) = some M') : M'.a0 = 0 := by
  have hp := L.places
  have hpos : M.globals.kCurrentContext ≠ 0 := by omega
  have ha0 : offset Field.a0 + size Field.a0 ≤ 360 := by decide
  have hpost : Prog.Post (fun _ => True) (fun _ m g => m.field g.currentTcb Field.a0 = 0)
      (fun _ _ _ _ => False) ((ecallTrap L 0x01 n 0 0 0).run M.mem M.enter.globals) := by
    rw [Inside.ecallTrap_eq]
    refine post_of_run run_globals (post_of_run run_log ?_)
    refine post_of_run (run_setA0 (by exact hpos) _) ?_
    change Prog.Post _ _ _ ((memAllocCall n >>= fun _ => ecallReturn).run _ _)
    rw [Inside.memAllocCall_eq]
    have hassign : HeapRep L.heap ts (M.mem.assign M.globals.kCurrentContext Field.a0
        (signExtend failedSyscall)).view M.globals :=
      hrep.of_below fun x hx => store_outside (.inr (by omega))
    obtain ⟨a, m, y, ts', hrun, -, hcase, -⟩ := (@HeapRep.globals _ _ _ _ { M.enter.globals with
      trace := M.enter.globals.trace ++ [.called M.enter.globals.currentTcb 1 n] } hassign
      rfl rfl rfl).alloc_returns n
    obtain rfl : a = 0 := by
      rcases hcase with ⟨rfl, -⟩ | ⟨i, -, hsome⟩
      · rfl
      · exact absurd (hnone.symm.trans hsome) (by simp)
    refine post_of_run hrun ?_
    rw [if_neg (by simp)]
    refine post_of_run (r := ()) rfl ?_
    refine post_of_run (run_setA0 (by exact hpos) 0) ?_
    rw [ecallReturn, run_of_run run_globals, run_of_run (run_rd (by exact hpos)), run_log,
      Prog.post_done]
    change (Mem.field _ M.globals.currentTcb Field.a0) = 0
    rw [hcur, ← hctx]
    exact field_assign_same
  rcases trap_done hpost with ⟨hn, -⟩ | ⟨m, g, hQ, hrun⟩
  · rw [hn] at hs
    cases hs
  · rw [hrun] at hs
    cases hs
    exact hQ

/-- The machine while the main thread boots the kernel. -/
def Machine.alone (m : Mem) (g : Globals) : Machine where
  mem := m
  globals := g
  saved _ := none
  supervisor := true
  flushSstatus := none

theorem exec_done {L : Layout} {M : Machine} {p : Kernel Unit} {m : Mem} {g : Globals} {n : Nat}
    (h : p.run M.mem M.globals = .done () m g) :
    Machine.exec L (n + 1) p M = some { M with mem := m, globals := g } := by
  rw [Machine.exec, h]

/-- The state after the boot: the main thread runs and the flush thread, which is new, is ready. -/
structure Booted (L : Layout) (σ : Spec) : Prop where
  tiles : ∃ i i' ts ts' k j, Tiling.alloc (toBlocks defaultStackSize) [gap L.heap.total] = some (i, ts) ∧
    Tiling.alloc (toBlocks defaultStackSize) ts = some (i', ts') ∧
    Placed L ts' σ.owners.tiles σ.globals.handles.flush k j
  threads : σ.owners.threads = [σ.globals.handles.flush]
  sems : σ.owners.sems = []
  blocks : σ.owners.blocks = []
  current : σ.current = L.mainTcb
  ready : σ.abs.ready = [σ.globals.handles.flush]
  asleep : σ.abs.asleep = []
  fresh : σ.abs.cont σ.globals.handles.flush = .fresh
  flush : σ.globals.handles.flush ≠ 0
  ticks : σ.globals.timerTicks = 0
  trace : ∃ j a b, σ.globals.trace = [.initialized L.putcSem ioBufferSize, .initialized L.getcSem 0,
    .called L.mainTcb 0x01 (toBlocks defaultStackSize), .ecallReturned L.mainTcb a,
    .called L.mainTcb 0x11 L.flushTcb, .initialized j 0,
    .created L.mainTcb σ.globals.handles.flush, .readied σ.globals.handles.flush,
    .ecallReturned L.mainTcb b]
  getc : σ.abs.bits L.getcSem = 0 ∧ σ.abs.waiting L.getcSem = []
  putc : σ.abs.bits L.putcSem = ioBufferSize ∧ σ.abs.waiting L.putcSem = []
  getcBuffer : σ.globals.getcBuffer = .empty
  putcBuffer : σ.globals.putcBuffer = .empty
  console : σ.globals.console = []

theorem Booted.create {L : Layout} {σ : Spec} {i i' t usr k j x a0 n : Nat} {ts ts' ts₂ : List Tile}
    (hmain : Tiling.alloc (toBlocks defaultStackSize) [gap L.heap.total] = some (i, ts))
    (hstack : Tiling.alloc (toBlocks defaultStackSize) ts = some (i', ts'))
    (hplaced : Placed L ts' ts₂ t k j) (ht : t ≠ 0) (hthreads : σ.owners.threads = [])
    (hsems : σ.owners.sems = []) (hblocks : σ.owners.blocks = [(usr, n)])
    (hcur : σ.current = L.mainTcb) (hready : σ.abs.ready = []) (hasleep : σ.abs.asleep = [])
    (hticks : σ.globals.timerTicks = 0) {b : Nat}
    (htrace : σ.globals.trace = [.initialized L.putcSem ioBufferSize, .initialized L.getcSem 0,
      .called L.mainTcb 0x01 (toBlocks defaultStackSize), .ecallReturned L.mainTcb b,
      .called L.mainTcb 0x11 L.flushTcb])
    (hgetc : σ.abs.bits L.getcSem = 0 ∧ σ.abs.waiting L.getcSem = [])
    (hputc : σ.abs.bits L.putcSem = ioBufferSize ∧ σ.abs.waiting L.putcSem = [])
    (hbuffers : σ.globals.getcBuffer = .empty ∧ σ.globals.putcBuffer = .empty)
    (hconsole : σ.globals.console = []) :
    Booted L (((σ.create t j (σ.owners.created ts₂ t usr k j) x).returned a0).setFlush t) where
  tiles := ⟨i, i', ts, ts', k, j, hmain, hstack, hplaced⟩
  threads := by
    change t :: σ.owners.threads = [t]
    rw [hthreads]
  sems := hsems
  blocks := by
    change (σ.owners.blocks.filter fun t => t.1 ≠ usr) = []
    simp [hblocks]
  current := hcur
  ready := by
    change σ.abs.ready ++ [t] = [t]
    rw [hready, List.nil_append]
  asleep := hasleep
  fresh := Function.update_self (β := fun _ => Cont) ..
  flush := ht
  ticks := hticks
  trace := by
    refine ⟨j, b, a0, ?_⟩
    change ((σ.globals.trace ++ [.initialized j 0]) ++ [.created σ.current t]) ++ [.readied t] ++
      [.ecallReturned σ.current a0] = _
    rw [htrace, hcur]
    rfl
  getc := by
    change Function.update σ.abs.bits j 0 L.getcSem = 0 ∧
      Function.update σ.abs.waiting j [] L.getcSem = []
    by_cases hj : L.getcSem = j
    · subst hj
      exact ⟨Function.update_self .., Function.update_self ..⟩
    · rw [Function.update_of_ne hj, Function.update_of_ne hj]
      exact hgetc
  putc := by
    have hne : L.putcSem ≠ j := by
      obtain ⟨_, _, _, _, i, -, -, -, rfl⟩ := hplaced
      have hp := L.places
      have htable := L.heap.spec.table_le_base
      have haddr : L.heap.base ≤ L.heap.addr i := Nat.le_add_right _ _
      omega
    change Function.update σ.abs.bits j 0 L.putcSem = ioBufferSize ∧
      Function.update σ.abs.waiting j [] L.putcSem = []
    rw [Function.update_of_ne hne, Function.update_of_ne hne]
    exact hputc
  getcBuffer := hbuffers.1
  putcBuffer := hbuffers.2
  console := hconsole

/-- The boot leaves the kernel in a state of the abstract machine. -/
theorem boot_rests {L : Layout} {I : Spec → Prop} (hI : Kept L I)
    (hinit : ∀ i ts x s, I (.initial L (L.heap.addr i) ts x s)) {m : Mem} {sstatus : Nat}
    {M : Machine} (hb : boot L m sstatus = some M) :
    ∃ σ, Rests L I M σ ∧ Booted L σ := by
  obtain ⟨a, m', x, ts, hrun, hcase, hrep, hload, hputc, hgetc⟩ := mainInit_returns L m sstatus
  obtain ⟨n, hn⟩ := walkLimit_eq
  have hexec : Machine.exec L walkLimit (mainInit L)
      (.alone (loadStatics L m) (.image L.mainTcb sstatus)) =
        some (.alone m' (.started L x sstatus)) := by
    rw [hn]
    exact exec_done hrun
  simp only [boot, schedulerInit, Option.bind_eq_bind] at hb
  obtain ⟨M₀, hs₀, hb⟩ := Option.bind_eq_some_iff.mp hb
  obtain rfl : Machine.alone m' (.started L x sstatus) = M₀ := Option.some.inj (hexec.symm.trans hs₀)
  obtain ⟨M₁, hs₁, hb⟩ := Option.bind_eq_some_iff.mp hb
  split at hb
  · cases hb
  next ha₁ =>
  obtain ⟨M₂, hs₂, hb⟩ := Option.bind_eq_some_iff.mp hb
  split at hb
  · cases hb
  next hflush =>
  cases hb
  have hsize : u32 (toBlocks defaultStackSize) = toBlocks defaultStackSize ∧
    toBlocks defaultStackSize ≠ 0 := by decide
  rcases hcase with ⟨-, hnone, rfl⟩ | ⟨i, rfl, halloc⟩
  · -- without a stack for the main thread there is none for the flush thread
    rw [← hsize.1] at hnone
    exact absurd (memAlloc_none hrep rfl rfl hnone hs₁) ha₁
  have hstart : Rests L I (.alone m' (.started L x sstatus))
      (.initial L (L.heap.addr i) ts x sstatus) :=
    ⟨rfl, inside_initial (hinit i ts x sstatus) halloc hrep hload hputc hgetc⟩
  obtain ⟨M', a, y, ts', hs, rfl, hcase, h₁⟩ := hstart.memAlloc hI (toBlocks defaultStackSize)
  obtain rfl : M' = M₁ := Option.some.inj (hs.symm.trans hs₁)
  have hblock : (M'.a0, toBlocks defaultStackSize) ∈ (Inside.allocated (Spec.initial L (L.heap.addr i)
      ts x sstatus).owners ts' M'.a0 (toBlocks defaultStackSize)).blocks := by
    simp only [Inside.allocated, hsize.1, if_pos (And.intro ha₁ hsize.2)]
    exact List.mem_cons_self
  obtain ⟨t, k, j, ts₂, y', a0, hplaced, hfield, h₂⟩ := h₁.createFlush hI hblock hs₂ hflush
  rw [hfield] at hflush ⊢
  obtain ⟨i', -, halloc'⟩ := hcase.resolve_left fun hn => ha₁ hn.1
  rw [hsize.1] at halloc'
  refine ⟨_, h₂.setFlush hI rfl List.mem_cons_self (List.mem_append_right _ List.mem_cons_self),
    .create halloc halloc' hplaced hflush rfl rfl (n := toBlocks defaultStackSize) ?_ rfl rfl rfl rfl rfl
      ⟨if_neg (by have := L.places; omega), rfl⟩ ⟨if_pos rfl, rfl⟩ ⟨rfl, rfl⟩ rfl⟩
  change (Inside.allocated _ ts' M'.a0 (toBlocks defaultStackSize)).blocks = _
  simp only [Inside.allocated, hsize.1, if_pos (And.intro ha₁ hsize.2)]
  rfl

/-- The boot succeeds where the heap has room for the main thread's stack and for the flush thread. -/
theorem boot_succeeds (L : Layout) {i j : Nat} {ts ts' : List Tile}
    (hmain : Tiling.alloc (toBlocks defaultStackSize) [gap L.heap.total] = some (i, ts))
    (hstack : Tiling.alloc (toBlocks defaultStackSize) ts = some (j, ts')) (hroom : Room ts')
    (m : Mem) (sstatus : Nat) : ∃ M, boot L m sstatus = some M := by
  obtain ⟨a, m', x, ts₀, hrun, hcase, hrep, hload, hputc, hgetc⟩ := mainInit_returns L m sstatus
  obtain ⟨n, hn⟩ := walkLimit_eq
  have hexec : Machine.exec L walkLimit (mainInit L)
      (.alone (loadStatics L m) (.image L.mainTcb sstatus)) =
        some (.alone m' (.started L x sstatus)) := by
    rw [hn]
    exact exec_done hrun
  rcases hcase with ⟨-, hnone, -⟩ | ⟨k, rfl, halloc⟩
  · exact absurd (hnone.symm.trans hmain) (by simp)
  obtain ⟨rfl, rfl⟩ := Prod.mk.inj (Option.some.inj (halloc.symm.trans hmain))
  have hkept : Kept L fun _ => True := fun _ _ _ _ => trivial
  have hstart : Rests L (fun _ => True) (.alone m' (.started L x sstatus))
      (.initial L (L.heap.addr k) ts₀ x sstatus) :=
    ⟨rfl, inside_initial trivial halloc hrep hload hputc hgetc⟩
  have hsize : u32 (toBlocks defaultStackSize) = toBlocks defaultStackSize ∧
    toBlocks defaultStackSize ≠ 0 := by decide
  obtain ⟨M₁, a, y, ts₁, hs₁, rfl, hcase, h₁⟩ := hstart.memAlloc hkept (toBlocks defaultStackSize)
  rw [hsize.1] at hcase
  rcases hcase with ⟨-, hnone⟩ | ⟨k', ha, halloc'⟩
  · exact absurd (hnone.symm.trans hstack) (by simp)
  obtain ⟨rfl, rfl⟩ := Prod.mk.inj (Option.some.inj (halloc'.symm.trans hstack))
  have hne : M₁.a0 ≠ 0 := ha ▸ L.heap.addr_ne_zero k'
  have hblock : (M₁.a0, toBlocks defaultStackSize) ∈ (Inside.allocated (Spec.initial L
      (L.heap.addr k) ts₀ x sstatus).owners ts₁ M₁.a0 (toBlocks defaultStackSize)).blocks := by
    simp only [Inside.allocated, hsize.1, if_pos (And.intro hne hsize.2)]
    exact List.mem_cons_self
  obtain ⟨M₂, hs₂, hflush⟩ := h₁.createFlush_some hkept hblock hroom
  refine Option.ne_none_iff_exists'.mp fun hb => ?_
  simp only [boot, schedulerInit, Option.bind_eq_bind] at hb
  have hb₁ := Option.bind_eq_none_iff.mp (Option.bind_eq_none_iff.mp hb _ hexec) _ hs₁
  rw [if_neg hne] at hb₁
  have hb₂ := Option.bind_eq_none_iff.mp hb₁ _ hs₂
  rw [if_neg hflush] at hb₂
  cases hb₂

end Os1Kernel
