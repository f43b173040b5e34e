import Os1Kernel.Heap.Rep

/-! The cells of the kernel's objects, and why they do not overlap in memory. -/

namespace Os1Kernel

open Memory Tiling

/-- The fields of a `TCB`. -/
def Field.ofTcb : Field → Bool
  | .ra | .usrSp | .sysSp | .tp | .a0 | .sstatus | .usrStack | .sysStack | .interrupted | .joinSem
  | .sleepFor | .timeSlice | .status | .body | .args | .next | .prev => true
  | _ => false

/-- The fields of a free header. -/
def Field.ofHeader : Field → Bool
  | .fbNext | .fbPrev | .nBlocks => true
  | _ => false

/-- The fields of a list. -/
def Field.ofList : Field → Bool
  | .head | .tail => true
  | _ => false

/-- What the kernel keeps in memory: entries of the allocation table, headers in free blocks,
threads, semaphores, and the lists in static storage. -/
inductive Obj
  | entry (i : Nat)
  | header (i : Nat)
  | tcb (t : Nat)
  | sem (s : Nat)
  | list (l : Nat)

namespace Obj

variable {B : HeapBounds}

/-- The cells of an object. -/
def cells (B : HeapBounds) : Obj → Nat → Field → Prop
  | entry i, a, f => a = B.entryAddr i ∧ f = .entry
  | header i, a, f => a = B.addr i ∧ f.ofHeader = true
  | tcb t, a, f => a = t ∧ f.ofTcb = true
  | sem s, a, f => a = s ∧ f = .value ∨ a = s + 8 ∧ f.ofList = true
  | list l, a, f => a = l ∧ f.ofList = true

/-- The bytes of an object. -/
noncomputable def region (B : HeapBounds) : Obj → Nat × Nat
  | entry i => (B.entryAddr i, 4)
  | header i => (B.addr i, 24)
  | tcb t => (t, 360)
  | sem s => (s, 24)
  | list l => (l, 16)

theorem ofTcb_bounds {f : Field} (h : f.ofTcb = true) : offset f + size f ≤ 360 := by
  revert h
  cases f <;> decide

theorem ofHeader_bounds {f : Field} (h : f.ofHeader = true) : offset f + size f ≤ 24 := by
  revert h
  cases f <;> decide

theorem ofList_bounds {f : Field} (h : f.ofList = true) : offset f + size f ≤ 16 := by
  revert h
  cases f <;> decide

instance (a n b k : Nat) : Decidable (Apart a n b k) := inferInstanceAs (Decidable (_ ∨ _))

theorem ofTcb_apart {f g : Field} (hf : f.ofTcb = true) (hg : g.ofTcb = true) (hne : g ≠ f) :
    Apart (offset f) (size f) (offset g) (size g) := by
  revert hf hg hne
  cases f <;> cases g <;> decide

theorem ofHeader_apart {f g : Field} (hf : f.ofHeader = true) (hg : g.ofHeader = true)
    (hne : g ≠ f) : Apart (offset f) (size f) (offset g) (size g) := by
  revert hf hg hne
  cases f <;> cases g <;> decide

theorem ofList_apart {f g : Field} (hf : f.ofList = true) (hg : g.ofList = true) (hne : g ≠ f) :
    Apart (offset f) (size f) (offset g) (size g) := by
  revert hf hg hne
  cases f <;> cases g <;> decide

theorem cells_bounds {o : Obj} {a : Nat} {f : Field} (h : o.cells B a f) :
    (o.region B).1 ≤ a ∧ a + offset f + size f ≤ (o.region B).1 + (o.region B).2 := by
  cases o with
  | entry i =>
    obtain ⟨rfl, rfl⟩ := h
    exact ⟨le_rfl, le_rfl⟩
  | header i =>
    obtain ⟨rfl, hf⟩ := h
    have := ofHeader_bounds hf
    exact ⟨le_rfl, by simp only [region]; omega⟩
  | tcb t =>
    obtain ⟨rfl, hf⟩ := h
    have := ofTcb_bounds hf
    exact ⟨le_rfl, by simp only [region]; omega⟩
  | sem s =>
    rcases h with ⟨rfl, rfl⟩ | ⟨rfl, hf⟩
    · exact ⟨le_rfl, Nat.add_le_add_left (by decide : offset Field.value + size Field.value ≤ 24) a⟩
    · have := ofList_bounds hf
      exact ⟨Nat.le_add_right _ _, by simp only [region]; omega⟩
  | list l =>
    obtain ⟨rfl, hf⟩ := h
    have := ofList_bounds hf
    exact ⟨le_rfl, by simp only [region]; omega⟩

theorem apart_add {c n k a b : Nat} (h : Apart a n b k) : Apart (c + a) n (c + b) k := by
  unfold Apart at *
  omega

/-- The cells of one object are apart. -/
theorem cells_apart {o : Obj} {a b : Nat} {f g : Field} (hf : o.cells B a f) (hg : o.cells B b g)
    (hne : ¬(b = a ∧ g = f)) : Apart (a + offset f) (size f) (b + offset g) (size g) := by
  cases o with
  | entry i =>
    obtain ⟨rfl, rfl⟩ := hf
    obtain ⟨rfl, rfl⟩ := hg
    exact absurd ⟨rfl, rfl⟩ hne
  | header i =>
    obtain ⟨rfl, hf⟩ := hf
    obtain ⟨rfl, hg⟩ := hg
    exact apart_add (ofHeader_apart hf hg fun h => hne ⟨rfl, h⟩)
  | tcb t =>
    obtain ⟨rfl, hf⟩ := hf
    obtain ⟨rfl, hg⟩ := hg
    exact apart_add (ofTcb_apart hf hg fun h => hne ⟨rfl, h⟩)
  | sem s =>
    have hv : offset Field.value + size Field.value ≤ 8 := by decide
    rcases hf with ⟨rfl, rfl⟩ | ⟨rfl, hf⟩ <;> rcases hg with ⟨rfl, rfl⟩ | ⟨rfl, hg⟩
    · exact absurd ⟨rfl, rfl⟩ hne
    · exact .inl (by omega)
    · exact .inr (by omega)
    · exact apart_add (ofList_apart hf hg fun h => hne ⟨rfl, h⟩)
  | list l =>
    obtain ⟨rfl, hf⟩ := hf
    obtain ⟨rfl, hg⟩ := hg
    exact apart_add (ofList_apart hf hg fun h => hne ⟨rfl, h⟩)

/-- The cells of some objects. -/
def own (B : HeapBounds) (os : Obj → Prop) (a : Nat) (f : Field) : Prop := ∃ o, os o ∧ o.cells B a f

theorem own_mono {os os' : Obj → Prop} (h : ∀ o, os o → os' o) {a : Nat} {f : Field}
    (ho : own B os a f) : own B os' a f :=
  ho.imp fun o => And.imp_left (h o)

/-- Objects in regions that do not meet have cells that are apart. -/
theorem separate {os : Obj → Prop} (apart : ∀ o o', os o → os o' → o ≠ o' →
      Apart (o.region B).1 (o.region B).2 (o'.region B).1 (o'.region B).2)
    (nonnull : ∀ o, os o → 0 < (o.region B).1) : Separate (own B os) := by
  constructor
  · rintro a f b g ⟨o, ho, hf⟩ ⟨o', ho', hg⟩ hne
    by_cases heq : o = o'
    · subst heq
      exact cells_apart hf hg hne
    · have h1 := cells_bounds hf
      have h2 := cells_bounds hg
      exact (apart o o' ho ho' heq).within (by omega) h1.2 (by omega) h2.2
  · rintro f ⟨o, ho, hf⟩
    have := nonnull o ho
    have := (cells_bounds hf).1
    omega

/-- The objects of the allocator for the tiling `ts`. -/
def ofHeap (B : HeapBounds) (ts : List Tile) : Obj → Prop
  | entry i => i < B.total
  | header i => Holds false ts i
  | _ => False

end Obj

open Obj

variable {B : HeapBounds} {ts : List Tile} {v v' : Cells} {g : Globals}

theorem HeapCells.of_own {O : Nat → Field → Prop} (h : ∀ a f, own B (ofHeap B ts) a f → O a f) :
    HeapCells B ts O := by
  refine ⟨fun i hi => h _ _ ⟨.entry i, hi, rfl, rfl⟩, fun i hi => ⟨?_, ?_, ?_⟩⟩
  all_goals exact h _ _ ⟨.header i, hi, rfl, rfl⟩

theorem Obj.ofHeap_pos {o : Obj} (h : ofHeap B ts o) : 0 < (o.region B).1 := by
  have := B.start_pos
  cases o with
  | entry i => exact Nat.add_pos_left this _
  | header i => exact B.addr_pos i
  | tcb t => exact h.elim
  | sem s => exact h.elim
  | list l => exact h.elim

/-- The table lies before the blocks. -/
theorem Obj.ofHeap_apart {o o' : Obj} (h : ofHeap B ts o) (h' : ofHeap B ts o') (hne : o ≠ o') :
    Apart (o.region B).1 (o.region B).2 (o'.region B).1 (o'.region B).2 := by
  cases o with
  | entry i =>
    have hi := B.entryAddr_lt h
    cases o' with
    | entry j =>
      have hij : i ≠ j := fun heq => hne (by rw [heq])
      simp only [region, HeapBounds.entryAddr, Apart]
      omega
    | header j =>
      simp only [region, HeapBounds.addr, Apart]
      omega
    | tcb t => exact h'.elim
    | sem s => exact h'.elim
    | list l => exact h'.elim
  | header i =>
    cases o' with
    | entry j =>
      have hj := B.entryAddr_lt h'
      simp only [region, HeapBounds.addr, Apart]
      omega
    | header j =>
      have hij : i ≠ j := fun heq => hne (by rw [heq])
      simp only [region, HeapBounds.addr, Apart]
      omega
    | tcb t => exact h'.elim
    | sem s => exact h'.elim
    | list l => exact h'.elim
  | tcb t => exact h.elim
  | sem s => exact h.elim
  | list l => exact h.elim

/-- Only the allocator's cells matter to the tiling. -/
theorem HeapRep.congr (h : HeapRep B ts v g)
    (hv : ∀ a f, Obj.own B (ofHeap B ts) a f → v' a f = v a f) : HeapRep B ts v' g := by
  have hentry : ∀ i < B.total, v' (B.entryAddr i) .entry = v (B.entryAddr i) .entry := fun i hi =>
    hv _ _ ⟨.entry i, hi, rfl, rfl⟩
  refine ⟨h.valid, h.start, h.table, h.freeList.congr fun a ha => ?_, fun s hs => ?_,
    fun i hi hno => ?_⟩
  · obtain ⟨s, hs, rfl⟩ := mem_headers.mp ha
    have hfree := HeapRep.holds_free h.valid.pos hs
    refine ⟨hv _ _ ?_, hv _ _ ?_, hv _ _ ?_⟩
    all_goals exact ⟨.header s.1, hfree, rfl, rfl⟩
  · have hlen := segs_pos h.valid.pos hs
    have hbound := (segs_bounds hs).2
    rw [h.valid.size] at hbound
    rw [hentry _ (by omega)]
    exact h.live s hs
  · rw [hentry i hi]
    exact h.clear i hi hno

/-- The heap's variables are the only ones that matter to the tiling. -/
theorem HeapRep.globals {g' : Globals} (h : HeapRep B ts v g)
    (h1 : g'.heapStartAddr = g.heapStartAddr) (h2 : g'.fbHead = g.fbHead)
    (h3 : g'.allocTable = g.allocTable) : HeapRep B ts v g' :=
  ⟨h.valid, h1.trans h.start, h3.trans h.table, h2 ▸ h.freeList, h.live, h.clear⟩

end Os1Kernel
