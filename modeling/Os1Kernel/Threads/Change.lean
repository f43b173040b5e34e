import Os1Kernel.Threads.Calls

/-! Changes of what the heap is used for. -/

namespace Os1Kernel

open Memory

/-- The objects outside of the allocator. -/
def Obj.core : Obj → Bool
  | .entry _ | .header _ => false
  | _ => true

/-- The objects that the kernel uses for both owners are the same. -/
def Owners.Agree (L : Layout) (W W' : Owners) (v v' : Cells) : Prop :=
  ∀ o, W.objs L o → W'.objs L o → o.core = true → ∀ a f, o.cells L.heap a f → v' a f = v a f

namespace Owners.Agree

variable {L : Layout} {W W' : Owners} {v v' : Cells} {t s l : Nat} {f : Field}

theorem tcb (h : Agree L W W' v v') (ht : t ∈ W.tcbs L) (ht' : t ∈ W'.tcbs L) (hf : f.ofTcb = true) :
    v' t f = v t f :=
  h (.tcb t) (List.mem_cons.mp ht) (List.mem_cons.mp ht') rfl t f ⟨rfl, hf⟩

theorem links (h : Agree L W W' v v') (ht : t ∈ W.tcbs L) (ht' : t ∈ W'.tcbs L) :
    v' t .next = v t .next ∧ v' t .prev = v t .prev :=
  ⟨h.tcb ht ht' rfl, h.tcb ht ht' rfl⟩

theorem value (h : Agree L W W' v v') (hs : s ∈ W.semaphores L) (hs' : s ∈ W'.semaphores L) :
    v' s .value = v s .value :=
  h (.sem s) hs hs' rfl s .value (.inl ⟨rfl, rfl⟩)

theorem ends (h : Agree L W W' v v') (hs : s ∈ W.semaphores L) (hs' : s ∈ W'.semaphores L) :
    v' (s + 8) .head = v (s + 8) .head ∧ v' (s + 8) .tail = v (s + 8) .tail :=
  ⟨h (.sem s) hs hs' rfl (s + 8) .head (.inr ⟨rfl, rfl⟩),
    h (.sem s) hs hs' rfl (s + 8) .tail (.inr ⟨rfl, rfl⟩)⟩

theorem static (h : Agree L W W' v v') (hl : l = L.scheduler ∨ l = L.sleepQueue) :
    v' l .head = v l .head ∧ v' l .tail = v l .tail :=
  ⟨h (.list l) hl hl rfl l .head ⟨rfl, rfl⟩, h (.list l) hl hl rfl l .tail ⟨rfl, rfl⟩⟩

theorem refl (L : Layout) (W W' : Owners) (v : Cells) : Agree L W W' v v := fun _ _ _ _ _ _ _ => rfl

end Owners.Agree

/-- The lists after a change of the owners: the threads and semaphores that stay are in the same
lists, and new semaphores suspend no thread. -/
theorem Queues.change {L : Layout} {W W' : Owners} {A A' : Abs} {v v' : Cells} (h : Queues L W A v)
    (hagree : W.Agree L W' v v') (hready : A'.ready = A.ready) (hasleep : A'.asleep = A.asleep)
    (hnow : A'.now = A.now) (hplace : (W'.tcbs L).Perm (A'.moving ++ A'.queued L W'))
    (hsems : ∀ s ∈ W'.semaphores L, s ∈ W.semaphores L ∧ A'.waiting s = A.waiting s ∧
      A'.bits s = A.bits s ∨ IsList v' (s + 8) [] ∧ A'.waiting s = [] ∧ v' s .value = A'.bits s ∧
        A'.bits s < 2 ^ 32)
    (hflag : ∀ t ∈ W'.tcbs L, t ∈ W.tcbs L ∧ A'.flag t = A.flag t ∨
      v' t .interrupted = (A'.flag t).toNat) : Queues L W' A' v' := by
  have hmem {t : Nat} (ht : t ∈ A'.queued L W') : t ∈ W'.tcbs L :=
    hplace.mem_iff.mpr (List.mem_append_right _ ht)
  have hr {t : Nat} (ht : t ∈ A.ready) : t ∈ W.tcbs L ∧ t ∈ W'.tcbs L := by
    refine ⟨h.ready_mem ht, hmem ?_⟩
    rw [← hready] at ht
    exact List.mem_append_left _ (List.mem_append_left _ ht)
  have ha {t : Nat} (ht : t ∈ A.asleep.map Prod.fst) : t ∈ W.tcbs L ∧ t ∈ W'.tcbs L := by
    refine ⟨h.asleep_mem ht, hmem ?_⟩
    rw [← hasleep] at ht
    exact List.mem_append_left _ (List.mem_append_right _ ht)
  have hw {s t : Nat} (hs : s ∈ W.semaphores L) (hs' : s ∈ W'.semaphores L)
      (heq : A'.waiting s = A.waiting s) (ht : t ∈ A.waiting s) :
      t ∈ W.tcbs L ∧ t ∈ W'.tcbs L := by
    refine ⟨h.waiting_mem hs ht, hmem ?_⟩
    rw [← heq] at ht
    exact List.mem_append_right _ (List.mem_flatMap.mpr ⟨s, hs', ht⟩)
  refine ⟨?_, ⟨?_, ?_, ?_⟩, ?_, fun s hs' => ?_, hplace, ?_, ?_, fun s hs' t ht => ?_, fun s hs' => ?_,
    fun t ht' => ?_⟩
  · rw [hready]
    exact h.ready.congr (hagree.static (.inl rfl)) fun t ht => hagree.links (hr ht).1 (hr ht).2
  · rw [hasleep]
    exact h.asleep.list.congr (hagree.static (.inr rfl)) fun t ht =>
      hagree.links (ha ht).1 (ha ht).2
  · rw [hasleep, hnow]
    refine h.asleep.delays.congr fun p hp => ?_
    have hp' : p.1 ∈ A.asleep.map Prod.fst := List.mem_map.mpr ⟨p, hp, rfl⟩
    exact hagree.tcb (ha hp').1 (ha hp').2 rfl
  · rw [hasleep, hnow]
    exact h.asleep.lt
  · rw [hasleep, hnow]
    exact h.future
  · rcases hsems s hs' with ⟨hs, heq, -⟩ | ⟨hnew, hnil, -⟩
    · rw [heq]
      exact (h.waiting s hs).congr (hagree.ends hs hs') fun t ht =>
        hagree.links (hw hs hs' heq ht).1 (hw hs hs' heq ht).2
    · rwa [hnil]
  · rw [hready]
    exact fun t ht => (hagree.tcb (hr ht).1 (hr ht).2 rfl).trans (h.readyStatus t ht)
  · rw [hasleep]
    exact fun t ht => (hagree.tcb (ha ht).1 (ha ht).2 rfl).trans (h.asleepStatus t ht)
  · rcases hsems s hs' with ⟨hs, heq, -⟩ | ⟨-, hnil, -⟩
    · rw [heq] at ht
      exact (hagree.tcb (hw hs hs' heq ht).1 (hw hs hs' heq ht).2 rfl).trans
        (h.waitingStatus s hs t ht)
    · simp [hnil] at ht
  · rcases hsems s hs' with ⟨hs, -, heq⟩ | ⟨-, -, hnew⟩
    · rw [hagree.value hs hs', heq]
      exact h.bits s hs
    · exact hnew
  · rcases hflag t ht' with ⟨ht, heq⟩ | hnew
    · rw [hagree.tcb ht ht' rfl, heq]
      exact h.flag t ht
    · exact hnew

/-- What memory holds apart from the lists. -/
structure Rest (L : Layout) (σ : Spec) (v : Cells) : Prop where
  heap : HeapRep L.heap σ.owners.tiles v σ.globals
  tiled : σ.owners.Tiled L
  base : Base L σ.owners v
  contexts : ∀ t ∈ σ.owners.tcbs L, t ≠ σ.globals.kCurrentContext → Context L σ v t

/-- The thread `t` is as `create_tcb` leaves it. -/
structure NewTcb (L : Layout) (σ : Spec) (v : Cells) (t : Nat) : Prop where
  usrStack : v t .usrStack = σ.owners.stack t + defaultStackSize
  sysStack : v t .sysStack = σ.owners.kernelStack t
  joinSem : v t .joinSem = σ.owners.join t
  slice : v t .timeSlice = defaultTimeSlice
  context : Context L σ v t

variable {L : Layout} {σ σ' : Spec} {v v' : Cells}

theorem Holds.rest (h : Holds L σ v) : Rest L σ v := ⟨h.heap, h.tiled, h.base, h.contexts⟩

theorem Rest.holds (h : Rest L σ v) (hQ : Queues L σ.owners σ.abs v)
    (hstatus : ∀ t ∈ σ.abs.moving, v t .status = σ.status.code) : Holds L σ v :=
  ⟨h.heap, h.tiled, hQ, h.base, h.contexts, hstatus⟩

/-- A change of the lists. -/
theorem Rest.of_quiet (h : Rest L σ v) (hq : Quiet v v') (how : σ'.owners = σ.owners)
    (hmode : σ'.mode = σ.mode)
    (hcont : ∀ t, t ≠ σ.globals.kCurrentContext → σ'.abs.cont t = σ.abs.cont t)
    (hvars : SameVars σ.globals σ'.globals) : Rest L σ' v' := by
  have hb := h.base
  refine ⟨?_, how ▸ h.tiled, how ▸ ⟨?_, ?_, ?_, ?_, ?_⟩, fun t ht hne => ?_⟩
  · rw [how]
    refine (h.heap.congr fun a f ⟨o, ho, hcell⟩ => hq a f ?_).globals hvars.heapStartAddr hvars.fbHead
      hvars.allocTable
    cases o with
    | entry i =>
      rw [hcell.2]
      decide
    | header i => exact (Field.ofHeader_ne hcell.2).1
    | tcb _ => exact ho.elim
    | sem _ => exact ho.elim
    | list _ => exact ho.elim
  · exact fun t ht => (hq _ _ (by decide)).trans (hb.usrStack t ht)
  · exact fun t ht => (hq _ _ (by decide)).trans (hb.sysStack t ht)
  · exact fun t ht => (hq _ _ (by decide)).trans (hb.joinSem t ht)
  · exact (hq _ _ (by decide)).trans hb.mainJoin
  · exact fun t ht => (hq _ _ (by decide)).trans (hb.slice t ht)
  · rw [hvars.kCurrentContext] at hne
    rw [how] at ht
    have hc := h.contexts t ht hne
    refine ⟨?_, ?_⟩
    · rw [hq _ _ (by decide), hcont t hne]
      exact hc.ra
    · rw [hq _ _ (by decide), hmode]
      exact hc.mode

/-- A change of the owners: a thread stays what it is, or is new. -/
theorem Rest.change (h : Rest L σ v) (htiled : σ'.owners.Tiled L)
    (hrep : HeapRep L.heap σ'.owners.tiles v' σ'.globals) (hagree : σ.owners.Agree L σ'.owners v v')
    (hctx : σ'.globals.kCurrentContext = σ.globals.kCurrentContext)
    (hmain : σ'.mode L.mainTcb = σ.mode L.mainTcb ∧ σ'.abs.cont L.mainTcb = σ.abs.cont L.mainTcb)
    (hthreads : ∀ t ∈ σ'.owners.threads, (t ∈ σ.owners.threads ∧
      (σ'.owners.stack t = σ.owners.stack t ∧ σ'.owners.kernelStack t = σ.owners.kernelStack t ∧
        σ'.owners.join t = σ.owners.join t) ∧ σ'.mode t = σ.mode t ∧
        σ'.abs.cont t = σ.abs.cont t) ∨ NewTcb L σ' v' t) : Rest L σ' v' := by
  have hb := h.base
  have hsub {t : Nat} (ht : t ∈ σ.owners.threads) : t ∈ σ.owners.tcbs L := List.mem_cons_of_mem _ ht
  have hsub' {t : Nat} (ht : t ∈ σ'.owners.threads) : t ∈ σ'.owners.tcbs L :=
    List.mem_cons_of_mem _ ht
  have hold {t : Nat} (ht : t ∈ σ.owners.tcbs L) (ht' : t ∈ σ'.owners.tcbs L)
      (hmode : σ'.mode t = σ.mode t) (hcont : σ'.abs.cont t = σ.abs.cont t)
      (hne : t ≠ σ'.globals.kCurrentContext) : Context L σ' v' t := by
    have hc := h.contexts t ht (hctx ▸ hne)
    refine ⟨?_, ?_⟩
    · rw [hagree.tcb ht ht' rfl, hcont]
      exact hc.ra
    · rw [hagree.tcb ht ht' rfl, hmode]
      exact hc.mode
  refine ⟨hrep, htiled, ⟨fun t ht' => ?_, fun t ht' => ?_, fun t ht' => ?_, ?_, fun t ht' => ?_⟩,
    fun t ht' hne => ?_⟩
  · rcases hthreads t ht' with ⟨ht, ⟨hs, -⟩, -⟩ | hnew
    · rw [hagree.tcb (hsub ht) (hsub' ht') rfl, hs]
      exact hb.usrStack t ht
    · exact hnew.usrStack
  · rcases hthreads t ht' with ⟨ht, ⟨-, hs, -⟩, -⟩ | hnew
    · rw [hagree.tcb (hsub ht) (hsub' ht') rfl, hs]
      exact hb.sysStack t ht
    · exact hnew.sysStack
  · rcases hthreads t ht' with ⟨ht, ⟨-, -, hs⟩, -⟩ | hnew
    · rw [hagree.tcb (hsub ht) (hsub' ht') rfl, hs]
      exact hb.joinSem t ht
    · exact hnew.joinSem
  · exact (hagree.tcb List.mem_cons_self List.mem_cons_self rfl).trans hb.mainJoin
  · rcases List.mem_cons.mp ht' with rfl | ht''
    · exact (hagree.tcb List.mem_cons_self ht' rfl).trans (hb.slice _ List.mem_cons_self)
    · rcases hthreads t ht'' with ⟨ht, -⟩ | hnew
      · exact (hagree.tcb (hsub ht) ht' rfl).trans (hb.slice t (hsub ht))
      · exact hnew.slice
  · rcases List.mem_cons.mp ht' with rfl | ht''
    · exact hold List.mem_cons_self ht' hmain.1 hmain.2 hne
    · rcases hthreads t ht'' with ⟨ht, -, hmode, hcont⟩ | hnew
      · exact hold (hsub ht) ht' hmode hcont hne
      · exact hnew.context

end Os1Kernel
