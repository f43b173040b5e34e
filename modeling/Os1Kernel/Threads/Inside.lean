import Os1Kernel.Threads.Steps

/-! What holds while the kernel handles a trap, and where it leaves a thread that is switched away
from. -/

namespace Os1Kernel

open Memory

namespace Holds

variable {L : Layout} {σ : Spec} {v v' : Cells}

/-- Memory that agrees on the cells of the kernel, but for the results of system calls. -/
theorem of_cells (h : Holds L σ v)
    (hv : ∀ a f, σ.owners.cells L a f → f ≠ .a0 → v' a f = v a f) : Holds L σ v' := by
  have hQ := h.queues
  have hb := h.base
  have htcb (t : Nat) (ht : t ∈ σ.owners.tcbs L) (f : Field) (hf : f.ofTcb = true) (hne : f ≠ .a0) :
      v' t f = v t f := hv t f (Owners.cells_tcb ht hf) hne
  have hthread (t : Nat) (ht : t ∈ σ.owners.threads) := List.mem_cons_of_mem L.mainTcb ht
  have hends (l : Nat) (hl : ListCells (σ.owners.cells L) l) :
      v' l .head = v l .head ∧ v' l .tail = v l .tail :=
    ⟨hv _ _ hl.head (by decide), hv _ _ hl.tail (by decide)⟩
  have hlinks (t : Nat) (ht : t ∈ σ.owners.tcbs L) : v' t .next = v t .next ∧ v' t .prev = v t .prev :=
    ⟨htcb t ht _ rfl (by decide), htcb t ht _ rfl (by decide)⟩
  refine ⟨h.heap.congr fun a f ⟨o, ho, hcell⟩ => ?_, h.tiled, ?_, ⟨?_, ?_, ?_, ?_, ?_⟩, ?_, ?_⟩
  · refine hv a f ⟨o, ?_, hcell⟩ ?_
    · cases o with
      | entry i => exact ho
      | header i => exact ho
      | tcb _ => exact ho.elim
      | sem _ => exact ho.elim
      | list _ => exact ho.elim
    · cases o with
      | entry i =>
        rw [hcell.2]
        decide
      | header i =>
        rintro rfl
        exact absurd hcell.2 (by decide)
      | tcb _ => exact ho.elim
      | sem _ => exact ho.elim
      | list _ => exact ho.elim
  · refine ⟨hQ.ready.congr (hends _ Owners.cells_scheduler) fun t ht => hlinks t (hQ.ready_mem ht),
      ⟨hQ.asleep.list.congr (hends _ Owners.cells_sleepQueue) fun t ht => hlinks t (hQ.asleep_mem ht),
        hQ.asleep.delays.congr fun p hp => ?_, hQ.asleep.lt⟩, hQ.future,
      fun s hs => (hQ.waiting s hs).congr (hends _ (Owners.cells_sem hs).2)
        fun t ht => hlinks t (hQ.waiting_mem hs ht), hQ.place, fun t ht => ?_, fun t ht => ?_,
      fun s hs t ht => ?_, fun s hs => ?_, fun t ht => ?_⟩
    · exact htcb _ (hQ.asleep_mem (List.mem_map.mpr ⟨p, hp, rfl⟩)) _ rfl (by decide)
    · rw [htcb t (hQ.ready_mem ht) _ rfl (by decide)]
      exact hQ.readyStatus t ht
    · rw [htcb t (hQ.asleep_mem ht) _ rfl (by decide)]
      exact hQ.asleepStatus t ht
    · rw [htcb t (hQ.waiting_mem hs ht) _ rfl (by decide)]
      exact hQ.waitingStatus s hs t ht
    · rw [hv _ _ (Owners.cells_sem hs).1 (by decide)]
      exact hQ.bits s hs
    · rw [htcb t ht _ rfl (by decide)]
      exact hQ.flag t ht
  · exact fun t ht => (htcb t (hthread t ht) _ rfl (by decide)).trans (hb.usrStack t ht)
  · exact fun t ht => (htcb t (hthread t ht) _ rfl (by decide)).trans (hb.sysStack t ht)
  · exact fun t ht => (htcb t (hthread t ht) _ rfl (by decide)).trans (hb.joinSem t ht)
  · exact (htcb _ List.mem_cons_self _ rfl (by decide)).trans hb.mainJoin
  · exact fun t ht => (htcb t ht _ rfl (by decide)).trans (hb.slice t ht)
  · intro t ht hne
    have hc := h.contexts t ht hne
    refine ⟨?_, ?_⟩
    · rw [htcb t ht _ rfl (by decide)]
      exact hc.ra
    · rw [htcb t ht _ rfl (by decide)]
      exact hc.mode
  · intro t ht
    rw [htcb t (hQ.moving_mem ht) _ rfl (by decide)]
    exact h.status t ht

theorem take (h : Holds L σ v) : Holds L σ.take v :=
  Holds.log (Holds.on (g := { σ.globals with getcBuffer := σ.globals.getcBuffer.get.2 }) h
    ⟨rfl, rfl, rfl, rfl⟩) _

theorem store (h : Holds L σ v) (p0 : Nat) : Holds L (σ.store p0) v :=
  Holds.log (Holds.on (g := { σ.globals with
    putcBuffer := σ.globals.putcBuffer.put (UInt8.ofNat p0) }) h ⟨rfl, rfl, rfl, rfl⟩) _

theorem tick (h : Holds L σ.wake v) : Holds L σ.tick v :=
  Holds.log (Holds.on (g := { σ.wake.globals with timerTicks := u64 (σ.globals.timerTicks + 1) }) h
    ⟨rfl, rfl, rfl, rfl⟩) _

/-- The result of a system call. -/
theorem setA0 (h : Holds L σ v) (x : Nat) : Holds L σ (v.set σ.globals.kCurrentContext .a0 x) :=
  h.of_cells fun _ _ _ hf => View.set_field_ne hf

end Holds

/-- The rest of the program of a thread that has been switched away from. -/
def Cont.prog (L : Layout) : Cont → Kernel Unit
  | .fresh => pure ()
  | .preempted => resetTicks
  | .dispatched => do
    resetTicks
    ecallReturn
  | .joining s => do
    resetTicks
    let _ ← Sem.afterBlock s
    ecallReturn
  | .waiting s => do
    resetTicks
    let code ← Sem.afterBlock s
    setA0 (signExtend code)
    ecallReturn
  | .reading => do
    resetTicks
    let _ ← Sem.afterBlock L.getcSem
    takeChar
    ecallReturn
  | .writing p0 => do
    resetTicks
    let _ ← Sem.afterBlock L.putcSem
    storeChar p0
    ecallReturn

/-- The flush thread, once there is one, runs or is ready. -/
def Awake (σ : Spec) : Prop := σ.globals.handles.flush ≠ 0 →
  σ.globals.handles.flush ∈ σ.owners.threads ∧
    σ.globals.handles.flush ∈ σ.abs.moving ++ σ.abs.ready

/-- The kernel handles a trap for the current thread; `S` holds the rest of the other threads'
programs. -/
structure Inside (L : Layout) (S : Nat → Option (Kernel Unit)) (I : Spec → Prop) (σ : Spec)
    (v : Cells) : Prop where
  holds : Holds L σ v
  running : Holds.Running σ
  resuming : σ.resuming = false
  saved : ∀ t ∈ σ.owners.tcbs L, t ≠ σ.current → σ.abs.cont t ≠ .fresh →
    S t = some ((σ.abs.cont t).prog L)
  handles : σ.globals.handles = σ.owners.handles σ.globals.handles.flush
  awake : Awake σ
  inv : I σ

/-- The thread `old` has been switched away from, and `k` is left to do for it; the current thread has
been picked. -/
structure Away (L : Layout) (S : Nat → Option (Kernel Unit)) (I : Spec → Prop) (σ : Spec)
    (sw : Switch) (k : Kernel Unit) (v : Cells) : Prop where
  holds : Holds L σ v
  running : Holds.Running σ
  resuming : σ.resuming = true
  switches : Switches L σ sw.saved sw
  saved : ∀ t ∈ σ.owners.tcbs L, σ.abs.cont t ≠ .fresh →
    (if sw.saved ≠ 0 then Function.update S sw.saved (some k) else S) t = some ((σ.abs.cont t).prog L)
  handles : σ.globals.handles = σ.owners.handles σ.globals.handles.flush
  awake : Awake σ
  inv : I σ

namespace Inside

variable {L : Layout} {S : Nat → Option (Kernel Unit)} {I : Spec → Prop} {σ τ : Spec} {v v' : Cells}
  {sw : Switch} {k : Kernel Unit} {c : Cont} {s n x : Nat} {R : List Nat}

theorem valid (h : Inside L S I σ v) : Valid L σ where
  tiled := h.holds.tiled
  place := h.holds.queues.place
  bits s hs := (h.holds.queues.bits s hs).2
  moving := h.running.moving

/-- A step of the abstract machine that stays with the current thread and in its trap. -/
theorem step (h : Inside L S I σ v) (hI : Kept L I) (hs : Step L σ τ) (hholds : Holds L τ v')
    (how : τ.owners = σ.owners) (hcur : τ.current = σ.current)
    (hmoving : τ.abs.moving = σ.abs.moving) (hready : σ.abs.ready ⊆ τ.abs.ready)
    (hcont : τ.abs.cont = σ.abs.cont) (hstatus : τ.status = σ.status)
    (hcontext : τ.globals.kCurrentContext = σ.globals.kCurrentContext)
    (hmode : spp τ.globals.sstatus = τ.mode τ.current) (hresuming : τ.resuming = σ.resuming)
    (hhandles : τ.globals.handles = σ.globals.handles) : Inside L S I τ v' where
  holds := hholds
  running := ⟨by rw [hmoving, hcur, h.running.moving], by rw [hcontext, hcur, h.running.context],
    hstatus.trans h.running.status, hmode⟩
  resuming := hresuming.trans h.resuming
  saved t ht hne := by
    rw [hcont]
    rw [how] at ht
    rw [hcur] at hne
    exact h.saved t ht hne
  handles := by rw [hhandles, how, ← h.handles]
  awake := by
    intro hf
    rw [hhandles] at hf ⊢
    rw [how, hmoving]
    obtain ⟨h1, h2⟩ := h.awake hf
    exact ⟨h1, List.append_subset.mpr ⟨List.subset_append_left _ _,
      List.Subset.trans hready (List.subset_append_right _ _)⟩ h2⟩
  inv := hI σ τ hs h.inv

/-- The current thread will go on at `c`, and another thread runs. -/
theorem away (h : Inside L S I σ v) (hI : Kept L I) (hs : Step L σ τ) (hholds : Holds L τ v')
    (hsw : Switches L τ σ.current sw) (how : τ.owners = σ.owners)
    (hmoving : τ.abs.moving = [τ.current])
    (hready : ∀ f ∈ σ.abs.moving ++ σ.abs.ready, f = σ.globals.handles.flush →
      f ∈ τ.abs.moving ++ τ.abs.ready)
    (hcont : τ.abs.cont = Function.update σ.abs.cont σ.current c) (hstatus : τ.status = .running)
    (hcontext : τ.globals.kCurrentContext = τ.current) (hresuming : τ.resuming = true)
    (hhandles : τ.globals.handles = σ.globals.handles) (hk : k = c.prog L) :
    Away L S I τ sw k v' where
  holds := hholds
  running := ⟨hmoving, hcontext, hstatus, hsw.mode⟩
  resuming := hresuming
  switches := hsw.saved ▸ hsw
  saved t ht hne := by
    have hpos := h.holds.current_pos h.running
    rw [hsw.saved, if_pos hpos.ne']
    rw [hcont] at hne ⊢
    by_cases htc : t = σ.current
    · subst htc
      simp only [Function.update_self, hk]
    · simp only [Function.update_of_ne htc] at hne ⊢
      rw [how] at ht
      exact h.saved t ht htc hne
  handles := by rw [hhandles, how, ← h.handles]
  awake := by
    intro hf
    rw [hhandles] at hf ⊢
    rw [how]
    obtain ⟨h1, h2⟩ := h.awake hf
    exact ⟨h1, hready _ h2 rfl⟩
  inv := hI σ τ hs h.inv

/-- The flush thread is ready while another thread runs. -/
theorem ready_ne_nil (h : Inside L S I σ v) (hf : σ.globals.handles.flush ≠ 0)
    (hcur : σ.current ≠ σ.globals.handles.flush) : σ.abs.ready ≠ [] := by
  have hmem := (h.awake hf).2
  rw [h.running.moving] at hmem
  refine List.ne_nil_of_mem ((List.mem_append.mp hmem).resolve_left fun hm => ?_)
  exact hcur (List.mem_singleton.mp hm).symm

/-- The flush thread stays ready when another thread is suspended. -/
theorem ready_suspend (h : Inside L S I σ v) (hR : σ.abs.ready = n :: R)
    (hcur : σ.current ≠ σ.globals.handles.flush) :
    ∀ f ∈ σ.abs.moving ++ σ.abs.ready, f = σ.globals.handles.flush → f ∈ [n] ++ R := by
  intro f hf heq
  rw [h.running.moving, hR] at hf
  have hne : f ≠ σ.current := fun h' => hcur (h'.symm.trans heq)
  simpa [hne] using hf

/-- All threads stay ready when the current one is put at the end. -/
theorem ready_requeue (h : Inside L S I σ v) {A : List Nat} (hA : σ.abs.ready ⊆ A)
    (hR : A ++ [σ.current] = n :: R) : ∀ f ∈ σ.abs.moving ++ σ.abs.ready, f ∈ [n] ++ R := by
  intro f hf
  rw [h.running.moving, List.singleton_append] at hf
  rw [List.singleton_append, ← hR]
  rcases List.mem_cons.mp hf with rfl | hf
  · exact List.mem_append_right _ (List.mem_singleton_self _)
  · exact List.mem_append_left _ (hA hf)

theorem away_block (h : Inside L S I σ v) (hI : Kept L I) (hreason : Reason L σ s c)
    (hs : s ∈ σ.owners.semaphores L) (hneg : toInt (decBits (σ.abs.bits s)) < 0)
    (hR : σ.abs.ready = n :: R) (hcur : σ.current ≠ σ.globals.handles.flush)
    (hholds : Holds L ((σ.block s c).switch n R x) v')
    (hsw : Switches L ((σ.block s c).switch n R x) σ.current sw) (hk : k = c.prog L) :
    Away L S I ((σ.block s c).switch n R x) sw k v' :=
  h.away hI (.block h.valid h.resuming hreason hs hneg hR) hholds hsw rfl rfl
    (h.ready_suspend hR hcur) rfl rfl rfl rfl rfl hk

theorem away_dispatch (h : Inside L S I σ v) (hI : Kept L I) (hc : c = .preempted ∨ c = .dispatched)
    (hR : (σ.requeue c).abs.ready = n :: R) (hholds : Holds L ((σ.requeue c).switch n R x) v')
    (hsw : Switches L ((σ.requeue c).switch n R x) σ.current sw) (hk : k = c.prog L) :
    Away L S I ((σ.requeue c).switch n R x) sw k v' :=
  h.away hI (.dispatch h.valid h.resuming hc hR) hholds hsw rfl rfl
    (fun f hf _ => h.ready_requeue (List.Subset.refl _) hR f hf) rfl rfl rfl rfl rfl hk

theorem away_sleep {m : Nat} (h : Inside L S I σ v) (hI : Kept L I) (hm : 1 ≤ m ∧ m < 2 ^ 64)
    (hR : σ.abs.ready = n :: R) (hcur : σ.current ≠ σ.globals.handles.flush)
    (hholds : Holds L ((σ.sleep m).switch n R x) v')
    (hsw : Switches L ((σ.sleep m).switch n R x) σ.current sw)
    (hk : k = Cont.dispatched.prog L) : Away L S I ((σ.sleep m).switch n R x) sw k v' :=
  h.away hI (.sleep h.valid h.resuming hm hR) hholds hsw rfl rfl
    (h.ready_suspend hR hcur) rfl rfl rfl rfl rfl hk

end Inside

end Os1Kernel
