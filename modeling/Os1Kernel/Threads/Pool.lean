import Mathlib.Data.Set.Card
import Os1Kernel.Threads.BooksRun

/-! The units behind a semaphore of the console.  A wait takes one, at once or, where it has suspended
its thread, when that has been released and goes on. -/

namespace Os1Kernel

open Memory

/-- A semaphore whose bits are `b` when `units` units are left, of which `granted` are for threads that
have been released, and `waiting` threads are suspended. -/
structure Pool (b units granted waiting : Nat) : Prop where
  bits : b = intBits ((units : Int) - granted - waiting)
  le : granted ≤ units
  full : 0 < waiting → units = granted
  small : units < 2 ^ 30 ∧ waiting < 2 ^ 30

namespace Pool

variable {b units granted waiting : Nat}

theorem value (h : Pool b units granted waiting) : toInt b = (units : Int) - granted - waiting := by
  have hle := h.le
  have hsmall := h.small
  rw [h.bits]
  exact toInt_intBits (by omega) (by omega)

theorem decBits (h : Pool b units granted waiting) :
    decBits b = intBits ((units : Int) - granted - waiting - 1) ∧
      toInt (decBits b) = (units : Int) - granted - waiting - 1 := by
  have hle := h.le
  have hsmall := h.small
  have hbits : Os1Kernel.decBits b = intBits ((units : Int) - granted - waiting - 1) := by
    rw [h.bits, decBits_intBits]
  refine ⟨hbits, ?_⟩
  rw [hbits]
  exact toInt_intBits (by omega) (by omega)

theorem succ (h : Pool b units granted waiting) :
    u32 (b + 1) = intBits ((units : Int) - granted - waiting + 1) ∧
      toInt (u32 (b + 1)) = (units : Int) - granted - waiting + 1 := by
  have hle := h.le
  have hsmall := h.small
  have hbits : u32 (b + 1) = intBits ((units : Int) - granted - waiting + 1) := by
    rw [h.bits, succ_intBits]
  refine ⟨hbits, ?_⟩
  rw [hbits]
  exact toInt_intBits (by omega) (by omega)

/-- A wait that does not block takes a unit that is for no other thread. -/
theorem pass (h : Pool b units granted waiting) (hpos : 0 ≤ toInt (Os1Kernel.decBits b)) :
    granted < units ∧ Pool (Os1Kernel.decBits b) (units - 1) granted waiting := by
  obtain ⟨hbits, hval⟩ := h.decBits
  have hfull := h.full
  have hsmall := h.small
  rw [hval] at hpos
  have hlt : granted < units := by omega
  refine ⟨hlt, ?_, by omega, fun hw => by have := hfull hw; omega, by omega, hsmall.2⟩
  rw [hbits]
  exact congrArg intBits (by omega)

/-- A wait blocks only while no unit is left but for threads that have been released. -/
theorem block (h : Pool b units granted waiting) (hneg : toInt (Os1Kernel.decBits b) < 0)
    (hw : waiting + 1 < 2 ^ 30) : Pool (Os1Kernel.decBits b) units granted (waiting + 1) := by
  obtain ⟨hbits, hval⟩ := h.decBits
  have hle := h.le
  have hfull := h.full
  have hsmall := h.small
  rw [hval] at hneg
  refine ⟨?_, hle, fun _ => ?_, hsmall.1, hw⟩
  · rw [hbits]
    exact congrArg intBits (by omega)
  · by_cases hzero : waiting = 0
    · omega
    · exact hfull (by omega)

/-- A new unit for the first thread that waits. -/
theorem wake (h : Pool b units granted (waiting + 1)) (hu : units + 1 < 2 ^ 30) :
    toInt (u32 (b + 1)) ≤ 0 ∧ Pool (u32 (b + 1)) (units + 1) (granted + 1) waiting := by
  obtain ⟨hbits, hval⟩ := h.succ
  have hfull := h.full (by omega)
  have hsmall := h.small
  refine ⟨by omega, ?_, by omega, fun _ => by omega, hu, by omega⟩
  rw [hbits]
  exact congrArg intBits (by omega)

/-- A new unit when no thread waits. -/
theorem add (h : Pool b units granted 0) (hu : units + 1 < 2 ^ 30) :
    0 < toInt (u32 (b + 1)) ∧ Pool (u32 (b + 1)) (units + 1) granted 0 := by
  obtain ⟨hbits, hval⟩ := h.succ
  have hle := h.le
  refine ⟨by omega, ?_, by omega, fun hw => absurd hw (by omega), hu, by omega⟩
  rw [hbits]
  exact congrArg intBits (by omega)

/-- A thread that has been released takes its unit. -/
theorem take (h : Pool b units (granted + 1) waiting) : Pool b (units - 1) granted waiting := by
  have hle := h.le
  have hfull := h.full
  have hsmall := h.small
  refine ⟨?_, by omega, fun hw => by have := hfull hw; omega, by omega, hsmall.2⟩
  rw [h.bits]
  exact congrArg intBits (by omega)

end Pool

/-! ### The threads that do not run -/

/-- Where a thread that does not run will go on. -/
def Spec.away (L : Layout) (σ : Spec) (t : Nat) : Option Cont :=
  if t ∈ σ.owners.tcbs L ∧ (t = σ.current → σ.resuming = true) then some (σ.abs.cont t) else none

/-- The threads that have been released from a wait on `s` and have not gone on. -/
def Spec.released (L : Layout) (σ : Spec) (s : Nat) : Set Nat :=
  {t | (σ.away L t).bind (Cont.sem L) = some s ∧ t ∉ σ.abs.waiting s}

noncomputable def Spec.granted (L : Layout) (σ : Spec) (s : Nat) : Nat := (σ.released L s).ncard

/-- The units of the semaphore `s`. -/
def Pooled (L : Layout) (s : Nat) (σ : Spec) (units : Nat) : Prop :=
  Pool (σ.abs.bits s) units (σ.granted L s) (σ.abs.waiting s).length

section Away

variable {L : Layout} {σ τ : Spec} {s t units : Nat} {c : Cont} {R : List Nat}

theorem Spec.released_finite (L : Layout) (σ : Spec) (s : Nat) : (σ.released L s).Finite := by
  refine (σ.owners.tcbs L).finite_toSet.subset fun t ht => ?_
  by_contra hno
  have hnone : σ.away L t = none := if_neg fun hm => hno hm.1
  have hsem := ht.1
  rw [hnone] at hsem
  cases hsem

theorem away_congr (hthreads : τ.owners.threads = σ.owners.threads) (hcur : τ.current = σ.current)
    (hres : τ.resuming = σ.resuming) (hcont : τ.abs.cont = σ.abs.cont) : τ.away L = σ.away L := by
  funext t
  rw [Spec.away, Spec.away, Owners.tcbs, Owners.tcbs, hthreads, hcur, hres, hcont]

/-- The thread that runs. -/
theorem away_current (hr : σ.resuming = false) : σ.away L σ.current = none := by
  refine if_neg fun h => ?_
  rw [hr] at h
  cases h.2 rfl

theorem away_of_ne (ht : t ∈ σ.owners.tcbs L) (hne : t ≠ σ.current) :
    σ.away L t = some (σ.abs.cont t) := if_pos ⟨ht, fun heq => absurd heq hne⟩

/-- The current thread goes away and will go on at `c`, and another one is picked. -/
theorem away_switched (hmem : σ.current ∈ σ.owners.tcbs L)
    (hthreads : τ.owners.threads = σ.owners.threads) (hres : τ.resuming = true)
    (hcont : τ.abs.cont = Function.update σ.abs.cont σ.current c) :
    τ.away L = Function.update (σ.away L) σ.current (some c) := by
  funext t
  have htcbs : τ.owners.tcbs L = σ.owners.tcbs L := by rw [Owners.tcbs, Owners.tcbs, hthreads]
  have hτ : τ.away L t = if t ∈ σ.owners.tcbs L then some (τ.abs.cont t) else none := by
    simp only [Spec.away, htcbs, hres, implies_true, and_true]
  rw [hτ, hcont]
  by_cases heq : t = σ.current
  · rw [heq, if_pos hmem, Function.update_self, Function.update_self]
  · rw [Function.update_of_ne heq, Function.update_of_ne heq, Spec.away]
    simp only [heq, false_imp_iff, and_true]

/-- The thread that has been picked goes on. -/
theorem away_resumed (hthreads : τ.owners.threads = σ.owners.threads)
    (hcur : τ.current = σ.current) (hr : τ.resuming = false) (hcont : τ.abs.cont = σ.abs.cont) :
    τ.away L = Function.update (σ.away L) σ.current none := by
  funext t
  have htcbs : τ.owners.tcbs L = σ.owners.tcbs L := by rw [Owners.tcbs, Owners.tcbs, hthreads]
  by_cases heq : t = σ.current
  · rw [heq, Function.update_self, ← hcur]
    exact away_current hr
  · rw [Function.update_of_ne heq, Spec.away, Spec.away, htcbs, hcont, hcur]
    simp only [heq, false_imp_iff, and_true]

end Away

/-! ### Steps that have nothing to do with a semaphore -/

/-- Not a place after a wait on `s`. -/
def Plain (L : Layout) (s : Nat) (o : Option Cont) : Prop := o.bind (Cont.sem L) ≠ some s

/-- The action is one of the input, or of the output, of which `s` is the semaphore. -/
def Action.touches (L : Layout) (s : Nat) : Action → Bool
  | .received _ | .got .. => s = L.getcSem
  | .stored .. => s = L.putcSem
  | .called _ code _ => code = 0x42 ∧ s = L.putcSem
  | _ => false

/-- The log gets longer by actions that have nothing to do with `s`. -/
def Adds (L : Layout) (s : Nat) (l l' : List Action) : Prop :=
  ∃ q, l' = l ++ q ∧ ∀ x ∈ q, x.touches L s = false

/-- The step leaves the semaphore `s`, the threads in waits on it and the characters behind it alone. -/
structure Aside (L : Layout) (s : Nat) (σ τ : Spec) : Prop where
  bits : τ.abs.bits s = σ.abs.bits s
  waiting : τ.abs.waiting s = σ.abs.waiting s
  away : ∀ t, τ.away L t = σ.away L t ∨ Plain L s (σ.away L t) ∧ Plain L s (τ.away L t)
  trace : Adds L s σ.globals.trace τ.globals.trace
  input : s = L.getcSem → τ.globals.getcBuffer = σ.globals.getcBuffer
  output : s = L.putcSem → τ.globals.putcBuffer = σ.globals.putcBuffer ∧
    τ.globals.console = σ.globals.console

namespace Aside

variable {L : Layout} {σ τ : Spec} {s t units : Nat} {c : Cont}

theorem released (h : Aside L s σ τ) : τ.released L s = σ.released L s := by
  ext t
  rcases h.away t with heq | ⟨hσ, hτ⟩
  · rw [Spec.released, Spec.released, Set.mem_ofPred_eq, Set.mem_ofPred_eq, heq, h.waiting]
  · exact iff_of_false (fun hm => hτ hm.1) fun hm => hσ hm.1

theorem pooled (h : Aside L s σ τ) (hp : Pooled L s σ units) : Pooled L s τ units := by
  rw [Pooled, h.bits, Spec.granted, h.released, h.waiting]
  exact hp

end Aside

/-! ### What the other steps do to the units -/

namespace Pooled

variable {L : Layout} {σ τ : Spec} {s units : Nat} {c : Cont}

theorem released_congr (haway : τ.away L = σ.away L) (hwait : τ.abs.waiting s = σ.abs.waiting s) :
    τ.released L s = σ.released L s := by
  rw [Spec.released, Spec.released, haway, hwait]

/-- A wait that does not block. -/
theorem pass (h : Pooled L s σ units) (hpos : 0 ≤ toInt (decBits (σ.abs.bits s)))
    (hbits : τ.abs.bits s = decBits (σ.abs.bits s)) (hwait : τ.abs.waiting s = σ.abs.waiting s)
    (haway : τ.away L = σ.away L) : 0 < units ∧ Pooled L s τ (units - 1) := by
  obtain ⟨hlt, hpool⟩ := Pool.pass h hpos
  refine ⟨by omega, ?_⟩
  rw [Pooled, hbits, hwait, Spec.granted, released_congr haway hwait]
  exact hpool

/-- A wait that blocks. -/
theorem block (h : Pooled L s σ units) (hneg : toInt (decBits (σ.abs.bits s)) < 0)
    (hlen : (σ.abs.waiting s).length + 1 < 2 ^ 30) (hr : σ.resuming = false)
    (hbits : τ.abs.bits s = decBits (σ.abs.bits s))
    (hwait : τ.abs.waiting s = σ.abs.waiting s ++ [σ.current])
    (haway : τ.away L = Function.update (σ.away L) σ.current (some c)) : Pooled L s τ units := by
  have hsame : τ.released L s = σ.released L s := by
    ext t
    rw [Spec.released, Spec.released, Set.mem_ofPred_eq, Set.mem_ofPred_eq, haway, hwait]
    by_cases ht : t = σ.current
    · rw [ht, away_current hr]
      simp
    · rw [Function.update_of_ne ht]
      simp [ht]
  have hpool := Pool.block h hneg hlen
  rw [Pooled, hbits, hwait, Spec.granted, hsame, List.length_append]
  exact hpool

/-- A signal, for the first thread that waits or for none. -/
theorem signal (h : Pooled L s σ units) (hunits : units + 1 < 2 ^ 30)
    (haway : ∀ t ∈ σ.abs.waiting s, (σ.away L t).bind (Cont.sem L) = some s)
    (hnd : (σ.abs.waiting s).Nodup) : Pooled L s (σ.signal s) (units + 1) := by
  have hbits : Function.update σ.abs.bits s (u32 (σ.abs.bits s + 1)) s = u32 (σ.abs.bits s + 1) :=
    Function.update_self ..
  cases hw : σ.abs.waiting s with
  | nil =>
    have hpool : Pool (σ.abs.bits s) units (σ.granted L s) 0 := by
      rw [Pooled, hw] at h
      exact h
    obtain ⟨hpos, hadd⟩ := hpool.add hunits
    have hsig : σ.signal s = σ.signalStart s := by rw [Spec.signal, if_neg (by omega)]
    rw [hsig, Pooled, show (σ.signalStart s).abs.waiting s = [] from hw]
    change Pool (Function.update σ.abs.bits s (u32 (σ.abs.bits s + 1)) s) _ _ _
    rw [hbits]
    exact hadd
  | cons t R =>
    have hpool : Pool (σ.abs.bits s) units (σ.granted L s) (R.length + 1) := by
      rw [Pooled, hw] at h
      exact h
    obtain ⟨hle, hwake⟩ := hpool.wake hunits
    rw [hw, List.nodup_cons] at hnd
    have hwait : (σ.signal s).abs.waiting s = R := by
      rw [Spec.signal, if_pos hle, hw]
      exact Function.update_self ..
    have hbits' : (σ.signal s).abs.bits s = u32 (σ.abs.bits s + 1) := by
      rw [Spec.signal, if_pos hle, hw]
      exact hbits
    have hsame : (σ.signal s).away L = σ.away L := by
      rw [Spec.signal, if_pos hle, hw]
      exact away_congr rfl rfl rfl rfl
    have hrel : (σ.signal s).released L s = insert t (σ.released L s) := by
      ext u
      rw [Set.mem_insert_iff, Spec.released, Spec.released, Set.mem_ofPred_eq, Set.mem_ofPred_eq,
        hsame, hwait, hw]
      by_cases hu : u = t
      · rw [hu]
        exact iff_of_true ⟨haway t (hw ▸ List.mem_cons_self), hnd.1⟩ (.inl rfl)
      · simp [hu]
    have hnot : t ∉ σ.released L s := fun hm => hm.2 (hw ▸ List.mem_cons_self)
    rw [Pooled, hwait, hbits', Spec.granted, hrel,
      Set.ncard_insert_of_notMem hnot (σ.released_finite L s)]
    exact hwake

/-- A thread that has been released takes its unit. -/
theorem take (h : Pooled L s σ units) (hmem : σ.current ∈ σ.released L s)
    (hbits : τ.abs.bits s = σ.abs.bits s) (hwait : τ.abs.waiting s = σ.abs.waiting s)
    (haway : τ.away L = Function.update (σ.away L) σ.current none) :
    0 < units ∧ Pooled L s τ (units - 1) := by
  have hrel : τ.released L s = σ.released L s \ {σ.current} := by
    ext t
    rw [Set.mem_sdiff, Spec.released, Spec.released, Set.mem_ofPred_eq, Set.mem_ofPred_eq, haway, hwait]
    by_cases ht : t = σ.current
    · rw [ht]
      simp
    · rw [Function.update_of_ne ht]
      simp [ht]
  have hcard : (τ.released L s).ncard + 1 = (σ.released L s).ncard := by
    rw [hrel]
    exact Set.ncard_sdiff_singleton_add_one hmem (σ.released_finite L s)
  have hpool : Pool (σ.abs.bits s) units ((τ.released L s).ncard + 1) (σ.abs.waiting s).length := by
    rw [hcard]
    exact h
  refine ⟨by have := hpool.le; omega, ?_⟩
  rw [Pooled, hbits, hwait]
  exact hpool.take

end Pooled

end Os1Kernel
