import Os1Kernel.Lib.Refine
import Os1Kernel.Traps.Context
import Os1Kernel.Traps.Shared

/-! Every thread has the hart for itself: the hart that threads share does what harts do of which each
thread has its own, which traps and switches leave alone. -/

namespace Os1Kernel.Harts

open Memory Rv64 Assembly

/-! ### Harts of threads -/

/-- A new thread, with its stack and its mode, or one that has run.  The kernel has registers of its own
for each thread: those with which it last called `k_save_context` there. -/
inductive Life
  | fresh (usrSp : Word) (supervisor : Bool)
  | live (own : Own) (kernel : Reg → Word)

structure Private (T : Type) where
  current : T
  life : T → Option Life

variable {T : Type}

namespace Private

variable [DecidableEq T]

def set (A : Private T) (l : Option Life) : Private T :=
  { A with life := Function.update A.life A.current l }

/-- The thread `t` goes on with the registers `after`: a new thread at `k_tcb_run_wrapper` with its
stack, any other where its kernel registers are `after`. -/
inductive Picks (K : Symbols) (A : Private T) (t : T) (after : Reg → Word) : Private T → Prop
  | resumed {v : Own} {k : Reg → Word} (h : A.life t = some (.live v k))
      (hk : ∀ r, r ≠ .zero → r ≠ .a0 → after r = k r) : Picks K A t after { A with current := t }
  | started {usrSp : Word} {supervisor : Bool} (h : A.life t = some (.fresh usrSp supervisor))
      (hzero : after .zero = 0) (hsp : after .sp = usrSp) (htp : after .tp = 0)
      (hra : after .ra = K.kTcbRunWrapper) :
      Picks K A t after
        { current := t
          life := Function.update A.life t
            (some (.live ⟨after, K.kTcbRunWrapper, supervisor, true⟩ after)) }

@[simp] theorem set_set (A : Private T) (l l' : Option Life) : (A.set l).set l' = A.set l' := by
  rw [set, set, set]
  simp only [Function.update_idem]

@[simp] theorem set_life (A : Private T) (l : Option Life) : (A.set l).life A.current = l :=
  Function.update_self ..

/-- What each event does to the harts of the threads.  Interrupts, handlers and `sret` do nothing. -/
inductive Step (K : Symbols) : Private T → Event T → Private T → Prop
  | code {A : Private T} {v w : Own} {k : Reg → Word} (h : A.life A.current = some (.live v k))
      (hzero : w.reg .zero = 0) (hmode : w.supervisor = v.supervisor)
      (henabled : v.supervisor = false → w.enabled = v.enabled) :
      Step K A (.code w) (A.set (some (.live w k)))
  | interrupt {A : Private T} {v : Own} {k : Reg → Word} (h : A.life A.current = some (.live v k))
      (henabled : v.supervisor = false ∨ v.enabled = true) : Step K A .interrupt A
  | ecall {A : Private T} {v : Own} {k : Reg → Word} (h : A.life A.current = some (.live v k)) :
      Step K A .ecall (A.set (some (.live
        { v with reg := Function.update v.reg .a0 (BitVec.ofInt 64 failedSyscall), pc := v.pc + 4 } k)))
  | kernel {A : Private T} : Step K A .kernel A
  | answer {A : Private T} {v : Own} {k : Reg → Word} (x : Word)
      (h : A.life A.current = some (.live v k)) :
      Step K A (.answer x) (A.set (some (.live { v with reg := Function.update v.reg .a0 x } k)))
  | userMode {A : Private T} {v : Own} {k : Reg → Word} (h : A.life A.current = some (.live v k)) :
      Step K A .userMode (A.set (some (.live { v with supervisor := false } k)))
  | create {A : Private T} {v : Own} {k : Reg → Word} {t : T} (usrSp : Word)
      (h : A.life A.current = some (.live v k)) (ht : A.life t = none) :
      Step K A (.create t usrSp)
        { A with life := Function.update A.life t (some (.fresh usrSp v.supervisor)) }
  | switch {A A' : Private T} {v : Own} {k before after : Reg → Word} {t : T}
      (h : A.life A.current = some (.live v k))
      (hp : Picks K (A.set (some (.live v before))) t after A') : Step K A (.switch t before after) A'
  | exit {A A' : Private T} {after : Reg → Word} {t : T} (ht : t ≠ A.current)
      (hp : Picks K (A.set none) t after A') : Step K A (.exit t after) A'
  | sret {A : Private T} : Step K A .sret A

theorem Picks.unique {K : Symbols} {A B C : Private T} {t : T} {after : Reg → Word}
    (h : Picks K A t after B) (h' : Picks K A t after C) : B = C := by
  cases h with
  | resumed hl _ =>
    cases h' with
    | resumed _ _ => rfl
    | started hl' _ _ _ _ =>
      rw [hl] at hl'
      cases hl'
  | started hl _ _ _ _ =>
    cases h' with
    | resumed hl' _ =>
      rw [hl] at hl'
      cases hl'
    | started hl' _ _ _ _ =>
      rw [hl] at hl'
      cases hl'
      rfl

/-- The event fixes what a step does. -/
theorem Step.unique {K : Symbols} {A B C : Private T} {o : Event T} (h : Step K A o B)
    (h' : Step K A o C) : B = C := by
  have same {v w : Own} {k l : Reg → Word} (h : A.life A.current = some (.live v k))
      (h' : A.life A.current = some (.live w l)) : v = w ∧ k = l := by
    rw [h] at h'
    cases h'
    exact ⟨rfl, rfl⟩
  cases h with
  | code h _ _ _ =>
    cases h' with
    | code h' _ _ _ => rw [(same h h').2]
  | interrupt _ _ =>
    cases h'
    rfl
  | ecall h =>
    cases h' with
    | ecall h' => rw [(same h h').1, (same h h').2]
  | kernel =>
    cases h'
    rfl
  | answer x h =>
    cases h' with
    | answer _ h' => rw [(same h h').1, (same h h').2]
  | userMode h =>
    cases h' with
    | userMode h' => rw [(same h h').1, (same h h').2]
  | create usrSp h _ =>
    cases h' with
    | create _ h' _ => rw [(same h h').1]
  | switch h hp =>
    cases h' with
    | switch h' hp' =>
      rw [← (same h h').1] at hp'
      exact hp.unique hp'
  | exit _ hp =>
    cases h' with
    | exit _ hp' => exact hp.unique hp'
  | sret =>
    cases h'
    rfl

end Private

/-! ### What memory holds for a thread -/

/-- `sstatus` in a trap of the thread. -/
def Status (x : Word) (v : Own) : Prop :=
  sie x = false ∧ spie x = v.enabled ∧ spp x = v.supervisor

/-- The registers of a thread in a trap: its kernel stack and its context hold them. -/
structure Framed (m : Mem) (p : Place) (ecall : Bool) (v : Own) : Prop where
  zero : v.reg .zero = 0
  frame : ∃ w, Saved m (p.top - 240) cpuRegistries w ∧
    ∀ r, r ≠ .zero → r ≠ .sp → (ecall = true → r ≠ .a0) → w r = v.reg r
  usrSp : loadWord m (p.context + 0x08) = v.reg .sp
  a0 : ecall = true → loadWord m (p.context + 0xf8) = v.reg .a0

/-- A thread that has called `k_save_context` with the registers `k`. -/
structure Suspended (K : Symbols) (m : Mem) (p : Place) (ecall : Bool) (depth : Nat) (v : Own)
    (k : Reg → Word) : Prop where
  framed : Framed m p ecall v
  saved : ∃ w, Saved m p.context contextSlots w ∧ ∀ r, r ≠ .a0 → w r = k r
  ra : k .ra = K.afterSave
  room : 240 + depth ≤ defaultStackSize
  sp : (k .sp).toNat = p.top - 240 - depth
  sepc : loadWord m (p.context + 0x100) = v.pc
  status : Status (loadWord m (p.context + 0x108)) v

/-- A new thread. -/
structure Prepared (K : Symbols) (m : Mem) (p : Place) (usrSp : Word) (supervisor : Bool) : Prop where
  usrSp : loadWord m (p.context + 0x08) = usrSp
  sysSp : (loadWord m (p.context + 0x10)).toNat = p.top
  tp : loadWord m (p.context + 0x20) = 0
  spie : spie (loadWord m (p.context + 0x108)) = true
  spp : spp (loadWord m (p.context + 0x108)) = supervisor
  ra : loadWord m (p.context + 0x00) = K.kTcbStart

/-- A thread that does not run. -/
inductive Parked (K : Symbols) (m : Mem) (p : Place) : Option Phase → Option Life → Prop
  | absent : Parked K m p none none
  | fresh {usrSp : Word} {supervisor : Bool} (h : Prepared K m p usrSp supervisor) :
      Parked K m p (some .fresh) (some (.fresh usrSp supervisor))
  | suspended {ecall : Bool} {depth : Nat} {v : Own} {k : Reg → Word}
      (h : Suspended K m p ecall depth v k) :
      Parked K m p (some (.suspended ecall depth)) (some (.live v k))

/-- The context and the registers on the kernel stack are as before. -/
structure Same (p : Place) (m m' : Mem) : Prop where
  context : ∀ y, p.context ≤ y → y < p.context + 0x110 → m' y = m y
  frame : ∀ y, p.top - 240 ≤ y → y < p.top → m' y = m y

section Same

variable {K : Symbols} {p q : Place} {m m' : Mem} {e : Bool} {d : Nat} {v : Own} {k : Reg → Word}

theorem Place.top_ge (p : Place) : 240 ≤ p.top := by
  have : defaultStackSize = 4096 := rfl
  rw [Place.top]
  omega

theorem Same.word (h : Same p m m') {o : Nat} (ho : o + 8 ≤ 0x110) :
    loadWord m' (p.context + o) = loadWord m (p.context + o) :=
  loadWord_congr fun y h1 h2 => h.context y (by omega) (by omega)

theorem Framed.same (h : Framed m p e v) (hs : Same p m m') : Framed m' p e v where
  zero := h.zero
  frame := by
    obtain ⟨w, hw, heq⟩ := h.frame
    have := p.top_ge
    exact ⟨w, hw.congr cpuRegistries_fits fun y h1 h2 => hs.frame y h1 (by omega), heq⟩
  usrSp := by
    rw [hs.word (by omega)]
    exact h.usrSp
  a0 he := by
    rw [hs.word (by omega)]
    exact h.a0 he

theorem Suspended.same (h : Suspended K m p e d v k) (hs : Same p m m') :
    Suspended K m' p e d v k where
  framed := h.framed.same hs
  saved := by
    obtain ⟨w, hw, heq⟩ := h.saved
    exact ⟨w, hw.congr contextSlots_fits hs.context, heq⟩
  ra := h.ra
  room := h.room
  sp := h.sp
  sepc := by
    rw [hs.word (by omega)]
    exact h.sepc
  status := by
    rw [hs.word (by omega)]
    exact h.status

theorem Prepared.same {usrSp : Word} {supervisor : Bool} (h : Prepared K m p usrSp supervisor)
    (hs : Same p m m') : Prepared K m' p usrSp supervisor := by
  constructor
  · rw [hs.word (by omega)]
    exact h.usrSp
  · rw [hs.word (by omega)]
    exact h.sysSp
  · rw [hs.word (by omega)]
    exact h.tp
  · rw [hs.word (by omega)]
    exact h.spie
  · rw [hs.word (by omega)]
    exact h.spp
  · rw [hs.word (by omega)]
    exact h.ra

theorem Parked.same {f : Option Phase} {l : Option Life} (h : Parked K m p f l)
    (hs : f ≠ none → Same p m m') : Parked K m' p f l := by
  cases h with
  | absent => exact .absent
  | fresh h => exact .fresh (h.same (hs (by simp)))
  | suspended h => exact .suspended (h.same (hs (by simp)))

/-- What is written apart from the ranges of `p` changes nothing of it. -/
theorem Place.Clear.same {a n : Nat} (h : p.Clear a n) (hw : Writes [(a, n)] m m') : Same p m m' := by
  have hsize : defaultStackSize = 4096 := rfl
  constructor
  · apply hw.same
    intro q hq
    rw [List.mem_singleton.mp hq]
    exact h.1.symm
  · have hin : ∀ y, p.stack ≤ y → y < p.stack + defaultStackSize → m' y = m y := by
      apply hw.same
      intro q hq
      rw [List.mem_singleton.mp hq]
      exact h.2.symm
    intro y h1 h2
    rw [Place.top] at h1 h2
    exact hin y (by omega) h2

end Same

/-! ### The thread that runs -/

/-- The hart is the thread's. -/
structure Shown (S : Shared T) (p : Place) (v : Own) : Prop where
  reg : S.hart.reg = v.reg
  pc : S.pc = v.pc
  supervisor : S.supervisor = v.supervisor
  enabled : sie (S.hart.csr .sstatus) = v.enabled
  sysSp : (loadWord S.hart.mem (p.context + 0x10)).toNat = p.top

/-- The hart is in a trap of the thread. -/
structure Handling (S : Shared T) (p : Place) (ecall : Bool) (depth : Nat) (v : Own) : Prop where
  framed : Framed S.hart.mem p ecall v
  room : 240 + depth ≤ defaultStackSize
  sp : (S.hart.reg .sp).toNat = p.top - 240 - depth
  sepc : S.hart.csr .sepc = v.pc
  status : Status (S.hart.csr .sstatus) v
  supervisor : S.supervisor = true

inductive Running (S : Shared T) (p : Place) (v : Own) : Option Phase → Prop
  | user (h : Shown S p v) : Running S p v (some .user)
  | handling {ecall : Bool} {depth : Nat} (h : Handling S p ecall depth v) :
      Running S p v (some (.handling ecall depth))

/-- The places of the threads that exist are apart. -/
structure Placed (K : Symbols) (S : Shared T) : Prop where
  sound : ∀ t, S.phase t ≠ none → (S.place t).Sound K
  apart : ∀ t u, S.phase t ≠ none → S.phase u ≠ none → t ≠ u → (S.place t).Disjoint (S.place u)

/-- The shared hart does what the threads' own harts do. -/
structure Related (K : Symbols) (S : Shared T) (A : Private T) : Prop where
  current : A.current = S.current
  zero : S.hart.reg .zero = 0
  places : Placed K S
  pointer : Shared.context K S.hart.mem = (S.place S.current).context
  running : ∃ v k, A.life S.current = some (.live v k) ∧
    Running S (S.place S.current) v (S.phase S.current)
  parked : ∀ t, t ≠ S.current → Parked K S.hart.mem (S.place t) (S.phase t) (A.life t)

namespace Related

variable {K : Symbols} {S S' : Shared T} {A : Private T} {v : Own} {k : Reg → Word} {e : Bool} {d : Nat}
  {t : T}

theorem alive (h : Related K S A) : S.phase S.current ≠ none := by
  obtain ⟨v, k, -, hrun⟩ := h.running
  intro hnone
  rw [hnone] at hrun
  cases hrun

theorem placed (h : Related K S A) : (S.place S.current).Sound K := h.places.sound _ h.alive

/-- The thread that runs its own code. -/
theorem shown (h : Related K S A) (hp : S.phase S.current = some .user) :
    ∃ v k, A.life S.current = some (.live v k) ∧ Shown S (S.place S.current) v := by
  obtain ⟨v, k, hl, hrun⟩ := h.running
  rw [hp] at hrun
  cases hrun with
  | user h => exact ⟨v, k, hl, h⟩

theorem handling (h : Related K S A) (hp : S.phase S.current = some (.handling e d)) :
    ∃ v k, A.life S.current = some (.live v k) ∧ Handling S (S.place S.current) e d v := by
  obtain ⟨v, k, hl, hrun⟩ := h.running
  rw [hp] at hrun
  cases hrun with
  | handling h => exact ⟨v, k, hl, h⟩

theorem of_handling (h : Related K S A) (hp : S.phase S.current = some (.handling e d))
    (hl : A.life S.current = some (.live v k)) : Handling S (S.place S.current) e d v := by
  obtain ⟨v', k', hl', hs⟩ := h.handling hp
  rw [hl] at hl'
  cases hl'
  exact hs

/-- What neither the threads nor the handlers write. -/
theorem guarded (h : Related K S A) {m' : Mem} (hm : ∀ y, S.Guarded K y → m' y = S.hart.mem y) :
    Shared.context K m' = (S.place S.current).context ∧
      ∀ t, S.phase t ≠ none → Same (S.place t) S.hart.mem m' := by
  have hsize : defaultStackSize = 4096 := rfl
  constructor
  · rw [Shared.context, loadWord_congr fun y h1 h2 => hm y (.inl ⟨h1, h2⟩), ← h.pointer]
    rfl
  · intro t ht
    constructor
    · exact fun y h1 h2 => hm y (.inr ⟨t, ht, .inl ⟨h1, h2⟩⟩)
    · refine fun y h1 h2 => hm y (.inr ⟨t, ht, .inr ⟨?_, h2, fun _ => h1⟩⟩)
      rw [Place.top] at h1
      omega

/-- What is written in the context and on the kernel stack of the thread that runs. -/
theorem writes_own (h : Related K S A) {m' : Mem} {areas : List (Nat × Nat)}
    (hw : Writes areas S.hart.mem m')
    (hin : ∀ a ∈ areas, (S.place S.current).context ≤ a.1 ∧
        a.1 + a.2 ≤ (S.place S.current).context + 0x110 ∨
      (S.place S.current).stack ≤ a.1 ∧ a.1 + a.2 ≤ (S.place S.current).top) :
    Shared.context K m' = (S.place S.current).context ∧
      ∀ t, t ≠ S.current → S.phase t ≠ none → Same (S.place t) S.hart.mem m' := by
  have hclear {p : Place} (hctx : p.Clear (S.place S.current).context 0x110)
      (hstack : p.Clear (S.place S.current).stack defaultStackSize) (a : Nat × Nat) (ha : a ∈ areas) :
      p.Clear a.1 a.2 := by
    rcases hin a ha with ⟨h1, h2⟩ | ⟨h1, h2⟩
    · exact ⟨hctx.1.within h1 h2 le_rfl le_rfl, hctx.2.within h1 h2 le_rfl le_rfl⟩
    · exact ⟨hstack.1.within h1 h2 le_rfl le_rfl, hstack.2.within h1 h2 le_rfl le_rfl⟩
  have hsize : defaultStackSize = 4096 := rfl
  refine ⟨?_, fun t ht hlive => ?_⟩
  · rw [Shared.context, hw.loadWord, ← h.pointer]
    · rfl
    · intro a ha
      have hsym := h.placed.symbol
      rcases hin a ha with ⟨h1, h2⟩ | ⟨h1, h2⟩
      · exact hsym.1.within le_rfl le_rfl h1 h2
      · exact hsym.2.within le_rfl le_rfl h1 h2
  · have hd := h.places.apart t _ hlive h.alive ht
    have hc := hclear hd.1 hd.2
    have hin (y : Nat) (hy : ∀ a ∈ areas, y < a.1 ∨ a.1 + a.2 ≤ y) : m' y = S.hart.mem y := hw y hy
    constructor
    · refine hw.same fun a ha => ?_
      exact (hc a ha).1.symm
    · intro y h1 h2
      have hstack : ∀ y, (S.place t).stack ≤ y → y < (S.place t).stack + defaultStackSize →
          m' y = S.hart.mem y := hw.same fun a ha => (hc a ha).2.symm
      rw [Place.top] at h1 h2
      exact hstack y (by omega) h2

variable [DecidableEq T]

/-- The thread that runs goes on. -/
theorem next {R : Shared T} (h : Related K S A) (hcur : R.current = S.current) (hplace : R.place = S.place)
    (hphase : ∀ t, t ≠ S.current → R.phase t = S.phase t) (hzero : R.hart.reg .zero = 0)
    (hmem : Shared.context K R.hart.mem = (S.place S.current).context ∧
      ∀ t, t ≠ S.current → S.phase t ≠ none → Same (S.place t) S.hart.mem R.hart.mem)
    (hrun : Running R (S.place S.current) v (R.phase S.current)) :
    Related K R (A.set (some (.live v k))) := by
  have hlive (t : T) (ht : R.phase t ≠ none) : S.phase t ≠ none := by
    by_cases heq : t = S.current
    · rw [heq]
      exact h.alive
    · rwa [← hphase t heq]
  constructor
  · rw [hcur]
    exact h.current
  · exact hzero
  · constructor
    · intro t ht
      rw [hplace]
      exact h.places.sound t (hlive t ht)
    · intro t u ht hu hne
      rw [hplace]
      exact h.places.apart t u (hlive t ht) (hlive u hu) hne
  · rw [hcur, hplace]
    exact hmem.1
  · rw [hcur, hplace]
    refine ⟨v, k, ?_, hrun⟩
    rw [← h.current]
    exact Function.update_self ..
  · intro t ht
    rw [hcur] at ht
    have hl : (A.set (some (.live v k))).life t = A.life t := by
      apply Function.update_of_ne
      rw [h.current]
      exact ht
    rw [hplace, hphase t ht, hl]
    exact (h.parked t ht).same (hmem.2 t ht)

/-- Nothing changes for the threads. -/
theorem stay (h : Related K S A) (hl : A.life S.current = some (.live v k))
    (hn : Related K S' (A.set (some (.live v k)))) : Related K S' A := by
  have heq : Function.update A.life A.current (some (.live v k)) = A.life := by
    rw [h.current, ← hl, Function.update_eq_self]
  rw [Private.set, heq] at hn
  exact hn

/-! ### Traps -/

/-- The start of a trap.  In a system call the thread's `a0` is already what the context has for it. -/
theorem trap (h : Related K S A) (hp : S.phase S.current = some .user) (e : Bool) :
    ∃ v k x, A.life S.current = some (.live v k) ∧ Shown S (S.place S.current) v ∧
      Related K (S.trap K e) (A.set (some (.live
        { v with reg := if e then Function.update v.reg .a0 x else v.reg } k))) := by
  obtain ⟨v, k, hl, hs⟩ := h.shown hp
  have hsound := h.placed
  have hsize : defaultStackSize = 4096 := rfl
  have hge := (S.place S.current).top_ge
  have happ : Apart (S.place S.current).context 0x110 ((S.place S.current).top - 240) 240 := by
    refine hsound.own.within le_rfl le_rfl ?_ ?_
    · rw [Place.top]
      omega
    · rw [Place.top]
      omega
  let csr := Function.update (Function.update S.hart.csr .sepc S.pc) .sstatus
    (trapSstatus (S.hart.csr .sstatus) S.supervisor)
  have hent := run_trapEntry (h := { S.hart with csr }) (K := K) rfl h.pointer hsound.context_lt hge
    hs.sysSp happ
  generalize hg : Hart.run { S.hart with csr } (trapEntry K) = g at hent
  have htrap : S.trap K e =
      { S.setPhase (some (.handling e 0)) with hart := g, supervisor := true } := by
    rw [← hg]
    rfl
  let x := loadWord g.mem ((S.place S.current).context + 0xf8)
  refine ⟨v, k, x, hl, hs, ?_⟩
  rw [htrap]
  have hv0 (r : Reg) (hr : e = true → r ≠ .a0) :
      (if e then Function.update v.reg .a0 x else v.reg) r = v.reg r := by
    cases e with
    | false => rfl
    | true => exact Function.update_of_ne (hr rfl) _ _
  apply h.next
  · rfl
  · rfl
  · exact fun t ht => Function.update_of_ne ht _ _
  · rw [hent.zero]
    exact h.zero
  · refine h.writes_own hent.writes fun a ha => ?_
    simp only [List.mem_cons, List.not_mem_nil, or_false] at ha
    rcases ha with rfl | rfl
    · exact .inl ⟨by simp, by simp⟩
    · refine .inr ⟨?_, ?_⟩
      · simp only [Place.top]
        omega
      · simp only
        omega
  · change Running _ _ _ ((S.setPhase (some (.handling e 0))).phase S.current)
    rw [S.setPhase_same]
    refine .handling ⟨⟨?_, ⟨S.hart.reg, hent.frame, fun r _ _ h0 => ?_⟩, ?_, ?_⟩, ?_, ?_, ?_, ⟨?_, ?_, ?_⟩,
      rfl⟩
    · change (if e then Function.update v.reg .a0 x else v.reg) .zero = 0
      rw [hv0 _ (by simp), ← hs.reg]
      exact h.zero
    · change _ = (if e then Function.update v.reg .a0 x else v.reg) r
      rw [hv0 r h0, hs.reg]
    · change _ = (if e then Function.update v.reg .a0 x else v.reg) .sp
      rw [hv0 _ (by simp), ← hs.reg]
      exact hent.usrSp
    · intro he
      have hself : (if e then Function.update v.reg .a0 x else v.reg) .a0 = x := by
        rw [if_pos he, Function.update_self]
      exact hself.symm
    · omega
    · rw [Nat.sub_zero]
      exact hent.sp
    · change g.csr .sepc = v.pc
      rw [hent.csr _ (by decide), ← hs.pc]
      simp [csr]
    · change sie (g.csr .sstatus) = false
      rw [hent.csr _ (by decide)]
      simp only [csr, Function.update_self]
      exact sie_trapSstatus _ _
    · change spie (g.csr .sstatus) = v.enabled
      rw [hent.csr _ (by decide), ← hs.enabled]
      simp only [csr, Function.update_self]
      exact spie_trapSstatus _ _
    · change spp (g.csr .sstatus) = v.supervisor
      rw [hent.csr _ (by decide), ← hs.supervisor]
      simp only [csr, Function.update_self]
      exact spp_trapSstatus _ _

/-- The result of a system call. -/
theorem answer (h : Related K S A) (hp : S.phase S.current = some (.handling true d))
    (hl : A.life S.current = some (.live v k)) (x : Word) :
    Related K (S.answer K x) (A.set (some (.live { v with reg := Function.update v.reg .a0 x } k))) := by
  have hs := h.of_handling hp hl
  have hge := (S.place S.current).top_ge
  have hsize : defaultStackSize = 4096 := rfl
  let c := (S.place S.current).context
  let m := storeWord S.hart.mem (c + 0xf8) x
  have heq : S.answer K x = { S with hart := { S.hart with mem := m } } := by
    rw [Shared.answer, h.pointer]
  have hw : Writes [(c + 0xf8, 8)] S.hart.mem m := Writes.storeWord _ _ _
  rw [heq]
  apply h.next
  · rfl
  · rfl
  · exact fun _ _ => rfl
  · exact h.zero
  · refine h.writes_own hw fun a ha => ?_
    rw [List.mem_singleton.mp ha]
    exact .inl ⟨Nat.le_add_right _ _, by simp [c]⟩
  · change Running _ _ _ (S.phase S.current)
    rw [hp]
    obtain ⟨w, hsaved, hreg⟩ := hs.framed.frame
    refine .handling ⟨⟨?_, ⟨w, ?_, fun r hz hsp h0 => ?_⟩, ?_, fun _ => ?_⟩, hs.room, hs.sp, hs.sepc,
      hs.status, hs.supervisor⟩
    · change Function.update v.reg .a0 x .zero = 0
      rw [Function.update_of_ne (by decide)]
      exact hs.framed.zero
    · refine hsaved.congr cpuRegistries_fits (hw.same fun a ha => ?_)
      rw [List.mem_singleton.mp ha]
      have happ := h.placed.own.symm
      refine happ.within ?_ ?_ (Nat.le_add_right _ _) ?_
      · rw [Place.top]
        omega
      · rw [Place.top]
        omega
      · simp [c]
    · change w r = Function.update v.reg .a0 x r
      rw [Function.update_of_ne (h0 rfl)]
      exact hreg r hz hsp h0
    · change loadWord m (c + 0x08) = Function.update v.reg .a0 x .sp
      rw [Function.update_of_ne (by decide), hw.loadWord]
      · exact hs.framed.usrSp
      · intro a ha
        rw [List.mem_singleton.mp ha]
        exact .inl (by simp only; omega)
    · change loadWord m (c + 0xf8) = Function.update v.reg .a0 x .a0
      rw [Function.update_self]
      exact loadWord_storeWord_same _ _ _

/-- The end of a trap. -/
theorem leave (h : Related K S A) (hp : S.phase S.current = some (.handling e 0))
    (hl : A.life S.current = some (.live v k)) : Related K (S.leave K e) A := by
  have hs := h.of_handling hp hl
  have hsound := h.placed
  obtain ⟨w, hsaved, hreg⟩ := hs.framed.frame
  have hsp := hs.sp
  rw [Nat.sub_zero] at hsp
  have hleft : Exited _ _ _ _ e w := run_trapExit (K := K) rfl h.pointer hsound.context_lt
    (S.place S.current).top_ge hsound.top_lt hsp hsaved
  generalize hg : S.hart.run (trapExit K e) = g at hleft
  have heq : S.leave K e = Shared.sret { S with hart := g } := by
    rw [← hg]
    rfl
  have hsstatus : g.csr .sstatus = S.hart.csr .sstatus := hleft.csr _ (by decide)
  rw [heq]
  refine h.stay hl (h.next rfl rfl (fun t ht => Function.update_of_ne ht _ _) ?_ ?_ ?_)
  · change g.reg .zero = 0
    rw [hleft.zero]
    exact h.zero
  · refine h.writes_own hleft.writes fun a ha => ?_
    rw [List.mem_singleton.mp ha]
    exact .inl ⟨Nat.le_add_right _ _, by simp⟩
  · have hphase : (Shared.sret { S with hart := g }).phase S.current = some .user :=
      Function.update_self ..
    rw [hphase]
    refine .user ⟨?_, ?_, ?_, ?_, hleft.sysSp⟩
    · change g.reg = v.reg
      funext r
      by_cases hz : r = .zero
      · rw [hz, hleft.zero, h.zero, hs.framed.zero]
      by_cases hr : r = .sp
      · rw [hr, hleft.sp, hs.framed.usrSp]
      by_cases h0 : e = true ∧ r = .a0
      · rw [h0.2, hleft.a0 h0.1, hs.framed.a0 h0.1]
      · have hne : e = true → r ≠ .a0 := fun he hr0 => h0 ⟨he, hr0⟩
        rw [hleft.reg r hz hr hne]
        exact hreg r hz hr hne
    · change g.csr .sepc = v.pc
      rw [hleft.csr _ (by decide)]
      exact hs.sepc
    · change spp (g.csr .sstatus) = v.supervisor
      rw [hsstatus]
      exact hs.status.2.2
    · change sie (Function.update g.csr .sstatus (sretSstatus (g.csr .sstatus)) .sstatus) = v.enabled
      rw [Function.update_self, sie_sretSstatus, hsstatus]
      exact hs.status.2.1

end Related

end Os1Kernel.Harts
