import Os1Kernel.Threads.Semaphores

/-! A run in which the kernel frees the block of the flush thread and user code gets it.  The scheduler
then hands out what is no thread. -/

namespace Os1Kernel

open Memory MemoryAllocator Ledger
open Tiling hiding alloc size

/-! ### Links that user code has written -/

section Links

variable {O : Nat → Field → Prop} {v : Cells} {g : Globals} {l t u n : Nat}

/-- `take_first` follows the links as they are. -/
theorem wp_takeFirst_links {Q : Nat → Cells → Globals → Prop}
    {T : Switch → Kernel Nat → Cells → Globals → Prop} (hl : ListCells O l) (ht : LinkCells O t)
    (hn : n ≠ 0 → LinkCells O n) (h0 : t ≠ 0) (hne : n ≠ t) (hlt : n < 2 ^ 64)
    (hhead : v l .head = t) (hnext : v t .next = n)
    (hQ : ∀ v', LinksOnly l [t, n] v v' → v' l .head = n →
      v' l .tail = (if n = 0 then 0 else v l .tail) → v' n .next = v n .next → Q t v' g) :
    (ListTCB.takeFirst l).wp O v g Q T := by
  simp only [ListTCB.takeFirst, ListTCB.isEmpty, ListTCB.dropFirst, ListTCB.unlink, Prog.wp_bind,
    Prog.wp_pure, wp_rd, hl.head, hhead, true_and, beq_iff_eq, h0, if_false, ht.next, hnext, wp_wr,
    ne_eq, not_false_eq_true, if_true, ht.prev]
  simp (disch := first | assumption | decide) only [set_word, and_self, if_true]
  have hmem : t ∈ [t, n] := List.mem_cons_self
  have hmem' : n ∈ [t, n] := by simp
  have hhead' (w : Cells) (hw : w l .head = n) :
      ((w.set t .next 0).set t .prev 0) l .head = n := by
    rw [View.set_field_ne (by decide), View.set_field_ne (by decide), hw]
  have hset : v.set l .head n l .head = n := (set_word rfl hlt).trans (if_pos ⟨rfl, rfl⟩)
  by_cases hn0 : n = 0
  · subst hn0
    simp only [if_true, wp_wr, hl.tail, true_and]
    refine hQ _ ((((LinksOnly.refl.setEnd (.inl rfl)).setEnd (.inr rfl)).setLink hmem
      (.inl rfl)).setLink hmem (.inr rfl)) (hhead' _ ?_) ?_ ?_
    · rw [View.set_field_ne (by decide), hset]
    · rw [View.set_field_ne (by decide), View.set_field_ne (by decide), View.set_same]
      rfl
    · rw [View.set_field_ne (by decide), View.set_addr_ne hne, View.set_field_ne (by decide),
        View.set_field_ne (by decide)]
  · simp only [hn0, if_false, Prog.wp_bind, wp_rd, wp_wr, hl.head, true_and]
    simp (disch := first | assumption | decide) only [set_word, and_self, if_true, (hn hn0).prev,
      true_and]
    refine hQ _ ((((LinksOnly.refl.setEnd (.inl rfl)).setLink hmem' (.inr rfl)).setLink hmem
      (.inl rfl)).setLink hmem (.inr rfl)) (hhead' _ ?_) ?_ ?_
    · rw [View.set_field_ne (by decide), hset]
    · rw [View.set_field_ne (by decide), View.set_field_ne (by decide), View.set_field_ne (by decide),
        View.set_field_ne (by decide), if_neg hn0]
    · rw [View.set_field_ne (by decide), View.set_addr_ne hne, View.set_field_ne (by decide),
        View.set_field_ne (by decide)]

/-- `add_last` to a list with elements follows the links as they are. -/
theorem wp_addLast_links {Q : Unit → Cells → Globals → Prop}
    {T : Switch → Kernel Unit → Cells → Globals → Prop} (hl : ListCells O l) (ht : LinkCells O t)
    (hu : LinkCells O u) (h0 : t ≠ 0) (hlt : t < 2 ^ 64) (hut : u < 2 ^ 64)
    (hhead : v l .head ≠ 0) (htail : v l .tail = u)
    (hQ : ∀ v', LinksOnly l [t, u] v v' → v' l .head = v l .head → v' l .tail = t → Q () v' g) :
    (ListTCB.addLast l t).wp O v g Q T := by
  simp only [ListTCB.addLast, ListTCB.isEmpty, Prog.wp_bind, Prog.wp_pure, wp_rd, hl.head, true_and,
    beq_iff_eq, hhead, if_false, h0, ne_eq, not_false_eq_true, if_true, wp_wr, ht.next, ht.prev, hl.tail]
  simp (disch := first | assumption | decide) only [set_word, reduceCtorEq, and_false, if_false, htail,
    hu.next, true_and]
  have hmem : t ∈ [t, u] := List.mem_cons_self
  have hmem' : u ∈ [t, u] := by simp
  refine hQ _ ((((LinksOnly.refl.setLink hmem (.inl rfl)).setLink hmem (.inr rfl)).setLink hmem'
    (.inl rfl)).setEnd (.inr rfl)) ?_ ((set_word rfl hlt).trans (if_pos ⟨rfl, rfl⟩))
  rw [View.set_field_ne (by decide), View.set_field_ne (by decide), View.set_field_ne (by decide),
    View.set_field_ne (by decide)]

/-- The cells of a context. -/
structure ContextCells (O : Nat → Field → Prop) (t : Nat) : Prop where
  links : LinkCells O t
  status : O t .status
  ra : O t .ra
  sstatus : O t .sstatus

/-- What a switch from `old` to `t` leaves as it was, where `n` is behind `t`. -/
def Unswitched (L : Layout) (old t n : Nat) (v v' : Cells) : Prop :=
  ∀ a f, ¬(a = L.scheduler ∧ (f = .head ∨ f = .tail)) → ¬((a = t ∨ a = n) ∧ (f = .next ∨ f = .prev)) →
    ¬(a = t ∧ f = .status) → ¬(a = old ∧ (f = .ra ∨ f = .sstatus)) → v' a f = v a f

/-- The scheduler hands out what its list holds. -/
theorem wp_switchFrom_links {L : Layout} {old : Nat} {Q : Unit → Cells → Globals → Prop}
    {T : Switch → Kernel Unit → Cells → Globals → Prop} (hl : ListCells O L.scheduler)
    (ht : ContextCells O t) (hn : n ≠ 0 → LinkCells O n) (hold : ContextCells O old) (h0 : t ≠ 0)
    (hold0 : old ≠ 0) (hne : n ≠ t) (hlt : n < 2 ^ 64) (hhead : v L.scheduler .head = t)
    (hnext : v t .next = n)
    (hT : ∀ s k v' sstatus, s.ra = (if t = old then L.inYield else v t .ra) → s.restored = t →
      (t ≠ old → sstatus = v t .sstatus) → Unswitched L old t n v v' → v' L.scheduler .head = n →
      v' L.scheduler .tail = (if n = 0 then 0 else v L.scheduler .tail) → v' n .next = v n .next →
      v' t .status = TCBStatus.running.code →
      T s k v' { g with currentTcb := t, kCurrentContext := t, sstatus,
                        trace := g.trace ++ [.picked t] }) :
    (Holds.switchFrom L old).wp O v g Q T := by
  have hcode := L.code_lt
  simp only [Holds.switchFrom, Scheduler.nextTcb, Prog.wp_bind]
  refine wp_takeFirst_links hl ht.links hn h0 hne hlt hhead hnext fun v₁ hlinks h₁ h₂ h₃ => ?_
  have hra : v₁ t .ra = v t .ra := hlinks _ _ (by simp) (by simp)
  have hss : v₁ t .sstatus = v t .sstatus := hlinks _ _ (by simp) (by simp)
  simp only [wp_log, Prog.wp_pure, wp_modifyGlobals, yield, hold0, h0, ne_eq, not_false_eq_true, if_true,
    saveContext, restoreContext, Prog.wp_bind, wp_wr, wp_rd, wp_globals, hold.ra, hold.sstatus, ht.status,
    ht.sstatus, ht.ra, true_and]
  refine hT _ _ _ _ ?_ rfl (fun hto => ?_) (fun a f h1 h2 h3 h4 => ?_) ?_ ?_ ?_ ?_
  · simp (disch := first | assumption | decide | exact hcode.2) only [View.set_field_ne, set_word]
    simp [hra]
  · rw [View.set_field_ne (by decide), View.set_addr_ne hto, View.set_addr_ne hto]
    exact hss
  · rw [← hlinks a f h1 (by simpa using h2)]
    simp only [View.set_apply]
    grind
  · simp (disch := decide) only [View.set_field_ne]
    exact h₁
  · simp (disch := decide) only [View.set_field_ne]
    exact h₂
  · simp (disch := decide) only [View.set_field_ne]
    exact h₃
  · exact View.set_same

end Links

/-! ### The flush thread is lost -/

namespace Lost

variable {L : Layout} {O : Nat → Field → Prop} {v v' : Cells} {g : Globals} {F B : Nat}

/-- The block at `F`, which was that of the flush thread, and the block at `B` are apart from each other
and from the main thread. -/
structure Blocks (L : Layout) (F B : Nat) : Prop where
  start : L.heap.start ≤ F
  apart : F + 360 ≤ B
  word : B < 2 ^ 64

namespace Blocks

theorem pos (h : Blocks L F B) : 0 < F ∧ 0 < B := by
  obtain ⟨hstart, hapart, -⟩ := h
  have := L.heap.start_pos
  omega

theorem lt (h : Blocks L F B) : F < 2 ^ 64 ∧ B < 2 ^ 64 := by
  obtain ⟨-, hapart, hword⟩ := h
  omega

theorem main (h : Blocks L F B) : L.mainTcb ≠ F ∧ L.mainTcb ≠ B := by
  obtain ⟨hstart, hapart, -⟩ := h
  have := L.places
  omega

theorem ne (h : Blocks L F B) : F ≠ B := by
  have := h.apart
  omega

end Blocks

/-- The objects of the run. -/
def Objs (L : Layout) (F B : Nat) : Obj → Prop
  | .list l => l = L.scheduler
  | .sem s => s = L.getcSem
  | .tcb t => t = L.mainTcb ∨ t = F ∨ t = B
  | _ => False

theorem Blocks.separate (h : Blocks L F B) : Separate (Obj.own L.heap (Objs L F B)) := by
  have hp := L.places
  have hstart := h.start
  have hapart := h.apart
  refine Obj.separate (fun o o' ho ho' hne => ?_) fun o ho => ?_
  · cases o with
    | list l =>
      obtain rfl : l = L.scheduler := ho
      cases o' with
      | list k => exact absurd (congrArg Obj.list (Eq.symm ho')) hne
      | sem s =>
        obtain rfl : s = L.getcSem := ho'
        simp only [Obj.region, Apart]
        omega
      | tcb t =>
        simp only [Obj.region, Apart]
        rcases ho' with rfl | rfl | rfl <;> omega
      | entry _ => exact ho'.elim
      | header _ => exact ho'.elim
    | sem s =>
      obtain rfl : s = L.getcSem := ho
      cases o' with
      | list k =>
        obtain rfl : k = L.scheduler := ho'
        simp only [Obj.region, Apart]
        omega
      | sem s => exact absurd (congrArg Obj.sem (Eq.symm ho')) hne
      | tcb t =>
        simp only [Obj.region, Apart]
        rcases ho' with rfl | rfl | rfl <;> omega
      | entry _ => exact ho'.elim
      | header _ => exact ho'.elim
    | tcb t =>
      cases o' with
      | list k =>
        obtain rfl : k = L.scheduler := ho'
        simp only [Obj.region, Apart]
        rcases ho with rfl | rfl | rfl <;> omega
      | sem s =>
        obtain rfl : s = L.getcSem := ho'
        simp only [Obj.region, Apart]
        rcases ho with rfl | rfl | rfl <;> omega
      | tcb u =>
        have htu : t ≠ u := fun heq => hne (by rw [heq])
        simp only [Obj.region, Apart]
        rcases ho with rfl | rfl | rfl <;> rcases ho' with rfl | rfl | rfl <;> omega
      | entry _ => exact ho'.elim
      | header _ => exact ho'.elim
    | entry _ => exact ho.elim
    | header _ => exact ho.elim
  · cases o with
    | list l =>
      obtain rfl : l = L.scheduler := ho
      simp only [Obj.region]
      omega
    | sem s =>
      obtain rfl : s = L.getcSem := ho
      simp only [Obj.region]
      omega
    | tcb t =>
      simp only [Obj.region]
      have := L.heap.start_pos
      rcases ho with rfl | rfl | rfl <;> omega
    | entry _ => exact ho.elim
    | header _ => exact ho.elim

/-- The cells that the run uses. -/
structure Uses (L : Layout) (F B : Nat) (O : Nat → Field → Prop) : Prop where
  ready : ListCells O L.scheduler
  value : O L.getcSem .value
  waiting : ListCells O (L.getcSem + 8)
  tcb : ∀ t, t = L.mainTcb ∨ t = F ∨ t = B → ∀ f, f.ofTcb = true → O t f

theorem uses_own : Uses L F B (Obj.own L.heap (Objs L F B)) where
  ready := ⟨⟨.list _, rfl, rfl, rfl⟩, ⟨.list _, rfl, rfl, rfl⟩⟩
  value := ⟨.sem _, rfl, .inl ⟨rfl, rfl⟩⟩
  waiting := ⟨⟨.sem _, rfl, .inr ⟨rfl, rfl⟩⟩, ⟨.sem _, rfl, .inr ⟨rfl, rfl⟩⟩⟩
  tcb t ht _ hf := ⟨.tcb t, ht, rfl, hf⟩

theorem Uses.context (hO : Uses L F B O) {t : Nat} (ht : t = L.mainTcb ∨ t = F ∨ t = B) :
    ContextCells O t :=
  ⟨⟨hO.tcb t ht _ rfl, hO.tcb t ht _ rfl⟩, hO.tcb t ht _ rfl, hO.tcb t ht _ rfl, hO.tcb t ht _ rfl⟩

/-- The scheduler holds `F`, and user code has written that `B` is behind it, and that joining it is
waiting on the semaphore for `getc`. -/
structure Forged (L : Layout) (F B : Nat) (v : Cells) : Prop where
  value : v L.getcSem .value = 0
  waiting : IsList v (L.getcSem + 8) []
  head : v L.scheduler .head = F
  tail : v L.scheduler .tail = F
  joinSem : v F .joinSem = L.getcSem
  next : v F .next = B
  ra : v F .ra = L.kTcbStart
  last : v B .next = 0
  start : v B .ra = L.kTcbStart

/-- The main thread waits for `F`, which runs. -/
structure Joined (L : Layout) (F B : Nat) (v : Cells) : Prop where
  value : v L.getcSem .value = 2 ^ 32 - 1
  waiting : IsList v (L.getcSem + 8) [L.mainTcb]
  head : v L.scheduler .head = B
  tail : v L.scheduler .tail = F
  status : v F .status = TCBStatus.running.code
  joinSem : v F .joinSem = L.getcSem
  last : v B .next = 0
  start : v B .ra = L.kTcbStart

theorem wp_join (hO : Uses L F B O) (hb : Blocks L F B) (h : Forged L F B v)
    (hcur : g.currentTcb = L.mainTcb) (hctx : g.kCurrentContext = L.mainTcb) :
    (ecallTrap L 0x14 F 0 0 0).wp O v g (fun _ _ _ => False) fun s _ v' g' =>
      s.ra = L.kTcbStart ∧ s.restored = F ∧ Joined L F B v' ∧ g' = { g with
        currentTcb := F
        kCurrentContext := F
        sstatus := v F .sstatus
        trace := g.trace ++ [.called L.mainTcb 0x14 F, .waitCalled L.mainTcb L.getcSem,
          .blocked L.mainTcb L.getcSem, .picked F] } := by
  have hp := L.places
  have hmain := hO.context (.inl rfl)
  have hflush := hO.context (.inr (.inl rfl))
  have hblock := hO.context (.inr (.inr rfl))
  have hF0 := hb.pos.1.ne'
  have hsem : L.getcSem ≠ 0 := by omega
  obtain ⟨hmF, hmB⟩ := hb.main
  simp only [ecallTrap, handleEcall, syscall, threadJoinCall, setA0, Prog.wp_bind, wp_globals, wp_log,
    wp_wr, hctx, hcur, hO.tcb L.mainTcb (.inl rfl) .a0 rfl, true_and, ne_eq, hF0, not_false_eq_true,
    if_true, wp_rd, hO.tcb F (.inr (.inl rfl)) .joinSem rfl]
  rw [View.set_field_ne (by decide), h.joinSem, if_pos hsem]
  simp only [Sem.wait_eq, Sem.block_eq, Prog.wp_bind, wp_globals, wp_log, wp_rd, wp_wr, hO.value, true_and,
    View.set_field_ne (show Field.value ≠ .a0 by decide), h.value]
  rw [View.set_same, if_pos (by decide)]
  simp only [Prog.wp_bind, wp_globals, wp_wr, wp_log, hmain.status, true_and]
  obtain ⟨v₁, hv₁⟩ : ∃ v₁, ((v.set L.mainTcb .a0 (signExtend failedSyscall)).set L.getcSem .value
    (decBits 0)).set L.mainTcb .status TCBStatus.suspended.code = v₁ := ⟨_, rfl⟩
  rw [hv₁]
  have hkeep (a : Nat) (f : Field) (ha : f ≠ .a0) (hv : f ≠ .value) (hs : f ≠ .status) :
      v₁ a f = v a f := by
    rw [← hv₁, View.set_field_ne hs, View.set_field_ne hv, View.set_field_ne ha]
  have hvalue₁ : v₁ L.getcSem .value = 2 ^ 32 - 1 := by
    rw [← hv₁, View.set_field_ne (by decide), View.set_same]
    decide
  have hwaiting₁ : IsList v₁ (L.getcSem + 8) [] :=
    h.waiting.congr ⟨hkeep _ _ (by decide) (by decide) (by decide),
      hkeep _ _ (by decide) (by decide) (by decide)⟩ (by simp)
  refine hwaiting₁.wp_addLast (by omega) (by simp) (by have := L.heap.stop_lt; have := L.heap.start_le; omega)
    hO.waiting (by simpa using hmain.links) fun v₂ hlinks hwaiting₂ => ?_
  have hkeep₂ (a : Nat) (f : Field) (hl : a ≠ L.getcSem + 8 ∨ f ≠ .head ∧ f ≠ .tail)
      (ht : a ≠ L.mainTcb ∨ f ≠ .next ∧ f ≠ .prev) : v₂ a f = v₁ a f :=
    hlinks a f (by grind) (by simp; grind)
  have hhead₂ : v₂ L.scheduler .head = F := by
    rw [hkeep₂ _ _ (.inl (by omega)) (.inr (by decide)), hkeep _ _ (by decide) (by decide) (by decide)]
    exact h.head
  have htail₂ : v₂ L.scheduler .tail = F := by
    rw [hkeep₂ _ _ (.inl (by omega)) (.inr (by decide)), hkeep _ _ (by decide) (by decide) (by decide)]
    exact h.tail
  have hnext₂ : v₂ F .next = B := by
    rw [hkeep₂ _ _ (.inr (by decide)) (.inl hmF.symm), hkeep _ _ (by decide) (by decide) (by decide)]
    exact h.next
  have hlast₂ : v₂ B .next = 0 := by
    rw [hkeep₂ _ _ (.inr (by decide)) (.inl hmB.symm), hkeep _ _ (by decide) (by decide) (by decide)]
    exact h.last
  refine wp_switchFrom_links hO.ready hflush (fun _ => hblock.links) hmain hF0 (by omega) hb.ne.symm hb.lt.2
    hhead₂ hnext₂ fun s k v₃ sstatus hra hrestored hss hkeep₃ hhead htail hnext hstatus => ?_
  have hsstatus : sstatus = v F .sstatus := by
    rw [hss hmF.symm, hkeep₂ _ _ (.inr (by decide)) (.inr (by decide)),
      hkeep _ _ (by decide) (by decide) (by decide)]
  refine ⟨?_, hrestored, ⟨?_, ?_, hhead, ?_, hstatus, ?_, hnext.trans hlast₂, ?_⟩, by simp [hsstatus]⟩
  · rw [hra, if_neg hmF.symm, hkeep₂ _ _ (.inr (by decide)) (.inr (by decide)),
      hkeep _ _ (by decide) (by decide) (by decide)]
    exact h.ra
  · rw [hkeep₃ _ _ (by simp) (by simp) (by simp) (by simp), hkeep₂ _ _ (.inr (by decide))
      (.inr (by decide))]
    exact hvalue₁
  · refine hwaiting₂.congr ⟨hkeep₃ _ _ (fun hc => ?_) (by simp) (by simp) (by simp),
      hkeep₃ _ _ (fun hc => ?_) (by simp) (by simp) (by simp)⟩ fun x hx => ?_
    · omega
    · omega
    · obtain rfl := List.mem_singleton.mp hx
      exact ⟨hkeep₃ _ _ (by simp) (by simp [hmF, hmB]) (by simp) (by simp),
        hkeep₃ _ _ (by simp) (by simp [hmF, hmB]) (by simp) (by simp)⟩
  · rw [htail, if_neg hb.pos.2.ne', htail₂]
  · rw [hkeep₃ _ _ (by simp) (by simp) (by simp) (by simp), hkeep₂ _ _ (.inr (by decide))
      (.inr (by decide)), hkeep _ _ (by decide) (by decide) (by decide)]
    exact h.joinSem
  · rw [hkeep₃ _ _ (by simp) (by simp) (by simp) (by simp [hmB.symm]),
      hkeep₂ _ _ (.inr (by decide)) (.inr (by decide)), hkeep _ _ (by decide) (by decide) (by decide)]
    exact h.start

/-- The threads that the scheduler has been given when a character has come, and the one that runs. -/
theorem wp_receive (hO : Uses L F B O) (hb : Blocks L F B) (h : Joined L F B v)
    (hcur : g.currentTcb = F) (hbuffer : g.getcBuffer = .empty) (c : UInt8) :
    (handleConsole L (some c)).wp O v g (fun _ _ _ => False) fun s _ v' g' =>
      s.ra = L.kTcbStart ∧ s.restored = B ∧ (v' L.scheduler .head = 0 ∧ v' F .joinSem = L.getcSem) ∧
        ∃ sstatus, g' = { g with
          currentTcb := B
          kCurrentContext := B
          sstatus
          getcBuffer := g.getcBuffer.put c
          trace := g.trace ++ [.received c, .signalled L.getcSem, .released L.mainTcb L.getcSem false,
            .readied L.mainTcb, .readied F, .picked B] } := by
  have hp := L.places
  have hmain := hO.context (.inl rfl)
  have hflush := hO.context (.inr (.inl rfl))
  have hblock := hO.context (.inr (.inr rfl))
  have hF0 := hb.pos.1.ne'
  have hsem : L.getcSem ≠ 0 := by omega
  have hm0 : L.mainTcb ≠ 0 := by omega
  obtain ⟨hmF, hmB⟩ := hb.main
  have hroom : g.getcBuffer.getLength < g.getcBuffer.getCapacity := by
    rw [hbuffer]
    decide
  simp only [handleConsole, fillGetcBuffer, Sem.signal, Sem.unblock, Prog.wp_bind, wp_globals, hroom,
    if_true, wp_modifyGlobals, wp_log, wp_rd, wp_wr, hO.value, true_and, h.value]
  rw [View.set_same, if_pos (by decide)]
  simp only [Prog.wp_bind]
  have hvalue (a : Nat) (f : Field) (hf : f ≠ .value) :
      v.set L.getcSem .value (u32 (2 ^ 32 - 1 + 1)) a f = v a f := View.set_field_ne hf
  have hwaiting₁ : IsList (v.set L.getcSem .value (u32 (2 ^ 32 - 1 + 1))) (L.getcSem + 8)
      [L.mainTcb] := h.waiting.congr
    ⟨hvalue _ _ (by decide), hvalue _ _ (by decide)⟩
    fun x _ => ⟨hvalue _ _ (by decide), hvalue _ _ (by decide)⟩
  refine hwaiting₁.wp_takeFirst hO.waiting (by simpa using hmain.links) fun v₂ hlinks _ _ _ => ?_
  simp only [ne_eq, hm0, not_false_eq_true, if_true, Prog.wp_bind, wp_wr, wp_log, Scheduler.putTcb,
    hO.tcb L.mainTcb (.inl rfl) .interrupted rfl, hmain.status, true_and]
  obtain ⟨v₃, hv₃⟩ : ∃ v₃, (v₂.set L.mainTcb .interrupted false.toNat).set L.mainTcb .status
    TCBStatus.ready.code = v₃ := ⟨_, rfl⟩
  rw [hv₃]
  have hkeep₃ (a : Nat) (f : Field) (hl : a ≠ L.getcSem + 8 ∨ f ≠ .head ∧ f ≠ .tail)
      (ht : a ≠ L.mainTcb) (hv : f ≠ .value) : v₃ a f = v a f := by
    rw [← hv₃, View.set_addr_ne ht, View.set_addr_ne ht, hlinks a f (by grind) (by simp; grind)]
    exact hvalue a f hv
  have hhead₃ : v₃ L.scheduler .head = B := by
    rw [← hv₃, View.set_field_ne (by decide), View.set_field_ne (by decide),
      hlinks _ _ (fun hc => by omega) (by simp), hvalue _ _ (by decide)]
    exact h.head
  have htail₃ : v₃ L.scheduler .tail = F := by
    rw [← hv₃, View.set_field_ne (by decide), View.set_field_ne (by decide),
      hlinks _ _ (fun hc => by omega) (by simp), hvalue _ _ (by decide)]
    exact h.tail
  refine wp_addLast_links hO.ready hmain.links hflush.links hm0
    (by have := L.heap.stop_lt; have := L.heap.start_le; omega) hb.lt.1
    (hhead₃ ▸ hb.pos.2.ne') htail₃ fun v₄ hlinks₄ hhead₄ htail₄ => ?_
  have hstatus₄ : v₄ F .status = TCBStatus.running.code := by
    rw [hlinks₄ _ _ (by simp) (by simp), hkeep₃ _ _ (.inr (by decide)) hmF.symm (by decide)]
    exact h.status
  have hjoin₄ : v₄ F .joinSem = L.getcSem := by
    rw [hlinks₄ _ _ (by simp) (by simp), hkeep₃ _ _ (.inr (by decide)) hmF.symm (by decide)]
    exact h.joinSem
  have hfields₄ : v₄ B .next = 0 ∧ v₄ B .ra = L.kTcbStart := by
    refine ⟨?_, ?_⟩
    · rw [hlinks₄ _ _ (by simp) (by simp [hmB.symm, hb.ne.symm]), hkeep₃ _ _ (.inr (by decide)) hmB.symm
        (by decide)]
      exact h.last
    · rw [hlinks₄ _ _ (by simp) (by simp), hkeep₃ _ _ (.inr (by decide)) hmB.symm (by decide)]
      exact h.start
  simp only [Prog.wp_pure, dispatch_eq, retire, Prog.wp_bind, wp_globals, hcur, ne_eq, hF0,
    not_false_eq_true, if_true, wp_rd, hflush.status, hstatus₄, true_and, Scheduler.putTcb, wp_wr, wp_log]
  have hset (a : Nat) (f : Field) (hf : f ≠ .status) :
      v₄.set F .status TCBStatus.ready.code a f = v₄ a f := View.set_field_ne hf
  refine wp_addLast_links hO.ready hflush.links hmain.links hF0 hb.lt.1
    (by have := L.heap.stop_lt; have := L.heap.start_le; omega)
    (by rw [hset _ _ (by decide), hhead₄, hhead₃]; exact hb.pos.2.ne')
    ((hset _ _ (by decide)).trans htail₄) fun v₅ hlinks₅ hhead₅ htail₅ => ?_
  have hnext₅ : v₅ B .next = 0 := by
    rw [hlinks₅ _ _ (by simp) (by simp [hmB.symm, hb.ne.symm]), hset _ _ (by decide)]
    exact hfields₄.1
  have hra₅ : v₅ B .ra = L.kTcbStart := by
    rw [hlinks₅ _ _ (by simp) (by simp), hset _ _ (by decide)]
    exact hfields₄.2
  refine wp_switchFrom_links hO.ready hblock (fun hc => absurd rfl hc) hflush hb.pos.2.ne' hF0
    hb.pos.2.ne (by decide) (by rw [hhead₅, hset _ _ (by decide), hhead₄, hhead₃]) hnext₅
    fun s k v₆ sstatus hra hrestored _ hkeep₆ hhead _ _ _ => ?_
  refine ⟨by rw [hra, if_neg hb.ne.symm, hra₅], hrestored, ⟨hhead, ?_⟩, sstatus, by simp⟩
  rw [hkeep₆ _ _ (by simp) (by simp) (by simp) (by simp), hlinks₅ _ _ (by simp) (by simp),
    hset _ _ (by decide)]
  exact hjoin₄

/-- A trap that switches to a thread that is new. -/
theorem trap_started {M : Machine} {p : Kernel Unit} {t : Nat} {Q : Cells → Globals → Prop}
    (hsep : Separate O) (hsim : Sim O M.mem v)
    (hwp : p.wp O v M.enter.globals (fun _ _ _ => False) fun s _ v' g' =>
      s.ra = L.kTcbStart ∧ s.restored = t ∧ Q v' g') :
    ∃ M' v' g', M.trap L p = some M' ∧ Sim O M'.mem v' ∧ Q v' g' ∧ M'.supervisor = spp g'.sstatus ∧
      ∃ sstatus, M'.globals = { g' with
        sstatus
        trace := g'.trace ++ [.started t g'.timerTicks] } := by
  have hend := Prog.sound hsep hsim hwp
  obtain ⟨n, hn⟩ := walkLimit_eq
  have hmem : M.enter.mem = M.mem := rfl
  cases hrun : p.run M.mem M.enter.globals with
  | done r m g =>
    rw [hrun] at hend
    obtain ⟨_, -, -, hf⟩ := hend
    exact hf.elim
  | fault e =>
    rw [hrun] at hend
    exact hend.elim
  | suspended s k m g =>
    rw [hrun] at hend
    obtain ⟨v', hsim', -, hra, hrestored, hQ⟩ := hend
    have htrap : M.trap L p = (Machine.switchTo L (Machine.exec L (n + 1)) s k
        { M.enter with mem := m, globals := g }).map Machine.sret := by
      rw [Machine.trap, hn]
      simp only [Machine.exec, hmem, hrun]
    rw [Machine.switchTo, if_pos hra] at htrap
    exact ⟨_, v', g, htrap, hsim', hQ, rfl, _, by rw [hrestored]; rfl⟩

/-! ### The run -/

/-- What user code writes to its blocks. -/
def forge (L : Layout) (F B : Nat) (m : Mem) : Mem :=
  ((((m.assign F Field.ra L.kTcbStart).assign F Field.next B).assign F Field.joinSem L.getcSem).assign B
    Field.ra L.kTcbStart).assign B Field.next 0

variable {m : Mem}

theorem forge_outside {x : Nat} (hF : x < F ∨ F + 360 ≤ x) (hB : x < B ∨ B + 360 ≤ x) :
    forge L F B m x = m x := by
  have h1 := Obj.ofTcb_bounds (show Field.ra.ofTcb = true from rfl)
  have h2 := Obj.ofTcb_bounds (show Field.next.ofTcb = true from rfl)
  have h3 := Obj.ofTcb_bounds (show Field.joinSem.ofTcb = true from rfl)
  unfold forge Mem.assign
  rw [store_outside (by omega), store_outside (by omega), store_outside (by omega),
    store_outside (by omega), store_outside (by omega)]

theorem forge_fields (hb : Blocks L F B) : (forge L F B m).field F Field.joinSem = L.getcSem ∧
    (forge L F B m).field F Field.next = B ∧ (forge L F B m).field F Field.ra = L.kTcbStart ∧
    (forge L F B m).field B Field.next = 0 ∧ (forge L F B m).field B Field.ra = L.kTcbStart := by
  have hapart := hb.apart
  have hp := L.places
  have hlt := L.heap.stop_lt
  have hle := L.heap.start_le
  have hskip (m : Mem) (x : Nat) {f f' : Field} (hf : f.ofTcb = true) (hf' : f'.ofTcb = true) :
      (m.assign B f x).field F f' = m.field F f' := by
    have h1 := Obj.ofTcb_bounds hf
    have h2 := Obj.ofTcb_bounds hf'
    exact load_store_apart (.inr (by omega))
  have hword {x : Nat} (hx : x < 2 ^ 64) : x % 256 ^ 8 = x := Nat.mod_eq_of_lt (by omega)
  refine ⟨?_, ?_, ?_, field_assign_same, ?_⟩
  · rw [forge, hskip _ _ rfl rfl, hskip _ _ rfl rfl, field_assign_same]
    exact hword (by omega)
  · rw [forge, hskip _ _ rfl rfl, hskip _ _ rfl rfl, field_assign_ne rfl rfl (by decide),
      field_assign_same]
    exact hword hb.word
  · rw [forge, hskip _ _ rfl rfl, hskip _ _ rfl rfl, field_assign_ne rfl rfl (by decide),
      field_assign_ne rfl rfl (by decide), field_assign_same]
    exact hword L.code_lt.1
  · rw [forge, field_assign_ne rfl rfl (by decide), field_assign_same]
    exact hword L.code_lt.1

/-- What the boot leaves of the scheduler and of the semaphore for `getc`. -/
theorem booted_still {M : Machine} (hb : boot bootImage (fun _ => 0) 0 = some M) :
    IsList M.mem.view bootImage.scheduler [bootImage.heap.addr 128] ∧
      IsList M.mem.view (bootImage.getcSem + 8) [] ∧ M.mem.field bootImage.getcSem Field.value = 0 ∧
      M.globals.getcBuffer = .empty ∧
      Log.readied M.globals.trace = Log.picked M.globals.trace ++ [bootImage.heap.addr 128] := by
  obtain ⟨σ, hrests, hbooted⟩ := boot_rests (kept_booked bootImage)
    (fun i ts x s => ⟨Reasoned.initial _ _ _ _, booked_initial bootImage _ _ _ _⟩) hb
  obtain ⟨K, hK⟩ := hrests.inside.inv.2
  have hQ := hrests.inside.holds.queues
  have hready : σ.abs.ready = [bootImage.heap.addr 128] := by
    rw [hbooted.ready, hbooted.image.2]
  have hgetc : bootImage.getcSem ∈ σ.owners.semaphores bootImage :=
    List.mem_cons_of_mem _ List.mem_cons_self
  have hwaiting := hQ.waiting _ hgetc
  rw [hbooted.getc.2] at hwaiting
  have hvalue := (hQ.bits _ hgetc).1
  rw [hbooted.getc.1] at hvalue
  have hbuffer := hbooted.getcBuffer
  have hlog := runs_readied hK.runs
  rw [hK.of.ready, hready, hrests.of_sstatus] at hlog
  rw [hrests.of_sstatus] at hbuffer
  exact ⟨hready ▸ hQ.ready, hwaiting, hvalue, hbuffer, hlog⟩

/-- User code writes to its blocks what it likes. -/
theorem allowed_forge {M : Machine} (hne : M.globals.currentTcb ≠ M.globals.handles.flush)
    (hF : (F, 6) ∈ M.globals.handles.blocks) (hB : (B, 6) ∈ M.globals.handles.blocks) :
    Allowed L M (.user (forge L F B M.mem)) := by
  refine ⟨hne, fun x hx => forge_outside ?_ ?_⟩
  · by_contra hin
    exact hx (.inl ⟨_, hF, by omega, by omega⟩)
  · by_contra hin
    exact hx (.inl ⟨_, hB, by omega, by omega⟩)

theorem blocks_bootImage : Blocks bootImage 17472 22016 :=
  ⟨by decide, by decide, by decide⟩

/-- The block of the flush thread belongs to user code, which makes it look like a thread. -/
theorem flush_forged : ∃ M₀ M hs ts, boot bootImage (fun _ => 0) 0 = some M₀ ∧
    Reach bootImage (fun _ _ => True) M ∧ Idle bootImage ts hs M₀ M.mem M.mem M.globals ∧
    hs.threads = [17472] ∧ hs.flush = 17472 ∧ (17472, 6) ∈ hs.blocks ∧
    Forged bootImage 17472 22016 M.mem.view := by
  obtain ⟨M₀, σ, hb, h₀⟩ := boot_atBoot
  obtain ⟨M, hs, hr, h, hthreads, hflush⟩ := flush_block_free h₀
  obtain ⟨hready, hwaiting, hvalue, -, -⟩ := booted_still hb
  have halloc₁ : Tiling.alloc (u32 6) [owned 64, owned 64, gap 6, owned 64, owned 1, gap 73] =
    some (128, [owned 64, owned 64, owned 6, owned 64, owned 1, gap 73]) := by decide
  have halloc₂ : Tiling.alloc (u32 6) [owned 64, owned 64, owned 6, owned 64, owned 1, gap 73] =
    some (199, [owned 64, owned 64, owned 6, owned 64, owned 1, owned 6, gap 67]) := by decide
  obtain ⟨M₁, hs₁, h₁⟩ := h.memAlloc (by decide) halloc₁
  obtain ⟨M₂, hs₂, h₂⟩ := h₁.memAlloc (by decide) halloc₂
  have hF : bootImage.heap.addr 128 = 17472 := by rw [bootImage_addr]
  have hB : bootImage.heap.addr 199 = 22016 := by rw [bootImage_addr]
  have hne₁ := h₁.current_ne_flush hflush
  have hne₂ := h₂.current_ne_flush hflush
  have hr₁ := hr.step (.ecall 0x01 6 0 0 0) (allowed_memAlloc 6 (h.current_ne_flush hflush)) trivial
    ((step_ecall rfl rfl rfl rfl rfl).trans hs₁)
  have hr₂ := hr₁.step (.ecall 0x01 6 0 0 0) (allowed_memAlloc 6 hne₁) trivial
    ((step_ecall rfl rfl rfl rfl rfl).trans hs₂)
  have hr₃ := hr₂.step (.user (forge bootImage 17472 22016 M₂.mem)) (allowed_forge hne₂
    (by rw [h₂.handles, ← hF]; exact List.mem_cons_of_mem _ List.mem_cons_self)
    (by rw [h₂.handles, ← hB]; exact List.mem_cons_self)) trivial rfl
  have hin₁ : (128, 6) ∈ segs true 0 [owned 64, owned 64, owned 6, owned 64, owned 1, owned 6, gap 67] := by
    decide
  have hin₂ : (199, 6) ∈ segs true 0 [owned 64, owned 64, owned 6, owned 64, owned 1, owned 6, gap 67] := by
    decide
  have h₃ := ((((h₂.assign_block hin₁ (by decide) (f := .ra) rfl bootImage.kTcbStart).assign_block hin₁
    (by decide) (f := .next) rfl 22016).assign_block hin₁ (by decide) (f := .joinSem) rfl
    bootImage.getcSem).assign_block hin₂ (by decide) (f := .ra) rfl bootImage.kTcbStart).assign_block
    hin₂ (by decide) (f := .next) rfl 0
  simp only [hF, hB] at h₃
  have hstill {a : Nat} {f : Field} (hx : ∀ x, a + offset f ≤ x → x < a + offset f + size f →
      bootImage.Still x) : (forge bootImage 17472 22016 M₂.mem).field a f = M₀.mem.field a f :=
    load_congr fun x hlow hhigh => h₃.still x (hx x hlow hhigh)
  obtain ⟨hjoin, hnext, hra, hlast, hstart⟩ := @forge_fields bootImage 17472 22016 M₂.mem blocks_bootImage
  rw [hF] at hready hthreads hflush
  have hcells : offset Field.value = 0 ∧ size Field.value = 4 ∧ offset Field.head = 0 ∧
    size Field.head = 8 ∧ offset Field.tail = 8 ∧ size Field.tail = 8 := ⟨rfl, rfl, rfl, rfl, rfl, rfl⟩
  refine ⟨M₀, _, _, _, hb, hr₃, h₃, hthreads, hflush, ?_, ?_, ?_, ?_, ?_, hjoin, hnext, hra, hlast, hstart⟩
  · exact List.mem_cons_of_mem _ (hF ▸ List.mem_cons_self)
  · exact (hstill fun x hlow hhigh => .inr (.inr ⟨by omega, by omega⟩)).trans hvalue
  · exact hwaiting.congr ⟨hstill fun x hlow hhigh => .inr (.inr ⟨by omega, by omega⟩),
      hstill fun x hlow hhigh => .inr (.inr ⟨by omega, by omega⟩)⟩ (by simp)
  · exact (hstill fun x hlow hhigh => .inl ⟨by omega, by omega⟩).trans hready.head_eq
  · exact (hstill fun x hlow hhigh => .inl ⟨by omega, by omega⟩).trans hready.tail_eq

/-- The actions of the run since user code has written its blocks. -/
def actions (L : Layout) (F B : Nat) (c : UInt8) (ticks : Nat) : List Action :=
  [.called L.mainTcb 0x14 F, .waitCalled L.mainTcb L.getcSem, .blocked L.mainTcb L.getcSem, .picked F,
    .started F ticks, .received c, .signalled L.getcSem, .released L.mainTcb L.getcSem false,
    .readied L.mainTcb, .readied F, .picked B, .started B ticks]

/-- The main thread joins the flush thread and a character comes: what then runs is no thread, and the
scheduler has none. -/
theorem flush_lost : ∃ M₀ M q ticks, boot bootImage (fun _ => 0) 0 = some M₀ ∧
    Reach bootImage (fun _ _ => True) M ∧ M.globals.currentTcb = 22016 ∧
    M.globals.handles.flush = 17472 ∧ M.globals.handles.threads = [17472] ∧
    M.mem.field bootImage.scheduler Field.head = 0 ∧
    M.mem.field 17472 Field.joinSem = bootImage.getcSem ∧ (∀ x ∈ q, x.idle = true) ∧
    M.globals.trace = M₀.globals.trace ++ q ++ actions bootImage 17472 22016 0 ticks := by
  obtain ⟨M₀, M, hs, ts, hb, hr, h, hthreads, hflush, -, hforged⟩ := flush_forged
  obtain ⟨q, htrace, hq⟩ := h.trace
  have hbuffer := h.getcBuffer.trans (booted_still hb).2.2.2.1
  have hne : M.globals.currentTcb ≠ M.globals.handles.flush := by
    rw [h.current, h.handles, hflush]
    decide
  obtain ⟨M₁, v₁, g₁, hs₁, hsim₁, ⟨hjoined, hg₁⟩, -, y₁, hM₁⟩ := trap_started blocks_bootImage.separate
    (Sim.self _ M.mem) (wp_join (g := M.enter.globals) uses_own blocks_bootImage hforged h.current
      h.context)
  obtain ⟨M₂, v₂, g₂, hs₂, hsim₂, ⟨hlist, x₂, hg₂⟩, -, y₂, hM₂⟩ := trap_started (M := M₁)
    blocks_bootImage.separate hsim₁ (wp_receive (g := M₁.enter.globals) uses_own blocks_bootImage
      hjoined (by change M₁.globals.currentTcb = _; rw [hM₁, hg₁])
      (by change M₁.globals.getcBuffer = _; rw [hM₁, hg₁]; exact hbuffer) 0)
  have hr₁ := hr.step (.ecall 0x14 17472 0 0 0) (allowed_join hne (by
    rw [h.handles, hthreads]
    exact List.mem_cons_self)) trivial ((step_ecall rfl rfl rfl rfl rfl).trans hs₁)
  have hr₂ := hr₁.step (.console (some 0)) trivial trivial hs₂
  have hsame : M₂.globals.handles = M.globals.handles := by
    rw [hM₂, hg₂]
    change M₁.globals.handles = _
    rw [hM₁, hg₁]
    rfl
  refine ⟨M₀, M₂, q, M.globals.timerTicks, hb, hr₂, ?_, ?_, ?_, ?_, ?_, hq, ?_⟩
  · rw [hM₂, hg₂]
  · rw [hsame, h.handles, hflush]
  · rw [hsame, h.handles, hthreads]
  · exact (hsim₂ _ _ uses_own.ready.head).trans hlist.1
  · exact (hsim₂ _ _ (uses_own.tcb _ (.inr (.inl rfl)) _ rfl)).trans hlist.2
  · have h₁ : M₁.globals.trace = M.globals.trace ++ [.called bootImage.mainTcb 0x14 17472,
        .waitCalled bootImage.mainTcb bootImage.getcSem, .blocked bootImage.mainTcb bootImage.getcSem,
        .picked 17472, .started 17472 M.globals.timerTicks] := by
      rw [hM₁, hg₁]
      simp [Machine.enter]
    have hticks : g₂.timerTicks = M.globals.timerTicks := by
      rw [hg₂]
      change M₁.globals.timerTicks = _
      rw [hM₁, hg₁]
      rfl
    rw [hM₂, hticks, hg₂]
    change M₁.globals.trace ++ _ ++ _ = _
    rw [h₁, htrace]
    simp [actions]

/-- The actions of system calls that only use the heap say nothing about the scheduler. -/
theorem idle_scheduler {q : List Action} (hq : ∀ x ∈ q, x.idle = true) :
    Log.readied q = [] ∧ Log.picked q = [] := by
  refine ⟨List.filterMap_eq_nil_iff.mpr fun x hx => ?_, List.filterMap_eq_nil_iff.mpr fun x hx => ?_⟩
  · have h := hq x hx
    cases x <;> first | rfl | cases h
  · have h := hq x hx
    cases x <;> first | rfl | cases h

end Lost

/-- The flush thread then neither runs nor is ready. -/
theorem flush_not_awake : ¬∀ (L : Layout) (M : Machine), Reach L (fun _ _ => True) M → FlushAwake L M := by
  intro hall
  obtain ⟨M₀, M, q, ticks, -, hr, hcur, hflush, -, hhead, -⟩ := Lost.flush_lost
  rcases (hall _ _ hr).awake with heq | ⟨R, hR, hmem⟩
  · rw [hflush, hcur] at heq
    exact absurd heq (by decide)
  · have hnil : R = [] := by
      rw [← @IsList.firstOf_eq_zero _ _ [] R hR, ← hR.head_eq]
      exact hhead
    rw [hnil] at hmem
    cases hmem

/-- The main thread became ready when no thread was ahead of it, and another one is picked. -/
theorem not_round_robin : ¬∀ (L : Layout) (M : Machine), Reach L (fun _ _ => True) M → RoundRobin L M := by
  intro hall
  obtain ⟨M₀, M, q, ticks, hb, hr, -, -, -, -, -, hq, htrace⟩ := Lost.flush_lost
  obtain ⟨-, -, -, -, hlog⟩ := Lost.booted_still hb
  obtain ⟨hready, hpicked⟩ := Lost.idle_scheduler hq
  have hsplit : M.globals.trace = (M₀.globals.trace ++ q ++ (Lost.actions bootImage 17472 22016 0
      ticks).take 8) ++ .readied bootImage.mainTcb :: (Lost.actions bootImage 17472 22016 0
        ticks).drop 9 := by
    rw [htrace]
    simp [Lost.actions]
  have hturn := (hall _ _ hr).turn _ _ _ 0 hsplit (by
    rw [Log.readied_append, Log.readied_append, Log.picked_append, Log.picked_append, hready, hpicked,
      hlog]
    simp [Lost.actions, Log.readied, Log.picked])
  have heq := hturn.1 22016 rfl
  exact absurd heq (by decide)

end Os1Kernel
