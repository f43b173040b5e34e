import Os1Kernel.Source.Machine

/-! What kernel code does to the registers, whatever memory holds: the record of what the kernel does
only grows. -/

namespace Os1Kernel

open Memory

/-- The entry tells of a start or of a tick. -/
def Action.marks : Action → Bool
  | .started _ _ | .ticked => true
  | _ => false

/-- Relations between the registers before and after code that does not switch threads. -/
structure Admits (R : Globals → Globals → Prop) : Prop where
  refl : ∀ g, R g g
  trans : ∀ g g' g'', R g g' → R g' g'' → R g g''
  log : ∀ g x, x.marks = false → R g { g with trace := g.trace ++ [x] }
  handles : ∀ g handles, R g { g with handles }
  fbHead : ∀ g fbHead, R g { g with fbHead }

/-- Relations between the registers before and after a part of a trap that may end in a switch. -/
structure AdmitsSwitch (R : Globals → Globals → Prop) : Prop where
  refl : ∀ g, R g g
  trans : ∀ g g' g'', R g g' → R g' g'' → R g g''
  log : ∀ g x, x.marks = false → R g { g with trace := g.trace ++ [x] }
  registers : ∀ g g', g'.trace = g.trace → g'.timerTicks = g.timerTicks → R g g'

theorem AdmitsSwitch.admits {R : Globals → Globals → Prop} (h : AdmitsSwitch R) : Admits R :=
  { h with
    handles := fun _ _ => h.registers _ _ rfl rfl
    fbHead := fun _ _ => h.registers _ _ rfl rfl }

/-- The program changes the registers as `R` admits, and switches threads only if `T`. -/
def Grows {α : Type} (R : Globals → Globals → Prop) (T : Prop) (p : Kernel α) : Prop :=
  ∀ g, p.Sets R T g

namespace Grows

variable {α β : Type} {R : Globals → Globals → Prop} {T : Prop}

theorem pure (r : α) : Grows R T (Pure.pure r : Kernel α) := fun _ => trivial
theorem fault (e : Fault) : Grows R T (Os1Kernel.fault e : Kernel α) := fun _ => trivial
theorem rd (a : Nat) (f : Field) : Grows R T (Os1Kernel.rd a f) := fun _ _ => trivial
theorem wr (a : Nat) (f : Field) (x : Nat) : Grows R T (Os1Kernel.wr a f x) := fun _ => trivial
theorem globals : Grows R T Os1Kernel.globals := fun _ => trivial

theorem suspend (s : Switch) (k : Kernel α) : Grows R True (.suspend s k : Kernel α) := fun _ => trivial

theorem modify {u : Globals → Globals} (h : ∀ g, R g (u g)) : Grows R T (modifyGlobals u) :=
  fun g => ⟨h g, trivial⟩

theorem bind {p : Kernel α} {q : α → Kernel β} (hp : Grows R T p) (hq : ∀ r, Grows R T (q r)) :
    Grows R T (p >>= q) :=
  fun g => (hp g).bind fun r g' => hq r g'

theorem post {p : Kernel α} (h : Grows R T p) (hR : Admits R) (m : Mem) (g : Globals) :
    Prog.Post (fun _ => True) (fun _ _ g' => R g g') (fun _ _ _ g' => T ∧ R g g') (p.run m g) :=
  (h g).post hR.refl hR.trans

theorem run {p : Kernel α} (h : Grows R T p) (hR : Admits R) {m m' : Mem} {g g' : Globals} {r : α}
    (hrun : p.run m g = .done r m' g') : R g g' := by
  have hpost := h.post hR m g
  rw [hrun, Prog.post_done] at hpost
  exact hpost

-- programs are not unfolded to see what they are made of
attribute [irreducible] Grows

theorem wrIf (p : Nat) (f : Field) (x : Nat) : Grows R T (Os1Kernel.wrIf p f x) := by
  unfold Os1Kernel.wrIf
  split
  · exact wr _ _ _
  · exact pure _

theorem setA0 (x : Nat) : Grows R T (Os1Kernel.setA0 x) := globals.bind fun _ => wr _ _ _

theorem unlink (t : Nat) : Grows R T (ListTCB.unlink t) := by
  unfold ListTCB.unlink
  split
  · exact (wr _ _ _).bind fun _ => wr _ _ _
  · exact pure _

theorem isEmpty (this : Nat) : Grows R T (ListTCB.isEmpty this) := (rd _ _).bind fun _ => pure _

theorem setFirst (this t : Nat) : Grows R T (ListTCB.setFirst this t) := by
  unfold ListTCB.setFirst
  refine (isEmpty _).bind fun _ => ?_
  split
  · exact (unlink _).bind fun _ => (wr _ _ _).bind fun _ => wr _ _ _
  · exact pure _

theorem addLast (this t : Nat) : Grows R T (ListTCB.addLast this t) := by
  unfold ListTCB.addLast
  refine (isEmpty _).bind fun _ => ?_
  split
  · exact setFirst _ _
  split
  · exact (wr _ _ _).bind fun _ => (rd _ _).bind fun _ => (wr _ _ _).bind fun _ =>
      (rd _ _).bind fun _ => (wr _ _ _).bind fun _ => wr _ _ _
  · exact pure _

theorem dropFirst (this : Nat) : Grows R T (ListTCB.dropFirst this) := by
  unfold ListTCB.dropFirst
  refine (rd _ _).bind fun _ => (rd _ _).bind fun _ => (wr _ _ _).bind fun _ =>
    (rd _ _).bind fun _ => ?_
  split
  · exact wr _ _ _
  · exact (rd _ _).bind fun _ => wr _ _ _

theorem takeFirst (this : Nat) : Grows R T (ListTCB.takeFirst this) := by
  unfold ListTCB.takeFirst
  refine (rd _ _).bind fun t => (isEmpty _).bind fun _ => ?_
  have hend : Grows R T (ListTCB.unlink t >>= fun _ => Pure.pure t) := (unlink _).bind fun _ => pure _
  dsimp only
  split
  · exact hend
  · exact (dropFirst _).bind fun _ => hend

theorem findPrev (newFb fuel currFb prev : Nat) :
    Grows R T (MemoryAllocator.findPrev newFb fuel currFb prev) := by
  induction fuel generalizing currFb prev with
  | zero => exact fault _
  | succ fuel ih =>
    unfold MemoryAllocator.findPrev
    split
    · refine (rd _ _).bind fun _ => ?_
      split
      · exact pure _
      · exact (rd _ _).bind fun _ => ih _ _
    · exact pure _

theorem mergeBlocks (fb : Nat) : Grows R T (MemoryAllocator.mergeBlocks fb) := by
  unfold MemoryAllocator.mergeBlocks
  split
  · exact pure _
  · refine (rd _ _).bind fun _ => (rd _ _).bind fun _ => ?_
    split
    · exact (rd _ _).bind fun _ => (wr _ _ _).bind fun _ => (rd _ _).bind fun _ =>
        (wr _ _ _).bind fun _ => (rd _ _).bind fun _ => (wrIf _ _ _).bind fun _ => pure _
    · exact pure _

theorem findBest (n fuel curr best : Nat) : Grows R T (MemoryAllocator.findBest n fuel curr best) := by
  have hblocks (fb : Nat) : Grows R T (MemoryAllocator.blocksOf fb) := by
    unfold MemoryAllocator.blocksOf
    split
    · exact rd _ _
    · exact pure _
  induction fuel generalizing curr best with
  | zero => exact fault _
  | succ fuel ih =>
    unfold MemoryAllocator.findBest
    refine (hblocks _).bind fun _ => ?_
    split
    · refine (rd _ _).bind fun _ => (rd _ _).bind fun _ => ?_
      split
      · exact ih _ _
      · exact ih _ _
    · exact pure _

section Record

variable {L : Layout} (hR : Admits R)
include hR

theorem log {x : Action} (hx : x.marks = false) : Grows R T (Os1Kernel.log x) :=
  modify fun g => hR.log g x hx

theorem record (u : Handles → Handles) : Grows R T (Os1Kernel.record u) := modify fun g => hR.handles g _

theorem putTcb (L : Layout) (tcb : Nat) : Grows R T (Scheduler.putTcb L tcb) := by
  unfold Scheduler.putTcb
  split
  · exact (wr _ _ _).bind fun _ => (addLast _ _).bind fun _ => log hR rfl
  · exact pure _

theorem nextTcb (L : Layout) : Grows R T (Scheduler.nextTcb L) :=
  (takeFirst _).bind fun _ => (log hR rfl).bind fun _ => pure _

theorem unblock (L : Layout) (this : Nat) (waitError : Bool) :
    Grows R T (Sem.unblock L this waitError) := by
  unfold Sem.unblock
  refine (takeFirst _).bind fun _ => ?_
  split
  · exact (wr _ _ _).bind fun _ => (log hR rfl).bind fun _ => (putTcb hR _ _).bind fun _ => pure _
  · exact pure _

theorem unblockAll (L : Layout) (this fuel : Nat) : Grows R T (Sem.unblockAll L this fuel) := by
  induction fuel with
  | zero => exact fault _
  | succ fuel ih =>
    unfold Sem.unblockAll
    refine (unblock hR _ _ _).bind fun _ => ?_
    split
    · exact ih
    · exact pure _

theorem close (L : Layout) (this : Nat) : Grows R T (Sem.close L this) :=
  (unblockAll hR _ _ _).bind fun _ => pure _

theorem signal (L : Layout) (this : Nat) : Grows R T (Sem.signal L this) := by
  unfold Sem.signal
  refine (log hR rfl).bind fun _ => (rd _ _).bind fun _ => (wr _ _ _).bind fun _ =>
    (rd _ _).bind fun _ => ?_
  split
  · exact (unblock hR _ _ _).bind fun _ => pure _
  · exact pure _

theorem alloc (n : Nat) : Grows R T (MemoryAllocator.alloc n) := by
  have hmove (best fb : Nat) : Grows R T (MemoryAllocator.moveHead best fb) :=
    modify fun g => hR.fbHead g _
  unfold MemoryAllocator.alloc
  refine globals.bind fun _ => (findBest _ _ _ _).bind fun _ => ?_
  split
  · refine (rd _ _).bind fun _ => ?_
    have hend (best : Nat) (k : Nat) : Grows R T (Os1Kernel.globals >>= fun g =>
        Os1Kernel.wr (MemoryAllocator.entryOf g best) .entry k >>= fun _ => Pure.pure best) :=
      globals.bind fun _ => (wr _ _ _).bind fun _ => pure _
    dsimp only
    split
    · exact ((wr _ _ _).bind fun _ => (rd _ _).bind fun _ => (wr _ _ _).bind fun _ =>
        (rd _ _).bind fun _ => (wr _ _ _).bind fun _ => (rd _ _).bind fun _ =>
          (wrIf _ _ _).bind fun _ => (rd _ _).bind fun _ => (wrIf _ _ _).bind fun _ =>
            hmove _ _).bind fun _ => hend _ _
    · exact ((rd _ _).bind fun _ => (rd _ _).bind fun _ => (wrIf _ _ _).bind fun _ =>
        (rd _ _).bind fun _ => (rd _ _).bind fun _ => (wrIf _ _ _).bind fun _ =>
          (rd _ _).bind fun _ => hmove _ _).bind fun _ => hend _ _
  · exact pure _

theorem chainFree (newFb prev nBlocks : Nat) :
    Grows R T (MemoryAllocator.chainFree newFb prev nBlocks) := by
  unfold MemoryAllocator.chainFree
  refine (wr _ _ _).bind fun _ => ?_
  split
  · exact (wr _ _ _).bind fun _ => (rd _ _).bind fun _ => (wr _ _ _).bind fun _ =>
      (rd _ _).bind fun _ => (wrIf _ _ _).bind fun _ => wr _ _ _
  · exact globals.bind fun _ => (wr _ _ _).bind fun _ => (wr _ _ _).bind fun _ =>
      (wrIf _ _ _).bind fun _ => modify fun g => hR.fbHead g _

theorem free (address : Nat) : Grows R T (MemoryAllocator.free address) := by
  unfold MemoryAllocator.free
  split
  · exact pure _
  split
  · exact pure _
  refine globals.bind fun _ => (rd _ _).bind fun _ => ?_
  split
  · exact pure _
  refine globals.bind fun _ => (findPrev _ _ _ _).bind fun r => ?_
  cases r with
  | none => exact pure _
  | some prev =>
    exact (chainFree hR _ _ _).bind fun _ => globals.bind fun _ => (wr _ _ _).bind fun _ =>
      (mergeBlocks _).bind fun _ => (rd _ _).bind fun _ => (mergeBlocks _).bind fun _ => pure _

theorem freeSem (sem : Nat) : Grows R T (Sem.freeSem sem) :=
  (free hR _).bind fun _ => (log hR rfl).bind fun _ => pure _

theorem freeTcb (L : Layout) (tcb : Nat) : Grows R T (Os1Kernel.freeTcb L tcb) := by
  have hpart (a : Nat) : Grows R T (freePart a) := (free hR a).bind fun _ => log hR rfl
  unfold Os1Kernel.freeTcb
  split
  · exact (rd _ _).bind fun _ => (hpart _).bind fun _ => (wr _ _ _).bind fun _ =>
      (rd _ _).bind fun _ => (hpart _).bind fun _ => (wr _ _ _).bind fun _ =>
        (rd _ _).bind fun _ => (freeSem hR _).bind fun _ => (wr _ _ _).bind fun _ => hpart _
  · exact pure _

theorem waitReturn (this : Nat) (code : Int) : Grows R T (Sem.waitReturn this code) :=
  globals.bind fun _ => (log hR rfl).bind fun _ => pure _

theorem createSem (value : Nat) : Grows R T (Sem.createSem value) :=
  (alloc hR _).bind fun _ => ((wr _ _ _).bind fun _ =>
    ((wr _ _ _).bind fun _ => wr _ _ _).bind fun _ => log hR rfl).bind fun _ => pure _

theorem createTcb (body args stackSpace : Nat) :
    Grows R T (Os1Kernel.createTcb L body args stackSpace) := by
  have hinit (tcb : Nat) : Grows R T (initTcb tcb body args stackSpace) :=
    (wr _ _ _).bind fun _ => (wr _ _ _).bind fun _ => (wr _ _ _).bind fun _ => (wr _ _ _).bind fun _ =>
      (wr _ _ _).bind fun _ => (wr _ _ _).bind fun _ => (wr _ _ _).bind fun _ =>
        (wr _ _ _).bind fun _ => (wr _ _ _).bind fun _ => wr _ _ _
  have hcontext (tcb : Nat) : Grows R T (initContext L tcb) :=
    (rd _ _).bind fun _ => (wr _ _ _).bind fun _ => (wr _ _ _).bind fun _ => globals.bind fun _ =>
      (wr _ _ _).bind fun _ => (rd _ _).bind fun _ => (wr _ _ _).bind fun _ => wr _ _ _
  have hfree (tcb : Nat) : Grows R T
      (Os1Kernel.freeTcb L tcb >>= fun _ => (Pure.pure 0 : Kernel Nat)) :=
    (freeTcb hR _ _).bind fun _ => pure _
  unfold Os1Kernel.createTcb
  split
  · refine (alloc hR _).bind fun _ => ?_
    split
    · exact pure _
    refine (hinit _).bind fun _ => (record hR _).bind fun _ =>
      (alloc hR _).bind fun _ => (wr _ _ _).bind fun _ => (rd _ _).bind fun _ => ?_
    split
    · exact hfree _
    refine (hcontext _).bind fun _ => (createSem hR _).bind fun _ => (wr _ _ _).bind fun _ =>
      (rd _ _).bind fun _ => ?_
    split
    · exact hfree _
    · exact pure _
  · exact pure _

theorem addTime (x y : Nat) : Grows R T (TCBSleepQueue.addTime x y) := by
  unfold TCBSleepQueue.addTime
  split
  · exact (log hR rfl).bind fun _ => pure _
  · exact (pure _).bind fun _ => pure _

theorem subTime (x y : Nat) : Grows R T (TCBSleepQueue.subTime x y) := by
  unfold TCBSleepQueue.subTime
  split
  · exact (log hR rfl).bind fun _ => pure _
  · exact (pure _).bind fun _ => pure _

theorem insertBefore (this tcb current totalTime : Nat) :
    Grows R T (TCBSleepQueue.insertBefore this tcb current totalTime) := by
  have hrest : Grows R T (do
      Os1Kernel.wr current .sleepFor
        (← TCBSleepQueue.subTime (← Os1Kernel.rd current .sleepFor) (← Os1Kernel.rd tcb .sleepFor))
      Os1Kernel.wr current .prev tcb) :=
    (rd _ _).bind fun _ => (rd _ _).bind fun _ => (subTime hR _ _).bind fun _ => (wr _ _ _).bind fun _ =>
      wr _ _ _
  unfold TCBSleepQueue.insertBefore
  refine (wr _ _ _).bind fun _ => (rd _ _).bind fun _ => (wr _ _ _).bind fun _ => (rd _ _).bind fun _ => ?_
  dsimp only
  split
  · exact (rd _ _).bind fun _ => (wr _ _ _).bind fun _ => (rd _ _).bind fun _ =>
      (subTime hR _ _).bind fun _ => (wr _ _ _).bind fun _ => hrest
  · exact (wr _ _ _).bind fun _ => hrest

theorem findPlace (this tcb fuel current totalTime : Nat) :
    Grows R T (TCBSleepQueue.findPlace this tcb fuel current totalTime) := by
  induction fuel generalizing current totalTime with
  | zero => exact fault _
  | succ fuel ih =>
    unfold TCBSleepQueue.findPlace
    split
    · refine (rd _ _).bind fun _ => (addTime hR _ _).bind fun _ => (rd _ _).bind fun _ => ?_
      split
      · exact (rd _ _).bind fun _ => ih _ _
      · exact (rd _ _).bind fun _ => (subTime hR _ _).bind fun _ => (insertBefore hR _ _ _ _).bind fun _ =>
          pure _
    · exact pure _

theorem putToSleep (this tcb sleepFor : Nat) :
    Grows R T (TCBSleepQueue.putToSleep this tcb sleepFor) := by
  unfold TCBSleepQueue.putToSleep
  split
  · exact pure _
  refine (wr _ _ _).bind fun _ => (wr _ _ _).bind fun _ => (unlink _).bind fun _ =>
    (isEmpty _).bind fun _ => ?_
  split
  · exact setFirst _ _
  refine (rd _ _).bind fun _ => (findPlace hR _ _ _ _ _).bind fun _ => (rd _ _).bind fun _ => ?_
  split
  · exact (rd _ _).bind fun _ => (subTime hR _ _).bind fun _ => (wr _ _ _).bind fun _ => addLast _ _
  · exact pure _

theorem wake (this fuel : Nat) : Grows R T (TCBSleepQueue.wake L this fuel) := by
  induction fuel with
  | zero => exact fault _
  | succ fuel ih =>
    unfold TCBSleepQueue.wake
    refine (rd _ _).bind fun _ => ?_
    split
    · refine (rd _ _).bind fun _ => ?_
      split
      · exact (takeFirst _).bind fun _ => (putTcb hR _ _).bind fun _ => ih
      · exact pure _
    · exact pure _

theorem timerTick (this : Nat) : Grows R T (TCBSleepQueue.timerTick L this) := by
  unfold TCBSleepQueue.timerTick
  refine (isEmpty _).bind fun _ => ?_
  split
  · exact pure _
  · exact (rd _ _).bind fun _ => (rd _ _).bind fun _ => (subTime hR _ _).bind fun _ =>
      (wr _ _ _).bind fun _ => wake hR _ _

end Record

section Switch

variable {L : Layout} (hR : AdmitsSwitch R)
include hR

/-- A register other than the record and `timer_ticks` is changed. -/
theorem set {u : Globals → Globals} (h : ∀ g, (u g).trace = g.trace ∧ (u g).timerTicks = g.timerTicks) :
    Grows R T (modifyGlobals u) :=
  modify fun g => hR.registers g _ (h g).1 (h g).2

/-- What follows `k_restore_context` is left for when its thread is picked again. -/
theorem restoreContext (saved context : Nat) (q : Unit → Kernel α) :
    Grows R True (Os1Kernel.restoreContext saved context >>= q) := by
  change Grows R True (Os1Kernel.rd context .sstatus >>= fun sstatus =>
    modifyGlobals (fun g => { g with sstatus }) >>= fun _ => Os1Kernel.rd context .ra >>= fun ra =>
      .suspend { saved, restored := context, ra } (Prog.ret () >>= q))
  exact (rd _ _).bind fun _ => bind (set hR fun _ => ⟨rfl, rfl⟩) fun _ => (rd _ _).bind fun _ =>
    suspend _ _

theorem yield (oldTcb newTcb : Nat) : Grows R True (Os1Kernel.yield L oldTcb newTcb) := by
  have hsave : Grows R True (saveContext L oldTcb) :=
    (wr _ _ _).bind fun _ => globals.bind fun _ => wr _ _ _
  have hgo : Grows R True (do
      Os1Kernel.wr newTcb .status TCBStatus.running.code
      modifyGlobals fun g => { g with kCurrentContext := g.currentTcb }
      Os1Kernel.restoreContext oldTcb newTcb
      modifyGlobals fun g => { g with timerTicks := 0 }) :=
    (wr _ _ _).bind fun _ => bind (set hR fun _ => ⟨rfl, rfl⟩) fun _ => restoreContext hR _ _ _
  unfold Os1Kernel.yield
  by_cases hnew : newTcb = 0
  · simp only [hnew, ne_eq, not_true_eq_false, if_false]
    split
    · exact hsave.bind fun _ => pure _
    · exact pure _
  · simp only [ne_eq, hnew, not_false_eq_true, if_true]
    split
    · exact hsave.bind fun _ => hgo
    · exact hgo

/-- The next thread is picked, and the hart goes on with it. -/
theorem switch (oldTcb : Nat) : Grows R True (Scheduler.nextTcb L >>= fun tcb =>
    modifyGlobals (fun g => { g with currentTcb := tcb }) >>= fun _ => Os1Kernel.yield L oldTcb tcb) :=
  (nextTcb hR.admits L).bind fun _ => bind (set hR fun _ => ⟨rfl, rfl⟩) fun _ =>
    yield hR _ _

theorem retire (previousTcb : Nat) : Grows R True (Os1Kernel.retire L previousTcb) := by
  unfold Os1Kernel.retire
  refine (rd _ _).bind fun _ => ?_
  split
  · exact (putTcb hR.admits _ _).bind fun _ => pure _
  split
  · refine (log hR.admits rfl).bind fun _ => (rd _ _).bind fun _ => ?_
    dsimp only
    split
    · exact (close hR.admits _ _).bind fun _ => (freeTcb hR.admits _ _).bind fun _ => pure _
    · exact (freeTcb hR.admits _ _).bind fun _ => pure _
  · exact pure _

theorem dispatch : Grows R True (Os1Kernel.dispatch L) := by
  unfold Os1Kernel.dispatch
  refine globals.bind fun _ => ?_
  dsimp only
  split
  · exact (retire hR _).bind fun _ => switch hR _
  · exact (pure _).bind fun _ => switch hR _

theorem block (this : Nat) : Grows R True (Sem.block L this) :=
  globals.bind fun _ => (wr _ _ _).bind fun _ => (addLast _ _).bind fun _ =>
    (log hR.admits rfl).bind fun _ => switch hR _

theorem wait (this : Nat) : Grows R True (Sem.wait L this) := by
  unfold Sem.wait
  refine globals.bind fun _ => (log hR.admits rfl).bind fun _ => (rd _ _).bind fun _ =>
    (wr _ _ _).bind fun _ => (rd _ _).bind fun _ => ?_
  split
  · refine (block hR _).bind fun _ => globals.bind fun _ => (rd _ _).bind fun _ => ?_
    split
    · exact waitReturn hR.admits _ _
    · exact waitReturn hR.admits _ _
  · exact waitReturn hR.admits _ _

theorem handleConsole (rx : Option UInt8) : Grows R True (Os1Kernel.handleConsole L rx) := by
  cases rx with
  | none => exact pure _
  | some temp =>
    refine globals.bind fun _ => ?_
    split
    · exact bind (set hR fun _ => ⟨rfl, rfl⟩) fun _ => (log hR.admits rfl).bind fun _ =>
        (signal hR.admits _ _).bind fun _ => dispatch hR
    · exact pure _

theorem flushPutcBuffer (tx : Nat) : Grows R False (Os1Kernel.flushPutcBuffer L tx) := by
  induction tx with
  | zero => exact pure _
  | succ tx ih =>
    unfold Os1Kernel.flushPutcBuffer
    refine globals.bind fun _ => ?_
    split
    · exact bind (set hR fun _ => ⟨rfl, rfl⟩) fun _ => (signal hR.admits _ _).bind fun _ => ih
    · exact pure _

theorem syscall (code p0 p1 p2 p3 : Nat) :
    Grows R True (Os1Kernel.syscall L code p0 p1 p2 p3) := by
  unfold Os1Kernel.syscall
  split
  · refine (alloc hR.admits _).bind fun _ => ?_
    dsimp only
    split
    · exact (record hR.admits _).bind fun _ => setA0 _
    · exact setA0 _
  · exact (free hR.admits _).bind fun _ => (record hR.admits _).bind fun _ => setA0 _
  · unfold createThreadCall
    split
    · refine (createTcb hR.admits _ _ _).bind fun _ => (wr _ _ _).bind fun _ => (rd _ _).bind fun _ => ?_
      split
      · exact (rd _ _).bind fun _ => (record hR.admits _).bind fun _ => globals.bind fun _ =>
          (log hR.admits rfl).bind fun _ => (rd _ _).bind fun _ =>
            (putTcb hR.admits _ _).bind fun _ => setA0 _
      · exact pure _
    · exact pure _
  · refine globals.bind fun _ => ?_
    dsimp only
    split
    · exact (wr _ _ _).bind fun _ => (setA0 _).bind fun _ => (record hR.admits _).bind fun _ =>
        dispatch hR
    · exact pure _
  · exact dispatch hR
  · unfold threadJoinCall
    split
    · refine (rd _ _).bind fun _ => ?_
      split
      · exact (wait hR _).bind fun _ => pure _
      · exact pure _
    · exact pure _
  · unfold semOpenCall
    split
    · refine (createSem hR.admits _).bind fun _ => (wr _ _ _).bind fun _ => (rd _ _).bind fun _ => ?_
      split
      · exact (rd _ _).bind fun _ => (record hR.admits _).bind fun _ => setA0 _
      · exact pure _
    · exact pure _
  · unfold semCloseCall
    split
    · refine (close hR.admits _ _).bind fun _ => (record hR.admits _).bind fun _ =>
        (freeSem hR.admits _).bind fun _ => ?_
      split
      · exact setA0 _
      · exact pure _
    · exact pure _
  · unfold semWaitCall
    split
    · exact (wait hR _).bind fun _ => setA0 _
    · exact pure _
  · unfold semSignalCall
    split
    · exact (signal hR.admits _ _).bind fun _ => setA0 _
    · exact pure _
  · unfold timeSleepCall
    split
    · exact globals.bind fun _ => (putToSleep hR.admits _ _ _).bind fun _ => (setA0 _).bind fun _ => dispatch hR
    · exact pure _
  · exact (wait hR _).bind fun _ => globals.bind fun _ =>
      bind (set hR fun _ => ⟨rfl, rfl⟩) fun _ => globals.bind fun _ =>
        (log hR.admits rfl).bind fun _ => setA0 _
  · exact (wait hR _).bind fun _ => bind (set hR fun _ => ⟨rfl, rfl⟩) fun _ => globals.bind fun _ =>
      log hR.admits rfl
  · exact bind (set hR fun _ => ⟨rfl, rfl⟩) fun _ => setA0 _
  · exact pure _

theorem ecallTrap (code p0 p1 p2 p3 : Nat) :
    Grows R True (Os1Kernel.ecallTrap L code p0 p1 p2 p3) :=
  (globals.bind fun _ => (log hR.admits rfl).bind fun _ => (setA0 _).bind fun _ =>
    syscall hR _ _ _ _ _).bind fun _ => globals.bind fun _ => (rd _ _).bind fun _ =>
      log hR.admits rfl

end Switch

end Grows

end Os1Kernel
