import Os1Kernel.Console.Decimal
import Os1Kernel.Threads.CharsRun

/-! What the kernel prints when user code causes an exception: first all that the threads have stored, then
the message. -/

namespace Os1Kernel

open Memory

/-! ### The code -/

/-- The exceptions that `k_handle_ecall` knows. -/
inductive Exception
  | illegalInstruction
  | loadAccessFault
  | storeAmoAccessFault

def Exception.scause : Exception → Nat
  | .illegalInstruction => 2
  | .loadAccessFault => 5
  | .storeAmoAccessFault => 7

/-- The branch of `k_handle_ecall` for exceptions, up to the loop that it ends in, when the console can
take `tx` characters at the first flush and `tx'` at the second. -/
def handleException (L : Layout) (scause : Nat) (sepc : UInt64) (tx tx' : Nat) : Kernel Unit :=
  if scause = Exception.illegalInstruction.scause ∨ scause = Exception.loadAccessFault.scause ∨
      scause = Exception.storeAmoAccessFault.scause then do
    flushPutcBuffer L tx
    panicMessage scause sepc
    flushPutcBuffer L tx'
  else pure ()

/-- The message for an exception. -/
def Exception.text : Exception → String
  | .illegalInstruction => "KERNEL PANIC! ILLEGAL INSTRUCTION AT: "
  | .loadAccessFault => "KERNEL PANIC! ILLEGAL READ OPERATION AT: "
  | .storeAmoAccessFault => "KERNEL PANIC! ILLEGAL WRITE OPERATION AT: "

def Exception.report (e : Exception) (sepc : UInt64) : List UInt8 :=
  chars e.text ++ decimal sepc.toNat ++ [10]

/-! ### The buffer -/

section Puts

variable {T : Type} {size : Nat} {q : Queue T size} {xs ys : List T}

theorem take_append_take (n : Nat) (xs ys : List T) : (xs.take n ++ ys).take n = (xs ++ ys).take n := by
  rw [List.take_append, List.take_append, List.take_take, Nat.min_self, List.length_take]
  congr 2
  omega

/-- A full buffer drops what is put. -/
theorem Queue.IsFifo.puts (h : q.IsFifo xs) (ys : List T) :
    (ys.foldl Queue.put q).IsFifo ((xs ++ ys).take size) := by
  induction ys generalizing q xs with
  | nil =>
    rw [List.append_nil, List.take_of_length_le h.length_le]
    exact h
  | cons y ys ih =>
    have hput : (q.put y).IsFifo ((xs ++ [y]).take size) := by
      rcases Nat.lt_or_eq_of_le h.length_le with hlt | hfull
      · rw [List.take_of_length_le (by rw [List.length_append]; exact hlt)]
        exact h.put hlt
      · rw [h.put_full hfull, List.take_left' hfull]
        exact h
    have hall := ih hput
    rw [take_append_take, List.append_assoc] at hall
    exact hall

end Puts

/-! ### The message -/

theorem panicMessage_eq (e : Exception) (sepc : UInt64) :
    panicMessage e.scause sepc = (e.report sepc).forM bufferPut := by
  rw [panicMessage, digitLoop_decimal, Exception.report, List.append_assoc]
  simp only [List.forM_eq_forM, List.forM_append]
  cases e <;> rfl

theorem wp_bufferPut {O : Nat → Field → Prop} {v : Cells} {g : Globals} {Q : Unit → Cells → Globals → Prop}
    {T : Switch → Kernel Unit → Cells → Globals → Prop} (xs : List UInt8)
    (hQ : Q () v { g with putcBuffer := xs.foldl Queue.put g.putcBuffer }) :
    (xs.forM bufferPut).wp O v g Q T := by
  induction xs generalizing g with
  | nil => exact hQ
  | cons c xs ih =>
    change (bufferPut c >>= fun _ => xs.forM bufferPut).wp O v g Q T
    rw [bufferPut, Prog.wp_bind, wp_modifyGlobals]
    exact ih hQ

theorem decimal_length_le (n : UInt64) : (decimal n.toNat).length ≤ 20 := by
  obtain ⟨k, hw, hle, hlt⟩ := getDecimalWeight_spec n
  have hlength (m j : Nat) : (digitsFrom m j).length = j + 1 := by
    induction j with
    | zero => rfl
    | succ j ih => rw [digitsFrom, List.length_cons, ih]
  rw [← digitsFrom_eq_decimal hle hlt, hlength]
  have hsmall : 10 ^ k < 10 ^ 20 := by
    have := (getDecimalWeight n).toNat_lt
    omega
  exact (Nat.pow_lt_pow_iff_right (by decide)).mp hsmall

/-- The message fits in the buffer. -/
theorem Exception.report_length_le (e : Exception) (sepc : UInt64) : (e.report sepc).length ≤ 63 := by
  have htext : (chars e.text).length ≤ 42 := by cases e <;> decide
  have hdecimal := decimal_length_le sepc
  rw [Exception.report, List.length_append, List.length_append, List.length_singleton]
  omega

/-! ### The flush -/

section Flush

variable {L : Layout} {σ : Spec} {v : Cells} {xs : List UInt8}
  {T : Switch → Kernel Unit → Cells → Globals → Prop}

/-- The flush writes the oldest characters, as many as the console takes. -/
theorem Holds.wp_flushed (h : Holds L σ v) (hb : σ.globals.putcBuffer.IsFifo xs) (tx : Nat) :
    (flushPutcBuffer L tx).wp (σ.owners.cells L) v σ.globals
      (fun _ v' g => ∃ τ, g = τ.globals ∧ τ.owners = σ.owners ∧ Holds L τ v' ∧
        τ.globals.putcBuffer.IsFifo (xs.drop tx) ∧
        τ.globals.console = σ.globals.console ++ xs.take tx) T := by
  induction tx generalizing σ v xs with
  | zero => exact ⟨σ, rfl, rfl, h, hb, (List.append_nil _).symm⟩
  | succ tx ih =>
    unfold flushPutcBuffer
    rw [Prog.wp_bind, wp_globals]
    cases xs with
    | nil =>
      rw [if_neg (by rw [Queue.getLength, hb.count_eq]; exact lt_irrefl 0)]
      exact ⟨σ, rfl, rfl, h, hb, (List.append_nil _).symm⟩
    | cons c xs =>
      obtain ⟨hc, hrest⟩ := hb.get_cons
      rw [if_pos (by rw [Queue.getLength, hb.count_eq]; exact Nat.succ_pos _)]
      simp only [Prog.wp_bind, wp_modifyGlobals]
      let τ := σ.on { σ.globals with
        putcBuffer := σ.globals.putcBuffer.get.2
        console := σ.globals.console ++ [σ.globals.putcBuffer.get.1] }
      have hτ : Holds L τ v := h.on ⟨rfl, rfl, rfl, rfl⟩
      refine hτ.wp_signal Inside.mem_putc fun v' hv' => ?_
      obtain ⟨hown, -, -, -, -, -, -, trace, hg⟩ := Inside.signal_same τ L.putcSem
      have hbuffer : (τ.signal L.putcSem).globals.putcBuffer.IsFifo xs := by
        rw [hg]
        exact hrest
      have hret := ih hv' hbuffer
      rw [show (τ.signal L.putcSem).owners = σ.owners from hown] at hret
      refine Prog.wp_post hret (fun _ v'' g hend => ?_) fun _ _ _ _ hT => hT
      obtain ⟨ρ, rfl, hρ, hholds, hfifo, hconsole⟩ := hend
      refine ⟨ρ, rfl, hρ, hholds, hfifo, ?_⟩
      rw [hconsole, hg]
      change (σ.globals.console ++ [σ.globals.putcBuffer.get.1]) ++ xs.take tx = _
      rw [hc, List.append_assoc]
      rfl

/-- The branch for exceptions returns to its loop. -/
theorem Holds.wp_handleException (h : Holds L σ v) (hb : σ.globals.putcBuffer.IsFifo xs) (e : Exception)
    (sepc : UInt64) (tx k : Nat) :
    (handleException L e.scause sepc tx k).wp (σ.owners.cells L) v σ.globals
      (fun _ _ g => g.console = σ.globals.console ++ xs.take tx ++
        ((xs.drop tx ++ e.report sepc).take ioBufferSize).take k) T := by
  have hknown : e.scause = Exception.illegalInstruction.scause ∨
      e.scause = Exception.loadAccessFault.scause ∨ e.scause = Exception.storeAmoAccessFault.scause := by
    cases e
    · exact .inl rfl
    · exact .inr (.inl rfl)
    · exact .inr (.inr rfl)
  rw [handleException, if_pos hknown, panicMessage_eq, Prog.wp_bind]
  refine Prog.wp_post (h.wp_flushed hb tx) (fun _ v' g hend => ?_) fun _ _ _ _ hT => hT
  obtain ⟨τ, rfl, hown, hτ, hfifo, hconsole⟩ := hend
  rw [Prog.wp_bind]
  apply wp_bufferPut
  let ρ := τ.on { τ.globals with putcBuffer := (e.report sepc).foldl Queue.put τ.globals.putcBuffer }
  have hρ : Holds L ρ v' := hτ.on ⟨rfl, rfl, rfl, rfl⟩
  have hlast := hρ.wp_flushed (T := T) (hfifo.puts (e.report sepc)) k
  rw [show ρ.owners = σ.owners from hown] at hlast
  refine Prog.wp_post hlast (fun _ v'' g hend => ?_) fun _ _ _ _ hT => hT
  obtain ⟨_, rfl, -, -, -, hgiven⟩ := hend
  rw [hgiven]
  change τ.globals.console ++ _ = _
  rw [hconsole]

end Flush

/-! ### Exceptions in a run -/

/-- What an exception prints in every state that the kernel reaches: a part of what has been stored and
not yet written, the message after it, and no more than the console takes.  When the console takes
all, all is printed. -/
theorem exception_reported {L : Layout} {M : Machine} (h : Reach L (LeftoverRejected L) M) (e : Exception)
    (sepc : UInt64) (tx tx' : Nat) : ∃ xs m g, M.globals.putcBuffer.IsFifo xs ∧
      (handleException L e.scause sepc tx tx').run M.enter.mem M.enter.globals = .done () m g ∧
      g.console = M.globals.console ++ xs.take tx ++
        ((xs.drop tx ++ e.report sepc).take ioBufferSize).take tx' ∧
      g.console <+: Log.stored M.globals.trace ++ e.report sepc ∧
      (ioBufferSize ≤ tx → 63 ≤ tx' → g.console = Log.stored M.globals.trace ++ e.report sepc) := by
  obtain ⟨σ, K, hrests, hK, htrace⟩ := reach_chars h
  obtain ⟨xs, hfifo, hflow, -⟩ := hrests.inside.inv.1.2.2.flow
  have hbuffer : M.globals.putcBuffer = σ.globals.putcBuffer := by rw [hrests.of_sstatus]
  have hconsole : M.globals.console = σ.globals.console := by rw [hrests.of_sstatus]
  rw [htrace, ← hconsole] at hflow
  have hwp := hrests.inside.holds.wp_handleException (T := fun _ _ _ _ => False) hfifo e sepc tx tx'
  have hend := Prog.sound hrests.inside.holds.tiled.separate (Sim.self _ M.mem) hwp
  rw [← hconsole] at hend
  cases hrun : (handleException L e.scause sepc tx tx').run M.enter.mem M.enter.globals with
  | fault f =>
    rw [hrests.globals, show M.enter.mem = M.mem from rfl] at hrun
    rw [hrun] at hend
    exact hend.elim
  | suspended s k m g =>
    rw [hrests.globals, show M.enter.mem = M.mem from rfl] at hrun
    rw [hrun] at hend
    obtain ⟨_, _, _, hfalse⟩ := hend
    exact hfalse.elim
  | done u m g =>
    rw [hrests.globals, show M.enter.mem = M.mem from rfl] at hrun
    rw [hrun] at hend
    obtain ⟨_, _, _, hgiven⟩ := hend
    refine ⟨xs, m, g, hbuffer ▸ hfifo, rfl, hgiven, ?_, fun htx htx' => ?_⟩
    · rw [hgiven, hflow, List.append_assoc, List.append_assoc, List.prefix_append_right_inj]
      have hall : xs ++ e.report sepc = xs.take tx ++ (xs.drop tx ++ e.report sepc) := by
        rw [← List.append_assoc, List.take_append_drop]
      rw [hall, List.prefix_append_right_inj]
      exact (List.take_prefix _ _).trans (List.take_prefix _ _)
    · have hlength := e.report_length_le sepc
      have hle : xs.length ≤ tx := Nat.le_trans hfifo.length_le htx
      have hfits : (e.report sepc).length ≤ ioBufferSize := Nat.le_trans hlength (by decide)
      rw [hgiven, hflow, List.take_of_length_le hle, List.drop_of_length_le hle, List.nil_append,
        List.take_of_length_le hfits, List.take_of_length_le (Nat.le_trans hlength htx')]

/-- An illegal instruction while a character waits to be written. -/
theorem exception_reported_stored : ∃ M, Reach roomyImage (LeftoverRejected roomyImage) M ∧
    .stored roomyImage.mainTcb 98 ∈ M.globals.trace ∧ M.globals.console = [] ∧
    M.globals.putcBuffer.count = 1 ∧ ∃ xs m g, M.globals.putcBuffer.IsFifo xs ∧
      (handleException roomyImage 2 80000000 ioBufferSize 63).run M.enter.mem M.enter.globals =
        .done () m g ∧
      g.console = Log.stored M.globals.trace ++ Exception.illegalInstruction.report 80000000 := by
  obtain ⟨M₀, M, σ, h, c⟩ := char_stored
  obtain ⟨xs, m, g, hfifo, hrun, -, -, hall⟩ :=
    exception_reported h.reach .illegalInstruction 80000000 ioBufferSize 63
  have hg := h.rests.of_sstatus
  have hstored := c.stored
  have hconsole := c.console
  have hbuffer := c.putcBuffer
  rw [hg] at hstored hconsole hbuffer
  exact ⟨M, h.reach, hstored, hconsole, by rw [show M.globals.putcBuffer = _ from hbuffer]; rfl, xs, m, g,
    hfifo, hrun, hall le_rfl le_rfl⟩

end Os1Kernel
