import Os1Kernel.Threads.Chars

/-! The characters of the console in every state that the kernel reaches. -/

namespace Os1Kernel

open Memory

/-! ### The invariant -/

/-- The steps keep both. -/
theorem kept_chars (L : Layout) :
    Kept L fun σ => (Reasoned L σ ∧ Booked L σ) ∧ Input L σ ∧ Output L σ := by
  intro σ σ' hs h
  obtain ⟨hbooks, hin, hout⟩ := h
  refine ⟨kept_booked L σ σ' hs hbooks, ?_, ?_⟩
  · rcases hs.touches (.inr rfl) hin.kinds with ⟨hv, ht⟩ | ha
    · exact hin.touches hv hbooks.1 ht
    · exact hin.aside ha
  · rcases hs.touches (.inl rfl) hout.kinds with ⟨hv, ht⟩ | ha
    · exact hout.touches hv hbooks.1 ht
    · exact hout.aside ha

theorem away_initial (L : Layout) (mainStack : Nat) (tiles : List Tiling.Tile) (fbHead sstatus t : Nat) :
    (Spec.initial L mainStack tiles fbHead sstatus).away L t = none := by
  refine if_neg fun h => ?_
  have ht : t = L.mainTcb := List.mem_singleton.mp h.1
  cases h.2 ht

theorem chars_initial (L : Layout) (mainStack : Nat) (tiles : List Tiling.Tile) (fbHead sstatus : Nat) :
    Input L (.initial L mainStack tiles fbHead sstatus) ∧
      Output L (.initial L mainStack tiles fbHead sstatus) := by
  have hne : L.getcSem ≠ L.putcSem := by
    have hap := L.apart
    simp only [List.pairwise_cons] at hap
    have hap' := hap.2.2.2.1 (L.getcSem, 24) List.mem_cons_self
    simp only [Memory.Apart] at hap'
    omega
  have haway := away_initial L mainStack tiles fbHead sstatus
  have hkinds (s : Nat) : Kinds L s (.initial L mainStack tiles fbHead sstatus) := by
    intro t c hc
    rw [haway] at hc
    cases hc
  have hgranted (s : Nat) : (Spec.initial L mainStack tiles fbHead sstatus).granted L s = 0 := by
    have hempty : (Spec.initial L mainStack tiles fbHead sstatus).released L s = ∅ := by
      refine Set.eq_empty_of_forall_notMem fun t ht => ?_
      have hsem := ht.1
      rw [haway] at hsem
      cases hsem
    rw [Spec.granted, hempty, Set.ncard_empty]
  have hstart : (Queue.empty : Queue UInt8 ioBufferSize).IsFifo [] := .start (by decide) _
  refine ⟨⟨hkinds _, [], hstart, ⟨fun k hk => ?_, rfl⟩, ?_⟩, hkinds _, ⟨[], hstart, rfl, ?_⟩, fun t => ?_⟩
  · have hk' : k <+: [Action.initialized L.putcSem ioBufferSize, Action.initialized L.getcSem 0] := hk
    have hnil : Log.gotten k = [] := by
      refine List.filterMap_eq_nil_iff.mpr fun x hx => ?_
      rcases List.mem_cons.mp (hk'.subset hx) with rfl | hx
      · rfl
      · rw [List.mem_singleton.mp hx]
    rw [hnil]
    exact List.nil_prefix
  · rw [Pooled, hgranted]
    change Pool (if L.getcSem = L.putcSem then ioBufferSize else 0) 0 0 0
    rw [if_neg hne]
    exact ⟨rfl, le_rfl, fun h => absurd h (lt_irrefl 0), by decide⟩
  · rw [Pooled, hgranted]
    change Pool (if L.putcSem = L.putcSem then ioBufferSize else 0) ioBufferSize 0 0
    rw [if_pos rfl]
    exact ⟨by decide, Nat.zero_le _, fun h => absurd h (lt_irrefl 0), by decide⟩
  · rw [haway]
    rfl

/-! ### What the machine keeps -/

def Standing.isReleased (s : Nat) : Standing → Bool
  | .released u _ => u = s
  | _ => false

/-- The number of threads that have been released from a wait on `s` and have not gone on. -/
def Machine.granted (L : Layout) (M : Machine) (s : Nat) : Nat :=
  (M.tcbs L).countP fun t => (Log.standing t M.globals.trace).isReleased s

/-- What the threads have stored is what the console has got of it and what is in the buffer, in this
order, and `putc_sem` counts the places that are for no thread yet.  A thread has stored what it has
called `putc` with, but for the call that it is in.  A `putc` that need not wait, or need not any more,
finds a place. -/
structure OutputKept (L : Layout) (M : Machine) : Prop where
  flow : ∃ xs, M.globals.putcBuffer.IsFifo xs ∧
    Log.stored M.globals.trace = M.globals.console ++ xs
  order : ∀ t, ∃ rest, Log.putcs t M.globals.trace = Log.storedBy t M.globals.trace ++ rest ∧
    rest.length ≤ 1 ∧ (rest ≠ [] → Log.standing t M.globals.trace = .blocked L.putcSem ∨
      ∃ waitError, Log.standing t M.globals.trace = .released L.putcSem waitError)
  units : max (toInt (M.mem.field L.putcSem Field.value)) 0 + M.granted L L.putcSem +
    M.globals.putcBuffer.count = (ioBufferSize : Int)
  room : 0 < toInt (M.mem.field L.putcSem Field.value) ∨ 0 < M.granted L L.putcSem →
    M.globals.putcBuffer.count < ioBufferSize

theorem Pool.count {b units granted waiting : Nat} (h : Pool b units granted waiting) :
    (units : Int) = max (toInt b) 0 + granted := by
  have hvalue := h.value
  have hle := h.le
  have hfull := h.full
  omega

section Kept

variable {L : Layout} {I : Spec → Prop} {M : Machine} {σ : Spec} {K : Ledger} {s t : Nat}

/-- The log tells which threads have been released. -/
theorem Books.standing_released (h : Books L σ K) (hr : σ.resuming = false) :
    t ∈ σ.released L s ↔ ∃ waitError, Log.standing t σ.globals.trace = .released s waitError := by
  have hlog := (Ledger.runs_standing h.runs).2 t
  rw [← hlog]
  by_cases hmem : t ∈ σ.owners.tcbs L
  · by_cases hcur : t = σ.current
    · rw [hcur, h.current hr]
      have haway := away_current (L := L) hr
      simp [Spec.released, haway]
    · rw [h.of.standing t hmem (.inl hcur), Spec.standing, Spec.released, Set.mem_ofPred_eq,
        away_of_ne hmem hcur, Option.bind_some]
      cases (σ.abs.cont t).sem L with
      | none => simp
      | some u =>
        simp only [Option.some.injEq]
        split
        · rename_i hw
          apply iff_of_false
          · intro hno
            exact hno.2 (hno.1 ▸ hw)
          · rintro ⟨_, hno⟩
            cases hno
        · rename_i hw
          constructor
          · rintro ⟨rfl, -⟩
            exact ⟨_, rfl⟩
          · rintro ⟨_, heq⟩
            cases heq
            exact ⟨rfl, hw⟩
  · have hnone : σ.away L t = none := if_neg fun hno => hmem hno.1
    rw [h.of.gone t hmem]
    simp [Spec.released, hnone]

theorem Cont.char_length (o : Option Cont) : (Cont.char o).length ≤ 1 := by
  rcases o with _ | c
  · exact Nat.zero_le _
  · cases c <;> simp [Cont.char]

/-- A thread that has a character to store is in a wait on `putc_sem`. -/
theorem Books.standing_char (h : Books L σ K) (hr : σ.resuming = false)
    (hc : Cont.char (σ.away L t) ≠ []) : Log.standing t σ.globals.trace = .blocked L.putcSem ∨
      ∃ waitError, Log.standing t σ.globals.trace = .released L.putcSem waitError := by
  rw [← (Ledger.runs_standing h.runs).2 t]
  have hmem : t ∈ σ.owners.tcbs L := by
    by_contra hno
    have hnone : σ.away L t = none := if_neg fun hm => hno hm.1
    exact hc (by rw [hnone]; rfl)
  have hcur : t ≠ σ.current := by
    rintro rfl
    exact hc (by rw [away_current hr]; rfl)
  rw [away_of_ne hmem hcur] at hc
  rw [h.of.standing t hmem (.inl hcur), Spec.standing]
  cases hcont : σ.abs.cont t with
  | writing p0 =>
    simp only [Cont.sem]
    split
    · exact .inl rfl
    · exact .inr ⟨_, rfl⟩
  | _ =>
    rw [hcont] at hc
    exact absurd rfl hc

theorem Rests.granted (h : Rests L I M σ) (hK : Books L σ K) : M.granted L s = σ.granted L s := by
  have htrace : σ.globals.trace = M.globals.trace := by rw [h.of_sstatus]
  have hset : σ.released L s = ↑((M.tcbs L).filter fun t =>
      (Log.standing t M.globals.trace).isReleased s).toFinset := by
    ext t
    rw [hK.standing_released h.inside.resuming, htrace, List.coe_toFinset, Set.mem_ofPred_eq,
      List.mem_filter]
    constructor
    · rintro ⟨waitError, hst⟩
      refine ⟨?_, by rw [hst]; exact decide_eq_true rfl⟩
      by_contra hno
      rw [h.tcbs] at hno
      rw [← htrace, ← (Ledger.runs_standing hK.runs).2 t, hK.of.gone t hno] at hst
      cases hst
    · rintro ⟨-, hst⟩
      cases hstand : Log.standing t M.globals.trace with
      | free => rw [hstand] at hst; cases hst
      | blocked u => rw [hstand] at hst; cases hst
      | released u waitError =>
        rw [hstand] at hst
        exact ⟨waitError, by rw [of_decide_eq_true hst]⟩
  have hnd : (M.tcbs L).Nodup := by
    rw [h.tcbs]
    exact h.inside.holds.tiled.tcbs_nodup
  rw [Spec.granted, hset, Set.ncard_coe_finset, List.toFinset_card_of_nodup (hnd.filter _),
    Machine.granted, List.countP_eq_length_filter]

end Kept

variable {L : Layout} {M : Machine}

theorem reach_chars (h : Reach L (LeftoverRejected L) M) : ∃ σ K,
    Rests L (fun σ => ((Reasoned L σ ∧ Booked L σ) ∧ Input L σ ∧ Output L σ) ∧
      σ.globals.handles.flush ≠ 0) M σ ∧ Books L σ K ∧ σ.globals.trace = M.globals.trace := by
  obtain ⟨σ, hrests⟩ := reach_rests (kept_chars L)
    (fun i ts x s => ⟨⟨Reasoned.initial _ _ _ _, booked_initial L _ _ _ _⟩, chars_initial L _ _ _ _⟩) h
  obtain ⟨K, hK⟩ := hrests.inside.inv.1.1.2
  exact ⟨σ, K, hrests, hK, by rw [hrests.of_sstatus]⟩

/-- The value of a semaphore of the console in memory. -/
theorem Rests.console_value {I : Spec → Prop} {σ : Spec} {s : Nat} (h : Rests L I M σ)
    (hs : s = L.putcSem ∨ s = L.getcSem) : M.mem.field s Field.value = σ.abs.bits s :=
  (h.inside.holds.queues.bits s (Valid.mem_console hs)).1

theorem output_units (h : Reach L (LeftoverRejected L) M) :
    max (toInt (M.mem.field L.putcSem Field.value)) 0 + M.granted L L.putcSem +
      M.globals.putcBuffer.count = (ioBufferSize : Int) := by
  obtain ⟨σ, K, hrests, hK, -⟩ := reach_chars h
  obtain ⟨xs, hfifo, -, hpool⟩ := hrests.inside.inv.1.2.2.flow
  have hbuffer : M.globals.putcBuffer = σ.globals.putcBuffer := by rw [hrests.of_sstatus]
  have hunits := Pool.count hpool
  have hle := hfifo.length_le
  rw [hbuffer, hfifo.count_eq, hrests.console_value (.inl rfl), hrests.granted hK, ← hunits]
  omega

/-- No character of the output is lost between the threads and the console, none is invented, and
none comes out of order. -/
theorem output_kept (h : Reach L (LeftoverRejected L) M) : OutputKept L M := by
  obtain ⟨σ, K, hrests, hK, htrace⟩ := reach_chars h
  have hout := hrests.inside.inv.1.2.2
  obtain ⟨xs, hfifo, hflow, -⟩ := hout.flow
  have hbuffer : M.globals.putcBuffer = σ.globals.putcBuffer := by rw [hrests.of_sstatus]
  have hconsole : M.globals.console = σ.globals.console := by rw [hrests.of_sstatus]
  have hunits := output_units h
  rw [htrace] at hflow
  refine ⟨⟨xs, hbuffer ▸ hfifo, hconsole ▸ hflow⟩, fun t => ?_, hunits, fun hunit => ?_⟩
  · have horder := hout.order t
    rw [htrace] at horder
    refine ⟨_, horder, Cont.char_length _, fun hne => ?_⟩
    rw [← htrace]
    exact hK.standing_char hrests.inside.resuming hne
  · omega

/-- A character has been stored and has been written. -/
theorem output_kept_written : ∃ M, Reach roomyImage (LeftoverRejected roomyImage) M ∧
    .stored roomyImage.mainTcb 98 ∈ M.globals.trace ∧ M.globals.console = [98] ∧
    OutputKept roomyImage M := by
  obtain ⟨M, hr, -, hstored, hconsole⟩ := char_written
  exact ⟨M, hr, hstored, hconsole, output_kept hr⟩

/-! ### A unit that is for no character -/

/-- An action that releases no thread. -/
theorem Log.stand_released {s t : Nat} {y : Standing} {x : Action} (hx : ∀ u w b, x ≠ .released u w b)
    (h : (Log.stand t y x).isReleased s = true) : y.isReleased s = true := by
  cases x with
  | released u w b => exact absurd rfl (hx u w b)
  | blocked u w =>
    simp only [Log.stand] at h
    split at h
    · cases h
    · exact h
  | waitReturned u w c =>
    simp only [Log.stand] at h
    split at h
    · cases h
    · exact h
  | _ => exact h

theorem Log.standing_released {s t : Nat} {l q : List Action}
    (hq : ∀ x ∈ q, ∀ u w b, x ≠ .released u w b)
    (h : (Log.standing t (l ++ q)).isReleased s = true) : (Log.standing t l).isReleased s = true := by
  rw [Log.standing, List.foldl_append] at h
  change ((q.foldl (Log.stand t) (Log.standing t l)).isReleased s = true) at h
  induction q using List.reverseRecOn with
  | nil => exact h
  | append_singleton q x ih =>
    rw [List.foldl_append] at h
    exact ih (fun y hy => hq y (List.mem_append_left _ hy))
      (Log.stand_released (hq x (by simp)) h)

theorem Machine.granted_le {M₀ : Machine} {s : Nat} {q : List Action} (htcbs : M.tcbs L = M₀.tcbs L)
    (htrace : M.globals.trace = M₀.globals.trace ++ q) (hq : ∀ x ∈ q, ∀ u w b, x ≠ .released u w b) :
    M.granted L s ≤ M₀.granted L s := by
  rw [Machine.granted, Machine.granted, htcbs, htrace]
  exact List.countP_mono_left fun t _ h => Log.standing_released hq h

/-- The main thread joins a block of its own, which names a semaphore of the console that has units: it
takes one. -/
theorem Idle.joins {ts : List Tiling.Tile} {hs : Handles} {M₀ : Machine} {s t : Nat}
    (h : Idle L ts hs M₀ M.mem M.mem M.globals) (ht : t ≠ 0)
    (hout : ∀ y, t + offset Field.joinSem ≤ y → y < t + offset Field.joinSem + size Field.joinSem →
      L.heap.Outside y ∧ L.mainTcb + 360 ≤ y)
    (hjoin : M.mem.field t Field.joinSem = s) (hsem : s = L.putcSem ∨ s = L.getcSem)
    (hle : 0 ≤ toInt (decBits (M₀.mem.field s Field.value))) : ∃ M' q,
      M.trap L (ecallTrap L 0x14 t 0 0 0) = some M' ∧
      M'.mem.field s Field.value = decBits (M₀.mem.field s Field.value) ∧
      M'.globals.handles = hs ∧ M'.globals.getcBuffer = M₀.globals.getcBuffer ∧
      M'.globals.putcBuffer = M₀.globals.putcBuffer ∧ M'.globals.trace = M₀.globals.trace ++ q ∧
      ∀ x ∈ q, ∀ u w b, x ≠ .released u w b := by
  have hp := L.places
  have hs0 : s ≠ 0 := by omega
  have hidle {x : Action} (hx : x.idle = true) (u w : Nat) (b : Bool) : x ≠ .released u w b := by
    rintro rfl
    cases hx
  obtain ⟨m, g, ⟨q, hvalue, hhandles, hgetc, hputc, htrace, hq⟩, hrun⟩ := h.ecall
    (show 0x14 ≠ 0xff by decide) t 0 0 0 (Q := fun m g => ∃ q,
      m.field s Field.value = decBits (M₀.mem.field s Field.value) ∧ g.handles = hs ∧
      g.getcBuffer = M₀.globals.getcBuffer ∧ g.putcBuffer = M₀.globals.putcBuffer ∧
      g.trace = M₀.globals.trace ++ q ∧ ∀ x ∈ q, ∀ u w b, x ≠ .released u w b) fun m g hm => by
    have hword : m.field t Field.joinSem = s := (load_congr fun y hy hy' =>
      hm.frame y (hout y hy hy').1 (.inr (hout y hy hy').2)).trans hjoin
    have hsame : m.field s Field.value = M₀.mem.field s Field.value := by
      have hcells : offset Field.value = 0 ∧ size Field.value = 4 := ⟨rfl, rfl⟩
      refine load_congr fun y hy hy' => hm.still y ?_
      rcases hsem with rfl | rfl
      · exact .inr (.inl ⟨by omega, by omega⟩)
      · exact .inr (.inr ⟨by omega, by omega⟩)
    have hstored : (m.assign s Field.value (decBits (m.field s Field.value))).field s Field.value =
        decBits (M₀.mem.field s Field.value) := by
      rw [field_assign_same, hsame]
      exact Nat.mod_eq_of_lt (decBits_lt _)
    change Prog.Post _ _ _ ((threadJoinCall L t >>= fun _ => ecallReturn).run m g)
    rw [threadJoinCall, if_pos ht, bind_assoc]
    refine post_of_run (run_rd ht) ?_
    rw [hword, if_pos hs0, bind_assoc, Sem.wait_eq]
    simp only [bind_assoc]
    refine post_of_run run_globals (post_of_run run_log (post_of_run (run_rd hs0)
      (post_of_run (run_wr hs0) (post_of_run (run_rd hs0) ?_))))
    rw [hstored, if_neg (not_lt.mpr hle), Sem.waitReturn]
    simp only [bind_assoc, pure_bind]
    refine post_of_run run_globals (post_of_run run_log ?_)
    have hctx : g.kCurrentContext ≠ 0 := hm.context_ne
    rw [ecallReturn]
    refine post_of_run run_globals (post_of_run (run_rd hctx) ?_)
    rw [run_log, Prog.post_done]
    obtain ⟨q, htrace, hq⟩ := hm.trace
    refine ⟨q ++ [.waitCalled g.currentTcb s, .waitReturned g.currentTcb s Sem.waitSuccess,
      .ecallReturned g.currentTcb ((m.assign s Field.value (decBits (m.field s Field.value))).field
        g.kCurrentContext Field.a0)], hstored, hm.handles, hm.getcBuffer, hm.putcBuffer, ?_, ?_⟩
    · simp only [htrace, List.append_assoc, List.cons_append, List.nil_append]
    · intro x hx
      rcases List.mem_append.mp hx with hx | hx
      · exact hidle (hq x hx)
      · simp only [List.mem_cons, List.not_mem_nil, or_false] at hx
        rcases hx with rfl | rfl | rfl <;> simp
  exact ⟨_, q, hrun, hvalue, hhandles, hgetc, hputc, htrace, hq⟩

/-- The block of the flush thread names a semaphore of the console, and the main thread joins it. -/
theorem unit_taken {M₀ : Machine} {σ : Spec} {s : Nat} (h₀ : AtBoot M₀ σ)
    (hs : s = bootImage.putcSem ∨ s = bootImage.getcSem)
    (hle : 0 ≤ toInt (decBits (M₀.mem.field s Field.value))) : ∃ M,
      Reach bootImage (fun _ _ => True) M ∧
      M.mem.field s Field.value = decBits (M₀.mem.field s Field.value) ∧
      M.globals.getcBuffer = M₀.globals.getcBuffer ∧ M.globals.putcBuffer = M₀.globals.putcBuffer ∧
      M.granted bootImage s ≤ M₀.granted bootImage s := by
  obtain ⟨M, hs', hr, h, hthreads, hflush, hword⟩ := flush_block_taken h₀ (f := .joinSem) rfl s
  have hF : bootImage.heap.addr 128 = 17472 := by rw [bootImage_addr]
  have hmod : s % 256 ^ size Field.joinSem = s := by
    rcases hs with rfl | rfl <;> rfl
  rw [hmod, hF] at hword
  have hout (y : Nat) (hy : 17472 + offset Field.joinSem ≤ y)
      (hy' : y < 17472 + offset Field.joinSem + size Field.joinSem) :
      bootImage.heap.Outside y ∧ bootImage.mainTcb + 360 ≤ y := by
    rw [← hF] at hy hy'
    refine ⟨outside_bootImage hy hy', ?_⟩
    rw [hF] at hy
    exact Nat.le_trans (by decide) hy
  obtain ⟨M', q, hstep, hvalue, hhandles, hgetc, hputc, htrace, hq⟩ :=
    h.joins (by decide) hout hword hs hle
  have hr' := hr.step (.ecall 0x14 17472 0 0 0) (allowed_join (h.current_ne_flush hflush) (by
    rw [h.handles, hthreads, hF]
    exact List.mem_cons_self)) trivial ((step_ecall rfl rfl rfl rfl rfl).trans hstep)
  refine ⟨M', hr', hvalue, hgetc, hputc, Machine.granted_le ?_ htrace hq⟩
  rw [Machine.tcbs, Machine.tcbs, hhandles, hthreads, h₀.rests.handles]
  exact congrArg (bootImage.mainTcb :: ·) h₀.threads.symm

/-- A join has taken a unit of `putc_sem`, and stores nothing. -/
theorem output_not_kept : ¬∀ (L : Layout) (M : Machine), Reach L (fun _ _ => True) M → OutputKept L M := by
  intro hall
  obtain ⟨M₀, hb⟩ := boot_bootImage (fun _ => 0) 0
  obtain ⟨σ, h₀, hbooted⟩ := scene_boot hb
  have hvalue : M₀.mem.field bootImage.putcSem Field.value = ioBufferSize :=
    (h₀.rests.console_value (.inl rfl)).trans hbooted.putc.1
  obtain ⟨M, hr, hvalue', -, hputc, hgranted⟩ := unit_taken (hbooted.atBoot h₀) (.inl rfl)
    (by rw [hvalue]; decide)
  have hunits₀ := output_units h₀.reach
  have hunits := (hall _ _ hr).units
  rw [hvalue] at hunits₀ hvalue'
  rw [hvalue', hputc, show toInt (decBits ioBufferSize) = 2047 by decide] at hunits
  rw [show toInt ioBufferSize = 2048 by decide] at hunits₀
  omega

end Os1Kernel
