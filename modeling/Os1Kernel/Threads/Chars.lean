import Os1Kernel.Console.Buffer
import Os1Kernel.Threads.Touches

/-! The characters of the console: none is lost and none invented on the way from the console to the
threads that call `getc`, and from those that call `putc` to the console. -/

namespace Os1Kernel

open Memory

/-! ### The log -/

namespace Log

/-- The characters that the console has put into the buffer, and those that `getc` has returned. -/
def received (l : List Action) : List UInt8 :=
  l.filterMap fun x => match x with
    | .received c => some c
    | _ => none

def gotten (l : List Action) : List UInt8 :=
  l.filterMap fun x => match x with
    | .got _ c => some c
    | _ => none

/-- The characters that `putc` has put into the buffer, those of the thread `t` among them, and those
with which `t` has called `putc`. -/
def stored (l : List Action) : List UInt8 :=
  l.filterMap fun x => match x with
    | .stored _ c => some c
    | _ => none

def storedBy (t : Nat) (l : List Action) : List UInt8 :=
  l.filterMap fun x => match x with
    | .stored u c => if u = t then some c else none
    | _ => none

def putcs (t : Nat) (l : List Action) : List UInt8 :=
  l.filterMap fun x => match x with
    | .called u code p0 => if u = t ∧ code = 0x42 then some (UInt8.ofNat p0) else none
    | _ => none

variable {t : Nat} {l q : List Action}

theorem received_append : received (l ++ q) = received l ++ received q := List.filterMap_append

theorem gotten_append : gotten (l ++ q) = gotten l ++ gotten q := List.filterMap_append

theorem stored_append : stored (l ++ q) = stored l ++ stored q := List.filterMap_append

theorem storedBy_append : storedBy t (l ++ q) = storedBy t l ++ storedBy t q := List.filterMap_append

theorem putcs_append : putcs t (l ++ q) = putcs t l ++ putcs t q := List.filterMap_append

/-- Actions that have nothing to do with the input. -/
theorem input_nil {L : Layout} (h : ∀ x ∈ q, x.touches L L.getcSem = false) :
    received q = [] ∧ gotten q = [] := by
  refine ⟨List.filterMap_eq_nil_iff.mpr fun x hx => ?_, List.filterMap_eq_nil_iff.mpr fun x hx => ?_⟩
  all_goals
    have hno := h x hx
    cases x <;> first | rfl | simp [Action.touches] at hno

/-- Actions that have nothing to do with the output. -/
theorem output_nil {L : Layout} (h : ∀ x ∈ q, x.touches L L.putcSem = false) (t : Nat) :
    stored q = [] ∧ storedBy t q = [] ∧ putcs t q = [] := by
  refine ⟨List.filterMap_eq_nil_iff.mpr fun x hx => ?_, List.filterMap_eq_nil_iff.mpr fun x hx => ?_,
    List.filterMap_eq_nil_iff.mpr fun x hx => ?_⟩
  · have hno := h x hx
    cases x <;> first | rfl | simp [Action.touches] at hno
  · have hno := h x hx
    cases x <;> first | rfl | simp [Action.touches] at hno
  · have hno := h x hx
    cases x with
    | called u code p0 =>
      have hcode : code ≠ 0x42 := by simpa [Action.touches] using hno
      simp [hcode]
    | _ => rfl

/-- `xs` has been received and not yet returned, and nothing has been returned before it was
received. -/
structure Flow (l : List Action) (xs : List UInt8) : Prop where
  early : ∀ k, k <+: l → gotten k <+: received k
  flow : received l = gotten l ++ xs

namespace Flow

variable {xs : List UInt8} {c : UInt8}

theorem snoc (h : Flow l xs) {x : Action} {ys : List UInt8} (hx : gotten (l ++ [x]) <+: received (l ++ [x]))
    (hflow : received (l ++ [x]) = gotten (l ++ [x]) ++ ys) : Flow (l ++ [x]) ys where
  early k hk := by
    rcases List.prefix_concat_iff.mp hk with rfl | hk
    · exact hx
    · exact h.early k hk
  flow := hflow

/-- An action that is none of the input. -/
theorem plain (h : Flow l xs) {x : Action} (hr : received [x] = []) (hg : gotten [x] = []) :
    Flow (l ++ [x]) xs := by
  have hreceived : received (l ++ [x]) = received l := by rw [received_append, hr, List.append_nil]
  have hgotten : gotten (l ++ [x]) = gotten l := by rw [gotten_append, hg, List.append_nil]
  apply h.snoc
  · rw [hreceived, hgotten]
    exact h.early l (List.prefix_refl _)
  · rw [hreceived, hgotten]
    exact h.flow

theorem append (h : Flow l xs) (hr : received q = []) (hg : gotten q = []) : Flow (l ++ q) xs := by
  induction q using List.reverseRecOn with
  | nil => rwa [List.append_nil]
  | append_singleton q x ih =>
    rw [received_append, List.append_eq_nil_iff] at hr
    rw [gotten_append, List.append_eq_nil_iff] at hg
    rw [← List.append_assoc]
    exact (ih hr.1 hg.1).plain hr.2 hg.2

/-- A character is received. -/
theorem received (h : Flow l xs) (c : UInt8) : Flow (l ++ [.received c]) (xs ++ [c]) := by
  have hreceived : Log.received (l ++ [.received c]) = Log.received l ++ [c] := received_append
  have hgotten : gotten (l ++ [.received c]) = gotten l := by
    rw [gotten_append]
    exact List.append_nil _
  apply h.snoc
  · rw [hreceived, hgotten]
    exact (h.early l (List.prefix_refl _)).trans (List.prefix_append _ _)
  · rw [hreceived, hgotten, h.flow, List.append_assoc]

/-- The oldest character is returned. -/
theorem got (h : Flow l (c :: xs)) (t : Nat) : Flow (l ++ [.got t c]) xs := by
  have hreceived : Log.received (l ++ [.got t c]) = Log.received l := by
    rw [received_append]
    exact List.append_nil _
  have hgotten : gotten (l ++ [.got t c]) = gotten l ++ [c] := gotten_append
  apply h.snoc
  · rw [hreceived, hgotten, h.flow]
    exact ⟨xs, by simp⟩
  · rw [hreceived, hgotten, h.flow]
    simp

end Flow

end Log

/-! ### The number of threads -/

theorem Owners.Tiled.threads_length {L : Layout} {W : Owners} (h : W.Tiled L) :
    135 * W.threads.length ≤ L.heap.total := by
  have hthread (ts : List Nat) : ((ts.flatMap W.ofThread).map Prod.snd).sum = 135 * ts.length := by
    induction ts with
    | nil => rfl
    | cons t ts ih =>
      rw [List.flatMap_cons, List.map_append, List.sum_append, ih]
      simp only [ofThread, toBlocks_tcb, toBlocks_stack, toBlocks_sem, List.map_cons, List.map_nil,
        List.sum_cons, List.sum_nil, List.length_cons]
      omega
  have hsum : (W.used.map Prod.snd).sum ≤ L.heap.total := by
    rw [(h.used.map Prod.snd).sum_eq, List.map_map, ← h.valid.size]
    exact Tiling.segs_sum_le true 0 W.tiles
  rw [Owners.used, List.map_cons, List.sum_cons, List.map_append, List.map_append, List.sum_append,
    List.sum_append, hthread] at hsum
  omega

/-- Fewer threads wait than an `int` can count. -/
theorem Valid.waiting_lt {L : Layout} {σ : Spec} {s : Nat} (hv : Valid L σ)
    (hs : s ∈ σ.owners.semaphores L) : (σ.abs.waiting s).length + 1 < 2 ^ 30 := by
  have hnd : (σ.current :: σ.abs.waiting s).Nodup :=
    List.nodup_cons.mpr ⟨hv.not_waiting hs, hv.waiting_nodup hs⟩
  have hsub : σ.current :: σ.abs.waiting s ⊆ σ.owners.tcbs L := by
    intro t ht
    rcases List.mem_cons.mp ht with rfl | ht
    · exact hv.mem_tcbs.mpr (.inl rfl)
    · exact hv.mem_tcbs.mpr (.inr (Valid.queued_waiting hs ht))
  have hlen := (List.subperm_of_subset hnd hsub).length_le
  have hthreads := hv.tiled.threads_length
  have htotal := L.heap.total_lt
  rw [List.length_cons, Owners.tcbs, List.length_cons] at hlen
  omega

/-! ### The threads in calls on the console -/

section Kinds

variable {L : Layout} {σ τ : Spec} {s u : Nat} {c : Cont}

theorem Kinds.aside (hk : Kinds L s σ) (h : Aside L s σ τ) : Kinds L s τ := by
  intro t c hc hsem
  rcases h.away t with heq | ⟨-, hplain⟩
  · exact hk t c (heq ▸ hc) hsem
  · rw [hc] at hplain
    exact absurd hsem hplain

theorem Kinds.same (hk : Kinds L s σ) (h : τ.away L = σ.away L) : Kinds L s τ := by
  intro t c hc
  rw [h] at hc
  exact hk t c hc

/-- A thread goes away in a call of `getc` or `putc`. -/
theorem Kinds.switched (hk : Kinds L s σ)
    (h : τ.away L = Function.update (σ.away L) u (some c)) (hc : c = .reading ∨ ∃ p0, c = .writing p0) :
    Kinds L s τ := by
  intro t d hd hsem
  rw [h] at hd
  by_cases ht : t = u
  · rw [ht, Function.update_self] at hd
    cases hd
    exact hc
  · rw [Function.update_of_ne ht] at hd
    exact hk t d hd hsem

theorem Kinds.resumed (hk : Kinds L s σ) (h : τ.away L = Function.update (σ.away L) u none) :
    Kinds L s τ := by
  intro t d hd hsem
  rw [h] at hd
  by_cases ht : t = u
  · rw [ht, Function.update_self] at hd
    cases hd
  · rw [Function.update_of_ne ht] at hd
    exact hk t d hd hsem

theorem Spec.signal_away (σ : Spec) (u : Nat) : (σ.signal u).away L = σ.away L := by
  obtain ⟨q, hg, -⟩ := σ.signal_adds u
  have hcur : (σ.signal u).current = σ.current := by
    rw [Spec.current, hg]
    rfl
  rw [Spec.signal] at hcur ⊢
  split
  · split <;> exact away_congr rfl rfl rfl rfl
  · exact away_congr rfl rfl rfl rfl

/-- The thread that has been picked, in a call on the console. -/
theorem released_current (hv : Valid L σ) (hr : σ.resuming = true) (hs : s = L.putcSem ∨ s = L.getcSem)
    (hc : (σ.abs.cont σ.current).sem L = some s) : σ.current ∈ σ.released L s := by
  have haway : σ.away L σ.current = some (σ.abs.cont σ.current) :=
    if_pos ⟨hv.mem_tcbs.mpr (.inl rfl), fun _ => hr⟩
  refine ⟨?_, hv.not_waiting (Valid.mem_console hs)⟩
  rw [haway]
  exact hc

/-- The threads that wait on a semaphore of the console. -/
theorem waiting_away (hv : Valid L σ) (hτ : Reasoned L σ) (hs : s = L.putcSem ∨ s = L.getcSem) :
    ∀ t ∈ σ.abs.waiting s, (σ.away L t).bind (Cont.sem L) = some s := by
  intro t ht
  have hmem := Valid.mem_console (σ := σ) hs
  have htcb : t ∈ σ.owners.tcbs L := hv.mem_tcbs.mpr (.inr (Valid.queued_waiting hmem ht))
  have hne : t ≠ σ.current := fun heq => hv.not_waiting hmem (heq ▸ ht)
  rw [away_of_ne htcb hne]
  exact hτ.waiting s hmem t ht

end Kinds

/-! ### Input -/

/-- The buffer holds what has been received and not yet returned, and `getc_sem` counts it. -/
structure Input (L : Layout) (σ : Spec) : Prop where
  kinds : Kinds L L.getcSem σ
  flow : ∃ xs, σ.globals.getcBuffer.IsFifo xs ∧ Log.Flow σ.globals.trace xs ∧
    Pooled L L.getcSem σ xs.length

namespace Input

variable {L : Layout} {σ τ : Spec}

theorem aside (h : Input L σ) (ha : Aside L L.getcSem σ τ) : Input L τ where
  kinds := h.kinds.aside ha
  flow := by
    obtain ⟨xs, hfifo, hflow, hpool⟩ := h.flow
    obtain ⟨q, htrace, hq⟩ := ha.trace
    obtain ⟨hr, hg⟩ := Log.input_nil hq
    refine ⟨xs, ?_, ?_, ha.pooled hpool⟩
    · rw [ha.input rfl]
      exact hfifo
    · rw [htrace]
      exact hflow.append hr hg

/-- A character is taken out of the buffer. -/
theorem take {xs : List UInt8} (hfifo : σ.globals.getcBuffer.IsFifo xs) (hpos : 0 < xs.length)
    {l : List Action} (hflow : Log.Flow l xs) (t : Nat) :
    ∃ ys, ys.length = xs.length - 1 ∧ (σ.globals.getcBuffer.get.2).IsFifo ys ∧
      Log.Flow (l ++ [.got t σ.globals.getcBuffer.get.1]) ys := by
  cases xs with
  | nil => exact absurd hpos (lt_irrefl 0)
  | cons c xs =>
    obtain ⟨hfirst, hrest⟩ := hfifo.get_cons
    refine ⟨xs, rfl, hrest, ?_⟩
    rw [hfirst]
    exact hflow.got t

theorem touches (h : Input L σ) (hv : Valid L σ) (hτ : Reasoned L σ) (ht : Touches L σ L.getcSem τ) :
    Input L τ := by
  obtain ⟨xs, hfifo, hflow, hpool⟩ := h.flow
  have hgetc : L.getcSem = L.putcSem ∨ L.getcSem = L.getcSem := .inr rfl
  generalize hs : L.getcSem = s at ht
  cases ht with
  | read hr hpos =>
    have haway : (σ.pass L.getcSem).take.away L = σ.away L := away_congr rfl rfl rfl rfl
    have hbits : (σ.pass L.getcSem).take.abs.bits L.getcSem = decBits (σ.abs.bits L.getcSem) :=
      Function.update_self ..
    obtain ⟨hlen, hpool'⟩ := hpool.pass hpos hbits rfl haway
    have hwaits := (hflow.plain (x := .waitCalled σ.current L.getcSem) rfl rfl).plain
      (x := .waitReturned σ.current L.getcSem Sem.waitSuccess) rfl rfl
    obtain ⟨ys, hys, hfifo', hflow'⟩ := take hfifo hlen hwaits σ.current
    refine ⟨h.kinds.same haway, ys, hfifo', hflow', ?_⟩
    rw [hys]
    exact hpool'
  | @blockRead hr n x R hneg =>
    have haway : ((σ.block L.getcSem .reading).switch n R x).away L =
        Function.update (σ.away L) σ.current (some .reading) :=
      away_switched (hv.mem_tcbs.mpr (.inl rfl)) rfl rfl rfl
    refine ⟨h.kinds.switched haway (.inl rfl), xs, hfifo, ?_, ?_⟩
    · exact ((hflow.plain (x := .waitCalled σ.current L.getcSem) rfl rfl).plain
        (x := .blocked σ.current L.getcSem) rfl rfl).plain (x := .picked n) rfl rfl
    · exact hpool.block hneg (hv.waiting_lt (Valid.mem_console hgetc)) hr (Function.update_self ..)
        (Function.update_self ..) haway
  | receive hr temp hlen =>
    have hcount : xs.length < ioBufferSize := hfifo.count_eq ▸ hlen
    have hsize : ioBufferSize = 2048 := rfl
    have haway : ((σ.on { σ.globals with getcBuffer := σ.globals.getcBuffer.put temp }).log
        (.received temp)).away L = σ.away L := away_congr rfl rfl rfl rfl
    have hput : Pooled L L.getcSem ((σ.on { σ.globals with
        getcBuffer := σ.globals.getcBuffer.put temp }).log (.received temp)) xs.length := by
      rw [Pooled, Spec.granted, Pooled.released_congr haway rfl]
      exact hpool
    have hwaiting := waiting_away hv hτ hgetc
    have hsignal := hput.signal (by omega) (by rw [haway]; exact hwaiting)
      (hv.waiting_nodup (Valid.mem_console hgetc))
    obtain ⟨q, hg, hq⟩ := Spec.signal_adds ((σ.on { σ.globals with
      getcBuffer := σ.globals.getcBuffer.put temp }).log (.received temp)) L.getcSem
    refine ⟨h.kinds.same ((Spec.signal_away _ _).trans haway), xs ++ [temp], ?_, ?_, ?_⟩
    · rw [Spec.receive, hg]
      exact hfifo.put hcount
    · obtain ⟨hrec, hgot⟩ := Log.input_nil fun x hx => Adds.touches_of_wakes (L := L) (hq x hx)
      rw [Spec.receive, hg]
      exact (hflow.received temp).append hrec hgot
    · rw [List.length_append]
      exact hsignal
  | goOnRead hr hc =>
    have hsem : (σ.abs.cont σ.current).sem L = some L.getcSem := by
      rw [hc]
      rfl
    have hmem := released_current hv hr hgetc hsem
    have hresume : σ.resume L =
        { (σ.reset.afterBlock L.getcSem).take with resuming := false } := by
      simp only [Spec.resume, hc]
    rw [hresume]
    have haway : ({ (σ.reset.afterBlock L.getcSem).take with resuming := false } : Spec).away L =
        Function.update (σ.away L) σ.current none := away_resumed rfl rfl rfl rfl
    obtain ⟨hlen, hpool'⟩ := hpool.take (τ := { (σ.reset.afterBlock L.getcSem).take with
      resuming := false }) hmem rfl rfl haway
    have hwait := hflow.plain (x := .waitReturned σ.current L.getcSem
      (if σ.abs.flag σ.current then Sem.waitFail else Sem.waitSuccess)) rfl rfl
    obtain ⟨ys, hys, hfifo', hflow'⟩ := take hfifo hlen hwait σ.current
    refine ⟨h.kinds.resumed haway, ys, hfifo', hflow', ?_⟩
    rw [hys]
    exact hpool'
  | write | blockWrite | flushChar | goOnWrite => exact absurd hs.symm hv.putc_ne_getc

end Input

/-! ### Output -/

section Calls

variable (σ : Spec) (code p0 s : Nat)

@[simp] theorem Spec.called_current : (σ.called code p0).current = σ.current := rfl

@[simp] theorem Spec.pass_current : (σ.pass s).current = σ.current := rfl

@[simp] theorem Spec.store_current : (σ.store p0).current = σ.current := rfl

@[simp] theorem Spec.called_resuming : (σ.called code p0).resuming = σ.resuming := rfl

@[simp] theorem Spec.pass_resuming : (σ.pass s).resuming = σ.resuming := rfl

@[simp] theorem Spec.store_resuming : (σ.store p0).resuming = σ.resuming := rfl

@[simp] theorem Spec.called_console : (σ.called code p0).globals.console = σ.globals.console := rfl

@[simp] theorem Spec.pass_console : (σ.pass s).globals.console = σ.globals.console := rfl

@[simp] theorem Spec.store_console : (σ.store p0).globals.console = σ.globals.console := rfl

@[simp] theorem Spec.block_console (c : Cont) : (σ.block s c).globals.console = σ.globals.console :=
  rfl

@[simp] theorem Spec.switch_console (R : List Nat) (x : Nat) :
    (σ.switch s R x).globals.console = σ.globals.console := rfl

@[simp] theorem Spec.called_putcBuffer :
    (σ.called code p0).globals.putcBuffer = σ.globals.putcBuffer := rfl

@[simp] theorem Spec.block_putcBuffer (c : Cont) :
    (σ.block s c).globals.putcBuffer = σ.globals.putcBuffer := rfl

@[simp] theorem Spec.switch_putcBuffer (R : List Nat) (x : Nat) :
    (σ.switch s R x).globals.putcBuffer = σ.globals.putcBuffer := rfl

end Calls

/-- The character with which a thread has called `putc` that goes on there. -/
def Cont.char : Option Cont → List UInt8
  | some (.writing p0) => [UInt8.ofNat p0]
  | _ => []

theorem Plain.char {L : Layout} {o : Option Cont} (h : Plain L L.putcSem o) : Cont.char o = [] := by
  cases o with
  | none => rfl
  | some c =>
    cases c with
    | writing p0 => exact absurd rfl h
    | _ => rfl

/-- The console and the buffer have the characters that have been stored, `putc_sem` counts the free
places, and each thread has stored what it has called `putc` with. -/
structure Output (L : Layout) (σ : Spec) : Prop where
  kinds : Kinds L L.putcSem σ
  flow : ∃ xs, σ.globals.putcBuffer.IsFifo xs ∧
    Log.stored σ.globals.trace = σ.globals.console ++ xs ∧
    Pooled L L.putcSem σ (ioBufferSize - xs.length)
  order : ∀ t, Log.putcs t σ.globals.trace =
    Log.storedBy t σ.globals.trace ++ Cont.char (σ.away L t)

namespace Output

variable {L : Layout} {σ τ : Spec}

theorem aside (h : Output L σ) (ha : Aside L L.putcSem σ τ) : Output L τ where
  kinds := h.kinds.aside ha
  flow := by
    obtain ⟨xs, hfifo, hflow, hpool⟩ := h.flow
    obtain ⟨q, htrace, hq⟩ := ha.trace
    obtain ⟨hbuffer, hconsole⟩ := ha.output rfl
    refine ⟨xs, ?_, ?_, ha.pooled hpool⟩
    · rw [hbuffer]
      exact hfifo
    · rw [htrace, hconsole, Log.stored_append, (Log.output_nil hq 0).1, List.append_nil]
      exact hflow
  order t := by
    obtain ⟨q, htrace, hq⟩ := ha.trace
    obtain ⟨-, hby, hputcs⟩ := Log.output_nil hq t
    have hchar : Cont.char (τ.away L t) = Cont.char (σ.away L t) := by
      rcases ha.away t with heq | ⟨hσ, hτ⟩
      · rw [heq]
      · rw [hσ.char, hτ.char]
    rw [htrace, Log.putcs_append, Log.storedBy_append, hby, hputcs, List.append_nil, List.append_nil,
      hchar]
    exact h.order t

/-- The calls of `putc` that the actions `q` are about. -/
theorem order_append (h : Output L σ) {q : List Action} (htrace : τ.globals.trace = σ.globals.trace ++ q)
    (hq : ∀ t, Cont.char (σ.away L t) ++ Log.putcs t q = Log.storedBy t q ++ Cont.char (τ.away L t))
    (t : Nat) : Log.putcs t τ.globals.trace =
      Log.storedBy t τ.globals.trace ++ Cont.char (τ.away L t) := by
  rw [htrace, Log.putcs_append, Log.storedBy_append, h.order t, List.append_assoc, hq t,
    List.append_assoc]

/-- A character is stored, for which there is room. -/
theorem of_store (h : Output L σ) {q : List Action} {c : UInt8} (hkinds : Kinds L L.putcSem τ)
    (hpool : ∀ units, Pooled L L.putcSem σ units → 0 < units ∧ Pooled L L.putcSem τ (units - 1))
    (hbuffer : τ.globals.putcBuffer = σ.globals.putcBuffer.put c)
    (hconsole : τ.globals.console = σ.globals.console)
    (htrace : τ.globals.trace = σ.globals.trace ++ q) (hc : Log.stored q = [c])
    (hq : ∀ t, Cont.char (σ.away L t) ++ Log.putcs t q = Log.storedBy t q ++ Cont.char (τ.away L t)) :
    Output L τ := by
  obtain ⟨xs, hfifo, hflow, hunits⟩ := h.flow
  obtain ⟨hpos, hpool'⟩ := hpool _ hunits
  have hlen : ioBufferSize - (xs ++ [c]).length = ioBufferSize - xs.length - 1 := by
    rw [List.length_append, List.length_singleton]
    omega
  refine ⟨hkinds, ⟨xs ++ [c], ?_, ?_, ?_⟩, h.order_append htrace hq⟩
  · rw [hbuffer]
    exact hfifo.put (by omega)
  · rw [htrace, Log.stored_append, hflow, hc, hconsole, List.append_assoc]
  · rw [hlen]
    exact hpool'

theorem write (h : Output L σ) (hr : σ.resuming = false) (p0 : Nat)
    (hpos : 0 ≤ toInt (decBits (σ.abs.bits L.putcSem))) :
    Output L (((σ.called 0x42 p0).pass L.putcSem).store p0) := by
  have haway : (((σ.called 0x42 p0).pass L.putcSem).store p0).away L = σ.away L :=
    away_congr rfl (by simp) (by simp) rfl
  have hbits : (((σ.called 0x42 p0).pass L.putcSem).store p0).abs.bits L.putcSem =
      decBits (σ.abs.bits L.putcSem) := Function.update_self ..
  have htrace : (((σ.called 0x42 p0).pass L.putcSem).store p0).globals.trace =
      σ.globals.trace ++ [.called σ.current 0x42 p0, .waitCalled σ.current L.putcSem,
        .waitReturned σ.current L.putcSem Sem.waitSuccess, .stored σ.current (UInt8.ofNat p0)] := by
    change (((σ.globals.trace ++ [_]) ++ [_]) ++ [_]) ++ [_] = _
    simp only [List.append_assoc, List.cons_append, List.nil_append]
    rfl
  have hwaiting : (((σ.called 0x42 p0).pass L.putcSem).store p0).abs.waiting L.putcSem =
      σ.abs.waiting L.putcSem := rfl
  have hpool (units : Nat) (hp : Pooled L L.putcSem σ units) : 0 < units ∧
      Pooled L L.putcSem (((σ.called 0x42 p0).pass L.putcSem).store p0) (units - 1) :=
    hp.pass hpos hbits hwaiting haway
  have hbuffer : (((σ.called 0x42 p0).pass L.putcSem).store p0).globals.putcBuffer =
      σ.globals.putcBuffer.put (UInt8.ofNat p0) := rfl
  have hconsole : (((σ.called 0x42 p0).pass L.putcSem).store p0).globals.console =
      σ.globals.console := by simp
  apply h.of_store (h.kinds.same haway) hpool hbuffer hconsole htrace rfl
  intro t
  rw [haway]
  by_cases ht : σ.current = t
  · rw [← ht, away_current hr]
    simp [Log.putcs, Log.storedBy, Cont.char]
  · simp [Log.putcs, Log.storedBy, ht]

theorem blockWrite (h : Output L σ) (hv : Valid L σ) (hr : σ.resuming = false) (p0 : Nat) {n x : Nat}
    {R : List Nat} (hneg : toInt (decBits (σ.abs.bits L.putcSem)) < 0) :
    Output L (((σ.called 0x42 p0).block L.putcSem (.writing p0)).switch n R x) := by
  have haway : (((σ.called 0x42 p0).block L.putcSem (.writing p0)).switch n R x).away L =
      Function.update (σ.away L) σ.current (some (.writing p0)) :=
    away_switched (hv.mem_tcbs.mpr (.inl rfl)) rfl rfl rfl
  have hbits : (((σ.called 0x42 p0).block L.putcSem (.writing p0)).switch n R x).abs.bits L.putcSem =
      decBits (σ.abs.bits L.putcSem) := Function.update_self ..
  have hwait : (((σ.called 0x42 p0).block L.putcSem (.writing p0)).switch n R x).abs.waiting L.putcSem =
      σ.abs.waiting L.putcSem ++ [σ.current] := Function.update_self ..
  have htrace : (((σ.called 0x42 p0).block L.putcSem (.writing p0)).switch n R x).globals.trace =
      σ.globals.trace ++ [.called σ.current 0x42 p0, .waitCalled σ.current L.putcSem,
        .blocked σ.current L.putcSem, .picked n] := by
    change (((σ.globals.trace ++ [_]) ++ [_]) ++ [_]) ++ [_] = _
    simp only [List.append_assoc, List.cons_append, List.nil_append]
    rfl
  have hlen := hv.waiting_lt (Valid.mem_console (.inl rfl))
  obtain ⟨xs, hfifo, hflow, hpool⟩ := h.flow
  have hpool' := hpool.block hneg hlen hr hbits hwait haway
  refine ⟨h.kinds.switched haway (.inr ⟨p0, rfl⟩), ⟨xs, ?_, ?_, hpool'⟩,
    h.order_append htrace fun t => ?_⟩
  · simpa using hfifo
  · rw [htrace, Log.stored_append, hflow]
    simp [Log.stored]
  · rw [haway]
    by_cases ht : σ.current = t
    · rw [← ht, away_current hr, Function.update_self]
      simp [Log.putcs, Log.storedBy, Cont.char]
    · rw [Function.update_of_ne (Ne.symm ht)]
      simp [Log.putcs, Log.storedBy, ht]

theorem goOn (h : Output L σ) (hv : Valid L σ) (hr : σ.resuming = true) (p0 : Nat)
    (hc : σ.abs.cont σ.current = .writing p0) :
    Output L { (σ.reset.afterBlock L.putcSem).store p0 with resuming := false } := by
  have hsem : (σ.abs.cont σ.current).sem L = some L.putcSem := by
    rw [hc]
    rfl
  have hreleased := released_current hv hr (.inl rfl) hsem
  have hchar : σ.away L σ.current = some (.writing p0) := by
    rw [← hc]
    exact if_pos ⟨hv.mem_tcbs.mpr (.inl rfl), fun _ => hr⟩
  have haway : ({ (σ.reset.afterBlock L.putcSem).store p0 with resuming := false } : Spec).away L =
      Function.update (σ.away L) σ.current none := away_resumed rfl rfl rfl rfl
  have htrace : ({ (σ.reset.afterBlock L.putcSem).store p0 with
      resuming := false } : Spec).globals.trace = σ.globals.trace ++
      [.waitReturned σ.current L.putcSem (if σ.abs.flag σ.current then Sem.waitFail else
        Sem.waitSuccess), .stored σ.current (UInt8.ofNat p0)] := by
    change (σ.globals.trace ++ [_]) ++ [_] = _
    simp only [List.append_assoc, List.cons_append, List.nil_append]
    rfl
  have hpool (units : Nat) (hp : Pooled L L.putcSem σ units) : 0 < units ∧
      Pooled L L.putcSem { (σ.reset.afterBlock L.putcSem).store p0 with resuming := false }
        (units - 1) :=
    hp.take hreleased rfl rfl haway
  have hbuffer : ({ (σ.reset.afterBlock L.putcSem).store p0 with
      resuming := false } : Spec).globals.putcBuffer = σ.globals.putcBuffer.put (UInt8.ofNat p0) := rfl
  have hconsole : ({ (σ.reset.afterBlock L.putcSem).store p0 with
      resuming := false } : Spec).globals.console = σ.globals.console := rfl
  apply h.of_store (h.kinds.resumed haway) hpool hbuffer hconsole htrace rfl
  intro t
  rw [haway]
  by_cases ht : σ.current = t
  · rw [← ht, hchar, Function.update_self]
    simp [Log.putcs, Log.storedBy, Cont.char]
  · rw [Function.update_of_ne (Ne.symm ht)]
    simp [Log.putcs, Log.storedBy, ht]

/-- The flush thread writes the oldest character to the console. -/
theorem flushChar (h : Output L σ) (hv : Valid L σ) (hτ : Reasoned L σ)
    (hcount : 0 < σ.globals.putcBuffer.count) : Output L (σ.flushChar L) := by
  obtain ⟨xs, hfifo, hflow, hpool⟩ := h.flow
  rw [hfifo.count_eq] at hcount
  obtain ⟨c, ys, rfl⟩ := List.exists_cons_of_length_pos hcount
  obtain ⟨hfirst, hrest⟩ := hfifo.get_cons
  have hsize : ioBufferSize = 2048 := rfl
  have hle : ys.length + 1 ≤ ioBufferSize := hfifo.length_le
  have haway : (σ.on { σ.globals with
      putcBuffer := σ.globals.putcBuffer.get.2
      console := σ.globals.console ++ [σ.globals.putcBuffer.get.1] }).away L = σ.away L :=
    away_congr rfl rfl rfl rfl
  have hget : Pooled L L.putcSem (σ.on { σ.globals with
      putcBuffer := σ.globals.putcBuffer.get.2
      console := σ.globals.console ++ [σ.globals.putcBuffer.get.1] })
      (ioBufferSize - (c :: ys).length) := by
    rw [Pooled, Spec.granted, Pooled.released_congr haway rfl]
    exact hpool
  have hwaiting := waiting_away hv hτ (.inl rfl)
  have hsignal := hget.signal (by omega) (by rw [haway]; exact hwaiting)
    (hv.waiting_nodup (Valid.mem_console (.inl rfl)))
  have hunits : ioBufferSize - (c :: ys).length + 1 = ioBufferSize - ys.length := by
    rw [List.length_cons]
    omega
  have haway' : (σ.flushChar L).away L = σ.away L := (Spec.signal_away _ _).trans haway
  obtain ⟨q, hg, hq⟩ := Spec.signal_adds (σ.on { σ.globals with
    putcBuffer := σ.globals.putcBuffer.get.2
    console := σ.globals.console ++ [σ.globals.putcBuffer.get.1] }) L.putcSem
  have hnil := Log.output_nil (L := L) fun x hx => Adds.touches_of_wakes (hq x hx)
  have htrace : (σ.flushChar L).globals.trace = σ.globals.trace ++ q := by
    rw [Spec.flushChar, hg]
    rfl
  refine ⟨h.kinds.same haway', ⟨ys, ?_, ?_, ?_⟩, h.order_append htrace fun t => ?_⟩
  · rw [Spec.flushChar, hg]
    exact hrest
  · rw [htrace, Log.stored_append, (hnil 0).1, List.append_nil, hflow, Spec.flushChar, hg]
    change _ = (σ.globals.console ++ [σ.globals.putcBuffer.get.1]) ++ ys
    rw [hfirst, List.append_assoc]
    rfl
  · rw [← hunits]
    exact hsignal
  · rw [haway', (hnil t).2.1, (hnil t).2.2]
    exact List.append_nil _

theorem touches (h : Output L σ) (hv : Valid L σ) (hτ : Reasoned L σ) (ht : Touches L σ L.putcSem τ) :
    Output L τ := by
  generalize hs : L.putcSem = s at ht
  cases ht with
  | write hr p0 hpos => exact h.write hr p0 hpos
  | blockWrite hr p0 hneg => exact h.blockWrite hv hr p0 hneg
  | flushChar hr hlen => exact h.flushChar hv hτ hlen
  | goOnWrite hr p0 hc =>
    have hresume : σ.resume L = { (σ.reset.afterBlock L.putcSem).store p0 with resuming := false } := by
      simp only [Spec.resume, hc]
    rw [hresume]
    exact h.goOn hv hr p0 hc
  | read | blockRead | receive | goOnRead => exact absurd hs hv.putc_ne_getc

end Output

end Os1Kernel
