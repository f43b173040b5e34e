import Mathlib.Data.List.Induction
import Os1Kernel.Threads.Ledger

/-! What holds of a log that an account can be kept of. -/

namespace Os1Kernel

open Refine

namespace Log

variable {s t : Nat} {x : Action} {k l : List Action}

theorem waits_append : waits s (k ++ l) = waits s k + waits s l := List.countP_append

theorem signals_append : signals s (k ++ l) = signals s k + signals s l := List.countP_append

theorem blocked_append : blocked s (k ++ l) = blocked s k ++ blocked s l := List.filterMap_append

theorem released_append : released s (k ++ l) = released s k ++ released s l := List.filterMap_append

theorem readied_append : readied (k ++ l) = readied k ++ readied l := List.filterMap_append

theorem picked_append : picked (k ++ l) = picked k ++ picked l := List.filterMap_append

end Log

theorem Account.read_counts (s : Nat) (A : Account) (x : Action) : (A.read s x).init = A.init ∧
    (A.read s x).waits = A.waits + Log.waits s [x] ∧
    (A.read s x).signals = A.signals + Log.signals s [x] := by
  cases x <;> simp only [Account.read, Log.waits, Log.signals, List.countP_cons, List.countP_nil] <;>
    split <;> simp_all

namespace Ledger

variable {K K' : Ledger} {s t u v : Nat} {A : Account} {x : Action} {k l : List Action}
  {closing : Option Nat} {code : Int}

/-! ### One semaphore -/

/-- An action that says nothing about semaphores. -/
theorem plain_counts (h : x.plain = true) (s : Nat) : Log.waits s [x] = 0 ∧ Log.blocked s [x] = [] ∧
    Log.released s [x] = [] ∧ ∀ A : Account, A.read s x = A := by
  cases x <;> first | exact ⟨rfl, rfl, rfl, fun _ => rfl⟩ | cases h

theorem Reads.suspended (h : Reads K x K') (hs : K.sem s = some A) :
    A.suspended ++ Log.blocked s [x] = Log.released s [x] ++ (A.read s x).suspended := by
  cases h with
  | @blocked t u => by_cases hu : u = s <;> simp [Log.blocked, Log.released, Account.read, hu]
  | @released t u B R hd hB hq =>
    by_cases hu : u = s
    · subst hu
      obtain rfl := Option.some.inj (hs.symm.trans hB)
      simp [Log.blocked, Log.released, Account.read, hq]
    · simp [Log.blocked, Log.released, Account.read, hu]
  | @failed t u B R hd hB hq =>
    by_cases hu : u = s
    · subst hu
      obtain rfl := Option.some.inj (hs.symm.trans hB)
      simp [Log.blocked, Log.released, Account.read, hq]
    · simp [Log.blocked, Log.released, Account.read, hu]
  | @waitCalled t u => by_cases hu : u = s <;> simp [Log.blocked, Log.released, Account.read, hu]
  | @signalled u => by_cases hu : u = s <;> simp [Log.blocked, Log.released, Account.read, hu]
  | @woke u => by_cases hu : u = s <;> simp [Log.blocked, Log.released, Account.read, hu]
  | plain hd hp =>
    obtain ⟨-, hblocked, hreleased, hread⟩ := plain_counts hp s
    rw [hblocked, hreleased, hread, List.append_nil, List.nil_append]
  | _ => simp [Log.blocked, Log.released, Account.read]

/-- The account of a semaphore that is not freed. -/
theorem runs_sem (h : Runs Reads K l K') (hs : K.sem s = some A)
    (hl : .freed s MemoryAllocator.memSuccess ∉ l) : ∃ A', K'.sem s = some A' ∧ A'.init = A.init ∧
      A'.waits = A.waits + Log.waits s l ∧ A'.signals = A.signals + Log.signals s l ∧
      A.suspended ++ Log.blocked s l = Log.released s l ++ A'.suspended := by
  induction l generalizing K A with
  | nil =>
    cases h
    exact ⟨A, hs, rfl, rfl, rfl, by simp [Log.blocked, Log.released]⟩
  | cons x l ih =>
    obtain ⟨K₁, hx, h⟩ := h
    rw [List.mem_cons, not_or] at hl
    have hsem := hx.sem hs (Ne.symm hl.1)
    obtain ⟨A', hA', hinit, hwaits, hsignals, hsusp⟩ := ih h hsem hl.2
    obtain ⟨hi, hw, hg⟩ := A.read_counts s x
    have hq := hx.suspended hs
    refine ⟨A', hA', hinit.trans hi, ?_, ?_, ?_⟩
    · rw [hwaits, hw, ← List.singleton_append (l := l), Log.waits_append, Nat.add_assoc]
    · rw [hsignals, hg, ← List.singleton_append (l := l), Log.signals_append, Nat.add_assoc]
    · rw [← List.singleton_append (l := l), Log.blocked_append, Log.released_append,
        ← List.append_assoc, hq, List.append_assoc, hsusp, List.append_assoc]

/-- The account of a semaphore since its initialisation. -/
theorem runs_initialized (h : Runs Reads K (k ++ .initialized s v :: l) K')
    (hl : .freed s MemoryAllocator.memSuccess ∉ l) : ∃ A, K'.sem s = some A ∧ A.init = v ∧
      A.waits = Log.waits s l ∧ A.signals = Log.signals s l ∧
      Log.blocked s l = Log.released s l ++ A.suspended := by
  obtain ⟨K₁, -, K₂, hx, h⟩ := runs_append.mp h
  have hsem : K₂.sem s = some (.opened v) := by
    cases hx with
    | initialized => exact setSem_same _ _ _
    | plain _ hp => cases hp
  obtain ⟨A, hA, hinit, hwaits, hsignals, hsusp⟩ := runs_sem h hsem hl
  refine ⟨A, hA, hinit, ?_, ?_, hsusp⟩
  · rw [hwaits]
    exact Nat.zero_add _
  · rw [hsignals]
    exact Nat.zero_add _

theorem runs_sound (h : Runs Reads empty l K) (s : Nat) : K.Sound s :=
  h.inv (fun _ _ _ hx hs => hx.sound hs) (sound_empty s)

/-- Only a thread that has called `wait` is suspended. -/
theorem Reads.blocked_le (h : Reads K x K') (s : Nat) :
    (Log.blocked s [x]).length + K'.waiting s ≤ Log.waits s [x] + K.waiting s := by
  cases h with
  | @waitCalled t u =>
    by_cases hu : u = s <;> simp [Log.blocked, Log.waits, Ledger.waiting, setDue, hu]
  | @blocked t u A hd =>
    by_cases hu : u = s <;> simp [Log.blocked, Log.waits, Ledger.waiting, setDue, hd, hu]
  | passed | woke | released | failed | terminated | freedTcb =>
    simp [Log.blocked, Log.waits, Ledger.waiting, setDue]
  | @freedSem u => cases K.owner u <;> simp [Log.blocked, Log.waits, Ledger.waiting, Due.dropped]
  | @followed t c =>
    cases c <;> simp [Log.blocked, Log.waits, Ledger.waiting, Due.after]
  | plain hd hp =>
    obtain ⟨hwaits, hblocked, -⟩ := plain_counts hp s
    rw [hwaits, hblocked, List.length_nil]
  | _ => simp [Log.blocked, Log.waits, Ledger.waiting, setSem, setStanding]

theorem runs_blocked_le (h : Runs Reads K l K') (s : Nat) :
    (Log.blocked s l).length + K'.waiting s ≤ Log.waits s l + K.waiting s := by
  induction l generalizing K with
  | nil =>
    cases h
    simp [Log.blocked, Log.waits]
  | cons x l ih =>
    obtain ⟨K₁, hx, h⟩ := h
    have hle := hx.blocked_le s
    have hrest := ih h
    rw [← List.singleton_append (l := l), Log.blocked_append, Log.waits_append, List.length_append]
    omega

/-! ### What an action is followed by -/

/-- How each kind of action changes what is due. -/
inductive Moves (owner : Nat → Option Nat) : Due → Action → Due → Prop
  | idle (x : Action) : Moves owner .nothing x .nothing
  | wait (t s : Nat) : Moves owner .nothing (.waitCalled t s) (.wait t s)
  | waited (t s : Nat) (x : Action) : Moves owner (.wait t s) x .nothing
  | signal (s : Nat) : Moves owner .nothing (.signalled s) (.release s)
  | release (t s : Nat) : Moves owner (.release s) (.released t s false) (.ready t none)
  | fail (t s : Nat) : Moves owner .nothing (.released t s true) (.ready t (some s))
  | failNext (t s : Nat) : Moves owner (.close s) (.released t s true) (.ready t (some s))
  | follow (t : Nat) {closing : Option Nat} {d : Due} (h : d = .after closing) :
      Moves owner (.ready t closing) (.readied t) d
  | terminate (t s : Nat) : Moves owner .nothing (.terminated t) (.close s)
  | freeSem (s : Nat) {d : Due} (h : d = .dropped (owner s)) :
      Moves owner .nothing (.freed s MemoryAllocator.memSuccess) d
  | freeClosed (s : Nat) {d : Due} (h : d = .dropped (owner s)) :
      Moves owner (.close s) (.freed s MemoryAllocator.memSuccess) d
  | freeTcb (t : Nat) : Moves owner (.drop t) (.freed t MemoryAllocator.memSuccess) .nothing
  | freeOther (s a : Nat) (code : Int) : Moves owner (.close s) (.freed a code) (.close s)

theorem Reads.moves (h : Reads K x K') : Moves K.owner K.due x K'.due := by
  cases h with
  | waitCalled hd => exact hd ▸ .wait _ _
  | blocked hd | passed hd => exact hd ▸ .waited _ _ _
  | woke hd => exact hd ▸ .signal _
  | released hd => exact hd ▸ .release _ _
  | failed hd =>
    rcases hd with ⟨hd, -⟩ | hd
    · exact hd ▸ .fail _ _
    · exact hd ▸ .failNext _ _
  | followed hd => exact hd ▸ .follow _ rfl
  | terminated hd => exact hd ▸ .terminate _ _
  | freedSem hd =>
    rcases hd with ⟨hd, -⟩ | hd
    · exact hd ▸ .freeSem _ rfl
    · exact hd ▸ .freeClosed _ rfl
  | freedTcb hd => exact hd ▸ .freeTcb _
  | freed hd =>
    rcases hd with hd | ⟨s, hd⟩
    · rw [hd]
      exact .idle _
    · rw [hd]
      exact .freeOther _ _ _
  | initialized hd | resumed hd | signalled hd | readied hd | picked hd | created hd | plain hd =>
    change Moves K.owner K.due _ K.due
    rw [hd]
    exact .idle _

theorem Reads.of_ready (h : Reads K x K') (hd : K.due = .ready t closing) :
    x = .readied t ∧ K'.due = .after closing := by
  have hmoves := h.moves
  rw [hd] at hmoves
  generalize K'.due = d at hmoves
  cases hmoves with
  | follow _ hafter => exact ⟨rfl, hafter⟩

theorem Reads.of_release (h : Reads K x K') (hd : K.due = .release s) :
    ∃ t A R, x = .released t s false ∧ K'.due = .ready t none ∧ K.sem s = some A ∧
      A.suspended = t :: R := by
  have hmoves := h.moves
  rw [hd] at hmoves
  generalize K'.due = d at hmoves
  cases hmoves with
  | release t _ =>
  cases h with
  | released _ hs hq => exact ⟨t, _, _, rfl, rfl, hs, hq⟩
  | plain _ hp => cases hp

/-- What belongs to the end of the semaphore `s`. -/
inductive Ends (s : Nat) : Action → Prop
  | released (t : Nat) : Ends s (.released t s true)
  | readied (t : Nat) : Ends s (.readied t)
  | freed (a : Nat) (code : Int) : Ends s (.freed a code)

theorem Reads.of_close (h : Reads K x K') (hd : K.due = .close s) :
    x = .freed s MemoryAllocator.memSuccess ∧ K'.due = .dropped (K.owner s) ∨
      Ends s x ∧ K'.Closing s ∧ K'.owner s = K.owner s := by
  have hmoves := h.moves
  rw [hd] at hmoves
  generalize hd' : K'.due = d at hmoves
  cases hmoves with
  | failNext t _ =>
    refine .inr ⟨.released t, .inr ⟨t, hd'⟩, ?_⟩
    cases h with
    | failed => rfl
    | plain => rfl
  | freeClosed _ hdropped => exact .inl ⟨rfl, hdropped⟩
  | freeOther _ a code =>
    refine .inr ⟨.freed a code, .inl hd', ?_⟩
    cases h with
    | freed | freedTcb | plain => rfl
    | freedSem => cases hown : K.owner a <;> simp [Due.dropped, hown] at hd'

/-- A semaphore is freed when no thread is suspended on it. -/
theorem Reads.of_freed (h : Reads K (.freed s MemoryAllocator.memSuccess) K') (hs : K.sem s = some A) :
    A.suspended = [] ∧ K'.due = .dropped (K.owner s) := by
  cases h with
  | freedSem hd hB hq =>
    obtain rfl := Option.some.inj (hs.symm.trans hB)
    exact ⟨hq, rfl⟩
  | freedTcb hd hnone =>
    rw [hs] at hnone
    cases hnone
  | freed hd ha =>
    rw [(ha rfl).1] at hs
    cases hs
  | plain _ hp => cases hp

/-- Once one of its threads is released with an error a semaphore is closed and freed. -/
theorem runs_closing (h : Runs Reads K l K') (hc : K.Closing s) (hd : K'.due = .nothing) :
    ∃ m r, l = m ++ .freed s MemoryAllocator.memSuccess :: r ∧ ∀ x ∈ m, Ends s x := by
  induction l generalizing K with
  | nil =>
    cases h
    rcases hc with hc | ⟨_, hc⟩ <;> rw [hd] at hc <;> cases hc
  | cons x l ih =>
    obtain ⟨K₁, hx, h⟩ := h
    rcases hc with hc | ⟨t, hc⟩
    · rcases hx.of_close hc with ⟨rfl, -⟩ | ⟨hends, hc', -⟩
      · exact ⟨[], l, rfl, by simp⟩
      · obtain ⟨m, r, rfl, hm⟩ := ih h hc'
        exact ⟨x :: m, r, rfl, List.forall_mem_cons.mpr ⟨hends, hm⟩⟩
    · obtain ⟨rfl, hd'⟩ := hx.of_ready hc
      obtain ⟨m, r, rfl, hm⟩ := ih h (.inl hd')
      exact ⟨.readied t :: m, r, rfl, List.forall_mem_cons.mpr ⟨.readied t, hm⟩⟩

/-- A thread that has been released becomes ready at once. -/
theorem runs_ready (h : Runs Reads K l K') (hc : K.due = .ready t closing) (hd : K'.due = .nothing) :
    ∃ r, l = .readied t :: r := by
  cases l with
  | nil =>
    cases h
    rw [hd] at hc
    cases hc
  | cons x l =>
    obtain ⟨K₁, hx, -⟩ := h
    exact ⟨l, by rw [(hx.of_ready hc).1]⟩

/-! ### What an action follows -/

theorem Reads.due_wait (h : Reads K x K') (hd : K'.due = .wait t s) : x = .waitCalled t s := by
  have hmoves := h.moves
  rw [hd] at hmoves
  generalize K.due = d at hmoves
  cases hmoves with
  | wait => rfl
  | @follow _ closing _ hafter => cases closing <;> cases hafter
  | freeSem u hdropped | freeClosed u hdropped =>
    cases hown : K.owner u <;> simp [Due.dropped, hown] at hdropped

theorem Reads.due_release (h : Reads K x K') (hd : K'.due = .release s) : x = .signalled s := by
  have hmoves := h.moves
  rw [hd] at hmoves
  generalize K.due = d at hmoves
  cases hmoves with
  | signal => rfl
  | @follow _ closing _ hafter => cases closing <;> cases hafter
  | freeSem u hdropped | freeClosed u hdropped =>
    cases hown : K.owner u <;> simp [Due.dropped, hown] at hdropped

/-- The last action of a log after which something is due. -/
theorem runs_last (h : Runs Reads empty l K) (hd : K.due ≠ .nothing) :
    ∃ k x K₁, l = k ++ [x] ∧ Runs Reads empty k K₁ ∧ Reads K₁ x K := by
  rcases List.eq_nil_or_concat l with rfl | ⟨k, x, rfl⟩
  · exact absurd (h ▸ rfl) hd
  · rw [List.concat_eq_append] at h
    obtain ⟨K₁, hk, K₂, hx, rfl⟩ := runs_append.mp h
    exact ⟨k, x, K₁, List.concat_eq_append, hk, hx⟩

/-! ### The threads that wait -/

/-- A thread that calls `wait` is in no other wait. -/
def Free (K : Ledger) : Prop := ∀ t s, K.due = .wait t s → K.standing t = .free

theorem Reads.free (h : Reads K x K') : K'.Free := by
  intro t s hd
  have hx := h.due_wait hd
  cases h with
  | waitCalled hd' hs ht =>
    cases hd
    exact ht
  | plain hd' =>
    rw [hd] at hd'
    cases hd'
  | _ => cases hx

theorem Reads.standing (h : Reads K x K') (hK : K.Free) (t : Nat) :
    K'.standing t = Log.stand t (K.standing t) x := by
  cases h with
  | @blocked u =>
    by_cases hu : t = u
    · simp [Log.stand, setStanding, setDue, hu]
    · simp [Log.stand, setStanding, setDue, setSem, hu, Ne.symm hu]
  | @passed u s A hd =>
    by_cases hu : u = t
    · have hfree := hK u s hd
      rw [hu] at hfree
      simp [Log.stand, setDue, hu, hfree]
    · simp [Log.stand, setDue, hu]
  | @resumed u =>
    by_cases hu : t = u
    · simp [Log.stand, setStanding, hu]
    · simp [Log.stand, setStanding, hu, Ne.symm hu]
  | @released u =>
    by_cases hu : t = u
    · simp [Log.stand, setStanding, setDue, hu]
    · simp [Log.stand, setStanding, setDue, setSem, hu, Ne.symm hu]
  | @failed u =>
    by_cases hu : t = u
    · simp [Log.stand, setStanding, setDue, hu]
    · simp [Log.stand, setStanding, setDue, setSem, hu, Ne.symm hu]
  | plain hd hp => cases x <;> first | rfl | cases hp
  | _ => rfl

theorem runs_standing (h : Runs Reads empty l K) : K.Free ∧ ∀ t, K.standing t = Log.standing t l := by
  induction l using List.reverseRecOn generalizing K with
  | nil =>
    cases h
    refine ⟨fun t s hd => ?_, fun _ => rfl⟩
    cases hd
  | append_singleton l x ih =>
    obtain ⟨K₁, hl, K₂, hx, rfl⟩ := runs_append.mp h
    obtain ⟨hfree, hst⟩ := ih hl
    refine ⟨hx.free, fun t => ?_⟩
    rw [hx.standing hfree t, hst t, Log.standing, Log.standing, List.foldl_append]
    rfl

/-! ### The ready threads -/

theorem runs_readied (h : Runs Reads K l K') :
    K.ready ++ Log.readied l = Log.picked l ++ K'.ready := by
  induction l generalizing K with
  | nil =>
    cases h
    simp [Log.readied, Log.picked]
  | cons x l ih =>
    obtain ⟨K₁, hx, h⟩ := h
    rw [← List.singleton_append (l := l), Log.readied_append, Log.picked_append, ← List.append_assoc, hx.ready,
      List.append_assoc, ih h, List.append_assoc]

theorem runs_nodup (h : Runs Reads empty l K) : K.ready.Nodup :=
  h.inv (fun _ _ _ hx hn => hx.ready_nodup hn) List.nodup_nil

theorem Reads.picked_ne (h : Reads K x K') (ht : t ∈ Log.picked [x]) : t ≠ 0 := by
  cases h with
  | picked hd hr h0 =>
    have heq : t = _ := List.mem_singleton.mp ht
    exact heq ▸ h0
  | plain hd hp =>
    rw [(plain_ready hp).2] at ht
    exact absurd ht List.not_mem_nil
  | _ => exact absurd ht List.not_mem_nil

/-- The scheduler never hands out null. -/
theorem runs_picked (h : Runs Reads K l K') (ht : t ∈ Log.picked l) : t ≠ 0 := by
  induction l generalizing K with
  | nil => exact absurd ht List.not_mem_nil
  | cons x l ih =>
    obtain ⟨K₁, hx, h⟩ := h
    rw [← List.singleton_append (l := l), Log.picked_append] at ht
    exact (List.mem_append.mp ht).elim hx.picked_ne (ih h)

end Ledger

end Os1Kernel
