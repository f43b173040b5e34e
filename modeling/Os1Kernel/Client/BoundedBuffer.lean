import Os1Kernel.Client.Buffer

/-! The bounded buffer loses no item and invents none, and wakes every thread that can go on. -/

namespace Os1Kernel.Client

/-! ### The semaphores count -/

/-- With `n` items in the buffer, each semaphore has the units that the threads do not hold, and its
queue has the threads that are suspended there. -/
structure Locks (U : Console.Users) (cap n : Nat) (B : State) : Prop where
  users : ∀ t, t ∉ U.threads → B.place t = .runs .outside
  queue : ∀ g t, t ∈ (B.sem g).suspended ↔ ∃ l, B.place t = .suspended l ∧ l.gate = some g
  nodup : ∀ g, (B.sem g).suspended.Nodup
  gated : ∀ t l, B.place t = .suspended l → l.gate ≠ none
  units : ∀ g, ∃ u, (B.sem g).Has u ∧ u + held U.threads.toFinset g B.place = g.total cap n

def Place.isSuspended : Place → Bool
  | .suspended _ => true
  | _ => false

namespace Locks

variable {U : Console.Users} {cap n k : Nat} {B : State} {t u : Nat} {g : Gate} {l : Line} {p : Place}

theorem start (U : Console.Users) (cap : Nat) (buffer : Nat → Int) : Locks U cap 0 (.start cap buffer) where
  users _ _ := rfl
  queue g t := by cases g <;> simp [State.start, Semaphore.initSem]
  nodup g := by cases g <;> exact List.nodup_nil
  gated t l h := by cases h
  units g := by
    have hheld : held U.threads.toFinset g (State.start cap buffer).place = 0 := by
      apply Finset.sum_eq_zero
      intro t _
      cases g <;> rfl
    rw [hheld]
    cases g
    · exact ⟨cap, .start cap, rfl⟩
    · exact ⟨0, .start 0, rfl⟩
    · exact ⟨1, .start 1, rfl⟩
    · exact ⟨1, .start 1, rfl⟩

/-- Fewer threads wait than an `int` can count. -/
theorem length_lt (h : Locks U cap n B) (g : Gate) : (B.sem g).suspended.length < 2 ^ 30 := by
  have hsub : (B.sem g).suspended ⊆ U.threads := by
    intro t ht
    by_contra hno
    obtain ⟨l, hl, -⟩ := (h.queue g t).mp ht
    rw [h.users t hno] at hl
    cases hl
  have hle := (List.subperm_of_subset (h.nodup g) hsub).length_le
  have hfits := U.fits
  omega

/-- A thread goes on without a semaphore; the number of items may change. -/
theorem move (h : Locks U cap n B) (ht : t ∈ U.threads) (hold : (B.place t).isSuspended = false)
    (hnew : p.isSuspended = false)
    (hholds : ∀ g, p.holds g + g.total cap n = (B.place t).holds g + g.total cap k) :
    Locks U cap k (B.move t p) where
  users u hu := by
    have hne : u ≠ t := fun heq => hu (heq ▸ ht)
    exact (Function.update_of_ne hne _ _).trans (h.users u hu)
  queue g u := by
    change u ∈ (B.sem g).suspended ↔ ∃ l, Function.update B.place t p u = .suspended l ∧ _
    rw [h.queue g u]
    by_cases hne : u = t
    · rw [hne, Function.update_self]
      constructor
      · rintro ⟨l, hl, -⟩
        rw [hl] at hold
        cases hold
      · rintro ⟨l, rfl, -⟩
        cases hnew
    · rw [Function.update_of_ne hne]
  nodup := h.nodup
  gated u l hl := by
    by_cases hne : u = t
    · change Function.update B.place t p u = _ at hl
      rw [hne, Function.update_self] at hl
      rw [hl] at hnew
      cases hnew
    · exact h.gated u l ((Function.update_of_ne hne _ _).symm.trans hl)
  units g := by
    obtain ⟨x, hx, hsum⟩ := h.units g
    have hmove := held_move (List.mem_toFinset.mpr ht) g B.place p
    have := hholds g
    exact ⟨x, hx, by change x + held _ g (Function.update B.place t p) = _; omega⟩

theorem out (h : Locks U cap n B) (hp : (B.place t).isSuspended = false) (g : Gate) :
    t ∉ (B.sem g).suspended := by
  rw [h.queue]
  rintro ⟨l, hl, -⟩
  rw [hl] at hp
  cases hp

/-- A thread goes on, and with it one semaphore changes. -/
theorem replace (h : Locks U cap n B) (ht : t ∈ U.threads) {s : Semaphore} (hnd : s.suspended.Nodup)
    (hold : (B.place t).isSuspended = false)
    (hqueue : ∀ u, u ≠ t → (u ∈ s.suspended ↔ u ∈ (B.sem g).suspended))
    (hmem : t ∈ s.suspended ↔ ∃ l, p = .suspended l ∧ l.gate = some g)
    (hgate : ∀ l, p = .suspended l → l.gate = some g)
    (hunits : ∀ x, (B.sem g).Has x → ∃ y, s.Has y ∧ y + p.holds g = x + (B.place t).holds g)
    (hother : ∀ f, f ≠ g → p.holds f = (B.place t).holds f) :
    Locks U cap n ((B.setSem g s).move t p) where
  users u hu := by
    have hne : u ≠ t := fun heq => hu (heq ▸ ht)
    exact (Function.update_of_ne hne _ _).trans (h.users u hu)
  queue f u := by
    change u ∈ (Function.update B.sem g s f).suspended ↔
      ∃ l, Function.update B.place t p u = .suspended l ∧ l.gate = some f
    by_cases hut : u = t
    · rw [hut, Function.update_self]
      by_cases hfg : f = g
      · rw [hfg, Function.update_self]
        exact hmem
      · rw [Function.update_of_ne hfg]
        refine iff_of_false (h.out hold f) ?_
        rintro ⟨l, hl, hf⟩
        rw [hgate l hl] at hf
        exact hfg (Option.some.inj hf).symm
    · rw [Function.update_of_ne hut, ← h.queue f u]
      by_cases hfg : f = g
      · rw [hfg, Function.update_self]
        exact hqueue u hut
      · rw [Function.update_of_ne hfg]
  nodup f := by
    change (Function.update B.sem g s f).suspended.Nodup
    by_cases hfg : f = g
    · rw [hfg, Function.update_self]
      exact hnd
    · rw [Function.update_of_ne hfg]
      exact h.nodup f
  gated u m hm := by
    change Function.update B.place t p u = .suspended m at hm
    by_cases hut : u = t
    · rw [hut, Function.update_self] at hm
      rw [hgate m hm]
      simp
    · rw [Function.update_of_ne hut] at hm
      exact h.gated u m hm
  units f := by
    have hmove := held_move (List.mem_toFinset.mpr ht) f B.place p
    obtain ⟨x, hx, hsum⟩ := h.units f
    change ∃ y, (Function.update B.sem g s f).Has y ∧ y + held _ f (Function.update B.place t p) = _
    by_cases hfg : f = g
    · subst hfg
      obtain ⟨y, hy, heq⟩ := hunits x hx
      rw [Function.update_self]
      exact ⟨y, hy, by omega⟩
    · rw [Function.update_of_ne hfg]
      have := hother f hfg
      exact ⟨x, hx, by omega⟩

theorem unit_le (h : Locks U cap n B) (hn : n ≤ cap) (hcap : 1 ≤ cap) {x : Nat}
    (hx : (B.sem g).Has x) : x ≤ cap := by
  obtain ⟨y, hy, hsum⟩ := h.units g
  have hxy := hx.unique hy
  cases g <;> simp only [Gate.total] at hsum <;> omega

/-- `sem_wait` -/
theorem wait (h : Locks U cap n B) (ht : t ∈ U.threads) (hp : B.place t = .runs l) {l' : Line}
    (hw : l.wait = some (g, l')) (hcap : 1 ≤ cap ∧ cap < 2 ^ 31 - 1) (hn : n ≤ cap) :
    Locks U cap n ((B.setSem g ((B.sem g).wait t).1).move t
      (if ((B.sem g).wait t).2 then .suspended l' else .runs l')) := by
  obtain ⟨hgate, hg⟩ := Line.holds_wait hw g
  rw [if_pos rfl] at hg
  have hother (f : Gate) (hf : f ≠ g) : l'.holds f = l.holds f := by
    rw [(Line.holds_wait hw f).2, if_neg hf, Nat.add_zero]
  have hold : (B.place t).isSuspended = false := by rw [hp]; rfl
  have hout := h.out hold g
  have hone := Line.holds_gate hgate
  obtain ⟨x, hx, -⟩ := h.units g
  have hle := h.unit_le hn hcap.1 hx
  cases x with
  | zero =>
    obtain ⟨heq, hhas⟩ := hx.wait_zero (t := t) (h.length_lt g)
    rw [heq, if_pos rfl]
    apply h.replace ht
    · exact List.nodup_append.mpr ⟨h.nodup g, List.nodup_singleton t, fun a ha b hb hab =>
        hout (by rw [List.mem_singleton.mp hb] at hab; exact hab ▸ ha)⟩
    · exact hold
    · intro u hu
      simp [hu]
    · simp [hgate]
    · intro m hm
      cases hm
      exact hgate
    · intro y hy
      rw [hp]
      refine ⟨0, hhas, ?_⟩
      have hy0 := hy.unique hx
      simp only [Place.holds, hgate, if_true]
      omega
    · intro f hf
      rw [hp]
      simp only [Place.holds, hgate, Option.some.injEq]
      rw [if_neg (Ne.symm hf), hother f hf]
  | succ x =>
    obtain ⟨heq, hhas⟩ := hx.wait_pos (t := t) (by omega)
    rw [heq, if_neg Bool.false_ne_true]
    apply h.replace ht
    · exact h.nodup g
    · exact hold
    · exact fun _ _ => Iff.rfl
    · simp [hout]
    · intro m hm
      cases hm
    · intro y hy
      rw [hp]
      refine ⟨x, hhas, ?_⟩
      have hyx := hy.unique hx
      simp only [Place.holds]
      omega
    · intro f hf
      rw [hp]
      exact hother f hf

/-- The first thread of the queue has been given the unit. -/
theorem grant (h : Locks U cap n B) (ht : t ∈ U.threads) {l' m : Line} {s : Semaphore} {xs : List Nat}
    (hp : B.place t = .runs l) (hs : l.signal = some (g, l')) (hcons : (B.sem g).suspended = u :: xs)
    (hu : B.place u = .suspended m) (hm : m.gate = some g) (hxs : s.suspended = xs) (hhas : s.Has 0) :
    Locks U cap n (((B.setSem g s).move t (.runs l')).move u (.granted m)) := by
  have hut : u ≠ t := by
    rintro rfl
    rw [hp] at hu
    cases hu
  have hut' : u ∈ U.threads := by
    by_contra hno
    rw [h.users u hno] at hu
    cases hu
  have hnd := h.nodup g
  rw [hcons, List.nodup_cons] at hnd
  have hplace (w : Nat) : Function.update (Function.update B.place t (.runs l')) u (.granted m) w =
      if w = u then .granted m else if w = t then .runs l' else B.place w := by
    simp only [Function.update_apply]
  have hnot (p : Place) (hp : p.isSuspended = false) (f : Gate) :
      ¬∃ l, p = .suspended l ∧ l.gate = some f := by
    rintro ⟨l, rfl, -⟩
    cases hp
  constructor
  · intro w hw
    have hwu : w ≠ u := fun heq => hw (heq ▸ hut')
    have hwt : w ≠ t := fun heq => hw (heq ▸ ht)
    change Function.update (Function.update B.place t (.runs l')) u (.granted m) w = _
    rw [hplace, if_neg hwu, if_neg hwt]
    exact h.users w hw
  · intro f w
    change w ∈ (Function.update B.sem g s f).suspended ↔
      ∃ l, Function.update (Function.update B.place t (.runs l')) u (.granted m) w = .suspended l ∧ _
    rw [hplace]
    by_cases hwu : w = u
    · rw [if_pos hwu, hwu]
      refine iff_of_false ?_ (hnot _ rfl f)
      by_cases hfg : f = g
      · rw [hfg, Function.update_self, hxs]
        exact hnd.1
      · rw [Function.update_of_ne hfg, h.queue, hu]
        rintro ⟨l, hl, hlf⟩
        cases hl
        rw [hm] at hlf
        exact hfg (Option.some.inj hlf).symm
    · rw [if_neg hwu]
      by_cases hwt : w = t
      · rw [if_pos hwt, hwt]
        refine iff_of_false ?_ (hnot _ rfl f)
        have hout := h.out (t := t) (by rw [hp]; rfl)
        by_cases hfg : f = g
        · rw [hfg, Function.update_self, hxs]
          exact fun hmem => hout g (by rw [hcons]; exact List.mem_cons_of_mem _ hmem)
        · rw [Function.update_of_ne hfg]
          exact hout f
      · rw [if_neg hwt, ← h.queue f w]
        by_cases hfg : f = g
        · rw [hfg, Function.update_self, hxs, hcons, List.mem_cons]
          simp [hwu]
        · rw [Function.update_of_ne hfg]
  · intro f
    change (Function.update B.sem g s f).suspended.Nodup
    by_cases hfg : f = g
    · rw [hfg, Function.update_self, hxs]
      exact hnd.2
    · rw [Function.update_of_ne hfg]
      exact h.nodup f
  · intro w k hk
    change Function.update (Function.update B.place t (.runs l')) u (.granted m) w = _ at hk
    rw [hplace] at hk
    by_cases hwu : w = u
    · rw [if_pos hwu] at hk
      cases hk
    · rw [if_neg hwu] at hk
      by_cases hwt : w = t
      · rw [if_pos hwt] at hk
        cases hk
      · rw [if_neg hwt] at hk
        exact h.gated w k hk
  · intro f
    have hmove := held_move (List.mem_toFinset.mpr ht) f B.place (.runs l')
    have hmove' := held_move (List.mem_toFinset.mpr hut') f (Function.update B.place t (.runs l'))
      (.granted m)
    rw [Function.update_of_ne hut, hu] at hmove'
    rw [hp] at hmove
    have hsig := Line.holds_signal hs f
    obtain ⟨x, hx, hsum⟩ := h.units f
    change ∃ y, (Function.update B.sem g s f).Has y ∧
      y + held _ f (Function.update (Function.update B.place t (.runs l')) u (.granted m)) = _
    simp only [Place.holds] at hmove hmove'
    by_cases hfg : f = g
    · subst hfg
      have hzero : x = 0 := hx.empty (by rw [hcons]; simp)
      have hone := Line.holds_gate hm
      rw [if_pos hm] at hmove'
      rw [if_pos rfl] at hsig
      rw [Function.update_self]
      exact ⟨0, hhas, by omega⟩
    · rw [if_neg (by rw [hm]; exact fun heq => hfg (Option.some.inj heq).symm)] at hmove'
      rw [if_neg hfg] at hsig
      rw [Function.update_of_ne hfg]
      exact ⟨x, hx, by omega⟩

/-- `sem_signal` -/
theorem signal (h : Locks U cap n B) (ht : t ∈ U.threads) (hp : B.place t = .runs l) {l' : Line}
    (hs : l.signal = some (g, l')) (hcap : 1 ≤ cap ∧ cap < 2 ^ 31 - 1) (hn : n ≤ cap) :
    Locks U cap n (((B.setSem g (B.sem g).signal.1).move t (.runs l')).release (B.sem g).signal.2) := by
  have hsig := Line.holds_signal hs
  have hold : (B.place t).isSuspended = false := by rw [hp]; rfl
  have hout := h.out hold g
  obtain ⟨x, hx, -⟩ := h.units g
  have hle := h.unit_le hn hcap.1 hx
  cases hq : (B.sem g).suspended with
  | nil =>
    obtain ⟨heq, hhas⟩ := hx.signal_nil hq (by omega)
    rw [heq]
    apply h.replace ht
    · exact h.nodup g
    · exact hold
    · exact fun _ _ => Iff.rfl
    · simp [hout]
    · intro m hm
      cases hm
    · intro y hy
      rw [hp, hy.unique hx]
      refine ⟨x + 1, hhas, ?_⟩
      have := hsig g
      rw [if_pos rfl] at this
      simp only [Place.holds]
      omega
    · intro f hf
      have := hsig f
      rw [if_neg hf] at this
      rw [hp]
      simp only [Place.holds]
      omega
  | cons u xs =>
    obtain ⟨hzero, heq, hhas⟩ := hx.signal_cons hq (h.length_lt g)
    obtain ⟨m, hu, hm⟩ := (h.queue g u).mp (by rw [hq]; exact List.mem_cons_self)
    have hut : u ≠ t := by
      rintro rfl
      rw [hp] at hu
      cases hu
    rw [heq]
    have hplace : ((B.setSem g { value := (B.sem g).value + 1, suspended := xs }).move t
        (.runs l')).place u = .suspended m := (Function.update_of_ne hut _ _).trans hu
    rw [State.release, hplace]
    exact h.grant ht hp hs hq hu hm rfl hhas

end Locks

/-! ### The items -/

/-- A line at which a thread has no value from the buffer or for it that must still be right. -/
def Line.plain : Line → Bool
  | .moveTail _ | .moveHead _ | .countUnlockTail _ => false
  | _ => true

theorem Line.plain_of_gate {l : Line} (h : l.gate ≠ none) : l.plain = true := by
  cases l <;> first | rfl | exact absurd rfl h

/-- The buffer holds `xs`, which have been put and not yet taken, in the order in which they were put. -/
structure Items (cap : Nat) (B : State) (xs : List Int) : Prop where
  fifo : Queue.IsFifo (⟨B.head, B.tail, xs.length, B.buffer⟩ : Queue Int (cap + 1)) xs
  order : B.stored.map Prod.snd = B.taken.map Prod.snd ++ xs
  stored : ∀ t val, B.place t = .runs (.moveTail val) → B.buffer B.tail = val
  loaded : ∀ t ret, B.place t = .runs (.moveHead ret) → B.buffer B.head = ret
  counted : ∀ t ret, B.place t = .runs (.countUnlockTail ret) → ret = xs.length
  granted : ∀ t l, B.place t = .granted l → l.gate ≠ none

/-- The state between two steps. -/
structure Inv (U : Console.Users) (cap : Nat) (B : State) (xs : List Int) : Prop where
  locks : Locks U cap xs.length B
  items : Items cap B xs
  length : xs.length ≤ cap

section Step

variable {U : Console.Users} {cap : Nat} {B B' : State} {xs : List Int} {t u : Nat} {l : Line}

theorem Inv.start (U : Console.Users) (cap : Nat) (buffer : Nat → Int) :
    Inv U cap (.start cap buffer) [] where
  locks := .start U cap buffer
  items := by
    refine ⟨.start (Nat.le_add_left 1 cap) buffer, rfl, ?_, ?_, ?_, ?_⟩
    all_goals
      intro t v h
      cases h
  length := Nat.zero_le _

/-- The buffer stays as it is, and the threads that move have no value. -/
theorem Items.same {C : State} (h : Items cap B xs) (hbuffer : C.buffer = B.buffer) (hhead : C.head = B.head)
    (htail : C.tail = B.tail) (hstored : C.stored = B.stored) (htaken : C.taken = B.taken)
    (hruns : ∀ w l, C.place w = .runs l → B.place w = .runs l ∨ l.plain = true)
    (hgranted : ∀ w l, C.place w = .granted l → l.gate ≠ none) : Items cap C xs := by
  have hold (w : Nat) (l : Line) (hl : l.plain = false) (hw : C.place w = .runs l) :
      B.place w = .runs l := by
    refine (hruns w l hw).resolve_right ?_
    rw [hl]
    exact Bool.false_ne_true
  constructor
  · rw [hbuffer, hhead, htail]
    exact h.fifo
  · rw [hstored, htaken]
    exact h.order
  · intro w val hw
    rw [hbuffer, htail]
    exact h.stored w val (hold w _ rfl hw)
  · intro w ret hw
    rw [hbuffer, hhead]
    exact h.loaded w ret (hold w _ rfl hw)
  · intro w ret hw
    exact h.counted w ret (hold w _ rfl hw)
  · exact hgranted

/-- After a move of `t`, a thread at `q` is `t` at its new place or was there before. -/
theorem placed {p q : Place} {w : Nat} (hw : Function.update B.place t p w = q) :
    (w = t ∧ p = q) ∨ (w ≠ t ∧ B.place w = q) := by
  by_cases hwt : w = t
  · rw [hwt, Function.update_self] at hw
    exact .inl ⟨hwt, hw⟩
  · rw [Function.update_of_ne hwt] at hw
    exact .inr ⟨hwt, hw⟩

theorem placed_ne {p q : Place} {w : Nat} (hw : Function.update B.place t p w = q) (hne : p ≠ q) :
    B.place w = q := by
  rcases placed hw with ⟨-, heq⟩ | ⟨-, hold⟩
  · exact absurd heq hne
  · exact hold

/-- A thread moves to a place without a value. -/
theorem Items.move (h : Items cap B xs) {p : Place} {s : Gate → Semaphore}
    (hp : ∀ l, p = .runs l → l.plain = true) (hg : ∀ l, p = .granted l → l.gate ≠ none) :
    Items cap ({ B with sem := s }.move t p) xs := by
  apply h.same (C := ({ B with sem := s } : State).move t p) rfl rfl rfl rfl rfl
  · intro w l hw
    rcases placed hw with ⟨-, hpl⟩ | ⟨-, hold⟩
    · exact .inr (hp l hpl)
    · exact .inl hold
  · intro w l hw
    rcases placed hw with ⟨-, hpl⟩ | ⟨-, hold⟩
    · exact hg l hpl
    · exact h.granted w l hold

/-- The thread that a semaphore has released may go on. -/
theorem Items.release (h : Items cap B xs) (hgated : ∀ w l, B.place w = .suspended l → l.gate ≠ none)
    (o : Option Nat) : Items cap (B.release o) xs := by
  cases o with
  | none => exact h
  | some u =>
    have hmove (p : Place) (hp : p = B.place u ∨ ∃ l, p = .granted l ∧ l.gate ≠ none) :
        Items cap (B.move u p) xs := by
      apply h.same (C := B.move u p) rfl rfl rfl rfl rfl
      · intro w l hw
        rcases placed hw with ⟨rfl, rfl⟩ | ⟨-, hold⟩
        · rcases hp with hp | ⟨m, hp, -⟩
          · exact .inl hp.symm
          · cases hp
        · exact .inl hold
      · intro w l hw
        rcases placed hw with ⟨rfl, rfl⟩ | ⟨-, hold⟩
        · rcases hp with hp | ⟨m, hp, hm⟩
          · exact h.granted w l hp.symm
          · cases hp
            exact hm
        · exact h.granted w l hold
    rw [State.release]
    cases hplace : B.place u with
    | runs l => exact hmove _ (.inl hplace.symm)
    | granted l => exact hmove _ (.inl hplace.symm)
    | suspended l => exact hmove _ (.inr ⟨l, rfl, hgated u l hplace⟩)

theorem Inv.mem (h : Inv U cap B xs) (ht : B.place t ≠ .runs .outside) : t ∈ U.threads := by
  by_contra hno
  exact ht (h.locks.users t hno)

/-- A lock has one holder. -/
theorem Inv.alone (h : Inv U cap B xs) {g : Gate} (hg : g = .mutexHead ∨ g = .mutexTail)
    (ht : 0 < (B.place t).holds g) (hu : 0 < (B.place u).holds g) : t = u := by
  by_contra hne
  have hpos {w : Nat} (hw : 0 < (B.place w).holds g) : w ∈ U.threads.toFinset := by
    rw [List.mem_toFinset]
    apply h.mem
    intro hout
    rw [hout] at hw
    cases g <;> exact absurd hw (lt_irrefl 0)
  have hsum := holds_add_le_held (hpos ht) (hpos hu) hne g B.place
  obtain ⟨x, -, htotal⟩ := h.locks.units g
  have hone : g.total cap xs.length = 1 := by
    rcases hg with rfl | rfl <;> rfl
  omega

/-- A thread that holds a unit of space or of items. -/
theorem Inv.room (h : Inv U cap B xs) {g : Gate} (ht : 0 < (B.place t).holds g) :
    0 < g.total cap xs.length := by
  have hmem : t ∈ U.threads.toFinset := by
    rw [List.mem_toFinset]
    apply h.mem
    intro hout
    rw [hout] at ht
    cases g <;> exact absurd ht (lt_irrefl 0)
  have hle := holds_le_held hmem g B.place
  obtain ⟨x, -, htotal⟩ := h.locks.units g
  omega

theorem Inv.head_ne_tail (h : Inv U cap B xs) {i : Nat} (hi : i < xs.length) :
    (B.head + i) % (cap + 1) ≠ B.tail := by
  have htail := h.items.fifo.tail_eq
  have hlen := h.length
  simp only at htail
  rw [htail]
  exact Queue.wrap_ne hi (by omega)

/-- The lock of the tail has one holder. -/
theorem Inv.alone_tail (h : Inv U cap B xs) {k l : Line} (ht : B.place t = .runs l)
    (hu : B.place u = .runs k) (hl : 0 < l.holds .mutexTail) (hk : 0 < k.holds .mutexTail) : t = u :=
  h.alone (.inr rfl) (by rw [ht]; exact hl) (by rw [hu]; exact hk)

/-- The lock of the head has one holder. -/
theorem Inv.alone_head (h : Inv U cap B xs) {k l : Line} (ht : B.place t = .runs l)
    (hu : B.place u = .runs k) (hl : 0 < l.holds .mutexHead) (hk : 0 < k.holds .mutexHead) : t = u :=
  h.alone (.inl rfl) (by rw [ht]; exact hl) (by rw [hu]; exact hk)

theorem Inv.store (h : Inv U cap B xs) {val : Int} (hp : B.place t = .runs (.store val)) :
    Inv U cap { B.move t (.runs (.moveTail val)) with
      buffer := Function.update B.buffer B.tail val } xs where
  locks := by
    have hmove : Locks U cap xs.length (B.move t (.runs (.moveTail val))) := by
      refine h.locks.move (h.mem (by rw [hp]; simp)) (by rw [hp]; rfl) rfl fun g => ?_
      rw [hp]
      cases g <;> rfl
    exact ⟨hmove.users, hmove.queue, hmove.nodup, hmove.gated, hmove.units⟩
  items := by
    have hfifo := h.items.fifo
    constructor
    · refine ⟨hfifo.head_lt, hfifo.tail_lt, rfl, hfifo.length_le, hfifo.tail_eq, fun i hi => ?_⟩
      change Function.update B.buffer B.tail val ((B.head + i) % (cap + 1)) = xs[i]
      rw [Function.update_of_ne (h.head_ne_tail hi)]
      exact hfifo.cells i hi
    · exact h.items.order
    · intro w v hw
      change Function.update B.buffer B.tail val B.tail = v
      rw [Function.update_self]
      rcases placed hw with ⟨-, heq⟩ | ⟨hne, hold⟩
      · cases heq
        rfl
      · exact absurd (h.alone_tail hold hp Nat.one_pos Nat.one_pos) hne
    · intro w ret hw
      change Function.update B.buffer B.tail val B.head = ret
      rcases placed hw with ⟨-, heq⟩ | ⟨-, hold⟩
      · cases heq
      · have hpos : 0 < xs.length := h.room (g := .itemAvailable) (by rw [hold]; exact Nat.one_pos)
        have hne := h.head_ne_tail hpos
        rw [Nat.add_zero, Nat.mod_eq_of_lt hfifo.head_lt] at hne
        rw [Function.update_of_ne hne]
        exact h.items.loaded w ret hold
    · intro w ret hw
      exact h.items.counted w ret (placed_ne hw (by simp))
    · intro w l hw
      exact h.items.granted w l (placed_ne hw (by simp))
  length := h.length

theorem Inv.moveTail (h : Inv U cap B xs) {val : Int} (hp : B.place t = .runs (.moveTail val)) :
    Inv U cap { B.move t (.runs .unlockTail) with
      tail := (B.tail + 1) % (cap + 1)
      stored := B.stored ++ [(t, val)] } (xs ++ [val]) := by
  have hroom : 0 < cap - xs.length := h.room (g := .spaceAvailable) (by rw [hp]; exact Nat.one_pos)
  have hlength : (xs ++ [val]).length = xs.length + 1 := List.length_append
  constructor
  · have hmove : Locks U cap (xs ++ [val]).length (B.move t (.runs .unlockTail)) := by
      refine h.locks.move (h.mem (by rw [hp]; simp)) (by rw [hp]; rfl) rfl fun g => ?_
      rw [hp, hlength]
      cases g with
      | spaceAvailable =>
        change 0 + (cap - xs.length) = 1 + (cap - (xs.length + 1))
        omega
      | itemAvailable =>
        change 1 + xs.length = 0 + (xs.length + 1)
        omega
      | mutexHead => rfl
      | mutexTail => rfl
    exact ⟨hmove.users, hmove.queue, hmove.nodup, hmove.gated, hmove.units⟩
  · have hput := h.items.fifo.put (t := val) (by omega)
    have hbuffer : (fun i => if i = B.tail then val else B.buffer i) = B.buffer := by
      funext i
      split
      · next heq => rw [heq, h.items.stored t val hp]
      · rfl
    rw [Queue.put, if_pos (show xs.length < cap + 1 by omega)] at hput
    constructor
    · simp only [hbuffer] at hput
      rw [hlength]
      exact hput
    · change (B.stored ++ [(t, val)]).map Prod.snd = B.taken.map Prod.snd ++ (xs ++ [val])
      rw [List.map_append, h.items.order, List.append_assoc]
      rfl
    · intro w v hw
      rcases placed hw with ⟨-, heq⟩ | ⟨hne, hold⟩
      · cases heq
      · exact absurd (h.alone_tail hold hp Nat.one_pos Nat.one_pos) hne
    · intro w ret hw
      exact h.items.loaded w ret (placed_ne hw (by simp))
    · intro w ret hw
      rcases placed hw with ⟨-, heq⟩ | ⟨hne, hold⟩
      · cases heq
      · exact absurd (h.alone_tail hold hp Nat.one_pos Nat.one_pos) hne
    · intro w l hw
      exact h.items.granted w l (placed_ne hw (by simp))
  · omega

theorem Inv.load (h : Inv U cap B xs) (hp : B.place t = .runs .load) :
    Inv U cap (B.move t (.runs (.moveHead (B.buffer B.head)))) xs where
  locks := by
    refine h.locks.move (h.mem (by rw [hp]; simp)) (by rw [hp]; rfl) rfl fun g => ?_
    rw [hp]
    cases g <;> rfl
  items := by
    refine ⟨h.items.fifo, h.items.order, ?_, ?_, ?_, ?_⟩
    · intro w v hw
      exact h.items.stored w v (placed_ne hw (by simp))
    · intro w ret hw
      rcases placed hw with ⟨-, heq⟩ | ⟨-, hold⟩
      · cases heq
        rfl
      · exact h.items.loaded w ret hold
    · intro w ret hw
      exact h.items.counted w ret (placed_ne hw (by simp))
    · intro w l hw
      exact h.items.granted w l (placed_ne hw (by simp))
  length := h.length

/-- The oldest item is at the head. -/
theorem Items.oldest {y : Int} {ys : List Int} (h : Items cap B (y :: ys)) : B.buffer B.head = y := by
  have hhead : B.head < cap + 1 := h.fifo.head_lt
  have hfirst : B.buffer ((B.head + 0) % (cap + 1)) = y := h.fifo.cells 0 (Nat.succ_pos _)
  rwa [Nat.add_zero, Nat.mod_eq_of_lt hhead] at hfirst

theorem Inv.moveHead {y : Int} {ys : List Int} (h : Inv U cap B (y :: ys)) {ret : Int}
    (hp : B.place t = .runs (.moveHead ret)) :
    Inv U cap { B.move t (.runs (.unlockHead ret)) with
      head := (B.head + 1) % (cap + 1)
      taken := B.taken ++ [(t, ret)] } ys := by
  have hret : y = ret := h.items.oldest.symm.trans (h.items.loaded t ret hp)
  have hlength : (y :: ys).length = ys.length + 1 := rfl
  have hle := h.length
  constructor
  · have hmove : Locks U cap ys.length (B.move t (.runs (.unlockHead ret))) := by
      refine h.locks.move (h.mem (by rw [hp]; simp)) (by rw [hp]; rfl) rfl fun g => ?_
      rw [hp, hlength]
      cases g with
      | spaceAvailable =>
        change 1 + (cap - (ys.length + 1)) = 0 + (cap - ys.length)
        omega
      | itemAvailable =>
        change 0 + (ys.length + 1) = 1 + ys.length
        omega
      | mutexHead => rfl
      | mutexTail => rfl
    exact ⟨hmove.users, hmove.queue, hmove.nodup, hmove.gated, hmove.units⟩
  · have hget := h.items.fifo.get_cons.2
    rw [Queue.get, if_pos (show 0 < (y :: ys).length by omega)] at hget
    refine ⟨hget, ?_, ?_, ?_, ?_, ?_⟩
    · change B.stored.map Prod.snd = (B.taken ++ [(t, ret)]).map Prod.snd ++ ys
      rw [h.items.order, List.map_append, List.append_assoc, ← hret]
      rfl
    · intro w v hw
      exact h.items.stored w v (placed_ne hw (by simp))
    · intro w r hw
      rcases placed hw with ⟨-, heq⟩ | ⟨hne, hold⟩
      · cases heq
      · exact absurd (h.alone_head hold hp Nat.one_pos Nat.one_pos) hne
    · intro w r hw
      rcases placed hw with ⟨-, heq⟩ | ⟨hne, hold⟩
      · cases heq
      · exact absurd (h.alone_head hold hp Nat.one_pos Nat.one_pos) hne
    · intro w l hw
      exact h.items.granted w l (placed_ne hw (by simp))
  · omega

/-- The distance from the head to the tail, around the end of the buffer. -/
theorem Inv.distance (h : Inv U cap B xs) :
    (if B.head ≤ B.tail then (B.tail - B.head : Int) else (cap + 1 : Nat) - B.head + B.tail) =
      xs.length := by
  have htail : B.tail = (B.head + xs.length) % (cap + 1) := h.items.fifo.tail_eq
  have hhead : B.head < cap + 1 := h.items.fifo.head_lt
  have hle := h.length
  by_cases hwrap : B.head + xs.length < cap + 1
  · rw [Nat.mod_eq_of_lt hwrap] at htail
    rw [if_pos (by omega)]
    omega
  · rw [Nat.mod_eq_sub_mod (by omega), Nat.mod_eq_of_lt (by omega)] at htail
    rw [if_neg (by omega)]
    omega

theorem Inv.countRead (h : Inv U cap B xs) (hp : B.place t = .runs .countRead) {ret : Int}
    (hret : ret = xs.length) : Inv U cap (B.move t (.runs (.countUnlockTail ret))) xs where
  locks := by
    refine h.locks.move (h.mem (by rw [hp]; simp)) (by rw [hp]; rfl) rfl fun g => ?_
    rw [hp]
    cases g <;> rfl
  items := by
    refine ⟨h.items.fifo, h.items.order, ?_, ?_, ?_, ?_⟩
    · intro w v hw
      exact h.items.stored w v (placed_ne hw (by simp))
    · intro w r hw
      exact h.items.loaded w r (placed_ne hw (by simp))
    · intro w r hw
      rcases placed hw with ⟨-, heq⟩ | ⟨-, hold⟩
      · cases heq
        exact hret
      · exact h.items.counted w r hold
    · intro w l hw
      exact h.items.granted w l (placed_ne hw (by simp))
  length := h.length

/-- A thread goes on to a line without a value, and holds what it held. -/
theorem Inv.goes (h : Inv U cap B xs) (ht : t ∈ U.threads) (hold : (B.place t).isSuspended = false)
    (hplain : l.plain = true) (hholds : ∀ g, l.holds g = (B.place t).holds g) :
    Inv U cap (B.move t (.runs l)) xs where
  locks := h.locks.move ht hold rfl fun g => congrArg (· + _) (hholds g)
  items := by
    apply h.items.move (s := B.sem)
    · intro m hm
      cases hm
      exact hplain
    · intro m hm
      cases hm
  length := h.length

variable {g : Gate} {k : Line}

theorem Inv.wait (h : Inv U cap B xs) (hcap : 1 ≤ cap ∧ cap < 2 ^ 31 - 1) (ht : t ∈ U.threads)
    (hp : B.place t = .runs l) (hw : l.wait = some (g, k)) :
    Inv U cap ((B.setSem g ((B.sem g).wait t).1).move t
      (if ((B.sem g).wait t).2 then .suspended k else .runs k)) xs where
  locks := h.locks.wait ht hp hw hcap h.length
  items := by
    have hgate := (Line.holds_wait hw g).1
    apply h.items.move
    · intro m hm
      split at hm
      · cases hm
      · cases hm
        exact Line.plain_of_gate (by rw [hgate]; simp)
    · intro m hm
      split at hm <;> cases hm
  length := h.length

theorem Line.plain_of_signal (h : l.signal = some (g, k)) : k.plain = true := by
  cases l <;> cases h <;> rfl

theorem Inv.signal (h : Inv U cap B xs) (hcap : 1 ≤ cap ∧ cap < 2 ^ 31 - 1) (ht : t ∈ U.threads)
    (hp : B.place t = .runs l) (hs : l.signal = some (g, k)) :
    Inv U cap (((B.setSem g (B.sem g).signal.1).move t (.runs k)).release (B.sem g).signal.2) xs where
  locks := h.locks.signal ht hp hs hcap h.length
  items := by
    have hmoved : Items cap ((B.setSem g (B.sem g).signal.1).move t (.runs k)) xs := by
      apply h.items.move
      · intro m hm
        cases hm
        exact Line.plain_of_signal hs
      · intro m hm
        cases hm
    apply hmoved.release
    intro w m hw
    exact h.locks.gated w m (placed_ne hw (by simp))
  length := h.length

/-- A step that is no call. -/
theorem Inv.go (h : Inv U cap B xs) (hs : B.go cap t = some B') : ∃ ys, Inv U cap B' ys := by
  cases hp : B.place t with
  | suspended l => simp [State.go, hp] at hs
  | granted l => simp [State.go, hp] at hs
  | runs l =>
    cases l <;> simp only [State.go, hp, Option.some.injEq, reduceCtorEq] at hs
    case store val =>
      subst hs
      exact ⟨xs, h.store hp⟩
    case moveTail val =>
      subst hs
      exact ⟨xs ++ [val], h.moveTail hp⟩
    case load =>
      subst hs
      exact ⟨xs, h.load hp⟩
    case moveHead ret =>
      subst hs
      have hitem : 0 < xs.length := h.room (g := .itemAvailable) (by rw [hp]; exact Nat.one_pos)
      cases xs with
      | nil => cases hitem
      | cons y ys => exact ⟨ys, h.moveHead hp⟩
    case countRead =>
      subst hs
      exact ⟨xs, h.countRead hp h.distance⟩

/-- Every step keeps the invariant. -/
theorem Inv.step (h : Inv U cap B xs) (hcap : 1 ≤ cap ∧ cap < 2 ^ 31 - 1) (ht : t ∈ U.threads) (op : Op)
    (hs : B.step cap t op = some B') : ∃ ys, Inv U cap B' ys := by
  have hcall (k : Line) (hplain : k.plain = true) (hk : ∀ g, k.holds g = 0)
      (hs : (if B.place t = .runs .outside then some (B.move t (.runs k)) else none) = some B') :
      ∃ ys, Inv U cap B' ys := by
    split at hs
    · next hout =>
      cases hs
      refine ⟨xs, h.goes ht (by rw [hout]; rfl) hplain fun g => ?_⟩
      rw [hk, hout]
      cases g <;> rfl
    · cases hs
  cases op with
  | put val => exact hcall _ rfl (fun g => by cases g <;> rfl) hs
  | get => exact hcall _ rfl (fun g => by cases g <;> rfl) hs
  | getCnt => exact hcall _ rfl (fun g => by cases g <;> rfl) hs
  | wait =>
    cases hp : B.place t with
    | suspended l => simp [State.step, hp] at hs
    | granted l => simp [State.step, hp] at hs
    | runs l =>
      simp only [State.step, hp, Option.map_eq_some_iff] at hs
      obtain ⟨⟨g, k⟩, hw, rfl⟩ := hs
      exact ⟨xs, h.wait hcap ht hp hw⟩
  | signal =>
    cases hp : B.place t with
    | suspended l => simp [State.step, hp] at hs
    | granted l => simp [State.step, hp] at hs
    | runs l =>
      simp only [State.step, hp, Option.map_eq_some_iff] at hs
      obtain ⟨⟨g, k⟩, hw, rfl⟩ := hs
      exact ⟨xs, h.signal hcap ht hp hw⟩
  | resume =>
    cases hp : B.place t with
    | suspended l => simp [State.step, hp] at hs
    | runs l => simp [State.step, hp] at hs
    | granted l =>
      simp only [State.step, hp, Option.some.injEq] at hs
      subst hs
      refine ⟨xs, h.goes ht (by rw [hp]; rfl) (Line.plain_of_gate (h.items.granted t l hp)) fun g => ?_⟩
      rw [hp]
      rfl
  | go => exact h.go hs

end Step

theorem Reach.inv {U : Console.Users} {cap : Nat} (hcap : 1 ≤ cap ∧ cap < 2 ^ 31 - 1) {B : State}
    (h : Reach U cap B) : ∃ xs, Inv U cap B xs := by
  induction h with
  | start buffer => exact ⟨[], .start U cap buffer⟩
  | step t op _ ht hs ih =>
    obtain ⟨xs, hinv⟩ := ih
    exact hinv.step hcap ht op hs

/-- The threads' steps, in order. -/
def State.run (cap : Nat) (B : State) (steps : List (Nat × Op)) : Option State :=
  steps.foldlM (fun B s => B.step cap s.1 s.2) B

theorem Reach.run {U : Console.Users} {cap : Nat} {B C : State} (steps : List (Nat × Op))
    (h : Reach U cap B) (hmem : ∀ s ∈ steps, s.1 ∈ U.threads) (hrun : B.run cap steps = some C) :
    Reach U cap C :=
  Refine.foldlM_inv steps (fun s hs _ _ hB hstep => hB.step s.1 s.2 (hmem s hs) hstep) h hrun

/-! ### The results -/

/-- The buffer has the items `xs`, oldest first. -/
structure Contains (cap : Nat) (B : State) (xs : List Int) : Prop where
  /-- What has been put is what has been taken and then the items. -/
  order : B.stored.map Prod.snd = B.taken.map Prod.snd ++ xs
  length : xs.length ≤ cap
  bounds : B.head ≤ cap ∧ B.tail ≤ cap
  /-- The items are the ring's cells from `head` up to `tail`. -/
  cells : ∀ i (h : i < xs.length), B.buffer ((B.head + i) % (cap + 1)) = xs[i]
  tail : B.tail = (B.head + xs.length) % (cap + 1)
  /-- A `put` writes to a place that has no item. -/
  store : ∀ t val, B.place t = .runs (.store val) → ∀ i < xs.length, (B.head + i) % (cap + 1) ≠ B.tail
  /-- A `get` reads the oldest item. -/
  load : ∀ t, B.place t = .runs .load → xs.head? = some (B.buffer B.head)
  count : ∀ t ret, B.place t = .runs (.countUnlockTail ret) → ret = xs.length
  /-- A lock has one holder. -/
  alone : ∀ g t u, g = .mutexHead ∨ g = .mutexTail → 0 < (B.place t).holds g →
    0 < (B.place u).holds g → t = u

theorem Inv.contains {U : Console.Users} {cap : Nat} {B : State} {xs : List Int} (h : Inv U cap B xs) :
    Contains cap B xs := by
  refine ⟨h.items.order, h.length, ?_, h.items.fifo.cells, h.items.fifo.tail_eq, ?_, ?_, ?_, ?_⟩
  · exact ⟨Nat.le_of_lt_succ h.items.fifo.head_lt, Nat.le_of_lt_succ h.items.fifo.tail_lt⟩
  · exact fun _ _ _ i hi => h.head_ne_tail hi
  · intro t hp
    have hitem : 0 < xs.length := h.room (g := .itemAvailable) (by rw [hp]; exact Nat.one_pos)
    cases xs with
    | nil => cases hitem
    | cons y ys => rw [h.items.oldest, List.head?_cons]
  · exact h.items.counted
  · exact fun g t u hg ht hu => h.alone hg ht hu

/-- In every order of the threads' steps, the buffer is first in, first out, and neither loses an item nor
invents one. -/
theorem bounded_buffer (U : Console.Users) (cap : Nat) (hcap : 1 ≤ cap ∧ cap < 2 ^ 31 - 1) {B : State}
    (h : Reach U cap B) : ∃ xs, Contains cap B xs := by
  obtain ⟨xs, hinv⟩ := h.inv hcap
  exact ⟨xs, hinv.contains⟩

/-- One thread puts an item, and another one takes it. -/
def putGet : List (Nat × Op) :=
  [(1, .put 7), (1, .wait), (2, .get), (2, .wait), (1, .wait), (1, .go), (1, .go), (1, .signal), (1, .signal),
    (2, .resume), (2, .wait), (2, .go), (2, .go), (2, .signal), (2, .signal)]

theorem bounded_buffer_twoUsers : ∃ B, Reach Console.twoUsers 1 B ∧ B.stored = [(1, 7)] ∧ B.taken = [(2, 7)] ∧
    ∃ xs, Contains 1 B xs := by
  have hreach : Reach Console.twoUsers 1 (((State.start 1 fun _ => 0).run 1 putGet).get rfl) :=
    .run putGet (.start fun _ => 0) (by decide) (Option.some_get _).symm
  exact ⟨_, hreach, rfl, rfl, bounded_buffer Console.twoUsers 1 (by decide) hreach⟩

section Stuck

variable {U : Console.Users} {cap : Nat} {B : State} {xs : List Int} {g : Gate}

/-- A semaphore has no units to give while a thread waits for it. -/
theorem Inv.blocked (h : Inv U cap B xs) {t : Nat} {l : Line} (hp : B.place t = .suspended l)
    (hg : l.gate = some g) : held U.threads.toFinset g B.place = g.total cap xs.length := by
  obtain ⟨x, hx, hsum⟩ := h.locks.units g
  have hmem : t ∈ (B.sem g).suspended := (h.locks.queue g t).mpr ⟨l, hp, hg⟩
  have hzero : x = 0 := hx.empty (List.ne_nil_of_mem hmem)
  omega

/-- No thread that is in a call can go on. -/
def Stuck (B : State) : Prop := ∀ t, B.place t = .runs .outside ∨ (B.place t).isSuspended = true

/-- The threads hold no units when those that wait elsewhere hold none. -/
theorem Inv.idle (h : Inv U cap B xs) (hstuck : Stuck B)
    (hg : ∀ w l, B.place w = .suspended l → l.gate ≠ none → l.gate ≠ some g → l.holds g = 0) :
    held U.threads.toFinset g B.place = 0 := by
  apply Finset.sum_eq_zero
  intro w _
  cases hw : B.place w with
  | runs l =>
    rcases hstuck w with hout | hsusp
    · rw [hw] at hout
      cases hout
      cases g <;> rfl
    · rw [hw] at hsusp
      cases hsusp
  | granted l =>
    rcases hstuck w with hout | hsusp
    · rw [hw] at hout
      cases hout
    · rw [hw] at hsusp
      cases hsusp
  | suspended l =>
    simp only [Place.holds]
    split
    · rfl
    · next hne => exact hg w l hw (h.locks.gated w l hw) hne

/-- The thread that holds the lock of the tail can go on. -/
theorem Inv.no_mutexTail (h : Inv U cap B xs) (hstuck : Stuck B) {w : Nat} {l : Line}
    (hw : B.place w = .suspended l) : l.gate ≠ some .mutexTail := by
  intro hl
  have hone := h.blocked hw hl
  rw [h.idle hstuck] at hone
  · cases hone
  · intro v m _ hgate hne
    cases m <;> first | rfl | exact absurd rfl hne | exact absurd rfl hgate

/-- The one that holds the lock of the head can go on or waits for the lock of the tail. -/
theorem Inv.no_mutexHead (h : Inv U cap B xs) (hstuck : Stuck B) {w : Nat} {l : Line}
    (hw : B.place w = .suspended l) : l.gate ≠ some .mutexHead := by
  intro hl
  have hone := h.blocked hw hl
  rw [h.idle hstuck] at hone
  · cases hone
  · intro v m hv hgate hne
    have htail := h.no_mutexTail hstuck hv
    cases m <;> first | rfl | exact absurd rfl hne | exact absurd rfl hgate | exact absurd rfl htail

end Stuck

/-- No wake-up is lost: when no thread that is in a call can go on, either they all wait in `put` and the
buffer is full, or they all wait in `get` and it is empty. -/
theorem buffer_wakes (U : Console.Users) (cap : Nat) (hcap : 1 ≤ cap ∧ cap < 2 ^ 31 - 1) {B : State}
    (h : Reach U cap B) (hstuck : Stuck B) : ∃ xs, Contains cap B xs ∧
      ((xs.length = cap ∧ ∀ t l, B.place t = .suspended l → l.gate = some .spaceAvailable) ∨
        (xs = [] ∧ ∀ t l, B.place t = .suspended l → l.gate = some .itemAvailable) ∨
        ∀ t, B.place t = .runs .outside) := by
  obtain ⟨xs, hinv⟩ := h.inv hcap
  have hspace {t : Nat} {l : Line} (hp : B.place t = .suspended l) (hl : l.gate = some .spaceAvailable) :
      xs.length = cap := by
    have htotal := hinv.blocked hp hl
    rw [hinv.idle hstuck] at htotal
    · have := hinv.length
      simp only [Gate.total] at htotal
      omega
    · intro v m hv hgate hne
      have htail := hinv.no_mutexTail hstuck hv
      cases m <;> first | rfl | exact absurd rfl hne | exact absurd rfl hgate | exact absurd rfl htail
  have hitem {t : Nat} {l : Line} (hp : B.place t = .suspended l) (hl : l.gate = some .itemAvailable) :
      xs = [] := by
    have htotal := hinv.blocked hp hl
    rw [hinv.idle hstuck] at htotal
    · exact List.length_eq_zero_iff.mp htotal.symm
    · intro v m hv hgate hne
      have hhead := hinv.no_mutexHead hstuck hv
      cases m <;> first | rfl | exact absurd rfl hne | exact absurd rfl hgate | exact absurd rfl hhead
  have hgate {t : Nat} {l : Line} (hp : B.place t = .suspended l) :
      l.gate = some .spaceAvailable ∨ l.gate = some .itemAvailable := by
    have hnone := hinv.locks.gated t l hp
    have hhead := hinv.no_mutexHead hstuck hp
    have htail := hinv.no_mutexTail hstuck hp
    cases hg : l.gate with
    | none => exact absurd hg hnone
    | some g =>
      cases g with
      | spaceAvailable => exact .inl rfl
      | itemAvailable => exact .inr rfl
      | mutexHead => exact absurd hg hhead
      | mutexTail => exact absurd hg htail
  refine ⟨xs, hinv.contains, ?_⟩
  by_cases hout : ∀ t, B.place t = .runs .outside
  · exact .inr (.inr hout)
  · -- one thread waits, and for what it waits says what the others do
    obtain ⟨t, ht⟩ := not_forall.mp hout
    cases hp : B.place t with
    | runs l => exact absurd ((hstuck t).resolve_right (by rw [hp]; exact Bool.false_ne_true)) ht
    | granted l => exact absurd ((hstuck t).resolve_right (by rw [hp]; exact Bool.false_ne_true)) ht
    | suspended l =>
      rcases hgate hp with hl | hl
      · have hfull := hspace hp hl
        refine .inl ⟨hfull, fun u m hu => (hgate hu).resolve_right fun hm => ?_⟩
        rw [hitem hu hm, List.length_nil] at hfull
        omega
      · have hempty := hitem hp hl
        refine .inr (.inl ⟨hempty, fun u m hu => (hgate hu).resolve_left fun hm => ?_⟩)
        have hfull := hspace hu hm
        rw [hempty, List.length_nil] at hfull
        omega

/-- The second thread waits for another item. -/
theorem buffer_wakes_twoUsers : ∃ B, Reach Console.twoUsers 1 B ∧ B.place 2 = .suspended .lockHead ∧
    ∃ xs, Contains 1 B xs ∧
      ((xs.length = 1 ∧ ∀ t l, B.place t = .suspended l → l.gate = some .spaceAvailable) ∨
        (xs = [] ∧ ∀ t l, B.place t = .suspended l → l.gate = some .itemAvailable) ∨
        ∀ t, B.place t = .runs .outside) := by
  have hreach : Reach Console.twoUsers 1
      (((State.start 1 fun _ => 0).run 1 (putGet ++ [(2, .get), (2, .wait)])).get rfl) :=
    .run _ (.start fun _ => 0) (by decide) (Option.some_get _).symm
  refine ⟨_, hreach, rfl, buffer_wakes Console.twoUsers 1 (by decide) hreach fun t => ?_⟩
  by_cases ht : t ∈ Console.twoUsers.threads
  · rcases List.mem_pair.mp ht with rfl | rfl
    · exact .inl rfl
    · exact .inr rfl
  · obtain ⟨xs, hinv⟩ := hreach.inv (by decide)
    exact .inl (hinv.locks.users t ht)

end Os1Kernel.Client
