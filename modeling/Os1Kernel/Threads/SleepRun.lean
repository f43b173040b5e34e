import Os1Kernel.Threads.Sleep
import Os1Kernel.Threads.Deques

/-! Runs of the sleep queue: threads are put to sleep, ticks come, and the scheduler takes what it
gets, in any order.  The queue does what a set of absolute deadlines does. -/

namespace Os1Kernel

open Memory Linked

/-- The objects that the operations on the two lists use. -/
def sleepObjs (L : Layout) (tcbs : List Nat) : Obj → Prop
  | .list l => l = L.scheduler ∨ l = L.sleepQueue
  | .tcb t => t ∈ tcbs
  | _ => False

/-- The threads `tcbs` lie in memory, apart from each other and from the two lists. -/
structure TcbsApart (L : Layout) (tcbs : List Nat) : Prop where
  inside : ∀ t ∈ tcbs, 0 < t ∧ t < 2 ^ 64
  apart : ∀ t ∈ tcbs, ∀ u ∈ tcbs, t ≠ u → Apart t 360 u 360
  lists : ∀ t ∈ tcbs, Apart t 360 L.scheduler 16 ∧ Apart t 360 L.sleepQueue 16

/-- A set of deadlines: the sleeping threads with theirs, in the order of the calls, and the threads
that the scheduler holds. -/
structure Sleepers where
  now : Nat
  pending : List (Nat × Nat)
  ready : List Nat

/-- The memories that any order of calls leads to, with the deadlines that these calls mean. -/
inductive SleepRun (L : Layout) (tcbs : List Nat) : Mem → Globals → Sleepers → Prop
  | boot (m : Mem) (g : Globals)
      (h : ∀ l, l = L.scheduler ∨ l = L.sleepQueue → m.field l Field.head = 0 ∧ m.field l Field.tail = 0) :
      SleepRun L tcbs m g ⟨0, [], []⟩
  | putToSleep {m m' : Mem} {g g' : Globals} {σ : Sleepers} (t s : Nat) (h : SleepRun L tcbs m g σ)
      (ht : t ∈ tcbs) (hp : t ∉ σ.pending.map Prod.fst) (hr : t ∉ σ.ready) (hs : 1 ≤ s ∧ s < 2 ^ 64)
      (hrun : (TCBSleepQueue.putToSleep L.sleepQueue t s).run m g = .done () m' g') :
      SleepRun L tcbs m' g' { σ with pending := σ.pending ++ [(t, σ.now + s)] }
  | timerTick {m m' : Mem} {g g' : Globals} {σ : Sleepers} (h : SleepRun L tcbs m g σ)
      (hrun : (TCBSleepQueue.timerTick L L.sleepQueue).run m g = .done () m' g') :
      SleepRun L tcbs m' g'
        ⟨σ.now + 1, σ.pending.filter fun p => p.2 ≠ σ.now + 1,
          σ.ready ++ (σ.pending.filter fun p => p.2 = σ.now + 1).map Prod.fst⟩
  | nextTcb {m m' : Mem} {g g' : Globals} {σ : Sleepers} {t : Nat} (h : SleepRun L tcbs m g σ)
      (hrun : (Scheduler.nextTcb L).run m g = .done t m' g') :
      SleepRun L tcbs m' g' { σ with ready := σ.ready.tail }
  | putTcb {m m' : Mem} {g g' : Globals} {σ : Sleepers} (t : Nat) (h : SleepRun L tcbs m g σ)
      (ht : t ∈ tcbs) (hp : t ∉ σ.pending.map Prod.fst) (hr : t ∉ σ.ready)
      (hrun : (Scheduler.putTcb L t).run m g = .done () m' g') :
      SleepRun L tcbs m' g' { σ with ready := σ.ready ++ [t] }
  | other {m : Mem} {g : Globals} {σ : Sleepers} (m' : Mem) (g' : Globals)
      (h : SleepRun L tcbs m g σ)
      (hl : ∀ l, l = L.scheduler ∨ l = L.sleepQueue →
        m'.field l Field.head = m.field l Field.head ∧ m'.field l Field.tail = m.field l Field.tail)
      (ht : ∀ t ∈ tcbs, m'.field t Field.next = m.field t Field.next ∧
        m'.field t Field.prev = m.field t Field.prev ∧
        m'.field t Field.sleepFor = m.field t Field.sleepFor) : SleepRun L tcbs m' g' σ

/-- Memory holds the deadlines, sorted. -/
structure SleepInv (L : Layout) (tcbs : List Nat) (m : Mem) (σ : Sleepers) (S : List (Nat × Nat)) :
    Prop where
  sleep : SleepList m.view L.sleepQueue σ.now S
  ready : IsList m.view L.scheduler σ.ready
  same : ∀ d, S.filter (fun p => p.2 = d) = σ.pending.filter fun p => p.2 = d
  future : ∀ p ∈ S, σ.now < p.2
  apart : ∀ t ∈ S.map Prod.fst, t ∉ σ.ready
  sub : ∀ t ∈ S.map Prod.fst ++ σ.ready, t ∈ tcbs

variable {L : Layout} {tcbs : List Nat} {m m' : Mem} {g g' : Globals} {σ : Sleepers}
  {S : List (Nat × Nat)}

theorem TcbsApart.listsApart (h : TcbsApart L tcbs) : ListsApart [L.scheduler, L.sleepQueue] tcbs := by
  have hlists : Apart L.scheduler 16 L.sleepQueue 16 := by
    have hap := L.apart
    simp only [List.pairwise_cons] at hap
    exact (hap.2.1 _ List.mem_cons_self).within le_rfl (by omega) le_rfl (by omega)
  have hin := L.inside
  simp only [List.forall_mem_cons] at hin
  refine ⟨h.inside, ?_, h.apart, ?_, fun t ht => ?_⟩
  · simpa using ⟨hin.2.1.1, hin.2.2.1.1⟩
  · intro l hl k hk hne
    simp only [List.mem_cons, List.not_mem_nil, or_false] at hl hk
    rcases hl with rfl | rfl <;> rcases hk with rfl | rfl
    · exact absurd rfl hne
    · exact hlists
    · exact hlists.symm
    · exact absurd rfl hne
  · simpa using h.lists t ht

theorem sleepObjs_separate (h : TcbsApart L tcbs) : Separate (Obj.own L.heap (sleepObjs L tcbs)) := by
  have hobjs : sleepObjs L tcbs = listObjs [L.scheduler, L.sleepQueue] tcbs := by
    funext o
    cases o <;> simp [sleepObjs, listObjs]
  rw [hobjs]
  exact listObjs_separate L.heap h.listsApart

theorem sleepObjs_lists : ListCells (Obj.own L.heap (sleepObjs L tcbs)) L.sleepQueue ∧
    ListCells (Obj.own L.heap (sleepObjs L tcbs)) L.scheduler :=
  ⟨⟨⟨.list _, .inr rfl, rfl, rfl⟩, .list _, .inr rfl, rfl, rfl⟩,
    ⟨.list _, .inl rfl, rfl, rfl⟩, .list _, .inl rfl, rfl, rfl⟩

theorem sleepObjs_tcb {t : Nat} (ht : t ∈ tcbs) :
    SleepCells (Obj.own L.heap (sleepObjs L tcbs)) t :=
  ⟨⟨⟨.tcb t, ht, rfl, rfl⟩, .tcb t, ht, rfl, rfl⟩, ⟨.tcb t, ht, rfl, rfl⟩, .tcb t, ht, rfl, rfl⟩

theorem SleepList.of_sim {O : Nat → Field → Prop} {v : Cells} {l now : Nat}
    (h : SleepList v l now S) (hs : Sim O m v) (hl : ListCells O l)
    (hx : ∀ x ∈ S.map Prod.fst, SleepCells O x) : SleepList m.view l now S :=
  ⟨h.list.of_sim hs hl fun x hm => (hx x hm).toLinkCells,
    h.delays.congr fun s hm => hs _ _ (hx s.1 (List.mem_map.mpr ⟨s, hm, rfl⟩)).sleepFor, h.lt⟩

/-- A list without repetitions of numbers that are positive and below `n` is shorter than `n`. -/
theorem length_lt_of_nodup {n : Nat} {xs : List Nat} (hnd : xs.Nodup) (hn : 0 < n)
    (h : ∀ x ∈ xs, 0 < x ∧ x < n) : xs.length < n := by
  have hcons : (0 :: xs).Nodup := List.nodup_cons.mpr ⟨fun h0 => absurd (h 0 h0).1 (by simp), hnd⟩
  have hsub : (0 :: xs) ⊆ List.range n := by
    intro x hx
    rcases List.mem_cons.mp hx with rfl | hx
    · exact List.mem_range.mpr hn
    · exact List.mem_range.mpr (h x hx).2
  have hle := (List.subperm_of_subset hcons hsub).length_le
  rw [List.length_range, List.length_cons] at hle
  exact hle

/-! ### Deadlines in order -/

theorem takeWhile_eq_filter {d : Nat} (h : S.Pairwise fun s t => s.2 ≤ t.2) :
    S.takeWhile (fun s => s.2 ≤ d) = S.filter (fun s => s.2 ≤ d) ∧
    S.dropWhile (fun s => s.2 ≤ d) = S.filter fun s => ¬s.2 ≤ d := by
  induction S with
  | nil => simp
  | cons s S ih =>
    obtain ⟨hs, hS⟩ := List.pairwise_cons.mp h
    by_cases hd : s.2 ≤ d
    · simpa [hd] using ih hS
    · have hall : ∀ t ∈ S, ¬t.2 ≤ d := fun t ht => by
        have := hs t ht
        omega
      have hnone : S.filter (fun s => decide (s.2 ≤ d)) = [] :=
        List.filter_eq_nil_iff.mpr fun t ht => by simpa using hall t ht
      have hself : S.filter (fun s => decide (¬s.2 ≤ d)) = S :=
        List.filter_eq_self.mpr fun t ht => by simpa using hall t ht
      simp only [List.takeWhile_cons, List.dropWhile_cons, List.filter_cons, hd, decide_false,
        Bool.false_eq_true, if_false, hnone, not_false_eq_true, decide_true, if_true, hself,
        and_self]

theorem filter_insertSleep {t d e : Nat} (h : S.Pairwise fun s t => s.2 ≤ t.2) :
    (insertSleep t d S).filter (fun p => p.2 = e) = S.filter (fun p => p.2 = e) ++
      [(t, d)].filter fun p => p.2 = e := by
  obtain ⟨ht, hd⟩ := takeWhile_eq_filter (d := d) h
  rw [insertSleep, ht, hd, List.filter_append, List.filter_cons, List.filter_filter,
    List.filter_filter]
  by_cases hde : d = e
  · subst hde
    have h1 : S.filter (fun a => decide (a.2 = d) && decide (a.2 ≤ d)) =
        S.filter fun p => p.2 = d := List.filter_congr fun p _ => by
      by_cases hp : p.2 = d <;> simp [hp]
    have h2 : S.filter (fun a => decide (a.2 = d) && decide ¬a.2 ≤ d) = [] :=
      List.filter_eq_nil_iff.mpr fun p _ => by simp; omega
    simp only [decide_true, if_true, List.filter_cons, List.filter_nil, h1, h2]
  · simp only [hde, decide_false, Bool.false_eq_true, if_false, List.filter_cons, List.filter_nil,
      List.append_nil]
    by_cases hle : e ≤ d
    · have h1 : S.filter (fun a => decide (a.2 = e) && decide (a.2 ≤ d)) =
          S.filter fun p => p.2 = e := List.filter_congr fun p _ => by
        by_cases hp : p.2 = e <;> simp [hp, hle]
      have h2 : S.filter (fun a => decide (a.2 = e) && decide ¬a.2 ≤ d) = [] :=
        List.filter_eq_nil_iff.mpr fun p _ => by simp; omega
      rw [h1, h2, List.append_nil]
    · have h1 : S.filter (fun a => decide (a.2 = e) && decide (a.2 ≤ d)) = [] :=
        List.filter_eq_nil_iff.mpr fun p _ => by simp; omega
      have h2 : S.filter (fun a => decide (a.2 = e) && decide ¬a.2 ≤ d) =
          S.filter fun p => p.2 = e := List.filter_congr fun p _ => by
        by_cases hp : p.2 = e <;> simp [hp, hle]
      rw [h1, h2, List.nil_append]

theorem perm_of_same (h : ∀ d, S.filter (fun p => p.2 = d) = σ.pending.filter fun p => p.2 = d) :
    S.Perm σ.pending := by
  refine List.perm_iff_count.mpr fun p => ?_
  have hc (l : List (Nat × Nat)) : (l.filter fun q => q.2 = p.2).count p = l.count p :=
    List.count_filter (by simp)
  rw [← hc, h, hc]

namespace SleepInv

theorem mem_iff (h : SleepInv L tcbs m σ S) {t : Nat} :
    t ∈ S.map Prod.fst ↔ t ∈ σ.pending.map Prod.fst := by
  simp only [List.mem_map, (perm_of_same h.same).mem_iff]

theorem length_lt (h : SleepInv L tcbs m σ S) (hp : TcbsApart L tcbs) : S.length < walkLimit := by
  have hlt := length_lt_of_nodup (n := 2 ^ 64) h.sleep.list.nodup (by decide) fun x hx =>
    hp.inside x (h.sub x (List.mem_append_left _ hx))
  rwa [List.length_map] at hlt

theorem expired (h : SleepInv L tcbs m σ S) :
    SleepList.woken (σ.now + 1) S = (σ.pending.filter fun p => p.2 = σ.now + 1).map Prod.fst ∧
    ∀ d, (SleepList.asleep (σ.now + 1) S).filter (fun p => p.2 = d) =
      (σ.pending.filter fun p => p.2 ≠ σ.now + 1).filter fun p => p.2 = d := by
  obtain ⟨ht, hd⟩ := takeWhile_eq_filter (d := σ.now + 1) h.sleep.delays.sorted
  have hfut := h.future
  refine ⟨?_, fun d => ?_⟩
  · rw [SleepList.woken, ht, ← h.same]
    congr 1
    refine List.filter_congr fun p hp => decide_eq_decide.mpr ?_
    have := hfut p hp
    omega
  · have hrest : (SleepList.asleep (σ.now + 1) S).filter (fun p => p.2 = d) =
        (S.filter fun p => p.2 = d).filter fun p => p.2 ≠ σ.now + 1 := by
      rw [SleepList.asleep, hd, List.filter_filter, List.filter_filter]
      refine List.filter_congr fun p hp => ?_
      have := hfut p hp
      have heq : (¬p.2 ≤ σ.now + 1) ↔ p.2 ≠ σ.now + 1 := by omega
      rw [Bool.and_comm]
      simp only [heq]
    rw [hrest, h.same, List.filter_filter, List.filter_filter]
    refine List.filter_congr fun p _ => Bool.and_comm _ _

variable {t s : Nat}

theorem of_boot (h : ∀ l, l = L.scheduler ∨ l = L.sleepQueue →
    m.field l Field.head = 0 ∧ m.field l Field.tail = 0) : SleepInv L tcbs m ⟨0, [], []⟩ [] := by
  have hnil (l : Nat) (hl : l = L.scheduler ∨ l = L.sleepQueue) : IsList m.view l [] := by
    refine ⟨⟨.cons_cons ⟨?_, ?_⟩ (.singleton _), by simp⟩, by simp⟩
    · simpa [tcbNext, Mem.view] using (h l hl).1
    · simpa [tcbPrev, Mem.view] using (h l hl).2
  exact ⟨⟨hnil _ (.inr rfl), trivial, by simp⟩, hnil _ (.inl rfl), by simp, by simp, by simp, by simp⟩

/-- `put_to_sleep` adds a deadline, and hands no thread over. -/
theorem putToSleep (h : SleepInv L tcbs m σ S) (hp : TcbsApart L tcbs) (ht : t ∈ tcbs)
    (hpend : t ∉ σ.pending.map Prod.fst) (hr : t ∉ σ.ready) (hs : 1 ≤ s ∧ s < 2 ^ 64) :
    ∃ m' g', (TCBSleepQueue.putToSleep L.sleepQueue t s).run m g = .done () m' g' ∧ g' = g ∧
      SleepInv L tcbs m' { σ with pending := σ.pending ++ [(t, σ.now + s)] }
        (insertSleep t (σ.now + s) S) := by
  have hin := hp.inside t ht
  have htS : t ∉ S.map Prod.fst := fun hm => hpend (h.mem_iff.mp hm)
  have hown : ∀ x ∈ t :: S.map Prod.fst, SleepCells (Obj.own L.heap (sleepObjs L tcbs)) x := by
    intro x hx
    rcases List.mem_cons.mp hx with rfl | hx
    · exact sleepObjs_tcb ht
    · exact sleepObjs_tcb (h.sub x (List.mem_append_left _ hx))
  have hmem : ∀ p ∈ insertSleep t (σ.now + s) S, p = (t, σ.now + s) ∨ p ∈ S := by
    intro p hpm
    rcases List.mem_append.mp hpm with hpm | hpm
    · exact .inr (List.takeWhile_subset _ hpm)
    · exact (List.mem_cons.mp hpm).imp_right fun hpm => List.dropWhile_subset _ hpm
  have hready (v' : Cells) (hc : Changes [L.sleepQueue] (t :: S.map Prod.fst) Field.sched m.view v') :
      IsList v' L.scheduler σ.ready := by
    refine hc.isList h.ready (by simpa using L.scheduler_ne) (by simp [Field.sched]) fun y hy hm => ?_
    rcases List.mem_cons.mp hm with rfl | hm
    · exact hr hy
    · exact h.apart y hm hy
  obtain ⟨_, m', g', v', hrun, hsim, -, rfl, hr', hs'⟩ := Prog.returns (sleepObjs_separate hp)
    (Sim.self _ m) (h.sleep.wp_putToSleep (g := g)
      (Q := fun _ v' g' => g' = g ∧ IsList v' L.scheduler σ.ready ∧
        SleepList v' L.sleepQueue σ.now (insertSleep t (σ.now + s) S))
      (by omega) htS hin.2 hs.2 sleepObjs_lists.1 hown (h.length_lt hp)
      fun v' hc _ hs' => ⟨rfl, hready v' hc, hs'⟩)
  refine ⟨m', _, hrun, rfl, hs'.of_sim hsim sleepObjs_lists.1 fun x hx => ?_,
    hr'.of_sim hsim sleepObjs_lists.2 fun x hx => ?_, fun d => ?_, fun p hpm => ?_, fun x hx => ?_,
    fun x hx => ?_⟩
  · obtain ⟨p, hpm, rfl⟩ := List.mem_map.mp hx
    refine hown _ ?_
    rcases hmem p hpm with rfl | hpm
    · exact List.mem_cons_self
    · exact List.mem_cons_of_mem _ (List.mem_map.mpr ⟨p, hpm, rfl⟩)
  · exact (sleepObjs_tcb (h.sub x (List.mem_append_right _ hx))).toLinkCells
  · rw [filter_insertSleep h.sleep.delays.sorted, h.same, List.filter_append]
  · rcases hmem p hpm with rfl | hpm
    · simp only
      omega
    · exact h.future p hpm
  · obtain ⟨p, hpm, rfl⟩ := List.mem_map.mp hx
    rcases hmem p hpm with rfl | hpm
    · exact hr
    · exact h.apart _ (List.mem_map.mpr ⟨p, hpm, rfl⟩)
  · rcases List.mem_append.mp hx with hx | hx
    · obtain ⟨p, hpm, rfl⟩ := List.mem_map.mp hx
      rcases hmem p hpm with rfl | hpm
      · exact ht
      · exact h.sub _ (List.mem_append_left _ (List.mem_map.mpr ⟨p, hpm, rfl⟩))
    · exact h.sub x (List.mem_append_right _ hx)

/-- `timer_tick` hands over the threads whose deadline it is, in the order in which they were put to
sleep. -/
theorem timerTick (h : SleepInv L tcbs m σ S) (hp : TcbsApart L tcbs) :
    ∃ m' g', (TCBSleepQueue.timerTick L L.sleepQueue).run m g = .done () m' g' ∧
      g'.trace = g.trace ++ (σ.pending.filter fun p => p.2 = σ.now + 1).map (fun p => .readied p.1) ∧
      SleepInv L tcbs m' ⟨σ.now + 1, σ.pending.filter fun p => p.2 ≠ σ.now + 1,
        σ.ready ++ (σ.pending.filter fun p => p.2 = σ.now + 1).map Prod.fst⟩
        (SleepList.asleep (σ.now + 1) S) := by
  obtain ⟨hwoken, hasleep⟩ := h.expired
  have hown : ∀ x ∈ S.map Prod.fst ++ σ.ready,
      SleepCells (Obj.own L.heap (sleepObjs L tcbs)) x := fun x hx => sleepObjs_tcb (h.sub x hx)
  have hsub : (SleepList.asleep (σ.now + 1) S).Sublist S := List.dropWhile_sublist _
  have hwsub : ∀ x ∈ SleepList.woken (σ.now + 1) S, x ∈ S.map Prod.fst := fun x hx => by
    obtain ⟨p, hpm, rfl⟩ := List.mem_map.mp hx
    exact List.mem_map.mpr ⟨p, List.takeWhile_subset _ hpm, rfl⟩
  obtain ⟨_, m', g', v', hrun, hsim, -, rfl, hr', hs'⟩ := Prog.returns (sleepObjs_separate hp)
    (Sim.self _ m) (h.sleep.wp_timerTick (L := L) (R := σ.ready) (g := g)
      (Q := fun _ v' g' => g' = { g with
          trace := g.trace ++ (SleepList.woken (σ.now + 1) S).map .readied } ∧
        IsList v' L.scheduler (σ.ready ++ SleepList.woken (σ.now + 1) S) ∧
        SleepList v' L.sleepQueue (σ.now + 1) (SleepList.asleep (σ.now + 1) S))
      h.future h.ready L.scheduler_ne.symm h.apart sleepObjs_lists.1 sleepObjs_lists.2 hown
      (h.length_lt hp) fun v' _ hs' hr' _ => ⟨rfl, hr', hs'⟩)
  have hnd : (S.map Prod.fst).Nodup := h.sleep.list.nodup
  have hsplit : S.map Prod.fst = SleepList.woken (σ.now + 1) S ++
      (SleepList.asleep (σ.now + 1) S).map Prod.fst := by
    rw [SleepList.woken, SleepList.asleep, ← List.map_append, List.takeWhile_append_dropWhile]
  refine ⟨m', _, hrun, ?_, hs'.of_sim hsim sleepObjs_lists.1 fun x hx => ?_, ?_, hasleep,
    fun p hpm => ?_, fun x hx hm => ?_, fun x hx => ?_⟩
  · rw [hwoken, List.map_map]
    rfl
  · obtain ⟨p, hpm, rfl⟩ := List.mem_map.mp hx
    exact hown _ (List.mem_append_left _ (List.mem_map.mpr ⟨p, hsub.subset hpm, rfl⟩))
  · rw [hwoken] at hr'
    refine hr'.of_sim hsim sleepObjs_lists.2 fun x hx => (hown x ?_).toLinkCells
    rw [← hwoken] at hx
    rcases List.mem_append.mp hx with hx | hx
    · exact List.mem_append_right _ hx
    · exact List.mem_append_left _ (hwsub x hx)
  · have hfut := h.future p (hsub.subset hpm)
    have hd := (takeWhile_eq_filter (d := σ.now + 1) h.sleep.delays.sorted).2
    rw [SleepList.asleep, hd] at hpm
    have := (List.mem_filter.mp hpm).2
    simp only [decide_eq_true_eq] at this
    simp only
    omega
  · rw [← hwoken] at hm
    rcases List.mem_append.mp hm with hm | hm
    · obtain ⟨p, hpm, rfl⟩ := List.mem_map.mp hx
      exact h.apart _ (List.mem_map.mpr ⟨p, hsub.subset hpm, rfl⟩) hm
    · rw [hsplit] at hnd
      exact (List.nodup_append.mp hnd).2.2 _ hm _ hx rfl
  · rw [← hwoken, ← List.append_assoc] at hx
    refine h.sub x ?_
    rcases List.mem_append.mp hx with hx | hx
    · rcases List.mem_append.mp hx with hx | hx
      · obtain ⟨p, hpm, rfl⟩ := List.mem_map.mp hx
        exact List.mem_append_left _ (List.mem_map.mpr ⟨p, hsub.subset hpm, rfl⟩)
      · exact List.mem_append_right _ hx
    · exact List.mem_append_left _ (hwsub x hx)

theorem nextTcb {r : Nat} (h : SleepInv L tcbs m σ S) (hp : TcbsApart L tcbs)
    (hrun : (Scheduler.nextTcb L).run m g = .done r m' g') :
    SleepInv L tcbs m' { σ with ready := σ.ready.tail } S := by
  have hsleep (v' : Cells) (hc : Changes [L.scheduler] σ.ready [.next, .prev] m.view v') :
      SleepList v' L.sleepQueue σ.now S := by
    refine ⟨hc.isList h.sleep.list (by simpa using L.scheduler_ne.symm) (by simp) h.apart,
      h.sleep.delays.congr fun s _ => hc _ _ (by simp) (by simp), h.sleep.lt⟩
  have hwp : (Scheduler.nextTcb L).wp (Obj.own L.heap (sleepObjs L tcbs)) m.view g
      (fun _ v' _ => SleepList v' L.sleepQueue σ.now S ∧ IsList v' L.scheduler σ.ready.tail)
      fun _ _ _ _ => False := by
    have hready := h.ready
    cases hR : σ.ready with
    | nil =>
      rw [hR] at hready hsleep
      simp only [Scheduler.nextTcb, Prog.wp_bind, wp_log, Prog.wp_pure]
      exact hready.wp_takeFirst_nil sleepObjs_lists.2 ⟨hsleep _ (.refl _ _ _ _), hready⟩
    | cons t R =>
      rw [hR] at hready hsleep
      refine hready.wp_nextTcb sleepObjs_lists.2 (fun x hx => ?_) fun v' hc hr' => ⟨hsleep v' hc, hr'⟩
      exact (sleepObjs_tcb (h.sub x (List.mem_append_right _ (hR ▸ hx)))).toLinkCells
  obtain ⟨_, _, _, v', heq, hsim, -, hs', hr'⟩ := Prog.returns (sleepObjs_separate hp)
    (Sim.self _ m) hwp
  rw [hrun] at heq
  cases heq
  have htail : ∀ x ∈ σ.ready.tail, x ∈ σ.ready := fun x hx => List.mem_of_mem_tail hx
  have hown : ∀ x ∈ S.map Prod.fst ++ σ.ready,
      SleepCells (Obj.own L.heap (sleepObjs L tcbs)) x := fun x hx => sleepObjs_tcb (h.sub x hx)
  refine ⟨hs'.of_sim hsim sleepObjs_lists.1 fun x hx => hown x (List.mem_append_left _ hx),
    hr'.of_sim hsim sleepObjs_lists.2 fun x hx => ?_, h.same, h.future,
    fun x hx hm => h.apart x hx (htail x hm), fun x hx => h.sub x ?_⟩
  · exact (hown x (List.mem_append_right _ (htail x hx))).toLinkCells
  · exact List.mem_append.mpr ((List.mem_append.mp hx).imp_right (htail x))

theorem putTcb (h : SleepInv L tcbs m σ S) (hp : TcbsApart L tcbs) (ht : t ∈ tcbs)
    (hpend : t ∉ σ.pending.map Prod.fst) (hr : t ∉ σ.ready)
    (hrun : (Scheduler.putTcb L t).run m g = .done () m' g') :
    SleepInv L tcbs m' { σ with ready := σ.ready ++ [t] } S := by
  have hin := hp.inside t ht
  have htS : t ∉ S.map Prod.fst := fun hm => hpend (h.mem_iff.mp hm)
  have hown : ∀ x ∈ t :: σ.ready, SleepCells (Obj.own L.heap (sleepObjs L tcbs)) x := by
    intro x hx
    rcases List.mem_cons.mp hx with rfl | hx
    · exact sleepObjs_tcb ht
    · exact sleepObjs_tcb (h.sub x (List.mem_append_right _ hx))
  have hsleep (v' : Cells) (hc : Changes [L.scheduler] (t :: σ.ready) [.next, .prev]
      (m.view.set t .status TCBStatus.ready.code) v') : SleepList v' L.sleepQueue σ.now S := by
    have hset (a : Nat) (f : Field) (hf : f ≠ .status) :
        m.view.set t .status TCBStatus.ready.code a f = m.view a f := View.set_field_ne hf
    have hlist : IsList (m.view.set t .status TCBStatus.ready.code) L.sleepQueue (S.map Prod.fst) :=
      h.sleep.list.congr ⟨hset _ _ (by decide), hset _ _ (by decide)⟩
        fun _ _ => ⟨hset _ _ (by decide), hset _ _ (by decide)⟩
    refine ⟨hc.isList hlist (by simpa using L.scheduler_ne.symm) (by simp) fun x hx hm => ?_,
      h.sleep.delays.congr fun s _ => ?_, h.sleep.lt⟩
    · rcases List.mem_cons.mp hm with rfl | hm
      · exact htS hx
      · exact h.apart x hx hm
    · rw [hc _ _ (by simp) (by simp), hset _ _ (by decide)]
  obtain ⟨_, _, _, v', heq, hsim, -, hs', hr'⟩ := Prog.returns (sleepObjs_separate hp)
    (Sim.self _ m) (h.ready.wp_putTcb (g := g)
      (Q := fun _ v' _ => SleepList v' L.sleepQueue σ.now S ∧ IsList v' L.scheduler (σ.ready ++ [t]))
      (by omega) hr hin.2 sleepObjs_lists.2 hown fun v' hc hr' => ⟨hsleep v' hc, hr'⟩)
  rw [hrun] at heq
  cases heq
  refine ⟨hs'.of_sim hsim sleepObjs_lists.1 fun x hx =>
      sleepObjs_tcb (h.sub x (List.mem_append_left _ hx)),
    hr'.of_sim hsim sleepObjs_lists.2 fun x hx => (hown x ?_).toLinkCells, h.same, h.future,
    fun x hx hm => ?_, fun x hx => ?_⟩
  · simpa [or_comm] using hx
  · rcases List.mem_append.mp hm with hm | hm
    · exact h.apart x hx hm
    · exact htS (List.mem_singleton.mp hm ▸ hx)
  · rw [← List.append_assoc] at hx
    rcases List.mem_append.mp hx with hx | hx
    · exact h.sub x hx
    · exact List.mem_singleton.mp hx ▸ ht

end SleepInv

theorem sleepInv_of_run (hp : TcbsApart L tcbs) (h : SleepRun L tcbs m g σ) :
    ∃ S, SleepInv L tcbs m σ S := by
  induction h with
  | boot m g h => exact ⟨[], .of_boot h⟩
  | putToSleep t s _ ht hpend hr hs hrun ih =>
    obtain ⟨S, hinv⟩ := ih
    obtain ⟨_, _, heq, -, hinv'⟩ := hinv.putToSleep hp ht hpend hr hs
    rw [hrun] at heq
    cases heq
    exact ⟨_, hinv'⟩
  | timerTick _ hrun ih =>
    obtain ⟨S, hinv⟩ := ih
    obtain ⟨_, _, heq, -, hinv'⟩ := hinv.timerTick hp
    rw [hrun] at heq
    cases heq
    exact ⟨_, hinv'⟩
  | nextTcb _ hrun ih =>
    obtain ⟨S, hinv⟩ := ih
    exact ⟨S, hinv.nextTcb hp hrun⟩
  | putTcb t _ ht hpend hr hrun ih =>
    obtain ⟨S, hinv⟩ := ih
    exact ⟨S, hinv.putTcb hp ht hpend hr hrun⟩
  | other m' g' _ hl ht ih =>
    obtain ⟨S, hinv⟩ := ih
    have hmem := hinv.sub
    refine ⟨S, ⟨hinv.sleep.list.congr (hl _ (.inr rfl)) fun x hx => ?_, hinv.sleep.delays.congr
      fun s hs => ?_, hinv.sleep.lt⟩, hinv.ready.congr (hl _ (.inl rfl)) fun x hx => ?_, hinv.same,
      hinv.future, hinv.apart, hmem⟩
    · have := ht x (hmem x (List.mem_append_left _ hx))
      exact ⟨this.1, this.2.1⟩
    · exact (ht s.1 (hmem _ (List.mem_append_left _ (List.mem_map.mpr ⟨s, hs, rfl⟩)))).2.2
    · have := ht x (hmem x (List.mem_append_right _ hx))
      exact ⟨this.1, this.2.1⟩

/-- The sleep queue is a set of deadlines: a call with `s` ticks means the tick `now + s`, that tick
hands the thread over, threads of one tick in the order of the calls, and no time wraps around. -/
theorem sleep_queue_deadlines (hp : TcbsApart L tcbs) (h : SleepRun L tcbs m g σ) :
    (∀ t s, t ∈ tcbs → t ∉ σ.pending.map Prod.fst → t ∉ σ.ready → 1 ≤ s → s < 2 ^ 64 →
      ∃ m' g', (TCBSleepQueue.putToSleep L.sleepQueue t s).run m g = .done () m' g' ∧
        g'.trace = g.trace) ∧
    (∃ m' g', (TCBSleepQueue.timerTick L L.sleepQueue).run m g = .done () m' g' ∧
      g'.trace = g.trace ++
        (σ.pending.filter fun p => p.2 = σ.now + 1).map fun p => .readied p.1) ∧
    (∀ p ∈ σ.pending, σ.now < p.2) ∧ (σ.pending.map Prod.fst).Nodup := by
  obtain ⟨S, hinv⟩ := sleepInv_of_run hp h
  refine ⟨fun t s ht hpend hr hs hs' => ?_, ?_, fun p hpm => ?_, ?_⟩
  · obtain ⟨m', g', hrun, rfl, -⟩ := hinv.putToSleep hp ht hpend hr ⟨hs, hs'⟩
    exact ⟨m', _, hrun, rfl⟩
  · obtain ⟨m', g', hrun, htrace, -⟩ := hinv.timerTick (g := g) hp
    exact ⟨m', g', hrun, htrace⟩
  · exact hinv.future p ((perm_of_same hinv.same).mem_iff.mpr hpm)
  · exact ((perm_of_same hinv.same).map Prod.fst).nodup_iff.mp hinv.sleep.list.nodup

/-- A thread is put to sleep for two ticks, and then another one for one tick. -/
theorem sleep_queue_deadlines_smallImage : ∃ m₁ g₁ m₂ g₂ m₃ g₃,
    SleepRun smallImage [6144, 6656] m₁ g₁ ⟨0, [(6144, 2), (6656, 1)], []⟩ ∧
    (TCBSleepQueue.timerTick smallImage smallImage.sleepQueue).run m₁ g₁ = .done () m₂ g₂ ∧
    g₂.trace = g₁.trace ++ [.readied 6656] ∧
    (TCBSleepQueue.timerTick smallImage smallImage.sleepQueue).run m₂ g₂ = .done () m₃ g₃ ∧
    g₃.trace = g₂.trace ++ [.readied 6144] := by
  have hp : TcbsApart smallImage [6144, 6656] := by
    refine ⟨by simp, ?_, ?_⟩
    · simp [Apart]
    · intro t ht
      rcases List.mem_pair.mp ht with rfl | rfl
      · exact ⟨.inr (by decide), .inr (by decide)⟩
      · exact ⟨.inr (by decide), .inr (by decide)⟩
  have h : SleepRun smallImage [6144, 6656] (fun _ => 0) (.image 4096 0) ⟨0, [], []⟩ :=
    .boot _ _ fun l _ => ⟨rfl, rfl⟩
  obtain ⟨m, g, hrun, -⟩ := (sleep_queue_deadlines hp h).1 6144 2 (by simp) (by simp) (by simp)
    (by decide) (by decide)
  have h' := h.putToSleep 6144 2 (by simp) (by simp) (by simp) (by decide) hrun
  obtain ⟨m₁, g₁, hrun₁, -⟩ := (sleep_queue_deadlines hp h').1 6656 1 (by simp) (by simp) (by simp)
    (by decide) (by decide)
  have h₁ := h'.putToSleep 6656 1 (by simp) (by simp) (by simp) (by decide) hrun₁
  obtain ⟨m₂, g₂, hrun₂, htrace₂⟩ := (sleep_queue_deadlines hp h₁).2.1
  obtain ⟨m₃, g₃, hrun₃, htrace₃⟩ := (sleep_queue_deadlines hp (h₁.timerTick hrun₂)).2.1
  exact ⟨m₁, g₁, m₂, g₂, m₃, g₃, h₁, hrun₂, htrace₂, hrun₃, htrace₃⟩

end Os1Kernel
