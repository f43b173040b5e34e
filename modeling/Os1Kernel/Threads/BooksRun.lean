import Os1Kernel.Threads.Books

/-! Every step of the abstract machine adds to the log what the account allows. -/

namespace Os1Kernel

open Refine Ledger

/-- An account has been kept of the log, and nothing is due. -/
structure Books (L : Layout) (σ : Spec) (K : Ledger) : Prop where
  runs : Runs Reads empty σ.globals.trace K
  due : K.due = .nothing
  of : K.Of L σ
  current : σ.resuming = false → K.standing σ.current = .free

def Booked (L : Layout) (σ : Spec) : Prop := ∃ K, Books L σ K

namespace Owners.Tiled

variable {L : Layout} {W : Owners} {r r' : Nat × Nat} {s t : Nat}

theorem fst_ne (h : W.Tiled L) (hr : r ∈ W.used) (hr' : r' ∈ W.used) (hne : r ≠ r') :
    r.1 ≠ r'.1 := by
  have hap := h.apart_of_ne hr hr' hne
  have hp := (h.inside hr).2.2
  have hp' := (h.inside hr').2.2
  unfold BlocksApart Memory.Apart at hap
  omega

/-- What is not one block is not a semaphore. -/
theorem not_sem (h : W.Tiled L) (hr : r ∈ W.used) (hne : r.2 ≠ toBlocks sizeofSem) :
    r.1 ∉ W.semaphores L := by
  intro hs
  have hin := h.inside hr
  have htable := L.heap.spec.table_le_base
  rcases List.mem_cons.mp hs with heq | hs
  · have hlow := statics_below L (p := (.sem L.putcSem, L.putcSem, 24)) (by simp [staticSeats])
    simp only at hlow
    omega
  rcases List.mem_cons.mp hs with heq | hs
  · have hlow := statics_below L (p := (.sem L.getcSem, L.getcSem, 24)) (by simp [staticSeats])
    simp only at hlow
    omega
  have hmem : ∃ r' ∈ W.used, r'.1 = r.1 ∧ r'.2 = toBlocks sizeofSem := by
    rcases List.mem_append.mp hs with hs | hs
    · obtain ⟨u, hu, hj⟩ := List.mem_map.mp hs
      exact ⟨_, mem_thread hu (r := (W.join u, toBlocks sizeofSem)) (by simp [ofThread]), hj, rfl⟩
    · exact ⟨_, mem_sem hs, rfl, rfl⟩
  obtain ⟨r', hr', h1, h2⟩ := hmem
  exact h.fst_ne hr hr' (fun heq => hne (heq ▸ h2)) h1.symm

end Owners.Tiled

namespace Books

variable {L : Layout} {σ τ : Spec} {K : Ledger} {s t n x : Nat} {c : Cont} {R xs : List Nat}
  {A : Account} {l : List Action}

theorem log (h : Books L σ K) {x : Action} (hx : x.plain = true) : Books L (σ.log x) K :=
  ⟨h.runs.snoc (.plain h.due hx), h.due, h.of.log x, h.current⟩

theorem alike (h : Books L σ K) (ha : Alike L σ τ) (htrace : τ.globals.trace = σ.globals.trace) :
    Books L τ K := by
  refine ⟨htrace ▸ h.runs, h.due, h.of.alike ha, fun hr => ?_⟩
  rw [ha.current]
  exact h.current (ha.resuming ▸ hr)

theorem alike_refl (L : Layout) (σ : Spec) (g : Globals) (hg : g.currentTcb = σ.globals.currentTcb) :
    Alike L σ (σ.on g) := ⟨⟨rfl, rfl, rfl, rfl, rfl⟩, rfl, rfl, rfl, hg, rfl⟩

theorem take (h : Books L σ K) : Books L σ.take K :=
  (h.alike (alike_refl L σ { σ.globals with getcBuffer := σ.globals.getcBuffer.get.2 } rfl) rfl).log rfl

theorem store (h : Books L σ K) (p0 : Nat) : Books L (σ.store p0) K :=
  (h.alike (alike_refl L σ { σ.globals with
    putcBuffer := σ.globals.putcBuffer.put (UInt8.ofNat p0) } rfl) rfl).log rfl

/-! ### Waits and signals -/

/-- A wait that does not block. -/
theorem pass (h : Books L σ K) (hr : σ.resuming = false) (hs : s ∈ σ.owners.semaphores L)
    (hpos : 0 ≤ toInt (decBits (σ.abs.bits s))) : Booked L (σ.pass s) := by
  obtain ⟨A, hA, -, hbits⟩ := h.of.sem s hs
  have hb : decBits (σ.abs.bits s) = intBits ({ A with waits := A.waits + 1 } : Account).value := by
    rw [hbits, decBits_intBits]
    congr 1
    simp only [Account.value]
    omega
  have hcall := h.runs.snoc (.waitCalled h.due hA (h.current hr))
  have hret := hcall.snoc (.passed rfl (setSem_same _ _ _) (hb ▸ hpos))
  exact ⟨_, hret, rfl, (((h.of.setBits (B := { A with waits := A.waits + 1 }) hA rfl hb).setDue _).setDue _).alike
    ⟨⟨rfl, rfl, rfl, rfl, rfl⟩, rfl, rfl, rfl, rfl, rfl⟩, h.current⟩

/-- A wait that blocks. -/
theorem block (h : Books L σ K) (hr : σ.resuming = false) (hcur : σ.current ∈ σ.owners.tcbs L)
    (hc : c.sem L = some s) (hs : s ∈ σ.owners.semaphores L)
    (hneg : toInt (decBits (σ.abs.bits s)) < 0) (hR : σ.abs.ready = n :: R) (hn : n ≠ 0) :
    Booked L ((σ.block s c).switch n R x) := by
  obtain ⟨A, hA, -, hbits⟩ := h.of.sem s hs
  have hb : decBits (σ.abs.bits s) = intBits ({ A with waits := A.waits + 1 } : Account).value := by
    rw [hbits, decBits_intBits]
    congr 1
    simp only [Account.value]
    omega
  have hcall := h.runs.snoc (.waitCalled h.due hA (h.current hr))
  have hblock := hcall.snoc (.blocked rfl (setSem_same _ _ _) (hb ▸ hneg))
  have hpick := hblock.snoc (.picked rfl (h.of.ready.trans hR) hn)
  have hof := (((h.of.setBits (B := { A with waits := A.waits + 1 }) hA rfl hb).setDue
    (.wait σ.current s)).suspend (c := c) hr hcur (setSem_same _ _ _)).setDue .nothing
  refine ⟨_, hpick, rfl, (hof.switch (fun _ => ?_) x).alike
    ⟨⟨rfl, rfl, rfl, rfl, rfl⟩, rfl, rfl, rfl, rfl, rfl⟩, fun hres => (by cases hres)⟩
  refine (Function.update_self ..).trans ?_
  have hcont : ((σ.setBits s (decBits (σ.abs.bits s))).suspend s c).abs.cont σ.current = c :=
    Function.update_self (β := fun _ => Cont) ..
  have hmem : σ.current ∈ ((σ.setBits s (decBits (σ.abs.bits s))).suspend s c).abs.waiting s := by
    change σ.current ∈ Function.update σ.abs.waiting s (σ.abs.waiting s ++ [σ.current]) s
    rw [Function.update_self]
    simp
  change _ = Spec.standing L _ σ.current
  rw [Spec.standing, hcont, hc]
  simp only [hmem, if_true]

theorem signal (h : Books L σ K) (hv : Valid L σ) (hτ : Reasoned L σ)
    (hs : s ∈ σ.owners.semaphores L) (ho : ∀ t, K.owner s ≠ some t) : Booked L (σ.signal s) := by
  obtain ⟨A, hA, hsusp, hbits⟩ := h.of.sem s hs
  have hb : u32 (σ.abs.bits s + 1) =
      intBits ({ A with signals := A.signals + 1 } : Account).value := by
    rw [hbits, succ_intBits]
    congr 1
    simp only [Account.value]
    omega
  have hval : (A.value + 1 : Int) = ({ A with signals := A.signals + 1 } : Account).value := by
    simp only [Account.value]
    omega
  have hof := h.of.setBits (B := { A with signals := A.signals + 1 }) hA rfl hb
  have hstart : Ledger.Of L (σ.signalStart s) (K.setSem s { A with signals := A.signals + 1 }) :=
    hof.alike ⟨⟨rfl, rfl, rfl, rfl, rfl⟩, rfl, rfl, rfl, rfl, rfl⟩
  unfold Spec.signal
  split
  · rename_i hle
    rw [hb, ← hval] at hle
    split
    · rename_i hw
      exact ⟨_, h.runs.snoc (.signalled h.due hA (.inr (hsusp.trans hw))), h.due, hstart, h.current⟩
    · rename_i t R hw
      have ht : t ∈ σ.abs.waiting s := hw ▸ List.mem_cons_self
      have hcont := hτ.waiting s hs t ht
      have htc : t ≠ σ.current := fun heq => hv.not_waiting hs (heq ▸ ht)
      have htcb : t ∈ σ.owners.tcbs L := hv.mem_tcbs.mpr (.inr (Valid.queued_waiting hs ht))
      have hstand : K.standing t = .blocked s := by
        rw [h.of.standing t htcb (.inl htc), Spec.standing, hcont]
        simp only [ht, if_true]
      have hnd := hv.waiting_nodup hs
      rw [hw] at hnd
      have hsig := h.runs.snoc (.woke h.due hA hle (by rw [hsusp, hw]; simp))
      have hrel := hsig.snoc (.released rfl (setSem_same _ _ _) (hsusp.trans hw) hstand
        (by
          cases hown : K.owner s with
          | none => exact hown
          | some t => exact absurd hown (ho t)))
      have hready := hrel.snoc (.followed rfl (by
        change t ∉ K.ready
        rw [h.of.ready]
        exact hv.waiting_ready hs ht))
      have hend := (hstart.setDue (.release s)).release htcb htc (setSem_same _ _ _) hcont hw
        (List.nodup_cons.mp hnd).1 (hsusp.trans hw) false
      refine ⟨_, hready, rfl, { hend with }, fun hres => ?_⟩
      exact (Function.update_of_ne (Ne.symm htc) _ _).trans (h.current hres)
  · rename_i hgt
    rw [hb, ← hval] at hgt
    exact ⟨_, h.runs.snoc (.signalled h.due hA (.inl (by omega))), h.due, hstart, h.current⟩

/-! ### The end of a semaphore -/

/-- What is known of the threads `xs` while `s` is closed. -/
structure Closes (L : Layout) (σ : Spec) (K : Ledger) (s : Nat) (xs : List Nat) : Prop where
  runs : Runs Reads empty σ.globals.trace K
  of : K.Of L σ
  due : K.due = .nothing ∧ K.owner s = none ∨ K.due = .close s
  sem : s ∈ σ.owners.semaphores L
  waiting : σ.abs.waiting s = xs
  nodup : xs.Nodup
  tcbs : ∀ t ∈ xs, t ∈ σ.owners.tcbs L
  current : ∀ t ∈ xs, t ≠ σ.current
  ready : ∀ t ∈ xs, t ∉ σ.abs.ready
  cont : ∀ t ∈ xs, (σ.abs.cont t).sem L = some s

theorem Closes.cons (h : Closes L σ K s (t :: R)) : ∃ K', Closes L (σ.release s t R true) K' s R ∧
    K'.standing σ.current = K.standing σ.current ∧ K'.owner = K.owner := by
  obtain ⟨A, hA, hsusp, -⟩ := h.of.sem s h.sem
  have ht : t ∈ t :: R := List.mem_cons_self
  have hsub : ∀ u ∈ R, u ∈ t :: R := fun u hu => List.mem_cons_of_mem _ hu
  have htc := h.current t ht
  obtain ⟨hnot, hnd⟩ := List.nodup_cons.mp h.nodup
  have hstand : K.standing t = .blocked s := by
    rw [h.of.standing t (h.tcbs t ht) (.inl htc), Spec.standing, h.cont t ht]
    simp only [h.waiting, ht, if_true]
  have hrel := h.runs.snoc (.failed h.due hA (hsusp.trans h.waiting) hstand)
  have hready := hrel.snoc (.followed rfl (by
    change t ∉ K.ready
    rw [h.of.ready]
    exact h.ready t ht))
  have hof := h.of.release (h.tcbs t ht) htc hA (h.cont t ht) h.waiting hnot (hsusp.trans h.waiting)
    true
  refine ⟨_, ⟨hready, { hof with }, .inr rfl, h.sem, ?_, hnd, fun u hu => h.tcbs u (hsub u hu),
    fun u hu => h.current u (hsub u hu), fun u hu => ?_, fun u hu => h.cont u (hsub u hu)⟩,
    Function.update_of_ne (Ne.symm htc) _ _, rfl⟩
  · exact Function.update_self (β := fun _ => List Nat) ..
  · change u ∉ σ.abs.ready ++ [t]
    refine List.mem_append.not.mpr (not_or.mpr ⟨h.ready u (hsub u hu), ?_⟩)
    rw [List.mem_singleton]
    rintro rfl
    exact hnot hu

theorem Closes.all (h : Closes L σ K s xs) : ∃ K', Closes L (σ.releaseAll s xs) K' s [] ∧
    K'.standing σ.current = K.standing σ.current ∧ K'.owner = K.owner := by
  induction xs generalizing σ K with
  | nil => exact ⟨K, h, rfl, rfl⟩
  | cons t R ih =>
    obtain ⟨K₁, h₁, hs₁, ho₁⟩ := h.cons
    obtain ⟨K₂, h₂, hs₂, ho₂⟩ := ih h₁
    exact ⟨K₂, h₂, hs₂.trans hs₁, ho₂.trans ho₁⟩

/-- The threads that wait on `s`, when nothing has been done to them. -/
theorem closes (hruns : Runs Reads empty σ.globals.trace K) (hof : K.Of L σ)
    (hd : K.due = .nothing ∧ K.owner s = none ∨ K.due = .close s) (hv : Valid L σ)
    (hτ : Reasoned L σ) (hs : s ∈ σ.owners.semaphores L) : Closes L σ K s (σ.abs.waiting s) where
  runs := hruns
  of := hof
  due := hd
  sem := hs
  waiting := rfl
  nodup := hv.waiting_nodup hs
  tcbs _ ht := hv.mem_tcbs.mpr (.inr (Valid.queued_waiting hs ht))
  current _ ht heq := hv.not_waiting hs (heq ▸ ht)
  ready _ ht := hv.waiting_ready hs ht
  cont := hτ.waiting s hs

/-- A semaphore that belongs to no thread. -/
theorem no_owner (h : Books L σ K) (hv : Valid L σ) (hs : s = L.putcSem ∨ s = L.getcSem ∨
    s ∈ σ.owners.sems) : K.owner s = none := by
  have hnd := hv.tiled.semaphores_nodup
  simp only [Owners.semaphores, List.nodup_cons, List.nodup_append, List.mem_cons, List.mem_append,
    not_or] at hnd
  obtain ⟨⟨-, hputc, -⟩, ⟨hgetc, -⟩, -, -, hdisj⟩ := hnd
  cases ho : K.owner s with
  | none => rfl
  | some t =>
    obtain ⟨ht, hj⟩ := h.of.owned s t ho
    have hmem : s ∈ σ.owners.threads.map σ.owners.join := hj ▸ List.mem_map_of_mem ht
    rcases hs with rfl | rfl | hs
    · exact absurd hmem hputc
    · exact absurd hmem hgetc
    · exact absurd rfl (hdisj s hmem s hs)

theorem closeSem (h : Books L σ K) (hv : Valid L σ) (hτ : Reasoned L σ) (hr : σ.resuming = false)
    {W : Owners} (fbHead : Nat) (hs : s ∈ σ.owners.sems)
    (hW : SameThreads { σ.owners with sems := σ.owners.sems.filter (· ≠ s) } W) :
    Booked L (σ.closeSem s W fbHead) := by
  have hmem : s ∈ σ.owners.semaphores L :=
    List.mem_cons_of_mem _ (List.mem_cons_of_mem _ (List.mem_append_right _ hs))
  have hnone := h.no_owner hv (.inr (.inr hs))
  obtain ⟨K', hc, hst, ho⟩ := (closes h.runs h.of (.inl ⟨h.due, hnone⟩) hv hτ hmem).all
  obtain ⟨hown, -, -, -, -, -, hres, trace, hg⟩ := Inside.releaseAll_same σ s (σ.abs.waiting s)
  have hcur : (σ.releaseAll s (σ.abs.waiting s)).current = σ.current := by
    rw [Spec.current, hg]
    rfl
  obtain ⟨A, hA, hsusp, -⟩ := hc.of.sem s hc.sem
  have hown' : K'.owner s = none := by rw [ho, hnone]
  have hfree := hc.runs.snoc (.freedSem hc.due hA (hsusp.trans hc.waiting))
  have hof := hc.of.dropSem (hown ▸ hW) (hown ▸ hv.tiled) (hown ▸ hs) hown' fbHead
  refine ⟨_, hfree, ?_, { hof.log _ with }, fun _ => ?_⟩
  · change Due.dropped (K'.owner s) = .nothing
    rw [hown']
    rfl
  change K'.standing (σ.releaseAll s (σ.abs.waiting s)).current = .free
  rw [hcur, hst]
  exact h.current hr

/-! ### The life of threads -/

theorem create (h : Books L σ K) (hv : Valid L σ) (hτ : Reasoned L σ)
    {j usr kernel : Nat} {W : Owners} (fbHead : Nat) (ht : t ∉ σ.owners.tcbs L)
    (hj : j ∉ σ.owners.semaphores L) (hW : SameThreads { σ.owners with
        threads := t :: σ.owners.threads
        join := Function.update σ.owners.join t j
        stack := Function.update σ.owners.stack t usr
        kernelStack := Function.update σ.owners.kernelStack t kernel } W) :
    Booked L (σ.create t j W fbHead) := by
  have hopen := h.runs.snoc (.initialized (v := 0) h.due (h.of.dead j hj))
  have hnone : K.owner j = none := by
    cases hown : K.owner j with
    | none => rfl
    | some u =>
      obtain ⟨hu, rfl⟩ := h.of.owned j u hown
      exact absurd (List.mem_cons_of_mem _ (List.mem_cons_of_mem _ (List.mem_append_left _
        (List.mem_map_of_mem hu)))) hj
  have hnew (s : Nat) : K.owner s ≠ some t := fun hown =>
    ht (List.mem_cons_of_mem _ (h.of.owned s t hown).1)
  have hcreated := hopen.snoc (.created (t := σ.current) (h := t) h.due hnone (setSem_same K j _) hnew)
  have hready := hcreated.snoc (.readied (t := t) h.due (by
    change t ∉ K.ready
    rw [h.of.ready]
    exact fun hm => ht (hv.mem_tcbs.mpr (.inr (Valid.queued_ready hm)))))
  have hof := h.of.create fbHead ht hj (hτ.unused j hj) hW
  exact ⟨_, hready, h.due, hof, h.current⟩

theorem exit (h : Books L σ K) (hv : Valid L σ) (hτ : Reasoned L σ) (hr : σ.resuming = false)
    {W : Owners} (fbHead : Nat) (ht : σ.current ∈ σ.owners.threads)
    (hW : SameThreads { σ.owners with threads := σ.owners.threads.filter (· ≠ σ.current) } W)
    (hR : (σ.exit W fbHead).abs.ready = n :: R) : Booked L ((σ.exit W fbHead).switch n R x) := by
  have hmem : σ.owners.join σ.current ∈ σ.owners.semaphores L :=
    List.mem_cons_of_mem _ (List.mem_cons_of_mem _ (List.mem_append_left _ (List.mem_map_of_mem ht)))
  -- the thread ends, and those who wait for it become ready
  have hend := h.runs.snoc (.terminated (t := σ.current) h.due (h.of.owner _ ht))
  have hv' : Valid L (σ.log (.terminated σ.current)) := ⟨hv.tiled, hv.place, hv.bits, hv.moving⟩
  have hτ' : Reasoned L (σ.log (.terminated σ.current)) := ⟨hτ.waiting, hτ.unused, hτ.asleep⟩
  obtain ⟨K', hc, hst, ho⟩ := (closes hend ((h.of.log _).setDue _) (.inr rfl) hv' hτ' hmem).all
  obtain ⟨hown, -, -, -, -, -, -, trace, hg⟩ := Inside.releaseAll_same (σ.log (.terminated σ.current))
    (σ.owners.join σ.current) ((σ.log (.terminated σ.current)).abs.waiting (σ.owners.join σ.current))
  have hcur : ((σ.log (.terminated σ.current)).releaseAll (σ.owners.join σ.current)
      ((σ.log (.terminated σ.current)).abs.waiting (σ.owners.join σ.current))).current = σ.current := by
    rw [Spec.current, hg]
    rfl
  generalize hρ : (σ.log (.terminated σ.current)).releaseAll (σ.owners.join σ.current)
    ((σ.log (.terminated σ.current)).abs.waiting (σ.owners.join σ.current)) = ρ at *
  have hown' : ρ.owners = σ.owners := hown
  have hfree : K'.standing ρ.current = .free := by
    rw [hcur]
    exact hst.trans (h.current hr)
  obtain ⟨A, hA, hsusp, -⟩ := hc.of.sem _ hc.sem
  -- its memory is freed
  have hused (r : Nat × Nat) (hr : r ∈ σ.owners.ofThread σ.current) : r ∈ σ.owners.used :=
    Owners.Tiled.mem_thread ht hr
  have hblocks : toBlocks defaultStackSize ≠ toBlocks sizeofSem ∧
    toBlocks sizeofTCB ≠ toBlocks sizeofSem ∧ toBlocks sizeofTCB ≠ toBlocks defaultStackSize := by
    decide
  have htcb := hused (σ.current, toBlocks sizeofTCB) (by simp [Owners.ofThread])
  have hpart (a : Nat) (ha : (a, toBlocks defaultStackSize) ∈ σ.owners.ofThread σ.current) :
      K'.sem a = none ∧ ∀ s, K'.owner s ≠ some a := by
    refine ⟨hc.of.dead a ?_, fun s heq => ?_⟩
    · rw [hown']
      exact hv.tiled.not_sem (hused _ ha) hblocks.1
    · have hin := (hc.of.owned s a heq).1
      rw [hown'] at hin
      have htcb := Owners.Tiled.mem_thread hin (r := (a, toBlocks sizeofTCB)) (by simp [Owners.ofThread])
      exact hv.tiled.fst_ne htcb (hused _ ha) (fun h => hblocks.2.2 (congrArg Prod.snd h)) rfl
  have hdue : K'.due = .nothing ∨ ∃ s, K'.due = .close s := hc.due.imp And.left fun h => ⟨_, h⟩
  have hjown : K'.owner (σ.owners.join σ.current) = some σ.current := by
    rw [ho]
    exact h.of.owner _ ht
  have h1 := hc.runs.snoc (o := .freed (σ.owners.stack σ.current) MemoryAllocator.memSuccess)
    (.freed hdue fun _ => hpart _ (by simp [Owners.ofThread]))
  have h2 := h1.snoc (o := .freed (σ.owners.kernelStack σ.current) MemoryAllocator.memSuccess)
    (.freed hdue fun _ => hpart _ (by simp [Owners.ofThread]))
  have h3 := h2.snoc (.freedSem hc.due hA (hsusp.trans hc.waiting))
  have hjoin : σ.owners.join σ.current ≠ σ.current := by
    intro heq
    exact hv.tiled.not_sem htcb hblocks.2.1 (heq ▸ hmem)
  have h4 := h3.snoc (.freedTcb (t := σ.current) (congrArg Due.dropped hjown)
    ((Function.update_of_ne hjoin.symm _ _).trans (hc.of.dead _ (by
      rw [hown']
      exact hv.tiled.not_sem htcb hblocks.2.1))))
  have hof := hc.of.dropThread (by rw [hcur, hown']; exact hW) (hown' ▸ hv.tiled)
    (by rw [hcur, hown']; exact ht) hfree fbHead
  rw [hcur, hown'] at hof
  have hexit : Ledger.Of L (σ.exit W fbHead) { K' with
      sem := Function.update K'.sem (σ.owners.join σ.current) none
      due := .nothing
      owner := Function.update K'.owner (σ.owners.join σ.current) none } := by
    have ha : Alike L (ρ.retile W fbHead) (σ.exit W fbHead) := by
      subst hρ
      exact ⟨⟨rfl, rfl, rfl, rfl, rfl⟩, rfl, rfl, rfl, rfl, rfl⟩
    exact { hof.alike ha with }
  have hn : n ≠ 0 := by
    have hmem : n ∈ (σ.exit W fbHead).abs.ready := hR ▸ List.mem_cons_self
    rw [Reasoned.exit_abs] at hmem
    rcases List.mem_append.mp hmem with hmem | hmem
    · exact hv.ready_pos hmem
    · exact (hv.tiled.tcb_inside (hv.mem_tcbs.mpr (.inr (Valid.queued_waiting ‹_› hmem)))).1.ne'
  have hpick := h4.snoc (.picked (t := n) (R := R) rfl (hexit.ready.trans hR) hn)
  have hnot : (σ.exit W fbHead).current ∉ (σ.exit W fbHead).owners.tcbs L := by
    have hsame : (σ.exit W fbHead).current = ρ.current := by
      subst hρ
      rfl
    have hmain := (List.nodup_cons.mp hv.tiled.tcbs_nodup).1
    rw [hsame, hcur]
    change σ.current ∉ W.tcbs L
    rw [(hW.tcbs L).1]
    intro hm
    rcases List.mem_cons.mp hm with heq | hm
    · exact hmain (heq ▸ ht)
    · simp [List.mem_filter] at hm
  refine ⟨_, ?_, rfl, hexit.switch (fun hm => absurd hm hnot) x, fun hres => (by cases hres)⟩
  subst hρ
  exact hpick

/-! ### The scheduler -/

theorem dispatch (h : Books L σ K) (hv : Valid L σ) (hr : σ.resuming = false)
    (hc : c.sem L = none) (hR : (σ.requeue c).abs.ready = n :: R) :
    Booked L ((σ.requeue c).switch n R x) := by
  have hready := h.runs.snoc (.readied (t := σ.current) h.due (h.of.ready ▸ hv.not_ready))
  have hof := h.of.requeue (c := c) hr
  have hn : n ≠ 0 := by
    have hmem : n ∈ (σ.requeue c).abs.ready := hR ▸ List.mem_cons_self
    have hmem' : n ∈ σ.abs.ready ++ [σ.current] := hmem
    rcases List.mem_append.mp hmem' with hmem | hmem
    · exact hv.ready_pos hmem
    · rw [List.mem_singleton.mp hmem]
      exact (hv.tiled.tcb_inside (hv.mem_tcbs.mpr (.inl rfl))).1.ne'
  have hpick := hready.snoc (.picked h.due (hof.ready.trans hR) hn)
  refine ⟨_, hpick, h.due, hof.switch (fun _ => ?_) x, fun hres => (by cases hres)⟩
  refine (h.current hr).trans ?_
  have hcont : (σ.requeue c).abs.cont σ.current = c := Function.update_self (β := fun _ => Cont) ..
  change _ = Spec.standing L _ σ.current
  rw [Spec.standing, hcont, hc]

theorem sleep (h : Books L σ K) (hr : σ.resuming = false) (k : Nat) (hR : σ.abs.ready = n :: R)
    (hn : n ≠ 0) :
    Booked L ((σ.sleep k).switch n R x) := by
  have hof := h.of.sleep hr k
  have hpick := h.runs.snoc (.picked h.due (hof.ready.trans hR) hn)
  refine ⟨_, hpick, h.due, hof.switch (fun _ => ?_) x, fun hres => (by cases hres)⟩
  refine (h.current hr).trans ?_
  have hcont : (σ.sleep k).abs.cont σ.current = .dispatched :=
    Function.update_self (β := fun _ => Cont) ..
  change _ = Spec.standing L _ σ.current
  rw [Spec.standing, hcont]
  rfl

theorem runs_woken (hruns : Runs Reads empty l K) (hd : K.due = .nothing) (hnd : xs.Nodup)
    (hx : ∀ t ∈ xs, t ∉ K.ready) :
    Runs Reads empty (l ++ xs.map .readied) { K with ready := K.ready ++ xs } := by
  induction xs generalizing K l with
  | nil => simpa using hruns
  | cons t R ih =>
    obtain ⟨hnot, hnd⟩ := List.nodup_cons.mp hnd
    have hone := hruns.snoc (.readied hd (hx t List.mem_cons_self))
    have hrest := ih hone hd hnd fun u hu => by
      refine List.mem_append.not.mpr (not_or.mpr ⟨hx u (List.mem_cons_of_mem _ hu), ?_⟩)
      rw [List.mem_singleton]
      rintro rfl
      exact hnot hu
    simpa using hrest

theorem tick (h : Books L σ K) (hv : Valid L σ) : Books L σ.tick { K with
    ready := K.ready ++ σ.woken } := by
  have hsub : (σ.woken).Sublist (σ.abs.asleep.map Prod.fst) :=
    (List.takeWhile_sublist _).map _
  have hnot (t : Nat) (ht : t ∈ σ.woken) : t ∉ K.ready := by
    rw [h.of.ready]
    exact hv.asleep_ready (hsub.subset ht)
  have hruns := runs_woken h.runs h.due (hsub.nodup hv.asleep_nodup) hnot
  have hwake : Books L σ.wake { K with ready := K.ready ++ σ.woken } :=
    ⟨hruns, h.due, { h.of with ready := congrArg (· ++ σ.woken) h.of.ready }, h.current⟩
  exact (hwake.alike (τ := σ.wake.on { σ.wake.globals with
    timerTicks := u64 (σ.globals.timerTicks + 1) }) (alike_refl L _ _ rfl) rfl).log rfl

/-- The standing of the thread that has been picked. -/
theorem standing_current (hv : Valid L σ) (hτ : Reasoned L σ) (hc : (σ.abs.cont σ.current).sem L = some s) :
    σ.standing L σ.current = .released s (σ.abs.flag σ.current) := by
  have hnot : σ.current ∉ σ.abs.waiting s := by
    by_cases hs : s ∈ σ.owners.semaphores L
    · exact hv.not_waiting hs
    · rw [hτ.unused s hs]
      exact List.not_mem_nil
  rw [Spec.standing, hc]
  simp only [hnot, if_false]

theorem afterBlock (h : Books L σ K) (hv : Valid L σ) (hτ : Reasoned L σ) (hr : σ.resuming = true)
    (hc : (σ.abs.cont σ.current).sem L = some s) :
    Books L { σ.reset.afterBlock s with resuming := false } (K.setStanding σ.current .free) := by
  have hmem : σ.current ∈ σ.owners.tcbs L := hv.mem_tcbs.mpr (.inl rfl)
  have hstand := (h.of.standing _ hmem (.inr hr)).trans (standing_current hv hτ hc)
  have hret := h.runs.snoc (.resumed h.due hstand)
  refine ⟨hret, h.due, h.of.resume (τ := σ.reset.afterBlock s) rfl rfl rfl hr hmem _, fun _ => ?_⟩
  exact Function.update_self ..

/-- A thread that has been picked and was in no wait. -/
theorem goOn (h : Books L σ K) (hv : Valid L σ) (hr : σ.resuming = true)
    (hc : (σ.abs.cont σ.current).sem L = none) : Books L { σ with resuming := false } K := by
  have hmem : σ.current ∈ σ.owners.tcbs L := hv.mem_tcbs.mpr (.inl rfl)
  have hstand : K.standing σ.current = .free := by
    rw [h.of.standing _ hmem (.inr hr), Spec.standing, hc]
  have hof := h.of.resume (τ := σ) rfl rfl rfl hr hmem (K.standing σ.current)
  have hself : K.setStanding σ.current (K.standing σ.current) = K := by
    simp [setStanding]
  rw [hself] at hof
  exact ⟨h.runs, h.due, hof, fun _ => hstand⟩

theorem resume (h : Books L σ K) (hv : Valid L σ) (hτ : Reasoned L σ) (hr : σ.resuming = true) :
    Booked L (σ.resume L) := by
  unfold Spec.resume
  cases hc : σ.abs.cont σ.current with
  | fresh => exact ⟨_, (h.goOn hv hr (by rw [hc]; rfl)).log rfl⟩
  | preempted => exact ⟨_, (h.goOn hv hr (by rw [hc]; rfl)).alike (alike_refl L _ _ rfl) rfl⟩
  | dispatched => exact ⟨_, (h.goOn hv hr (by rw [hc]; rfl)).alike (alike_refl L _ _ rfl) rfl⟩
  | joining s => exact ⟨_, h.afterBlock hv hτ hr (by rw [hc]; rfl)⟩
  | waiting s => exact ⟨_, h.afterBlock hv hτ hr (by rw [hc]; rfl)⟩
  | reading =>
    have hafter := h.afterBlock (s := L.getcSem) hv hτ hr (by rw [hc]; rfl)
    exact ⟨_, hafter.take⟩
  | writing p0 =>
    have hafter := h.afterBlock (s := L.putcSem) hv hτ hr (by rw [hc]; rfl)
    exact ⟨_, hafter.store p0⟩

end Books

/-- The steps keep the books. -/
theorem kept_booked (L : Layout) : Kept L fun σ => Reasoned L σ ∧ Booked L σ := by
  intro σ σ' hs h
  refine ⟨kept_reasoned L σ σ' hs h.1, ?_⟩
  obtain ⟨hτ, K, h⟩ := h
  cases hs with
  | called | returned => exact ⟨K, h.log rfl⟩
  | pass hv hr hc hcont hs hpos => exact h.pass hr hs hpos
  | passRead hv hr hpos =>
    obtain ⟨K', h'⟩ := h.pass hr (List.mem_cons_of_mem _ List.mem_cons_self) hpos
    exact ⟨K', h'.take⟩
  | passWrite hv hr p0 hpos =>
    have hcalled : Books L (σ.called 0x42 p0) K := h.log rfl
    obtain ⟨K', h'⟩ := hcalled.pass hr List.mem_cons_self hpos
    exact ⟨K', h'.store p0⟩
  | blockWrite hv hr p0 hneg hR =>
    have hcalled : Books L (σ.called 0x42 p0) K := h.log rfl
    exact hcalled.block hr (hv.mem_tcbs.mpr (.inl rfl)) rfl List.mem_cons_self hneg hR
      (hv.ready_pos (hR ▸ List.mem_cons_self))
  | block hv hr hc hs hneg hR =>
    exact h.block hr (hv.mem_tcbs.mpr (.inl rfl)) hc.sem hs hneg hR
      (hv.ready_pos (hR ▸ List.mem_cons_self))
  | signal hv hr hs =>
    have hnone := h.no_owner hv (.inr (.inr hs))
    refine h.signal hv hτ ?_ fun t ht => ?_
    · exact List.mem_cons_of_mem _ (List.mem_cons_of_mem _ (List.mem_append_right _ hs))
    · rw [hnone] at ht
      cases ht
  | receive hv hr temp =>
    have hput := (h.alike (Books.alike_refl L σ { σ.globals with
      getcBuffer := σ.globals.getcBuffer.put temp } rfl) rfl).log (x := .received temp) rfl
    refine hput.signal ⟨hv.tiled, hv.place, hv.bits, hv.moving⟩ ⟨hτ.waiting, hτ.unused, hτ.asleep⟩
      (List.mem_cons_of_mem _ List.mem_cons_self) fun t ht => ?_
    rw [h.no_owner hv (.inr (.inl rfl))] at ht
    cases ht
  | flushChar hv hr =>
    have hget := h.alike (Books.alike_refl L σ { σ.globals with
      putcBuffer := σ.globals.putcBuffer.get.2
      console := σ.globals.console ++ [σ.globals.putcBuffer.get.1] } rfl) rfl
    refine hget.signal ⟨hv.tiled, hv.place, hv.bits, hv.moving⟩ ⟨hτ.waiting, hτ.unused, hτ.asleep⟩
      List.mem_cons_self fun t ht => ?_
    rw [h.no_owner hv (.inl rfl)] at ht
    cases ht
  | dispatch hv hr hc hR =>
    refine h.dispatch hv hr ?_ hR
    rcases hc with rfl | rfl <;> rfl
  | sleep hv hr hk hR => exact h.sleep hr _ hR (hv.ready_pos (hR ▸ List.mem_cons_self))
  | tick hv => exact ⟨_, h.tick hv⟩
  | preempt hv hr _ hR => exact (h.tick hv).dispatch hv.tick hr rfl hR
  | resume hv hr => exact h.resume hv hτ hr
  | userMode hv hr p0 sstatus =>
    have hlog := h.log (x := .called σ.current 0xff p0) rfl
    exact ⟨K, hlog.alike ⟨⟨rfl, rfl, rfl, rfl, rfl⟩, rfl, rfl, rfl, rfl, rfl⟩ rfl⟩
  | sstatus => exact ⟨K, h.alike (Books.alike_refl L _ _ rfl) rfl⟩
  | retile hv hr fbHead hW =>
    exact ⟨K, h.alike ⟨⟨rfl, rfl, rfl, rfl, rfl⟩, hW.threads, hW.join, hW.sems, rfl, rfl⟩ rfl⟩
  | @openSem hv hr s value W fbHead hvalue hnew hW =>
    have hopen := h.runs.snoc (.initialized (v := value) h.due (h.of.dead s hnew))
    exact ⟨_, hopen, h.due, h.of.openSem fbHead hnew (hτ.unused s hnew) hvalue hW, h.current⟩
  | closeSem hv hr fbHead hs hW => exact h.closeSem hv hτ hr fbHead hs hW
  | create hv hr fbHead ht hj hW => exact h.create hv hτ fbHead ht hj hW
  | flush => exact ⟨K, h.alike ⟨⟨rfl, rfl, rfl, rfl, rfl⟩, rfl, rfl, rfl, rfl, rfl⟩ rfl⟩
  | freed hv hr a code ha =>
    refine ⟨K, h.runs.snoc (.freed (.inl h.due) fun hcode => ⟨h.of.dead a (ha hcode).2, ?_⟩), h.due,
      h.of.log _, h.current⟩
    exact fun s hs => (ha hcode).1 (h.of.owned s a hs).1
  | exit hv hr fbHead ht _ hW hR => exact h.exit hv hτ hr fbHead ht hW hR

/-- The books of the boot. -/
theorem booked_initial (L : Layout) (mainStack : Nat) (tiles : List Tiling.Tile) (fbHead sstatus : Nat) :
    Booked L (.initial L mainStack tiles fbHead sstatus) := by
  have hne : L.getcSem ≠ L.putcSem := by
    have hap := L.apart
    simp only [List.pairwise_cons] at hap
    have hap' := hap.2.2.2.1 (L.getcSem, 24) List.mem_cons_self
    simp only [Memory.Apart] at hap'
    omega
  have h1 : Reads empty (.initialized L.putcSem ioBufferSize) _ := .initialized rfl rfl
  have h2 := Reads.initialized (K := { empty.setSem L.putcSem (.opened ioBufferSize) with
    fresh := L.putcSem }) (s := L.getcSem) (v := 0) rfl (Function.update_of_ne hne _ _)
  refine ⟨_, ⟨_, h1, _, h2, rfl⟩, rfl, ⟨rfl, fun s hs => ?_, fun s hs => ?_, fun t _ _ => rfl,
    fun _ _ => rfl, fun t ht => absurd ht List.not_mem_nil, fun s t ht => by cases ht⟩, fun _ => rfl⟩
  · have hmem : s ≠ L.putcSem ∧ s ≠ L.getcSem := by
      refine ⟨fun heq => hs (heq ▸ List.mem_cons_self), fun heq => hs ?_⟩
      exact heq ▸ List.mem_cons_of_mem _ List.mem_cons_self
    exact (setSem_ne _ hmem.2 _).trans (setSem_ne _ hmem.1 _)
  · have hs' : s = L.putcSem ∨ s = L.getcSem := by
      simpa [Owners.semaphores, Spec.initial] using hs
    rcases hs' with rfl | rfl
    · refine ⟨.opened ioBufferSize, ?_, rfl, ?_⟩
      · exact (setSem_ne _ hne.symm _).trans (setSem_same _ _ _)
      · change (if L.putcSem = L.putcSem then ioBufferSize else 0) = _
        rw [if_pos rfl]
        decide
    · refine ⟨.opened 0, setSem_same _ _ _, rfl, ?_⟩
      change (if L.getcSem = L.putcSem then ioBufferSize else 0) = _
      rw [if_neg hne]
      decide

end Os1Kernel
