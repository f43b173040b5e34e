import Os1Kernel.Traps.Private

/-! Switches between threads: `yield` and what it leads to, and the threads that `create_tcb` prepares. -/

namespace Os1Kernel.Harts

open Memory Rv64 Assembly

variable {T : Type}

/-- No thread has the hart: the one that had it has called `k_save_context` or has exited. -/
structure Idle (K : Symbols) (S : Shared T) (A : Private T) : Prop where
  zero : S.hart.reg .zero = 0
  supervisor : S.supervisor = true
  places : Placed K S
  parked : ∀ t, Parked K S.hart.mem (S.place t) (S.phase t) (A.life t)

section Switch

variable {K : Symbols} {S : Shared T} {A : Private T} {v : Own} {k : Reg → Word} {e : Bool} {d : Nat}
  {t : T} {regs : Reg → Word}

/-- `k_current_context` is written. -/
theorem Idle.same_pointer (h : Idle K S A) (x : Word) (t : T) (ht : S.phase t ≠ none) :
    Same (S.place t) S.hart.mem (storeWord S.hart.mem K.kCurrentContext.toNat x) :=
  (h.places.sound t ht).symbol.same (Writes.storeWord _ _ _)

theorem Shared.Waits.alive (h : S.Waits t) : S.phase t ≠ none := by
  intro hnone
  rcases h with hf | ⟨e, d, hs⟩
  · rw [hnone] at hf
    cases hf
  · rw [hnone] at hs
    cases hs

theorem restoreHart_zero (hregs : regs .zero = 0) : (S.restoreHart K t regs).reg .zero = 0 := by
  rw [Shared.restoreHart]
  simpa using hregs

theorem Idle.restoreHart_facts (h : Idle K S A) (ht : S.phase t ≠ none) (regs : Reg → Word) :
    ((S.restoreHart K t regs).reg .a0).toNat = (S.place t).context ∧
      Shared.context K (S.restoreHart K t regs).mem = (S.place t).context ∧
      ∀ u, S.phase u ≠ none → Same (S.place u) S.hart.mem (S.restoreHart K t regs).mem := by
  have hlt := (h.places.sound t ht).context_lt
  have hc : (BitVec.ofNat 64 (S.place t).context).toNat = (S.place t).context := by
    rw [BitVec.toNat_ofNat]
    omega
  refine ⟨?_, ?_, h.same_pointer _⟩
  · change (Function.update regs .a0 (BitVec.ofNat 64 (S.place t).context) .a0).toNat = _
    rw [Function.update_self, hc]
  · change (loadWord (storeWord S.hart.mem K.kCurrentContext.toNat _) K.kCurrentContext.toNat).toNat = _
    rw [loadWord_storeWord_same, hc]

variable [DecidableEq T]

/-- The thread `t` has the hart, and it is where it was. -/
theorem Idle.resume {R : Shared T} (h : Idle K S A)
    (hplace : R.place = S.place) (hcur : R.current = t) (hlive : S.phase t ≠ none)
    (hzero : R.hart.reg .zero = 0)
    (hphase : ∀ u, u ≠ t → R.phase u = S.phase u)
    (hpointer : Shared.context K R.hart.mem = (S.place t).context)
    (hsame : ∀ u, u ≠ t → S.phase u ≠ none → Same (S.place u) S.hart.mem R.hart.mem)
    {l : Option Life} (hl : l = some (.live v k))
    (hrun : Running R (S.place t) v (R.phase t)) :
    Related K R { current := t, life := Function.update A.life t l } := by
  have hold (u : T) (hu : R.phase u ≠ none) : S.phase u ≠ none := by
    by_cases heq : u = t
    · rwa [heq]
    · rwa [← hphase u heq]
  constructor
  · exact hcur.symm
  · exact hzero
  · constructor
    · intro u hu
      rw [hplace]
      exact h.places.sound u (hold u hu)
    · intro u w hu hw hne
      rw [hplace]
      exact h.places.apart u w (hold u hu) (hold w hw) hne
  · rw [hplace, hcur]
    exact hpointer
  · rw [hplace, hcur]
    exact ⟨v, k, (Function.update_self ..).trans hl, hrun⟩
  · intro u hu
    rw [hcur] at hu
    change Parked K _ _ _ (Function.update A.life t l u)
    rw [hplace, hphase u hu, Function.update_of_ne hu]
    exact (h.parked u).same (hsame u hu)

/-- A suspended thread is picked: its call of `k_save_context` returns again, with its registers. -/
theorem Idle.restore_suspended (h : Idle K S A) (ht : S.phase t = some (.suspended e d))
    (hregs : regs .zero = 0) :
    ∃ S' A', S.restore K t regs = some S' ∧ A.Picks K t S'.hart.reg A' ∧ Related K S' A' ∧
      S'.phase t = some (.handling e d) := by
  have hlive : S.phase t ≠ none := Shared.Waits.alive (.inr ⟨e, d, ht⟩)
  obtain ⟨ha0, hpointer, hsame⟩ := h.restoreHart_facts hlive regs
  have hparked := (h.parked t).same (hsame t)
  rw [ht] at hparked
  generalize hl : A.life t = l at hparked
  cases hparked with
  | @suspended _ _ v k hsusp =>
    obtain ⟨w, hsaved, hk⟩ := hsusp.saved
    have hres := run_kRestoreContext ha0 (h.places.sound t hlive).context_lt hsaved
    generalize hg : (S.restoreHart K t regs).run kRestoreContext = g at hres
    have hreg (r : Reg) (hz : r ≠ .zero) (h0 : r ≠ .a0) : g.reg r = k r :=
      (hres.reg r hz h0).trans (hk r h0)
    have hra : g.reg .ra = K.afterSave := (hreg _ (by decide) (by decide)).trans hsusp.ra
    let S' : Shared T :=
      { S with hart := g, current := t, phase := Function.update S.phase t (some (.handling e d)) }
    have heq : S.restore K t regs = some S' := by
      simp only [Shared.restore, hg, hra, if_neg K.distinct, ht, Option.map_some, Phase.resume]
      exact if_pos ⟨trivial, hres.a0⟩
    refine ⟨S', _, heq, .resumed hl hreg, ?_⟩
    have hrun : Running S' (S.place t) v (S'.phase t) := by
      have hphase : S'.phase t = some (.handling e d) := Function.update_self ..
      rw [hphase]
      refine .handling ⟨?_, hsusp.room, ?_, ?_, ?_, ?_⟩
      · change Framed g.mem _ _ _
        rw [hres.mem]
        exact hsusp.framed
      · change (g.reg .sp).toNat = _
        rw [hreg _ (by decide) (by decide)]
        exact hsusp.sp
      · exact hres.sepc.trans hsusp.sepc
      · change Status (g.csr .sstatus) v
        rw [hres.sstatus]
        exact hsusp.status
      · exact h.supervisor
    have hrel : Related K S' { current := t, life := Function.update A.life t (A.life t) } := by
      apply h.resume (R := S') (t := t) rfl rfl hlive _ (fun u hu => Function.update_of_ne hu _ _) _ _ hl hrun
      · change g.reg .zero = 0
        rw [hres.zero]
        exact restoreHart_zero hregs
      · change Shared.context K g.mem = _
        rw [hres.mem]
        exact hpointer
      · intro u _ hu
        change Same _ _ g.mem
        rw [hres.mem]
        exact hsame u hu
    rw [Function.update_eq_self] at hrel
    exact ⟨hrel, Function.update_self ..⟩

/-- A new thread is picked: it starts with `k_tcb_run_wrapper` on its stack. -/
theorem Idle.restore_fresh (h : Idle K S A) (ht : S.phase t = some .fresh) (hregs : regs .zero = 0) :
    ∃ S' A', S.restore K t regs = some S' ∧ A.Picks K t S'.hart.reg A' ∧ Related K S' A' := by
  have hlive : S.phase t ≠ none := Shared.Waits.alive (.inl ht)
  have hlt := (h.places.sound t hlive).context_lt
  obtain ⟨ha0, hpointer, hsame⟩ := h.restoreHart_facts hlive regs
  have hparked := (h.parked t).same (hsame t)
  rw [ht] at hparked
  generalize hl : A.life t = l at hparked
  cases hparked with
  | @fresh usrSp supervisor hprep =>
    obtain ⟨w, hsaved⟩ := exists_saved contextSlots_nodup (S.restoreHart K t regs).mem
      (S.place t).context
    have hres := run_kRestoreContext ha0 hlt hsaved
    generalize hg : (S.restoreHart K t regs).run kRestoreContext = g at hres
    rw [← hres.mem] at hprep hpointer hsaved
    have hslot (r : Reg) (o : Nat) (hz : r ≠ .zero) (h0 : r ≠ .a0) (hs : (r, o) ∈ contextSlots) :
        g.reg r = loadWord g.mem ((S.place t).context + o) :=
      (hres.reg r hz h0).trans (hsaved (r, o) hs).symm
    have hra : g.reg .ra = K.kTcbStart :=
      (hslot .ra 0x00 (by decide) (by decide) (by decide)).trans hprep.ra
    have hst := run_kTcbStart (h := g) (K := K) rfl hpointer hlt
    generalize hj : g.run (kTcbStart K) = j at hst
    have hsstatus : j.csr .sstatus = loadWord g.mem ((S.place t).context + 0x108) := by
      rw [hst.sstatus, hres.sstatus, hres.mem]
    let S' : Shared T :=
      Shared.sret { S with hart := j, current := t, phase := Function.update S.phase t (some .fresh) }
    have heq : S.restore K t regs = some S' := by
      simp only [Shared.restore, hg, hra, hj, ht, Option.map_some, Phase.resume]
      rfl
    have hzero : j.reg .zero = 0 := by
      rw [hst.reg _ (by decide) (by decide), hres.zero]
      exact restoreHart_zero hregs
    have htp : j.reg .tp = 0 := by
      rw [hst.reg _ (by decide) (by decide),
        hslot .tp 0x20 (by decide) (by decide) (by decide)]
      exact hprep.tp
    have hlater (u : T) (hu : S.phase u ≠ none) (hne : u ≠ t) : Same (S.place u) g.mem j.mem := by
      have hc := (h.places.apart u t hu hlive hne).1
      refine Place.Clear.same (a := (S.place t).context) (n := 0x110) hc (hst.writes.mono ?_)
      intro a ha
      rw [List.mem_singleton.mp ha]
      exact ⟨_, List.mem_singleton_self _, Nat.le_add_right _ _, by simp⟩
    have hphase : S'.phase t = some .user := Function.update_self ..
    refine ⟨S', _, heq, .started hl hzero (hst.sp.trans hprep.usrSp) htp hst.ra, ?_⟩
    apply h.resume (R := S') (t := t) rfl rfl hlive hzero _ _ _ rfl
    · rw [hphase]
      refine .user ⟨rfl, hst.sepc, ?_, ?_, ?_⟩
      · change spp (j.csr .sstatus) = supervisor
        rw [hsstatus]
        exact hprep.spp
      · change sie (Function.update j.csr .sstatus (sretSstatus (j.csr .sstatus)) .sstatus) = true
        rw [Function.update_self, sie_sretSstatus, hsstatus]
        exact hprep.spie
      · change (loadWord j.mem _).toNat = _
        rw [hst.sysSp, hslot .sp 0x10 (by decide) (by decide) (by decide)]
        exact hprep.sysSp
    · intro u hu
      exact (Function.update_of_ne hu _ _).trans (Function.update_of_ne hu _ _)
    · change Shared.context K j.mem = _
      rw [Shared.context, hst.writes.loadWord, ← hpointer]
      · rfl
      · intro a ha
        rw [List.mem_singleton.mp ha]
        exact (h.places.sound t hlive).symbol.1.within le_rfl le_rfl (Nat.le_add_right _ _) (by simp)
    · intro u hne hu
      have hfirst := hsame u hu
      have hsecond := hlater u hu hne
      rw [hres.mem] at hsecond
      exact ⟨fun y h1 h2 => (hsecond.context y h1 h2).trans (hfirst.context y h1 h2),
        fun y h1 h2 => (hsecond.frame y h1 h2).trans (hfirst.frame y h1 h2)⟩

theorem Idle.restore (h : Idle K S A) (ht : S.Waits t) (hregs : regs .zero = 0) :
    ∃ S' A', S.restore K t regs = some S' ∧ A.Picks K t S'.hart.reg A' ∧ Related K S' A' := by
  rcases ht with hf | ⟨e, d, hs⟩
  · exact h.restore_fresh hf hregs
  · obtain ⟨S', A', hrestore, hpicks, hrel, -⟩ := h.restore_suspended hs hregs
    exact ⟨S', A', hrestore, hpicks, hrel⟩

/-- The state between the two halves of `yield`. -/
def Shared.halfway (K : Symbols) (S : Shared T) (e : Bool) (d : Nat) : Shared T :=
  { S.setPhase (some (.suspended e d)) with
    hart := Hart.run { S.hart with reg := S.saveRegs K } kSaveContext }

theorem Related.suspend (h : Related K S A) (hp : S.phase S.current = some (.handling e d))
    (hl : A.life S.current = some (.live v k)) :
    (S.halfway K e d).hart.reg .a0 = 0 ∧
      Idle K (S.halfway K e d) (A.set (some (.live v (S.saveRegs K)))) := by
  have hs := h.of_handling hp hl
  have hsound := h.placed
  have ha0 : ((S.saveRegs K) .a0).toNat = (S.place S.current).context := by
    have := hsound.context_lt
    rw [Shared.saveRegs, Function.update_self, BitVec.toNat_ofNat]
    omega
  have hregs (r : Reg) (h0 : r ≠ .a0) (hra : r ≠ .ra) : S.saveRegs K r = S.hart.reg r := by
    rw [Shared.saveRegs, Function.update_of_ne h0, Function.update_of_ne hra]
  have hst := run_kSaveContext (h := { S.hart with reg := S.saveRegs K }) ha0 hsound.context_lt
  rw [Shared.halfway]
  generalize hg : Hart.run { S.hart with reg := S.saveRegs K } kSaveContext = g at hst
  have hown := h.writes_own hst.writes fun a ha => by
    rw [List.mem_singleton.mp ha]
    exact .inl ⟨le_rfl, le_rfl⟩
  have hlive (t : T) (ht : (S.setPhase (some (.suspended e d))).phase t ≠ none) : S.phase t ≠ none := by
    by_cases heq : t = S.current
    · rw [heq]
      exact h.alive
    · rwa [S.setPhase_ne heq] at ht
  refine ⟨hst.a0, ⟨?_, hs.supervisor, ⟨fun t ht => h.places.sound t (hlive t ht),
    fun t u ht hu hne => h.places.apart t u (hlive t ht) (hlive u hu) hne⟩, fun t => ?_⟩⟩
  · change g.reg .zero = 0
    rw [hst.reg _ (by decide)]
    exact (hregs _ (by decide) (by decide)).trans h.zero
  · change Parked K g.mem (S.place t) (Function.update S.phase S.current _ t)
      (Function.update A.life A.current _ t)
    rw [h.current]
    by_cases heq : t = S.current
    · subst heq
      rw [Function.update_self, Function.update_self]
      refine .suspended ⟨⟨hs.framed.zero, ?_, ?_, fun he => ?_⟩, ⟨_, hst.saved, fun _ _ => rfl⟩, ?_,
        hs.room, ?_, hst.sepc.trans hs.sepc, ?_⟩
      · obtain ⟨w, hsaved, hw⟩ := hs.framed.frame
        refine ⟨w, hsaved.congr cpuRegistries_fits (hst.writes.same fun a ha => ?_), hw⟩
        have hsize : defaultStackSize = 4096 := rfl
        rw [List.mem_singleton.mp ha]
        refine hsound.own.symm.within ?_ ?_ le_rfl le_rfl
        · rw [Place.top]
          omega
        · rw [Place.top]
          omega
      · exact hst.usrSp.trans hs.framed.usrSp
      · exact hst.result.trans (hs.framed.a0 he)
      · rw [Shared.saveRegs, Function.update_of_ne (by decide), Function.update_self]
      · rw [hregs _ (by decide) (by decide)]
        exact hs.sp
      · rw [hst.sstatus]
        exact hs.status
    · rw [Function.update_of_ne heq, Function.update_of_ne heq]
      exact (h.parked t heq).same (hown.2 t heq)

theorem Related.yield_eq (h : Related K S A) (hp : S.phase S.current = some (.handling e d)) :
    S.yield K t regs = (S.halfway K e d).restore K t regs := by
  obtain ⟨v, k, hl, -⟩ := h.handling hp
  have ha0 := (h.suspend hp hl).1
  rw [Shared.yield, hp]
  exact if_neg (not_not.mpr ha0)

/-- `yield` succeeds, and the thread that it picks is where it was. -/
theorem Related.yield (h : Related K S A) (hp : S.phase S.current = some (.handling e d))
    (ht : t = S.current ∨ S.Waits t) (hregs : regs .zero = 0) :
    ∃ S' A', S.yield K t regs = some S' ∧
      A.Step K (.switch t (S.saveRegs K) S'.hart.reg) A' ∧ Related K S' A' := by
  obtain ⟨v, k, hl, -⟩ := h.handling hp
  have hidle := (h.suspend hp hl).2
  have hwaits : (S.halfway K e d).Waits t := by
    by_cases heq : t = S.current
    · refine .inr ⟨e, d, ?_⟩
      rw [heq]
      exact S.setPhase_same _
    · have hphase : (S.halfway K e d).phase t = S.phase t := S.setPhase_ne heq _
      rw [Shared.Waits, hphase]
      exact ht.resolve_left heq
  obtain ⟨S', A', hrestore, hpicks, hrel⟩ := hidle.restore hwaits hregs
  exact ⟨S', A', h.yield_eq hp ▸ hrestore, .switch (h.current ▸ hl) hpicks, hrel⟩

/-- The thread that runs exits. -/
theorem Related.exit (h : Related K S A) (hp : S.phase S.current = some (.handling e d))
    (ht : S.Waits t) (hregs : regs .zero = 0) :
    ∃ S' A', (S.setPhase none).restore K t regs = some S' ∧
      A.Step K (.exit t S'.hart.reg) A' ∧ Related K S' A' := by
  obtain ⟨v, k, hl, hs⟩ := h.handling hp
  have hne : t ≠ S.current := by
    rintro rfl
    rw [Shared.Waits, hp] at ht
    simp at ht
  have hlive (u : T) (hu : (S.setPhase none).phase u ≠ none) : u ≠ S.current ∧ S.phase u ≠ none := by
    by_cases heq : u = S.current
    · rw [heq, S.setPhase_same] at hu
      exact absurd rfl hu
    · rw [S.setPhase_ne heq] at hu
      exact ⟨heq, hu⟩
  have hidle : Idle K (S.setPhase none) (A.set none) := by
    refine ⟨h.zero, hs.supervisor, ⟨fun u hu => h.places.sound u (hlive u hu).2,
      fun u w hu hw hne => h.places.apart u w (hlive u hu).2 (hlive w hw).2 hne⟩, fun u => ?_⟩
    change Parked K S.hart.mem (S.place u) (Function.update S.phase S.current _ u)
      (Function.update A.life A.current _ u)
    rw [h.current]
    by_cases heq : u = S.current
    · rw [heq, Function.update_self, Function.update_self]
      exact .absent
    · rw [Function.update_of_ne heq, Function.update_of_ne heq]
      exact h.parked u heq
  have hwaits : (S.setPhase none).Waits t := by
    rw [Shared.Waits, S.setPhase_ne hne]
    exact ht
  obtain ⟨S', A', hrestore, hpicks, hrel⟩ := hidle.restore hwaits hregs
  exact ⟨S', A', hrestore, .exit (h.current ▸ hne) hpicks, hrel⟩

end Switch

/-! ### New threads -/

theorem Place.Disjoint.symm {p q : Place} (h : p.Disjoint q) : q.Disjoint p :=
  ⟨⟨h.1.1.symm, h.2.1.symm⟩, ⟨h.1.2.symm, h.2.2.symm⟩⟩

section Create

variable {K : Symbols} {S : Shared T} {A : Private T} {p : Place} {m : Mem} {usrSp sysSp sstatus : Word}
  {c : Nat}

theorem initContext_writes :
    Writes [(c, 0x110)] m (Shared.initContext K c usrSp sysSp sstatus m) := by
  intro y hy
  have := hy _ List.mem_cons_self
  simp only at this
  simp only [Shared.initContext]
  rw [storeWord_outside (by omega), storeWord_outside (by omega), storeWord_outside (by omega),
    storeWord_outside (by omega), storeWord_outside (by omega)]

theorem initContext_prepared (hp : p.Sound K) :
    Prepared K (Shared.initContext K p.context usrSp (BitVec.ofNat 64 p.top) sstatus m) p usrSp
      (spp sstatus) := by
  have hapart {a b : Nat} (h : a + 8 ≤ b ∨ b + 8 ≤ a) :
      Apart (p.context + a) 8 (p.context + b) 8 := by
    unfold Apart
    omega
  have hstatus : loadWord (Shared.initContext K p.context usrSp (BitVec.ofNat 64 p.top) sstatus m)
      (p.context + 0x108) = sstatus ||| 0x20#64 := by
    simp only [Shared.initContext]
    rw [loadWord_storeWord_apart (hapart (by omega)), loadWord_storeWord_same]
  constructor
  · simp only [Shared.initContext]
    rw [loadWord_storeWord_apart (hapart (by omega)), loadWord_storeWord_apart (hapart (by omega)),
      loadWord_storeWord_apart (hapart (by omega)), loadWord_storeWord_apart (hapart (by omega)),
      loadWord_storeWord_same]
  · simp only [Shared.initContext]
    rw [loadWord_storeWord_apart (hapart (by omega)), loadWord_storeWord_apart (hapart (by omega)),
      loadWord_storeWord_apart (hapart (by omega)), loadWord_storeWord_same, BitVec.toNat_ofNat]
    exact Nat.mod_eq_of_lt hp.top_lt
  · simp only [Shared.initContext]
    rw [loadWord_storeWord_apart (hapart (by omega)), loadWord_storeWord_apart (hapart (by omega)),
      loadWord_storeWord_same]
  · rw [hstatus]
    simp [spie]
  · rw [hstatus]
    simp [spp]
  · exact loadWord_storeWord_same _ _ _

theorem Related.create [DecidableEq T] {v : Own} {k : Reg → Word} {d : Nat} {t : T} (h : Related K S A)
    (hphase : S.phase S.current = some (.handling true d)) (hl : A.life S.current = some (.live v k))
    (ht : S.phase t = none) (hp : p.Sound K)
    (hapart : ∀ u, S.phase u ≠ none → (S.place u).Disjoint p) (usrSp : Word) :
    Related K (S.create K t p usrSp)
      { A with life := Function.update A.life t (some (.fresh usrSp v.supervisor)) } := by
  have hs := h.of_handling hphase hl
  let m := Shared.initContext K p.context usrSp (BitVec.ofNat 64 p.top) (S.hart.csr .sstatus) S.hart.mem
  have hw : Writes [(p.context, 0x110)] S.hart.mem m := initContext_writes
  have hprep : Prepared K m p usrSp v.supervisor := by
    rw [← hs.status.2.2]
    exact initContext_prepared hp
  have hsame (u : T) (hu : S.phase u ≠ none) : Same (S.place u) S.hart.mem m :=
    (hapart u hu).1.same hw
  have hcur : S.current ≠ t := by
    rintro rfl
    exact h.alive ht
  have hother (u : T) (hu : u ≠ t) : (S.create K t p usrSp).place u = S.place u ∧
      (S.create K t p usrSp).phase u = S.phase u :=
    ⟨Function.update_of_ne hu _ _, Function.update_of_ne hu _ _⟩
  have hnew : (S.create K t p usrSp).place t = p ∧ (S.create K t p usrSp).phase t = some .fresh :=
    ⟨Function.update_self .., Function.update_self ..⟩
  constructor
  · exact h.current
  · exact h.zero
  · constructor
    · intro u hu
      by_cases heq : u = t
      · rw [heq, hnew.1]
        exact hp
      · rw [(hother u heq).2] at hu
        rw [(hother u heq).1]
        exact h.places.sound u hu
    · intro u w hu hw hne
      by_cases hut : u = t
      · have hwt : w ≠ t := fun heq => hne (hut.trans heq.symm)
        rw [(hother w hwt).2] at hw
        rw [hut, hnew.1, (hother w hwt).1]
        exact (hapart w hw).symm
      · rw [(hother u hut).2] at hu
        rw [(hother u hut).1]
        by_cases hwt : w = t
        · rw [hwt, hnew.1]
          exact hapart u hu
        · rw [(hother w hwt).2] at hw
          rw [(hother w hwt).1]
          exact h.places.apart u w hu hw hne
  · change Shared.context K m = ((S.create K t p usrSp).place S.current).context
    rw [(hother _ hcur).1, ← h.pointer, Shared.context, hw.loadWord]
    · rfl
    · intro a ha
      rw [List.mem_singleton.mp ha]
      exact hp.symbol.1
  · refine ⟨v, k, (Function.update_of_ne hcur _ _).trans hl, ?_⟩
    change Running _ ((S.create K t p usrSp).place S.current) v
      ((S.create K t p usrSp).phase S.current)
    rw [(hother _ hcur).1, (hother _ hcur).2, hphase]
    exact .handling ⟨hs.framed.same (hsame _ h.alive), hs.room, hs.sp, hs.sepc, hs.status, hs.supervisor⟩
  · intro u hu
    change Parked K m _ _ (Function.update A.life t _ u)
    by_cases heq : u = t
    · rw [heq, hnew.1, hnew.2, Function.update_self]
      exact .fresh hprep
    · rw [(hother u heq).1, (hother u heq).2, Function.update_of_ne heq]
      exact (h.parked u hu).same (hsame u)

end Create

end Os1Kernel.Harts
