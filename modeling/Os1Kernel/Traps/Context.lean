import Os1Kernel.Source.Assembly

/-! What each piece of the code in assembly does to the registers and to memory. -/

namespace Os1Kernel.Assembly

open Memory Rv64

variable {h : Hart} {K : Symbols} {c top : Nat}

/-! ### The switch of stacks -/

/-- The three switches store `sp` at one offset of the current context and load it from another. -/
theorem run_swap {s ctx : Word} {o o' : Nat} (hc : loadWord h.mem s.toNat = ctx) :
    h.run [.csrw .sscratch .ra, .lds .ra s, .sd .sp o .ra, .ld .sp o' .ra, .csrr .ra .sscratch] =
      { reg := Function.update h.reg .sp
          (loadWord (storeWord h.mem (address ctx o) (h.reg .sp)) (address ctx o'))
        csr := Function.update h.csr .sscratch (h.reg .ra)
        mem := storeWord h.mem (address ctx o) (h.reg .sp) } := by
  simp only [Hart.run_cons, Hart.run_nil, Hart.exec, Hart.setReg, Hart.setCsr, reduceCtorEq, if_false]
  rw [hc]
  simp only [Function.update_self]
  congr 1
  funext r
  cases r <;> simp [Function.update]

theorem address_ctx {ctx : Word} {o : Nat} (hctx : ctx.toNat = c) (hc : c + 0x110 < 2 ^ 64)
    (ho : o ≤ 0x110) : address ctx o = c + o := by
  rw [address_eq (by omega), hctx]

theorem switchToKernelStack_eq {ctx : Word} (hcur : loadWord h.mem K.kCurrentContext.toNat = ctx)
    (hctx : ctx.toNat = c) (hc : c + 0x110 < 2 ^ 64) :
    h.run (switchToKernelStack K) =
      { reg := Function.update h.reg .sp (loadWord h.mem (c + 0x10))
        csr := Function.update h.csr .sscratch (h.reg .ra)
        mem := storeWord h.mem (c + 0x08) (h.reg .sp) } := by
  have happ : Apart (c + 0x08) 8 (c + 0x10) 8 := .inl (by omega)
  rw [switchToKernelStack, run_swap hcur, address_ctx hctx hc (by omega),
    address_ctx hctx hc (by omega), loadWord_storeWord_apart happ]

theorem switchToUserStack_eq {ctx : Word} (hcur : loadWord h.mem K.kCurrentContext.toNat = ctx)
    (hctx : ctx.toNat = c) (hc : c + 0x110 < 2 ^ 64) :
    h.run (switchToUserStack K) =
      { reg := Function.update h.reg .sp (loadWord h.mem (c + 0x08))
        csr := Function.update h.csr .sscratch (h.reg .ra)
        mem := storeWord h.mem (c + 0x10) (h.reg .sp) } := by
  have happ : Apart (c + 0x10) 8 (c + 0x08) 8 := .inr (by omega)
  rw [switchToUserStack, run_swap hcur, address_ctx hctx hc (by omega),
    address_ctx hctx hc (by omega), loadWord_storeWord_apart happ]

theorem switchToUserStackEcall_eq {ctx : Word} (hcur : loadWord h.mem K.kCurrentContext.toNat = ctx)
    (hctx : ctx.toNat = c) (hc : c + 0x110 < 2 ^ 64) :
    h.run (switchToUserStackEcall K) =
      { reg := Function.update (Function.update h.reg .sp (loadWord h.mem (c + 0x08))) .a0
          (loadWord h.mem (c + 0xf8))
        csr := Function.update h.csr .sscratch (h.reg .ra)
        mem := storeWord h.mem (c + 0x10) (h.reg .sp) } := by
  have h08 : Apart (c + 0x10) 8 (c + 0x08) 8 := .inr (by omega)
  have hf8 : Apart (c + 0x10) 8 (c + 0xf8) 8 := .inl (by omega)
  simp only [switchToUserStackEcall, Hart.run_cons, Hart.run_nil, Hart.exec, Hart.setReg, Hart.setCsr,
    reduceCtorEq, if_false]
  rw [hcur]
  simp only [Function.update_self, ne_eq, reduceCtorEq, not_false_eq_true, Function.update_of_ne]
  rw [address_ctx hctx hc (by omega), address_ctx hctx hc (by omega), address_ctx hctx hc (by omega),
    loadWord_storeWord_apart h08, loadWord_storeWord_apart hf8]
  congr 1
  funext r
  cases r <;> simp [Function.update]

/-! ### Traps -/

/-- What the start of a trap does: `sp` moves to the kernel stack that ends at `top`, and the registers
of the thread are kept there and in its context at `c`. -/
structure Entered (h h' : Hart) (c top : Nat) : Prop where
  sp : (h'.reg .sp).toNat = top - 240
  zero : h'.reg .zero = h.reg .zero
  csr : ∀ r, r ≠ .sscratch → h'.csr r = h.csr r
  usrSp : loadWord h'.mem (c + 0x08) = h.reg .sp
  frame : Saved h'.mem (top - 240) cpuRegistries h.reg
  writes : Writes [(c + 0x08, 8), (top - 240, 240)] h.mem h'.mem

theorem run_trapEntry {ctx : Word} (hcur : loadWord h.mem K.kCurrentContext.toNat = ctx)
    (hctx : ctx.toNat = c) (hc : c + 0x110 < 2 ^ 64) (htop : 240 ≤ top)
    (hsys : (loadWord h.mem (c + 0x10)).toNat = top) (happ : Apart c 0x110 (top - 240) 240) :
    Entered h (h.run (trapEntry K)) c top := by
  let g : Hart :=
    { reg := Function.update h.reg .sp (loadWord h.mem (c + 0x10) + BitVec.ofInt 64 (-240))
      csr := Function.update h.csr .sscratch (h.reg .ra)
      mem := storeWord h.mem (c + 0x08) (h.reg .sp) }
  have hg : h.run (trapEntry K) = g.run (spill .sp cpuRegistries) := by
    rw [trapEntry, saveCpuRegistriesOnStack, Hart.run_append, switchToKernelStack_eq hcur hctx hc,
      Hart.run_cons]
    simp only [Hart.exec, Hart.setReg, reduceCtorEq, if_false, Function.update_self,
      Function.update_idem]
    rfl
  have hlt := (loadWord h.mem (c + 0x10)).isLt
  have hsp : (g.reg .sp).toNat = top - 240 := by
    change (Function.update h.reg .sp (loadWord h.mem (c + 0x10) + BitVec.ofInt 64 (-240)) .sp).toNat = _
    rw [Function.update_self, BitVec.toNat_add, hsys, show (BitVec.ofInt 64 (-240)).toNat =
      2 ^ 64 - 240 from rfl]
    omega
  obtain ⟨hreg, hcsr, hsaved, hframe⟩ := run_spill (h := g) cpuRegistries_fits (by rw [hsp]; omega)
  have hwrites : Writes [(top - 240, 240)] g.mem (g.run (spill .sp cpuRegistries)).mem := by
    refine fun y hy => hframe y fun s hs => ?_
    have hin := cpuRegistries_fits.2 s hs
    have := hy _ List.mem_cons_self
    rw [hsp]
    omega
  have husr : Apart (c + 0x08) 8 (top - 240) 240 := happ.within (by omega) (by omega) le_rfl le_rfl
  rw [hg]
  constructor
  · rw [hreg, hsp]
  · rw [hreg]
    rfl
  · intro r hr
    rw [hcsr]
    exact Function.update_of_ne hr _ _
  · rw [hwrites.loadWord (by simpa using husr)]
    exact loadWord_storeWord_same _ _ _
  · rw [hsp] at hsaved
    intro s hs
    rw [hsaved s hs]
    apply Function.update_of_ne
    intro heq
    revert s
    decide
  · intro y hy
    have hstore := (Writes.storeWord h.mem (c + 0x08) (h.reg .sp)) y
    simp only [List.mem_cons, List.not_mem_nil, or_false, forall_eq_or_imp, forall_eq] at hy hstore
    rw [hwrites y (by simpa using hy.2)]
    exact hstore hy.1

/-- What the end of a trap does, where the kernel stack holds `v`: the thread has its registers back,
and after a system call the result in `a0`. -/
structure Exited (h h' : Hart) (c top : Nat) (ecall : Bool) (v : Reg → Word) : Prop where
  reg : ∀ r, r ≠ .zero → r ≠ .sp → (ecall = true → r ≠ .a0) → h'.reg r = v r
  a0 : ecall = true → h'.reg .a0 = loadWord h.mem (c + 0xf8)
  sp : h'.reg .sp = loadWord h.mem (c + 0x08)
  zero : h'.reg .zero = h.reg .zero
  csr : ∀ r, r ≠ .sscratch → h'.csr r = h.csr r
  sysSp : (loadWord h'.mem (c + 0x10)).toNat = top
  writes : Writes [(c + 0x10, 8)] h.mem h'.mem

theorem run_trapExit {ctx : Word} {ecall : Bool} {v : Reg → Word}
    (hcur : loadWord h.mem K.kCurrentContext.toNat = ctx) (hctx : ctx.toNat = c)
    (hc : c + 0x110 < 2 ^ 64) (htop : 240 ≤ top) (hlt : top < 2 ^ 64)
    (hsp : (h.reg .sp).toNat = top - 240) (hv : Saved h.mem (top - 240) cpuRegistries v) :
    Exited h (h.run (trapExit K ecall)) c top ecall v := by
  obtain ⟨hmem, hcsr, hin, hout⟩ := run_fill (h := h) cpuRegistries_fits hsp (by omega)
    cpuRegistries_nodup (by decide) (by decide) hv
  generalize hg : h.run (fill .sp cpuRegistries) = g at hmem hcsr hin hout
  have hgsp : g.reg .sp + BitVec.ofInt 64 240 = BitVec.ofNat 64 top := by
    rw [hout .sp (by decide)]
    apply BitVec.eq_of_toNat_eq
    rw [BitVec.toNat_add, hsp, BitVec.toNat_ofNat, show (BitVec.ofInt 64 240).toNat = 240 from rfl]
    omega
  obtain ⟨greg, gcsr, gmem⟩ := g
  subst hmem hcsr
  let g' : Hart := ⟨Function.update greg .sp (BitVec.ofNat 64 top), h.csr, h.mem⟩
  have hrestore : h.run restoreCpuRegistriesFromStack = g' := by
    rw [restoreCpuRegistriesFromStack, Hart.run_append, hg, Hart.run_cons, Hart.run_nil, Hart.exec,
      Hart.setReg, if_neg (by decide), hgsp]
  have hkeep (r : Reg) (hz : r ≠ .zero) (hs : r ≠ .sp) : greg r = v r :=
    hin r (mem_cpuRegistries r hz hs)
  have htopw : (BitVec.ofNat 64 top).toNat = top := by
    rw [BitVec.toNat_ofNat]
    omega
  rw [trapExit, Hart.run_append, hrestore]
  cases ecall with
  | false =>
    rw [if_neg Bool.false_ne_true, switchToUserStack_eq (h := g') hcur hctx hc]
    constructor
    · intro r hz hs _
      simpa [g', hs] using hkeep r hz hs
    · intro h0
      cases h0
    · simp [g']
    · simpa [g'] using hout .zero (by decide)
    · intro r hr
      simp [g', hr]
    · simpa [g'] using htopw
    · exact Writes.storeWord _ _ _
  | true =>
    rw [if_pos rfl, switchToUserStackEcall_eq (h := g') hcur hctx hc]
    constructor
    · intro r hz hs h0
      simpa [g', hs, h0 rfl] using hkeep r hz hs
    · simp [g']
    · simp [g']
    · simpa [g'] using hout .zero (by decide)
    · intro r hr
      simp [g', hr]
    · simpa [g'] using htopw
    · exact Writes.storeWord _ _ _

/-! ### Contexts -/

/-- What `k_save_context` does to the context at `c`: `usr_sp` and `a0` stay as they are. -/
structure Stowed (h h' : Hart) (c : Nat) : Prop where
  reg : ∀ r, r ≠ .a0 → h'.reg r = h.reg r
  a0 : h'.reg .a0 = 0
  csr : h'.csr = h.csr
  saved : Saved h'.mem c contextSlots h.reg
  sepc : loadWord h'.mem (c + 0x100) = h.csr .sepc
  sstatus : loadWord h'.mem (c + 0x108) = h.csr .sstatus
  usrSp : loadWord h'.mem (c + 0x08) = loadWord h.mem (c + 0x08)
  result : loadWord h'.mem (c + 0xf8) = loadWord h.mem (c + 0xf8)
  writes : Writes [(c, 0x110)] h.mem h'.mem

theorem run_kSaveContext (ha0 : (h.reg .a0).toNat = c) (hc : c + 0x110 < 2 ^ 64) :
    Stowed h (h.run kSaveContext) c := by
  obtain ⟨hreg, hcsr, hsaved, hframe⟩ := run_spill (h := h) contextSlots_fits
    (by rw [ha0]; exact hc)
  rw [ha0] at hsaved hframe
  generalize hg : h.run (spill .a0 contextSlots) = g at hreg hcsr hsaved hframe
  obtain ⟨greg, gcsr, gmem⟩ := g
  subst hreg hcsr
  simp only at hsaved hframe
  have haddr (o : Nat) (ho : o ≤ 0x110) : address (h.reg .a0) o = c + o := address_ctx ha0 hc ho
  let m := storeWord (storeWord gmem (c + 0x100) (h.csr .sepc)) (c + 0x108) (h.csr .sstatus)
  have hrest : Writes [(c + 0x100, 16)] gmem m := by
    intro y hy
    have := hy _ List.mem_cons_self
    change storeWord (storeWord gmem (c + 0x100) (h.csr .sepc)) (c + 0x108) (h.csr .sstatus) y = gmem y
    rw [storeWord_outside (by omega), storeWord_outside (by omega)]
  have hlow (o : Nat) (ho : o + 8 ≤ 0x100) : loadWord m (c + o) = loadWord gmem (c + o) := by
    apply hrest.loadWord
    intro p hp
    rw [List.mem_singleton.mp hp]
    exact .inl (by change c + o + 8 ≤ c + 0x100; omega)
  have hslots (s : Slot) (hs : s ∈ contextSlots) : s.2 + 8 ≤ 0x100 := by
    revert s
    decide
  have hold (o : Nat) (ho : ∀ s ∈ contextSlots, o + 8 ≤ s.2 ∨ s.2 + 8 ≤ o) :
      loadWord gmem (c + o) = loadWord h.mem (c + o) := by
    refine loadWord_congr fun y h1 h2 => hframe y fun s hs => ?_
    have := ho s hs
    omega
  have ha1 : loadWord m (c + 0xf0) = h.reg .a1 := by
    rw [hlow _ (by omega)]
    exact hsaved (.a1, 0xf0) (by decide)
  have hrun : h.run kSaveContext = ⟨Function.update h.reg .a0 0, h.csr, m⟩ := by
    rw [kSaveContext, Hart.run_append, hg]
    simp only [Hart.run_cons, Hart.run_nil, Hart.exec, Hart.setReg, reduceCtorEq, if_false, ne_eq,
      not_false_eq_true, Function.update_of_ne, Function.update_self, haddr _ (by omega : 0x100 ≤ 0x110),
      haddr _ (by omega : 0x108 ≤ 0x110), haddr _ (by omega : 0xf0 ≤ 0x110)]
    rw [show storeWord (storeWord gmem (c + 0x100) (h.csr .sepc)) (c + 0x108) (h.csr .sstatus) = m from rfl,
      ha1]
    congr 1
    funext r
    cases r <;> simp [Function.update]
  rw [hrun]
  constructor
  · intro r hr
    exact Function.update_of_ne hr _ _
  · change Function.update h.reg .a0 0 .a0 = 0
    exact Function.update_self ..
  · rfl
  · intro s hs
    rw [hlow _ (hslots s hs)]
    exact hsaved s hs
  · rw [loadWord_storeWord_apart (.inr (by omega))]
    exact loadWord_storeWord_same _ _ _
  · exact loadWord_storeWord_same _ _ _
  · rw [hlow _ (by omega)]
    exact hold _ (by decide)
  · rw [hlow _ (by omega)]
    exact hold _ (by decide)
  · intro y hy
    have := hy _ List.mem_cons_self
    change m y = h.mem y
    rw [hrest y (by simp only [List.mem_singleton, forall_eq]; omega)]
    refine hframe y fun s hs => ?_
    have := hslots s hs
    omega

/-- What `k_restore_context` does with a context that keeps `v`. -/
structure Restored (h h' : Hart) (c : Nat) (v : Reg → Word) : Prop where
  reg : ∀ r, r ≠ .zero → r ≠ .a0 → h'.reg r = v r
  a0 : h'.reg .a0 ≠ 0
  zero : h'.reg .zero = h.reg .zero
  sepc : h'.csr .sepc = loadWord h.mem (c + 0x100)
  sstatus : h'.csr .sstatus = loadWord h.mem (c + 0x108)
  mem : h'.mem = h.mem

theorem run_kRestoreContext {v : Reg → Word} (ha0 : (h.reg .a0).toNat = c) (hc : c + 0x110 < 2 ^ 64)
    (hv : Saved h.mem c contextSlots v) : Restored h (h.run kRestoreContext) c v := by
  have hfit : Fits 0x110 contextRegistries := by decide
  obtain ⟨hmem, hcsr, hin, hout⟩ := run_fill (h := h) hfit ha0 hc contextRegistries_nodup (by decide)
    (by decide) fun s hs => hv s (List.mem_append_left _ hs)
  generalize hg : h.run (fill .a0 contextRegistries) = g at hmem hcsr hin hout
  obtain ⟨greg, gcsr, gmem⟩ := g
  subst hmem hcsr
  have hbase : greg .a0 = h.reg .a0 := hout .a0 (by decide)
  have haddr (o : Nat) (ho : o ≤ 0x110) : address (greg .a0) o = c + o := by
    rw [hbase]
    exact address_ctx ha0 hc ho
  have ha1 : loadWord h.mem (c + 0xf0) = v .a1 := hv (.a1, 0xf0) (by decide)
  have hrun : h.run kRestoreContext =
      { reg := Function.update (Function.update greg .a1 (v .a1)) .a0 (BitVec.ofNat 64 (1 * 2 ^ 12))
        csr := Function.update (Function.update h.csr .sepc (loadWord h.mem (c + 0x100))) .sstatus
          (loadWord h.mem (c + 0x108))
        mem := h.mem } := by
    rw [kRestoreContext, Hart.run_append, hg]
    simp only [Hart.run_cons, Hart.run_nil, Hart.exec, Hart.setReg, Hart.setCsr, reduceCtorEq, if_false,
      ne_eq, not_false_eq_true, Function.update_of_ne, Function.update_self,
      haddr _ (by omega : 0x100 ≤ 0x110), haddr _ (by omega : 0x108 ≤ 0x110),
      haddr _ (by omega : 0xf0 ≤ 0x110), ha1, Function.update_idem]
  rw [hrun]
  constructor
  · intro r hz h0
    change Function.update (Function.update greg .a1 (v .a1)) .a0 _ r = v r
    rw [Function.update_of_ne h0]
    by_cases h1 : r = .a1
    · rw [h1, Function.update_self]
    · rw [Function.update_of_ne h1]
      exact hin r (mem_contextRegistries r hz h0 h1)
  · simp only [Function.update_self]
    decide
  · exact hout .zero (by decide)
  · simp
  · simp
  · rfl

/-! ### The start of a thread -/

/-- What `k_tcb_start` does on the kernel stack: the thread has its stack, and `sret` will lead to
`k_tcb_run_wrapper`. -/
structure Started (K : Symbols) (h h' : Hart) (c : Nat) : Prop where
  reg : ∀ r, r ≠ .sp → r ≠ .ra → h'.reg r = h.reg r
  ra : h'.reg .ra = K.kTcbRunWrapper
  sp : h'.reg .sp = loadWord h.mem (c + 0x08)
  sepc : h'.csr .sepc = K.kTcbRunWrapper
  sstatus : h'.csr .sstatus = h.csr .sstatus
  sysSp : loadWord h'.mem (c + 0x10) = h.reg .sp
  writes : Writes [(c + 0x10, 8)] h.mem h'.mem

theorem run_kTcbStart {ctx : Word} (hcur : loadWord h.mem K.kCurrentContext.toNat = ctx)
    (hctx : ctx.toNat = c) (hc : c + 0x110 < 2 ^ 64) : Started K h (h.run (kTcbStart K)) c := by
  rw [kTcbStart, Hart.run_append, switchToUserStack_eq hcur hctx hc]
  simp only [Hart.run_cons, Hart.run_nil, Hart.exec, Hart.setReg, Hart.setCsr, reduceCtorEq, if_false]
  constructor
  · intro r hs hr
    simp [hs, hr]
  · simp
  · simp
  · simp
  · simp
  · simp
  · exact Writes.storeWord _ _ _

end Os1Kernel.Assembly
