import Os1Kernel.Threads.Memory

/-! Blocks of the heap become semaphores and threads, and the other way round. -/

namespace Os1Kernel

open Memory
open Tiling hiding alloc

theorem flatMap_perm_cons {l l' : List Nat} {w w' : Nat → List Nat} {s : Nat} (hp : l.Perm (s :: l'))
    (hs : w s = []) (hw : ∀ x ∈ l', w x = w' x) : (l.flatMap w).Perm (l'.flatMap w') := by
  refine (hp.flatMap_right w).trans ?_
  rw [List.flatMap_cons, hs, List.nil_append, List.flatMap_congr hw]

theorem perm_cons_filter {xs : List Nat} (hnd : xs.Nodup) {a : Nat} (ha : a ∈ xs) :
    xs.Perm (a :: xs.filter (· ≠ a)) := by
  refine (List.perm_cons_erase ha).trans (.cons a (.of_eq ?_))
  rw [hnd.erase_eq_filter]
  exact List.filter_congr fun x _ => by simp [bne, beq_eq_decide]

namespace Owners

variable {L : Layout} {W : Owners} {s t j usr kernel : Nat} {bs : List (Nat × Nat)}

/-- One of the blocks is a semaphore. -/
def addSem (W : Owners) (s : Nat) (bs : List (Nat × Nat)) : Owners :=
  { W with sems := s :: W.sems, blocks := bs }

/-- A semaphore is a block. -/
def dropSem (W : Owners) (s : Nat) : Owners :=
  { W with sems := W.sems.filter (· ≠ s), blocks := (s, toBlocks sizeofSem) :: W.blocks }

/-- Four of the blocks are a thread with its stacks and its semaphore. -/
def addThread (W : Owners) (t usr kernel j : Nat) (bs : List (Nat × Nat)) : Owners :=
  { W with
    threads := t :: W.threads
    join := Function.update W.join t j
    stack := Function.update W.stack t usr
    kernelStack := Function.update W.kernelStack t kernel
    blocks := bs }

/-- The thread `t`, its stacks and its semaphore are blocks. -/
def dropThread (W : Owners) (t : Nat) : Owners :=
  { W with threads := W.threads.filter (· ≠ t), blocks := W.ofThread t ++ W.blocks }

namespace Tiled

/-- A block starts where no other allocation does. -/
theorem block_ne (h : W.Tiled L) {r : Nat × Nat} (hr : r ∈ W.blocks) {u : Nat × Nat}
    (hu : u = (W.mainStack, toBlocks defaultStackSize) ∨ (∃ t ∈ W.threads, u ∈ W.ofThread t) ∨
      ∃ s ∈ W.sems, u = (s, toBlocks sizeofSem)) : u.1 ≠ r.1 := by
  have hfront : u ∈ (W.mainStack, toBlocks defaultStackSize) ::
      (W.threads.flatMap W.ofThread ++ W.sems.map fun s => (s, toBlocks sizeofSem)) := by
    simp only [List.mem_cons, List.mem_append, List.mem_flatMap, List.mem_map]
    rcases hu with rfl | hu | ⟨s, hs, rfl⟩
    · exact .inl rfl
    · exact .inr (.inl hu)
    · exact .inr (.inr ⟨s, hs, rfl⟩)
  have hpair : List.Pairwise BlocksApart (((W.mainStack, toBlocks defaultStackSize) ::
      (W.threads.flatMap W.ofThread ++ W.sems.map fun s => (s, toBlocks sizeofSem))) ++ W.blocks) :=
    h.pairwise
  have hap := (List.pairwise_append.mp hpair).2.2 u hfront r hr
  have h1 := (h.inside (List.mem_append_left W.blocks hfront)).2.2
  have h2 := (h.inside (mem_block hr)).2.2
  unfold BlocksApart Apart at hap
  omega

theorem block_not_static (h : W.Tiled L) {r : Nat × Nat} (hr : r ∈ W.blocks) {p : Nat × Nat}
    (hp : p ∈ L.statics) : p.1 ≠ r.1 := by
  have h1 := (h.inside (mem_block hr)).1
  have h2 := L.inside p hp
  have h3 := L.heap.spec.table_le_base
  have h4 : 0 < p.2 := by
    simp only [Layout.statics, List.mem_cons, List.not_mem_nil, or_false] at hp
    rcases hp with rfl | rfl | rfl | rfl | rfl <;> exact Nat.succ_pos _
  omega

theorem block_not_tcb (h : W.Tiled L) {r : Nat × Nat} (hr : r ∈ W.blocks) : r.1 ∉ W.tcbs L := by
  intro hm
  rcases List.mem_cons.mp hm with heq | hm
  · exact h.block_not_static hr (p := (L.mainTcb, 360)) (by simp [Layout.statics]) heq.symm
  · exact h.block_ne hr (u := (r.1, toBlocks sizeofTCB)) (.inr (.inl ⟨_, hm, by simp [ofThread]⟩)) rfl

theorem block_not_sem (h : W.Tiled L) {r : Nat × Nat} (hr : r ∈ W.blocks) :
    r.1 ∉ W.semaphores L := by
  intro hm
  simp only [semaphores, List.mem_cons, List.mem_append, List.mem_map] at hm
  rcases hm with heq | heq | ⟨t, ht, heq⟩ | hm
  · exact h.block_not_static hr (p := (L.putcSem, 24)) (by simp [Layout.statics]) heq.symm
  · exact h.block_not_static hr (p := (L.getcSem, 24)) (by simp [Layout.statics]) heq.symm
  · exact h.block_ne hr (u := (W.join t, toBlocks sizeofSem))
      (.inr (.inl ⟨_, ht, by simp [ofThread]⟩)) heq
  · exact h.block_ne hr (u := (r.1, toBlocks sizeofSem)) (.inr (.inr ⟨_, hm, rfl⟩)) rfl

theorem addSem (h : W.Tiled L) (hb : W.blocks.Perm ((s, toBlocks sizeofSem) :: bs)) :
    (W.addSem s bs).Tiled L := by
  refine ⟨h.valid, List.Perm.trans (List.perm_iff_count.mpr fun r => ?_) h.used⟩
  have hcount := hb.count_eq r
  have hof : (W.addSem s bs).ofThread = W.ofThread := rfl
  simp only [Owners.used, hof]
  simp only [Owners.addSem, List.count_append, List.count_cons, List.map_cons] at hcount ⊢
  omega

theorem dropSem (h : W.Tiled L) (hs : s ∈ W.sems) : (W.dropSem s).Tiled L := by
  refine ⟨h.valid, List.Perm.trans (List.perm_iff_count.mpr fun r => ?_) h.used⟩
  have hnd := (List.nodup_append.mp h.join_injOn).2.1
  have hcount := ((perm_cons_filter hnd hs).map fun s => (s, toBlocks sizeofSem)).count_eq r
  have hof : (W.dropSem s).ofThread = W.ofThread := rfl
  simp only [Owners.used, hof]
  simp only [Owners.dropSem, List.count_append, List.count_cons, List.map_cons] at hcount ⊢
  omega

theorem addThread (h : W.Tiled L) (ht : t ∉ W.threads) (hb : W.blocks.Perm
    ([(t, toBlocks sizeofTCB), (usr, toBlocks defaultStackSize),
      (kernel, toBlocks defaultStackSize), (j, toBlocks sizeofSem)] ++ bs)) :
    (W.addThread t usr kernel j bs).Tiled L := by
  refine ⟨h.valid, List.Perm.trans (List.perm_iff_count.mpr fun r => ?_) h.used⟩
  have hcount := hb.count_eq r
  have hof : W.threads.flatMap (W.addThread t usr kernel j bs).ofThread =
      W.threads.flatMap W.ofThread := by
    refine List.flatMap_congr fun u hu => ?_
    have hne : u ≠ t := fun heq => ht (heq ▸ hu)
    simp only [Owners.ofThread, Owners.addThread, Function.update_of_ne hne]
  have hself : (W.addThread t usr kernel j bs).ofThread t = [(t, toBlocks sizeofTCB),
      (usr, toBlocks defaultStackSize), (kernel, toBlocks defaultStackSize),
      (j, toBlocks sizeofSem)] := by
    simp only [Owners.ofThread, Owners.addThread, Function.update_self]
  have hthreads : (W.addThread t usr kernel j bs).threads = t :: W.threads := rfl
  have hblocks : (W.addThread t usr kernel j bs).blocks = bs := rfl
  have hsems : (W.addThread t usr kernel j bs).sems = W.sems := rfl
  have hmain : (W.addThread t usr kernel j bs).mainStack = W.mainStack := rfl
  simp only [Owners.used, hthreads, hblocks, hsems, hmain, List.flatMap_cons, hself, hof,
    List.count_append, List.count_cons] at hcount ⊢
  omega

theorem dropThread (h : W.Tiled L) (ht : t ∈ W.threads) : (W.dropThread t).Tiled L := by
  refine ⟨h.valid, List.Perm.trans (List.perm_iff_count.mpr fun r => ?_) h.used⟩
  have hcount := ((perm_cons_filter h.threads_nodup ht).flatMap_right W.ofThread).count_eq r
  have hof : (W.dropThread t).ofThread = W.ofThread := rfl
  simp only [Owners.used, hof]
  simp only [Owners.dropThread, List.count_append, List.count_cons, List.flatMap_cons] at hcount ⊢
  omega

end Tiled

theorem semaphores_addSem (W : Owners) :
    ((W.addSem s bs).semaphores L).Perm (s :: W.semaphores L) := by
  refine List.perm_iff_count.mpr fun r => ?_
  simp only [semaphores, addSem, List.count_cons, List.count_append]
  omega

theorem semaphores_dropSem (h : W.Tiled L) (hs : s ∈ W.sems) :
    (W.semaphores L).Perm (s :: (W.dropSem s).semaphores L) := by
  refine List.perm_iff_count.mpr fun r => ?_
  have hnd := (List.nodup_append.mp h.join_injOn).2.1
  have hcount := (perm_cons_filter hnd hs).count_eq r
  simp only [semaphores, dropSem, List.count_cons, List.count_append] at hcount ⊢
  omega

theorem semaphores_addThread (ht : t ∉ W.threads) :
    ((W.addThread t usr kernel j bs).semaphores L).Perm (j :: W.semaphores L) := by
  have hmap : W.threads.map (Function.update W.join t j) = W.threads.map W.join :=
    List.map_congr_left fun u hu => by
      have hne : u ≠ t := fun heq => ht (heq ▸ hu)
      exact Function.update_of_ne hne _ _
  refine List.perm_iff_count.mpr fun r => ?_
  simp only [semaphores, addThread, List.map_cons, Function.update_self, hmap, List.count_cons,
    List.count_append]
  omega

theorem semaphores_dropThread (h : W.Tiled L) (ht : t ∈ W.threads) :
    (W.semaphores L).Perm (W.join t :: (W.dropThread t).semaphores L) := by
  refine List.perm_iff_count.mpr fun r => ?_
  have hcount := ((perm_cons_filter h.threads_nodup ht).map W.join).count_eq r
  simp only [semaphores, dropThread, List.count_cons, List.count_append, List.map_cons] at hcount ⊢
  omega

theorem tcbs_dropThread (h : W.Tiled L) (ht : t ∈ W.threads) :
    (W.tcbs L).Perm (t :: (W.dropThread t).tcbs L) :=
  ((perm_cons_filter h.threads_nodup ht).cons _).trans (.swap _ _ _)

end Owners

/-- The list at `l` is empty. -/
theorem isList_nil {v : Cells} {l : Nat} (hh : v l .head = 0) (ht : v l .tail = 0) :
    IsList v l [] := by
  refine ⟨⟨?_, by simp⟩, by simp⟩
  simpa [Linked.Links, tcbNext, tcbPrev] using ⟨hh, ht⟩

namespace Spec

/-- A block is a semaphore with the value of the bits `value`. -/
def addSem (σ : Spec) (s value : Nat) (bs : List (Nat × Nat)) : Spec :=
  { σ with
    owners := σ.owners.addSem s bs
    abs := { σ.abs with
      waiting := Function.update σ.abs.waiting s []
      bits := Function.update σ.abs.bits s value } }

def dropSem (σ : Spec) (s : Nat) : Spec := { σ with owners := σ.owners.dropSem s }

/-- Blocks are a thread that is in no list yet. -/
def addThread (σ : Spec) (t usr kernel j : Nat) (bs : List (Nat × Nat)) : Spec :=
  { σ with
    owners := σ.owners.addThread t usr kernel j bs
    abs := { σ.abs with
      moving := t :: σ.abs.moving
      waiting := Function.update σ.abs.waiting j []
      bits := Function.update σ.abs.bits j 0
      flag := Function.update σ.abs.flag t false
      cont := Function.update σ.abs.cont t .fresh }
    mode := Function.update σ.mode t (σ.mode σ.current) }

def dropThread (σ : Spec) (t : Nat) : Spec :=
  { σ with owners := σ.owners.dropThread t, abs := { σ.abs with moving := [] } }

end Spec

namespace Holds

variable {L : Layout} {σ : Spec} {v : Cells} {s t usr kernel j value : Nat} {bs : List (Nat × Nat)}

theorem addSem (h : Holds L σ v) (hb : σ.owners.blocks.Perm ((s, toBlocks sizeofSem) :: bs))
    (hvalue : value < 2 ^ 32) (hv : v s .value = value) (hh : v (s + 8) .head = 0)
    (ht : v (s + 8) .tail = 0) : Holds L (σ.addSem s value bs) v := by
  have hperm := @Owners.semaphores_addSem L s bs σ.owners
  have hnew : s ∉ σ.owners.semaphores L :=
    h.tiled.block_not_sem (hb.mem_iff.mpr List.mem_cons_self)
  have hne {u : Nat} (hu : u ∈ σ.owners.semaphores L) : u ≠ s := fun heq => hnew (heq ▸ hu)
  have hagree := Owners.Agree.refl L σ.owners (σ.owners.addSem s bs) v
  refine (@Rest.change _ _ (σ.addSem s value bs) _ _ h.rest (h.tiled.addSem hb) h.heap hagree rfl ⟨rfl, rfl⟩
    fun u hu => .inl ⟨hu, ⟨rfl, rfl, rfl⟩, rfl, rfl⟩).holds (h.queues.change hagree rfl rfl rfl ?_
      (fun u hu => ?_) fun u hu => .inl ⟨hu, rfl⟩) h.status
  · refine h.queues.place.trans (.append_left _ (.append_left _ (flatMap_perm_cons hperm ?_ ?_).symm))
    · exact Function.update_self _ _ _
    · exact fun u hu => Function.update_of_ne (hne hu) _ _
  · rcases List.mem_cons.mp (hperm.mem_iff.mp hu) with rfl | hu
    · exact .inr ⟨isList_nil hh ht, Function.update_self _ _ _,
        hv.trans (Function.update_self (β := fun _ => Nat) _ _ _).symm,
        (Function.update_self (β := fun _ => Nat) _ _ _).trans_lt hvalue⟩
    · exact .inl ⟨hu, Function.update_of_ne (hne hu) _ _, Function.update_of_ne (hne hu) _ _⟩

theorem dropSem (h : Holds L σ v) (hs : s ∈ σ.owners.sems) (hnil : σ.abs.waiting s = []) :
    Holds L (σ.dropSem s) v := by
  have hperm := Owners.semaphores_dropSem h.tiled hs
  have hagree := Owners.Agree.refl L σ.owners (σ.owners.dropSem s) v
  refine (@Rest.change _ _ (σ.dropSem s) _ _ h.rest (h.tiled.dropSem hs) h.heap hagree rfl ⟨rfl, rfl⟩
    fun u hu => .inl ⟨hu, ⟨rfl, rfl, rfl⟩, rfl, rfl⟩).holds (h.queues.change hagree rfl rfl rfl ?_
      (fun u hu => .inl ⟨hperm.mem_iff.mpr (List.mem_cons_of_mem _ hu), rfl, rfl⟩)
      fun u hu => .inl ⟨hu, rfl⟩) h.status
  exact h.queues.place.trans (.append_left _ (.append_left _
    (flatMap_perm_cons hperm hnil fun _ _ => rfl)))

theorem dropThread (h : Holds L σ v) (ht : t ∈ σ.owners.threads) (hm : σ.abs.moving = [t])
    (hnil : σ.abs.waiting (σ.owners.join t) = []) : Holds L (σ.dropThread t) v := by
  have hperm := Owners.semaphores_dropThread h.tiled ht
  have htcbs := Owners.tcbs_dropThread h.tiled ht
  have hagree := Owners.Agree.refl L σ.owners (σ.owners.dropThread t) v
  refine (@Rest.change _ _ (σ.dropThread t) _ _ h.rest (h.tiled.dropThread ht) h.heap hagree rfl ⟨rfl, rfl⟩
    fun u hu => .inl ⟨(List.mem_filter.mp hu).1, ⟨rfl, rfl, rfl⟩, rfl, rfl⟩).holds
      (h.queues.change hagree rfl rfl rfl ?_
        (fun u hu => .inl ⟨hperm.mem_iff.mpr (List.mem_cons_of_mem _ hu), rfl, rfl⟩)
        fun u hu => .inl ⟨htcbs.mem_iff.mpr (List.mem_cons_of_mem _ hu), rfl⟩)
      fun u hu => absurd hu List.not_mem_nil
  have hplace := htcbs.symm.trans h.queues.place
  rw [hm, List.singleton_append] at hplace
  exact (List.Perm.cons_inv hplace).trans (.append_left _
    (flatMap_perm_cons hperm hnil fun _ _ => rfl))

/-- The memory of a new thread. -/
structure Fresh (L : Layout) (σ : Spec) (v : Cells) (t usr kernel j : Nat) : Prop where
  usrStack : v t .usrStack = usr + defaultStackSize
  sysStack : v t .sysStack = kernel
  joinSem : v t .joinSem = j
  slice : v t .timeSlice = defaultTimeSlice
  flag : v t .interrupted = 0
  ra : v t .ra = L.kTcbStart
  mode : spp (v t .sstatus) = σ.mode σ.current
  value : v j .value = 0
  head : v (j + 8) .head = 0
  tail : v (j + 8) .tail = 0

theorem addThread (h : Holds L σ v) (hb : σ.owners.blocks.Perm
    ([(t, toBlocks sizeofTCB), (usr, toBlocks defaultStackSize),
      (kernel, toBlocks defaultStackSize), (j, toBlocks sizeofSem)] ++ bs))
    (hf : Fresh L σ v t usr kernel j) : Rest L (σ.addThread t usr kernel j bs) v ∧
      Queues L (σ.owners.addThread t usr kernel j bs) (σ.addThread t usr kernel j bs).abs v := by
  have htnew := h.tiled.block_not_tcb (r := (t, toBlocks sizeofTCB)) (hb.mem_iff.mpr (by simp))
  have hjnew := h.tiled.block_not_sem (r := (j, toBlocks sizeofSem)) (hb.mem_iff.mpr (by simp))
  simp only at htnew hjnew
  have htnew' : t ∉ σ.owners.threads := fun hm => htnew (List.mem_cons_of_mem _ hm)
  have hperm := @Owners.semaphores_addThread L _ t j usr kernel bs htnew'
  have htne {u : Nat} (hu : u ∈ σ.owners.tcbs L) : u ≠ t := fun heq => htnew (heq ▸ hu)
  have hjne {u : Nat} (hu : u ∈ σ.owners.semaphores L) : u ≠ j := fun heq => hjnew (heq ▸ hu)
  have hmain := htne (u := L.mainTcb) List.mem_cons_self
  have hagree := Owners.Agree.refl L σ.owners (σ.owners.addThread t usr kernel j bs) v
  refine ⟨h.rest.change (h.tiled.addThread htnew' hb) h.heap hagree rfl
    ⟨Function.update_of_ne hmain _ _, Function.update_of_ne hmain _ _⟩ fun u hu => ?_,
    h.queues.change hagree rfl rfl rfl ?_ (fun u hu => ?_) fun u hu => ?_⟩
  · rcases List.mem_cons.mp hu with rfl | hu
    · refine .inr ⟨?_, ?_, ?_, hf.slice, ?_, ?_⟩
      · have hstack : (σ.addThread u usr kernel j bs).owners.stack u = usr :=
          Function.update_self (β := fun _ => Nat) ..
        rw [hf.usrStack, hstack]
      · exact hf.sysStack.trans (Function.update_self (β := fun _ => Nat) ..).symm
      · exact hf.joinSem.trans (Function.update_self (β := fun _ => Nat) ..).symm
      · have hcont : (σ.addThread u usr kernel j bs).abs.cont u = .fresh :=
          Function.update_self (β := fun _ => Cont) ..
        rw [hf.ra, if_pos hcont]
      · exact hf.mode.trans (Function.update_self (β := fun _ => Bool) ..).symm
    · have hne := htne (List.mem_cons_of_mem L.mainTcb hu)
      exact .inl ⟨hu, ⟨Function.update_of_ne hne _ _, Function.update_of_ne hne _ _,
        Function.update_of_ne hne _ _⟩, Function.update_of_ne hne _ _, Function.update_of_ne hne _ _⟩
  · have hplace := (h.queues.place.cons t).trans (.append_left (t :: σ.abs.moving)
      (.append_left _ (flatMap_perm_cons (w := Function.update σ.abs.waiting j []) hperm
        (Function.update_self _ _ _) fun u hu => Function.update_of_ne (hjne hu) _ _).symm))
    exact (List.Perm.swap _ _ _).trans hplace
  · rcases List.mem_cons.mp (hperm.mem_iff.mp hu) with rfl | hu
    · refine .inr ⟨isList_nil hf.head hf.tail, Function.update_self _ _ _,
        hf.value.trans (Function.update_self (β := fun _ => Nat) _ _ _).symm, ?_⟩
      exact (Function.update_self (β := fun _ => Nat) _ _ _).trans_lt (by decide)
    · exact .inl ⟨hu, Function.update_of_ne (hjne hu) _ _, Function.update_of_ne (hjne hu) _ _⟩
  · by_cases heq : u = t
    · subst heq
      have hflag : (σ.addThread u usr kernel j bs).abs.flag u = false :=
        Function.update_self (β := fun _ => Bool) ..
      refine .inr (hf.flag.trans ?_)
      rw [hflag]
      rfl
    · refine .inl ⟨?_, Function.update_of_ne heq _ _⟩
      rcases List.mem_cons.mp hu with rfl | hu
      · exact List.mem_cons_self
      · exact List.mem_cons_of_mem _ ((List.mem_cons.mp hu).resolve_left heq)

end Holds

end Os1Kernel
