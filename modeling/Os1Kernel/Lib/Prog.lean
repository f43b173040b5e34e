import Os1Kernel.Lib.Memory

/-! Programs over memory and registers, with a program logic.  A program is the tree of its memory
accesses.  It may also suspend itself: the rest of the program is then a value, which whoever runs
programs can keep and run later.  `run` runs a program on bytes.  `wp` runs it on a view and asks
that it stays inside the cells that it may use; `Prog.sound` says that the bytes then follow. -/

namespace Memory

/-- Why a program does not reach its end. -/
inductive Fault
  /-- a read or write through a null pointer -/
  | nullPointer
  /-- a loop that never ends -/
  | diverges
  /-- a resumption of a program that never suspended itself -/
  | wildJump
  deriving DecidableEq, Repr

/-- Programs that access the fields `F` in memory and the registers `G`, suspend themselves with a
request from `S`, and return an `α`. -/
inductive Prog (F G S : Type) (α : Type)
  | ret (r : α)
  | fault (e : Fault)
  | read (a : Nat) (f : F) (k : Nat → Prog F G S α)
  | write (a : Nat) (f : F) (x : Nat) (k : Prog F G S α)
  | get (k : G → Prog F G S α)
  | set (g : G) (k : Prog F G S α)
  | suspend (s : S) (k : Prog F G S α)

/-- How a program comes to its end. -/
inductive Outcome (F G S : Type) (α : Type)
  | done (r : α) (m : Mem) (g : G)
  | fault (e : Fault)
  | suspended (s : S) (k : Prog F G S α) (m : Mem) (g : G)

/-- What a program that has ended returns. -/
def Outcome.result? {F G S α : Type} : Outcome F G S α → Option α
  | .done r _ _ => some r
  | _ => none

namespace Prog

variable {F G S α β γ : Type}

def bind (p : Prog F G S α) (q : α → Prog F G S β) : Prog F G S β :=
  match p with
  | ret r => q r
  | fault e => fault e
  | read a f k => read a f fun x => (k x).bind q
  | write a f x k => write a f x (k.bind q)
  | get k => get fun g => (k g).bind q
  | set g k => set g (k.bind q)
  | suspend s k => suspend s (k.bind q)

instance : Monad (Prog F G S) where
  pure := ret
  bind := bind

theorem bind_assoc (p : Prog F G S α) (q : α → Prog F G S β) (r : β → Prog F G S γ) :
    (p.bind q).bind r = p.bind fun a => (q a).bind r := by
  induction p with
  | ret r => rfl
  | fault e => rfl
  | read a f k ih => exact congrArg (read a f) (funext ih)
  | write a f x k ih => exact congrArg (write a f x) ih
  | get k ih => exact congrArg get (funext ih)
  | set g k ih => exact congrArg (set g) ih
  | suspend s k ih => exact congrArg (suspend s) ih

theorem bind_ret (p : Prog F G S α) : p.bind ret = p := by
  induction p with
  | ret r => rfl
  | fault e => rfl
  | read a f k ih => exact congrArg (read a f) (funext ih)
  | write a f x k ih => exact congrArg (write a f x) ih
  | get k ih => exact congrArg get (funext ih)
  | set g k ih => exact congrArg (set g) ih
  | suspend s k ih => exact congrArg (suspend s) ih

instance : LawfulMonad (Prog F G S) := LawfulMonad.mk' _ bind_ret (fun _ _ => rfl) bind_assoc

/-! ### How programs end -/

/-- The outcome satisfies a postcondition on memory, or a suspension condition, or is a fault that
`E` allows. -/
def Post (E : Fault → Prop) (Q : α → Mem → G → Prop) (T : S → Prog F G S α → Mem → G → Prop) :
    Outcome F G S α → Prop
  | .done r m g => Q r m g
  | .suspended s k m g => T s k m g
  | .fault e => E e

variable {E : Fault → Prop}

section Ends

variable {Q : α → Mem → G → Prop} {T : S → Prog F G S α → Mem → G → Prop} {m : Mem} {g : G}

theorem post_done {r : α} : Post E Q T (.done r m g) ↔ Q r m g := Iff.rfl

theorem post_suspended {s : S} {k : Prog F G S α} : Post E Q T (.suspended s k m g) ↔ T s k m g :=
  Iff.rfl

theorem post_fault {e : Fault} : Post E Q T (.fault e : Outcome F G S α) ↔ E e := Iff.rfl

end Ends

theorem post_mono {Q Q' : α → Mem → G → Prop} {T T' : S → Prog F G S α → Mem → G → Prop}
    {o : Outcome F G S α} (h : Post E Q T o) (hQ : ∀ r m g, Q r m g → Q' r m g)
    (hT : ∀ s k m g, T s k m g → T' s k m g) : Post E Q' T' o := by
  cases o with
  | done r m g => exact hQ r m g h
  | fault e => exact h
  | suspended s k m g => exact hT s k m g h

/-! ### What programs leave alone -/

/-- The program neither writes memory nor registers, and does not suspend itself. -/
def ReadOnly : Prog F G S α → Prop
  | ret _ => True
  | fault _ => True
  | read _ _ k => ∀ x, (k x).ReadOnly
  | write _ _ _ _ => False
  | get k => ∀ g, (k g).ReadOnly
  | set _ _ => False
  | suspend _ _ => False

theorem ReadOnly.bind {p : Prog F G S α} {q : α → Prog F G S β} (hp : p.ReadOnly)
    (hq : ∀ r, (q r).ReadOnly) : (p >>= q).ReadOnly := by
  change (Prog.bind p q).ReadOnly
  induction p with
  | ret r => exact hq r
  | fault e => trivial
  | read a f k ih => exact fun x => ih x (hp x)
  | write a f x k ih => exact hp.elim
  | get k ih => exact fun g => ih g (hp g)
  | set g k ih => exact hp.elim
  | suspend s k ih => exact hp.elim

/-- Whatever memory holds, each register file that the program sets from `g` on is related to the one
before it, and the program suspends itself only if `T`. -/
def Sets (R : G → G → Prop) (T : Prop) : Prog F G S α → G → Prop
  | ret _, _ => True
  | fault _, _ => True
  | read _ _ k, g => ∀ x, (k x).Sets R T g
  | write _ _ _ k, g => k.Sets R T g
  | get k, g => (k g).Sets R T g
  | set g' k, g => R g g' ∧ k.Sets R T g'
  | suspend _ _, _ => T

theorem Sets.bind {R : G → G → Prop} {T : Prop} {p : Prog F G S α} {q : α → Prog F G S β} {g : G}
    (hp : p.Sets R T g) (hq : ∀ r g', (q r).Sets R T g') : (p >>= q).Sets R T g := by
  change (Prog.bind p q).Sets R T g
  induction p generalizing g with
  | ret r => exact hq r g
  | fault e => trivial
  | read a f k ih => exact fun x => ih x (hp x)
  | write a f x k ih => exact ih hp
  | get k ih => exact ih g hp
  | set g' k ih => exact ⟨hp.1, ih hp.2⟩
  | suspend s k ih => exact hp

/-! ### Running on bytes -/

variable [FieldLayout F]

def run : Prog F G S α → Mem → G → Outcome F G S α
  | ret r, m, g => .done r m g
  | fault e, _, _ => .fault e
  | read a f k, m, g => if a = 0 then .fault .nullPointer else (k (m.field a f)).run m g
  | write a f x k, m, g => if a = 0 then .fault .nullPointer else k.run (m.assign a f x) g
  | get k, m, g => (k g).run m g
  | set g k, m, _ => k.run m g
  | suspend s k, m, g => .suspended s k m g

/-- A program in parts: the second one starts where the first one ends. -/
theorem run_bind (p : Prog F G S α) (q : α → Prog F G S β) (m : Mem) (g : G) : (p >>= q).run m g =
    match p.run m g with
    | .done r m' g' => (q r).run m' g'
    | .fault e => .fault e
    | .suspended s k m' g' => .suspended s (k >>= q) m' g' := by
  change (p.bind q).run m g = _
  induction p generalizing m g with
  | ret r => rfl
  | fault e => rfl
  | read a f k ih =>
    by_cases ha : a = 0
    · simp [bind, run, ha]
    · simpa [bind, run, ha] using ih _ m g
  | write a f x k ih =>
    by_cases ha : a = 0
    · simp [bind, run, ha]
    · simpa [bind, run, ha] using ih _ g
  | get k ih => exact ih g m g
  | set g' k ih => exact ih m g'
  | suspend s k ih => rfl

/-- A program in parts that comes to its end. -/
theorem run_bind_done {p : Prog F G S α} {q : α → Prog F G S β} {m m' : Mem} {g g' : G} {r : β}
    (h : (p >>= q).run m g = .done r m' g') :
    ∃ b m₁ g₁, p.run m g = .done b m₁ g₁ ∧ (q b).run m₁ g₁ = .done r m' g' := by
  rw [run_bind] at h
  cases hp : p.run m g with
  | done b m₁ g₁ =>
    rw [hp] at h
    exact ⟨b, m₁, g₁, rfl, h⟩
  | fault e =>
    rw [hp] at h
    cases h
  | suspended s k m₁ g₁ =>
    rw [hp] at h
    cases h

/-- A program for each element of a list, where each one only changes the registers. -/
theorem run_forM {p : β → Prog F G S PUnit} {u : G → β → G} {m : Mem}
    (h : ∀ x g, (p x).run m g = .done ⟨⟩ m (u g x)) (xs : List β) (g : G) :
    (xs.forM p).run m g = .done ⟨⟩ m (xs.foldl u g) := by
  induction xs generalizing g with
  | nil => rfl
  | cons x xs ih =>
    change (p x >>= fun _ => xs.forM p).run m g = _
    rw [run_bind, h]
    exact ih (u g x)

theorem post_bind {p : Prog F G S α} {q : α → Prog F G S β} {m : Mem}
    {Q : β → Mem → G → Prop} {T : S → Prog F G S β → Mem → G → Prop}
    (h : Post E (fun r m g => Post E Q T ((q r).run m g)) (fun s k m g => T s (k >>= q) m g)
      (p.run m g)) : Post E Q T ((p >>= q).run m g) := by
  rw [run_bind]
  cases hp : p.run m g with
  | done r m' g' => rwa [hp] at h
  | fault e => rwa [hp] at h
  | suspended s k m' g' => rwa [hp] at h

theorem ReadOnly.run {p : Prog F G S α} (hp : p.ReadOnly) {m m' : Mem} {g g' : G} {r : α}
    (h : p.run m g = .done r m' g') : m' = m ∧ g' = g := by
  induction p generalizing m g with
  | ret r =>
    cases h
    exact ⟨rfl, rfl⟩
  | fault e => cases h
  | read a f k ih =>
    rw [Prog.run] at h
    split at h
    · cases h
    · exact ih _ (hp _) h
  | write a f x k ih => exact hp.elim
  | get k ih => exact ih g (hp g) h
  | set g' k ih => exact hp.elim
  | suspend s k ih => exact hp.elim

theorem Sets.post {R : G → G → Prop} {T : Prop} (refl : ∀ g, R g g)
    (trans : ∀ g g' g'', R g g' → R g' g'' → R g g'') {p : Prog F G S α} {m : Mem} {g : G}
    (hp : p.Sets R T g) :
    Post (fun _ => True) (fun _ _ g' => R g g') (fun _ _ _ g' => T ∧ R g g') (p.run m g) := by
  induction p generalizing m g with
  | ret r => exact refl g
  | fault e => trivial
  | read a f k ih =>
    rw [Prog.run]
    split
    · trivial
    · exact ih _ (hp _)
  | write a f x k ih =>
    rw [Prog.run]
    split
    · trivial
    · exact ih hp
  | get k ih => exact ih _ hp
  | set g₁ k ih =>
    exact post_mono (ih hp.2) (fun _ _ _ h => trans _ _ _ hp.1 h)
      fun _ _ _ _ h => ⟨h.1, trans _ _ _ hp.1 h.2⟩
  | suspend s k ih => exact ⟨hp, refl g⟩

/-! ### The logic -/

variable [DecidableEq F]

/-- On the view `v` and the registers `g` the program stays inside the cells `O` and ends with the
postcondition `Q`, or suspends itself with `T`. -/
def wp (O : Nat → F → Prop) : Prog F G S α → View F → G → (α → View F → G → Prop) →
    (S → Prog F G S α → View F → G → Prop) → Prop
  | ret r, v, g, Q, _ => Q r v g
  | fault _, _, _, _, _ => False
  | read a f k, v, g, Q, T => O a f ∧ (k (v a f)).wp O v g Q T
  | write a f x k, v, g, Q, T => O a f ∧ k.wp O (v.set a f x) g Q T
  | get k, v, g, Q, T => (k g).wp O v g Q T
  | set g k, v, _, Q, T => k.wp O v g Q T
  | suspend s k, v, g, _, T => T s k v g

variable {O O' : Nat → F → Prop} {v : View F} {g : G}

section Rules

variable {Q : α → View F → G → Prop} {T : S → Prog F G S α → View F → G → Prop}

@[simp] theorem wp_ret {r : α} : (ret r : Prog F G S α).wp O v g Q T ↔ Q r v g := ⟨id, id⟩

@[simp] theorem wp_pure {r : α} : (pure r : Prog F G S α).wp O v g Q T ↔ Q r v g := ⟨id, id⟩

/-- The rest of a program after the suspension of its first part is the rest of that part and then
the second part. -/
@[simp] theorem wp_bind {p : Prog F G S β} {q : β → Prog F G S α} : (p >>= q).wp O v g Q T ↔
    p.wp O v g (fun b v g => (q b).wp O v g Q T) fun s k v g => T s (k >>= q) v g := by
  change (p.bind q).wp O v g Q T ↔ _
  induction p generalizing v g with
  | ret r => rfl
  | fault e => rfl
  | read a f k ih => exact and_congr_right fun _ => ih _
  | write a f x k ih => exact and_congr_right fun _ => ih
  | get k ih => exact ih _
  | set g k ih => exact ih
  | suspend s k ih => rfl

@[simp] theorem wp_map {p : Prog F G S β} {f : β → α} : (f <$> p).wp O v g Q T ↔
    p.wp O v g (fun b v g => Q (f b) v g) fun s k v g => T s (f <$> k) v g :=
  wp_bind

theorem wp_mono {Q' : α → View F → G → Prop} {T' : S → Prog F G S α → View F → G → Prop}
    {p : Prog F G S α} (h : p.wp O v g Q T) (hO : ∀ a f, O a f → O' a f)
    (hQ : ∀ r v g, Q r v g → Q' r v g) (hT : ∀ s k v g, T s k v g → T' s k v g) :
    p.wp O' v g Q' T' := by
  induction p generalizing v g with
  | ret r => exact hQ r v g h
  | fault e => exact h
  | read a f k ih => exact ⟨hO a f h.1, ih _ h.2⟩
  | write a f x k ih => exact ⟨hO a f h.1, ih h.2⟩
  | get k ih => exact ih _ h
  | set g k ih => exact ih h
  | suspend s k ih => exact hT s k v g h

theorem wp_post {Q' : α → View F → G → Prop} {T' : S → Prog F G S α → View F → G → Prop}
    {p : Prog F G S α} (h : p.wp O v g Q T) (hQ : ∀ r v g, Q r v g → Q' r v g)
    (hT : ∀ s k v g, T s k v g → T' s k v g) : p.wp O v g Q' T' :=
  wp_mono h (fun _ _ ha => ha) hQ hT

end Rules

/-- What a run on bytes does, for a postcondition and a suspension condition on views. -/
def Ends (O : Nat → F → Prop) (m : Mem) (Q : α → View F → G → Prop)
    (T : S → Prog F G S α → View F → G → Prop) : Outcome F G S α → Prop
  | .done r m' g' => ∃ v', Sim O m' v' ∧ Frame O m m' ∧ Q r v' g'
  | .suspended s k m' g' => ∃ v', Sim O m' v' ∧ Frame O m m' ∧ T s k v' g'
  | .fault _ => False

/-- A run on bytes follows the run on a view. -/
theorem sound {m : Mem} {Q : α → View F → G → Prop} {T : S → Prog F G S α → View F → G → Prop}
    (sep : Separate O) (hs : Sim O m v) {p : Prog F G S α} (h : p.wp O v g Q T) :
    Ends O m Q T (p.run m g) := by
  suffices hm : ∀ m₀, Frame O m₀ m → Ends O m₀ Q T (p.run m g) from hm m (Frame.refl O m)
  intro m₀ hf
  induction p generalizing v g m with
  | ret r => exact ⟨v, hs, hf, h⟩
  | fault e => exact h
  | read a f k ih =>
    have ha : a ≠ 0 := by
      rintro rfl
      exact sep.nonnull f h.1
    rw [run, if_neg ha, hs a f h.1]
    exact ih _ hs h.2 hf
  | write a f x k ih =>
    have ha : a ≠ 0 := by
      rintro rfl
      exact sep.nonnull f h.1
    rw [run, if_neg ha]
    exact ih (hs.assign sep h.1 x) h.2 (hf.trans (Frame.assign h.1 m x))
  | get k ih => exact ih _ hs h hf
  | set g k ih => exact ih hs h hf
  | suspend s k ih => exact ⟨v, hs, hf, h⟩

/-- The cells that a run on bytes writes. -/
def writes : Prog F G S α → Mem → G → List (Nat × F)
  | ret _, _, _ => []
  | fault _, _, _ => []
  | read a f k, m, g => if a = 0 then [] else (k (m.field a f)).writes m g
  | write a f x k, m, g => if a = 0 then [] else (a, f) :: k.writes (m.assign a f x) g
  | get k, m, g => (k g).writes m g
  | set g k, m, _ => k.writes m g
  | suspend _ _, _, _ => []

/-- A run on bytes writes only cells that it may use. -/
theorem writes_own {m : Mem} {Q : α → View F → G → Prop} {T : S → Prog F G S α → View F → G → Prop}
    (sep : Separate O) (hs : Sim O m v) {p : Prog F G S α} (h : p.wp O v g Q T) :
    ∀ w ∈ p.writes m g, O w.1 w.2 := by
  induction p generalizing v g m with
  | ret r => simp [writes]
  | fault e => simp [writes]
  | read a f k ih =>
    have ha : a ≠ 0 := by
      rintro rfl
      exact sep.nonnull f h.1
    rw [writes, if_neg ha, hs a f h.1]
    exact ih _ hs h.2
  | write a f x k ih =>
    have ha : a ≠ 0 := by
      rintro rfl
      exact sep.nonnull f h.1
    rw [writes, if_neg ha]
    refine List.forall_mem_cons.mpr ⟨h.1, ih (hs.assign sep h.1 x) h.2⟩
  | get k ih => exact ih _ hs h
  | set g k ih => exact ih hs h
  | suspend s k ih => simp [writes]

/-- A program that does not suspend itself returns. -/
theorem returns {m : Mem} {Q : α → View F → G → Prop} (sep : Separate O) (hs : Sim O m v)
    {p : Prog F G S α} (h : p.wp O v g Q fun _ _ _ _ => False) : ∃ r m' g' v',
    p.run m g = .done r m' g' ∧ Sim O m' v' ∧ Frame O m m' ∧ Q r v' g' := by
  have hend := sound sep hs h
  cases hrun : p.run m g with
  | done r m' g' =>
    rw [hrun] at hend
    obtain ⟨v', hs', hf, hQ⟩ := hend
    exact ⟨r, m', g', v', rfl, hs', hf, hQ⟩
  | fault e =>
    rw [hrun] at hend
    exact hend.elim
  | suspended s k m' g' =>
    rw [hrun] at hend
    obtain ⟨v', -, -, hT⟩ := hend
    exact hT.elim

/-! ### Programs in parts -/

/-- A part that stays inside the cells `O`, of a program that may use others before and after it. -/
theorem post_of_wp {m : Mem} {p : Prog F G S α} {Q : α → Mem → G → Prop}
    {T : S → Prog F G S α → Mem → G → Prop} (sep : Separate O)
    (h : p.wp O m.view g
      (fun r v' g' => ∀ m', Sim O m' v' → Frame O m m' → Q r m' g')
      fun s k v' g' => ∀ m', Sim O m' v' → Frame O m m' → T s k m' g') :
    Post E Q T (p.run m g) := by
  have hend := sound sep (Sim.self O m) h
  cases hp : p.run m g with
  | done r m' g' =>
    rw [hp] at hend
    obtain ⟨v', hs, hf, hQ⟩ := hend
    exact hQ m' hs hf
  | fault e =>
    rw [hp] at hend
    exact hend.elim
  | suspended s k m' g' =>
    rw [hp] at hend
    obtain ⟨v', hs, hf, hT⟩ := hend
    exact hT m' hs hf

/-- The cells that a run on bytes reads. -/
def reads : Prog F G S α → Mem → G → List (Nat × F)
  | ret _, _, _ => []
  | fault _, _, _ => []
  | read a f k, m, g => (a, f) :: if a = 0 then [] else (k (m.field a f)).reads m g
  | write a f x k, m, g => if a = 0 then [] else k.reads (m.assign a f x) g
  | get k, m, g => (k g).reads m g
  | set g k, m, _ => k.reads m g
  | suspend _ _, _, _ => []

-- runs of programs are not unfolded to see whether their outcome is known
attribute [irreducible] Post

end Prog

end Memory
