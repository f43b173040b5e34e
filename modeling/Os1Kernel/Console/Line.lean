import Os1Kernel.Source.Object

/-! The line editor of the console (`Console::get_string` in `console.cpp`), a stack editor for lines,
and a row of the terminal that the editor's echo is shown on. -/

namespace Os1Kernel.Console

open Memory

/-! ### A stack editor and a terminal -/

def deleteKey : UInt8 := 127
def enterKey : UInt8 := 13
def backspace : UInt8 := 8
def newline : UInt8 := 10
def blank : UInt8 := 32

namespace Editor

/-- The line after a key other than Enter. -/
def press (text : List UInt8) (c : UInt8) : List UInt8 :=
  if c = deleteKey then text.dropLast else text ++ [c]

/-- The line when Enter is pressed or `n` characters are held, and the keys that are left; nothing
where the keys do not get that far. -/
def edit (n : Nat) : List UInt8 → List UInt8 → Option (List UInt8 × List UInt8)
  | text, [] => if n ≤ text.length then some (text, []) else none
  | text, c :: keys =>
    if n ≤ text.length then some (text, c :: keys)
    else if c = enterKey then some (text, keys)
    else edit n (press text c) keys

end Editor

/-- A row of the terminal, and the column that its cursor is in. -/
structure Row where
  cells : Nat → UInt8
  cursor : Nat

namespace Row

def empty : Row := { cells := fun _ => blank, cursor := 0 }

/-- A character that the terminal shows. -/
def Printable (c : UInt8) : Prop := 32 ≤ c ∧ c < 127

instance (c : UInt8) : Decidable (Printable c) := inferInstanceAs (Decidable (_ ∧ _))

def put (r : Row) (c : UInt8) : Row :=
  if c = backspace then { r with cursor := r.cursor - 1 }
  else if Printable c then { cells := Function.update r.cells r.cursor c, cursor := r.cursor + 1 }
  else r

def replay (r : Row) (out : List UInt8) : Row := out.foldl put r

/-- The row shows the line, and blanks after it. -/
def Shows (r : Row) (text : List UInt8) : Prop := ∀ j, r.cells j = (text[j]?).getD blank

end Row

/-! ### The source -/

/-- What a byte in memory is read and written as. -/
inductive CharField
  | char
  deriving DecidableEq

instance : FieldLayout CharField := ⟨fun _ => 0, fun _ => 1⟩

/-- What the thread does at the console. -/
inductive Event
  | lock
  | unlock
  | getc (c : UInt8)
  | putc (c : UInt8)
  deriving DecidableEq

/-- Code that uses characters in memory and the console. -/
abbrev Session := Prog CharField (List Event) Empty

def event (e : Event) : Session Unit := .get fun t => .set (t ++ [e]) (.ret ())

def putc (c : UInt8) : Session Unit := event (.putc c)

/-- `str[i]` -/
def loadChar (str : Nat) (i : Int) : Session UInt8 :=
  if str = 0 then .fault .nullPointer
  else .read (str + i).toNat .char fun x => .ret (UInt8.ofNat x)

/-- `str[i] = c` -/
def storeChar (str : Nat) (i : Int) (c : UInt8) : Session Unit :=
  if str = 0 then .fault .nullPointer else .write (str + i).toNat .char c.toNat (.ret ())

/-- The loop of `Console::get_string`, where `keys` are the characters that `getc` returns.  It ends
with the keys that it has not read, or with nothing while it waits for a key. -/
def getStringLoop (maxLength : Int) (str : Nat) : List UInt8 → Int → Session (Option (List UInt8))
  | [], i => pure (if i < maxLength ∧ str ≠ 0 then none else some [])
  | key :: keys, i =>
    if i < maxLength ∧ str ≠ 0 then do
      event (.getc key)
      storeChar str i key
      let c ← loadChar str i
      if c = deleteKey then do
        if i > 0 then do
          putc backspace
          putc blank
          putc backspace
        getStringLoop maxLength str keys ((if i ≥ 2 then i - 2 else -1) + 1)
      else if c = enterKey then do
        storeChar str i 0
        putc newline
        pure (some keys)
      else do
        putc c
        getStringLoop maxLength str keys (i + 1)
    else pure (some (key :: keys))

/-- `Console::get_string`, where `new` is what `operator new[]` returns for each size: the string and
the keys that are left. -/
def getString (new : Nat → Nat) (maxLength : Int) (keys : List UInt8) :
    Session (Option (Nat × List UInt8)) := do
  let str := new (signExtend (maxLength + 1))
  storeChar str maxLength 0
  event .lock
  match ← getStringLoop maxLength str keys 0 with
  | none => pure none
  | some keys => do
    event .unlock
    pure (some (str, keys))

/-- What the console was sent before it read the key after the first `n` ones. -/
def echoed : Nat → List Event → List UInt8
  | _, [] => []
  | 0, .getc _ :: _ => []
  | n + 1, .getc _ :: t => echoed n t
  | n, .putc c :: t => c :: echoed n t
  | n, .lock :: t => echoed n t
  | n, .unlock :: t => echoed n t

/-! ### What is shown -/

namespace Row

/-- The row shows the line, and the cursor is at its end. -/
structure At (r : Row) (text : List UInt8) : Prop where
  shows : r.Shows text
  cursor : r.cursor = text.length

theorem at_empty : At empty [] := ⟨fun _ => rfl, rfl⟩

theorem At.put {r : Row} {text : List UInt8} (h : r.At text) {c : UInt8} (hc : Printable c) :
    (r.put c).At (text ++ [c]) := by
  have hb : c ≠ backspace := by
    rintro rfl
    exact absurd hc (by decide)
  rw [Row.put, if_neg hb, if_pos hc]
  refine ⟨fun j => ?_, by simp [h.cursor]⟩
  change Function.update r.cells r.cursor c j = _
  rw [Function.update_apply, h.cursor]
  split
  · next hj => simp [hj]
  · next hj =>
    rw [h.shows j]
    rcases Nat.lt_or_gt_of_ne hj with hlt | hgt
    · rw [List.getElem?_append_left hlt]
    · rw [List.getElem?_eq_none (by omega), List.getElem?_eq_none (by simp; omega)]

/-- The three characters that delete the last one. -/
def erase : List UInt8 := [backspace, blank, backspace]

theorem At.erase {r : Row} {text : List UInt8} (h : r.At text) (hne : text ≠ []) :
    (r.replay erase).At text.dropLast := by
  have hlen : 0 < text.length := List.length_pos_iff.mpr hne
  have hrow : r.replay Row.erase =
      ⟨Function.update r.cells (text.length - 1) blank, text.length - 1⟩ := by
    simp [Row.erase, replay, Row.put, backspace, blank, Printable, h.cursor]
  rw [hrow]
  refine ⟨fun j => ?_, by simp⟩
  change Function.update r.cells (text.length - 1) blank j = _
  rw [Function.update_apply, List.getElem?_dropLast]
  split
  · next hj => rw [if_neg (by omega), Option.getD_none]
  · next hj =>
    rw [h.shows j]
    split
    · rfl
    · rw [List.getElem?_eq_none (by omega)]

end Row

namespace Editor

/-- What is shown for a key. -/
def echo (text : List UInt8) (c : UInt8) : List UInt8 :=
  if c = deleteKey then if text = [] then [] else Row.erase else [c]

/-- What a session of the editor does at the console. -/
def session (n : Nat) : List UInt8 → List UInt8 → List Event
  | _, [] => []
  | text, c :: keys =>
    if n ≤ text.length then []
    else if c = enterKey then [.getc c, .putc newline]
    else .getc c :: ((echo text c).map .putc ++ session n (press text c) keys)

theorem length_press_le {text : List UInt8} {c : UInt8} {n : Nat} (h : text.length < n) :
    (press text c).length ≤ n := by
  unfold press
  split
  · simp
    omega
  · simp
    omega

theorem length_edit_le {n : Nat} {text keys out rest : List UInt8} (hle : text.length ≤ n)
    (h : edit n text keys = some (out, rest)) : out.length ≤ n := by
  induction keys generalizing text with
  | nil =>
    rw [edit] at h
    split at h
    · cases h
      exact hle
    · cases h
  | cons c keys ih =>
    rw [edit] at h
    split at h
    · cases h
      exact hle
    · next hfull =>
      split at h
      · cases h
        exact hle
      · exact ih (length_press_le (Nat.lt_of_not_le hfull)) h

/-- The row follows a key. -/
theorem at_echo {r : Row} {text : List UInt8} (h : r.At text) {c : UInt8}
    (hc : Row.Printable c ∨ c = deleteKey) : (r.replay (echo text c)).At (press text c) := by
  unfold echo press
  by_cases hd : c = deleteKey
  · rw [if_pos hd, if_pos hd]
    split
    · next hnil => simpa [hnil, Row.replay] using h
    · next hne => exact h.erase hne
  · rw [if_neg hd, if_neg hd]
    exact h.put (hc.resolve_right hd)

theorem echoed_putc (n : Nat) (out : List UInt8) (t : List Event) :
    echoed n (out.map .putc ++ t) = out ++ echoed n t := by
  induction out with
  | nil => rfl
  | cons c out ih => simp [echoed, ih]

/-- After each of the keys before Enter the row shows the line. -/
theorem at_session {n k : Nat} {keys text out rest : List UInt8} (t : List Event) {r : Row}
    (h : r.At text) (hedit : edit n text keys = some (out, rest)) (hk : k + rest.length ≤ keys.length)
    (hkeys : ∀ c ∈ keys.take k, (Row.Printable c ∨ c = deleteKey) ∧ c ≠ enterKey)
    (hend : ∀ m, echoed m t = []) :
    (r.replay (echoed k (session n text keys ++ t))).At ((keys.take k).foldl press text) := by
  induction keys generalizing text r k with
  | nil =>
    obtain rfl : k = 0 := by
      rw [List.length_nil] at hk
      omega
    simpa [session, hend, Row.replay] using h
  | cons c keys ih =>
    rw [edit] at hedit
    rw [session]
    by_cases hfull : n ≤ text.length
    · rw [if_pos hfull, Option.some.injEq, Prod.mk.injEq] at hedit
      obtain ⟨-, rfl⟩ := hedit
      obtain rfl : k = 0 := by omega
      simpa [hfull, hend, Row.replay] using h
    · rw [if_neg hfull] at hedit ⊢
      cases k with
      | zero =>
        have h0 : ∀ u, echoed 0 (.getc c :: u) = [] := fun _ => rfl
        split <;> simpa [h0, Row.replay] using h
      | succ k =>
        rw [List.take_succ_cons, List.forall_mem_cons] at hkeys
        obtain ⟨⟨hc, hne⟩, hkeys⟩ := hkeys
        rw [if_neg hne] at hedit ⊢
        have hrow := at_echo h hc
        have hlen : k + rest.length ≤ keys.length := by
          rw [List.length_cons] at hk
          omega
        have := ih hrow hedit hlen hkeys
        rw [List.cons_append, List.append_assoc, echoed, echoed_putc, List.take_succ_cons,
          List.foldl_cons, Row.replay, List.foldl_append]
        exact this

end Editor

/-! ### The code follows the editor -/

section Session

variable {str : Nat} {maxLength : Int} {O : Nat → CharField → Prop} {v : View CharField}
  {t : List Event}

/-- The characters of the string and the one after them. -/
def Cells (str : Nat) (maxLength : Int) (a : Nat) (_ : CharField) : Prop :=
  str ≤ a ∧ a ≤ (str + maxLength).toNat

/-- The string holds the line. -/
def HoldsLine (v : View CharField) (str : Nat) (text : List UInt8) : Prop :=
  ∀ j (h : j < text.length), v (str + j) .char = text[j].toNat

@[simp] theorem wp_event {e : Event} {Q : Unit → View CharField → List Event → Prop}
    {T : Empty → Session Unit → View CharField → List Event → Prop} :
    (event e).wp O v t Q T ↔ Q () v (t ++ [e]) := Iff.rfl

@[simp] theorem wp_storeChar (hstr : str ≠ 0) {j : Nat} {c : UInt8}
    {Q : Unit → View CharField → List Event → Prop}
    {T : Empty → Session Unit → View CharField → List Event → Prop} :
    (storeChar str j c).wp O v t Q T ↔
      O (str + j) .char ∧ Q () (v.set (str + j) .char c.toNat) t := by
  rw [storeChar, if_neg hstr]
  exact Iff.rfl

@[simp] theorem wp_loadChar (hstr : str ≠ 0) {j : Nat}
    {Q : UInt8 → View CharField → List Event → Prop}
    {T : Empty → Session UInt8 → View CharField → List Event → Prop} :
    (loadChar str j).wp O v t Q T ↔
      O (str + j) .char ∧ Q (UInt8.ofNat (v (str + j) .char)) v t := by
  rw [loadChar, if_neg hstr]
  exact Iff.rfl

@[simp] theorem set_char {a : Nat} {c : UInt8} : v.set a .char c.toNat a .char = c.toNat := by
  rw [View.set_same]
  exact Nat.mod_eq_of_lt c.toNat_lt

theorem HoldsLine.set {text : List UInt8} (h : HoldsLine v str text) (x : Nat) :
    HoldsLine (v.set (str + text.length) .char x) str text := by
  intro j hj
  rw [View.set_addr_ne (by omega), h j hj]

theorem HoldsLine.dropLast {text : List UInt8} (h : HoldsLine v str text) :
    HoldsLine v str text.dropLast := by
  intro j hj
  rw [List.length_dropLast] at hj
  rw [h j (by omega), List.getElem_dropLast]

theorem HoldsLine.append {text : List UInt8} (h : HoldsLine v str text) (c : UInt8) :
    HoldsLine (v.set (str + text.length) .char c.toNat) str (text ++ [c]) := by
  intro j hj
  rw [List.length_append, List.length_singleton] at hj
  rw [List.getElem_append]
  split
  · next hlt => rw [View.set_addr_ne (by omega), h j hlt]
  · next hge =>
    obtain rfl : j = text.length := by omega
    rw [set_char]
    simp

/-- What the loop leaves when the editor ends so. -/
def Edited (str : Nat) (v : View CharField) (r : Option (List UInt8)) :
    Option (List UInt8 × List UInt8) → Prop
  | none => r = none
  | some (text, rest) => r = some rest ∧ HoldsLine v str text ∧ v (str + text.length) .char = 0

/-- The index that the loop goes on with after a delete key. -/
theorem backOff (text : List UInt8) :
    (if (text.length : Int) ≥ 2 then (text.length : Int) - 2 else -1) + 1 =
      (text.dropLast.length : Int) := by
  rw [List.length_dropLast]
  split <;> omega

/-- The loop is the editor. -/
theorem wp_getStringLoop (hstr : str ≠ 0) {n : Nat} {text keys : List UInt8} (hle : text.length ≤ n)
    (hline : HoldsLine v str text) (hnul : v (str + n) .char = 0) :
    (getStringLoop n str keys text.length).wp (Cells str n) v t
      (fun r v' t' => t' = t ++ Editor.session n text keys ∧
        Edited str v' r (Editor.edit n text keys)) fun _ _ _ _ => False := by
  induction keys generalizing v t text with
  | nil =>
    rw [getStringLoop, Prog.wp_pure, Editor.session, Editor.edit, List.append_nil]
    refine ⟨rfl, ?_⟩
    by_cases hfull : n ≤ text.length
    · obtain rfl : n = text.length := by omega
      rw [if_neg (by omega), if_pos hfull]
      exact ⟨rfl, hline, hnul⟩
    · rw [if_pos ⟨by omega, hstr⟩, if_neg hfull]
      rfl
  | cons key keys ih =>
    rw [getStringLoop, Editor.session, Editor.edit]
    by_cases hfull : n ≤ text.length
    · obtain rfl : n = text.length := by omega
      rw [if_neg (by omega), if_pos hfull, if_pos hfull, Prog.wp_pure]
      exact ⟨by simp, rfl, hline, hnul⟩
    · have hcell : Cells str n (str + text.length) .char := by
        unfold Cells
        omega
      rw [if_pos ⟨by omega, hstr⟩, if_neg hfull, if_neg hfull]
      simp only [Prog.wp_bind, wp_event, wp_storeChar hstr, wp_loadChar hstr]
      refine ⟨hcell, hcell, ?_⟩
      have hkey : UInt8.ofNat (v.set (str + text.length) .char key.toNat (str + text.length) .char) =
          key := by
        rw [set_char, UInt8.ofNat_toNat]
      have hnul' {x : Nat} : v.set (str + text.length) .char x (str + n) .char = 0 := by
        rw [View.set_addr_ne (by omega), hnul]
      rw [hkey]
      have hpress := Editor.length_press_le (c := key) (Nat.lt_of_not_le hfull)
      have happ : t ++ Event.getc key :: ((Editor.echo text key).map .putc ++
          Editor.session n (Editor.press text key) keys) =
          t ++ .getc key :: (Editor.echo text key).map .putc ++
            Editor.session n (Editor.press text key) keys := by
        simp
      by_cases hdel : key = deleteKey
      · have hent : key ≠ enterKey := by
          rw [hdel]
          decide
        rw [if_pos hdel, if_neg hent, if_neg hent, happ]
        have hrun := ih (t := t ++ .getc key :: (Editor.echo text key).map .putc) hpress
          (v := v.set (str + text.length) .char key.toNat)
        rw [Editor.press, if_pos hdel] at hrun ⊢
        rw [backOff]
        have hrun := hrun (hline.set key.toNat).dropLast hnul'
        by_cases hnil : text = []
        · rw [if_neg (by simp [hnil])]
          rw [Editor.echo, if_pos hdel, if_pos hnil] at hrun ⊢
          exact hrun
        · rw [if_pos (by have := List.length_pos_iff.mpr hnil; omega)]
          rw [Editor.echo, if_pos hdel, if_neg hnil] at hrun ⊢
          simpa [putc, Row.erase] using hrun
      · rw [if_neg hdel]
        by_cases hent : key = enterKey
        · rw [if_pos hent, if_pos hent, if_pos hent]
          simp only [Prog.wp_bind, Prog.wp_pure, putc, wp_event]
          refine (wp_storeChar (c := 0) hstr).mpr ⟨hcell, by simp, rfl, (hline.set _).set _, ?_⟩
          exact set_char
        · rw [if_neg hent, if_neg hent, if_neg hent, happ]
          have hrun := ih (t := t ++ .getc key :: (Editor.echo text key).map .putc) hpress
            (v := v.set (str + text.length) .char key.toNat)
          rw [Editor.press, if_neg hdel] at hrun ⊢
          have hrun := hrun (hline.append key) hnul'
          rw [Editor.echo, if_neg hdel] at hrun ⊢
          rw [List.length_append, List.length_singleton] at hrun
          simpa [putc] using hrun

theorem separate_cells (hstr : str ≠ 0) : Separate (Cells str maxLength) where
  apart a f b g _ _ hne := by
    cases f
    cases g
    simp only [Apart, offset, size]
    have : b ≠ a := fun h => hne ⟨h, rfl⟩
    omega
  nonnull f h := by
    have := h.1
    omega

theorem field_char (m : Mem) (a : Nat) : m.field a CharField.char = (m a).toNat := by
  simp [Mem.field, load, offset, size]

/-- `get_string` reads a line with the editor. -/
theorem wp_getString {new : Nat → Nat} {n : Nat} (hn : (n : Int) < 2 ^ 31 - 1)
    (hstr : new (n + 1) ≠ 0) (keys : List UInt8) :
    (getString new n keys).wp (Cells (new (n + 1)) n) v t
      (fun r v' t' =>
        match Editor.edit n [] keys with
        | none => r = none
        | some (text, rest) => r = some (new (n + 1), rest) ∧ HoldsLine v' (new (n + 1)) text ∧
            v' (new (n + 1) + text.length) .char = 0 ∧
            t' = t ++ .lock :: Editor.session n [] keys ++ [.unlock]) fun _ _ _ _ => False := by
  have hsize : signExtend ((n : Int) + 1) = n + 1 := by
    unfold signExtend
    omega
  have hcell : Cells (new (n + 1)) n (new (n + 1) + n) .char := by
    unfold Cells
    omega
  rw [getString, hsize]
  simp only [Prog.wp_bind, wp_event, wp_storeChar hstr]
  refine ⟨hcell, Prog.wp_post (@wp_getStringLoop _ _ _ hstr n [] keys (Nat.zero_le n)
    (fun j hj => absurd hj (Nat.not_lt_zero j)) set_char) ?_ fun _ _ _ _ h => h⟩
  rintro r v' t' ⟨rfl, hedit⟩
  cases hline : Editor.edit n [] keys with
  | none =>
    rw [hline] at hedit
    obtain rfl := hedit
    rfl
  | some p =>
    rw [hline] at hedit
    obtain ⟨rfl, hholds, hnul⟩ := hedit
    exact ⟨rfl, hholds, hnul, by simp⟩

/-- `get_string` returns the line of the stack editor and a NUL after it, writes no byte outside of
the string, and after every key before Enter the terminal shows the line. -/
theorem getString_edits {new : Nat → Nat} {maxLength : Int} (hlow : 0 ≤ maxLength)
    (hhigh : maxLength < 2 ^ 31 - 1) (hstr : new (maxLength + 1).toNat ≠ 0)
    {keys text rest : List UInt8} (hline : Editor.edit maxLength.toNat [] keys = some (text, rest))
    (m : Mem) : ∃ str m' t, str = new (maxLength + 1).toNat ∧
      (getString new maxLength keys).run m [] = .done (some (str, rest)) m' t ∧
      (∀ j (h : j < text.length), m' (str + j) = text[j]) ∧ m' (str + text.length) = 0 ∧
      (∀ w ∈ (getString new maxLength keys).writes m [], str ≤ w.1 ∧ (w.1 : Int) ≤ str + maxLength) ∧
      ∀ k, k + rest.length ≤ keys.length → enterKey ∉ keys.take k →
        (∀ c ∈ keys.take k, Row.Printable c ∨ c = deleteKey ∨ c = enterKey) →
        (Row.empty.replay (echoed k t)).Shows ((keys.take k).foldl Editor.press []) := by
  obtain ⟨n, rfl⟩ := Int.eq_ofNat_of_zero_le hlow
  have hsize : ((n : Int) + 1).toNat = n + 1 := by omega
  rw [hsize] at hstr ⊢
  rw [Int.toNat_natCast] at hline
  have hwp := wp_getString (v := m.view) (t := []) hhigh hstr keys
  rw [hline] at hwp
  have hsep := @separate_cells _ n hstr
  have hsim := Sim.self (Cells (new (n + 1)) n) m
  obtain ⟨r, m', t, v', hrun, hs, -, rfl, hholds, hnul, rfl⟩ := Prog.returns hsep hsim hwp
  have hfits := Editor.length_edit_le (Nat.zero_le n) hline
  have hbyte (j : Nat) (hj : j ≤ n) : (m' (new (n + 1) + j)).toNat = v' (new (n + 1) + j) .char := by
    rw [← field_char, hs _ _ ⟨by omega, by omega⟩]
  refine ⟨_, m', _, rfl, hrun, fun j hj => ?_, ?_, fun w hw => ?_, fun k hk hent hkeys => ?_⟩
  · apply UInt8.toNat_inj.mp
    exact (hbyte j (by omega)).trans (hholds j hj)
  · apply UInt8.toNat_inj.mp
    exact (hbyte _ hfits).trans hnul
  · obtain ⟨hfrom, hto⟩ := Prog.writes_own hsep hsim hwp w hw
    refine ⟨hfrom, ?_⟩
    omega
  · refine (Editor.at_session [.unlock] Row.at_empty hline hk (fun c hc => ?_) fun i => ?_).shows
    · have hne : c ≠ enterKey := fun h => hent (h ▸ hc)
      rcases hkeys c hc with hp | hd | he
      · exact ⟨.inl hp, hne⟩
      · exact ⟨.inr hd, hne⟩
      · exact absurd he hne
    · cases i <;> rfl

/-- The line `ac`, from the keys `a`, `b`, delete, `c` and Enter. -/
theorem getString_edits_line : ∃ m' t,
    (getString (fun _ => 64) 8 [97, 98, 127, 99, 13]).run (fun _ => 0) [] =
      .done (some (64, [])) m' t ∧ m' 64 = 97 ∧ m' 65 = 99 ∧ m' 66 = 0 := by
  have hline : Editor.edit 8 [] [97, 98, 127, 99, 13] = some ([97, 99], []) := by decide
  obtain ⟨str, m', t, rfl, hrun, hbytes, hnul, -, -⟩ :=
    @getString_edits (fun _ => 64) 8 (by decide) (by omega) (by decide) _ _ _ hline fun _ => 0
  have h₀ := hbytes 0 (by decide)
  have h₁ := hbytes 1 (by decide)
  exact ⟨m', t, hrun, by simpa using h₀, by simpa using h₁, by simpa using hnul⟩

end Session

end Os1Kernel.Console
