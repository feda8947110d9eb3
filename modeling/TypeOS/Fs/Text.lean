import Mathlib.Tactic

/-! C strings, and how the path functions of `fs/vfs.c` cut them.

    A text is what a `char *` points at, up to its NUL, so its bytes are not NUL. A copy into a
    buffer of n bytes with a NUL at the end keeps the first n - 1. -/

namespace TypeOS.Fs

/-- A byte of a C string. -/
abbrev Ch := {b : UInt8 // b ≠ 0}

abbrev Text := List Ch

def slash : Ch := ⟨47, by decide⟩

/-- `vfs_is_absolute`. -/
def vfsIsAbsolute (path : Text) : Bool := path.head? = some slash

/-- `vfs_skip_slash`. -/
def vfsSkipSlash (path : Text) : Text := path.dropWhile (· = slash)

/-- The component at the start of a cursor. -/
def headComponent (cursor : Text) : Text := cursor.takeWhile (· ≠ slash)

/-- The cursor behind the component and the slashes that follow it. -/
def afterComponent (cursor : Text) : Text := vfsSkipSlash (cursor.dropWhile (· ≠ slash))

/-- The components that a loop over `cursor` sees, each with the cursor behind it; the number is
    the length of the text, or more. -/
def pieces : Nat → Text → List (Text × Text)
  | 0, _ => []
  | _ + 1, [] => []
  | n + 1, c :: cs =>
    (headComponent (c :: cs), afterComponent (c :: cs)) :: pieces n (afterComponent (c :: cs))

/-- The turns of the loops in `vfs_lookup_path` and `vfs_lookup_parent`. -/
def splitPath (path : Text) : List (Text × Text) := pieces path.length (vfsSkipSlash path)

/-- The names of a path. -/
def components (path : Text) : List Text := (splitPath path).map Prod.fst

/-- `strncmp`: the lists end where the strings have their NUL, or go on up to it. -/
def strncmp : Nat → List UInt8 → List UInt8 → Int
  | 0, _, _ => 0
  | n + 1, s1, s2 =>
    let c1 := s1.headD 0
    let c2 := s2.headD 0
    if c1 ≠ c2 then (c1.toNat : Int) - c2.toNat
    else if c1 = 0 then 0
    else strncmp n s1.tail s2.tail

/-- The bytes of a text without its NUL. -/
def Text.bytes (t : Text) : List UInt8 := t.map Subtype.val

/-- `strrchr (s, '/')`, as an index. -/
def lastSlash : Text → Option Nat
  | [] => none
  | c :: cs =>
    match lastSlash cs with
    | some i => some (i + 1)
    | none => if c = slash then some 0 else none

/-! ### Cutting -/

theorem headComponent_append_drop (t : Text) :
    headComponent t ++ t.dropWhile (· ≠ slash) = t := List.takeWhile_append_dropWhile

theorem skipSlash_length_le (t : Text) : (vfsSkipSlash t).length ≤ t.length :=
  (List.dropWhile_suffix _).length_le

/-- What is left after the slashes is nothing or begins with a component. -/
theorem skipSlash_head (t : Text) : (vfsSkipSlash t).head? ≠ some slash := by
  induction t with
  | nil => simp [vfsSkipSlash]
  | cons c t ih =>
    by_cases hc : c = slash
    · rw [vfsSkipSlash, List.dropWhile_cons_of_pos (by simpa using hc)]
      exact ih
    · rw [vfsSkipSlash, List.dropWhile_cons_of_neg (by simpa using hc)]
      simpa using hc

theorem skipSlash_of_head {t : Text} (h : t.head? ≠ some slash) : vfsSkipSlash t = t := by
  cases t with
  | nil => rfl
  | cons c t =>
    refine List.dropWhile_cons_of_neg ?_
    simpa using h

theorem afterComponent_head (t : Text) : (afterComponent t).head? ≠ some slash := skipSlash_head _

theorem headComponent_ne_nil {c : Ch} {t : Text} (hc : c ≠ slash) : headComponent (c :: t) ≠ [] := by
  rw [headComponent, List.takeWhile_cons_of_pos (by simpa using hc)]
  simp

/-- A component moves the cursor on. -/
theorem afterComponent_length_lt {c : Ch} {t : Text} (hc : c ≠ slash) :
    (afterComponent (c :: t)).length < (c :: t).length := by
  have h1 := congrArg List.length (headComponent_append_drop (c :: t))
  have h2 := List.length_pos_of_ne_nil (@headComponent_ne_nil c t hc)
  have h3 := skipSlash_length_le ((c :: t).dropWhile (· ≠ slash))
  rw [List.length_append] at h1
  simp only [afterComponent]
  omega

/-- More turns than there are components make no difference. -/
theorem pieces_fuel {n m : Nat} {t : Text} (hh : t.head? ≠ some slash) (hn : t.length ≤ n)
    (hm : t.length ≤ m) : pieces n t = pieces m t := by
  induction n generalizing m t with
  | zero =>
    obtain rfl : t = [] := List.eq_nil_of_length_eq_zero (by omega)
    cases m <;> rfl
  | succ n ih =>
    cases t with
    | nil => cases m <;> rfl
    | cons c cs =>
      have hc : c ≠ slash := by simpa using hh
      have hlt := @afterComponent_length_lt c cs hc
      cases m with
      | zero => simp at hm
      | succ m =>
        simp only [List.length_cons] at hn hm hlt
        rw [pieces, pieces, ih (afterComponent_head _) (by omega) (m := m) (by omega)]

@[simp] theorem splitPath_nil : splitPath [] = [] := rfl

/-- The first turn, and the others. -/
theorem splitPath_cons {c : Ch} {t : Text} (hc : c ≠ slash) :
    splitPath (c :: t) =
      (headComponent (c :: t), afterComponent (c :: t)) :: splitPath (afterComponent (c :: t)) := by
  have hlt := @afterComponent_length_lt c t hc
  rw [splitPath, skipSlash_of_head (t := c :: t) (by simpa using hc), List.length_cons, pieces,
    splitPath, skipSlash_of_head (afterComponent_head _),
    pieces_fuel (afterComponent_head _) (m := (afterComponent (c :: t)).length)
      (by simpa using Nat.lt_succ_iff.mp hlt) le_rfl]

@[simp] theorem splitPath_slash (t : Text) : splitPath (slash :: t) = splitPath t := by
  have hs : vfsSkipSlash (slash :: t) = vfsSkipSlash t :=
    List.dropWhile_cons_of_pos (by simp)
  rw [splitPath, splitPath, hs]
  exact pieces_fuel (skipSlash_head t) ((skipSlash_length_le t).trans (by simp))
    (skipSlash_length_le t)

theorem splitPath_skipSlash (t : Text) : splitPath (vfsSkipSlash t) = splitPath t := by
  induction t with
  | nil => rfl
  | cons c t ih =>
    rcases eq_or_ne c slash with rfl | hc
    · have hs : vfsSkipSlash (slash :: t) = vfsSkipSlash t :=
        List.dropWhile_cons_of_pos (by simp)
      rw [hs, ih, splitPath_slash]
    · rw [skipSlash_of_head (by simpa using hc)]

theorem headComponent_slash (t : Text) : slash ∉ headComponent t := by
  intro h
  have := List.all_takeWhile (p := fun c => decide (c ≠ slash)) (l := t)
  have := List.all_eq_true.mp this slash h
  simp at this

/-- What the first turn of a loop knows: its component is a name, and the cursor leads to the other
    turns. -/
theorem splitPath_eq_cons {t component cursor : Text} {l : List (Text × Text)}
    (h : splitPath t = (component, cursor) :: l) :
    component ≠ [] ∧ slash ∉ component ∧ l = splitPath cursor ∧ (cursor = [] ↔ l = []) := by
  induction t with
  | nil => simp at h
  | cons c t ih =>
    rcases eq_or_ne c slash with rfl | hc
    · rw [splitPath_slash] at h
      exact ih h
    · rw [splitPath_cons hc] at h
      obtain ⟨h1, rfl⟩ := List.cons.inj h
      obtain ⟨rfl, rfl⟩ := Prod.mk.inj h1
      refine ⟨headComponent_ne_nil hc, headComponent_slash _, rfl, ?_⟩
      have hh := afterComponent_head (c :: t)
      cases ha : afterComponent (c :: t) with
      | nil => simp
      | cons d u =>
        rw [ha] at hh
        rw [splitPath_cons (by simpa using hh)]
        simp

/-- A turn of the comparison: the bytes are the same, and it goes on behind them. -/
theorem strncmp_succ (n : Nat) (s t : List UInt8) : strncmp (n + 1) s t = 0 ↔
    s.headD 0 = t.headD 0 ∧ (s.headD 0 = 0 ∨ strncmp n s.tail t.tail = 0) := by
  rw [strncmp]
  generalize s.headD 0 = c1
  generalize t.headD 0 = c2
  rcases eq_or_ne c1 c2 with rfl | h
  · rcases eq_or_ne c1 0 with rfl | h0
    · simp
    · simp [h0]
  · have hn : c1.toNat ≠ c2.toNat := fun h' => h (UInt8.toNat_inj.mp h')
    simp only [ne_eq, h, not_false_eq_true, if_true, false_and, iff_false]
    omega

/-- Comparing a name with all of another one. -/
theorem strncmp_bytes (s t : Text) :
    strncmp t.length s.bytes t.bytes = 0 ↔ t <+: s := by
  induction t generalizing s with
  | nil => simp [strncmp]
  | cons c t ih =>
    have hc := c.2
    rw [List.length_cons, strncmp_succ]
    cases s with
    | nil => simpa [Text.bytes] using Ne.symm hc
    | cons d s =>
      have hd := d.2
      have := ih s
      simp only [Text.bytes, List.map_cons, List.headD_cons, List.tail_cons, hd, false_or,
        List.cons_prefix_cons] at this ⊢
      rw [this, Subtype.ext_iff]
      exact and_congr_left fun _ => eq_comm

end TypeOS.Fs
