import Mathlib.Tactic

/-! A text terminal, byte by byte.

    The cells hold anything: what a byte looks like and what an erased cell looks like are parameters, and
    where the bytes put them does not depend on these (`run_map`). -/

namespace TypeOS.Terminal

/-- A screen: the place of the cursor and the cells, by row and column. -/
structure Screen (α : Type*) where
  x : Nat
  y : Nat
  cell : Nat → Nat → α

/-- How many columns and rows there are, and what erased cells and bytes look like. -/
structure Look (α : Type*) where
  width : Nat
  height : Nat
  blank : α
  glyph : UInt8 → α

variable {α β : Type*} {look : Look α} {s : Screen α}

/-- A cell is changed. -/
def Screen.set (s : Screen α) (y x : Nat) (a : α) : Screen α :=
  { s with cell := fun i j => if i = y ∧ j = x then a else s.cell i j }

/-- Every row moves up by one, and the last one is erased. -/
def Screen.scroll (look : Look α) (s : Screen α) : Screen α :=
  { s with cell := fun i j => if i + 1 < look.height then s.cell (i + 1) j else look.blank }

/-- Behind the last column the cursor goes to the next line. -/
def Screen.wrap (look : Look α) (s : Screen α) : Screen α :=
  if look.width ≤ s.x then { s with x := 0, y := s.y + 1 } else s

/-- Behind the last line the screen scrolls. -/
def Screen.feed (look : Look α) (s : Screen α) : Screen α :=
  if look.height ≤ s.y then { s.scroll look with y := look.height - 1 } else s

/-- The cursor comes back to the screen. -/
def Screen.settle (look : Look α) (s : Screen α) : Screen α := (s.wrap look).feed look

/-- The cell before the cursor is erased, if there is one, and the cursor is on it. -/
def Screen.erase (look : Look α) (s : Screen α) : Screen α :=
  if 0 < s.x then { s.set s.y (s.x - 1) look.blank with x := s.x - 1 }
  else if 0 < s.y then
    { s.set (s.y - 1) (look.width - 1) look.blank with x := look.width - 1, y := s.y - 1 }
  else s

/-- One byte: a new line, a carriage return, a tab to the next multiple of 8, a backspace, or one that is
    printed. -/
def put (look : Look α) (s : Screen α) (b : UInt8) : Screen α :=
  if b = 10 then Screen.settle look { s with x := 0, y := s.y + 1 }
  else if b = 13 then Screen.settle look { s with x := 0 }
  else if b = 9 then Screen.settle look { s with x := (s.x / 8 + 1) * 8 }
  else if b = 8 then s.erase look
  else Screen.settle look { s.set s.y s.x (look.glyph b) with x := s.x + 1 }

/-- The bytes one by one. -/
def run (look : Look α) (s : Screen α) (bytes : List UInt8) : Screen α := bytes.foldl (put look) s

/-- The cursor is on the screen. -/
def Screen.Inside (look : Look α) (s : Screen α) : Prop := s.x < look.width ∧ s.y < look.height

/-- The same with other cells. -/
def Screen.map (f : α → β) (s : Screen α) : Screen β := ⟨s.x, s.y, fun i j => f (s.cell i j)⟩

/-- The same with another look. -/
def Look.map (f : α → β) (look : Look α) : Look β :=
  ⟨look.width, look.height, f look.blank, fun b => f (look.glyph b)⟩

/-! ### The cursor stays on the screen -/

theorem settle_inside (hw : 0 < look.width) (hh : 0 < look.height) (s : Screen α) :
    (s.settle look).Inside look := by
  have hwrap : (s.wrap look).x < look.width := by
    rw [Screen.wrap]
    split
    · exact hw
    · next hx => exact not_le.mp hx
  rw [Screen.settle, Screen.feed]
  split
  · exact ⟨hwrap, Nat.sub_lt hh Nat.one_pos⟩
  · next hy => exact ⟨hwrap, not_le.mp hy⟩

theorem put_inside (h : s.Inside look) (b : UInt8) : (put look s b).Inside look := by
  have hw : 0 < look.width := Nat.zero_lt_of_lt h.1
  have hh : 0 < look.height := Nat.zero_lt_of_lt h.2
  rw [put]
  split_ifs
  · exact settle_inside hw hh _
  · exact settle_inside hw hh _
  · exact settle_inside hw hh _
  · rw [Screen.erase]
    split_ifs
    · exact ⟨(Nat.sub_le ..).trans_lt h.1, h.2⟩
    · exact ⟨Nat.sub_lt hw Nat.one_pos, (Nat.sub_le ..).trans_lt h.2⟩
    · exact h
  · exact settle_inside hw hh _

/-! ### What the cells hold -/

/-- A cell holds what it held somewhere before, or it is erased, or a byte was printed there. -/
theorem put_cell (s : Screen α) (b : UInt8) (i j : Nat) : (put look s b).cell i j = look.blank ∨
    (put look s b).cell i j = look.glyph b ∨ ∃ k m, (put look s b).cell i j = s.cell k m := by
  have hset : ∀ (s : Screen α) (y x i j : Nat) (a : α), (s.set y x a).cell i j = a ∨
      (s.set y x a).cell i j = s.cell i j := by
    intro s y x i j a
    rw [Screen.set]
    dsimp only
    split
    · exact Or.inl rfl
    · exact Or.inr rfl
  have hsettle : ∀ s : Screen α, (s.settle look).cell i j = look.blank ∨
      ∃ k m, (s.settle look).cell i j = s.cell k m := by
    intro s
    have hwrap : (s.wrap look).cell = s.cell := by
      rw [Screen.wrap]
      split <;> rfl
    rw [Screen.settle, Screen.feed]
    split
    · rw [Screen.scroll]
      dsimp only
      split
      · exact Or.inr ⟨i + 1, j, by rw [hwrap]⟩
      · exact Or.inl rfl
    · exact Or.inr ⟨i, j, by rw [hwrap]⟩
  rw [put]
  split_ifs
  · exact (hsettle _).imp_right Or.inr
  · exact (hsettle _).imp_right Or.inr
  · exact (hsettle _).imp_right Or.inr
  · rw [Screen.erase]
    split_ifs
    · exact (hset s _ _ i j _).imp_right fun h => Or.inr ⟨i, j, h⟩
    · exact (hset s _ _ i j _).imp_right fun h => Or.inr ⟨i, j, h⟩
    · exact Or.inr (Or.inr ⟨i, j, rfl⟩)
  · refine (hsettle _).imp_right fun ⟨k, m, hk⟩ => ?_
    rw [hk]
    exact (hset s _ _ k m _).imp_right fun h => ⟨k, m, h⟩

theorem run_cell (bytes : List UInt8) : ∀ (s : Screen α) (i j : Nat), (run look s bytes).cell i j = look.blank ∨
    (∃ b ∈ bytes, (run look s bytes).cell i j = look.glyph b) ∨
    ∃ k m, (run look s bytes).cell i j = s.cell k m := by
  induction bytes with
  | nil => exact fun s i j => Or.inr (Or.inr ⟨i, j, rfl⟩)
  | cons b bytes ih =>
    intro s i j
    rw [run, List.foldl_cons, ← run]
    rcases ih (put look s b) i j with h | ⟨a, ha, h⟩ | ⟨k, m, h⟩
    · exact Or.inl h
    · exact Or.inr (Or.inl ⟨a, List.mem_cons_of_mem b ha, h⟩)
    · rw [h]
      rcases @put_cell _ look s b k m with h | h | h
      · exact Or.inl h
      · exact Or.inr (Or.inl ⟨b, List.mem_cons_self, h⟩)
      · exact Or.inr (Or.inr h)

/-! ### The cells do not matter -/

theorem map_cell (f : α → β) (s : Screen α) (i j : Nat) : (s.map f).cell i j = f (s.cell i j) := rfl

theorem map_set (f : α → β) (s : Screen α) (y x : Nat) (a : α) (k m : Nat) :
    Screen.map f ⟨k, m, (s.set y x a).cell⟩ = ⟨k, m, ((s.map f).set y x (f a)).cell⟩ := by
  simp only [Screen.map, Screen.set, Screen.mk.injEq, true_and]
  funext i j
  exact apply_ite f _ _ _

theorem map_scroll (f : α → β) (s : Screen α) :
    (s.scroll look).map f = (s.map f).scroll (look.map f) := by
  simp only [Screen.map, Screen.scroll, Look.map, Screen.mk.injEq, true_and]
  funext i j
  exact apply_ite f _ _ _

theorem map_settle (f : α → β) (s : Screen α) :
    (s.settle look).map f = (s.map f).settle (look.map f) := by
  have hfeed : ∀ s : Screen α, (s.feed look).map f = (s.map f).feed (look.map f) := by
    intro s
    rw [Screen.feed, Screen.feed, apply_ite (Screen.map f), ← map_scroll]
    rfl
  have hwrap : (s.wrap look).map f = (s.map f).wrap (look.map f) := by
    rw [Screen.wrap, Screen.wrap, apply_ite (Screen.map f)]
    rfl
  rw [Screen.settle, hfeed, hwrap, Screen.settle]

theorem map_erase (f : α → β) (s : Screen α) : (s.erase look).map f = (s.map f).erase (look.map f) := by
  rw [Screen.erase, Screen.erase, apply_ite (Screen.map f), apply_ite (Screen.map f), map_set, map_set]
  rfl

theorem map_put (f : α → β) (s : Screen α) (b : UInt8) :
    (put look s b).map f = put (look.map f) (s.map f) b := by
  rw [put, put]
  split_ifs
  · exact map_settle f _
  · exact map_settle f _
  · exact map_settle f _
  · exact map_erase f s
  · rw [map_settle, map_set]
    rfl

/-- Where the bytes put what does not depend on what it looks like. -/
theorem run_map (f : α → β) (bytes : List UInt8) : ∀ s : Screen α,
    (run look s bytes).map f = run (look.map f) (s.map f) bytes := by
  induction bytes with
  | nil => exact fun _ => rfl
  | cons b bytes ih =>
    intro s
    rw [run, List.foldl_cons, ← run, ih, map_put]
    rfl

end TypeOS.Terminal
