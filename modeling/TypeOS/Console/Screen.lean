import TypeOS.Lib.Terminal

/-! The text screen (`vga.c`).

    A `char` is signed, so a byte from 0x80 on sets all bits of the colour of its cell. Where the bytes go
    is what a terminal of 80 columns and 25 rows does. What goes to the debug port and to the cursor of
    the hardware is left out. -/

namespace TypeOS.Console

open Terminal (Screen Look map_cell)

/-- `VGA_WIDTH`. -/
abbrev vgaWidth : Nat := 80

/-- `VGA_HEIGHT`. -/
abbrev vgaHeight : Nat := 25

/-- An `unsigned short` of `VGA_MEMORY`. -/
abbrev Cell : Type := BitVec 16

/-- The statics of the driver, `VGA_MEMORY`, and the indices that were stored to, the last one first. -/
structure Vga where
  cursorX : Int
  cursorY : Int
  currentColor : BitVec 8
  memory : Int → Cell
  stores : List Int

/-- `VGA_MEMORY[i] = a`. -/
def Vga.store (i : Int) (a : Cell) (v : Vga) : Vga :=
  { v with memory := Function.update v.memory i a, stores := i :: v.stores }

/-- `c | (current_color << 8)`. -/
def charCell (c : UInt8) (color : BitVec 8) : Cell :=
  c.toBitVec.signExtend 16 ||| color.setWidth 16 <<< 8

/-- A turn of the outer loop of `vga_scroll`: the first n cells of a row move up. -/
def scrollRow (y n : Nat) (v : Vga) : Vga :=
  (List.range n).foldl (fun (v : Vga) (x : Nat) =>
    v.store (((y : Int) - 1) * vgaWidth + x) (v.memory ((y : Int) * vgaWidth + x))) v

/-- The last loop of `vga_scroll`, for the first n cells of the last row. -/
def clearRow (n : Nat) (v : Vga) : Vga :=
  (List.range n).foldl (fun (v : Vga) (x : Nat) =>
    v.store (((vgaHeight : Int) - 1) * vgaWidth + x) (charCell 32 v.currentColor)) v

/-- The first n turns of the outer loop of `vga_scroll`. -/
def scrollRows (n : Nat) (v : Vga) : Vga :=
  (List.range n).foldl (fun (v : Vga) (y : Nat) => scrollRow (y + 1) vgaWidth v) v

/-- `vga_scroll`. -/
def vgaScroll (v : Vga) : Vga := clearRow vgaWidth (scrollRows (vgaHeight - 1) v)

/-- A cursor behind the last column. -/
def vgaWrap (v : Vga) : Vga :=
  if v.cursorX ≥ vgaWidth then { v with cursorX := 0, cursorY := v.cursorY + 1 } else v

/-- A cursor behind the last line. -/
def vgaFeed (v : Vga) : Vga :=
  if v.cursorY ≥ vgaHeight then { vgaScroll v with cursorY := vgaHeight - 1 } else v

/-- The end of `vga_putchar`. -/
def vgaFixUp (v : Vga) : Vga := vgaFeed (vgaWrap v)

/-- The case of `\b` in `vga_putchar`. -/
def vgaBackspace (v : Vga) : Vga :=
  if v.cursorX = 0 ∧ v.cursorY = 0 then v
  else
    let v := if v.cursorX > 0 then { v with cursorX := v.cursorX - 1 }
      else { v with cursorY := v.cursorY - 1, cursorX := vgaWidth - 1 }
    v.store (v.cursorY * vgaWidth + v.cursorX) (charCell 32 v.currentColor)

/-- `vga_putchar`; `& ~7` rounds down to a multiple of 8. -/
def vgaPutchar (c : UInt8) (v : Vga) : Vga :=
  if c = 10 then vgaFixUp { v with cursorX := 0, cursorY := v.cursorY + 1 }
  else if c = 13 then vgaFixUp { v with cursorX := 0 }
  else if c = 9 then vgaFixUp { v with cursorX := (v.cursorX + 8) / 8 * 8 }
  else if c = 8 then vgaBackspace v
  else
    let v := v.store (v.cursorY * vgaWidth + v.cursorX) (charCell c v.currentColor)
    vgaFixUp { v with cursorX := v.cursorX + 1 }

/-- The loop of `vga_write`, up to the NUL. -/
def writeLoop : List UInt8 → Vga → Vga
  | [], v => v
  | c :: str, v => if c = 0 then v else writeLoop str (vgaPutchar c v)

/-- `vga_write`. -/
def vgaWrite (str : List UInt8) (color : BitVec 32) (v : Vga) : Vga :=
  { writeLoop str { v with currentColor := color.setWidth 8 } with currentColor := v.currentColor }

/-- `vga_set_cursor`. -/
def vgaSetCursor (x y : Int) (v : Vga) : Vga :=
  let x := if x < 0 then 0 else x
  let y := if y < 0 then 0 else y
  { v with
    cursorX := if x ≥ vgaWidth then vgaWidth - 1 else x
    cursorY := if y ≥ vgaHeight then vgaHeight - 1 else y }

/-- `vga_init`: the screen is filled column by column. -/
def vgaInit (v : Vga) : Vga :=
  (List.range vgaWidth).foldl (fun (v : Vga) (x : Nat) =>
    (List.range vgaHeight).foldl (fun (v : Vga) (y : Nat) =>
      v.store ((y : Int) * vgaWidth + x) (charCell 32 0x8f)) v)
    { v with cursorX := 0, cursorY := 0, currentColor := 0x8f }

variable {v v' : Vga} {n y : Nat} {c : UInt8} {color : BitVec 8} {s : Screen Cell}

/-! ### Scrolling -/

/-- Only cells were stored to, and all of them are on the screen. -/
structure Stored (v v' : Vga) : Prop where
  cursorX : v'.cursorX = v.cursorX
  cursorY : v'.cursorY = v.cursorY
  currentColor : v'.currentColor = v.currentColor
  stores : ∀ i ∈ v'.stores, i ∈ v.stores ∨ 0 ≤ i ∧ i < 2000

theorem Stored.refl (v : Vga) : Stored v v := ⟨rfl, rfl, rfl, fun _ hi => Or.inl hi⟩

theorem Stored.trans {v'' : Vga} (h : Stored v v') (h' : Stored v' v'') : Stored v v'' where
  cursorX := h'.cursorX.trans h.cursorX
  cursorY := h'.cursorY.trans h.cursorY
  currentColor := h'.currentColor.trans h.currentColor
  stores := fun i hi => (h'.stores i hi).elim (h.stores i) Or.inr

theorem Stored.store (v : Vga) {i : Int} (a : Cell) (h0 : 0 ≤ i) (h : i < 2000) : Stored v (v.store i a) where
  cursorX := rfl
  cursorY := rfl
  currentColor := rfl
  stores := fun _ hj => (List.mem_cons.mp hj).elim (fun he => Or.inr (he ▸ ⟨h0, h⟩)) Or.inl

theorem scrollRow_spec (hy : 0 < y) (hlast : y < vgaHeight) (v : Vga) : ∀ n ≤ vgaWidth,
    Stored v (scrollRow y n v) ∧ ∀ i : Int, (scrollRow y n v).memory i =
      if (y - 1) * vgaWidth ≤ i ∧ i < (y - 1) * vgaWidth + n then v.memory (i + vgaWidth)
      else v.memory i := by
  intro n
  induction n with
  | zero =>
    refine fun _ => ⟨.refl v, fun i => ?_⟩
    rw [if_neg (by omega)]
    rfl
  | succ n ih =>
    intro hn
    obtain ⟨hs, hm⟩ := ih (by omega)
    rw [scrollRow, List.range_succ, List.foldl_append, List.foldl_cons, List.foldl_nil, ← scrollRow]
    simp only [vgaHeight, vgaWidth] at hlast hn
    refine ⟨hs.trans (.store _ _ (by simp only [vgaWidth]; omega) (by simp only [vgaWidth]; omega)), fun i => ?_⟩
    rw [Vga.store, hm, if_neg (by simp only [vgaWidth]; omega)]
    dsimp only
    rw [Function.update_apply, hm]
    by_cases hi : i = ((y : Int) - 1) * vgaWidth + n
    · rw [if_pos hi, if_pos (by simp only [vgaWidth] at *; omega)]
      congr 1
      simp only [vgaWidth] at *
      omega
    · rw [if_neg hi]
      congr 1
      simp only [vgaWidth, eq_iff_iff] at *
      omega

theorem scrollRows_spec (v : Vga) : ∀ n < vgaHeight, Stored v (scrollRows n v) ∧
    ∀ i : Int, (scrollRows n v).memory i =
      if 0 ≤ i ∧ i < (n : Int) * vgaWidth then v.memory (i + vgaWidth) else v.memory i := by
  intro n
  induction n with
  | zero =>
    refine fun _ => ⟨.refl v, fun i => ?_⟩
    rw [if_neg (by omega)]
    rfl
  | succ n ih =>
    intro hn
    obtain ⟨hs, hm⟩ := ih (by omega)
    rw [scrollRows, List.range_succ, List.foldl_append, List.foldl_cons, List.foldl_nil, ← scrollRows]
    obtain ⟨hrow, hmrow⟩ := scrollRow_spec (Nat.succ_pos n) hn (scrollRows n v) vgaWidth le_rfl
    refine ⟨hs.trans hrow, fun i => ?_⟩
    rw [hmrow, hm, hm]
    simp only [vgaWidth, Nat.cast_add, Nat.cast_one]
    split_ifs <;> first | rfl | (exfalso; omega)

theorem clearRow_spec (v : Vga) : ∀ n ≤ vgaWidth, Stored v (clearRow n v) ∧
    ∀ i : Int, (clearRow n v).memory i =
      if 1920 ≤ i ∧ i < 1920 + n then charCell 32 v.currentColor else v.memory i := by
  intro n
  induction n with
  | zero =>
    refine fun _ => ⟨.refl v, fun i => ?_⟩
    rw [if_neg (by omega)]
    rfl
  | succ n ih =>
    intro hn
    obtain ⟨hs, hm⟩ := ih (by omega)
    rw [clearRow, List.range_succ, List.foldl_append, List.foldl_cons, List.foldl_nil, ← clearRow]
    simp only [vgaWidth] at hn
    refine ⟨hs.trans (.store _ _ (by simp only [vgaHeight, vgaWidth]; omega)
      (by simp only [vgaHeight, vgaWidth]; omega)), fun i => ?_⟩
    rw [Vga.store, hs.currentColor]
    dsimp only
    rw [Function.update_apply, hm]
    simp only [vgaHeight, vgaWidth]
    split_ifs <;> first | rfl | (exfalso; omega)

/-- Every row has what the next one had, and the last one is empty. -/
theorem vgaScroll_spec (v : Vga) : Stored v (vgaScroll v) ∧
    ∀ i : Int, 0 ≤ i → i < 2000 → (vgaScroll v).memory i =
      if i < 1920 then v.memory (i + vgaWidth) else charCell 32 v.currentColor := by
  obtain ⟨hs, hm⟩ := scrollRows_spec v (vgaHeight - 1) (by decide)
  obtain ⟨hs', hm'⟩ := clearRow_spec (scrollRows (vgaHeight - 1) v) vgaWidth le_rfl
  refine ⟨hs.trans hs', fun i h0 hlt => ?_⟩
  rw [vgaScroll, hm', hm, hs.currentColor]
  simp only [vgaHeight, vgaWidth, Nat.add_one_sub_one, Nat.cast_ofNat]
  split_ifs <;> first | rfl | (exfalso; omega)

/-! ### What a terminal does -/

/-- The cells of the driver. -/
def codeLook (color : BitVec 8) : Look Cell := ⟨vgaWidth, vgaHeight, charCell 32 color, (charCell · color)⟩

/-- The driver has the cursor and the cells of a screen. -/
structure Shows (v : Vga) (s : Screen Cell) : Prop where
  x : v.cursorX = s.x
  y : v.cursorY = s.y
  cells : ∀ i < vgaHeight, ∀ j < vgaWidth, v.memory ((i : Int) * vgaWidth + j) = s.cell i j

theorem Shows.wrap (h : Shows v s) : Shows (vgaWrap v) (s.wrap (codeLook color)) := by
  rw [vgaWrap, Screen.wrap]
  by_cases hx : vgaWidth ≤ s.x
  · rw [if_pos (by rw [h.x]; exact_mod_cast hx), if_pos (show (codeLook color).width ≤ s.x from hx)]
    refine ⟨rfl, ?_, h.cells⟩
    simp [h.y]
  · rw [if_neg (by rw [h.x]; exact_mod_cast hx), if_neg (show ¬ (codeLook color).width ≤ s.x from hx)]
    exact h

theorem vgaWrap_stored (v : Vga) : (vgaWrap v).currentColor = v.currentColor ∧
    (vgaWrap v).stores = v.stores := by
  rw [vgaWrap]
  split <;> exact ⟨rfl, rfl⟩

theorem Shows.feed (h : Shows v s) : Shows (vgaFeed v) (s.feed (codeLook v.currentColor)) ∧
    (vgaFeed v).currentColor = v.currentColor ∧
    ∀ i ∈ (vgaFeed v).stores, i ∈ v.stores ∨ 0 ≤ i ∧ i < 2000 := by
  obtain ⟨hs, hm⟩ := vgaScroll_spec v
  rw [vgaFeed, Screen.feed]
  generalize vgaScroll v = v' at hs hm ⊢
  by_cases hy : vgaHeight ≤ s.y
  · rw [if_pos (by rw [h.y]; exact_mod_cast hy),
      if_pos (show (codeLook v.currentColor).height ≤ s.y from hy)]
    refine ⟨⟨hs.cursorX.trans h.x, by simp [codeLook], fun i hi j hj => ?_⟩, hs.currentColor, hs.stores⟩
    simp only [vgaHeight, vgaWidth] at hi hj
    dsimp only [Screen.scroll]
    rw [hm _ (by simp only [vgaWidth]; omega) (by simp only [vgaWidth]; omega)]
    by_cases hlast : i + 1 < vgaHeight
    · rw [if_pos (by simp only [vgaHeight, vgaWidth] at *; omega), if_pos (by exact hlast),
        ← h.cells (i + 1) hlast j hj]
      congr 1
      simp only [vgaWidth]
      omega
    · rw [if_neg (by simp only [vgaHeight, vgaWidth] at *; omega), if_neg (by exact hlast)]
      rfl
  · rw [if_neg (by rw [h.y]; exact_mod_cast hy),
      if_neg (show ¬ (codeLook v.currentColor).height ≤ s.y from hy)]
    exact ⟨h, rfl, fun i hi => Or.inl hi⟩

/-- After a byte: the driver shows what a terminal does, its colour is the same, and what was stored to is
    on the screen. -/
structure Put (v v' : Vga) (s : Screen Cell) : Prop where
  shows : Shows v' s
  color : v'.currentColor = v.currentColor
  stores : ∀ i ∈ v'.stores, i ∈ v.stores ∨ 0 ≤ i ∧ i < 2000

theorem Shows.fixUp (h : Shows v' s) (hc : v'.currentColor = v.currentColor)
    (hs : ∀ i ∈ v'.stores, i ∈ v.stores ∨ 0 ≤ i ∧ i < 2000) :
    Put v (vgaFixUp v') (s.settle (codeLook v.currentColor)) := by
  obtain ⟨hcolor, hstores⟩ := vgaWrap_stored v'
  have hwrap : Shows (vgaWrap v') (s.wrap (codeLook v.currentColor)) := h.wrap
  obtain ⟨hshows, hcolor', hstores'⟩ := hwrap.feed
  rw [hcolor, hc] at hshows hcolor'
  rw [hstores] at hstores'
  exact ⟨hshows, hcolor', fun i hi => (hstores' i hi).elim (hs i) Or.inr⟩

/-- A cell on the screen. -/
theorem Shows.set (h : Shows v s) {x : Nat} (hx : x < vgaWidth) (y : Nat) (a : Cell) :
    Shows (v.store ((y : Int) * vgaWidth + x) a) (s.set y x a) := by
  refine ⟨h.x, h.y, fun i hi j hj => ?_⟩
  simp only [Vga.store, Screen.set, Function.update_apply]
  by_cases hc : i = y ∧ j = x
  · rw [if_pos hc, if_pos (by rw [hc.1, hc.2])]
  · rw [if_neg hc, h.cells i hi j hj, if_neg]
    intro he
    simp only [vgaWidth] at *
    exact hc (by omega)

theorem store_stores {x y : Nat} (hx : x < vgaWidth) (hy : y < vgaHeight) (a : Cell) :
    ∀ i ∈ (v.store ((y : Int) * vgaWidth + x) a).stores, i ∈ v.stores ∨ 0 ≤ i ∧ i < 2000 := by
  simp only [vgaWidth, vgaHeight] at *
  exact (Stored.store v a (by omega) (by omega)).stores

theorem Shows.backspace (h : Shows v s) (hin : s.Inside (codeLook v.currentColor)) :
    Put v (vgaBackspace v) (s.erase (codeLook v.currentColor)) := by
  have hx : s.x < vgaWidth := hin.1
  have hy : s.y < vgaHeight := hin.2
  -- the cursor is put on the cell before it, and the cell is stored to
  have hback : ∀ {x y : Nat}, x < vgaWidth → y < vgaHeight →
      Put v (Vga.store ((y : Int) * vgaWidth + x) (charCell 32 v.currentColor)
        { v with cursorX := (x : Int), cursorY := y })
        { s.set y x (codeLook v.currentColor).blank with x := x, y := y } := by
    intro x y hx hy
    have hshows : Shows { v with cursorX := (x : Int), cursorY := y } ⟨x, y, s.cell⟩ := ⟨rfl, rfl, h.cells⟩
    exact ⟨hshows.set hx y _, rfl, store_stores (v := { v with cursorX := (x : Int), cursorY := y }) hx hy _⟩
  rw [vgaBackspace, Screen.erase, h.x, h.y]
  by_cases hx0 : 0 < s.x
  · obtain ⟨k, hk⟩ := Nat.exists_eq_succ_of_ne_zero hx0.ne'
    have hcur : (s.x : Int) - 1 = k := by rw [hk]; simp
    rw [if_neg (by omega), if_pos (by exact_mod_cast hx0), if_pos hx0, hcur, hk, Nat.succ_sub_one]
    exact hback (by omega) hy
  · by_cases hy0 : 0 < s.y
    · obtain ⟨k, hk⟩ := Nat.exists_eq_succ_of_ne_zero hy0.ne'
      have hcur : (s.y : Int) - 1 = k := by rw [hk]; simp
      rw [if_neg (by omega), if_neg (by exact_mod_cast hx0), if_neg hx0, if_pos hy0, hcur, hk,
        Nat.succ_sub_one]
      exact hback (x := vgaWidth - 1) (by decide) (by omega)
    · rw [if_pos (by omega), if_neg hx0, if_neg hy0]
      exact ⟨h, rfl, fun _ hi => Or.inl hi⟩

/-- A byte does to the driver what it does to a terminal. -/
theorem Shows.putchar (h : Shows v s) (hin : s.Inside (codeLook v.currentColor)) (c : UInt8) :
    Put v (vgaPutchar c v) (Terminal.put (codeLook v.currentColor) s c) := by
  rw [vgaPutchar, Terminal.put]
  split_ifs with h10 h13 h9 h8
  · exact Shows.fixUp (s := ⟨0, s.y + 1, s.cell⟩) ⟨rfl, by simp [h.y], h.cells⟩ rfl fun _ hi => Or.inl hi
  · exact Shows.fixUp (s := ⟨0, s.y, s.cell⟩) ⟨rfl, h.y, h.cells⟩ rfl fun _ hi => Or.inl hi
  · refine Shows.fixUp (s := ⟨(s.x / 8 + 1) * 8, s.y, s.cell⟩) ⟨?_, h.y, h.cells⟩ rfl fun _ hi => Or.inl hi
    simp only [h.x]
    omega
  · exact h.backspace hin
  · have hset := h.set hin.1 s.y (charCell c v.currentColor)
    have hst := store_stores (v := v) hin.1 hin.2 (charCell c v.currentColor)
    dsimp only
    rw [← h.x, ← h.y] at hset hst
    exact Shows.fixUp (s := ⟨s.x + 1, s.y, (s.set s.y s.x (charCell c v.currentColor)).cell⟩)
      ⟨by simp [Vga.store, h.x], hset.y, hset.cells⟩ rfl hst

/-! ### Strings -/

/-- The bytes before the NUL. -/
def cText (str : List UInt8) : List UInt8 := str.takeWhile (· ≠ 0)

/-- The bytes of a string do to the driver what they do to a terminal. -/
theorem Shows.writeLoop (str : List UInt8) : ∀ {v : Vga} {s : Screen Cell}, Shows v s →
    s.Inside (codeLook v.currentColor) →
    Put v (Console.writeLoop str v) (Terminal.run (codeLook v.currentColor) s (cText str)) := by
  induction str with
  | nil => exact fun h _ => ⟨h, rfl, fun _ hi => Or.inl hi⟩
  | cons c str ih =>
    intro v s h hin
    rw [Console.writeLoop, cText, List.takeWhile_cons]
    by_cases hc : c = 0
    · rw [if_pos hc, if_neg (by simpa using hc)]
      exact ⟨h, rfl, fun _ hi => Or.inl hi⟩
    · have hput := h.putchar hin c
      have hin' : (Terminal.put (codeLook v.currentColor) s c).Inside
          (codeLook (vgaPutchar c v).currentColor) := by
        rw [hput.color]
        exact Terminal.put_inside hin c
      have hrest := ih hput.shows hin'
      rw [hput.color] at hrest
      rw [if_neg hc, if_pos (by simpa using hc), Terminal.run, List.foldl_cons, ← Terminal.run]
      exact ⟨hrest.shows, hrest.color.trans hput.color,
        fun i hi => (hrest.stores i hi).elim (hput.stores i) Or.inr⟩

/-! ### Colours -/

/-- A cell holds the byte in its low half and the colour in its high half. -/
def plainCell (b : UInt8) (color : BitVec 8) : Cell := color ++ b.toBitVec

/-- The cells of the reference. -/
def refLook (color : BitVec 8) : Look Cell := ⟨vgaWidth, vgaHeight, plainCell 32 color, (plainCell · color)⟩

theorem plainCell_bit (b : UInt8) (color : BitVec 8) (i : Nat) : (plainCell b color).getLsbD i =
    if i < 8 then b.toBitVec.getLsbD i else color.getLsbD (i - 8) := by
  unfold plainCell
  simpa [Bool.cond_eq_ite] using BitVec.getLsbD_append (x := color) (y := b.toBitVec) (i := i)

theorem charCell_bit (b : UInt8) (color : BitVec 8) {i : Nat} (hi : i < 16) :
    (charCell b color).getLsbD i =
      if i < 8 then b.toBitVec.getLsbD i else (b.toBitVec.msb || color.getLsbD (i - 8)) := by
  rw [charCell, BitVec.getLsbD_or, BitVec.getLsbD_signExtend, BitVec.getLsbD_shiftLeft,
    BitVec.getLsbD_setWidth]
  by_cases h8 : i < 8
  · simp [h8, hi]
  · simp [h8, hi, show i - 8 < 16 by omega]

/-- The sign of the byte does not show if it has none, or if the colour has all bits. -/
theorem charCell_eq_iff (b : UInt8) (color : BitVec 8) :
    charCell b color = plainCell b color ↔ b < 0x80 ∨ color = 0xff := by
  have hsign : b < 0x80 ↔ b.toBitVec.msb = false := by
    rw [BitVec.msb_eq_decide, decide_eq_false_iff_not, not_le, UInt8.lt_iff_toNat_lt]
    rfl
  have hones : ∀ i < 8, BitVec.getLsbD (0xff : BitVec 8) i = true := by decide
  rw [hsign]
  constructor
  · intro h
    by_contra hno
    rw [not_or, Bool.not_eq_false] at hno
    refine hno.2 (BitVec.eq_of_getLsbD_eq fun i hi => ?_)
    have hbit := plainCell_bit b color (i + 8)
    rw [← h, charCell_bit b color (by omega), if_neg (by omega), if_neg (by omega), hno.1,
      Nat.add_sub_cancel] at hbit
    rw [hones i hi, ← hbit]
    rfl
  · intro h
    refine BitVec.eq_of_getLsbD_eq fun i hi => ?_
    rw [plainCell_bit, charCell_bit b color hi]
    split
    · rfl
    · rcases h with h | rfl
      · rw [h, Bool.false_or]
      · rw [hones _ (by omega), Bool.or_true]

/-! ### The screen after a string -/

/-- What the driver shows. -/
def vgaScreen (v : Vga) : Screen Cell :=
  ⟨v.cursorX.toNat, v.cursorY.toNat, fun i j => v.memory ((i : Int) * vgaWidth + j)⟩

/-- Cells that tell what a byte was printed on from what was there, or is empty. -/
def markLook (color : BitVec 8) : Look (Cell ⊕ UInt8) := ⟨vgaWidth, vgaHeight, .inl (plainCell 32 color), .inr⟩

/-- A byte of the string that is on the screen at the end. -/
def Stays (v : Vga) (color : BitVec 8) (str : List UInt8) (b : UInt8) : Prop :=
  ∃ i < vgaHeight, ∃ j < vgaWidth,
    (Terminal.run (markLook color) ((vgaScreen v).map .inl) (cText str)).cell i j = .inr b

theorem Stays.mem {color : BitVec 8} {str : List UInt8} {b : UInt8} (h : Stays v color str b) :
    b ∈ cText str := by
  obtain ⟨i, -, j, -, hb⟩ := h
  rcases @Terminal.run_cell _ (markLook color) (cText str) ((vgaScreen v).map .inl) i j with
    h | ⟨a, ha, h⟩ | ⟨k, m, h⟩
  · cases hb.symm.trans h
  · rw [Sum.inr_injective (hb.symm.trans h)]
    exact ha
  · cases hb.symm.trans h

/-- The screens of the driver and of the terminal are the marked one, seen differently. -/
theorem run_marked (v : Vga) (color : BitVec 8) (str : List UInt8) (glyph : UInt8 → Cell) :
    (Terminal.run (markLook color) ((vgaScreen v).map .inl) (cText str)).map (Sum.elim id glyph) =
      Terminal.run ⟨vgaWidth, vgaHeight, plainCell 32 color, glyph⟩ (vgaScreen v) (cText str) :=
  Terminal.run_map (Sum.elim id glyph) (cText str) ((vgaScreen v).map .inl)

/-- After a string the driver shows what a terminal does if and only if no byte from 0x80 on is left of
    it, or the colour has all bits. -/
theorem vgaWrite_shows_iff (hx : 0 ≤ v.cursorX ∧ v.cursorX < vgaWidth)
    (hy : 0 ≤ v.cursorY ∧ v.cursorY < vgaHeight) (str : List UInt8) (color : BitVec 32) :
    Shows (vgaWrite str color v)
        (Terminal.run (refLook (color.setWidth 8)) (vgaScreen v) (cText str)) ↔
      color.setWidth 8 = 0xff ∨ ∀ b, Stays v (color.setWidth 8) str b → b < 0x80 := by
  have hstart : Shows { v with currentColor := color.setWidth 8 } (vgaScreen v) :=
    ⟨(Int.toNat_of_nonneg hx.1).symm, (Int.toNat_of_nonneg hy.1).symm, fun _ _ _ _ => rfl⟩
  have hin : (vgaScreen v).Inside (codeLook (color.setWidth 8)) := by
    simp only [Screen.Inside, vgaScreen, codeLook]
    omega
  have hcode := (hstart.writeLoop str hin).shows
  have hspace : charCell 32 (color.setWidth 8) = plainCell 32 (color.setWidth 8) :=
    (charCell_eq_iff _ _).mpr (Or.inl (by decide))
  rw [codeLook, hspace, ← run_marked] at hcode
  rw [refLook, ← run_marked]
  constructor
  · intro h
    refine or_iff_not_imp_left.mpr fun hcolor b ⟨i, hi, j, hj, hb⟩ => ?_
    have hcell := (hcode.cells i hi j hj).symm.trans (h.cells i hi j hj)
    rw [map_cell, map_cell, hb] at hcell
    exact ((charCell_eq_iff _ _).mp hcell).resolve_right hcolor
  · intro hall
    refine ⟨hcode.x, hcode.y, fun i hi j hj => (hcode.cells i hi j hj).trans ?_⟩
    rw [map_cell, map_cell]
    cases hcell : (Terminal.run (markLook (color.setWidth 8)) ((vgaScreen v).map .inl)
        (cText str)).cell i j with
    | inl a => rfl
    | inr b =>
      refine (charCell_eq_iff b _).mpr ?_
      exact hall.symm.imp_left fun h => h b ⟨i, hi, j, hj, hcell⟩

/-- The screen before the kernel wrote anything. -/
def blankVga : Vga := ⟨0, 0, 0x8f, fun _ => 0, []⟩

/-- Two letters with a line break between them, in light grey. -/
theorem lines_show : Shows (vgaWrite [65, 10, 66, 0] 7 blankVga)
    (Terminal.run (refLook 7) (vgaScreen blankVga) (cText [65, 10, 66, 0])) := by
  refine (vgaWrite_shows_iff (by decide) (by decide) [65, 10, 66, 0] 7).mpr (Or.inr fun b hb => ?_)
  have hmem : b ∈ [65, 10, 66] := hb.mem
  simp only [List.mem_cons, List.not_mem_nil, or_false] at hmem
  rcases hmem with rfl | rfl | rfl <;> decide

/-- The byte 0x80 in light grey. -/
theorem high_byte_shown : ¬ ∀ v : Vga, 0 ≤ v.cursorX ∧ v.cursorX < vgaWidth →
    0 ≤ v.cursorY ∧ v.cursorY < vgaHeight → ∀ (str : List UInt8) (color : BitVec 32),
    Shows (vgaWrite str color v)
      (Terminal.run (refLook (color.setWidth 8)) (vgaScreen v) (cText str)) := by
  intro h
  have hcell := (h blankVga (by decide) (by decide) [0x80, 0] 7).cells 0 (by decide) 0 (by decide)
  exact absurd hcell (by decide)

end TypeOS.Console
