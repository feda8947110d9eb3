import TypeOS.Lib.Line
import TypeOS.Console.Cursor

/-! The line editor (`get_string` in `keyboard.c`).

    The line is an array that is edited in place, with its length and the cursor beside it; it holds the
    text of a line with a cursor. Every index of the array that is read or stored to is kept. -/

namespace TypeOS.Console

/-- `sizeof (str)`. -/
abbrev strSize : Nat := 1024

/-- The locals of `get_string`, `str` with the indices that were read or stored to, and the screen. -/
structure Editing where
  str : Int → UInt8
  accesses : List Int
  len : Int
  cursor : Int
  maxDrawn : Int
  lineX : Int
  lineY : Int
  vga : Vga

namespace Editing

/-- `str[i] = c`. -/
def store (i : Int) (c : UInt8) (e : Editing) : Editing :=
  { e with str := Function.update e.str i c, accesses := i :: e.accesses }

/-- `str[i] = str[j]`. -/
def move (i j : Int) (e : Editing) : Editing :=
  { e with str := Function.update e.str i (e.str j), accesses := i :: j :: e.accesses }

/-- `vga_putchar (s[i])`. -/
def draw (i : Int) (e : Editing) : Editing :=
  { e with vga := vgaPutchar (e.str i) e.vga, accesses := i :: e.accesses }

/-- `vga_set_cursor (line_x + cursor, line_y)`. -/
def showCursor (e : Editing) : Editing := { e with vga := vgaSetCursor (e.lineX + e.cursor) e.lineY e.vga }

end Editing

/-- The loop of `get_string` that closes the gap of a deleted character: n turns from i on. -/
def closeGap (i : Int) (n : Nat) (e : Editing) : Editing :=
  (List.range n).foldl (fun (e : Editing) (k : Nat) => e.move (i + k) (i + k + 1)) e

/-- The loop of `get_string` that opens a gap for a character: n turns from i down. -/
def openGap (i : Int) (n : Nat) (e : Editing) : Editing :=
  (List.range n).foldl (fun (e : Editing) (k : Nat) => e.move (i - k) (i - k - 1)) e

/-- The first loop of `input_redraw`. -/
def drawLine (n : Nat) (e : Editing) : Editing :=
  (List.range n).foldl (fun (e : Editing) (i : Nat) => e.draw i) e

/-- `input_redraw`. -/
def inputRedraw (e : Editing) : Editing :=
  let e := { e with vga := vgaSetCursor e.lineX e.lineY e.vga }
  let e := drawLine e.len.toNat e
  let e := { e with
    vga := (List.range (e.maxDrawn - e.len).toNat).foldl (fun (v : Vga) (_ : Nat) => vgaPutchar 32 v) e.vga }
  e.showCursor

/-- `KEY_LEFT`. -/
abbrev keyLeft : Int := 0x100

/-- `KEY_RIGHT`. -/
abbrev keyRight : Int := 0x101

/-- A turn of the loop of `get_string` for a key that is no newline. -/
def editKey (e : Editing) (c : Int) : Editing :=
  if c = keyLeft then
    if e.cursor > 0 then { e with cursor := e.cursor - 1 }.showCursor else e
  else if c = keyRight then
    if e.cursor < e.len then { e with cursor := e.cursor + 1 }.showCursor else e
  else if c = 8 then
    if e.cursor > 0 then
      let e := closeGap (e.cursor - 1) (e.len - (e.cursor - 1)).toNat e
      inputRedraw { e with len := e.len - 1, cursor := e.cursor - 1 }
    else e
  else if c ≥ 32 ∧ c < 127 ∧ e.len < strSize - 1 then
    let e := openGap e.len (e.len - e.cursor).toNat e
    let e := e.store e.cursor (UInt8.ofNat c.toNat)
    inputRedraw { e with
      len := e.len + 1, cursor := e.cursor + 1
      maxDrawn := if e.len + 1 > e.maxDrawn then e.len + 1 else e.maxDrawn }
  else e

/-- The loop of `get_string`: it goes on until a newline. -/
def editKeys : Editing → List Int → Option Editing
  | _, [] => none
  | e, c :: keys =>
    if c = 10 then
      let e := e.store e.len 0
      some { e with vga := vgaPutchar 10 e.vga }
    else editKeys (editKey e c) keys

/-- The start of `get_string`. -/
def startLine (str : Int → UInt8) (v : Vga) : Editing :=
  { str := str, accesses := [], len := 0, cursor := 0, maxDrawn := 0, lineX := v.cursorX, lineY := v.cursorY,
    vga := v }

/-- `get_string`, with the keys that `keyboard_getchar` gives. -/
def getString (str : Int → UInt8) (v : Vga) (keys : List Int) : Option Editing := editKeys (startLine str v) keys

/-! ### The reference -/

/-- What a key does to a line. -/
def lineKey (l : Line UInt8) (c : Int) : Line UInt8 :=
  if c = keyLeft then l.back
  else if c = keyRight then l.forward
  else if c = 8 then l.delete
  else if c ≥ 32 ∧ c < 127 ∧ l.text.length < 1023 then l.insert (UInt8.ofNat c.toNat)
  else l

/-- The string that a `char *` points at. -/
def cString (str : Int → UInt8) : List UInt8 :=
  ((List.range strSize).map fun (i : Nat) => str i).takeWhile (· ≠ 0)

/-- Every access was inside `str`. -/
def Editing.InStr (e : Editing) : Prop := ∀ i ∈ e.accesses, 0 ≤ i ∧ i < strSize

/-- The array holds the text of the line, and the length and the cursor are the line's. -/
structure Edits (e : Editing) (l : Line UInt8) : Prop where
  text : ∀ (i : Nat) (a : UInt8), l.text[i]? = some a → e.str i = a
  len : e.len = l.text.length
  cursor : e.cursor = l.left.length
  short : l.text.length ≤ 1023
  inStr : e.InStr
  chars : ∀ a ∈ l.text, a ≠ 0

variable {e : Editing} {l : Line UInt8}

/-! ### The loops -/

/-- Only `str` and the accesses to it changed, and the latter stayed between two bounds. -/
structure Moved (e e' : Editing) (a b : Int) : Prop where
  len : e'.len = e.len
  cursor : e'.cursor = e.cursor
  maxDrawn : e'.maxDrawn = e.maxDrawn
  accesses : ∀ i ∈ e'.accesses, i ∈ e.accesses ∨ a ≤ i ∧ i ≤ b

/-- One byte more is moved, between wider bounds. -/
theorem Moved.move {e' : Editing} {a b a' b' i j : Int} (h : Moved e e' a b) (ha : a' ≤ a) (hb : b ≤ b')
    (hi : a' ≤ i ∧ i ≤ b') (hj : a' ≤ j ∧ j ≤ b') : Moved e (e'.move i j) a' b' where
  len := h.len
  cursor := h.cursor
  maxDrawn := h.maxDrawn
  accesses := fun x hx => by
    simp only [Editing.move, List.mem_cons] at hx
    rcases hx with rfl | rfl | hx
    · exact Or.inr hi
    · exact Or.inr hj
    · exact (h.accesses x hx).imp_right fun h => ⟨ha.trans h.1, h.2.trans hb⟩

theorem closeGap_spec (a : Int) (e : Editing) : ∀ n : Nat, Moved e (closeGap a n e) a (a + n) ∧
    ∀ j, (closeGap a n e).str j = if a ≤ j ∧ j < a + n then e.str (j + 1) else e.str j := by
  intro n
  induction n with
  | zero =>
    refine ⟨⟨rfl, rfl, rfl, fun _ => Or.inl⟩, fun j => ?_⟩
    rw [if_neg (by omega)]
    rfl
  | succ n ih =>
    obtain ⟨hmoved, hstr⟩ := ih
    rw [closeGap, List.range_succ, List.foldl_append, List.foldl_cons, List.foldl_nil, ← closeGap]
    refine ⟨hmoved.move le_rfl (by omega) (by omega) (by omega), fun j => ?_⟩
    simp only [Editing.move, Function.update_apply]
    have hnext : (closeGap a n e).str (a + n + 1) = e.str (a + n + 1) := by rw [hstr, if_neg (by omega)]
    rw [hnext, hstr j]
    by_cases hj : j = a + n
    · rw [if_pos hj, if_pos (by omega), hj]
    · rw [if_neg hj]
      congr 1
      rw [eq_iff_iff]
      omega

theorem openGap_spec (b : Int) (e : Editing) : ∀ n : Nat, Moved e (openGap b n e) (b - n) b ∧
    ∀ j, (openGap b n e).str j = if b - n < j ∧ j ≤ b then e.str (j - 1) else e.str j := by
  intro n
  induction n with
  | zero =>
    refine ⟨⟨rfl, rfl, rfl, fun _ => Or.inl⟩, fun j => ?_⟩
    rw [if_neg (by omega)]
    rfl
  | succ n ih =>
    obtain ⟨hmoved, hstr⟩ := ih
    rw [openGap, List.range_succ, List.foldl_append, List.foldl_cons, List.foldl_nil, ← openGap]
    refine ⟨hmoved.move (by omega) le_rfl (by omega) (by omega), fun j => ?_⟩
    simp only [Editing.move, Function.update_apply]
    have hnext : (openGap b n e).str (b - n - 1) = e.str (b - n - 1) := by rw [hstr, if_neg (by omega)]
    rw [hnext, hstr j]
    by_cases hj : j = b - n
    · rw [if_pos hj, if_pos (by omega), hj]
    · rw [if_neg hj]
      congr 1
      rw [eq_iff_iff]
      omega

/-- Drawing changes the screen only. -/
theorem drawLine_spec (e : Editing) : ∀ n : Nat, (drawLine n e).str = e.str ∧
    Moved e (drawLine n e) 0 (n - 1) := by
  intro n
  induction n with
  | zero => exact ⟨rfl, rfl, rfl, rfl, fun _ => Or.inl⟩
  | succ n ih =>
    obtain ⟨hstr, hlen, hcursor, hmax, hacc⟩ := ih
    rw [drawLine, List.range_succ, List.foldl_append, List.foldl_cons, List.foldl_nil, ← drawLine]
    refine ⟨hstr, hlen, hcursor, hmax, fun i hi => ?_⟩
    rcases List.mem_cons.mp hi with rfl | hi
    · exact Or.inr (by omega)
    · exact (hacc i hi).imp_right fun h => by omega

theorem inputRedraw_spec (e : Editing) : (inputRedraw e).str = e.str ∧
    (inputRedraw e).len = e.len ∧ (inputRedraw e).cursor = e.cursor ∧
    ∀ i ∈ (inputRedraw e).accesses, i ∈ e.accesses ∨ 0 ≤ i ∧ i < e.len := by
  obtain ⟨hstr, hmoved⟩ := drawLine_spec { e with vga := vgaSetCursor e.lineX e.lineY e.vga } e.len.toNat
  exact ⟨hstr, hmoved.len, hmoved.cursor, fun i hi => (hmoved.accesses i hi).imp_right fun h => by omega⟩

/-! ### A key does to the array what it does to the line -/

theorem Edits.redraw (h : Edits e l) : Edits (inputRedraw e) l := by
  obtain ⟨hstr, hlen, hcursor, hacc⟩ := inputRedraw_spec e
  have hshort := h.short
  refine ⟨fun i a ha => ?_, hlen.trans h.len, hcursor.trans h.cursor, hshort, fun i hi => ?_, h.chars⟩
  · rw [hstr]
    exact h.text i a ha
  · refine (hacc i hi).elim (h.inStr i) fun hi' => ?_
    rw [h.len] at hi'
    simp only [strSize]
    omega

/-- The array stays, and the cursor is where it is in a line with the same text. -/
theorem Edits.moved {e' : Editing} {l' : Line UInt8} (h : Edits e l) (htext : l'.text = l.text)
    (hstr : e'.str = e.str) (hacc : e'.accesses = e.accesses) (hlen : e'.len = e.len)
    (hcursor : e'.cursor = l'.left.length) : Edits e' l' where
  text := by
    rw [htext, hstr]
    exact h.text
  len := by rw [htext, hlen, h.len]
  cursor := hcursor
  short := htext ▸ h.short
  inStr := by
    rw [Editing.InStr, hacc]
    exact h.inStr
  chars := htext ▸ h.chars

theorem Edits.back (h : Edits e l) :
    Edits (if e.cursor > 0 then { e with cursor := e.cursor - 1 }.showCursor else e) l.back := by
  have hleft := l.left_back
  have hcursor := h.cursor
  split
  · exact h.moved l.text_back rfl rfl rfl (show e.cursor - 1 = _ by omega)
  · exact h.moved l.text_back rfl rfl rfl (by omega)

theorem Edits.forward (h : Edits e l) :
    Edits (if e.cursor < e.len then { e with cursor := e.cursor + 1 }.showCursor else e) l.forward := by
  have hcursor := h.cursor
  have hlen := h.len
  rw [l.text_length] at hlen
  by_cases hr : l.right = []
  · rw [if_neg (by rw [hr, List.length_nil] at hlen; omega), Line.forward_end hr]
    exact h
  · have hpos := List.length_pos_iff.mpr hr
    have hleft := Line.left_forward hr
    rw [if_pos (by omega)]
    exact h.moved l.text_forward rfl rfl rfl (show e.cursor + 1 = _ by omega)

theorem Edits.delete (h : Edits e l) : Edits
    (if e.cursor > 0 then
      inputRedraw { closeGap (e.cursor - 1) (e.len - (e.cursor - 1)).toNat e with
        len := (closeGap (e.cursor - 1) (e.len - (e.cursor - 1)).toNat e).len - 1
        cursor := (closeGap (e.cursor - 1) (e.len - (e.cursor - 1)).toNat e).cursor - 1 }
    else e) l.delete := by
  have hcursor := h.cursor
  have hlen := h.len
  have hshort := h.short
  have htl := l.text_length
  by_cases hl : l.left = []
  · have hsame : l.delete = l := by
      rw [Line.delete, hl, List.tail_nil, ← hl]
    rw [hl, List.length_nil] at hcursor
    rw [if_neg (by omega), hsame]
    exact h
  · have hpos := List.length_pos_iff.mpr hl
    rw [if_pos (by omega)]
    obtain ⟨hmoved, hstr⟩ := closeGap_spec (e.cursor - 1) e (e.len - (e.cursor - 1)).toNat
    generalize closeGap (e.cursor - 1) (e.len - (e.cursor - 1)).toNat e = e' at hmoved hstr ⊢
    have hdel := Line.delete_length hl
    have hdl : l.delete.left.length = l.left.length - 1 := List.length_tail
    refine Edits.redraw ⟨fun i a ha => ?_, ?_, ?_, by omega, fun i hi => ?_, fun a ha => ?_⟩
    · have hi : i < l.delete.text.length := (List.getElem?_eq_some_iff.mp ha).1
      rw [Line.delete_get hl] at ha
      dsimp only
      rw [hstr]
      by_cases hlt : i < l.left.length - 1
      · rw [if_pos hlt] at ha
        rw [if_neg (by omega)]
        exact h.text i a ha
      · rw [if_neg hlt] at ha
        rw [if_pos (by omega)]
        exact h.text (i + 1) a ha
    · dsimp only
      rw [hmoved.len]
      omega
    · dsimp only
      rw [hmoved.cursor]
      omega
    · refine (hmoved.accesses i hi).elim (h.inStr i) fun hi' => ?_
      simp only [strSize]
      omega
    · refine h.chars a ?_
      rw [Line.text, List.mem_append, List.mem_reverse] at ha ⊢
      exact ha.imp_left List.mem_of_mem_tail

/-- The gap is opened and the character stored into it, then the line is drawn. -/
theorem Edits.insert (h : Edits e l) (hroom : e.len < strSize - 1) {c : UInt8} (hc : c ≠ 0) (maxDrawn : Int) :
    Edits (inputRedraw { (openGap e.len (e.len - e.cursor).toNat e).store
        (openGap e.len (e.len - e.cursor).toNat e).cursor c with
      len := (openGap e.len (e.len - e.cursor).toNat e).len + 1
      cursor := (openGap e.len (e.len - e.cursor).toNat e).cursor + 1
      maxDrawn := maxDrawn }) (l.insert c) := by
  have hcursor := h.cursor
  have hlen := h.len
  have htl := l.text_length
  have htl' := (l.insert c).text_length
  have hroom : e.len < 1024 - 1 := hroom
  obtain ⟨hmoved, hstr⟩ := openGap_spec e.len e (e.len - e.cursor).toNat
  generalize openGap e.len (e.len - e.cursor).toNat e = e' at hmoved hstr ⊢
  have hleft : (l.insert c).left.length = l.left.length + 1 := rfl
  have hright : (l.insert c).right = l.right := rfl
  rw [hright] at htl'
  have hcur := hmoved.cursor
  refine Edits.redraw ⟨fun i a ha => ?_, ?_, ?_, by omega, fun i hi => ?_, fun a ha => ?_⟩
  · have hi : i < (l.insert c).text.length := (List.getElem?_eq_some_iff.mp ha).1
    rw [Line.insert_get] at ha
    simp only [Editing.store, Function.update_apply]
    rw [hstr]
    rcases Nat.lt_trichotomy i l.left.length with hlt | heq | hgt
    · rw [if_pos hlt] at ha
      rw [if_neg (by omega), if_neg (by omega)]
      exact h.text i a ha
    · rw [if_neg (by omega), if_pos heq] at ha
      rw [if_pos (by omega)]
      exact Option.some_inj.mp ha
    · rw [if_neg (by omega), if_neg (by omega)] at ha
      rw [if_neg (by omega), if_pos (by omega)]
      have hcast : (i : Int) - 1 = (i - 1 : Nat) := by omega
      rw [hcast]
      exact h.text (i - 1) a ha
  · dsimp only
    rw [hmoved.len]
    omega
  · dsimp only
    omega
  · simp only [Editing.store, List.mem_cons] at hi
    rcases hi with rfl | hi
    · simp only [strSize]
      omega
    · refine (hmoved.accesses i hi).elim (h.inStr i) fun hi' => ?_
      simp only [strSize]
      omega
  · rw [Line.text_insert, List.mem_append, List.mem_cons] at ha
    rcases ha with ha | rfl | ha
    · exact h.chars a (List.mem_append_left _ ha)
    · exact hc
    · exact h.chars a (List.mem_append_right _ ha)

/-- One key. -/
theorem Edits.key (h : Edits e l) (c : Int) : Edits (editKey e c) (lineKey l c) := by
  have hlen := h.len
  rw [editKey, lineKey]
  by_cases hleft : c = keyLeft
  · rw [if_pos hleft, if_pos hleft]
    exact h.back
  rw [if_neg hleft, if_neg hleft]
  by_cases hright : c = keyRight
  · rw [if_pos hright, if_pos hright]
    exact h.forward
  rw [if_neg hright, if_neg hright]
  by_cases hback : c = 8
  · rw [if_pos hback, if_pos hback]
    exact h.delete
  rw [if_neg hback, if_neg hback]
  by_cases hchar : c ≥ 32 ∧ c < 127 ∧ e.len < strSize - 1
  · have hroom : e.len < 1024 - 1 := hchar.2.2
    rw [if_pos hchar, if_pos ⟨hchar.1, hchar.2.1, by omega⟩]
    have hc : UInt8.ofNat c.toNat ≠ 0 := by
      intro h0
      have hval := congrArg UInt8.toNat h0
      rw [UInt8.toNat_ofNat'] at hval
      have : c.toNat % 2 ^ 8 = 0 := hval
      omega
    exact h.insert hchar.2.2 hc _
  · rw [if_neg hchar, if_neg]
    · exact h
    · rintro ⟨h32, h127, hlt⟩
      refine hchar ⟨h32, h127, ?_⟩
      change e.len < 1024 - 1
      omega

/-! ### Every sequence of keys -/

theorem startLine_edits (str : Int → UInt8) (v : Vga) : Edits (startLine str v) Line.empty where
  text := fun i a ha => by cases ha
  len := rfl
  cursor := rfl
  short := Nat.zero_le _
  inStr := fun i hi => absurd hi List.not_mem_nil
  chars := fun a ha => absurd ha List.not_mem_nil

theorem Edits.keys (keys : List Int) : ∀ {e : Editing} {l : Line UInt8}, Edits e l →
    Edits (keys.foldl editKey e) (keys.foldl lineKey l) := by
  induction keys with
  | nil => exact fun h => h
  | cons c keys ih => exact fun h => ih (h.key c)

/-- The loop runs up to the newline. -/
theorem editKeys_newline (keys : List Int) : ∀ e, 10 ∉ keys → editKeys e (keys ++ [10]) =
    let e := keys.foldl editKey e
    some { e.store e.len 0 with vga := vgaPutchar 10 e.vga } := by
  induction keys with
  | nil => exact fun _ _ => rfl
  | cons c keys ih =>
    intro e h
    obtain ⟨hc, hkeys⟩ := not_or.mp (List.mem_cons.not.mp h)
    rw [List.cons_append, editKeys, if_neg (Ne.symm hc), ih _ hkeys]
    rfl

/-- The text and a NUL behind it are the string. -/
theorem cString_of_text {str : Int → UInt8} {text : List UInt8} (hshort : text.length ≤ 1023)
    (htext : ∀ (i : Nat) (a : UInt8), text[i]? = some a → str i = a) (hend : str text.length = 0)
    (hchars : ∀ a ∈ text, a ≠ 0) : cString str = text := by
  have hfirst : (List.range text.length).map (fun (i : Nat) => str i) = text := by
    refine List.ext_getElem (by rw [List.length_map, List.length_range]) fun i hi hi' => ?_
    rw [List.getElem_map, List.getElem_range]
    exact htext i _ (List.getElem?_eq_getElem hi')
  obtain ⟨k, hk⟩ : ∃ k, strSize = text.length + (k + 1) := ⟨1023 - text.length, by simp only [strSize]; omega⟩
  rw [cString, hk, List.range_add, List.map_append, hfirst,
    List.takeWhile_append_of_pos fun a ha => by simpa using hchars a ha, List.range_succ_eq_map, List.map_cons,
    List.map_cons, List.takeWhile_cons, if_neg (by simp [hend]), List.append_nil]

/-- `get_string` returns the text that the keys leave in a line with a cursor; on the way the cursor is in
    the line, the line is in the array, and so is every access. -/
theorem getString_text (str : Int → UInt8) (v : Vga) (keys : List Int) (hkeys : 10 ∉ keys) :
    (∃ e, getString str v (keys ++ [10]) = some e ∧
      cString e.str = (keys.foldl lineKey Line.empty).text ∧ ∀ i ∈ e.accesses, 0 ≤ i ∧ i < 1024) ∧
    ∀ before, before <+: keys →
      let e := before.foldl editKey (startLine str v)
      0 ≤ e.cursor ∧ e.cursor ≤ e.len ∧ e.len ≤ 1023 ∧ ∀ i ∈ e.accesses, 0 ≤ i ∧ i < 1024 := by
  constructor
  · have h := (startLine_edits str v).keys keys
    have hlen := h.len
    have hshort := h.short
    rw [getString, editKeys_newline keys _ hkeys]
    refine ⟨_, rfl, ?_, fun i hi => ?_⟩
    · refine cString_of_text hshort (fun i a ha => ?_) ?_ h.chars
      · have hi := (List.getElem?_eq_some_iff.mp ha).1
        simp only [Editing.store]
        rw [Function.update_of_ne (by omega)]
        exact h.text i a ha
      · simp only [Editing.store]
        rw [← hlen, Function.update_self]
    · rcases List.mem_cons.mp hi with rfl | hi
      · omega
      · exact h.inStr i hi
  · intro before _
    have h := (startLine_edits str v).keys before
    have hlen := h.len
    have hcursor := h.cursor
    have hshort := h.short
    have htl := (before.foldl lineKey Line.empty).text_length
    exact ⟨by omega, by omega, by omega, h.inStr⟩

/-- Two letters, the cursor back, and one more letter between them. -/
theorem getString_between : ∃ e, getString (fun _ => 0) blankVga ([97, 99, 0x100, 98] ++ [10]) = some e ∧
    cString e.str = [97, 98, 99] := by
  obtain ⟨⟨e, hrun, htext, -⟩, -⟩ := getString_text (fun _ => 0) blankVga [97, 99, 0x100, 98] (by decide)
  exact ⟨e, hrun, htext.trans (by decide)⟩

end TypeOS.Console
