import TypeOS.Console.Screen

/-! Where the driver stores to (`vga.c`).

    Whatever is printed and wherever the cursor is set, it stays on the screen, and so does what is stored
    to. -/

namespace TypeOS.Console

open Terminal (Screen)

variable {v v' : Vga}

/-- The cursor is on the screen, and what was stored to is. -/
structure Kept (v : Vga) : Prop where
  x : 0 ≤ v.cursorX ∧ v.cursorX < vgaWidth
  y : 0 ≤ v.cursorY ∧ v.cursorY < vgaHeight
  stores : ∀ i ∈ v.stores, 0 ≤ i ∧ i < 2000

theorem Kept.shows (h : Kept v) : Shows v (vgaScreen v) :=
  ⟨(Int.toNat_of_nonneg h.x.1).symm, (Int.toNat_of_nonneg h.y.1).symm, fun _ _ _ _ => rfl⟩

theorem Kept.inside (h : Kept v) (color : BitVec 8) : (vgaScreen v).Inside (codeLook color) := by
  have hx := h.x
  have hy := h.y
  simp only [Screen.Inside, vgaScreen, codeLook]
  omega

/-- A screen of which the cursor is inside is shown. -/
theorem Kept.put {s : Screen Cell} {color : BitVec 8} (h : Kept v) (hput : Put v v' s)
    (hin : s.Inside (codeLook color)) : Kept v' := by
  have hx : s.x < vgaWidth := hin.1
  have hy : s.y < vgaHeight := hin.2
  refine ⟨?_, ?_, fun i hi => (hput.stores i hi).elim (h.stores i) id⟩
  · rw [hput.shows.x]
    exact ⟨Int.natCast_nonneg _, by exact_mod_cast hx⟩
  · rw [hput.shows.y]
    exact ⟨Int.natCast_nonneg _, by exact_mod_cast hy⟩

theorem Kept.putchar (h : Kept v) (c : UInt8) : Kept (vgaPutchar c v) :=
  h.put (h.shows.putchar (h.inside _) c) (Terminal.put_inside (h.inside _) c)

theorem Kept.color (h : Kept v) (color : BitVec 8) : Kept { v with currentColor := color } :=
  ⟨h.x, h.y, h.stores⟩

theorem Kept.writeLoop (str : List UInt8) : ∀ {v : Vga}, Kept v → Kept (Console.writeLoop str v) := by
  induction str with
  | nil => exact fun h => h
  | cons c str ih =>
    intro v h
    rw [Console.writeLoop]
    split
    · exact h
    · exact ih (h.putchar c)

theorem Kept.write (h : Kept v) (str : List UInt8) (color : BitVec 32) : Kept (vgaWrite str color v) :=
  ((h.color _).writeLoop str).color _

theorem Kept.setCursor (h : Kept v) (x y : Int) : Kept (vgaSetCursor x y v) := by
  have hclamp : ∀ (z : Int) {n : Nat}, 0 < n →
      0 ≤ (if (if z < 0 then 0 else z) ≥ n then (n : Int) - 1 else if z < 0 then 0 else z) ∧
      (if (if z < 0 then 0 else z) ≥ n then (n : Int) - 1 else if z < 0 then 0 else z) < n := by
    intro z n hn
    split_ifs <;> omega
  exact ⟨hclamp x (by decide), hclamp y (by decide), h.stores⟩

/-! ### The first screen -/

/-- A column of the loop of `vga_init`. -/
theorem initColumn_stored (v : Vga) {x : Nat} (hx : x < vgaWidth) (a : Cell) : ∀ n ≤ vgaHeight,
    Stored v ((List.range n).foldl (fun (v : Vga) (y : Nat) => v.store ((y : Int) * vgaWidth + x) a) v) := by
  intro n
  induction n with
  | zero => exact fun _ => .refl v
  | succ n ih =>
    intro hn
    rw [List.range_succ, List.foldl_append, List.foldl_cons, List.foldl_nil]
    simp only [vgaWidth, vgaHeight] at *
    exact (ih (by omega)).trans (.store _ a (by omega) (by omega))

theorem initColumns_stored (v : Vga) (a : Cell) : ∀ n ≤ vgaWidth,
    Stored v ((List.range n).foldl (fun (v : Vga) (x : Nat) =>
      (List.range vgaHeight).foldl (fun (v : Vga) (y : Nat) => v.store ((y : Int) * vgaWidth + x) a) v) v) := by
  intro n
  induction n with
  | zero => exact fun _ => .refl v
  | succ n ih =>
    intro hn
    rw [List.range_succ (n := n), List.foldl_append, List.foldl_cons, List.foldl_nil]
    exact (ih (Nat.le_of_succ_le hn)).trans (initColumn_stored _ hn a vgaHeight le_rfl)

theorem vgaInit_kept (hv : v.stores = []) : Kept (vgaInit v) := by
  have hs := initColumns_stored { v with cursorX := 0, cursorY := 0, currentColor := 0x8f }
    (charCell 32 0x8f) vgaWidth le_rfl
  rw [vgaInit]
  refine ⟨?_, ?_, fun i hi => (hs.stores i hi).elim (fun hm => ?_) id⟩
  · rw [hs.cursorX]
    exact ⟨le_rfl, Int.natCast_pos.mpr (by decide)⟩
  · rw [hs.cursorY]
    exact ⟨le_rfl, Int.natCast_pos.mpr (by decide)⟩
  · rw [hv] at hm
    exact absurd hm List.not_mem_nil

/-! ### Runs -/

/-- What the kernel does with the screen, from `vga_init` on. -/
inductive Drawn : Vga → Prop
  | init {v : Vga} (hv : v.stores = []) : Drawn (vgaInit v)
  | putchar {v : Vga} (h : Drawn v) (c : UInt8) : Drawn (vgaPutchar c v)
  | write {v : Vga} (h : Drawn v) (str : List UInt8) (color : BitVec 32) : Drawn (vgaWrite str color v)
  | setCursor {v : Vga} (h : Drawn v) (x y : Int) : Drawn (vgaSetCursor x y v)

/-- In every run the cursor is on the screen between the calls, and every store was to the screen. -/
theorem drawn_kept (h : Drawn v) : (0 ≤ v.cursorX ∧ v.cursorX < 80) ∧ (0 ≤ v.cursorY ∧ v.cursorY < 25) ∧
    ∀ i ∈ v.stores, 0 ≤ i ∧ i < 2000 := by
  have hkept : Kept v := by
    induction h with
    | init hv => exact vgaInit_kept hv
    | putchar _ c ih => exact ih.putchar c
    | write _ str color ih => exact ih.write str color
    | setCursor _ x y ih => exact ih.setCursor x y
  exact ⟨hkept.x, hkept.y, hkept.stores⟩

/-- A cursor set below the screen, and a character there. -/
theorem drawn_kept_corner :
    (0 ≤ (vgaPutchar 65 (vgaSetCursor 79 100 (vgaInit blankVga))).cursorX ∧
      (vgaPutchar 65 (vgaSetCursor 79 100 (vgaInit blankVga))).cursorX < 80) ∧
    (0 ≤ (vgaPutchar 65 (vgaSetCursor 79 100 (vgaInit blankVga))).cursorY ∧
      (vgaPutchar 65 (vgaSetCursor 79 100 (vgaInit blankVga))).cursorY < 25) ∧
    ∀ i ∈ (vgaPutchar 65 (vgaSetCursor 79 100 (vgaInit blankVga))).stores, 0 ≤ i ∧ i < 2000 :=
  drawn_kept ((Drawn.init rfl).setCursor 79 100 |>.putchar 65)

end TypeOS.Console
