import Mathlib.Tactic

/-! A ring of `cap` cells read as a queue.

    The queue starts at cell `tail` and goes on for `n` cells, modulo `cap`. Taking the first item
    moves `tail`; a new item goes into the cell after the last one. Both are equations on the list of
    the items (`items_succ`, `items_push`), so nothing else has to look at the cells. -/

namespace TypeOS.Ring

variable {α : Type}

/-- The `n` items from cell `tail` on. -/
def items (cap : Nat) (buf : Nat → α) (tail n : Nat) : List α :=
  (List.range n).map fun i => buf ((tail + i) % cap)

@[simp] theorem items_zero (cap : Nat) (buf : Nat → α) (tail : Nat) : items cap buf tail 0 = [] := rfl

@[simp] theorem length_items (cap : Nat) (buf : Nat → α) (tail n : Nat) :
    (items cap buf tail n).length = n := by simp [items]

/-- The first item, and the rest from the next cell on. -/
theorem items_succ {cap tail : Nat} (buf : Nat → α) (ht : tail < cap) (n : Nat) :
    items cap buf tail (n + 1) = buf tail :: items cap buf ((tail + 1) % cap) n := by
  simp only [items, List.range_succ_eq_map, List.map_cons, List.map_map, Nat.add_zero,
    Nat.mod_eq_of_lt ht, List.cons.injEq, true_and]
  refine List.map_congr_left fun i _ => ?_
  simp only [Function.comp_apply, Nat.succ_eq_add_one, Nat.mod_add_mod]
  rw [Nat.add_comm i 1, Nat.add_assoc]

/-- Cells of a ring that are less than a full turn apart are different cells. -/
theorem cell_ne {cap i n : Nat} (tail : Nat) (hi : i < n) (hn : n < cap) :
    (tail + i) % cap ≠ (tail + n) % cap := by
  intro h
  have hm : i ≡ n [MOD cap] := Nat.ModEq.add_left_cancel' tail h
  have := Nat.ModEq.eq_of_lt_of_lt hm (by omega) hn
  omega

/-- While the ring is not full, a new item does not touch the others. -/
theorem items_push {cap n : Nat} (buf : Nat → α) (tail : Nat) (hn : n < cap) (b : α) :
    items cap (Function.update buf ((tail + n) % cap) b) tail (n + 1) =
      items cap buf tail n ++ [b] := by
  simp only [items, List.range_succ, List.map_append, List.map_cons, List.map_nil,
    Function.update_self]
  congr 1
  refine List.map_congr_left fun i hi => ?_
  exact Function.update_of_ne (cell_ne tail (List.mem_range.mp hi) hn) ..

end TypeOS.Ring
