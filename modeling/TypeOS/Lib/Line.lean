import Mathlib.Tactic

/-! A line with a cursor.

    What is left of the cursor is kept with the nearest element first. `text_insert` and `text_delete` say
    what an edit does to an array that holds the line. -/

namespace TypeOS

/-- The elements left of the cursor, the nearest one first, and those right of it. -/
structure Line (α : Type*) where
  left : List α
  right : List α

namespace Line

variable {α : Type*}

/-- Nothing is written yet. -/
def empty : Line α := ⟨[], []⟩

/-- The whole line. -/
def text (l : Line α) : List α := l.left.reverse ++ l.right

/-- The cursor goes left, if it can. -/
def back : Line α → Line α
  | ⟨[], right⟩ => ⟨[], right⟩
  | ⟨a :: left, right⟩ => ⟨left, a :: right⟩

/-- The cursor goes right, if it can. -/
def forward : Line α → Line α
  | ⟨left, []⟩ => ⟨left, []⟩
  | ⟨left, a :: right⟩ => ⟨a :: left, right⟩

/-- An element is put before the cursor. -/
def insert (a : α) (l : Line α) : Line α := ⟨a :: l.left, l.right⟩

/-- The element before the cursor is deleted, if there is one. -/
def delete (l : Line α) : Line α := ⟨l.left.tail, l.right⟩

variable {l : Line α} {a : α}

theorem text_length (l : Line α) : l.text.length = l.left.length + l.right.length := by
  rw [text, List.length_append, List.length_reverse]

theorem text_back (l : Line α) : l.back.text = l.text := by
  obtain ⟨left, right⟩ := l
  cases left with
  | nil => rfl
  | cons a left => simp [back, text]

theorem left_back (l : Line α) : l.back.left.length = l.left.length - 1 := by
  obtain ⟨left, right⟩ := l
  cases left <;> rfl

theorem text_forward (l : Line α) : l.forward.text = l.text := by
  obtain ⟨left, right⟩ := l
  cases right with
  | nil => rfl
  | cons a right => simp [forward, text]

theorem left_forward (h : l.right ≠ []) : l.forward.left.length = l.left.length + 1 := by
  obtain ⟨left, right⟩ := l
  cases right with
  | nil => exact absurd rfl h
  | cons a right => rfl

theorem forward_end (h : l.right = []) : l.forward = l := by
  obtain ⟨left, right⟩ := l
  cases h
  rfl

theorem text_insert (a : α) (l : Line α) : (l.insert a).text = l.left.reverse ++ a :: l.right := by
  simp [insert, text]

/-- The elements from the cursor on move up. -/
theorem insert_get (a : α) (l : Line α) (i : Nat) : (l.insert a).text[i]? =
    if i < l.left.length then l.text[i]? else if i = l.left.length then some a else l.text[i - 1]? := by
  rw [text_insert, text, List.getElem?_append, List.getElem?_append, List.getElem?_append, List.length_reverse]
  rcases Nat.lt_trichotomy i l.left.length with h | h | h
  · rw [if_pos h, if_pos h, if_pos h]
  · rw [if_neg (by omega), if_neg (by omega), if_pos h, h, Nat.sub_self]
    rfl
  · obtain ⟨k, rfl⟩ := Nat.exists_eq_add_of_lt h
    rw [if_neg (by omega), if_neg (by omega), if_neg (by omega), if_neg (by omega)]
    have hk : l.left.length + k + 1 - l.left.length = k + 1 := by omega
    have hk' : l.left.length + k + 1 - 1 - l.left.length = k := by omega
    rw [hk, hk', List.getElem?_cons_succ]

/-- The elements from the cursor on move down. -/
theorem delete_get (h : l.left ≠ []) (i : Nat) :
    l.delete.text[i]? = if i < l.left.length - 1 then l.text[i]? else l.text[i + 1]? := by
  obtain ⟨left, right⟩ := l
  cases left with
  | nil => exact absurd rfl h
  | cons a left =>
    have hold : (⟨a :: left, right⟩ : Line α) = (⟨left, right⟩ : Line α).insert a := rfl
    have hnew : (⟨a :: left, right⟩ : Line α).delete = ⟨left, right⟩ := rfl
    rw [hnew, hold, insert_get, insert_get]
    have hlen : ((⟨left, right⟩ : Line α).insert a).left.length - 1 = left.length := Nat.add_sub_cancel ..
    rw [hlen]
    dsimp only
    split_ifs <;> first | rfl | (exfalso; omega)

theorem delete_length (h : l.left ≠ []) : l.delete.text.length = l.text.length - 1 := by
  obtain ⟨left, right⟩ := l
  cases left with
  | nil => exact absurd rfl h
  | cons a left => simp [delete, text]

end Line

end TypeOS
