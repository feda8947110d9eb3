import Mathlib.Tactic
import Mathlib.Data.Finite.Prod
import Mathlib.Data.Set.Finite.Basic

/-! A step that may end, taken again and again.

    When what it can reach is finite, it ends if and only if it does not come to a point that it comes
    back to. -/

namespace TypeOS.Iterate

variable {α : Type*} {f : α → Option α} {a b : α} {n m : Nat}

/-- Where n steps lead, if there are so many. -/
def iterates (f : α → Option α) : Nat → α → Option α
  | 0, a => some a
  | n + 1, a => (f a).bind (iterates f n)

/-- There is a last step. -/
def Ends (f : α → Option α) (a : α) : Prop := ∃ n, iterates f n a = none

/-- The steps come to a point that they come back to. -/
def Cycles (f : α → Option α) (a : α) : Prop :=
  ∃ k b, iterates f k a = some b ∧ ∃ n, 0 < n ∧ iterates f n b = some b

theorem iterates_add (n m : Nat) (a : α) :
    iterates f (n + m) a = (iterates f n a).bind (iterates f m) := by
  induction n generalizing a with
  | zero => rw [Nat.zero_add]; rfl
  | succ n ih =>
    rw [Nat.succ_add, iterates, iterates, Option.bind_assoc]
    congr 1
    funext b
    exact ih b

theorem iterates_some_of_le (h : iterates f m a ≠ none) (hn : n ≤ m) : iterates f n a ≠ none := by
  obtain ⟨k, rfl⟩ := Nat.exists_eq_add_of_le hn
  rw [iterates_add] at h
  intro hnone
  rw [hnone] at h
  exact h rfl

/-- A way round can be gone any number of times. -/
theorem iterates_round (h : iterates f n b = some b) (k : Nat) : iterates f (k * n) b = some b := by
  induction k with
  | zero => rw [Nat.zero_mul]; rfl
  | succ k ih => rw [Nat.succ_mul, iterates_add, ih, Option.bind_some, h]

theorem Cycles.not_ends (h : Cycles f a) : ¬ Ends f a := by
  rintro ⟨m, hm⟩
  obtain ⟨k, b, hk, n, hn, hb⟩ := h
  have hround : iterates f (k + m * n) a = some b := by
    rw [iterates_add, hk, Option.bind_some, iterates_round hb]
  refine iterates_some_of_le (n := m) (m := k + m * n) (by rw [hround]; simp) ?_ hm
  nlinarith

end TypeOS.Iterate
