import Mathlib.Tactic

/-! Counting the places of a finite table that hold a given entry. -/

namespace TypeOS

variable {ι β : Type} [Fintype ι] [DecidableEq β]

/-- The number of places of `f` that hold `b`. -/
def count (f : ι → Option β) (b : β) : Nat := (Finset.univ.filter fun i => f i = some b).card

theorem count_pos {f : ι → Option β} {b : β} : 0 < count f b ↔ ∃ i, f i = some b := by
  simp [count, Finset.card_pos, Finset.Nonempty]

theorem count_eq_zero {f : ι → Option β} {b : β} : count f b = 0 ↔ ∀ i, f i ≠ some b := by
  simp [count, Finset.filter_eq_empty_iff]

/-- Places that are emptied take nothing on. -/
theorem count_le {f g : ι → Option β} (h : ∀ i, g i = f i ∨ g i = none) (b : β) :
    count g b ≤ count f b := by
  refine Finset.card_le_card fun i hi => ?_
  rw [Finset.mem_filter] at hi ⊢
  refine ⟨hi.1, ?_⟩
  rcases h i with heq | hnone
  · rw [← heq]
    exact hi.2
  · rw [hnone] at hi
    exact absurd hi.2 (by simp)

variable [DecidableEq ι]

/-- An empty place that gets an entry. -/
theorem count_fill {f : ι → Option β} {i : ι} (h : f i = none) (v : Option β) (b : β) :
    count (Function.update f i v) b = count f b + if v = some b then 1 else 0 := by
  have hi : i ∉ Finset.univ.filter fun j => f j = some b := by simp [h]
  split
  · next hv =>
    rw [count, count, ← Finset.card_insert_of_notMem hi]
    congr 1
    ext j
    by_cases hj : j = i
    · simp [hj, hv]
    · simp [hj]
  · next hv =>
    rw [count, count, Nat.add_zero]
    congr 1
    ext j
    by_cases hj : j = i
    · simp [hj, hv, h]
    · simp [hj]

/-- A place that is emptied. -/
theorem count_clear (f : ι → Option β) (i : ι) (b : β) :
    count f b = count (Function.update f i none) b + if f i = some b then 1 else 0 := by
  have h := count_fill (f := Function.update f i none) (Function.update_self i none f) (f i) b
  rwa [Function.update_idem, Function.update_eq_self] at h

end TypeOS
