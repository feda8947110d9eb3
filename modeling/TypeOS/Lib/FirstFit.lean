import Mathlib.Data.Nat.Count
import TypeOS.Lib.Loop

/-! First fit over numbered slots.

    A request takes the lowest free number. After `n` requests that were met the `n` lowest of the
    numbers free at the start are gone, so a number is handed out or not by how many free ones lie
    below it: by its rank. -/

namespace TypeOS.FirstFit

variable (free : Nat → Bool) {n k j bound : Nat}

/-- How many free numbers lie below `k`. -/
def rank (k : Nat) : Nat := Nat.count (fun i => free i = true) k

/-- What is free once the `n` lowest free numbers are taken. -/
def left (n k : Nat) : Bool := free k && decide (n ≤ rank free k)

variable {free}

theorem left_eq_true : left free n k = true ↔ free k = true ∧ n ≤ rank free k := by
  simp [left]

theorem left_eq_false : left free n k = false ↔ (free k = true → rank free k < n) := by
  rw [← Bool.not_eq_true, left_eq_true, not_and, not_le]

theorem left_zero (k : Nat) : left free 0 k = free k := by
  simp [left]

theorem rank_lt (hk : free k = true) (hj : k < j) : rank free k < rank free j :=
  Nat.count_strict_mono hk hj

theorem rank_le (hj : k ≤ j) : rank free k ≤ rank free j :=
  Nat.count_monotone _ hj

theorem rank_succ (k : Nat) : rank free (k + 1) = rank free k + if free k = true then 1 else 0 :=
  Nat.count_succ _ k

theorem rank_injective (hk : free k = true) (hj : free j = true) (h : rank free k = rank free j) :
    k = j :=
  Nat.count_injective hk hj h

theorem rank_zero : rank free 0 = 0 := Nat.count_zero _

-- a rank is reasoned about, not counted out
attribute [irreducible] rank

/-- Every rank below that of `k` is the rank of a free number below `k`. -/
theorem exists_rank (hn : n < rank free k) : ∃ j < k, free j = true ∧ rank free j = n := by
  induction k with
  | zero =>
    rw [rank_zero] at hn
    omega
  | succ k ih =>
    rcases Nat.lt_or_ge n (rank free k) with hlt | hge
    · obtain ⟨j, hj, hfree, hrank⟩ := ih hlt
      exact ⟨j, by omega, hfree, hrank⟩
    · rw [rank_succ] at hn
      split at hn
      · next hfree => exact ⟨k, by omega, hfree, by omega⟩
      · omega

/-- The scan finds the free number of rank `n`. -/
theorem firstFrom_left (h : firstFrom (left free n) bound 0 = some k) :
    k < bound ∧ free k = true ∧ rank free k = n := by
  obtain ⟨-, hlt, hk, hleast⟩ := firstFrom_some h
  obtain ⟨hfree, hle⟩ := left_eq_true.mp hk
  rcases Nat.eq_or_lt_of_le hle with heq | hgt
  · exact ⟨by omega, hfree, heq.symm⟩
  · obtain ⟨j, hj, hjfree, hjrank⟩ := exists_rank hgt
    have hgone := left_eq_false.mp (hleast j (Nat.zero_le j) hj) hjfree
    omega

/-- The scan finds nothing where all free numbers below the bound are taken. -/
theorem firstFrom_left_none (h : firstFrom (left free n) bound 0 = none) (hk : k < bound)
    (hfree : free k = true) : rank free k < n :=
  left_eq_false.mp (firstFrom_none h k (Nat.zero_le k) (by omega)) hfree

/-- Taking the number of rank `n` takes one more. -/
theorem left_succ (hk : free k = true) (hrank : rank free k = n) (j : Nat) :
    left free (n + 1) j = (left free n j && !decide (j = k)) := by
  rw [Bool.eq_iff_iff]
  simp only [left_eq_true, Bool.and_eq_true, Bool.not_eq_true', decide_eq_false_iff_not]
  constructor
  · rintro ⟨hfree, hle⟩
    refine ⟨⟨hfree, by omega⟩, ?_⟩
    rintro rfl
    omega
  · rintro ⟨⟨hfree, hle⟩, hne⟩
    refine ⟨hfree, ?_⟩
    rcases Nat.lt_or_gt_of_ne hne with hlt | hgt
    · have := rank_lt hfree hlt
      omega
    · have := rank_lt hk hgt
      omega

end TypeOS.FirstFit
