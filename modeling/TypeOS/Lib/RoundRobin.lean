import Mathlib.Tactic

/-! Slots in a ring, and a pick that looks at them in turn, from the one behind the last pick on.

    Each pick comes closer to a slot that is ready, whatever the other slots do in between, so it is
    reached before the ring has been gone round. -/

namespace TypeOS.RoundRobin

variable {n : Nat} {rr t : Fin n} {i : Nat}

/-- The slot that turn `i` looks at. -/
def after (rr : Fin n) (i : Nat) : Fin n := ⟨(rr + i + 1) % n, Nat.mod_lt _ rr.pos⟩

/-- The turn that looks at a slot. -/
def gap (rr t : Fin n) : Nat := if rr < t then t - (rr + 1) else t + n - (rr + 1)

/-- The pick takes the first slot that is ready. -/
def Picks (ready : Fin n → Prop) (rr rr' : Fin n) : Prop :=
  ∃ i, rr' = after rr i ∧ ready rr' ∧ ∀ j < i, ¬ ready (after rr j)

theorem gap_lt (rr t : Fin n) : gap rr t < n := by
  have hrr := rr.isLt
  have ht := t.isLt
  rw [gap]
  split_ifs with h <;> rw [Fin.lt_def] at h <;> omega

/-- The slot that a turn looks at, without the remainder. -/
theorem after_val (rr : Fin n) (h : i < n) :
    (after rr i : Nat) = if rr + i + 1 < n then rr + i + 1 else rr + i + 1 - n := by
  have hrr := rr.isLt
  rw [after]
  split_ifs with hlt
  · exact Nat.mod_eq_of_lt hlt
  · exact (Nat.mod_eq_sub_mod (by omega)).trans (Nat.mod_eq_of_lt (by omega))

theorem after_gap (rr t : Fin n) : after rr (gap rr t) = t := by
  have hrr := rr.isLt
  have ht := t.isLt
  refine Fin.ext ?_
  rw [after_val rr (gap_lt rr t), gap]
  simp only [Fin.lt_def]
  split_ifs <;> omega

/-- The slots that are looked at before it are closer to it. -/
theorem gap_after (h : i < gap rr t) : gap (after rr i) t < gap rr t := by
  have hrr := rr.isLt
  have ht := t.isLt
  have hval := after_val rr (h.trans (gap_lt rr t))
  simp only [gap, Fin.lt_def] at h ⊢
  rw [hval]
  split_ifs at h ⊢ <;> omega

/-- A slot that is ready is picked, or the next pick begins closer to it. -/
theorem Picks.closer {ready : Fin n → Prop} {rr' : Fin n} (h : Picks ready rr rr') (ht : ready t) :
    rr' = t ∨ gap rr' t < gap rr t := by
  obtain ⟨i, rfl, -, hbefore⟩ := h
  rcases Nat.lt_trichotomy i (gap rr t) with hlt | heq | hgt
  · exact Or.inr (gap_after hlt)
  · exact Or.inl (by rw [heq, after_gap])
  · exact absurd ht (by simpa only [after_gap] using hbefore _ hgt)

/-- A slot that is ready at each of the picks is picked by one of them. -/
theorem picked_in_time {ready : Nat → Fin n → Prop} {rr : Nat → Fin n} (k : Nat) : ∀ {j : Nat},
    gap (rr j) t < k → (∀ i, j ≤ i → i < j + k → Picks (ready i) (rr i) (rr (i + 1))) →
    (∀ i, j ≤ i → i < j + k → ready i t) → ∃ i, j ≤ i ∧ i < j + k ∧ rr (i + 1) = t := by
  induction k with
  | zero => exact fun hgap => absurd hgap (Nat.not_lt_zero _)
  | succ k ih =>
    intro j hgap hpicks hready
    have hfirst : j < j + (k + 1) := by omega
    rcases (hpicks j le_rfl hfirst).closer (hready j le_rfl hfirst) with hpicked | hcloser
    · exact ⟨j, le_rfl, hfirst, hpicked⟩
    · obtain ⟨i, hi, hik, hpicked⟩ := ih (j := j + 1) (by omega)
        (fun i hi hik => hpicks i (by omega) (by omega))
        fun i hi hik => hready i (by omega) (by omega)
      exact ⟨i, by omega, by omega, hpicked⟩

end TypeOS.RoundRobin
