import Mathlib.Tactic

/-! Loops with an early way out.

    A body returns whether to go on and the state it leaves; the loop stops at the first `false`.
    An invariant of the body is an invariant of the loop, and a loop that ran to its end has done
    every turn. -/

namespace TypeOS

variable {A S : Type}

/-- `for a in l: if (body (a) != 0) return -1`. -/
def forEach (body : A → S → Bool × S) : List A → S → Bool × S
  | [], s => (true, s)
  | a :: l, s =>
    match body a s with
    | (false, s) => (false, s)
    | (true, s) => forEach body l s

variable {body : A → S → Bool × S}

/-- What every turn keeps, the loop keeps, whether it ends early or not. -/
theorem forEach_inv {I : S → Prop} : ∀ {l : List A} {s : S},
    (∀ a ∈ l, ∀ s, I s → I (body a s).2) → I s → I (forEach body l s).2
  | [], _, _, h => h
  | a :: l, s, hstep, h => by
    have ha := hstep a (List.mem_cons_self ..) s h
    rw [forEach]
    cases hb : body a s with
    | mk ok s' =>
      rw [hb] at ha
      cases ok with
      | false => exact ha
      | true => exact forEach_inv (fun b hbl => hstep b (List.mem_cons_of_mem _ hbl)) ha

/-- A property that grows with the turns done, for a loop that ran to its end. -/
theorem forEach_done {P : List A → S → Prop} : ∀ {l done : List A} {s : S},
    (∀ pre a s, pre ++ [a] <+: done ++ l → P pre s → (body a s).1 = true →
      P (pre ++ [a]) (body a s).2) →
    P done s → (forEach body l s).1 = true → P (done ++ l) (forEach body l s).2
  | [], done, s, _, h, _ => by rw [List.append_nil]; exact h
  | a :: l, done, s, hstep, h, hok => by
    have ha := hstep done a s ⟨l, by simp⟩ h
    rw [forEach] at hok ⊢
    cases hb : body a s with
    | mk ok s' =>
      rw [hb] at ha hok
      cases ok with
      | false => exact absurd hok (by simp)
      | true =>
        have := forEach_done (by simpa using hstep) (ha rfl) hok
        simpa using this

/-- The first number below `n` with a property, from `i` on: `n` turns are left. -/
def firstFrom (p : Nat → Bool) : Nat → Nat → Option Nat
  | 0, _ => none
  | n + 1, i => if p i then some i else firstFrom p n (i + 1)

theorem firstFrom_some {p : Nat → Bool} : ∀ {n i k : Nat}, firstFrom p n i = some k →
    i ≤ k ∧ k < i + n ∧ p k = true ∧ ∀ j, i ≤ j → j < k → p j = false
  | 0, _, _, h => by simp [firstFrom] at h
  | n + 1, i, k, h => by
    rw [firstFrom] at h
    split at h
    · next hp =>
      rw [Option.some.injEq] at h
      subst h
      exact ⟨le_refl _, by omega, hp, fun j h1 h2 => by omega⟩
    · next hp =>
      obtain ⟨h1, h2, h3, h4⟩ := firstFrom_some h
      refine ⟨by omega, by omega, h3, fun j hj hk => ?_⟩
      rcases Nat.eq_or_lt_of_le hj with rfl | hj
      · simpa using hp
      · exact h4 j hj hk

theorem firstFrom_none {p : Nat → Bool} : ∀ {n i : Nat}, firstFrom p n i = none →
    ∀ j, i ≤ j → j < i + n → p j = false
  | 0, _, _, _, h1, h2 => by omega
  | n + 1, i, h, j, h1, h2 => by
    rw [firstFrom] at h
    split at h
    · simp at h
    · next hp =>
      rcases Nat.eq_or_lt_of_le h1 with rfl | h1
      · simpa using hp
      · exact firstFrom_none h j h1 (by omega)

end TypeOS
