import Mathlib.Tactic

/-! Tilings of an interval of naturals by consecutive pieces.

    A piece is a start and a length. `Tiles lo ps hi` says that the pieces of `ps`, in order, cover
    `[lo, hi)` exactly: each one starts where the one before it ends. A tiling is cut and glued at
    any piece (`tiles_append`, `tiles_cut`), and its pieces are pairwise apart. -/

namespace TypeOS.Tiling

/-- The pieces `(start, length)` cover `[lo, hi)` in order, without gap or overlap. -/
def Tiles : Nat → List (Nat × Nat) → Nat → Prop
  | lo, [], hi => lo = hi
  | lo, p :: ps, hi => p.1 = lo ∧ Tiles (lo + p.2) ps hi

@[simp] theorem tiles_nil (lo hi : Nat) : Tiles lo [] hi ↔ lo = hi := Iff.rfl

@[simp] theorem tiles_cons (lo hi : Nat) (p : Nat × Nat) (ps : List (Nat × Nat)) :
    Tiles lo (p :: ps) hi ↔ p.1 = lo ∧ Tiles (lo + p.2) ps hi := Iff.rfl

/-- Two tilings that meet glue to one, and a tiling splits at every point of its list. -/
theorem tiles_append : ∀ (lo hi : Nat) (ps qs : List (Nat × Nat)),
    Tiles lo (ps ++ qs) hi ↔ ∃ mid, Tiles lo ps mid ∧ Tiles mid qs hi
  | lo, hi, [], qs => by simp
  | lo, hi, p :: ps, qs => by
    simp only [List.cons_append, tiles_cons, tiles_append (lo + p.2) hi ps qs]
    constructor
    · rintro ⟨hp, mid, h1, h2⟩; exact ⟨mid, ⟨hp, h1⟩, h2⟩
    · rintro ⟨mid, ⟨hp, h1⟩, h2⟩; exact ⟨hp, mid, h1, h2⟩

theorem Tiles.le : ∀ {lo hi : Nat} {ps : List (Nat × Nat)}, Tiles lo ps hi → lo ≤ hi
  | _, _, [], h => le_of_eq h
  | _, _, _ :: _, ⟨_, h⟩ => le_trans (Nat.le_add_right _ _) h.le

/-- A piece in the middle of a tiling ends where the rest of it starts. -/
theorem tiles_cut {lo hi : Nat} {ps qs : List (Nat × Nat)} {p : Nat × Nat} :
    Tiles lo (ps ++ p :: qs) hi ↔ Tiles lo ps p.1 ∧ Tiles (p.1 + p.2) qs hi := by
  rw [tiles_append]
  constructor
  · rintro ⟨mid, h1, rfl, h2⟩; exact ⟨h1, h2⟩
  · rintro ⟨h1, h2⟩; exact ⟨p.1, h1, rfl, h2⟩

/-- Every piece of a tiling lies inside the tiled interval. -/
theorem Tiles.mem {lo hi : Nat} {ps : List (Nat × Nat)} (h : Tiles lo ps hi) {p : Nat × Nat}
    (hp : p ∈ ps) : lo ≤ p.1 ∧ p.1 + p.2 ≤ hi := by
  obtain ⟨xs, ys, rfl⟩ := List.append_of_mem hp
  rw [tiles_cut] at h
  exact ⟨h.1.le, h.2.le⟩

/-- An earlier piece of a tiling ends before a later one starts. -/
theorem Tiles.pairwise : ∀ {lo hi : Nat} {ps : List (Nat × Nat)}, Tiles lo ps hi →
    ps.Pairwise fun p q => p.1 + p.2 ≤ q.1
  | _, _, [], _ => List.Pairwise.nil
  | lo, hi, p :: ps, ⟨hp, h⟩ => by
    refine List.Pairwise.cons (fun q hq => ?_) h.pairwise
    rw [hp]; exact (h.mem hq).1

/-- Nonempty pieces are no more than the points they cover. -/
theorem Tiles.length_le : ∀ {lo hi : Nat} {ps : List (Nat × Nat)}, Tiles lo ps hi →
    (∀ p ∈ ps, 1 ≤ p.2) → lo + ps.length ≤ hi
  | _, _, [], h, _ => le_of_eq h
  | lo, hi, p :: ps, ⟨_, h⟩, hpos => by
    have h1 := hpos p (List.mem_cons_self ..)
    have h2 := h.length_le fun q hq => hpos q (List.mem_cons_of_mem _ hq)
    rw [List.length_cons]; omega

end TypeOS.Tiling
