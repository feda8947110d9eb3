import Mathlib.Tactic

/-! Radix tables in a memory, with subtables that several roots may share.

    A memory maps a frame and an index to an entry. A `Reader` says how a lookup goes on from an
    entry: `next` follows it to a subtable, `stop` reads off a result where the lookup ends, and
    `via` adds what an entry contributes on the way back. A tag gives each table the path at which
    it is used, whichever root it is reached from; in a `Tagged` memory two tables used at
    different paths are different frames, so a write is seen along one path only. -/

namespace TypeOS.Radix

variable {F I E R : Type}

/-- How a lookup reads an entry. -/
structure Reader (F I E R : Type) where
  next : E → Option F
  via : E → R → R
  stop : E → List I → Option R

/-- The lookup of a path from a table; the entry of the last index always ends it. -/
def look (rd : Reader F I E R) (m : F → I → E) : F → List I → Option R
  | _, [] => none
  | t, [i] => rd.stop (m t i) []
  | t, i :: j :: q =>
    match rd.next (m t i) with
    | some f => (look rd m f (j :: q)).map (rd.via (m t i))
    | none => rd.stop (m t i) (j :: q)

/-- The table a path leads to. -/
def descend (next : E → Option F) (m : F → I → E) : F → List I → Option F
  | t, [] => some t
  | t, i :: q => (next (m t i)).bind fun f => descend next m f q

/-- What the entries along a path contribute together. -/
def viaPath (rd : Reader F I E R) (m : F → I → E) : F → List I → R → R
  | _, [], r => r
  | t, i :: q, r => rd.via (m t i) (((rd.next (m t i)).map fun f => viaPath rd m f q r).getD r)

/-- Every subtable of a table tagged `p` that is entered at index `i` is tagged `p ++ [i]`. -/
def Tagged (next : E → Option F) (n : Nat) (m : F → I → E) (tag : F → Option (List I)) : Prop :=
  ∀ t p i f, tag t = some p → p.length < n → next (m t i) = some f → tag f = some (p ++ [i])

variable {rd : Reader F I E R} {next : E → Option F} {m m' : F → I → E}
  {tag tag' : F → Option (List I)} {n : Nat} {t f : F} {p q : List I} {i : I}

/-! ### Following a path -/

theorem descend_append : ∀ (t : F) (p q : List I),
    descend next m t (p ++ q) = (descend next m t p).bind fun f => descend next m f q
  | _, [], _ => rfl
  | t, i :: p, q => by
    simp only [List.cons_append, descend, Option.bind_assoc]
    exact Option.bind_congr fun f _ => descend_append f p q

/-- The table at the end of a path is tagged with that path. -/
theorem Tagged.descend (h : Tagged next n m tag) : ∀ {q : List I} {t : F} {p : List I},
    tag t = some p → p.length + q.length ≤ n → descend next m t q = some f →
    tag f = some (p ++ q)
  | [], t, p, ht, _, hd => by
    rw [Radix.descend, Option.some.injEq] at hd
    rw [← hd, List.append_nil]; exact ht
  | i :: q, t, p, ht, hlen, hd => by
    rw [List.length_cons] at hlen
    obtain ⟨g, hg, hd⟩ := Option.bind_eq_some_iff.mp hd
    have hgt := h t p i g ht (by omega) hg
    have := h.descend (q := q) hgt (by rw [List.length_append, List.length_singleton]; omega) hd
    rwa [List.append_assoc, List.singleton_append] at this

/-- A lookup through a table that a path leads to. -/
theorem look_descend : ∀ {p : List I} {t : F}, descend rd.next m t p = some f → q ≠ [] →
    look rd m t (p ++ q) = (look rd m f q).map (viaPath rd m t p)
  | [], t, hd, _ => by
    rw [descend, Option.some.injEq] at hd
    subst hd
    show look rd m t q = _
    rw [show viaPath rd m t [] = id from rfl, Option.map_id, id]
  | i :: p, t, hd, hq => by
    obtain ⟨g, hg, hd⟩ := Option.bind_eq_some_iff.mp hd
    have ih := look_descend hd hq
    obtain ⟨j, r, hjr⟩ : ∃ j r, p ++ q = j :: r := by
      cases p with
      | nil => exact List.exists_cons_of_ne_nil hq
      | cons j p => exact ⟨j, p ++ q, rfl⟩
    rw [List.cons_append, hjr, look, hg]
    simp only
    rw [← hjr, ih, Option.map_map]
    congr 1
    funext r
    simp [viaPath, hg]

/-! ### Frames: what a lookup depends on -/

/-- A lookup only reads the entries along its path. -/
theorem Tagged.look_congr (h : Tagged rd.next n m tag) : ∀ {q : List I} {t : F} {p : List I},
    tag t = some p → p.length + q.length = n + 1 →
    (∀ u w i, tag u = some w → w ++ [i] <+: p ++ q → m' u i = m u i) →
    look rd m' t q = look rd m t q
  | [], _, _, _, _, _ => rfl
  | [i], t, p, ht, _, hag => by
    rw [look, look, hag t p i ht (List.prefix_rfl)]
  | i :: j :: q, t, p, ht, hlen, hag => by
    simp only [List.length_cons] at hlen
    have he := hag t p i ht ⟨j :: q, by simp⟩
    rw [look, look, he]
    cases hn : rd.next (m t i) with
    | none => rfl
    | some f =>
      have hf := h t p i f ht (by omega) hn
      simp only
      have hlen' : (p ++ [i]).length + (j :: q).length = n + 1 := by
        simp only [List.length_append, List.length_cons, List.length_nil]; omega
      rw [h.look_congr hf hlen' fun u w k hu hw => hag u w k hu (by simpa using hw)]

/-- A path leads to the same table in a memory with the same pointers along it. -/
theorem Tagged.descend_congr (h : Tagged next n m tag) : ∀ {q : List I} {t : F} {p : List I},
    tag t = some p → p.length + q.length ≤ n →
    (∀ u w i, tag u = some w → w ++ [i] <+: p ++ q → next (m' u i) = next (m u i)) →
    Radix.descend next m' t q = Radix.descend next m t q
  | [], _, _, _, _, _ => rfl
  | i :: q, t, p, ht, hlen, hag => by
    rw [List.length_cons] at hlen
    have he := hag t p i ht ⟨q, by simp⟩
    rw [Radix.descend, Radix.descend, he]
    refine Option.bind_congr fun f hf => ?_
    have hft := h t p i f ht (by omega) hf
    exact h.descend_congr hft (by rw [List.length_append, List.length_singleton]; omega)
      fun u w k hu hw => hag u w k hu (by simpa using hw)

/-- Pointers that are kept keep a path that leads somewhere. -/
theorem Tagged.descend_keep (h : Tagged next n m tag) : ∀ {q : List I} {t : F} {p : List I},
    tag t = some p → p.length + q.length ≤ n →
    (∀ u w i g, tag u = some w → w.length < n → next (m u i) = some g → next (m' u i) = some g) →
    Radix.descend next m t q = some f → Radix.descend next m' t q = some f
  | [], _, _, _, _, _, hd => hd
  | i :: q, t, p, ht, hlen, hkeep, hd => by
    rw [List.length_cons] at hlen
    obtain ⟨g, hg, hd⟩ := Option.bind_eq_some_iff.mp hd
    have hgt := h t p i g ht (by omega) hg
    rw [Radix.descend, hkeep t p i g ht (by omega) hg]
    exact h.descend_keep hgt (by rw [List.length_append, List.length_singleton]; omega) hkeep hd

/-- A lookup only reads the tables it comes through. -/
theorem Tagged.look_avoid (h : Tagged rd.next n m tag) : ∀ {q : List I} {t : F} {p : List I},
    tag t = some p → p.length + q.length = n + 1 →
    (∀ u w i, tag (u : F) = some (p ++ w) → w ++ [i] <+: q → Radix.descend rd.next m t w = some u →
      m' u i = m u i) →
    look rd m' t q = look rd m t q
  | [], _, _, _, _, _ => rfl
  | [i], t, p, ht, _, hag => by
    rw [look, look, hag t [] i (by simpa using ht) List.prefix_rfl rfl]
  | i :: j :: q, t, p, ht, hlen, hag => by
    simp only [List.length_cons] at hlen
    have he := hag t [] i (by simpa using ht) ⟨j :: q, rfl⟩ rfl
    rw [look, look, he]
    cases hn : rd.next (m t i) with
    | none => rfl
    | some f =>
      have hf := h t p i f ht (by omega) hn
      have hlen' : (p ++ [i]).length + (j :: q).length = n + 1 := by
        simp only [List.length_append, List.length_cons, List.length_nil]; omega
      simp only
      rw [h.look_avoid hf hlen' fun u w k hu hk hd => ?_]
      refine hag u (i :: w) k (by simpa using hu) (List.cons_prefix_cons.mpr ⟨rfl, hk⟩) ?_
      rw [Radix.descend, hn]
      exact hd

/-- A path leads to the same table in a memory that agrees on the tables it comes through. -/
theorem descend_avoid : ∀ {q : List I} {t : F},
    (∀ u w i, descend next m t w = some u → w ++ [i] <+: q → m' u i = m u i) →
    descend next m' t q = descend next m t q
  | [], _, _ => rfl
  | i :: q, t, hag => by
    rw [descend, descend, hag t [] i rfl ⟨q, rfl⟩]
    refine Option.bind_congr fun f hf => descend_avoid fun u w k hd hk => ?_
    refine hag u (i :: w) k ?_ (List.cons_prefix_cons.mpr ⟨rfl, hk⟩)
    rw [descend, hf]
    exact hd

/-- A path leads where it did if every entry points where it did. -/
theorem descend_congr_next (hm : ∀ t i, next (m' t i) = next (m t i)) : ∀ (q : List I) (t : F),
    descend next m' t q = descend next m t q
  | [], _ => rfl
  | i :: q, t => by
    rw [descend, descend, hm]
    exact Option.bind_congr fun f _ => descend_congr_next hm q f

/-! ### Grafting a fresh subtable -/

/-- The entry at `(t₀, i₀)` becomes a pointer to `f`, and no other entry of a table changes. If
    lookups through `f` give what they gave before at the entry itself, no lookup changes. -/
theorem Tagged.look_graft (h : Tagged rd.next n m tag) {t₀ : F} {i₀ : I} {p₀ : List I}
    (ht₀ : tag t₀ = some p₀) (hp₀ : p₀.length < n)
    (hother : ∀ u w i, tag u = some w → (u, i) ≠ (t₀, i₀) → m' u i = m u i)
    (hold : rd.next (m t₀ i₀) = none) (hnew : rd.next (m' t₀ i₀) = some f)
    (hsame : ∀ q, p₀.length + 1 + q.length = n + 1 →
      (look rd m' f q).map (rd.via (m' t₀ i₀)) = rd.stop (m t₀ i₀) q) :
    ∀ {q : List I} {t : F} {p : List I}, tag t = some p → p.length + q.length = n + 1 →
      look rd m' t q = look rd m t q
  | [], _, _, _, _ => rfl
  | [i], t, p, ht, hlen => by
    have hne : (t, i) ≠ (t₀, i₀) := by
      rintro he
      rw [(Prod.mk.inj he).1, ht₀, Option.some.injEq] at ht
      rw [ht] at hp₀
      simp only [List.length_singleton] at hlen
      omega
    rw [look, look, hother t p i ht hne]
  | i :: j :: q, t, p, ht, hlen => by
    simp only [List.length_cons] at hlen
    by_cases he : (t, i) = (t₀, i₀)
    · obtain ⟨rfl, rfl⟩ := Prod.mk.inj he
      rw [ht₀, Option.some.injEq] at ht
      rw [look, look, hold, hnew]
      exact hsame (j :: q) (by rw [List.length_cons, ht]; omega)
    · rw [look, look, hother t p i ht he]
      cases hn : rd.next (m t i) with
      | none => rfl
      | some g =>
        have hg := h t p i g ht (by omega) hn
        have hlen' : (p ++ [i]).length + (j :: q).length = n + 1 := by
          simp only [List.length_append, List.length_cons, List.length_nil]; omega
        simp only
        rw [h.look_graft ht₀ hp₀ hother hold hnew hsame hg hlen']

/-- The tags after a graft: the fresh subtable gets the path of the entry. -/
theorem Tagged.graft [DecidableEq F] (h : Tagged next n m tag) {t₀ : F} {i₀ : I} {p₀ : List I}
    (ht₀ : tag t₀ = some p₀) (hf : tag f = none)
    (hother : ∀ u w i, tag u = some w → (u, i) ≠ (t₀, i₀) → m' u i = m u i)
    (hnew : ∀ g, next (m' t₀ i₀) = some g → g = f)
    (hempty : p₀.length + 1 < n → ∀ i, next (m' f i) = none) :
    Tagged next n m' (Function.update tag f (some (p₀ ++ [i₀]))) := by
  intro t p i g ht hp hg
  rcases eq_or_ne t f with rfl | htf
  · rw [Function.update_self, Option.some.injEq] at ht
    rw [← ht, List.length_append, List.length_singleton] at hp
    rw [hempty hp] at hg
    simp at hg
  rw [Function.update_of_ne htf] at ht
  by_cases he : (t, i) = (t₀, i₀)
  · obtain ⟨rfl, rfl⟩ := Prod.mk.inj he
    rw [ht₀, Option.some.injEq] at ht
    rw [hnew g hg, Function.update_self, ht]
  · rw [hother t p i ht he] at hg
    have hgt := h t p i g ht hp hg
    rw [Function.update_of_ne, hgt]
    rintro rfl
    rw [hf] at hgt
    simp at hgt

end TypeOS.Radix
