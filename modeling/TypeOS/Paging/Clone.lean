import TypeOS.Paging.Copy

/-! Cloning an address space.

    A clone copies the tables of the current root whose entries allow user access, down to fresh
    frames for the pages, and shares every other entry. While it runs, `D` is the set of its own
    tables: nothing outside of it points into it, so the address spaces there were do not change,
    and inside of it a user entry leads to a table of `D` or to a page of its own. -/

namespace TypeOS.Paging
open Radix

variable {im : Image} {s s' s₁ s₀ : Vm} {tag tag₀ tag' : Nat → Option Path} {D : Nat → Prop}
  {t f d v r u : Nat} {p q : Path} {i : Fin 512} {e : Word}

/-- A clone under way: `s₀` is the state it started from, `D` the tables it has made. -/
structure Cloning (s₀ : Vm) (tag₀ : Nat → Option Path) (s : Vm) (tag : Nat → Option Path)
    (D : Nat → Prop) : Prop where
  start : Forest s₀ tag₀
  changed : Changed Window Window s₀ tag₀ s tag
  new : ∀ t, D t → tag₀ t = none ∧ ∃ p, tag t = some p
  closed : ∀ t p i c, tag t = some p → p.length < 3 → ¬ D t → nextTable (s.mem t i) = some c → ¬ D c
  users : ∀ t p i c, D t → tag t = some p → p.length < 3 → nextTable (s.mem t i) = some c →
    has (s.mem t i) pageUser = true → D c
  shared : ∀ t p i c, D t → tag t = some p → p.length < 3 → nextTable (s.mem t i) = some c →
    ¬ D c → descend nextTable s.mem s.pml4 (p ++ [i]) = some c
  leaves : ∀ t p i, D t → tag t = some p → p.length = 3 → has (s.mem t i) pagePresent = true →
    has (s.mem t i) pageUser = true → bitmapTest s₀ (entryFrame (s.mem t i)) = false ∧
      tag (entryFrame (s.mem t i)) = none ∧ bitmapTest s (entryFrame (s.mem t i)) = true

/-! ### Outside the clone -/

/-- A path from outside the clone stays outside. -/
theorem avoids (hf : Forest s tag)
    (hcl : ∀ t p i c, tag t = some p → p.length < 3 → ¬ D t → nextTable (s.mem t i) = some c → ¬ D c) :
    ∀ {q : Path} {t : Nat} {p : Path}, tag t = some p → p.length + q.length ≤ 3 → ¬ D t →
      descend nextTable s.mem t q = some u → ¬ D u
  | [], _, _, _, _, hd, hdesc => by
    rw [descend, Option.some.injEq] at hdesc
    exact hdesc ▸ hd
  | i :: q, t, p, ht, hlen, hd, hdesc => by
    rw [List.length_cons] at hlen
    obtain ⟨g, hg, hdesc⟩ := Option.bind_eq_some_iff.mp hdesc
    have hgt := hf.tagged t p i g ht (by omega) hg
    exact avoids hf hcl hgt (by rw [List.length_append, List.length_singleton]; omega)
      (hcl t p i g ht (by omega) hd hg) hdesc

namespace Cloning

theorem forest (h : Cloning s₀ tag₀ s tag D) : Forest s tag := h.changed.forest

theorem old (h : Cloning s₀ tag₀ s tag D) (ht : tag₀ t = some p) : ¬ D t := fun hd => by
  rw [(h.new t hd).1] at ht
  simp at ht

theorem root_old (h : Cloning s₀ tag₀ s tag D) : ¬ D s.pml4 := by
  rw [h.changed.pml4]
  exact h.old h.start.root

/-- No path from an old root comes through the clone. -/
theorem path_old (h : Cloning s₀ tag₀ s tag D) (hr : tag₀ r = some []) (hq : q.length ≤ 3)
    (hd : descend nextTable s.mem r q = some u) : ¬ D u :=
  avoids h.forest h.closed (h.changed.tags r [] hr) (by simpa using hq) (h.old hr) hd

/-- Writing into a table of the clone leaves the paths of old roots as they are. -/
theorem descend_write (h : Cloning s₀ tag₀ s tag D) (hd : D d) (hr : tag₀ r = some [])
    (hq : q.length ≤ 3) :
    descend nextTable (writeEntry s d i e).mem r q = descend nextTable s.mem r q := by
  refine descend_avoid fun u w k hdesc hk => writeEntry_other ?_
  rintro hc
  have hlen := hk.length_le
  rw [List.length_append, List.length_singleton] at hlen
  exact h.path_old hr (by omega) hdesc ((Prod.mk.inj hc).1 ▸ hd)

/-- Mapping pages of the window meanwhile leaves the tables of the clone alone. -/
theorem mapped (h : Cloning s₀ tag₀ s tag D) (hm : Mapped Window Window s tag s' tag') :
    Cloning s₀ tag₀ s' tag' D ∧ ∀ t, D t → s'.mem t = s.mem t := by
  have hclosed : ∀ t p i c, tag' t = some p → p.length < 3 → ¬ D t →
      nextTable (s'.mem t i) = some c → ¬ D c := by
    intro t p i c ht hp htd hc hcd
    obtain ⟨h1, h2⟩ := hm.back t p i c ht hp hc (h.new c hcd).2
    exact h.closed t p i c h1 hp htd h2 hcd
  have hsame : ∀ t, D t → s'.mem t = s.mem t := by
    intro t htd
    obtain ⟨p, ht⟩ := (h.new t htd).2
    funext i
    rcases hm.off t p i ht with hc | ⟨-, hc⟩
    · exact hc
    · refine absurd htd (avoids hm.forest hclosed hm.forest.root ?_ ?_ hc)
      · simpa using h.forest.depth t p ht
      · rw [hm.pml4]; exact h.root_old
  have htag : ∀ t p, D t → tag' t = some p → tag t = some p := by
    intro t p htd ht
    obtain ⟨q, hq⟩ := (h.new t htd).2
    rw [hm.tags t q hq] at ht
    rw [hq, ht]
  refine ⟨⟨h.start, h.changed.trans h.start hm.toChanged, ?_, hclosed, ?_, ?_, ?_⟩, hsame⟩
  · intro t htd
    obtain ⟨h1, p, hp⟩ := h.new t htd
    exact ⟨h1, p, hm.tags t p hp⟩
  · intro t p i c htd ht hp hc hu
    rw [hsame t htd] at hc hu
    exact h.users t p i c htd (htag t p htd ht) hp hc hu
  · intro t p i c htd ht hp hc hcd
    rw [hsame t htd] at hc
    have := h.shared t p i c htd (htag t p htd ht) hp hc hcd
    rw [hm.pml4]
    exact hm.descend h.forest h.forest.root (by
      simp only [List.length_nil, List.length_append, List.length_singleton]; omega) this
  · intro t p i htd ht hp hpr hu
    rw [hsame t htd] at hpr hu ⊢
    obtain ⟨h1, h2, h3⟩ := h.leaves t p i htd (htag t p htd ht) hp hpr hu
    exact ⟨h1, hm.untagged h2 h3, hm.bits _ h3⟩

/-- A frame taken for a table joins the clone, still empty. -/
theorem table (h : Cloning s₀ tag₀ s tag D) (hf : Fresh s s₁ f fun _ => 0#64) (hp : p.length ≤ 3) :
    Cloning s₀ tag₀ s₁ (Function.update tag f (some p)) (fun t => D t ∨ t = f) := by
  have hne : ∀ u w, tag u = some w → u ≠ f := fun u w hu => h.forest.ne_free hu hf.free
  have hcase : ∀ u w, Function.update tag f (some p) u = some w → u ≠ f → tag u = some w := by
    intro u w hu huf; rwa [Function.update_of_ne huf] at hu
  have hnew : ∀ u w, D u → Function.update tag f (some p) u = some w → tag u = some w := by
    intro u w hu hw
    obtain ⟨w', hw'⟩ := (h.new u hu).2
    exact hcase u w hw (hne u w' hw')
  -- the frame holds no entry yet
  have hempty : ∀ k, has (s₁.mem f k) pagePresent = false := by
    intro k; rw [hf.self]; simp
  have hnone : ∀ k c, nextTable (s₁.mem f k) ≠ some c := by
    intro k c hc; rw [nextTable_none (hempty k)] at hc; simp at hc
  refine ⟨h.start, h.changed.trans h.start (hf.changed h.forest hp fun _ k => Or.inl (by simp)),
    ?_, ?_, ?_, ?_, ?_⟩
  · rintro u (hu | rfl)
    · obtain ⟨h1, w, hw⟩ := h.new u hu
      exact ⟨h1, w, h.forest.keep_tag hf.free hw⟩
    · refine ⟨?_, p, Function.update_self ..⟩
      rcases h1 : tag₀ u with _ | w
      · rfl
      · exact absurd rfl (hne u w (h.changed.tags u w h1))
  · rintro u w k c hu hw hud hc (hcd | rfl)
    · have hu' := hcase u w hu fun huf => hud (Or.inr huf)
      rw [hf.old h.forest hu'] at hc
      exact h.closed u w k c hu' hw (fun hd => hud (Or.inl hd)) hc hcd
    · have hu' := hcase u w hu fun huf => hud (Or.inr huf)
      rw [hf.old h.forest hu'] at hc
      exact hne c _ (h.forest.tagged u w k c hu' hw hc) rfl
  · rintro u w k c (hu | rfl) hw hlen hc hus
    · have hu' := hnew u w hu hw
      rw [hf.old h.forest hu'] at hc hus
      exact Or.inl (h.users u w k c hu hu' hlen hc hus)
    · exact absurd hc (hnone k c)
  · rintro u w k c (hu | rfl) hw hlen hc hcd
    · have hu' := hnew u w hu hw
      rw [hf.old h.forest hu'] at hc
      rw [hf.pml4, h.forest.tagged.descend_congr h.forest.root
        (by rw [List.length_nil, List.length_append, List.length_singleton]; omega)
        fun x y j hx _ => by rw [hf.old h.forest hx]]
      exact h.shared u w k c hu hu' hlen hc fun hd => hcd (Or.inl hd)
    · exact absurd hc (hnone k c)
  · rintro u w k (hu | rfl) hw hlen hpr hus
    · have hu' := hnew u w hu hw
      rw [hf.old h.forest hu'] at hpr hus ⊢
      obtain ⟨h1, h2, h3⟩ := h.leaves u w k hu hu' hlen hpr hus
      refine ⟨h1, ?_, hf.used _ h3⟩
      rw [Function.update_of_ne, h2]
      intro hef
      rw [hef, hf.free] at h3
      simp at h3
    · rw [hempty] at hpr
      simp at hpr

/-- What there was before the clone does not change with its tables. -/
theorem write_changed (h : Cloning s₀ tag₀ s tag D) (hd : D d) (ht : tag d = some p)
    (hforest : Forest (writeEntry s d i e) tag) :
    Changed Window Window s₀ tag₀ (writeEntry s d i e) tag := by
  have hpml4 : (writeEntry s d i e).pml4 = s.pml4 := rfl
  have hroot₀ : tag₀ s.pml4 = some [] := by rw [h.changed.pml4]; exact h.start.root
  have hne : ∀ t w, tag₀ t = some w → t ≠ d := by rintro t w hw rfl; exact h.old hw hd
  refine ⟨hforest, h.changed.tags, h.changed.fresh, h.changed.bits, ?_, h.changed.pml4,
    h.changed.total, ?_, ?_, ?_⟩
  · intro g hg hb
    rw [writeEntry_frame, h.changed.frames g hg hb]
    rintro rfl
    rw [h.changed.fresh g p (h.new g hd).1 ht] at hb
    simp at hb
  · intro r v hr hv
    have hlook : walk (writeEntry s d i e).mem r v = walk s.mem r v := by
      refine h.forest.tagged.look_avoid (h.changed.tags r _ hr) (by simp [pathOf])
        fun u w k _ hk hdesc => writeEntry_other ?_
      rintro hc
      have hlen := hk.length_le
      rw [List.length_append, List.length_singleton] at hlen
      have h4 : (pathOf v).length = 4 := rfl
      exact h.path_old hr (by omega) hdesc ((Prod.mk.inj hc).1 ▸ hd)
    rw [hlook]
    refine h.changed.walks r v hr fun hc => hv ⟨hc.1, ?_⟩
    obtain ⟨pt, h1, h2⟩ := hc.2
    exact ⟨pt, (h.descend_write hd hroot₀ (by simp [tablePath])).trans h1,
      (h.descend_write hd hr (by simp [tablePath])).trans h2⟩
  · intro t w k htw
    rw [writeEntry_frame (hne t w htw)]
    refine (h.changed.off t w k htw).imp_right fun hc => ⟨hc.1, ?_⟩
    rw [hpml4]
    exact (h.descend_write hd hroot₀ (h.start.depth t w htw)).trans hc.2
  · intro t w k c htw hw hc
    rw [writeEntry_frame (hne t w htw)]
    exact h.changed.keep t w k c htw hw hc

/-- An entry of a table of the clone is written: a pointer into the clone, an entry shared with
    the current root, or one of a page of its own. -/
theorem write (h : Cloning s₀ tag₀ s tag D) (hd : D d) (ht : tag d = some p)
    (hn : p.length < 3 → ∀ g, nextTable e = some g → tag g = some (p ++ [i]) ∧
      (has e pageUser = true → D g) ∧
      (¬ D g → descend nextTable s.mem s.pml4 (p ++ [i]) = some g) ∧ has e pageWritable = true)
    (hup : p.length < 2 → has e pagePresent = true → has e pageHuge = false)
    (hh : p.length = 2 → has e pagePresent = true → has e pageHuge = true →
      entryFrame e % 512 = 0 ∧ has e pageUser = false)
    (hl : p.length = 3 → has e pagePresent = true → has e pageUser = true →
      bitmapTest s₀ (entryFrame e) = false ∧ tag (entryFrame e) = none ∧
        bitmapTest s (entryFrame e) = true) :
    Cloning s₀ tag₀ (writeEntry s d i e) tag D := by
  have hforest : Forest (writeEntry s d i e) tag :=
    h.forest.write ht (fun hp g hg => ⟨(hn hp g hg).1, (hn hp g hg).2.2.2⟩) hup hh
  have hpml4 : (writeEntry s d i e).pml4 = s.pml4 := rfl
  have hroot₀ : tag₀ s.pml4 = some [] := by rw [h.changed.pml4]; exact h.start.root
  have hent : ∀ t w k, tag t = some w → ((t, k) = (d, i) ∧ w = p) ∨
      (t, k) ≠ (d, i) ∧ (writeEntry s d i e).mem t k = s.mem t k := by
    intro t w k htw
    by_cases hc : (t, k) = (d, i)
    · refine Or.inl ⟨hc, ?_⟩
      rw [(Prod.mk.inj hc).1, ht, Option.some.injEq] at htw
      exact htw.symm
    · exact Or.inr ⟨hc, writeEntry_other hc⟩
  refine ⟨h.start, h.write_changed hd ht hforest, h.new, ?_, ?_, ?_, ?_⟩
  · intro t w k c htw hw htd hc
    rw [writeEntry_frame (by rintro rfl; exact htd hd)] at hc
    exact h.closed t w k c htw hw htd hc
  · intro t w k c htd htw hw hc hu
    rcases hent t w k htw with ⟨hk, rfl⟩ | ⟨-, hk⟩
    · obtain ⟨rfl, rfl⟩ := Prod.mk.inj hk
      rw [writeEntry_self] at hc hu
      exact (hn hw c hc).2.1 hu
    · rw [hk] at hc hu
      exact h.users t w k c htd htw hw hc hu
  · intro t w k c htd htw hw hc hcd
    rw [hpml4, h.descend_write hd hroot₀ (by rw [List.length_append, List.length_singleton]; omega)]
    rcases hent t w k htw with ⟨hk, rfl⟩ | ⟨-, hk⟩
    · obtain ⟨rfl, rfl⟩ := Prod.mk.inj hk
      rw [writeEntry_self] at hc
      exact (hn hw c hc).2.2.1 hcd
    · rw [hk] at hc
      exact h.shared t w k c htd htw hw hc hcd
  · intro t w k htd htw hw hpr hu
    rcases hent t w k htw with ⟨hk, rfl⟩ | ⟨-, hk⟩
    · obtain ⟨rfl, rfl⟩ := Prod.mk.inj hk
      rw [writeEntry_self] at hpr hu ⊢
      exact hl hw hpr hu
    · rw [hk] at hpr hu ⊢
      exact h.leaves t w k htd htw hw hpr hu

end Cloning

/-! ### The loops -/

/-- The tables of the clone below `t` copy those below `u` of the starting state, `k` levels deep:
    entries without user access are the same, user entries lead to a copy. -/
def Copied (s₀ s : Vm) (tag : Nat → Option Path) (D : Nat → Prop) : Nat → Path → Nat → Nat → Prop
  | 0, _, _, _ => True
  | k + 1, p, u, t => ∀ i c, nextTable (s₀.mem u i) = some c →
    (has (s₀.mem u i) pageUser = false → s.mem t i = s₀.mem u i) ∧
    (has (s₀.mem u i) pageUser = true → ∃ c', D c' ∧ tag c' = some (p ++ [i]) ∧
      nextTable (s.mem t i) = some c' ∧ has (s.mem t i) pageUser = true ∧
      Copied s₀ s tag D k (p ++ [i]) c c')

/-- Entry `i` of `t` copies that of `u`. -/
def CopiedEntry (s₀ s : Vm) (tag : Nat → Option Path) (D : Nat → Prop) (k : Nat) (p : Path)
    (u t : Nat) (i : Fin 512) : Prop :=
  ∀ c, nextTable (s₀.mem u i) = some c →
    (has (s₀.mem u i) pageUser = false → s.mem t i = s₀.mem u i) ∧
    (has (s₀.mem u i) pageUser = true → ∃ c', D c' ∧ tag c' = some (p ++ [i]) ∧
      nextTable (s.mem t i) = some c' ∧ has (s.mem t i) pageUser = true ∧
      Copied s₀ s tag D k (p ++ [i]) c c')

/-- How a step of the clone may change tables: it adds to those of the clone, of which only entries
    of `d` change, and keeps the pointers of the others. -/
structure Adds (d : Nat) (s : Vm) (tag : Nat → Option Path) (D : Nat → Prop) (s' : Vm)
    (tag' : Nat → Option Path) (D' : Nat → Prop) : Prop where
  sub : ∀ t, D t → D' t
  out : ∀ t p, tag t = some p → ¬ D t → ¬ D' t
  tags : ∀ t p, tag t = some p → tag' t = some p
  same : ∀ t, D t → t ≠ d → s'.mem t = s.mem t
  keep : ∀ t p i c, tag t = some p → p.length < 3 → ¬ D t → nextTable (s.mem t i) = some c →
    s'.mem t i = s.mem t i
  pml4 : s'.pml4 = s.pml4

theorem Adds.refl (d : Nat) : Adds d s tag D s tag D :=
  ⟨fun _ h => h, fun _ _ _ h => h, fun _ _ h => h, fun _ _ _ => rfl, fun _ _ _ _ _ _ _ _ => rfl, rfl⟩

theorem Adds.trans {s'' : Vm} {tag'' : Nat → Option Path} {D' D'' : Nat → Prop}
    (h : Adds d s tag D s' tag' D') (h' : Adds d s' tag' D' s'' tag'' D'') :
    Adds d s tag D s'' tag'' D'' := by
  refine ⟨fun t ht => h'.sub t (h.sub t ht),
    fun t p ht hd => h'.out t p (h.tags t p ht) (h.out t p ht hd),
    fun t p ht => h'.tags t p (h.tags t p ht),
    fun t ht hne => (h'.same t (h.sub t ht) hne).trans (h.same t ht hne),
    fun t p i c ht hp hd hc => ?_, h'.pml4.trans h.pml4⟩
  have h1 := h.keep t p i c ht hp hd hc
  rw [h'.keep t p i c (h.tags t p ht) hp (h.out t p ht hd) (by rw [h1]; exact hc), h1]

/-- A path of the current root still leads where it led. -/
theorem Adds.descend {D' : Nat → Prop} (h : Adds d s tag D s' tag' D')
    (hc : Cloning s₀ tag₀ s tag D) : ∀ {q : Path} {t : Nat} {p : Path}, tag t = some p →
      p.length + q.length ≤ 3 → ¬ D t → descend nextTable s.mem t q = some u →
      descend nextTable s'.mem t q = some u
  | [], _, _, _, _, _, hd => hd
  | i :: q, t, p, ht, hlen, htd, hd => by
    rw [List.length_cons] at hlen
    obtain ⟨g, hg, hd⟩ := Option.bind_eq_some_iff.mp hd
    have hgt := hc.forest.tagged t p i g ht (by omega) hg
    have hgd := hc.closed t p i g ht (by omega) htd hg
    rw [Radix.descend, h.keep t p i g ht (by omega) htd hg, hg, Option.bind_some]
    exact h.descend hc hgt (by rw [List.length_append, List.length_singleton]; omega) hgd hd

theorem Adds.descend_root {D' : Nat → Prop} (h : Adds d s tag D s' tag' D')
    (hc : Cloning s₀ tag₀ s tag D) (hq : q.length ≤ 3)
    (hd : Radix.descend nextTable s.mem s.pml4 q = some u) :
    Radix.descend nextTable s'.mem s'.pml4 q = some u := by
  rw [h.pml4]
  exact h.descend hc hc.forest.root (by simpa using hq) hc.root_old hd

/-- A copy stays one while only tables further up the path change. -/
theorem Copied.stable {D' : Nat → Prop} {w : Path} (h : Adds d s tag D s' tag' D')
    (hd : tag d = some w) : ∀ {k : Nat} {p : Path} {u t : Nat}, w.length < p.length →
      D t → tag t = some p → Copied s₀ s tag D k p u t → Copied s₀ s' tag' D' k p u t
  | 0, _, _, _, _, _, _, _ => trivial
  | k + 1, p, u, t, hlen, ht, htag, hc => by
    intro i c hn
    have htd : t ≠ d := by
      rintro rfl
      rw [hd, Option.some.injEq] at htag
      rw [htag] at hlen
      exact absurd hlen (lt_irrefl _)
    obtain ⟨h1, h2⟩ := hc i c hn
    rw [h.same t ht htd]
    refine ⟨h1, fun hu => ?_⟩
    obtain ⟨c', hD, ht', hn', hu', hcop⟩ := h2 hu
    exact ⟨c', h.sub c' hD, h.tags c' _ ht', hn', hu',
      Copied.stable h hd (by rw [List.length_append, List.length_singleton]; omega) hD ht' hcop⟩

/-- What one turn of a cloning loop does: table `t` of the clone takes over entry `i` of table `u`
    of the current root, with `k` levels of tables below. -/
def Turn (s₀ : Vm) (tag₀ : Nat → Option Path) (k : Nat)
    (body : Nat → Nat → Fin 512 → Vm → Bool × Vm) : Prop :=
  ∀ {s : Vm} {tag : Nat → Option Path} {D : Nat → Prop} {t u : Nat} {p : Path} {i : Fin 512}
    {ok : Bool} {s' : Vm}, Cloning s₀ tag₀ s tag D → D t → tag t = some p → p.length + k = 3 →
    tag u = some p → descend nextTable s.mem s.pml4 p = some u → body t u i s = (ok, s') →
    ∃ tag' D', Cloning s₀ tag₀ s' tag' D' ∧ Adds t s tag D s' tag' D' ∧
      (∀ j, j ≠ i → s'.mem t j = s.mem t j) ∧
      (ok = true → ∀ k', k = k' + 1 → tag₀ u = some p → CopiedEntry s₀ s' tag' D' k' p u t i)

/-- What cloning the table `u` under entry `i` of `t` does. -/
def CloneTable (s₀ : Vm) (tag₀ : Nat → Option Path) (k : Nat)
    (run : Vm → Nat → Nat → Fin 512 → Bool × Vm) : Prop :=
  ∀ {s : Vm} {tag : Nat → Option Path} {D : Nat → Prop} {t u : Nat} {p : Path} {i : Fin 512}
    {ok : Bool} {s' : Vm}, Cloning s₀ tag₀ s tag D → D t → tag t = some p → p.length + k = 2 →
    tag u = some (p ++ [i]) → descend nextTable s.mem s.pml4 (p ++ [i]) = some u →
    run s t u i = (ok, s') →
    ∃ tag' D', Cloning s₀ tag₀ s' tag' D' ∧ Adds t s tag D s' tag' D' ∧
      (∀ j, j ≠ i → s'.mem t j = s.mem t j) ∧
      (ok = true → ∃ c, D' c ∧ tag' c = some (p ++ [i]) ∧ nextTable (s'.mem t i) = some c ∧
        has (s'.mem t i) pageUser = true ∧
        (tag₀ u = some (p ++ [i]) → Copied s₀ s' tag' D' k (p ++ [i]) u c))

/-- A loop of such turns copies the entries it has come to. -/
theorem Turn.loop {k : Nat} {body : Nat → Nat → Fin 512 → Vm → Bool × Vm}
    (hturn : Turn s₀ tag₀ k body) : ∀ {l : List (Fin 512)} {s : Vm} {tag : Nat → Option Path}
      {D : Nat → Prop} {ok : Bool} {s' : Vm}, l.Nodup → Cloning s₀ tag₀ s tag D → D t →
      tag t = some p → p.length + k = 3 → tag u = some p → ¬ D u →
      descend nextTable s.mem s.pml4 p = some u → forEach (body t u) l s = (ok, s') →
      ∃ tag' D', Cloning s₀ tag₀ s' tag' D' ∧ Adds t s tag D s' tag' D' ∧
        (∀ j ∉ l, s'.mem t j = s.mem t j) ∧
        (ok = true → ∀ k', k = k' + 1 → tag₀ u = some p →
          ∀ i ∈ l, CopiedEntry s₀ s' tag' D' k' p u t i)
  | [], s, tag, D, ok, s', _, hc, _, _, _, _, _, _, hl => by
    obtain ⟨rfl, rfl⟩ := Prod.mk.inj hl
    exact ⟨tag, D, hc, Adds.refl t, fun _ _ => rfl, fun _ _ _ _ i hi => by simp at hi⟩
  | i :: l, s, tag, D, ok, s', hnd, hc, ht, htag, hk, hu, hud, hdesc, hl => by
    obtain ⟨hil, hnd⟩ := List.nodup_cons.mp hnd
    rw [forEach] at hl
    rcases hb : body t u i s with ⟨ok₁, s₁⟩
    obtain ⟨tag₁, D₁, hc₁, ha₁, hs₁, he₁⟩ := hturn hc ht htag hk hu hdesc hb
    rw [hb] at hl
    cases ok₁ with
    | false =>
      obtain ⟨rfl, rfl⟩ := Prod.mk.inj hl
      refine ⟨tag₁, D₁, hc₁, ha₁, fun j hj => hs₁ j fun hji => hj (hji ▸ List.mem_cons_self ..), ?_⟩
      intro hok
      simp at hok
    | true =>
      simp only at hl
      have hlen : p.length ≤ 3 := by omega
      obtain ⟨tag₂, D₂, hc₂, ha₂, hs₂, he₂⟩ := Turn.loop hturn hnd hc₁ (ha₁.sub t ht)
        (ha₁.tags t p htag) hk (ha₁.tags u p hu) (ha₁.out u p hu hud)
        (ha₁.descend_root hc hlen hdesc) hl
      refine ⟨tag₂, D₂, hc₂, ha₁.trans ha₂, fun j hj => ?_, fun hok k' hk' hold j hj => ?_⟩
      · rw [List.mem_cons, not_or] at hj
        exact (hs₂ j hj.2).trans (hs₁ j hj.1)
      · rcases List.mem_cons.mp hj with rfl | hj
        · -- the later turns leave the entry and the tables below it alone
          intro c hn
          obtain ⟨h1, h2⟩ := he₁ rfl k' hk' hold c hn
          rw [hs₂ j hil]
          refine ⟨h1, fun hus => ?_⟩
          obtain ⟨c', hD, ht', hn', hu', hcop⟩ := h2 hus
          exact ⟨c', ha₂.sub c' hD, ha₂.tags c' _ ht', hn', hu', Copied.stable ha₂
            (ha₁.tags t p htag) (by rw [List.length_append, List.length_singleton]; omega) hD ht'
            hcop⟩
        · exact he₂ hok k' hk' hold j hj

/-! ### The functions -/

theorem Adds.mapped {d : Nat} (hc : Cloning s₀ tag₀ s tag D)
    (hm : Mapped Window Window s tag s' tag') : Adds d s tag D s' tag' D :=
  ⟨fun _ h => h, fun _ _ _ h => h, hm.tags, fun t ht _ => (hc.mapped hm).2 t ht,
    fun t p i c ht hp _ hn => hm.keep t p i c ht hp hn, hm.pml4⟩

theorem Adds.write (hd : D d) : Adds d s tag D (writeEntry s d i e) tag D :=
  ⟨fun _ h => h, fun _ _ _ h => h, fun _ _ h => h, fun _ _ hne => writeEntry_frame hne,
    fun t p i c _ _ htd _ => by rw [writeEntry_frame (by rintro rfl; exact htd hd)], rfl⟩

/-- A table that joined the clone in between is none of those there were. -/
theorem Adds.trans_new {s'' : Vm} {tag'' : Nat → Option Path} {D' D'' : Nat → Prop}
    (h : Adds d s tag D s' tag' D') (h' : Adds f s' tag' D' s'' tag'' D'') (hf : tag f = none)
    (hnew : ∀ t, D t → ∃ p, tag t = some p) : Adds d s tag D s'' tag'' D'' := by
  have hne : ∀ t, D t → t ≠ f := by
    rintro t ht rfl
    obtain ⟨p, hp⟩ := hnew t ht
    rw [hf] at hp
    simp at hp
  refine ⟨fun t ht => h'.sub t (h.sub t ht),
    fun t p ht hd => h'.out t p (h.tags t p ht) (h.out t p ht hd),
    fun t p ht => h'.tags t p (h.tags t p ht),
    fun t ht htd => (h'.same t (h.sub t ht) (hne t ht)).trans (h.same t ht htd),
    fun t p i c ht hp hd hc => ?_, h'.pml4.trans h.pml4⟩
  have h1 := h.keep t p i c ht hp hd hc
  rw [h'.keep t p i c (h.tags t p ht) hp (h.out t p ht hd) (by rw [h1]; exact hc), h1]

/-- The entry of a page copies to a frame of its own. -/
theorem clonePte_turn (im : Image) : Turn s₀ tag₀ 0 (clonePte im) := by
  intro s tag D t u p i ok s' hc ht htag hk hu hdesc hb
  have hwrite : ∀ {s₂ : Vm} {tag₂ : Nat → Option Path} {e : Word}, Cloning s₀ tag₀ s₂ tag₂ D →
      tag₂ t = some p → (has e pagePresent = true → has e pageUser = true →
        bitmapTest s₀ (entryFrame e) = false ∧ tag₂ (entryFrame e) = none ∧
          bitmapTest s₂ (entryFrame e) = true) →
      Cloning s₀ tag₀ (writeEntry s₂ t i e) tag₂ D := fun h₂ ht₂ hl =>
    h₂.write ht ht₂ (fun h => by omega) (fun h => by omega) (fun h => by omega) fun _ => hl
  have hvac : ∀ k', 0 = k' + 1 → tag₀ u = some p →
      CopiedEntry s₀ s' tag D k' p u t i := fun k' hk' => by omega
  unfold clonePte at hb
  dsimp only at hb
  split at hb
  · obtain ⟨-, rfl⟩ := Prod.mk.inj hb
    exact ⟨tag, D, hc, Adds.refl t, fun _ _ => rfl, fun _ => hvac⟩
  split at hb
  · next hus =>
    obtain ⟨-, rfl⟩ := Prod.mk.inj hb
    refine ⟨tag, D, hwrite hc htag fun _ h => ?_, Adds.write ht, fun j hj => writeEntry_other ?_,
      fun _ => hvac⟩
    · rw [h] at hus; simp at hus
    · exact fun h => hj (Prod.mk.inj h).2
  rcases ha : pagingAllocPage s with ⟨_ | a, s₁⟩
  · rw [ha] at hb
    obtain ⟨-, rfl⟩ := Prod.mk.inj hb
    rw [pagingAllocPage_none hc.forest.null ha] at hvac ⊢
    exact ⟨tag, D, hc, Adds.refl t, fun _ _ => rfl, fun _ => hvac⟩
  obtain ⟨f, rfl, hpos, hmax, -, hfree, rfl⟩ := pagingAllocPage_some ha
  have hlt : f < 2 ^ 40 := by simp only [maxFrames, maxPhysMem, pageSize] at hmax; omega
  have hfree₀ : bitmapTest s₀ f = false := by
    rcases hb' : bitmapTest s₀ f with _ | _
    · rfl
    · have := hc.changed.bits f hb'
      rw [hfree] at this; simp at this
  have hft := hc.forest.untagged hfree
  simp only [ha] at hb
  rcases hcp : pagingCopyFrame im (bitmapSet s f) (f * pageSize)
    (entryFrame (s.mem u i) * pageSize) with ⟨ok₂, s₂⟩
  obtain ⟨tag₂, hm₂, hf₂, hb₂⟩ := pagingCopyFrame_mapped hc.forest (Mapped.take hc.forest f) hfree
    hft (by rw [bitmapTest_bitmapSet]; simp) hlt hcp
  simp only [hcp] at hb
  cases ok₂ with
  | false =>
    obtain ⟨rfl, rfl⟩ := Prod.mk.inj hb
    have hm₃ := hm₂.release hfree hf₂
    refine ⟨tag₂, D, (hc.mapped hm₃).1, Adds.mapped hc hm₃, fun j _ => ?_, fun h => by simp at h⟩
    rw [(hc.mapped hm₃).2 t ht]
  | true =>
    obtain ⟨-, rfl⟩ := Prod.mk.inj hb
    have hframe : entryFrame (BitVec.ofNat 64 (f * pageSize) ||| (s.mem u i &&& ~~~pteAddrMask)) = f := by
      have hz : s.mem u i &&& ~~~pteAddrMask &&& pteAddrMask = 0#64 := by
        rw [BitVec.and_assoc]; simp
      rw [entryFrame_or hz, ofNat_frame (Nat.mul_mod_left ..), frame_div f,
        entryFrame_frameWord hlt]
    refine ⟨tag₂, D, hwrite (hc.mapped hm₂).1 (hm₂.tags t p htag) fun _ _ => ?_,
      (Adds.mapped hc hm₂).trans (Adds.write ht), fun j hj => ?_, fun _ k' hk' => by omega⟩
    · rw [hframe]; exact ⟨hfree₀, hf₂, hb₂⟩
    · rw [writeEntry_other (fun h => hj (Prod.mk.inj h).2), (hc.mapped hm₂).2 t ht]

/-- An entry without user access is shared; one with it leads to a table that is cloned. -/
theorem CloneTable.turn {k : Nat} {run : Vm → Nat → Nat → Fin 512 → Bool × Vm}
    (hsub : CloneTable s₀ tag₀ k run) {body : Nat → Nat → Fin 512 → Vm → Bool × Vm}
    (h0 : ∀ t u i s, has (s.mem u i) pagePresent = false → body t u i s = (true, s))
    (h1 : ∀ t u i s, has (s.mem u i) pagePresent = true → has (s.mem u i) pageUser = false →
      body t u i s = (true, writeEntry s t i (s.mem u i)))
    (h2 : ∀ t u i s, has (s.mem u i) pagePresent = true → has (s.mem u i) pageUser = true →
      has (s.mem u i) pageHuge = false → body t u i s =
        run (touch s (entryFrame (s.mem u i) * pageSize)) t (entryFrame (s.mem u i)) i) :
    Turn s₀ tag₀ (k + 1) body := by
  intro s tag D t u p i ok s' hc ht htag hk hu hdesc hb
  have hf := hc.forest
  -- a pointer of the starting state is still the entry
  have hkeep : tag₀ u = some p → ∀ c, nextTable (s₀.mem u i) = some c → s.mem u i = s₀.mem u i :=
    fun hold c hn => hc.changed.keep u p i c hold (by omega) hn
  cases hpr : has (s.mem u i) pagePresent with
  | false =>
    rw [h0 t u i s hpr] at hb
    obtain ⟨-, rfl⟩ := Prod.mk.inj hb
    refine ⟨tag, D, hc, Adds.refl t, fun _ _ => rfl, fun _ k' _ hold c hn => ?_⟩
    have := (nextTable_some hn).1
    rw [← hkeep hold c hn, hpr] at this
    simp at this
  | true =>
    cases hus : has (s.mem u i) pageUser with
    | false =>
      rw [h1 t u i s hpr hus] at hb
      obtain ⟨-, rfl⟩ := Prod.mk.inj hb
      refine ⟨tag, D, hc.write ht htag ?_ (fun hl => hf.upper u p i hu hl)
        (fun hl => hf.huge u p i hu hl) (fun hl => by omega), Adds.write ht,
        fun j hj => writeEntry_other fun h => hj (Prod.mk.inj h).2, fun _ k' _ hold c hn => ?_⟩
      · intro hl g hg
        refine ⟨hf.tagged u p i g hu hl hg, fun h => ?_, fun _ => ?_, hf.writable u p i g hu hl hg⟩
        · rw [hus] at h; simp at h
        · rw [descend_append, hdesc, Option.bind_some, descend, hg]; rfl
      · rw [writeEntry_self, ← hkeep hold c hn]
        refine ⟨fun _ => rfl, fun h => ?_⟩
        rw [hus] at h; simp at h
    | true =>
      have hhuge : has (s.mem u i) pageHuge = false := by
        rcases Nat.lt_or_ge p.length 2 with hl | hl
        · exact hf.upper u p i hu hl hpr
        · by_contra hc'
          rw [Bool.not_eq_false] at hc'
          have := (hf.huge u p i hu (by omega) hpr hc').2
          rw [hus] at this
          simp at this
      have hn := nextTable_eq hpr hhuge
      have hct := hf.tagged u p i _ hu (by omega) hn
      have hm : Mapped Window Window s tag (touch s (entryFrame (s.mem u i) * pageSize)) tag :=
        Mapped.touch hf _
      rw [h2 t u i s hpr hus hhuge] at hb
      obtain ⟨tag', D', hc', ha', hs', hok'⟩ := hsub (hc.mapped hm).1 ht htag (by omega) hct
        (show descend nextTable s.mem s.pml4 (p ++ [i]) = _ by
          rw [descend_append, hdesc, Option.bind_some, descend, hn]; rfl) hb
      refine ⟨tag', D', hc', (Adds.mapped hc hm).trans ha', fun j hj => hs' j hj,
        fun hok k' hk' hold c hnc => ?_⟩
      obtain rfl : k = k' := by omega
      have he := hkeep hold c hnc
      obtain ⟨c', hD, ht', hn', hu', hcop⟩ := hok' hok
      rw [← he] at hnc ⊢
      rw [hn, Option.some.injEq] at hnc
      refine ⟨fun h => ?_, fun _ => ⟨c', hD, ht', hn', hu', ?_⟩⟩
      · rw [hus] at h; simp at h
      · rw [← hnc]
        refine hcop (hc.start.tagged u p i _ hold (by omega) ?_)
        rw [← he]; exact hn

/-- A table is cloned by a fresh one that a loop of turns fills. -/
theorem Turn.table (im : Image) {k : Nat} {body : Nat → Nat → Fin 512 → Vm → Bool × Vm}
    (hturn : Turn s₀ tag₀ k body) {run : Vm → Nat → Nat → Fin 512 → Bool × Vm}
    (hrun : ∀ s t u i, run s t u i = match pagingAllocTable im s with
      | (none, s) => (false, s)
      | (some c, s) => forEach (body c u) (List.finRange 512)
          (writeEntry s t i (frameWord c ||| cloneFlags))) :
    CloneTable s₀ tag₀ k run := by
  intro s tag D t u p i ok s' hc ht htag hk hu hdesc hr
  rw [hrun] at hr
  rcases ha : pagingAllocTable im s with ⟨_ | f, s₁⟩
  · rw [ha] at hr
    obtain ⟨rfl, rfl⟩ := Prod.mk.inj hr
    rw [pagingAllocTable_none hc.forest.null ha]
    exact ⟨tag, D, hc, Adds.refl t, fun _ _ => rfl, fun h => by simp at h⟩
  have hf := pagingAllocTable_some hc.forest.null ha
  have hft := hc.forest.untagged hf.free
  have htf : t ≠ f := hc.forest.ne_free htag hf.free
  have hlen : (p ++ [i]).length = p.length + 1 := by simp
  have hn : nextTable (frameWord f ||| cloneFlags) = some f := tableFlags_user.next hf.lt_addr
  have hus : has (frameWord f ||| cloneFlags) pageUser = true := by
    rw [TableFlags.user]; decide
  obtain ⟨-, hh, -⟩ := nextTable_some hn
  simp only [ha] at hr
  -- the fresh table, empty, and the entry that points at it
  have h₁ := hc.table hf (p := p ++ [i]) (by omega)
  have htag₁ : Function.update tag f (some (p ++ [i])) t = some p := hc.forest.keep_tag hf.free htag
  have h₂ := h₁.write (d := t) (i := i) (e := frameWord f ||| cloneFlags) (Or.inl ht) htag₁
    (fun _ g hg => by
      rw [hn, Option.some.injEq] at hg
      subst hg
      exact ⟨Function.update_self .., fun _ => Or.inr rfl, fun h => absurd (Or.inr rfl) h,
        tableFlags_user.entry⟩)
    (fun _ _ => hh) (fun _ _ h => by rw [hh] at h; simp at h) (fun h => by omega)
  have ha₂ : Adds t s tag D (writeEntry s₁ t i (frameWord f ||| cloneFlags))
      (Function.update tag f (some (p ++ [i]))) (fun t => D t ∨ t = f) := by
    refine ⟨fun _ h => Or.inl h, fun x q hx hxd => ?_, fun x q hx => hc.forest.keep_tag hf.free hx,
      fun x hx hxt => ?_, fun x q j c hx hq hxd hnx => ?_, hf.pml4⟩
    · rintro (h | rfl)
      · exact hxd h
      · exact hc.forest.ne_free hx hf.free rfl
    · obtain ⟨q, hq⟩ := (hc.new x hx).2
      rw [writeEntry_frame hxt, hf.old hc.forest hq]
    · rw [writeEntry_frame (by rintro rfl; exact hxd ht), hf.old hc.forest hx]
  have hud : ¬ D u := avoids hc.forest hc.closed hc.forest.root
    (by rw [hlen, List.length_nil]; omega) hc.root_old hdesc
  obtain ⟨tag', D', hc', ha', hs', he'⟩ := Turn.loop hturn (List.nodup_finRange 512) h₂
    (Or.inr rfl) (Function.update_self ..) (by omega) (ha₂.tags u _ hu) (ha₂.out u _ hu hud)
    (ha₂.descend_root hc (by omega) hdesc) hr
  have hmem : s'.mem t = (writeEntry s₁ t i (frameWord f ||| cloneFlags)).mem t :=
    ha'.same t (Or.inl ht) htf
  refine ⟨tag', D', hc', ha₂.trans_new ha' hft fun x hx => (hc.new x hx).2, fun j hj => ?_,
    fun hok => ⟨f, ha'.sub f (Or.inr rfl), ha'.tags f _ (Function.update_self ..), ?_, ?_, ?_⟩⟩
  · rw [hmem, writeEntry_other (fun h => hj (Prod.mk.inj h).2), hf.other t htf]
  · rw [hmem, writeEntry_self]; exact hn
  · rw [hmem, writeEntry_self]; exact hus
  · intro hold
    cases k with
    | zero => trivial
    | succ k => exact fun j => he' hok k rfl hold j (List.mem_finRange j)

theorem pagingCloneUserPt_table (im : Image) : CloneTable s₀ tag₀ 0 (pagingCloneUserPt im) :=
  Turn.table im (clonePte_turn im) fun _ _ _ _ => rfl

theorem clonePde_turn (im : Image) : Turn s₀ tag₀ 1 (clonePde im) :=
  CloneTable.turn (pagingCloneUserPt_table im) (fun _ _ _ _ h => by simp [clonePde, h])
    (fun _ _ _ _ h h' => by simp [clonePde, h, h']) fun _ _ _ _ h h' h'' => by
      simp [clonePde, h, h', h'']

theorem pagingCloneUserPd_table (im : Image) : CloneTable s₀ tag₀ 1 (pagingCloneUserPd im) :=
  Turn.table im (clonePde_turn im) fun _ _ _ _ => rfl

theorem clonePdpte_turn (im : Image) : Turn s₀ tag₀ 2 (clonePdpte im) :=
  CloneTable.turn (pagingCloneUserPd_table im) (fun _ _ _ _ h => by simp [clonePdpte, h])
    (fun _ _ _ _ h h' => by simp [clonePdpte, h, h']) fun _ _ _ _ h h' _ => by
      simp [clonePdpte, h, h']

theorem pagingCloneUserPdpt_table (im : Image) : CloneTable s₀ tag₀ 2 (pagingCloneUserPdpt im) :=
  Turn.table im (clonePdpte_turn im) fun _ _ _ _ => rfl

theorem clonePml4e_turn (im : Image) : Turn s₀ tag₀ 3 (clonePml4e im true) :=
  CloneTable.turn (pagingCloneUserPdpt_table im) (fun _ _ _ _ h => by simp [clonePml4e, h])
    (fun _ _ _ _ h h' => by simp [clonePml4e, h, h']) fun _ _ _ _ h h' _ => by
      simp [clonePml4e, h, h']

theorem Cloning.begin (h : Forest s tag) : Cloning s tag s tag fun _ => False :=
  ⟨h, (Mapped.refl h).toChanged, fun _ h => h.elim, fun _ _ _ _ _ _ _ _ h => h,
    fun _ _ _ _ h => h.elim, fun _ _ _ _ h => h.elim, fun _ _ _ h => h.elim⟩

/-- `paging_clone_current_address_space (1)`: the new root is one of the clone's tables and copies
    the current one. -/
theorem cloneUser_spec (h : Forest s tag) {res : Option Nat}
    (hr : pagingCloneCurrentAddressSpace im s true = (res, s')) :
    ∃ tag' D, Cloning s tag s' tag' D ∧
      ∀ r, res = some r → D r ∧ tag' r = some [] ∧ Copied s s' tag' D 3 [] s.pml4 r := by
  rw [pagingCloneCurrentAddressSpace] at hr
  have h₀ := Cloning.begin h
  rcases ha : pagingAllocTable im s with ⟨_ | f, s₁⟩
  · rw [ha] at hr
    obtain ⟨rfl, rfl⟩ := Prod.mk.inj hr
    rw [pagingAllocTable_none h.null ha]
    exact ⟨tag, _, h₀, fun r hr => by simp at hr⟩
  have hf := pagingAllocTable_some h.null ha
  have h₁ := h₀.table hf (p := []) (by simp)
  have hroot : s.pml4 ≠ f := h.ne_free h.root hf.free
  simp only [ha] at hr
  rcases hl : forEach (clonePml4e im true f s.pml4) (List.finRange 512) s₁ with ⟨ok, s₂⟩
  rw [hl] at hr
  obtain ⟨tag', D', hc', ha', -, he'⟩ := Turn.loop (clonePml4e_turn im)
    (List.nodup_finRange 512) h₁ (Or.inr rfl) (Function.update_self ..) (by simp)
    (by rw [Function.update_of_ne hroot]; exact h.root) (by simp [hroot])
    (by rw [hf.pml4]; rfl) hl
  cases ok with
  | false =>
    obtain ⟨rfl, rfl⟩ := Prod.mk.inj hr
    exact ⟨tag', D', hc', fun r hr => by simp at hr⟩
  | true =>
    obtain ⟨rfl, rfl⟩ := Prod.mk.inj hr
    refine ⟨tag', D', hc', fun r hr => ?_⟩
    rw [Option.some.injEq] at hr
    subst hr
    exact ⟨ha'.sub _ (Or.inr rfl), ha'.tags _ _ (Function.update_self ..),
      fun i => he' rfl 2 rfl h.root i (List.mem_finRange i)⟩

/-! ### Sharing everything -/

/-- The loop of a clone that copies no user memory takes over every entry that is present. -/
theorem shareLoop (hne : u ≠ f) : ∀ (l : List (Fin 512)) (s : Vm),
    forEach (clonePml4e im false f u) l s = (true, writeFrame s f fun i =>
      if i ∈ l ∧ has (s.mem u i) pagePresent = true then s.mem u i else s.mem f i)
  | [], s => by simp [forEach, writeFrame]
  | i :: l, s => by
    have hmem : ∀ e, (writeEntry s f i e).mem u = s.mem u := fun e => writeEntry_frame hne
    rw [forEach, clonePml4e]
    cases hpr : has (s.mem u i) pagePresent with
    | false =>
      rw [if_pos (by rfl)]
      simp only
      rw [shareLoop hne l s]
      congr 1
      congr 1
      funext j
      rcases eq_or_ne j i with rfl | hj
      · simp only [hpr, Bool.false_eq_true, and_false, if_false]
      · simp only [List.mem_cons, hj, false_or]
    | true =>
      rw [if_neg (by simp), if_pos (by simp)]
      simp only
      rw [shareLoop hne l _, hmem]
      congr 1
      simp only [writeFrame, writeEntry, Function.update_idem, Function.update_self]
      congr 2
      funext j
      rcases eq_or_ne j i with rfl | hj
      · simp [hpr]
      · simp only [List.mem_cons, hj, false_or, Function.update_of_ne hj]

/-- `paging_clone_current_address_space (0)`: the new root has the entries of the current one. -/
theorem cloneShared_spec (h : Forest s tag) {res : Option Nat}
    (hr : pagingCloneCurrentAddressSpace im s false = (res, s')) :
    (res = none ∧ s' = s) ∨ ∃ r s₁, res = some r ∧ Fresh s s₁ r (fun _ => 0#64) ∧
      s' = writeFrame s₁ r fun i =>
        if has (s.mem s.pml4 i) pagePresent = true then s.mem s.pml4 i else 0#64 := by
  rw [pagingCloneCurrentAddressSpace] at hr
  rcases ha : pagingAllocTable im s with ⟨_ | f, s₁⟩
  · rw [ha] at hr
    obtain ⟨rfl, rfl⟩ := Prod.mk.inj hr
    exact Or.inl ⟨rfl, pagingAllocTable_none h.null ha⟩
  have hf := pagingAllocTable_some h.null ha
  have hroot : s.pml4 ≠ f := h.ne_free h.root hf.free
  simp only [ha, shareLoop hroot] at hr
  obtain ⟨rfl, rfl⟩ := Prod.mk.inj hr
  refine Or.inr ⟨f, s₁, rfl, hf, ?_⟩
  simp only [List.mem_finRange, true_and, hf.other _ hroot, hf.self]

/-- The new root joins the forest, and translates as the current one does. -/
theorem cloneShared_forest (h : Forest s tag) (hf : Fresh s s₁ r fun _ => 0#64)
    (hs : s' = writeFrame s₁ r fun i =>
      if has (s.mem s.pml4 i) pagePresent = true then s.mem s.pml4 i else 0#64) :
    Changed Window Window s tag s' (Function.update tag r (some [])) ∧
      ∀ v, walk s'.mem r v = walk s.mem s.pml4 v := by
  have hfill := hf.fill fun i =>
    if has (s.mem s.pml4 i) pagePresent = true then s.mem s.pml4 i else 0#64
  rw [← hs] at hfill
  have hmem : ∀ u w, tag u = some w → s'.mem u = s.mem u := fun u w hu => hfill.old h hu
  refine ⟨hfill.changed h (by simp) fun _ i => ?_, fun v => ?_⟩
  · split
    · exact Or.inr ⟨s.pml4, h.root, rfl⟩
    · exact Or.inl (by simp)
  · -- the first entry is the same or absent in both, and what is below it is the same
    rw [← h.walk_congr hmem h.root]
    have hi : s'.mem r (pml4Index v) = s'.mem s.pml4 (pml4Index v) ∨
        has (s'.mem r (pml4Index v)) pagePresent = false ∧
          has (s'.mem s.pml4 (pml4Index v)) pagePresent = false := by
      rw [hfill.self, hmem _ _ h.root]
      dsimp only
      split
      · exact Or.inl rfl
      · next hc => exact Or.inr ⟨by simp, by simpa using hc⟩
    simp only [walk, pathOf, look]
    rcases hi with hi | ⟨h1, h2⟩
    · rw [hi]
    · simp [translator, nextTable_none h1, nextTable_none h2, leafEntry]

end TypeOS.Paging
