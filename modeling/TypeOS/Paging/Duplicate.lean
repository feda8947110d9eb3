import TypeOS.Paging.Clone
import TypeOS.Paging.Contents

/-! What a forked task finds in its memory.

    `paging_clone_current_address_space (1)` goes down the tables of the current address space. A page
    of the user gets a frame that was free, filled with the words of the page's own frame; whatever is
    not the user's is shared. So the new address space translates every page as the current one does,
    but for the pages of the user, which are duplicates. -/

namespace TypeOS.Paging
open Radix

variable {im : Image} {s s' s₁ s₀ : Vm} {tag tag₀ tag' : Nat → Option Path} {D D' : Nat → Prop}
  {t f d g v r u k : Nat} {p q w : Path} {i : Fin 512} {e : Word}

/-- A translation through a table that a path leads to: the path's entries only take rights away. -/
theorem look_through {m : Memory} (h : descend translator.next m t p = some f) (hq : q ≠ []) :
    look translator m t (p ++ q)
      = (look translator m f q).map fun x => (x.1, userPath m t p && x.2) := by
  rw [look_descend h hq]
  congr 1
  funext x
  exact viaPath_translator m p t x

/-! ### The words of a frame -/

/-- Where `paging_copy_frame` returns 0, the frame has the words of the other, whichever way they were
    copied. -/
theorem pagingCopyFrame_words (h : Forest s tag) (hg : tag g = none) (hb : bitmapTest s g = true)
    (hglt : g < 2 ^ 40) (hfree : bitmapTest s f = false) (hflt : f < 2 ^ 40)
    (hc : pagingCopyFrame im (bitmapSet s f) (f * pageSize) (g * pageSize) = (true, s')) :
    s'.mem f = s.mem g := by
  have h₀ : Forest (bitmapSet s f) tag := (Mapped.take (E := Window) (W := Window) h f).forest
  have hb₀ : ∀ x, bitmapTest s x = true → bitmapTest (bitmapSet s f) x = true := fun x hx => by
    rw [bitmapTest_bitmapSet, hx, Bool.or_true]
  have hf₀ : bitmapTest (bitmapSet s f) f = true := by rw [bitmapTest_bitmapSet]; simp
  have hft := h.untagged hfree
  rw [pagingCopyFrame] at hc
  split at hc
  · obtain ⟨-, rfl⟩ := Prod.mk.inj hc
    rw [frame_div f, frame_div g]
    simp only [writeFrame, Function.update_self]
    change (bitmapSet s f).mem g = s.mem g
    rw [bitmapSet_mem]
  · rcases hm₁ : pagingMapPage im (bitmapSet s f) kernelKmapWindow (g * pageSize) pagePresent
      with ⟨_ | _, s₁⟩
    · rw [hm₁] at hc
      cases hc
    rw [hm₁] at hc
    dsimp only at hc
    rcases hm₂ : pagingMapPage im s₁ (kernelKmapWindow + pageSize) (f * pageSize)
      (pagePresent ||| pageWritable) with ⟨_ | _, s₂⟩
    · rw [hm₂] at hc
      cases hc
    obtain ⟨tag₁, g₁⟩ := pagingMapPage_mapped h₀ hm₁
    obtain ⟨tag₂, g₂⟩ := pagingMapPage_mapped g₁.forest hm₂
    -- the two pages of the window lead to the two frames
    have hsrc₁ : pagingVirtToPhys s₁ kernelKmapWindow = g * pageSize := by
      have := mapped_phys h₀ hglt tableFlags_kernel (by decide) (by decide) hm₁ (o := 0) pageSize_pos
        (by decide) rfl
      simpa using this
    have hsrc : pagingVirtToPhys s₂ kernelKmapWindow = g * pageSize := by
      rw [pagingVirtToPhys, g₂.forest.virtToPhys_eq g₂.forest.root, g₂.pml4,
        g₂.walks _ _ g₁.forest.root fun hc => absurd hc.1 (by decide), ← g₁.forest.virtToPhys_eq g₁.forest.root]
      exact hsrc₁
    have hdst : pagingVirtToPhys s₂ (kernelKmapWindow + pageSize) / pageSize = f :=
      mapped_frame g₁.forest hflt (by decide) hm₂
    rw [hm₂] at hc
    simp only [copyThrough, hdst, hsrc, frame_div g] at hc
    obtain ⟨-, rfl⟩ := Prod.mk.inj hc
    have hg₁ := g₁.untagged hg (hb₀ g hb)
    have hf₁ := g₁.untagged hft hf₀
    have hf₂ := g₂.untagged hf₁ (g₁.bits f hf₀)
    have hwords : s₂.mem g = s.mem g := by
      rw [g₂.frames g hg₁ (g₁.bits g (hb₀ g hb)), g₁.frames g hg (hb₀ g hb), bitmapSet_mem]
    have hfill := (Edited.fill (W := fun _ => False) g₂.forest hf₂ (s₂.mem g)).forest
    obtain ⟨-, -, -, hleft₁⟩ := pagingUnmapPage_keeps hfill kernelKmapWindow
    obtain ⟨-, -, -, hleft₂⟩ := pagingUnmapPage_keeps
      (pagingUnmapPage_mapped hfill kernelKmapWindow).forest (kernelKmapWindow + pageSize)
    rw [hleft₂ f hf₂, hleft₁ f hf₂, ← hwords]
    exact Function.update_self ..

/-! ### Duplicates -/

/-- The frame of `e'` was free, has the words of that of `e`, and is a page; the flags are those of `e`. -/
structure Own (s₀ s : Vm) (tag : Nat → Option Path) (e e' : Word) : Prop where
  entry : e' = frameWord (entryFrame e') ||| (e &&& ~~~pteAddrMask)
  free : bitmapTest s₀ (entryFrame e') = false
  words : s.mem (entryFrame e') = s₀.mem (entryFrame e)
  page : tag (entryFrame e') = none
  used : bitmapTest s (entryFrame e') = true

/-- What becomes of a translation: the user's has a duplicate, every other one is the same. -/
def Duplicate (s₀ s : Vm) (tag : Nat → Option Path) : Option (Word × Bool) → Option (Word × Bool) → Prop
  | some (e, true), b => ∃ e', b = some (e', true) ∧ Own s₀ s tag e e'
  | a, b => b = a

/-- A frame in use that is no table. -/
structure PageFrame (s : Vm) (tag : Nat → Option Path) (f : Nat) : Prop where
  untagged : tag f = none
  used : bitmapTest s f = true

theorem PageFrame.edited {F : Nat → Prop} {W : Path → Prop} (h : PageFrame s tag f)
    (g : Edited F W s tag s' tag') : PageFrame s' tag' f :=
  ⟨g.untagged f h.untagged h.used, g.bits f h.used⟩

/-- The frames of the user's pages are in use and no tables, but for the pages of the window. -/
def UserFrames (s : Vm) (tag : Nat → Option Path) (root : Nat) : Prop :=
  ∀ v e, ¬ Window (pathOf v) → walk s.mem root v = some (e, true) → PageFrame s tag (entryFrame e)

/-- Entry `i` of a page table of the clone is one of a page of the user. -/
structure UserLeaf (s : Vm) (tag : Nat → Option Path) (D : Nat → Prop) (t : Nat) (i : Fin 512) : Prop where
  mine : D t
  last : ∃ p, tag t = some p ∧ p.length = 3
  present : has (s.mem t i) pagePresent = true
  user : has (s.mem t i) pageUser = true

/-- A clone under way whose pages of the user have different frames. -/
structure Copying (s₀ : Vm) (tag₀ : Nat → Option Path) (s : Vm) (tag : Nat → Option Path)
    (D : Nat → Prop) : Prop extends Cloning s₀ tag₀ s tag D where
  apart : ∀ t i t' i', UserLeaf s tag D t i → UserLeaf s tag D t' i' →
    entryFrame (s.mem t i) = entryFrame (s.mem t' i') → (t, i) = (t', i')

namespace Copying

theorem leaf_used (h : Copying s₀ tag₀ s tag D) (hl : UserLeaf s tag D t i) :
    bitmapTest s (entryFrame (s.mem t i)) = true := by
  obtain ⟨p, ht, hp⟩ := hl.last
  exact (h.leaves t p i hl.mine ht hp hl.present hl.user).2.2

/-- Pages that do not change stay apart. -/
theorem apart_of (h : Copying s₀ tag₀ s tag D)
    (hold : ∀ t i, UserLeaf s' tag' D' t i → UserLeaf s tag D t i ∧ s'.mem t i = s.mem t i)
    (t : Nat) (i : Fin 512) (t' : Nat) (i' : Fin 512) (hl : UserLeaf s' tag' D' t i)
    (hl' : UserLeaf s' tag' D' t' i') (he : entryFrame (s'.mem t i) = entryFrame (s'.mem t' i')) :
    (t, i) = (t', i') := by
  obtain ⟨h₁, hsame⟩ := hold t i hl
  obtain ⟨h₂, hsame'⟩ := hold t' i' hl'
  rw [hsame, hsame'] at he
  exact h.apart t i t' i' h₁ h₂ he

/-- Mapping pages of the window leaves the clone alone. -/
theorem leaf_mapped (h : Copying s₀ tag₀ s tag D) (hm : Mapped Window Window s tag s' tag')
    (hl : UserLeaf s' tag' D t i) : UserLeaf s tag D t i ∧ s'.mem t i = s.mem t i := by
  obtain ⟨-, hsame⟩ := h.toCloning.mapped hm
  obtain ⟨p, ht, hp⟩ := hl.last
  obtain ⟨w, hw⟩ := (h.new t hl.mine).2
  have hpw : p = w := by
    rw [hm.tags t w hw, Option.some.injEq] at ht
    exact ht.symm
  have hpr := hl.present
  have hu := hl.user
  rw [hsame t hl.mine] at hpr hu ⊢
  exact ⟨⟨hl.mine, ⟨w, hw, hpw ▸ hp⟩, hpr, hu⟩, rfl⟩

theorem mapped (h : Copying s₀ tag₀ s tag D) (hm : Mapped Window Window s tag s' tag') :
    Copying s₀ tag₀ s' tag' D :=
  ⟨(h.toCloning.mapped hm).1, h.apart_of fun _ _ hl => h.leaf_mapped hm hl⟩

/-- A fresh table has no pages yet. -/
theorem table (h : Copying s₀ tag₀ s tag D) (hf : Fresh s s₁ f fun _ => 0#64) (hp : p.length ≤ 3) :
    Copying s₀ tag₀ s₁ (Function.update tag f (some p)) (fun t => D t ∨ t = f) := by
  refine ⟨h.toCloning.table hf hp, h.apart_of fun t i hl => ?_⟩
  have hpr := hl.present
  have hu := hl.user
  have htf : t ≠ f := by
    rintro rfl
    rw [hf.self] at hpr
    simp at hpr
  obtain ⟨w, hw, hlen⟩ := hl.last
  rw [Function.update_of_ne htf] at hw
  rw [hf.old h.forest hw] at hpr hu ⊢
  exact ⟨⟨hl.mine.resolve_right htf, ⟨w, hw, hlen⟩, hpr, hu⟩, rfl⟩

/-- An entry of the clone is written that is no page of the user, or one with a frame that no other
    page of the clone has. -/
theorem written (h : Copying s₀ tag₀ s tag D) (hc : Cloning s₀ tag₀ (writeEntry s d i e) tag D)
    (hnew : UserLeaf (writeEntry s d i e) tag D d i → ∀ t j, UserLeaf s tag D t j →
      (t, j) ≠ (d, i) → entryFrame (s.mem t j) ≠ entryFrame e) :
    Copying s₀ tag₀ (writeEntry s d i e) tag D := by
  have hold : ∀ t j, UserLeaf (writeEntry s d i e) tag D t j → (t, j) ≠ (d, i) →
      UserLeaf s tag D t j ∧ (writeEntry s d i e).mem t j = s.mem t j := by
    intro t j hl hne
    have hpr := hl.present
    have hu := hl.user
    rw [writeEntry_other hne] at hpr hu ⊢
    exact ⟨⟨hl.mine, hl.last, hpr, hu⟩, rfl⟩
  refine ⟨hc, fun t j t' j' hl hl' he => ?_⟩
  by_cases hne : (t, j) = (d, i)
  · by_cases hne' : (t', j') = (d, i)
    · rw [hne, hne']
    · obtain ⟨rfl, rfl⟩ := Prod.mk.inj hne
      obtain ⟨hold', hsame'⟩ := hold t' j' hl' hne'
      rw [writeEntry_self, hsame'] at he
      exact absurd he.symm (hnew hl t' j' hold' hne')
  · obtain ⟨hold₁, hsame⟩ := hold t j hl hne
    by_cases hne' : (t', j') = (d, i)
    · obtain ⟨rfl, rfl⟩ := Prod.mk.inj hne'
      rw [writeEntry_self, hsame] at he
      exact absurd he (hnew hl' t j hold₁ hne)
    · obtain ⟨hold₂, hsame'⟩ := hold t' j' hl' hne'
      rw [hsame, hsame'] at he
      exact h.apart t j t' j' hold₁ hold₂ he

end Copying

/-! ### Later steps -/

/-- A translation that is not the window's is that of the start. -/
theorem Cloning.walk_start (h : Cloning s₀ tag₀ s tag D) (hv : ¬ Window (pathOf v)) :
    walk s.mem s.pml4 v = walk s₀.mem s₀.pml4 v := by
  rw [h.changed.pml4]
  exact h.changed.walks _ v h.start.root fun hc => hv hc.1

/-- What comes after a step of the clone: of the clone's tables only `d` changes, and no page. -/
structure Later (d : Nat) (s : Vm) (tag : Nat → Option Path) (D : Nat → Prop) (s' : Vm)
    (tag' : Nat → Option Path) (D' : Nat → Prop) : Prop extends Adds d s tag D s' tag' D' where
  untagged : ∀ f, tag f = none → bitmapTest s f = true → tag' f = none
  bits : ∀ f, bitmapTest s f = true → bitmapTest s' f = true
  frames : ∀ f, tag f = none → bitmapTest s f = true → s'.mem f = s.mem f

namespace Later

theorem refl (d : Nat) : Later d s tag D s tag D :=
  ⟨Adds.refl d, fun _ h _ => h, fun _ h => h, fun _ _ _ => rfl⟩

theorem trans {s'' : Vm} {tag'' : Nat → Option Path} {D'' : Nat → Prop}
    (h : Later d s tag D s' tag' D') (h' : Later d s' tag' D' s'' tag'' D'') :
    Later d s tag D s'' tag'' D'' where
  toAdds := h.toAdds.trans h'.toAdds
  untagged := fun f hf hb => h'.untagged f (h.untagged f hf hb) (h.bits f hb)
  bits := fun f hb => h'.bits f (h.bits f hb)
  frames := fun f hf hb => (h'.frames f (h.untagged f hf hb) (h.bits f hb)).trans (h.frames f hf hb)

theorem mapped (h : Cloning s₀ tag₀ s tag D) (hm : Mapped Window Window s tag s' tag') :
    Later d s tag D s' tag' D :=
  ⟨Adds.mapped h hm, fun _ hf hb => hm.untagged hf hb, hm.bits, hm.frames⟩

theorem write (hd : D d) (ht : tag d = some p) : Later d s tag D (writeEntry s d i e) tag D :=
  ⟨Adds.write hd, fun _ hf _ => hf, fun _ hb => hb, fun f hf _ => writeEntry_frame fun hc => by
    rw [hc, ht] at hf
    cases hf⟩

/-- The user may still go where he could. -/
theorem userPath (h : Later d s tag D s' tag' D') (hc : Cloning s₀ tag₀ s tag D) :
    ∀ {q : Path} {t : Nat} {p : Path}, tag t = some p → p.length + q.length ≤ 3 → ¬ D t →
      descend nextTable s.mem t q = some u → Paging.userPath s'.mem t q = Paging.userPath s.mem t q
  | [], _, _, _, _, _, _ => rfl
  | i :: q, t, p, ht, hlen, htd, hd => by
    rw [List.length_cons] at hlen
    obtain ⟨g, hg, hd⟩ := Option.bind_eq_some_iff.mp hd
    have hgt := hc.forest.tagged t p i g ht (by omega) hg
    have hgd := hc.closed t p i g ht (by omega) htd hg
    rw [Paging.userPath, Paging.userPath, h.keep t p i g ht (by omega) htd hg, hg, Option.map_some,
      Option.map_some,
      h.userPath hc hgt (by rw [List.length_append, List.length_singleton]; omega) hgd hd]

/-- Below an entry that stays, the clone translates as it did. -/
theorem look (h : Later d s tag D s' tag' D') (hc : Cloning s₀ tag₀ s tag D)
    (hc' : Cloning s₀ tag₀ s' tag' D') (hd : tag d = some w) (hv : ¬ Window (pathOf v)) :
    ∀ {q : Path} {t : Nat} {p : Path} {i : Fin 512}, D t → tag t = some p → w.length ≤ p.length →
      pathOf v = p ++ i :: q → s'.mem t i = s.mem t i →
      Radix.look translator s'.mem t (i :: q) = Radix.look translator s.mem t (i :: q)
  | [], t, p, i, _, _, _, _, he => by rw [Radix.look, Radix.look, he]
  | j :: q, t, p, i, ht, htag, hw, hq, he => by
    have hlen : p.length + (q.length + 2) = 4 := by
      have := congrArg List.length hq
      simpa [pathOf] using this.symm
    rw [Radix.look, Radix.look, he]
    cases hn : translator.next (s.mem t i) with
    | none => rfl
    | some c =>
      have hct := hc.forest.tagged t p i c htag (by omega) hn
      have hq' : pathOf v = (p ++ [i]) ++ j :: q := by rw [hq]; simp
      dsimp only
      by_cases hcd : D c
      · have hne : c ≠ d := by
          rintro rfl
          rw [hd, Option.some.injEq] at hct
          rw [hct, List.length_append, List.length_singleton] at hw
          omega
        rw [h.look hc hc' hd hv hcd hct (by rw [List.length_append]; omega) hq'
          (congrFun (h.same c hcd hne) j)]
      · -- a table that is shared is on the way of the current root, which translates as it did
        have hu : has (s.mem t i) pageUser = false := by
          by_contra hu
          exact hcd (hc.users t p i c ht htag (by omega) hn (by simpa using hu))
        have hdesc := hc.shared t p i c ht htag (by omega) hn hcd
        have hdesc' := h.toAdds.descend_root hc (by simp; omega) hdesc
        have hwalk : walk s'.mem s'.pml4 v = walk s.mem s.pml4 v :=
          (hc'.walk_start hv).trans (hc.walk_start hv).symm
        rw [walk, walk, hq', look_through hdesc (by simp), look_through hdesc' (by simp)] at hwalk
        have hfst := congrArg (Option.map Prod.fst) hwalk
        simp only [Option.map_map, Function.comp_def] at hfst
        have hvia : translator.via (s.mem t i) = fun x => (x.1, false) := by
          funext x
          simp only [translator, hu, Bool.false_and]
        have := congrArg (Option.map fun e : Word => (e, false)) hfst
        simp only [Option.map_map, Function.comp_def] at this
        rw [hvia]
        exact this

end Later

/-! ### Entries of the clone -/

theorem Own.later {e' : Word} (h : Own s₀ s tag e e') (hl : Later d s tag D s' tag' D') :
    Own s₀ s' tag' e e' where
  entry := h.entry
  free := h.free
  words := (hl.frames _ h.page h.used).trans h.words
  page := hl.untagged _ h.page h.used
  used := hl.bits _ h.used

theorem Duplicate.later {a b : Option (Word × Bool)} (h : Duplicate s₀ s tag a b)
    (hl : Later d s tag D s' tag' D') : Duplicate s₀ s' tag' a b := by
  match a with
  | none => exact h
  | some (e, false) => exact h
  | some (e, true) =>
    obtain ⟨e', hb, hown⟩ := h
    exact ⟨e', hb, hown.later hl⟩

/-- Below entry `i` of `t` the clone has duplicates of the pages of the start. -/
def DuplicatedAt (s₀ s : Vm) (tag : Nat → Option Path) (t : Nat) (p : Path) (i : Fin 512) : Prop :=
  ∀ v q, ¬ Window (pathOf v) → pathOf v = p ++ i :: q →
    Duplicate s₀ s tag (walk s₀.mem s₀.pml4 v) (look translator s.mem t (i :: q))

theorem DuplicatedAt.later (h : DuplicatedAt s₀ s tag t p i) (hl : Later d s tag D s' tag' D')
    (hc : Cloning s₀ tag₀ s tag D) (hc' : Cloning s₀ tag₀ s' tag' D') (hd : tag d = some w)
    (ht : D t) (htag : tag t = some p) (hw : w.length ≤ p.length) (he : s'.mem t i = s.mem t i) :
    DuplicatedAt s₀ s' tag' t p i := by
  intro v q hv hq
  rw [hl.look hc hc' hd hv ht htag hw hq he]
  exact (h v q hv hq).later hl

/-! ### The way of the current root -/

/-- The current root leads along a path that is open to the user. -/
structure Open (s : Vm) (p : Path) (u : Nat) : Prop where
  leads : descend nextTable s.mem s.pml4 p = some u
  user : userPath s.mem s.pml4 p = true

theorem userPath_append {m : Memory} : ∀ {p : Path} {t : Nat}, descend nextTable m t p = some u →
    userPath m t (p ++ [i]) = (userPath m t p && userPath m u [i])
  | [], t, hd => by
    rw [descend, Option.some.injEq] at hd
    rw [hd, List.nil_append, show userPath m u [] = true from rfl, Bool.true_and]
  | j :: p, t, hd => by
    obtain ⟨g, hg, hd⟩ := Option.bind_eq_some_iff.mp hd
    rw [List.cons_append, userPath, userPath, hg, Option.map_some, Option.map_some, Option.getD_some,
      Option.getD_some, userPath_append hd, Bool.and_assoc]

namespace Open

theorem root (s : Vm) : Open s [] s.pml4 := ⟨rfl, rfl⟩

theorem next (h : Open s p u) (hn : nextTable (s.mem u i) = some g) (hu : has (s.mem u i) pageUser = true) :
    Open s (p ++ [i]) g := by
  refine ⟨?_, ?_⟩
  · rw [descend_append, h.leads, Option.bind_some, descend, hn]
    rfl
  · rw [userPath_append h.leads, h.user, userPath, hu, hn]
    rfl

/-- A translation is what the table makes of the rest of its path. -/
theorem walk (h : Open s p u) (hq : pathOf v = p ++ i :: q) :
    Paging.walk s.mem s.pml4 v = look translator s.mem u (i :: q) := by
  rw [Paging.walk, hq, look_through h.leads (by simp), h.user]
  simp only [Bool.true_and]
  exact Option.map_id'

theorem later (h : Open s p u) (hp : p.length ≤ 3) (hl : Later d s tag D s' tag' D')
    (hc : Cloning s₀ tag₀ s tag D) : Open s' p u := by
  refine ⟨hl.toAdds.descend_root hc hp h.leads, ?_⟩
  rw [hl.pml4, hl.userPath hc hc.forest.root (by simpa using hp) hc.root_old h.leads]
  exact h.user

end Open

/-! ### One entry -/

theorem look_absent {m : Memory} (h : has (m t i) pagePresent = false) :
    look translator m t (i :: q) = none := by
  cases q with
  | nil =>
    rw [look]
    exact leafEntry_absent (q := []) h
  | cons j q =>
    rw [look, show translator.next (m t i) = none from nextTable_none h]
    exact leafEntry_absent h

/-- What an entry that is closed to the user leads to is closed to him. -/
theorem look_closed {m : Memory} (h : has (m t i) pageUser = false) :
    look translator m t (i :: q) ≠ some (e, true) := by
  cases q with
  | nil =>
    rw [look]
    change leafEntry (m t i) [] ≠ _
    rw [leafEntry, h]
    split <;> simp
  | cons j q =>
    rw [look]
    split
    · intro hc
      obtain ⟨x, -, hx⟩ := Option.map_eq_some_iff.mp hc
      have hboth : (has (m t i) pageUser && x.2) = true := (Prod.mk.inj hx).2
      rw [h, Bool.false_and] at hboth
      cases hboth
    · change leafEntry (m t i) (j :: q) ≠ _
      cases q with
      | nil =>
        rw [leafEntry, h]
        split <;> simp
      | cons => simp [leafEntry]

theorem duplicate_self {a : Option (Word × Bool)} (h : ∀ e, a ≠ some (e, true)) :
    Duplicate s₀ s tag a a := by
  match a with
  | none => rfl
  | some (e, false) => rfl
  | some (e, true) => exact absurd rfl (h e)

/-- An absent entry stays absent. -/
theorem Cloning.absent (h : Cloning s₀ tag₀ s tag D) (ho : Open s p u)
    (hu : has (s.mem u i) pagePresent = false) (ht : has (s.mem t i) pagePresent = false) :
    DuplicatedAt s₀ s tag t p i := by
  intro v q hv hq
  rw [← h.walk_start hv, ho.walk hq, look_absent hu, look_absent ht]
  rfl

/-- An entry that is closed to the user is shared. -/
theorem Copying.share (h : Copying s₀ tag₀ s tag D) (hd : D t) (ht : tag t = some p)
    (hu : tag u = some p) (ho : Open s p u) (hno : has (s.mem u i) pageUser = false) :
    Copying s₀ tag₀ (writeEntry s t i (s.mem u i)) tag D ∧
      DuplicatedAt s₀ (writeEntry s t i (s.mem u i)) tag t p i := by
  have hf := h.forest
  have hlen := hf.depth t p ht
  have hud : ¬ D u := avoids hf h.closed hf.root (by simpa using hlen) h.root_old ho.leads
  have hc : Cloning s₀ tag₀ (writeEntry s t i (s.mem u i)) tag D := by
    refine h.write hd ht (fun hl g hg => ?_) (fun hl => hf.upper u p i hu hl)
      (fun hl => hf.huge u p i hu hl) (fun _ _ hc => ?_)
    · refine ⟨hf.tagged u p i g hu hl hg, fun hc => ?_, fun _ => ?_, hf.writable u p i g hu hl hg⟩
      · rw [hno] at hc
        cases hc
      · rw [descend_append, ho.leads, Option.bind_some, descend, hg]
        rfl
    · rw [hno] at hc
      cases hc
  refine ⟨h.written hc fun hl => ?_, fun v q hv hq => ?_⟩
  · have hus := hl.user
    rw [writeEntry_self, hno] at hus
    cases hus
  -- below it the tables are those of the current root, in none of which the entry is
  have hsame : look translator (writeEntry s t i (s.mem u i)).mem t (i :: q) =
      look translator s.mem u (i :: q) := by
    cases q with
    | nil => rw [look, look, writeEntry_self]
    | cons j q =>
      rw [look, look, writeEntry_self]
      cases hn : translator.next (s.mem u i) with
      | none => rfl
      | some c =>
        have hlen' : p.length + (q.length + 2) = 4 := by
          have := congrArg List.length hq
          simpa [pathOf] using this.symm
        have hct := hf.tagged u p i c hu (by omega) hn
        have hcd := h.closed u p i c hu (by omega) hud hn
        dsimp only
        rw [hf.tagged.look_avoid hct (by simp; omega) fun x y k hx hk hdesc => writeEntry_other ?_]
        rintro hc
        refine avoids hf h.closed hct ?_ hcd hdesc ((Prod.mk.inj hc).1 ▸ hd)
        have := hk.length_le
        simp only [List.length_append, List.length_cons, List.length_nil] at this ⊢
        omega
  rw [hsame, ← h.walk_start hv, ho.walk hq]
  exact duplicate_self fun e => look_closed hno

/-! ### The turns -/

/-- What one turn of a cloning loop does that goes well: `k` levels of tables are below. -/
def CopyTurn (s₀ : Vm) (tag₀ : Nat → Option Path) (k : Nat)
    (body : Nat → Nat → Fin 512 → Vm → Bool × Vm) : Prop :=
  ∀ {s : Vm} {tag : Nat → Option Path} {D : Nat → Prop} {t u : Nat} {p : Path} {i : Fin 512} {s' : Vm},
    Copying s₀ tag₀ s tag D → D t → tag t = some p → p.length + k = 3 → tag u = some p → Open s p u →
    has (s.mem t i) pagePresent = false → body t u i s = (true, s') →
    ∃ tag' D', Copying s₀ tag₀ s' tag' D' ∧ Later t s tag D s' tag' D' ∧
      (∀ j, j ≠ i → s'.mem t j = s.mem t j) ∧ DuplicatedAt s₀ s' tag' t p i

/-- What cloning the table `u` under entry `i` of `t` does that goes well. -/
def CopyTable (s₀ : Vm) (tag₀ : Nat → Option Path) (k : Nat)
    (run : Vm → Nat → Nat → Fin 512 → Bool × Vm) : Prop :=
  ∀ {s : Vm} {tag : Nat → Option Path} {D : Nat → Prop} {t u : Nat} {p : Path} {i : Fin 512} {s' : Vm},
    Copying s₀ tag₀ s tag D → D t → tag t = some p → p.length + k = 2 → tag u = some (p ++ [i]) →
    Open s (p ++ [i]) u → run s t u i = (true, s') →
    ∃ tag' D', Copying s₀ tag₀ s' tag' D' ∧ Later t s tag D s' tag' D' ∧
      (∀ j, j ≠ i → s'.mem t j = s.mem t j) ∧ DuplicatedAt s₀ s' tag' t p i

/-- A loop of such turns leaves duplicates below each entry it has come to. -/
theorem CopyTurn.loop {k : Nat} {body : Nat → Nat → Fin 512 → Vm → Bool × Vm}
    (hturn : CopyTurn s₀ tag₀ k body) : ∀ {l : List (Fin 512)} {s : Vm} {tag : Nat → Option Path}
      {D : Nat → Prop} {s' : Vm}, l.Nodup → Copying s₀ tag₀ s tag D → D t → tag t = some p →
      p.length + k = 3 → tag u = some p → Open s p u →
      (∀ j ∈ l, has (s.mem t j) pagePresent = false) → forEach (body t u) l s = (true, s') →
      ∃ tag' D', Copying s₀ tag₀ s' tag' D' ∧ Later t s tag D s' tag' D' ∧
        (∀ j ∉ l, s'.mem t j = s.mem t j) ∧ ∀ i ∈ l, DuplicatedAt s₀ s' tag' t p i
  | [], s, tag, D, s', _, hc, _, _, _, _, _, _, hl => by
    obtain ⟨-, rfl⟩ := Prod.mk.inj hl
    exact ⟨tag, D, hc, .refl t, fun _ _ => rfl, fun i hi => by cases hi⟩
  | i :: l, s, tag, D, s', hnd, hc, ht, htag, hk, hu, ho, habs, hl => by
    obtain ⟨hil, hnd⟩ := List.nodup_cons.mp hnd
    have hp : p.length ≤ 3 := by omega
    rw [forEach] at hl
    rcases hb : body t u i s with ⟨_ | _, s₁⟩
    · rw [hb] at hl
      cases hl
    rw [hb] at hl
    obtain ⟨tag₁, D₁, hc₁, hl₁, hsame₁, hdup⟩ :=
      hturn hc ht htag hk hu ho (habs i (List.mem_cons_self ..)) hb
    have hne : ∀ j ∈ l, j ≠ i := by
      rintro j hj rfl
      exact hil hj
    obtain ⟨tag', D', hc', hl', hsame', hrest⟩ := CopyTurn.loop hturn hnd hc₁ (hl₁.sub t ht)
      (hl₁.tags t p htag) hk (hl₁.tags u p hu) (ho.later hp hl₁ hc.toCloning)
      (fun j hj => by rw [hsame₁ j (hne j hj)]; exact habs j (List.mem_cons_of_mem _ hj)) hl
    refine ⟨tag', D', hc', hl₁.trans hl', fun j hj => ?_, fun j hj => ?_⟩
    · rw [List.mem_cons, not_or] at hj
      exact (hsame' j hj.2).trans (hsame₁ j hj.1)
    · rcases List.mem_cons.mp hj with rfl | hj
      · -- the later turns leave the first entry alone
        exact hdup.later hl' hc₁.toCloning hc'.toCloning (hl₁.tags t p htag) (hl₁.sub t ht)
          (hl₁.tags t p htag) le_rfl (hsame' j hil)
      · exact hrest j hj

/-- The entry of a page's own frame has the flags of the entry it was made from. -/
theorem own_entry (hf : f < 2 ^ 40) (e : Word) :
    entryFrame (BitVec.ofNat 64 (f * pageSize) ||| (e &&& ~~~pteAddrMask)) = f ∧
      has (BitVec.ofNat 64 (f * pageSize) ||| (e &&& ~~~pteAddrMask)) pagePresent = has e pagePresent ∧
      has (BitVec.ofNat 64 (f * pageSize) ||| (e &&& ~~~pteAddrMask)) pageUser = has e pageUser := by
  have hz : e &&& ~~~pteAddrMask &&& pteAddrMask = 0#64 := by
    rw [BitVec.and_assoc]
    simp
  have hlow : ∀ k < 12, (BitVec.ofNat 64 (f * pageSize) ||| (e &&& ~~~pteAddrMask)).getLsbD k =
      e.getLsbD k := by
    intro k hk
    rw [BitVec.getLsbD_or, show BitVec.ofNat 64 (f * pageSize) = frameWord f from rfl,
      frameWord_getLsbD f hk, Bool.false_or, BitVec.getLsbD_and, BitVec.getLsbD_not,
      pteAddrMask_getLsbD hk, Bool.not_false, Bool.and_true, decide_eq_true (by omega : k < 64),
      Bool.and_true]
  refine ⟨?_, ?_, ?_⟩
  · rw [entryFrame_or hz, ofNat_frame (Nat.mul_mod_left ..), frame_div f, entryFrame_frameWord hf]
  · rw [has_present, has_present, hlow 0 (by decide)]
  · rw [has_user, has_user, hlow 2 (by decide)]

theorem look_open {m : Memory} (hpr : has (m t i) pagePresent = true) (hu : has (m t i) pageUser = true) :
    look translator m t [i] = some (m t i, true) := by
  rw [look]
  change leafEntry (m t i) [] = _
  rw [leafEntry, if_pos hpr, hu]

/-- An entry of a page table duplicates a page of the user that has the same path. -/
theorem Cloning.last (h : Cloning s₀ tag₀ s tag D) (ho : Open s p u) (hp : p.length = 3)
    (hpr : has (s.mem u i) pagePresent = true) (hu : has (s.mem u i) pageUser = true)
    (hpr' : has (s'.mem t i) pagePresent = true) (hu' : has (s'.mem t i) pageUser = true)
    (hown : ∀ v, ¬ Window (pathOf v) → walk s₀.mem s₀.pml4 v = some (s.mem u i, true) →
      Own s₀ s' tag' (s.mem u i) (s'.mem t i)) :
    DuplicatedAt s₀ s' tag' t p i := by
  intro v q hv hq
  obtain rfl : q = [] := by
    have hlen := congrArg List.length hq
    rw [← List.length_eq_zero_iff]
    simp only [pathOf, List.length_append, List.length_cons, List.length_nil] at hlen
    omega
  have hwalk : walk s₀.mem s₀.pml4 v = some (s.mem u i, true) := by
    rw [← h.walk_start hv, ho.walk hq, look_open hpr hu]
  rw [hwalk, look_open hpr' hu']
  exact ⟨_, rfl, hown v hv hwalk⟩

/-- A frame that is free was free at the start. -/
theorem Cloning.free_start (h : Cloning s₀ tag₀ s tag D) (hf : bitmapTest s f = false) :
    bitmapTest s₀ f = false := by
  by_contra hused
  rw [h.changed.bits f (by simpa using hused)] at hf
  cases hf

/-- A page of the user is copied to a frame of its own. -/
theorem clonePte_copies (im : Image) (hu₀ : UserFrames s₀ tag₀ s₀.pml4) :
    CopyTurn s₀ tag₀ 0 (clonePte im) := by
  intro s tag D t u p i s' hc ht htag hk hu ho habs hb
  have hother : ∀ {s₂ : Vm} {x : Word}, (∀ j, s₂.mem t j = s.mem t j) →
      ∀ j, j ≠ i → (writeEntry s₂ t i x).mem t j = s.mem t j := by
    intro s₂ x hs₂ j hj
    rw [writeEntry_other fun h => hj (Prod.mk.inj h).2, hs₂]
  rw [clonePte] at hb
  cases hpr : has (s.mem u i) pagePresent with
  | false =>
    rw [hpr] at hb
    obtain ⟨-, rfl⟩ := Prod.mk.inj hb
    exact ⟨tag, D, hc, .refl t, fun _ _ => rfl, hc.toCloning.absent ho hpr habs⟩
  | true =>
    rw [hpr, Bool.not_true, if_neg Bool.false_ne_true] at hb
    cases hus : has (s.mem u i) pageUser with
    | false =>
      rw [hus] at hb
      obtain ⟨-, rfl⟩ := Prod.mk.inj hb
      obtain ⟨hc', hdup⟩ := hc.share ht htag hu ho hus
      exact ⟨tag, D, hc', .write ht htag, hother fun _ => rfl, hdup⟩
    | true =>
      rw [hus, Bool.not_true, if_neg Bool.false_ne_true] at hb
      rcases ha : pagingAllocPage s with ⟨_ | a, s₁⟩
      · rw [ha] at hb
        cases hb
      obtain ⟨f, rfl, hlt, hfree, hft, rfl, -⟩ := allocPage_fresh hc.forest ha
      rw [ha] at hb
      dsimp only at hb
      rcases hcp : pagingCopyFrame im (bitmapSet s f) (f * pageSize)
        (entryFrame (s.mem u i) * pageSize) with ⟨_ | _, s₂⟩
      · rw [hcp] at hb
        cases hb
      rw [hcp] at hb
      obtain ⟨-, rfl⟩ := Prod.mk.inj hb
      obtain ⟨tag₂, hm, hf₂, hb₂⟩ := pagingCopyFrame_mapped hc.forest (Mapped.take hc.forest f) hfree hft
        (by rw [bitmapTest_bitmapSet]; simp) hlt hcp
      have hfree₀ := hc.free_start hfree
      obtain ⟨hframe, hpr', hus'⟩ := own_entry hlt (s.mem u i)
      rw [hpr] at hpr'
      rw [hus] at hus'
      have hc₂ := hc.mapped hm
      have htag₂ := hm.tags t p htag
      have hcl : Cloning s₀ tag₀ (writeEntry s₂ t i (BitVec.ofNat 64 (f * pageSize) |||
          (s.mem u i &&& ~~~pteAddrMask))) tag₂ D :=
        hc₂.write ht htag₂ (fun h => by omega) (fun h => by omega) (fun h => by omega) fun _ _ _ => by
          rw [hframe]
          exact ⟨hfree₀, hf₂, hb₂⟩
      refine ⟨tag₂, D, hc₂.written hcl fun _ x j hx _ hxf => ?_,
        (Later.mapped hc.toCloning hm).trans (.write ht htag₂),
        hother fun j => congrFun ((hc.toCloning.mapped hm).2 t ht) j,
        hc.toCloning.last ho (by omega) hpr hus (by rw [writeEntry_self]; exact hpr')
          (by rw [writeEntry_self]; exact hus') fun v hv hwalk => ?_⟩
      · -- the frames of the other pages were in use before this one was taken
        obtain ⟨hold, hsame⟩ := hc.leaf_mapped hm hx
        rw [hframe, hsame] at hxf
        rw [← hxf, hc.leaf_used hold] at hfree
        cases hfree
      · obtain ⟨hg₀, hgb₀⟩ := hu₀ v _ hv hwalk
        have hg := hc.changed.untagged hg₀ hgb₀
        have hwords := pagingCopyFrame_words hc.forest hg (hc.changed.bits _ hgb₀)
          (entryFrame_lt _) hfree hlt hcp
        have htf : f ≠ t := by
          rintro rfl
          rw [hf₂] at htag₂
          cases htag₂
        rw [writeEntry_self]
        refine ⟨?_, ?_, ?_, ?_, ?_⟩ <;> rw [hframe]
        · rfl
        · exact hfree₀
        · rw [writeEntry_frame htf, hwords, hc.changed.frames _ hg₀ hgb₀]
        · exact hf₂
        · exact hb₂

/-! ### The tables -/

/-- Above the page tables, an entry that is open to the user leads to a table. -/
theorem Forest.user_next (h : Forest s tag) (ht : tag t = some p) (hp : p.length < 3)
    (hpr : has (s.mem t i) pagePresent = true) (hu : has (s.mem t i) pageUser = true) :
    has (s.mem t i) pageHuge = false := by
  rcases Nat.lt_or_ge p.length 2 with hl | hl
  · exact h.upper t p i ht hl hpr
  · by_contra hh
    rw [Bool.not_eq_false] at hh
    rw [(h.huge t p i ht (by omega) hpr hh).2] at hu
    cases hu

/-- An entry above the last ones is absent, shared, or leads to a table that is copied. -/
theorem CopyTable.turn {run : Vm → Nat → Nat → Fin 512 → Bool × Vm} (hsub : CopyTable s₀ tag₀ k run)
    {body : Nat → Nat → Fin 512 → Vm → Bool × Vm}
    (h0 : ∀ t u i s, has (s.mem u i) pagePresent = false → body t u i s = (true, s))
    (h1 : ∀ t u i s, has (s.mem u i) pagePresent = true → has (s.mem u i) pageUser = false →
      body t u i s = (true, writeEntry s t i (s.mem u i)))
    (h2 : ∀ t u i s, has (s.mem u i) pagePresent = true → has (s.mem u i) pageUser = true →
      has (s.mem u i) pageHuge = false → body t u i s =
        run (touch s (entryFrame (s.mem u i) * pageSize)) t (entryFrame (s.mem u i)) i) :
    CopyTurn s₀ tag₀ (k + 1) body := by
  intro s tag D t u p i s' hc ht htag hk hu ho habs hb
  cases hpr : has (s.mem u i) pagePresent with
  | false =>
    rw [h0 t u i s hpr] at hb
    obtain ⟨-, rfl⟩ := Prod.mk.inj hb
    exact ⟨tag, D, hc, .refl t, fun _ _ => rfl, hc.toCloning.absent ho hpr habs⟩
  | true =>
    cases hus : has (s.mem u i) pageUser with
    | false =>
      rw [h1 t u i s hpr hus] at hb
      obtain ⟨-, rfl⟩ := Prod.mk.inj hb
      obtain ⟨hc', hdup⟩ := hc.share ht htag hu ho hus
      exact ⟨tag, D, hc', .write ht htag, fun j hj => writeEntry_other fun h => hj (Prod.mk.inj h).2, hdup⟩
    | true =>
      have hhuge := hc.forest.user_next hu (by omega) hpr hus
      have hn := nextTable_eq hpr hhuge
      have hm : Mapped Window Window s tag (touch s (entryFrame (s.mem u i) * pageSize)) tag :=
        Mapped.touch hc.forest _
      have ho' : Open (touch s (entryFrame (s.mem u i) * pageSize)) (p ++ [i]) (entryFrame (s.mem u i)) :=
        ⟨(ho.next hn hus).leads, (ho.next hn hus).user⟩
      rw [h2 t u i s hpr hus hhuge] at hb
      obtain ⟨tag', D', hc', hl', hsame, hdup⟩ := hsub (hc.mapped hm) ht htag (by omega)
        (hc.forest.tagged u p i _ hu (by omega) hn) ho' hb
      exact ⟨tag', D', hc', (Later.mapped hc.toCloning hm).trans hl', hsame, hdup⟩

/-- A table that joined the clone in between is none of those there were. -/
theorem Later.trans_new {s'' : Vm} {tag'' : Nat → Option Path} {D'' : Nat → Prop}
    (h : Later d s tag D s' tag' D') (h' : Later f s' tag' D' s'' tag'' D'') (hf : tag f = none)
    (hnew : ∀ t, D t → ∃ p, tag t = some p) : Later d s tag D s'' tag'' D'' where
  toAdds := h.toAdds.trans_new h'.toAdds hf hnew
  untagged := fun g hg hb => h'.untagged g (h.untagged g hg hb) (h.bits g hb)
  bits := fun g hb => h'.bits g (h.bits g hb)
  frames := fun g hg hb => (h'.frames g (h.untagged g hg hb) (h.bits g hb)).trans (h.frames g hg hb)

/-- A fresh table joins the clone. -/
theorem Later.table (h : Cloning s₀ tag₀ s tag D) (hf : Fresh s s₁ f fun _ => 0#64) :
    Later d s tag D s₁ (Function.update tag f (some p)) (fun t => D t ∨ t = f) where
  sub := fun _ ht => Or.inl ht
  out := fun x q hx hxd => by
    rintro (hd | rfl)
    · exact hxd hd
    · exact h.forest.ne_free hx hf.free rfl
  tags := fun _ _ hx => h.forest.keep_tag hf.free hx
  same := fun x hx _ => by
    obtain ⟨q, hq⟩ := (h.new x hx).2
    exact hf.old h.forest hq
  keep := fun x q j c hx _ _ _ => by rw [hf.old h.forest hx]
  pml4 := hf.pml4
  untagged := fun g hg hb => by
    rw [Function.update_of_ne, hg]
    rintro rfl
    rw [hf.free] at hb
    cases hb
  bits := hf.used
  frames := fun g _ hb => hf.other g <| by
    rintro rfl
    rw [hf.free] at hb
    cases hb

/-- A table is copied by a fresh one that a loop of turns fills. -/
theorem CopyTurn.table (im : Image) {body : Nat → Nat → Fin 512 → Vm → Bool × Vm}
    (hturn : CopyTurn s₀ tag₀ k body) {run : Vm → Nat → Nat → Fin 512 → Bool × Vm}
    (hrun : ∀ s t u i, run s t u i = match pagingAllocTable im s with
      | (none, s) => (false, s)
      | (some c, s) => forEach (body c u) (List.finRange 512)
          (writeEntry s t i (frameWord c ||| cloneFlags))) :
    CopyTable s₀ tag₀ k run := by
  intro s tag D t u p i s' hc ht htag hk hu ho hr
  rw [hrun] at hr
  rcases ha : pagingAllocTable im s with ⟨_ | f, s₁⟩
  · rw [ha] at hr
    cases hr
  rw [ha] at hr
  dsimp only at hr
  have hf := pagingAllocTable_some hc.forest.null ha
  have hft := hc.forest.untagged hf.free
  have htf : t ≠ f := hc.forest.ne_free htag hf.free
  have hlen : (p ++ [i]).length = p.length + 1 := by simp
  have hn : nextTable (frameWord f ||| cloneFlags) = some f := tableFlags_user.next hf.lt_addr
  have hus : has (frameWord f ||| cloneFlags) pageUser = true := by
    rw [TableFlags.user]
    decide
  obtain ⟨-, hh, -⟩ := nextTable_some hn
  -- the fresh table, empty, and the entry that points at it
  have h₁ := hc.table hf (p := p ++ [i]) (by omega)
  have hl₁ : Later t s tag D s₁ (Function.update tag f (some (p ++ [i]))) (fun t => D t ∨ t = f) :=
    .table hc.toCloning hf
  have htag₁ := hl₁.tags t p htag
  have h₂ : Copying s₀ tag₀ (writeEntry s₁ t i (frameWord f ||| cloneFlags))
      (Function.update tag f (some (p ++ [i]))) (fun t => D t ∨ t = f) := by
    refine h₁.written (h₁.write (Or.inl ht) htag₁ (fun _ g hg => ?_) (fun _ _ => hh)
      (fun _ _ h => absurd h (by rw [hh]; exact Bool.false_ne_true)) fun h => by omega) fun hl => ?_
    · rw [hn, Option.some.injEq] at hg
      subst hg
      exact ⟨Function.update_self .., fun _ => Or.inr rfl, fun h => absurd (Or.inr rfl) h,
        tableFlags_user.entry⟩
    · obtain ⟨q, hq, hq3⟩ := hl.last
      rw [htag₁, Option.some.injEq] at hq
      rw [← hq] at hq3
      omega
  have hl₂ : Later t s tag D (writeEntry s₁ t i (frameWord f ||| cloneFlags))
      (Function.update tag f (some (p ++ [i]))) (fun t => D t ∨ t = f) :=
    hl₁.trans (.write (Or.inl ht) htag₁)
  have ho₂ := ho.later (by omega) hl₂ hc.toCloning
  obtain ⟨tag', D', hc', hl', -, hdup⟩ := CopyTurn.loop hturn (List.nodup_finRange 512) h₂
    (Or.inr rfl) (Function.update_self ..) (by omega) (hl₂.tags u _ hu) ho₂
    (fun j _ => by rw [writeEntry_frame htf.symm, hf.self]; simp) hr
  have hmem : s'.mem t = (writeEntry s₁ t i (frameWord f ||| cloneFlags)).mem t :=
    hl'.same t (Or.inl ht) htf
  refine ⟨tag', D', hc', hl₂.trans_new hl' hft fun x hx => (hc.new x hx).2, fun j hj => ?_,
    fun v q hv hq => ?_⟩
  · rw [hmem, writeEntry_other (fun h => hj (Prod.mk.inj h).2), hf.other t htf]
  · have hlenq := congrArg List.length hq
    simp only [pathOf, List.length_append, List.length_cons, List.length_nil] at hlenq
    obtain ⟨j, q, rfl⟩ : ∃ j r, q = j :: r := List.exists_cons_of_ne_nil (by
      rintro rfl
      simp only [List.length_nil] at hlenq
      omega)
    have hentry : s'.mem t i = frameWord f ||| cloneFlags := by rw [hmem, writeEntry_self]
    have hvia : translator.via (frameWord f ||| cloneFlags) = id := by
      funext x
      simp only [translator, hus, Bool.true_and]
      rfl
    rw [look, hentry, show translator.next (frameWord f ||| cloneFlags) = some f from hn]
    dsimp only
    rw [hvia, Option.map_id, id]
    exact hdup j (List.mem_finRange j) v q hv (by rw [hq]; simp)

section
variable (hu₀ : UserFrames s₀ tag₀ s₀.pml4)
include hu₀

theorem pagingCloneUserPt_copies (im : Image) : CopyTable s₀ tag₀ 0 (pagingCloneUserPt im) :=
  CopyTurn.table im (clonePte_copies im hu₀) fun _ _ _ _ => rfl

theorem clonePde_copies (im : Image) : CopyTurn s₀ tag₀ 1 (clonePde im) :=
  CopyTable.turn (pagingCloneUserPt_copies hu₀ im) (fun _ _ _ _ h => by simp [clonePde, h])
    (fun _ _ _ _ h h' => by simp [clonePde, h, h']) fun _ _ _ _ h h' h'' => by
      simp [clonePde, h, h', h'']

theorem pagingCloneUserPd_copies (im : Image) : CopyTable s₀ tag₀ 1 (pagingCloneUserPd im) :=
  CopyTurn.table im (clonePde_copies hu₀ im) fun _ _ _ _ => rfl

theorem clonePdpte_copies (im : Image) : CopyTurn s₀ tag₀ 2 (clonePdpte im) :=
  CopyTable.turn (pagingCloneUserPd_copies hu₀ im) (fun _ _ _ _ h => by simp [clonePdpte, h])
    (fun _ _ _ _ h h' => by simp [clonePdpte, h, h']) fun _ _ _ _ h h' _ => by
      simp [clonePdpte, h, h']

theorem pagingCloneUserPdpt_copies (im : Image) : CopyTable s₀ tag₀ 2 (pagingCloneUserPdpt im) :=
  CopyTurn.table im (clonePdpte_copies hu₀ im) fun _ _ _ _ => rfl

theorem clonePml4e_copies (im : Image) : CopyTurn s₀ tag₀ 3 (clonePml4e im true) :=
  CopyTable.turn (pagingCloneUserPdpt_copies hu₀ im) (fun _ _ _ _ h => by simp [clonePml4e, h])
    (fun _ _ _ _ h h' => by simp [clonePml4e, h, h']) fun _ _ _ _ h h' _ => by
      simp [clonePml4e, h, h']

end

/-! ### The address space -/

/-- A part of a huge page is none of the user's. -/
theorem Forest.huge_entry {j : Fin 512} {b : Bool} (h : Forest s tag) (ht : tag t = some p)
    (hlen : p.length + (i :: j :: q).length = 4) (hl : leafEntry (s.mem t i) (j :: q) = some (e, b)) :
    b = false ∧ has e pageUser = false := by
  simp only [List.length_cons] at hlen
  cases q with
  | cons => cases hl
  | nil =>
    rw [leafEntry] at hl
    split at hl
    · next hc =>
      rw [Bool.and_eq_true] at hc
      obtain ⟨hal, hno⟩ := h.huge t p i ht (by simpa using hlen) hc.1 hc.2
      obtain ⟨rfl, rfl⟩ := Prod.mk.inj (Option.some.inj hl)
      refine ⟨hno, ?_⟩
      rw [has_user] at hno ⊢
      rw [(splitEntry_spec hal j).2 2 (by decide), hno]
    · cases hl

/-- One step down to a page: to a table below, or to a part of a huge page. -/
theorem Forest.look_step {j : Fin 512} {b : Bool} (h : Forest s tag) (ht : tag t = some p)
    (hlen : p.length + (j :: q).length = 3)
    (hl : look translator s.mem t (j :: (q ++ [i])) = some (e, b)) :
    b = false ∧ has e pageUser = false ∨ ∃ c b', nextTable (s.mem t j) = some c ∧
      look translator s.mem c (q ++ [i]) = some (e, b') ∧ b = (has (s.mem t j) pageUser && b') := by
  obtain ⟨k, q', hq⟩ : ∃ k q', q ++ [i] = k :: q' := by cases q <;> simp
  rw [hq, look] at hl
  rw [hq]
  cases hn : translator.next (s.mem t j) with
  | none =>
    rw [hn] at hl
    have hlen' := congrArg List.length hq
    simp only [List.length_append, List.length_cons, List.length_nil] at hlen hlen'
    exact Or.inl (h.huge_entry ht (by simp only [List.length_cons]; omega) hl)
  | some c =>
    rw [hn] at hl
    obtain ⟨⟨e', b'⟩, hbelow, hvia⟩ := Option.map_eq_some_iff.mp hl
    obtain ⟨rfl, rfl⟩ := Prod.mk.inj hvia
    exact Or.inr ⟨c, b', hn, hbelow, rfl⟩

/-- A page that is the user's is in a page table. -/
theorem Forest.user_table (h : Forest s tag) : ∀ {q : Path} {t : Nat} {p : Path} {b : Bool},
    tag t = some p → p.length + q.length = 3 → look translator s.mem t (q ++ [i]) = some (e, b) →
    (b = true → has e pageUser = true) ∧
      (has e pageUser = true → ∃ pt, descend nextTable s.mem t q = some pt)
  | [], t, p, b, _, _, hl => by
    rw [List.nil_append, look] at hl
    change leafEntry (s.mem t i) [] = _ at hl
    rw [leafEntry] at hl
    split at hl
    · obtain ⟨he, hb⟩ := Prod.mk.inj (Option.some.inj hl)
      rw [← he, ← hb]
      exact ⟨id, fun _ => ⟨t, rfl⟩⟩
    · cases hl
  | j :: q, t, p, b, ht, hlen, hl => by
    rcases h.look_step ht hlen hl with ⟨rfl, hno⟩ | ⟨c, b', hn, hbelow, rfl⟩
    · rw [hno]
      exact ⟨id, fun hc => by cases hc⟩
    · rw [List.length_cons] at hlen
      obtain ⟨huser, htable⟩ := h.user_table (h.tagged t p j c ht (by omega) hn)
        (by rw [List.length_append, List.length_singleton]; omega) hbelow
      rw [descend, hn, Option.bind_some]
      exact ⟨fun hc => huser (Bool.and_eq_true_iff.mp hc).2, htable⟩

/-- A page that is the user's under a table of the clone is in a page table of the clone, or in one of
    the current root's that is closed to him. -/
theorem Cloning.user_entry (h : Cloning s₀ tag₀ s tag D) (hu : has e pageUser = true) : ∀ {q : Path}
    {t : Nat} {p : Path} {b : Bool}, D t → tag t = some p → p.length + q.length = 3 →
    look translator s.mem t (q ++ [i]) = some (e, b) →
    (∃ t', UserLeaf s tag D t' i ∧ s.mem t' i = e ∧ tag t' = some (p ++ q)) ∨
      b = false ∧ ∃ pt, descend nextTable s.mem t q = some pt ∧
        descend nextTable s.mem s.pml4 (p ++ q) = some pt
  | [], t, p, b, ht, htag, hlen, hl => by
    rw [List.nil_append, look] at hl
    change leafEntry (s.mem t i) [] = _ at hl
    rw [leafEntry] at hl
    split at hl
    · next hpr =>
      obtain ⟨he, -⟩ := Prod.mk.inj (Option.some.inj hl)
      rw [← he] at hu
      exact Or.inl ⟨t, ⟨ht, ⟨p, htag, by simpa using hlen⟩, hpr, hu⟩, he, by rw [htag, List.append_nil]⟩
    · cases hl
  | j :: q, t, p, b, ht, htag, hlen, hl => by
    rcases h.forest.look_step htag hlen hl with ⟨-, hno⟩ | ⟨c, b', hn, hbelow, rfl⟩
    · rw [hno] at hu
      cases hu
    rw [List.length_cons] at hlen
    have hct := h.forest.tagged t p j c htag (by omega) hn
    have hlen' : (p ++ [j]).length + q.length = 3 := by
      rw [List.length_append, List.length_singleton]
      omega
    rw [descend, hn, Option.bind_some, List.append_cons]
    by_cases hcd : D c
    · refine (h.user_entry hu hcd hct hlen' hbelow).imp_right ?_
      rintro ⟨rfl, htable⟩
      exact ⟨Bool.and_false _, htable⟩
    · -- what is below is the current root's too
      have hclosed : has (s.mem t j) pageUser = false := by
        by_contra hc
        exact hcd (h.users t p j c ht htag (by omega) hn (by simpa using hc))
      obtain ⟨pt, hpt⟩ := (h.forest.user_table hct hlen' hbelow).2 hu
      refine Or.inr ⟨by rw [hclosed, Bool.false_and], pt, hpt, ?_⟩
      rw [descend_append, h.shared t p j c ht htag (by omega) hn hcd, Option.bind_some, hpt]

/-- `paging_clone_current_address_space (1)`: every page that is not the window's is translated by the
    new root as by the current one, or has a duplicate. -/
theorem cloneUser_copies (h : Forest s tag) (hu : UserFrames s tag s.pml4)
    (hc : pagingCloneCurrentAddressSpace im s true = (some r, s')) :
    ∃ tag' D, Copying s tag s' tag' D ∧ D r ∧ tag' r = some [] ∧
      ∀ v, ¬ Window (pathOf v) → Duplicate s s' tag' (walk s.mem s.pml4 v) (walk s'.mem r v) := by
  have h₀ : Copying s tag s tag fun _ => False := ⟨.begin h, fun _ _ _ _ hl => hl.mine.elim⟩
  rw [pagingCloneCurrentAddressSpace] at hc
  rcases ha : pagingAllocTable im s with ⟨_ | f, s₁⟩
  · rw [ha] at hc
    cases hc
  have hf := pagingAllocTable_some h.null ha
  have hroot : s.pml4 ≠ f := h.ne_free h.root hf.free
  have h₁ := h₀.table hf (p := []) (by simp)
  have hl₁ : Later f s tag (fun _ => False) s₁ (Function.update tag f (some [])) (fun t => False ∨ t = f) :=
    .table h₀.toCloning hf
  rw [ha] at hc
  dsimp only at hc
  rcases hl : forEach (clonePml4e im true f s.pml4) (List.finRange 512) s₁ with ⟨_ | _, s₂⟩
  · rw [hl] at hc
    cases hc
  rw [hl] at hc
  obtain ⟨hrf, rfl⟩ := Prod.mk.inj hc
  obtain rfl := Option.some.inj hrf
  obtain ⟨tag', D, hc', hl', -, hdup⟩ := CopyTurn.loop (clonePml4e_copies hu im) (List.nodup_finRange 512)
    h₁ (Or.inr rfl) (Function.update_self ..) (by simp) (hl₁.tags _ _ h.root)
    ((Open.root s).later (by simp) hl₁ h₀.toCloning) (fun j _ => by rw [hf.self]; simp) hl
  refine ⟨tag', D, hc', hl'.sub _ (Or.inr rfl), hl'.tags _ _ (Function.update_self ..), fun v hv => ?_⟩
  exact hdup (pml4Index v) (List.mem_finRange _) v [pdpIndex v, pdIndex v, ptIndex v] hv rfl

end TypeOS.Paging
