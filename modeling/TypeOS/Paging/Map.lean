import TypeOS.Paging.Forest

/-! What mapping and unmapping a page does to the forest.

    On its way down `paging_map_page_flags` makes tables and splits a huge page; each of these
    grafts a fresh frame below one entry, so that no translation changes (`Grown`). Only the last
    write, into the page table, does: it gives the page its entry under every root that shares the
    table, and no other page a different one. -/

namespace TypeOS.Paging
open Radix

variable {im : Image} {s s' : Vm} {tag tag' : Nat → Option Path} {t f c r v u : Nat} {p π : Path}
  {i : Fin 512} {e fl : Word}

/-! ### Taking a frame for a table -/

/-- Frame `f` was free in `s`; in `s'` it is taken and holds `w`, and nothing else changed. -/
structure Fresh (s s' : Vm) (f : Nat) (w : Fin 512 → Word) : Prop where
  free : bitmapTest s f = false
  pos : 0 < f
  lt : f < identityMapLimit / pageSize
  self : s'.mem f = w
  other : ∀ t, t ≠ f → s'.mem t = s.mem t
  bits : ∀ g, bitmapTest s' g = (decide (g = f) || bitmapTest s g)
  pml4 : s'.pml4 = s.pml4
  total : s'.totalFrames = s.totalFrames

theorem bitmapSet_mem : (bitmapSet s f).mem = s.mem := by unfold bitmapSet; split <;> rfl
theorem bitmapSet_pml4 : (bitmapSet s f).pml4 = s.pml4 := by unfold bitmapSet; split <;> rfl
theorem bitmapSet_total : (bitmapSet s f).totalFrames = s.totalFrames := by
  unfold bitmapSet; split <;> rfl

/-- `paging_alloc_table` takes the lowest frame it may take, or leaves everything as it is. -/
theorem pagingAllocTable_cases (im : Image) (hnull : bitmapTest s 0 = true) :
    (pagingAllocTable im s = (none, s) ∧
      ∀ j < min s.totalFrames (identityMapLimit / pageSize), tableFrame im s j = false) ∨
    ∃ f, pagingAllocTable im s =
        (some f, writeFrame (touch (bitmapSet s f) (f * pageSize)) f fun _ => 0#64) ∧
      0 < f ∧ f < min s.totalFrames (identityMapLimit / pageSize) ∧ tableFrame im s f = true ∧
      ∀ j < f, tableFrame im s j = false := by
  rw [pagingAllocTable]
  cases hf : firstFrom (tableFrame im s) (min s.totalFrames (identityMapLimit / pageSize)) 0 with
  | none => exact Or.inl ⟨rfl, fun j hj => firstFrom_none hf j (Nat.zero_le _) (by omega)⟩
  | some f =>
    obtain ⟨-, h2, h3, h4⟩ := firstFrom_some hf
    have hne : f ≠ 0 := by
      rintro rfl
      rw [tableFrame, hnull] at h3
      simp at h3
    refine Or.inr ⟨f, ?_, by omega, by omega, h3, fun j hj => h4 j (Nat.zero_le _) hj⟩
    simp only [framePtr, if_neg hne]

theorem tableFrame_free (h : tableFrame im s f = true) : bitmapTest s f = false := by
  rw [tableFrame, Bool.and_eq_true] at h
  simpa using h.2

theorem pagingAllocTable_none (hnull : bitmapTest s 0 = true)
    (ha : pagingAllocTable im s = (none, s')) : s' = s := by
  rcases pagingAllocTable_cases im hnull with ⟨h, -⟩ | ⟨f, h, -⟩
  · rw [h] at ha; exact (Prod.mk.inj ha).2.symm
  · rw [h] at ha; simp at ha

theorem pagingAllocTable_some (hnull : bitmapTest s 0 = true)
    (ha : pagingAllocTable im s = (some f, s')) : Fresh s s' f fun _ => 0#64 := by
  rcases pagingAllocTable_cases im hnull with ⟨h, -⟩ | ⟨g, h, hpos, hlt, htf, -⟩
  · rw [h] at ha; simp at ha
  · rw [h] at ha
    obtain ⟨h1, rfl⟩ := Prod.mk.inj ha
    rw [Option.some.injEq] at h1
    subst h1
    refine ⟨tableFrame_free htf, hpos, by omega, ?_, ?_, ?_, ?_, ?_⟩
    · simp [writeFrame]
    · intro t ht
      simp [writeFrame, ht, touch, bitmapSet_mem]
    · intro k
      rw [bitmapTest_writeFrame, bitmapTest_touch, bitmapTest_bitmapSet]
    · exact bitmapSet_pml4
    · exact bitmapSet_total

theorem Fresh.fill {w : Fin 512 → Word} (h : Fresh s s' f w) (w' : Fin 512 → Word) :
    Fresh s (writeFrame s' f w') f w' := by
  refine ⟨h.free, h.pos, h.lt, by simp [writeFrame], fun t ht => ?_, h.bits, h.pml4, h.total⟩
  simp only [writeFrame, Function.update_of_ne ht]
  exact h.other t ht

section
variable {w : Fin 512 → Word}

theorem Fresh.old (hf : Fresh s s' f w) (h : Forest s tag) (ht : tag t = some p) :
    s'.mem t = s.mem t :=
  hf.other t (h.ne_free ht hf.free)

theorem Fresh.used (hf : Fresh s s' f w) (g : Nat) (hg : bitmapTest s g = true) :
    bitmapTest s' g = true := by
  rw [hf.bits, hg, Bool.or_true]

theorem Fresh.lt_addr (hf : Fresh s s' f w) : f < 2 ^ 40 := by
  have hlt := hf.lt
  simp only [identityMapLimit, pageSize] at hlt
  omega

/-- The frame becomes a table. -/
theorem Fresh.adopt (hf : Fresh s s' f w) (h : Forest s tag) (hp : p.length ≤ 3)
    (hentry : p.length < 3 → ∀ i, has (w i) pagePresent = false ∨
      ∃ u, tag u = some p ∧ w i = s.mem u i) : Forest s' (Function.update tag f (some p)) := by
  have h' : Forest s' tag := h.congr (fun _ _ ht => hf.old h ht) hf.used hf.pml4
  refine h'.adopt (h.untagged hf.free) hp hf.pos hf.lt_addr (by rw [hf.bits]; simp) fun hlen i => ?_
  rw [hf.self]
  refine (hentry hlen i).imp_right ?_
  rintro ⟨u, hu, hi⟩
  exact ⟨u, hu, by rw [hf.old h hu, hi]⟩

end

/-! ### Growing the forest -/

/-- The current root and `r` translate `v` through one and the same page table. -/
def Shares (s : Vm) (r v : Nat) : Prop := ∃ pt, ptOf s.mem s.pml4 v = some pt ∧ ptOf s.mem r v = some pt

/-- The tables that lead to a page under the current root. -/
def OnWay (s : Vm) (v f : Nat) : Prop :=
  ∃ q, q <+: tablePath v ∧ descend nextTable s.mem s.pml4 q = some f

/-- An operation on the tables: fresh ones appear, entries of old ones are edited on the current
    root's way along paths of `E` only, and translations under old roots change along paths of `W`
    only, where a root shares the page table with the current one. -/
structure Changed (E W : Path → Prop) (s : Vm) (tag : Nat → Option Path) (s' : Vm)
    (tag' : Nat → Option Path) : Prop where
  forest : Forest s' tag'
  tags : ∀ t p, tag t = some p → tag' t = some p
  fresh : ∀ t p, tag t = none → tag' t = some p → bitmapTest s t = false
  bits : ∀ f, bitmapTest s f = true → bitmapTest s' f = true
  frames : ∀ f, tag f = none → bitmapTest s f = true → s'.mem f = s.mem f
  pml4 : s'.pml4 = s.pml4
  total : s'.totalFrames = s.totalFrames
  walks : ∀ r v, tag r = some [] → ¬ (W (pathOf v) ∧ Shares s' r v) →
    walk s'.mem r v = walk s.mem r v
  off : ∀ t p i, tag t = some p → s'.mem t i = s.mem t i ∨
    (∃ π, E π ∧ p ++ [i] <+: π) ∧ descend nextTable s'.mem s'.pml4 p = some t
  keep : ∀ t p i c, tag t = some p → p.length < 3 → nextTable (s.mem t i) = some c →
    s'.mem t i = s.mem t i

/-- Such an operation where nothing but the edited entries points at the fresh tables, and these
    point at no old ones. -/
structure Mapped (E W : Path → Prop) (s : Vm) (tag : Nat → Option Path) (s' : Vm)
    (tag' : Nat → Option Path) : Prop extends Changed E W s tag s' tag' where
  back : ∀ t p i c, tag' t = some p → p.length < 3 → nextTable (s'.mem t i) = some c →
    (∃ q, tag c = some q) → tag t = some p ∧ nextTable (s.mem t i) = some c

/-- Fresh tables along the path `π`, and no translation changed. -/
abbrev Grown (π : Path) (s : Vm) (tag : Nat → Option Path) (s' : Vm)
    (tag' : Nat → Option Path) : Prop :=
  Mapped (· = π) (fun _ => False) s tag s' tag'

variable {E W E' W' : Path → Prop}

/-- What is not in the state the forest speaks of may change freely. -/
theorem Mapped.same (h : Forest s tag) (hm : s'.mem = s.mem)
    (hb : ∀ f, bitmapTest s f = true → bitmapTest s' f = true) (hr : s'.pml4 = s.pml4)
    (ht : s'.totalFrames = s.totalFrames) : Mapped E W s tag s' tag :=
  ⟨⟨h.congr (fun _ _ _ => by rw [hm]) hb hr, fun _ _ h => h,
    fun t p h1 h2 => by rw [h1] at h2; simp at h2, hb, fun _ _ _ => by rw [hm], hr, ht,
    fun _ _ _ _ => by rw [hm], fun _ _ _ _ => Or.inl (by rw [hm]),
    fun _ _ _ _ _ _ _ => by rw [hm]⟩, fun t p i c h1 _ h2 _ => ⟨h1, by rw [← hm]; exact h2⟩⟩

theorem Mapped.refl (h : Forest s tag) : Mapped E W s tag s tag :=
  Mapped.same h rfl (fun _ h => h) rfl rfl

/-- A frame that becomes a table changes no other. -/
theorem Fresh.changed {w : Fin 512 → Word} (hf : Fresh s s' f w) (h : Forest s tag) (hp : p.length ≤ 3)
    (hentry : p.length < 3 → ∀ i, has (w i) pagePresent = false ∨
      ∃ u, tag u = some p ∧ w i = s.mem u i) :
    Changed E W s tag s' (Function.update tag f (some p)) := by
  refine ⟨hf.adopt h hp hentry, fun u q hu => h.keep_tag hf.free hu, fun u q hu hq => ?_, hf.used,
    fun g _ hb => ?_, hf.pml4, hf.total, fun r v hr _ => h.walk_congr (fun _ _ hu => hf.old h hu) hr,
    fun u q k hu => Or.inl ?_, fun u q k c hu _ _ => ?_⟩
  · rcases eq_or_ne u f with rfl | huf
    · exact hf.free
    · rw [Function.update_of_ne huf, hu] at hq
      cases hq
  · refine hf.other g ?_
    rintro rfl
    rw [hf.free] at hb
    cases hb
  · rw [hf.old h hu]
  · rw [hf.old h hu]

theorem Mapped.touch (h : Forest s tag) (a : Nat) : Mapped E W s tag (touch s a) tag :=
  Mapped.same h rfl (fun _ h => h) rfl rfl

theorem Mapped.mono (h : Mapped E W s tag s' tag')
    (he : ∀ π, E π → ∃ π', E' π' ∧ π <+: π') (hw : ∀ π, W π → W' π) :
    Mapped E' W' s tag s' tag' := by
  refine ⟨⟨h.forest, h.tags, h.fresh, h.bits, h.frames, h.pml4, h.total,
    fun r v hr hv => h.walks r v hr fun hc => hv ⟨hw _ hc.1, hc.2⟩, fun t p i ht => ?_, h.keep⟩,
    h.back⟩
  rcases h.off t p i ht with hc | ⟨⟨π, hπ, hpre⟩, hd⟩
  · exact Or.inl hc
  · obtain ⟨π', hπ', hpre'⟩ := he π hπ
    exact Or.inr ⟨⟨π', hπ', hpre.trans hpre'⟩, hd⟩

/-- A frame in use that is no table is none afterwards. -/
theorem Changed.untagged (h : Changed E W s tag s' tag') (hf : tag f = none)
    (hb : bitmapTest s f = true) : tag' f = none := by
  rcases hp : tag' f with _ | p
  · rfl
  · rw [h.fresh f p hf hp] at hb
    simp at hb

/-- A path that leads somewhere still leads there. -/
theorem Changed.descend (h : Changed E W s tag s' tag') (hs : Forest s tag) {q : Path}
    (ht : tag t = some p) (hlen : p.length + q.length ≤ 3)
    (hd : descend nextTable s.mem t q = some c) : descend nextTable s'.mem t q = some c :=
  hs.tagged.descend_keep ht hlen
    (fun u w k g hu hw hg => by rw [h.keep u w k g hu hw hg]; exact hg) hd

theorem Changed.ptOf (h : Changed E W s tag s' tag') (hs : Forest s tag) (hr : tag r = some [])
    (hd : ptOf s.mem r v = some c) : ptOf s'.mem r v = some c :=
  h.descend hs hr (by simp [tablePath]) hd

theorem Changed.shares (h : Changed E W s tag s' tag') (hs : Forest s tag) (hr : tag r = some [])
    (hsh : Shares s r v) : Shares s' r v := by
  obtain ⟨pt, h1, h2⟩ := hsh
  exact ⟨pt, by rw [h.pml4]; exact h.ptOf hs hs.root h1, h.ptOf hs hr h2⟩

theorem Changed.trans {s'' : Vm} {tag'' : Nat → Option Path} (hs : Forest s tag)
    (h : Changed E W s tag s' tag') (h' : Changed E W s' tag' s'' tag'') :
    Changed E W s tag s'' tag'' := by
  refine ⟨h'.forest, fun t p ht => h'.tags t p (h.tags t p ht), ?_,
    fun f hf => h'.bits f (h.bits f hf), ?_, h'.pml4.trans h.pml4, h'.total.trans h.total,
    ?_, ?_, ?_⟩
  · intro t p h1 h2
    rcases hp : tag' t with _ | q
    · have := h'.fresh t p hp h2
      rcases hb : bitmapTest s t with _ | _
      · rfl
      · rw [h.bits t hb] at this
        simp at this
    · exact h.fresh t q h1 hp
  · intro f hf hb
    rw [h'.frames f (h.untagged hf hb) (h.bits f hb), h.frames f hf hb]
  · intro r v hr hv
    rw [h'.walks r v (h.tags r [] hr) hv, h.walks r v hr]
    rintro ⟨hw, hsh⟩
    exact hv ⟨hw, h'.shares h.forest (h.tags r [] hr) hsh⟩
  · intro t p i ht
    rcases h'.off t p i (h.tags t p ht) with h1 | h1
    · rcases h.off t p i ht with h2 | ⟨h2, hd⟩
      · exact Or.inl (h1.trans h2)
      · refine Or.inr ⟨h2, ?_⟩
        rw [h'.pml4]
        have := hs.depth t p ht
        exact h'.descend h.forest h.forest.root (by simpa using this) hd
    · exact Or.inr h1
  · intro t p i c ht hp hc
    have h1 := h.keep t p i c ht hp hc
    rw [h'.keep t p i c (h.tags t p ht) hp (by rw [h1]; exact hc), h1]

theorem Mapped.trans {s'' : Vm} {tag'' : Nat → Option Path} (hs : Forest s tag)
    (h : Mapped E W s tag s' tag') (h' : Mapped E W s' tag' s'' tag'') :
    Mapped E W s tag s'' tag'' := by
  refine ⟨h.toChanged.trans hs h'.toChanged, fun t p i c ht hp hc ⟨q, hq⟩ => ?_⟩
  obtain ⟨h1, h2⟩ := h'.back t p i c ht hp hc ⟨q, h.tags c q hq⟩
  exact h.back t p i c h1 hp h2 ⟨q, hq⟩

theorem leafEntry_absent {q : Path} (he : has e pagePresent = false) : leafEntry e q = none := by
  match q with
  | [] => simp only [leafEntry, he, Bool.false_eq_true, if_false]
  | [_] => simp only [leafEntry, he, Bool.false_and, Bool.false_eq_true, if_false]
  | _ :: _ :: _ => rfl

/-- Nothing is translated below an empty table. -/
theorem look_empty {m : Memory} {q : Path} (h : ∀ k, has (m f k) pagePresent = false) :
    look translator m f q = none := by
  match q with
  | [] => rfl
  | [k] =>
    rw [look]
    exact leafEntry_absent (q := []) (h k)
  | k :: j :: q =>
    rw [look, show translator.next (m f k) = none from nextTable_none (h k)]
    exact leafEntry_absent (h k)

/-- Of the entries of old tables at most entry `i` of `t` changed, which pointed nowhere; nothing else
    points at fresh tables, and no translation changed. -/
structure Grafted (t : Nat) (i : Fin 512) (s : Vm) (tag : Nat → Option Path) (s' : Vm)
    (tag' : Nat → Option Path) : Prop where
  forest : Forest s' tag'
  tags : ∀ u p, tag u = some p → tag' u = some p
  fresh : ∀ u p, tag u = none → tag' u = some p → bitmapTest s u = false
  bits : ∀ f, bitmapTest s f = true → bitmapTest s' f = true
  frames : ∀ f, tag f = none → bitmapTest s f = true → s'.mem f = s.mem f
  pml4 : s'.pml4 = s.pml4
  total : s'.totalFrames = s.totalFrames
  walks : ∀ r v, tag r = some [] → walk s'.mem r v = walk s.mem r v
  other : ∀ u p k, tag u = some p → (u, k) ≠ (t, i) → s'.mem u k = s.mem u k
  keep : ∀ u p k c, tag u = some p → p.length < 3 → nextTable (s.mem u k) = some c →
    s'.mem u k = s.mem u k
  back : ∀ u p k c, tag' u = some p → p.length < 3 → nextTable (s'.mem u k) = some c →
    (∃ q, tag c = some q) → tag u = some p ∧ nextTable (s.mem u k) = some c

theorem Grafted.refl (h : Forest s tag) : Grafted t i s tag s tag where
  forest := h
  tags := fun _ _ hu => hu
  fresh := fun u p hn hu => by
    rw [hn] at hu
    cases hu
  bits := fun _ hf => hf
  frames := fun _ _ _ => rfl
  pml4 := rfl
  total := rfl
  walks := fun _ _ _ => rfl
  other := fun _ _ _ _ _ => rfl
  keep := fun _ _ _ _ _ _ _ => rfl
  back := fun _ _ _ _ hu _ hc _ => ⟨hu, hc⟩

theorem Grafted.untagged (g : Grafted t i s tag s' tag') (hf : tag f = none)
    (hb : bitmapTest s f = true) : tag' f = none := by
  rcases hp : tag' f with _ | p
  · rfl
  · rw [g.fresh f p hf hp] at hb
    cases hb

theorem Grafted.leads (g : Grafted t i s tag s' tag') (h : Forest s tag) {q : Path}
    (hr : tag r = some []) (hq : q.length ≤ 3) (hd : descend nextTable s.mem r q = some c) :
    descend nextTable s'.mem r q = some c :=
  h.tagged.descend_keep hr (by simpa using hq)
    (fun u w k c' hu hw hc => by rw [g.keep u w k c' hu hw hc]; exact hc) hd

/-- Under the current root it is an operation along the paths below the entry. -/
theorem Grafted.grown (g : Grafted t i s tag s' tag') (h : Forest s tag) (ht : tag t = some p)
    (hd : descend nextTable s.mem s.pml4 p = some t) (hπ : p ++ [i] <+: π) :
    Grown π s tag s' tag' := by
  have hdepth := h.depth t p ht
  refine ⟨⟨g.forest, g.tags, g.fresh, g.bits, g.frames, g.pml4, g.total, fun r v hr _ => g.walks r v hr,
    fun u w k hu => ?_, g.keep⟩, g.back⟩
  by_cases hk : (u, k) = (t, i)
  · obtain ⟨rfl, rfl⟩ := Prod.mk.inj hk
    rw [ht, Option.some.injEq] at hu
    subst hu
    rw [g.pml4]
    exact Or.inr ⟨⟨π, rfl, hπ⟩, g.leads h h.root hdepth hd⟩
  · exact Or.inl (g.other u w k hu hk)

/-- A fresh frame with words `w`, entered at an entry that pointed nowhere and made to give what
    the entry gave. -/
theorem Forest.graft {s₁ : Vm} {w : Fin 512 → Word} (h : Forest s tag) (ht : tag t = some p)
    (hp : p.length < 3) (hf : Fresh s s₁ f w)
    (hold : nextTable (s.mem t i) = none) (he : nextTable e = some f)
    (hwr : has e pageWritable = true)
    (hempty : p.length + 1 < 3 → ∀ k, has (w k) pagePresent = false)
    (hsame : ∀ q, p.length + 1 + q.length = 4 →
      (look translator (fun _ => w) f q).map (translator.via e) = leafEntry (s.mem t i) q) :
    Grafted t i s tag (writeEntry s₁ t i e) (Function.update tag f (some (p ++ [i]))) := by
  have htf : t ≠ f := h.ne_free ht hf.free
  have hlen : (p ++ [i]).length = p.length + 1 := by simp
  have h₂ : Forest s₁ (Function.update tag f (some (p ++ [i]))) :=
    hf.adopt h (by omega) fun hl k => Or.inl (hempty (by omega) k)
  have ht₂ : Function.update tag f (some (p ++ [i])) t = some p := h.keep_tag hf.free ht
  obtain ⟨hep, heh, -⟩ := nextTable_some he
  have hother : ∀ u w k, tag u = some w → (u, k) ≠ (t, i) →
      (writeEntry s₁ t i e).mem u k = s.mem u k := by
    intro u w k hu hk
    rw [writeEntry_other hk, hf.old h hu]
  -- a page table is only looked up by one index, and any other fresh table is empty
  have hlook : ∀ q, p.length + 1 + q.length = 4 →
      look translator (writeEntry s₁ t i e).mem f q = look translator (fun _ => w) f q := by
    intro q hq
    have hw : (writeEntry s₁ t i e).mem f = w := by rw [writeEntry_frame htf.symm, hf.self]
    rcases q with _ | ⟨k, _ | ⟨j, q⟩⟩
    · rfl
    · rw [look, look, hw]
    · have hl : p.length + 1 < 3 := by simp only [List.length_cons] at hq; omega
      rw [look_empty (fun k => by rw [hw]; exact hempty hl k), look_empty fun k => hempty hl k]
  have hkeep : ∀ u w k c, tag u = some w → w.length < 3 → nextTable (s.mem u k) = some c →
      (writeEntry s₁ t i e).mem u k = s.mem u k := by
    intro u w k c hu hw hc
    refine hother u w k hu fun hk => ?_
    obtain ⟨rfl, rfl⟩ := Prod.mk.inj hk
    rw [hold] at hc
    simp at hc
  refine ⟨h₂.write ht₂ ?_ (fun _ _ => heh) (fun _ _ hc => by rw [heh] at hc; simp at hc), ?_, ?_,
    hf.used, ?_, hf.pml4, hf.total, ?_, hother, hkeep, ?_⟩
  · intro _ g hg
    rw [he, Option.some.injEq] at hg
    rw [← hg]
    exact ⟨Function.update_self .., hwr⟩
  · exact fun u w hu => h.keep_tag hf.free hu
  · intro u w h1 h2
    rcases eq_or_ne u f with rfl | hu
    · exact hf.free
    · rw [Function.update_of_ne hu, h1] at h2
      simp at h2
  · intro g hg hb
    have hgf : g ≠ f := by rintro rfl; rw [hf.free] at hb; simp at hb
    have hgt : g ≠ t := by rintro rfl; rw [ht] at hg; simp at hg
    rw [writeEntry_frame hgt, hf.other g hgf]
  · intro r v hr
    refine h.tagged.look_graft ht hp hother hold (by rw [writeEntry_self]; exact he) ?_ hr
      (by simp [pathOf])
    intro q hq
    rw [writeEntry_self, hlook q hq]
    exact hsame q hq
  · rintro u w k c hu hw hc ⟨q, hq⟩
    have hcf : c ≠ f := h.ne_free hq hf.free
    rcases eq_or_ne u f with rfl | huf
    · -- the fresh table has no pointer yet
      rw [Function.update_self, Option.some.injEq] at hu
      rw [writeEntry_frame htf.symm, hf.self] at hc
      rw [nextTable_none (hempty (by rw [← hu, hlen] at hw; exact hw) k)] at hc
      simp at hc
    rw [Function.update_of_ne huf] at hu
    by_cases hk : (u, k) = (t, i)
    · obtain ⟨rfl, rfl⟩ := Prod.mk.inj hk
      rw [writeEntry_self, he, Option.some.injEq] at hc
      exact absurd hc.symm hcf
    · rw [hother u w k hu hk] at hc
      exact ⟨hu, hc⟩

/-! ### The steps of mapping -/

/-- Flags that make an entry point at a table, and leave it writable. -/
structure TableFlags (fl : Word) : Prop where
  addr : fl &&& pteAddrMask = 0#64
  present : has fl pagePresent = true
  huge : has fl pageHuge = false
  writable : has fl pageWritable = true

theorem tableFlags_kernel : TableFlags (pagePresent ||| pageWritable) := by
  constructor <;> decide

theorem tableFlags_user : TableFlags cloneFlags := by
  constructor <;> decide

/-- A table's address with such flags points at the table. -/
theorem TableFlags.next (hfl : TableFlags fl) (hc : c < 2 ^ 40) :
    nextTable (frameWord c ||| fl) = some c := by
  have hp := hfl.present
  have hh := hfl.huge
  rw [has_present] at hp
  rw [has_huge] at hh
  rw [nextTable_eq, entryFrame_or hfl.addr, entryFrame_frameWord hc]
  · rw [has_present, BitVec.getLsbD_or, hp, Bool.or_true]
  · rw [has_huge, BitVec.getLsbD_or, hh, frameWord_getLsbD c (by decide)]; rfl

theorem TableFlags.user (fl : Word) : has (frameWord c ||| fl) pageUser = has fl pageUser := by
  rw [has_user, has_user, BitVec.getLsbD_or, frameWord_getLsbD c (by decide), Bool.false_or]

/-- Such an entry is writable. -/
theorem TableFlags.entry (hfl : TableFlags fl) : has (frameWord c ||| fl) pageWritable = true := by
  have hw := hfl.writable
  rw [has_writable] at hw ⊢
  rw [BitVec.getLsbD_or, hw, Bool.or_true]

theorem getOrCreateTable_none (h : Forest s tag) (ht : tag t = some p) (hp : p.length < 3)
    (hg : getOrCreateTable im s t i fl = (none, s')) : s' = s := by
  unfold getOrCreateTable at hg
  cases hpr : has (s.mem t i) pagePresent with
  | true =>
    rw [if_pos hpr] at hg
    cases hh : has (s.mem t i) pageHuge with
    | true => rw [if_pos hh] at hg; exact (Prod.mk.inj hg).2.symm
    | false =>
      obtain ⟨-, hc⟩ := h.child ht hp hpr fun _ => hh
      rw [if_neg (by simp [hh]), framePtr, if_neg (h.used _ _ hc).1.ne'] at hg
      simp at hg
  | false =>
    rw [if_neg (by simp [hpr])] at hg
    rcases ha : pagingAllocTable im s with ⟨_ | c, s₁⟩
    · rw [ha] at hg
      obtain ⟨-, rfl⟩ := Prod.mk.inj hg
      exact pagingAllocTable_none h.null ha
    · rw [ha] at hg; simp at hg

theorem getOrCreateTable_next (h : nextTable (s.mem t i) = some c) (hc : 0 < c) :
    getOrCreateTable im s t i fl = (some c, touch s (c * pageSize)) := by
  obtain ⟨hpr, hh, he⟩ := nextTable_some h
  rw [getOrCreateTable]
  simp only [hpr, hh, if_true, he, framePtr, if_neg hc.ne', Bool.false_eq_true, if_false]

theorem splitHugePage_next (h : nextTable (s.mem t i) = some c) :
    splitHugePage im s t i = (true, s) := by
  obtain ⟨-, hh, -⟩ := nextTable_some h
  rw [splitHugePage]
  simp only [hh, Bool.not_false, Bool.or_true, if_true]

theorem splitHugePage_absent (h : has (s.mem t i) pagePresent = false) :
    splitHugePage im s t i = (true, s) := by
  rw [splitHugePage]
  simp only [h, Bool.not_false, Bool.true_or, if_true]

/-- The table below an entry, made if need be, is tagged with the entry's path. -/
theorem getOrCreateTable_some (π : Path) (h : Forest s tag) (ht : tag t = some p)
    (hd : descend nextTable s.mem s.pml4 p = some t) (hp : p.length < 3) (hπ : p ++ [i] <+: π)
    (hfl : TableFlags fl) (hg : getOrCreateTable im s t i fl = (some c, s')) :
    ∃ tag', Grown π s tag s' tag' ∧ tag' c = some (p ++ [i]) ∧
      nextTable (s'.mem t i) = some c := by
  unfold getOrCreateTable at hg
  cases hpr : has (s.mem t i) pagePresent with
  | true =>
    rw [if_pos hpr] at hg
    cases hh : has (s.mem t i) pageHuge with
    | true => rw [if_pos hh] at hg; simp at hg
    | false =>
      obtain ⟨hn, hc⟩ := h.child ht hp hpr fun _ => hh
      rw [if_neg (by simp [hh]), framePtr, if_neg (h.used _ _ hc).1.ne'] at hg
      obtain ⟨h1, rfl⟩ := Prod.mk.inj hg
      rw [Option.some.injEq] at h1
      exact ⟨tag, Mapped.touch h _, h1 ▸ hc, h1 ▸ hn⟩
  | false =>
    rw [if_neg (by simp [hpr])] at hg
    rcases ha : pagingAllocTable im s with ⟨_ | f, s₁⟩
    · rw [ha] at hg; simp at hg
    · rw [ha] at hg
      obtain ⟨h1, rfl⟩ := Prod.mk.inj hg
      rw [Option.some.injEq] at h1
      subst h1
      have hf := pagingAllocTable_some h.null ha
      have hlt := hf.lt
      have hn : nextTable (frameWord f ||| fl) = some f :=
        hfl.next (by simp only [identityMapLimit, pageSize] at hlt; omega)
      refine ⟨_, (h.graft ht hp hf (nextTable_none hpr) hn hfl.entry (fun _ _ => rfl) ?_).grown h ht hd hπ,
        Function.update_self .., by rw [writeEntry_self]; exact hn⟩
      intro q _
      rw [look_empty fun _ => rfl, leafEntry_absent hpr]
      rfl

/-- Only the table it reads the entry of and the one it gives are written. -/
theorem getOrCreateTable_left (hnull : bitmapTest s 0 = true)
    (hg : getOrCreateTable im s t i fl = (some c, s')) (ht : u ≠ t) (hc : u ≠ c) :
    s'.mem u = s.mem u := by
  unfold getOrCreateTable at hg
  dsimp only at hg
  split at hg
  · split at hg
    · cases hg
    · obtain ⟨-, rfl⟩ := Prod.mk.inj hg
      rfl
  · rcases ha : pagingAllocTable im s with ⟨_ | f, s₁⟩
    · rw [ha] at hg
      cases hg
    · rw [ha] at hg
      obtain ⟨h1, rfl⟩ := Prod.mk.inj hg
      rw [Option.some.injEq] at h1
      rw [writeEntry_frame ht]
      exact (pagingAllocTable_some hnull ha).other u (h1 ▸ hc)

/-- The page table of a split gives what the huge page gave. -/
theorem split_look {m : Memory} {q : Path} (h : Forest s tag) (ht : tag t = some p) (hp : p.length = 2)
    (hpr : has (s.mem t i) pagePresent = true) (hh : has (s.mem t i) pageHuge = true)
    (hm : m f = splitEntry (s.mem t i)) (hq : p.length + 1 + q.length = 4) :
    (look translator m f q).map (translator.via (frameWord f ||| (pagePresent ||| pageWritable))) =
      leafEntry (s.mem t i) q := by
  obtain ⟨hal, hus⟩ := h.huge t p i ht hp hpr hh
  obtain ⟨j, rfl⟩ : ∃ j, q = [j] := List.length_eq_one_iff.mp (by omega)
  obtain ⟨-, hbits⟩ := splitEntry_spec hal j
  have hp' : has (splitEntry (s.mem t i) j) pagePresent = true := by
    rw [has_present, hbits 0 (by decide), ← has_present]; exact hpr
  have hk : has (frameWord f ||| (pagePresent ||| pageWritable)) pageUser = false := by
    rw [TableFlags.user]; decide
  rw [look, hm]
  simp only [translator, leafEntry, hp', hpr, hh, hus, hk, Bool.and_self, if_true, Option.map_some,
    Bool.false_and]

/-- Splitting a huge page of any directory translates its addresses as before. -/
theorem splitHugePage_grafted (h : Forest s tag) (ht : tag t = some p) (hp : p.length = 2) {ok : Bool}
    (hg : splitHugePage im s t i = (ok, s')) : ∃ tag', Grafted t i s tag s' tag' := by
  unfold splitHugePage at hg
  dsimp only at hg
  cases hpr : has (s.mem t i) pagePresent with
  | false =>
    rw [hpr, if_pos (by simp)] at hg
    obtain ⟨-, rfl⟩ := Prod.mk.inj hg
    exact ⟨tag, .refl h⟩
  | true =>
    cases hh : has (s.mem t i) pageHuge with
    | false =>
      rw [hpr, hh, if_pos (by simp)] at hg
      obtain ⟨-, rfl⟩ := Prod.mk.inj hg
      exact ⟨tag, .refl h⟩
    | true =>
      rw [hpr, hh, if_neg (by simp)] at hg
      rcases ha : pagingAllocTable im s with ⟨_ | f, s₁⟩
      · rw [ha] at hg
        obtain ⟨-, rfl⟩ := Prod.mk.inj hg
        rw [pagingAllocTable_none h.null ha]
        exact ⟨tag, .refl h⟩
      · rw [ha] at hg
        obtain ⟨-, rfl⟩ := Prod.mk.inj hg
        have hf := (pagingAllocTable_some h.null ha).fill (splitEntry (s.mem t i))
        have hlt := hf.lt
        refine ⟨_, h.graft ht (by omega) hf ?_
          (tableFlags_kernel.next (by simp only [identityMapLimit, pageSize] at hlt; omega))
          tableFlags_kernel.entry (fun hl => by omega) fun _ => split_look h ht hp hpr hh rfl⟩
        rw [nextTable, hpr, hh]
        rfl

theorem splitHugePage_grown (π : Path) (h : Forest s tag) (ht : tag t = some p)
    (hd : descend nextTable s.mem s.pml4 p = some t) (hp : p.length = 2) (hπ : p ++ [i] <+: π) {ok : Bool}
    (hg : splitHugePage im s t i = (ok, s')) : ∃ tag', Grown π s tag s' tag' := by
  obtain ⟨tag', g⟩ := splitHugePage_grafted h ht hp hg
  exact ⟨tag', g.grown h ht hd hπ⟩

theorem splitHugePage_left (hnull : bitmapTest s 0 = true)
    (hg : splitHugePage im s t i = (true, s')) (ht : u ≠ t) (hn : nextTable (s'.mem t i) ≠ some u) :
    s'.mem u = s.mem u := by
  unfold splitHugePage at hg
  dsimp only at hg
  split at hg
  · obtain ⟨-, rfl⟩ := Prod.mk.inj hg
    rfl
  · rcases ha : pagingAllocTable im s with ⟨_ | f, s₁⟩
    · rw [ha] at hg
      cases hg
    · rw [ha] at hg
      obtain ⟨-, rfl⟩ := Prod.mk.inj hg
      have hf := (pagingAllocTable_some hnull ha).fill (splitEntry (s.mem t i))
      have hlt := hf.lt
      rw [writeEntry_frame ht]
      refine hf.other u fun hu => hn ?_
      rw [writeEntry_self, hu]
      exact tableFlags_kernel.next (by simp only [identityMapLimit, pageSize] at hlt; omega)

/-! ### The write of a page's entry -/

/-- Whether every entry along a path allows user access. -/
def userPath (m : Memory) : Nat → Path → Bool
  | _, [] => true
  | t, i :: p => has (m t i) pageUser && (((nextTable (m t i)).map fun f => userPath m f p).getD true)

theorem viaPath_translator (m : Memory) : ∀ (p : Path) (t : Nat) (x : Word × Bool),
    viaPath translator m t p x = (x.1, userPath m t p && x.2)
  | [], t, x => by simp [viaPath, userPath]
  | i :: p, t, x => by
    rw [viaPath, userPath]
    cases hn : nextTable (m t i) with
    | none => simp [translator, hn]
    | some f =>
      rw [show translator.next (m t i) = some f from hn]
      simp only [Option.map_some, Option.getD_some]
      rw [viaPath_translator m p f x, Bool.and_assoc]
      rfl

/-- Who may go down to a page table is up to the tables above. -/
theorem Forest.userPath_congr {m : Memory} (h : Forest s tag)
    (hm : ∀ u w k, tag u = some w → w.length < 3 → m u k = s.mem u k) : ∀ {q : Path} {t : Nat} {p : Path},
    tag t = some p → p.length + q.length ≤ 3 → userPath m t q = userPath s.mem t q
  | [], _, _, _, _ => rfl
  | k :: q, t, p, ht, hlen => by
    rw [List.length_cons] at hlen
    rw [userPath, userPath, hm t p k ht (by omega)]
    cases hn : nextTable (s.mem t k) with
    | none => rfl
    | some g =>
      have hg := h.tagged t p k g ht (by omega) hn
      rw [Option.map_some, Option.map_some,
        h.userPath_congr hm hg (by rw [List.length_append, List.length_singleton]; omega)]

theorem pathOf_eq (v : Nat) : pathOf v = tablePath v ++ [ptIndex v] := rfl

theorem length_tablePath (v : Nat) : (tablePath v).length = 3 := rfl

theorem not_prefix_tablePath {w : Path} (hw : w.length = 3) : ¬ w ++ [i] <+: tablePath v := by
  intro h
  have := h.length_le
  rw [List.length_append, hw, length_tablePath] at this
  simp at this

/-- What a walk finds in the page table it comes to. -/
theorem walk_ptOf {m : Memory} (hpt : ptOf m r v = some t) :
    walk m r v = if has (m t (ptIndex v)) pagePresent then
      some (m t (ptIndex v), userPath m r (tablePath v) && has (m t (ptIndex v)) pageUser)
      else none := by
  have hd : descend translator.next m r (tablePath v) = some t := hpt
  rw [walk, pathOf_eq, look_descend hd (by simp), look,
    show translator.stop (m t (ptIndex v)) [] = leafEntry (m t (ptIndex v)) [] from rfl, leafEntry]
  split
  · rw [Option.map_some, viaPath_translator]
  · rfl

/-- Writing an entry of a page table leaves the tables as they are. -/
theorem Forest.ptOf_leaf (h : Forest s tag) {w : Path} (ht : tag t = some w) (hw : w.length = 3)
    (hr : tag r = some []) : ptOf (writeEntry s t i e).mem r v = ptOf s.mem r v := by
  refine h.tagged.descend_congr hr (by simp [tablePath]) fun u w' k hu hk => ?_
  rw [writeEntry_other]
  rintro hc
  rw [(Prod.mk.inj hc).1, ht, Option.some.injEq] at hu
  exact not_prefix_tablePath (hu ▸ hw) hk

/-- Writing the entry of `v` in its page table changes the translation of no other page. -/
theorem Forest.walk_leaf {u : Nat} (h : Forest s tag) (ht : tag t = some (tablePath v))
    (hr : tag r = some []) (hu : pathOf u ≠ pathOf v) :
    walk (writeEntry s t (ptIndex v) e).mem r u = walk s.mem r u := by
  refine h.tagged.look_congr hr (by simp [pathOf]) fun f w k hf hk => ?_
  rw [writeEntry_other]
  rintro hc
  obtain ⟨rfl, rfl⟩ := Prod.mk.inj hc
  rw [ht, Option.some.injEq] at hf
  rw [← hf, List.nil_append, ← pathOf_eq] at hk
  exact hu (List.IsPrefix.eq_of_length hk rfl).symm

/-- Writing the entry of `v` in a page table that `r` does not use for it changes nothing there. -/
theorem Forest.walk_leaf_other (h : Forest s tag) (ht : tag t = some (tablePath v))
    (hr : tag r = some []) (hpt : ptOf s.mem r v ≠ some t) :
    walk (writeEntry s t (ptIndex v) e).mem r v = walk s.mem r v := by
  refine h.tagged.look_avoid hr (by simp [pathOf]) fun u w k hu hk hd => ?_
  rw [writeEntry_other]
  rintro hc
  rw [(Prod.mk.inj hc).1] at hu hd
  rw [ht, Option.some.injEq, List.nil_append] at hu
  rw [← hu] at hd
  exact hpt hd

/-- The write of an entry into the page table of `v` under the current root. -/
theorem Forest.mapped_leaf (h : Forest s tag) (ht : tag t = some (tablePath v))
    (hpt : ptOf s.mem s.pml4 v = some t) :
    Mapped (· = pathOf v) (· = pathOf v) s tag (writeEntry s t (ptIndex v) e) tag := by
  have hroot : (writeEntry s t (ptIndex v) e).pml4 = s.pml4 := rfl
  refine ⟨⟨h.write_leaf ht rfl, fun _ _ h => h, fun u p h1 h2 => by rw [h1] at h2; simp at h2,
    fun _ h => h, fun f hf _ => writeEntry_frame (by rintro rfl; rw [ht] at hf; simp at hf), rfl,
    rfl, fun r u hr hu => ?_, fun u p k hu => ?_, fun u p k c hu hp _ => writeEntry_other ?_⟩,
    fun u p k c hu hp hc _ => ⟨hu, ?_⟩⟩
  · by_cases huv : pathOf u = pathOf v
    · have hind : ptIndex u = ptIndex v ∧ tablePath u = tablePath v := by
        simp only [pathOf, List.cons.injEq, and_true] at huv
        simp only [tablePath, huv, and_self]
      have hpu : ∀ m, ptOf m r u = ptOf m r v := fun m => by rw [ptOf, ptOf, hind.2]
      have hw : ∀ m, walk m r u = walk m r v := fun m => by rw [walk, walk, huv]
      rw [hw, hw]
      refine h.walk_leaf_other ht hr fun hc => hu ⟨huv, t, ?_, ?_⟩
      · rw [hroot, ptOf, hind.2]
        exact (h.ptOf_leaf ht rfl h.root).trans hpt
      · rw [hpu, h.ptOf_leaf ht rfl hr, hc]
    · exact h.walk_leaf ht hr huv
  · by_cases hc : (u, k) = (t, ptIndex v)
    · obtain ⟨rfl, rfl⟩ := Prod.mk.inj hc
      rw [ht, Option.some.injEq] at hu
      refine Or.inr ⟨⟨_, rfl, hu ▸ List.prefix_rfl⟩, ?_⟩
      rw [← hu, hroot]
      exact (h.ptOf_leaf ht rfl h.root).trans hpt
    · exact Or.inl (writeEntry_other hc)
  · rintro hc
    rw [(Prod.mk.inj hc).1, ht, Option.some.injEq] at hu
    rw [← hu, length_tablePath] at hp
    omega
  · rw [writeEntry_other] at hc
    · exact hc
    · rintro he
      rw [(Prod.mk.inj he).1, ht, Option.some.injEq] at hu
      rw [← hu, length_tablePath] at hp
      omega

/-! ### Mapping a page -/

/-- `paging_map_page_flags` grows the forest along the page's path. If it fails that is all; if it
    works, only tables on that path were written, and it then writes the entry into the page table
    the page has under the current root. -/
theorem pagingMapPageFlags_way (h : Forest s tag) {phys : Nat} {flags : Word} (hfl : TableFlags fl)
    {ok : Bool} (hm : pagingMapPageFlags im s v phys flags fl = (ok, s')) :
    (ok = false ∧ ∃ tag', Grown (tablePath v) s tag s' tag') ∨
    (ok = true ∧ v % pageSize = 0 ∧ phys % pageSize = 0 ∧ ∃ tag' s₁ pt,
      Grown (tablePath v) s tag s₁ tag' ∧ tag' pt = some (tablePath v) ∧
      ptOf s₁.mem s₁.pml4 v = some pt ∧ (∀ u, ¬ OnWay s₁ v u → s₁.mem u = s.mem u) ∧
      s' = writeEntry s₁ pt (ptIndex v) ((BitVec.ofNat 64 phys &&& pteAddrMask) ||| flags)) := by
  unfold pagingMapPageFlags at hm
  split at hm
  · obtain ⟨rfl, rfl⟩ := Prod.mk.inj hm
    exact Or.inl ⟨rfl, tag, Mapped.refl h⟩
  next hal =>
  rcases h1 : getOrCreateTable im s s.pml4 (pml4Index v) fl with ⟨_ | pdpt, s₁⟩
  · rw [h1] at hm
    obtain ⟨rfl, rfl⟩ := Prod.mk.inj hm
    rw [getOrCreateTable_none h h.root (by simp) h1]
    exact Or.inl ⟨rfl, tag, Mapped.refl h⟩
  obtain ⟨tag₁, g1, ht1, hn1⟩ := getOrCreateTable_some (tablePath v) h h.root rfl (by simp)
    ⟨[pdpIndex v, pdIndex v], rfl⟩ hfl h1
  have hd1 : descend nextTable s₁.mem s₁.pml4 [pml4Index v] = some pdpt := by
    rw [descend, g1.pml4, hn1]; rfl
  simp only [h1] at hm
  rcases h2 : getOrCreateTable im s₁ pdpt (pdpIndex v) fl with ⟨_ | pd, s₂⟩
  · rw [h2] at hm
    obtain ⟨rfl, rfl⟩ := Prod.mk.inj hm
    rw [getOrCreateTable_none g1.forest ht1 (by simp) h2]
    exact Or.inl ⟨rfl, tag₁, g1⟩
  obtain ⟨tag₂, g2, ht2, hn2⟩ := getOrCreateTable_some (tablePath v) g1.forest ht1 hd1
    (by simp) ⟨[pdIndex v], rfl⟩ hfl h2
  have hd2 : descend nextTable s₂.mem s₂.pml4 [pml4Index v, pdpIndex v] = some pd := by
    have := g2.descend g1.forest g1.forest.root (by simp) hd1
    rw [g2.pml4, show [pml4Index v, pdpIndex v] = [pml4Index v] ++ [pdpIndex v] from rfl,
      descend_append, this, Option.bind_some, descend, hn2]
    rfl
  simp only [h2] at hm
  rcases h3 : splitHugePage im s₂ pd (pdIndex v) with ⟨ok3, s₃⟩
  obtain ⟨tag₃, g3⟩ := splitHugePage_grown (tablePath v) g2.forest ht2 hd2 rfl
    List.prefix_rfl h3
  have g12 := g1.trans h g2
  have g13 := g12.trans h g3
  have hd3 := g3.descend g2.forest g2.forest.root (by simp) hd2
  rw [← g3.pml4] at hd3
  cases ok3 with
  | false =>
    rw [h3] at hm
    obtain ⟨rfl, rfl⟩ := Prod.mk.inj hm
    exact Or.inl ⟨rfl, tag₃, g13⟩
  | true =>
    simp only [h3] at hm
    have ht3 := g3.tags pd _ ht2
    rcases h4 : getOrCreateTable im s₃ pd (pdIndex v) fl with ⟨_ | pt, s₄⟩
    · rw [h4] at hm
      obtain ⟨rfl, rfl⟩ := Prod.mk.inj hm
      rw [getOrCreateTable_none g3.forest ht3 (by simp) h4]
      exact Or.inl ⟨rfl, tag₃, g13⟩
    obtain ⟨tag₄, g4, ht4, hn4⟩ := getOrCreateTable_some (tablePath v) g3.forest ht3 hd3
      (by simp) List.prefix_rfl hfl h4
    simp only [h4] at hm
    obtain ⟨rfl, rfl⟩ := Prod.mk.inj hm
    have hd4 := g4.descend g3.forest g3.forest.root (by simp) hd3
    rw [← g4.pml4] at hd4
    have hpt : ptOf s₄.mem s₄.pml4 v = some pt := by
      rw [ptOf, show tablePath v = [pml4Index v, pdpIndex v] ++ [pdIndex v] from rfl,
        descend_append, hd4, Option.bind_some, descend, hn4]
      rfl
    have g24 := (g2.trans g1.forest g3).trans g1.forest g4
    have hd1' := g24.descend g1.forest g1.forest.root (by simp) hd1
    rw [← g24.pml4] at hd1'
    refine Or.inr ⟨rfl, by omega, by omega, tag₄, s₄, pt, g13.trans h g4, ht4, hpt, fun u hu => ?_, rfl⟩
    -- the tables that were written are the ones on the way
    have hroot : u ≠ s.pml4 := by
      rintro rfl
      exact hu ⟨[], List.nil_prefix, by rw [(g13.trans h g4).pml4]; rfl⟩
    have hpdpt : u ≠ pdpt := by
      rintro rfl
      exact hu ⟨_, ⟨[pdpIndex v, pdIndex v], rfl⟩, hd1'⟩
    have hpd : u ≠ pd := by
      rintro rfl
      exact hu ⟨_, ⟨[pdIndex v], rfl⟩, hd4⟩
    have hlast : u ≠ pt := by
      rintro rfl
      exact hu ⟨_, List.prefix_rfl, hpt⟩
    rw [getOrCreateTable_left g3.forest.null h4 hpd hlast,
      splitHugePage_left g2.forest.null h3 hpd ?_, getOrCreateTable_left g1.forest.null h2 hpdpt hpd,
      getOrCreateTable_left h.null h1 hroot hpdpt]
    intro hn
    rw [getOrCreateTable_next hn (g3.forest.used u _ (g3.forest.tagged _ _ _ _ ht3 (by simp) hn)).1] at h4
    exact hlast (Option.some.inj (Prod.mk.inj h4).1)

/-- It grows the forest, and where it works the entry of the page is written. -/
theorem pagingMapPageFlags_spec (h : Forest s tag) {phys : Nat} {flags : Word} (hfl : TableFlags fl)
    {ok : Bool} (hm : pagingMapPageFlags im s v phys flags fl = (ok, s')) :
    (ok = false ∧ ∃ tag', Grown (tablePath v) s tag s' tag') ∨
    (ok = true ∧ v % pageSize = 0 ∧ phys % pageSize = 0 ∧ ∃ tag' s₁ pt,
      Grown (tablePath v) s tag s₁ tag' ∧ tag' pt = some (tablePath v) ∧
      ptOf s₁.mem s₁.pml4 v = some pt ∧
      s' = writeEntry s₁ pt (ptIndex v) ((BitVec.ofNat 64 phys &&& pteAddrMask) ||| flags)) := by
  rcases pagingMapPageFlags_way h hfl hm with h | ⟨hok, hv, hp, tag', s₁, pt, g, ht, hpt, -, hs⟩
  · exact Or.inl h
  · exact Or.inr ⟨hok, hv, hp, tag', s₁, pt, g, ht, hpt, hs⟩

/-- Mapping a page changes the translation of that page only. -/
theorem pagingMapPageFlags_mapped (h : Forest s tag) {phys : Nat} {flags : Word}
    (hfl : TableFlags fl) {ok : Bool}
    (hm : pagingMapPageFlags im s v phys flags fl = (ok, s')) :
    ∃ tag', Mapped (· = pathOf v) (· = pathOf v) s tag s' tag' := by
  have hmono : ∀ {s₁ : Vm} {tag₁ : Nat → Option Path}, Grown (tablePath v) s tag s₁ tag₁ →
      Mapped (· = pathOf v) (· = pathOf v) s tag s₁ tag₁ := fun g =>
    g.mono (fun π hπ => ⟨_, rfl, hπ ▸ ⟨[ptIndex v], rfl⟩⟩) fun _ hc => hc.elim
  rcases pagingMapPageFlags_spec h hfl hm with
    ⟨-, tag', g⟩ | ⟨-, -, -, tag', s₁, pt, g, ht, hpt, rfl⟩
  · exact ⟨tag', hmono g⟩
  · exact ⟨tag', (hmono g).trans h (g.forest.mapped_leaf ht hpt)⟩

/-- After a successful mapping the page translates through the entry that was written. -/
theorem pagingMapPageFlags_walk (h : Forest s tag) {phys : Nat} {flags : Word}
    (hfl : TableFlags fl) (hpr : has flags pagePresent = true)
    (hm : pagingMapPageFlags im s v phys flags fl = (true, s')) :
    ∃ u, walk s'.mem s'.pml4 v =
      some ((BitVec.ofNat 64 phys &&& pteAddrMask) ||| flags, u && has flags pageUser) := by
  rcases pagingMapPageFlags_spec h hfl hm with
    ⟨hc, -⟩ | ⟨-, -, -, tag', s₁, pt, g, ht, hpt, rfl⟩
  · simp at hc
  have hpt' : ptOf (writeEntry s₁ pt (ptIndex v)
      ((BitVec.ofNat 64 phys &&& pteAddrMask) ||| flags)).mem s₁.pml4 v = some pt :=
    (g.forest.ptOf_leaf ht rfl g.forest.root).trans hpt
  have hlow : ∀ k < 12, ((BitVec.ofNat 64 phys &&& pteAddrMask) ||| flags).getLsbD k =
      flags.getLsbD k := by
    intro k hk
    rw [BitVec.getLsbD_or, BitVec.getLsbD_and, pteAddrMask_getLsbD hk, Bool.and_false,
      Bool.false_or]
  have := walk_ptOf hpt'
  simp only [writeEntry_self, has_present, has_user, hlow 0 (by decide), hlow 2 (by decide)] at this
  rw [has_present] at hpr
  rw [if_pos hpr] at this
  rw [has_user]
  exact ⟨_, this⟩

/-! ### Unmapping a page -/

/-- Two states that differ in the record of direct accesses at most. -/
def SameTables (s s' : Vm) : Prop :=
  s'.mem = s.mem ∧ s'.frameBitmap = s.frameBitmap ∧ s'.totalFrames = s.totalFrames ∧
    s'.pml4 = s.pml4

theorem SameTables.forest (h : Forest s tag) (hs : SameTables s s') : Forest s' tag := by
  obtain ⟨h1, h2, -, h4⟩ := hs
  exact h.congr (fun _ _ _ => by rw [h1])
    (fun f hf => by rw [bitmapTest, h2]; exact hf) h4

/-- `paging_unmap_page` clears the entry of the page if it has a page table. -/
theorem pagingUnmapPage_cases (h : Forest s tag) (v : Nat) :
    (ptOf s.mem s.pml4 v = none ∧ SameTables s (pagingUnmapPage s v)) ∨
    ∃ pt s₁, ptOf s.mem s.pml4 v = some pt ∧ tag pt = some (tablePath v) ∧ SameTables s s₁ ∧
      pagingUnmapPage s v = writeEntry s₁ pt (ptIndex v) 0#64 := by
  rw [ptOf, tablePath]
  cases h4 : has (s.mem s.pml4 (pml4Index v)) pagePresent with
  | false =>
    rw [descend, nextTable_none h4]
    refine Or.inl ⟨rfl, ?_⟩
    simp [pagingUnmapPage, h4, SameTables]
  | true =>
    obtain ⟨hn4, ht3⟩ := h.child h.root (by simp) h4 (by simp)
    rw [descend, hn4, Option.bind_some]
    set pdpt := entryFrame (s.mem s.pml4 (pml4Index v)) with hpdpt
    cases h3 : has (s.mem pdpt (pdpIndex v)) pagePresent with
    | false =>
      rw [descend, nextTable_none h3]
      refine Or.inl ⟨rfl, ?_⟩
      simp [pagingUnmapPage, touch, h4, ← hpdpt, h3, SameTables]
    | true =>
      obtain ⟨hn3, ht2⟩ := h.child ht3 (by simp) h3 (by simp)
      rw [descend, hn3, Option.bind_some]
      set pd := entryFrame (s.mem pdpt (pdpIndex v)) with hpd
      cases h2 : has (s.mem pd (pdIndex v)) pagePresent with
      | false =>
        rw [descend, nextTable_none h2]
        refine Or.inl ⟨rfl, ?_⟩
        simp [pagingUnmapPage, touch, h4, ← hpdpt, h3, ← hpd, h2, SameTables]
      | true =>
        cases hh : has (s.mem pd (pdIndex v)) pageHuge with
        | true =>
          rw [descend, show nextTable (s.mem pd (pdIndex v)) = none by rw [nextTable, h2, hh]; rfl]
          refine Or.inl ⟨rfl, ?_⟩
          simp [pagingUnmapPage, touch, h4, ← hpdpt, h3, ← hpd, h2, hh, SameTables]
        | false =>
          obtain ⟨hn2, ht1⟩ := h.child ht2 (by simp) h2 fun _ => hh
          rw [descend, hn2, Option.bind_some, descend]
          refine Or.inr ⟨_, touch (touch (touch s (pdpt * pageSize)) (pd * pageSize))
            (entryFrame (s.mem pd (pdIndex v)) * pageSize), rfl, ht1, ⟨rfl, rfl, rfl, rfl⟩, ?_⟩
          simp [pagingUnmapPage, touch, h4, ← hpdpt, h3, ← hpd, h2, hh]

theorem pagingUnmapPage_mapped (h : Forest s tag) (v : Nat) :
    Mapped (· = pathOf v) (· = pathOf v) s tag (pagingUnmapPage s v) tag := by
  have hsame : ∀ {s₁ : Vm}, SameTables s s₁ → Mapped (· = pathOf v) (· = pathOf v) s tag s₁ tag := by
    rintro s₁ ⟨h1, h2, h3, h4⟩
    exact Mapped.same h h1 (fun f hf => by rw [bitmapTest, h2]; exact hf) h4 h3
  rcases pagingUnmapPage_cases h v with ⟨-, hs⟩ | ⟨pt, s₁, hpt, ht, hs, heq⟩
  · exact hsame hs
  · rw [heq]
    refine (hsame hs).trans h (Forest.mapped_leaf (hs.forest h) ht ?_)
    rw [hs.1, hs.2.2.2]; exact hpt

/-- An unmapped page translates nowhere, if it had a page table. -/
theorem pagingUnmapPage_walk (h : Forest s tag) {pt : Nat} (hpt : ptOf s.mem s.pml4 v = some pt) :
    walk (pagingUnmapPage s v).mem s.pml4 v = none := by
  rcases pagingUnmapPage_cases h v with ⟨hn, -⟩ | ⟨pt', s₁, hpt', ht, hs, heq⟩
  · rw [hpt] at hn; simp at hn
  have hf := hs.forest h
  have hp : ptOf (pagingUnmapPage s v).mem s.pml4 v = some pt' := by
    rw [heq, hf.ptOf_leaf ht rfl (hs.2.2.2 ▸ hf.root), hs.1, hpt']
  rw [walk_ptOf hp, heq, writeEntry_self]
  rfl

end TypeOS.Paging
