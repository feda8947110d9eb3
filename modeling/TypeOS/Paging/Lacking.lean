import TypeOS.Paging.EarlyUser

/-! What mapping a page takes.

    Where the page has its page table, mapping it takes no frame. Where it has none, a table must be
    made, so that either a frame is taken or there is none and nothing happens at all. -/

namespace TypeOS.Paging
open Radix

variable {im : Image} {s s' s'' : Vm} {tag : Nat → Option Path} {t f k v phys : Nat} {p : Path}
  {i : Fin 512} {flags fl : Word}

/-- Some frame was free and is taken now. -/
def Takes (s s' : Vm) : Prop := ∃ f, bitmapTest s f = false ∧ bitmapTest s' f = true

/-- No bit is cleared. -/
def Grows (s s' : Vm) : Prop := ∀ f, bitmapTest s f = true → bitmapTest s' f = true

theorem Grows.trans (h : Grows s s') (h' : Grows s' s'') : Grows s s'' := fun f hf => h' f (h f hf)

theorem Takes.grows (h : Takes s s') (h' : Grows s' s'') : Takes s s'' := by
  obtain ⟨f, hfree, htaken⟩ := h
  exact ⟨f, hfree, h' f htaken⟩

/-! ### Tables that are left -/

theorem pagingAllocTable_fst (im : Image) (s : Vm) : (pagingAllocTable im s).1 =
    (firstFrom (tableFrame im s) (min s.totalFrames (identityMapLimit / pageSize)) 0).bind framePtr := by
  rw [pagingAllocTable]
  split
  · next h => rw [h]; rfl
  · next h => rw [h]; rfl

/-- Which table is next depends on the bitmap only. -/
theorem pagingAllocTable_congr (hb : ∀ f, bitmapTest s' f = bitmapTest s f)
    (ht : s'.totalFrames = s.totalFrames) : (pagingAllocTable im s').1 = (pagingAllocTable im s).1 := by
  have hp : tableFrame im s' = tableFrame im s := by
    funext f
    rw [tableFrame, tableFrame, hb]
  rw [pagingAllocTable_fst, pagingAllocTable_fst, hp, ht]

theorem pagingAllocTable_touch (im : Image) (s : Vm) (a : Nat) :
    (pagingAllocTable im (touch s a)).1 = (pagingAllocTable im s).1 :=
  pagingAllocTable_congr (fun _ => rfl) rfl

theorem grows_bitmapSet (s : Vm) (f : Nat) : Grows s (bitmapSet s f) := by
  intro g hg
  rw [bitmapTest_bitmapSet, hg, Bool.or_true]

theorem grows_allocTable (im : Image) (s : Vm) : Grows s (pagingAllocTable im s).2 := by
  rw [pagingAllocTable]
  split
  · exact fun _ hf => hf
  · exact grows_bitmapSet s _

theorem takes_allocTable (hnull : bitmapTest s 0 = true) (h : (pagingAllocTable im s).1 ≠ none) :
    Takes s (pagingAllocTable im s).2 := by
  rcases ha : pagingAllocTable im s with ⟨_ | f, s₁⟩
  · rw [ha] at h
    exact absurd rfl h
  · have hf := pagingAllocTable_some hnull ha
    exact ⟨f, hf.free, by rw [hf.bits]; simp⟩

theorem grows_getOrCreateTable (im : Image) (s : Vm) (t : Nat) (i : Fin 512) (fl : Word) :
    Grows s (getOrCreateTable im s t i fl).2 := by
  have h := grows_allocTable im s
  unfold getOrCreateTable
  dsimp only
  split
  · split <;> exact fun _ hf => hf
  · rcases ha : pagingAllocTable im s with ⟨_ | c, s₁⟩ <;> rw [ha] at h <;> exact h

theorem grows_splitHugePage (im : Image) (s : Vm) (t : Nat) (i : Fin 512) :
    Grows s (splitHugePage im s t i).2 := by
  have h := grows_allocTable im s
  unfold splitHugePage
  dsimp only
  split
  · exact fun _ hf => hf
  · rcases ha : pagingAllocTable im s with ⟨_ | c, s₁⟩ <;> rw [ha] at h <;> exact h

/-! ### A table that is missing -/

/-- Below an entry that is absent a table is made, if there is one left. -/
theorem getOrCreateTable_absent (hnull : bitmapTest s 0 = true)
    (he : has (s.mem t i) pagePresent = false) :
    ((pagingAllocTable im s).1 = none → getOrCreateTable im s t i fl = (none, s)) ∧
      ((pagingAllocTable im s).1 ≠ none → Takes s (getOrCreateTable im s t i fl).2) := by
  have htakes := @takes_allocTable im s hnull
  unfold getOrCreateTable
  simp only [he, Bool.false_eq_true, if_false]
  rcases ha : pagingAllocTable im s with ⟨_ | c, s₁⟩
  · rw [pagingAllocTable_none hnull ha]
    exact ⟨fun _ => rfl, fun h => absurd rfl h⟩
  · rw [ha] at htakes
    exact ⟨fun h => by simp at h, fun h => htakes h⟩

theorem splitHugePage_huge (hnull : bitmapTest s 0 = true)
    (he : has (s.mem t i) pagePresent = true) (hh : has (s.mem t i) pageHuge = true) :
    ((pagingAllocTable im s).1 = none → splitHugePage im s t i = (false, s)) ∧
      ((pagingAllocTable im s).1 ≠ none → Takes s (splitHugePage im s t i).2) := by
  have htakes := @takes_allocTable im s hnull
  unfold splitHugePage
  simp only [he, hh, Bool.not_true, Bool.or_self, Bool.false_eq_true, if_false]
  rcases ha : pagingAllocTable im s with ⟨_ | c, s₁⟩
  · rw [pagingAllocTable_none hnull ha]
    exact ⟨fun _ => rfl, fun h => absurd rfl h⟩
  · rw [ha] at htakes
    exact ⟨fun h => by simp at h, fun h => htakes h⟩

/-- The third and the last step of `paging_map_page_flags`, from a page directory that has no page
    table for the page. -/
theorem lastTable_missing (hnull : bitmapTest s 0 = true) (hn : nextTable (s.mem t i) = none) :
    ((pagingAllocTable im s).1 = none → splitHugePage im s t i = (false, s) ∨
      splitHugePage im s t i = (true, s) ∧ getOrCreateTable im s t i fl = (none, s)) ∧
    ((pagingAllocTable im s).1 ≠ none → Takes s (splitHugePage im s t i).2 ∨
      splitHugePage im s t i = (true, s) ∧ Takes s (getOrCreateTable im s t i fl).2) := by
  cases hpr : has (s.mem t i) pagePresent with
  | false =>
    have hsplit := @splitHugePage_absent im s t i hpr
    obtain ⟨hnone, hsome⟩ := @getOrCreateTable_absent im s t i fl hnull hpr
    exact ⟨fun h => Or.inr ⟨hsplit, hnone h⟩, fun h => Or.inr ⟨hsplit, hsome h⟩⟩
  | true =>
    cases hh : has (s.mem t i) pageHuge with
    | true =>
      obtain ⟨hnone, hsome⟩ := @splitHugePage_huge im s t i hnull hpr hh
      exact ⟨fun h => Or.inl (hnone h), fun h => Or.inl (hsome h)⟩
    | false => rw [nextTable_eq hpr hh] at hn; cases hn

/-! ### The way down -/

variable (im) in
/-- `paging_map_page_flags` from the page directory on. -/
def mapInDir (s : Vm) (pd v phys : Nat) (flags fl : Word) : Bool × Vm :=
  match splitHugePage im s pd (pdIndex v) with
  | (false, s) => (false, s)
  | (true, s) =>
    match getOrCreateTable im s pd (pdIndex v) fl with
    | (none, s) => (false, s)
    | (some pt, s) =>
      (true, writeEntry s pt (ptIndex v) ((BitVec.ofNat 64 phys &&& pteAddrMask) ||| flags))

variable (im) in
/-- It from the table above on. -/
def mapInPdpt (s : Vm) (pdpt v phys : Nat) (flags fl : Word) : Bool × Vm :=
  match getOrCreateTable im s pdpt (pdpIndex v) fl with
  | (none, s) => (false, s)
  | (some pd, s) => mapInDir im s pd v phys flags fl

theorem pagingMapPageFlags_eq (hv : v % pageSize = 0) (hp : phys % pageSize = 0) :
    pagingMapPageFlags im s v phys flags fl =
      match getOrCreateTable im s s.pml4 (pml4Index v) fl with
      | (none, s) => (false, s)
      | (some pdpt, s) => mapInPdpt im s pdpt v phys flags fl := by
  rw [pagingMapPageFlags, if_neg (by omega)]
  rfl

theorem grows_mapInDir (im : Image) (s : Vm) (pd v phys : Nat) (flags fl : Word) :
    Grows s (mapInDir im s pd v phys flags fl).2 := by
  have h := grows_splitHugePage im s pd (pdIndex v)
  unfold mapInDir
  rcases hs : splitHugePage im s pd (pdIndex v) with ⟨_ | _, s₁⟩ <;> rw [hs] at h
  · exact h
  · have h' := grows_getOrCreateTable im s₁ pd (pdIndex v) fl
    dsimp only
    rcases hg : getOrCreateTable im s₁ pd (pdIndex v) fl with ⟨_ | pt, s₂⟩ <;> rw [hg] at h'
    · exact h.trans h'
    · exact h.trans h'

theorem grows_mapInPdpt (im : Image) (s : Vm) (pdpt v phys : Nat) (flags fl : Word) :
    Grows s (mapInPdpt im s pdpt v phys flags fl).2 := by
  have h := grows_getOrCreateTable im s pdpt (pdpIndex v) fl
  unfold mapInPdpt
  rcases hg : getOrCreateTable im s pdpt (pdpIndex v) fl with ⟨_ | pd, s₁⟩ <;> rw [hg] at h
  · exact h
  · exact h.trans (grows_mapInDir im s₁ pd v phys flags fl)

theorem grows_mapPageFlags (im : Image) (s : Vm) (v phys : Nat) (flags fl : Word) :
    Grows s (pagingMapPageFlags im s v phys flags fl).2 := by
  by_cases hal : v % pageSize ≠ 0 ∨ phys % pageSize ≠ 0
  · rw [pagingMapPageFlags, if_pos hal]
    exact fun _ hf => hf
  · rw [pagingMapPageFlags_eq (by omega) (by omega)]
    have h := grows_getOrCreateTable im s s.pml4 (pml4Index v) fl
    rcases hg : getOrCreateTable im s s.pml4 (pml4Index v) fl with ⟨_ | pdpt, s₁⟩ <;> rw [hg] at h
    · exact h
    · exact h.trans (grows_mapInPdpt im s₁ pdpt v phys flags fl)

/-- Nothing happens but for accesses, or a frame is taken, as tables are left. -/
def TakesTable (im : Image) (s : Vm) (r : Bool × Vm) : Prop :=
  ((pagingAllocTable im s).1 = none → ∃ d, r = (false, { s with direct := d })) ∧
    ((pagingAllocTable im s).1 ≠ none → Takes s r.2)

theorem TakesTable.touch {a : Nat} {r : Bool × Vm} (h : TakesTable im (touch s a) r) :
    TakesTable im s r := by
  rw [TakesTable, pagingAllocTable_touch] at h
  refine ⟨fun hn => ?_, fun hs => ?_⟩
  · obtain ⟨d, hd⟩ := h.1 hn
    exact ⟨d, hd⟩
  · obtain ⟨f, hfree, htaken⟩ := h.2 hs
    exact ⟨f, hfree, htaken⟩

theorem mapInDir_missing {pd : Nat} (hnull : bitmapTest s 0 = true)
    (hn : nextTable (s.mem pd (pdIndex v)) = none) :
    TakesTable im s (mapInDir im s pd v phys flags fl) := by
  obtain ⟨hnone, hsome⟩ := @lastTable_missing im s pd (pdIndex v) fl hnull hn
  unfold mapInDir
  constructor
  · intro h
    refine ⟨s.direct, ?_⟩
    rcases hnone h with hs | ⟨hs, hg⟩
    · rw [hs]
    · rw [hs]
      simp only [hg]
  · intro h
    rcases hsome h with ht | ⟨hs, ht⟩
    · rcases hs : splitHugePage im s pd (pdIndex v) with ⟨_ | _, s₁⟩ <;> rw [hs] at ht
      · exact ht
      · have h' := grows_getOrCreateTable im s₁ pd (pdIndex v) fl
        dsimp only
        rcases hg : getOrCreateTable im s₁ pd (pdIndex v) fl with ⟨_ | pt, s₂⟩ <;> rw [hg] at h'
        · exact ht.grows h'
        · exact ht.grows h'
    · rw [hs]
      dsimp only
      rcases hg : getOrCreateTable im s pd (pdIndex v) fl with ⟨_ | pt, s₂⟩ <;> rw [hg] at ht
      · exact ht
      · exact ht

/-- Where a page directory is there and a table is left, a page is mapped, and that table is taken or
    none. -/
theorem mapInDir_takes {pd c : Nat} {s₁ : Vm} (h : Forest s tag) (ht : tag pd = some p) (hlen : p.length = 2)
    (ha : pagingAllocTable im s = (some c, s₁)) :
    ∃ s', mapInDir im s pd v phys flags fl = (true, s') ∧
      (s'.frameBitmap = s.frameBitmap ∧ s'.totalFrames = s.totalFrames ∨
        s'.frameBitmap = s₁.frameBitmap ∧ s'.totalFrames = s₁.totalFrames) := by
  cases hpr : has (s.mem pd (pdIndex v)) pagePresent with
  | false =>
    refine ⟨writeEntry (writeEntry s₁ pd (pdIndex v) (frameWord c ||| fl)) c (ptIndex v)
      ((BitVec.ofNat 64 phys &&& pteAddrMask) ||| flags), ?_, Or.inr ⟨rfl, rfl⟩⟩
    simp [mapInDir, splitHugePage_absent hpr, getOrCreateTable, hpr, ha]
  | true =>
    cases hh : has (s.mem pd (pdIndex v)) pageHuge with
    | false =>
      have hn := nextTable_eq hpr hh
      have hc := h.tagged _ _ _ _ ht (by omega) hn
      rw [mapInDir, splitHugePage_next hn]
      dsimp only
      rw [getOrCreateTable_next hn (h.used _ _ hc).1]
      exact ⟨_, rfl, Or.inl ⟨rfl, rfl⟩⟩
    | true =>
      -- the huge page is split, and the table is the new one
      have hf := pagingAllocTable_some h.null ha
      have hlt : c < 2 ^ 40 := by
        have := hf.lt
        simp only [identityMapLimit, pageSize] at this
        omega
      have hsplit : splitHugePage im s pd (pdIndex v) = (true, writeEntry
          (writeFrame s₁ c (splitEntry (s.mem pd (pdIndex v)))) pd (pdIndex v)
          (frameWord c ||| (pagePresent ||| pageWritable))) := by
        simp [splitHugePage, hpr, hh, ha]
      rw [mapInDir, hsplit]
      dsimp only
      rw [getOrCreateTable_next (c := c) ?_ hf.pos]
      · exact ⟨_, rfl, Or.inr ⟨rfl, rfl⟩⟩
      · rw [writeEntry_self]
        exact tableFlags_kernel.next hlt

/-- Where a page directory is there, a page is mapped if it has its page table or one is left. -/
theorem mapInDir_room {pd : Nat} (h : Forest s tag) (ht : tag pd = some p) (hlen : p.length = 2)
    (hroom : (pagingAllocTable im s).1 ≠ none) :
    (mapInDir im s pd v phys flags fl).1 = true := by
  rcases ha : pagingAllocTable im s with ⟨_ | c, s₁⟩
  · rw [ha] at hroom
    exact absurd rfl hroom
  · obtain ⟨s', hmap, -⟩ := mapInDir_takes h ht hlen ha
    rw [hmap]

/-- The entry of an upper table that points nowhere is absent. -/
theorem Forest.absent (h : Forest s tag) (ht : tag t = some p) (hp : p.length < 2)
    (hn : nextTable (s.mem t i) = none) : has (s.mem t i) pagePresent = false := by
  by_contra hpr
  rw [Bool.not_eq_false] at hpr
  obtain ⟨hc, -⟩ := h.child ht (by omega) hpr fun hc => by omega
  rw [hn] at hc
  cases hc

theorem mapInPdpt_missing {pdpt : Nat} (h : Forest s tag) (ht : tag pdpt = some [pml4Index v])
    (hpt : descend nextTable s.mem pdpt [pdpIndex v, pdIndex v] = none) :
    TakesTable im s (mapInPdpt im s pdpt v phys flags fl) := by
  unfold mapInPdpt
  cases hn : nextTable (s.mem pdpt (pdpIndex v)) with
  | none =>
    obtain ⟨hnone, hsome⟩ := @getOrCreateTable_absent im s _ _ fl h.null
      (h.absent ht (by simp) hn)
    refine ⟨fun ha => ⟨s.direct, by rw [hnone ha]⟩, fun ha => ?_⟩
    have htakes := hsome ha
    rcases hg : getOrCreateTable im s pdpt (pdpIndex v) fl with ⟨_ | pd, s₁⟩ <;> rw [hg] at htakes
    · exact htakes
    · exact htakes.grows (grows_mapInDir im s₁ pd v phys flags fl)
  | some pd =>
    have ht2 := h.tagged _ _ _ _ ht (by simp) hn
    rw [descend, hn, Option.bind_some, descend] at hpt
    rw [getOrCreateTable_next hn (h.used _ _ ht2).1]
    refine TakesTable.touch (a := pd * pageSize) (mapInDir_missing h.null ?_)
    cases hn2 : nextTable (s.mem pd (pdIndex v)) with
    | none => exact hn2
    | some pt =>
      rw [hn2] at hpt
      cases hpt

/-- A page that has no page table takes one, or nothing happens. -/
theorem pagingMapPageFlags_missing (h : Forest s tag) (hv : v % pageSize = 0)
    (hp : phys % pageSize = 0) (hpt : ptOf s.mem s.pml4 v = none) :
    TakesTable im s (pagingMapPageFlags im s v phys flags fl) := by
  rw [pagingMapPageFlags_eq hv hp]
  rw [ptOf, tablePath, descend] at hpt
  cases hn : nextTable (s.mem s.pml4 (pml4Index v)) with
  | none =>
    obtain ⟨hnone, hsome⟩ := @getOrCreateTable_absent im s _ _ fl h.null
      (h.absent h.root (by simp) hn)
    refine ⟨fun ha => ⟨s.direct, by rw [hnone ha]⟩, fun ha => ?_⟩
    have ht := hsome ha
    rcases hg : getOrCreateTable im s s.pml4 (pml4Index v) fl with ⟨_ | pdpt, s₁⟩ <;> rw [hg] at ht
    · exact ht
    · exact ht.grows (grows_mapInPdpt im s₁ pdpt v phys flags fl)
  | some pdpt =>
    have ht3 := h.tagged _ _ _ _ h.root (by simp) hn
    rw [hn, Option.bind_some] at hpt
    rw [getOrCreateTable_next hn (h.used _ _ ht3).1]
    exact TakesTable.touch (a := pdpt * pageSize)
      (mapInPdpt_missing (Mapped.touch (E := fun _ => True) (W := fun _ => True) h _).forest ht3 hpt)

/-- A page that has its page table is mapped there, and nothing else happens. -/
theorem pagingMapPageFlags_there (h : Forest s tag) (hv : v % pageSize = 0)
    (hp : phys % pageSize = 0) (hpt : ptOf s.mem s.pml4 v = some k) :
    ∃ d, pagingMapPageFlags im s v phys flags fl = (true, writeEntry { s with direct := d } k
      (ptIndex v) ((BitVec.ofNat 64 phys &&& pteAddrMask) ||| flags)) := by
  rw [pagingMapPageFlags_eq hv hp]
  rw [ptOf, tablePath, descend, Option.bind_eq_some_iff] at hpt
  obtain ⟨pdpt, hn, hpt⟩ := hpt
  rw [descend, Option.bind_eq_some_iff] at hpt
  obtain ⟨pd, hn3, hpt⟩ := hpt
  rw [descend, Option.bind_eq_some_iff] at hpt
  obtain ⟨pt, hn2, hpt⟩ := hpt
  rw [descend, Option.some.injEq] at hpt
  subst hpt
  have ht3 := h.tagged _ _ _ _ h.root (by simp) hn
  have ht2 := h.tagged _ _ _ _ ht3 (by simp) hn3
  have ht1 := h.tagged _ _ _ _ ht2 (by simp) hn2
  rw [getOrCreateTable_next hn (h.used _ _ ht3).1]
  dsimp only
  rw [mapInPdpt, getOrCreateTable_next (s := touch s _) hn3 (h.used _ _ ht2).1]
  dsimp only
  rw [mapInDir, splitHugePage_next (s := touch (touch s _) _) hn2]
  dsimp only
  rw [getOrCreateTable_next (s := touch (touch s _) _) hn2 (h.used _ _ ht1).1]
  exact ⟨_, rfl⟩

/-- Below a page directory a page is mapped if it has its page table or one is left. -/
theorem pagingMapPageFlags_room (h : Forest s tag) (hv : v % pageSize = 0)
    (hp : phys % pageSize = 0)
    (hd : descend nextTable s.mem s.pml4 [pml4Index v, pdpIndex v] ≠ none)
    (hroom : ptOf s.mem s.pml4 v ≠ none ∨ (pagingAllocTable im s).1 ≠ none) :
    (pagingMapPageFlags im s v phys flags fl).1 = true := by
  rcases hk : ptOf s.mem s.pml4 v with _ | k
  · rw [hk, ne_self_iff_false, false_or] at hroom
    obtain ⟨pd, hd⟩ := Option.ne_none_iff_exists'.mp hd
    rw [descend, Option.bind_eq_some_iff] at hd
    obtain ⟨pdpt, hn, hd⟩ := hd
    rw [descend, Option.bind_eq_some_iff] at hd
    obtain ⟨pd', hn3, hd⟩ := hd
    rw [descend, Option.some.injEq] at hd
    subst hd
    have ht3 := h.tagged _ _ _ _ h.root (by simp) hn
    have ht2 := h.tagged _ _ _ _ ht3 (by simp) hn3
    have htouch : Forest (touch (touch s (pdpt * pageSize)) (pd' * pageSize)) tag :=
      SameTables.forest h ⟨rfl, rfl, rfl, rfl⟩
    rw [pagingMapPageFlags_eq hv hp, getOrCreateTable_next hn (h.used _ _ ht3).1]
    dsimp only
    rw [mapInPdpt, getOrCreateTable_next (s := touch s _) hn3 (h.used _ _ ht2).1]
    refine mapInDir_room htouch ht2 rfl ?_
    rw [pagingAllocTable_touch, pagingAllocTable_touch]
    exact hroom
  · obtain ⟨d, hd⟩ := @pagingMapPageFlags_there im s tag k v phys flags fl h hv hp hk
    rw [hd]

/-! ### The temporary window -/

theorem bitmapTest_unmap (s : Vm) (v f : Nat) :
    bitmapTest (pagingUnmapPage s v) f = bitmapTest s f := by
  unfold pagingUnmapPage
  dsimp only
  split_ifs <;> rfl

/-- Unmapping a page makes no table and leaves what is no table. -/
theorem pagingUnmapPage_keeps (h : Forest s tag) (v : Nat) :
    (pagingUnmapPage s v).totalFrames = s.totalFrames ∧ (pagingUnmapPage s v).pml4 = s.pml4 ∧
      (∀ u, ptOf (pagingUnmapPage s v).mem s.pml4 u = ptOf s.mem s.pml4 u) ∧
      ∀ f, tag f = none → (pagingUnmapPage s v).mem f = s.mem f := by
  rcases pagingUnmapPage_cases h v with ⟨-, hm, -, ht, hr⟩ | ⟨pt, s₁, -, htag, ⟨hm, hb, ht, hr⟩, heq⟩
  · exact ⟨ht, hr, fun u => by rw [hm], fun f _ => by rw [hm]⟩
  · have hf := SameTables.forest h ⟨hm, hb, ht, hr⟩
    rw [heq]
    refine ⟨ht, hr, fun u => ?_, fun f hf => ?_⟩
    · rw [hf.ptOf_leaf htag rfl h.root, hm]
    · have hne : f ≠ pt := by
        rintro rfl
        rw [hf] at htag
        cases htag
      rw [writeEntry_frame hne, hm]

/-- Where the window has its page table, mapping a frame there is one write of it. -/
theorem window_there (h : Forest s tag) (f : Nat)
    (hpt : ptOf s.mem s.pml4 kernelKmapWindow = some k) :
    ∃ d, pagingMapPage im s kernelKmapWindow (f * pageSize) (pagePresent ||| pageWritable) =
      (true, writeEntry { s with direct := d } k (ptIndex kernelKmapWindow)
        ((BitVec.ofNat 64 (f * pageSize) &&& pteAddrMask) ||| (pagePresent ||| pageWritable))) :=
  pagingMapPageFlags_there h (by decide) (Nat.mul_mod_left ..) hpt

/-- Where the window has its page table, a frame is cleared through it and none is taken. -/
theorem pagingClearPhys_there (h : Forest s tag) (hf : tag f = none) (hlt : f < 2 ^ 40)
    (hpt : ptOf s.mem s.pml4 kernelKmapWindow = some k) :
    ∃ s', pagingClearPhys im s (f * pageSize) = (true, s') ∧ s'.mem f = (fun _ => 0#64) ∧
      (∀ g, bitmapTest s' g = bitmapTest s g) ∧ s'.totalFrames = s.totalFrames ∧
      s'.pml4 = s.pml4 ∧ walk s'.mem s'.pml4 kernelKmapWindow = none ∧
      ∀ v, ptOf s'.mem s.pml4 v = ptOf s.mem s.pml4 v := by
  obtain ⟨d, hmap⟩ := @window_there im s tag k h f hpt
  have htag : tag k = some (tablePath kernelKmapWindow) :=
    h.tagged.descend h.root (by simp) hpt
  have hd : Forest { s with direct := d } tag := SameTables.forest h ⟨rfl, rfl, rfl, rfl⟩
  set w := writeEntry { s with direct := d } k (ptIndex kernelKmapWindow)
    ((BitVec.ofNat 64 (f * pageSize) &&& pteAddrMask) ||| (pagePresent ||| pageWritable)) with hw
  have hforest : Forest w tag := hd.write_leaf htag rfl
  have hwpt : ∀ u, ptOf w.mem s.pml4 u = ptOf s.mem s.pml4 u := fun u =>
    hd.ptOf_leaf htag rfl h.root
  have hclear : clearThrough w kernelKmapWindow = writeFrame w f fun _ => 0#64 := by
    rw [clearThrough, mapped_frame h hlt (by decide) hmap]
  have hfill : Forest (writeFrame w f fun _ => 0#64) tag := by
    refine hforest.congr (fun u q hu => ?_) (fun _ hb => hb) rfl
    have hne : u ≠ f := by
      rintro rfl
      rw [hf] at hu
      cases hu
    simp only [writeFrame, Function.update_of_ne hne]
  have hfpt : ∀ u, ptOf (writeFrame w f fun _ => 0#64).mem s.pml4 u = ptOf s.mem s.pml4 u := fun u =>
    (hforest.ptOf_fill hf h.root).trans (hwpt u)
  obtain ⟨htotal, hroot, hkeep, hleft⟩ := pagingUnmapPage_keeps hfill kernelKmapWindow
  refine ⟨pagingUnmapPage (writeFrame w f fun _ => 0#64) kernelKmapWindow, ?_, ?_,
    fun g => bitmapTest_unmap .., htotal, hroot, ?_, fun u => (hkeep u).trans (hfpt u)⟩
  · rw [pagingClearPhys, hmap]
    simp only [hclear]
  · rw [hleft f hf]
    exact Function.update_self ..
  · rw [hroot]
    exact pagingUnmapPage_walk hfill ((hfpt kernelKmapWindow).trans hpt)

theorem grows_clearPhys (im : Image) (s : Vm) (phys : Nat) :
    Grows s (pagingClearPhys im s phys).2 := by
  have h := grows_mapPageFlags im s kernelKmapWindow phys (pagePresent ||| pageWritable)
    (pagePresent ||| pageWritable)
  unfold pagingClearPhys pagingMapPage
  rcases hm : pagingMapPageFlags im s kernelKmapWindow phys (pagePresent ||| pageWritable)
    (pagePresent ||| pageWritable) with ⟨_ | _, s₁⟩ <;> rw [hm] at h
  · exact h
  · exact fun g hg => (bitmapTest_unmap ..).trans (h g hg)

/-- Where it has none, a table is taken or nothing happens. -/
theorem pagingClearPhys_missing (h : Forest s tag)
    (hpt : ptOf s.mem s.pml4 kernelKmapWindow = none) :
    TakesTable im s (pagingClearPhys im s (f * pageSize)) := by
  obtain ⟨hnone, hsome⟩ := @pagingMapPageFlags_missing im s tag kernelKmapWindow (f * pageSize)
    (pagePresent ||| pageWritable) (pagePresent ||| pageWritable) h (by decide)
    (Nat.mul_mod_left ..) hpt
  unfold pagingClearPhys pagingMapPage
  constructor
  · intro ha
    obtain ⟨d, hd⟩ := hnone ha
    exact ⟨d, by rw [hd]⟩
  · intro ha
    obtain ⟨g, hfree, htaken⟩ := hsome ha
    rcases hm : pagingMapPageFlags im s kernelKmapWindow (f * pageSize)
      (pagePresent ||| pageWritable) (pagePresent ||| pageWritable) with ⟨_ | _, s₁⟩ <;>
      rw [hm] at htaken
    · exact ⟨g, hfree, htaken⟩
    · exact ⟨g, hfree, (bitmapTest_unmap ..).trans htaken⟩

end TypeOS.Paging
