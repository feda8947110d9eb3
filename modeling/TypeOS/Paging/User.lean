import TypeOS.Paging.Exact

/-! Pages for user programs.

    A page that `sys_brk` or `sys_mmap` grants is a fresh frame, cleared through the temporary
    window and then mapped with `PAGE_USER`. On the way only the window's page and the page itself
    change their translation. The pages of a fixed image stay where they are and are opened to the
    user by `paging_promote_user_identity`. -/

namespace TypeOS.Paging
open Radix

variable (im : Image)

/-! ### Fixed images -/

/-- The loop of `paging_split_huge_range`, `n` entries of `pd0` from `i` on. -/
def splitHugeLoop : Nat → Nat → Vm → Vm
  | 0, _, s => s
  | n + 1, i, s =>
    let entry := s.mem im.pdTable (Fin.ofNat 512 i)
    if has entry pagePresent && has entry pageHuge then
      match splitHugePage im s im.pdTable (Fin.ofNat 512 i) with
      | (false, s) => s
      | (true, s) => splitHugeLoop n (i + 1) s
    else splitHugeLoop n (i + 1) s

/-- `paging_split_huge_range`, for a range below 1 GiB: `pd0` is the boot directory. -/
def pagingSplitHugeRange (s : Vm) (virtStart virtEnd : Nat) : Vm :=
  if virtEnd ≤ virtStart then s
  else
    let pdFirst := virtStart / 2 ^ 21
    let pdLast := (virtEnd - 1) / 2 ^ 21
    splitHugeLoop im (pdLast + 1 - pdFirst) pdFirst s

/-- `paging_get_pt`. -/
def pagingGetPt (s : Vm) (virt : Nat) : Option Nat :=
  if !has (s.mem s.pml4 (pml4Index virt)) pagePresent then none
  else
    let pdpt := entryFrame (s.mem s.pml4 (pml4Index virt))
    if !has (s.mem pdpt (pdpIndex virt)) pagePresent then none
    else
      let pd := entryFrame (s.mem pdpt (pdpIndex virt))
      let pdEntry := s.mem pd (pdIndex virt)
      if !has pdEntry pagePresent || has pdEntry pageHuge then none
      else framePtr (entryFrame pdEntry)

/-- `table[index] |= PAGE_USER`. -/
def openEntry (s : Vm) (table : Nat) (index : Fin 512) : Vm :=
  writeEntry s table index (s.mem table index ||| pageUser)

/-- `paging_set_user_path`. -/
def pagingSetUserPath (s : Vm) (virt : Nat) : Vm :=
  let s := openEntry s s.pml4 (pml4Index virt)
  let e := s.mem s.pml4 (pml4Index virt)
  if !has e pagePresent then s
  else
    let pdpt := entryFrame e
    let s := openEntry s pdpt (pdpIndex virt)
    let e := s.mem pdpt (pdpIndex virt)
    if !has e pagePresent then s
    else openEntry s (entryFrame e) (pdIndex virt)

/-- `paging_promote_user_identity`; `true` is 0. -/
def pagingPromoteUserIdentity (s : Vm) (virt : Nat) (flags : Word) : Bool × Vm :=
  let page := pageOf virt
  if page < userImagePhysStart ∨ page ≥ userImagePhysEnd then (false, s)
  else
    match pagingGetPt s virt with
    | none => (false, s)
    | some pt =>
      let s := pagingSetUserPath s virt
      (true, writeEntry s pt (ptIndex virt)
        (BitVec.ofNat 64 page ||| flags ||| pageUser ||| pageWritable))

/-! ### Fresh pages -/

/-- `memset8 (virt, 0, PAGE_SIZE)`: the frame the page maps to is overwritten. -/
def clearThrough (s : Vm) (virt : Nat) : Vm :=
  writeFrame s (pagingVirtToPhys s virt / pageSize) fun _ => 0#64

/-- `paging_zero_frame`. -/
def pagingZeroFrame (s : Vm) (phys : Nat) : Vm :=
  match pagingMapPage im s kernelKmapWindow phys (pagePresent ||| pageWritable) with
  | (false, s) => s
  | (true, s) => pagingUnmapPage (clearThrough s kernelKmapWindow) kernelKmapWindow

/-- `paging_clear_phys` of one whole page, as it is called; `true` is 0. -/
def pagingClearPhys (s : Vm) (phys : Nat) : Bool × Vm :=
  match pagingMapPage im s kernelKmapWindow phys (pagePresent ||| pageWritable) with
  | (false, s) => (false, s)
  | (true, s) => (true, pagingUnmapPage (clearThrough s kernelKmapWindow) kernelKmapWindow)

/-- The loop of `paging_map_user_range`, `n` pages from `addr` on; `true` is 0. -/
def mapUserLoop (flags : Word) : Nat → Nat → Vm → Bool × Vm
  | 0, _, s => (true, s)
  | n + 1, addr, s =>
    match pagingAllocPage s with
    | (none, s) => (false, s)
    | (some frame, s) =>
      match pagingMapUserPage im (pagingZeroFrame im s frame) addr frame flags with
      | (false, s) => (false, pagingFreePage s frame)
      | (true, s) => mapUserLoop flags n (addr + pageSize) s

/-- How many pages `paging_map_user_range` goes over; the end of the range wraps. -/
def userRangePages (virt size : Nat) : Nat :=
  (u64 (virt + size + pageSize - 1) / pageSize * pageSize - pageOf virt) / pageSize

/-- `paging_map_user_range`; `true` is 0. -/
def pagingMapUserRange (s : Vm) (virt size : Nat) (flags : Word) : Bool × Vm :=
  mapUserLoop im flags (userRangePages virt size) (pageOf virt) s

variable {im} {s s' s₀ s₁ : Vm} {tag tag₀ tag' : Nat → Option Path} {t f v n a : Nat} {p : Path}
  {i : Fin 512} {flags : Word}

/-! ### What changes when a page is granted -/

/-- Translations that may change when the pages of `G` are granted: theirs and that of the first
    page of the window. -/
def Grant (G : Path → Prop) (π : Path) : Prop := π = pathOf kernelKmapWindow ∨ G π

theorem pagingZeroFrame_eq (s : Vm) (phys : Nat) :
    pagingZeroFrame im s phys = (pagingClearPhys im s phys).2 := by
  rw [pagingZeroFrame, pagingClearPhys]
  rcases pagingMapPage im s kernelKmapWindow phys (pagePresent ||| pageWritable) with ⟨ok, s'⟩
  cases ok <;> rfl

/-- Filling a frame that is no table leaves the tables as they are. -/
theorem Forest.ptOf_fill {w : Fin 512 → Word} {r : Nat} (h : Forest s tag) (hf : tag f = none)
    (hr : tag r = some []) : ptOf (writeFrame s f w).mem r v = ptOf s.mem r v := by
  refine h.tagged.descend_congr hr (by simp [tablePath]) fun u q k hu _ => ?_
  have hne : u ≠ f := by
    rintro rfl
    rw [hf] at hu
    simp at hu
  simp only [writeFrame, Function.update_of_ne hne]

/-- Clearing a frame that was free before touches nothing else but the window's first page, and
    leaves that unmapped. -/
theorem pagingClearPhys_mapped {W : Path → Prop} (hW : W (pathOf kernelKmapWindow))
    (h₀ : Forest s₀ tag₀) (h : Mapped (fun _ => True) W s₀ tag₀ s tag) (hfree : bitmapTest s₀ f = false)
    (hf : tag f = none) (hb : bitmapTest s f = true) (hlt : f < 2 ^ 40) {ok : Bool}
    (hc : pagingClearPhys im s (f * pageSize) = (ok, s')) :
    ∃ tag', Mapped (fun _ => True) W s₀ tag₀ s' tag' ∧ tag' f = none ∧ bitmapTest s' f = true ∧
      (walk s.mem s.pml4 kernelKmapWindow = none →
        walk s'.mem s'.pml4 kernelKmapWindow = none) := by
  have hmono : ∀ {s₁ s₂ : Vm} {tag₁ tag₂ : Nat → Option Path},
      Mapped (· = pathOf kernelKmapWindow) (· = pathOf kernelKmapWindow) s₁ tag₁ s₂ tag₂ →
      Mapped (fun _ => True) W s₁ tag₁ s₂ tag₂ := fun g =>
    g.mono (fun π _ => ⟨π, trivial, List.prefix_rfl⟩) fun _ hπ => hπ ▸ hW
  rw [pagingClearPhys] at hc
  rcases hm : pagingMapPage im s kernelKmapWindow (f * pageSize) (pagePresent ||| pageWritable)
    with ⟨ok1, s₁⟩
  obtain ⟨tag₁, g1⟩ := pagingMapPage_mapped h.forest hm
  have hf1 := g1.untagged hf hb
  have h1 := h.trans h₀ (hmono g1)
  rw [hm] at hc
  cases ok1 with
  | false =>
    obtain ⟨-, rfl⟩ := Prod.mk.inj hc
    refine ⟨tag₁, h1, hf1, g1.bits f hb, fun hnone => ?_⟩
    rcases pagingMapPageFlags_spec h.forest tableFlags_kernel hm with ⟨-, tag₂, g⟩ | ⟨hc, -⟩
    · rw [g.pml4, g.walks s.pml4 kernelKmapWindow h.forest.root fun hc => hc.1]
      exact hnone
    · simp at hc
  | true =>
    -- the window's page is the frame, so it is the frame that is overwritten
    simp only [clearThrough, mapped_frame h.forest hlt (by decide) hm] at hc
    obtain ⟨-, rfl⟩ := Prod.mk.inj hc
    have h2 := h1.fill (w := fun _ => 0#64) hfree hf1
    have g3 := pagingUnmapPage_mapped h2.forest kernelKmapWindow
    refine ⟨tag₁, h2.trans h₀ (hmono g3), hf1, g3.bits f (g1.bits f hb), fun _ => ?_⟩
    rcases pagingMapPageFlags_spec h.forest tableFlags_kernel hm with
      ⟨hc, -⟩ | ⟨-, -, -, tag₂, s₂, pt, g, ht, hpt, rfl⟩
    · simp at hc
    · have hpt' : ptOf (writeEntry s₂ pt (ptIndex kernelKmapWindow)
          ((BitVec.ofNat 64 (f * pageSize) &&& pteAddrMask) ||| (pagePresent ||| pageWritable))).mem
          s₂.pml4 kernelKmapWindow = some pt := (g.forest.ptOf_leaf ht rfl g.forest.root).trans hpt
      have hfill := (h1.forest.ptOf_fill (w := fun _ => 0#64) hf1 h1.forest.root).trans hpt'
      rw [g3.pml4]
      exact pagingUnmapPage_walk h2.forest hfill

/-- A frame that `paging_alloc_page` takes. -/
theorem allocPage_fresh (h : Forest s tag) (ha : pagingAllocPage s = (some a, s₁)) :
    ∃ f, a = f * pageSize ∧ f < 2 ^ 40 ∧ bitmapTest s f = false ∧ tag f = none ∧
      s₁ = bitmapSet s f ∧ bitmapTest s₁ f = true := by
  obtain ⟨f, rfl, -, hmax, -, hfree, rfl⟩ := pagingAllocPage_some ha
  refine ⟨f, rfl, ?_, hfree, h.untagged hfree, rfl, ?_⟩
  · simp only [maxFrames, maxPhysMem, pageSize] at hmax
    omega
  · rw [bitmapTest_bitmapSet, decide_eq_true rfl, Bool.true_or]

/-- The pages of `G` may have been granted: no other translation but that of the window has changed,
    and if the window is none of them it is as unmapped as it was. -/
structure Granted (G : Path → Prop) (s : Vm) (tag : Nat → Option Path) (s' : Vm)
    (tag' : Nat → Option Path) : Prop extends Mapped (fun _ => True) (Grant G) s tag s' tag' where
  window : ¬ G (pathOf kernelKmapWindow) → walk s.mem s.pml4 kernelKmapWindow = none →
    walk s'.mem s'.pml4 kernelKmapWindow = none

variable {G G' : Path → Prop}

theorem Granted.refl (h : Forest s tag) : Granted G s tag s tag :=
  ⟨Mapped.refl h, fun _ hw => hw⟩

theorem Granted.trans {s'' : Vm} {tag'' : Nat → Option Path} (hs : Forest s tag)
    (h : Granted G s tag s' tag') (h' : Granted G s' tag' s'' tag'') :
    Granted G s tag s'' tag'' :=
  ⟨h.toMapped.trans hs h'.toMapped, fun hG hw => h'.window hG (h.window hG hw)⟩

theorem Granted.mono (h : Granted G s tag s' tag') (hG : ∀ π, G π → G' π) :
    Granted G' s tag s' tag' :=
  ⟨h.toMapped.mono (fun π _ => ⟨π, trivial, List.prefix_rfl⟩)
    fun π hπ => hπ.imp_right (hG π), fun hno => h.window fun hc => hno (hG _ hc)⟩

/-- A page that is not granted translates as before, unless it is the window's. -/
theorem Granted.walk (h : Granted G s tag s' tag') (hs : Forest s tag)
    (hw : pathOf v ≠ pathOf kernelKmapWindow) (hv : ¬ G (pathOf v)) :
    walk s'.mem s'.pml4 v = walk s.mem s.pml4 v := by
  rw [h.pml4]
  exact h.walks s.pml4 v hs.root fun hc => hc.1.elim hw hv

/-- One page is granted: a frame is taken and cleared, then mapped at `v`. If clearing or mapping
    fails the frame is given back, and only tables were added. -/
theorem grant_spec (h : Forest s tag) (ha : pagingAllocPage s = (some a, s₁)) :
    (∃ tag', Granted (fun _ => False) s tag
      (pagingFreePage (pagingClearPhys im s₁ a).2 a) tag') ∧
    ∀ ok s₃, pagingMapUserPage im (pagingClearPhys im s₁ a).2 v a flags = (ok, s₃) →
      (ok = false → ∃ tag', Granted (fun _ => False) s tag (pagingFreePage s₃ a) tag') ∧
      (ok = true → (∃ f, bitmapTest s f = false ∧ bitmapTest s₃ f = true) ∧
        ∃ tag', Granted (· = pathOf v) s tag s₃ tag' ∧
          (has flags pagePresent = true → (walk s₃.mem s₃.pml4 v).isSome = true)) := by
  obtain ⟨f, rfl, hlt, hfree, hf, rfl, hb⟩ := allocPage_fresh h ha
  have htake : Mapped (fun _ => True) (Grant fun _ => False) s tag (bitmapSet s f) tag :=
    Mapped.take h f
  rcases hc : pagingClearPhys im (bitmapSet s f) (f * pageSize) with ⟨okc, s₂⟩
  obtain ⟨tag₂, h2, hf2, hb2, hwin⟩ :=
    pagingClearPhys_mapped (Or.inl rfl) h htake hfree hf hb hlt hc
  have hclear : Granted (fun _ => False) s tag s₂ tag₂ := by
    refine ⟨h2, fun _ hw => hwin ?_⟩
    rw [bitmapSet_mem, bitmapSet_pml4]
    exact hw
  have hback : ∀ {s₃ : Vm} {tag₃ : Nat → Option Path}, Granted (fun _ => False) s tag s₃ tag₃ →
      tag₃ f = none →
      Granted (fun _ => False) s tag (pagingFreePage s₃ (f * pageSize)) tag₃ := by
    intro s₃ tag₃ h3 hf3
    refine ⟨h3.toMapped.release hfree hf3, fun hv hw => ?_⟩
    obtain ⟨hm, hr, -, -⟩ := pagingFreePage_eq s₃ (f * pageSize)
    rw [hm, hr]
    exact h3.window hv hw
  refine ⟨⟨tag₂, hback hclear hf2⟩, ?_⟩
  intro ok s₃ hm
  constructor
  · intro hok
    obtain rfl : ok = false := hok
    rcases pagingMapPageFlags_spec h2.forest tableFlags_user hm with ⟨-, tag₃, g⟩ | ⟨hc, -⟩
    · have hstep : Granted (fun _ => False) s₂ tag₂ s₃ tag₃ := by
        refine ⟨g.mono (fun π _ => ⟨π, trivial, List.prefix_rfl⟩) fun _ hc => hc.elim,
          fun _ hw => ?_⟩
        rw [g.pml4, g.walks s₂.pml4 kernelKmapWindow h2.forest.root fun hc => hc.1]
        exact hw
      exact ⟨tag₃, hback (hclear.trans h hstep) (g.untagged hf2 hb2)⟩
    · simp at hc
  · intro hok
    obtain rfl : ok = true := hok
    obtain ⟨tag₃, g⟩ := pagingMapUserPage_mapped h2.forest hm
    have hstep : Granted (· = pathOf v) s₂ tag₂ s₃ tag₃ := by
      refine ⟨g.mono (fun π _ => ⟨π, trivial, List.prefix_rfl⟩) fun _ hπ => Or.inr hπ,
        fun hv hw => ?_⟩
      rw [g.pml4, g.walks s₂.pml4 kernelKmapWindow h2.forest.root fun hc => hv hc.1]
      exact hw
    refine ⟨⟨f, hfree, g.bits f hb2⟩, tag₃,
      (hclear.mono fun _ hc => hc.elim).trans h hstep, fun hpr => ?_⟩
    have hpr' : has (flags ||| pageUser) pagePresent = true := by
      rw [has_present] at hpr ⊢
      rw [BitVec.getLsbD_or, hpr, Bool.true_or]
    obtain ⟨u, hw⟩ := pagingMapPageFlags_walk h2.forest tableFlags_user hpr' hm
    rw [hw]
    rfl

/-! ### The free frames -/

/-- The frames that are still free. -/
def freeFrames (s : Vm) : Finset Nat :=
  (Finset.range maxFrames).filter fun f => bitmapTest s f = false

theorem bitmapTest_lt {f : Nat} (hf : bitmapTest s f = false) : f < maxFrames := by
  by_contra hge
  rw [bitmapTest, if_pos (by omega)] at hf
  simp at hf

theorem mem_freeFrames {f : Nat} : f ∈ freeFrames s ↔ bitmapTest s f = false := by
  rw [freeFrames, Finset.mem_filter, Finset.mem_range, and_iff_right_iff_imp]
  exact bitmapTest_lt

theorem card_freeFrames (s : Vm) : (freeFrames s).card ≤ maxFrames := by
  have h := Finset.card_filter_le (Finset.range maxFrames) fun f => bitmapTest s f = false
  rwa [Finset.card_range] at h

theorem card_freeFrames_lt (hbits : ∀ f, bitmapTest s f = true → bitmapTest s' f = true)
    (hfree : bitmapTest s f = false) (htaken : bitmapTest s' f = true) :
    (freeFrames s').card < (freeFrames s).card := by
  have hsub : freeFrames s' ⊂ freeFrames s := by
    rw [Finset.ssubset_iff_of_subset]
    · refine ⟨f, mem_freeFrames.mpr hfree, fun hc => ?_⟩
      rw [mem_freeFrames, htaken] at hc
      simp at hc
    · intro k hk
      rw [mem_freeFrames] at hk ⊢
      by_contra hc
      rw [hbits k (by simpa using hc)] at hk
      simp at hk
  exact Finset.card_lt_card hsub

/-! ### Granting a range -/

/-- The pages of a range. -/
def Pages (addr n : Nat) (π : Path) : Prop := ∃ j < n, π = pathOf (addr + j * pageSize)

theorem Pages.mono {addr m : Nat} {π : Path} (h : Pages addr n π) (hle : n ≤ m) :
    Pages addr m π := by
  obtain ⟨j, hj, rfl⟩ := h
  exact ⟨j, by omega, rfl⟩

theorem Pages.zero (addr : Nat) (hn : 0 < n) : Pages addr n (pathOf addr) :=
  ⟨0, hn, by rw [Nat.zero_mul, Nat.add_zero]⟩

theorem Pages.succ {addr : Nat} {π : Path} (h : Pages (addr + pageSize) n π) :
    Pages addr (n + 1) π := by
  obtain ⟨j, hj, rfl⟩ := h
  exact ⟨j + 1, by omega, by rw [Nat.add_mul, Nat.one_mul, Nat.add_assoc, Nat.add_comm pageSize]⟩

/-- One turn of `paging_map_user_range`. -/
theorem mapUserLoop_turn (flags : Word) (addr : Nat) (h : Forest s tag) :
    (∃ s', (∀ n, mapUserLoop im flags (n + 1) addr s = (false, s')) ∧
      ∃ tag', Granted (fun _ => False) s tag s' tag') ∨
    ∃ s', (∀ n, mapUserLoop im flags (n + 1) addr s =
        mapUserLoop im flags n (addr + pageSize) s') ∧
      (∃ f, bitmapTest s f = false ∧ bitmapTest s' f = true) ∧
      ∃ tag', Granted (· = pathOf addr) s tag s' tag' ∧
        (has flags pagePresent = true → (walk s'.mem s'.pml4 addr).isSome = true) := by
  rcases ha : pagingAllocPage s with ⟨_ | a, s₁⟩
  · refine Or.inl ⟨s₁, fun n => by rw [mapUserLoop, ha], ?_⟩
    rw [pagingAllocPage_none h.null ha]
    exact ⟨tag, Granted.refl h⟩
  · obtain ⟨-, hmap⟩ := @grant_spec im s s₁ tag addr a flags h ha
    rcases hm : pagingMapUserPage im (pagingZeroFrame im s₁ a) addr a flags with ⟨ok, s₃⟩
    have hm' := hm
    rw [pagingZeroFrame_eq] at hm'
    obtain ⟨hfail, hdone⟩ := hmap ok s₃ hm'
    cases ok with
    | false =>
      exact Or.inl ⟨_, fun n => by rw [mapUserLoop, ha]; simp only [hm], hfail rfl⟩
    | true =>
      exact Or.inr ⟨s₃, fun n => by rw [mapUserLoop, ha]; simp only [hm], hdone rfl⟩

/-- The loop grants pages of its range only, no more than there are frames, and all of them if it
    ends well. -/
theorem mapUserLoop_spec (flags : Word) (n : Nat) : ∀ {addr : Nat} {s : Vm}
    {tag : Nat → Option Path}, Forest s tag →
    ∃ tag', Granted (Pages addr (min n (freeFrames s).card)) s tag
        (mapUserLoop im flags n addr s).2 tag' ∧
      (has flags pagePresent = true → (mapUserLoop im flags n addr s).1 = true →
        (∀ j < n, pathOf (addr + j * pageSize) ≠ pathOf kernelKmapWindow) →
        (∀ j < n, ∀ k < n, pathOf (addr + j * pageSize) = pathOf (addr + k * pageSize) → j = k) →
        ∀ j < n, (walk (mapUserLoop im flags n addr s).2.mem
          (mapUserLoop im flags n addr s).2.pml4 (addr + j * pageSize)).isSome = true) := by
  induction n with
  | zero =>
    intro addr s tag h
    exact ⟨tag, Granted.refl h, fun _ _ _ _ j hj => absurd hj (Nat.not_lt_zero j)⟩
  | succ n ih =>
    intro addr s tag h
    rcases mapUserLoop_turn flags addr h with
      ⟨s', hturn, tag', g⟩ | ⟨s', hturn, ⟨f, hfree, htaken⟩, tag', g, hpage⟩
    · rw [hturn]
      refine ⟨tag', g.mono fun _ hc => hc.elim, fun _ hc => ?_⟩
      simp at hc
    · obtain ⟨tag'', g', hrest⟩ := @ih (addr + pageSize) _ _ g.forest
      have hcard := card_freeFrames_lt g.bits hfree htaken
      rw [hturn]
      refine ⟨tag'', (g.mono ?_).trans h (g'.mono fun π hπ => hπ.succ.mono (by omega)), ?_⟩
      · rintro π rfl
        exact Pages.zero addr (by omega)
      intro hpr hok hwin hinj j hj
      have hshift : ∀ j, addr + pageSize + j * pageSize = addr + (j + 1) * pageSize := by
        intro j
        ring
      cases j with
      | zero =>
        -- the later turns leave the first page alone
        rw [Nat.zero_mul, Nat.add_zero]
        rw [g'.walk g.forest]
        · exact hpage hpr
        · have := hwin 0 (Nat.succ_pos n)
          rwa [Nat.zero_mul, Nat.add_zero] at this
        · rintro ⟨k, hk, heq⟩
          rw [hshift] at heq
          have := hinj 0 (Nat.succ_pos n) (k + 1) (by omega) (by
            rw [Nat.zero_mul, Nat.add_zero]
            exact heq)
          omega
      | succ j =>
        rw [← hshift]
        refine hrest hpr hok ?_ ?_ j (by omega)
        · intro k hk
          rw [hshift]
          exact hwin (k + 1) (by omega)
        · intro k hk l hl heq
          rw [hshift, hshift] at heq
          have := hinj (k + 1) (by omega) (l + 1) (by omega) heq
          omega

end TypeOS.Paging
