import TypeOS.Paging.Map

/-! Frames of data: allocating, freeing and copying them.

    A frame that was free belongs to nobody, so what is done to it afterwards is no change of the
    state before. Copying a frame may go through the temporary window, two pages of which are
    mapped and unmapped on the way. -/

namespace TypeOS.Paging
open Radix

variable {im : Image} {s s' s₀ : Vm} {tag tag₀ tag' : Nat → Option Path} {f v : Nat}
  {E W : Path → Prop}

/-- The two pages of the temporary kernel window. -/
def Window (π : Path) : Prop :=
  π = pathOf kernelKmapWindow ∨ π = pathOf (kernelKmapWindow + pageSize)

theorem pagingMapPage_mapped (h : Forest s tag) {phys : Nat} {flags : Word} {ok : Bool}
    (hm : pagingMapPage im s v phys flags = (ok, s')) :
    ∃ tag', Mapped (· = pathOf v) (· = pathOf v) s tag s' tag' :=
  pagingMapPageFlags_mapped h tableFlags_kernel hm

theorem pagingMapUserPage_mapped (h : Forest s tag) {phys : Nat} {flags : Word} {ok : Bool}
    (hm : pagingMapUserPage im s v phys flags = (ok, s')) :
    ∃ tag', Mapped (· = pathOf v) (· = pathOf v) s tag s' tag' :=
  pagingMapPageFlags_mapped h tableFlags_user hm

/-- An operation on one page of the window is one on the window. -/
theorem Mapped.window (hv : Window (pathOf v))
    (h : Mapped (· = pathOf v) (· = pathOf v) s tag s' tag') : Mapped Window Window s tag s' tag' :=
  h.mono (fun π hπ => ⟨π, hπ ▸ hv, List.prefix_rfl⟩) fun _ hπ => hπ ▸ hv

/-! ### Frames that were free -/

theorem pagingAllocPage_none (hnull : bitmapTest s 0 = true)
    (ha : pagingAllocPage s = (none, s')) : s' = s := by
  rw [pagingAllocPage] at ha
  cases hf : firstFrom (fun i => !bitmapTest s i) s.totalFrames 0 with
  | none => rw [hf] at ha; exact (Prod.mk.inj ha).2.symm
  | some i =>
    have hp := (firstFrom_some hf).2.2.1
    have hi : i ≠ 0 := by rintro rfl; rw [hnull] at hp; simp at hp
    rw [hf] at ha
    simp [framePtr, hi] at ha

/-- `paging_alloc_page` takes a free frame. -/
theorem pagingAllocPage_some {a : Nat} (ha : pagingAllocPage s = (some a, s')) :
    ∃ f, a = f * pageSize ∧ 0 < f ∧ f < maxFrames ∧ f < s.totalFrames ∧ bitmapTest s f = false ∧
      s' = bitmapSet s f := by
  rw [pagingAllocPage] at ha
  cases hf : firstFrom (fun i => !bitmapTest s i) s.totalFrames 0 with
  | none => rw [hf] at ha; simp at ha
  | some i =>
    obtain ⟨-, hlt, hp, -⟩ := firstFrom_some hf
    rw [hf] at ha
    obtain ⟨h1, h2⟩ := Prod.mk.inj ha
    have hfree : bitmapTest s i = false := by simpa using hp
    have hmax : i < maxFrames := by
      by_contra hge
      rw [bitmapTest, if_pos (by omega)] at hfree
      simp at hfree
    rw [framePtr] at h1
    split at h1
    · simp at h1
    · next hne =>
      rw [Option.some.injEq] at h1
      refine ⟨i, h1.symm, ?_, hmax, by omega, hfree, h2.symm⟩
      rcases Nat.eq_zero_or_pos i with rfl | hpos
      · simp at hne
      · exact hpos

theorem Mapped.take (h : Forest s tag) (f : Nat) : Mapped E W s tag (bitmapSet s f) tag :=
  Mapped.same h bitmapSet_mem (fun g hg => by rw [bitmapTest_bitmapSet, hg, Bool.or_true])
    bitmapSet_pml4 bitmapSet_total

/-- A frame that was free and is no table is filled. -/
theorem Mapped.fill {w : Fin 512 → Word} (h : Mapped E W s tag s' tag')
    (hfree : bitmapTest s f = false) (hf : tag' f = none) :
    Mapped E W s tag (writeFrame s' f w) tag' := by
  have hmem : ∀ t p, tag' t = some p → (writeFrame s' f w).mem t = s'.mem t := by
    rintro t p ht
    have : t ≠ f := by rintro rfl; rw [hf] at ht; simp at ht
    simp [writeFrame, this]
  have hd : ∀ (r : Nat) (q : Path), tag' r = some [] → q.length ≤ 3 →
      descend nextTable (writeFrame s' f w).mem r q = descend nextTable s'.mem r q :=
    fun r q hr hq => h.forest.tagged.descend_congr hr (by simpa using hq)
      fun u w k hu _ => by rw [hmem u w hu]
  have hpt : ∀ r v, tag' r = some [] →
      ptOf (writeFrame s' f w).mem r v = ptOf s'.mem r v := fun r v hr => hd r _ hr (by simp [tablePath])
  have hforest : Forest (writeFrame s' f w) tag' := h.forest.congr hmem (fun _ h => h) rfl
  refine ⟨⟨hforest, h.tags, h.fresh, h.bits, fun g hg hb => ?_, h.pml4, h.total,
    fun r v hr hv => ?_, fun t p i ht => ?_, fun t p i c ht hp hc => ?_⟩, fun t p i c ht hp hc hq => ?_⟩
  · have hgf : g ≠ f := by rintro rfl; rw [hfree] at hb; simp at hb
    simp only [writeFrame, Function.update_of_ne hgf]
    exact h.frames g hg hb
  · rw [Forest.walk_congr h.forest hmem (h.tags r _ hr)]
    refine h.walks r v hr fun hc => hv ⟨hc.1, ?_⟩
    obtain ⟨pt, h1, h2⟩ := hc.2
    exact ⟨pt, (hpt _ v h.forest.root).trans h1, (hpt r v (h.tags r _ hr)).trans h2⟩
  · rw [hmem t p (h.tags t p ht)]
    refine (h.off t p i ht).imp_right fun hc => ⟨hc.1, ?_⟩
    exact (hd _ p h.forest.root (h.forest.depth t p (h.tags t p ht))).trans hc.2
  · rw [hmem t p (h.tags t p ht)]; exact h.keep t p i c ht hp hc
  · rw [hmem t p ht] at hc; exact h.back t p i c ht hp hc hq

theorem bitmapTest_bitmapClear {t : Nat} (hne : f ≠ t) :
    bitmapTest (bitmapClear s t) f = bitmapTest s f := by
  unfold bitmapTest bitmapClear
  split
  · rfl
  · split
    · rfl
    · simp [hne]

theorem pagingFreePage_eq (s : Vm) (a : Nat) : (pagingFreePage s a).mem = s.mem ∧
    (pagingFreePage s a).pml4 = s.pml4 ∧ (pagingFreePage s a).totalFrames = s.totalFrames ∧
    ∀ f, f ≠ a / pageSize → bitmapTest (pagingFreePage s a) f = bitmapTest s f := by
  unfold pagingFreePage
  split
  · exact ⟨rfl, rfl, rfl, fun _ _ => rfl⟩
  split
  · refine ⟨?_, ?_, ?_, fun f hf => bitmapTest_bitmapClear hf⟩ <;>
      (unfold bitmapClear; split <;> rfl)
  · exact ⟨rfl, rfl, rfl, fun _ _ => rfl⟩

/-- A frame that was free and is no table is freed again. -/
theorem Mapped.release (h : Mapped E W s tag s' tag') (hfree : bitmapTest s f = false)
    (hf : tag' f = none) : Mapped E W s tag (pagingFreePage s' (f * pageSize)) tag' := by
  obtain ⟨hm, hr, ht, hb⟩ := pagingFreePage_eq s' (f * pageSize)
  have hdiv : f * pageSize / pageSize = f := frame_div f
  rw [hdiv] at hb
  have hz : bitmapTest s 0 = true → (0 : Nat) ≠ f := by rintro h0 rfl; rw [hfree] at h0; simp at h0
  have hbits : ∀ g, bitmapTest s g = true → bitmapTest (pagingFreePage s' (f * pageSize)) g = true := by
    intro g hg
    rw [hb g (by rintro rfl; rw [hfree] at hg; simp at hg)]
    exact h.bits g hg
  have htne : ∀ t p, tag' t = some p → t ≠ f := by rintro t p htp rfl; rw [hf] at htp; simp at htp
  have hforest : Forest (pagingFreePage s' (f * pageSize)) tag' := by
    have hF := h.forest
    refine ⟨by rw [hm]; exact hF.tagged, hF.depth, by rw [hm]; exact hF.upper,
      by rw [hm]; exact hF.huge, by rw [hm]; exact hF.writable, fun t p htp => ?_, ?_,
      by rw [hr]; exact hF.root⟩
    · obtain ⟨h1, h2, h3⟩ := hF.used t p htp
      exact ⟨h1, h2, by rw [hb t (htne t p htp)]; exact h3⟩
    · rcases eq_or_ne (0 : Nat) f with h0 | h0
      · rw [pagingFreePage, if_pos (by rw [← h0]; rfl)]; exact hF.null
      · rw [hb 0 h0]; exact hF.null
  refine ⟨⟨hforest, h.tags, h.fresh, hbits, by rw [hm]; exact h.frames, hr.trans h.pml4,
    ht.trans h.total, fun r v hroot hv => ?_, by rw [hm, hr]; exact h.off, by rw [hm]; exact h.keep⟩,
    by rw [hm]; exact h.back⟩
  rw [hm]
  refine h.walks r v hroot fun hc => hv ⟨hc.1, ?_⟩
  obtain ⟨pt, h1, h2⟩ := hc.2
  exact ⟨pt, by rw [hm, hr]; exact h1, by rw [hm]; exact h2⟩

/-! ### Copying a frame -/

/-- A page mapped to a frame translates to that frame. -/
theorem mapped_phys (h : Forest s tag) {g : Nat} (hg : g < 2 ^ 40) {flags tfl : Word}
    (hfl : TableFlags tfl) (hpr : has flags pagePresent = true) (haddr : flags &&& pteAddrMask = 0#64)
    (hm : pagingMapPageFlags im s v (g * pageSize) flags tfl = (true, s')) {o : Nat}
    (ho : o < pageSize) (hv : v % pageSize = 0) (hpath : pathOf (v + o) = pathOf v) :
    pagingVirtToPhys s' (v + o) = g * pageSize + o := by
  obtain ⟨tag', hmap⟩ := pagingMapPageFlags_mapped h hfl hm
  obtain ⟨u, hw⟩ := pagingMapPageFlags_walk h hfl hpr hm
  have hw' : walk s'.mem s'.pml4 (v + o) = walk s'.mem s'.pml4 v := by rw [walk, walk, hpath]
  rw [pagingVirtToPhys, hmap.forest.virtToPhys_eq hmap.forest.root, hw', hw, Option.map_some,
    Option.getD_some, entryFrame_or haddr, entryFrame_and_mask,
    ofNat_frame (Nat.mul_mod_left ..), frame_div g, entryFrame_frameWord hg]
  simp only [pageSize] at *
  omega

/-- A page that the kernel maps writable is the frame, byte for byte. -/
theorem mapped_byte (h : Forest s tag) {g : Nat} (hg : g < 2 ^ 40) (hv : v % pageSize = 0)
    (hm : pagingMapPage im s v (g * pageSize) (pagePresent ||| pageWritable) = (true, s')) {o : Nat}
    (ho : o < pageSize) : pagingVirtToPhys s' (v + o) = g * pageSize + o := by
  have hpath : pathOf (v + o) = pathOf v := pathOf_same <| by
    simp only [pageSize] at *
    omega
  exact mapped_phys h hg tableFlags_kernel (by decide) (by decide) hm ho hv hpath

/-- What is done through it is done to the frame. -/
theorem mapped_frame (h : Forest s tag) {g : Nat} (hg : g < 2 ^ 40) (hv : v % pageSize = 0)
    (hm : pagingMapPage im s v (g * pageSize) (pagePresent ||| pageWritable) = (true, s')) :
    pagingVirtToPhys s' v / pageSize = g := by
  have hphys := mapped_byte h hg hv hm pageSize_pos
  rw [Nat.add_zero, Nat.add_zero] at hphys
  rw [hphys, frame_div g]

/-- Copying into a frame that was free before touches nothing else but the window. -/
theorem pagingCopyFrame_mapped (h₀ : Forest s₀ tag₀) (h : Mapped Window Window s₀ tag₀ s tag)
    (hfree : bitmapTest s₀ f = false) (hf : tag f = none) (hb : bitmapTest s f = true)
    (hlt : f < 2 ^ 40) {src : Nat} {ok : Bool}
    (hc : pagingCopyFrame im s (f * pageSize) src = (ok, s')) :
    ∃ tag', Mapped Window Window s₀ tag₀ s' tag' ∧ tag' f = none ∧ bitmapTest s' f = true := by
  have hdiv : f * pageSize / pageSize = f := frame_div f
  have hw1 : Window (pathOf kernelKmapWindow) := Or.inl rfl
  have hw2 : Window (pathOf (kernelKmapWindow + pageSize)) := Or.inr rfl
  rw [pagingCopyFrame] at hc
  split at hc
  · obtain ⟨-, rfl⟩ := Prod.mk.inj hc
    rw [hdiv]
    have ht := (h.trans h₀ (Mapped.touch h.forest src)).trans h₀
      (Mapped.touch (Mapped.touch (E := Window) (W := Window) h.forest src).forest (f * pageSize))
    exact ⟨tag, ht.fill hfree hf, hf, hb⟩
  rcases hm1 : pagingMapPage im s kernelKmapWindow src pagePresent with ⟨ok1, s₁⟩
  obtain ⟨tag₁, g1⟩ := pagingMapPage_mapped h.forest hm1
  have hf1 := g1.untagged hf hb
  have hb1 := g1.bits f hb
  have h1 := h.trans h₀ (g1.window hw1)
  rw [hm1] at hc
  cases ok1 with
  | false =>
    obtain ⟨-, rfl⟩ := Prod.mk.inj hc
    exact ⟨tag₁, h1, hf1, hb1⟩
  | true =>
    simp only at hc
    rcases hm2 : pagingMapPage im s₁ (kernelKmapWindow + pageSize) (f * pageSize)
      (pagePresent ||| pageWritable) with ⟨ok2, s₂⟩
    obtain ⟨tag₂, g2⟩ := pagingMapPage_mapped h1.forest hm2
    have hf2 := g2.untagged hf1 hb1
    have hb2 := g2.bits f hb1
    have h2 := h1.trans h₀ (g2.window hw2)
    rw [hm2] at hc
    cases ok2 with
    | false =>
      obtain ⟨-, rfl⟩ := Prod.mk.inj hc
      have g3 := pagingUnmapPage_mapped h2.forest kernelKmapWindow
      exact ⟨tag₂, h2.trans h₀ (g3.window hw1), hf2, g3.bits f hb2⟩
    | true =>
      -- the second page of the window is the frame, so it is the frame that is overwritten
      simp only [copyThrough, mapped_frame h1.forest hlt (by decide) hm2] at hc
      obtain ⟨-, rfl⟩ := Prod.mk.inj hc
      have h3 := h2.fill (w := s₂.mem (pagingVirtToPhys s₂ kernelKmapWindow / pageSize)) hfree hf2
      have g4 := pagingUnmapPage_mapped h3.forest kernelKmapWindow
      have h4 := h3.trans h₀ (g4.window hw1)
      have g5 := pagingUnmapPage_mapped h4.forest (kernelKmapWindow + pageSize)
      exact ⟨tag₂, h4.trans h₀ (g5.window hw2), hf2, g5.bits f (g4.bits f hb2)⟩

end TypeOS.Paging
