import TypeOS.Paging.Direct
import TypeOS.Paging.Lacking
import TypeOS.Sys.FreshPages

/-! What a failed request for memory leaves behind.

    `sys_brk` and `paging_map_user_range` give back the frame of the page they fail at. Nothing gives
    back the pages before it, or the tables made on the way. So a request that fails leaves
    everything as it was only if it fails at its first page before it takes a table.

    A call that writes to a table where it is not mapped does not return, so this is about calls whose
    direct accesses land. On a machine of 64 MiB all those of `sys_brk` do. -/

namespace TypeOS.Sys
open Paging Radix

variable {im : Image} {s s' s₁ s₂ s₃ : Vm} {roots : List Nat} {tag : Nat → Option Path}
  {brk brk' addr len prot flags a f k r v virt size : Nat} {fl : Word}

/-- The break, the translation of every user address and the free frames are as before. -/
structure Unchanged (s : Vm) (brk : Nat) (s' : Vm) (brk' : Nat) : Prop where
  brk : brk' = brk
  pages : ∀ v, userAddrMin ≤ v → v ≤ userAddrMax → walk s'.mem s'.pml4 v = walk s.mem s.pml4 v
  frames : freeFrames s' = freeFrames s

/-- There is no frame for a table once one was taken for a page. -/
def NoTable (im : Image) (s : Vm) : Prop := (pagingAllocTable im (pagingAllocPage s).2).1 = none

/-- The window can be used, and no page is there. -/
def WindowReady (s : Vm) : Prop :=
  ptOf s.mem s.pml4 kernelKmapWindow ≠ none ∧ walk s.mem s.pml4 kernelKmapWindow = none

/-- A page is neither mapped nor takes a table. -/
def Unmappable (im : Image) (s : Vm) (v : Nat) : Prop :=
  v % pageSize ≠ 0 ∨ ptOf s.mem s.pml4 v = none ∧ NoTable im s

/-- What `sys_brk` fails at before it takes a table. -/
def BrkBacksOut (im : Image) (s : Vm) (brk addr : Nat) : Prop :=
  addr = 0 ∨ addr < userBrkStart ∨ (pagingAllocPage s).1 = none ∨
    (ptOf s.mem s.pml4 kernelKmapWindow = none ∧ NoTable im s) ∨
    (WindowReady s ∧ Unmappable im s brk)

/-- What `paging_map_user_range` fails at before it takes a table. -/
def RangeBacksOut (im : Image) (s : Vm) (virt : Nat) : Prop :=
  (pagingAllocPage s).1 = none ∨
    Unmappable im s (pageOf virt) ∧
      (ptOf s.mem s.pml4 kernelKmapWindow = none ∨ WindowReady s)

/-! ### What is left -/

theorem not_unchanged (h : Takes s s') : ¬ Unchanged s brk s' brk' := by
  intro hu
  obtain ⟨f, hfree, htaken⟩ := h
  have hmem := mem_freeFrames.mpr hfree
  rw [← hu.frames, mem_freeFrames, htaken] at hmem
  cases hmem

/-- A frame that was taken for a page is given back. -/
theorem bitmapTest_freePage (hfree : bitmapTest s f = false) (hpos : 0 < f) (hmax : f < maxFrames)
    (hlt : f < s₃.totalFrames) (g : Nat) : bitmapTest (pagingFreePage s₃ (f * pageSize)) g =
      if g = f then false else bitmapTest s₃ g := by
  have hdiv : f * pageSize / pageSize = f := frame_div f
  split
  · next hg =>
    subst hg
    have hne : g * pageSize ≠ 0 := by
      simp only [pageSize]
      omega
    rw [pagingFreePage, if_neg hne, hdiv, if_pos hlt, bitmapClear, if_neg (by omega), bitmapTest,
      if_neg (by omega)]
    exact Function.update_self ..
  · next hg =>
    obtain ⟨-, -, -, hb⟩ := pagingFreePage_eq s₃ (f * pageSize)
    exact hb g (by rwa [hdiv])

variable {tag₂ : Nat → Option Path} {okc okm : Bool}

theorem takes_freePage (h : Takes (bitmapSet s f) s₃) : Takes s (pagingFreePage s₃ (f * pageSize)) := by
  obtain ⟨g, hfree, htaken⟩ := h
  rw [bitmapTest_bitmapSet, Bool.or_eq_false_iff, decide_eq_false_iff_not] at hfree
  obtain ⟨-, -, -, hb⟩ := pagingFreePage_eq s₃ (f * pageSize)
  rw [frame_div f] at hb
  exact ⟨g, hfree.2, (hb g hfree.1).trans htaken⟩

/-- A page that fails without a table leaves no trace but in the window. -/
theorem unchanged_iff (h : Forest s tag) (ha : pagingAllocPage s = (some (f * pageSize), bitmapSet s f))
    (g : ∃ tag', Granted (fun _ => False) s tag (pagingFreePage s₃ (f * pageSize)) tag')
    (hb : ∀ g, bitmapTest s₃ g = bitmapTest (bitmapSet s f) g) (ht : s₃.totalFrames = s.totalFrames) :
    Unchanged s brk (pagingFreePage s₃ (f * pageSize)) brk ↔
      walk s₃.mem s₃.pml4 kernelKmapWindow = walk s.mem s.pml4 kernelKmapWindow := by
  obtain ⟨tag', g⟩ := g
  obtain ⟨k, hk, hpos, hmax, hlt, hfree, -⟩ := pagingAllocPage_some ha
  obtain rfl : f = k := Nat.eq_of_mul_eq_mul_right pageSize_pos hk
  obtain ⟨hm, hr, -, -⟩ := pagingFreePage_eq s₃ (f * pageSize)
  constructor
  · intro hu
    have := hu.pages kernelKmapWindow (by decide) (by decide)
    rwa [hm, hr] at this
  · intro hw
    refine ⟨rfl, fun v _ _ => ?_, ?_⟩
    · by_cases hv : pathOf v = pathOf kernelKmapWindow
      · rw [walk_page hv, hm, hr, hw, walk_page hv]
      · exact g.walk h hv fun hc => hc
    · ext k
      rw [mem_freeFrames, mem_freeFrames, bitmapTest_freePage hfree hpos hmax (ht ▸ hlt), hb,
        bitmapTest_bitmapSet]
      split
      · next hk => rw [hk, hfree]
      · next hk => rw [decide_eq_false hk, Bool.false_or]

/-- A page is mapped, or takes a frame, unless it can be neither. -/
theorem map_iff (h₂ : Forest s₂ tag₂) (hp : f * pageSize % pageSize = 0)
    (hpt : ptOf s₂.mem s₂.pml4 v = ptOf s.mem s.pml4 v)
    (hT : (pagingAllocTable im s₂).1 = (pagingAllocTable im (pagingAllocPage s).2).1) :
    (Unmappable im s v → ∃ d, pagingMapUserPage im s₂ v (f * pageSize) fl =
      (false, { s₂ with direct := d })) ∧
    (¬ Unmappable im s v → (pagingMapUserPage im s₂ v (f * pageSize) fl).1 = true ∨
      Takes s₂ (pagingMapUserPage im s₂ v (f * pageSize) fl).2) := by
  rw [Unmappable, NoTable, ← hT, ← hpt]
  by_cases hv : v % pageSize = 0
  · have hmissing := @pagingMapPageFlags_missing im s₂ tag₂ v (f * pageSize) (fl ||| pageUser)
      (pagePresent ||| pageWritable ||| pageUser) h₂ hv hp
    constructor
    · rintro (hc | ⟨hnone, ha⟩)
      · exact absurd hv hc
      · exact (hmissing hnone).1 ha
    · intro hu
      rcases hk : ptOf s₂.mem s₂.pml4 v with _ | k
      · exact Or.inr ((hmissing hk).2 fun ha => hu (Or.inr ⟨hk, ha⟩))
      · obtain ⟨d, hd⟩ := @pagingMapPageFlags_there im s₂ tag₂ k v (f * pageSize) (fl ||| pageUser)
          (pagePresent ||| pageWritable ||| pageUser) h₂ hv hp hk
        exact Or.inl (congrArg Prod.fst hd)
  · refine ⟨fun _ => ⟨s₂.direct, ?_⟩, fun hu => absurd (Or.inl hv) hu⟩
    rw [pagingMapUserPage, pagingMapPageFlags, if_pos (Or.inl hv)]

/-- What mapping the page does, after a first half that took no frame. -/
theorem second_half (h : Forest s tag) (ha : pagingAllocPage s = (some (f * pageSize), bitmapSet s f))
    (h₂ : Forest s₂ tag₂) (hpt : ptOf s₂.mem s₂.pml4 v = ptOf s.mem s.pml4 v)
    (hb : ∀ g, bitmapTest s₂ g = bitmapTest (bitmapSet s f) g) (ht : s₂.totalFrames = s.totalFrames)
    (hm : pagingMapUserPage im s₂ v (f * pageSize) fl = (okm, s₃))
    (hfail : okm = false →
      ∃ tag', Granted (fun _ => False) s tag (pagingFreePage s₃ (f * pageSize)) tag') :
    (okm = false → (Unchanged s brk (pagingFreePage s₃ (f * pageSize)) brk ↔ Unmappable im s v ∧
      walk s₂.mem s₂.pml4 kernelKmapWindow = walk s.mem s.pml4 kernelKmapWindow)) ∧
    (okm = true → ¬ Unmappable im s v) := by
  obtain ⟨hun, hdo⟩ := @map_iff im s s₂ f v fl tag₂ h₂ (Nat.mul_mod_left ..) hpt
    (by rw [ha]; exact pagingAllocTable_congr hb (ht.trans bitmapSet_total.symm))
  rw [hm] at hun hdo
  by_cases hU : Unmappable im s v
  · obtain ⟨d, hd⟩ := hun hU
    obtain ⟨rfl, rfl⟩ := Prod.mk.inj hd
    refine ⟨fun _ => ?_, fun hok => by cases hok⟩
    rw [and_iff_right hU]
    exact unchanged_iff h ha (hfail rfl) hb ht
  · refine ⟨fun hok => ?_, fun _ => hU⟩
    have htakes := (hdo hU).resolve_left (by rw [hok]; exact Bool.false_ne_true)
    refine iff_of_false (not_unchanged (takes_freePage ?_)) fun hc => hU hc.1
    obtain ⟨g, hg, hg'⟩ := htakes
    exact ⟨g, (hb g).symm.trans hg, hg'⟩

/-- The first page of a request, cleared and mapped: what is left when this fails. -/
theorem attempt (h : Forest s tag) (ha : pagingAllocPage s = (some a, s₁))
    (hc : pagingClearPhys im s₁ a = (okc, s₂)) (hm : pagingMapUserPage im s₂ v a fl = (okm, s₃)) :
    (okc = false → ¬ WindowReady s ∧ (Unchanged s brk (pagingFreePage s₂ a) brk ↔
      ptOf s.mem s.pml4 kernelKmapWindow = none ∧ NoTable im s)) ∧
    (okc = true → ¬ (ptOf s.mem s.pml4 kernelKmapWindow = none ∧ NoTable im s)) ∧
    (okm = false → (Unchanged s brk (pagingFreePage s₃ a) brk ↔ Unmappable im s v ∧
      (ptOf s.mem s.pml4 kernelKmapWindow = none ∧ NoTable im s ∨ WindowReady s))) ∧
    (okm = true → Takes s s₃ ∧ ¬ (Unmappable im s v ∧
      (ptOf s.mem s.pml4 kernelKmapWindow = none ∧ NoTable im s ∨ WindowReady s))) := by
  obtain ⟨f, rfl, hlt, hfree, hf, rfl, hbit⟩ := allocPage_fresh h ha
  have hp : f * pageSize % pageSize = 0 := Nat.mul_mod_left ..
  have h₁ : Forest (bitmapSet s f) tag :=
    (Mapped.take (E := fun _ => True) (W := fun _ => True) h f).forest
  have hpt₁ : ∀ u, ptOf (bitmapSet s f).mem (bitmapSet s f).pml4 u = ptOf s.mem s.pml4 u := by
    intro u
    rw [bitmapSet_mem, bitmapSet_pml4]
  have hT : NoTable im s ↔ (pagingAllocTable im (bitmapSet s f)).1 = none := by rw [NoTable, ha]
  have hgrow₂ : Grows (bitmapSet s f) s₂ := by
    have := grows_clearPhys im (bitmapSet s f) (f * pageSize)
    rwa [hc] at this
  have hgrow₃ : Grows s₂ s₃ := by
    have := grows_mapPageFlags im s₂ v (f * pageSize) (fl ||| pageUser)
      (pagePresent ||| pageWritable ||| pageUser)
    rwa [← pagingMapUserPage, hm] at this
  have htaken : Takes s s₃ := ⟨f, hfree, hgrow₃ f (hgrow₂ f hbit)⟩
  obtain ⟨hback, hmap⟩ := @grant_spec im s (bitmapSet s f) tag v (f * pageSize) fl h ha
  rw [hc] at hback hmap
  obtain ⟨hfail, -⟩ := hmap okm s₃ hm
  have hhalf : ∀ {tag₂ : Nat → Option Path}, Forest s₂ tag₂ →
      (∀ u, ptOf s₂.mem s₂.pml4 u = ptOf s.mem s.pml4 u) →
      (∀ g, bitmapTest s₂ g = bitmapTest (bitmapSet s f) g) → s₂.totalFrames = s.totalFrames →
      (okm = false → (Unchanged s brk (pagingFreePage s₃ (f * pageSize)) brk ↔ Unmappable im s v ∧
        walk s₂.mem s₂.pml4 kernelKmapWindow = walk s.mem s.pml4 kernelKmapWindow)) ∧
      (okm = true → ¬ Unmappable im s v) :=
    fun h₂ hpt hb ht => second_half h ha h₂ (hpt v) hb ht hm hfail
  rcases hW : ptOf s.mem s.pml4 kernelKmapWindow with _ | k
  · have hready : ¬ WindowReady s := fun hr => hr.1 hW
    obtain ⟨hnone, hsome⟩ := @pagingClearPhys_missing im (bitmapSet s f) tag f h₁
      ((hpt₁ _).trans hW)
    by_cases hN : NoTable im s
    · -- nothing happens to the frames or to the tables
      obtain ⟨d, hd⟩ := hnone (hT.mp hN)
      obtain ⟨rfl, rfl⟩ := Prod.mk.inj (hc.symm.trans hd)
      have h₂ : Forest { bitmapSet s f with direct := d } tag := SameTables.forest h₁ ⟨rfl, rfl, rfl, rfl⟩
      have hwalk : walk (bitmapSet s f).mem (bitmapSet s f).pml4 kernelKmapWindow =
          walk s.mem s.pml4 kernelKmapWindow := by
        rw [bitmapSet_mem, bitmapSet_pml4]
      obtain ⟨hno, hyes⟩ := hhalf h₂ hpt₁ (fun _ => rfl) bitmapSet_total
      refine ⟨fun _ => ⟨hready, ?_⟩, fun hok => by (cases hok), fun hok => ?_, fun hok => ?_⟩
      · refine iff_of_true ?_ ⟨rfl, hN⟩
        exact (unchanged_iff h ha hback (fun _ => rfl) bitmapSet_total).mpr hwalk
      · rw [hno hok]
        exact and_congr_right fun _ => iff_of_true hwalk (Or.inl ⟨rfl, hN⟩)
      · exact ⟨htaken, fun hc => hyes hok hc.1⟩
    · have htakes := hsome fun hc => hN (hT.mpr hc)
      rw [hc] at htakes
      have hno : ¬ (none = (none : Option Nat) ∧ NoTable im s ∨ WindowReady s) := by
        rintro (hc | hc)
        · exact hN hc.2
        · exact hready hc
      refine ⟨fun _ => ⟨hready, ?_⟩, fun _ hc => hN hc.2, fun _ => ?_, fun _ => ?_⟩
      · exact iff_of_false (not_unchanged (takes_freePage htakes)) fun hc => hN hc.2
      · exact iff_of_false (not_unchanged (takes_freePage (htakes.grows hgrow₃))) fun hc => hno hc.2
      · exact ⟨htaken, fun hc => hno hc.2⟩
  · obtain ⟨s₂', hclear, -, hb, ht, hr, hwalk, hpt⟩ := @pagingClearPhys_there im (bitmapSet s f) tag f k
      h₁ hf hlt ((hpt₁ _).trans hW)
    obtain ⟨rfl, rfl⟩ := Prod.mk.inj (hc.symm.trans hclear)
    obtain ⟨tag₂, hmapped, -⟩ := pagingClearPhys_mapped (W := fun _ => True) trivial h
      (Mapped.take h f) hfree hf hbit hlt hc
    obtain ⟨hno, hyes⟩ := hhalf hmapped.forest (fun u => by rw [hr, hpt, hpt₁]) hb
      (ht.trans bitmapSet_total)
    have hiff : walk s₂.mem s₂.pml4 kernelKmapWindow = walk s.mem s.pml4 kernelKmapWindow ↔
        (some k = none ∧ NoTable im s ∨ WindowReady s) := by
      rw [hwalk, WindowReady, hW]
      simp [eq_comm]
    refine ⟨fun hok => by (cases hok), fun _ hc => by (cases hc.1), fun hok => ?_, fun hok => ?_⟩
    · rw [hno hok, hiff]
    · exact ⟨htaken, fun hc => hyes hok hc.1⟩

/-! ### The calls -/

theorem pagingAllocPage_full (h : Forest s tag) (ha : pagingAllocPage s = (none, s₁)) :
    s₁ = s ∧ ∀ brk, Unchanged s brk s₁ brk := by
  obtain rfl := pagingAllocPage_none h.null ha
  exact ⟨rfl, fun _ => ⟨rfl, fun _ _ _ => rfl, rfl⟩⟩

/-- The loop of `sys_brk`, where it fails. -/
theorem brkLoop_unchanged_iff {n : Nat} (h : Forest s tag)
    (hrun : brkLoop im addr (n + 1) brk s = some (false, brk', s')) :
    Unchanged s brk s' brk' ↔ (pagingAllocPage s).1 = none ∨
      (ptOf s.mem s.pml4 kernelKmapWindow = none ∧ NoTable im s) ∨
      (WindowReady s ∧ Unmappable im s brk) := by
  have hlt : brk < addr := by
    by_contra hge
    rw [brkLoop, if_neg hge] at hrun
    simp at hrun
  rw [brkLoop, if_pos hlt] at hrun
  rcases ha : pagingAllocPage s with ⟨_ | a, s₁⟩
  · rw [ha] at hrun
    obtain ⟨-, rfl, rfl⟩ : true ∧ brk = brk' ∧ s₁ = s' := by simpa using hrun
    exact iff_of_true ((pagingAllocPage_full h ha).2 brk) (Or.inl rfl)
  rcases hc : pagingClearPhys im s₁ a with ⟨okc, s₂⟩
  rcases hm : pagingMapUserPage im s₂ brk a (pagePresent ||| pageWritable) with ⟨okm, s₃⟩
  obtain ⟨hcfail, hcdone, hmfail, hmdone⟩ := @attempt _ _ _ _ _ _ brk _ _ _ _ _ h ha hc hm
  simp only [ha, hc] at hrun
  simp only [reduceCtorEq, false_or]
  cases okc with
  | false =>
    obtain ⟨rfl, rfl⟩ : brk = brk' ∧ pagingFreePage s₂ a = s' := by simpa using hrun
    obtain ⟨hready, hiff⟩ := hcfail rfl
    rw [hiff, or_iff_left fun hc => hready hc.1]
  | true =>
    rw [or_iff_right (hcdone rfl)]
    simp only [hm] at hrun
    cases okm with
    | false =>
      obtain ⟨rfl, rfl⟩ : brk = brk' ∧ pagingFreePage s₃ a = s' := by simpa using hrun
      rw [hmfail rfl, or_iff_right (hcdone rfl), and_comm]
    | true =>
      -- the first page is there to stay
      obtain ⟨htakes, hno⟩ := hmdone rfl
      obtain ⟨-, hdone⟩ := (@grant_spec im s s₁ tag brk a (pagePresent ||| pageWritable) h ha).2 true
        s₃ (by rw [hc]; exact hm)
      obtain ⟨-, tag₃, g, -⟩ := hdone rfl
      obtain ⟨m, tag', g', -⟩ := brkLoop_spec n g.forest hrun
      exact iff_of_false (not_unchanged (htakes.grows g'.bits)) fun hc =>
        hno ⟨hc.2, Or.inr hc.1⟩

/-- `sys_brk`, where it fails. -/
theorem sysBrk_unchanged_iff (h : Forest s tag) (hcall : sysBrk im s brk addr = some (r, brk', s'))
    (hr : r ≠ addr) : Unchanged s brk s' brk' ↔ BrkBacksOut im s brk addr := by
  rw [sysBrk] at hcall
  rw [BrkBacksOut]
  split at hcall
  · next h0 =>
    obtain ⟨-, rfl, rfl⟩ : brk = r ∧ brk = brk' ∧ s = s' := by simpa using hcall
    exact iff_of_true ⟨rfl, fun _ _ _ => rfl, rfl⟩ (Or.inl h0)
  split at hcall
  · next hlow =>
    obtain ⟨-, rfl, rfl⟩ : brk = r ∧ brk = brk' ∧ s = s' := by simpa using hcall
    exact iff_of_true ⟨rfl, fun _ _ _ => rfl, rfl⟩ (Or.inr (Or.inl hlow))
  next h0 hlow =>
  rw [or_iff_right h0, or_iff_right hlow]
  rcases hrun : brkLoop im addr (maxFrames + 1) brk s with _ | ⟨ok, b, s₁⟩
  · rw [hrun] at hcall
    simp at hcall
  · rw [hrun] at hcall
    cases ok with
    | false =>
      obtain ⟨-, rfl, rfl⟩ : brk = r ∧ b = brk' ∧ s₁ = s' := by simpa using hcall
      exact brkLoop_unchanged_iff h hrun
    | true =>
      simp only [Option.some.injEq, Prod.mk.injEq] at hcall
      exact absurd hcall.1.symm hr

/-- `paging_map_user_range`, where it fails. -/
theorem mapUserRange_unchanged_iff (h : Forest s tag)
    (hcall : pagingMapUserRange im s virt size fl = (false, s')) :
    Unchanged s brk s' brk ↔ RangeBacksOut im s virt := by
  have hal : pageOf virt % pageSize = 0 := Nat.mul_mod_left ..
  rw [pagingMapUserRange] at hcall
  rw [RangeBacksOut]
  cases hn : userRangePages virt size with
  | zero =>
    rw [hn, mapUserLoop] at hcall
    cases hcall
  | succ n =>
    rw [hn, mapUserLoop] at hcall
    rcases ha : pagingAllocPage s with ⟨_ | a, s₁⟩
    · rw [ha] at hcall
      obtain ⟨-, rfl⟩ := Prod.mk.inj hcall
      exact iff_of_true ((pagingAllocPage_full h ha).2 brk) (Or.inl rfl)
    rcases hc : pagingClearPhys im s₁ a with ⟨okc, s₂⟩
    rcases hm : pagingMapUserPage im s₂ (pageOf virt) a fl with ⟨okm, s₃⟩
    obtain ⟨-, -, hmfail, hmdone⟩ := @attempt _ _ _ _ _ _ brk _ _ _ _ _ h ha hc hm
    have hiff : Unmappable im s (pageOf virt) ∧
          (ptOf s.mem s.pml4 kernelKmapWindow = none ∧ NoTable im s ∨ WindowReady s) ↔
        Unmappable im s (pageOf virt) ∧
          (ptOf s.mem s.pml4 kernelKmapWindow = none ∨ WindowReady s) := by
      refine and_congr_right fun hU => or_congr_left (and_iff_left ?_)
      exact (hU.resolve_left fun hc => hc hal).2
    rw [hiff] at hmfail hmdone
    simp only [ha, pagingZeroFrame_eq, hc, hm] at hcall
    simp only [reduceCtorEq, false_or]
    cases okm with
    | false =>
      obtain ⟨-, rfl⟩ := Prod.mk.inj hcall
      exact hmfail rfl
    | true =>
      obtain ⟨htakes, hno⟩ := hmdone rfl
      obtain ⟨-, hdone⟩ := (@grant_spec im s s₁ tag (pageOf virt) a fl h ha).2 true s₃
        (by rw [hc]; exact hm)
      obtain ⟨-, tag₃, g, -⟩ := hdone rfl
      obtain ⟨tag', g', -⟩ := @mapUserLoop_spec im fl n (pageOf virt + pageSize) s₃ tag₃ g.forest
      dsimp only at hcall
      rw [hcall] at g'
      exact iff_of_false (not_unchanged (htakes.grows g'.bits)) hno

/-- `sys_mmap`, where it fails. -/
theorem sysMmap_unchanged_iff {e : Int} (h : Forest s tag)
    (hcall : sysMmap im s addr len prot flags = (.error e, s')) : Unchanged s brk s' brk ↔
      len = 0 ∨ flags.testBit 5 = false ∨ RangeBacksOut im s (mmapAddr addr) := by
  rw [sysMmap] at hcall
  split at hcall
  · next hc =>
    obtain ⟨-, rfl⟩ := Prod.mk.inj hcall
    refine iff_of_true ⟨rfl, fun _ _ _ => rfl, rfl⟩ ?_
    exact hc.imp_right Or.inl
  · next hc =>
    rw [not_or] at hc
    rw [or_iff_right hc.1, or_iff_right hc.2]
    rcases hm : pagingMapUserRange im s (mmapAddr addr) len (mmapFlags prot) with ⟨ok, s₁⟩
    rw [hm] at hcall
    cases ok with
    | false =>
      obtain ⟨-, rfl⟩ := Prod.mk.inj hcall
      exact mapUserRange_unchanged_iff h hm
    | true => simp at hcall

/-! ### Calls that return -/

/-- Where everything is low, the loop of `sys_brk` makes no access that goes astray. -/
theorem brkLoop_lands {ok : Bool} (haddr : addr ≤ 2 ^ 48) (n : Nat) : ∀ {brk : Nat} {s : Vm}
    {tag : Nat → Option Path}, Low s tag → identity4kEnd ≤ brk →
    brkLoop im addr n brk s = some (ok, brk', s') → Lands s s' := by
  induction n with
  | zero =>
    intro brk s tag _ _ hrun
    cases hrun
  | succ n ih =>
    intro brk s tag h hbrk hrun
    rw [brkLoop] at hrun
    split at hrun
    swap
    · obtain ⟨-, -, rfl⟩ : true = ok ∧ brk = brk' ∧ s = s' := by simpa using hrun
      exact .refl s
    next hlt =>
    rcases ha : pagingAllocPage s with ⟨_ | a, s₁⟩
    · rw [ha] at hrun
      obtain ⟨-, -, rfl⟩ : false = ok ∧ brk = brk' ∧ s₁ = s' := by simpa using hrun
      rw [pagingAllocPage_none h.forest.null ha]
      exact .refl s
    rcases hc : pagingClearPhys im s₁ a with ⟨okc, s₂⟩
    obtain ⟨hclear, hmap⟩ := @Low.grant im s s₁ s₂ tag brk a (pagePresent ||| pageWritable) okc h hbrk
      (by omega) ha hc
    simp only [ha, hc] at hrun
    cases okc with
    | false =>
      obtain ⟨-, -, rfl⟩ : false = ok ∧ brk = brk' ∧ pagingFreePage s₂ a = s' := by simpa using hrun
      exact hclear.direct (freePage_direct ..)
    | true =>
      rcases hm : pagingMapUserPage im s₂ brk a (pagePresent ||| pageWritable) with ⟨okm, s₃⟩
      obtain ⟨hlands, hlow⟩ := hmap okm s₃ hm
      simp only [hm] at hrun
      cases okm with
      | false =>
        obtain ⟨-, -, rfl⟩ : false = ok ∧ brk = brk' ∧ pagingFreePage s₃ a = s' := by simpa using hrun
        exact hlands.direct (freePage_direct ..)
      | true =>
        obtain ⟨tag₃, h₃⟩ := hlow rfl
        have hstep : brkStep brk = brk + pageSize :=
          (brkStep_eq brk).trans (u64_of_lt (by simp only [pageSize]; omega))
        exact hlands.trans (ih h₃ (by rw [hstep]; omega) hrun)

theorem sysBrk_lands (h : Low s tag) (hbrk : identity4kEnd ≤ brk) (haddr : addr ≤ 2 ^ 48)
    (hcall : sysBrk im s brk addr = some (r, brk', s')) : Lands s s' := by
  rw [sysBrk] at hcall
  split at hcall
  · obtain ⟨-, -, rfl⟩ : brk = r ∧ brk = brk' ∧ s = s' := by simpa using hcall
    exact .refl s
  split at hcall
  · obtain ⟨-, -, rfl⟩ : brk = r ∧ brk = brk' ∧ s = s' := by simpa using hcall
    exact .refl s
  rcases hrun : brkLoop im addr (maxFrames + 1) brk s with _ | ⟨ok, b, s₁⟩
  · rw [hrun] at hcall
    cases hcall
  · have hlands := brkLoop_lands haddr _ h hbrk hrun
    rw [hrun] at hcall
    cases ok with
    | false =>
      obtain ⟨-, -, rfl⟩ : brk = r ∧ b = brk' ∧ s₁ = s' := by simpa using hcall
      exact hlands
    | true =>
      simp only [Option.some.injEq, Prod.mk.injEq] at hcall
      rw [← hcall.2.2]
      exact hlands

/-! ### A request for more than there is -/

/-- No machine grants a terabyte. -/
theorem sysBrk_huge_fails (h : Forest s tag) : ∃ r brk' s',
    sysBrk im s userBrkStart 0x10000000000 = some (r, brk', s') ∧ r ≠ 0x10000000000 := by
  obtain ⟨⟨r, brk', s'⟩, hcall⟩ :=
    Option.isSome_iff_exists.mp (sysBrk_returns im h userBrkStart 0x10000000000)
  obtain ⟨m, tag', hrun⟩ := sysBrk_spec h hcall
  have hm : m ≤ maxFrames := hrun.frames.trans (card_freeFrames s)
  have hend : userBrkStart + m * pageSize < 0x10000000000 :=
    lt_of_le_of_lt (Nat.add_le_add_left (Nat.mul_le_mul_right pageSize hm) userBrkStart) (by decide)
  refine ⟨r, brk', s', hcall, ?_⟩
  rcases hrun.result with ⟨rfl, -⟩ | ⟨-, hpast, -⟩
  · decide
  · rw [brkAfter_eq m (by omega)] at hpast
    omega

/-- With two frames for tables left there is one for the first page and one for a table. -/
theorem Early.not_brkBacksOut {mem : Memory} {mb : MultibootInfo} {n : Nat}
    {pt : Fin 512 → Option Nat} (he : Early im mem mb n pt s) (hmany : n + 1 < spareTables im mb)
    (haddr : userBrkStart ≤ addr) (hal : brk % pageSize = 0) : ¬ BrkBacksOut im s brk addr := by
  rcases he.allocPage with ⟨k, ha, -, -, he'⟩ | ⟨-, hgone⟩
  · have htable : ¬ NoTable im s := by
      rw [NoTable, ha]
      rcases he'.allocTable with ⟨f, s', hsome, -⟩ | ⟨-, hfew⟩
      · rw [hsome]
        exact Option.some_ne_none f
      · omega
    simp only [userBrkStart] at haddr
    rintro (h0 | hlow | hnone | ⟨-, hc⟩ | ⟨-, hc | ⟨-, hc⟩⟩)
    · omega
    · simp only [userBrkStart] at hlow
      omega
    · rw [ha] at hnone
      cases hnone
    · exact htable hc
    · exact hc hal
    · exact htable hc
  · have hn : n < spareTables im mb := by omega
    obtain ⟨f, -, hfree, hrank⟩ := FirstFit.exists_rank hn
    have := hgone f (spare_eq_true.mp hfree)
    rw [spareRank, hrank] at this
    exact absurd this (lt_irrefl n)

/-- So a request that cannot be met leaves the pages it got on the way. The machine has 64 MiB, so it
    boots and the call returns. -/
theorem brk_not_undone : VmReach smallImage lowVm [smallImage.pmlTable] ∧
    Lands (pagingInitFrames smallImage (fun _ _ => 0#64) lowMemory) lowVm ∧ ∃ r brk' s',
    sysBrk smallImage lowVm userBrkStart 0x10000000000 = some (r, brk', s') ∧ Lands lowVm s' ∧
    r ≠ 0x10000000000 ∧ ¬ Unchanged lowVm userBrkStart s' brk' := by
  obtain ⟨hboot, tag, hlow⟩ := lowVm_low
  obtain ⟨r, brk', s', hcall, hr⟩ := @sysBrk_huge_fails smallImage lowVm tag hlow.forest
  obtain ⟨pt, he, -⟩ := early_init smallImage (fun _ _ => 0#64) lowMemory
  have hmany := spareTables_low
  have hinit := initTables_low
  refine ⟨TableReach.init _ _, hboot, r, brk', s', hcall, sysBrk_lands hlow (by decide) (by decide) hcall, hr,
    fun hu => ?_⟩
  exact Early.not_brkBacksOut he (by omega) (by decide) (by decide)
    ((sysBrk_unchanged_iff hlow.forest hcall hr).mp hu)

/-- In every reachable state, a request for memory that returns and fails leaves everything as it was if
    and only if it finds no frame, or fails at its first page before it takes a table and leaves no page
    in the window. -/
theorem failed_request_unchanged_iff (h : VmReach im s roots) :
    (∀ brk addr r brk' s', sysBrk im s brk addr = some (r, brk', s') → Lands s s' → r ≠ addr →
      (Unchanged s brk s' brk' ↔ BrkBacksOut im s brk addr)) ∧
    (∀ brk addr len prot flags e s', sysMmap im s addr len prot flags = (.error e, s') → Lands s s' →
      (Unchanged s brk s' brk ↔
        len = 0 ∨ flags.testBit 5 = false ∨ RangeBacksOut im s (mmapAddr addr))) ∧
    ∀ brk virt size fl s', pagingMapUserRange im s virt size fl = (false, s') → Lands s s' →
      (Unchanged s brk s' brk ↔ RangeBacksOut im s virt) := by
  obtain ⟨tag, hf, -⟩ := h.sound
  exact ⟨fun _ _ _ _ _ hcall _ hr => sysBrk_unchanged_iff hf hcall hr,
    fun _ _ _ _ _ _ _ hcall _ => sysMmap_unchanged_iff hf hcall,
    fun _ _ _ _ _ hcall _ => mapUserRange_unchanged_iff hf hcall⟩

theorem huge_request_unchanged_iff : ∃ r brk' s',
    sysBrk smallImage lowVm userBrkStart 0x10000000000 = some (r, brk', s') ∧
    r ≠ 0x10000000000 ∧ (Unchanged lowVm userBrkStart s' brk' ↔
      BrkBacksOut smallImage lowVm userBrkStart 0x10000000000) := by
  obtain ⟨-, tag, hlow⟩ := lowVm_low
  obtain ⟨r, brk', s', hcall, hr⟩ := @sysBrk_huge_fails smallImage lowVm tag hlow.forest
  have hlands := sysBrk_lands hlow (by decide) (by decide) hcall
  exact ⟨r, brk', s', hcall, hr,
    (failed_request_unchanged_iff (TableReach.init _ _)).1 _ _ _ _ _ hcall hlands hr⟩

end TypeOS.Sys
