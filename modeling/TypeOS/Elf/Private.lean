import TypeOS.Elf.Clean
import TypeOS.Paging.Duplicate

/-! Which frames the user's pages have.

    A page gets a frame that was free, or it is a page of a fixed image and has the frame at its own
    address. A clone gives the user's pages frames that were free, and shares the tables that are closed to
    him. So in every reachable state the frame of a user's page is no table of any address space and none
    that the kernel took for itself; and but for the fixed images, no two page-table entries have the same
    frame. -/

namespace TypeOS.Elf

open Paging Sys Radix
open Fs (Text Vfs Ptr)

/-- The entry of a page that is the user's, whatever the entries above it say. The window's pages are left
    out. -/
structure UserEntry (s : Vm) (r v : Nat) (e : Word) : Prop where
  outside : ¬ Window (pathOf v)
  maps : ∃ b, walk s.mem r v = some (e, b)
  user : has e pageUser = true

/-- Two address spaces translate two pages by one and the same entry of a page table. -/
def SameEntry (s : Vm) (r v r' v' : Nat) : Prop :=
  pathOf v = pathOf v' ∧ ∃ pt, ptOf s.mem r v = some pt ∧ ptOf s.mem r' v' = some pt

/-- A frame that the bitmap has, and that of a page at its own address if it belongs to the fixed images. -/
def InPlace (v f : Nat) : Prop := f < maxFrames ∧ (ImageFrame f → pathOf v = pathOf (f * pageSize))

/-- Of each address space the user's pages have frames in use that are no tables; but for the fixed images,
    one entry of one page table has the frame. The frames the kernel took are others. -/
structure UserSound (im : Image) (s : Vm) (roots : List Nat) (kernel : Set Nat) (tag : Nat → Option Path) :
    Prop extends LoadSound im s roots tag where
  frames : ∀ r ∈ roots, ∀ v e, UserEntry s r v e → PageFrame s tag (entryFrame e)
  once : ∀ r ∈ roots, ∀ v e, UserEntry s r v e → ∀ r' ∈ roots, ∀ v' e', UserEntry s r' v' e' →
    entryFrame e = entryFrame e' → ¬ ImageFrame (entryFrame e) → SameEntry s r v r' v'
  held : ∀ f ∈ kernel, PageFrame s tag f ∧ ¬ ImageFrame f
  apart : ∀ r ∈ roots, ∀ v e, UserEntry s r v e → entryFrame e ∉ kernel
  places : ∀ r ∈ roots, ∀ v e, UserEntry s r v e → InPlace v (entryFrame e)

/-- Where the entry of a user's page comes from when at most the page `π` is mapped: it was there, it is
    that of a page of a fixed image, or it has a frame that was free, and the current root has it. -/
def Comes (s s' : Vm) (tag' : Nat → Option Path) (π : Path) (r v : Nat) (e : Word) : Prop :=
  UserEntry s r v e ∨ PageFrame s' tag' (entryFrame e) ∧
    (ImageFrame (entryFrame e) ∧ pathOf v = pathOf (entryFrame e * pageSize) ∨
      bitmapTest s (entryFrame e) = false ∧ pathOf v = π ∧ Shares s' r v)

variable {im : Image} {s s' s₁ s₂ s₃ : Vm} {tag tag' tag₂ : Nat → Option Path} {roots : List Nat} {kernel : Set Nat}
  {r r' v v' u f a n brk brk' addr : Nat} {e e' fl : Word} {b ok : Bool} {π : Path} {F : Nat → Prop}
  {W E : Path → Prop}

/-! ### Entries -/

theorem UserEntry.table (h : Forest s tag) (hr : tag r = some []) (he : UserEntry s r v e) :
    ∃ pt, ptOf s.mem r v = some pt := by
  obtain ⟨b, hw⟩ := he.maps
  exact (h.user_table (q := tablePath v) hr rfl hw).2 he.user

/-- What a user reaches is his. -/
theorem userEntry_of_walk (h : Forest s tag) (hr : tag r = some []) (hv : ¬ Window (pathOf v))
    (hw : walk s.mem r v = some (e, true)) : UserEntry s r v e :=
  ⟨hv, ⟨true, hw⟩, (h.user_table (q := tablePath v) hr rfl hw).1 rfl⟩

theorem UserEntry.congr (he : UserEntry s' r' v e) (hw : walk s'.mem r' v = walk s.mem r v) :
    UserEntry s r v e := by
  obtain ⟨b, hb⟩ := he.maps
  exact ⟨he.outside, ⟨b, hw ▸ hb⟩, he.user⟩

theorem ptOf_path {m : Paging.Memory} (h : pathOf v = pathOf v') : ptOf m r v = ptOf m r v' := by
  simp only [pathOf, List.cons.injEq, and_true] at h
  simp only [ptOf, tablePath, h]

/-- Where the current root and another share the page table, the entry is the current root's. -/
theorem UserEntry.shared (he : UserEntry s r v e) (hsh : Shares s r v) : UserEntry s s.pml4 v e := by
  obtain ⟨pt, hpt, hpt'⟩ := hsh
  obtain ⟨b, hw⟩ := he.maps
  rw [walk_ptOf hpt'] at hw
  split at hw
  · next hpr =>
    obtain ⟨rfl, -⟩ := Prod.mk.inj (Option.some.inj hw)
    exact ⟨he.outside, ⟨_, (walk_ptOf hpt).trans (if_pos hpr)⟩, he.user⟩
  · cases hw

/-! ### One step -/

/-- A frame that was free is none of the fixed images. -/
theorem LoadSound.inPlace (h : LoadSound im s roots tag) (hfree : bitmapTest s f = false) : InPlace v f := by
  refine ⟨bitmapTest_lt hfree, fun himg => ?_⟩
  rw [(h.image f himg).2] at hfree
  cases hfree

namespace UserSound

theorem edited (h : UserSound im s roots kernel tag) (g : Edited F W s tag s' tag')
    (hcomes : ∀ r ∈ roots, ∀ v e, UserEntry s' r v e → Comes s s' tag' π r v e) :
    UserSound im s' roots kernel tag' where
  toLoadSound := h.toLoadSound.edited g
  frames := fun r hr v e he => by
    rcases hcomes r hr v e he with hold | ⟨hnew, -⟩
    · exact (h.frames r hr v e hold).edited g
    · exact hnew
  once := fun r hr v e he r' hr' v' e' he' hf himg => by
    rcases hcomes r hr v e he with hold | ⟨-, ⟨hi, -⟩ | ⟨hfree, hπ, pt, hpt, hpt'⟩⟩
    · rcases hcomes r' hr' v' e' he' with hold' | ⟨-, ⟨hi', -⟩ | ⟨hfree', -⟩⟩
      · obtain ⟨hpath, pt, hpt, hpt'⟩ := h.once r hr v e hold r' hr' v' e' hold' hf himg
        exact ⟨hpath, pt, g.paths r _ pt (h.spaces r hr) (by simp [tablePath]) hpt,
          g.paths r' _ pt (h.spaces r' hr') (by simp [tablePath]) hpt'⟩
      · exact absurd (hf ▸ hi') himg
      · rw [← hf, (h.frames r hr v e hold).used] at hfree'
        cases hfree'
    · exact absurd hi himg
    · rcases hcomes r' hr' v' e' he' with hold' | ⟨-, ⟨hi', -⟩ | ⟨-, hπ', pt₂, hpt₂, hpt₂'⟩⟩
      · rw [hf, (h.frames r' hr' v' e' hold').used] at hfree
        cases hfree
      · exact absurd (hf ▸ hi') himg
      · have hpath : pathOf v = pathOf v' := hπ.trans hπ'.symm
        rw [ptOf_path hpath, hpt₂, Option.some.injEq] at hpt
        exact ⟨hpath, pt, hpt', hpt ▸ hpt₂'⟩
  held := fun f hf => ⟨(h.held f hf).1.edited g, (h.held f hf).2⟩
  apart := fun r hr v e he hk => by
    rcases hcomes r hr v e he with hold | ⟨-, ⟨hi, -⟩ | ⟨hfree, -⟩⟩
    · exact h.apart r hr v e hold hk
    · exact (h.held _ hk).2 hi
    · rw [(h.held _ hk).1.used] at hfree
      cases hfree
  places := fun r hr v e he => by
    rcases hcomes r hr v e he with hold | ⟨-, ⟨hi, hpath⟩ | ⟨hfree, -⟩⟩
    · exact h.places r hr v e hold
    · exact ⟨hi.lt_maxFrames, fun _ => hpath⟩
    · exact h.toLoadSound.inPlace hfree

/-- What does not change the user's entries. -/
theorem same (h : UserSound im s roots kernel tag) (g : Edited F W s tag s' tag')
    (hold : ∀ r ∈ roots, ∀ v e, UserEntry s' r v e → UserEntry s r v e) :
    UserSound im s' roots kernel tag' :=
  h.edited (π := []) g fun r hr v e he => Or.inl (hold r hr v e he)

/-- An operation on the tables: only what it maps under the current root is looked at. -/
theorem changed (h : UserSound im s roots kernel tag) (g : Changed E W s tag s' tag')
    (hnew : ∀ v e, W (pathOf v) → UserEntry s' s'.pml4 v e → PageFrame s' tag' (entryFrame e) ∧
      (ImageFrame (entryFrame e) ∧ pathOf v = pathOf (entryFrame e * pageSize) ∨
        bitmapTest s (entryFrame e) = false ∧ pathOf v = π)) : UserSound im s' roots kernel tag' := by
  refine h.edited (π := π) (Edited.of_changed (F := fun _ => False) h.forest g) fun r hr v e he => ?_
  by_cases hc : W (pathOf v) ∧ Shares s' r v
  · obtain ⟨hpage, hfrom⟩ := hnew v e hc.1 (he.shared hc.2)
    exact Or.inr ⟨hpage, hfrom.imp_right fun hfree => ⟨hfree.1, hfree.2, hc.2⟩⟩
  · exact Or.inl (he.congr (g.walks r v (h.spaces r hr) hc))

/-- One that maps nothing for the user. -/
theorem closed (h : UserSound im s roots kernel tag) (g : Changed E W s tag s' tag')
    (hno : ∀ v e, W (pathOf v) → ¬ UserEntry s' s'.pml4 v e) : UserSound im s' roots kernel tag' :=
  h.changed (π := []) g fun v e hW he => absurd he (hno v e hW)

/-- One on the window. -/
theorem window (h : UserSound im s roots kernel tag) (g : Changed E W s tag s' tag')
    (hW : ∀ π, W π → Window π) : UserSound im s' roots kernel tag' :=
  h.closed g fun _ _ hv he => he.outside (hW _ hv)

/-- A frame that is no table is overwritten. -/
theorem fill (h : UserSound im s roots kernel tag) (hf : tag f = none) (w : Fin 512 → Word) :
    UserSound im (writeFrame s f w) roots kernel tag := by
  refine h.same (Edited.fill (W := fun _ => False) h.forest hf w) fun r hr v e he => he.congr ?_
  refine h.forest.walk_congr (fun t p ht => Function.update_of_ne ?_ ..) (h.spaces r hr)
  rintro rfl
  rw [hf] at ht
  cases ht

/-- `paging_map_page` for the kernel. -/
theorem map (h : UserSound im s roots kernel tag) (hpr : has fl pagePresent = true)
    (hu : has fl pageUser = false) (hm : pagingMapPage im s v a fl = (ok, s')) :
    ∃ tag', UserSound im s' roots kernel tag' := by
  cases ok with
  | false =>
    rcases pagingMapPageFlags_spec h.forest tableFlags_kernel hm with ⟨-, tag', g⟩ | ⟨hc, -⟩
    · exact ⟨tag', h.closed g.toChanged fun _ _ hc => hc.elim⟩
    · cases hc
  | true =>
    obtain ⟨tag', g⟩ := pagingMapPage_mapped h.forest hm
    refine ⟨tag', h.closed g.toChanged fun u e hv he => ?_⟩
    obtain ⟨b, hw⟩ := he.maps
    obtain ⟨b', hpage⟩ := pagingMapPageFlags_walk h.forest tableFlags_kernel hpr hm
    rw [walk_page hv, hpage] at hw
    obtain ⟨rfl, -⟩ := Prod.mk.inj (Option.some.inj hw)
    have hno := he.user
    rw [has_user, BitVec.getLsbD_or, BitVec.getLsbD_and, pteAddrMask_getLsbD (by decide), Bool.and_false,
      Bool.false_or, ← has_user, hu] at hno
    cases hno

/-- `paging_unmap_page`. -/
theorem unmap (h : UserSound im s roots kernel tag) (v : Nat) :
    UserSound im (pagingUnmapPage s v) roots kernel tag := by
  have g := pagingUnmapPage_mapped h.forest v
  rcases pagingUnmapPage_cases h.forest v with ⟨-, hs⟩ | ⟨pt, -, hpt, -⟩
  · refine h.same (.of_mapped (F := fun _ => False) h.forest g) fun r hr u e he => he.congr ?_
    rw [hs.1]
  · refine h.closed g.toChanged fun u e hv he => ?_
    obtain ⟨b, hw⟩ := he.maps
    rw [g.pml4, walk, hv, ← walk, pagingUnmapPage_walk h.forest hpt] at hw
    cases hw

end UserSound

/-- `UserSound` carries over, and so do the frames that are no tables. -/
def Carries (im : Image) (roots : List Nat) (kernel : Set Nat) (s : Vm) (tag : Nat → Option Path) (s' : Vm) :
    Prop :=
  ∃ tag', UserSound im s' roots kernel tag' ∧ ∀ f, PageFrame s tag f → PageFrame s' tag' f

theorem UserSound.carries (h : UserSound im s roots kernel tag) : Carries im roots kernel s tag s :=
  ⟨tag, h, fun _ hf => hf⟩

theorem Carries.trans (h : Carries im roots kernel s tag s')
    (h' : ∀ tag', UserSound im s' roots kernel tag' → (∀ f, PageFrame s tag f → PageFrame s' tag' f) →
      Carries im roots kernel s' tag' s₁) : Carries im roots kernel s tag s₁ := by
  obtain ⟨tag', hs', hpage⟩ := h
  obtain ⟨tag'', hs₁, hpage'⟩ := h' tag' hs' hpage
  exact ⟨tag'', hs₁, fun f hf => hpage' f (hpage f hf)⟩

/-! ### Through the window -/

namespace UserSound

/-- A frame is mapped in the window, its words are replaced, and the window is unmapped. -/
theorem through (h : UserSound im s roots kernel tag) (hf : PageFrame s tag f)
    (hm : pagingMapPage im s kernelKmapWindow (f * pageSize) (pagePresent ||| pageWritable) = (ok, s₁)) :
    Carries im roots kernel s tag s₁ ∧ ∀ w,
      Carries im roots kernel s tag (pagingUnmapPage (writeFrame s₁ f w) kernelKmapWindow) := by
  obtain ⟨tag', g⟩ := pagingMapPage_mapped h.forest hm
  have h₁ := h.window g.toChanged fun π hπ => Or.inl hπ
  have hpage : ∀ x, PageFrame s tag x → PageFrame s₁ tag' x := fun x hx =>
    hx.edited (Edited.of_mapped (F := fun _ => False) h.forest g)
  refine ⟨⟨tag', h₁, hpage⟩, fun w => ?_⟩
  have h₂ := h₁.fill (hpage f hf).untagged w
  refine ⟨tag', h₂.unmap kernelKmapWindow, fun x hx => ?_⟩
  have hx₂ : PageFrame (writeFrame s₁ f w) tag' x := ⟨(hpage x hx).untagged, (hpage x hx).used⟩
  exact hx₂.edited (.of_mapped (F := fun _ => False) h₂.forest (pagingUnmapPage_mapped h₂.forest _))

theorem clearPhys (h : UserSound im s roots kernel tag) (hf : PageFrame s tag f) (hlt : f < 2 ^ 40)
    (hc : pagingClearPhys im s (f * pageSize) = (ok, s')) : Carries im roots kernel s tag s' := by
  rw [pagingClearPhys] at hc
  rcases hm : pagingMapPage im s kernelKmapWindow (f * pageSize) (pagePresent ||| pageWritable)
    with ⟨_ | _, s₁⟩
  · rw [hm] at hc
    obtain ⟨-, rfl⟩ := Prod.mk.inj hc
    exact (h.through hf hm).1
  · rw [hm] at hc
    simp only [clearThrough, mapped_frame h.forest hlt (by decide) hm] at hc
    obtain ⟨-, rfl⟩ := Prod.mk.inj hc
    exact (h.through hf hm).2 _

/-- `paging_write_phys` within one page. -/
theorem writePhys (h : UserSound im s roots kernel tag) (hf : PageFrame s tag f) (hlt : f < 2 ^ 40)
    {off : Nat} {bytes : List UInt8} (hfit : off + bytes.length ≤ pageSize) (hoff : off < pageSize)
    (hc : pagingWritePhys im s (f * pageSize + off) bytes = (ok, s')) :
    Carries im roots kernel s tag s' := by
  have hpage : pageOf (f * pageSize + off) = f * pageSize := by
    simp only [pageOf, pageSize] at *
    omega
  have hmod : (f * pageSize + off) % pageSize = off := by
    simp only [pageSize] at *
    omega
  rw [pagingWritePhys] at hc
  split at hc
  · obtain ⟨-, rfl⟩ := Prod.mk.inj hc
    exact h.carries
  have hmin : min (pageSize - off) bytes.length = bytes.length := by omega
  simp only [hpage, hmod, hmin, List.take_length, List.drop_length] at hc
  rcases hm : pagingMapPage im s kernelKmapWindow (f * pageSize) (pagePresent ||| pageWritable)
    with ⟨_ | _, s₁⟩
  · rw [hm] at hc
    obtain ⟨-, rfl⟩ := Prod.mk.inj hc
    exact (h.through hf hm).1
  · rw [hm] at hc
    simp only [storeThrough, mapped_frame h.forest hlt (by decide) hm] at hc
    rw [pagingWritePhys, if_pos rfl] at hc
    obtain ⟨-, rfl⟩ := Prod.mk.inj hc
    exact (h.through hf hm).2 _

end UserSound

/-! ### The pages of a fixed image -/

namespace UserSound

/-- An entry that points at a table is opened to the user. -/
theorem opened {t c : Nat} {p : Path} {i : Fin 512} (h : UserSound im s roots kernel tag)
    (ht : tag t = some p) (hp : p.length < 3) (hn : nextTable (s.mem t i) = some c) :
    UserSound im (openEntry s t i) roots kernel tag := by
  have g := openEntry_edited h.forest ht hp hn
  refine h.same g fun r hr v e he => ?_
  have hnext : ∀ u k, nextTable ((openEntry s t i).mem u k) = nextTable (s.mem u k) := by
    intro u k
    by_cases huk : (u, k) = (t, i)
    · obtain ⟨rfl, rfl⟩ := Prod.mk.inj huk
      rw [openEntry, writeEntry_self, nextTable_user]
    · rw [openEntry, writeEntry_other huk]
  obtain ⟨pt, hpt⟩ := he.table g.forest (h.spaces r hr)
  have hpt' : ptOf s.mem r v = some pt := (descend_congr_next hnext _ r).symm.trans hpt
  -- the page table is none of the tables above
  have hlast := h.forest.tagged.descend (h.spaces r hr) (by simp [tablePath]) hpt'
  have hsame : (openEntry s t i).mem pt = s.mem pt := by
    refine writeEntry_frame ?_
    rintro rfl
    rw [ht, Option.some.injEq] at hlast
    rw [hlast] at hp
    exact absurd hp (lt_irrefl 3)
  obtain ⟨b, hw⟩ := he.maps
  rw [walk_ptOf hpt, hsame] at hw
  split at hw
  · next hpr =>
    obtain ⟨rfl, -⟩ := Prod.mk.inj (Option.some.inj hw)
    exact ⟨he.outside, ⟨_, (walk_ptOf hpt').trans (if_pos hpr)⟩, he.user⟩
  · cases hw

/-- `paging_set_user_path`, where there is a page table. -/
theorem setUserPath {pt : Nat} (h : UserSound im s roots kernel tag) (hpt : pagingGetPt s v = some pt) :
    UserSound im (pagingSetUserPath s v) roots kernel tag := by
  obtain ⟨pdpt, pd, hn4, hn3, hn2, ht3, ht2, -⟩ := pagingGetPt_some h.forest hpt
  have hne : ∀ {t u : Nat} {p q : Path}, tag t = some p → tag u = some q → p.length ≠ q.length → t ≠ u := by
    rintro t _ p q ht hu hlen rfl
    rw [ht, Option.some.injEq] at hu
    exact hlen (congrArg List.length hu)
  have hroot := h.forest.root
  obtain ⟨p4, -, q4⟩ := nextTable_some ((nextTable_user _).trans hn4)
  obtain ⟨p3, -, q3⟩ := nextTable_some ((nextTable_user _).trans hn3)
  have m3 : (openEntry s s.pml4 (pml4Index v)).mem pdpt = s.mem pdpt :=
    writeEntry_frame (hne ht3 hroot (by simp))
  have m2 : (openEntry (openEntry s s.pml4 (pml4Index v)) pdpt (pdpIndex v)).mem pd = s.mem pd :=
    (writeEntry_frame (hne ht2 ht3 (by simp))).trans (writeEntry_frame (hne ht2 hroot (by simp)))
  have e4 : (openEntry s s.pml4 (pml4Index v)).mem s.pml4 (pml4Index v) =
      s.mem s.pml4 (pml4Index v) ||| pageUser := writeEntry_self
  have e3 : (openEntry (openEntry s s.pml4 (pml4Index v)) pdpt (pdpIndex v)).mem pdpt (pdpIndex v) =
      s.mem pdpt (pdpIndex v) ||| pageUser := by
    rw [openEntry, writeEntry_self, m3]
  have h₁ := h.opened hroot (by simp) hn4
  have h₂ := h₁.opened ht3 (by simp) ((congrArg nextTable (congrFun m3 _)).trans hn3)
  have h₃ := h₂.opened ht2 (by simp) ((congrArg nextTable (congrFun m2 _)).trans hn2)
  have hset : pagingSetUserPath s v =
      openEntry (openEntry (openEntry s s.pml4 (pml4Index v)) pdpt (pdpIndex v)) pd (pdIndex v) := by
    rw [pagingSetUserPath]
    dsimp only
    rw [show (openEntry s s.pml4 (pml4Index v)).pml4 = s.pml4 from rfl, e4, p4, q4, e3, p3, q3]
    rfl
  rw [hset]
  exact h₃

/-- `paging_promote_user_identity` opens a page of a fixed image, which is at its own address. -/
theorem promote (h : UserSound im s roots kernel tag) (hf : ImageFrame f)
    (hfl : fl &&& pteAddrMask = 0#64) (hpr : has fl pagePresent = true)
    (hc : pagingPromoteUserIdentity s (f * pageSize) fl = (ok, s')) :
    Carries im roots kernel s tag s' := by
  have hsame : s' = s → Carries im roots kernel s tag s' := by
    rintro rfl
    exact h.carries
  cases ok with
  | false =>
    rw [pagingPromoteUserIdentity] at hc
    dsimp only at hc
    split at hc
    · exact hsame (Prod.mk.inj hc).2.symm
    · rcases hpt : pagingGetPt s (f * pageSize) with _ | pt <;> rw [hpt] at hc
      · exact hsame (Prod.mk.inj hc).2.symm
      · cases hc
  | true =>
    have hwalk := @promote_page s s' tag f (f * pageSize) fl h.forest hf hfl hpr hc
      (by rw [pageOf, frame_div f])
    rw [pagingPromoteUserIdentity] at hc
    dsimp only at hc
    split at hc
    · cases hc
    rcases hpt : pagingGetPt s (f * pageSize) with _ | pt <;> rw [hpt] at hc
    · cases hc
    obtain ⟨-, rfl⟩ := Prod.mk.inj hc
    obtain ⟨-, -, -, -, -, -, -, ht⟩ := pagingGetPt_some h.forest hpt
    have h₁ := h.setUserPath hpt
    have hset := (pagingSetUserPath_spec h.forest hpt).1
    have g := h₁.forest.mapped_leaf
      (e := BitVec.ofNat 64 (pageOf (f * pageSize)) ||| fl ||| pageUser ||| pageWritable) ht
      (hset.ptOf h.forest (pagingGetPt_ptOf h.forest hpt))
    have hpage : ∀ x, PageFrame s tag x → PageFrame (writeEntry (pagingSetUserPath s (f * pageSize)) pt
        (ptIndex (f * pageSize))
        (BitVec.ofNat 64 (pageOf (f * pageSize)) ||| fl ||| pageUser ||| pageWritable)) tag x := fun x hx =>
      (hx.edited hset).edited (Edited.of_mapped (F := fun _ => False) h₁.forest g)
    refine ⟨tag, h₁.changed (π := []) g.toChanged fun u e hu he => ?_, hpage⟩
    obtain ⟨b, hw⟩ := he.maps
    rw [pageAt, ← walk_page hu, hw, Option.map_some, Option.some.injEq] at hwalk
    rw [show entryFrame e = f from hwalk]
    exact ⟨hpage f ⟨(h.image f hf).1, (h.image f hf).2⟩, Or.inl ⟨hf, hu⟩⟩

/-- `paging_split_huge_range`. -/
theorem split (h : UserSound im s roots kernel tag) (virtStart virtEnd : Nat) :
    Carries im roots kernel s tag (pagingSplitHugeRange im s virtStart virtEnd) := by
  have hloop : ∀ (n i : Nat) {s : Vm} {tag : Nat → Option Path}, UserSound im s roots kernel tag →
      Carries im roots kernel s tag (splitHugeLoop im n i s) := by
    intro n
    induction n with
    | zero => exact fun _ {s tag} h => h.carries
    | succ n ih =>
      intro i s tag h
      rw [splitHugeLoop]
      split
      · rcases hs : splitHugePage im s im.pdTable (Fin.ofNat 512 i) with ⟨ok, s₁⟩
        obtain ⟨tag₁, g⟩ := splitHugePage_grafted h.forest h.boot rfl hs
        have hed : Edited (fun _ => False) (fun _ => False) s tag s₁ tag₁ := .of_grafted h.forest g
        have h₁ : UserSound im s₁ roots kernel tag₁ :=
          h.same hed fun r hr v e he => he.congr (g.walks r v (h.spaces r hr))
        have hfirst : Carries im roots kernel s tag s₁ := ⟨tag₁, h₁, fun _ hx => hx.edited hed⟩
        cases ok with
        | false => exact hfirst
        | true => exact hfirst.trans fun _ h _ => ih (i + 1) h
      · exact ih (i + 1) h
  rw [pagingSplitHugeRange]
  split
  · exact h.carries
  · exact hloop _ _ h

/-- One page of a segment. -/
theorem segmentPage {fs : Vfs} {file : Option Ptr} {kbuf : Nat → Bytes.Memory} {ph : ProgramHeader}
    (h : UserSound im s roots kernel tag) (hf : ImageFrame f) (hlo : ph.segStart ≤ f * pageSize)
    (hc : Elf.segmentPage im fs file kbuf ph (f * pageSize) s = (ok, s')) :
    Carries im roots kernel s tag s' := by
  rw [Elf.segmentPage] at hc
  rcases hclear : pagingClearPhys im s (f * pageSize) with ⟨okc, s₁⟩
  refine (h.clearPhys ⟨(h.image f hf).1, (h.image f hf).2⟩ hf.lt hclear).trans fun tag₁ h₁ _ => ?_
  rw [hclear] at hc
  dsimp only at hc
  obtain ⟨hstart, hin, hend⟩ := copy_bounds hlo (Nat.mul_mod_left f pageSize)
  rcases hfill : fillPage im fs file kbuf ph (f * pageSize) s₁ with ⟨okf, s₂⟩
  have hfilled : Carries im roots kernel s₁ tag₁ s₂ := by
    rw [fillPage] at hfill
    split at hfill
    · dsimp only at hfill
      split at hfill
      · exact (Prod.mk.inj hfill).2 ▸ h₁.carries
      split at hfill
      · exact (Prod.mk.inj hfill).2 ▸ h₁.carries
      · obtain ⟨off, hoff⟩ := Nat.exists_eq_add_of_le hstart
        rw [hoff] at hfill hin
        refine h₁.writePhys ⟨(h₁.image f hf).1, (h₁.image f hf).2⟩ hf.lt ?_ (by omega) hfill
        rw [Bytes.load, List.length_map, List.length_range]
        omega
    · exact (Prod.mk.inj hfill).2 ▸ h₁.carries
  rw [hfill] at hc
  cases okf with
  | false =>
    obtain ⟨-, rfl⟩ := Prod.mk.inj hc
    exact hfilled
  | true =>
    obtain ⟨hfl, hpr⟩ := elfSegmentFlags_bits ph.pFlags
    exact hfilled.trans fun tag₂ h₂ _ => h₂.promote hf hfl hpr hc

/-- `elf_map_segment`. -/
theorem segment (h : UserSound im s roots kernel tag) (fs : Vfs) (file : Option Ptr)
    (kbuf : Nat → Bytes.Memory) (ph : ProgramHeader) :
    Carries im roots kernel s tag (elfMapSegment im fs file kbuf ph s).2 := by
  have hloop : ∀ (n f : Nat) {s : Vm} {tag : Nat → Option Path}, UserSound im s roots kernel tag →
      ph.segStart ≤ f * pageSize → userImagePhysStart ≤ f * pageSize →
      f * pageSize + n * pageSize ≤ userImagePhysEnd →
      Carries im roots kernel s tag (segmentLoop im fs file kbuf ph n (f * pageSize) s).2 := by
    intro n
    induction n with
    | zero => exact fun _ {s tag} h _ _ _ => h.carries
    | succ n ih =>
      intro f s tag h hlo himg hend
      have hnext : f * pageSize + pageSize = (f + 1) * pageSize := (Nat.succ_mul f pageSize).symm
      have hf : ImageFrame f := ⟨himg, by simp only [pageSize] at *; omega⟩
      rw [segmentLoop_succ]
      rcases hpage : Elf.segmentPage im fs file kbuf ph (f * pageSize) s with ⟨_ | _, s₁⟩
      · exact h.segmentPage hf hlo hpage
      · refine (h.segmentPage hf hlo hpage).trans fun _ h₁ _ => ?_
        have hle : f * pageSize ≤ (f + 1) * pageSize := Nat.mul_le_mul_right _ (Nat.le_succ f)
        dsimp only
        rw [hnext]
        refine ih (f + 1) h₁ (hlo.trans hle) (himg.trans hle) ?_
        rw [← hnext]
        linarith
  rw [elfMapSegment]
  split
  · exact h.carries
  next hin =>
  rw [not_or, not_lt, not_lt] at hin
  refine (h.split ph.segStart ph.segEnd).trans fun _ h₁ _ => ?_
  have hstart : ph.segStart = ph.pVaddr / pageSize * pageSize := rfl
  rcases Nat.lt_or_ge ph.segStart ph.segEnd with hlt | hge
  · have hend : ph.segStart + (ph.segEnd - ph.segStart) / pageSize * pageSize ≤ ph.segEnd := by
      have := Nat.div_mul_le_self (ph.segEnd - ph.segStart) pageSize
      omega
    have hpages := hloop ((ph.segEnd - ph.segStart) / pageSize) (ph.pVaddr / pageSize) h₁ hstart.le
      (hin.1.trans_eq hstart) (by rw [← hstart]; exact hend.trans hin.2)
    rwa [← hstart] at hpages
  · rw [Nat.sub_eq_zero_of_le hge, Nat.zero_div, segmentLoop]
    exact h₁.carries

end UserSound

/-! ### Pages that are granted -/

/-- A page that is granted has a frame that was free and is the user's. -/
theorem grant_entry (h : Forest s tag) (ha : pagingAllocPage s = (some a, s₁))
    (hpr : has (fl ||| pageUser) pagePresent = true) (haddr : (fl ||| pageUser) &&& pteAddrMask = 0#64)
    (hm : pagingMapUserPage im (pagingClearPhys im s₁ a).2 v a fl = (true, s')) : ∃ tag' e b,
    Mapped (fun _ => True) (Grant (· = pathOf v)) s tag s' tag' ∧ walk s'.mem s'.pml4 v = some (e, b) ∧
      has e pageUser = true ∧ bitmapTest s (entryFrame e) = false ∧ PageFrame s' tag' (entryFrame e) := by
  obtain ⟨f, rfl, hlt, hfree, hf, rfl, hb⟩ := allocPage_fresh h ha
  have htake : Mapped (fun _ => True) (Grant (· = pathOf v)) s tag (bitmapSet s f) tag :=
    Mapped.take h f
  rcases hc : pagingClearPhys im (bitmapSet s f) (f * pageSize) with ⟨okc, s₂⟩
  rw [hc] at hm
  obtain ⟨tag₂, h₂, hf₂, hb₂, -⟩ :=
    pagingClearPhys_mapped (Or.inl rfl) h htake hfree hf hb hlt hc
  obtain ⟨tag₃, g⟩ := pagingMapUserPage_mapped h₂.forest hm
  obtain ⟨b, hpage⟩ := pagingMapPageFlags_walk h₂.forest tableFlags_user hpr hm
  refine ⟨tag₃, _, _, h₂.trans h (g.mono (fun π _ => ⟨π, trivial, List.prefix_rfl⟩) fun _ hπ => Or.inr hπ),
    hpage, ?_, ?_⟩
  · rw [has_user, BitVec.getLsbD_or, BitVec.getLsbD_or, show pageUser.getLsbD 2 = true from by decide,
      Bool.or_true, Bool.or_true]
  · rw [(pageEntry_spec hlt haddr hpr).2]
    exact ⟨hfree, g.untagged hf₂ hb₂, g.bits f hb₂⟩

namespace UserSound

/-- Nothing was granted. -/
theorem granted_none (h : UserSound im s roots kernel tag)
    (g : ∃ tag', Granted (fun _ => False) s tag s' tag') : Carries im roots kernel s tag s' := by
  obtain ⟨tag', g⟩ := g
  refine ⟨tag', h.window g.toChanged ?_, fun f hf =>
    hf.edited (Edited.of_mapped (F := fun _ => False) h.forest g.toMapped)⟩
  rintro π (rfl | hc)
  · exact Or.inl rfl
  · exact hc.elim

/-- A frame is taken, cleared as far as the window can be used, and mapped for the user. -/
theorem grant (h : UserSound im s roots kernel tag) (ha : pagingAllocPage s = (some a, s₁))
    (hpr : has (fl ||| pageUser) pagePresent = true) (haddr : (fl ||| pageUser) &&& pteAddrMask = 0#64)
    (hm : pagingMapUserPage im (pagingClearPhys im s₁ a).2 v a fl = (true, s')) :
    Carries im roots kernel s tag s' := by
  obtain ⟨tag', e, b, hall, hpage, -, hfree, hframe⟩ := grant_entry h.forest ha hpr haddr hm
  refine ⟨tag', h.changed (π := pathOf v) hall.toChanged fun u e' hu he => ?_, fun x hx =>
    hx.edited (Edited.of_mapped (F := fun _ => False) h.forest hall)⟩
  rcases hu with hu | hu
  · exact absurd (Or.inl hu) he.outside
  obtain ⟨b', hw⟩ := he.maps
  rw [walk_page hu, hpage] at hw
  obtain ⟨rfl, -⟩ := Prod.mk.inj (Option.some.inj hw)
  exact ⟨hframe, Or.inr ⟨hfree, hu⟩⟩

theorem brkLoop (n : Nat) : ∀ {brk : Nat} {s : Vm} {tag : Nat → Option Path},
    UserSound im s roots kernel tag → Sys.brkLoop im addr n brk s = some (ok, brk', s') →
    Carries im roots kernel s tag s' := by
  induction n with
  | zero =>
    intro brk s tag _ hrun
    cases hrun
  | succ n ih =>
    intro brk s tag h hrun
    rw [Sys.brkLoop] at hrun
    split at hrun
    · rcases ha : pagingAllocPage s with ⟨_ | a, s₁⟩
      · obtain ⟨-, -, rfl⟩ : false = ok ∧ brk = brk' ∧ s₁ = s' := by simpa [ha] using hrun
        rw [pagingAllocPage_none h.forest.null ha]
        exact h.carries
      obtain ⟨hback, hmap⟩ := @grant_spec im s s₁ tag brk a (pagePresent ||| pageWritable) h.forest ha
      rcases hc : pagingClearPhys im s₁ a with ⟨_ | _, s₂⟩ <;> rw [hc] at hback hmap
      · obtain ⟨-, -, rfl⟩ : false = ok ∧ brk = brk' ∧ pagingFreePage s₂ a = s' := by
          simpa [ha, hc] using hrun
        exact h.granted_none hback
      rcases hm : pagingMapUserPage im s₂ brk a (pagePresent ||| pageWritable) with ⟨_ | _, s₃⟩
      · obtain ⟨-, -, rfl⟩ : false = ok ∧ brk = brk' ∧ pagingFreePage s₃ a = s' := by
          simpa [ha, hc, hm] using hrun
        exact h.granted_none ((hmap false s₃ hm).1 rfl)
      · simp only [ha, hc, hm] at hrun
        have hgrant := h.grant (v := brk) ha (by decide : has (pagePresent ||| pageWritable ||| pageUser)
          pagePresent = true) (by decide) (by rw [hc]; exact hm)
        exact hgrant.trans fun _ h₃ _ => ih h₃ hrun
    · obtain ⟨-, -, rfl⟩ : true = ok ∧ brk = brk' ∧ s = s' := by simpa using hrun
      exact h.carries

theorem mapUserLoop (hpr : has (fl ||| pageUser) pagePresent = true)
    (haddr : (fl ||| pageUser) &&& pteAddrMask = 0#64) (n : Nat) : ∀ {v : Nat} {s : Vm}
    {tag : Nat → Option Path}, UserSound im s roots kernel tag →
    Carries im roots kernel s tag (Paging.mapUserLoop im fl n v s).2 := by
  induction n with
  | zero => exact fun h => h.carries
  | succ n ih =>
    intro v s tag h
    rw [Paging.mapUserLoop]
    rcases ha : pagingAllocPage s with ⟨_ | a, s₁⟩
    · dsimp only
      rw [pagingAllocPage_none h.forest.null ha]
      exact h.carries
    obtain ⟨-, hmap⟩ := @grant_spec im s s₁ tag v a fl h.forest ha
    rcases hm : pagingMapUserPage im (pagingZeroFrame im s₁ a) v a fl with ⟨_ | _, s₃⟩
    · dsimp only
      rw [hm]
      rw [pagingZeroFrame_eq] at hm
      exact h.granted_none ((hmap false s₃ hm).1 rfl)
    · dsimp only
      rw [hm]
      rw [pagingZeroFrame_eq] at hm
      exact (h.grant ha hpr haddr hm).trans fun _ h₃ _ => ih h₃

theorem sysBrk (h : UserSound im s roots kernel tag) {m : Nat}
    (hcall : Sys.sysBrk im s brk addr = some (m, brk', s')) : Carries im roots kernel s tag s' := by
  rw [Sys.sysBrk] at hcall
  split at hcall
  · obtain ⟨-, -, rfl⟩ : brk = m ∧ brk = brk' ∧ s = s' := by simpa using hcall
    exact h.carries
  split at hcall
  · obtain ⟨-, -, rfl⟩ : brk = m ∧ brk = brk' ∧ s = s' := by simpa using hcall
    exact h.carries
  rcases hrun : Sys.brkLoop im addr (maxFrames + 1) brk s with _ | ⟨ok, b, s₁⟩
  · rw [hrun] at hcall
    cases hcall
  have hcarry := h.brkLoop _ hrun
  cases ok <;> rw [hrun] at hcall <;> simp only [Option.some.injEq, Prod.mk.injEq] at hcall
  · exact hcall.2.2 ▸ hcarry
  · exact hcall.2.2 ▸ hcarry

theorem sysMmap (h : UserSound im s roots kernel tag) (addr len prot flags : Nat) :
    Carries im roots kernel s tag (Sys.sysMmap im s addr len prot flags).2 := by
  rw [Sys.sysMmap]
  split
  · exact h.carries
  · have hfl : has (mmapFlags prot ||| pageUser) pagePresent = true ∧
        (mmapFlags prot ||| pageUser) &&& pteAddrMask = 0#64 := by
      rw [mmapFlags]
      split <;> exact ⟨by decide, by decide⟩
    have hloop := h.mapUserLoop hfl.1 hfl.2 (userRangePages (mmapAddr addr) len) (v := pageOf (mmapAddr addr))
    rw [← pagingMapUserRange] at hloop
    rcases hm : pagingMapUserRange im s (mmapAddr addr) len (mmapFlags prot) with ⟨_ | _, s₁⟩ <;>
    · rw [hm] at hloop
      exact hloop

end UserSound

end TypeOS.Elf
