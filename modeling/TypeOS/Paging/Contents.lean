import TypeOS.Paging.Lacking
import TypeOS.Lib.Words

/-! What is in the pages.

    The kernel clears and fills a frame through the temporary window: the frame is mapped there, its
    bytes are written, and the window is unmapped. Of the frames in use that are no tables only this
    one changes, and no page but the window's translates differently. -/

namespace TypeOS.Paging
open Radix Bytes

/-- The frame an address translates to. -/
def pageAt (s : Vm) (v : Nat) : Option Nat := (walk s.mem s.pml4 v).map fun r => entryFrame r.1

/-- The byte that is found at an address. -/
def userByte (s : Vm) (v : Nat) : Option UInt8 :=
  (pageAt s v).map fun f => byteOf (s.mem f) (v % pageSize)

/-- `memcpy` to an offset in a page. -/
def storeThrough (s : Vm) (virt offset : Nat) (bytes : List UInt8) : Vm :=
  let frame := pagingVirtToPhys s virt / pageSize
  writeFrame s frame (withBytes (s.mem frame) offset bytes)

/-- `paging_write_phys`; `true` is 0. -/
def pagingWritePhys (im : Image) (s : Vm) (phys : Nat) (bytes : List UInt8) : Bool × Vm :=
  if bytes = [] then (true, s)
  else
    let chunk := min (pageSize - phys % pageSize) bytes.length
    match pagingMapPage im s kernelKmapWindow (pageOf phys) (pagePresent ||| pageWritable) with
    | (false, s) => (false, s)
    | (true, s) =>
      let s := storeThrough s kernelKmapWindow (phys % pageSize) (bytes.take chunk)
      pagingWritePhys im (pagingUnmapPage s kernelKmapWindow) (phys + chunk) (bytes.drop chunk)
termination_by bytes.length
decreasing_by
  have hpos : 0 < bytes.length := List.length_pos_iff.mpr ‹¬ bytes = []›
  have hoff : phys % pageSize < pageSize := Nat.mod_lt phys pageSize_pos
  rw [List.length_drop]
  omega

variable {im : Image} {s s' s'' s₁ : Vm} {tag tag' tag'' : Nat → Option Path} {f k v off : Nat}
  {F : Nat → Prop} {W W' E : Path → Prop} {ok : Bool} {fl : Word} {bytes : List UInt8}

/-! ### Frames that are written -/

/-- At most the frames of `F` were written, of those in use that are no tables, and at most the pages
    of `W` translate differently or are closed to the user. -/
structure Edited (F : Nat → Prop) (W : Path → Prop) (s : Vm) (tag : Nat → Option Path) (s' : Vm)
    (tag' : Nat → Option Path) : Prop where
  forest : Forest s' tag'
  tags : ∀ t p, tag t = some p → tag' t = some p
  bits : ∀ f, bitmapTest s f = true → bitmapTest s' f = true
  untagged : ∀ f, tag f = none → bitmapTest s f = true → tag' f = none
  frames : ∀ f, ¬ F f → tag f = none → bitmapTest s f = true → s'.mem f = s.mem f
  pml4 : s'.pml4 = s.pml4
  pages : ∀ v, ¬ W (pathOf v) → pageAt s' v = pageAt s v
  users : ∀ v e, ¬ W (pathOf v) → walk s.mem s.pml4 v = some (e, true) →
    walk s'.mem s'.pml4 v = some (e, true)
  paths : ∀ r q c, tag r = some [] → q.length ≤ 3 → descend nextTable s.mem r q = some c →
    descend nextTable s'.mem r q = some c

namespace Edited

theorem trans (h : Edited F W s tag s' tag') (h' : Edited F W s' tag' s'' tag'') :
    Edited F W s tag s'' tag'' where
  forest := h'.forest
  tags := fun t p ht => h'.tags t p (h.tags t p ht)
  bits := fun f hf => h'.bits f (h.bits f hf)
  untagged := fun f hf hb => h'.untagged f (h.untagged f hf hb) (h.bits f hb)
  frames := fun f hn hf hb =>
    (h'.frames f hn (h.untagged f hf hb) (h.bits f hb)).trans (h.frames f hn hf hb)
  pml4 := h'.pml4.trans h.pml4
  pages := fun v hv => (h'.pages v hv).trans (h.pages v hv)
  users := fun v e hv hw => h'.users v e hv (h.users v e hv hw)
  paths := fun r q c hr hq hd => h'.paths r q c (h.tags r [] hr) hq (h.paths r q c hr hq hd)

theorem of_grafted {t : Nat} {i : Fin 512} (hs : Forest s tag) (g : Grafted t i s tag s' tag') :
    Edited F W s tag s' tag' where
  forest := g.forest
  tags := g.tags
  bits := g.bits
  untagged := fun _ hf hb => g.untagged hf hb
  frames := fun f _ hf hb => g.frames f hf hb
  pml4 := g.pml4
  pages := fun v _ => by rw [pageAt, pageAt, g.pml4, g.walks s.pml4 v hs.root]
  users := fun v e _ hw => by rw [g.pml4, g.walks s.pml4 v hs.root, hw]
  paths := fun _ _ _ hr hq hd => g.leads hs hr hq hd

theorem of_changed (hs : Forest s tag) (h : Changed E W s tag s' tag') :
    Edited F W s tag s' tag' where
  forest := h.forest
  tags := h.tags
  bits := h.bits
  untagged := fun _ hf hb => h.untagged hf hb
  frames := fun f _ hf hb => h.frames f hf hb
  pml4 := h.pml4
  pages := fun v hv => by
    rw [pageAt, pageAt, h.pml4, h.walks s.pml4 v hs.root fun hc => hv hc.1]
  users := fun v e hv hw => by rw [h.pml4, h.walks s.pml4 v hs.root fun hc => hv hc.1, hw]
  paths := fun _ _ _ hr hq hd => h.descend hs hr (by simpa using hq) hd

theorem of_mapped (hs : Forest s tag) (h : Mapped E W s tag s' tag') : Edited F W s tag s' tag' :=
  of_changed hs h.toChanged

theorem refl (h : Forest s tag) : Edited F W s tag s tag :=
  of_mapped h (Mapped.refl (E := fun _ => True) h)

/-- A frame that is no table is overwritten. -/
theorem fill (h : Forest s tag) (hf : tag f = none) (w : Fin 512 → Word) :
    Edited (· = f) W s tag (writeFrame s f w) tag := by
  have hmem : ∀ t p, tag t = some p → (writeFrame s f w).mem t = s.mem t := by
    intro t p ht
    have hne : t ≠ f := by
      rintro rfl
      rw [hf] at ht
      cases ht
    simp only [writeFrame, Function.update_of_ne hne]
  refine ⟨h.congr hmem (fun _ hb => hb) rfl, fun _ _ ht => ht, fun _ hb => hb, fun _ hg _ => hg,
    fun g hg _ _ => ?_, rfl, fun v _ => ?_, fun v e _ hw => (h.walk_congr hmem h.root).trans hw,
    fun r q c hr hq hd => ?_⟩
  · simp only [writeFrame, Function.update_of_ne hg]
  · rw [pageAt, pageAt, show (writeFrame s f w).pml4 = s.pml4 from rfl, h.walk_congr hmem h.root]
  · exact h.tagged.descend_keep hr (by simpa using hq) (fun u p i g hu _ hg => by rwa [hmem u p hu]) hd

theorem mono {F' : Nat → Prop} (h : Edited F W s tag s' tag') (hF : ∀ f, F f → F' f)
    (hW : ∀ π, W π → W' π) : Edited F' W' s tag s' tag' :=
  { h with
    frames := fun f hn => h.frames f fun hc => hn (hF f hc)
    pages := fun v hv => h.pages v fun hc => hv (hW _ hc)
    users := fun v e hv => h.users v e fun hc => hv (hW _ hc) }

/-- A page that was left alone holds what it held. -/
theorem userByte (h : Edited F W s tag s' tag') (hv : ¬ W (pathOf v)) (hp : pageAt s v = some f)
    (hF : ¬ F f) (hf : tag f = none) (hb : bitmapTest s f = true) :
    Paging.userByte s' v = Paging.userByte s v := by
  rw [Paging.userByte, Paging.userByte, h.pages v hv, hp, Option.map_some, Option.map_some,
    h.frames f hF hf hb]

/-- An address keeps its page table. -/
theorem ptOf (h : Edited F W s tag s' tag') (hs : Forest s tag)
    (hpt : Paging.ptOf s.mem s.pml4 v = some k) : Paging.ptOf s'.mem s'.pml4 v = some k := by
  rw [h.pml4]
  exact h.paths _ _ _ hs.root (by simp [tablePath]) hpt

end Edited

/-! ### Through the window -/

/-- The frame is mapped in the window, its words are replaced, and the window is unmapped. -/
theorem window_edit (h : Forest s tag) (hf : tag f = none) (hb : bitmapTest s f = true)
    (hlt : f < 2 ^ 40)
    (hm : pagingMapPage im s kernelKmapWindow (f * pageSize) (pagePresent ||| pageWritable) = (ok, s₁)) :
    (ok = false → ∃ tag', Edited (· = f) (· = pathOf kernelKmapWindow) s tag s₁ tag') ∧
    (ok = true → pagingVirtToPhys s₁ kernelKmapWindow / pageSize = f ∧ s₁.mem f = s.mem f ∧
      ∀ w, ∃ tag', Edited (· = f) (· = pathOf kernelKmapWindow) s tag
          (pagingUnmapPage (writeFrame s₁ f w) kernelKmapWindow) tag' ∧
        (pagingUnmapPage (writeFrame s₁ f w) kernelKmapWindow).mem f = w ∧
        ptOf (pagingUnmapPage (writeFrame s₁ f w) kernelKmapWindow).mem s.pml4 kernelKmapWindow ≠
          none ∧
        walk (pagingUnmapPage (writeFrame s₁ f w) kernelKmapWindow).mem s.pml4 kernelKmapWindow =
          none) := by
  obtain ⟨tag₁, g⟩ := pagingMapPageFlags_mapped h tableFlags_kernel hm
  refine ⟨fun _ => ⟨tag₁, .of_mapped h g⟩, fun hok => ?_⟩
  subst hok
  have hf₁ := g.untagged hf hb
  refine ⟨mapped_frame h hlt (by decide) hm, g.frames f hf hb, fun w => ?_⟩
  have hfill := Edited.fill (W := (· = pathOf kernelKmapWindow)) g.forest hf₁ w
  obtain ⟨-, -, hkeep, hleft⟩ := pagingUnmapPage_keeps hfill.forest kernelKmapWindow
  have hroot : (writeFrame s₁ f w).pml4 = s.pml4 := g.pml4
  obtain ⟨pt, hpt⟩ : ∃ pt, ptOf (writeFrame s₁ f w).mem (writeFrame s₁ f w).pml4 kernelKmapWindow =
      some pt := by
    rcases pagingMapPageFlags_spec h tableFlags_kernel hm with
      ⟨hc, -⟩ | ⟨-, -, -, tag₂, s₂, pt, g₂, ht, hpt, rfl⟩
    · cases hc
    · refine ⟨pt, (g.forest.ptOf_fill hf₁ g.forest.root).trans ?_⟩
      exact (g₂.forest.ptOf_leaf ht rfl g₂.forest.root).trans hpt
  refine ⟨tag₁, ((Edited.of_mapped h g).trans hfill).trans
    (.of_mapped hfill.forest (pagingUnmapPage_mapped hfill.forest _)), ?_, ?_, ?_⟩
  · rw [hleft f hf₁]
    exact Function.update_self ..
  · rw [← hroot, hkeep, hpt]
    exact Option.some_ne_none pt
  · rw [← hroot]
    exact pagingUnmapPage_walk hfill.forest hpt

/-- `paging_clear_phys` writes the frame it is given only; where it returns 0, zeros. -/
theorem pagingClearPhys_edited (h : Forest s tag) (hf : tag f = none) (hb : bitmapTest s f = true)
    (hlt : f < 2 ^ 40) (hc : pagingClearPhys im s (f * pageSize) = (ok, s')) :
    ∃ tag', Edited (· = f) (· = pathOf kernelKmapWindow) s tag s' tag' ∧
      (ok = true → s'.mem f = (fun _ => 0#64) ∧ ptOf s'.mem s'.pml4 kernelKmapWindow ≠ none ∧
        walk s'.mem s'.pml4 kernelKmapWindow = none) := by
  rw [pagingClearPhys] at hc
  rcases hm : pagingMapPage im s kernelKmapWindow (f * pageSize) (pagePresent ||| pageWritable)
    with ⟨_ | _, s₁⟩
  · rw [hm] at hc
    obtain ⟨rfl, rfl⟩ := Prod.mk.inj hc
    obtain ⟨tag', g⟩ := (window_edit h hf hb hlt hm).1 rfl
    exact ⟨tag', g, fun hok => by cases hok⟩
  · obtain ⟨hphys, -, hedit⟩ := (window_edit h hf hb hlt hm).2 rfl
    obtain ⟨tag', g, hmem, hopen⟩ := hedit fun _ => 0#64
    rw [hm] at hc
    simp only [clearThrough, hphys] at hc
    obtain ⟨rfl, rfl⟩ := Prod.mk.inj hc
    exact ⟨tag', g, fun _ => ⟨hmem, by rw [g.pml4]; exact hopen⟩⟩

/-- `paging_write_phys` to one page writes that frame only; where it returns 0, the bytes. -/
theorem pagingWritePhys_edited (h : Forest s tag) (hf : tag f = none) (hb : bitmapTest s f = true)
    (hlt : f < 2 ^ 40) (hfit : off + bytes.length ≤ pageSize) (hoff : off < pageSize)
    (hc : pagingWritePhys im s (f * pageSize + off) bytes = (ok, s')) :
    ∃ tag', Edited (· = f) (· = pathOf kernelKmapWindow) s tag s' tag' ∧
      (ok = true → ∀ x < pageSize, byteOf (s'.mem f) x = store (byteOf (s.mem f)) off bytes x) := by
  have hpage : pageOf (f * pageSize + off) = f * pageSize := by
    simp only [pageOf, pageSize] at *
    omega
  have hmod : (f * pageSize + off) % pageSize = off := by
    simp only [pageSize] at *
    omega
  rw [pagingWritePhys] at hc
  split at hc
  · next hnil =>
    obtain ⟨rfl, rfl⟩ := Prod.mk.inj hc
    exact ⟨tag, .refl h, fun _ x _ => by rw [hnil, store_nil]⟩
  simp only [hpage, hmod] at hc
  have hmin : min (pageSize - off) bytes.length = bytes.length := by omega
  rw [hmin, List.take_length, List.drop_length] at hc
  rcases hm : pagingMapPage im s kernelKmapWindow (f * pageSize) (pagePresent ||| pageWritable)
    with ⟨_ | _, s₁⟩
  · rw [hm] at hc
    obtain ⟨rfl, rfl⟩ := Prod.mk.inj hc
    obtain ⟨tag', g⟩ := (window_edit h hf hb hlt hm).1 rfl
    exact ⟨tag', g, fun hok => by cases hok⟩
  · obtain ⟨hphys, hsame, hedit⟩ := (window_edit h hf hb hlt hm).2 rfl
    obtain ⟨tag', g, hmem, -⟩ := hedit (withBytes (s₁.mem f) off bytes)
    rw [hm] at hc
    simp only [storeThrough, hphys] at hc
    rw [pagingWritePhys, if_pos rfl] at hc
    obtain ⟨rfl, rfl⟩ := Prod.mk.inj hc
    refine ⟨tag', g, fun _ x hx => ?_⟩
    rw [hmem, hsame]
    exact byteOf_withBytes hx

/-! ### When it can be used -/

/-- The window has its page table, or there is a frame for one. -/
def WindowOpens (im : Image) (s : Vm) : Prop :=
  ptOf s.mem s.pml4 kernelKmapWindow ≠ none ∨ (pagingAllocTable im s).1 ≠ none

/-- The address space has the directory that the window is in. -/
def WindowDir (s : Vm) (root : Nat) : Prop :=
  descend nextTable s.mem root [pml4Index kernelKmapWindow, pdpIndex kernelKmapWindow] ≠ none

theorem Edited.windowDir (h : Edited F W s tag s' tag') {r : Nat} (hr : tag r = some [])
    (hd : WindowDir s r) : WindowDir s' r := by
  obtain ⟨pd, hd⟩ := Option.ne_none_iff_exists'.mp hd
  rw [WindowDir, h.paths r _ pd hr (by simp) hd]
  exact Option.some_ne_none pd

/-- Where a table is left for the window, a frame is mapped there. -/
theorem window_room (h : Forest s tag) (f : Nat) (hd : WindowDir s s.pml4) (ho : WindowOpens im s) :
    ∃ s₁, pagingMapPage im s kernelKmapWindow (f * pageSize) (pagePresent ||| pageWritable) =
      (true, s₁) :=
  ⟨_, Prod.ext (pagingMapPageFlags_room h (by decide) (Nat.mul_mod_left ..) hd ho) rfl⟩

theorem pagingClearPhys_room (h : Forest s tag) (hd : WindowDir s s.pml4) (ho : WindowOpens im s) :
    (pagingClearPhys im s (f * pageSize)).1 = true := by
  obtain ⟨s₁, hm⟩ := window_room h f hd ho
  rw [pagingClearPhys, hm]

/-- Where the window has its page table, a page can be written. -/
theorem pagingWritePhys_there (h : Forest s tag) (hpt : ptOf s.mem s.pml4 kernelKmapWindow ≠ none)
    (hfit : off + bytes.length ≤ pageSize) (hoff : off < pageSize) :
    (pagingWritePhys im s (f * pageSize + off) bytes).1 = true := by
  have hpage : pageOf (f * pageSize + off) = f * pageSize := by
    simp only [pageOf, pageSize] at *
    omega
  have hmod : (f * pageSize + off) % pageSize = off := by
    simp only [pageSize] at *
    omega
  obtain ⟨k, hk⟩ := Option.ne_none_iff_exists'.mp hpt
  obtain ⟨d, hd⟩ := @window_there im s tag k h f hk
  rw [pagingWritePhys]
  split
  · rfl
  · simp only [hpage, hmod, hd]
    have hmin : min (pageSize - off) bytes.length = bytes.length := by omega
    rw [hmin, List.drop_length, pagingWritePhys, if_pos rfl]

end TypeOS.Paging
