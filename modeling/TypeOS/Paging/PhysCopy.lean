import TypeOS.Paging.Contents

/-! Copies to and from physical memory.

    A run of physical bytes is copied, written or cleared page by page, each page through the
    temporary window or, for a copy from low memory, where it is mapped to itself. Every turn of the
    loop leaves all translations as they were, the window unmapped, and of the tables at most absent
    entries on the way to the window changed (`Rewritten`). -/

namespace TypeOS.Paging
open Radix Bytes

/-- The byte at a physical address. -/
def physByte (s : Vm) : Bytes.Memory := fun a => byteOf (s.mem (a / pageSize)) (a % pageSize)

/-- The byte that is read at a virtual address. -/
def virtByte (s : Vm) : Bytes.Memory := fun v => physByte s (pagingVirtToPhys s v)

variable (im : Image)

/-- `paging_copy_from_phys`, which reads below the limit directly; `true` is 0. The destination is a
    buffer of the caller. -/
def copyFromPhys (limit : Nat) (s : Vm) (dest : Bytes.Memory) (dst srcPhys len : Nat) :
    Bool × Bytes.Memory × Vm :=
  if len = 0 then (true, dest, s)
  else
    let page := pageOf srcPhys
    let offset := srcPhys % pageSize
    let chunk := min (pageSize - offset) len
    if page + offset < limit then
      let dest := store dest dst (load (virtByte s) (page + offset) chunk)
      copyFromPhys limit (touch s (page + offset)) dest (dst + chunk) (srcPhys + chunk) (len - chunk)
    else
      match pagingMapPage im s kernelKmapWindow page (pagePresent ||| pageWritable) with
      | (false, s) => (false, dest, s)
      | (true, s) =>
        let dest := store dest dst (load (virtByte s) (kernelKmapWindow + offset) chunk)
        copyFromPhys limit (pagingUnmapPage s kernelKmapWindow) dest (dst + chunk) (srcPhys + chunk)
          (len - chunk)
termination_by len
decreasing_by
  all_goals
    have hoff : srcPhys % pageSize < pageSize := Nat.mod_lt srcPhys pageSize_pos
    omega

/-- `paging_copy_from_phys`. -/
def pagingCopyFromPhys (s : Vm) (dest : Bytes.Memory) (dst srcPhys len : Nat) :
    Bool × Bytes.Memory × Vm :=
  copyFromPhys im identityMapLimit s dest dst srcPhys len

/-- `paging_clear_phys`, of any length; `true` is 0. -/
def pagingClearPhysLen (s : Vm) (phys len : Nat) : Bool × Vm :=
  if len = 0 then (true, s)
  else
    let chunk := min (pageSize - phys % pageSize) len
    match pagingMapPage im s kernelKmapWindow (pageOf phys) (pagePresent ||| pageWritable) with
    | (false, s) => (false, s)
    | (true, s) =>
      let s := storeThrough s kernelKmapWindow (phys % pageSize) (List.replicate chunk 0)
      pagingClearPhysLen (pagingUnmapPage s kernelKmapWindow) (phys + chunk) (len - chunk)
termination_by len
decreasing_by
  have hoff : phys % pageSize < pageSize := Nat.mod_lt phys pageSize_pos
  omega

variable {im : Image} {s s' s'' s₁ : Vm} {tag tag' tag'' : Nat → Option Path}
  {f t r v u phys len off limit dst : Nat} {p q : Path} {i : Fin 512} {e : Word} {ok : Bool}
  {bytes bytes' : List UInt8} {dest : Bytes.Memory}

/-! ### Clearing is writing -/

/-- Memory is cleared as zeros are written to it. -/
theorem pagingClearPhysLen_eq (s : Vm) (phys len : Nat) :
    pagingClearPhysLen im s phys len = pagingWritePhys im s phys (List.replicate len 0) := by
  induction len using Nat.strong_induction_on generalizing s phys with
  | _ len ih =>
    rw [pagingClearPhysLen, pagingWritePhys]
    by_cases h0 : len = 0
    · rw [if_pos h0, if_pos (by rw [h0]; rfl)]
    · have hoff : phys % pageSize < pageSize := Nat.mod_lt phys pageSize_pos
      have hne : List.replicate len (0 : UInt8) ≠ [] := by simpa using h0
      have htake : (List.replicate len (0 : UInt8)).take (min (pageSize - phys % pageSize) len) =
          List.replicate (min (pageSize - phys % pageSize) len) 0 := by
        rw [List.take_replicate]
        congr 1
        omega
      rw [if_neg h0, if_neg hne]
      simp only [List.length_replicate, htake, List.drop_replicate]
      rcases pagingMapPage im s kernelKmapWindow (pageOf phys) (pagePresent ||| pageWritable)
        with ⟨_ | _, s₁⟩
      · rfl
      · exact ih _ (by omega) _ _

/-- A whole page is cleared as its words are. -/
theorem pagingClearPhysLen_page (h : phys % pageSize = 0) :
    pagingClearPhysLen im s phys pageSize = pagingClearPhys im s phys := by
  have hpage : pageOf phys = phys := by
    simp only [pageOf, pageSize] at *
    omega
  have hzero : ∀ s : Vm, storeThrough s kernelKmapWindow 0 (List.replicate pageSize 0) =
      clearThrough s kernelKmapWindow := fun s => by
    rw [storeThrough, clearThrough]
    exact congrArg _ (withBytes_zeros (m := 512) _)
  rw [pagingClearPhysLen, if_neg pageSize_pos.ne', pagingClearPhys]
  simp only [h, hpage, Nat.sub_zero, min_self, Nat.sub_self, hzero]
  rcases pagingMapPage im s kernelKmapWindow phys (pagePresent ||| pageWritable) with ⟨_ | _, s₁⟩
  · rfl
  · simp only
    rw [pagingClearPhysLen, if_pos rfl]

/-! ### What is left as it was -/

/-- The way to an old table was there before. -/
theorem Mapped.descend_old {E W : Path → Prop} (h : Mapped E W s tag s' tag') :
    ∀ {q : Path} {t : Nat} {p : Path}, tag' t = some p → p.length + q.length ≤ 3 →
      descend nextTable s'.mem t q = some f → (∃ w, tag f = some w) →
      (∃ w, tag t = some w) ∧ descend nextTable s.mem t q = some f
  | [], t, p, _, _, hd, hf => by
    rw [descend, Option.some.injEq] at hd
    subst hd
    exact ⟨hf, rfl⟩
  | i :: q, t, p, ht, hlen, hd, hf => by
    rw [List.length_cons] at hlen
    obtain ⟨g, hg, hd⟩ := Option.bind_eq_some_iff.mp hd
    have hgt := h.forest.tagged t p i g ht (by omega) hg
    obtain ⟨hold, hd⟩ := h.descend_old hgt
      (by rw [List.length_append, List.length_singleton]; omega) hd hf
    obtain ⟨ht', hg'⟩ := h.back t p i g ht (by omega) hg hold
    exact ⟨⟨p, ht'⟩, by rw [descend, hg']; exact hd⟩

/-- An absent entry of a page may be replaced by another. -/
theorem Forest.walk_absent (h : Forest s tag) (ht : tag t = some (tablePath v))
    (hold : has (s.mem t (ptIndex v)) pagePresent = false) (hnew : has e pagePresent = false)
    (hr : tag r = some []) : walk (writeEntry s t (ptIndex v) e).mem r u = walk s.mem r u := by
  by_cases hu : pathOf u = pathOf v
  · have hwalk : ∀ m, walk m r u = walk m r v := fun m => by rw [walk, walk, hu]
    rw [hwalk, hwalk]
    by_cases hpt : ptOf s.mem r v = some t
    · have hpt' : ptOf (writeEntry s t (ptIndex v) e).mem r v = some t :=
        (h.ptOf_leaf ht rfl hr).trans hpt
      rw [walk_ptOf hpt, walk_ptOf hpt', writeEntry_self, hold, hnew]
      rfl
    · exact h.walk_leaf_other ht hr hpt
  · exact h.walk_leaf ht hr hu

/-- Below the root, a huge page on the way is a translation. -/
theorem Forest.walk_huge (hd : descend nextTable s.mem s.pml4 [pml4Index v, pdpIndex v] = some t)
    (hp : has (s.mem t (pdIndex v)) pagePresent = true)
    (hh : has (s.mem t (pdIndex v)) pageHuge = true) : walk s.mem s.pml4 v ≠ none := by
  have hd' : descend translator.next s.mem s.pml4 [pml4Index v, pdpIndex v] = some t := hd
  have hn : translator.next (s.mem t (pdIndex v)) = none := by
    rw [show translator.next = nextTable from rfl, nextTable, hp, hh]
    rfl
  rw [walk, show pathOf v = [pml4Index v, pdpIndex v] ++ [pdIndex v, ptIndex v] from rfl,
    look_descend hd' (by simp), look, hn]
  simp [translator, leafEntry, hp, hh]

/-- The tables on the way to the window. -/
abbrev WindowTable (s : Vm) (f : Nat) : Prop := OnWay s kernelKmapWindow f

theorem OnWay.tagged (hs : Forest s tag) (h : OnWay s v f) : ∃ p, tag f = some p := by
  obtain ⟨q, hq, hd⟩ := h
  have hlen := hq.length_le
  rw [length_tablePath] at hlen
  exact ⟨_, hs.tagged.descend hs.root (by simpa using hlen) hd⟩

/-- The bytes from a physical address on were replaced. No translation changed, and of the entries
    in tables at most absent ones on the way to the window. -/
structure Rewritten (phys : Nat) (bytes : List UInt8) (s : Vm) (tag : Nat → Option Path) (s' : Vm)
    (tag' : Nat → Option Path) : Prop where
  forest : Forest s' tag'
  tags : ∀ t p, tag t = some p → tag' t = some p
  bits : ∀ f, bitmapTest s f = true → bitmapTest s' f = true
  untagged : ∀ f, tag f = none → bitmapTest s f = true → tag' f = none
  pml4 : s'.pml4 = s.pml4
  walks : ∀ r v, tag r = some [] → walk s'.mem r v = walk s.mem r v
  tables : ∀ t p i, tag t = some p → s'.mem t i = s.mem t i ∨
    has (s.mem t i) pagePresent = false ∧ WindowTable s t ∧ p ++ [i] <+: pathOf kernelKmapWindow
  way : ∀ f, WindowTable s f → WindowTable s' f
  old : ∀ f, WindowTable s' f → (∃ p, tag f = some p) → WindowTable s f
  stored : ∀ a, ¬ WindowTable s' (a / pageSize) → physByte s' a = store (physByte s) phys bytes a

namespace Rewritten

theorem trans (h : Rewritten phys bytes s tag s' tag')
    (h' : Rewritten (phys + bytes.length) bytes' s' tag' s'' tag'') :
    Rewritten phys (bytes ++ bytes') s tag s'' tag'' where
  forest := h'.forest
  tags := fun t p ht => h'.tags t p (h.tags t p ht)
  bits := fun f hf => h'.bits f (h.bits f hf)
  untagged := fun f hf hb => h'.untagged f (h.untagged f hf hb) (h.bits f hb)
  pml4 := h'.pml4.trans h.pml4
  walks := fun r v hr => (h'.walks r v (h.tags r [] hr)).trans (h.walks r v hr)
  tables := fun t p i ht => by
    rcases h.tables t p i ht with hsame | hc
    · rcases h'.tables t p i (h.tags t p ht) with hsame' | ⟨hpr, hw, hpre⟩
      · exact Or.inl (hsame'.trans hsame)
      · exact Or.inr ⟨by rw [← hsame]; exact hpr, h.old t hw ⟨p, ht⟩, hpre⟩
    · exact Or.inr hc
  way := fun f hf => h'.way f (h.way f hf)
  old := fun f hf ⟨p, ht⟩ => h.old f (h'.old f hf ⟨p, h.tags f p ht⟩) ⟨p, ht⟩
  stored := fun a ha => by
    rw [h'.stored a ha, ← store_append]
    exact store_at (h.stored a fun hw => ha (h'.way _ hw))

/-- Before bytes are replaced, nothing may be. -/
theorem nil_trans (h : Rewritten phys [] s tag s' tag') (h' : Rewritten phys bytes s' tag' s'' tag'') :
    Rewritten phys bytes s tag s'' tag'' :=
  h.trans h'

/-- Where nothing is replaced it does not matter where. -/
theorem elsewhere (h : Rewritten phys [] s tag s' tag') (a : Nat) : Rewritten a [] s tag s' tag' :=
  { h with stored := fun x hx => by rw [h.stored x hx, store_nil, store_nil] }

/-- Nor afterwards. -/
theorem trans_nil (h : Rewritten phys bytes s tag s' tag') (h' : Rewritten u [] s' tag' s'' tag'') :
    Rewritten phys bytes s tag s'' tag'' := by
  have hall := h.trans (h'.elsewhere (phys + bytes.length))
  rwa [List.append_nil] at hall

/-- Tables that were made on the way to the window. -/
theorem of_grown (hs : Forest s tag) (hw : walk s.mem s.pml4 kernelKmapWindow = none)
    (g : Grown (tablePath kernelKmapWindow) s tag s' tag')
    (hleft : ∀ u, ¬ WindowTable s' u → s'.mem u = s.mem u) : Rewritten phys [] s tag s' tag' where
  forest := g.forest
  tags := g.tags
  bits := g.bits
  untagged := fun _ hf hb => g.untagged hf hb
  pml4 := g.pml4
  walks := fun r v hr => g.walks r v hr fun hc => hc.1
  tables := fun t p i ht => by
    rcases g.off t p i ht with hsame | ⟨⟨_, rfl, hpre⟩, hd⟩
    · exact Or.inl hsame
    have hlen : p.length < 3 := by
      have := hpre.length_le
      rw [List.length_append, length_tablePath] at this
      simpa using this
    rw [g.pml4] at hd
    obtain ⟨-, hd⟩ := g.descend_old (g.tags _ _ hs.root) (by simp; omega) hd ⟨p, ht⟩
    cases hpr : has (s.mem t i) pagePresent with
    | false =>
      refine Or.inr ⟨rfl, ⟨p, (List.prefix_append p [i]).trans hpre, hd⟩, hpre.trans ?_⟩
      exact ⟨[ptIndex kernelKmapWindow], rfl⟩
    | true =>
      refine Or.inl (g.keep t p i _ ht hlen (hs.child ht hlen hpr fun h2 => ?_).1)
      -- a huge page on the way would be a translation of the window
      obtain ⟨i₄, i₃, rfl⟩ : ∃ i₄ i₃, p = [i₄, i₃] := List.length_eq_two.mp h2
      obtain ⟨rfl, rfl, rfl⟩ : i₄ = pml4Index kernelKmapWindow ∧ i₃ = pdpIndex kernelKmapWindow ∧
          i = pdIndex kernelKmapWindow := by
        have heq := hpre.eq_of_length rfl
        simpa [tablePath] using heq
      cases hh : has (s.mem t (pdIndex kernelKmapWindow)) pageHuge with
      | false => rfl
      | true => exact absurd hw (Forest.walk_huge hd hpr hh)
  way := fun f ⟨q, hq, hd⟩ => by
    have hlen := hq.length_le
    rw [length_tablePath] at hlen
    exact ⟨q, hq, by rw [g.pml4]; exact g.descend hs hs.root (by simpa using hlen) hd⟩
  old := fun f ⟨q, hq, hd⟩ hf => by
    have hlen := hq.length_le
    rw [length_tablePath] at hlen
    rw [g.pml4] at hd
    exact ⟨q, hq, (g.descend_old (g.tags _ _ hs.root) (by simpa using hlen) hd hf).2⟩
  stored := fun a ha => by rw [store_nil, physByte, physByte, hleft _ ha]

/-- What leaves every pointer along the way to the window leaves the way. -/
theorem way_congr (hs : Forest s tag) (hroot : s'.pml4 = s.pml4)
    (hm : ∀ t p i, tag t = some p → p.length < 3 → s'.mem t i = s.mem t i) :
    WindowTable s' f ↔ WindowTable s f := by
  have hd : ∀ q, q <+: tablePath kernelKmapWindow →
      descend nextTable s'.mem s'.pml4 q = descend nextTable s.mem s.pml4 q := fun q hq => by
    have hlen := hq.length_le
    rw [length_tablePath] at hlen
    rw [hroot]
    refine hs.tagged.descend_congr hs.root (by simpa using hlen) fun t p i ht hpre => ?_
    have := hpre.length_le
    rw [List.length_append, List.length_singleton, List.nil_append] at this
    rw [hm t p i ht (by omega)]
  exact exists_congr fun q => and_congr_right fun hq => by rw [hd q hq]

/-- An absent entry of the window that was replaced by another. -/
theorem of_leaf (hs : Forest s tag) (hpt : ptOf s.mem s.pml4 kernelKmapWindow = some t)
    (hold : has (s.mem t (ptIndex kernelKmapWindow)) pagePresent = false)
    (hnew : has e pagePresent = false) :
    Rewritten phys [] s tag (writeEntry s t (ptIndex kernelKmapWindow) e) tag := by
  have ht : tag t = some (tablePath kernelKmapWindow) := hs.tagged.descend hs.root (by simp) hpt
  have hw : WindowTable s t := ⟨_, List.prefix_rfl, hpt⟩
  have hway : ∀ f, WindowTable (writeEntry s t (ptIndex kernelKmapWindow) e) f ↔
      WindowTable s f := fun f => by
    refine way_congr hs rfl fun u p i hu hp => writeEntry_other ?_
    rintro hc
    rw [(Prod.mk.inj hc).1, ht, Option.some.injEq] at hu
    rw [← hu, length_tablePath] at hp
    omega
  refine ⟨hs.write_leaf ht rfl, fun _ _ h => h, fun _ h => h, fun _ h _ => h, rfl,
    fun r v hr => hs.walk_absent ht hold hnew hr, fun u p i hu => ?_, fun f hf => (hway f).mpr hf,
    fun f hf _ => (hway f).mp hf, fun a ha => ?_⟩
  · by_cases hc : (u, i) = (t, ptIndex kernelKmapWindow)
    · obtain ⟨rfl, rfl⟩ := Prod.mk.inj hc
      rw [ht, Option.some.injEq] at hu
      exact Or.inr ⟨hold, hw, hu ▸ List.prefix_rfl⟩
    · exact Or.inl (writeEntry_other hc)
  · rw [store_nil, physByte, physByte, writeEntry_frame]
    rintro hc
    exact ha ((hway _).mpr (hc ▸ hw))

/-- Bytes of a frame that is no table were replaced. -/
theorem of_fill (hs : Forest s tag) (hf : tag f = none) {w : Fin 512 → Word}
    (hfit : off + bytes.length ≤ pageSize)
    (hw : ∀ x < pageSize, byteOf w x = store (byteOf (s.mem f)) off bytes x) :
    Rewritten (f * pageSize + off) bytes s tag (writeFrame s f w) tag := by
  have hmem : ∀ t p, tag t = some p → (writeFrame s f w).mem t = s.mem t := by
    intro t p ht
    have hne : t ≠ f := by
      rintro rfl
      rw [hf] at ht
      cases ht
    simp only [writeFrame, Function.update_of_ne hne]
  have hway : ∀ u, WindowTable (writeFrame s f w) u ↔ WindowTable s u := fun u =>
    way_congr hs rfl fun t p i ht _ => by rw [hmem t p ht]
  refine ⟨hs.congr hmem (fun _ h => h) rfl, fun _ _ h => h, fun _ h => h, fun _ h _ => h, rfl,
    fun r v hr => hs.walk_congr hmem hr, fun t p i ht => Or.inl (by rw [hmem t p ht]),
    fun u hu => (hway u).mpr hu, fun u hu _ => (hway u).mp hu, fun a _ => ?_⟩
  by_cases hc : a / pageSize = f
  · have hx : a % pageSize < pageSize := Nat.mod_lt a pageSize_pos
    rw [physByte, hc, show (writeFrame s f w).mem f = w from Function.update_self .., hw _ hx]
    subst hc
    have hdiv := Nat.div_add_mod a pageSize
    simp only [store, physByte, pageSize] at *
    split_ifs with h₁ h₂ h₂
    · congr 1
      omega
    · omega
    · omega
    · rfl
  · rw [physByte, show (writeFrame s f w).mem (a / pageSize) = s.mem (a / pageSize) from
      Function.update_of_ne hc .., store, if_neg, physByte]
    simp only [pageSize] at *
    omega

theorem of_same (phys : Nat) (hs : Forest s tag) (h : SameTables s s') :
    Rewritten phys [] s tag s' tag := by
  have hb : ∀ f, bitmapTest s' f = bitmapTest s f := fun f => by rw [bitmapTest, bitmapTest, h.2.1]
  obtain ⟨hmem, -, -, hroot⟩ := id h
  have hway : ∀ f, WindowTable s' f ↔ WindowTable s f := fun f =>
    way_congr hs hroot fun _ _ _ _ _ => by rw [hmem]
  exact ⟨h.forest hs, fun _ _ ht => ht, fun f hf => (hb f).trans hf, fun _ hf _ => hf, hroot,
    fun _ _ _ => by rw [hmem], fun _ _ _ _ => Or.inl (by rw [hmem]), fun f hf => (hway f).mpr hf,
    fun f hf _ => (hway f).mp hf, fun a _ => by rw [store_nil, physByte, physByte, hmem]⟩

end Rewritten

/-! ### One turn of a loop -/

/-- Unmapping a page after a frame was written leaves its entry zero and the frame written. -/
theorem pagingUnmapPage_fill (hs : Forest s tag) (hpt : ptOf s.mem s.pml4 v = some t)
    (hf : tag f = none) {w : Fin 512 → Word} :
    SameTables (writeFrame (writeEntry s t (ptIndex v) 0#64) f w)
      (pagingUnmapPage (writeFrame (writeEntry s t (ptIndex v) e) f w) v) := by
  have ht : tag t = some (tablePath v) := hs.tagged.descend hs.root (by simp) hpt
  have hne : t ≠ f := by
    rintro rfl
    rw [hf] at ht
    cases ht
  have hleaf : Forest (writeEntry s t (ptIndex v) e) tag := hs.write_leaf ht rfl
  have hfill := (Edited.fill (W := fun _ => False) hleaf hf w).forest
  have hpt' : ptOf (writeFrame (writeEntry s t (ptIndex v) e) f w).mem s.pml4 v = some t :=
    (hleaf.ptOf_fill hf hs.root).trans ((hs.ptOf_leaf ht rfl hs.root).trans hpt)
  rcases pagingUnmapPage_cases hfill v with ⟨hnone, -⟩ | ⟨t', s₁, ht', -, ⟨hm, hb, htotal, hr⟩, heq⟩
  · rw [show (writeFrame (writeEntry s t (ptIndex v) e) f w).pml4 = s.pml4 from rfl, hpt'] at hnone
    cases hnone
  rw [show (writeFrame (writeEntry s t (ptIndex v) e) f w).pml4 = s.pml4 from rfl, hpt',
    Option.some.injEq] at ht'
  subst ht'
  rw [heq]
  refine ⟨?_, hb, htotal, hr⟩
  funext u
  by_cases hut : u = t
  · subst hut
    simp [writeEntry, writeFrame, hm, Function.update_of_ne hne]
  · by_cases huf : u = f
    · subst huf
      simp [writeEntry, writeFrame, hm, Function.update_of_ne hut]
    · simp [writeEntry, writeFrame, hm, Function.update_of_ne hut, Function.update_of_ne huf]

/-- A frame is mapped in the window, bytes of it are replaced, and the window is unmapped. -/
theorem window_turn (off : Nat) (bytes : List UInt8) (h : Forest s tag)
    (hwin : walk s.mem s.pml4 kernelKmapWindow = none)
    (hf : tag f = none) (hb : bitmapTest s f = true) (hfit : off + bytes.length ≤ pageSize)
    (hm : pagingMapPage im s kernelKmapWindow (f * pageSize) (pagePresent ||| pageWritable) = (true, s₁))
    {w : Fin 512 → Word} (hw : ∀ x < pageSize, byteOf w x = store (byteOf (s.mem f)) off bytes x) :
    ∃ tag', Rewritten (f * pageSize + off) bytes s tag
      (pagingUnmapPage (writeFrame s₁ f w) kernelKmapWindow) tag' := by
  rcases pagingMapPageFlags_way h tableFlags_kernel hm with
    ⟨hc, -⟩ | ⟨-, -, -, tag', s₂, t, g, ht, hpt, hleft, rfl⟩
  · cases hc
  have hf' := g.untagged hf hb
  have habsent : has (s₂.mem t (ptIndex kernelKmapWindow)) pagePresent = false := by
    have hnone : walk s₂.mem s₂.pml4 kernelKmapWindow = none := by
      rw [g.pml4, g.walks s.pml4 _ h.root fun hc => hc.1, hwin]
    rw [walk_ptOf hpt] at hnone
    by_contra hc
    rw [Bool.not_eq_false] at hc
    rw [if_pos hc] at hnone
    cases hnone
  have hmade : Rewritten (f * pageSize + off) [] s tag s₂ tag' := .of_grown h hwin g hleft
  have hleaf : Rewritten (f * pageSize + off) [] s₂ tag' _ tag' :=
    .of_leaf g.forest hpt habsent (e := 0#64) rfl
  have hsame : (writeEntry s₂ t (ptIndex kernelKmapWindow) 0#64).mem f = s.mem f := by
    rw [writeEntry_frame, g.frames f hf hb]
    rintro rfl
    rw [hf'] at ht
    cases ht
  have hfill : Rewritten (f * pageSize + off) bytes _ tag' _ tag' :=
    .of_fill (w := w) hleaf.forest hf' hfit fun x hx => by rw [hw x hx, hsame]
  exact ⟨tag', ((hmade.nil_trans hleaf).nil_trans hfill).trans_nil
    (.of_same 0 hfill.forest (pagingUnmapPage_fill g.forest hpt hf'))⟩

/-- The range lies below 2^52, in frames that are in use and are no tables. -/
def OwnedRange (s : Vm) (tag : Nat → Option Path) (phys len : Nat) : Prop :=
  ∀ a, phys ≤ a → a < phys + len →
    a < 2 ^ 52 ∧ tag (a / pageSize) = none ∧ bitmapTest s (a / pageSize) = true

theorem OwnedRange.next (h : OwnedRange s tag phys len) (g : Rewritten u bytes s tag s' tag')
    {k : Nat} (hk : k ≤ len) : OwnedRange s' tag' (phys + k) (len - k) := by
  intro a hlo hhi
  obtain ⟨hlt, ht, hb⟩ := h a (by omega) (by omega)
  exact ⟨hlt, g.untagged _ ht hb, g.bits _ hb⟩

theorem Rewritten.window (g : Rewritten u bytes s tag s' tag') (h : Forest s tag)
    (hw : walk s.mem s.pml4 kernelKmapWindow = none) :
    walk s'.mem s'.pml4 kernelKmapWindow = none := by
  rw [g.pml4, g.walks s.pml4 _ h.root, hw]

/-- Bytes of frames that are in use and are no tables are the ones that were written. -/
theorem Rewritten.owned (g : Rewritten u bytes s tag s' tag') {a : Nat}
    (ht : tag (a / pageSize) = none) (hb : bitmapTest s (a / pageSize) = true) :
    physByte s' a = store (physByte s) u bytes a := by
  refine g.stored a fun hw => ?_
  obtain ⟨p, hp⟩ := OnWay.tagged g.forest hw
  rw [g.untagged _ ht hb] at hp
  cases hp

/-! ### The loops -/

/-- The chunk of a turn is in one page. -/
theorem chunk_fits (phys len : Nat) (hlen : 0 < len) :
    phys = phys / pageSize * pageSize + phys % pageSize ∧ phys % pageSize < pageSize ∧
      0 < min (pageSize - phys % pageSize) len ∧
      phys % pageSize + min (pageSize - phys % pageSize) len ≤ pageSize := by
  have hoff : phys % pageSize < pageSize := Nat.mod_lt phys pageSize_pos
  have hdiv := Nat.div_add_mod phys pageSize
  simp only [pageSize] at *
  omega

/-- Where `paging_write_phys` returns 0, the bytes are in the range. -/
theorem pagingWritePhys_rewritten (h : Forest s tag)
    (hw : walk s.mem s.pml4 kernelKmapWindow = none)
    (hown : OwnedRange s tag phys bytes.length) (hc : pagingWritePhys im s phys bytes = (true, s')) :
    ∃ tag', Rewritten phys bytes s tag s' tag' := by
  induction hn : bytes.length using Nat.strong_induction_on generalizing s tag phys bytes with
  | _ n ih =>
    rw [pagingWritePhys] at hc
    split at hc
    · next hnil =>
      obtain ⟨-, rfl⟩ := Prod.mk.inj hc
      rw [hnil]
      exact ⟨tag, .of_same _ h ⟨rfl, rfl, rfl, rfl⟩⟩
    · next hne =>
      have hpos : 0 < bytes.length := List.length_pos_iff.mpr hne
      obtain ⟨hphys, hoff, hk, hfit⟩ := chunk_fits phys bytes.length hpos
      obtain ⟨hlt, hf, hb⟩ := hown phys (Nat.le_refl _) (by omega)
      set k := min (pageSize - phys % pageSize) bytes.length with hkdef
      have hlenk : (bytes.take k).length = k := by
        rw [List.length_take]
        omega
      have hflt : phys / pageSize < 2 ^ 40 := by
        simp only [pageSize]
        omega
      dsimp only [pageOf] at hc
      rcases hm : pagingMapPage im s kernelKmapWindow (phys / pageSize * pageSize)
        (pagePresent ||| pageWritable) with ⟨_ | _, s₁⟩
      · rw [hm] at hc
        cases (Prod.mk.inj hc).1
      · obtain ⟨hwin, hsame, -⟩ := (window_edit h hf hb hflt hm).2 rfl
        rw [hm] at hc
        simp only [storeThrough, hwin] at hc
        obtain ⟨tag₁, g⟩ := window_turn (phys % pageSize) (bytes.take k) h hw hf hb
          (by rw [hlenk]; exact hfit) hm (w := withBytes (s₁.mem (phys / pageSize)) (phys % pageSize)
            (bytes.take k)) fun x hx => by rw [byteOf_withBytes hx, hsame]
        rw [← hphys] at g
        have hown' := hown.next g (k := k) (by omega)
        obtain ⟨tag', g'⟩ := ih _ (by rw [List.length_drop]; omega) g.forest (g.window h hw)
          (by rw [List.length_drop]; exact hown') hc rfl
        have hall := g.trans (by rw [hlenk]; exact g')
        rw [List.take_append_drop] at hall
        exact ⟨tag', hall⟩

/-- Addresses keep what they translate to. -/
theorem Rewritten.virtToPhys (g : Rewritten u bytes s tag s' tag') (h : Forest s tag) (v : Nat) :
    pagingVirtToPhys s' v = pagingVirtToPhys s v := by
  rw [pagingVirtToPhys, pagingVirtToPhys, g.forest.virtToPhys_eq g.forest.root,
    h.virtToPhys_eq h.root, g.pml4, g.walks s.pml4 v h.root]

theorem physByte_page {x : Nat} (hx : x < pageSize) :
    physByte s (f * pageSize + x) = byteOf (s.mem f) x := by
  have hdiv : (f * pageSize + x) / pageSize = f := by
    simp only [pageSize] at *
    omega
  have hmod : (f * pageSize + x) % pageSize = x := by
    simp only [pageSize] at *
    omega
  rw [physByte, hdiv, hmod]

/-- What is read through the window is the frame that is mapped there. -/
theorem load_window (h : Forest s tag) (hf : tag f = none) (hb : bitmapTest s f = true)
    (hlt : f < 2 ^ 40)
    (hm : pagingMapPage im s kernelKmapWindow (f * pageSize) (pagePresent ||| pageWritable) = (true, s₁))
    {k : Nat} (hfit : off + k ≤ pageSize) :
    load (virtByte s₁) (kernelKmapWindow + off) k = load (physByte s) (f * pageSize + off) k := by
  obtain ⟨-, hsame, -⟩ := (window_edit h hf hb hlt hm).2 rfl
  refine List.map_congr_left fun i hi => ?_
  have hx : off + i < pageSize := by
    have := List.mem_range.mp hi
    omega
  rw [Nat.add_assoc, Nat.add_assoc, virtByte, mapped_byte h hlt (by decide) hm hx, physByte_page hx,
    physByte_page hx, hsame]

/-- What is read where memory is mapped to itself. -/
theorem load_direct {k : Nat} (h : ∀ a, phys ≤ a → a < phys + k → pagingVirtToPhys s a = a) :
    load (virtByte s) phys k = load (physByte s) phys k :=
  load_congr fun i hi => by rw [virtByte, h (phys + i) (by omega) (by omega)]

/-- The bytes of a turn and the ones of the turns after it are the bytes of the range. -/
theorem store_turn (g : Rewritten u [] s tag s' tag') (hown : OwnedRange s tag phys len) {k : Nat}
    (hk : k ≤ len) : store (store dest dst (load (physByte s) phys k)) (dst + k)
      (load (physByte s') (phys + k) (len - k)) = store dest dst (load (physByte s) phys len) := by
  have hrest : load (physByte s') (phys + k) (len - k) = load (physByte s) (phys + k) (len - k) := by
    refine load_congr fun i hi => ?_
    obtain ⟨-, ht, hb⟩ := hown (phys + k + i) (by omega) (by omega)
    rw [g.owned ht hb, store_nil]
  have happ := store_append dest dst (load (physByte s) phys k) (load (physByte s) (phys + k) (len - k))
  rw [length_load, ← load_add, Nat.add_sub_cancel' hk] at happ
  rw [hrest, happ]

/-- The window can be used where its page table was made. -/
theorem window_left {F : Nat → Prop} {W : Path → Prop} {s' : Vm} {tag' : Nat → Option Path}
    (g : Edited F W s tag s' tag') (h : Forest s tag) (hd : WindowDir s s.pml4)
    (hpt : ptOf s'.mem s.pml4 kernelKmapWindow ≠ none) : WindowDir s' s'.pml4 ∧ WindowOpens im s' := by
  refine ⟨g.pml4 ▸ g.windowDir h.root hd, Or.inl ?_⟩
  rw [g.pml4]
  exact hpt

/-- A frame is mapped in the window, read and unmapped. -/
theorem read_turn (off : Nat) (h : Forest s tag) (hwin : walk s.mem s.pml4 kernelKmapWindow = none)
    (hf : tag f = none) (hb : bitmapTest s f = true) (hlt : f < 2 ^ 40) (hoff : off ≤ pageSize)
    (hm : pagingMapPage im s kernelKmapWindow (f * pageSize) (pagePresent ||| pageWritable) = (true, s₁)) :
    (∃ tag', Rewritten (f * pageSize + off) [] s tag (pagingUnmapPage s₁ kernelKmapWindow) tag') ∧
      (WindowDir s s.pml4 → WindowDir (pagingUnmapPage s₁ kernelKmapWindow)
          (pagingUnmapPage s₁ kernelKmapWindow).pml4 ∧
        WindowOpens im (pagingUnmapPage s₁ kernelKmapWindow)) := by
  obtain ⟨-, hsame, hedit⟩ := (window_edit h hf hb hlt hm).2 rfl
  have hback : writeFrame s₁ f (s₁.mem f) = s₁ := by rw [writeFrame, Function.update_eq_self]
  obtain ⟨tag', g, -, hpt, -⟩ := hedit (s₁.mem f)
  obtain ⟨tag'', g'⟩ := window_turn off [] h hwin hf hb hoff hm (w := s₁.mem f)
    fun x _ => by rw [store_nil, hsame]
  rw [hback] at g hpt g'
  exact ⟨⟨tag'', g'⟩, fun hd => window_left g h hd hpt⟩

/-- Where `paging_copy_from_phys` returns 0, the physical bytes are in the destination, whichever
    way they were read. -/
theorem copyFromPhys_rewritten (h : Forest s tag) (hw : walk s.mem s.pml4 kernelKmapWindow = none)
    (hlim : limit % pageSize = 0) (hown : OwnedRange s tag phys len)
    (hdirect : ∀ a, phys ≤ a → a < phys + len → a < limit → pagingVirtToPhys s a = a)
    {dest' : Bytes.Memory} (hc : copyFromPhys im limit s dest dst phys len = (true, dest', s')) :
    dest' = store dest dst (load (physByte s) phys len) ∧ ∃ tag', Rewritten phys [] s tag s' tag' := by
  induction hn : len using Nat.strong_induction_on generalizing s tag phys dest dst len with
  | _ n ih =>
    subst hn
    rw [copyFromPhys] at hc
    split at hc
    · next h0 =>
      obtain ⟨-, hd⟩ := Prod.mk.inj hc
      obtain ⟨rfl, rfl⟩ := Prod.mk.inj hd
      rw [h0]
      exact ⟨(store_nil ..).symm, tag, .of_same _ h ⟨rfl, rfl, rfl, rfl⟩⟩
    next h0 =>
    obtain ⟨hphys, hoff, hk, hfit⟩ := chunk_fits phys len (by omega)
    obtain ⟨hlt, hf, hb⟩ := hown phys (Nat.le_refl _) (by omega)
    have hpage : pageOf phys + phys % pageSize = phys := hphys.symm
    dsimp only at hc
    set k := min (pageSize - phys % pageSize) len with hkdef
    -- the turns after this one, once it is known what this one did
    have hrest : ∀ {s₂ : Vm} {tag₂ : Nat → Option Path}, Rewritten phys [] s tag s₂ tag₂ →
        copyFromPhys im limit s₂ (store dest dst (load (physByte s) phys k)) (dst + k) (phys + k)
          (len - k) = (true, dest', s') →
        dest' = store dest dst (load (physByte s) phys len) ∧
          ∃ tag', Rewritten phys [] s tag s' tag' := fun {s₂ tag₂} g hc => by
      obtain ⟨hd, tag', g'⟩ := ih (len - k) (by omega) g.forest (g.window h hw)
        (hown.next g (by omega))
        (fun a hlo hhi ha => by rw [g.virtToPhys h]; exact hdirect a (by omega) (by omega) ha) hc rfl
      exact ⟨hd.trans (store_turn g hown (by omega)), tag', g.trans_nil g'⟩
    rw [hpage] at hc
    split at hc
    · next hlow =>
      rw [load_direct fun a hlo hhi => hdirect a hlo (by omega) ?_] at hc
      · have g : Rewritten phys [] s tag (touch s phys) tag := .of_same _ h ⟨rfl, rfl, rfl, rfl⟩
        exact hrest g hc
      · -- a page below the limit is there as a whole
        simp only [pageSize] at *
        omega
    · rcases hm : pagingMapPage im s kernelKmapWindow (phys / pageSize * pageSize)
        (pagePresent ||| pageWritable) with ⟨_ | _, s₁⟩
      · rw [pageOf, hm] at hc
        cases (Prod.mk.inj hc).1
      · have hflt : phys / pageSize < 2 ^ 40 := by
          simp only [pageSize]
          omega
        obtain ⟨⟨tag₁, g⟩, -⟩ := read_turn (phys % pageSize) h hw hf hb hflt hoff.le hm
        rw [← hphys] at g
        rw [pageOf, hm] at hc
        simp only [load_window h hf hb hflt hm hfit] at hc
        rw [← hphys] at hc
        exact hrest g hc

/-! ### The theorem -/

/-- A frame that was free and is now a table on the way to the window. -/
def NewTable (s s' : Vm) (f : Nat) : Prop := bitmapTest s f = false ∧ WindowTable s' f

/-- What became of memory and of the translations. Outside new tables the frames that are no tables
    have the bytes in the range and what they had elsewhere; an entry of an old table is another only
    where it was absent and is on the way to the window. -/
structure PhysExact (s : Vm) (tag : Nat → Option Path) (phys : Nat) (bytes : List UInt8) (s' : Vm) :
    Prop where
  bytes : ∀ a, tag (a / pageSize) = none → ¬ NewTable s s' (a / pageSize) →
    physByte s' a = store (physByte s) phys bytes a
  tables : ∀ t p i, tag t = some p → s'.mem t i = s.mem t i ∨
    has (s.mem t i) pagePresent = false ∧ WindowTable s t ∧ p ++ [i] <+: pathOf kernelKmapWindow
  walks : ∀ r v, tag r = some [] → walk s'.mem r v = walk s.mem r v
  pml4 : s'.pml4 = s.pml4

theorem Rewritten.exact (g : Rewritten phys bytes s tag s' tag') : PhysExact s tag phys bytes s' where
  bytes := fun a ht hnew => by
    cases hb : bitmapTest s (a / pageSize) with
    | true => exact g.owned ht hb
    | false => exact g.stored a fun hw => hnew ⟨hb, hw⟩
  tables := g.tables
  walks := g.walks
  pml4 := g.pml4

/-- The copies are exact, for a range of any length and wherever its pages begin and end. -/
theorem phys_copy_exact (h : Forest s tag) (hw : walk s.mem s.pml4 kernelKmapWindow = none)
    (hown : OwnedRange s tag phys len) :
    ((∀ a, phys ≤ a → a < phys + len → a < identityMapLimit → pagingVirtToPhys s a = a) →
      ∀ dest dst, (pagingCopyFromPhys im s dest dst phys len).1 = true →
        (pagingCopyFromPhys im s dest dst phys len).2.1 =
          store dest dst (load (physByte s) phys len) ∧
        PhysExact s tag phys [] (pagingCopyFromPhys im s dest dst phys len).2.2 ∧
        ((copyFromPhys im 0 s dest dst phys len).1 = true →
          (copyFromPhys im 0 s dest dst phys len).2.1 =
            (pagingCopyFromPhys im s dest dst phys len).2.1)) ∧
    (∀ src : List UInt8, src.length = len → (pagingWritePhys im s phys src).1 = true →
      PhysExact s tag phys src (pagingWritePhys im s phys src).2) ∧
    ((pagingClearPhysLen im s phys len).1 = true →
      PhysExact s tag phys (List.replicate len 0) (pagingClearPhysLen im s phys len).2) := by
  have hwrite : ∀ src : List UInt8, src.length = len → (pagingWritePhys im s phys src).1 = true →
      PhysExact s tag phys src (pagingWritePhys im s phys src).2 := fun src hlen hok => by
    obtain ⟨tag', g⟩ := pagingWritePhys_rewritten h hw (hlen ▸ hown) (Prod.ext hok rfl)
    exact g.exact
  refine ⟨fun hdirect dest dst hok => ?_, hwrite, fun hok => ?_⟩
  · obtain ⟨hbytes, tag', g⟩ := copyFromPhys_rewritten h hw (by decide) hown hdirect
      (Prod.ext hok rfl)
    refine ⟨hbytes, g.exact, fun hok' => ?_⟩
    obtain ⟨hbytes', -⟩ := copyFromPhys_rewritten h hw (Nat.zero_mod _) hown
      (fun _ _ _ ha => absurd ha (Nat.not_lt_zero _)) (Prod.ext hok' rfl)
    exact hbytes'.trans hbytes.symm
  · rw [pagingClearPhysLen_eq] at hok ⊢
    exact hwrite _ (List.length_replicate ..) hok

/-! ### Right after the boot code -/

/-- The frames and tables on which `paging_init` maps its first page. -/
abbrev bootVm : Vm := pagingInitFrames smallImage (fun _ _ => 0#64) mostMemory

/-- Where the window's directory is there and a table is left, bytes of a page can be written, and
    the window has its page table from then on. -/
theorem pagingWritePhys_opens (f off : Nat) (h : Forest s tag) (hf : tag f = none)
    (hb : bitmapTest s f = true) (hlt : f < 2 ^ 40) (hd : WindowDir s s.pml4)
    (ho : WindowOpens im s) (hne : bytes ≠ [])
    (hfit : off + bytes.length ≤ pageSize) :
    (pagingWritePhys im s (f * pageSize + off) bytes).1 = true ∧
      ptOf (pagingWritePhys im s (f * pageSize + off) bytes).2.mem s.pml4 kernelKmapWindow ≠ none := by
  have hpos : 0 < bytes.length := List.length_pos_iff.mpr hne
  have hpage : pageOf (f * pageSize + off) = f * pageSize := by
    simp only [pageOf, pageSize] at *
    omega
  have hmod : (f * pageSize + off) % pageSize = off := by
    simp only [pageSize] at *
    omega
  have hmin : min (pageSize - off) bytes.length = bytes.length := by omega
  obtain ⟨s₁, hm⟩ := window_room h f hd ho
  obtain ⟨hphys, -, hedit⟩ := (window_edit h hf hb hlt hm).2 rfl
  obtain ⟨-, -, -, hopen, -⟩ := hedit (withBytes (s₁.mem f) off bytes)
  rw [pagingWritePhys, if_neg hne]
  simp only [hpage, hmod, hmin, List.take_length, List.drop_length, hm, storeThrough, hphys]
  rw [pagingWritePhys, if_pos rfl]
  exact ⟨rfl, hopen⟩

theorem bootVm_window : walk bootVm.mem bootVm.pml4 kernelKmapWindow = none :=
  (early_initFrames smallImage (fun _ _ => 0#64) mostMemory).walk_absent (by decide)
    (by rw [(low_index (by decide)).2.2]; decide) rfl

/-- The first MiB is reserved, and holds no table. -/
theorem bootVm_low (hphys : phys + len ≤ 0x100000) : OwnedRange bootVm (bootTag smallImage) phys len := by
  intro a hlo hhi
  have hframe : a / pageSize < 0x100 := by
    simp only [pageSize]
    omega
  have htables : smallImage.pmlTable = 0x1f0 ∧ smallImage.pdpTable = 0x1f1 ∧ smallImage.pdTable = 0x1f2 := by
    decide
  refine ⟨by omega, ?_, ?_⟩
  · rw [bootTag, if_neg (by omega), if_neg (by omega), if_neg (by omega)]
  · rw [bitmapTest_initFrames, Bool.not_eq_true', decide_eq_false_iff_not]
    intro hspare
    have := hspare.image_lt
    omega

theorem bootVm_owned : OwnedRange bootVm (bootTag smallImage) 0x1000 1 := bootVm_low (by decide)

/-- The window's directory is the one of the boot code. -/
theorem bootVm_dir : descend nextTable bootVm.mem bootVm.pml4
    [pml4Index kernelKmapWindow, pdpIndex kernelKmapWindow] = some smallImage.pdTable := by
  have he := early_initFrames smallImage (fun _ _ => 0#64) mostMemory
  obtain ⟨h0, h1, -⟩ := @low_index kernelKmapWindow (by decide)
  rw [h0, h1, he.pml4, descend, he.root_next, Option.bind_some, descend, he.dir]
  rfl

theorem bootVm_opens : WindowDir bootVm bootVm.pml4 ∧ WindowOpens smallImage bootVm := by
  refine ⟨by rw [WindowDir, bootVm_dir]; exact Option.some_ne_none _, ?_⟩
  rcases (early_initFrames smallImage (fun _ _ => 0#64) mostMemory).allocTable with ⟨k, s', ha, -⟩ | ⟨-, hfew⟩
  · rw [WindowOpens, ha]
    exact Or.inr (Option.some_ne_none k)
  · have := spareTables_most
    omega

/-- A byte can be written there. -/
theorem bootVm_write : (pagingWritePhys smallImage bootVm 0x1000 [7]).1 = true ∧
    ptOf (pagingWritePhys smallImage bootVm 0x1000 [7]).2.mem bootVm.pml4 kernelKmapWindow ≠ none := by
  obtain ⟨-, hf, hb⟩ := bootVm_owned 0x1000 (by decide) (by decide)
  exact pagingWritePhys_opens 1 0 (forest_initFrames ..) hf hb (by decide) bootVm_opens.1 bootVm_opens.2
    (by decide) (by decide)

/-- Bytes that go over a page border are written page by page. -/
theorem pagingWritePhys_border (hne : bytes ≠ []) (hlen : phys % pageSize + bytes.length = pageSize) :
    pagingWritePhys im s phys (bytes ++ bytes') = match pagingWritePhys im s phys bytes with
      | (false, s) => (false, s)
      | (true, s) => pagingWritePhys im s (phys + bytes.length) bytes' := by
  have hchunk : min (pageSize - phys % pageSize) (bytes ++ bytes').length = bytes.length := by
    rw [List.length_append]
    omega
  have hchunk' : min (pageSize - phys % pageSize) bytes.length = bytes.length := by omega
  rw [pagingWritePhys, if_neg (by simp [hne]), pagingWritePhys.eq_def im s phys bytes, if_neg hne]
  simp only [hchunk, hchunk', List.take_left, List.take_length, List.drop_left, List.drop_length]
  rcases pagingMapPage im s kernelKmapWindow (pageOf phys) (pagePresent ||| pageWritable) with ⟨_ | _, s₁⟩
  · rfl
  · simp only
    rw [pagingWritePhys.eq_def im _ (phys + bytes.length) [], if_pos rfl]

/-- Four bytes, two on each side of a page border. -/
theorem phys_copy_exact_border : (pagingWritePhys smallImage bootVm 0x1ffe [1, 2, 3, 4]).1 = true ∧
    PhysExact bootVm (bootTag smallImage) 0x1ffe [1, 2, 3, 4]
      (pagingWritePhys smallImage bootVm 0x1ffe [1, 2, 3, 4]).2 := by
  have hforest := forest_initFrames smallImage (fun _ _ => 0#64) mostMemory
  obtain ⟨hd, ho⟩ := bootVm_opens
  obtain ⟨-, hf₁, hb₁⟩ := @bootVm_low 0x1000 1 (by decide) 0x1000 (by decide) (by decide)
  obtain ⟨-, hf₂, hb₂⟩ := @bootVm_low 0x2000 1 (by decide) 0x2000 (by decide) (by decide)
  obtain ⟨hok, hopen⟩ := pagingWritePhys_opens 1 0xffe hforest hf₁ hb₁ (by decide) hd ho
    (by decide) (show 0xffe + ([1, 2] : List UInt8).length ≤ pageSize by decide)
  rcases hc : pagingWritePhys smallImage bootVm 0x1ffe [1, 2] with ⟨ok, s₁⟩
  have hc' : pagingWritePhys smallImage bootVm (1 * pageSize + 0xffe) [1, 2] = (ok, s₁) := hc
  rw [hc'] at hok hopen
  obtain rfl : ok = true := hok
  obtain ⟨tag₁, g, -⟩ := pagingWritePhys_edited hforest hf₁ hb₁ (by decide) (by decide) (by decide) hc'
  have hd₁ : WindowDir s₁ s₁.pml4 := g.pml4.symm ▸ g.windowDir hforest.root hd
  obtain ⟨hok₂, -⟩ := pagingWritePhys_opens 2 0 g.forest (g.untagged _ hf₂ hb₂) (g.bits _ hb₂)
    (by decide) hd₁ (Or.inl (by rw [g.pml4]; exact hopen)) (by decide)
    (show 0 + ([3, 4] : List UInt8).length ≤ pageSize by decide)
  have hall : (pagingWritePhys smallImage bootVm 0x1ffe [1, 2, 3, 4]).1 = true := by
    rw [show ([1, 2, 3, 4] : List UInt8) = [1, 2] ++ [3, 4] from rfl, pagingWritePhys_border (by decide) (by decide), hc]
    exact hok₂
  exact ⟨hall, (phys_copy_exact hforest bootVm_window (bootVm_low (by decide))).2.1 _ rfl hall⟩

/-- The low byte of an entry that is present. -/
theorem byteOf_present {w : Fin 512 → Word} {i : Fin 512} (h : has (w i) pagePresent = true) :
    byteOf w (8 * i) ≠ 0 := by
  have hi : Fin.ofNat 512 (8 * i.val / 8) = i := by
    rw [Nat.mul_div_cancel_left _ (by decide)]
    exact Fin.ext (Nat.mod_eq_of_lt i.isLt)
  have hodd : (w i).toNat % 2 = 1 := by
    rw [has_present, BitVec.getLsbD, Nat.testBit_zero, decide_eq_true_eq] at h
    exact h
  rw [byteOf, hi, Nat.mul_mod_right, Nat.pow_zero, Nat.div_one]
  intro hc
  have := congrArg UInt8.toNat hc
  rw [UInt8.toNat_ofNat'] at this
  simp only [UInt8.reduceToNat] at this
  omega

/-- A directory of the window that was there points at a page table once the window has one. -/
theorem Rewritten.linked (hs : Forest s tag) (g : Rewritten phys bytes s tag s' tag')
    (hd : descend nextTable s.mem s.pml4 [pml4Index kernelKmapWindow, pdpIndex kernelKmapWindow] = some t)
    (hopen : ptOf s'.mem s.pml4 kernelKmapWindow ≠ none) :
    has (s'.mem t (pdIndex kernelKmapWindow)) pagePresent = true := by
  have hkeep : descend nextTable s'.mem s.pml4 [pml4Index kernelKmapWindow, pdpIndex kernelKmapWindow] =
      some t := by
    refine hs.tagged.descend_keep hs.root (by simp) (fun u p i c hu _ hc => ?_) hd
    rcases g.tables u p i hu with hsame | ⟨hno, -⟩
    · rw [hsame, hc]
    · rw [nextTable_none hno] at hc
      cases hc
  obtain ⟨k, hk⟩ := Option.ne_none_iff_exists'.mp hopen
  rw [ptOf, show tablePath kernelKmapWindow = [pml4Index kernelKmapWindow, pdpIndex kernelKmapWindow] ++
    [pdIndex kernelKmapWindow] from rfl, descend_append, hkeep, Option.bind_some, descend] at hk
  obtain ⟨c, hc, -⟩ := Option.bind_eq_some_iff.mp hk
  exact (nextTable_some hc).1

/-- The write of a byte links a page table for the window into the directory of the boot code, which
    was in use. -/
theorem write_links_table : Forest bootVm (bootTag smallImage) ∧
    walk bootVm.mem bootVm.pml4 kernelKmapWindow = none ∧
    OwnedRange bootVm (bootTag smallImage) 0x1000 1 ∧ pagingVirtToPhys bootVm 0x1000 = 0x1000 ∧
    (pagingWritePhys smallImage bootVm 0x1000 [7]).1 = true ∧
    bitmapTest bootVm smallImage.pdTable = true ∧
    physByte (pagingWritePhys smallImage bootVm 0x1000 [7]).2 (smallImage.pdTable * pageSize + 320) ≠
      store (physByte bootVm) 0x1000 [7] (smallImage.pdTable * pageSize + 320) := by
  have h := forest_initFrames smallImage (fun _ _ => 0#64) mostMemory
  obtain ⟨hok, hopen⟩ := bootVm_write
  rcases hc : pagingWritePhys smallImage bootVm 0x1000 [7] with ⟨ok, s'⟩
  rw [hc] at hok hopen
  obtain rfl : ok = true := hok
  obtain ⟨tag', g⟩ := pagingWritePhys_rewritten h bootVm_window bootVm_owned hc
  refine ⟨h, bootVm_window, bootVm_owned, initFrames_direct _ _ _ (by decide), rfl,
    (h.used _ [0, 0] (by decide)).2.2, ?_⟩
  have hindex : 320 = 8 * (pdIndex kernelKmapWindow).val := by decide
  have hnew := byteOf_present (g.linked h bootVm_dir hopen)
  have hentry : bootVm.mem smallImage.pdTable (pdIndex kernelKmapWindow) = 0#64 := by
    rw [(pagingInitFrames_spec smallImage (fun _ _ => 0#64) mostMemory).1, bootMemory_pd,
      if_neg (by decide), if_neg (by decide)]
  have hold : byteOf (bootVm.mem smallImage.pdTable) 320 = 0 := by
    rw [byteOf, show Fin.ofNat 512 (320 / 8) = pdIndex kernelKmapWindow from rfl, hentry]
    rfl
  rw [store_of_ge (by decide), physByte_page (by decide), physByte_page (by decide), hold, hindex]
  exact hnew

end TypeOS.Paging
