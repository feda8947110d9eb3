import TypeOS.Paging.Boot
import TypeOS.Paging.Clone

/-! Page-table updates are exact.

    From `paging_init` on, whatever is mapped, unmapped, cloned and switched to, the tables stay a
    forest. In a forest a page that was mapped translates to its frame, byte by byte, and no other
    page translates differently; an unmapped page translates nowhere. -/

namespace TypeOS.Paging
open Radix

/-- The states map, unmap, clone and switch operations reach from `paging_init`, with the roots
    of the address spaces there are. -/
inductive MapReach (im : Image) : Vm → List Nat → Prop
  | init (mem : Memory) (mb : MultibootInfo) : MapReach im (pagingInit im mem mb) [im.pmlTable]
  | map {s : Vm} {roots : List Nat} (virt phys : Nat) (flags : Word) (h : MapReach im s roots) :
    MapReach im (pagingMapPage im s virt phys flags).2 roots
  | mapUser {s : Vm} {roots : List Nat} (virt phys : Nat) (flags : Word)
    (h : MapReach im s roots) :
    MapReach im (pagingMapUserPage im s virt phys flags).2 roots
  | unmap {s : Vm} {roots : List Nat} (virt : Nat) (h : MapReach im s roots) :
    MapReach im (pagingUnmapPage s virt) roots
  | clone {s : Vm} {roots : List Nat} (copyUser : Bool) (h : MapReach im s roots) :
    MapReach im (pagingCloneCurrentAddressSpace im s copyUser).2
      ((pagingCloneCurrentAddressSpace im s copyUser).1.toList ++ roots)
  | switch {s : Vm} {roots : List Nat} (cr3 : Nat) (h : MapReach im s roots) (hr : cr3 ∈ roots) :
    MapReach im (pagingSwitchCr3 s cr3) roots

variable {im : Image} {s s' : Vm} {tag : Nat → Option Path} {roots : List Nat} {v u : Nat}

/-- The identity map of `paging_init` grows the forest. -/
theorem extendIdentityFrom_forest (im : Image) : ∀ (n addr : Nat) {s : Vm} {tag : Nat → Option Path},
    Forest s tag → ∃ tag', Forest (extendIdentityFrom im n addr s) tag' ∧
      (extendIdentityFrom im n addr s).pml4 = s.pml4 ∧ ∀ t p, tag t = some p → tag' t = some p
  | 0, _, _, tag, h => ⟨tag, h, rfl, fun _ _ h => h⟩
  | n + 1, addr, s, tag, h => by
    rcases hm : pagingMapPage im s addr addr (pagePresent ||| pageWritable) with ⟨ok, s₁⟩
    obtain ⟨tag₁, g⟩ := pagingMapPage_mapped h hm
    rw [extendIdentityFrom, hm]
    cases ok with
    | false => exact ⟨tag₁, g.forest, g.pml4, g.tags⟩
    | true =>
      obtain ⟨tag', h', hp, ht⟩ := extendIdentityFrom_forest im n (addr + pageSize) g.forest
      exact ⟨tag', h', hp.trans g.pml4, fun t p h => ht t p (g.tags t p h)⟩

theorem pagingInit_forest (im : Image) (mem : Memory) (mb : MultibootInfo) :
    ∃ tag, Forest (pagingInit im mem mb) tag ∧ (pagingInit im mem mb).pml4 = im.pmlTable ∧
      ∀ t p, bootTag im t = some p → tag t = some p := by
  obtain ⟨tag, h, hp, ht⟩ := extendIdentityFrom_forest im
    ((identity4kEnd - identity4kStart) / pageSize) identity4kStart
    (forest_initFrames im mem mb)
  exact ⟨tag, h, hp.trans (pagingInitFrames_spec im mem mb).2.1, ht⟩

/-- Every reachable state is a forest of which the known address spaces are roots. -/
theorem MapReach.forest (h : MapReach im s roots) :
    ∃ tag, Forest s tag ∧ ∀ r ∈ roots, tag r = some [] := by
  induction h with
  | init mem mb =>
    obtain ⟨tag, hf, -, ht⟩ := pagingInit_forest im mem mb
    refine ⟨tag, hf, fun r hr => ?_⟩
    rw [List.mem_singleton.mp hr]
    exact ht _ _ (by simp [bootTag])
  | map virt phys flags _ ih =>
    obtain ⟨tag, hf, hroots⟩ := ih
    obtain ⟨tag', g⟩ := pagingMapPage_mapped hf (Prod.mk.eta (p := pagingMapPage im _ virt phys flags)).symm
    exact ⟨tag', g.forest, fun r hr => g.tags r _ (hroots r hr)⟩
  | mapUser virt phys flags _ ih =>
    obtain ⟨tag, hf, hroots⟩ := ih
    obtain ⟨tag', g⟩ := pagingMapUserPage_mapped hf
      (Prod.mk.eta (p := pagingMapUserPage im _ virt phys flags)).symm
    exact ⟨tag', g.forest, fun r hr => g.tags r _ (hroots r hr)⟩
  | unmap virt _ ih =>
    obtain ⟨tag, hf, hroots⟩ := ih
    exact ⟨tag, (pagingUnmapPage_mapped hf virt).forest, hroots⟩
  | @clone s roots copyUser _ ih =>
    obtain ⟨tag, hf, hroots⟩ := ih
    rcases hc : pagingCloneCurrentAddressSpace im s copyUser with ⟨res, s'⟩
    cases copyUser with
    | true =>
      obtain ⟨tag', D, hcl, hres⟩ := cloneUser_spec hf hc
      refine ⟨tag', hcl.forest, fun r hr => ?_⟩
      rcases List.mem_append.mp hr with hr | hr
      · exact (hres r (Option.mem_toList.mp hr)).2.1
      · exact hcl.changed.tags r _ (hroots r hr)
    | false =>
      rcases cloneShared_spec hf hc with ⟨rfl, rfl⟩ | ⟨r', s₁, rfl, hfr, hs⟩
      · exact ⟨tag, hf, hroots⟩
      · have g := (cloneShared_forest hf hfr hs).1
        refine ⟨_, g.forest, fun r hr => ?_⟩
        rcases List.mem_append.mp hr with hr | hr
        · simp only [Option.toList_some, List.mem_singleton] at hr
          rw [hr, Function.update_self]
        · exact g.tags r _ (hroots r hr)
  | switch cr3 _ hr ih =>
    obtain ⟨tag, hf, hroots⟩ := ih
    exact ⟨tag, hf.switch (hroots cr3 hr), hroots⟩

/-! ### Addresses and their paths -/

/-- Below 2^48 the indices tell the pages apart. -/
theorem pathOf_inj (hu : u < 2 ^ 48) (hv : v < 2 ^ 48) (h : pathOf u = pathOf v) :
    u / pageSize = v / pageSize := by
  simp only [pathOf, pml4Index, pdpIndex, pdIndex, ptIndex, List.cons.injEq, and_true,
    Fin.ext_iff, Fin.val_ofNat] at h
  simp only [pageSize]
  omega

/-- A translation is that of the walk. -/
theorem Forest.phys_congr (h : Forest s tag) {tag' : Nat → Option Path} (h' : Forest s' tag')
    (hw : walk s'.mem s'.pml4 v = walk s.mem s.pml4 v) :
    pagingVirtToPhys s' v = pagingVirtToPhys s v := by
  rw [pagingVirtToPhys, pagingVirtToPhys, h'.virtToPhys_eq h'.root, h.virtToPhys_eq h.root, hw]

theorem Mapped.phys_other {tag' : Nat → Option Path} (h : Forest s tag)
    (g : Mapped (· = pathOf v) (· = pathOf v) s tag s' tag') (hne : pathOf u ≠ pathOf v) :
    pagingVirtToPhys s' u = pagingVirtToPhys s u := by
  refine h.phys_congr g.forest ?_
  rw [g.pml4]
  exact g.walks s.pml4 u h.root fun hc => hne hc.1

/-- `paging_pte_value` is the entry in the page table of the address. -/
theorem Forest.pteValue_eq (h : Forest s tag) (hp : has (pagingPteValue s v) pagePresent = true) :
    ∃ pt, ptOf s.mem s.pml4 v = some pt ∧ has (s.mem pt (ptIndex v)) pagePresent = true := by
  rw [pagingPteValue] at hp
  cases h4 : has (s.mem s.pml4 (pml4Index v)) pagePresent with
  | false => simp [h4] at hp
  | true =>
    obtain ⟨hn4, ht3⟩ := h.child h.root (by simp) h4 (by simp)
    rw [h4, if_neg (by simp)] at hp
    simp only at hp
    cases h3 : has (s.mem (entryFrame (s.mem s.pml4 (pml4Index v))) (pdpIndex v)) pagePresent with
    | false => simp [h3] at hp
    | true =>
      obtain ⟨hn3, ht2⟩ := h.child ht3 (by simp) h3 (by simp)
      rw [h3, if_neg (by simp)] at hp
      split at hp
      · simp at hp
      · next hc =>
        simp only [Bool.or_eq_true, Bool.not_eq_true', not_or, Bool.not_eq_false,
          Bool.not_eq_true] at hc
        obtain ⟨hn2, -⟩ := h.child ht2 (by simp) hc.1 fun _ => hc.2
        refine ⟨entryFrame (s.mem (entryFrame (s.mem (entryFrame (s.mem s.pml4 (pml4Index v)))
          (pdpIndex v))) (pdIndex v)), ?_, hp⟩
        simp only [ptOf, tablePath, descend, hn4, hn3, hn2, Option.bind_some]

/-- A page that translates nowhere has no entry. -/
theorem Forest.pteValue_none (h : Forest s tag) (hw : walk s.mem s.pml4 v = none) :
    has (pagingPteValue s v) pagePresent = false := by
  by_contra hc
  rw [Bool.not_eq_false] at hc
  obtain ⟨pt, hpt, hpr⟩ := h.pteValue_eq hc
  rw [walk_ptOf hpt, if_pos hpr] at hw
  simp at hw

/-! ### The theorem -/

/-- What one mapping does to every translation. -/
def MapExact (s : Vm) (virt phys : Nat) (r : Bool × Vm) : Prop :=
  (r.1 = true → (∀ o < pageSize, pagingVirtToPhys r.2 (virt + o) = phys + o) ∧
    ∀ u < 2 ^ 48, u / pageSize ≠ virt / pageSize →
      pagingVirtToPhys r.2 u = pagingVirtToPhys s u) ∧
  (r.1 = false → ∀ u, pagingVirtToPhys r.2 u = pagingVirtToPhys s u)

theorem pagingMapPageFlags_exact (h : Forest s tag) {phys : Nat} {flags tfl : Word}
    (hfl : TableFlags tfl) (hv : v % pageSize = 0) (hp : phys % pageSize = 0) (hvlt : v < 2 ^ 48)
    (hplt : phys < 2 ^ 52) (hpr : has flags pagePresent = true)
    (haddr : flags &&& pteAddrMask = 0#64) :
    MapExact s v phys (pagingMapPageFlags im s v phys flags tfl) := by
  rcases hm : pagingMapPageFlags im s v phys flags tfl with ⟨ok, s'⟩
  obtain ⟨tag', g⟩ := pagingMapPageFlags_mapped h hfl hm
  refine ⟨fun hok => ⟨fun o ho => ?_, fun u hu hne => ?_⟩, fun hok u => ?_⟩
  · obtain rfl : ok = true := hok
    have hphys : phys = phys / pageSize * pageSize := by simp only [pageSize] at *; omega
    rw [hphys] at hm ⊢
    refine mapped_phys h ?_ hfl hpr haddr hm ho hv (pathOf_same ?_)
    · simp only [pageSize]; omega
    · simp only [pageSize] at *; omega
  · exact Mapped.phys_other h g fun hc => hne (pathOf_inj hu hvlt hc)
  · obtain rfl : ok = false := hok
    rcases pagingMapPageFlags_spec h hfl hm with ⟨-, tag₁, g⟩ | ⟨hc, -⟩
    · refine h.phys_congr g.forest ?_
      rw [g.pml4]
      exact g.walks s.pml4 u h.root fun hc => hc.1
    · simp at hc

/-- In every reachable state, mapping a page changes the translation of exactly that page, to the
    frame asked for, or fails and changes none; unmapping a page that has an entry of its own
    takes the translation from exactly that page. -/
theorem map_exact (h : MapReach im s roots) :
    (∀ virt phys : Nat, ∀ flags : Word, virt % pageSize = 0 → phys % pageSize = 0 →
      virt < 2 ^ 48 → phys < 2 ^ 52 → has flags pagePresent = true →
      flags &&& pteAddrMask = 0#64 →
      MapExact s virt phys (pagingMapPage im s virt phys flags) ∧
      MapExact s virt phys (pagingMapUserPage im s virt phys flags)) ∧
    ∀ virt < 2 ^ 48, has (pagingPteValue s virt) pagePresent = true →
      (∀ u, u / pageSize = virt / pageSize → pagingVirtToPhys (pagingUnmapPage s virt) u = 0 ∧
        has (pagingPteValue (pagingUnmapPage s virt) u) pagePresent = false) ∧
      ∀ u < 2 ^ 48, u / pageSize ≠ virt / pageSize →
        pagingVirtToPhys (pagingUnmapPage s virt) u = pagingVirtToPhys s u := by
  obtain ⟨tag, hf, -⟩ := h.forest
  refine ⟨fun virt phys flags hv hp hvlt hplt hpr haddr => ⟨?_, ?_⟩, fun virt hv hpte => ?_⟩
  · exact pagingMapPageFlags_exact hf tableFlags_kernel hv hp hvlt hplt hpr haddr
  · refine pagingMapPageFlags_exact hf tableFlags_user hv hp hvlt hplt ?_ ?_
    · rw [has_present] at hpr ⊢
      rw [BitVec.getLsbD_or, hpr, Bool.true_or]
    · rw [BitVec.and_or_distrib_right, haddr]; rfl
  · obtain ⟨pt, hpt, -⟩ := hf.pteValue_eq hpte
    have g := pagingUnmapPage_mapped hf virt
    refine ⟨fun u hu => ?_, fun u hu hne => Mapped.phys_other hf g fun hc => hne (pathOf_inj hu hv hc)⟩
    have hw : walk (pagingUnmapPage s virt).mem (pagingUnmapPage s virt).pml4 u = none := by
      rw [g.pml4, walk, pathOf_same hu]
      exact pagingUnmapPage_walk hf hpt
    refine ⟨?_, g.forest.pteValue_none hw⟩
    rw [pagingVirtToPhys, g.forest.virtToPhys_eq g.forest.root, hw]
    rfl

/-- An image of 1 MiB with the boot tables at its end. -/
def smallImage : Image := ⟨0x1f0, 0x200000, by decide, by decide, by decide⟩

theorem map_exact_small :
    MapExact (pagingInit smallImage (fun _ _ => 0#64) ⟨none, []⟩) 0x12345000 0x800000
      (pagingMapPage smallImage (pagingInit smallImage (fun _ _ => 0#64) ⟨none, []⟩) 0x12345000
        0x800000 (pagePresent ||| pageWritable)) :=
  ((map_exact (MapReach.init (fun _ _ => 0#64) ⟨none, []⟩)).1 0x12345000 0x800000
    (pagePresent ||| pageWritable) (by decide) (by decide) (by decide) (by decide) (by decide)
    (by decide)).1

end TypeOS.Paging
