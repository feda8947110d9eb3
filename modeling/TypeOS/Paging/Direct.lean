import TypeOS.Paging.EarlyUser

/-! Direct accesses that reach what they mean.

    The tables are zeroed, read and written through their physical addresses, so these must be mapped
    to themselves. After `paging_init` that is so below `IDENTITY_4K_END`. Where all the frames that are
    left and all the tables lie there (`Low`), an operation that maps or unmaps pages elsewhere makes no
    access that goes astray, and leaves it so. -/

namespace TypeOS.Paging
open FirstFit Radix

variable {im : Image} {mem : Memory} {mb : MultibootInfo} {s s' s'' s₁ s₂ s₃ : Vm}
  {tag tag' tag₂ : Nat → Option Path} {pt : Fin 512 → Option Nat} {t f v a m n j phys : Nat} {p : Path}
  {i : Fin 512} {fl flags : Word} {ok : Bool}

/-- The direct accesses between two states reached the addresses that were meant. -/
def Lands (s s' : Vm) : Prop := ∃ l, s'.direct = l ++ s.direct ∧ ∀ x ∈ l, x.2 = x.1

theorem Lands.same (h : s'.direct = s.direct) : Lands s s' := ⟨[], h, by simp⟩

theorem Lands.refl (s : Vm) : Lands s s := .same rfl

theorem Lands.trans (h : Lands s s') (h' : Lands s' s'') : Lands s s'' := by
  obtain ⟨l, hl, hall⟩ := h
  obtain ⟨l', hl', hall'⟩ := h'
  refine ⟨l' ++ l, by rw [hl', hl, List.append_assoc], fun x hx => ?_⟩
  rcases List.mem_append.mp hx with hx | hx
  · exact hall' x hx
  · exact hall x hx

theorem Lands.direct (h : Lands s s') (hd : s''.direct = s'.direct) : Lands s s'' :=
  h.trans (.same hd)

theorem Lands.touch (h : pagingVirtToPhys s a = a) : Lands s (touch s a) :=
  ⟨[(a, pagingVirtToPhys s a)], rfl, fun x hx => by rw [List.mem_singleton.mp hx]; exact h⟩

/-- Addresses below `IDENTITY_4K_END` are mapped to themselves, and the tables and the frames that are
    left lie there. -/
structure Low (s : Vm) (tag : Nat → Option Path) : Prop where
  forest : Forest s tag
  ident : ∀ a < identity4kEnd, pagingVirtToPhys s a = a
  tables : ∀ t p, tag t = some p → t < identity4kEnd / pageSize
  free : ∀ f, bitmapTest s f = false → f < identity4kEnd / pageSize

theorem low_addr (h : f < identity4kEnd / pageSize) : f * pageSize < identity4kEnd := by
  simp only [identity4kEnd, pageSize] at *
  omega

/-- Pages above are none of those below. -/
theorem path_above (hv : identity4kEnd ≤ v) (hlt : v < 2 ^ 48) (ha : a < identity4kEnd) :
    pathOf a ≠ pathOf v := by
  intro h
  have hpage := pathOf_inj (by simp only [identity4kEnd] at ha; omega) hlt h
  simp only [identity4kEnd, pageSize] at *
  omega

/-- An operation that changes translations above only leaves it so. -/
theorem Low.changed {E W : Path → Prop} (h : Low s tag) (g : Changed E W s tag s' tag')
    (hW : ∀ a < identity4kEnd, ¬ W (pathOf a)) : Low s' tag' where
  forest := g.forest
  ident a ha := by
    refine (h.forest.phys_congr g.forest ?_).trans (h.ident a ha)
    rw [g.pml4]
    exact g.walks s.pml4 a h.forest.root fun hc => hW a ha hc.1
  tables t p ht := by
    rcases hp : tag t with _ | q
    · exact h.free t (g.fresh t p hp ht)
    · exact h.tables t q hp
  free f hf := by
    refine h.free f ?_
    by_contra hb
    rw [g.bits f (Bool.not_eq_false _ ▸ hb)] at hf
    cases hf

theorem Low.table (h : Low s tag) (ht : tag t = some p) : pagingVirtToPhys s (t * pageSize) = t * pageSize :=
  h.ident _ (low_addr (h.tables t p ht))

/-! ### Mapping and unmapping -/

/-- A table is zeroed where its frame is mapped to itself. -/
theorem allocTable_lands (hnull : bitmapTest s 0 = true) (hf : ∀ f, (pagingAllocTable im s).1 = some f →
    pagingVirtToPhys s (f * pageSize) = f * pageSize) : Lands s (pagingAllocTable im s).2 := by
  rcases pagingAllocTable_cases im hnull with ⟨ha, -⟩ | ⟨f, ha, -⟩
  · rw [ha]
    exact .refl s
  · have hself := hf f (by rw [ha])
    have hset : Lands s (bitmapSet s f) := .same (sameMemory_bitmapSet s f).2.2
    rw [ha]
    refine hset.trans ((Lands.touch ?_).direct rfl)
    rw [pagingVirtToPhys, bitmapSet_mem, bitmapSet_pml4]
    exact hself

theorem Low.allocTable (h : Low s tag) : Lands s (pagingAllocTable im s).2 := by
  refine allocTable_lands h.forest.null fun f hf => h.ident _ (low_addr (h.free f ?_))
  exact (pagingAllocTable_some h.forest.null (Prod.mk.eta (p := pagingAllocTable im s) ▸
    Prod.ext hf rfl : pagingAllocTable im s = (some f, (pagingAllocTable im s).2))).free

theorem Low.getOrCreateTable (h : Low s tag) (ht : tag t = some p) (hp : p.length < 3) :
    Lands s (getOrCreateTable im s t i fl).2 := by
  rw [Paging.getOrCreateTable]
  split
  · next hpr =>
    split
    · exact .refl s
    · next hh =>
      have hchild := (h.forest.child ht hp hpr fun _ => Bool.not_eq_true _ ▸ hh).2
      exact Lands.touch (h.table hchild)
  · have hland : Lands s (pagingAllocTable im s).2 := h.allocTable
    split
    · next ha =>
      rw [ha] at hland
      exact hland
    · next ha =>
      rw [ha] at hland
      exact hland.direct rfl

theorem Low.splitHugePage (h : Low s tag) : Lands s (splitHugePage im s t i).2 := by
  rw [Paging.splitHugePage]
  dsimp only
  split
  · exact .refl s
  · have hland : Lands s (pagingAllocTable im s).2 := h.allocTable
    split
    · next ha =>
      rw [ha] at hland
      exact hland
    · next ha =>
      rw [ha] at hland
      exact hland.direct rfl

/-- Tables made or gone through on the way to a page are reached. -/
theorem Low.mapPageFlags (h : Low s tag) (hfl : TableFlags fl) :
    Lands s (pagingMapPageFlags im s v phys flags fl).2 := by
  have hgrow : ∀ {s s' : Vm} {tag tag' : Nat → Option Path}, Low s tag →
      Grown (tablePath v) s tag s' tag' → Low s' tag' :=
    fun h g => h.changed g.toChanged fun _ _ => id
  rw [pagingMapPageFlags]
  split
  · exact .refl s
  have h1 : Lands s (Paging.getOrCreateTable im s s.pml4 (pml4Index v) fl).2 :=
    h.getOrCreateTable h.forest.root (by simp)
  rcases hg1 : Paging.getOrCreateTable im s s.pml4 (pml4Index v) fl with ⟨_ | pdpt, s₁⟩
  · rw [hg1] at h1
    exact h1
  rw [hg1] at h1
  obtain ⟨tag₁, g1, ht1, hn1⟩ := getOrCreateTable_some (tablePath v) h.forest h.forest.root rfl (by simp)
    ⟨[pdpIndex v, pdIndex v], rfl⟩ hfl hg1
  have hd1 : descend nextTable s₁.mem s₁.pml4 [pml4Index v] = some pdpt := by
    rw [descend, g1.pml4, hn1]
    rfl
  have hl1 := hgrow h g1
  have h2 : Lands s₁ (Paging.getOrCreateTable im s₁ pdpt (pdpIndex v) fl).2 :=
    hl1.getOrCreateTable ht1 (by simp)
  dsimp only
  rcases hg2 : Paging.getOrCreateTable im s₁ pdpt (pdpIndex v) fl with ⟨_ | pd, s₂⟩
  · rw [hg2] at h2
    exact h1.trans h2
  rw [hg2] at h2
  obtain ⟨tag₂, g2, ht2, hn2⟩ := getOrCreateTable_some (tablePath v) hl1.forest ht1 hd1
    (by simp) ⟨[pdIndex v], rfl⟩ hfl hg2
  have hd2 : descend nextTable s₂.mem s₂.pml4 [pml4Index v, pdpIndex v] = some pd := by
    have := g2.descend hl1.forest hl1.forest.root (by simp) hd1
    rw [g2.pml4, show [pml4Index v, pdpIndex v] = [pml4Index v] ++ [pdpIndex v] from rfl,
      descend_append, this, Option.bind_some, descend, hn2]
    rfl
  have hl2 := hgrow hl1 g2
  have h3 : Lands s₂ (Paging.splitHugePage im s₂ pd (pdIndex v)).2 := hl2.splitHugePage
  dsimp only
  rcases hg3 : Paging.splitHugePage im s₂ pd (pdIndex v) with ⟨ok3, s₃⟩
  rw [hg3] at h3
  have h13 := (h1.trans h2).trans h3
  cases ok3 with
  | false => exact h13
  | true =>
    obtain ⟨tag₃, g3⟩ := splitHugePage_grown (tablePath v) hl2.forest ht2 hd2 rfl List.prefix_rfl hg3
    have h4 : Lands s₃ (Paging.getOrCreateTable im s₃ pd (pdIndex v) fl).2 :=
      (hgrow hl2 g3).getOrCreateTable (g3.tags pd _ ht2) (by simp)
    dsimp only
    rcases hg4 : Paging.getOrCreateTable im s₃ pd (pdIndex v) fl with ⟨_ | pt, s₄⟩
    · rw [hg4] at h4
      exact h13.trans h4
    · rw [hg4] at h4
      exact (h13.trans h4).direct rfl

theorem Low.unmapPage (h : Low s tag) (v : Nat) : Lands s (pagingUnmapPage s v) := by
  rw [pagingUnmapPage]
  cases h4 : has (s.mem s.pml4 (pml4Index v)) pagePresent with
  | false => exact .refl s
  | true =>
    obtain ⟨-, ht3⟩ := h.forest.child h.forest.root (by simp) h4 (by simp)
    set pdpt := entryFrame (s.mem s.pml4 (pml4Index v))
    have hpdpt : Lands s (touch s (pdpt * pageSize)) := Lands.touch (h.table ht3)
    simp only [Bool.not_true, Bool.false_eq_true, if_false]
    cases h3 : has ((touch s (pdpt * pageSize)).mem pdpt (pdpIndex v)) pagePresent with
    | false => exact hpdpt
    | true =>
      obtain ⟨-, ht2⟩ := h.forest.child ht3 (by simp) h3 (by simp)
      set pd := entryFrame ((touch s (pdpt * pageSize)).mem pdpt (pdpIndex v))
      have hpd := hpdpt.trans (Lands.touch (s := touch s (pdpt * pageSize)) (h.table ht2))
      simp only [Bool.not_true, Bool.false_eq_true, if_false]
      split
      · exact hpd
      · next hc =>
        simp only [Bool.or_eq_true, Bool.not_eq_true', not_or, Bool.not_eq_false,
          Bool.not_eq_true] at hc
        obtain ⟨-, ht1⟩ := h.forest.child ht2 (by simp) hc.1 fun _ => hc.2
        exact (hpd.trans (Lands.touch (s := touch (touch s _) _) (h.table ht1))).direct rfl

/-! ### Fresh pages -/

theorem window_above (ha : a < identity4kEnd) : pathOf a ≠ pathOf kernelKmapWindow :=
  path_above (by decide) (by decide) ha

/-- A frame that was free is cleared through the window. -/
theorem Low.clearPhys (h : Low s tag) (hfree : bitmapTest s f = false) (hlt : f < 2 ^ 40)
    (hc : pagingClearPhys im (bitmapSet s f) (f * pageSize) = (ok, s₂)) :
    Lands s s₂ ∧ ∃ tag₂, Low s₂ tag₂ := by
  have hW : ∀ a < identity4kEnd, ¬ (fun π => π = pathOf kernelKmapWindow) (pathOf a) :=
    fun a ha => window_above ha
  have hf := h.forest.untagged hfree
  have hb : bitmapTest (bitmapSet s f) f = true := by
    rw [bitmapTest_bitmapSet, decide_eq_true rfl, Bool.true_or]
  have htake : Mapped (fun _ => True) (· = pathOf kernelKmapWindow) s tag (bitmapSet s f) tag :=
    Mapped.take h.forest f
  have h₁ := h.changed htake.toChanged hW
  obtain ⟨tag₂, g, -⟩ := pagingClearPhys_mapped (W := fun π => π = pathOf kernelKmapWindow) rfl h.forest htake hfree hf hb hlt hc
  refine ⟨?_, tag₂, h.changed g.toChanged hW⟩
  have hset : Lands s (bitmapSet s f) := .same (sameMemory_bitmapSet s f).2.2
  have hmap : Lands (bitmapSet s f) (pagingMapPageFlags im (bitmapSet s f) kernelKmapWindow (f * pageSize)
      (pagePresent ||| pageWritable) (pagePresent ||| pageWritable)).2 :=
    h₁.mapPageFlags tableFlags_kernel
  rw [pagingClearPhys, pagingMapPage] at hc
  rcases hm : pagingMapPageFlags im (bitmapSet s f) kernelKmapWindow (f * pageSize)
    (pagePresent ||| pageWritable) (pagePresent ||| pageWritable) with ⟨okm, s₁⟩
  rw [hm] at hc hmap
  cases okm with
  | false =>
    obtain ⟨-, rfl⟩ := Prod.mk.inj hc
    exact hset.trans hmap
  | true =>
    obtain ⟨-, rfl⟩ := Prod.mk.inj hc
    obtain ⟨tag₁, g1⟩ := pagingMapPage_mapped h₁.forest hm
    have h1 := htake.trans h.forest (g1.mono (fun π _ => ⟨π, trivial, List.prefix_rfl⟩) fun _ hπ => hπ)
    have hfill := h.changed (h1.fill (w := fun _ => 0#64) hfree (g1.untagged hf hb)).toChanged hW
    have hclear : clearThrough s₁ kernelKmapWindow = writeFrame s₁ f fun _ => 0#64 := by
      rw [clearThrough, mapped_frame h₁.forest hlt (by decide) hm]
    rw [hclear]
    exact ((hset.trans hmap).direct rfl).trans (hfill.unmapPage kernelKmapWindow)

/-- A page above is granted. -/
theorem Low.grant (h : Low s tag) (hv : identity4kEnd ≤ v) (hlt : v < 2 ^ 48)
    (ha : pagingAllocPage s = (some a, s₁)) (hc : pagingClearPhys im s₁ a = (ok, s₂)) :
    Lands s s₂ ∧ ∀ okm s₃, pagingMapUserPage im s₂ v a flags = (okm, s₃) →
      Lands s s₃ ∧ (okm = true → ∃ tag₃, Low s₃ tag₃) := by
  obtain ⟨f, rfl, hf40, hfree, -, rfl, -⟩ := allocPage_fresh h.forest ha
  obtain ⟨hclear, tag₂, h₂⟩ := h.clearPhys hfree hf40 hc
  refine ⟨hclear, fun okm s₃ hm => ?_⟩
  have hmap : Lands s₂ (pagingMapUserPage im s₂ v (f * pageSize) flags).2 := h₂.mapPageFlags tableFlags_user
  rw [hm] at hmap
  refine ⟨hclear.trans hmap, fun _ => ?_⟩
  obtain ⟨tag₃, g⟩ := pagingMapUserPage_mapped h₂.forest hm
  exact ⟨tag₃, h₂.changed g.toChanged fun a ha => path_above hv hlt ha⟩

theorem freePage_direct (s : Vm) (a : Nat) : (pagingFreePage s a).direct = s.direct := by
  rw [pagingFreePage]
  split
  · rfl
  split
  · exact (sameMemory_bitmapClear s _).2.2
  · rfl

/-! ### After boot -/

/-- Mapping a page goes by the boot tables to a page table, which all lie where they are mapped to
    themselves. -/
theorem Early.mapPage_lands (h : Early im mem mb n pt s) (hv : v % pageSize = 0)
    (hphys : phys % pageSize = 0) (h0 : pml4Index v = 0) (h1 : pdpIndex v = 0) (h2 : 2 ≤ (pdIndex v).val)
    (hself : ∀ f, f ≤ im.pdTable ∨ Spare im mb f ∧ spareRank im mb f ≤ n →
      pagingVirtToPhys s (f * pageSize) = f * pageSize) :
    Lands s (pagingMapPageFlags im s v phys flags fl).2 := by
  have hpdp := hself im.pdpTable (Or.inl (by simp only [Image.pdTable, Image.pdpTable]; omega))
  have hdir : Lands s (Paging.onDir im s) :=
    (Lands.touch hpdp).trans (Lands.touch (s := Paging.touch s _) (hself im.pdTable (Or.inl le_rfl)))
  rcases ht : pt (pdIndex v) with _ | t
  · have habs := h.onDir.absent _ h2 ht
    have halloc : Lands (Paging.onDir im s) (pagingAllocTable im (Paging.onDir im s)).2 := by
      refine allocTable_lands h.onDir.null fun f hf => ?_
      rcases h.onDir.allocTable with ⟨k, s', hall, hk, hrank, -⟩ | ⟨hall, -⟩
      · rw [hall] at hf
        obtain rfl := Option.some.inj hf
        exact hself k (Or.inr ⟨hk, hrank.le⟩)
      · rw [hall] at hf
        cases hf
    rcases hall : pagingAllocTable im (Paging.onDir im s) with ⟨_ | k, s'⟩
    · have hget : getOrCreateTable im (Paging.onDir im s) im.pdTable (pdIndex v) fl = (none, s') := by
        rw [getOrCreateTable]
        simp only [habs, hall, Bool.false_eq_true, if_false]
      rw [hall] at halloc
      rw [h.mapPage_dir flags fl hv hphys h0 h1 (splitHugePage_absent habs) hget]
      exact hdir.trans halloc
    · have hget : getOrCreateTable im (Paging.onDir im s) im.pdTable (pdIndex v) fl =
          (some k, writeEntry s' im.pdTable (pdIndex v) (frameWord k ||| fl)) := by
        rw [getOrCreateTable]
        simp only [habs, hall, Bool.false_eq_true, if_false]
      rw [hall] at halloc
      rw [h.mapPage_dir flags fl hv hphys h0 h1 (splitHugePage_absent habs) hget]
      exact (hdir.trans halloc).direct rfl
  · obtain ⟨hnext, hs, hrank⟩ := h.onDir.table _ t ht
    have hpos : 0 < t := lt_of_le_of_lt (Nat.zero_le _) hs.image_lt
    rw [h.mapPage_dir flags fl hv hphys h0 h1 (splitHugePage_next hnext) (getOrCreateTable_next hnext hpos)]
    have hpt := Lands.touch (s := Paging.onDir im s) (hself t (Or.inr ⟨hs, hrank.le⟩))
    exact (hdir.trans hpt).direct rfl

/-- Where the tables of the identity map lie below 4 MiB, each page of it is mapped by accesses that
    reach what they mean, and in the end all of it is mapped to itself. -/
theorem Early.identity_low (hroom : 30 < spareRank im mb (identity4kStart / pageSize)) (m : Nat) :
    ∀ {j : Nat} {s : Vm} {pt : Fin 512 → Option Nat} {tag : Nat → Option Path}, j + m = 15360 →
    Early im mem mb ((j + 511) / 512) pt s → Tables ((j + 511) / 512) pt → Forest s tag →
    (∀ t p, tag t = some p → t < identity4kStart / pageSize) →
    (∀ a < identity4kStart + j * pageSize, pagingVirtToPhys s a = a) →
    Lands s (extendIdentityFrom im m (identity4kStart + j * pageSize) s) ∧
    ∃ tag', Forest (extendIdentityFrom im m (identity4kStart + j * pageSize) s) tag' ∧
      (∀ t p, tag' t = some p → t < identity4kStart / pageSize) ∧
      ∀ a < identity4kEnd,
        pagingVirtToPhys (extendIdentityFrom im m (identity4kStart + j * pageSize) s) a = a := by
  have hlimit : 30 < spareTables im mb := lt_of_lt_of_le hroom (rank_le (by decide))
  have hbelow : ∀ f, spareRank im mb f ≤ 30 → f < identity4kStart / pageSize := by
    intro f hf
    by_contra hge
    have : spareRank im mb (identity4kStart / pageSize) ≤ spareRank im mb f := rank_le (not_lt.mp hge)
    omega
  induction m with
  | zero =>
    intro j s pt tag hj h ht hf htags hid
    obtain rfl : j = 15360 := hj
    exact ⟨.refl s, tag, hf, htags, hid⟩
  | succ m ih =>
    intro j s pt tag hj h ht hf htags hid
    set v := identity4kStart + j * pageSize with hv
    have hval : v = 0x400000 + j * 4096 := hv
    obtain ⟨h0, h1, hi⟩ := @low_index v (by omega)
    have hal : v % pageSize = 0 := by
      simp only [pageSize]
      omega
    have hland : Lands s (pagingMapPage im s v v (pagePresent ||| pageWritable)).2 := by
      refine h.mapPage_lands hal hal h0 h1 (by omega) fun f hlow => hid _ ?_
      have hlt : f < identity4kStart / pageSize := by
        rcases hlow with hle | ⟨-, hrank⟩
        · obtain ⟨k, hk, hspare, -⟩ := @exists_rank (spare im mb) 0 _ (lt_of_le_of_lt (Nat.zero_le _) hroom)
          have := (spare_eq_true.mp hspare).image_lt
          omega
        · exact hbelow f (by omega)
      simp only [identity4kStart, pageSize] at hlt ⊢
      omega
    rw [extendIdentityFrom]
    rcases h.identity_step rfl (by omega) ht (by omega) with
      ⟨pt', s₁, hmap, h', ht', -⟩ | ⟨s₁, -, -, hle⟩
    · rw [← hv] at hmap
      obtain ⟨tag₁, g⟩ := pagingMapPage_mapped hf hmap
      have hnext : v + pageSize = identity4kStart + (j + 1) * pageSize := by
        rw [hv]
        ring
      rw [hmap] at hland
      simp only [hmap]
      rw [hnext]
      have htags' : ∀ t p, tag₁ t = some p → t < identity4kStart / pageSize := by
        intro t p htag
        rcases hold : tag t with _ | q
        · refine hbelow t ?_
          have hused := (g.forest.used t p htag).2.2
          have hfree := g.fresh t p hold htag
          rw [h.bits, Bool.not_eq_false', left_eq_true] at hfree
          rw [h'.bits, Bool.not_eq_true', left_eq_false] at hused
          have hrank : spareRank im mb t < (j + 1 + 511) / 512 := hused hfree.1
          omega
        · exact htags t q hold
      have hid' : ∀ a < identity4kStart + (j + 1) * pageSize, pagingVirtToPhys s₁ a = a := by
        intro a ha
        rw [← hnext] at ha
        simp only [pageSize] at ha hal
        rcases Nat.lt_or_ge a v with hlt | hge
        · refine (Mapped.phys_other hf g fun hc => ?_).trans (hid a hlt)
          have hpage := pathOf_inj (by omega) (by omega) hc
          simp only [pageSize] at hpage
          omega
        · have hframe : v / pageSize * pageSize = v := by
            simp only [pageSize]
            omega
          have hbyte := @mapped_byte im s s₁ tag v hf (v / pageSize) (by simp only [pageSize]; omega)
            (by simpa only [pageSize] using hal) (by rw [hframe]; exact hmap) (a - v)
            (by simp only [pageSize]; omega)
          rwa [hframe, Nat.add_sub_cancel' hge] at hbyte
      obtain ⟨hlands, hrest⟩ := ih (by omega) h' ht' g.forest htags' hid'
      exact ⟨hland.trans hlands, hrest⟩
    · omega

/-- Where no memory lies above `IDENTITY_4K_END` and the tables of the identity map fit below 4 MiB,
    `paging_init` makes no access that goes astray, and none of the frames it leaves lies above. -/
theorem low_init (im : Image) (mem : Memory) (mb : MultibootInfo)
    (hroom : 30 < spareRank im mb (identity4kStart / pageSize))
    (hmem : ∀ f, Spare im mb f → f < identity4kEnd / pageSize) :
    Lands (pagingInitFrames im mem mb) (pagingInit im mem mb) ∧ ∃ tag, Low (pagingInit im mem mb) tag := by
  obtain ⟨k, hk, hspare, -⟩ := @exists_rank (spare im mb) 0 _ (lt_of_le_of_lt (Nat.zero_le _) hroom)
  have himage := (spare_eq_true.mp hspare).image_lt
  have htags : ∀ t p, bootTag im t = some p → t < identity4kStart / pageSize := by
    intro t p ht
    rcases bootTag_some ht with ⟨rfl, -⟩ | ⟨rfl, -⟩ | ⟨rfl, -⟩ <;>
      simp only [Image.pdTable, Image.pdpTable] at * <;> omega
  obtain ⟨hlands, tag, hf, hlow, hid⟩ := Early.identity_low hroom 15360 (j := 0) (by decide)
    (early_initFrames im mem mb) (fun i => by simp; omega) (forest_initFrames im mem mb) htags
    fun a ha => initFrames_direct im mem mb (by omega)
  refine ⟨hlands, tag, hf, hid, fun t p ht => (hlow t p ht).trans (by decide), fun f hfree => ?_⟩
  exact hmem f ((pagingInit_free im mem mb f).mp hfree).1

/-! ### A machine with little memory -/

/-- Memory from 1 MiB to 64 MiB. -/
def lowMemory : MultibootInfo := ⟨some [⟨0x100000, 0x3f00000, 1⟩], []⟩

/-- The tables `paging_init` leaves on it. -/
abbrev lowVm : Vm := pagingInit smallImage (fun _ _ => 0#64) lowMemory

theorem spareRank_low : 48 ≤ spareRank smallImage lowMemory (identity4kStart / pageSize) := by
  have hrank : spareRank smallImage lowMemory 0x240 = 48 := by decide +kernel
  rw [← hrank]
  exact FirstFit.rank_le (by decide)

theorem spareTables_low : 48 ≤ spareTables smallImage lowMemory := by
  rw [spareTables]
  exact spareRank_low.trans (FirstFit.rank_le (by decide))

theorem initTables_low : initTables smallImage lowMemory = 30 := by
  have := spareTables_low
  rw [initTables]
  omega

theorem spare_low (h : Spare smallImage lowMemory f) : f < identity4kEnd / pageSize := by
  rcases h.1 with ⟨e, he, hstep⟩ | ⟨hno, -⟩
  · obtain rfl := List.mem_singleton.mp he
    have hend : MmapEntry.regionEnd ⟨0x100000, 0x3f00000, 1⟩ = 0x4000000 := by decide
    have hlt := hstep.2.2
    rw [hend] at hlt
    simp only [identity4kEnd, pageSize] at *
    omega
  · exact absurd ⟨rfl, by decide⟩ (hno ⟨0x100000, 0x3f00000, 1⟩ (List.mem_singleton.mpr rfl))

/-- It boots, and everything is low. -/
theorem lowVm_low : Lands (pagingInitFrames smallImage (fun _ _ => 0#64) lowMemory) lowVm ∧
    ∃ tag, Low lowVm tag :=
  low_init _ _ _ (by have := spareRank_low; omega) fun _ => spare_low

end TypeOS.Paging
