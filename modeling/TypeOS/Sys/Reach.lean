import TypeOS.Sys.Steps

/-! The page tables a running system comes to.

    Whatever the kernel does to its tables after `paging_init`, and whatever user programs ask of
    `sys_brk` and `sys_mmap`, the tables stay a forest: each frame is a table in one place, in use
    and held by nobody as data. Data is written to frames that are tables of no address space. -/

namespace TypeOS.Sys
open Paging Radix

/-- What else is done to the current address space: pages are mapped for the user, a path is opened to it,
    and huge pages are split. -/
inductive VmAlso (im : Image) (s : Vm) : Vm → Prop
  | mapUser (virt phys : Nat) (flags : Word) : VmAlso im s (pagingMapUserPage im s virt phys flags).2
  | promote (virt : Nat) (flags : Word) : VmAlso im s (pagingPromoteUserIdentity s virt flags).2
  | split (virtStart virtEnd : Nat) (hend : virtEnd ≤ 2 ^ 30) :
    VmAlso im s (pagingSplitHugeRange im s virtStart virtEnd)

/-- Pages are mapped with any flags, and any frame is given back that is no table. -/
def vmRules (im : Image) : Rules Unit where
  maps _ := True
  frees s roots _ frame := ¬ IsTable im s roots frame
  also := VmAlso im
  start := ()
  takes _ _ := ()
  gives _ _ := ()

/-- The states the operations on the tables reach from `paging_init`, with the roots of the address
    spaces there are. -/
abbrev VmReach (im : Image) (s : Vm) (roots : List Nat) : Prop := TableReach im (vmRules im) s roots ()

variable {im : Image} {s s' : Vm} {roots : List Nat} {tag tag' : Nat → Option Path}
  {t f c v pt : Nat} {p : Path} {i : Fin 512} {e : Word}

/-! ### Opening a path to the user -/

theorem pageUser_bits (e : Word) : has (e ||| pageUser) pagePresent = has e pagePresent ∧
    has (e ||| pageUser) pageHuge = has e pageHuge ∧ entryFrame (e ||| pageUser) = entryFrame e := by
  refine ⟨?_, ?_, entryFrame_or (by decide)⟩
  · rw [has_present, has_present, BitVec.getLsbD_or,
      show pageUser.getLsbD 0 = false from by decide, Bool.or_false]
  · rw [has_huge, has_huge, BitVec.getLsbD_or,
      show pageUser.getLsbD 7 = false from by decide, Bool.or_false]

theorem nextTable_user (e : Word) : nextTable (e ||| pageUser) = nextTable e := by
  obtain ⟨h1, h2, h3⟩ := pageUser_bits e
  rw [nextTable, nextTable, h1, h2, h3]

theorem writable_user (e : Word) : has (e ||| pageUser) pageWritable = has e pageWritable := by
  rw [has_writable, has_writable, BitVec.getLsbD_or, show pageUser.getLsbD 1 = false from by decide,
    Bool.or_false]

theorem user_user (e : Word) : has (e ||| pageUser) pageUser = true := by
  rw [has_user, BitVec.getLsbD_or, show pageUser.getLsbD 2 = true from by decide, Bool.or_true]

/-- An entry that points at a table may be opened to the user. -/
theorem openEntry_forest (h : Forest s tag) (ht : tag t = some p) (hp : p.length < 3)
    (hn : nextTable (s.mem t i) = some c) : Forest (openEntry s t i) tag := by
  have hn' : nextTable (s.mem t i ||| pageUser) = some c := (nextTable_user _).trans hn
  obtain ⟨-, hh, -⟩ := nextTable_some hn'
  refine h.write ht (fun _ g hg => ?_) (fun _ _ => hh) fun _ _ hc => ?_
  · rw [nextTable_user] at hg
    exact ⟨h.tagged t p i g ht hp hg, by rw [writable_user]; exact h.writable t p i g ht hp hg⟩
  · rw [hh] at hc
    simp at hc

/-- Opening entries that point at tables leaves every page in its frame. -/
theorem look_opened {m m' : Memory}
    (hm : ∀ t i, m' t i = m t i ∨ nextTable (m t i) ≠ none ∧ m' t i = m t i ||| pageUser) (q : Path) :
    ∀ t, (look translator m' t q).map (fun r => entryFrame r.1) =
      (look translator m t q).map fun r => entryFrame r.1 := by
  induction q with
  | nil => exact fun t => rfl
  | cons i q ih =>
    intro t
    have hnext : nextTable (m' t i) = nextTable (m t i) := by
      rcases hm t i with he | ⟨-, he⟩
      · rw [he]
      · rw [he, nextTable_user]
    cases q with
    | nil =>
      rw [look, look]
      rcases hm t i with he | ⟨-, he⟩
      · rw [he]
      · obtain ⟨hpr, -, hframe⟩ := pageUser_bits (m t i)
        rw [he]
        change (leafEntry _ []).map _ = (leafEntry _ []).map _
        rw [leafEntry, leafEntry, hpr]
        split
        · rw [Option.map_some, Option.map_some, hframe]
        · rfl
    | cons j q =>
      have hnext' : translator.next (m' t i) = translator.next (m t i) := hnext
      rw [look, look, hnext']
      cases hn : translator.next (m t i) with
      | some f =>
        dsimp only
        rw [Option.map_map, Option.map_map]
        exact ih f
      | none =>
        -- a page of its own is not opened here
        rcases hm t i with he | ⟨hc, -⟩
        · rw [he]
        · exact absurd hn hc

theorem openEntry_edited (h : Forest s tag) (ht : tag t = some p) (hp : p.length < 3)
    (hn : nextTable (s.mem t i) = some c) :
    Edited (fun _ => False) (fun _ => False) s tag (openEntry s t i) tag := by
  have hentry : ∀ u k, (openEntry s t i).mem u k = s.mem u k ∨
      nextTable (s.mem u k) ≠ none ∧ (openEntry s t i).mem u k = s.mem u k ||| pageUser := by
    intro u k
    by_cases huk : (u, k) = (t, i)
    · obtain ⟨rfl, rfl⟩ := Prod.mk.inj huk
      exact Or.inr ⟨by rw [hn]; exact Option.some_ne_none c, writeEntry_self⟩
    · exact Or.inl (writeEntry_other huk)
  refine ⟨openEntry_forest h ht hp hn, fun _ _ hu => hu, fun _ hb => hb, fun _ hf _ => hf,
    fun f _ hf _ => writeEntry_frame ?_, rfl, fun v _ => look_opened hentry (pathOf v) s.pml4,
    fun v e _ hw => h.look_users (fun u w k g _ _ hg => ?_) (fun u w k hu hlen => ?_) h.root rfl hw,
    fun r q d hr hq hd => ?_⟩
  · rintro rfl
    rw [hf] at ht
    cases ht
  · rcases hentry u k with he | ⟨-, he⟩
    · rw [he]
      exact ⟨hg, id⟩
    · rw [he, nextTable_user]
      exact ⟨hg, fun _ => user_user _⟩
  · refine congrFun (writeEntry_frame ?_) k
    rintro rfl
    rw [ht, Option.some.injEq] at hu
    rw [hu, hlen] at hp
    exact absurd hp (lt_irrefl 3)
  · refine h.tagged.descend_keep hr (by simpa using hq) (fun u w k g _ _ hg => ?_) hd
    rcases hentry u k with he | ⟨-, he⟩
    · rw [he]
      exact hg
    · rw [he, nextTable_user]
      exact hg

/-- `paging_get_pt` follows the three entries above the page table. -/
theorem pagingGetPt_some (h : Forest s tag) (hpt : pagingGetPt s v = some pt) : ∃ pdpt pd,
    nextTable (s.mem s.pml4 (pml4Index v)) = some pdpt ∧
    nextTable (s.mem pdpt (pdpIndex v)) = some pd ∧ nextTable (s.mem pd (pdIndex v)) = some pt ∧
    tag pdpt = some [pml4Index v] ∧ tag pd = some [pml4Index v, pdpIndex v] ∧
    tag pt = some (tablePath v) := by
  rw [pagingGetPt] at hpt
  cases h4 : has (s.mem s.pml4 (pml4Index v)) pagePresent with
  | false => simp [h4] at hpt
  | true =>
    obtain ⟨hn4, ht3⟩ := h.child h.root (by simp) h4 (by simp)
    set pdpt := entryFrame (s.mem s.pml4 (pml4Index v)) with hpdpt
    cases h3 : has (s.mem pdpt (pdpIndex v)) pagePresent with
    | false => simp [h4, h3] at hpt
    | true =>
      obtain ⟨hn3, ht2⟩ := h.child ht3 (by simp) h3 (by simp)
      set pd := entryFrame (s.mem pdpt (pdpIndex v)) with hpd
      cases h2 : has (s.mem pd (pdIndex v)) pagePresent with
      | false => simp [h4, h3, ← hpd, h2] at hpt
      | true =>
        cases hh : has (s.mem pd (pdIndex v)) pageHuge with
        | true => simp [h4, h3, ← hpd, h2, hh] at hpt
        | false =>
          obtain ⟨hn2, ht1⟩ := h.child ht2 (by simp) h2 fun _ => hh
          simp only [h4, h3, ← hpd, h2, hh, framePtr, if_neg (h.used _ _ ht1).1.ne',
            Bool.not_true, Bool.or_self, Bool.false_eq_true, if_false, Option.some.injEq] at hpt
          rw [hpt] at hn2 ht1
          exact ⟨pdpt, pd, hn4, hn3, hn2, ht3, ht2, ht1⟩

/-- Where there is a page table, the way to it stays what it was and is opened. -/
theorem pagingSetUserPath_spec (h : Forest s tag) (hpt : pagingGetPt s v = some pt) :
    Edited (fun _ => False) (fun _ => False) s tag (pagingSetUserPath s v) tag ∧
      userPath (pagingSetUserPath s v).mem s.pml4 (tablePath v) = true := by
  obtain ⟨pdpt, pd, hn4, hn3, hn2, ht3, ht2, -⟩ := pagingGetPt_some h hpt
  -- the three tables have different indices, so no step touches the next one's entry
  have hne3 : pdpt ≠ s.pml4 := by
    rintro rfl
    rw [h.root] at ht3
    simp at ht3
  have hne2 : pd ≠ s.pml4 := by
    rintro rfl
    rw [h.root] at ht2
    simp at ht2
  have hne2' : pd ≠ pdpt := by
    rintro rfl
    rw [ht3] at ht2
    simp at ht2
  obtain ⟨p4, -, q4⟩ := nextTable_some ((nextTable_user _).trans hn4)
  obtain ⟨p3, -, q3⟩ := nextTable_some ((nextTable_user _).trans hn3)
  set s₁ := openEntry s s.pml4 (pml4Index v) with hs₁
  set s₂ := openEntry s₁ pdpt (pdpIndex v) with hs₂
  have hm3 : s₁.mem pdpt = s.mem pdpt := writeEntry_frame hne3
  have hm2 : s₂.mem pd = s.mem pd := (writeEntry_frame hne2').trans (writeEntry_frame hne2)
  have e4 : s₁.mem s₁.pml4 (pml4Index v) = s.mem s.pml4 (pml4Index v) ||| pageUser :=
    writeEntry_self
  have e3 : s₂.mem pdpt (pdpIndex v) = s.mem pdpt (pdpIndex v) ||| pageUser := by
    rw [hs₂, openEntry, writeEntry_self, hm3]
  have hset : pagingSetUserPath s v = openEntry s₂ pd (pdIndex v) := by
    rw [pagingSetUserPath, ← hs₁]
    dsimp only
    rw [e4, p4, q4, ← hs₂, e3, p3, q3]
    rfl
  have f1 := openEntry_edited h h.root (by simp) hn4
  have f2 := openEntry_edited f1.forest ht3 (by simp)
    ((congrArg nextTable (congrFun hm3 _)).trans hn3)
  have f3 := openEntry_edited f2.forest ht2 (by simp)
    ((congrArg nextTable (congrFun hm2 _)).trans hn2)
  rw [hset]
  refine ⟨(f1.trans f2).trans f3, ?_⟩
  have m2 : (openEntry s₂ pd (pdIndex v)).mem pd (pdIndex v) = s.mem pd (pdIndex v) ||| pageUser := by
    rw [openEntry, writeEntry_self, hm2]
  have m3 : (openEntry s₂ pd (pdIndex v)).mem pdpt (pdpIndex v) =
      s.mem pdpt (pdpIndex v) ||| pageUser := (congrFun (writeEntry_frame hne2'.symm) _).trans e3
  have m4 : (openEntry s₂ pd (pdIndex v)).mem s.pml4 (pml4Index v) =
      s.mem s.pml4 (pml4Index v) ||| pageUser :=
    (congrFun ((writeEntry_frame hne2.symm).trans (writeEntry_frame hne3.symm)) _).trans e4
  rw [tablePath, userPath, m4, user_user, nextTable_user, hn4, Option.map_some, Option.getD_some, userPath,
    m3, user_user, nextTable_user, hn3, Option.map_some, Option.getD_some, userPath, m2, user_user,
    nextTable_user, hn2]
  rfl

theorem pagingGetPt_ptOf (h : Forest s tag) (hpt : pagingGetPt s v = some pt) :
    ptOf s.mem s.pml4 v = some pt := by
  obtain ⟨pdpt, pd, hn4, hn3, hn2, -⟩ := pagingGetPt_some h hpt
  rw [ptOf, tablePath, descend, hn4, Option.bind_some, descend, hn3, Option.bind_some, descend, hn2]
  rfl

theorem pagingGetPt_of_ptOf (h : Forest s tag) (hpt : ptOf s.mem s.pml4 v = some pt) :
    pagingGetPt s v = some pt := by
  rw [ptOf, tablePath, descend, Option.bind_eq_some_iff] at hpt
  obtain ⟨pdpt, hn4, hpt⟩ := hpt
  rw [descend, Option.bind_eq_some_iff] at hpt
  obtain ⟨pd, hn3, hpt⟩ := hpt
  rw [descend, Option.bind_eq_some_iff] at hpt
  obtain ⟨pt', hn2, hpt⟩ := hpt
  obtain rfl : pt' = pt := Option.some.inj hpt
  have ht3 := h.tagged _ _ _ _ h.root (by simp) hn4
  have ht2 := h.tagged _ _ _ _ ht3 (by simp) hn3
  have ht1 := h.tagged _ _ _ _ ht2 (by simp) hn2
  obtain ⟨p4, -, q4⟩ := nextTable_some hn4
  obtain ⟨p3, -, q3⟩ := nextTable_some hn3
  obtain ⟨p2, e2, q2⟩ := nextTable_some hn2
  rw [pagingGetPt]
  simp only [p4, q4, p3, q3, p2, e2, q2, framePtr, if_neg (h.used _ _ ht1).1.ne', Bool.not_true,
    Bool.or_self, Bool.false_eq_true, if_false]

/-- Opening a page of a fixed image writes the entry of that page. -/
theorem promote_edited (h : Forest s tag) (virt : Nat) (flags : Word) :
    Edited (fun _ => False) (· = pathOf virt) s tag (pagingPromoteUserIdentity s virt flags).2 tag := by
  have hsame : Edited (fun _ => False) (· = pathOf virt) s tag s tag :=
    .refl h
  rw [pagingPromoteUserIdentity]
  dsimp only
  split
  · exact hsame
  · rcases hpt : pagingGetPt s virt with _ | pt
    · exact hsame
    · obtain ⟨-, -, -, -, -, -, -, ht⟩ := pagingGetPt_some h hpt
      have hset := (pagingSetUserPath_spec h hpt).1
      have hleaf := hset.forest.mapped_leaf
        (e := BitVec.ofNat 64 (pageOf virt) ||| flags ||| pageUser ||| pageWritable) ht
        (hset.ptOf h (pagingGetPt_ptOf h hpt))
      exact (hset.mono (fun _ hc => hc) fun _ hc => hc.elim).trans (.of_mapped hset.forest hleaf)

/-! ### Splitting below the boot directory -/

theorem splitHugeLoop_edited (im : Image) (n : Nat) : ∀ {i : Nat} {s : Vm}
    {tag : Nat → Option Path}, Forest s tag → tag im.pdTable = some [0, 0] →
    ∃ tag', Edited (fun _ => False) (fun _ => False) s tag (splitHugeLoop im n i s) tag' := by
  induction n with
  | zero =>
    intro i s tag h _
    exact ⟨tag, .refl h⟩
  | succ n ih =>
    intro i s tag h hpd
    rw [splitHugeLoop]
    split
    · rcases hs : splitHugePage im s im.pdTable (Fin.ofNat 512 i) with ⟨ok, s₁⟩
      obtain ⟨tag₁, g⟩ := splitHugePage_grafted h hpd rfl hs
      have h₁ : Edited (fun _ => False) (fun _ => False) s tag s₁ tag₁ := .of_grafted h g
      cases ok with
      | false => exact ⟨tag₁, h₁⟩
      | true =>
        obtain ⟨tag₂, h₂⟩ := ih (i := i + 1) h₁.forest (h₁.tags _ _ hpd)
        exact ⟨tag₂, h₁.trans h₂⟩
    · exact ih h hpd

theorem pagingSplitHugeRange_edited (h : Forest s tag) (hpd : tag im.pdTable = some [0, 0])
    (virtStart virtEnd : Nat) : ∃ tag', Edited (fun _ => False) (fun _ => False) s tag
      (pagingSplitHugeRange im s virtStart virtEnd) tag' := by
  rw [pagingSplitHugeRange]
  split
  · exact ⟨tag, .refl h⟩
  · exact splitHugeLoop_edited im _ h hpd

/-! ### Data -/

/-- A frame that is a table of no address space may be taken out of the forest. -/
theorem forest_without (h : Forest s tag) (hroots : ∀ r ∈ roots, tag r = some [])
    (hroot : s.pml4 ∈ roots) (hpd : tag im.pdTable = some [0, 0])
    (hno : ¬ IsTable im s roots f) : ∃ tag', Forest s tag' ∧ (∀ r ∈ roots, tag' r = some []) ∧
      tag' im.pdTable = some [0, 0] ∧ tag' f = none ∧ ∀ g, tag g = none → tag' g = none := by
  classical
  set tag' : Nat → Option Path := fun t => if IsTable im s roots t then tag t else none with htag'
  have hsub : ∀ t p, tag' t = some p → IsTable im s roots t ∧ tag t = some p := by
    intro t p ht
    rw [htag'] at ht
    dsimp only at ht
    split at ht
    · next hc => exact ⟨hc, ht⟩
    · simp at ht
  have hin : ∀ t p, IsTable im s roots t → tag t = some p → tag' t = some p := by
    intro t p hc ht
    rw [htag']
    exact (if_pos hc).trans ht
  have hr : ∀ r ∈ roots, tag' r = some [] := by
    intro r hr
    exact hin r [] (Or.inl ⟨r, hr, [], by simp, rfl⟩) (hroots r hr)
  refine ⟨tag', ⟨?_, ?_, ?_, ?_, ?_, ?_, h.null, hr _ hroot⟩, hr, ?_, if_neg hno, fun g hg => ?_⟩
  · intro t p i g ht hp hg
    obtain ⟨hc, ht⟩ := hsub t p ht
    refine hin g _ ?_ (h.tagged t p i g ht hp hg)
    have hstep : ∀ {r : Nat} {q : Path}, descend nextTable s.mem r q = some t →
        descend nextTable s.mem r (q ++ [i]) = some g := by
      intro r q hd
      rw [descend_append, hd, Option.bind_some, descend, hg]
      rfl
    rcases hc with ⟨r, hr, q, hq, hd⟩ | ⟨q, hq, hd⟩
    · have hlen := h.tagged.descend (hroots r hr) (by simpa using hq) hd
      rw [ht, Option.some.injEq, List.nil_append] at hlen
      exact Or.inl ⟨r, hr, q ++ [i], by rw [List.length_append, ← hlen]; simpa using hp, hstep hd⟩
    · have hlen := h.tagged.descend hpd (by simp only [List.length_cons, List.length_nil]; omega) hd
      rw [ht, Option.some.injEq] at hlen
      refine Or.inr ⟨q ++ [i], ?_, hstep hd⟩
      rw [hlen] at hp
      simp only [List.length_append, List.length_cons, List.length_nil] at hp ⊢
      omega
  · intro t p ht
    exact h.depth t p (hsub t p ht).2
  · intro t p i ht
    exact h.upper t p i (hsub t p ht).2
  · intro t p i ht
    exact h.huge t p i (hsub t p ht).2
  · intro t p i c ht
    exact h.writable t p i c (hsub t p ht).2
  · intro t p ht
    exact h.used t p (hsub t p ht).2
  · exact hin _ _ (Or.inr ⟨[], by simp, rfl⟩) hpd
  · rw [htag']
    dsimp only
    rw [hg, ite_self]

/-! ### The states reached -/

/-- What every reachable state keeps: a forest whose roots are the known address spaces, with the
    boot directory at its place. -/
def Sound (im : Image) (s : Vm) (roots : List Nat) : Prop :=
  ∃ tag, Forest s tag ∧ (∀ r ∈ roots, tag r = some []) ∧ s.pml4 ∈ roots ∧
    tag im.pdTable = some [0, 0]

/-- An operation that keeps the tables there were. -/
theorem Sound.grow (h : Sound im s roots) (hstep : ∀ tag, Forest s tag → ∃ tag', Forest s' tag' ∧
    (∀ t p, tag t = some p → tag' t = some p) ∧ s'.pml4 = s.pml4) : Sound im s' roots := by
  obtain ⟨tag, hf, hroots, hroot, hpd⟩ := h
  obtain ⟨tag', hf', htags, hpml4⟩ := hstep tag hf
  exact ⟨tag', hf', fun r hr => htags r _ (hroots r hr), by rw [hpml4]; exact hroot,
    htags _ _ hpd⟩

theorem Sound.mapped {E W : Path → Prop} (h : Sound im s roots)
    (hstep : ∀ tag, Forest s tag → ∃ tag', Mapped E W s tag s' tag') : Sound im s' roots := by
  refine h.grow fun tag hf => ?_
  obtain ⟨tag', g⟩ := hstep tag hf
  exact ⟨tag', g.forest, g.tags, g.pml4⟩

theorem Sound.allocPage (h : Sound im s roots) : Sound im (pagingAllocPage s).2 roots := by
  refine h.grow fun tag hf => ?_
  rcases ha : pagingAllocPage s with ⟨_ | a, s₁⟩
  · rw [pagingAllocPage_none hf.null ha]
    exact ⟨tag, hf, fun _ _ hu => hu, rfl⟩
  · obtain ⟨f, -, -, -, -, rfl, -⟩ := allocPage_fresh hf ha
    have g := Mapped.take (E := fun _ => True) (W := fun _ => True) hf f
    exact ⟨tag, g.forest, g.tags, g.pml4⟩

/-- Freeing a page and writing data need a frame that is no table. -/
theorem Sound.away (h : Sound im s roots) (hno : ¬ IsTable im s roots f)
    (hstep : ∀ tag, Forest s tag → tag f = none → Forest s' tag) (hpml4 : s'.pml4 = s.pml4) :
    Sound im s' roots := by
  obtain ⟨tag, hf, hroots, hroot, hpd⟩ := h
  obtain ⟨tag', hf', hroots', hpd', hnone, -⟩ := forest_without hf hroots hroot hpd hno
  exact ⟨tag', hstep tag' hf' hnone, hroots', by rw [hpml4]; exact hroot, hpd'⟩

/-- A page that is given back was no table. -/
theorem freePage_forest (h : Forest s tag) {page : Nat} (hpage : page % pageSize = 0)
    (hnone : tag (page / pageSize) = none) : Forest (pagingFreePage s page) tag := by
  obtain ⟨hm, hr, -, hb⟩ := pagingFreePage_eq s page
  rcases Nat.eq_zero_or_pos page with rfl | hpos
  · rw [pagingFreePage, if_pos rfl]
    exact h
  · have hne : (0 : Nat) ≠ page / pageSize := by
      simp only [pageSize] at *
      omega
    refine ⟨by rw [hm]; exact h.tagged, h.depth, by rw [hm]; exact h.upper,
      by rw [hm]; exact h.huge, by rw [hm]; exact h.writable, fun t p ht => ?_,
      by rw [hb 0 hne]; exact h.null, by rw [hr]; exact h.root⟩
    obtain ⟨h1, h2, h3⟩ := h.used t p ht
    refine ⟨h1, h2, ?_⟩
    rw [hb t (by rintro rfl; rw [hnone] at ht; simp at ht)]
    exact h3

theorem Sound.freePage (h : Sound im s roots) {page : Nat} (hpage : page % pageSize = 0)
    (hno : ¬ IsTable im s roots (page / pageSize)) : Sound im (pagingFreePage s page) roots := by
  obtain ⟨-, hr, -, -⟩ := pagingFreePage_eq s page
  exact h.away hno (fun tag hf hnone => freePage_forest hf hpage hnone) hr

theorem Sound.data (h : Sound im s roots) (hno : ¬ IsTable im s roots f) (w : Fin 512 → Word) :
    Sound im (writeFrame s f w) roots := by
  refine h.away hno (fun tag hf hnone => ?_) rfl
  refine hf.congr (fun t p ht => ?_) (fun _ hb => hb) rfl
  have hne : t ≠ f := by
    rintro rfl
    rw [hnone] at ht
    simp at ht
  simp only [writeFrame, Function.update_of_ne hne]

theorem Sound.clone (h : Sound im s roots) (copyUser : Bool) :
    Sound im (pagingCloneCurrentAddressSpace im s copyUser).2
      ((pagingCloneCurrentAddressSpace im s copyUser).1.toList ++ roots) := by
  obtain ⟨tag, hf, hroots, hroot, hpd⟩ := h
  rcases hc : pagingCloneCurrentAddressSpace im s copyUser with ⟨res, s'⟩
  cases copyUser with
  | true =>
    obtain ⟨tag', D, hcl, hres⟩ := cloneUser_spec hf hc
    have hpml4 : s'.pml4 = s.pml4 := hcl.changed.pml4
    refine ⟨tag', hcl.forest, fun r hr => ?_, ?_, hcl.changed.tags _ _ hpd⟩
    · rcases List.mem_append.mp hr with hr | hr
      · exact (hres r (Option.mem_toList.mp hr)).2.1
      · exact hcl.changed.tags r _ (hroots r hr)
    · rw [hpml4]
      exact List.mem_append_right _ hroot
  | false =>
    rcases cloneShared_spec hf hc with ⟨rfl, rfl⟩ | ⟨r', s₁, rfl, hfr, hs⟩
    · exact ⟨tag, hf, hroots, hroot, hpd⟩
    · have g := (cloneShared_forest hf hfr hs).1
      refine ⟨_, g.forest, fun r hr => ?_, ?_, g.tags _ _ hpd⟩
      · rcases List.mem_append.mp hr with hr | hr
        · simp only [Option.toList_some, List.mem_singleton] at hr
          rw [hr, Function.update_self]
        · exact g.tags r _ (hroots r hr)
      · rw [g.pml4]
        exact List.mem_append_right _ hroot

/-- A step keeps the tables a forest of which the known address spaces are roots. -/
theorem Sound.step {roots' : List Nat} {g g' : Unit} (ih : Sound im s roots)
    (hs : TableStep im (vmRules im) s roots g s' roots' g') : Sound im s' roots' := by
  cases hs with
  | map virt phys flags => exact ih.mapped fun tag hf => pagingMapPage_mapped hf rfl
  | unmap virt => exact ih.mapped fun tag hf => ⟨tag, pagingUnmapPage_mapped hf virt⟩
  | clone copyUser => exact ih.clone copyUser
  | switch cr3 hr =>
    obtain ⟨tag, hf, hroots, -, hpd⟩ := ih
    exact ⟨tag, hf.switch (hroots cr3 hr), hroots, hr, hpd⟩
  | allocPage => exact ih.allocPage
  | freePage frame hno =>
    refine ih.freePage (Nat.mul_mod_left ..) ?_
    rw [frame_div]
    exact hno
  | data frame words hno => exact ih.data hno words
  | brk hcall =>
    refine ih.grow fun tag hf => ?_
    obtain ⟨m, tag', g⟩ := sysBrk_spec hf hcall
    exact ⟨tag', g.granted.forest, g.granted.tags, g.granted.pml4⟩
  | mmap addr len prot flags =>
    refine ih.grow fun tag hf => ?_
    obtain ⟨tag', g, -⟩ := sysMmap_spec hf addr len prot flags
    exact ⟨tag', g.forest, g.tags, g.pml4⟩
  | also h =>
    cases h with
    | mapUser virt phys flags => exact ih.mapped fun tag hf => pagingMapUserPage_mapped hf rfl
    | promote virt flags =>
      refine ih.grow fun tag hf => ?_
      have g := promote_edited hf virt flags
      exact ⟨tag, g.forest, g.tags, g.pml4⟩
    | split virtStart virtEnd =>
      obtain ⟨tag, hf, hroots, hroot, hpd⟩ := ih
      obtain ⟨tag', g⟩ := pagingSplitHugeRange_edited hf hpd virtStart virtEnd
      exact ⟨tag', g.forest, fun r hr => g.tags r _ (hroots r hr), by rw [g.pml4]; exact hroot,
        g.tags _ _ hpd⟩

/-- Every reachable state is such a forest. -/
theorem VmReach.sound (h : VmReach im s roots) : Sound im s roots := by
  refine TableReach.invariant (I := fun s roots _ => Sound im s roots) (fun mem mb => ?_) Sound.step h
  obtain ⟨tag, hf, hroot, ht⟩ := pagingInit_forest im mem mb
  refine ⟨tag, hf, fun r hr => ?_, by rw [hroot]; exact List.mem_singleton_self _, ht _ _ ?_⟩
  · rw [List.mem_singleton.mp hr]
    exact ht _ _ (by simp [bootTag])
  · simp [bootTag, Image.pdTable, Image.pdpTable]

end TypeOS.Sys
