import TypeOS.Paging.CloneRoom
import TypeOS.Sys.Reach

/-! Which of the pages mapped for a user program it can use.

    A processor in user mode needs `PAGE_USER` in all four entries on its way, and
    `PAGE_WRITABLE` to write. `paging_map_user_page` sets them in the tables it makes and in the
    last entry, but leaves an entry alone that is already there, and splits a huge page with the
    kernel's flags. So the page can be used where the entries that were there before let the
    program through. -/

namespace TypeOS.Sys
open Paging Radix

/-- An entry that lets a user program through, to write if `write`. -/
def permits (write : Bool) (e : Word) : Bool :=
  has e pagePresent && has e pageUser && (!write || has e pageWritable)

/-- The entry at the end of a path, if every entry on it lets a user program through. -/
def userEntry (write : Bool) (m : Memory) : Nat → Path → Option Word
  | _, [] => none
  | t, [i] => if permits write (m t i) then some (m t i) else none
  | t, i :: p =>
    if permits write (m t i) then (nextTable (m t i)).bind fun c => userEntry write m c p else none

/-- Where a user program's access to `virt` ends, four levels down. -/
def userWalk (s : Vm) (write : Bool) (virt : Nat) : Option Nat :=
  (userEntry write s.mem s.pml4 (pathOf virt)).map fun e =>
    (e &&& pteAddrMask).toNat + virt % pageSize

/-- The entries on the path that are there let a user program through to a table. -/
def Opens (write : Bool) (m : Memory) : Nat → Path → Prop
  | _, [] => True
  | t, i :: p => has (m t i) pagePresent = true →
    permits write (m t i) = true ∧ ∃ c, nextTable (m t i) = some c ∧ Opens write m c p

variable {im : Image} {s s' s₁ : Vm} {roots : List Nat} {tag : Nat → Option Path}
  {t c v phys : Nat} {p q : Path} {i : Fin 512} {e flags fl : Word} {write ok : Bool}

/-! ### One level -/

theorem opens_empty {m : Memory} (h : m t = fun _ => 0#64) : Opens write m t q := by
  cases q with
  | nil => trivial
  | cons i q =>
    intro hpr
    rw [h] at hpr
    simp at hpr

theorem opens_next {m : Memory} (h : nextTable (m t i) = some c) :
    Opens write m t (i :: q) ↔ permits write (m t i) = true ∧ Opens write m c q := by
  obtain ⟨hpr, -, -⟩ := nextTable_some h
  rw [Opens]
  constructor
  · intro ho
    obtain ⟨hperm, c', hc', hrest⟩ := ho hpr
    rw [h, Option.some.injEq] at hc'
    subst hc'
    exact ⟨hperm, hrest⟩
  · rintro ⟨hperm, hrest⟩ -
    exact ⟨hperm, c, h, hrest⟩

theorem permits_user (f : Nat) : permits write (frameWord f ||| cloneFlags) = true := by
  have hlow : ∀ k < 12, (frameWord f ||| cloneFlags).getLsbD k = cloneFlags.getLsbD k := by
    intro k hk
    rw [BitVec.getLsbD_or, frameWord_getLsbD f hk, Bool.false_or]
  rw [permits, has_present, has_user, has_writable, hlow 0 (by omega), hlow 2 (by omega),
    hlow 1 (by omega)]
  cases write <;> rfl

theorem permits_kernel (f : Nat) :
    permits write (frameWord f ||| (pagePresent ||| pageWritable)) = false := by
  rw [permits, TableFlags.user]
  cases write <;> simp [pagePresent, pageWritable]

/-- A level of the way down: an entry that is there is followed as it is, a missing one gets a
    table with no entry and lets the user through. -/
theorem getOrCreateTable_opens (h : Forest s tag) (ht : tag t = some p) (hp : p.length < 3)
    (hg : getOrCreateTable im s t i cloneFlags = (some c, s')) :
    Opens write s.mem t (i :: q) ↔ permits write (s'.mem t i) = true ∧ Opens write s'.mem c q := by
  rw [getOrCreateTable] at hg
  cases hpr : has (s.mem t i) pagePresent with
  | true =>
    rw [if_pos hpr] at hg
    cases hh : has (s.mem t i) pageHuge with
    | true => simp [hh] at hg
    | false =>
      obtain ⟨hn, hc⟩ := h.child ht hp hpr fun _ => hh
      rw [if_neg (by simp [hh]), framePtr, if_neg (h.used _ _ hc).1.ne'] at hg
      obtain ⟨h1, rfl⟩ := Prod.mk.inj hg
      rw [Option.some.injEq] at h1
      subst h1
      exact opens_next hn
  | false =>
    rw [if_neg (by simp [hpr])] at hg
    rcases ha : pagingAllocTable im s with ⟨_ | f, s₁⟩
    · rw [ha] at hg
      simp at hg
    · rw [ha] at hg
      obtain ⟨h1, rfl⟩ := Prod.mk.inj hg
      rw [Option.some.injEq] at h1
      subst h1
      have hf := pagingAllocTable_some h.null ha
      have hft : f ≠ t := (h.ne_free ht hf.free).symm
      rw [writeEntry_self]
      refine iff_of_true (fun hc => ?_) ⟨permits_user f, opens_empty ?_⟩
      · rw [hpr] at hc
        simp at hc
      · rw [writeEntry_frame hft, hf.self]

/-- A split closes the way, as the huge page did. -/
theorem splitHugePage_opens (h : Forest s tag)
    (hg : splitHugePage im s t i = (true, s')) :
    Opens write s.mem t [i] ↔ Opens write s'.mem t [i] := by
  rw [splitHugePage] at hg
  dsimp only at hg
  cases hpr : has (s.mem t i) pagePresent with
  | false =>
    rw [hpr, if_pos (by simp)] at hg
    obtain ⟨-, rfl⟩ := Prod.mk.inj hg
    rfl
  | true =>
    cases hh : has (s.mem t i) pageHuge with
    | false =>
      rw [hpr, hh, if_pos (by simp)] at hg
      obtain ⟨-, rfl⟩ := Prod.mk.inj hg
      rfl
    | true =>
      rw [hpr, hh, if_neg (by simp)] at hg
      rcases ha : pagingAllocTable im s with ⟨_ | f, s₁⟩
      · rw [ha] at hg
        simp at hg
      · rw [ha] at hg
        obtain ⟨-, rfl⟩ := Prod.mk.inj hg
        have hlt := (pagingAllocTable_some h.null ha).lt
        refine iff_of_false (fun ho => ?_) fun ho => ?_
        · obtain ⟨-, c, hc, -⟩ := ho hpr
          obtain ⟨-, hno, -⟩ := nextTable_some hc
          rw [hh] at hno
          simp at hno
        · rw [opens_next (c := f), writeEntry_self, permits_kernel] at ho
          · simp at ho
          · rw [writeEntry_self]
            exact tableFlags_kernel.next (by simp only [identityMapLimit, pageSize] at hlt; omega)

/-! ### The whole way -/

theorem userEntry_next {m : Memory} {j : Fin 512} (h : nextTable (m t i) = some c) :
    userEntry write m t (i :: j :: q) =
      if permits write (m t i) then userEntry write m c (j :: q) else none := by
  rw [userEntry]
  · rw [h, Option.bind_some]
  · simp

/-- The steps of `paging_map_page_flags` where it works. -/
theorem pagingMapPageFlags_ok
    (hm : pagingMapPageFlags im s v phys flags fl = (true, s')) : v % pageSize = 0 ∧
    ∃ pdpt s₁ pd s₂ s₃ pt s₄, getOrCreateTable im s s.pml4 (pml4Index v) fl = (some pdpt, s₁) ∧
      getOrCreateTable im s₁ pdpt (pdpIndex v) fl = (some pd, s₂) ∧
      splitHugePage im s₂ pd (pdIndex v) = (true, s₃) ∧
      getOrCreateTable im s₃ pd (pdIndex v) fl = (some pt, s₄) ∧
      s' = writeEntry s₄ pt (ptIndex v) ((BitVec.ofNat 64 phys &&& pteAddrMask) ||| flags) := by
  rw [pagingMapPageFlags] at hm
  split at hm
  · simp at hm
  next hal =>
  rcases h1 : getOrCreateTable im s s.pml4 (pml4Index v) fl with ⟨_ | pdpt, s₁⟩
  · simp [h1] at hm
  simp only [h1] at hm
  rcases h2 : getOrCreateTable im s₁ pdpt (pdpIndex v) fl with ⟨_ | pd, s₂⟩
  · simp [h2] at hm
  simp only [h2] at hm
  rcases h3 : splitHugePage im s₂ pd (pdIndex v) with ⟨_ | _, s₃⟩
  · simp [h3] at hm
  simp only [h3] at hm
  rcases h4 : getOrCreateTable im s₃ pd (pdIndex v) fl with ⟨_ | pt, s₄⟩
  · simp [h4] at hm
  simp only [h4] at hm
  obtain ⟨-, rfl⟩ := Prod.mk.inj hm
  exact ⟨by omega, pdpt, s₁, pd, s₂, s₃, pt, s₄, rfl, h2, h3, h4, rfl⟩

/-- The user's way to a page that was mapped for it leads to its entry, if the way was open. -/
theorem userEntry_mapped {x : Word} (h : Forest s tag)
    (hm : pagingMapPageFlags im s v phys flags cloneFlags = (true, s'))
    (he : permits write ((BitVec.ofNat 64 phys &&& pteAddrMask) ||| flags) = true) :
    userEntry write s'.mem s'.pml4 (pathOf v) = some x ↔
      Opens write s.mem s.pml4 (tablePath v) ∧
        x = (BitVec.ofNat 64 phys &&& pteAddrMask) ||| flags := by
  obtain ⟨-, pdpt, s₁, pd, s₂, s₃, pt, s₄, h1, h2, h3, h4, rfl⟩ := pagingMapPageFlags_ok hm
  set leaf := (BitVec.ofNat 64 phys &&& pteAddrMask) ||| flags with hleaf
  obtain ⟨tag₁, g1, ht1, hn1⟩ := getOrCreateTable_some (tablePath v) h h.root rfl (by simp)
    ⟨[pdpIndex v, pdIndex v], rfl⟩ tableFlags_user h1
  have hd1 : descend nextTable s₁.mem s₁.pml4 [pml4Index v] = some pdpt := by
    rw [descend, g1.pml4, hn1]
    rfl
  obtain ⟨tag₂, g2, ht2, hn2⟩ := getOrCreateTable_some (tablePath v) g1.forest ht1 hd1
    (by simp) ⟨[pdIndex v], rfl⟩ tableFlags_user h2
  have hd2 : descend nextTable s₂.mem s₂.pml4 [pml4Index v, pdpIndex v] = some pd := by
    have := g2.descend g1.forest g1.forest.root (by simp) hd1
    rw [g2.pml4, show [pml4Index v, pdpIndex v] = [pml4Index v] ++ [pdpIndex v] from rfl,
      descend_append, this, Option.bind_some, descend, hn2]
    rfl
  obtain ⟨tag₃, g3⟩ := splitHugePage_grown (tablePath v) g2.forest ht2 hd2 rfl List.prefix_rfl h3
  have hd3 := g3.descend g2.forest g2.forest.root (by simp) hd2
  rw [← g3.pml4] at hd3
  obtain ⟨tag₄, g4, ht4, hn4⟩ := getOrCreateTable_some (tablePath v) g3.forest
    (g3.tags pd _ ht2) hd3 (by simp) List.prefix_rfl tableFlags_user h4
  -- what a level holds once it is passed stays there
  have g34 := g3.trans g2.forest g4
  have g24 := g2.trans g1.forest g34
  have hroot := g1.forest.root
  rw [g1.pml4] at hroot
  have hup : ∀ {t p i}, tag₄ t = some p → p.length < 3 →
      (writeEntry s₄ pt (ptIndex v) leaf).mem t i = s₄.mem t i := by
    intro t p i ht hp
    refine congrFun (writeEntry_frame ?_) i
    rintro rfl
    rw [ht4, Option.some.injEq] at ht
    rw [← ht] at hp
    exact absurd hp (by simp)
  have k4 : (writeEntry s₄ pt (ptIndex v) leaf).mem s.pml4 (pml4Index v) =
      s₁.mem s.pml4 (pml4Index v) :=
    (hup (g24.tags _ _ hroot) (by simp)).trans (g24.keep _ _ _ _ hroot (by simp) hn1)
  have k3 : (writeEntry s₄ pt (ptIndex v) leaf).mem pdpt (pdpIndex v) =
      s₂.mem pdpt (pdpIndex v) :=
    (hup (g24.tags _ _ ht1) (by simp)).trans (g34.keep _ _ _ _ (g2.tags _ _ ht1) (by simp) hn2)
  have k2 : (writeEntry s₄ pt (ptIndex v) leaf).mem pd (pdIndex v) = s₄.mem pd (pdIndex v) :=
    hup (g34.tags _ _ ht2) (by simp)
  have hopen : Opens write s.mem s.pml4 (tablePath v) ↔
      permits write (s₁.mem s.pml4 (pml4Index v)) = true ∧
        permits write (s₂.mem pdpt (pdpIndex v)) = true ∧
          permits write (s₄.mem pd (pdIndex v)) = true := by
    rw [tablePath, getOrCreateTable_opens h h.root (by simp) h1,
      getOrCreateTable_opens g1.forest ht1 (by simp) h2, splitHugePage_opens g2.forest h3,
      getOrCreateTable_opens g3.forest (g3.tags _ _ ht2) (by simp) h4, Opens, and_true]
  have hpml : (writeEntry s₄ pt (ptIndex v) leaf).pml4 = s.pml4 := g24.pml4.trans g1.pml4
  rw [hpml, pathOf, userEntry_next (by rw [k4]; exact hn1), k4,
    userEntry_next (by rw [k3]; exact hn2), k3, userEntry_next (by rw [k2]; exact hn4), k2,
    userEntry, writeEntry_self, he, hopen]
  cases permits write (s₁.mem s.pml4 (pml4Index v)) <;>
    cases permits write (s₂.mem pdpt (pdpIndex v)) <;>
    cases permits write (s₄.mem pd (pdIndex v)) <;> simp [eq_comm]

/-- A page mapped for the user is usable at its frame, for writing too where that was asked for,
    if and only if the entries that were on its way let the user through, and the flags leave the
    address alone. -/
theorem mapUserPage_usable_iff (h : VmReach im s roots) (hpr : has flags pagePresent = true)
    (hm : pagingMapUserPage im s v phys flags = (true, s')) :
    userWalk s' (has flags pageWritable) v = some phys ↔
      Opens (has flags pageWritable) s.mem s.pml4 (tablePath v) ∧
        ((BitVec.ofNat 64 phys ||| flags) &&& pteAddrMask).toNat = phys := by
  obtain ⟨tag, hf, -⟩ := h.sound
  set leaf := (BitVec.ofNat 64 phys &&& pteAddrMask) ||| (flags ||| pageUser) with hleaf
  have hal : v % pageSize = 0 := (pagingMapPageFlags_ok hm).1
  have hlow : ∀ k < 12, leaf.getLsbD k = (flags.getLsbD k || pageUser.getLsbD k) := by
    intro k hk
    rw [hleaf, BitVec.getLsbD_or, BitVec.getLsbD_and, pteAddrMask_getLsbD hk, Bool.and_false,
      Bool.false_or, BitVec.getLsbD_or]
  have hperm : permits (has flags pageWritable) leaf = true := by
    rw [has_present] at hpr
    rw [permits, has_present, has_user, has_writable, has_writable, hlow 0 (by omega), hpr,
      hlow 2 (by omega), hlow 1 (by omega), show pageUser.getLsbD 2 = true from rfl]
    cases flags.getLsbD 1 <;> simp
  have haddr : leaf &&& pteAddrMask = (BitVec.ofNat 64 phys ||| flags) &&& pteAddrMask := by
    rw [hleaf, BitVec.and_or_distrib_right, BitVec.and_assoc, BitVec.and_self,
      BitVec.and_or_distrib_right, show pageUser &&& pteAddrMask = 0#64 from rfl, BitVec.or_zero,
      BitVec.and_or_distrib_right]
  have hentry : ∀ x, userEntry (has flags pageWritable) s'.mem s'.pml4 (pathOf v) = some x ↔
      Opens (has flags pageWritable) s.mem s.pml4 (tablePath v) ∧ x = leaf := fun x =>
    userEntry_mapped hf hm hperm
  rw [userWalk, Option.map_eq_some_iff, hal]
  constructor
  · rintro ⟨x, hx, hphys⟩
    obtain ⟨hopen, rfl⟩ := (hentry x).mp hx
    rw [Nat.add_zero, haddr] at hphys
    exact ⟨hopen, hphys⟩
  · rintro ⟨hopen, hphys⟩
    refine ⟨leaf, (hentry leaf).mpr ⟨hopen, rfl⟩, ?_⟩
    rw [haddr, hphys, Nat.add_zero]

/-! ### A page of the identity map -/

/-- A page of the identity map, mapped again for the user, in the tables `paging_init` made. -/
theorem mapped_most : ∃ s', pagingMapUserPage smallImage mostVm 0x1000000 0x1000000
      (pagePresent ||| pageWritable) = (true, s') ∧
    s'.mem s'.pml4 0 = frameWord smallImage.pdpTable ||| (pagePresent ||| pageWritable) := by
  obtain ⟨pt, he, ht⟩ := early_init smallImage (fun _ _ => 0#64) mostMemory
  obtain ⟨h0, h1, hi⟩ := @low_index 0x1000000 (by omega)
  obtain ⟨t, htab⟩ := Option.isSome_iff_exists.mp <| (ht (pdIndex 0x1000000)).mpr <| by
    rw [hi, initTables_most]
    omega
  have hal : 0x1000000 % pageSize = 0 := by decide
  obtain ⟨s', hm, he', -⟩ := he.mapPage_present (pagePresent ||| pageWritable ||| pageUser)
    (pagePresent ||| pageWritable ||| pageUser) hal hal h0 h1 htab
  refine ⟨s', hm, ?_⟩
  rw [he'.pml4, he'.root]
  rfl

/-- At 512 GiB no entry of the root was there. -/
theorem mapped_above_most : ∃ s', pagingMapUserPage smallImage mostVm 0x8000000000 0x1000000
    (pagePresent ||| pageWritable) = (true, s') := by
  obtain ⟨pt, he, -⟩ := early_init smallImage (fun _ _ => 0#64) mostMemory
  have hmany := spareTables_most
  rw [initTables_most] at he
  have hidx : pml4Index 0x8000000000 = 1 := by decide
  obtain ⟨-, -, -, s', hm, -⟩ := he.mapPage_above (v := 0x8000000000) (by omega)
    (pagePresent ||| pageWritable ||| pageUser) (pagePresent ||| pageWritable ||| pageUser) (by decide)
    (show 0x1000000 % pageSize = 0 by decide)
    (by rw [hidx]; decide) (by rw [hidx, pagingInit_root _ _ _ 1 (by decide)]; decide)
  exact ⟨s', hm⟩

/-- Of a page of the identity map and one above the first 512 GiB, mapped alike, a program can use the second
    only. -/
theorem mapUserPage_usable_most : ∃ s₁ s₂,
    pagingMapUserPage smallImage mostVm 0x1000000 0x1000000 (pagePresent ||| pageWritable) = (true, s₁) ∧
    userWalk s₁ true 0x1000000 ≠ some 0x1000000 ∧
    pagingMapUserPage smallImage mostVm 0x8000000000 0x1000000 (pagePresent ||| pageWritable) = (true, s₂) ∧
    userWalk s₂ true 0x8000000000 = some 0x1000000 := by
  obtain ⟨pt, he, -⟩ := early_init smallImage (fun _ _ => 0#64) mostMemory
  obtain ⟨s₁, hm₁, -⟩ := mapped_most
  obtain ⟨s₂, hm₂⟩ := mapped_above_most
  refine ⟨s₁, s₂, hm₁, fun hc => ?_, hm₂, ?_⟩
  · obtain ⟨hopen, -⟩ := (mapUserPage_usable_iff (TableReach.init _ _) (by decide) hm₁).mp hc
    rw [tablePath, he.pml4, show pml4Index 0x1000000 = 0 from rfl, Opens, he.root] at hopen
    obtain ⟨hper, -⟩ := hopen (nextTable_some (tableFlags_kernel.next (by decide))).1
    rw [show (3#64 : Word) = pagePresent ||| pageWritable from rfl, permits_kernel] at hper
    cases hper
  · refine (mapUserPage_usable_iff (TableReach.init _ _) (by decide) hm₂).mpr ⟨?_, by decide⟩
    rw [tablePath, he.pml4, show pml4Index 0x8000000000 = 1 from by decide, Opens,
      pagingInit_root _ _ _ 1 (by decide)]
    exact fun hc => absurd hc (by decide)

/-- The first entry on its way is the boot code's, which does not let the user through. -/
theorem mapped_not_usable :
    VmReach smallImage mostVm [smallImage.pmlTable] ∧
    ∃ s', pagingMapUserPage smallImage mostVm 0x1000000 0x1000000
        (pagePresent ||| pageWritable) = (true, s') ∧
      userWalk s' true 0x1000000 = none := by
  obtain ⟨s', hm, hroot⟩ := mapped_most
  refine ⟨TableReach.init _ _, s', hm, ?_⟩
  rw [userWalk, pathOf, userEntry, show pml4Index 0x1000000 = 0 from rfl, hroot, permits_kernel]
  · rfl
  · simp

end TypeOS.Sys
