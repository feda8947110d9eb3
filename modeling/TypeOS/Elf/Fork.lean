import TypeOS.Elf.Isolation
import TypeOS.Paging.Direct
import TypeOS.Paging.Lacking

/-! What a fork makes of an address space (`paging_clone_current_address_space (1)`).

    Each page that the program reaches is copied to a frame that was free, and every other page is
    translated as before. The copy is the user's nowhere else. The kernel, though, has all memory below
    `IDENTITY_4K_END` mapped to itself in every address space, so it finds the copies, and the tables made
    for them, at the addresses of their frames as well. -/

namespace TypeOS.Elf

open Paging Sys Radix

/-- The address space `c` that `s'` has besides is a copy of the current one, outside the window: what a
    program reaches is copied to frames that were free and that no other page of the user's has, every other
    page is translated in the same way, and nothing else is mapped. The current address space stays as it is,
    and the frames in use that are no page tables hold what they held. -/
structure Forked (im : Image) (s : Vm) (roots : List Nat) (c : Nat) (s' : Vm) : Prop where
  root : s'.pml4 = s.pml4
  kept : ∀ v, ¬ Window (pathOf v) → walk s'.mem s'.pml4 v = walk s.mem s.pml4 v
  bytes : ∀ f, bitmapTest s f = true → ¬ IsTable im s roots f → s'.mem f = s.mem f
  shared : ∀ v, ¬ Window (pathOf v) → (∀ e, walk s.mem s.pml4 v ≠ some (e, true)) →
    walk s'.mem c v = walk s.mem s.pml4 v
  copied : ∀ v e, ¬ Window (pathOf v) → walk s.mem s.pml4 v = some (e, true) →
    ∃ e', walk s'.mem c v = some (e', true) ∧ e' = frameWord (entryFrame e') ||| (e &&& ~~~pteAddrMask) ∧
      bitmapTest s (entryFrame e') = false ∧ s'.mem (entryFrame e') = s.mem (entryFrame e) ∧
      ∀ r ∈ c :: roots, ∀ u e₁, UserEntry s' r u e₁ → entryFrame e₁ = entryFrame e' →
        r = c ∧ pathOf u = pathOf v

variable {im : Image} {s s' : Vm} {tag tag' : Nat → Option Path} {roots : List Nat} {kernel : Set Nat}
  {c f v : Nat}

theorem UserSound.users (h : UserSound im s roots kernel tag) : UserFrames s tag s.pml4 :=
  fun v e hv hw => h.frames _ h.root v e (userEntry_of_walk h.forest h.forest.root hv hw)

/-- A frame in use that is no page table is not written to. -/
theorem fork_frame (h : UserSound im s roots kernel tag)
    (hc : pagingCloneCurrentAddressSpace im s true = (some c, s')) (hused : bitmapTest s f = true)
    (hno : ¬ IsTable im s roots f) : s'.mem f = s.mem f := by
  obtain ⟨tag₁, h₁, hnone⟩ := h.without hno
  obtain ⟨tag', D, hcopy, -⟩ := cloneUser_copies h₁.forest h₁.users hc
  exact hcopy.changed.frames f hnone hused

/-- A fork that works, in every reachable state. -/
theorem fork_copies (him : im.kernelEnd ≤ userImagePhysStart) (h : UserReach im s roots kernel)
    (hc : pagingCloneCurrentAddressSpace im s true = (some c, s')) : Forked im s roots c s' := by
  obtain ⟨tag, hs⟩ := h.sound him
  have hreach' : UserReach im s' (c :: roots) kernel := by
    have := h.clone true
    rwa [hc] at this
  obtain ⟨tag₁, hs'⟩ := hreach'.sound him
  obtain ⟨tag', D, hcopy, -, -, hdup⟩ := cloneUser_copies hs.forest hs.users hc
  have hch := hcopy.changed
  have hkept : ∀ r ∈ roots, ∀ v, ¬ Window (pathOf v) → walk s'.mem r v = walk s.mem r v :=
    fun r hr v hv => hch.walks r v (hs.spaces r hr) fun hc => hv hc.1
  refine ⟨hch.pml4, fun v hv => ?_, fun f hused hno => fork_frame hs hc hused hno, fun v hv hno => ?_,
    fun v e hv hw => ?_⟩
  · rw [hch.pml4, hkept _ hs.root v hv]
  · have hdup := hdup v hv
    rcases hw : walk s.mem s.pml4 v with _ | ⟨e, _ | _⟩
    · rwa [hw] at hdup
    · rwa [hw] at hdup
    · exact absurd hw (hno e)
  · have hdup := hdup v hv
    rw [hw] at hdup
    obtain ⟨e', hw', hown⟩ := hdup
    refine ⟨e', hw', hown.entry, hown.free, hown.words, fun r hr u e₁ he₁ hf => ?_⟩
    have himg : ¬ ImageFrame (entryFrame e₁) := fun hc => by
      have hused := (hs.image _ hc).2
      rw [hf, hown.free] at hused
      cases hused
    have hcopy := userEntry_of_walk hs'.forest (hs'.spaces c (List.mem_cons_self ..)) hv hw'
    obtain ⟨hpath, -⟩ := hs'.once r hr u e₁ he₁ c (List.mem_cons_self ..) v e' hcopy hf himg
    rcases List.mem_cons.mp hr with rfl | hr
    · exact ⟨rfl, hpath⟩
    · -- the others had their frames before
      have hold : UserEntry s r u e₁ := he₁.congr (hkept r hr u he₁.outside)
      have hused := (hs.frames r hr u e₁ hold).used
      rw [hf, hown.free] at hused
      cases hused

/-! ### A program of one page -/

/-- The page that a frame below `IDENTITY_4K_END` is mapped to, while it is free. -/
theorem free_identity (h : UserSound im s roots kernel tag) (hlow : Low s tag') (hfree : bitmapTest s f = false) :
    ¬ Window (pathOf (f * pageSize)) ∧
      ∃ e, walk s.mem s.pml4 (f * pageSize) = some (e, false) ∧ entryFrame e = f := by
  have haddr := low_addr (hlow.free f hfree)
  have hout : ¬ Window (pathOf (f * pageSize)) := by
    rintro (hc | hc) <;>
    · have := pathOf_inj (by simp only [identity4kEnd] at haddr; omega) (by decide) hc
      simp only [kernelKmapWindow, identity4kEnd, pageSize] at this haddr
      omega
  have hpos : f ≠ 0 := by
    rintro rfl
    rw [h.forest.null] at hfree
    cases hfree
  have hphys := hlow.ident _ haddr
  rw [pagingVirtToPhys, h.forest.virtToPhys_eq h.forest.root] at hphys
  refine ⟨hout, ?_⟩
  rcases hw : walk s.mem s.pml4 (f * pageSize) with _ | ⟨e, b⟩
  · rw [hw, Option.map_none, Option.getD_none] at hphys
    simp only [pageSize] at hphys
    omega
  · rw [hw, Option.map_some, Option.getD_some] at hphys
    have hf : entryFrame e = f := by
      simp only [pageSize] at hphys
      omega
    cases b with
    | false => exact ⟨e, rfl, hf⟩
    | true =>
      have hused := (h.users _ e hout hw).used
      rw [hf, hfree] at hused
      cases hused

/-- The state after a program of a machine of 64 MiB asked for a page at 512 GiB. -/
theorem low_mmap (hcall : mapUserLoop smallImage (mmapFlags 3) 1 0x8000000000 lowVm = (true, s)) :
    UserReach smallImage s [smallImage.pmlTable] ∅ ∧ ∃ tag, Low s tag := by
  have hmmap : sysMmap smallImage lowVm 0x8000000000 4096 3 0x20 = (.ok 0x8000000000, s) := by
    rw [sysMmap, if_neg (by decide), show mmapAddr 0x8000000000 = 0x8000000000 from by decide,
      pagingMapUserRange, show userRangePages 0x8000000000 4096 = 1 from by decide,
      show pageOf 0x8000000000 = 0x8000000000 from by decide, hcall]
  constructor
  · have := TableReach.mmap 0x8000000000 4096 3 0x20
      (TableReach.init (fun _ _ => 0#64) lowMemory : UserReach smallImage lowVm _ _)
    rwa [hmmap] at this
  · obtain ⟨-, tag, hlow⟩ := lowVm_low
    obtain ⟨tag', g, -⟩ := @mapUserLoop_spec smallImage (mmapFlags 3) 1 0x8000000000 _ tag hlow.forest
    rw [hcall] at g
    refine ⟨tag', hlow.changed g.toChanged fun a ha hg => ?_⟩
    rcases hg with hg | ⟨j, hj, hg⟩
    · exact window_above ha hg
    · obtain rfl : j = 0 := by omega
      rw [Nat.zero_mul, Nat.add_zero] at hg
      exact path_above (by decide) (by decide) ha hg

/-- A clone's first table is the frame that `paging_alloc_table` gives. -/
theorem clone_root {copyUser : Bool} (hc : pagingCloneCurrentAddressSpace im s copyUser = (some c, s')) :
    (pagingAllocTable im s).1 = some c := by
  rw [pagingCloneCurrentAddressSpace] at hc
  rcases ha : pagingAllocTable im s with ⟨_ | d, s₁⟩
  · rw [ha] at hc
    cases hc
  · rw [ha] at hc
    dsimp only at hc
    split at hc
    · cases hc
    · next hrest =>
      exact (Prod.mk.inj hc).1

/-- It can fork then, and the frame of the new first table may hold anything before. -/
theorem fork_low : ∃ s e tag c, UserReach smallImage s [smallImage.pmlTable] ∅ ∧ Low s tag ∧
    walk s.mem s.pml4 0x8000000000 = some (e, true) ∧ bitmapTest s c = false ∧
    ∀ words, ∃ s', pagingCloneCurrentAddressSpace smallImage (writeFrame s c words) true = (some c, s') := by
  have hmany := spareTables_low
  have hinit := initTables_low
  obtain ⟨s, e, hcall, hw, ⟨f, hf⟩, hclone⟩ :=
    @clone_above lowMemory (mmapFlags 3) (by omega) (by decide) (by decide)
  obtain ⟨hreach, tag, hlow⟩ := low_mmap hcall
  have hfirst : ∀ {g words c s'}, pagingCloneCurrentAddressSpace smallImage (writeFrame s g words) true =
      (some c, s') → (pagingAllocTable smallImage s).1 = some c :=
    fun {g words c s'} h => by
      have hsame : (pagingAllocTable smallImage (writeFrame s g words)).1 = (pagingAllocTable smallImage s).1 :=
        pagingAllocTable_congr (fun _ => rfl) rfl
      rw [← hsame, clone_root h]
  obtain ⟨c, s', hc⟩ := hclone f (s.mem f) hf
  have halloc := hfirst hc
  have hfree : bitmapTest s c = false :=
    (pagingAllocTable_some hlow.forest.null (Prod.ext halloc rfl : pagingAllocTable smallImage s = (some c, _))).free
  refine ⟨s, e, tag, c, hreach, hlow, hw, hfree, fun words => ?_⟩
  obtain ⟨c', s', hc'⟩ := hclone c words hfree
  have hsame := hfirst hc'
  rw [halloc, Option.some.injEq] at hsame
  exact ⟨s', hsame ▸ hc'⟩

/-- A root without entries translates nothing. -/
theorem walk_zero {m : Paging.Memory} (h : m c = fun _ => 0#64) : walk m c v = none := by
  have hno : has 0#64 pagePresent = false := by decide
  simp [walk, pathOf, look, h, translator, nextTable_none hno, leafEntry]

/-- The child has a page of its own there, with the same words, and has it nowhere else. -/
theorem fork_copies_low : ∃ s e c s' e', UserReach smallImage s [smallImage.pmlTable] ∅ ∧
    walk s.mem s.pml4 0x8000000000 = some (e, true) ∧
    pagingCloneCurrentAddressSpace smallImage s true = (some c, s') ∧
    walk s'.mem s'.pml4 0x8000000000 = some (e, true) ∧ walk s'.mem c 0x8000000000 = some (e', true) ∧
    entryFrame e' ≠ entryFrame e ∧ s'.mem (entryFrame e') = s.mem (entryFrame e) ∧
    ∀ u e₁, UserEntry s' c u e₁ → entryFrame e₁ = entryFrame e' → pathOf u = pathOf 0x8000000000 := by
  obtain ⟨s, e, tag, c, hreach, hlow, hw, hfree, hclone⟩ := fork_low
  obtain ⟨s', hc⟩ := hclone (s.mem c)
  rw [writeFrame, Function.update_eq_self] at hc
  have hout : ¬ Window (pathOf 0x8000000000) := by
    rintro (hw | hw) <;> exact absurd hw (by decide)
  have hforked := fork_copies (by decide) hreach hc
  obtain ⟨tag₁, hs⟩ := hreach.sound (by decide)
  obtain ⟨e', hw', -, hnew, hwords, hone⟩ := hforked.copied _ e hout hw
  refine ⟨s, e, c, s', e', hreach, hw, hc, (hforked.kept _ hout).trans hw, hw', fun hsame => ?_, hwords,
    fun u e₁ hu hf => (hone c (List.mem_cons_self ..) u e₁ hu hf).2⟩
  rw [hsame, (hs.users _ e hout hw).used] at hnew
  cases hnew

/-- The copy's frame is mapped to itself as well, for the kernel, also in the new address space; and the page
    that the current one has for the frame of the new first table holds something else after the fork. -/
theorem fork_seen_low : ∃ s c s' e' u e₁ u' e₂, UserReach smallImage s [smallImage.pmlTable] ∅ ∧
    pagingCloneCurrentAddressSpace smallImage s true = (some c, s') ∧
    walk s'.mem c 0x8000000000 = some (e', true) ∧
    ¬ Window (pathOf u) ∧ pathOf u ≠ pathOf 0x8000000000 ∧ walk s'.mem c u = some (e₁, false) ∧
    entryFrame e₁ = entryFrame e' ∧
    ¬ Window (pathOf u') ∧ walk s.mem s.pml4 u' = some (e₂, false) ∧
    s'.mem (entryFrame e₂) ≠ s.mem (entryFrame e₂) := by
  obtain ⟨s₀, e, tag, c, hreach₀, hlow₀, hw₀, hfree, hclone⟩ := fork_low
  obtain ⟨s', hc⟩ := hclone fun _ => 0#64
  obtain ⟨tag₀, hs₀⟩ := hreach₀.sound (by decide)
  have hreach : UserReach smallImage (writeFrame s₀ c fun _ => 0#64) [smallImage.pmlTable] ∅ :=
    hreach₀.step (.data c _ fun ht => by
      obtain ⟨p, hp⟩ := isTable_tagged hs₀.toLoadSound ht
      rw [hs₀.forest.untagged hfree] at hp
      cases hp)
  have g := (Mapped.refl (E := fun _ => True) (W := fun _ => False) hlow₀.forest).fill (w := fun _ => 0#64)
    hfree (hlow₀.forest.untagged hfree)
  have hlow := hlow₀.changed g.toChanged fun _ _ hc => hc
  have hw := (g.walks _ 0x8000000000 hlow₀.forest.root fun hc => hc.1).trans hw₀
  have hzero : (writeFrame s₀ c fun _ => 0#64).mem c = fun _ => 0#64 := Function.update_self ..
  set s := writeFrame s₀ c fun _ => 0#64
  obtain ⟨tag₁, hs⟩ := hreach.sound (by decide)
  obtain ⟨tag', D, hcopy, -, -, hdup⟩ := cloneUser_copies hs.forest hs.users hc
  have hout : ¬ Window (pathOf 0x8000000000) := by
    rintro (hw | hw) <;> exact absurd hw (by decide)
  have hdup' := hdup _ hout
  rw [show s.pml4 = s₀.pml4 from rfl, hw] at hdup'
  obtain ⟨e', hw', hown⟩ := hdup'
  obtain ⟨hout₁, e₁, hw₁, hf₁⟩ := free_identity hs hlow hown.free
  have hchild := hdup _ hout₁
  rw [hw₁] at hchild
  obtain ⟨hout₂, e₂, hw₂, hf₂⟩ := free_identity hs hlow (show bitmapTest s c = false from hfree)
  refine ⟨s, c, s', e', _, e₁, _, e₂, hreach, hc, hw', hout₁, fun hpath => ?_, hchild, hf₁, hout₂, hw₂,
    fun hsame => ?_⟩
  · have hw₂ : walk s'.mem c (entryFrame e' * pageSize) = some (e₁, false) := hchild
    rw [walk, hpath] at hw₂
    rw [walk, hw₂] at hw'
    cases hw'
  · rw [hf₂, hzero] at hsame
    rw [walk_zero hsame] at hw'
    cases hw'

end TypeOS.Elf
