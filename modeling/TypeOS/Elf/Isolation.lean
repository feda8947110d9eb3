import TypeOS.Elf.Private
import TypeOS.Paging.CloneRoom
import TypeOS.Paging.Frames

/-! How far address spaces are kept apart.

    `UserReach` is every state that the kernel and user programs bring the tables to, with the roots of the
    address spaces there are and the frames that the kernel took for itself. In all of them a user program
    reaches no table, no frame of the kernel's, and but for the fixed images nothing that another program
    reaches by another page-table entry. -/

namespace TypeOS.Elf

open Paging Sys Radix
open Fs (Text Vfs Ptr)

/-- What programs have done to their address space: they write to their pages, a stack is mapped, and
    segments are loaded. -/
inductive UserAlso (im : Image) (s : Vm) : Vm → Prop
  | store (virt : Nat) (e : Word) (words : Fin 512 → Word) (hv : ¬ Window (pathOf virt))
    (hw : walk s.mem s.pml4 virt = some (e, true)) : UserAlso im s (writeFrame s (entryFrame e) words)
  | stack : UserAlso im s (pagingMapUserRange im s (userStackTop - userStackSize) (userStackSize + pageSize)
      (pagePresent ||| pageWritable)).2
  | segment (fs : Vfs) (file : Option Ptr) (kbuf : Nat → Bytes.Memory) (ph : ProgramHeader) :
    UserAlso im s (elfMapSegment im fs file kbuf ph s).2

/-- The kernel maps pages for itself, and gives back the frames that it took. -/
def userRules (im : Image) : Rules (Set Nat) where
  maps flags := flags = pagePresent ||| pageWritable
  frees _ _ kernel frame := frame ∈ kernel
  also := UserAlso im
  start := ∅
  takes kernel a := kernel ∪ frameOf a
  gives kernel frame := kernel \ {frame}

/-- The states that are reached from `paging_init`: the kernel maps, unmaps, takes and gives back frames for
    itself and writes to what is no table; address spaces are cloned and switched; programs ask for memory
    and are loaded, and write to their pages. -/
abbrev UserReach (im : Image) (s : Vm) (roots : List Nat) (kernel : Set Nat) : Prop :=
  TableReach im (userRules im) s roots kernel

variable {im : Image} {s s' s₁ : Vm} {tag tag' : Nat → Option Path} {roots : List Nat} {kernel : Set Nat}
  {r r' c f v v' : Nat} {e e' : Word}

/-! ### The start -/

/-- Before the identity map there is no page table at all. -/
theorem initFrames_user (him : im.kernelEnd ≤ userImagePhysStart) (mem : Paging.Memory)
    (mb : MultibootInfo) : UserSound im (pagingInitFrames im mem mb) [im.pmlTable] ∅ (bootTag im) := by
  have h := initFrames_sound him mem mb
  have hno : ∀ r ∈ [im.pmlTable], ∀ v e, ¬ UserEntry (pagingInitFrames im mem mb) r v e := by
    intro r hr v e he
    obtain ⟨pt, hpt⟩ := he.table h.forest (h.spaces r hr)
    have ht := h.forest.tagged.descend (h.spaces r hr) (by simp [tablePath]) hpt
    rcases bootTag_some ht with ⟨-, hc⟩ | ⟨-, hc⟩ | ⟨-, hc⟩ <;> simp [tablePath] at hc
  exact ⟨h, fun r hr v e he => absurd he (hno r hr v e), fun r hr v e he => absurd he (hno r hr v e),
    fun _ hf => hf.elim, fun r hr v e he => absurd he (hno r hr v e), fun r hr v e he =>
    absurd he (hno r hr v e)⟩

theorem UserSound.init (him : im.kernelEnd ≤ userImagePhysStart) (mem : Paging.Memory)
    (mb : MultibootInfo) : ∃ tag, UserSound im (pagingInit im mem mb) [im.pmlTable] ∅ tag := by
  have hloop : ∀ (n addr : Nat) {s : Vm} {tag : Nat → Option Path}, UserSound im s [im.pmlTable] ∅ tag →
      ∃ tag', UserSound im (extendIdentityFrom im n addr s) [im.pmlTable] ∅ tag' := by
    intro n
    induction n with
    | zero => exact fun _ _ _ h => ⟨_, h⟩
    | succ n ih =>
      intro addr s tag h
      rcases hm : pagingMapPage im s addr addr (pagePresent ||| pageWritable) with ⟨ok, s₁⟩
      obtain ⟨tag₁, h₁⟩ := h.map (by decide) (by decide) hm
      rw [extendIdentityFrom, hm]
      cases ok with
      | false => exact ⟨tag₁, h₁⟩
      | true => exact ih (addr + pageSize) h₁
  exact hloop _ _ (initFrames_user him mem mb)

/-! ### A new address space -/

/-- A root joins whose pages of the user are the current root's, or have frames that were free before and
    are different ones. -/
theorem UserSound.join (h : UserSound im s roots kernel tag) (h' : UserSound im s' roots kernel tag')
    (hold : ∀ r ∈ roots, ∀ v e, UserEntry s' r v e → UserEntry s r v e) (hc : tag' c = some [])
    (hdir : WindowDir s' c) (hin : ∀ v e, UserEntry s' c v e →
      UserEntry s' s'.pml4 v e ∧ Shares s' c v ∨
        PageFrame s' tag' (entryFrame e) ∧ bitmapTest s (entryFrame e) = false)
    (hone : ∀ v e v' e', UserEntry s' c v e → UserEntry s' c v' e' → entryFrame e = entryFrame e' →
      bitmapTest s (entryFrame e) = false → pathOf v = pathOf v') :
    UserSound im s' (c :: roots) kernel tag' := by
  have hused : ∀ r ∈ roots, ∀ v e, UserEntry s' r v e → bitmapTest s (entryFrame e) = true :=
    fun r hr v e he => (h.frames r hr v e (hold r hr v e he)).used
  refine ⟨⟨h'.forest, ?_, ?_, List.mem_cons_of_mem _ h'.root, h'.boot, h'.image⟩, ?_, ?_, h'.held, ?_, ?_⟩
  · exact List.forall_mem_cons.mpr ⟨hc, h'.spaces⟩
  · exact List.forall_mem_cons.mpr ⟨hdir, h'.dirs⟩
  · refine List.forall_mem_cons.mpr ⟨fun v e he => ?_, h'.frames⟩
    rcases hin v e he with ⟨hroot, -⟩ | ⟨hpage, -⟩
    · exact h'.frames _ h'.root v e hroot
    · exact hpage
  · -- a page that is the current root's may be taken for that one
    have hmix : ∀ v e, UserEntry s' c v e → ∀ r' ∈ roots, ∀ v' e', UserEntry s' r' v' e' →
        entryFrame e = entryFrame e' → ¬ ImageFrame (entryFrame e) → SameEntry s' c v r' v' := by
      intro v e he r' hr' v' e' he' hf himg
      rcases hin v e he with ⟨hroot, pt, hpt, hpt'⟩ | ⟨-, hfree⟩
      · obtain ⟨hpath, pt₂, hpt₂, hpt₂'⟩ := h'.once _ h'.root v e hroot r' hr' v' e' he' hf himg
        rw [hpt, Option.some.injEq] at hpt₂
        exact ⟨hpath, pt, hpt', hpt₂ ▸ hpt₂'⟩
      · rw [hf, hused r' hr' v' e' he'] at hfree
        cases hfree
    have hflip : ∀ {r v r' v' : Nat}, SameEntry s' r v r' v' → SameEntry s' r' v' r v :=
      fun ⟨hpath, pt, hpt, hpt'⟩ => ⟨hpath.symm, pt, hpt', hpt⟩
    refine List.forall_mem_cons.mpr ⟨fun v e he => List.forall_mem_cons.mpr ⟨fun v' e' he' hf himg => ?_,
      hmix v e he⟩, fun r hr v e he => List.forall_mem_cons.mpr ⟨fun v' e' he' hf himg => ?_,
      h'.once r hr v e he⟩⟩
    · rcases hin v e he with ⟨hroot, pt, hpt, hpt'⟩ | ⟨-, hfree⟩
      · obtain ⟨hpath, pt₂, hpt₂, hpt₂'⟩ := hflip (hmix v' e' he' _ h'.root v e hroot hf.symm (hf ▸ himg))
        rw [hpt, Option.some.injEq] at hpt₂
        exact ⟨hpath, pt, hpt', hpt₂ ▸ hpt₂'⟩
      · have hpath := hone v e v' e' he he' hf hfree
        obtain ⟨pt, hpt⟩ := he.table h'.forest hc
        exact ⟨hpath, pt, hpt, (ptOf_path hpath).symm.trans hpt⟩
    · exact hflip (hmix v' e' he' r hr v e he hf.symm (hf ▸ himg))
  · refine List.forall_mem_cons.mpr ⟨fun v e he hk => ?_, h'.apart⟩
    rcases hin v e he with ⟨hroot, -⟩ | ⟨-, hfree⟩
    · exact h'.apart _ h'.root v e hroot hk
    · rw [(h.held _ hk).1.used] at hfree
      cases hfree
  · refine List.forall_mem_cons.mpr ⟨fun v e he => ?_, h'.places⟩
    rcases hin v e he with ⟨hroot, -⟩ | ⟨-, hfree⟩
    · exact h'.places _ h'.root v e hroot
    · exact h.toLoadSound.inPlace hfree

/-- The pages that are the current root's for the user are copied, and the others are shared. -/
theorem UserSound.cloneUser (h : UserSound im s roots kernel tag)
    (hc : pagingCloneCurrentAddressSpace im s true = (some c, s')) :
    ∃ tag', UserSound im s' (c :: roots) kernel tag' ∧ UserSound im s' roots kernel tag' := by
  have huser : UserFrames s tag s.pml4 := fun v e hv hw =>
    h.frames _ h.root v e (userEntry_of_walk h.forest h.forest.root hv hw)
  obtain ⟨tag', D, hcopy, hD, hroot, -⟩ := cloneUser_copies h.forest huser hc
  have hch := hcopy.changed
  have h' := h.window hch fun _ hπ => hπ
  have hold : ∀ r ∈ roots, ∀ v e, UserEntry s' r v e → UserEntry s r v e := fun r hr v e he =>
    he.congr (hch.walks r v (h.spaces r hr) fun hc => he.outside hc.1)
  have hdir : WindowDir s' c := by
    obtain ⟨tag₂, D₂, hcl, hres⟩ := cloneUser_spec h.forest hc
    obtain ⟨-, -, hcopied⟩ := hres c rfl
    exact copied_windowDir h.forest hcl.changed hcopied (h.dirs _ h.root)
  have hentry : ∀ v e, UserEntry s' c v e →
      (∃ t, UserLeaf s' tag' D t (ptIndex v) ∧ s'.mem t (ptIndex v) = e ∧ tag' t = some (tablePath v)) ∨
        UserEntry s' s'.pml4 v e ∧ Shares s' c v := by
    intro v e he
    obtain ⟨b, hw⟩ := he.maps
    rcases hcopy.user_entry he.user hD hroot (q := tablePath v) rfl hw with hown | ⟨-, pt, hpt, hpt'⟩
    · exact Or.inl hown
    · exact Or.inr ⟨he.shared ⟨pt, hpt', hpt⟩, pt, hpt', hpt⟩
  refine ⟨tag', h.join h' hold hroot hdir (fun v e he => ?_) (fun v e v' e' he he' hf hfree => ?_), h'⟩
  · rcases hentry v e he with ⟨t, hl, rfl, ht⟩ | hshared
    · obtain ⟨hfree, hpage, hused⟩ := hcopy.leaves t _ _ hl.mine ht rfl hl.present hl.user
      exact Or.inr ⟨⟨hpage, hused⟩, hfree⟩
    · exact Or.inl hshared
  · -- what is shared was in use
    have hown : ∀ {v e}, UserEntry s' c v e → bitmapTest s (entryFrame e) = false →
        ∃ t, UserLeaf s' tag' D t (ptIndex v) ∧ s'.mem t (ptIndex v) = e ∧ tag' t = some (tablePath v) := by
      intro v e he hfree
      rcases hentry v e he with hown | ⟨hroot', -⟩
      · exact hown
      · rw [(h.frames _ h.root v e (hold _ h.root v e (hch.pml4 ▸ hroot'))).used] at hfree
        cases hfree
    obtain ⟨t, hl, rfl, ht⟩ := hown he hfree
    obtain ⟨t', hl', rfl, ht'⟩ := hown he' (hf ▸ hfree)
    obtain ⟨rfl, hi⟩ := Prod.mk.inj (hcopy.apart _ _ _ _ hl hl' hf)
    rw [ht, Option.some.injEq] at ht'
    rw [pathOf_eq, pathOf_eq, ht', hi]

/-- A clone that copies no user memory has the current root's entries. -/
theorem UserSound.cloneShared (h : UserSound im s roots kernel tag)
    (hc : pagingCloneCurrentAddressSpace im s false = (some c, s')) :
    ∃ tag', UserSound im s' (c :: roots) kernel tag' := by
  rcases cloneShared_spec h.forest hc with ⟨hnone, -⟩ | ⟨r, s₁, hr, hfr, hs⟩
  · cases hnone
  obtain rfl := Option.some.inj hr
  obtain ⟨hch, hwalk⟩ := cloneShared_forest h.forest hfr hs
  have h' := h.window hch fun _ hπ => hπ
  have hold : ∀ r ∈ roots, ∀ v e, UserEntry s' r v e → UserEntry s r v e := fun r hr v e he =>
    he.congr (hch.walks r v (h.spaces r hr) fun hc => he.outside hc.1)
  have hne : s.pml4 ≠ c := h.forest.ne_free h.forest.root hfr.free
  have hpt : ∀ v, ptOf s'.mem c v = ptOf s'.mem s'.pml4 v := by
    intro v
    have hnext : nextTable (s'.mem c (pml4Index v)) = nextTable (s'.mem s'.pml4 (pml4Index v)) := by
      rw [hch.pml4, hs]
      simp only [writeFrame, Function.update_self, Function.update_of_ne hne, hfr.other _ hne]
      split
      · rfl
      · next hpr =>
        exact (nextTable_none (by simp)).trans (nextTable_none (by simpa using hpr)).symm
    simp only [ptOf, tablePath, descend, hnext]
  have htag : Function.update tag c (some []) c = some [] := Function.update_self ..
  have hin : ∀ v e, UserEntry s' c v e → UserEntry s' s'.pml4 v e ∧ Shares s' c v := by
    intro v e he
    have hsame : walk s'.mem s'.pml4 v = walk s.mem s.pml4 v := by
      rw [hch.pml4, hch.walks _ v h.forest.root fun hc => he.outside hc.1]
    obtain ⟨pt, ht⟩ := he.table h'.forest htag
    exact ⟨he.congr ((hwalk v).trans hsame.symm), pt, (hpt v).symm.trans ht, ht⟩
  have hused : ∀ v e, UserEntry s' c v e → bitmapTest s (entryFrame e) = true := fun v e he =>
    (h.frames _ h.root v e (hold _ h.root v e (hch.pml4 ▸ (hin v e he).1))).used
  refine ⟨_, h.join h' hold htag ?_ (fun v e he => Or.inl (hin v e he)) fun v e v' e' he he' hf hfree => ?_⟩
  · obtain ⟨tag₂, hl⟩ := h.toLoadSound.clone false
    rw [hc] at hl
    exact hl.dirs c (List.mem_cons_self ..)
  · rw [hused v e he] at hfree
    cases hfree

theorem UserSound.clone (h : UserSound im s roots kernel tag) (copyUser : Bool) : ∃ tag',
    UserSound im (pagingCloneCurrentAddressSpace im s copyUser).2
      ((pagingCloneCurrentAddressSpace im s copyUser).1.toList ++ roots) kernel tag' := by
  rcases hc : pagingCloneCurrentAddressSpace im s copyUser with ⟨_ | c, s'⟩
  · cases copyUser with
    | true =>
      obtain ⟨tag', D, hcl, -⟩ := cloneUser_spec h.forest hc
      exact ⟨tag', h.window hcl.changed fun _ hπ => hπ⟩
    | false =>
      rcases cloneShared_spec h.forest hc with ⟨-, rfl⟩ | ⟨r, s₁, hr, -⟩
      · exact ⟨tag, h⟩
      · cases hr
  · cases copyUser with
    | true =>
      obtain ⟨tag', h', -⟩ := h.cloneUser hc
      exact ⟨tag', h'⟩
    | false => exact h.cloneShared hc

theorem UserSound.switch (h : UserSound im s roots kernel tag) (hr : c ∈ roots) :
    UserSound im (pagingSwitchCr3 s c) roots kernel tag := by
  have hold : ∀ r v e, UserEntry (pagingSwitchCr3 s c) r v e → UserEntry s r v e := fun _ _ _ he => he.congr rfl
  refine ⟨⟨h.forest.switch (h.spaces c hr), h.spaces, h.dirs, hr, h.boot, h.image⟩, fun r hr v e he => ?_,
    fun r hr v e he r' hr' v' e' he' => ?_, fun g hg => ?_, fun r hr v e he => ?_, fun r hr v e he => ?_⟩
  · exact ⟨(h.frames r hr v e (hold r v e he)).untagged, (h.frames r hr v e (hold r v e he)).used⟩
  · exact h.once r hr v e (hold r v e he) r' hr' v' e' (hold r' v' e' he')
  · exact ⟨⟨(h.held g hg).1.untagged, (h.held g hg).1.used⟩, (h.held g hg).2⟩
  · exact h.apart r hr v e (hold r v e he)
  · exact h.places r hr v e (hold r v e he)

/-! ### Frames of the kernel -/

theorem UserSound.allocPage (h : UserSound im s roots kernel tag) : ∃ tag',
    UserSound im (pagingAllocPage s).2 roots (kernel ∪ frameOf (pagingAllocPage s).1) tag' := by
  rcases pagingAllocPage_cases h.forest.null with ha | ⟨f, hfree, ha⟩
  · rw [ha, show frameOf none = ∅ by ext g; simp [frameOf], Set.union_empty]
    exact ⟨tag, h⟩
  · rw [ha, frameOf_some rfl]
    have h' := h.closed (Mapped.take (E := fun _ => True) (W := fun _ => False) h.forest f).toChanged
      fun _ _ hc => hc.elim
    refine ⟨tag, h'.toLoadSound, h'.frames, h'.once, ?_, ?_, h'.places⟩
    · rintro g (hg | rfl)
      · exact h'.held g hg
      · refine ⟨⟨h.forest.untagged hfree, ?_⟩, fun himg => ?_⟩
        · rw [bitmapTest_bitmapSet, decide_eq_true rfl, Bool.true_or]
        · rw [(h.image _ himg).2] at hfree
          cases hfree
    · rintro r hr v e he (hk | hk)
      · exact h'.apart r hr v e he hk
      · have hold : UserEntry s r v e := he.congr (by rw [bitmapSet_mem])
        rw [← Set.mem_singleton_iff.mp hk, (h.frames r hr v e hold).used] at hfree
        cases hfree

theorem UserSound.freePage (h : UserSound im s roots kernel tag) (hown : f ∈ kernel) :
    UserSound im (pagingFreePage s (f * pageSize)) roots (kernel \ {f}) tag := by
  obtain ⟨hpage, himg⟩ := h.held f hown
  have hdiv : f * pageSize / pageSize = f := frame_div f
  obtain ⟨hm, hr, -, hb⟩ := pagingFreePage_eq s (f * pageSize)
  rw [hdiv] at hb
  have hold : ∀ r v e, UserEntry (pagingFreePage s (f * pageSize)) r v e → UserEntry s r v e :=
    fun r v e he => he.congr (by rw [hm])
  have hkeep : ∀ g, g ≠ f → PageFrame s tag g → PageFrame (pagingFreePage s (f * pageSize)) tag g :=
    fun g hne hg => ⟨hg.untagged, (hb g hne).trans hg.used⟩
  refine ⟨⟨freePage_forest h.forest (Nat.mul_mod_left ..) (hdiv.symm ▸ hpage.untagged), h.spaces,
    fun r hr => ?_, hr ▸ h.root, h.boot, fun g hg => ⟨(h.image g hg).1, ?_⟩⟩, fun r hr v e he => ?_,
    fun r hr v e he r' hr' v' e' he' hf hi => ?_, fun g hg => ?_, fun r hr v e he hk => ?_,
    fun r hr v e he => h.places r hr v e (hold r v e he)⟩
  · rw [WindowDir, hm]
    exact h.dirs r hr
  · rw [hb g fun hc => himg (hc ▸ hg)]
    exact (h.image g hg).2
  · refine hkeep _ (fun hc => h.apart r hr v e (hold r v e he) (hc ▸ hown)) ?_
    exact h.frames r hr v e (hold r v e he)
  · obtain ⟨hpath, pt, hpt, hpt'⟩ := h.once r hr v e (hold r v e he) r' hr' v' e' (hold r' v' e' he') hf hi
    exact ⟨hpath, pt, by rw [hm, hpt], by rw [hm, hpt']⟩
  · exact ⟨hkeep g hg.2 (h.held g hg.1).1, (h.held g hg.1).2⟩
  · exact h.apart r hr v e (hold r v e he) hk.1

/-- A frame that is no table of an address space need not be taken for one. -/
theorem UserSound.without (h : UserSound im s roots kernel tag) (hno : ¬ IsTable im s roots f) :
    ∃ tag', UserSound im s roots kernel tag' ∧ tag' f = none := by
  obtain ⟨tag', hf', hroots', hpd', hnone, hless⟩ := forest_without h.forest h.spaces h.root h.boot hno
  have hpage : ∀ g, PageFrame s tag g → PageFrame s tag' g := fun g hg => ⟨hless g hg.untagged, hg.used⟩
  have h' : UserSound im s roots kernel tag' :=
    ⟨⟨hf', hroots', h.dirs, h.root, hpd', fun g hg => ⟨hless g (h.image g hg).1, (h.image g hg).2⟩⟩,
      fun r hr v e he => hpage _ (h.frames r hr v e he), h.once, fun g hg =>
      ⟨hpage g (h.held g hg).1, (h.held g hg).2⟩, h.apart, h.places⟩
  exact ⟨tag', h', hnone⟩

/-- So data may be written to it. -/
theorem UserSound.data (h : UserSound im s roots kernel tag) (hno : ¬ IsTable im s roots f)
    (w : Fin 512 → Word) : ∃ tag', UserSound im (writeFrame s f w) roots kernel tag' := by
  obtain ⟨tag', h', hnone⟩ := h.without hno
  exact ⟨tag', h'.fill hnone w⟩

/-! ### Every state -/

theorem UserSound.step {roots' : List Nat} {kernel' : Set Nat} (h : UserSound im s roots kernel tag)
    (hs : TableStep im (userRules im) s roots kernel s' roots' kernel') :
    ∃ tag', UserSound im s' roots' kernel' tag' := by
  have hcarry : ∀ {s' : Vm}, Carries im roots kernel s tag s' → ∃ tag', UserSound im s' roots kernel tag' :=
    fun ⟨tag', h, _⟩ => ⟨tag', h⟩
  cases hs with
  | map virt phys flags hf =>
    rw [hf]
    exact h.map (by decide) (by decide) rfl
  | unmap virt => exact ⟨tag, h.unmap virt⟩
  | clone copyUser => exact h.clone copyUser
  | switch cr3 hr => exact ⟨tag, h.switch hr⟩
  | allocPage => exact h.allocPage
  | freePage frame hown => exact ⟨tag, h.freePage hown⟩
  | data frame words hno => exact h.data hno words
  | brk hcall => exact hcarry (h.sysBrk hcall)
  | mmap addr len prot flags => exact hcarry (h.sysMmap addr len prot flags)
  | also ha =>
    cases ha with
    | store virt e words hv hw =>
      have he := userEntry_of_walk h.forest h.forest.root hv hw
      exact ⟨tag, h.fill (h.frames _ h.root virt e he).untagged words⟩
    | stack => exact hcarry (h.mapUserLoop (by decide) (by decide) _)
    | segment fs file kbuf ph => exact hcarry (h.segment fs file kbuf ph)

theorem UserReach.sound (him : im.kernelEnd ≤ userImagePhysStart) (h : UserReach im s roots kernel) :
    ∃ tag, UserSound im s roots kernel tag :=
  TableReach.invariant (I := fun s roots kernel => ∃ tag, UserSound im s roots kernel tag)
    (UserSound.init him) (fun ⟨_, ih⟩ hs => ih.step hs) h

/-! ### What a program reaches -/

theorem isTable_tagged (h : LoadSound im s roots tag) (hf : IsTable im s roots f) : ∃ p, tag f = some p := by
  rcases hf with ⟨r, hr, p, hp, hd⟩ | ⟨p, hp, hd⟩
  · exact ⟨p, h.forest.tagged.descend (h.spaces r hr) (by simpa using hp) hd⟩
  · exact ⟨_, h.forest.tagged.descend h.boot (by simp only [List.length_cons, List.length_nil]; omega) hd⟩

/-- In every reachable state, a page that a program reaches is a frame in use, none of the kernel's and no
    table; so whatever the program writes there, no address space translates differently. -/
theorem user_pages_safe (him : im.kernelEnd ≤ userImagePhysStart) (h : UserReach im s roots kernel)
    (hr : r ∈ roots) (hv : ¬ Window (pathOf v)) (hw : walk s.mem r v = some (e, true)) :
    bitmapTest s (entryFrame e) = true ∧ entryFrame e ∉ kernel ∧ ¬ IsTable im s roots (entryFrame e) ∧
      ∀ words, ∀ r' ∈ roots, ∀ u,
        walk (writeFrame s (entryFrame e) words).mem r' u = walk s.mem r' u := by
  obtain ⟨tag, hs⟩ := h.sound him
  have he := userEntry_of_walk hs.forest (hs.spaces r hr) hv hw
  obtain ⟨hno, hused⟩ := hs.frames r hr v e he
  refine ⟨hused, hs.apart r hr v e he, fun hc => ?_, fun words r' hr' u => ?_⟩
  · obtain ⟨p, hp⟩ := isTable_tagged hs.toLoadSound hc
    rw [hno] at hp
    cases hp
  · refine hs.forest.walk_congr (fun t p ht => Function.update_of_ne ?_ ..) (hs.spaces r' hr')
    rintro rfl
    rw [hno] at ht
    cases ht

/-- A program loaded right after the start reaches its page. -/
theorem loaded_page : ∃ s' e, UserReach smallImage s' [smallImage.pmlTable] ∅ ∧
    s'.pml4 = smallImage.pmlTable ∧ walk s'.mem smallImage.pmlTable 0x400000 = some (e, true) := by
  have hread := readPage_short [0x7f, 0x45] (by decide : 0 < 2 ^ 64)
  obtain ⟨-, s', hcall, -⟩ := @segment_loads_most _ _ (shortSegment 0) (fun _ _ => 0xaa) rfl rfl
    (by rw [hread]; decide)
  have hreach : UserReach smallImage s' [smallImage.pmlTable] ∅ := by
    have := (TableReach.init (fun _ _ => 0#64) mostMemory : UserReach smallImage mostVm _ _).step
      (.also (.segment (oneFile [0x7f, 0x45]) (some 1) (fun _ _ => 0xaa) (shortSegment 0)))
    rwa [hcall] at this
  obtain ⟨tag, hs⟩ := @LoadReach.sound smallImage mostVm _ (by decide)
    (TableReach.init (fun _ _ => 0#64) mostMemory)
  obtain ⟨tag', g, hopened, -⟩ := elfMapSegment_edited hs.forest hs.image hs.boot hcall
  obtain ⟨e, hw, -⟩ := hopened rfl 0x400000 (by decide) (by decide)
  have hroot : s'.pml4 = smallImage.pmlTable := by
    rw [g.pml4]
    exact List.mem_singleton.mp hs.root
  rw [hroot] at hw
  exact ⟨s', e, hreach, hroot, hw⟩

theorem user_pages_safe_loaded : ∃ s' e, UserReach smallImage s' [smallImage.pmlTable] ∅ ∧
    walk s'.mem smallImage.pmlTable 0x400000 = some (e, true) ∧
    ¬ IsTable smallImage s' [smallImage.pmlTable] (entryFrame e) := by
  obtain ⟨s', e, hreach, -, hw⟩ := loaded_page
  exact ⟨s', e, hreach, hw, (user_pages_safe (by decide) hreach (List.mem_singleton_self _)
    (by rintro (hc | hc) <;> exact absurd hc (by decide)) hw).2.2.1⟩

/-- But for the fixed images, the pages that different page-table entries give to programs have different
    frames, in whichever address spaces; so what is written to the one is not found in the other. -/
theorem user_frames_private (him : im.kernelEnd ≤ userImagePhysStart) (h : UserReach im s roots kernel)
    (hr : r ∈ roots) (he : UserEntry s r v e) (hr' : r' ∈ roots) (he' : UserEntry s r' v' e')
    (himg : ¬ ImageFrame (entryFrame e)) (hne : ¬ SameEntry s r v r' v') :
    entryFrame e ≠ entryFrame e' ∧
      ∀ words, (writeFrame s (entryFrame e') words).mem (entryFrame e) = s.mem (entryFrame e) := by
  obtain ⟨tag, hs⟩ := h.sound him
  have hf : entryFrame e ≠ entryFrame e' := fun hc =>
    hne (hs.once r hr v e he r' hr' v' e' he' hc himg)
  exact ⟨hf, fun words => Function.update_of_ne hf ..⟩

/-- `sys_mmap` of one page below 1 GiB, whose table is there. -/
theorem sysMmap_page {mem : Paging.Memory} {mb : MultibootInfo} {n t : Nat} {pt : Fin 512 → Option Nat}
    (h : Early im mem mb n pt s) (hn : n < spareTables im mb) (hv : v < 2 ^ 30) (hpos : 0 < v)
    (hal : v % pageSize = 0) (ht : pt (pdIndex v) = some t) :
    ∃ m pt' s' b e, sysMmap im s v 4096 3 0x20 = (.ok v, s') ∧ m ≤ n + 2 ∧
      (∀ i t, pt i = some t → pt' i = some t) ∧ Early im mem mb m pt' s' ∧
      walk s'.mem s'.pml4 v = some (e, b) ∧ has e pageUser = true ∧ ¬ ImageFrame (entryFrame e) := by
  obtain ⟨k, m, pt', s', hloop, hk, -, -, hm, hkeep, h', hentry⟩ := h.grant hn hv hal ht (mmapFlags 3)
  obtain ⟨hpr, hframe⟩ := @pageEntry_spec k (mmapFlags 3 ||| pageUser) hk.lt (by decide) (by decide)
  have hwalk := walk_ptOf (h'.ptOf hv (hkeep _ t ht))
  rw [hentry, if_pos hpr] at hwalk
  refine ⟨m, pt', s', _, _, ?_, hm, hkeep, h', hwalk, ?_, ?_⟩
  · have hu : ∀ x, x < 2 ^ 31 → u64 x = x := fun x hx => u64_of_lt (by omega)
    have haddr : mmapAddr v = v := by
      rw [mmapAddr, if_pos (by omega)]
      simp only [pageSize] at *
      rw [hu _ (by omega)]
      omega
    have hpages : userRangePages v 4096 = 1 := by
      rw [userRangePages, pageOf]
      simp only [pageSize] at *
      rw [hu _ (by omega)]
      omega
    have hpage : pageOf v = v := by
      simp only [pageOf, pageSize] at *
      omega
    rw [sysMmap, if_neg (by decide), haddr, pagingMapUserRange, hpages, hpage, hloop]
  · rw [has_user, BitVec.getLsbD_or, show (mmapFlags 3 ||| pageUser).getLsbD 2 = true from by decide,
      Bool.or_true]
  · rw [hframe]
    rintro ⟨hlo, hhi⟩
    refine hk.2.2.2.1 ?_
    simp only [reserves, userImagePhysStart, userImagePhysEnd, pageSize, u64] at *
    omega

/-- Two pages of one address space that were asked for one after the other. -/
theorem user_frames_private_hints : ∃ s' e e', UserReach smallImage s' [smallImage.pmlTable] ∅ ∧
    UserEntry s' smallImage.pmlTable 0x1000000 e ∧ UserEntry s' smallImage.pmlTable 0x1001000 e' ∧
    entryFrame e ≠ entryFrame e' := by
  obtain ⟨pt, he, ht⟩ := early_init smallImage (fun _ _ => 0#64) mostMemory
  have hmany := spareTables_most
  rw [initTables_most] at he ht
  obtain ⟨t, htab⟩ := Option.isSome_iff_exists.mp <| (ht (pdIndex 0x1000000)).mpr <| by
    rw [(low_index (by decide)).2.2]
    decide
  obtain ⟨n₁, pt₁, s₁, b₁, e₁, hcall₁, hn₁, hkeep₁, he₁, hw₁, hu₁, himg⟩ :=
    @sysMmap_page _ _ 0x1000000 _ _ _ _ _ he (by omega) (by decide) (by decide) (by decide) htab
  obtain ⟨n₂, pt₂, s₂, b₂, e₂, hcall₂, hn₂, hkeep₂, he₂, hw₂, hu₂, -⟩ :=
    @sysMmap_page _ _ 0x1001000 _ _ _ _ _ he₁ (by omega) (by decide) (by decide) (by decide)
      (hkeep₁ _ t htab)
  have hreach₁ : UserReach smallImage s₁ [smallImage.pmlTable] ∅ := by
    have := TableReach.mmap 0x1000000 4096 3 0x20
      (TableReach.init (fun _ _ => 0#64) mostMemory : UserReach smallImage mostVm _ _)
    rwa [hcall₁] at this
  have hreach₂ : UserReach smallImage s₂ [smallImage.pmlTable] ∅ := by
    have := TableReach.mmap 0x1001000 4096 3 0x20 hreach₁
    rwa [hcall₂] at this
  -- the second request leaves the first page alone
  obtain ⟨tag, hs⟩ := hreach₁.sound (by decide)
  obtain ⟨tag', g, -⟩ := @sysMmap_spec smallImage s₁ tag hs.forest 0x1001000 4096 3 0x20
  rw [hcall₂] at g
  have hpages : mmapAddr 0x1001000 = 0x1001000 ∧ mmapPages 0x1001000 4096 0x20 = 1 := by decide
  have hfirst : walk s₂.mem s₂.pml4 0x1000000 = some (e₁, b₁) := by
    rw [g.walk hs.forest (by decide), hw₁]
    rintro ⟨j, hj, hpath⟩
    rw [hpages.1, hpages.2] at *
    obtain rfl : j = 0 := by omega
    exact absurd hpath (by decide)
  rw [he₂.pml4] at hfirst hw₂
  have hout : ∀ v, v < 0x2000000 → ¬ Window (pathOf v) := by
    intro v hv hc
    rcases hc with hc | hc <;>
    · have := pathOf_inj (by omega) (by decide) hc
      simp only [kernelKmapWindow, pageSize] at this
      omega
  have hent₁ : UserEntry s₂ smallImage.pmlTable 0x1000000 e₁ := ⟨hout _ (by decide), ⟨b₁, hfirst⟩, hu₁⟩
  have hent₂ : UserEntry s₂ smallImage.pmlTable 0x1001000 e₂ := ⟨hout _ (by decide), ⟨b₂, hw₂⟩, hu₂⟩
  refine ⟨s₂, e₁, e₂, hreach₂, hent₁, hent₂, ?_⟩
  exact (user_frames_private (by decide) hreach₂ (List.mem_singleton_self _) hent₁
    (List.mem_singleton_self _) hent₂ himg fun hc => absurd hc.1 (by decide)).1

/-- Where no entry of the first table is the user's, there is nothing to copy. -/
theorem clone_closed (h : Forest s tag) (hno : ∀ i, has (s.mem s.pml4 i) pageUser = false) :
    pagingCloneCurrentAddressSpace im s true = pagingCloneCurrentAddressSpace im s false := by
  rw [pagingCloneCurrentAddressSpace, pagingCloneCurrentAddressSpace]
  rcases ha : pagingAllocTable im s with ⟨_ | d, s₁⟩
  · rfl
  have hf := pagingAllocTable_some h.null ha
  have hne : s.pml4 ≠ d := h.ne_free h.root hf.free
  have hloop : ∀ (l : List (Fin 512)) (s₂ : Vm), s₂.mem s.pml4 = s.mem s.pml4 →
      forEach (clonePml4e im true d s.pml4) l s₂ = forEach (clonePml4e im false d s.pml4) l s₂ := by
    intro l
    induction l with
    | nil => exact fun _ _ => rfl
    | cons i l ih =>
      intro s₂ hm
      have hone : clonePml4e im true d s.pml4 i s₂ = clonePml4e im false d s.pml4 i s₂ := by
        rw [clonePml4e, clonePml4e, hm, hno]
        rfl
      have hmem : (clonePml4e im false d s.pml4 i s₂).2.mem s.pml4 = s₂.mem s.pml4 := by
        rw [clonePml4e]
        split
        · rfl
        · exact writeEntry_frame hne
      rw [forEach, forEach, hone]
      rcases hr : clonePml4e im false d s.pml4 i s₂ with ⟨_ | _, s₃⟩
      · rfl
      · rw [hr] at hmem
        exact ih s₃ (hmem.trans hm)
  dsimp only
  rw [hloop _ s₁ (hf.other _ hne)]

/-- It works then if there is a frame for the new root, and leaves the first table alone. -/
theorem clone_alloc (h : Forest s tag) (hno : ∀ i, has (s.mem s.pml4 i) pageUser = false)
    (ha : pagingAllocTable im s = (some c, s₁)) : ∃ s',
    pagingCloneCurrentAddressSpace im s true = (some c, s') ∧ s'.pml4 = s.pml4 ∧
      s'.mem s.pml4 = s.mem s.pml4 := by
  have hf := pagingAllocTable_some h.null ha
  have hne : s.pml4 ≠ c := h.ne_free h.root hf.free
  rw [clone_closed h hno, pagingCloneCurrentAddressSpace, ha]
  dsimp only
  rw [shareLoop hne]
  exact ⟨_, rfl, hf.pml4, (Function.update_of_ne hne ..).trans (hf.other _ hne)⟩

/-- Right after the start no entry of the first table is the user's. -/
theorem pagingInit_closed (im : Image) (mem : Paging.Memory) (mb : MultibootInfo) (i : Fin 512) :
    has ((pagingInit im mem mb).mem (pagingInit im mem mb).pml4 i) pageUser = false := by
  obtain ⟨pt, he, -⟩ := early_init im mem mb
  rcases Nat.eq_zero_or_pos i.val with h0 | hi
  · obtain rfl : i = 0 := Fin.ext h0
    rw [he.pml4, he.root, TableFlags.user]
    decide
  · rw [he.pml4, pagingInit_root _ _ _ i hi]
    decide

theorem clone_most : ∃ c s', pagingCloneCurrentAddressSpace smallImage mostVm true = (some c, s') ∧
    s'.pml4 = smallImage.pmlTable ∧ ∀ i : Fin 512, 0 < i.val → s'.mem smallImage.pmlTable i = 0#64 := by
  obtain ⟨tag, hs⟩ := @LoadReach.sound smallImage _ _ (by decide)
    (TableReach.init (fun _ _ => 0#64) mostMemory)
  obtain ⟨pt, he, -⟩ := early_init smallImage (fun _ _ => 0#64) mostMemory
  have hno := pagingInit_closed smallImage (fun _ _ => 0#64) mostMemory
  have hmany := spareTables_most
  rw [initTables_most] at he
  rcases he.allocTable with ⟨c, s₁, ha, -⟩ | ⟨-, hfew⟩
  · obtain ⟨s', hc, hroot, hmem⟩ := clone_alloc hs.forest hno ha
    rw [he.pml4] at hroot hmem
    refine ⟨c, s', hc, hroot, fun i hi => ?_⟩
    rw [hmem, pagingInit_root _ _ _ i hi]
  · omega

end TypeOS.Elf
