import TypeOS.Elf.Isolation
import TypeOS.Paging.PhysCopy

/-! What address spaces go on sharing.

    `paging_clone_current_address_space (1)` shares the tables that are closed to the user, and the new
    address space has its own of the others. No table leaves its place afterwards. So parent and child find
    the same pages below a table that was there at the fork and closed to the user, at any time; and where
    a table is missing below one that was open to him, the one that is made for the parent is not the
    child's. The kernel heap begins in the gigabyte of the user's pages: as far as its page tables were
    there, the child has it, and where it grows into new ones there it has not. -/

namespace TypeOS.Elf

open Paging Sys Radix
open Fs (Vfs Ptr)

/-- Any number of steps, from a state on. -/
abbrev LoadRun (im : Image) (s : Vm) (roots : List Nat) (s' : Vm) (roots' : List Nat) : Prop :=
  TableRun im (loadRules im) s roots () s' roots' ()

/-- The tables that paths from the roots lead to are still there. -/
def TablesStay (roots : List Nat) (s s' : Vm) : Prop :=
  ∀ r ∈ roots, ∀ q t, q.length ≤ 3 → descend nextTable s.mem r q = some t →
    descend nextTable s'.mem r q = some t

variable {im : Image} {s s' s'' : Vm} {tag tag' : Nat → Option Path} {roots roots' roots'' : List Nat}
  {c t v : Nat} {q : Path} {i : Fin 512} {F : Nat → Prop} {E W : Path → Prop} {D : Nat → Prop}

/-! ### Every run -/

theorem LoadSound.stays (h : LoadSound im s roots tag) (g : Edited F W s tag s' tag') :
    TablesStay roots s s' := by
  intro r hr q t hq hd
  exact g.paths r q t (h.spaces r hr) hq hd

theorem TablesStay.of_mem (hm : s'.mem = s.mem) : TablesStay roots s s' := by
  intro r _ q t _ hd
  rw [hm]
  exact hd

/-- A step adds roots at most, and leaves every table where it is. -/
theorem LoadSound.step_stays {g g' : Unit} (h : LoadSound im s roots tag)
    (hs : TableStep im (loadRules im) s roots g s' roots' g') : roots ⊆ roots' ∧ TablesStay roots s s' := by
  have hedit : ∀ {F : Nat → Prop} {W : Path → Prop} {s' : Vm} {tag' : Nat → Option Path},
      Edited F W s tag s' tag' → roots ⊆ roots ∧ TablesStay roots s s' := fun g =>
    ⟨List.Subset.refl _, h.stays g⟩
  have hmapped : ∀ {E W : Path → Prop} {s' : Vm} {tag' : Nat → Option Path},
      Mapped E W s tag s' tag' → roots ⊆ roots ∧ TablesStay roots s s' := fun g =>
    hedit (.of_mapped (F := fun _ => False) h.forest g)
  cases hs with
  | map virt phys flags =>
    obtain ⟨tag', g⟩ := pagingMapPage_mapped h.forest rfl
    exact hmapped g
  | unmap virt => exact hmapped (pagingUnmapPage_mapped h.forest virt)
  | clone copyUser =>
    refine ⟨List.subset_append_right .., ?_⟩
    rcases hc : pagingCloneCurrentAddressSpace im s copyUser with ⟨res, s₁⟩
    cases copyUser with
    | true =>
      obtain ⟨tag', D, hcl, -⟩ := cloneUser_spec h.forest hc
      exact h.stays (Edited.of_changed (F := fun _ => False) h.forest hcl.changed)
    | false =>
      rcases cloneShared_spec h.forest hc with ⟨-, rfl⟩ | ⟨r, s₂, -, hfr, hs⟩
      · exact .of_mem rfl
      · exact h.stays (Edited.of_changed (F := fun _ => False) h.forest (cloneShared_forest h.forest hfr hs).1)
  | switch cr3 hr => exact ⟨List.Subset.refl _, .of_mem rfl⟩
  | allocPage =>
    refine ⟨List.Subset.refl _, ?_⟩
    rcases pagingAllocPage_cases h.forest.null with ha | ⟨f, -, ha⟩
    · rw [ha]
      exact .of_mem rfl
    · rw [ha]
      exact .of_mem (bitmapSet_mem ..)
  | freePage frame hf =>
    exact ⟨List.Subset.refl _, .of_mem (pagingFreePage_eq s (frame * pageSize)).1⟩
  | data frame words hno =>
    obtain ⟨tag', hf', hroots', -, hnone, -⟩ := forest_without h.forest h.spaces h.root h.boot hno
    refine ⟨List.Subset.refl _, ?_⟩
    intro r hr q t hq hd
    exact (Edited.fill (W := fun _ => False) hf' hnone words).paths r q t (hroots' r hr) hq hd
  | brk hcall =>
    obtain ⟨m, tag', g⟩ := sysBrk_spec h.forest hcall
    exact hmapped g.granted.toMapped
  | mmap addr len prot flags =>
    obtain ⟨tag', g, -⟩ := sysMmap_spec h.forest addr len prot flags
    exact hmapped g.toMapped
  | also ha =>
    cases ha with
    | mapUser virt phys flags =>
      obtain ⟨tag', g⟩ := pagingMapUserPage_mapped h.forest rfl
      exact hmapped g
    | range virt size flags =>
      obtain ⟨tag', g, -⟩ :=
        @mapUserLoop_spec im flags (userRangePages virt size) (pageOf virt) _ tag h.forest
      exact hmapped g.toMapped
    | segment fs file kbuf ph =>
      rcases hc : elfMapSegment im fs file kbuf ph s with ⟨ok, s₁⟩
      obtain ⟨tag', g, -⟩ := elfMapSegment_edited h.forest h.image h.boot hc
      exact hedit g

/-- So does every run. -/
theorem LoadRun.stays (him : im.kernelEnd ≤ userImagePhysStart) (h : LoadReach im s roots) {g' : Unit}
    (hrun : TableRun im (loadRules im) s roots () s' roots' g') : roots ⊆ roots' ∧ TablesStay roots s s' := by
  induction hrun with
  | refl => exact ⟨List.Subset.refl _, .of_mem rfl⟩
  | step hrun hs ih =>
    obtain ⟨hsub, hst⟩ := ih
    obtain ⟨tag, hsound⟩ := LoadReach.sound him (h.run hrun)
    obtain ⟨hsub', hst'⟩ := hsound.step_stays hs
    refine ⟨List.Subset.trans hsub hsub', ?_⟩
    intro r hr q t hq hd
    exact hst' r (hsub hr) q t hq (hst r hr q t hq hd)

/-! ### What a clone shares -/

/-- The tables below an entry that is closed to the user are shared. -/
theorem copied_shared (h : Forest s tag) (g : Changed E W s tag s' tag') :
    ∀ {k : Nat} {q p : Path} {u t : Nat}, Paging.Copied s s' tag' D k p u t → q.length ≤ k →
    tag u = some p → p.length + q.length ≤ 3 → descend nextTable s.mem u q = some c → userPath s.mem u q = false →
    descend nextTable s'.mem t q = some c
  | _, [], _, _, _, _, _, _, _, _, hu => by cases hu
  | 0, _ :: _, _, _, _, _, hk, _, _, _, _ => by simp at hk
  | k + 1, i :: q, p, u, t, hc, hk, ht, hlen, hd, hu => by
    rw [List.length_cons] at hk hlen
    obtain ⟨a, ha, hd⟩ := Option.bind_eq_some_iff.mp hd
    obtain ⟨hkernel, huser⟩ := hc i a ha
    have hat := h.tagged u p i a ht (by omega) ha
    have hlen' : (p ++ [i]).length + q.length ≤ 3 := by
      rw [List.length_append, List.length_singleton]
      omega
    rw [descend]
    cases hbit : has (s.mem u i) pageUser with
    | false =>
      rw [hkernel hbit, ha, Option.bind_some]
      exact g.descend h hat hlen' hd
    | true =>
      obtain ⟨a', -, -, hnext, -, hcopied⟩ := huser hbit
      rw [userPath, hbit, ha, Bool.true_and, Option.map_some, Option.getD_some] at hu
      rw [hnext, Option.bind_some]
      exact copied_shared h g hcopied (by omega) hat hlen' hd hu

/-- Where every entry lets the user through, the clone has its own tables. -/
theorem copied_own : ∀ {k : Nat} {q p : Path} {u t : Nat}, Paging.Copied s s' tag' D k p u t →
    q.length ≤ k → D t → descend nextTable s.mem u q = some c → userPath s.mem u q = true →
    ∃ c', D c' ∧ descend nextTable s'.mem t q = some c'
  | _, [], _, _, t, _, _, hD, _, _ => ⟨t, hD, rfl⟩
  | 0, _ :: _, _, _, _, _, hk, _, _, _ => by simp at hk
  | k + 1, i :: q, p, u, t, hc, hk, _, hd, hu => by
    rw [List.length_cons] at hk
    obtain ⟨a, ha, hd⟩ := Option.bind_eq_some_iff.mp hd
    rw [userPath, ha, Option.map_some, Option.getD_some, Bool.and_eq_true] at hu
    obtain ⟨a', hD, -, hnext, -, hcopied⟩ := (hc i a ha).2 hu.1
    rw [descend, hnext, Option.bind_some]
    exact copied_own hcopied (by omega) hD hd hu.2

/-- The clone's table at a path that lets the user through is none that was there. -/
theorem clone_own (h : Forest s tag) (hc : pagingCloneCurrentAddressSpace im s true = (some c, s'))
    (hq : q.length ≤ 3) (hd : descend nextTable s.mem s.pml4 q = some t)
    (hu : userPath s.mem s.pml4 q = true) : ∃ a, descend nextTable s'.mem c q = some a ∧ a ≠ t := by
  obtain ⟨tag', D, hcl, hres⟩ := cloneUser_spec h hc
  obtain ⟨hD, -, hcopied⟩ := hres c rfl
  obtain ⟨a, ha, hd'⟩ := copied_own hcopied hq hD hd hu
  refine ⟨a, hd', ?_⟩
  intro hsame
  have ht := h.tagged.descend h.root (by simpa using hq) hd
  rw [← hsame, (hcl.new a ha).1] at ht
  cases ht

/-- A table is shared exactly if some entry on the way to it is closed to the user. -/
theorem clone_shares_iff (h : Forest s tag) (hc : pagingCloneCurrentAddressSpace im s true = (some c, s'))
    (hq : q.length ≤ 3) (hd : descend nextTable s.mem s.pml4 q = some t) :
    ∃ a, descend nextTable s'.mem c q = some a ∧ (a = t ↔ userPath s.mem s.pml4 q = false) := by
  cases hu : userPath s.mem s.pml4 q with
  | false =>
    obtain ⟨tag', D, hcl, hres⟩ := cloneUser_spec h hc
    obtain ⟨-, -, hcopied⟩ := hres c rfl
    exact ⟨t, copied_shared h hcl.changed hcopied hq h.root (by simpa using hq) hd hu, by simp⟩
  | true =>
    obtain ⟨a, ha, hne⟩ := clone_own h hc hq hd hu
    exact ⟨a, ha, by simp [hne]⟩

/-- After a fork the parent's tables and those of the child stay where they are. -/
theorem LoadRun.after_fork (him : im.kernelEnd ≤ userImagePhysStart) (h : LoadReach im s roots)
    (hc : pagingCloneCurrentAddressSpace im s true = (some c, s'))
    (hrun : LoadRun im s' (c :: roots) s'' roots'') : LoadReach im s'' roots'' ∧ c ∈ roots'' ∧
    (∀ q t, q.length ≤ 3 → descend nextTable s.mem s.pml4 q = some t →
      descend nextTable s''.mem s.pml4 q = some t) ∧
    ∀ q t, q.length ≤ 3 → descend nextTable s'.mem c q = some t → descend nextTable s''.mem c q = some t := by
  obtain ⟨tag, hs⟩ := h.sound him
  have hreach : LoadReach im s' (c :: roots) := by
    have := TableReach.clone true h
    rwa [hc] at this
  obtain ⟨hsub, hst⟩ := LoadRun.stays him hreach hrun
  refine ⟨hreach.run hrun, hsub (List.mem_cons_self ..), ?_, hst c (List.mem_cons_self ..)⟩
  intro q t hq hd
  obtain ⟨tag', D, hcl, -⟩ := cloneUser_spec hs.forest hc
  refine hst s.pml4 (List.mem_cons_of_mem _ hs.root) q t hq ?_
  exact hcl.changed.descend hs.forest hs.forest.root (by simpa using hq) hd

theorem tablePath_le (hq : q <+: tablePath v) : q.length ≤ 3 := hq.length_le

/-- Whatever comes after a fork: a table that was there is in both address spaces exactly if the user had no
    way to it. Then both find the same pages below it, in tables that are made later as well. -/
theorem fork_shares (him : im.kernelEnd ≤ userImagePhysStart) (h : LoadReach im s roots)
    (hc : pagingCloneCurrentAddressSpace im s true = (some c, s')) (hq : q <+: tablePath v)
    (hd : descend nextTable s.mem s.pml4 q = some t) (hrun : LoadRun im s' (c :: roots) s'' roots'') :
    (descend nextTable s''.mem c q = some t ↔ userPath s.mem s.pml4 q = false) ∧
    (userPath s.mem s.pml4 q = false →
      (walk s''.mem c v).map Prod.fst = (walk s''.mem s.pml4 v).map Prod.fst) := by
  obtain ⟨tag, hs⟩ := h.sound him
  have hlen := tablePath_le hq
  obtain ⟨-, -, hparent, hchild⟩ := hrun.after_fork him h hc
  obtain ⟨a, ha, hiff⟩ := clone_shares_iff hs.forest hc hlen hd
  have hparent := hparent q t hlen hd
  have hchild := hchild q a hlen ha
  constructor
  · rw [hchild, Option.some.injEq]
    exact hiff
  · intro hu
    obtain rfl := hiff.mpr hu
    obtain ⟨z, hz⟩ := hq
    have hpath : pathOf v = q ++ (z ++ [ptIndex v]) := by
      rw [pathOf_eq, ← hz, List.append_assoc]
    rw [walk, walk, hpath, look_through hchild (by simp), look_through hparent (by simp), Option.map_map,
      Option.map_map]
    rfl

/-- A fork right after the start: the child has the kernel heap that is mapped afterwards. -/
theorem fork_shares_heap : ∃ c s', pagingCloneCurrentAddressSpace smallImage mostVm true = (some c, s') ∧
    (walk (pagingMapPage smallImage s' kernelHeapStart 0x7000 pagePresent).2.mem c
      kernelHeapStart).map Prod.fst =
    (walk (pagingMapPage smallImage s' kernelHeapStart 0x7000 pagePresent).2.mem smallImage.pmlTable
      kernelHeapStart).map Prod.fst := by
  obtain ⟨pt, he, -⟩ := early_init smallImage (fun _ _ => 0#64) mostMemory
  have hno := pagingInit_closed smallImage (fun _ _ => 0#64) mostMemory
  have hq : [0] <+: tablePath kernelHeapStart := ⟨[0, 128], by decide⟩
  have hd : descend nextTable (pagingInit smallImage (fun _ _ => 0#64) mostMemory).mem
      (pagingInit smallImage (fun _ _ => 0#64) mostMemory).pml4 [0] = some smallImage.pdpTable := by
    rw [he.pml4, descend, he.root_next]
    rfl
  obtain ⟨c, s', hc, -⟩ := clone_most
  have hsame := (fork_shares (by decide) (TableReach.init _ _) hc hq hd
    (.step .refl (.map kernelHeapStart 0x7000 pagePresent trivial))).2 (by rw [userPath, hno, Bool.false_and])
  rw [he.pml4] at hsame
  exact ⟨c, s', hc, hsame⟩

/-! ### Tables that come later -/

/-- A table that is missing under the current root, in a table that another address space does not have, is
    made for the current root alone. -/
theorem missing_apart (h : Forest s tag) (g : Mapped E W s tag s' tag') (hr : tag c = some [])
    (hq : q ++ [i] <+: tablePath v) (hd : descend nextTable s.mem s.pml4 q = some t)
    (hne : descend nextTable s.mem c q ≠ some t) (hno : nextTable (s.mem t i) = none) :
    ptOf s'.mem c v = ptOf s.mem c v ∧ ¬ Shares s' c v := by
  have hstop : ∀ z, descend nextTable s.mem s.pml4 (q ++ i :: z) = none := by
    intro z
    rw [descend_append, hd, Option.bind_some, descend, hno]
    rfl
  have hroot : tag' s'.pml4 = some [] := g.tags _ _ (g.pml4 ▸ h.root)
  have hsame : ptOf s'.mem c v = ptOf s.mem c v := by
    refine descend_avoid ?_
    intro u w j hw hj
    have hlen := hj.length_le
    simp only [List.length_append, tablePath, List.length_cons, List.length_nil] at hlen
    have htu := h.tagged.descend hr (by simp only [List.length_nil]; omega) hw
    rcases g.off u w j htu with hsame | ⟨-, hway⟩
    · exact hsame
    -- the current root leads to the table as well, and did before
    obtain ⟨-, hold⟩ := g.descend_old hroot (by simp only [List.length_nil]; omega) hway ⟨_, htu⟩
    rw [g.pml4] at hold
    rcases List.prefix_or_prefix_of_prefix ((List.prefix_append w [j]).trans hj)
      ((List.prefix_append q [i]).trans hq) with ⟨z, rfl⟩ | ⟨z, rfl⟩
    · refine absurd ?_ hne
      rw [descend_append, hw, Option.bind_some]
      rwa [descend_append, hold, Option.bind_some] at hd
    · cases z with
      | nil =>
        rw [List.append_nil] at hw hold
        rw [hd, Option.some.injEq] at hold
        exact absurd (hold ▸ hw) hne
      | cons k z =>
        have hk : k = i := by
          have h₁ : q ++ [k] <+: tablePath v :=
            (show q ++ [k] <+: q ++ k :: z ++ [j] from ⟨z ++ [j], by simp⟩).trans hj
          have := List.prefix_of_prefix_length_le h₁ hq (by simp)
          simpa using this
        rw [hk, hstop] at hold
        cases hold
  refine ⟨hsame, ?_⟩
  rintro ⟨pt, hpt, hpt'⟩
  rw [hsame] at hpt'
  have htpt := h.tagged.descend hr (by simp [tablePath]) hpt'
  obtain ⟨-, hold⟩ := g.descend_old hroot (by simp [tablePath]) hpt ⟨_, htpt⟩
  obtain ⟨z, hz⟩ := hq
  rw [g.pml4, ← hz, List.append_assoc, List.singleton_append, hstop] at hold
  cases hold

/-- Whatever comes after a fork: where the parent lacks a table, below one that the user had a way to at the
    fork, a page that is mapped there for the parent is not mapped for the child. -/
theorem fork_misses (him : im.kernelEnd ≤ userImagePhysStart) (h : LoadReach im s roots)
    (hc : pagingCloneCurrentAddressSpace im s true = (some c, s')) (hq : q ++ [i] <+: tablePath v)
    (hd : descend nextTable s.mem s.pml4 q = some t) (hu : userPath s.mem s.pml4 q = true)
    (hrun : LoadRun im s' (c :: roots) s'' roots'') (hcur : s''.pml4 = s.pml4)
    (hno : nextTable (s''.mem t i) = none) {phys : Nat} {flags : Word} {ok : Bool} {s₃ : Vm}
    (hm : pagingMapPage im s'' v phys flags = (ok, s₃)) :
    walk s₃.mem c v = walk s''.mem c v ∧
      ∀ pt, ptOf s₃.mem s.pml4 v = some pt → ptOf s₃.mem c v ≠ some pt := by
  obtain ⟨tag, hs⟩ := h.sound him
  obtain ⟨hreach, hmem, hparent, hchild⟩ := hrun.after_fork him h hc
  obtain ⟨tag'', hs''⟩ := hreach.sound him
  have hlen := tablePath_le ((List.prefix_append q [i]).trans hq)
  obtain ⟨a, ha, hne⟩ := clone_own hs.forest hc hlen hd hu
  have hroot := hs''.spaces c hmem
  obtain ⟨tag₃, g⟩ := pagingMapPage_mapped hs''.forest hm
  obtain ⟨-, hapart⟩ := missing_apart hs''.forest g hroot hq (hcur ▸ hparent q t hlen hd)
    (by rw [hchild q a hlen ha]; simpa using hne) hno
  refine ⟨g.walks c v hroot fun hc => hapart hc.2, ?_⟩
  intro pt hpt hpt'
  refine hapart ⟨pt, ?_, hpt'⟩
  rw [g.pml4, hcur]
  exact hpt

/-- A fork right after the start: what the kernel then maps at 512 GiB, for which there are no tables yet,
    the child does not get. -/
theorem fork_misses_most : ∃ c s', pagingCloneCurrentAddressSpace smallImage mostVm true = (some c, s') ∧
    walk (pagingMapPage smallImage s' (2 ^ 39) 0x7000 pagePresent).2.mem c (2 ^ 39) =
      walk s'.mem c (2 ^ 39) := by
  obtain ⟨pt, he, -⟩ := early_init smallImage (fun _ _ => 0#64) mostMemory
  obtain ⟨c, s', hc, hroot, hzero⟩ := clone_most
  have hq : [] ++ [1] <+: tablePath (2 ^ 39) := ⟨[0, 0], by decide⟩
  have hno : nextTable (s'.mem smallImage.pmlTable 1) = none := by
    rw [hzero 1 (by decide)]
    decide
  rw [← he.pml4] at hroot hno
  refine ⟨c, s', hc, ?_⟩
  rcases hm : pagingMapPage smallImage s' (2 ^ 39) 0x7000 pagePresent with ⟨ok, s₃⟩
  exact (fork_misses (by decide) (TableReach.init _ _) hc hq rfl rfl .refl hroot hno hm).1

end TypeOS.Elf
