import TypeOS.Heap.Alloc
import TypeOS.Paging.Early
import TypeOS.Paging.Exact
import TypeOS.Paging.Frames

/-! Does the boot information survive?

    The information GRUB leaves is read twice: by `paging_init`, and by `initramfs_load` after
    `heap_init`. Nothing reserves its frames in between. The identity map takes thirty frames, the
    first heap page one for itself and one for its table, and the fifteen other heap pages one
    each: the information keeps its memory exactly if none of its frames is among the lowest spare
    ones. -/

namespace TypeOS.Paging
open FirstFit Heap

variable {im : Image} {mem : Memory} {mb : MultibootInfo} {s s' : Vm} {f k i n m t v : Nat}
  {pt : Fin 512 → Option Nat} {h h' : HeapState (Vm × Set Nat)}

/-- The frames that are taken between two states. -/
def taken (s s' : Vm) : Set Nat := {f | bitmapTest s f = false ∧ bitmapTest s' f = true}

/-- The calls of `paging.c` the heap makes, with the frames `paging_alloc_page` and
    `paging_alloc_table` have returned so far. -/
def logPager (im : Image) : Pager (Vm × Set Nat) where
  pagingAllocPage p :=
    ((pagingAllocPage p.1).1, (pagingAllocPage p.1).2, p.2 ∪ frameOf (pagingAllocPage p.1).1)
  pagingMapPage p virt phys flags :=
    let r := pagingMapPage im p.1 virt phys (BitVec.ofNat 64 flags)
    (r.1, r.2, p.2 ∪ taken p.1 r.2)
  pagingFreePage p page := (pagingFreePage p.1 page, p.2)

/-- `paging_init`, then `heap_init` on a heap window that holds any words. -/
def bootHeap (im : Image) (mem : Memory) (mb : MultibootInfo) (words : Words) :
    HeapState (Vm × Set Nat) :=
  heapInit (logPager im) words
    (pagingInit im mem mb, taken (pagingInitFrames im mem mb) (pagingInit im mem mb))

/-! ### The lowest spare frames -/

/-- The `n` lowest spare frames. -/
def lowest (im : Image) (mb : MultibootInfo) (n : Nat) : Set Nat :=
  {f | Spare im mb f ∧ spareRank im mb f < n}

/-- How many frames booting takes: with fewer than 32 spare ones below `IDENTITY_MAP_LIMIT` the
    heap has no table and gets no further than its first page. -/
def bootFrames (im : Image) (mb : MultibootInfo) : Nat :=
  if 32 ≤ spareTables im mb then 47 else min (spareTables im mb + 1) 31

theorem lowest_all (hall : ∀ f, Spare im mb f → spareRank im mb f < n) (hle : n ≤ m) :
    lowest im mb n = lowest im mb m := by
  ext f
  constructor
  · rintro ⟨hs, hlt⟩
    exact ⟨hs, by omega⟩
  · rintro ⟨hs, -⟩
    exact ⟨hs, hall f hs⟩

/-- A frame of rank `n` and the `n` lowest ones. -/
theorem lowest_succ (hk : Spare im mb k) (hrank : spareRank im mb k = n) :
    lowest im mb n ∪ {k} = lowest im mb (n + 1) := by
  ext f
  constructor
  · rintro (⟨hs, hlt⟩ | rfl)
    · exact ⟨hs, by omega⟩
    · exact ⟨hk, by omega⟩
  · rintro ⟨hs, hlt⟩
    rcases Nat.lt_or_ge (spareRank im mb f) n with hlow | hge
    · exact Or.inl ⟨hs, hlow⟩
    · have heq : spareRank im mb f = spareRank im mb k := by omega
      exact Or.inr (rank_injective (spare_eq_true.mpr hs) (spare_eq_true.mpr hk) heq)

/-- What is taken from one early state to another. -/
theorem Early.taken {n' : Nat} {pt' : Fin 512 → Option Nat} (h : Early im mem mb n pt s)
    (h' : Early im mem mb n' pt' s') (hle : n ≤ n') :
    lowest im mb n ∪ taken s s' = lowest im mb n' := by
  ext f
  have htaken : f ∈ Paging.taken s s' ↔
      (Spare im mb f ∧ n ≤ spareRank im mb f) ∧ (Spare im mb f → spareRank im mb f < n') := by
    rw [Paging.taken, Set.mem_ofPred_eq, h.bits, h'.bits, Bool.not_eq_false', Bool.not_eq_true',
      left_eq_true, left_eq_false, spare_eq_true]
  rw [Set.mem_union, htaken]
  constructor
  · rintro (⟨hs, hlt⟩ | ⟨⟨hs, -⟩, hlt⟩)
    · exact ⟨hs, by omega⟩
    · exact ⟨hs, hlt hs⟩
  · rintro ⟨hs, hlt⟩
    rcases Nat.lt_or_ge (spareRank im mb f) n with hlow | hge
    · exact Or.inl ⟨hs, hlow⟩
    · exact Or.inr ⟨⟨hs, hge⟩, fun _ => hlt⟩

/-! ### The heap window -/

/-- The page of `v` is mapped to one of the `n` lowest spare frames. -/
def PageAt (im : Image) (mb : MultibootInfo) (n : Nat) (pt : Fin 512 → Option Nat) (s : Vm)
    (v : Nat) : Prop :=
  ∃ t, pt (pdIndex v) = some t ∧ has (s.mem t (ptIndex v)) pagePresent = true ∧
    entryFrame (s.mem t (ptIndex v)) ∈ lowest im mb n

/-- A mapped page translates to its frame. -/
theorem PageAt.translate (hp : PageAt im mb n pt s v) (h : Early im mem mb n pt s)
    (hv : v < 2 ^ 30) : pagingVirtToPhys s v / pageSize ∈ lowest im mb n := by
  obtain ⟨t, ht, hpr, hlow⟩ := hp
  have hoff : v % pageSize < pageSize := Nat.mod_lt _ pageSize_pos
  rw [h.virtToPhys hv ht hpr, Nat.add_comm, Nat.add_mul_div_right _ _ pageSize_pos, Nat.div_eq_of_lt hoff,
    Nat.zero_add]
  exact hlow

/-- The heap has mapped its first `i` pages, and `n` frames are taken. -/
structure HeapEarly (im : Image) (mem : Memory) (mb : MultibootInfo) (n i : Nat)
    (pt : Fin 512 → Option Nat) (h : HeapState (Vm × Set Nat)) : Prop where
  early : Early im mem mb n pt h.pager.1
  log : h.pager.2 = lowest im mb n
  mapped : h.heapMappedEnd = kernelHeapStart + i * pageSize
  table : (pt (pdIndex kernelHeapStart)).isSome = true ↔ 0 < i
  pages : ∀ v, kernelHeapStart ≤ v → v < h.heapMappedEnd → PageAt im mb n pt h.pager.1 v

/-- What `heap_init` leaves of physical memory: the frames returned so far are the `n` lowest, the
    others hold what they held, but for the boot tables, and the heap window lies in returned
    ones. -/
structure HeapBoot (im : Image) (mem : Memory) (mb : MultibootInfo) (n : Nat)
    (h : HeapState (Vm × Set Nat)) : Prop where
  log : h.pager.2 = lowest im mb n
  rest : ∀ f, f ≠ im.pmlTable → f ≠ im.pdpTable → f ≠ im.pdTable → f ∉ h.pager.2 →
    h.pager.1.mem f = mem f
  window : ∀ v, kernelHeapStart ≤ v → v < h.heapMappedEnd →
    pagingVirtToPhys h.pager.1 v / pageSize ∈ h.pager.2

theorem Early.heapBoot (he : Early im mem mb n pt h.pager.1) (hlog : h.pager.2 = lowest im mb n)
    (hend : h.heapMappedEnd ≤ 2 ^ 30)
    (hpages : ∀ v, kernelHeapStart ≤ v → v < h.heapMappedEnd → PageAt im mb n pt h.pager.1 v) :
    HeapBoot im mem mb n h := by
  refine ⟨hlog, ?_, ?_⟩
  · intro f h0 h1 h2 hf
    rw [hlog] at hf
    refine he.rest f h0 h1 h2 fun hs => ?_
    by_contra hlt
    exact hf ⟨hs, by omega⟩
  · intro v hlo hhi
    rw [hlog]
    exact (hpages v hlo hhi).translate he (by omega)

/-- The heap window from its start to 64 KiB lies under one page table. -/
theorem heap_index (hlo : kernelHeapStart ≤ v) (hhi : v < kernelHeapStart + 16 * pageSize) :
    pdIndex v = pdIndex kernelHeapStart ∧ (ptIndex v).val = (v - kernelHeapStart) / pageSize := by
  simp only [kernelHeapStart, pageSize] at *
  refine ⟨Fin.ext ?_, ?_⟩
  · simp only [pdIndex, Fin.ofNat]
    omega
  · simp only [ptIndex, Fin.ofNat]
    omega

/-! ### A turn of `heap_map_more` -/

/-- How many frames are taken before the heap maps its page `i`. -/
def framesBefore (im : Image) (mb : MultibootInfo) (i : Nat) : Nat :=
  if i = 0 then initTables im mb else 31 + i

theorem framesBefore_zero : framesBefore im mb 0 = initTables im mb := if_pos rfl

theorem framesBefore_pos (hi : 0 < i) : framesBefore im mb i = 31 + i := if_neg hi.ne'

theorem bootFrames_many (h : 32 ≤ spareTables im mb) : bootFrames im mb = 47 := if_pos h

theorem bootFrames_few (h : spareTables im mb < 32) :
    bootFrames im mb = min (spareTables im mb + 1) 31 := if_neg (by omega)

/-- `initTables` frames are taken when the heap starts, and a page and its table then end the run
    exactly where there are fewer than 32 frames for tables. -/
theorem initTables_few (h : spareTables im mb ≤ initTables im mb + 1) :
    initTables im mb + 1 = bootFrames im mb := by
  rw [initTables] at *
  rw [bootFrames_few (by omega)]
  omega

theorem initTables_many (h : initTables im mb + 1 < spareTables im mb) :
    32 ≤ spareTables im mb ∧ initTables im mb = 30 := by
  rw [initTables] at *
  omega

theorem framesBefore_le (hi : i < 16) (hmany : 0 < i → 32 ≤ spareTables im mb) :
    framesBefore im mb i ≤ bootFrames im mb := by
  rcases Nat.eq_zero_or_pos i with rfl | hpos
  · rw [framesBefore_zero, initTables]
    rcases Nat.lt_or_ge (spareTables im mb) 32 with hfew | h
    · rw [bootFrames_few hfew]
      omega
    · rw [bootFrames_many h]
      omega
  · rw [framesBefore_pos hpos, bootFrames_many (hmany hpos)]
    omega

/-- A page that `heap_map_more` maps, once its frame and the table are there. -/
theorem HeapEarly.mapped_page (he : HeapEarly im mem mb n i pt h) (hi : i < 16) (hk : Spare im mb k)
    (hrank : spareRank im mb k < m) (hle : n ≤ m) {pt' : Fin 512 → Option Nat} {s' : Vm}
    (h' : Early im mem mb m pt' s')
    (hold : ∀ t, pt (pdIndex kernelHeapStart) = some t → pt' (pdIndex kernelHeapStart) = some t)
    (hmem : ∀ t, pt (pdIndex kernelHeapStart) = some t → ∀ j, j ≠ ptIndex h.heapMappedEnd →
      s'.mem t j = h.pager.1.mem t j)
    (ht : pt' (pdIndex kernelHeapStart) = some t) (hentry : s'.mem t (ptIndex h.heapMappedEnd) =
      (BitVec.ofNat 64 (k * pageSize) &&& pteAddrMask) ||| BitVec.ofNat 64 heapPageFlags) :
    HeapEarly im mem mb m (i + 1) pt'
      { h with pager := (s', lowest im mb m), heapMappedEnd := h.heapMappedEnd + pageSize } := by
  have hmapped := he.mapped
  obtain ⟨hpr, hframe⟩ := @pageEntry_spec k (BitVec.ofNat 64 heapPageFlags) hk.lt (by decide)
    (by decide)
  refine ⟨h', rfl, ?_, by rw [ht]; simp, ?_⟩
  · simp only [hmapped]
    ring
  · intro v hlo hhi
    simp only [hmapped] at hhi
    obtain ⟨hdir, hidx⟩ := @heap_index v hlo (by simp only [pageSize] at *; omega)
    obtain ⟨-, hend⟩ := @heap_index h.heapMappedEnd (by omega) (by simp only [pageSize] at *; omega)
    rcases Nat.lt_or_ge v h.heapMappedEnd with hlow | hge
    · obtain ⟨t', ht', hpr', hlow'⟩ := he.pages v hlo hlow
      have hne : ptIndex v ≠ ptIndex h.heapMappedEnd := by
        intro hc
        have := congrArg Fin.val hc
        rw [hidx, hend] at this
        simp only [hmapped, pageSize] at *
        omega
      rw [hdir] at ht'
      refine ⟨t', by rw [hdir]; exact hold t' ht', ?_, ?_⟩
      · rw [hmem t' ht' _ hne]
        exact hpr'
      · rw [hmem t' ht' _ hne]
        exact ⟨hlow'.1, lt_of_lt_of_le hlow'.2 hle⟩
    · have heq : ptIndex v = ptIndex h.heapMappedEnd := by
        refine Fin.ext ?_
        rw [hidx, hend]
        simp only [hmapped, pageSize] at *
        omega
      refine ⟨t, by rw [hdir]; exact ht, ?_, ?_⟩
      · rw [heq, hentry]
        exact hpr
      · rw [heq, hentry, hframe]
        exact ⟨hk, hrank⟩

/-- The first page with its frame `k` in hand: its table is taken next, or the loop ends without. -/
theorem HeapEarly.first_page (he : HeapEarly im mem mb (initTables im mb) 0 pt h)
    (hk : Spare im mb k) (hrank : spareRank im mb k = initTables im mb)
    (halloc : pagingAllocPage h.pager.1 = (some (k * pageSize), bitmapSet h.pager.1 k))
    (h1 : Early im mem mb (initTables im mb + 1) pt (bitmapSet h.pager.1 k)) :
    (∃ pt' h', heapMapPage (logPager im) h = (true, h') ∧
      HeapEarly im mem mb (framesBefore im mb (0 + 1)) (0 + 1) pt' h' ∧
      32 ≤ spareTables im mb) ∨
    ∃ h', heapMapPage (logPager im) h = (false, h') ∧
      HeapBoot im mem mb (bootFrames im mb) h' := by
  have hmapped : h.heapMappedEnd = kernelHeapStart := by rw [he.mapped, Nat.zero_mul, Nat.add_zero]
  have hal : h.heapMappedEnd % pageSize = 0 := by rw [hmapped]; decide
  obtain ⟨d0, d1, d2⟩ := @low_index h.heapMappedEnd (by rw [hmapped]; decide)
  have hdir : pdIndex h.heapMappedEnd = pdIndex kernelHeapStart := congrArg pdIndex hmapped
  have hlog : h.pager.2 ∪ frameOf (some (k * pageSize)) = lowest im mb (initTables im mb + 1) := by
    rw [he.log, frameOf_some rfl, lowest_succ hk hrank]
  have hnone : pt (pdIndex h.heapMappedEnd) = none := by
    rw [hdir, ← Option.not_isSome_iff_eq_none, he.table]
    omega
  rcases h1.mapPage_absent (BitVec.ofNat 64 heapPageFlags) hal (Nat.mul_mod_left k pageSize)
    d0 d1 (by rw [d2, hmapped]; decide) hnone tableFlags_kernel with
    ⟨t, s', hmap, ht, htrank, hlt, h2, hentry⟩ | ⟨s', hmap, h2, hle⟩
  · obtain ⟨hN, hthirty⟩ := initTables_many hlt
    have hcount : initTables im mb + 1 + 1 = framesBefore im mb (0 + 1) := by
      rw [framesBefore_pos (by omega), hthirty]
    have htaken := h1.taken h2 (by omega)
    rw [hcount] at h2 htaken
    have hnew : ∀ t', pt (pdIndex kernelHeapStart) ≠ some t' := by
      intro t' ht'
      rw [← hdir, hnone] at ht'
      cases ht'
    left
    refine ⟨_, _, ?_, he.mapped_page (by omega) hk (m := framesBefore im mb (0 + 1)) (t := t)
      (by omega) (by omega) h2 (fun t' ht' => absurd ht' (hnew t'))
      (fun t' ht' => absurd ht' (hnew t')) ?_ hentry, hN⟩
    · simp only [heapMapPage, logPager, halloc, pagingMapPage, hmap, hlog, htaken]
    · rw [hdir, Function.update_self]
  · have hboot := initTables_few hle
    have htaken := h1.taken h2 (le_refl _)
    rw [hboot] at htaken hlog h2
    right
    refine ⟨_, by simp only [heapMapPage, logPager, halloc, pagingMapPage, hmap, hlog, htaken]; rfl,
      rfl, ?_, ?_⟩
    · intro f g0 g1 g2 hf
      rw [(pagingFreePage_eq s' _).1]
      refine h2.rest f g0 g1 g2 fun hs => ?_
      by_contra hlt
      exact hf ⟨hs, by omega⟩
    · intro v hlo hhi
      rw [hmapped] at hhi
      omega

/-- A later page with its frame `k` in hand: the table is there. -/
theorem HeapEarly.later_page (he : HeapEarly im mem mb (framesBefore im mb i) i pt h)
    (hpos : 0 < i) (hi : i < 16) (hk : Spare im mb k)
    (hrank : spareRank im mb k = framesBefore im mb i)
    (halloc : pagingAllocPage h.pager.1 = (some (k * pageSize), bitmapSet h.pager.1 k))
    (h1 : Early im mem mb (framesBefore im mb i + 1) pt (bitmapSet h.pager.1 k)) :
    ∃ pt' h', heapMapPage (logPager im) h = (true, h') ∧
      HeapEarly im mem mb (framesBefore im mb (i + 1)) (i + 1) pt' h' := by
  have hmapped := he.mapped
  have hal : h.heapMappedEnd % pageSize = 0 := by
    simp only [hmapped, kernelHeapStart, pageSize]
    omega
  obtain ⟨d0, d1, -⟩ := @low_index h.heapMappedEnd
    (by simp only [hmapped, kernelHeapStart, pageSize]; omega)
  obtain ⟨hdir, -⟩ := @heap_index h.heapMappedEnd (by omega)
    (by simp only [hmapped, pageSize]; omega)
  have hlog : h.pager.2 ∪ frameOf (some (k * pageSize)) = lowest im mb (framesBefore im mb i + 1) := by
    rw [he.log, frameOf_some rfl, lowest_succ hk hrank]
  obtain ⟨t, ht⟩ := Option.isSome_iff_exists.mp (he.table.mpr hpos)
  obtain ⟨s', hmap, h2, hmem⟩ := h1.mapPage_present (BitVec.ofNat 64 heapPageFlags)
    (pagePresent ||| pageWritable) hal (Nat.mul_mod_left k pageSize) d0 d1 (by rw [hdir]; exact ht)
  have hcount : framesBefore im mb i + 1 = framesBefore im mb (i + 1) := by
    rw [framesBefore_pos hpos, framesBefore_pos (Nat.succ_pos i)]
    omega
  have htaken := h1.taken h2 (le_refl _)
  rw [hcount] at htaken hlog h2
  refine ⟨pt, _, ?_, he.mapped_page hi hk (m := framesBefore im mb (i + 1)) (t := t)
    (by omega) (by omega) h2 (fun _ ht' => ht') ?_ ht ?_⟩
  · simp only [heapMapPage, logPager, halloc, pagingMapPage, hmap, hlog, htaken]
  · intro t' ht' j hj
    rw [ht, Option.some.injEq] at ht'
    subst ht'
    rw [hmem, writeEntry_other fun hc => hj (Prod.mk.inj hc).2, bitmapSet_mem]
  · rw [hmem, writeEntry_self]

/-- With no frame left for a page, what is mapped so far stays. -/
theorem HeapEarly.no_frame (he : HeapEarly im mem mb (framesBefore im mb i) i pt h) (hi : i < 16)
    (hbefore : framesBefore im mb i ≤ bootFrames im mb)
    (halloc : pagingAllocPage h.pager.1 = (none, h.pager.1))
    (hall : ∀ k, Spare im mb k → spareRank im mb k < framesBefore im mb i) :
    ∃ h', heapMapPage (logPager im) h = (false, h') ∧
      HeapBoot im mem mb (bootFrames im mb) h' := by
  have hsmall : h.heapMappedEnd < 2 ^ 30 := by
    simp only [he.mapped, kernelHeapStart, pageSize]
    omega
  have hnone : frameOf none = ∅ := by
    ext g
    simp [frameOf]
  have hlog : h.pager.2 ∪ frameOf none = lowest im mb (bootFrames im mb) := by
    rw [hnone, Set.union_empty, he.log, lowest_all hall hbefore]
  have hboot := he.early.heapBoot he.log hsmall.le he.pages
  refine ⟨_, by simp only [heapMapPage, logPager, halloc, hlog]; rfl, rfl, ?_, ?_⟩
  · rw [← lowest_all hall hbefore, ← hboot.log]
    exact hboot.rest
  · rw [← lowest_all hall hbefore, ← hboot.log]
    exact hboot.window

/-- One turn: the page is mapped, or the loop ends with the frames taken that booting takes. -/
theorem HeapEarly.turn (he : HeapEarly im mem mb (framesBefore im mb i) i pt h) (hi : i < 16)
    (hmany : 0 < i → 32 ≤ spareTables im mb) :
    (∃ pt' h', heapMapPage (logPager im) h = (true, h') ∧
      HeapEarly im mem mb (framesBefore im mb (i + 1)) (i + 1) pt' h' ∧
      32 ≤ spareTables im mb) ∨
    ∃ h', heapMapPage (logPager im) h = (false, h') ∧
      HeapBoot im mem mb (bootFrames im mb) h' := by
  rcases he.early.allocPage with ⟨k, halloc, hk, hrank, h1⟩ | ⟨halloc, hall⟩
  · rcases Nat.eq_zero_or_pos i with rfl | hpos
    · rw [framesBefore_zero] at he h1 hrank
      exact he.first_page hk hrank halloc h1
    · obtain ⟨pt', h', hpage, h2⟩ := he.later_page hpos hi hk hrank halloc h1
      exact Or.inl ⟨pt', h', hpage, h2, hmany hpos⟩
  · exact Or.inr (he.no_frame hi (framesBefore_le hi hmany) halloc hall)

/-! ### The run -/

/-- The sixteen turns. -/
theorem HeapEarly.run (m : Nat) : ∀ {i : Nat} {pt : Fin 512 → Option Nat}
    {h : HeapState (Vm × Set Nat)}, i + m = 16 → HeapEarly im mem mb (framesBefore im mb i) i pt h →
    (0 < i → 32 ≤ spareTables im mb) →
    HeapBoot im mem mb (bootFrames im mb) (heapMapPages (logPager im) m h).2 := by
  induction m with
  | zero =>
    intro i pt h hi he hmany
    have hcount : framesBefore im mb i = bootFrames im mb := by
      rw [framesBefore_pos (by omega), bootFrames_many (hmany (by omega))]
      omega
    have hsmall : h.heapMappedEnd ≤ 2 ^ 30 := by
      simp only [he.mapped, kernelHeapStart, pageSize]
      omega
    rw [hcount] at he
    exact he.early.heapBoot he.log hsmall he.pages
  | succ m ih =>
    intro i pt h hi he hmany
    rw [heapMapPages]
    rcases he.turn (by omega) hmany with ⟨pt', h', hturn, he', hN⟩ | ⟨h', hturn, hboot⟩
    · simp only [hturn]
      exact ih (by omega) he' fun _ => hN
    · simp only [hturn]
      exact hboot

/-- What `paging_init` and `heap_init` return, and what they leave alone. -/
theorem bootHeap_spec (im : Image) (mem : Memory) (mb : MultibootInfo) (words : Words) :
    HeapBoot im mem mb (bootFrames im mb) (bootHeap im mem mb words) := by
  obtain ⟨pt, he, ht⟩ := early_init im mem mb
  set p := (pagingInit im mem mb, taken (pagingInitFrames im mem mb) (pagingInit im mem mb))
  have hlog : taken (pagingInitFrames im mem mb) (pagingInit im mem mb) =
      lowest im mb (initTables im mb) := by
    have hnone : lowest im mb 0 = ∅ := by
      ext f
      simp [lowest]
    rw [← (early_initFrames im mem mb).taken he (Nat.zero_le _), hnone, Set.empty_union]
  have hstart : HeapEarly im mem mb (framesBefore im mb 0) 0 pt
      ⟨words, 0, kernelHeapStart, kernelHeapStart, p⟩ := by
    rw [framesBefore_zero]
    refine ⟨he, hlog, by simp, ?_, fun v hlo hhi => absurd hhi (not_lt.mpr hlo)⟩
    rw [ht]
    have hdir : (pdIndex kernelHeapStart).val = 128 := by decide
    rw [hdir, initTables]
    omega
  have hrun := HeapEarly.run 16 (by decide) hstart (by omega)
  have hturns : heapMapMore (logPager im) ⟨words, 0, kernelHeapStart, kernelHeapStart, p⟩
      heapMinExpand = heapMapPages (logPager im) 16
        ⟨words, 0, kernelHeapStart, kernelHeapStart, p⟩ := by
    rw [heapMapMore, heapTarget]
    congr 1
    dsimp only
    rw [if_neg (by decide)]
    decide
  rw [bootHeap, heapInit]
  dsimp only
  rw [hturns]
  rcases hm : heapMapPages (logPager im) 16 ⟨words, 0, kernelHeapStart, kernelHeapStart, p⟩ with
    ⟨ok, h⟩
  rw [hm] at hrun
  cases ok with
  | false => exact hrun
  | true => exact ⟨hrun.log, hrun.rest, hrun.window⟩

/-- No frame of the information at `addr` is returned by an allocator in `paging_init` and
    `heap_init`, each of them that is not the image's holds what it held, and the heap window does
    not reach it. -/
def InfoKept (im : Image) (mem : Memory) (info : BootInfo) (addr : Nat) (words : Words) : Prop :=
  ∀ f, Meets f addr (addr + info.totalSize.toNat) →
    f ∉ (bootHeap im mem (initInfo (some info)) words).pager.2 ∧
    (¬ Meets f 0 im.kernelEnd →
      (bootHeap im mem (initInfo (some info)) words).pager.1.mem f = mem f) ∧
    ∀ v, kernelHeapStart ≤ v →
      v < (bootHeap im mem (initInfo (some info)) words).heapMappedEnd →
      pagingVirtToPhys (bootHeap im mem (initInfo (some info)) words).pager.1 v / pageSize ≠ f

/-- The information survives if and only if none of its frames is among the lowest spare ones, as
    many as booting takes. -/
theorem info_kept_iff (im : Image) (mem : Memory) (info : BootInfo) (addr : Nat) (words : Words) :
    InfoKept im mem info addr words ↔
      ∀ f, Meets f addr (addr + info.totalSize.toNat) → Spare im (initInfo (some info)) f →
        bootFrames im (initInfo (some info)) ≤ spareRank im (initInfo (some info)) f := by
  have hboot := bootHeap_spec im mem (initInfo (some info)) words
  constructor
  · intro h f hf hs
    obtain ⟨hout, -⟩ := h f hf
    rw [hboot.log] at hout
    by_contra hlt
    exact hout ⟨hs, not_le.mp hlt⟩
  · intro h f hf
    have hout : f ∉ (bootHeap im mem (initInfo (some info)) words).pager.2 := by
      rw [hboot.log]
      rintro ⟨hs, hlt⟩
      exact absurd (h f hf hs) (not_le.mpr hlt)
    refine ⟨hout, ?_, ?_⟩
    · intro himage
      have htables := im.tables_le
      have hout : ∀ j < 3, f ≠ im.pmlTable + j := by
        rintro j hj rfl
        refine himage ⟨(im.pmlTable + j) * pageSize, Nat.zero_le _, ?_, ?_⟩
        · simp only [pageSize] at *
          omega
        · exact frame_div _
      exact hboot.rest f (hout 0 (by omega)) (hout 1 (by omega)) (hout 2 (by omega)) ‹_›
    · rintro v hlo hhi rfl
      exact hout (hboot.window v hlo hhi)

theorem bootFrames_pos (im : Image) (mb : MultibootInfo) : 0 < bootFrames im mb := by
  rw [bootFrames]
  split <;> omega

/-- GRUB put the information behind the kernel and its stack, at the lowest spare frame. -/
def behindKernel : BootInfo where
  totalSize := 56#32
  tags := [(40#32, .mmap 24#32 [⟨0x100000, 0x7f00000, 1⟩]), (8#32, .stop)]

/-- The first table of the identity map is made on top of it. -/
theorem info_lost : ¬ InfoKept smallImage (fun _ _ => 0#64) behindKernel 0x210000 fun _ => 0 := by
  intro h
  obtain ⟨hout, -⟩ := h 0x210 ⟨0x210000, by decide, by decide, by decide⟩
  have hspare : Spare smallImage (initInfo (some behindKernel)) 0x210 := by decide
  have hrank : spareRank smallImage (initInfo (some behindKernel)) 0x210 = 0 := by
    decide +kernel
  rw [(bootHeap_spec _ _ _ _).log] at hout
  refine hout ⟨hspare, ?_⟩
  rw [hrank]
  exact bootFrames_pos _ _

end TypeOS.Paging
