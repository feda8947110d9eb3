import TypeOS.Lib.FirstFit
import TypeOS.Paging.Given

/-! The frames that are taken while the kernel boots.

    Until the first process runs, nothing is freed that stays free: each page and each table takes
    the lowest spare frame, so after `n` of them the `n` lowest spare frames are gone (`Early`). A
    page below 1 GiB needs at most one table, below the boot tables' directory. The identity map
    from 4 to 64 MiB makes thirty. -/

namespace TypeOS.Paging
open FirstFit Radix

variable {im : Image} {mem : Memory} {mb : MultibootInfo} {s s' : Vm} {f k n t v phys : Nat}
  {pt : Fin 512 → Option Nat} {i : Fin 512} {fl tfl e : Word}

/-- The frames of `IDENTITY_MAP_LIMIT`, where tables are taken from. -/
abbrev tableLimit : Nat := identityMapLimit / pageSize

/-- The spare frames, as the scans test them. -/
def spare (im : Image) (mb : MultibootInfo) (f : Nat) : Bool := decide (Spare im mb f)

/-- How many spare frames lie below `f`. -/
abbrev spareRank (im : Image) (mb : MultibootInfo) (f : Nat) : Nat := rank (spare im mb) f

/-- How many spare frames `paging_alloc_table` may take. -/
def spareTables (im : Image) (mb : MultibootInfo) : Nat := spareRank im mb tableLimit

theorem spare_eq_true : spare im mb f = true ↔ Spare im mb f := decide_eq_true_iff

/-- The `n` lowest spare frames are taken, some of them as the page tables `pt` below the boot
    directory; the other frames hold what they held, but for the boot tables. -/
structure Early (im : Image) (mem : Memory) (mb : MultibootInfo) (n : Nat)
    (pt : Fin 512 → Option Nat) (s : Vm) : Prop where
  bits : ∀ f, bitmapTest s f = !left (spare im mb) n f
  total : s.totalFrames = (pagingInitFrames im mem mb).totalFrames
  pml4 : s.pml4 = im.pmlTable
  root : s.mem im.pmlTable 0 = frameWord im.pdpTable ||| 3#64
  dir : nextTable (s.mem im.pdpTable 0) = some im.pdTable
  table : ∀ i t, pt i = some t →
    nextTable (s.mem im.pdTable i) = some t ∧ Spare im mb t ∧ spareRank im mb t < n
  absent : ∀ i : Fin 512, 2 ≤ i.val → pt i = none → has (s.mem im.pdTable i) pagePresent = false
  rest : ∀ f, f ≠ im.pmlTable → f ≠ im.pdpTable → f ≠ im.pdTable →
    (Spare im mb f → n ≤ spareRank im mb f) → s.mem f = mem f

theorem early_initFrames (im : Image) (mem : Memory) (mb : MultibootInfo) :
    Early im mem mb 0 (fun _ => none) (pagingInitFrames im mem mb) := by
  obtain ⟨hmem, hpml4, -, -, -⟩ := pagingInitFrames_spec im mem mb
  have hlt := Paging.image_lt im
  refine ⟨fun f => ?_, rfl, hpml4, ?_, ?_, by simp, ?_, ?_⟩
  · rw [bitmapTest_initFrames, left_zero, spare]
  · rw [hmem, bootMemory_pml, if_pos rfl]
  · rw [hmem, bootMemory_pdp, if_pos rfl]
    exact next_boot (by omega)
  · intro i hi _
    have h0 : i ≠ 0 := by rintro rfl; simp at hi
    have h1 : i ≠ 1 := by rintro rfl; simp at hi
    rw [hmem, bootMemory_pd, if_neg h0, if_neg h1]
    decide
  · intro f h0 h1 h2 _
    rw [hmem]
    simp only [bootMemory, Function.update_of_ne h0, Function.update_of_ne h1,
      Function.update_of_ne h2]

theorem Early.root_next (h : Early im mem mb n pt s) :
    nextTable (s.mem im.pmlTable 0) = some im.pdpTable := by
  have hlt := Paging.image_lt im
  rw [h.root]
  exact next_boot (by simp only [Image.pdTable, Image.pdpTable] at *; omega)

theorem Early.null (h : Early im mem mb n pt s) : bitmapTest s 0 = true := by
  rw [h.bits, Bool.not_eq_true', left_eq_false]
  intro hs
  have := (spare_eq_true.mp hs).image_lt
  omega

theorem Early.touch (h : Early im mem mb n pt s) (a : Nat) : Early im mem mb n pt (touch s a) :=
  ⟨h.bits, h.total, h.pml4, h.root, h.dir, h.table, h.absent, h.rest⟩

/-! ### The allocators -/

/-- The hole `paging_alloc_table` leaves for the kernel stack holds no spare frame. -/
theorem Early.tableFrame (h : Early im mem mb n pt s) :
    tableFrame im s = left (spare im mb) n := by
  funext f
  rw [Paging.tableFrame, h.bits, Bool.not_not]
  cases hleft : left (spare im mb) n f with
  | false => rw [Bool.and_false]
  | true =>
    have hno := (spare_eq_true.mp (left_eq_true.mp hleft).1).not_stack
    rw [Bool.and_true, Bool.not_eq_true', ← Bool.decide_and, decide_eq_false hno]

/-- A table takes the lowest spare frame below `IDENTITY_MAP_LIMIT` that is left. -/
theorem Early.allocTable (h : Early im mem mb n pt s) :
    (∃ k s', pagingAllocTable im s = (some k, s') ∧ Spare im mb k ∧ spareRank im mb k = n ∧
      k < tableLimit ∧ Fresh s s' k fun _ => 0#64) ∨
    pagingAllocTable im s = (none, s) ∧ spareTables im mb ≤ n := by
  cases hf : firstFrom (left (spare im mb) n) (min s.totalFrames tableLimit) 0 with
  | none =>
    refine Or.inr ⟨?_, ?_⟩
    · rw [pagingAllocTable, h.tableFrame, hf]
    · by_contra hlt
      rw [spareTables] at hlt
      obtain ⟨f, hf', hfree, hrank⟩ := exists_rank (not_le.mp hlt)
      have htotal := @Spare.lt_total im mem mb f (spare_eq_true.mp hfree)
      rw [← h.total] at htotal
      have := firstFrom_left_none hf (by omega) hfree
      omega
  | some k =>
    obtain ⟨hlt, hfree, hrank⟩ := firstFrom_left hf
    have hs := spare_eq_true.mp hfree
    have hne : k ≠ 0 := by
      have := hs.image_lt
      omega
    have hall : pagingAllocTable im s = (some k,
        writeFrame (Paging.touch (bitmapSet s k) (k * pageSize)) k fun _ => 0#64) := by
      rw [pagingAllocTable, h.tableFrame, hf]
      simp only [framePtr, if_neg hne]
    exact Or.inl ⟨k, _, hall, hs, hrank, by omega, pagingAllocTable_some h.null hall⟩

/-- A page takes the lowest spare frame that is left. -/
theorem Early.allocPage (h : Early im mem mb n pt s) :
    (∃ k, pagingAllocPage s = (some (k * pageSize), bitmapSet s k) ∧ Spare im mb k ∧
      spareRank im mb k = n ∧ Early im mem mb (n + 1) pt (bitmapSet s k)) ∨
    pagingAllocPage s = (none, s) ∧ ∀ f, Spare im mb f → spareRank im mb f < n := by
  have hscan : (fun i => !bitmapTest s i) = left (spare im mb) n := by
    funext f
    rw [h.bits, Bool.not_not]
  cases hf : firstFrom (left (spare im mb) n) s.totalFrames 0 with
  | none =>
    refine Or.inr ⟨?_, ?_⟩
    · rw [pagingAllocPage, hscan, hf]
    · intro f hs
      have htotal := @Spare.lt_total im mem mb f hs
      rw [← h.total] at htotal
      exact firstFrom_left_none hf htotal (spare_eq_true.mpr hs)
  | some k =>
    obtain ⟨hlt, hfree, hrank⟩ := firstFrom_left hf
    have hs := spare_eq_true.mp hfree
    have hne : k * pageSize ≠ 0 := by
      have := hs.image_lt
      simp only [pageSize]
      omega
    refine Or.inl ⟨k, ?_, hs, hrank, ?_, ?_, ?_, ?_, ?_, ?_, ?_, ?_⟩
    · rw [pagingAllocPage, hscan, hf]
      simp only [framePtr, if_neg hne]
    · intro f
      rw [bitmapTest_bitmapSet, h.bits, left_succ hfree hrank, Bool.not_and, Bool.not_not,
        Bool.or_comm]
    · rw [bitmapSet_total, h.total]
    · rw [bitmapSet_pml4, h.pml4]
    · rw [bitmapSet_mem]
      exact h.root
    · rw [bitmapSet_mem]
      exact h.dir
    · intro i t ht
      obtain ⟨h1, h2, h3⟩ := h.table i t ht
      rw [bitmapSet_mem]
      exact ⟨h1, h2, by omega⟩
    · intro i hi hnone
      rw [bitmapSet_mem]
      exact h.absent i hi hnone
    · intro f h0 h1 h2 hrest
      rw [bitmapSet_mem]
      refine h.rest f h0 h1 h2 fun hsp => ?_
      have := hrest hsp
      omega

/-! ### Mapping a page -/

/-- A taken frame may be overwritten. -/
theorem Early.fill {w : Fin 512 → Word} (h : Early im mem mb n pt s) (ht : Spare im mb t)
    (hrank : spareRank im mb t < n) : Early im mem mb n pt (writeFrame s t w) := by
  have hlt := ht.image_lt
  have hother : ∀ f, f ≠ t → (writeFrame s t w).mem f = s.mem f := fun f hf =>
    Function.update_of_ne hf ..
  have hpml : im.pmlTable ≠ t := by
    simp only [Image.pdTable] at hlt
    omega
  have hpdp : im.pdpTable ≠ t := by
    simp only [Image.pdTable, Image.pdpTable] at *
    omega
  have hpd : im.pdTable ≠ t := by omega
  refine ⟨h.bits, h.total, h.pml4, ?_, ?_, ?_, ?_, ?_⟩
  · rw [hother _ hpml]
    exact h.root
  · rw [hother _ hpdp]
    exact h.dir
  · rw [hother _ hpd]
    exact h.table
  · rw [hother _ hpd]
    exact h.absent
  · intro f h0 h1 h2 hrest
    have hne : f ≠ t := by
      rintro rfl
      have := hrest ht
      omega
    rw [hother _ hne]
    exact h.rest f h0 h1 h2 hrest

theorem Early.write (h : Early im mem mb n pt s) (ht : Spare im mb t)
    (hrank : spareRank im mb t < n) : Early im mem mb n pt (writeEntry s t i e) :=
  h.fill ht hrank

/-- A new table is hung into the directory. -/
theorem Early.hang (h : Early im mem mb n pt s) (hk : Spare im mb k)
    (hrank : spareRank im mb k = n) (hlim : k < tableLimit) (hfresh : Fresh s s' k fun _ => 0#64)
    (hfl : TableFlags fl) : Early im mem mb (n + 1) (Function.update pt i (some k))
      (writeEntry s' im.pdTable i (frameWord k ||| fl)) := by
  have hlt := hk.image_lt
  have hnext : nextTable (frameWord k ||| fl) = some k :=
    hfl.next (by simp only [tableLimit, identityMapLimit, pageSize] at hlim; omega)
  have hpml : im.pmlTable ≠ im.pdTable := by simp [Image.pdTable]
  have hpdp : im.pdpTable ≠ im.pdTable := by simp [Image.pdTable, Image.pdpTable]
  have hpml' : im.pmlTable ≠ k := by
    simp only [Image.pdTable] at hlt
    omega
  have hpdp' : im.pdpTable ≠ k := by
    simp only [Image.pdTable, Image.pdpTable] at *
    omega
  have hold : ∀ j, j ≠ i →
      (writeEntry s' im.pdTable i (frameWord k ||| fl)).mem im.pdTable j = s.mem im.pdTable j := by
    intro j hj
    rw [writeEntry_other fun hc => hj (Prod.mk.inj hc).2, hfresh.other _ (by omega)]
  have hnew : (writeEntry s' im.pdTable i (frameWord k ||| fl)).mem im.pdTable i =
      frameWord k ||| fl := writeEntry_self ..
  refine ⟨fun f => ?_, ?_, ?_, ?_, ?_, ?_, ?_, ?_⟩
  · rw [bitmapTest_writeEntry, hfresh.bits, h.bits,
      left_succ (spare_eq_true.mpr hk) hrank, Bool.not_and, Bool.not_not, Bool.or_comm]
  · exact hfresh.total.trans h.total
  · exact hfresh.pml4.trans h.pml4
  · rw [writeEntry_frame hpml, hfresh.other _ hpml']
    exact h.root
  · rw [writeEntry_frame hpdp, hfresh.other _ hpdp']
    exact h.dir
  · intro j t ht
    rcases eq_or_ne j i with rfl | hj
    · rw [Function.update_self, Option.some.injEq] at ht
      subst ht
      rw [hnew]
      exact ⟨hnext, hk, by omega⟩
    · rw [Function.update_of_ne hj] at ht
      obtain ⟨h1, h2, h3⟩ := h.table j t ht
      rw [hold j hj]
      exact ⟨h1, h2, by omega⟩
  · intro j hj hnone
    rcases eq_or_ne j i with rfl | hji
    · rw [Function.update_self] at hnone
      simp at hnone
    · rw [Function.update_of_ne hji] at hnone
      rw [hold j hji]
      exact h.absent j hj hnone
  · intro f h0 h1 h2 hrest
    have hne : f ≠ k := by
      rintro rfl
      have := hrest hk
      omega
    rw [writeEntry_frame h2, hfresh.other f hne]
    refine h.rest f h0 h1 h2 fun hsp => ?_
    have := hrest hsp
    omega

/-- The state once `paging_map_page_flags` has gone down to the boot directory. -/
def onDir (im : Image) (s : Vm) : Vm :=
  touch (touch s (im.pdpTable * pageSize)) (im.pdTable * pageSize)

theorem Early.onDir (h : Early im mem mb n pt s) : Early im mem mb n pt (onDir im s) :=
  (h.touch _).touch _

/-- The way to the directory takes no frame; below it the table is all there is to make. -/
theorem Early.mapPage_dir (fl tfl : Word) (h : Early im mem mb n pt s) (hv : v % pageSize = 0)
    (hphys : phys % pageSize = 0) (h0 : pml4Index v = 0) (h1 : pdpIndex v = 0)
    (hsplit : splitHugePage im (Paging.onDir im s) im.pdTable (pdIndex v) =
      (true, Paging.onDir im s))
    {r : Option Nat} (hget : getOrCreateTable im (Paging.onDir im s) im.pdTable (pdIndex v)
      tfl = (r, s')) :
    pagingMapPageFlags im s v phys fl tfl = r.elim (false, s') fun t =>
      (true, writeEntry s' t (ptIndex v) ((BitVec.ofNat 64 phys &&& pteAddrMask) ||| fl)) := by
  have hstart := im.start_le
  have hroot : getOrCreateTable im s s.pml4 (pml4Index v) tfl =
      (some im.pdpTable, Paging.touch s (im.pdpTable * pageSize)) := by
    rw [h.pml4, h0]
    exact getOrCreateTable_next h.root_next (by simp only [Image.pdpTable]; omega)
  have hdir : getOrCreateTable im (Paging.touch s (im.pdpTable * pageSize)) im.pdpTable
      (pdpIndex v) tfl = (some im.pdTable, Paging.onDir im s) := by
    rw [h1]
    exact getOrCreateTable_next h.dir (by simp only [Image.pdTable]; omega)
  rw [pagingMapPageFlags, if_neg (by omega)]
  simp only [hroot, hdir, hsplit, hget]
  cases r <;> rfl

/-- A page whose table is there takes no frame. -/
theorem Early.mapPage_present (fl tfl : Word) (h : Early im mem mb n pt s) (hv : v % pageSize = 0)
    (hphys : phys % pageSize = 0) (h0 : pml4Index v = 0) (h1 : pdpIndex v = 0)
    (ht : pt (pdIndex v) = some t) : ∃ s', pagingMapPageFlags im s v phys fl tfl = (true, s') ∧
      Early im mem mb n pt s' ∧ s'.mem = (writeEntry s t (ptIndex v)
        ((BitVec.ofNat 64 phys &&& pteAddrMask) ||| fl)).mem := by
  obtain ⟨hnext, hs, hrank⟩ := h.onDir.table _ t ht
  have hpos : 0 < t := lt_of_le_of_lt (Nat.zero_le _) hs.image_lt
  have hmap := h.mapPage_dir fl tfl hv hphys h0 h1 (splitHugePage_next hnext)
    (getOrCreateTable_next hnext hpos)
  exact ⟨_, hmap, (h.onDir.touch _).write hs hrank, rfl⟩

/-- A page whose table is missing takes one frame for it, or fails. -/
theorem Early.mapPage_absent (fl : Word) (h : Early im mem mb n pt s) (hv : v % pageSize = 0)
    (hphys : phys % pageSize = 0) (h0 : pml4Index v = 0) (h1 : pdpIndex v = 0)
    (h2 : 2 ≤ (pdIndex v).val) (ht : pt (pdIndex v) = none) (hfl : TableFlags tfl) :
    (∃ k s', pagingMapPageFlags im s v phys fl tfl = (true, s') ∧ Spare im mb k ∧
      spareRank im mb k = n ∧ n < spareTables im mb ∧
      Early im mem mb (n + 1) (Function.update pt (pdIndex v) (some k)) s' ∧
      s'.mem k (ptIndex v) = (BitVec.ofNat 64 phys &&& pteAddrMask) ||| fl) ∨
    ∃ s', pagingMapPageFlags im s v phys fl tfl = (false, s') ∧ Early im mem mb n pt s' ∧
      spareTables im mb ≤ n := by
  have habs := h.onDir.absent _ h2 ht
  rcases h.onDir.allocTable with ⟨k, s', hall, hk, hrank, hlim, hfresh⟩ | ⟨hall, hgone⟩
  · have hget : getOrCreateTable im (Paging.onDir im s) im.pdTable (pdIndex v)
        tfl = (some k, writeEntry s' im.pdTable (pdIndex v) (frameWord k ||| tfl)) := by
      rw [getOrCreateTable]
      simp only [habs, hall, Bool.false_eq_true, if_false]
    have hlt : n < spareTables im mb := by
      rw [← hrank, spareTables]
      exact rank_lt (spare_eq_true.mpr hk) hlim
    exact Or.inl ⟨k, _, h.mapPage_dir fl tfl hv hphys h0 h1 (splitHugePage_absent habs) hget, hk, hrank,
      hlt, (h.onDir.hang hk hrank hlim hfresh hfl).write hk (by omega),
      writeEntry_self ..⟩
  · have hget : getOrCreateTable im (Paging.onDir im s) im.pdTable (pdIndex v)
        tfl = (none, Paging.onDir im s) := by
      rw [getOrCreateTable]
      simp only [habs, hall, Bool.false_eq_true, if_false]
    exact Or.inr ⟨_, h.mapPage_dir fl tfl hv hphys h0 h1 (splitHugePage_absent habs) hget, h.onDir,
      hgone⟩

/-! ### The identity map -/

theorem low_index (hv : v < 2 ^ 30) :
    pml4Index v = 0 ∧ pdpIndex v = 0 ∧ (pdIndex v).val = v / 2 ^ 21 := by
  refine ⟨Fin.ext ?_, Fin.ext ?_, ?_⟩
  · simp only [pml4Index, Fin.ofNat, Fin.val_zero]
    omega
  · simp only [pdpIndex, Fin.ofNat, Fin.val_zero]
    omega
  · simp only [pdIndex, Fin.ofNat]
    omega

/-- The entry of a page that maps frame `k`. -/
theorem pageEntry_spec (hk : k < 2 ^ 40) (haddr : fl &&& pteAddrMask = 0#64)
    (hpr : has fl pagePresent = true) :
    has ((BitVec.ofNat 64 (k * pageSize) &&& pteAddrMask) ||| fl) pagePresent = true ∧
      entryFrame ((BitVec.ofNat 64 (k * pageSize) &&& pteAddrMask) ||| fl) = k := by
  constructor
  · rw [has_present] at hpr ⊢
    rw [BitVec.getLsbD_or, hpr, Bool.or_true]
  · rw [entryFrame_or haddr, entryFrame_and_mask]
    exact entryFrame_frameWord hk

theorem Spare.lt (h : Spare im mb f) : f < 2 ^ 40 := by
  have := h.1.lt
  simp only [maxFrames, maxPhysMem, pageSize] at this
  omega

/-- What a page below 1 GiB translates to. -/
theorem Early.virtToPhys (h : Early im mem mb n pt s) (hv : v < 2 ^ 30)
    (ht : pt (pdIndex v) = some t) (hpr : has (s.mem t (ptIndex v)) pagePresent = true) :
    pagingVirtToPhys s v = entryFrame (s.mem t (ptIndex v)) * pageSize + v % pageSize := by
  obtain ⟨h0, h1, -⟩ := low_index hv
  obtain ⟨p0, -, e0⟩ := nextTable_some h.root_next
  obtain ⟨p1, -, e1⟩ := nextTable_some h.dir
  obtain ⟨p2, q2, e2⟩ := nextTable_some (h.table _ t ht).1
  rw [pagingVirtToPhys, Paging.virtToPhys, h.pml4, h0, h1]
  simp only [p0, e0, p1, e1, p2, q2, e2, hpr, Bool.not_true, Bool.false_eq_true, if_false]

/-- A page without a table translates nowhere. -/
theorem Early.walk_absent (h : Early im mem mb n pt s) (hv : v < 2 ^ 30)
    (h2 : 2 ≤ (pdIndex v).val) (ht : pt (pdIndex v) = none) : walk s.mem s.pml4 v = none := by
  obtain ⟨h0, h1, -⟩ := low_index hv
  have habs := h.absent _ h2 ht
  have hdir : descend translator.next s.mem s.pml4 [pml4Index v, pdpIndex v] =
      some im.pdTable := by
    rw [h0, h1, h.pml4, descend, show translator.next _ = _ from h.root_next, Option.bind_some,
      descend, show translator.next _ = _ from h.dir, Option.bind_some, descend]
  have hnone : look translator s.mem im.pdTable [pdIndex v, ptIndex v] = none := by
    rw [look, show translator.next (s.mem im.pdTable (pdIndex v)) = none from nextTable_none habs]
    exact leafEntry_absent (q := [ptIndex v]) habs
  rw [walk, show pathOf v = [pml4Index v, pdpIndex v] ++ [pdIndex v, ptIndex v] from rfl,
    look_descend hdir (by simp), hnone, Option.map_none]

/-- Unmapping such a page writes into its table only. -/
theorem Early.unmap (h : Early im mem mb n pt s) (hv : v < 2 ^ 30)
    (ht : pt (pdIndex v) = some t) : Early im mem mb n pt (pagingUnmapPage s v) ∧
      (pagingUnmapPage s v).mem = (writeEntry s t (ptIndex v) 0#64).mem := by
  obtain ⟨h0, h1, -⟩ := low_index hv
  obtain ⟨hnext, hs, hrank⟩ := h.table _ t ht
  obtain ⟨p0, -, e0⟩ := nextTable_some h.root_next
  obtain ⟨p1, -, e1⟩ := nextTable_some h.dir
  obtain ⟨p2, q2, e2⟩ := nextTable_some hnext
  have hunmap : pagingUnmapPage s v =
      writeEntry (Paging.touch (Paging.onDir im s) (t * pageSize)) t (ptIndex v) 0#64 := by
    rw [pagingUnmapPage, h.pml4, h0, h1]
    simp only [Paging.onDir, Paging.touch, p0, e0, p1, e1, p2, q2, e2, Bool.not_true, Bool.or_self,
      Bool.false_eq_true, if_false]
  rw [hunmap]
  exact ⟨(h.onDir.touch _).write hs hrank, rfl⟩

/-- The boot code maps the first 4 MiB to themselves by two huge pages. -/
theorem initFrames_direct (im : Image) (mem : Memory) (mb : MultibootInfo) (hv : v < identity4kStart) :
    pagingVirtToPhys (pagingInitFrames im mem mb) v = v := by
  have he := early_initFrames im mem mb
  simp only [identity4kStart] at hv
  obtain ⟨h0, h1, h2⟩ := @low_index v (by omega)
  obtain ⟨p0, -, e0⟩ := nextTable_some he.root_next
  obtain ⟨p1, -, e1⟩ := nextTable_some he.dir
  have hhuge : ∀ i e, pdIndex v = i → (pagingInitFrames im mem mb).mem im.pdTable i = e →
      has e pagePresent = true → has e pageHuge = true →
      pagingVirtToPhys (pagingInitFrames im mem mb) v = entryFrame e * pageSize + v % 0x200000 := by
    rintro i e rfl rfl hp hh
    rw [pagingVirtToPhys, Paging.virtToPhys, he.pml4, h0, h1]
    simp only [p0, e0, p1, e1, hp, hh, Bool.not_true, Bool.false_eq_true, if_false, if_true]
  have hdir := fun i => congrFun (congrFun (pagingInitFrames_spec im mem mb).1 im.pdTable) i
  rcases Nat.lt_or_ge v (2 ^ 21) with hlt | hge
  · rw [hhuge 0 0x83#64 (Fin.ext (by rw [h2, Fin.val_zero]; omega))
      (by rw [hdir, bootMemory_pd, if_pos rfl]) (by decide) (by decide),
      show entryFrame 0x83#64 = 0 by decide]
    omega
  · rw [hhuge 1 0x200083#64 (Fin.ext (by rw [h2, show ((1 : Fin 512) : Nat) = 1 from rfl]; omega))
      (by rw [hdir, bootMemory_pd, if_neg (by decide), if_pos rfl]) (by decide) (by decide),
      show entryFrame 0x200083#64 = 0x200 by decide, pageSize]
    omega

/-- The page tables of the first `m` slots from 4 MiB on are there. -/
def Tables (m : Nat) (pt : Fin 512 → Option Nat) : Prop :=
  ∀ i, (pt i).isSome = true ↔ 2 ≤ i.val ∧ i.val < 2 + m

/-- One page of the identity map: the first of each 2 MiB takes a frame, or ends the loop where
    no frame is left that may become a table. -/
theorem Early.identity_step (h : Early im mem mb n pt s) {j : Nat} (hn : n = (j + 511) / 512)
    (hj : j < 15360) (ht : Tables n pt) (hlim : n ≤ spareTables im mb) :
    (∃ pt' s', pagingMapPage im s (identity4kStart + j * pageSize)
      (identity4kStart + j * pageSize) (pagePresent ||| pageWritable) = (true, s') ∧
      Early im mem mb ((j + 1 + 511) / 512) pt' s' ∧ Tables ((j + 1 + 511) / 512) pt' ∧
      (j + 1 + 511) / 512 ≤ spareTables im mb) ∨
    ∃ s', pagingMapPage im s (identity4kStart + j * pageSize)
      (identity4kStart + j * pageSize) (pagePresent ||| pageWritable) = (false, s') ∧
      Early im mem mb n pt s' ∧ spareTables im mb ≤ n := by
  set v := identity4kStart + j * pageSize with hv
  have hval : v = 0x400000 + j * 4096 := hv
  obtain ⟨h0, h1, hi⟩ := @low_index v (by omega)
  have hal : v % pageSize = 0 := by
    simp only [pageSize]
    omega
  have hi' : (pdIndex v).val = 2 + j / 512 := by omega
  rcases hpt : pt (pdIndex v) with _ | t
  · have hout : ¬ (pdIndex v).val < 2 + n := by
      intro hc
      have := (ht (pdIndex v)).mpr ⟨by omega, hc⟩
      rw [hpt] at this
      simp at this
    rcases h.mapPage_absent (pagePresent ||| pageWritable) hal hal h0 h1 (by omega) hpt
      tableFlags_kernel with
      ⟨k, s', hmap, -, -, hlt, h', -⟩ | ⟨s', hmap, h', hle⟩
    · have hnext : (j + 1 + 511) / 512 = n + 1 := by omega
      rw [hnext]
      refine Or.inl ⟨_, s', hmap, h', fun i => ?_, hlt⟩
      rcases eq_or_ne i (pdIndex v) with rfl | hne
      · rw [Function.update_self]
        simp only [Option.isSome_some, true_iff]
        omega
      · have hval' : i.val ≠ (pdIndex v).val := fun hc => hne (Fin.ext hc)
        rw [Function.update_of_ne hne, ht i]
        omega
    · exact Or.inr ⟨s', hmap, h', hle⟩
  · have hin := (ht (pdIndex v)).mp (by rw [hpt]; rfl)
    obtain ⟨s', hmap, h', -⟩ := h.mapPage_present (pagePresent ||| pageWritable)
      (pagePresent ||| pageWritable) hal hal h0 h1
      hpt
    have hnext : (j + 1 + 511) / 512 = n := by omega
    rw [hnext]
    exact Or.inl ⟨pt, s', hmap, h', ht, hlim⟩

/-- The loop takes a frame for every 2 MiB, as far as there are frames for tables. -/
theorem Early.identity_run (m : Nat) : ∀ {j : Nat} {s : Vm} {pt : Fin 512 → Option Nat},
    j + m = 15360 → Early im mem mb ((j + 511) / 512) pt s → Tables ((j + 511) / 512) pt →
    (j + 511) / 512 ≤ spareTables im mb →
    ∃ pt', Early im mem mb (min 30 (spareTables im mb)) pt'
        (extendIdentityFrom im m (identity4kStart + j * pageSize) s) ∧
      Tables (min 30 (spareTables im mb)) pt' := by
  induction m with
  | zero =>
    intro j s pt hj h ht hlim
    have hn : min 30 (spareTables im mb) = (j + 511) / 512 := by omega
    rw [hn]
    exact ⟨pt, h, ht⟩
  | succ m ih =>
    intro j s pt hj h ht hlim
    rw [extendIdentityFrom]
    rcases h.identity_step rfl (by omega) ht hlim with
      ⟨pt', s', hmap, h', ht', hlim'⟩ | ⟨s', hmap, h', hle⟩
    · have hnext : identity4kStart + j * pageSize + pageSize =
          identity4kStart + (j + 1) * pageSize := by ring
      simp only [hmap]
      rw [hnext]
      exact ih (by omega) h' ht' hlim'
    · have hn : min 30 (spareTables im mb) = (j + 511) / 512 := by omega
      simp only [hmap]
      rw [hn]
      exact ⟨pt, h', ht⟩

/-- How many frames `paging_init` takes for tables. -/
def initTables (im : Image) (mb : MultibootInfo) : Nat := min 30 (spareTables im mb)

/-- After `paging_init` the lowest spare frames are page tables of the identity map. -/
theorem early_init (im : Image) (mem : Memory) (mb : MultibootInfo) :
    ∃ pt, Early im mem mb (initTables im mb) pt (pagingInit im mem mb) ∧
      Tables (initTables im mb) pt := by
  refine Early.identity_run 15360 (j := 0) (by decide) (early_initFrames im mem mb) ?_ (Nat.zero_le _)
  intro i
  simp only [Option.isSome_none, Bool.false_eq_true, false_iff]
  omega

/-- A spare frame that the identity map does not need: not one of the thirty lowest below
    `IDENTITY_MAP_LIMIT`. -/
def LeftOver (im : Image) (mb : MultibootInfo) (f : Nat) : Prop :=
  Spare im mb f ∧ (f < tableLimit → 30 ≤ spareRank im mb f)

/-- The frames `paging_init` leaves free. -/
theorem pagingInit_free (im : Image) (mem : Memory) (mb : MultibootInfo) (f : Nat) :
    bitmapTest (pagingInit im mem mb) f = false ↔ LeftOver im mb f := by
  obtain ⟨pt, h, -⟩ := early_init im mem mb
  rw [h.bits, Bool.not_eq_false', left_eq_true, spare_eq_true, LeftOver, and_congr_right_iff]
  intro hs
  rw [initTables, show rank (spare im mb) f = spareRank im mb f from rfl]
  rcases Nat.lt_or_ge f tableLimit with hlt | hge
  · have hrank : spareRank im mb f < spareTables im mb := by
      rw [spareTables]
      exact rank_lt (spare_eq_true.mpr hs) hlt
    constructor
    · intro h _
      omega
    · intro h
      have := h hlt
      omega
  · have hrank : spareTables im mb ≤ spareRank im mb f := by
      rw [spareTables]
      exact rank_le hge
    constructor
    · intro _ hlt
      omega
    · intro _
      omega

end TypeOS.Paging
