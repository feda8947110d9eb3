import TypeOS.Heap.Edits

/-! Runs of the kernel heap: any sequence of `kmalloc` and `kfree` calls, with any pager, and of
    stores by the owners of the allocations into their own bytes.

    Each call has one specification in terms of the blocks that are taken: a successful `kmalloc`
    adds one block to them, `kfree` removes one, and a failed `kmalloc` changes neither the memory
    nor the list. `Exactly` ties the taken blocks to the allocations that are live, and holds along
    every run. -/

namespace TypeOS.Heap
open Tiling Segment

variable {P : Type} {pg : Pager P}

/-- The heap's words, entered at its head, hold the blocks `bs` of its window. -/
abbrev Holds (h : HeapState P) (bs : List Block) : Prop :=
  BlockList h.mem h.heapHead h.heapCurrent bs

/-- `b` is a block of the list that is not free. -/
def Taken (bs : List Block) (b : Block) : Prop := b ∈ bs ∧ b.free = false

/-! ### Growing the mapped part -/

/-- Everything but the pager and the mapped end. -/
def SameBlocks (h h' : HeapState P) : Prop :=
  h'.mem = h.mem ∧ h'.heapHead = h.heapHead ∧ h'.heapCurrent = h.heapCurrent

theorem SameBlocks.holds {h h' : HeapState P} {bs : List Block} (hs : SameBlocks h h')
    (hb : Holds h bs) : Holds h' bs := by
  obtain ⟨h1, h2, h3⟩ := hs
  unfold Holds; rw [h1, h2, h3]; exact hb

theorem heapMapPage_spec (pg : Pager P) (h : HeapState P) : SameBlocks h (heapMapPage pg h).2 ∧
    (heapMapPage pg h).2.heapMappedEnd =
      h.heapMappedEnd + if (heapMapPage pg h).1 then pageSize else 0 := by
  cases ha : pg.pagingAllocPage h.pager with
  | mk frame p =>
    cases frame with
    | none => simp [heapMapPage, ha, SameBlocks]
    | some frame =>
      cases hm : pg.pagingMapPage p h.heapMappedEnd frame heapPageFlags with
      | mk ok p' => cases ok <;> simp [heapMapPage, ha, hm, SameBlocks]

/-- The loop maps page after page at the mapped end; if it succeeds it has mapped them all. -/
theorem heapMapPages_spec (pg : Pager P) : ∀ (n : Nat) (h : HeapState P),
    SameBlocks h (heapMapPages pg n h).2 ∧
    h.heapMappedEnd ≤ (heapMapPages pg n h).2.heapMappedEnd ∧
    (heapMapPages pg n h).2.heapMappedEnd ≤ h.heapMappedEnd + n * pageSize ∧
    ((heapMapPages pg n h).1 = true →
      (heapMapPages pg n h).2.heapMappedEnd = h.heapMappedEnd + n * pageSize)
  | 0, h => ⟨⟨rfl, rfl, rfl⟩, le_refl _, by simp [heapMapPages], fun _ => by simp [heapMapPages]⟩
  | n + 1, h => by
    obtain ⟨⟨h1, h2, h3⟩, h4⟩ := heapMapPage_spec pg h
    rw [heapMapPages]
    rcases hp : heapMapPage pg h with ⟨ok, h'⟩
    rw [hp] at h1 h2 h3 h4
    simp only [pageSize] at h1 h2 h3 h4 ⊢
    cases ok with
    | false =>
      simp only [Bool.false_eq_true, if_false] at h4 ⊢
      exact ⟨⟨h1, h2, h3⟩, by omega, by omega, fun hc => absurd hc (by simp)⟩
    | true =>
      simp only [if_true] at h4
      obtain ⟨⟨i1, i2, i3⟩, i4, i5, i6⟩ := heapMapPages_spec pg n h'
      simp only [pageSize] at i4 i5 i6
      dsimp only
      refine ⟨⟨i1.trans h1, i2.trans h2, i3.trans h3⟩, by omega, by omega, fun hok => ?_⟩
      have := i6 hok
      omega

theorem heapMapPages_paged (pg : Pager P) : ∀ (n : Nat) (h : HeapState P),
    (heapMapPages pg n h).2.heapMappedEnd % pageSize = h.heapMappedEnd % pageSize
  | 0, _ => rfl
  | n + 1, h => by
    have hpage := (heapMapPage_spec pg h).2
    have ih := heapMapPages_paged pg n (heapMapPage pg h).2
    rw [heapMapPages]
    rcases hp : heapMapPage pg h with ⟨ok, h'⟩
    rw [hp] at hpage ih
    simp only [pageSize] at *
    cases ok with
    | false =>
      simp only [Bool.false_eq_true, if_false] at hpage ⊢
      omega
    | true =>
      simp only [if_true] at hpage ⊢
      omega

/-- The blocks end inside the mapped part, and the mapped part ends with a page, by the limit. -/
structure Mapped (h : HeapState P) : Prop where
  current_le : h.heapCurrent ≤ h.heapMappedEnd
  end_le : h.heapMappedEnd ≤ kernelHeapLimit
  paged : h.heapMappedEnd % pageSize = 0

theorem SameBlocks.mapped {h h' : HeapState P} (hs : SameBlocks h h') (hm : Mapped h)
    (hend : h'.heapMappedEnd = h.heapMappedEnd) : Mapped h' :=
  ⟨by rw [hs.2.2, hend]; exact hm.current_le, hend ▸ hm.end_le, hend ▸ hm.paged⟩

/-- Whole pages end at a page by the limit. -/
theorem heapTarget_spec {h : HeapState P} {bytes : Nat} (hm : Mapped h) (hb : bytes % pageSize = 0) :
    heapTarget h bytes ≤ kernelHeapLimit ∧ heapTarget h bytes % pageSize = 0 ∧
      (h.heapMappedEnd + bytes < 2 ^ 64 →
        heapTarget h bytes = min (h.heapMappedEnd + bytes) kernelHeapLimit) := by
  obtain ⟨-, hend, hpaged⟩ := hm
  have htarget : heapTarget h bytes = if u64 (h.heapMappedEnd + bytes) > kernelHeapLimit then
      kernelHeapLimit else u64 (h.heapMappedEnd + bytes) := rfl
  have hv : u64 (h.heapMappedEnd + bytes) = (h.heapMappedEnd + bytes) % 2 ^ 64 := rfl
  generalize u64 (h.heapMappedEnd + bytes) = v at *
  rw [htarget]
  simp only [kernelHeapLimit, pageSize] at *
  split <;> omega

/-- `heap_map_more` only moves the mapped end; if it works, as far as it is to. -/
theorem heapMapMore_spec (pg : Pager P) {h : HeapState P} {bytes : Nat} (hm : Mapped h)
    (hb : bytes % pageSize = 0) :
    SameBlocks h (heapMapMore pg h bytes).2 ∧ Mapped (heapMapMore pg h bytes).2 ∧
    ((heapMapMore pg h bytes).1 = true →
      heapTarget h bytes ≤ (heapMapMore pg h bytes).2.heapMappedEnd) := by
  obtain ⟨ht, htp, -⟩ := heapTarget_spec hm hb
  obtain ⟨hcur, hend, hpaged⟩ := hm
  rw [heapMapMore]
  obtain ⟨hs, h1, h2, h3⟩ := heapMapPages_spec pg
    ((heapTarget h bytes - h.heapMappedEnd + (pageSize - 1)) / pageSize) h
  have hwhole := heapMapPages_paged pg
    ((heapTarget h bytes - h.heapMappedEnd + (pageSize - 1)) / pageSize) h
  generalize heapTarget h bytes = target at *
  simp only [kernelHeapLimit, pageSize] at *
  refine ⟨hs, ⟨?_, ?_, ?_⟩, fun hok => ?_⟩
  · rw [hs.2.2]
    exact hcur.trans h1
  · simp only [kernelHeapLimit]
    omega
  · simp only [pageSize]
    omega
  · have := h3 hok
    omega

/-! ### Sizes -/

theorem alignUp_spec {n a : Nat} (ha : 0 < a) (hn : n + a ≤ 2 ^ 64) :
    n ≤ alignUp n a ∧ alignUp n a < n + a ∧ alignUp n a % a = 0 := by
  rw [alignUp, u64_of_lt (by omega)]
  have hdm := Nat.div_add_mod (n + a - 1) a
  have hml := Nat.mod_lt (n + a - 1) ha
  rw [Nat.mul_comm] at hdm
  exact ⟨by omega, by omega, Nat.mul_mod_left ..⟩

/-- An extension is a number of whole pages. -/
theorem expandBytes_paged (size : Nat) :
    expandBytes size % pageSize = 0 ∧ heapMinExpand ≤ expandBytes size := by
  have haligned : alignUp (u64 (size + headerSize)) pageSize % pageSize = 0 := Nat.mul_mod_left ..
  rw [expandBytes]
  simp only [heapMinExpand, pageSize] at *
  split <;> omega

/-- The whole pages, but at least `HEAP_MIN_EXPAND`, that hold `n` bytes and a header. -/
def extension (n : Nat) : Nat :=
  max heapMinExpand ((n + headerSize + (pageSize - 1)) / pageSize * pageSize)

theorem extension_le (n : Nat) : n + headerSize ≤ extension n := by
  simp only [extension, headerSize, heapMinExpand, pageSize]
  omega

/-- What `kmalloc` extends the heap by, for a request that no computation wraps. -/
theorem expandBytes_alignUp {n : Nat} (hn : n + 2 ^ 13 ≤ 2 ^ 64) :
    expandBytes (alignUp n heapAlign) = extension n := by
  obtain ⟨h1, h2, h3⟩ := alignUp_spec (n := n) (a := heapAlign) (by decide) (by
    simp only [heapAlign]; omega)
  generalize alignUp n heapAlign = size at *
  simp only [heapAlign] at h2 h3
  rw [expandBytes, extension, u64_of_lt (by simp only [headerSize]; omega), alignUp,
    u64_of_lt (by simp only [headerSize, pageSize]; omega)]
  simp only [headerSize, pageSize, heapMinExpand]
  split <;> omega

/-! ### One call -/

/-- A request that has to extend the heap stays below `KERNEL_HEAP_LIMIT`. -/
def Room (h : HeapState P) (n : Nat) : Prop :=
  findBlock h.mem (alignUp n heapAlign) (listFuel h) h.heapHead = 0 →
    h.heapCurrent + expandBytes (alignUp n heapAlign) ≤ kernelHeapLimit

instance (h : HeapState P) (n : Nat) : Decidable (Room h n) :=
  inferInstanceAs (Decidable (_ → _))

/-- `b` is taken out of the free bytes of `bs`: `bs'` has it as its only new taken block. -/
structure Took (bs bs' : List Block) (b : Block) : Prop where
  taken : ∀ c, Taken bs' c ↔ Taken bs c ∨ c = b
  fresh : ∀ c, Taken bs c → c.addr ≠ b.addr

/-- No two neighbours are both free. -/
def Merged (bs : List Block) : Prop := bs.IsChain fun b c => b.free = false ∨ c.free = false

/-- A taken block with at most one free block behind it, between merged lists. -/
theorem Merged.cut {xs rest ys : List Block} {b : Block} (hx : Merged xs) (hy : Merged ys)
    (hhead : ∀ y ∈ ys.head?, y.free = false) (hb : b.free = false) (hrest : rest.length ≤ 1) :
    Merged (xs ++ b :: (rest ++ ys)) := by
  refine hx.append ?_ fun x _ c hc => ?_
  · match rest, hrest with
    | [], _ => exact List.isChain_cons.mpr ⟨fun _ _ => .inl hb, hy⟩
    | [r], _ =>
      exact List.isChain_cons.mpr ⟨fun _ _ => .inl hb,
        List.isChain_cons.mpr ⟨fun y hy => .inr (hhead y hy), hy⟩⟩
  · rw [List.head?_cons, Option.mem_some_iff] at hc
    exact .inr (hc ▸ hb)

/-- Cutting a request out of a block that is large enough, free or new. -/
theorem split_cut {m : Words} {head cur size : Nat} {xs ys : List Block} {b : Block}
    (h : BlockList m head cur (xs ++ { b with free := false } :: ys)) (hcur : cur ≤ kernelHeapLimit)
    (hfit : size ≤ b.size) (hal : size % heapAlign = 0) :
    ∃ b' rest, BlockList (splitBlock m b.addr size) head cur (xs ++ b' :: (rest ++ ys)) ∧
      b'.addr = b.addr ∧ b'.free = false ∧ size ≤ b'.size ∧ (∀ r ∈ rest, r.free = true) ∧
      rest.length ≤ 1 := by
  have hend := (h.bounds (b := { b with free := false }) (by simp)).2
  simp only [headerSize, kernelHeapLimit] at hend hcur
  by_cases hbig : size + 48 ≤ b.size
  · exact ⟨{ b with free := false, size := size }, [⟨b.addr + 32 + size, b.size - size - 32, true⟩],
      h.split hcur hbig hal, rfl, rfl, le_refl _, by simp, le_refl _⟩
  · have hsmall := h.split_small (by simpa using hbig) (by omega)
    simp only at hsmall
    exact ⟨{ b with free := false }, [], by rw [hsmall]; exact h, rfl, rfl, hfit, by simp, Nat.zero_le _⟩

/-- What the cut does to the taken blocks. -/
theorem taken_cut {xs rest ys : List Block} {b c : Block} (hb : b.free = false)
    (hrest : ∀ r ∈ rest, r.free = true) :
    Taken (xs ++ b :: (rest ++ ys)) c ↔ Taken (xs ++ ys) c ∨ c = b := by
  simp only [Taken, List.mem_append, List.mem_cons]
  constructor
  · rintro ⟨hc | rfl | hc | hc, hf⟩
    · exact .inl ⟨.inl hc, hf⟩
    · exact .inr rfl
    · rw [hrest c hc] at hf
      cases hf
    · exact .inl ⟨.inr hc, hf⟩
  · rintro (⟨hc | hc, hf⟩ | rfl)
    · exact ⟨.inl hc, hf⟩
    · exact ⟨.inr (.inr (.inr hc)), hf⟩
    · exact ⟨.inr (.inl rfl), hb⟩

section
variable {h : HeapState P} {bs : List Block} {n : Nat} {b : Block}

/-- The search of `kmalloc`. -/
theorem findBlock_holds (hb : Holds h bs) (size : Nat) :
    findBlock h.mem size (listFuel h) h.heapHead =
      ((bs.find? fun b => b.free && decide (size ≤ b.size)).map Block.addr).getD 0 := by
  rw [hb.head_eq]
  refine BlockList.findBlock_eq size hb.linked (fun b hbm => ⟨hb.addr_ne_zero hbm, hb.header b hbm⟩) ?_
  have := hb.length_le
  rw [listFuel]
  omega

/-- A request for which the search finds a block. -/
theorem kmalloc_found (pg : Pager P) (hb : Holds h bs) (hm : Mapped h) (hn : n ≠ 0)
    (hfind : bs.find? (fun b => b.free && decide (alignUp n heapAlign ≤ b.size)) = some b) :
    kmalloc pg h n = (b.payload, { h with
      mem := splitBlock (setFree h.mem b.addr false) b.addr (alignUp n heapAlign) }) := by
  have hmem := List.mem_of_find?_eq_some hfind
  have hend := (hb.bounds hmem).2
  have hlim := hm.current_le.trans hm.end_le
  simp only [headerSize, kernelHeapLimit] at hend hlim
  rw [kmalloc, if_neg hn]
  simp only [findBlock_holds hb, hfind, Option.map_some, Option.getD_some]
  rw [if_pos (hb.addr_ne_zero hmem), u64_of_lt (by simp only [headerSize]; omega), Block.payload]

/-- A request for which it finds none. -/
theorem kmalloc_extends (pg : Pager P) (hb : Holds h bs) (hm : Mapped h) (hn : n ≠ 0)
    (hfind : bs.find? (fun b => b.free && decide (alignUp n heapAlign ≤ b.size)) = none) :
    kmalloc pg h n =
      match heapMapMore pg h (expandBytes (alignUp n heapAlign)) with
      | (false, h') => (0, h')
      | (true, h') =>
        let h'' := appendBlock h' (expandBytes (alignUp n heapAlign))
        (h.heapCurrent + headerSize,
          { h'' with mem := splitBlock h''.mem h.heapCurrent (alignUp n heapAlign) }) := by
  have hlim := hm.current_le.trans hm.end_le
  simp only [kernelHeapLimit] at hlim
  rw [kmalloc, if_neg hn]
  simp only [findBlock_holds hb, hfind, Option.map_none, Option.getD_none]
  rw [if_neg (by simp)]
  have hs := (heapMapMore_spec pg hm (expandBytes_paged (alignUp n heapAlign)).1).1
  rcases hmm : heapMapMore pg h (expandBytes (alignUp n heapAlign)) with ⟨ok, h'⟩
  rw [hmm] at hs
  cases ok with
  | false => rfl
  | true =>
    have hcur : h'.heapCurrent = h.heapCurrent := hs.2.2
    simp only [hcur]
    rw [u64_of_lt (by simp only [headerSize]; omega)]

end

/-- A request of `n` bytes was granted: one block that is large enough, and starts where no taken block
    starts, was taken. -/
def Serves (bs : List Block) (n : Nat) (r : Nat × HeapState P) : Prop :=
  ∃ bs' b, Holds r.2 bs' ∧ r.1 = b.payload ∧ 0 < n ∧ n ≤ b.size ∧ Took bs bs' b ∧
    (Merged bs → Merged bs')

/-- A free block that is large enough is taken. -/
theorem kmalloc_takes (pg : Pager P) {h : HeapState P} {bs : List Block} {n : Nat} {b : Block}
    (hb : Holds h bs) (hm : Mapped h) (hpos : 0 < n) (hn : n ≤ kernelHeapLimit)
    (hfind : (bs.find? fun b => b.free && decide (alignUp n heapAlign ≤ b.size)) = some b) :
    Mapped (kmalloc pg h n).2 ∧ Serves bs n (kmalloc pg h n) := by
  have hlim := hm.current_le.trans hm.end_le
  simp only [kernelHeapLimit] at hn
  obtain ⟨hn1, hn2, hn3⟩ := alignUp_spec (n := n) (a := heapAlign) (by decide)
    (by simp only [heapAlign]; omega)
  rw [kmalloc_found pg hb hm (by omega) hfind]
  obtain ⟨hfit, xs, ys, rfl, -⟩ := List.find?_eq_some_iff_append.mp hfind
  rw [Bool.and_eq_true, decide_eq_true_eq] at hfit
  obtain ⟨b', rest, h1, h2, h3, h4, h5, h6⟩ := split_cut (hb.setFree false) hlim hfit.2 hn3
  have hold : ∀ c, Taken (xs ++ b :: ys) c ↔ Taken (xs ++ ys) c := by
    intro c
    simp only [Taken, List.mem_append, List.mem_cons]
    constructor
    · rintro ⟨hc | rfl | hc, hf⟩
      · exact ⟨.inl hc, hf⟩
      · rw [hfit.1] at hf
        cases hf
      · exact ⟨.inr hc, hf⟩
    · rintro ⟨hc | hc, hf⟩
      · exact ⟨.inl hc, hf⟩
      · exact ⟨.inr (.inr hc), hf⟩
  refine ⟨⟨hm.1, hm.2, hm.3⟩, _, b', h1, by simp only [Block.payload, h2], hpos, by omega,
    ⟨fun c => ?_, fun c hc => ?_⟩, fun hmerged => ?_⟩
  · rw [hold, taken_cut h3 h5]
  · rw [hold] at hc
    rw [h2]
    have hbef := hb.around.1
    have haft := hb.around.2
    rcases List.mem_append.mp hc.1 with hc | hc
    · have := hbef c hc
      simp only [headerSize] at this
      omega
    · have := haft c hc
      simp only [headerSize] at this
      omega
  · obtain ⟨hx, hbys, -⟩ := List.isChain_append.mp hmerged
    obtain ⟨hhead, hy⟩ := List.isChain_cons.mp hbys
    exact Merged.cut hx hy (fun y hy => (hhead y hy).resolve_left (by simp [hfit.1])) h3 h6

/-- Where there is none the heap is extended by one block, which is taken. -/
theorem kmalloc_appends (pg : Pager P) {h : HeapState P} {bs : List Block} {n : Nat}
    (hb : Holds h bs) (hm : Mapped h) (hpos : 0 < n) (hn : n ≤ kernelHeapLimit)
    (hfind : (bs.find? fun b => b.free && decide (alignUp n heapAlign ≤ b.size)) = none)
    (hroom : h.heapCurrent + extension n ≤ kernelHeapLimit) :
    Mapped (kmalloc pg h n).2 ∧
    (((kmalloc pg h n).1 = 0 ∧ SameBlocks h (kmalloc pg h n).2) ∨ Serves bs n (kmalloc pg h n)) := by
  simp only [kernelHeapLimit] at hn
  obtain ⟨hn1, hn2, hn3⟩ := alignUp_spec (n := n) (a := heapAlign) (by decide)
    (by simp only [heapAlign]; omega)
  rw [kmalloc_extends pg hb hm (by omega) hfind]
  obtain ⟨he1, he2⟩ := expandBytes_paged (alignUp n heapAlign)
  obtain ⟨hs, hm1, hm2⟩ := heapMapMore_spec pg hm he1
  have htarget := (heapTarget_spec hm he1).2.2
  rw [expandBytes_alignUp (by omega)] at *
  have hfits := extension_le n
  rcases hmm : heapMapMore pg h (extension n) with ⟨ok, h'⟩
  rw [hmm] at hs hm1 hm2
  cases ok with
  | false => exact ⟨hm1, .inl ⟨rfl, hs⟩⟩
  | true =>
    obtain ⟨hmem, hhead, hcur⟩ := hs
    have hmin := htarget (by
      have := hm.end_le
      simp only [kernelHeapLimit] at this hroom
      omega)
    have hend := hm2 rfl
    simp only [headerSize, kernelHeapLimit, pageSize, heapAlign, heapMinExpand] at *
    have hexp : headerSize ≤ extension n := by simp only [headerSize]; omega
    have happ := (SameBlocks.holds ⟨hmem, hhead, hcur⟩ hb).append hexp
      (by simp only [heapAlign]; omega) (by simp only [kernelHeapLimit]; omega)
    have hc' : (appendBlock h' (extension n)).heapCurrent = h.heapCurrent + extension n ∧
        (appendBlock h' (extension n)).heapMappedEnd = h'.heapMappedEnd := by
      rw [appendBlock, hcur, u64_of_lt (by omega)]
      split <;> exact ⟨rfl, rfl⟩
    obtain ⟨b', rest, h1, h2, h3, h4, h5, h6⟩ := split_cut (b := ⟨h'.heapCurrent,
      extension n - headerSize, false⟩) happ (by rw [hc'.1]; exact hroom)
      (by simp only [headerSize]; omega) hn3
    simp only [hcur] at h1 h2
    rw [List.append_nil] at h1
    refine ⟨⟨?_, ?_, ?_⟩, .inr ⟨_, b', h1, ?_, hpos, by omega, ⟨fun c => ?_, fun c hc => ?_⟩,
      fun hmerged => ?_⟩⟩
    · simp only [hc'.1, hc'.2]
      rw [hmin] at hend
      exact (le_min (Nat.add_le_add_right hm.current_le _) hroom).trans hend
    · have hle := hm1.end_le
      simp only [kernelHeapLimit, hc'.2] at hle ⊢
      exact hle
    · have hpaged := hm1.paged
      simp only [pageSize, hc'.2] at hpaged ⊢
      exact hpaged
    · simp only [Block.payload, h2]
    · have := @taken_cut bs rest [] b' c h3 h5
      rwa [List.append_nil, List.append_nil] at this
    · have := (hb.bounds hc.1).2
      simp only [headerSize] at this
      omega
    · have := @Merged.cut bs rest [] b' hmerged List.isChain_nil (by simp) h3 h6
      rwa [List.append_nil] at this

/-- `kmalloc` either fails and leaves memory and list alone, or takes one block that is large
    enough and starts where no taken block starts. -/
theorem kmalloc_spec (pg : Pager P) {h : HeapState P} {bs : List Block} {n : Nat} (hb : Holds h bs)
    (hm : Mapped h) (hroom : (∃ b ∈ bs, b.free = true ∧ n ≤ b.size) ∨
      h.heapCurrent + extension n ≤ kernelHeapLimit) :
    Mapped (kmalloc pg h n).2 ∧
    (((kmalloc pg h n).1 = 0 ∧ SameBlocks h (kmalloc pg h n).2) ∨
      ∃ bs' b, Holds (kmalloc pg h n).2 bs' ∧ (kmalloc pg h n).1 = b.payload ∧
        0 < n ∧ n ≤ b.size ∧ Took bs bs' b ∧ (Merged bs → Merged bs')) := by
  rcases Nat.eq_zero_or_pos n with rfl | hpos
  · rw [kmalloc, if_pos rfl]
    exact ⟨hm, .inl ⟨rfl, rfl, rfl, rfl⟩⟩
  have hlim := hm.current_le.trans hm.end_le
  have hsmall : n ≤ kernelHeapLimit := by
    rcases hroom with ⟨b, hbm, -, hfit⟩ | hroom
    · have := (hb.bounds hbm).2
      omega
    · have := extension_le n
      omega
  cases hfind : bs.find? fun b => b.free && decide (alignUp n heapAlign ≤ b.size) with
  | some b =>
    obtain ⟨hmapped, hgranted⟩ := kmalloc_takes pg hb hm hpos hsmall hfind
    exact ⟨hmapped, .inr hgranted⟩
  | none =>
    refine kmalloc_appends pg hb hm hpos hsmall hfind (hroom.resolve_left ?_)
    rintro ⟨b, hbm, hbf, hfit⟩
    have hno := List.find?_eq_none.mp hfind b hbm
    have hal := (hb.aligned b hbm).2
    simp only [kernelHeapLimit] at hsmall
    obtain ⟨-, hn2, hn3⟩ := alignUp_spec (n := n) (a := heapAlign) (by decide)
      (by simp only [heapAlign]; omega)
    simp only [hbf, Bool.true_and, decide_eq_true_eq, heapAlign] at hno hal hn2 hn3
    omega

/-- A request that stays below the limit, if it has to extend the heap. -/
theorem Room.spec {h : HeapState P} {bs : List Block} {n : Nat} (hb : Holds h bs) (hn : n ≤ 2 ^ 32)
    (hroom : Room h n) :
    (∃ b ∈ bs, b.free = true ∧ n ≤ b.size) ∨ h.heapCurrent + extension n ≤ kernelHeapLimit := by
  rw [Room, findBlock_holds hb, expandBytes_alignUp (by omega)] at hroom
  cases hfind : bs.find? fun b => b.free && decide (alignUp n heapAlign ≤ b.size) with
  | some b =>
    have hfit := List.find?_some hfind
    rw [Bool.and_eq_true, decide_eq_true_eq] at hfit
    have hn1 := (alignUp_spec (n := n) (a := heapAlign) (by decide) (by simp only [heapAlign]; omega)).1
    exact .inl ⟨b, List.mem_of_find?_eq_some hfind, hfit.1, hn1.trans hfit.2⟩
  | none =>
    rw [hfind] at hroom
    exact .inr (hroom rfl)

/-- A request that some free block has room for is granted. -/
theorem kmalloc_grants (pg : Pager P) {h : HeapState P} {bs : List Block} {n : Nat} {c : Block}
    (hb : Holds h bs) (hm : Mapped h) (hc : c ∈ bs) (hf : c.free = true) (hpos : 0 < n)
    (hfit : n ≤ c.size) : (kmalloc pg h n).1 ≠ 0 := by
  have hend := (hb.bounds hc).2
  have hlim := hm.current_le.trans hm.end_le
  simp only [kernelHeapLimit] at hlim
  obtain ⟨-, hn2, hn3⟩ := alignUp_spec (n := n) (a := heapAlign) (by decide)
    (by simp only [heapAlign]; omega)
  have hsize : alignUp n heapAlign ≤ c.size := by
    have := (hb.aligned c hc).2
    simp only [heapAlign] at *
    omega
  cases hfind : bs.find? fun b => b.free && decide (alignUp n heapAlign ≤ b.size) with
  | none =>
    have := List.find?_eq_none.mp hfind c hc
    simp [hf, hsize] at this
  | some b =>
    rw [kmalloc_found pg hb hm (by omega) hfind]
    simp [Block.payload]

/-- `kfree` of a taken block removes exactly that block from the taken ones, and leaves a free one
    that is no smaller. -/
theorem kfree_spec {h : HeapState P} {bs : List Block} {b : Block} (hb : Holds h bs) (hm : Mapped h)
    (ht : Taken bs b) : ∃ bs', Holds (kfree h b.payload) bs' ∧
      (∀ c, Taken bs' c ↔ Taken bs c ∧ c ≠ b) ∧ (∃ c ∈ bs', c.free = true ∧ b.size ≤ c.size) ∧
      (Merged bs → Merged bs') := by
  obtain ⟨hmem, hfree⟩ := ht
  have hlim := hm.current_le.trans hm.end_le
  have hend := (hb.bounds hmem).2
  obtain ⟨xs, ys, rfl⟩ := List.append_of_mem hmem
  have hbef := hb.around.1
  have haft := hb.around.2
  simp only [headerSize] at hbef haft
  have hstate : kfree h b.payload =
      { h with mem := coalesce (setFree h.mem b.addr true) b.addr } := by
    have hblock : u64Sub b.payload headerSize = b.addr := by
      simp only [kernelHeapLimit, headerSize] at hlim hend
      rw [Block.payload, u64Sub_of_le (by simp only [headerSize]; omega)
        (by simp only [headerSize]; omega), Nat.add_sub_cancel]
    rw [kfree, if_neg (by simp [Block.payload]), hblock]
  obtain ⟨b1, ys1, h1, ha1, hf1, hcase1⟩ := (hb.setFree true).coalesceNext hlim
  simp only at ha1 hf1
  rw [← ha1] at h1
  obtain ⟨xs2, b2, h2, hcase2⟩ := h1.coalescePrev hlim
  rw [ha1] at h2
  -- what was merged away was free, and so is what it was merged into
  have hb2 : b2.free = true := by
    rcases hcase2 with ⟨-, rfl, -⟩ | ⟨a, -, -, -, hf, -⟩
    · exact hf1
    · exact hf
  have hsize1 : b.size ≤ b1.size := by
    rcases hcase1 with ⟨rfl, -, -⟩ | ⟨d, -, -, hs⟩
    · exact le_refl _
    · exact hs ▸ Nat.le_add_right ..
  have hsize2 : b1.size ≤ b2.size := by
    rcases hcase2 with ⟨-, rfl, -⟩ | ⟨a, -, -, -, -, hs⟩
    · exact le_refl _
    · omega
  -- and what is left beside it is not
  have hmerged : Merged (xs ++ b :: ys) → Merged (xs2 ++ b2 :: ys1) := by
    intro hmer
    obtain ⟨hx, hbys, -⟩ := List.isChain_append.mp hmer
    have hy := (List.isChain_cons.mp hbys).2
    have hright : Merged ys1 ∧ ∀ y ∈ ys1.head?, y.free = false := by
      rcases hcase1 with ⟨-, rfl, hh⟩ | ⟨d, hd, rfl, -⟩
      · exact ⟨hy, hh⟩
      · obtain ⟨hh, hy⟩ := List.isChain_cons.mp hy
        exact ⟨hy, fun y hm => (hh y hm).resolve_left (by simp [hd])⟩
    have hleft : Merged xs2 ∧ ∀ x ∈ xs2.getLast?, x.free = false := by
      rcases hcase2 with ⟨rfl, -, hl⟩ | ⟨a, ha, rfl, -⟩
      · exact ⟨hx, hl⟩
      · obtain ⟨hx, -, hl⟩ := List.isChain_append.mp hx
        exact ⟨hx, fun x hm => (hl x hm a rfl).resolve_right (by simp [ha])⟩
    refine hleft.1.append (List.isChain_cons.mpr ⟨fun y hm => .inr (hright.2 y hm), hright.1⟩) ?_
    exact fun x hm c _ => .inl (hleft.2 x hm)
  refine ⟨xs2 ++ b2 :: ys1, by rw [hstate]; exact h2, fun c => ?_,
    ⟨b2, by simp, hb2, hsize1.trans hsize2⟩, hmerged⟩
  have hys : ∀ c, c.free = false → (c ∈ ys1 ↔ c ∈ ys) := by
    intro c hc
    rcases hcase1 with ⟨-, rfl, -⟩ | ⟨d, hd, rfl, -⟩
    · exact Iff.rfl
    · rw [List.mem_cons]
      exact ⟨Or.inr, fun h => h.resolve_left (by rintro rfl; rw [hd] at hc; simp at hc)⟩
  have hxs : ∀ c, c.free = false → (c ∈ xs2 ↔ c ∈ xs) := by
    intro c hc
    rcases hcase2 with ⟨rfl, -, -⟩ | ⟨a, ha, rfl, -⟩
    · exact Iff.rfl
    · rw [List.mem_append, List.mem_singleton]
      exact ⟨Or.inl, fun h => h.resolve_right (by rintro rfl; rw [ha] at hc; simp at hc)⟩
  simp only [Taken, List.mem_append, List.mem_cons]
  constructor
  · rintro ⟨hc | rfl | hc, hf⟩
    · have hx := (hxs c hf).mp hc
      exact ⟨⟨Or.inl hx, hf⟩, by rintro rfl; have := hbef c hx; omega⟩
    · rw [hb2] at hf; simp at hf
    · have hy := (hys c hf).mp hc
      exact ⟨⟨Or.inr (Or.inr hy), hf⟩, by rintro rfl; have := haft c hy; omega⟩
  · rintro ⟨⟨hc | rfl | hc, hf⟩, hne⟩
    · exact ⟨Or.inl ((hxs c hf).mpr hc), hf⟩
    · exact absurd rfl hne
    · exact ⟨Or.inr (Or.inr ((hys c hf).mpr hc)), hf⟩

/-- A successful `heap_init` leaves one free block, which covers the window so far; a failed one leaves
    no block. -/
theorem heapInit_spec (pg : Pager P) (m : Words) (p : P) :
    Mapped (heapInit pg m p) ∧
      (((heapInit pg m p).heapHead = 0 ∧ Holds (heapInit pg m p) []) ∨
        Holds (heapInit pg m p) [⟨kernelHeapStart, heapMinExpand - headerSize, true⟩]) := by
  have hmapped : Mapped (⟨m, 0, kernelHeapStart, kernelHeapStart, p⟩ : HeapState P) :=
    ⟨le_refl _, (by decide : kernelHeapStart ≤ kernelHeapLimit),
      (by decide : kernelHeapStart % pageSize = 0)⟩
  have hpages : heapMinExpand % pageSize = 0 := by decide
  obtain ⟨hs, hm1, hm2⟩ := heapMapMore_spec pg hmapped hpages
  have htarget := (heapTarget_spec hmapped hpages).2.2 (by decide : kernelHeapStart + heapMinExpand < 2 ^ 64)
  rw [heapInit]
  rcases hmm : heapMapMore pg ⟨m, 0, kernelHeapStart, kernelHeapStart, p⟩ heapMinExpand with ⟨ok, h⟩
  rw [hmm] at hs hm1 hm2
  obtain ⟨hmem, hhead, hcur⟩ := hs
  cases ok with
  | false => exact ⟨hm1, .inl ⟨hhead, hhead, trivial, nofun, hcur.symm, nofun⟩⟩
  | true =>
    have hend := hm2 rfl
    rw [htarget] at hend
    simp only at hcur hend
    simp only [hcur]
    refine ⟨⟨?_, hm1.end_le, hm1.paged⟩, .inr ⟨rfl, ?_, ?_, ?_, ?_⟩⟩
    · refine le_trans ?_ hend
      simp only [kernelHeapStart, heapMinExpand, kernelHeapLimit]
      omega
    · simp [Linked, blockNext, blockPrev, setNext, setPrev]
    · simp [blockSize, blockFree, setSize, setFree, setNext, setPrev]
    · simp only [List.map_cons, List.map_nil, Block.extent, tiles_cons, tiles_nil]
      exact ⟨trivial, rfl⟩
    · simp only [List.mem_singleton, forall_eq]
      decide

/-! ### Runs -/

/-- A run of the heap: `live` lists the pointers handed out and not freed since, with the sizes
    they were asked for. Between calls an owner stores any word among the bytes it asked for. -/
inductive Reaches (pg : Pager P) : HeapState P → List (Nat × Nat) → Prop
  | init (m : Words) (p : P) (hok : (heapInit pg m p).heapHead ≠ 0) :
    Reaches pg (heapInit pg m p) []
  | kmalloc {h : HeapState P} {live : List (Nat × Nat)} (n : Nat) (hr : Reaches pg h live)
    (hn : n ≤ 2 ^ 32) (hroom : Room h n) :
    Reaches pg (kmalloc pg h n).2
      (if (kmalloc pg h n).1 = 0 then live else ((kmalloc pg h n).1, n) :: live)
  | kfreeNull {h : HeapState P} {live : List (Nat × Nat)} (hr : Reaches pg h live) :
    Reaches pg (kfree h 0) live
  | kfree {h : HeapState P} {live : List (Nat × Nat)} {q : Nat × Nat} (hr : Reaches pg h live)
    (hq : q ∈ live) : Reaches pg (kfree h q.1) (live.erase q)
  | store {h : HeapState P} {live : List (Nat × Nat)} {q : Nat × Nat} (a v : Nat)
    (hr : Reaches pg h live) (hq : q ∈ live) (ha : a % 8 = 0) (hlo : q.1 ≤ a)
    (hhi : a < q.1 + q.2) : Reaches pg { h with mem := Function.update h.mem a v } live

/-- The taken blocks of `bs` are the live allocations, one for one, and large enough. -/
structure Exactly (bs : List Block) (live : List (Nat × Nat)) : Prop where
  nodup : (live.map Prod.fst).Nodup
  owned : ∀ b, Taken bs b → ∃ n, (b.payload, n) ∈ live
  taken : ∀ q ∈ live, ∃ b, Taken bs b ∧ b.payload = q.1 ∧ q.2 ≤ b.size

/-- What holds after every call of a run. -/
structure HeapInv (h : HeapState P) (live : List (Nat × Nat)) (bs : List Block) : Prop where
  holds : Holds h bs
  mapped : Mapped h
  exactly : Exactly bs live
  merged : Merged bs

theorem Exactly.took {bs bs' : List Block} {live : List (Nat × Nat)} {b : Block} {n : Nat}
    (he : Exactly bs live) (ht : Took bs bs' b) (hn : n ≤ b.size) :
    Exactly bs' ((b.payload, n) :: live) := by
  refine ⟨?_, fun c hc => ?_, fun q hq => ?_⟩
  · rw [List.map_cons, List.nodup_cons]
    refine ⟨fun hmem => ?_, he.nodup⟩
    obtain ⟨q, hq, hqb⟩ := List.mem_map.mp hmem
    obtain ⟨c, hc, hcq, -⟩ := he.taken q hq
    have hpay : c.payload = b.payload := hcq.trans hqb
    simp only [Block.payload] at hpay
    exact ht.fresh c hc (by omega)
  · rcases (ht.taken c).mp hc with hc | rfl
    · obtain ⟨n', hn'⟩ := he.owned c hc
      exact ⟨n', List.mem_cons_of_mem _ hn'⟩
    · exact ⟨n, List.mem_cons_self ..⟩
  · rcases List.mem_cons.mp hq with rfl | hq
    · exact ⟨b, (ht.taken b).mpr (Or.inr rfl), rfl, hn⟩
    · obtain ⟨c, hc, h1, h2⟩ := he.taken q hq
      exact ⟨c, (ht.taken c).mpr (Or.inl hc), h1, h2⟩

theorem Exactly.gave {bs bs' : List Block} {live : List (Nat × Nat)} {b : Block} {q : Nat × Nat}
    (he : Exactly bs live) (hq : q ∈ live) (hb : b.payload = q.1)
    (hinj : ∀ c, Taken bs c → c.payload = b.payload → c = b)
    (ht : ∀ c, Taken bs' c ↔ Taken bs c ∧ c ≠ b) : Exactly bs' (live.erase q) := by
  have hnd : live.Nodup := he.nodup.of_map _
  refine ⟨he.nodup.sublist ((List.erase_sublist ..).map _), fun c hc => ?_, fun r hr => ?_⟩
  · obtain ⟨hc, hne⟩ := (ht c).mp hc
    obtain ⟨n, hn⟩ := he.owned c hc
    refine ⟨n, (List.mem_erase_of_ne ?_).mpr hn⟩
    rintro rfl
    exact hne (hinj c hc hb.symm)
  · obtain ⟨hne, hr⟩ := hnd.mem_erase_iff.mp hr
    obtain ⟨c, hc, h1, h2⟩ := he.taken r hr
    refine ⟨c, (ht c).mpr ⟨hc, ?_⟩, h1, h2⟩
    rintro rfl
    exact hne (List.inj_on_of_nodup_map he.nodup hr hq (h1.symm.trans hb))

/-- Taken blocks are told apart by what `kmalloc` handed out for them. -/
theorem payload_inj {h : HeapState P} {bs : List Block} {b c : Block} (hb : Holds h bs)
    (h1 : b ∈ bs) (h2 : c ∈ bs) (heq : c.payload = b.payload) : c = b :=
  List.inj_on_of_nodup_map hb.addr_nodup h2 h1 (by simpa [Block.payload] using heq)

/-- A store inside a taken block is not a store into a header. -/
theorem Holds.store {h : HeapState P} {bs : List Block} {b : Block} {a v : Nat}
    (hb : Holds h bs) (ht : Taken bs b) (ha : a % 8 = 0) (hlo : b.payload ≤ a)
    (hhi : a < b.payload + b.size) : Holds { h with mem := Function.update h.mem a v } bs := by
  refine BlockList.frame hb fun c hc => ?_
  have hout : a < c.addr ∨ c.addr + headerSize ≤ a := by
    obtain ⟨xs, ys, rfl⟩ := List.append_of_mem ht.1
    have hbef := hb.around.1
    have haft := hb.around.2
    simp only [Block.payload, headerSize] at *
    rcases List.mem_append.mp hc with hc | hc
    · have := hbef c hc; omega
    rcases List.mem_cons.mp hc with rfl | hc
    · omega
    · have := haft c hc; omega
  have hne : ∀ i < headerSize, c.addr + i ≠ a := fun i hi => by omega
  refine ⟨?_, ?_, ?_, ?_⟩
  · exact Function.update_of_ne (hne 0 (by decide)) ..
  · simp only [blockFree, Function.update_of_ne (hne 8 (by decide))]
  · exact Function.update_of_ne (hne 16 (by decide)) ..
  · exact Function.update_of_ne (hne 24 (by decide)) ..

/-! ### One step of a run -/

section
variable {h : HeapState P} {live : List (Nat × Nat)} {bs : List Block}

theorem HeapInv.init (pg : Pager P) (m : Words) (p : P) : ∃ bs, HeapInv (heapInit pg m p) [] bs ∧
    ((heapInit pg m p).heapHead ≠ 0 → bs ≠ []) := by
  obtain ⟨hm, ⟨hz, hb⟩ | hb⟩ := heapInit_spec pg m p
  · exact ⟨[], ⟨hb, hm, ⟨List.nodup_nil, fun b hb => absurd hb.1 List.not_mem_nil, nofun⟩,
      List.isChain_nil⟩, fun hne => absurd hz hne⟩
  · refine ⟨_, ⟨hb, hm, ⟨List.nodup_nil, ?_, nofun⟩, List.isChain_singleton _⟩, fun _ => by simp⟩
    rintro b ⟨hmem, hf⟩
    rw [List.mem_singleton.mp hmem] at hf
    cases hf

theorem HeapInv.kmalloc (pg : Pager P) (hi : HeapInv h live bs) {n : Nat}
    (hroom : (∃ b ∈ bs, b.free = true ∧ n ≤ b.size) ∨
      h.heapCurrent + extension n ≤ kernelHeapLimit) :
    ∃ bs', HeapInv (kmalloc pg h n).2
      (if (kmalloc pg h n).1 = 0 then live else ((kmalloc pg h n).1, n) :: live) bs' ∧
      (bs ≠ [] → bs' ≠ []) := by
  obtain ⟨hm', ⟨hz, hs⟩ | ⟨bs', b, hb', hp, -, hsize, ht, hmer⟩⟩ :=
    kmalloc_spec pg hi.holds hi.mapped hroom
  · rw [if_pos hz]
    exact ⟨bs, ⟨hs.holds hi.holds, hm', hi.exactly, hi.merged⟩, id⟩
  · rw [hp, if_neg (by simp [Block.payload])]
    refine ⟨bs', ⟨hb', hm', hi.exactly.took ht hsize, hmer hi.merged⟩, fun _ => ?_⟩
    exact List.ne_nil_of_mem ((ht.taken b).mpr (.inr rfl)).1

theorem HeapInv.kfree (hi : HeapInv h live bs) {q : Nat × Nat} (hq : q ∈ live) :
    ∃ bs', HeapInv (kfree h q.1) (live.erase q) bs' ∧ bs' ≠ [] := by
  obtain ⟨b, ht, hp, -⟩ := hi.exactly.taken _ hq
  obtain ⟨bs', hb', ht', ⟨c, hc, -⟩, hmer⟩ := kfree_spec hi.holds hi.mapped ht
  rw [← hp]
  refine ⟨bs', ⟨hb', ?_, ?_, hmer hi.merged⟩, List.ne_nil_of_mem hc⟩
  · rw [Heap.kfree, if_neg (by simp [Block.payload])]
    exact ⟨hi.mapped.1, hi.mapped.2, hi.mapped.3⟩
  · exact hi.exactly.gave hq hp (fun c hc => payload_inj hi.holds ht.1 hc.1) ht'

theorem HeapInv.store (hi : HeapInv h live bs) {q : Nat × Nat} {a v : Nat} (hq : q ∈ live)
    (ha : a % 8 = 0) (hlo : q.1 ≤ a) (hhi : a < q.1 + q.2) :
    HeapInv { h with mem := Function.update h.mem a v } live bs := by
  obtain ⟨b, ht, hp, hsize⟩ := hi.exactly.taken _ hq
  exact ⟨hi.holds.store ht ha (by omega) (by omega), ⟨hi.mapped.1, hi.mapped.2, hi.mapped.3⟩,
    hi.exactly, hi.merged⟩

end

/-- Every run keeps the list, and its taken blocks are the live allocations. -/
theorem Reaches.inv {h : HeapState P} {live : List (Nat × Nat)} (hr : Reaches pg h live) :
    ∃ bs, HeapInv h live bs := by
  induction hr with
  | init m p hok =>
    obtain ⟨bs, hi, -⟩ := HeapInv.init pg m p
    exact ⟨bs, hi⟩
  | kmalloc n _ hn hroom ih =>
    obtain ⟨bs, hi⟩ := ih
    obtain ⟨bs', hi', -⟩ := hi.kmalloc pg (hroom.spec hi.holds hn)
    exact ⟨bs', hi'⟩
  | kfreeNull _ ih => exact ih
  | kfree _ hq ih =>
    obtain ⟨bs, hi⟩ := ih
    obtain ⟨bs', hi', -⟩ := hi.kfree hq
    exact ⟨bs', hi'⟩
  | store a v _ hq ha hlo hhi ih =>
    obtain ⟨bs, hi⟩ := ih
    exact ⟨bs, hi.store hq ha hlo hhi⟩

/-- After a `kfree` a request that is no larger is granted, with an address that is not live. -/
theorem kmalloc_after_kfree {h : HeapState P} {live : List (Nat × Nat)} (hr : Reaches pg h live)
    {q : Nat × Nat} (hq : q ∈ live) {n : Nat} (hpos : 0 < n) (hfit : n ≤ q.2) :
    (kmalloc pg (kfree h q.1) n).1 ≠ 0 ∧
      ∀ r ∈ live.erase q, r.1 ≠ (kmalloc pg (kfree h q.1) n).1 := by
  obtain ⟨bs, hb, hm, he, -⟩ := hr.inv
  obtain ⟨b, ht, hp, hsize⟩ := he.taken q hq
  obtain ⟨bs', hb', ht', ⟨c, hc, hcf, hcs⟩, -⟩ := kfree_spec hb hm ht
  rw [hp] at hb'
  have he' : Exactly bs' (live.erase q) :=
    he.gave hq hp (fun c hc => payload_inj hb ht.1 hc.1) ht'
  have hm' : Mapped (kfree h q.1) := by
    rw [← hp, Heap.kfree, if_neg (by simp [Block.payload])]
    exact ⟨hm.1, hm.2, hm.3⟩
  have hgrant := kmalloc_grants pg hb' hm' hc hcf hpos (by omega)
  refine ⟨hgrant, fun r hr heq => ?_⟩
  obtain ⟨-, ⟨hz, -⟩ | ⟨bs'', d, -, hd, -, -, htook, -⟩⟩ :=
    kmalloc_spec pg (n := n) hb' hm' (.inl ⟨c, hc, hcf, by omega⟩)
  · exact hgrant hz
  · obtain ⟨e, het, hep, -⟩ := he'.taken r hr
    have := htook.fresh e het
    rw [hd, ← hep] at heq
    simp only [Block.payload] at heq
    omega

/-- In every state a run reaches, the headers form one doubly linked list that tiles
    `[KERNEL_HEAP_START, heap_current)` in address order, in mapped memory; its blocks that are not
    free are the live allocations, one for one; the live allocations are disjoint, aligned and as
    large as asked for; and a `kmalloc` that returns `NULL` changes no word and no bound of it. -/
theorem heap_representation {h : HeapState P} {live : List (Nat × Nat)} (hr : Reaches pg h live) :
    (∃ bs, BlockList h.mem h.heapHead h.heapCurrent bs ∧ h.heapCurrent ≤ h.heapMappedEnd ∧
      (∀ b ∈ bs, b.free = false → ∃! q, q ∈ live ∧ q.1 = b.payload) ∧
      (∀ q ∈ live, ∃! b, b ∈ bs ∧ b.free = false ∧ b.payload = q.1) ∧
      ∀ q ∈ live, ∀ b ∈ bs, b.payload = q.1 → q.2 ≤ b.size) ∧
    (live.Pairwise fun q r => q.1 + q.2 ≤ r.1 ∨ r.1 + r.2 ≤ q.1) ∧
    (∀ q ∈ live, q.1 % 16 = 0) ∧
    ∀ n ≤ 2 ^ 32, Room h n → (kmalloc pg h n).1 = 0 →
      (kmalloc pg h n).2.mem = h.mem ∧ (kmalloc pg h n).2.heapHead = h.heapHead ∧
        (kmalloc pg h n).2.heapCurrent = h.heapCurrent := by
  obtain ⟨bs, hb, hm, he, -⟩ := hr.inv
  refine ⟨⟨bs, hb, hm.current_le, ?_, ?_, ?_⟩, ?_, ?_, ?_⟩
  · intro b hmem hf
    obtain ⟨n, hn⟩ := he.owned b ⟨hmem, hf⟩
    exact ⟨(b.payload, n), ⟨hn, rfl⟩, fun q hq => List.inj_on_of_nodup_map he.nodup hq.1 hn hq.2⟩
  · intro q hq
    obtain ⟨b, ht, hp, -⟩ := he.taken q hq
    exact ⟨b, ⟨ht.1, ht.2, hp⟩, fun c hc => payload_inj hb ht.1 hc.1 (hc.2.2.trans hp.symm)⟩
  · intro q hq b hmem hp
    obtain ⟨c, ht, hpc, hsize⟩ := he.taken q hq
    rw [← payload_inj hb hmem ht.1 (hpc.trans hp.symm)]
    exact hsize
  · refine (List.pairwise_map.mp he.nodup).imp_of_mem fun {q r} hq hr hne => ?_
    obtain ⟨b, hbt, hbp, hbs⟩ := he.taken q hq
    obtain ⟨c, hct, hcp, hcs⟩ := he.taken r hr
    have hsep : b.addr + headerSize + b.size ≤ c.addr ∨ c.addr + headerSize + c.size ≤ b.addr := by
      have hbc : b ≠ c := by rintro rfl; exact hne (hbp.symm.trans hcp)
      exact hb.apart_extent hbt.1 hct.1 hbc
    simp only [Block.payload, headerSize] at *
    omega
  · intro q hq
    obtain ⟨b, ht, hp, -⟩ := he.taken q hq
    have := (hb.aligned b ht.1).1
    simp only [Block.payload, headerSize, heapAlign] at *
    omega
  · intro n hn hroom hz
    obtain ⟨-, ⟨-, hs⟩ | ⟨bs', b, -, hp, -⟩⟩ := kmalloc_spec pg hb hm (hroom.spec hb hn)
    · exact hs
    · rw [hz] at hp; simp [Block.payload] at hp

/-- A pager with a given number of free frames left, for runs on fixed inputs. -/
def countingPager : Pager Nat where
  pagingAllocPage p := if p = 0 then (none, 0) else (some (p * pageSize), p - 1)
  pagingMapPage p _ _ _ := (true, p)
  pagingFreePage p _ := p + 1

theorem heap_representation_counting :
    ∃ bs, BlockList (kmalloc countingPager (heapInit countingPager (fun _ => 0) 20) 100).2.mem
      kernelHeapStart (kernelHeapStart + heapMinExpand) bs ∧
      ∃! b, b ∈ bs ∧ b.free = false ∧ b.payload = kernelHeapStart + headerSize := by
  have hp : (kmalloc countingPager (heapInit countingPager (fun _ => 0) 20) 100).1 =
      kernelHeapStart + headerSize := by decide
  have hr := Reaches.kmalloc 100
    (Reaches.init (fun _ => 0) 20 (by decide) : Reaches countingPager _ _) (by decide) (by decide)
  rw [hp, if_neg (by decide)] at hr
  obtain ⟨⟨bs, hb, -, -, howned, -⟩, -⟩ := heap_representation hr
  exact ⟨bs, hb, howned _ (List.mem_singleton_self _)⟩

end TypeOS.Heap
