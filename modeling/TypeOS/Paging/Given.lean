import TypeOS.Paging.Boot

/-! The frames the memory map gives.

    The loop over an available region starts at its base address, aligned or not, and goes up by
    whole pages while it is below the end of the region, a wrapping sum cut at 2 GiB; it clears the
    bit of each frame it steps on. If no entry makes a step, all frames are taken to be free. What
    the reservations leave of these is spare. -/

namespace TypeOS.Paging

variable {im : Image} {mem : Memory} {mb : MultibootInfo} {s : Vm} {e : MmapEntry} {f n : Nat}

/-- The end of a region as the loop uses it. -/
def MmapEntry.regionEnd (e : MmapEntry) : Nat := min (u64 (e.baseAddr + e.length)) maxPhysMem

/-- The loop over the entry's region steps on the frame. -/
def Stepped (e : MmapEntry) (f : Nat) : Prop :=
  e.type = 1 ∧ e.baseAddr / pageSize ≤ f ∧
    e.baseAddr + (f - e.baseAddr / pageSize) * pageSize < e.regionEnd

instance (e : MmapEntry) (f : Nat) : Decidable (Stepped e f) := by
  unfold Stepped; infer_instance

/-- The loop over the entry's region makes a step. -/
def Steps (e : MmapEntry) : Prop := e.type = 1 ∧ e.baseAddr < e.regionEnd

instance (e : MmapEntry) : Decidable (Steps e) := by
  unfold Steps; infer_instance

/-- The frames free once the memory map is read. -/
def Given (entries : List MmapEntry) (f : Nat) : Prop :=
  (∃ e ∈ entries, Stepped e f) ∨ (∀ e ∈ entries, ¬ Steps e) ∧ f < maxFrames

instance (entries : List MmapEntry) (f : Nat) : Decidable (Given entries f) := by
  unfold Given; infer_instance

/-- The frames free when `paging_init` starts to map. -/
def Spare (im : Image) (mb : MultibootInfo) (f : Nat) : Prop :=
  Given (mb.mmap.getD []) f ∧ ¬ reserves 0 (min maxPhysMem im.kernelEnd) f ∧
    ¬ reserves im.stackBottom im.stackTop f ∧ ¬ reserves userImagePhysStart userImagePhysEnd f ∧
    ¬ ∃ m ∈ mb.modules, reserves m.1 m.2 f

instance (im : Image) (mb : MultibootInfo) (f : Nat) : Decidable (Spare im mb f) := by
  unfold Spare; infer_instance

theorem Steps.stepped (h : Steps e) : Stepped e (e.baseAddr / pageSize) :=
  ⟨h.1, le_refl _, by rw [Nat.sub_self, Nat.zero_mul]; exact h.2⟩

theorem Stepped.lt (h : Stepped e f) : f < maxFrames := by
  obtain ⟨-, hle, hlt⟩ := h
  simp only [MmapEntry.regionEnd, pageSize, maxFrames, maxPhysMem] at *
  omega

theorem Given.lt {entries : List MmapEntry} (h : Given entries f) : f < maxFrames := by
  rcases h with ⟨e, -, h⟩ | ⟨-, h⟩
  · exact h.lt
  · exact h

/-! ### The loops -/

/-- The frames the loop over a region visits lose their bit. -/
theorem freeRegion_bits : ∀ (n addr : Nat) (s : Vm) (f : Nat),
    bitmapTest (freeRegion n addr s) f =
      (bitmapTest s f && !decide (addr / pageSize ≤ f ∧ f < addr / pageSize + n ∧ f < maxFrames))
  | 0, addr, s, f => by
    rw [decide_eq_false (by omega), Bool.not_false, Bool.and_true]
    rfl
  | n + 1, addr, s, f => by
    have hnext : (addr + pageSize) / pageSize = addr / pageSize + 1 :=
      Nat.add_div_right addr pageSize_pos
    rw [freeRegion]
    dsimp only
    split
    · next hge =>
      rw [decide_eq_false (by omega), Bool.not_false, Bool.and_true]
    · next hlt =>
      have hclear : ∀ s' : Vm, bitmapTest (bitmapClear s' (addr / pageSize)) f =
          (bitmapTest s' f && !decide (f = addr / pageSize)) := by
        intro s'
        by_cases hf : f = addr / pageSize
        · simp [bitmapTest, bitmapClear, hf, hlt]
        · simp [bitmapTest, bitmapClear, hf, hlt]
      have hsame : bitmapTest (if addr / pageSize + 1 > s.totalFrames then
          { s with totalFrames := addr / pageSize + 1 } else s) f = bitmapTest s f := by
        split <;> rfl
      rw [freeRegion_bits n, hclear, hsame, hnext, Bool.and_assoc, ← Bool.not_or,
        ← Bool.decide_or]
      congr 2
      rw [decide_eq_decide]
      omega

/-- The number of frames grows to take in what the loop visits, and only then. -/
theorem freeRegion_total : ∀ (n addr : Nat) (s : Vm),
    s.totalFrames ≤ (freeRegion n addr s).totalFrames ∧
    (∀ f, addr / pageSize ≤ f → f < addr / pageSize + n → f < maxFrames →
      f < (freeRegion n addr s).totalFrames) ∧
    ((freeRegion n addr s).totalFrames ≠ s.totalFrames → 0 < n ∧ addr / pageSize < maxFrames)
  | 0, addr, s => ⟨le_refl _, by intro f _ _ _; omega, by intro h; exact absurd rfl h⟩
  | n + 1, addr, s => by
    have hnext : (addr + pageSize) / pageSize = addr / pageSize + 1 :=
      Nat.add_div_right addr pageSize_pos
    rw [freeRegion]
    dsimp only
    split
    · next hge =>
      refine ⟨le_refl _, ?_, ?_⟩
      · intro f _ _ _
        omega
      · intro h
        exact absurd rfl h
    · next hlt =>
      set s₁ : Vm := if addr / pageSize + 1 > s.totalFrames then
        { s with totalFrames := addr / pageSize + 1 } else s with hs₁
      have htotal : s.totalFrames ≤ s₁.totalFrames ∧ addr / pageSize < s₁.totalFrames := by
        rw [hs₁]
        split
        · exact ⟨by simp only; omega, Nat.lt_succ_self _⟩
        · exact ⟨le_refl _, by omega⟩
      have hclear : (bitmapClear s₁ (addr / pageSize)).totalFrames = s₁.totalFrames := by
        rw [bitmapClear]
        split <;> rfl
      obtain ⟨h1, h2, -⟩ :=
        freeRegion_total n (addr + pageSize) (bitmapClear s₁ (addr / pageSize))
      rw [hclear] at h1
      refine ⟨by omega, ?_, fun _ => ⟨by omega, by omega⟩⟩
      intro f hle hf hmax
      rcases Nat.eq_or_lt_of_le hle with rfl | hgt
      · omega
      · exact h2 f (by omega) (by omega) hmax

/-- The turns of the loop over an entry's region. -/
theorem stepped_iff (h1 : e.type = 1) :
    Stepped e f ↔ e.baseAddr / pageSize ≤ f ∧
      f < e.baseAddr / pageSize + (e.regionEnd - e.baseAddr + (pageSize - 1)) / pageSize ∧
      f < maxFrames := by
  rw [Stepped]
  simp only [MmapEntry.regionEnd, pageSize, maxFrames, maxPhysMem] at *
  constructor
  · rintro ⟨-, hle, hlt⟩
    omega
  · rintro ⟨hle, hlt, -⟩
    exact ⟨h1, hle, by omega⟩

/-- What an entry of the memory map does: it frees the frames it steps on. -/
theorem freeEntry_spec (s : Vm) (e : MmapEntry) :
    (∀ f, bitmapTest (freeEntry s e) f = (bitmapTest s f && !decide (Stepped e f))) ∧
    s.totalFrames ≤ (freeEntry s e).totalFrames ∧
    (∀ f, Stepped e f → f < (freeEntry s e).totalFrames) ∧
    ((freeEntry s e).totalFrames ≠ s.totalFrames → Steps e) := by
  have hend : (if u64 (e.baseAddr + e.length) > maxPhysMem then maxPhysMem
      else u64 (e.baseAddr + e.length)) = e.regionEnd := by
    rw [MmapEntry.regionEnd]
    split <;> omega
  rw [freeEntry]
  dsimp only
  rw [hend]
  split
  · next h =>
    obtain ⟨h1, h2, h3⟩ := freeRegion_total
      ((e.regionEnd - e.baseAddr + (pageSize - 1)) / pageSize) e.baseAddr s
    refine ⟨fun f => ?_, h1, fun f hf => ?_, fun hne => ⟨h.1, ?_⟩⟩
    · rw [freeRegion_bits]
      congr 2
      rw [decide_eq_decide, stepped_iff h.1]
    · obtain ⟨g1, g2, g3⟩ := (stepped_iff h.1).mp hf
      exact h2 f g1 g2 g3
    · have hpos := (h3 hne).1
      simp only [pageSize] at hpos
      omega
  · next h =>
    have hno : ∀ f, ¬ Stepped e f := by
      intro f hf
      obtain ⟨g1, -, g3⟩ := hf
      simp only [MmapEntry.regionEnd, maxPhysMem] at *
      exact h ⟨g1, by omega⟩
    refine ⟨fun f => ?_, le_refl _, fun f hf => absurd hf (hno f), fun hne => absurd rfl hne⟩
    rw [decide_eq_false (hno f), Bool.not_false, Bool.and_true]

/-- The loop over the memory map frees what its entries step on. -/
theorem freeEntries_spec : ∀ (l : List MmapEntry) (s : Vm),
    (∀ f, bitmapTest (l.foldl freeEntry s) f =
      (bitmapTest s f && !decide (∃ e ∈ l, Stepped e f))) ∧
    s.totalFrames ≤ (l.foldl freeEntry s).totalFrames ∧
    (∀ f, (∃ e ∈ l, Stepped e f) → f < (l.foldl freeEntry s).totalFrames) ∧
    ((l.foldl freeEntry s).totalFrames ≠ s.totalFrames → ∃ e ∈ l, Steps e)
  | [], s => ⟨fun f => by simp, le_refl _, by simp, fun h => absurd rfl h⟩
  | e :: l, s => by
    obtain ⟨a1, a2, a3, a4⟩ := freeEntry_spec s e
    obtain ⟨b1, b2, b3, b4⟩ := freeEntries_spec l (freeEntry s e)
    rw [List.foldl_cons]
    refine ⟨fun f => ?_, a2.trans b2, fun f hf => ?_, fun hne => ?_⟩
    · rw [b1, a1, Bool.and_assoc, ← Bool.not_or, ← Bool.decide_or]
      simp only [List.mem_cons, exists_eq_or_imp]
    · obtain ⟨e', he', hs⟩ := hf
      rcases List.mem_cons.mp he' with rfl | he'
      · exact lt_of_lt_of_le (a3 f hs) b2
      · exact b3 f ⟨e', he', hs⟩
    · by_cases hsame : (freeEntry s e).totalFrames = s.totalFrames
      · rw [← hsame] at hne
        obtain ⟨e', he', hs⟩ := b4 hne
        exact ⟨e', List.mem_cons_of_mem _ he', hs⟩
      · exact ⟨e, List.mem_cons_self .., a4 hsame⟩

/-- The memory map leaves the given frames free, and counts far enough to see them. -/
theorem mapFrames_given (im : Image) (mem : Memory) (mb : MultibootInfo) :
    (∀ f, bitmapTest (mapFrames im mem mb) f = !decide (Given (mb.mmap.getD []) f)) ∧
    ∀ f, Given (mb.mmap.getD []) f → f < (mapFrames im mem mb).totalFrames := by
  set s₀ : Vm := ⟨bootMemory im mem, fun _ => true, 0, im.pmlTable, []⟩ with hs₀
  set l := mb.mmap.getD []
  obtain ⟨h1, -, h3, h4⟩ := freeEntries_spec l s₀
  have hall : ∀ f, bitmapTest s₀ f = true := by
    intro f
    rw [bitmapTest]
    split <;> rfl
  have hmap : mapFrames im mem mb = if (l.foldl freeEntry s₀).totalFrames = 0 then
      { l.foldl freeEntry s₀ with totalFrames := maxFrames, frameBitmap := fun _ => false }
      else l.foldl freeEntry s₀ := rfl
  rw [hmap]
  split
  · next hzero =>
    have hnone : ∀ e ∈ l, ¬ Steps e := by
      intro e he hs
      have hlt := h3 _ ⟨e, he, hs.stepped⟩
      rw [hzero] at hlt
      exact Nat.not_lt_zero _ hlt
    have hgiven : ∀ f, Given l f ↔ f < maxFrames :=
      fun f => ⟨Given.lt, fun hf => Or.inr ⟨hnone, hf⟩⟩
    refine ⟨fun f => ?_, fun f hf => (hgiven f).mp hf⟩
    rw [bitmapTest, Bool.eq_iff_iff]
    simp [hgiven]
  · next hpos =>
    obtain ⟨e, he, hs⟩ := h4 hpos
    have hgiven : ∀ f, Given l f ↔ ∃ e ∈ l, Stepped e f := by
      intro f
      refine ⟨?_, Or.inl⟩
      rintro (h | ⟨hno, -⟩)
      · exact h
      · exact absurd hs (hno e he)
    refine ⟨fun f => ?_, fun f hf => h3 f ((hgiven f).mp hf)⟩
    rw [h1, hall, Bool.true_and]
    congr 1
    rw [decide_eq_decide, hgiven]

/-! ### Spare frames -/

/-- The spare frames are those free before the identity map grows. -/
theorem bitmapTest_initFrames (im : Image) (mem : Memory) (mb : MultibootInfo) (f : Nat) :
    bitmapTest (pagingInitFrames im mem mb) f = !decide (Spare im mb f) := by
  obtain ⟨-, -, -, -, hbits⟩ := pagingInitFrames_spec im mem mb
  rw [hbits, (mapFrames_given im mem mb).1, Bool.eq_iff_iff, Bool.not_eq_true',
    decide_eq_false_iff_not, Spare]
  simp only [Bool.or_eq_true, Bool.not_eq_true', decide_eq_false_iff_not, decide_eq_true_eq,
    not_and_or, not_not, or_assoc]

theorem Spare.lt_total (h : Spare im mb f) : f < (pagingInitFrames im mem mb).totalFrames := by
  obtain ⟨-, -, -, htotal, -⟩ := pagingInitFrames_spec im mem mb
  rw [htotal]
  exact (mapFrames_given im mem mb).2 f h.1

/-- Spare frames lie beyond the image. -/
theorem Spare.image_lt (h : Spare im mb f) : im.pdTable < f := by
  obtain ⟨hgiven, hkernel, -⟩ := h
  have hmax := hgiven.lt
  have htables := im.tables_le
  have hend := im.end_lt
  by_contra hle
  apply hkernel
  simp only [reserves, Image.pdTable, pageSize, maxFrames, maxPhysMem] at *
  refine ⟨by omega, ?_⟩
  rw [u64_of_lt (by omega)]
  omega

/-- The frames `paging_alloc_table` skips, from the end of the kernel to the top of its stack, are
    reserved. -/
theorem Spare.not_stack (h : Spare im mb f) :
    ¬ (im.kernelEnd ≤ f * pageSize ∧ f * pageSize < im.stackTop) := by
  rintro ⟨h1, h2⟩
  have hend := im.end_lt
  apply h.2.2.1
  simp only [reserves, Image.stackTop, Image.stackBottom, pageSize] at *
  refine ⟨by omega, ?_⟩
  rw [u64_of_lt (by omega)]
  omega

end TypeOS.Paging
