import TypeOS.Paging.Map

/-! The tables and frames `paging_init` starts from.

    `_start` leaves three tables that map 0 to 4 MiB through two huge pages. They lie in the kernel
    image, whose frames `paging_init` reserves whatever the memory map says, so they are the forest
    the identity map then grows. -/

namespace TypeOS.Paging
open Radix

variable {im : Image} {s s' : Vm} {mem : Memory} {mb : MultibootInfo} {f : Nat}

/-! ### Free and reserved frames -/

/-- Everything but the frame bitmap and the number of frames. -/
def SameMemory (s s' : Vm) : Prop := s'.mem = s.mem ∧ s'.pml4 = s.pml4 ∧ s'.direct = s.direct

theorem SameMemory.trans {s'' : Vm} (h : SameMemory s s') (h' : SameMemory s' s'') :
    SameMemory s s'' := by
  obtain ⟨h1, h2, h3⟩ := h
  obtain ⟨h4, h5, h6⟩ := h'
  exact ⟨h4.trans h1, h5.trans h2, h6.trans h3⟩

theorem sameMemory_bitmapSet (s : Vm) (f : Nat) : SameMemory s (bitmapSet s f) := by
  unfold bitmapSet; split <;> exact ⟨rfl, rfl, rfl⟩

theorem sameMemory_bitmapClear (s : Vm) (f : Nat) : SameMemory s (bitmapClear s f) := by
  unfold bitmapClear; split <;> exact ⟨rfl, rfl, rfl⟩

theorem sameMemory_freeRegion : ∀ (n addr : Nat) (s : Vm), SameMemory s (freeRegion n addr s)
  | 0, _, _ => ⟨rfl, rfl, rfl⟩
  | n + 1, addr, s => by
    rw [freeRegion]
    dsimp only
    split
    · exact ⟨rfl, rfl, rfl⟩
    · refine SameMemory.trans ?_ (sameMemory_freeRegion n _ _)
      split
      · exact SameMemory.trans ⟨rfl, rfl, rfl⟩ (sameMemory_bitmapClear ..)
      · exact sameMemory_bitmapClear ..

theorem sameMemory_freeEntry (s : Vm) (e : MmapEntry) : SameMemory s (freeEntry s e) := by
  unfold freeEntry
  dsimp only
  split
  · exact sameMemory_freeRegion ..
  · exact ⟨rfl, rfl, rfl⟩

theorem sameMemory_freeEntries : ∀ (l : List MmapEntry) (s : Vm), SameMemory s (l.foldl freeEntry s)
  | [], _ => ⟨rfl, rfl, rfl⟩
  | e :: l, s => (sameMemory_freeEntry s e).trans (sameMemory_freeEntries l _)

/-- `reserve_frames` takes the frames of its range and changes nothing else. -/
theorem reserveLoop_spec : ∀ (n k : Nat) (s : Vm), SameMemory s (reserveLoop n k s) ∧
    (reserveLoop n k s).totalFrames = s.totalFrames ∧
    ∀ f, bitmapTest (reserveLoop n k s) f = (bitmapTest s f || decide (k ≤ f ∧ f < k + n))
  | 0, k, s => ⟨⟨rfl, rfl, rfl⟩, rfl, fun f => by
      rw [decide_eq_false (by omega), Bool.or_false]; rfl⟩
  | n + 1, k, s => by
    have hset : (if k < maxFrames then bitmapSet s k else s) = bitmapSet s k := by
      rw [bitmapSet]
      split
      · rw [if_neg (by omega)]
      · rw [if_pos (by omega)]
    obtain ⟨h1, h2, h3⟩ := reserveLoop_spec n (k + 1) (bitmapSet s k)
    rw [reserveLoop, hset]
    refine ⟨(sameMemory_bitmapSet s k).trans h1, h2.trans bitmapSet_total, fun f => ?_⟩
    rw [h3, bitmapTest_bitmapSet, Bool.eq_iff_iff]
    simp only [Bool.or_eq_true, decide_eq_true_eq]
    constructor
    · rintro ((rfl | h) | h)
      · exact Or.inr (by omega)
      · exact Or.inl h
      · exact Or.inr (by omega)
    · rintro (h | h)
      · exact Or.inl (Or.inr h)
      · rcases Nat.eq_or_lt_of_le h.1 with rfl | hlt
        · exact Or.inl (Or.inl rfl)
        · exact Or.inr (by omega)

/-- The frames `reserve_frames` takes. -/
def reserves (start stop f : Nat) : Prop :=
  start / pageSize ≤ f ∧ f < u64 (stop + pageSize - 1) / pageSize

instance (start stop f : Nat) : Decidable (reserves start stop f) := by
  unfold reserves; infer_instance

theorem reserveFrames_spec (s : Vm) (start stop : Nat) : SameMemory s (reserveFrames s start stop) ∧
    (reserveFrames s start stop).totalFrames = s.totalFrames ∧
    ∀ f, bitmapTest (reserveFrames s start stop) f =
      (bitmapTest s f || decide (reserves start stop f)) := by
  obtain ⟨h1, h2, h3⟩ := reserveLoop_spec
    (u64 (stop + pageSize - 1) / pageSize - start / pageSize) (start / pageSize) s
  refine ⟨h1, h2, fun f => ?_⟩
  rw [reserveFrames, h3]
  congr 1
  rw [decide_eq_decide, reserves]
  omega

theorem reserveModules_spec : ∀ (l : List (Nat × Nat)) (s : Vm),
    SameMemory s (l.foldl (fun s m => reserveFrames s m.1 m.2) s) ∧
    (l.foldl (fun s m => reserveFrames s m.1 m.2) s).totalFrames = s.totalFrames ∧
    ∀ f, bitmapTest (l.foldl (fun s m => reserveFrames s m.1 m.2) s) f =
      (bitmapTest s f || decide (∃ m ∈ l, reserves m.1 m.2 f))
  | [], s => ⟨⟨rfl, rfl, rfl⟩, rfl, fun f => by simp⟩
  | m :: l, s => by
    obtain ⟨h1, h2, h3⟩ := reserveFrames_spec s m.1 m.2
    obtain ⟨h4, h5, h6⟩ := reserveModules_spec l (reserveFrames s m.1 m.2)
    refine ⟨h1.trans h4, h5.trans h2, fun f => ?_⟩
    rw [List.foldl_cons, h6, h3, Bool.or_assoc]
    congr 1
    simp only [List.mem_cons, exists_eq_or_imp, Bool.decide_or]

/-- The bitmap and the number of frames the memory map leaves. -/
def mapFrames (im : Image) (mem : Memory) (mb : MultibootInfo) : Vm :=
  let s := (mb.mmap.getD []).foldl freeEntry ⟨bootMemory im mem, fun _ => true, 0, im.pmlTable, []⟩
  if s.totalFrames = 0 then { s with totalFrames := maxFrames, frameBitmap := fun _ => false } else s

/-- Which frames are in use when `paging_init` starts to map: what the memory map does not give,
    the image, the stack, the window of fixed images and the modules. -/
theorem pagingInitFrames_spec (im : Image) (mem : Memory) (mb : MultibootInfo) :
    (pagingInitFrames im mem mb).mem = bootMemory im mem ∧
    (pagingInitFrames im mem mb).pml4 = im.pmlTable ∧ (pagingInitFrames im mem mb).direct = [] ∧
    (pagingInitFrames im mem mb).totalFrames = (mapFrames im mem mb).totalFrames ∧
    ∀ f, bitmapTest (pagingInitFrames im mem mb) f = (bitmapTest (mapFrames im mem mb) f ||
      decide (reserves 0 (min maxPhysMem im.kernelEnd) f) ||
      decide (reserves im.stackBottom im.stackTop f) ||
      decide (reserves userImagePhysStart userImagePhysEnd f) ||
      decide (∃ m ∈ mb.modules, reserves m.1 m.2 f)) := by
  have hmap : SameMemory ⟨bootMemory im mem, fun _ => true, 0, im.pmlTable, []⟩
      (mapFrames im mem mb) := by
    unfold mapFrames
    dsimp only
    split
    · exact SameMemory.trans (sameMemory_freeEntries ..) ⟨rfl, rfl, rfl⟩
    · exact sameMemory_freeEntries ..
  have hmin : (if maxPhysMem < im.kernelEnd then maxPhysMem else im.kernelEnd) =
      min maxPhysMem im.kernelEnd := by split <;> omega
  rw [show pagingInitFrames im mem mb = mb.modules.foldl (fun s m => reserveFrames s m.1 m.2)
    (reserveFrames (reserveFrames (reserveFrames (mapFrames im mem mb) 0
      (if maxPhysMem < im.kernelEnd then maxPhysMem else im.kernelEnd)) im.stackBottom im.stackTop)
      userImagePhysStart userImagePhysEnd) from rfl, hmin]
  obtain ⟨a1, a2, a3⟩ := reserveFrames_spec (mapFrames im mem mb) 0 (min maxPhysMem im.kernelEnd)
  obtain ⟨b1, b2, b3⟩ := reserveFrames_spec
    (reserveFrames (mapFrames im mem mb) 0 (min maxPhysMem im.kernelEnd)) im.stackBottom im.stackTop
  obtain ⟨c1, c2, c3⟩ := reserveFrames_spec (reserveFrames
    (reserveFrames (mapFrames im mem mb) 0 (min maxPhysMem im.kernelEnd)) im.stackBottom
    im.stackTop) userImagePhysStart userImagePhysEnd
  obtain ⟨d1, d2, d3⟩ := reserveModules_spec mb.modules (reserveFrames (reserveFrames
    (reserveFrames (mapFrames im mem mb) 0 (min maxPhysMem im.kernelEnd)) im.stackBottom
    im.stackTop) userImagePhysStart userImagePhysEnd)
  obtain ⟨h1, h2, h3⟩ := (((hmap.trans a1).trans b1).trans c1).trans d1
  exact ⟨h1, h2, h3, ((d2.trans c2).trans b2).trans a2, fun f => by rw [d3, c3, b3, a3]⟩

/-! ### The boot tables -/

/-- Where the boot tables are reached. -/
def bootTag (im : Image) (t : Nat) : Option Path :=
  if t = im.pmlTable then some []
  else if t = im.pdpTable then some [0]
  else if t = im.pdTable then some [0, 0] else none

theorem bootMemory_pml (i : Fin 512) : bootMemory im mem im.pmlTable i =
    if i = 0 then frameWord im.pdpTable ||| 3#64 else 0#64 := by
  have h1 : im.pmlTable ≠ im.pdTable := by simp [Image.pdTable]
  have h2 : im.pmlTable ≠ im.pdpTable := by simp [Image.pdpTable]
  simp [bootMemory, h1, h2]

theorem bootMemory_pdp (i : Fin 512) : bootMemory im mem im.pdpTable i =
    if i = 0 then frameWord im.pdTable ||| 3#64 else 0#64 := by
  have h1 : im.pdpTable ≠ im.pdTable := by simp [Image.pdTable, Image.pdpTable]
  simp [bootMemory, h1]

theorem bootMemory_pd (i : Fin 512) : bootMemory im mem im.pdTable i =
    if i = 0 then 0x83#64 else if i = 1 then 0x200083#64 else 0#64 := by
  simp [bootMemory]

theorem bootTag_some {t : Nat} {p : Path} (h : bootTag im t = some p) :
    (t = im.pmlTable ∧ p = []) ∨ (t = im.pdpTable ∧ p = [0]) ∨ (t = im.pdTable ∧ p = [0, 0]) := by
  unfold bootTag at h
  split at h
  · next ht => exact Or.inl ⟨ht, (Option.some.inj h).symm⟩
  split at h
  · next ht => exact Or.inr (Or.inl ⟨ht, (Option.some.inj h).symm⟩)
  split at h
  · next ht => exact Or.inr (Or.inr ⟨ht, (Option.some.inj h).symm⟩)
  · simp at h

theorem image_lt (im : Image) : im.pdTable < 2 ^ 20 := by
  have h1 := im.tables_le
  have h2 := im.end_lt
  simp only [Image.pdTable, pageSize] at *
  omega

theorem next_boot {t : Nat} (ht : t < 2 ^ 40) : nextTable (frameWord t ||| 3#64) = some t :=
  tableFlags_kernel.next ht

/-- The boot tables are a forest with one root. -/
theorem forest_boot (hmem : s.mem = bootMemory im mem) (hroot : s.pml4 = im.pmlTable)
    (hbits : ∀ f ≤ im.pdTable, bitmapTest s f = true) : Forest s (bootTag im) := by
  have hlt := image_lt im
  have hpdp : im.pdpTable < 2 ^ 40 := by simp only [Image.pdTable, Image.pdpTable] at *; omega
  have hpd : im.pdTable < 2 ^ 40 := by omega
  have htagpdp : bootTag im im.pdpTable = some [0] := by
    simp [bootTag, Image.pdpTable]
  have htagpd : bootTag im im.pdTable = some [0, 0] := by
    simp [bootTag, Image.pdpTable, Image.pdTable]
  refine ⟨?_, ?_, ?_, ?_, ?_, ?_, hbits 0 (Nat.zero_le _), ?_⟩
  · intro t p i f ht hp hf
    rw [hmem] at hf
    rcases bootTag_some ht with ⟨rfl, rfl⟩ | ⟨rfl, rfl⟩ | ⟨rfl, rfl⟩
    · rw [bootMemory_pml] at hf
      split at hf
      · next hi =>
        rw [next_boot hpdp, Option.some.injEq] at hf
        rw [← hf, hi]; exact htagpdp
      · simp [nextTable] at hf
    · rw [bootMemory_pdp] at hf
      split at hf
      · next hi =>
        rw [next_boot hpd, Option.some.injEq] at hf
        rw [← hf, hi]; exact htagpd
      · simp [nextTable] at hf
    · rw [bootMemory_pd] at hf
      split at hf
      · simp [nextTable] at hf
      split at hf
      · simp [nextTable] at hf
      · simp [nextTable] at hf
  · intro t p ht
    rcases bootTag_some ht with ⟨-, rfl⟩ | ⟨-, rfl⟩ | ⟨-, rfl⟩ <;> simp
  · intro t p i ht hp hpr
    rw [hmem] at hpr ⊢
    rcases bootTag_some ht with ⟨rfl, rfl⟩ | ⟨rfl, rfl⟩ | ⟨rfl, rfl⟩
    · rw [bootMemory_pml] at hpr ⊢
      split at hpr
      · next hi => rw [if_pos hi]; exact (nextTable_some (next_boot hpdp)).2.1
      · simp at hpr
    · rw [bootMemory_pdp] at hpr ⊢
      split at hpr
      · next hi => rw [if_pos hi]; exact (nextTable_some (next_boot hpd)).2.1
      · simp at hpr
    · simp at hp
  · intro t p i ht hp hpr hh
    rw [hmem] at hpr hh ⊢
    rcases bootTag_some ht with ⟨rfl, rfl⟩ | ⟨rfl, rfl⟩ | ⟨rfl, rfl⟩
    · simp at hp
    · simp at hp
    · rw [bootMemory_pd] at hpr hh ⊢
      split
      · exact ⟨by decide, by decide⟩
      split
      · exact ⟨by decide, by decide⟩
      · next h1 h2 => simp [h1, h2] at hpr
  · intro t p i c ht _ hc
    rw [hmem] at hc ⊢
    rcases bootTag_some ht with ⟨rfl, rfl⟩ | ⟨rfl, rfl⟩ | ⟨rfl, rfl⟩
    · rw [bootMemory_pml] at hc ⊢
      split
      · exact tableFlags_kernel.entry
      · next hi => simp [hi, nextTable] at hc
    · rw [bootMemory_pdp] at hc ⊢
      split
      · exact tableFlags_kernel.entry
      · next hi => simp [hi, nextTable] at hc
    · rw [bootMemory_pd] at hc
      split at hc
      · simp [nextTable] at hc
      split at hc
      · simp [nextTable] at hc
      · simp [nextTable] at hc
  · intro t p ht
    have hstart := im.start_le
    have hle : t ≤ im.pdTable ∧ 0 < t := by
      rcases bootTag_some ht with ⟨rfl, -⟩ | ⟨rfl, -⟩ | ⟨rfl, -⟩ <;>
        simp only [Image.pdTable, Image.pdpTable] <;> omega
    exact ⟨hle.2, by omega, hbits t hle.1⟩
  · rw [hroot]; simp [bootTag]

/-- The image lies in reserved frames, so the boot tables are in use. -/
theorem forest_initFrames (im : Image) (mem : Memory) (mb : MultibootInfo) :
    Forest (pagingInitFrames im mem mb) (bootTag im) := by
  obtain ⟨h1, h2, -, -, hbits⟩ := pagingInitFrames_spec im mem mb
  refine forest_boot h1 h2 fun f hf => ?_
  have h3 := im.tables_le
  have h4 := im.end_lt
  rw [hbits]
  rcases Nat.lt_or_ge f maxFrames with hlt | hge
  · have hres : reserves 0 (min maxPhysMem im.kernelEnd) f := by
      simp only [reserves, Image.pdTable, pageSize, maxFrames, maxPhysMem] at *
      refine ⟨by omega, ?_⟩
      rw [u64_of_lt (by omega)]
      omega
    rw [decide_eq_true hres]
    simp
  · rw [show bitmapTest (mapFrames im mem mb) f = true from if_pos hge]
    simp

end TypeOS.Paging
