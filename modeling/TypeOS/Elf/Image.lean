import TypeOS.Elf.Permissions

/-! What a loaded program finds in its memory (`elf_load`).

    A page of a segment is cleared before it is filled, also where a segment before left something in it.
    So where segments share a page the last of them decides: after `elf_load` each address holds the byte
    of the file that the last segment on its page names, or zero. Whatever of the program another segment
    put there is lost. -/

namespace TypeOS.Elf

open Paging Sys
open Fs (Vfs Ptr vfsReadAt vfsReadAt_spec)
open Bytes (store load leBytes)

/-- A program header whose bytes are in a file of that size, and do not go round the address space. -/
structure ProgramHeader.Inside (ph : ProgramHeader) (size : Nat) : Prop where
  bytes : ph.pOffset + ph.pFilesz ≤ size
  size : size ≤ 2 ^ 63
  addresses : ph.pVaddr + ph.pFilesz < 2 ^ 64

/-- What a segment of a file has at an address: a byte of the file, or zero. -/
def imageByte (data : List UInt8) (ph : ProgramHeader) (v : Nat) : UInt8 :=
  if ph.pVaddr ≤ v ∧ v < ph.pVaddr + ph.pFilesz then data.getD (ph.pOffset + (v - ph.pVaddr)) 0 else 0

/-- An address of a fixed image that is mapped to itself. -/
def Placed (s : Vm) (v : Nat) : Prop := ImageFrame (v / pageSize) ∧ pageAt s v = some (v / pageSize)

variable {im : Image} {fs : Vfs} {file : Option Ptr} {kbuf : Nat → Bytes.Memory}
  {bufs : Nat → Nat → Bytes.Memory} {ph : ProgramHeader} {hdr buf : Bytes.Memory} {s s' : Vm}
  {tag tag' : Nat → Option Path} {roots : List Nat} {data : List UInt8} {mode : BitVec 32} {p : Ptr}
  {addr v f phoff entry : Nat} {pre post : List ProgramHeader} {F : Nat → Prop} {W : Path → Prop}

/-! ### The file's part of a page -/

theorem le_copyStart (ph : ProgramHeader) (addr : Nat) : ph.pVaddr ≤ ph.copyStart addr := by
  rw [ProgramHeader.copyStart]
  split <;> omega

/-- The file's part of a page is a part of the file. -/
theorem readPage_inside (hfile : fs.inodes p = ⟨mode, data.length, .file data⟩)
    (hin : ph.Inside data.length) (hlt : ph.copyStart addr < ph.copyEnd addr) :
    ph.pOffset + (ph.copyEnd addr - ph.pVaddr) ≤ data.length ∧
      (readPage fs (some p) ph addr).2 = (data.drop (ph.pOffset + (ph.copyStart addr - ph.pVaddr))).take
        (ph.copyEnd addr - ph.copyStart addr) := by
  have hstart := le_copyStart ph addr
  have hend : ph.copyEnd addr ≤ ph.pVaddr + ph.pFilesz := by
    rw [ProgramHeader.copyEnd, ProgramHeader.fileEnd, u64_of_lt hin.addresses]
    split <;> omega
  obtain ⟨hbytes, hsize, -⟩ := hin
  refine ⟨by omega, ?_⟩
  rw [readPage, u64_of_lt (by omega), vfsReadAt_spec _ _ hfile]

theorem Inside.readsWhole (hfile : fs.inodes p = ⟨mode, data.length, .file data⟩)
    (hin : ph.Inside data.length) : ReadsWhole fs (some p) ph := by
  intro addr _ _ _
  rcases Nat.lt_or_ge (ph.copyStart addr) (ph.copyEnd addr) with hlt | hge
  · obtain ⟨hbytes, hread⟩ := readPage_inside hfile hin hlt
    have hstart := le_copyStart ph addr
    rw [hread, List.length_take, List.length_drop]
    omega
  · omega

/-- What is meant to be at an address of a segment is what the file says. -/
theorem segmentByte_image (hfile : fs.inodes p = ⟨mode, data.length, .file data⟩)
    (hin : ph.Inside data.length) : segmentByte fs (some p) ph v = imageByte data ph v := by
  have hpage : pageOf v ≤ v ∧ v < pageOf v + pageSize := by
    simp only [pageOf, pageSize]
    omega
  have hstart : ph.copyStart (pageOf v) ≤ v ↔ ph.pVaddr ≤ v := by
    rw [ProgramHeader.copyStart]
    split <;> omega
  have hend : v < ph.copyEnd (pageOf v) ↔ v < ph.pVaddr + ph.pFilesz := by
    rw [ProgramHeader.copyEnd, ProgramHeader.fileEnd, u64_of_lt hin.addresses]
    split <;> omega
  rw [segmentByte, imageByte]
  by_cases hv : ph.pVaddr ≤ v ∧ v < ph.pVaddr + ph.pFilesz
  · have hlo := hstart.mpr hv.1
    have hhi := hend.mpr hv.2
    have hfrom := le_copyStart ph (pageOf v)
    rw [if_pos hv, if_pos ⟨hlo, hhi⟩, (readPage_inside hfile hin (hlo.trans_lt hhi)).2,
      List.getD_eq_getElem?_getD, List.getD_eq_getElem?_getD, List.getElem?_take_of_lt (by omega),
      List.getElem?_drop]
    congr 2
    omega
  · rw [if_neg hv, if_neg fun hc => hv ⟨hstart.mp hc.1, hend.mp hc.2⟩]

/-! ### One segment -/

/-- The pages of the loop are those of the segment. -/
theorem covers_pages : ph.Covers v ↔ ph.segStart ≤ v ∧
    v < ph.segStart + (ph.segEnd - ph.segStart) / pageSize * pageSize := by
  rw [ProgramHeader.Covers, ProgramHeader.segStart, ProgramHeader.segEnd, pageOf, pageOf]
  generalize ph.pVaddr / pageSize = a
  generalize u64 (ph.pVaddr + ph.pMemsz + pageSize - 1) / pageSize = b
  rw [← Nat.sub_mul, frame_div]
  simp only [pageSize]
  omega

/-- A segment that is loaded is in the memory for fixed images, and its loop ended well. -/
theorem elfMapSegment_loop (hc : elfMapSegment im fs file kbuf ph s = (true, s')) :
    userImagePhysStart ≤ ph.segStart ∧ ph.segEnd ≤ userImagePhysEnd ∧
      segmentLoop im fs file kbuf ph ((ph.segEnd - ph.segStart) / pageSize) ph.segStart
        (pagingSplitHugeRange im s ph.segStart ph.segEnd) = (true, s') := by
  rw [elfMapSegment] at hc
  split at hc
  · cases hc
  · next hno =>
    rw [not_or, not_lt, not_lt] at hno
    exact ⟨hno.1, hno.2, hc⟩

/-- A page that is left alone stays where it is and holds what it held. -/
theorem Placed.edited (h : Placed s v) (hk : ImageKept s tag) (g : Edited F W s tag s' tag')
    (hW : ¬ W (pathOf v)) (hF : ¬ F (v / pageSize)) : Placed s' v ∧ userByte s' v = userByte s v := by
  obtain ⟨himg, hpage⟩ := h
  obtain ⟨htag, hbit⟩ := hk _ himg
  exact ⟨⟨himg, (g.pages v hW).trans hpage⟩, g.userByte hW hpage hF htag hbit⟩

/-- The loop leaves the other pages of fixed images alone. -/
theorem outside_pages (himg : ImageFrame (v / pageSize)) {n : Nat}
    (hend : f * pageSize + n * pageSize ≤ userImagePhysEnd)
    (hout : ¬ (f * pageSize ≤ v ∧ v < f * pageSize + n * pageSize)) :
    ¬ PageIn (f * pageSize) n (pathOf v) ∧ ¬ FrameIn (f * pageSize) n (v / pageSize) := by
  have hlt := himg.2
  constructor
  · rintro (hc | ⟨u, hu, hu', hc⟩) <;> simp only [userImagePhysEnd, pageSize] at *
    · have := pathOf_inj (by omega) (by decide) hc
      simp only [pageSize, kernelKmapWindow] at this
      omega
    · have := pathOf_inj (by omega) (by omega) hc
      simp only [pageSize] at this
      omega
  · rintro ⟨hu, hu'⟩
    simp only [pageSize] at *
    omega

/-- The loop maps each of its pages to itself. -/
theorem segmentLoop_placed (n : Nat) : ∀ {f : Nat} {s : Vm} {tag : Nat → Option Path}, Forest s tag →
    ImageKept s tag → ph.segStart ≤ f * pageSize → userImagePhysStart ≤ f * pageSize →
    f * pageSize + n * pageSize ≤ userImagePhysEnd →
    segmentLoop im fs file kbuf ph n (f * pageSize) s = (true, s') →
    ∀ v, f * pageSize ≤ v → v < f * pageSize + n * pageSize → Placed s' v := by
  induction n with
  | zero =>
    intro f s tag _ _ _ _ _ _ v hlo hhi
    omega
  | succ n ih =>
    intro f s tag h hk hlo himg hend hc v hge hlt
    have hnext : f * pageSize + pageSize = (f + 1) * pageSize := (Nat.succ_mul f pageSize).symm
    rw [Nat.succ_mul] at hend hlt
    have hend' : (f + 1) * pageSize + n * pageSize ≤ userImagePhysEnd := by linarith
    have hle : f * pageSize ≤ (f + 1) * pageSize := Nat.mul_le_mul_right _ (Nat.le_succ f)
    have hf : ImageFrame f := ⟨himg, by simp only [pageSize] at *; omega⟩
    rw [segmentLoop_succ] at hc
    rcases hpage : segmentPage im fs file kbuf ph (f * pageSize) s with ⟨_ | _, s₁⟩
    · rw [hpage] at hc
      cases hc
    rw [hpage] at hc
    dsimp only at hc
    rw [hnext] at hc
    obtain ⟨tag₁, g₁, hmine, -⟩ := segmentPage_edited h hk hf hlo hpage
    rcases Nat.lt_or_ge v ((f + 1) * pageSize) with hin | hout
    · -- the later turns leave the first page alone
      obtain ⟨tag', g', -, -⟩ := segmentLoop_edited n g₁.forest (hk.edited g₁) (hlo.trans hle)
        (himg.trans hle) hend' hc
      have hdiv : v / pageSize = f := Nat.div_eq_of_lt_le hge hin
      have hv : pageOf v = f * pageSize := by rw [pageOf, hdiv]
      rw [Placed, hdiv, g'.pages v (not_pageIn hv hf hend')]
      exact ⟨hf, (hmine rfl v hv).2⟩
    · exact ih g₁.forest (hk.edited g₁) (hlo.trans hle) (himg.trans hle) hend' hc v hout (by linarith)

/-- What loading a segment leaves: its pages hold what is put there, and the others what they held. -/
structure Loaded (s s' : Vm) (ph : ProgramHeader) (put : Nat → UInt8) : Prop where
  mine : ∀ v, ph.Covers v → Placed s' v ∧ userByte s' v = some (put v)
  others : ∀ v, Placed s v → ¬ ph.Covers v → Placed s' v ∧ userByte s' v = userByte s v

/-- Where the window can be used, it has its page table after the first page. -/
theorem segmentLoop_window {n : Nat} (h : Forest s tag) (hk : ImageKept s tag)
    (hlo : ph.segStart ≤ f * pageSize) (himg : userImagePhysStart ≤ f * pageSize)
    (hend : f * pageSize + (n + 1) * pageSize ≤ userImagePhysEnd) (hd : WindowDir s s.pml4)
    (ho : WindowOpens im s) (hc : segmentLoop im fs file kbuf ph (n + 1) (f * pageSize) s = (true, s')) :
    ptOf s'.mem s'.pml4 kernelKmapWindow ≠ none := by
  have hnext : f * pageSize + pageSize = (f + 1) * pageSize := (Nat.succ_mul f pageSize).symm
  rw [Nat.succ_mul] at hend
  have hend' : (f + 1) * pageSize + n * pageSize ≤ userImagePhysEnd := by linarith
  have hle : f * pageSize ≤ (f + 1) * pageSize := Nat.mul_le_mul_right _ (Nat.le_succ f)
  have hf : ImageFrame f := ⟨himg, by simp only [pageSize] at *; omega⟩
  rw [segmentLoop_succ] at hc
  rcases hpage : segmentPage im fs file kbuf ph (f * pageSize) s with ⟨_ | _, s₁⟩
  · rw [hpage] at hc
    cases hc
  rw [hpage] at hc
  dsimp only at hc
  rw [hnext] at hc
  obtain ⟨tag₁, g₁, -, hwindow⟩ := segmentPage_edited h hk hf hlo hpage
  obtain ⟨k, hk₁⟩ := Option.ne_none_iff_exists'.mp (hwindow hd ho).1
  obtain ⟨tag', g', -, -⟩ := segmentLoop_edited n g₁.forest (hk.edited g₁) (hlo.trans hle) (himg.trans hle)
    hend' hc
  rw [g'.ptOf g₁.forest hk₁]
  exact Option.some_ne_none k

/-- A segment that does not end where it starts has a page. -/
theorem segment_pages (ph : ProgramHeader) (h : ph.segStart < ph.segEnd) :
    ∃ n, (ph.segEnd - ph.segStart) / pageSize = n + 1 := by
  refine Nat.exists_eq_succ_of_ne_zero ?_
  rw [ProgramHeader.segStart, ProgramHeader.segEnd, pageOf, pageOf] at *
  rw [← Nat.sub_mul, frame_div]
  have := lt_of_mul_lt_mul_right h (Nat.zero_le pageSize)
  omega

/-- Where the window can be used, loading a segment does that, and the window has its page table then. A
    segment without pages has its huge pages split. -/
theorem elfMapSegment_loaded (h : LoadSound im s roots tag)
    (ho : ph.segStart < ph.segEnd → WindowOpens im (pagingSplitHugeRange im s ph.segStart ph.segEnd))
    (hc : elfMapSegment im fs file kbuf ph s = (true, s')) : ∃ tag', LoadSound im s' roots tag' ∧
      (if ph.segStart < ph.segEnd then ptOf s'.mem s'.pml4 kernelKmapWindow ≠ none
        else s' = pagingSplitHugeRange im s ph.segStart ph.segEnd) ∧
      Loaded s s' ph (loadedByte fs file kbuf ph) := by
  obtain ⟨hlo, hhi, hloop⟩ := elfMapSegment_loop hc
  obtain ⟨tag₁, g₁⟩ := pagingSplitHugeRange_edited h.forest h.boot ph.segStart ph.segEnd
  have h₁ := h.edited g₁
  set s₁ := pagingSplitHugeRange im s ph.segStart ph.segEnd
  split
  · next hpages =>
    have ho := ho hpages
    have hcov := fun v => @covers_pages ph v
    have hbound : (ph.segEnd - ph.segStart) / pageSize * pageSize ≤ ph.segEnd - ph.segStart :=
      Nat.div_mul_le_self _ _
    obtain ⟨n, hn⟩ := segment_pages ph hpages
    rw [hn] at hloop hcov hbound
    have hend : ph.segStart + (n + 1) * pageSize ≤ userImagePhysEnd := by omega
    obtain ⟨f, hf⟩ : ∃ f, ph.segStart = f * pageSize := ⟨ph.pVaddr / pageSize, rfl⟩
    rw [hf] at hloop hlo hend
    obtain ⟨tag₂, g₂, -, hbytes⟩ := segmentLoop_edited (n + 1) h₁.forest h₁.image hf.le hlo hend hloop
    have hplaced := segmentLoop_placed (n + 1) h₁.forest h₁.image hf.le hlo hend hloop
    have hd := h₁.dirs _ h₁.root
    refine ⟨tag₂, h₁.edited g₂, segmentLoop_window h₁.forest h₁.image hf.le hlo hend hd ho hloop, ?_, ?_⟩
    · intro v hv
      obtain ⟨hge, hlt⟩ := (hcov v).mp hv
      rw [hf] at hge hlt
      exact ⟨hplaced v hge hlt, hbytes rfl hd ho v hge hlt⟩
    · intro v hp hv
      obtain ⟨hp₁, hsame⟩ := hp.edited h.image g₁ (fun hc => hc) fun hc => hc
      obtain ⟨hpath, hframe⟩ := outside_pages hp.1 hend fun hc => hv ((hcov v).mpr (by rwa [hf]))
      obtain ⟨hp₂, hsame'⟩ := hp₁.edited h₁.image g₂ hpath hframe
      exact ⟨hp₂, hsame'.trans hsame⟩
  · next hempty =>
    rw [not_lt] at hempty
    rw [Nat.sub_eq_zero_of_le hempty, Nat.zero_div, segmentLoop] at hloop
    obtain ⟨-, rfl⟩ := Prod.mk.inj hloop
    refine ⟨tag₁, h₁, rfl, ?_, ?_⟩
    · intro v hv
      exact absurd (hv.1.trans_lt hv.2) (not_lt.mpr hempty)
    · intro v hp _
      exact hp.edited h.image g₁ (fun hc => hc) fun hc => hc

/-- The window can be used when the first of the segments that has a page is loaded. -/
def OpensFor (im : Image) : List ProgramHeader → Vm → Prop
  | [], _ => True
  | ph :: post, s =>
    let s' := pagingSplitHugeRange im s ph.segStart ph.segEnd
    if ph.segStart < ph.segEnd then WindowOpens im s' else OpensFor im post s'

/-- So it is wherever the window has its page table. -/
theorem opensFor_there : ∀ (segs : List ProgramHeader) {s : Vm} {tag : Nat → Option Path},
    LoadSound im s roots tag → ptOf s.mem s.pml4 kernelKmapWindow ≠ none → OpensFor im segs s
  | [], _, _, _, _ => trivial
  | ph :: post, s, tag, h, hwin => by
    obtain ⟨tag₁, g₁⟩ := pagingSplitHugeRange_edited h.forest h.boot ph.segStart ph.segEnd
    obtain ⟨k, hk⟩ := Option.ne_none_iff_exists'.mp hwin
    have hwin₁ : ptOf (pagingSplitHugeRange im s ph.segStart ph.segEnd).mem
        (pagingSplitHugeRange im s ph.segStart ph.segEnd).pml4 kernelKmapWindow ≠ none := by
      rw [g₁.ptOf h.forest hk]
      exact Option.some_ne_none k
    rw [OpensFor]
    split
    · exact Or.inl hwin₁
    · exact opensFor_there post (h.edited g₁) hwin₁

/-! ### All segments -/

/-- After the loop a page has what the last segment on it puts there, or what it had before. -/
theorem loadLoop_loaded (n : Nat) : ∀ {i : Nat} {buf : Bytes.Memory} {s : Vm} {tag : Nat → Option Path},
    LoadSound im s roots tag → OpensFor im (loadHeaders fs file phoff n i buf) s →
    loadLoop im fs file bufs phoff n i buf s = (true, s') →
    (∀ v, Placed s v → (∀ ph ∈ loadHeaders fs file phoff n i buf, ¬ ph.Covers v) →
      userByte s' v = userByte s v) ∧
    ∀ pre ph post v, loadHeaders fs file phoff n i buf = pre ++ ph :: post → ph.Covers v →
      (∀ ph' ∈ post, ¬ ph'.Covers v) → ∃ k, userByte s' v = some (loadedByte fs file (bufs k) ph v) := by
  induction n with
  | zero =>
    intro i buf s tag _ _ hc
    obtain ⟨-, rfl⟩ := Prod.mk.inj hc
    refine ⟨fun _ _ _ => rfl, ?_⟩
    intro pre ph post v hsegs _ _
    rw [loadHeaders] at hsegs
    simp at hsegs
  | succ n ih =>
    intro i buf s tag h ho hc
    rw [loadLoop] at hc
    dsimp only at hc
    split at hc
    · cases hc
    rw [loadHeaders] at ho ⊢
    set buf' := store buf 0 (readHeader fs file phoff i).2
    split at hc
    · next hno =>
      rw [if_neg hno, List.nil_append] at ho ⊢
      exact ih h ho hc
    next hload =>
    rw [not_not] at hload
    rw [if_pos hload, List.singleton_append] at ho ⊢
    rw [OpensFor] at ho
    rcases hm : elfMapSegment im fs file (bufs i) (programHeader buf') s with ⟨_ | _, s₁⟩
    · rw [hm] at hc
      cases hc
    rw [hm] at hc
    obtain ⟨tag₁, h₁, hwin₁, hloaded⟩ := elfMapSegment_loaded h (fun hp => by rwa [if_pos hp] at ho) hm
    have ho₁ : OpensFor im (loadHeaders fs file phoff n (i + 1) buf') s₁ := by
      split at hwin₁
      · exact opensFor_there _ h₁ hwin₁
      · next hempty =>
        rwa [if_neg hempty, ← hwin₁] at ho
    obtain ⟨hkeep, hlast⟩ := ih h₁ ho₁ hc
    constructor
    · intro v hp hnone
      rw [List.forall_mem_cons] at hnone
      obtain ⟨hp₁, hsame⟩ := hloaded.others v hp hnone.1
      exact (hkeep v hp₁ hnone.2).trans hsame
    · intro pre ph post v hsegs hcov hpost
      cases pre with
      | nil =>
        -- this segment is the last one on the page
        obtain ⟨rfl, rfl⟩ := List.cons.inj hsegs
        obtain ⟨hp₁, hbyte⟩ := hloaded.mine v hcov
        exact ⟨i, (hkeep v hp₁ hpost).trans hbyte⟩
      | cons first pre => exact hlast pre ph post v (List.cons.inj hsegs).2 hcov hpost

/-- An `elf_load` that works has gone through the program headers. -/
theorem elfLoad_loop (hc : elfLoad im fs file bufs hdr buf s = (some entry, s')) : ∃ phoff n,
    ptLoads fs file hdr buf = loadHeaders fs file phoff n 0 buf ∧
      loadLoop im fs file bufs phoff n 0 buf s = (true, s') := by
  rw [elfLoad] at hc
  dsimp only at hc
  split at hc
  · cases hc
  split at hc
  · cases hc
  rcases hl : loadLoop im fs file bufs (elfHeader (store hdr 0 (vfsReadAt file 0 64 fs).2)).ePhoff
    (elfHeader (store hdr 0 (vfsReadAt file 0 64 fs).2)).ePhnum 0 buf s with ⟨_ | _, s₁⟩
  · rw [hl] at hc
    cases hc
  rw [hl] at hc
  obtain ⟨-, rfl⟩ := Prod.mk.inj hc
  exact ⟨_, _, rfl, hl⟩

/-- The file's part of a page that a segment has is read as a whole. -/
theorem loadedByte_image (hfile : fs.inodes p = ⟨mode, data.length, .file data⟩) (hin : ph.Inside data.length)
    (hcov : ph.Covers v) : loadedByte fs (some p) kbuf ph v = imageByte data ph v := by
  have hpage : pageOf v ≤ v := Nat.div_mul_le_self v pageSize
  have hwhole := Inside.readsWhole hfile hin (pageOf v) (Nat.mul_mod_left ..)
    (Nat.mul_le_mul_right _ ((Nat.le_div_iff_mul_le pageSize_pos).mpr hcov.1)) (hpage.trans_lt hcov.2)
  rw [loadedByte_whole hwhole, segmentByte_image hfile hin]

/-- After `elf_load` an address holds what the last segment on its page says: the file's byte, or zero. -/
theorem loaded_image (him : im.kernelEnd ≤ userImagePhysStart) (h : LoadReach im s roots)
    (hwin : OpensFor im (ptLoads fs (some p) hdr buf) s)
    (hfile : fs.inodes p = ⟨mode, data.length, .file data⟩)
    (hc : elfLoad im fs (some p) bufs hdr buf s = (some entry, s'))
    (hsegs : ptLoads fs (some p) hdr buf = pre ++ ph :: post) (hin : ph.Inside data.length)
    (hcov : ph.Covers v) (hlast : ∀ ph' ∈ post, ¬ ph'.Covers v) :
    userByte s' v = some (imageByte data ph v) := by
  obtain ⟨tag, hs⟩ := h.sound him
  obtain ⟨phoff, n, hheaders, hl⟩ := elfLoad_loop hc
  rw [hheaders] at hwin hsegs
  obtain ⟨-, hbyte⟩ := loadLoop_loaded _ hs hwin hl
  obtain ⟨k, hbyte⟩ := hbyte pre ph post v hsegs hcov hlast
  rw [hbyte, loadedByte_image hfile hin hcov]

/-! ### A program that maps its whole file -/

/-- A program with one segment, the page at 4 MiB, that begins with the file's bytes. -/
def fileProgram : List UInt8 :=
  [0x7f, 0x45, 0x4c, 0x46, 2, 1] ++ List.replicate 10 0 ++ leBytes 2 2 ++ leBytes 2 0x3e ++ leBytes 4 1 ++
    leBytes 8 0x400000 ++ leBytes 8 64 ++ leBytes 8 0 ++ leBytes 4 0 ++ leBytes 2 64 ++ leBytes 2 56 ++
    leBytes 2 1 ++ leBytes 6 0 ++ leBytes 4 1 ++ leBytes 4 5 ++ leBytes 8 0 ++ leBytes 8 0x400000 ++
    leBytes 8 0x400000 ++ leBytes 8 120 ++ leBytes 8 0x1000 ++ leBytes 8 0x1000

/-- That segment. -/
def fileSegment : ProgramHeader := ⟨5, 0, 0x400000, 120, 0x1000⟩

/-- It loads wherever the segment does. -/
theorem fileProgram_loads (bufs : Nat → Nat → Bytes.Memory)
    (hm : elfMapSegment im (oneFile fileProgram) (some 1) (bufs 0) fileSegment s = (true, s')) :
    ptLoads (oneFile fileProgram) (some 1) (fun _ => 0) (fun _ => 0) = [fileSegment] ∧
    elfLoad im (oneFile fileProgram) (some 1) bufs (fun _ => 0) (fun _ => 0) s = (some 0x400000, s') := by
  have hread : vfsReadAt (some 1) 0 64 (oneFile fileProgram) = (64, (fileProgram.drop 0).take 64) := by
    rw [readAt_oneFile, show ((fileProgram.drop 0).take 64).length = 64 from rfl]
    rfl
  have hreadph : readHeader (oneFile fileProgram) (some 1) 64 0 = (56, (fileProgram.drop 64).take 56) := by
    rw [readHeader, show u64 (64 + 0 * 56) = 64 from rfl, readAt_oneFile,
      show ((fileProgram.drop 64).take 56).length = 56 from rfl]
    rfl
  have hhdr : elfHeader (store (fun _ => 0) 0 ((fileProgram.drop 0).take 64)) =
      ⟨[0x7f, 0x45, 0x4c, 0x46, 2, 1] ++ List.replicate 10 0, 2, 0x3e, 0x400000, 64, 1⟩ := rfl
  have htype : headerType (store (fun _ => 0) 0 ((fileProgram.drop 64).take 56)) = 1 := rfl
  have hph : programHeader (store (fun _ => 0) 0 ((fileProgram.drop 64).take 56)) = fileSegment := rfl
  constructor
  · rw [ptLoads, hread]
    simp only [hhdr, loadHeaders, hreadph, htype, hph, if_true, List.append_nil]
  · rw [elfLoad, hread]
    simp only [hhdr, loadLoop, hreadph, htype, hph, hm]
    rfl

/-- It loads right after the start of a machine with enough memory. -/
theorem fileProgram_most (bufs : Nat → Nat → Bytes.Memory) :
    ptLoads (oneFile fileProgram) (some 1) (fun _ => 0) (fun _ => 0) = [fileSegment] ∧
      OpensFor smallImage [fileSegment] mostVm ∧
      ∃ s', elfLoad smallImage (oneFile fileProgram) (some 1) bufs (fun _ => 0) (fun _ => 0) mostVm =
        (some 0x400000, s') := by
  obtain ⟨hopens, s', hm, -⟩ := @segment_loads_most (oneFile fileProgram) (some 1) fileSegment (bufs 0) rfl rfl
    (by rw [readPage, readAt_oneFile]; exact Int.natCast_nonneg _)
  obtain ⟨hsegs, hcall⟩ := fileProgram_loads bufs hm
  refine ⟨hsegs, ?_, s', hcall⟩
  rw [OpensFor, if_pos (by decide)]
  exact hopens

/-- The second byte of the program is the `E` of its file. -/
theorem loaded_image_magic : ∃ s', LoadReach smallImage mostVm [smallImage.pmlTable] ∧
    elfLoad smallImage (oneFile fileProgram) (some 1) (fun _ _ _ => 0xaa) (fun _ => 0) (fun _ => 0) mostVm =
      (some 0x400000, s') ∧ userByte s' 0x400001 = some 0x45 := by
  have hreach : LoadReach smallImage mostVm [smallImage.pmlTable] := TableReach.init _ _
  obtain ⟨hsegs, hopens, s', hcall⟩ := fileProgram_most fun _ _ _ => 0xaa
  refine ⟨s', hreach, hcall, ?_⟩
  have hcov : fileSegment.Covers 0x400001 := ⟨by decide, by decide⟩
  exact loaded_image (by decide) hreach (by rw [hsegs]; exact hopens) rfl hcall
    (hsegs.trans (List.nil_append _).symm) ⟨by decide, by decide, by decide⟩ hcov (by simp)

end TypeOS.Elf
