import TypeOS.Elf.Image

/-! What a program header asks for, and when `elf_load` does it.

    The bytes that a program header names are to be in the memory of the program, and zeros after them up
    to `p_memsz`. `elf_map_segment` clears each page before it fills it, does not notice that the file ends
    before `p_offset + p_filesz`, and takes a range that goes round the address space for an empty one. So
    the range is as named exactly if none of that comes in, and only zeros of it are on the pages of later
    segments. -/

namespace TypeOS.Elf

open Paging Sys
open Fs (Vfs Ptr vfsReadAt)
open Bytes (store load leBytes)

/-- The addresses that a program header names. -/
def ProgramHeader.Range (ph : ProgramHeader) (v : Nat) : Prop :=
  ph.pVaddr ≤ v ∧ v < ph.pVaddr + max ph.pFilesz ph.pMemsz

/-- The memory of a program is what a program header says: the file has the bytes it names, and in its range,
    which is the program's and in the memory for fixed images, they are found, and zeros after them. -/
structure AsNamed (s : Vm) (data : List UInt8) (ph : ProgramHeader) : Prop where
  present : ph.pOffset + ph.pFilesz ≤ data.length
  inside : userImagePhysStart ≤ ph.pVaddr ∧ ph.pVaddr + max ph.pFilesz ph.pMemsz ≤ userImagePhysEnd
  mapped : ∀ v, ph.Range v → ∃ e, walk s.mem s.pml4 v = some (e, true)
  bytes : ∀ v, ph.Range v → userByte s v = some (imageByte data ph v)

variable {im : Image} {fs : Vfs} {file : Option Ptr} {bufs : Nat → Nat → Bytes.Memory} {ph : ProgramHeader}
  {hdr buf : Bytes.Memory} {s s' : Vm} {tag : Nat → Option Path} {roots : List Nat} {data : List UInt8}
  {mode : BitVec 32} {p : Ptr} {v phoff entry : Nat} {pre post : List ProgramHeader}

/-! ### The last segment on a page -/

/-- One of the segments on a page is the last. -/
theorem exists_last : ∀ {segs : List ProgramHeader}, (∃ ph ∈ segs, ph.Covers v) →
    ∃ pre ph post, segs = pre ++ ph :: post ∧ ph.Covers v ∧ ∀ q ∈ post, ¬ q.Covers v
  | [], h => by simp at h
  | ph :: post, h => by
    by_cases hlater : ∃ q ∈ post, q.Covers v
    · obtain ⟨pre, q, post', rfl, hcov, hlast⟩ := exists_last hlater
      exact ⟨ph :: pre, q, post', rfl, hcov, hlast⟩
    · have hlast : ∀ q ∈ post, ¬ q.Covers v := fun q hq hc => hlater ⟨q, hq, hc⟩
      obtain ⟨q, hq, hcov⟩ := h
      rcases List.mem_cons.mp hq with rfl | hq
      · exact ⟨[], q, post, rfl, hcov, hlast⟩
      · exact absurd hcov (hlast q hq)

/-- Outside its range a segment puts zeros on its pages, also if the file is too short. -/
theorem loadedByte_outside {kbuf : Nat → Bytes.Memory} (hv : ¬ ph.Range v) : loadedByte fs file kbuf ph v = 0 := by
  rw [loadedByte, if_neg]
  rintro ⟨hlo, hhi⟩
  refine hv ⟨(le_copyStart ph _).trans hlo, ?_⟩
  have hend : ph.copyEnd (pageOf v) ≤ ph.pVaddr + ph.pFilesz := by
    have hmod : ph.fileEnd ≤ ph.pVaddr + ph.pFilesz := Nat.mod_le ..
    rw [ProgramHeader.copyEnd]
    split <;> omega
  omega

/-! ### The range of a program header -/

/-- A range that does not go round the address space ends on the segment's pages. -/
theorem range_end (hwrap : ph.pVaddr + ph.pMemsz + pageSize ≤ 2 ^ 64)
    (hfits : ph.pVaddr + ph.pFilesz ≤ ph.segEnd) : ph.pVaddr + max ph.pFilesz ph.pMemsz ≤ ph.segEnd := by
  have hend : ph.pVaddr + ph.pMemsz ≤ ph.segEnd := by
    rw [ProgramHeader.segEnd, u64_of_lt (by simp only [pageSize] at *; omega)]
    simp only [pageOf, pageSize] at *
    omega
  omega

theorem range_covers (hwrap : ph.pVaddr + ph.pMemsz + pageSize ≤ 2 ^ 64)
    (hfits : ph.pVaddr + ph.pFilesz ≤ ph.segEnd) (hv : ph.Range v) : ph.Covers v :=
  ⟨(Nat.div_mul_le_self ..).trans hv.1, hv.2.trans_le (range_end hwrap hfits)⟩

/-- Each segment of a program that is loaded was loaded. -/
theorem loadLoop_segments (n : Nat) : ∀ {i : Nat} {buf : Bytes.Memory} {s : Vm},
    loadLoop im fs file bufs phoff n i buf s = (true, s') →
    ∀ ph ∈ loadHeaders fs file phoff n i buf, ∃ k s₁ s₂,
      elfMapSegment im fs file (bufs k) ph s₁ = (true, s₂) := by
  induction n with
  | zero =>
    intro i buf s _ ph hph
    cases hph
  | succ n ih =>
    intro i buf s hc
    rw [loadLoop] at hc
    dsimp only at hc
    split at hc
    · cases hc
    rw [loadHeaders]
    set buf' := store buf 0 (readHeader fs file phoff i).2
    split at hc
    · next hno =>
      rw [if_neg hno, List.nil_append]
      exact ih hc
    next hload =>
    rw [not_not] at hload
    rw [if_pos hload, List.singleton_append, List.forall_mem_cons]
    rcases hm : elfMapSegment im fs file (bufs i) (programHeader buf') s with ⟨_ | _, s₁⟩
    · rw [hm] at hc
      cases hc
    rw [hm] at hc
    exact ⟨⟨i, s, s₁, hm⟩, ih hc⟩

/-- Where the window can be used, the range of a program header that no later segment's range meets is as
    named exactly if the file has its bytes, it does not go round the address space, and there are only
    zeros to be where a later segment has one of its pages. -/
theorem as_named_iff (him : im.kernelEnd ≤ userImagePhysStart) (h : LoadReach im s roots)
    (hwin : OpensFor im (ptLoads fs (some p) hdr buf) s)
    (hfile : fs.inodes p = ⟨mode, data.length, .file data⟩) (hsize : data.length ≤ 2 ^ 63)
    (hc : elfLoad im fs (some p) bufs hdr buf s = (some entry, s'))
    (hsegs : ptLoads fs (some p) hdr buf = pre ++ ph :: post)
    (hdisjoint : ∀ q ∈ post, ∀ v, ph.Range v → ¬ q.Range v) (hfits : ph.pVaddr + ph.pFilesz ≤ ph.segEnd) :
    AsNamed s' data ph ↔ ph.pOffset + ph.pFilesz ≤ data.length ∧ ph.pVaddr + ph.pMemsz + pageSize ≤ 2 ^ 64 ∧
      ∀ v, ph.Range v → (∃ q ∈ post, q.Covers v) → imageByte data ph v = 0 := by
  obtain ⟨tag, hs⟩ := h.sound him
  obtain ⟨phoff, n, hheaders, hl⟩ := elfLoad_loop hc
  rw [hheaders] at hwin hsegs
  have hmem : ph ∈ loadHeaders fs (some p) phoff n 0 buf := by
    rw [hsegs]
    exact List.mem_append_right _ (List.mem_cons_self ..)
  obtain ⟨k, s₁, s₂, hm⟩ := loadLoop_segments n hl ph hmem
  obtain ⟨hlo, hhi, -⟩ := elfMapSegment_loop hm
  obtain ⟨-, hbyte⟩ := loadLoop_loaded _ hs hwin hl
  -- what a later segment puts in the range
  have hshared : ∀ v, ph.Range v → (∃ q ∈ post, q.Covers v) → userByte s' v = some 0 := by
    intro v hv hq
    obtain ⟨mid, q, post', rfl, hcov, hlast⟩ := exists_last hq
    obtain ⟨k, hput⟩ := hbyte (pre ++ ph :: mid) q post' v (by rw [hsegs]; simp) hcov hlast
    have hout := hdisjoint q (List.mem_append_right _ (List.mem_cons_self ..)) v hv
    rw [hput, loadedByte_outside hout]
  constructor
  · intro hnamed
    have hwrap : ph.pVaddr + ph.pMemsz + pageSize ≤ 2 ^ 64 := by
      have := hnamed.inside.2
      simp only [userImagePhysEnd, pageSize] at *
      omega
    refine ⟨hnamed.present, hwrap, fun v hv hq => ?_⟩
    have hsame := hnamed.bytes v hv
    rw [hshared v hv hq, Option.some.injEq] at hsame
    exact hsame.symm
  · rintro ⟨hbytes, hwrap, hzero⟩
    have hin : ph.Inside data.length := ⟨hbytes, hsize, by
      simp only [userImagePhysEnd] at hhi
      omega⟩
    have hcov := fun v => @range_covers ph v hwrap hfits
    obtain ⟨tag', -, -, hwritable⟩ := loadLoop_writable n hs hl
    refine ⟨hbytes, ⟨hlo.trans (Nat.div_mul_le_self ..), (range_end hwrap hfits).trans hhi⟩,
      fun v hv => ?_, fun v hv => ?_⟩
    · obtain ⟨e, hw, -⟩ := hwritable ph hmem v (hcov v hv)
      exact ⟨e, hw⟩
    · by_cases hq : ∃ q ∈ post, q.Covers v
      · rw [hshared v hv hq, hzero v hv hq]
      · obtain ⟨k, hput⟩ := hbyte pre ph post v hsegs (hcov v hv) fun q hq' hc => hq ⟨q, hq', hc⟩
        rw [hput, loadedByte_image hfile hin (hcov v hv)]

/-! ### A program with two segments in one page -/

/-- A program whose two segments have four bytes each of the page at 4 MiB. -/
def pairProgram : List UInt8 :=
  [0x7f, 0x45, 0x4c, 0x46, 2, 1] ++ List.replicate 10 0 ++ leBytes 2 2 ++ leBytes 2 0x3e ++ leBytes 4 1 ++
    leBytes 8 0x400000 ++ leBytes 8 64 ++ leBytes 8 0 ++ leBytes 4 0 ++ leBytes 2 64 ++ leBytes 2 56 ++
    leBytes 2 2 ++ leBytes 6 0 ++
    leBytes 4 1 ++ leBytes 4 5 ++ leBytes 8 0 ++ leBytes 8 0x400000 ++ leBytes 8 0x400000 ++ leBytes 8 4 ++
    leBytes 8 4 ++ leBytes 8 0x1000 ++
    leBytes 4 1 ++ leBytes 4 6 ++ leBytes 8 0 ++ leBytes 8 0x400800 ++ leBytes 8 0x400800 ++ leBytes 8 4 ++
    leBytes 8 4 ++ leBytes 8 0x1000

/-- Its segments: the program at the page's start, and its data in the middle. -/
def codeSegment : ProgramHeader := ⟨5, 0, 0x400000, 4, 4⟩

def dataSegment : ProgramHeader := ⟨6, 0, 0x400800, 4, 4⟩

/-- A program header that is read as a whole says the same whatever the buffer held. -/
theorem header_whole {bytes : List UInt8} (h : bytes.length = 56) (mem mem' : Bytes.Memory) :
    headerType (store mem 0 bytes) = headerType (store mem' 0 bytes) ∧
      programHeader (store mem 0 bytes) = programHeader (store mem' 0 bytes) := by
  have hload : ∀ k n, k + n ≤ 56 → load (store mem 0 bytes) k n = load (store mem' 0 bytes) k n := by
    intro k n hkn
    refine Bytes.load_congr fun i hi => ?_
    have hin : k + i < bytes.length := by omega
    rw [← Nat.zero_add (k + i), Bytes.store_get hin, Bytes.store_get hin]
  constructor
  · rw [headerType, headerType, hload _ _ (by decide)]
  · simp only [programHeader, hload _ _ (by decide : 4 + 4 ≤ 56), hload _ _ (by decide : 8 + 8 ≤ 56),
      hload _ _ (by decide : 16 + 8 ≤ 56), hload _ _ (by decide : 32 + 8 ≤ 56),
      hload _ _ (by decide : 40 + 8 ≤ 56)]

theorem pairProgram_loads (bufs : Nat → Nat → Bytes.Memory) {s₁ : Vm}
    (hcode : elfMapSegment im (oneFile pairProgram) (some 1) (bufs 0) codeSegment s = (true, s₁))
    (hdata : elfMapSegment im (oneFile pairProgram) (some 1) (bufs 1) dataSegment s₁ = (true, s')) :
    ptLoads (oneFile pairProgram) (some 1) (fun _ => 0) (fun _ => 0) = [codeSegment, dataSegment] ∧
    elfLoad im (oneFile pairProgram) (some 1) bufs (fun _ => 0) (fun _ => 0) s = (some 0x400000, s') := by
  have hread : vfsReadAt (some 1) 0 64 (oneFile pairProgram) = (64, (pairProgram.drop 0).take 64) := by
    rw [readAt_oneFile, show ((pairProgram.drop 0).take 64).length = 64 from rfl]
    rfl
  have hread₀ : readHeader (oneFile pairProgram) (some 1) 64 0 = (56, (pairProgram.drop 64).take 56) := by
    rw [readHeader, show u64 (64 + 0 * 56) = 64 from rfl, readAt_oneFile,
      show ((pairProgram.drop 64).take 56).length = 56 from rfl]
    rfl
  have hread₁ : readHeader (oneFile pairProgram) (some 1) 64 1 = (56, (pairProgram.drop 120).take 56) := by
    rw [readHeader, show u64 (64 + 1 * 56) = 120 from rfl, readAt_oneFile,
      show ((pairProgram.drop 120).take 56).length = 56 from rfl]
    rfl
  have hhdr : elfHeader (store (fun _ => 0) 0 ((pairProgram.drop 0).take 64)) =
      ⟨[0x7f, 0x45, 0x4c, 0x46, 2, 1] ++ List.replicate 10 0, 2, 0x3e, 0x400000, 64, 2⟩ := rfl
  have htype₀ : headerType (store (fun _ => 0) 0 ((pairProgram.drop 64).take 56)) = 1 := rfl
  have hph₀ : programHeader (store (fun _ => 0) 0 ((pairProgram.drop 64).take 56)) = codeSegment := rfl
  obtain ⟨htype₁, hph₁⟩ := header_whole (show ((pairProgram.drop 120).take 56).length = 56 from rfl)
    (store (fun _ => 0) 0 ((pairProgram.drop 64).take 56)) fun _ => 0
  rw [show headerType (store (fun _ => 0) 0 ((pairProgram.drop 120).take 56)) = 1 from rfl] at htype₁
  rw [show programHeader (store (fun _ => 0) 0 ((pairProgram.drop 120).take 56)) = dataSegment from rfl] at hph₁
  constructor
  · rw [ptLoads, hread]
    simp only [hhdr, loadHeaders, hread₀, hread₁, htype₀, hph₀, htype₁, hph₁, if_true, List.append_nil,
      Nat.zero_add, List.singleton_append]
  · rw [elfLoad, hread]
    simp only [hhdr, loadLoop, hread₀, hread₁, htype₀, hph₀, htype₁, hph₁, hcode, hdata, Nat.zero_add]
    rfl

/-- A segment of a page that is there is loaded, where the window has its page table. -/
theorem segment_again (kbuf : Nat → Bytes.Memory) (h : LoadSound im s roots tag)
    (hwin : ptOf s.mem s.pml4 kernelKmapWindow ≠ none) (hpage : ptOf s.mem s.pml4 0x400000 ≠ none)
    (hstart : ph.segStart = 0x400000) (hend : ph.segEnd = 0x401000)
    (hread : 0 ≤ (readPage fs file ph 0x400000).1) : ∃ s', elfMapSegment im fs file kbuf ph s = (true, s') := by
  obtain ⟨tag₁, g₁⟩ := pagingSplitHugeRange_edited h.forest h.boot ph.segStart ph.segEnd
  have h₁ := h.edited g₁
  have hkeep : ∀ v, ptOf s.mem s.pml4 v ≠ none →
      ptOf (pagingSplitHugeRange im s ph.segStart ph.segEnd).mem
        (pagingSplitHugeRange im s ph.segStart ph.segEnd).pml4 v ≠ none := by
    intro v hv
    obtain ⟨k, hk⟩ := Option.ne_none_iff_exists'.mp hv
    rw [g₁.ptOf h.forest hk]
    exact Option.some_ne_none k
  have hok := @segmentLoop_ok im fs file kbuf ph 1 1024 _ tag₁ h₁.forest h₁.image
    (hstart.le.trans (by decide)) (by decide) (by decide) (h₁.dirs _ h₁.root) (Or.inl (hkeep _ hwin))
    fun k hk => by
      obtain rfl : k = 0 := by omega
      exact ⟨hkeep _ hpage, hread⟩
  refine ⟨_, Prod.ext ?_ rfl⟩
  rw [elfMapSegment, hstart, hend, if_neg (by decide)]
  rw [hstart, hend] at hok
  exact hok

/-- The program loads right after the start of a machine with enough memory; where its second byte is to be,
    the data's page has a zero. -/
theorem pairProgram_most :
    ptLoads (oneFile pairProgram) (some 1) (fun _ => 0) (fun _ => 0) = [codeSegment, dataSegment] ∧
      OpensFor smallImage [codeSegment, dataSegment] mostVm ∧
      ∃ s', elfLoad smallImage (oneFile pairProgram) (some 1) (fun _ _ _ => 0xaa) (fun _ => 0) (fun _ => 0)
        mostVm = (some 0x400000, s') ∧ userByte s' 0x400001 = some 0 := by
  have hreach : LoadReach smallImage mostVm [smallImage.pmlTable] := TableReach.init _ _
  obtain ⟨tag, hs⟩ := hreach.sound (by decide)
  have hread : ∀ ph : ProgramHeader, 0 ≤ (readPage (oneFile pairProgram) (some 1) ph 0x400000).1 := by
    intro ph
    rw [readPage, readAt_oneFile]
    exact Int.natCast_nonneg _
  obtain ⟨hopens, s₁, hcode, -⟩ := @segment_loads_most (oneFile pairProgram) (some 1) codeSegment
    (fun _ _ => 0xaa) rfl rfl (hread _)
  obtain ⟨tag₁, h₁, hwin, -⟩ := elfMapSegment_loaded hs (fun _ => hopens) hcode
  rw [if_pos (by decide)] at hwin
  have hpage : ptOf s₁.mem s₁.pml4 0x400000 ≠ none := by
    obtain ⟨pt, he, ht⟩ := early_init smallImage (fun _ _ => 0#64) mostMemory
    obtain ⟨t, htab⟩ := Option.isSome_iff_exists.mp <| (ht (pdIndex 0x400000)).mpr <| by
      rw [initTables_most, (low_index (by decide)).2.2]
      decide
    obtain ⟨tag₁, g, -⟩ := elfMapSegment_edited hs.forest hs.image hs.boot hcode
    rw [g.ptOf hs.forest (he.ptOf (by decide) htab)]
    exact Option.some_ne_none t
  obtain ⟨s', hdata⟩ : ∃ s', elfMapSegment smallImage (oneFile pairProgram) (some 1) (fun _ _ => 0xaa)
    dataSegment s₁ = (true, s') := segment_again _ h₁ hwin hpage rfl rfl (hread _)
  obtain ⟨hsegs, hcall⟩ := pairProgram_loads (fun _ _ _ => 0xaa) hcode hdata
  refine ⟨hsegs, ?_, s', hcall, ?_⟩
  · rw [OpensFor, if_pos (by decide)]
    exact hopens
  · have hopens₁ := @opensFor_there smallImage _ [dataSegment] s₁ tag₁ h₁ hwin
    rw [OpensFor, if_pos (by decide)] at hopens₁
    obtain ⟨-, -, -, hloaded⟩ := elfMapSegment_loaded h₁ (fun _ => hopens₁) hdata
    have hout : ¬ dataSegment.Range 0x400001 := fun hv => absurd hv.1 (by decide)
    rw [(hloaded.mine 0x400001 ⟨by decide, by decide⟩).2, loadedByte_outside hout]

theorem pairProgram_disjoint (v : Nat) (hcode : codeSegment.Range v) : ¬ dataSegment.Range v := by
  obtain ⟨-, hlt⟩ := hcode
  rintro ⟨hge, -⟩
  simp only [codeSegment, dataSegment] at hlt hge
  omega

theorem pairProgram_byte : codeSegment.Range 0x400001 ∧ imageByte pairProgram codeSegment 0x400001 = 0x45 := by
  refine ⟨⟨by decide, by decide⟩, ?_⟩
  rw [imageByte, if_pos (by decide)]
  rfl

/-- Its data is as named, and the program is not. -/
theorem as_named_iff_pair : ∃ s', LoadReach smallImage mostVm [smallImage.pmlTable] ∧
    elfLoad smallImage (oneFile pairProgram) (some 1) (fun _ _ _ => 0xaa) (fun _ => 0) (fun _ => 0) mostVm =
      (some 0x400000, s') ∧ AsNamed s' pairProgram dataSegment ∧ ¬ AsNamed s' pairProgram codeSegment := by
  have hreach : LoadReach smallImage mostVm [smallImage.pmlTable] := TableReach.init _ _
  obtain ⟨hsegs, hopens, s', hcall, -⟩ := pairProgram_most
  have hlen : pairProgram.length = 176 := rfl
  have hsize : pairProgram.length ≤ 2 ^ 63 := hlen.trans_le (by decide)
  refine ⟨s', hreach, hcall, ?_, ?_⟩
  · exact (as_named_iff (by decide) hreach (by rw [hsegs]; exact hopens) rfl hsize hcall
      (hsegs.trans (List.singleton_append ..).symm) (by simp) (by decide)).mpr
      ⟨by rw [hlen]; decide, by decide, by simp⟩
  · intro hnamed
    have hzero := ((as_named_iff (by decide) hreach (by rw [hsegs]; exact hopens) rfl hsize hcall
      (hsegs.trans (List.nil_append _).symm) (by simpa using pairProgram_disjoint) (by decide)).mp hnamed).2.2
    obtain ⟨hv, hbyte⟩ := pairProgram_byte
    have := hzero 0x400001 hv ⟨dataSegment, List.mem_singleton_self _, by decide, by decide⟩
    rw [hbyte] at this
    cases this

/-- The program's second byte is lost, though the two ranges have no address in common. -/
theorem shared_page_lost : ∃ s', LoadReach smallImage mostVm [smallImage.pmlTable] ∧
    elfLoad smallImage (oneFile pairProgram) (some 1) (fun _ _ _ => 0xaa) (fun _ => 0) (fun _ => 0) mostVm =
      (some 0x400000, s') ∧
    ptLoads (oneFile pairProgram) (some 1) (fun _ => 0) (fun _ => 0) = [codeSegment, dataSegment] ∧
    (∀ v, codeSegment.Range v → ¬ dataSegment.Range v) ∧ codeSegment.Range 0x400001 ∧
    imageByte pairProgram codeSegment 0x400001 = 0x45 ∧ userByte s' 0x400001 = some 0 ∧
    ¬ AsNamed s' pairProgram codeSegment := by
  obtain ⟨hsegs, -, s', hcall, hzero⟩ := pairProgram_most
  obtain ⟨hv, hbyte⟩ := pairProgram_byte
  refine ⟨s', TableReach.init _ _, hcall, hsegs, pairProgram_disjoint, hv, hbyte, hzero, fun hnamed => ?_⟩
  have := hnamed.bytes _ hv
  rw [hzero, hbyte] at this
  cases this

end TypeOS.Elf
