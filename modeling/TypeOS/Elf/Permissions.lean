import TypeOS.Elf.Clean
import TypeOS.Sys.Usable

/-! What a program may write to (`elf_load`).

    `elf_segment_flags` asks for a writable page where the segment has `PF_W`, but
    `paging_promote_user_identity` sets `PAGE_WRITABLE` whatever it is asked for, and no entry above is
    ever read-only. So each page of a loaded segment can be written by the program, and a segment that was
    meant to be read-only is not. -/

namespace TypeOS.Elf

open Paging Sys Radix
open Fs (Vfs Ptr vfsReadAt vfsReadAt_spec)
open Bytes (load store leNat leBytes)

/-- `e_ident`, `e_type`, `e_machine`, `e_entry`, `e_phoff` and `e_phnum` of a `struct elf64_hdr`. -/
structure ElfHeader where
  eIdent : List UInt8
  eType : Nat
  eMachine : Nat
  eEntry : Nat
  ePhoff : Nat
  ePhnum : Nat

/-- The header in a buffer. -/
def elfHeader (buf : Bytes.Memory) : ElfHeader where
  eIdent := load buf 0 16
  eType := leNat (load buf 16 2)
  eMachine := leNat (load buf 18 2)
  eEntry := leNat (load buf 24 8)
  ePhoff := leNat (load buf 32 8)
  ePhnum := leNat (load buf 56 2)

/-- `p_type` of a `struct elf64_phdr`. -/
def headerType (buf : Bytes.Memory) : Nat := leNat (load buf 0 4)

/-- What `elf_map_segment` reads of the program header in a buffer. -/
def programHeader (buf : Bytes.Memory) : ProgramHeader where
  pFlags := leNat (load buf 4 4)
  pOffset := leNat (load buf 8 8)
  pVaddr := leNat (load buf 16 8)
  pFilesz := leNat (load buf 32 8)
  pMemsz := leNat (load buf 40 8)

/-- `elf_check_hdr`; `true` is 0. -/
def elfCheckHdr (hdr : ElfHeader) : Bool :=
  if hdr.eIdent.getD 0 0 ≠ 0x7f ∨ hdr.eIdent.getD 1 0 ≠ 0x45 ∨ hdr.eIdent.getD 2 0 ≠ 0x4c ∨
      hdr.eIdent.getD 3 0 ≠ 0x46 then false
  else if hdr.eIdent.getD 4 0 ≠ 2 ∨ hdr.eIdent.getD 5 0 ≠ 1 then false
  else if hdr.eType ≠ 2 ∧ hdr.eType ≠ 3 then false
  else if hdr.eMachine ≠ 0x3e then false
  else true

section

variable (im : Image) (fs : Vfs) (file : Option Ptr) (kbuf : Nat → Nat → Bytes.Memory)

/-- The `i`-th program header, as `vfs_read_at` gives it. -/
def readHeader (phoff i : Nat) : Int × List UInt8 := vfsReadAt file (u64 (phoff + i * 56)) 56 fs

/-- The loop of `elf_load`: `n` program headers from the `i`-th on, read to the buffer `ph`. -/
def loadLoop (phoff : Nat) : Nat → Nat → Bytes.Memory → Vm → Bool × Vm
  | 0, _, _, s => (true, s)
  | n + 1, i, ph, s =>
    let read := readHeader fs file phoff i
    if read.1 ≠ 56 then (false, s)
    else
      let ph := store ph 0 read.2
      if headerType ph ≠ 1 then loadLoop phoff n (i + 1) ph s
      else
        match elfMapSegment im fs file (kbuf i) (programHeader ph) s with
        | (false, s) => (false, s)
        | (true, s) => loadLoop phoff n (i + 1) ph s

/-- `elf_load`, where `file` is what the path leads to, and `hdr`, `ph` and `kbuf` are what the buffers on
    the stack hold before they are read to: the entry point, or `none` for -1. -/
def elfLoad (hdr ph : Bytes.Memory) (s : Vm) : Option Nat × Vm :=
  let read := vfsReadAt file 0 64 fs
  if read.1 ≠ 64 then (none, s)
  else
    let hdr := elfHeader (store hdr 0 read.2)
    if elfCheckHdr hdr = false then (none, s)
    else
      match loadLoop im fs file kbuf hdr.ePhoff hdr.ePhnum 0 ph s with
      | (false, s) => (none, s)
      | (true, s) => (some hdr.eEntry, s)

/-- The `PT_LOAD` headers among `n` from the `i`-th on. -/
def loadHeaders (phoff : Nat) : Nat → Nat → Bytes.Memory → List ProgramHeader
  | 0, _, _ => []
  | n + 1, i, ph =>
    let ph := store ph 0 (readHeader fs file phoff i).2
    (if headerType ph = 1 then [programHeader ph] else []) ++ loadHeaders phoff n (i + 1) ph

/-- The `PT_LOAD` segments of a file. -/
def ptLoads (hdr ph : Bytes.Memory) : List ProgramHeader :=
  let hdr := elfHeader (store hdr 0 (vfsReadAt file 0 64 fs).2)
  loadHeaders fs file hdr.ePhoff hdr.ePhnum 0 ph

end

/-- The address is on one of the segment's pages, `seg_start` to `seg_end`. -/
def ProgramHeader.Covers (ph : ProgramHeader) (v : Nat) : Prop := ph.segStart ≤ v ∧ v < ph.segEnd

/-- `p_flags & PF_W`. -/
def ProgramHeader.Writable (ph : ProgramHeader) : Prop := ph.pFlags.testBit 1 = true

/-- A program can write to an address. -/
def UserWrites (s : Vm) (v : Nat) : Prop := (userWalk s true v).isSome

variable {im : Image} {fs : Vfs} {file : Option Ptr} {kbuf : Nat → Nat → Bytes.Memory}
  {ph : ProgramHeader} {hdr buf : Bytes.Memory} {s s' : Vm} {tag : Nat → Option Path}
  {roots : List Nat} {t v phoff entry : Nat} {p : Path} {e : Word} {segs : List ProgramHeader}

/-- These are the pages that some byte of the segment's memory is on. -/
theorem covers_iff (hpos : 0 < ph.pMemsz) (hend : ph.pVaddr + ph.pMemsz + pageSize ≤ 2 ^ 64) :
    ph.Covers v ↔ ∃ x, ph.pVaddr ≤ x ∧ x < ph.pVaddr + ph.pMemsz ∧ pageOf x = pageOf v := by
  rw [ProgramHeader.Covers, ProgramHeader.segStart, ProgramHeader.segEnd, u64_of_lt (by omega)]
  simp only [pageOf, pageSize] at *
  constructor
  · rintro ⟨hlo, hhi⟩
    refine ⟨max ph.pVaddr (v / 4096 * 4096), ?_⟩
    omega
  · rintro ⟨x, hlo, hhi, hx⟩
    omega

/-! ### The way down -/

/-- No entry above the last one is read-only, so the last one decides. -/
theorem userEntry_iff (h : Forest s tag) : ∀ {q : Path} {t : Nat} {p : Path}, tag t = some p →
    p.length + q.length = 4 → (userEntry true s.mem t q = some e ↔
      look translator s.mem t q = some (e, true) ∧ has e pageWritable = true)
  | [], _, _, _, _ => by simp [userEntry, look]
  | [k], t, p, ht, _ => by
    change (if permits true (s.mem t k) = true then some (s.mem t k) else none) = some e ↔
      leafEntry (s.mem t k) [] = some (e, true) ∧ _
    rw [leafEntry, permits, Bool.not_true, Bool.false_or]
    cases hpr : has (s.mem t k) pagePresent with
    | false => simp
    | true =>
      cases hu : has (s.mem t k) pageUser with
      | false => simp
      | true =>
        rw [Bool.true_and, Bool.true_and, if_pos rfl, Option.some.injEq, Prod.mk.injEq]
        constructor
        · intro hw
          split at hw
          · next hc =>
            obtain rfl := Option.some.inj hw
            exact ⟨⟨rfl, rfl⟩, hc⟩
          · cases hw
        · rintro ⟨⟨rfl, -⟩, hc⟩
          rw [if_pos hc]
  | k :: j :: q, t, p, ht, hlen => by
    have hstop := fun hn : translator.next (s.mem t k) = none =>
      show look translator s.mem t (k :: j :: q) = leafEntry (s.mem t k) (j :: q) by
        rw [look, hn]
        rfl
    cases hn : nextTable (s.mem t k) with
    | none =>
      rw [hstop hn, userEntry, hn, Option.bind_none, ite_self]
      · exact iff_of_false (Option.some_ne_none e).symm fun hc => h.huge_closed ht hlen hc.1
      · simp
    | some g =>
      have hnext : translator.next (s.mem t k) = some g := hn
      obtain ⟨hpr, -, -⟩ := nextTable_some hn
      simp only [List.length_cons] at hlen
      have hwr := h.writable t p k g ht (by omega) hn
      have ih := userEntry_iff h (h.tagged t p k g ht (by omega) hn)
        (by simp only [List.length_append, List.length_cons, List.length_nil]; omega : _ + (j :: q).length = 4)
      rw [userEntry_next hn, look, hnext, permits, hpr, hwr, Bool.true_and, Bool.or_true, Bool.and_true]
      dsimp only
      rw [Option.map_eq_some_iff]
      cases hu : has (s.mem t k) pageUser with
      | false =>
        refine iff_of_false (by simp) ?_
        rintro ⟨⟨⟨e', u⟩, -, hvia⟩, -⟩
        have hboth : (has (s.mem t k) pageUser && u) = true := (Prod.mk.inj hvia).2
        rw [hu] at hboth
        cases hboth
      | true =>
        rw [if_pos rfl, ih]
        constructor
        · rintro ⟨hl, hw⟩
          exact ⟨⟨(e, true), hl, by simp only [translator, hu, Bool.and_self]⟩, hw⟩
        · rintro ⟨⟨⟨e', u⟩, hl, hvia⟩, hw⟩
          simp only [translator, hu, Bool.true_and, Prod.mk.injEq] at hvia
          rw [hvia.1, hvia.2] at hl
          exact ⟨hl, hw⟩

theorem userWrites_iff (h : Forest s tag) : UserWrites s v ↔ UserWritable s v := by
  rw [UserWrites, userWalk, Option.isSome_map, Option.isSome_iff_exists]
  exact exists_congr fun e => userEntry_iff h h.root rfl

/-! ### One segment -/

theorem UserWritable.same_page {u : Nat} (h : UserWritable s u) (hv : pathOf v = pathOf u) :
    UserWritable s v := by
  obtain ⟨e, hw, he⟩ := h
  exact ⟨e, (walk_page hv).trans hw, he⟩

/-- A segment that is loaded can be written to, and what could be written to before still can. -/
theorem elfMapSegment_writable {kbuf : Nat → Bytes.Memory} (h : LoadSound im s roots tag)
    (hc : elfMapSegment im fs file kbuf ph s = (true, s')) : ∃ tag', LoadSound im s' roots tag' ∧
      (∀ v < userImagePhysEnd, UserWritable s v → UserWritable s' v) ∧
      ∀ v, ph.Covers v → v < userImagePhysEnd ∧ UserWritable s' v := by
  obtain ⟨tag', g, hopened, -⟩ := elfMapSegment_edited h.forest h.image h.boot hc
  refine ⟨tag', h.edited g, fun v hv hw => ?_, fun v ⟨hlo, hhi⟩ => ⟨?_, hopened rfl v hlo hhi⟩⟩
  · by_cases hin : PageIn ph.segStart ((ph.segEnd - ph.segStart) / pageSize) (pathOf v)
    · -- a page that is loaded again is opened again
      rcases hin with hwin | ⟨u, hlo, hhi, hu⟩
      · simp only [userImagePhysEnd] at hv
        have hsame := pathOf_inj (by omega) (by decide) hwin
        simp only [pageSize, kernelKmapWindow] at hsame
        omega
      · have hle := Nat.div_mul_le_self (ph.segEnd - ph.segStart) pageSize
        exact (hopened rfl u hlo (by omega)).same_page hu
    · exact hw.edited g hin
  · rw [elfMapSegment] at hc
    split at hc
    · cases hc
    · next hno =>
      rw [not_or, not_lt, not_lt] at hno
      exact hhi.trans_le hno.2

/-! ### All segments -/

/-- After the loop the program can write to all its segments. -/
theorem loadLoop_writable (n : Nat) : ∀ {i : Nat} {buf : Bytes.Memory} {s : Vm} {tag : Nat → Option Path},
    LoadSound im s roots tag → loadLoop im fs file kbuf phoff n i buf s = (true, s') →
    ∃ tag', LoadSound im s' roots tag' ∧
      (∀ v < userImagePhysEnd, UserWritable s v → UserWritable s' v) ∧
      ∀ ph ∈ loadHeaders fs file phoff n i buf, ∀ v, ph.Covers v → UserWritable s' v := by
  induction n with
  | zero =>
    intro i buf s tag h hc
    obtain ⟨-, rfl⟩ := Prod.mk.inj hc
    exact ⟨tag, h, fun _ _ hw => hw, fun ph hph => by cases hph⟩
  | succ n ih =>
    intro i buf s tag h hc
    rw [loadLoop] at hc
    dsimp only at hc
    split at hc
    · cases hc
    rw [loadHeaders]
    set buf' := store buf 0 (readHeader fs file phoff i).2
    split at hc
    · next hno =>
      rw [if_neg hno, List.nil_append]
      exact ih h hc
    next hload =>
    rw [not_not] at hload
    rw [if_pos hload, List.singleton_append]
    rcases hm : elfMapSegment im fs file (kbuf i) (programHeader buf') s with ⟨_ | _, s₁⟩
    · rw [hm] at hc
      cases hc
    rw [hm] at hc
    obtain ⟨tag₁, h₁, hkeep, hopen⟩ := elfMapSegment_writable h hm
    obtain ⟨tag', h', hkeep', hrest⟩ := ih h₁ hc
    refine ⟨tag', h', fun v hv hw => hkeep' v hv (hkeep v hv hw), fun ph hph v hcov => ?_⟩
    rcases List.mem_cons.mp hph with rfl | hph
    · obtain ⟨hv, hw⟩ := hopen v hcov
      exact hkeep' v hv hw
    · exact hrest ph hph v hcov

/-- A loaded program can write to each page of each of its segments, whatever the segment's flags are. -/
theorem elfLoad_writes (him : im.kernelEnd ≤ userImagePhysStart) (h : LoadReach im s roots)
    (hc : elfLoad im fs file kbuf hdr buf s = (some entry, s')) (hph : ph ∈ ptLoads fs file hdr buf)
    (hv : ph.Covers v) : UserWrites s' v := by
  obtain ⟨tag, hs⟩ := h.sound him
  rw [elfLoad] at hc
  dsimp only at hc
  split at hc
  · cases hc
  split at hc
  · cases hc
  rcases hl : loadLoop im fs file kbuf (elfHeader (store hdr 0 (vfsReadAt file 0 64 fs).2)).ePhoff
    (elfHeader (store hdr 0 (vfsReadAt file 0 64 fs).2)).ePhnum 0 buf s with ⟨_ | _, s₁⟩
  · rw [hl] at hc
    cases hc
  rw [hl] at hc
  obtain ⟨-, rfl⟩ := Prod.mk.inj hc
  obtain ⟨tag', hs', -, hall⟩ := loadLoop_writable _ hs hl
  exact (userWrites_iff hs'.forest).mpr (hall ph hph v hv)

/-- For a page of a loaded program, that it can be written exactly if a segment there has `PF_W` holds
    exactly if a segment there has `PF_W`. -/
theorem elfLoad_enforces_iff (him : im.kernelEnd ≤ userImagePhysStart) (h : LoadReach im s roots)
    (hc : elfLoad im fs file kbuf hdr buf s = (some entry, s'))
    (hv : ∃ ph ∈ ptLoads fs file hdr buf, ph.Covers v) :
    (UserWrites s' v ↔ ∃ ph ∈ ptLoads fs file hdr buf, ph.Covers v ∧ ph.Writable) ↔
      ∃ ph ∈ ptLoads fs file hdr buf, ph.Covers v ∧ ph.Writable := by
  obtain ⟨ph, hph, hcov⟩ := hv
  have hw : UserWrites s' v := elfLoad_writes him h hc hph hcov
  rw [iff_true_left hw]

/-! ### A program of one page -/

/-- A program with one segment, the page at 4 MiB, of which nothing comes from the file. -/
def pageProgram (pFlags : Nat) : List UInt8 :=
  [0x7f, 0x45, 0x4c, 0x46, 2, 1] ++ List.replicate 10 0 ++ leBytes 2 2 ++ leBytes 2 0x3e ++ leBytes 4 1 ++
    leBytes 8 0x400000 ++ leBytes 8 64 ++ leBytes 8 0 ++ leBytes 4 0 ++ leBytes 2 64 ++ leBytes 2 56 ++
    leBytes 2 1 ++ leBytes 6 0 ++ leBytes 4 1 ++ leBytes 4 pFlags ++ leBytes 8 0 ++ leBytes 8 0x400000 ++
    leBytes 8 0x400000 ++ leBytes 8 0 ++ leBytes 8 0x1000 ++ leBytes 8 0x1000

/-- That segment. -/
def pageSegment (pFlags : Nat) : ProgramHeader := ⟨pFlags, 0, 0x400000, 0, 0x1000⟩

theorem readAt_oneFile (data : List UInt8) (off n : Nat) : vfsReadAt (some 1) off n (oneFile data) =
    ((((data.drop off).take n).length : Int), (data.drop off).take n) :=
  vfsReadAt_spec off n rfl

/-- It loads right after the start of a machine with enough memory. -/
theorem pageProgram_loads {pFlags : Nat} (hfl : pFlags = 4 ∨ pFlags = 6) (kbuf : Nat → Nat → Bytes.Memory) :
    ptLoads (oneFile (pageProgram pFlags)) (some 1) (fun _ => 0) (fun _ => 0) = [pageSegment pFlags] ∧
    ∃ s', elfLoad smallImage (oneFile (pageProgram pFlags)) (some 1) kbuf (fun _ => 0) (fun _ => 0) mostVm =
      (some 0x400000, s') := by
  have hread : vfsReadAt (some 1) 0 64 (oneFile (pageProgram pFlags)) =
      (64, ((pageProgram pFlags).drop 0).take 64) := by
    rw [readAt_oneFile, show (((pageProgram pFlags).drop 0).take 64).length = 64 from rfl]
    rfl
  have hreadph : readHeader (oneFile (pageProgram pFlags)) (some 1) 64 0 =
      (56, ((pageProgram pFlags).drop 64).take 56) := by
    rw [readHeader, show u64 (64 + 0 * 56) = 64 from rfl, readAt_oneFile,
      show (((pageProgram pFlags).drop 64).take 56).length = 56 from rfl]
    rfl
  have hhdr : elfHeader (store (fun _ => 0) 0 (((pageProgram pFlags).drop 0).take 64)) =
      ⟨[0x7f, 0x45, 0x4c, 0x46, 2, 1] ++ List.replicate 10 0, 2, 0x3e, 0x400000, 64, 1⟩ := by
    rcases hfl with rfl | rfl <;> rfl
  have htype : headerType (store (fun _ => 0) 0 (((pageProgram pFlags).drop 64).take 56)) = 1 := by
    rcases hfl with rfl | rfl <;> rfl
  have hph : programHeader (store (fun _ => 0) 0 (((pageProgram pFlags).drop 64).take 56)) =
      pageSegment pFlags := by
    rcases hfl with rfl | rfl <;> rfl
  have hpages : (pageSegment pFlags).segStart = 0x400000 ∧ (pageSegment pFlags).segEnd = 0x401000 := by
    rcases hfl with rfl | rfl <;> exact ⟨rfl, rfl⟩
  obtain ⟨-, s', hcall, -⟩ := @segment_loads_most (oneFile (pageProgram pFlags)) (some 1) (pageSegment pFlags)
    (kbuf 0) hpages.1 hpages.2 (by
      rw [readPage, readAt_oneFile]
      exact Int.natCast_nonneg _)
  constructor
  · rw [ptLoads, hread]
    simp only [hhdr, loadHeaders, hreadph, htype, hph, if_true, List.append_nil]
  · refine ⟨s', ?_⟩
    rw [elfLoad, hread]
    simp only [hhdr, loadLoop, hreadph, htype, hph, hcall]
    rfl

theorem pageSegment_covers (pFlags : Nat) : (pageSegment pFlags).Covers 0x400000 := by
  rw [ProgramHeader.Covers, ProgramHeader.segStart, ProgramHeader.segEnd]
  change pageOf 0x400000 ≤ 0x400000 ∧ 0x400000 < pageOf (u64 (0x400000 + 0x1000 + pageSize - 1))
  decide

/-- A program whose segment has `PF_W`. -/
theorem elfLoad_enforces_page : ∃ s', elfLoad smallImage (oneFile (pageProgram 6)) (some 1)
      (fun _ _ _ => 0) (fun _ => 0) (fun _ => 0) mostVm = (some 0x400000, s') ∧
    ((UserWrites s' 0x400000 ↔ ∃ ph ∈ ptLoads (oneFile (pageProgram 6)) (some 1) (fun _ => 0) (fun _ => 0),
        ph.Covers 0x400000 ∧ ph.Writable) ↔
      ∃ ph ∈ ptLoads (oneFile (pageProgram 6)) (some 1) (fun _ => 0) (fun _ => 0),
        ph.Covers 0x400000 ∧ ph.Writable) := by
  obtain ⟨hsegs, s', hcall⟩ := pageProgram_loads (Or.inr rfl : 6 = 4 ∨ 6 = 6) fun _ _ _ => 0
  refine ⟨s', hcall, elfLoad_enforces_iff (by decide) (TableReach.init _ _) hcall ?_⟩
  rw [hsegs]
  exact ⟨_, List.mem_singleton_self _, pageSegment_covers 6⟩

/-- One whose segment is read-only can write to it. -/
theorem read_only_written : ∃ s', LoadReach smallImage mostVm [smallImage.pmlTable] ∧
    elfLoad smallImage (oneFile (pageProgram 4)) (some 1) (fun _ _ _ => 0) (fun _ => 0) (fun _ => 0) mostVm =
      (some 0x400000, s') ∧
    (∃ ph ∈ ptLoads (oneFile (pageProgram 4)) (some 1) (fun _ => 0) (fun _ => 0), ph.Covers 0x400000) ∧
    UserWrites s' 0x400000 ∧
    ¬ ∃ ph ∈ ptLoads (oneFile (pageProgram 4)) (some 1) (fun _ => 0) (fun _ => 0),
      ph.Covers 0x400000 ∧ ph.Writable := by
  obtain ⟨hsegs, s', hcall⟩ := pageProgram_loads (Or.inl rfl : 4 = 4 ∨ 4 = 6) fun _ _ _ => 0
  have hin : pageSegment 4 ∈ ptLoads (oneFile (pageProgram 4)) (some 1) (fun _ => 0) (fun _ => 0) := by
    rw [hsegs]
    exact List.mem_singleton_self _
  refine ⟨s', TableReach.init _ _, hcall, ⟨_, hin, pageSegment_covers 4⟩,
    elfLoad_writes (by decide) (TableReach.init _ _) hcall hin (pageSegment_covers 4), ?_⟩
  rw [hsegs]
  rintro ⟨ph, hph, -, hw⟩
  rw [List.mem_singleton.mp hph] at hw
  exact absurd hw (by decide : ¬ Nat.testBit 4 1 = true)

end TypeOS.Elf
