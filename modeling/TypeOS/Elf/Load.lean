import TypeOS.Sys.Zeroed
import TypeOS.Elf.Stack
import TypeOS.Fs.Vfs
import Mathlib.Data.List.GetD

/-! Segments of a program (`elf_map_segment`).

    A fixed image stays at its physical addresses. Each page of a segment is cleared, then filled with
    its part of the file by way of a buffer on the kernel's stack, and opened to the user. A failure to
    clear the page is not looked at, and neither is how much of the file was there to be read. -/

namespace TypeOS.Elf

open Paging Sys
open Fs (Vfs Ptr vfsReadAt)
open Bytes (load store store_get byteOf byteOf_zero)

/-- What `elf_map_segment` reads of a program header. -/
structure ProgramHeader where
  pFlags : Nat
  pOffset : Nat
  pVaddr : Nat
  pFilesz : Nat
  pMemsz : Nat

/-- `elf_segment_flags`; `PF_W` is bit 1. -/
def elfSegmentFlags (pFlags : Nat) : Word :=
  if pFlags.testBit 1 then pagePresent ||| pageWritable else pagePresent

namespace ProgramHeader

/-- `seg_start`. -/
def segStart (ph : ProgramHeader) : Nat := pageOf ph.pVaddr

/-- `seg_end`. -/
def segEnd (ph : ProgramHeader) : Nat := pageOf (u64 (ph.pVaddr + ph.pMemsz + pageSize - 1))

/-- `file_end`. -/
def fileEnd (ph : ProgramHeader) : Nat := u64 (ph.pVaddr + ph.pFilesz)

/-- `copy_start` of a page. -/
def copyStart (ph : ProgramHeader) (addr : Nat) : Nat := if addr < ph.pVaddr then ph.pVaddr else addr

/-- `copy_end` of a page. -/
def copyEnd (ph : ProgramHeader) (addr : Nat) : Nat :=
  if addr + pageSize < ph.fileEnd then addr + pageSize else ph.fileEnd

end ProgramHeader

section

variable (im : Image) (fs : Vfs) (file : Option Ptr) (kbuf : Nat → Bytes.Memory) (ph : ProgramHeader)

/-- The file's part of a page, as `vfs_read_at` gives it. -/
def readPage (addr : Nat) : Int × List UInt8 :=
  vfsReadAt file (u64 (ph.pOffset + (ph.copyStart addr - ph.pVaddr)))
    (ph.copyEnd addr - ph.copyStart addr) fs

/-- The file's part of a page is read to `kbuf` and written to the page; `true` is 0. -/
def fillPage (addr : Nat) (s : Vm) : Bool × Vm :=
  if ph.copyStart addr < ph.copyEnd addr then
    let len := ph.copyEnd addr - ph.copyStart addr
    if len > 4096 then (false, s)
    else
      let read := readPage fs file ph addr
      if read.1 < 0 then (false, s)
      else pagingWritePhys im s (ph.copyStart addr) (load (store (kbuf addr) 0 read.2) 0 len)
  else (true, s)

/-- The loop of `elf_map_segment`, `n` pages from `addr` on. -/
def segmentLoop : Nat → Nat → Vm → Bool × Vm
  | 0, _, s => (true, s)
  | n + 1, addr, s =>
    match fillPage im fs file kbuf ph addr (pagingClearPhys im s addr).2 with
    | (false, s) => (false, s)
    | (true, s) =>
      match pagingPromoteUserIdentity s addr (elfSegmentFlags ph.pFlags) with
      | (false, s) => (false, s)
      | (true, s) => segmentLoop n (addr + pageSize) s

/-- One turn of it. -/
def segmentPage (addr : Nat) (s : Vm) : Bool × Vm :=
  match fillPage im fs file kbuf ph addr (pagingClearPhys im s addr).2 with
  | (false, s) => (false, s)
  | (true, s) => pagingPromoteUserIdentity s addr (elfSegmentFlags ph.pFlags)

/-- `elf_map_segment`, where `file` is what the path leads to and `kbuf` what the buffer holds before
    a page is read; `true` is 0. -/
def elfMapSegment (s : Vm) : Bool × Vm :=
  if ph.segStart < userImagePhysStart ∨ ph.segEnd > userImagePhysEnd then (false, s)
  else
    segmentLoop im fs file kbuf ph ((ph.segEnd - ph.segStart) / pageSize) ph.segStart
      (pagingSplitHugeRange im s ph.segStart ph.segEnd)

/-- What is put at an address: a byte of the buffer once the page was read, or zero. -/
def loadedByte (v : Nat) : UInt8 :=
  if ph.copyStart (pageOf v) ≤ v ∧ v < ph.copyEnd (pageOf v) then
    store (kbuf (pageOf v)) 0 (readPage fs file ph (pageOf v)).2 (v - ph.copyStart (pageOf v))
  else 0

/-- What is meant to be there: the file's byte, or zero. -/
def segmentByte (v : Nat) : UInt8 :=
  if ph.copyStart (pageOf v) ≤ v ∧ v < ph.copyEnd (pageOf v) then
    (readPage fs file ph (pageOf v)).2.getD (v - ph.copyStart (pageOf v)) 0
  else 0

/-- The file has as much of each page as its header says. -/
def ReadsWhole : Prop :=
  ∀ addr, addr % pageSize = 0 → ph.segStart ≤ addr → addr < ph.segEnd →
    ph.copyEnd addr - ph.copyStart addr ≤ (readPage fs file ph addr).2.length

end

/-- A frame of the memory for fixed images. -/
def ImageFrame (f : Nat) : Prop := userImagePhysStart ≤ f * pageSize ∧ f * pageSize < userImagePhysEnd

/-- The user may write to the page of an address, as far as its entry and the user bits above it say. -/
def UserWritable (s : Vm) (v : Nat) : Prop :=
  ∃ e, walk s.mem s.pml4 v = some (e, true) ∧ has e pageWritable = true

/-- Its frames are in use and no tables. -/
def ImageKept (s : Vm) (tag : Nat → Option Path) : Prop :=
  ∀ f, ImageFrame f → tag f = none ∧ bitmapTest s f = true

variable {im : Image} {fs : Vfs} {file : Option Ptr} {kbuf : Nat → Bytes.Memory} {ph : ProgramHeader}
  {s s' s₁ : Vm} {tag tag' : Nat → Option Path} {f v addr n : Nat} {ok : Bool} {fl : Word}
  {F : Nat → Prop} {W : Path → Prop}

theorem ImageKept.edited (h : ImageKept s tag) (g : Edited F W s tag s' tag') : ImageKept s' tag' :=
  fun f hf => ⟨g.untagged f (h f hf).1 (h f hf).2, g.bits f (h f hf).2⟩

theorem UserWritable.edited (h : UserWritable s v) (g : Edited F W s tag s' tag') (hv : ¬ W (pathOf v)) :
    UserWritable s' v := by
  obtain ⟨e, hw, he⟩ := h
  exact ⟨e, g.users v e hv hw, he⟩

theorem ImageFrame.lt (h : ImageFrame f) : f < 2 ^ 40 := by
  have := h.2
  simp only [userImagePhysEnd, pageSize] at this
  omega

theorem ImageFrame.lt_maxFrames (h : ImageFrame f) : f < maxFrames := by
  have := h.2
  simp only [userImagePhysEnd, maxFrames, maxPhysMem, pageSize] at *
  omega

/-! ### One page -/

/-- Where in its page a segment's part of the file is. -/
theorem copy_bounds (hlo : ph.segStart ≤ addr) (hal : addr % pageSize = 0) :
    addr ≤ ph.copyStart addr ∧ ph.copyStart addr < addr + pageSize ∧
      ph.copyEnd addr ≤ addr + pageSize := by
  simp only [ProgramHeader.segStart, pageOf, ProgramHeader.copyStart, ProgramHeader.copyEnd,
    pageSize] at *
  split <;> split <;> omega

/-- Where the file has as much as the header says, nothing of the buffer is left. -/
theorem loadedByte_whole (h : ph.copyEnd (pageOf v) - ph.copyStart (pageOf v) ≤
    (readPage fs file ph (pageOf v)).2.length) :
    loadedByte fs file kbuf ph v = segmentByte fs file ph v := by
  rw [loadedByte, segmentByte]
  split
  · next hv =>
    have hi : v - ph.copyStart (pageOf v) < (readPage fs file ph (pageOf v)).2.length := by omega
    have hstore := @store_get (kbuf (pageOf v)) 0 (readPage fs file ph (pageOf v)).2 _ hi
    rw [Nat.zero_add] at hstore
    rw [hstore, List.getD_eq_getElem _ _ hi]
  · rfl

/-- The page is filled; zeros stay where nothing is put. -/
theorem fillPage_edited (h : Forest s tag) (hk : ImageKept s tag) (hf : ImageFrame f)
    (hlo : ph.segStart ≤ f * pageSize) (hc : fillPage im fs file kbuf ph (f * pageSize) s = (ok, s')) :
    ∃ tag', Edited (· = f) (· = pathOf kernelKmapWindow) s tag s' tag' ∧
      (ok = true → s.mem f = (fun _ => 0#64) →
        ∀ x < pageSize, byteOf (s'.mem f) x = loadedByte fs file kbuf ph (f * pageSize + x)) := by
  have hal : f * pageSize % pageSize = 0 := Nat.mul_mod_left ..
  obtain ⟨hstart, hin, hend⟩ := copy_bounds hlo hal
  have hpage : ∀ x < pageSize, pageOf (f * pageSize + x) = f * pageSize := by
    intro x hx
    simp only [pageOf, pageSize] at *
    omega
  rw [fillPage] at hc
  split at hc
  · next hlt =>
    dsimp only at hc
    split at hc
    · obtain ⟨rfl, rfl⟩ := Prod.mk.inj hc
      exact ⟨tag, .refl h, fun hok => by cases hok⟩
    split at hc
    · obtain ⟨rfl, rfl⟩ := Prod.mk.inj hc
      exact ⟨tag, .refl h, fun hok => by cases hok⟩
    set bytes := load (store (kbuf (f * pageSize)) 0 (readPage fs file ph (f * pageSize)).2) 0
      (ph.copyEnd (f * pageSize) - ph.copyStart (f * pageSize)) with hbytes
    have hlen : bytes.length = ph.copyEnd (f * pageSize) - ph.copyStart (f * pageSize) := by
      rw [hbytes, load, List.length_map, List.length_range]
    obtain ⟨off, hoff⟩ := Nat.exists_eq_add_of_le hstart
    rw [hoff] at hc hin
    obtain ⟨tag', g, hdone⟩ := pagingWritePhys_edited h (hk f hf).1 (hk f hf).2 hf.lt
      (by rw [hlen, hoff]; omega) (by omega) hc
    refine ⟨tag', g, fun hok hzero x hx => ?_⟩
    rw [hdone hok x hx, hzero, loadedByte, hpage x hx, store]
    by_cases hx' : off ≤ x ∧ x < off + bytes.length
    · have hi : x - off < bytes.length := by omega
      have hsub : f * pageSize + x - ph.copyStart (f * pageSize) = x - off := by omega
      rw [if_pos hx', if_pos (by omega), hsub, List.getD_eq_getElem _ _ hi]
      simp only [hbytes, load, List.getElem_map, List.getElem_range, Nat.zero_add]
    · rw [if_neg hx', if_neg (by omega)]
      exact byteOf_zero x
  · next hle =>
    obtain ⟨rfl, rfl⟩ := Prod.mk.inj hc
    refine ⟨tag, .refl h, fun _ hzero x hx => ?_⟩
    rw [loadedByte, hpage x hx, if_neg (by omega), hzero]
    exact byteOf_zero x

/-- An opened page of a fixed image is at its own address, and whatever the flags are the user may write
    to it. -/
theorem promote_walk (h : Forest s tag) (hpr : has fl pagePresent = true)
    (hc : pagingPromoteUserIdentity s (f * pageSize) fl = (true, s')) (hv : pageOf v = f * pageSize) :
    walk s'.mem s'.pml4 v = some (frameWord f ||| (fl ||| (pageUser ||| pageWritable)), true) := by
  have hpage : pageOf (f * pageSize) = f * pageSize := by
    rw [pageOf, frame_div f]
  have hpath : pathOf v = pathOf (f * pageSize) := by
    refine pathOf_same ?_
    rw [frame_div f]
    exact Nat.eq_of_mul_eq_mul_right pageSize_pos hv
  rw [pagingPromoteUserIdentity] at hc
  dsimp only at hc
  split at hc
  · cases hc
  rcases hpt : pagingGetPt s (f * pageSize) with _ | pt
  · rw [hpt] at hc
    cases hc
  rw [hpt, hpage] at hc
  obtain ⟨-, rfl⟩ := Prod.mk.inj hc
  obtain ⟨-, -, -, -, -, -, -, ht⟩ := pagingGetPt_some h hpt
  obtain ⟨hset, huser⟩ := pagingSetUserPath_spec h hpt
  have hpt' : ptOf (writeEntry (pagingSetUserPath s (f * pageSize)) pt (ptIndex (f * pageSize))
      (BitVec.ofNat 64 (f * pageSize) ||| fl ||| pageUser ||| pageWritable)).mem
      (pagingSetUserPath s (f * pageSize)).pml4 (f * pageSize) = some pt :=
    (hset.forest.ptOf_leaf ht rfl hset.forest.root).trans (hset.ptOf h (pagingGetPt_ptOf h hpt))
  have hword : BitVec.ofNat 64 (f * pageSize) ||| fl ||| pageUser ||| pageWritable =
      frameWord f ||| (fl ||| (pageUser ||| pageWritable)) := by
    rw [frameWord, BitVec.or_assoc, BitVec.or_assoc]
  have hpresent : has (frameWord f ||| (fl ||| (pageUser ||| pageWritable))) pagePresent = true := by
    rw [has_present] at hpr ⊢
    rw [BitVec.getLsbD_or, BitVec.getLsbD_or, hpr, Bool.true_or, Bool.or_true]
  have hopen : has (frameWord f ||| (fl ||| (pageUser ||| pageWritable))) pageUser = true := by
    rw [has_user, BitVec.getLsbD_or, BitVec.getLsbD_or,
      show (pageUser ||| pageWritable).getLsbD 2 = true from by decide, Bool.or_true, Bool.or_true]
  have hpath' : userPath (writeEntry (pagingSetUserPath s (f * pageSize)) pt (ptIndex (f * pageSize))
      (frameWord f ||| (fl ||| (pageUser ||| pageWritable)))).mem (pagingSetUserPath s (f * pageSize)).pml4
      (tablePath (f * pageSize)) = true := by
    rw [hset.forest.userPath_congr (fun u w k hu hw => congrFun (writeEntry_frame ?_) k) hset.forest.root
      le_rfl, hset.pml4, huser]
    rintro rfl
    rw [ht, Option.some.injEq] at hu
    rw [← hu] at hw
    exact absurd hw (lt_irrefl 3)
  have hwalk := walk_ptOf hpt'
  rw [writeEntry_self, hword, if_pos hpresent, hpath', hopen] at hwalk
  rw [walk_page hpath, hword]
  exact hwalk

theorem promote_page (h : Forest s tag) (hf : ImageFrame f) (hfl : fl &&& pteAddrMask = 0#64)
    (hpr : has fl pagePresent = true)
    (hc : pagingPromoteUserIdentity s (f * pageSize) fl = (true, s')) (hv : pageOf v = f * pageSize) :
    pageAt s' v = some f := by
  have hmask : (fl ||| (pageUser ||| pageWritable)) &&& pteAddrMask = 0#64 := by
    rw [BitVec.and_or_distrib_right, hfl]
    decide
  rw [pageAt, promote_walk h hpr hc hv, Option.map_some, entryFrame_or hmask, entryFrame_frameWord hf.lt]

theorem promote_writable (h : Forest s tag) (hpr : has fl pagePresent = true)
    (hc : pagingPromoteUserIdentity s (f * pageSize) fl = (true, s')) (hv : pageOf v = f * pageSize) :
    UserWritable s' v := by
  refine ⟨_, promote_walk h hpr hc hv, ?_⟩
  rw [has_writable, BitVec.getLsbD_or, BitVec.getLsbD_or,
    show (pageUser ||| pageWritable).getLsbD 1 = true from by decide, Bool.or_true, Bool.or_true]

/-! ### All pages -/

/-- The frames of `n` pages from `addr` on. -/
def FrameIn (addr n f : Nat) : Prop := addr ≤ f * pageSize ∧ f * pageSize < addr + n * pageSize

/-- The pages themselves, and the window's. -/
def PageIn (addr n : Nat) (π : Path) : Prop :=
  π = pathOf kernelKmapWindow ∨ ∃ u, addr ≤ u ∧ u < addr + n * pageSize ∧ π = pathOf u

theorem FrameIn.first (f n : Nat) : FrameIn (f * pageSize) (n + 1) f := by
  constructor
  · exact le_rfl
  · rw [Nat.succ_mul]
    simp only [pageSize]
    omega

theorem FrameIn.later {g : Nat} (h : FrameIn ((f + 1) * pageSize) n g) :
    FrameIn (f * pageSize) (n + 1) g := by
  obtain ⟨hlo, hhi⟩ := h
  rw [FrameIn]
  simp only [pageSize] at *
  omega

theorem PageIn.first (f n : Nat) : PageIn (f * pageSize) (n + 1) (pathOf (f * pageSize)) :=
  Or.inr ⟨f * pageSize, FrameIn.first f n |>.1, FrameIn.first f n |>.2, rfl⟩

theorem PageIn.later {π : Path} (h : PageIn ((f + 1) * pageSize) n π) :
    PageIn (f * pageSize) (n + 1) π := by
  rcases h with rfl | ⟨u, hlo, hhi, rfl⟩
  · exact Or.inl rfl
  · rw [Nat.succ_mul] at hlo hhi
    exact Or.inr ⟨u, by linarith, by rw [Nat.succ_mul]; linarith, rfl⟩

/-- A page of a fixed image is none of those behind it. -/
theorem not_pageIn (hv : pageOf v = f * pageSize) (hf : ImageFrame f)
    (hend : (f + 1) * pageSize + n * pageSize ≤ userImagePhysEnd) :
    ¬ PageIn ((f + 1) * pageSize) n (pathOf v) := by
  have hlt := hf.2
  rintro (hc | ⟨u, hlo, hhi, hc⟩) <;> simp only [userImagePhysEnd, pageSize, pageOf] at *
  · have := pathOf_inj (by omega) (by decide) hc
    simp only [pageSize, kernelKmapWindow] at this
    omega
  · have := pathOf_inj (by omega) (by omega) hc
    simp only [pageSize] at this
    omega

theorem segmentLoop_succ (n addr : Nat) (s : Vm) :
    segmentLoop im fs file kbuf ph (n + 1) addr s =
      match segmentPage im fs file kbuf ph addr s with
      | (false, s) => (false, s)
      | (true, s) => segmentLoop im fs file kbuf ph n (addr + pageSize) s := by
  rw [segmentLoop, segmentPage]
  rcases fillPage im fs file kbuf ph addr (pagingClearPhys im s addr).2 with ⟨_ | _, s₁⟩ <;> rfl

theorem elfSegmentFlags_bits (fl : Nat) : elfSegmentFlags fl &&& pteAddrMask = 0#64 ∧
    has (elfSegmentFlags fl) pagePresent = true := by
  rw [elfSegmentFlags]
  split <;> exact ⟨by decide, by decide⟩

/-- A turn writes and opens its own page. If it ends well the user may write to it, and if the window can
    be used, it holds what is put there and the window has its page table from then on. -/
theorem segmentPage_edited (h : Forest s tag) (hk : ImageKept s tag) (hf : ImageFrame f)
    (hlo : ph.segStart ≤ f * pageSize)
    (hc : segmentPage im fs file kbuf ph (f * pageSize) s = (ok, s')) :
    ∃ tag', Edited (· = f) (fun π => π = pathOf kernelKmapWindow ∨ π = pathOf (f * pageSize))
      s tag s' tag' ∧
      (ok = true → ∀ v, pageOf v = f * pageSize → UserWritable s' v ∧ pageAt s' v = some f) ∧
      (WindowDir s s.pml4 → WindowOpens im s → ptOf s'.mem s'.pml4 kernelKmapWindow ≠ none ∧
        (ok = true → ∀ v, pageOf v = f * pageSize →
          userByte s' v = some (loadedByte fs file kbuf ph v))) := by
  rw [segmentPage] at hc
  rcases hclear : pagingClearPhys im s (f * pageSize) with ⟨okc, s₁⟩
  obtain ⟨tag₁, g₁, hzero⟩ := pagingClearPhys_edited h (hk f hf).1 (hk f hf).2 hf.lt hclear
  have hk₁ := hk.edited g₁
  rw [hclear] at hc
  dsimp only at hc
  rcases hfill : fillPage im fs file kbuf ph (f * pageSize) s₁ with ⟨okf, s₂⟩
  obtain ⟨tag₂, g₂, hbytes⟩ := fillPage_edited g₁.forest hk₁ hf hlo hfill
  have hk₂ := hk₁.edited g₂
  have g₁₂ := (g₁.trans g₂).mono (fun _ hg => hg) fun π =>
    (Or.inl : π = pathOf kernelKmapWindow → π = pathOf kernelKmapWindow ∨ π = pathOf (f * pageSize))
  have hwindow : WindowDir s s.pml4 → WindowOpens im s → s₁.mem f = (fun _ => 0#64) ∧
      ∃ k, ptOf s₂.mem s₂.pml4 kernelKmapWindow = some k := by
    intro hd ho
    have hcleared := pagingClearPhys_room (f := f) h hd ho
    rw [hclear] at hcleared
    obtain ⟨hmem, hpt, -⟩ := hzero hcleared
    obtain ⟨k, hk⟩ := Option.ne_none_iff_exists'.mp hpt
    exact ⟨hmem, k, g₂.ptOf g₁.forest hk⟩
  rw [hfill] at hc
  cases okf with
  | false =>
    obtain ⟨rfl, rfl⟩ := Prod.mk.inj hc
    refine ⟨tag₂, g₁₂, fun hok => absurd hok Bool.false_ne_true, fun hd ho => ⟨?_, nofun⟩⟩
    obtain ⟨-, k, hk⟩ := hwindow hd ho
    rw [hk]
    exact Option.some_ne_none k
  | true =>
    dsimp only at hc
    have g₃ := promote_edited g₂.forest (f * pageSize) (elfSegmentFlags ph.pFlags)
    rw [hc] at g₃
    have hk₃ := hk₂.edited g₃
    obtain ⟨hfl, hpr⟩ := elfSegmentFlags_bits ph.pFlags
    refine ⟨tag₂, g₁₂.trans (g₃.mono (fun _ hg => hg.elim) fun _ => Or.inr), fun hok v hv => ?_,
      fun hd ho => ⟨?_, fun hok v hv => ?_⟩⟩
    · subst hok
      exact ⟨promote_writable g₂.forest hpr hc hv, promote_page g₂.forest hf hfl hpr hc hv⟩
    · obtain ⟨-, k, hk⟩ := hwindow hd ho
      rw [g₃.ptOf g₂.forest hk]
      exact Option.some_ne_none k
    · subst hok
      obtain ⟨hmem, -⟩ := hwindow hd ho
      rw [userByte, promote_page g₂.forest hf hfl hpr hc hv, Option.map_some,
        g₃.frames f (fun hc => hc) (hk₂ f hf).1 (hk₂ f hf).2, hbytes rfl hmem _ (Nat.mod_lt v pageSize_pos),
        ← hv, pageOf, Nat.div_add_mod']

/-- The loop writes and opens its own pages. If it ends well the user may write to all of them, and if the
    window can be used, they hold what is put there. -/
theorem segmentLoop_edited (n : Nat) : ∀ {f : Nat} {s : Vm} {tag : Nat → Option Path}, Forest s tag →
    ImageKept s tag → ph.segStart ≤ f * pageSize → userImagePhysStart ≤ f * pageSize →
    f * pageSize + n * pageSize ≤ userImagePhysEnd →
    segmentLoop im fs file kbuf ph n (f * pageSize) s = (ok, s') →
    ∃ tag', Edited (FrameIn (f * pageSize) n) (PageIn (f * pageSize) n) s tag s' tag' ∧
      (ok = true → ∀ v, f * pageSize ≤ v → v < f * pageSize + n * pageSize → UserWritable s' v) ∧
      (ok = true → WindowDir s s.pml4 → WindowOpens im s → ∀ v, f * pageSize ≤ v →
        v < f * pageSize + n * pageSize → userByte s' v = some (loadedByte fs file kbuf ph v)) := by
  induction n with
  | zero =>
    intro f s tag h _ _ _ _ hc
    obtain ⟨-, rfl⟩ := Prod.mk.inj hc
    exact ⟨tag, .refl h, fun _ v hlo hhi => by omega, fun _ _ _ v hlo hhi => by omega⟩
  | succ n ih =>
    intro f s tag h hk hlo himg hend hc
    rw [Nat.succ_mul] at hend
    have hf : ImageFrame f := ⟨himg, by simp only [pageSize] at *; omega⟩
    rw [segmentLoop_succ] at hc
    rcases hpage : segmentPage im fs file kbuf ph (f * pageSize) s with ⟨okp, s₁⟩
    obtain ⟨tag₁, g₁, hmine, hwindow⟩ := segmentPage_edited h hk hf hlo hpage
    have hk₁ := hk.edited g₁
    have hF : ∀ g, g = f → FrameIn (f * pageSize) (n + 1) g := by
      rintro g rfl
      exact FrameIn.first g n
    have g := g₁.mono hF fun π hπ =>
      (hπ.elim Or.inl fun hπ => hπ ▸ PageIn.first f n : PageIn (f * pageSize) (n + 1) π)
    rw [hpage] at hc
    cases okp with
    | false =>
      obtain ⟨rfl, rfl⟩ := Prod.mk.inj hc
      exact ⟨tag₁, g, fun hok => absurd hok Bool.false_ne_true, fun hok => absurd hok Bool.false_ne_true⟩
    | true =>
      have hnext : f * pageSize + pageSize = (f + 1) * pageSize := (Nat.succ_mul f pageSize).symm
      dsimp only at hc
      rw [hnext] at hc
      have hend' : (f + 1) * pageSize + n * pageSize ≤ userImagePhysEnd := by
        rw [← hnext, Nat.add_right_comm, Nat.add_assoc]
        exact hend
      have hle : f * pageSize ≤ (f + 1) * pageSize := Nat.mul_le_mul_right _ (Nat.le_succ f)
      obtain ⟨tag', g', hopened, hrest⟩ :=
        ih g₁.forest hk₁ (hlo.trans hle) (himg.trans hle) hend' hc
      have hlast : ∀ v < f * pageSize + (n * pageSize + pageSize),
          v < (f + 1) * pageSize + n * pageSize := by
        intro v hlt
        rw [← hnext]
        linarith
      have hfirst : ∀ v, f * pageSize ≤ v → v < (f + 1) * pageSize → pageOf v = f * pageSize := by
        intro v hge hin
        rw [pageOf, Nat.div_eq_of_lt_le hge hin]
      refine ⟨tag', g.trans (g'.mono (fun _ => FrameIn.later) fun _ => PageIn.later),
        fun hok v hge hlt => ?_, fun hok hd ho v hge hlt => ?_⟩
      · rw [Nat.succ_mul] at hlt
        rcases Nat.lt_or_ge v ((f + 1) * pageSize) with hin | hout
        · have hv := hfirst v hge hin
          exact (hmine rfl v hv).1.edited g' (not_pageIn hv hf hend')
        · exact hopened hok v hout (hlast v hlt)
      obtain ⟨hpt, hbytes⟩ := hwindow hd ho
      rw [Nat.succ_mul] at hlt
      rcases Nat.lt_or_ge v ((f + 1) * pageSize) with hin | hout
      · -- the later turns leave the first page alone
        have hv := hfirst v hge hin
        have hother : ¬ FrameIn ((f + 1) * pageSize) n f := fun hc => by
          have := hc.1
          simp only [pageSize] at this
          omega
        rw [g'.userByte (not_pageIn hv hf hend') (hmine rfl v hv).2 hother (hk₁ f hf).1 (hk₁ f hf).2]
        exact hbytes rfl v hv
      · refine hrest hok ?_ (Or.inl hpt) v hout (hlast v hlt)
        rw [g₁.pml4]
        exact g₁.windowDir h.root hd

/-! ### A segment that is loaded -/

theorem fillPage_ok (h : Forest s tag) (hpt : ptOf s.mem s.pml4 kernelKmapWindow ≠ none)
    (hlo : ph.segStart ≤ f * pageSize) (hread : 0 ≤ (readPage fs file ph (f * pageSize)).1) :
    (fillPage im fs file kbuf ph (f * pageSize) s).1 = true := by
  obtain ⟨hstart, hin, hend⟩ := copy_bounds hlo (Nat.mul_mod_left f pageSize)
  rw [fillPage]
  split
  · obtain ⟨off, hoff⟩ := Nat.exists_eq_add_of_le hstart
    dsimp only
    rw [if_neg (by simp only [pageSize] at *; omega), if_neg (by omega), hoff]
    rw [hoff] at hin
    refine pagingWritePhys_there h hpt ?_ (by omega)
    rw [load, List.length_map, List.length_range]
    omega
  · rfl

theorem promote_ok (fl : Word) (h : Forest s tag) (hf : ImageFrame f)
    (hpt : ptOf s.mem s.pml4 (f * pageSize) ≠ none) :
    (pagingPromoteUserIdentity s (f * pageSize) fl).1 = true := by
  obtain ⟨k, hk⟩ := Option.ne_none_iff_exists'.mp hpt
  obtain ⟨hlo, hhi⟩ := hf
  have hpage : pageOf (f * pageSize) = f * pageSize := by
    rw [pageOf, frame_div f]
  rw [pagingPromoteUserIdentity]
  dsimp only
  rw [hpage, if_neg (by omega), pagingGetPt_of_ptOf h hk]

theorem segmentPage_ok (h : Forest s tag) (hk : ImageKept s tag) (hf : ImageFrame f)
    (hlo : ph.segStart ≤ f * pageSize) (hd : WindowDir s s.pml4) (ho : WindowOpens im s)
    (hpt : ptOf s.mem s.pml4 (f * pageSize) ≠ none)
    (hread : 0 ≤ (readPage fs file ph (f * pageSize)).1) :
    (segmentPage im fs file kbuf ph (f * pageSize) s).1 = true := by
  have hcleared := pagingClearPhys_room (f := f) h hd ho
  rcases hclear : pagingClearPhys im s (f * pageSize) with ⟨okc, s₁⟩
  obtain ⟨tag₁, g₁, hzero⟩ := pagingClearPhys_edited h (hk f hf).1 (hk f hf).2 hf.lt hclear
  rw [hclear] at hcleared
  obtain ⟨-, hwin, -⟩ := hzero hcleared
  have hfilled := @fillPage_ok im fs file kbuf ph s₁ tag₁ f g₁.forest hwin hlo hread
  rcases hfill : fillPage im fs file kbuf ph (f * pageSize) s₁ with ⟨okf, s₂⟩
  obtain ⟨tag₂, g₂, -⟩ := fillPage_edited g₁.forest (hk.edited g₁) hf hlo hfill
  rw [hfill] at hfilled
  obtain ⟨k, hk⟩ := Option.ne_none_iff_exists'.mp hpt
  rw [segmentPage, hclear]
  dsimp only
  rw [hfill, show okf = true from hfilled]
  refine promote_ok (elfSegmentFlags ph.pFlags) g₂.forest hf ?_
  rw [g₂.ptOf g₁.forest (g₁.ptOf h hk)]
  exact Option.some_ne_none k

/-- The loop ends well if the window can be used, the pages have page tables and the file is read. -/
theorem segmentLoop_ok (n : Nat) : ∀ {f : Nat} {s : Vm} {tag : Nat → Option Path}, Forest s tag →
    ImageKept s tag → ph.segStart ≤ f * pageSize → userImagePhysStart ≤ f * pageSize →
    f * pageSize + n * pageSize ≤ userImagePhysEnd → WindowDir s s.pml4 → WindowOpens im s →
    (∀ k < n, ptOf s.mem s.pml4 ((f + k) * pageSize) ≠ none ∧
      0 ≤ (readPage fs file ph ((f + k) * pageSize)).1) →
    (segmentLoop im fs file kbuf ph n (f * pageSize) s).1 = true := by
  induction n with
  | zero => exact fun _ _ _ _ _ _ _ _ => rfl
  | succ n ih =>
    intro f s tag h hk hlo himg hend hd ho hpages
    rw [Nat.succ_mul] at hend
    have hf : ImageFrame f := ⟨himg, by simp only [pageSize] at *; omega⟩
    obtain ⟨hpt, hread⟩ := hpages 0 (Nat.succ_pos n)
    rw [Nat.add_zero] at hpt hread
    have hok := @segmentPage_ok im fs file kbuf ph s tag f h hk hf hlo hd ho hpt hread
    rcases hpage : segmentPage im fs file kbuf ph (f * pageSize) s with ⟨okp, s₁⟩
    obtain ⟨tag₁, g₁, -, hwindow⟩ := segmentPage_edited h hk hf hlo hpage
    rw [hpage] at hok
    have hnext : f * pageSize + pageSize = (f + 1) * pageSize := (Nat.succ_mul f pageSize).symm
    have hle : f * pageSize ≤ (f + 1) * pageSize := Nat.mul_le_mul_right _ (Nat.le_succ f)
    rw [segmentLoop_succ, hpage, show okp = true from hok]
    dsimp only
    rw [hnext]
    refine ih g₁.forest (hk.edited g₁) (hlo.trans hle) (himg.trans hle) ?_ ?_
      (Or.inl (hwindow hd ho).1) fun k hk => ?_
    · rw [← hnext, Nat.add_right_comm, Nat.add_assoc]
      exact hend
    · rw [g₁.pml4]
      exact g₁.windowDir h.root hd
    · obtain ⟨hpt, hread⟩ := hpages (k + 1) (Nat.succ_lt_succ hk)
      rw [show f + 1 + k = f + (k + 1) by omega]
      refine ⟨?_, hread⟩
      obtain ⟨c, hc⟩ := Option.ne_none_iff_exists'.mp hpt
      rw [g₁.ptOf h hc]
      exact Option.some_ne_none c

end TypeOS.Elf
