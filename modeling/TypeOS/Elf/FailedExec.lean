import TypeOS.Elf.Permissions
import TypeOS.Elf.StackFrames
import TypeOS.Proc.FailedFork
import TypeOS.Sys.Execve

/-! What an exec that fails leaves behind.

    Once the path leads to a file, `proc_exec` does not go back: before it reads the program it closes the
    descriptors, takes an address space with the tables of the old one, and sets the break and the base of
    FS. So an exec that fails leaves its caller as it was if an argument or the path is refused, or if there
    was nothing to close or to set and the program is refused before a page of it is loaded. -/

namespace TypeOS.Elf

open Paging Sys
open Proc (Kernel Answers VfsFile Fd Handle Reaches Serves Replaced table)
open Fs (Text Vfs Ptr VfsStat vfsReadAt vfsStat)
open Bytes (store word)

section

variable (im : Image) (fs : Vfs) (bufs : Nat → Nat → Bytes.Memory) (hdr ph : Bytes.Memory)

/-- The address space that `proc_exec` loads the program into: a new one with the tables of the old, or the
    old one where there is no frame for a new root. -/
def newSpace (s : Vm) : Vm :=
  let clone := pagingCloneCurrentAddressSpace im s false
  clone.1.elim clone.2 (pagingSwitchCr3 clone.2)

/-- The program, with its entry and its memory, once there are pages for its stack. -/
def loadProgram (found : Option Ptr) (s : Vm) : Option (Nat × Bytes.Memory) × Vm :=
  match elfLoad im fs found bufs hdr ph s with
  | (none, s) => (none, s)
  | (some entry, s) =>
    match pagingMapUserRange im s (userStackTop - userStackSize) (userStackSize + pageSize)
      (pagePresent ||| pageWritable) with
    | (false, s) => (none, s)
    | (true, s) => (some (entry, userMemory s), s)

/-- What `proc_exec` asks of paging and the loader once `found` is a file: the answers, and what the tables
    are left as. Of the new stack only the pointer is of interest here, as exec does not come back then. -/
def askExec (found : Option Ptr) (freed : VfsFile) (argv envp : List Text) (s : Vm) : Answers × Vm :=
  let cr3 := (pagingCloneCurrentAddressSpace im s false).1
  let program := loadProgram im fs bufs hdr ph found (newSpace im s)
  ({ kmalloc := fun _ => none, freed, cloneCr3 := cr3.getD 0, image := program.1.map fun (entry, mem) =>
    (BitVec.ofNat 64 entry, BitVec.ofNat 64 (elfBuildStack argv envp mem).sp) }, program.2)

/-- `proc_exec`, with the file system, paging and the loader; `found` is what the path leads to. -/
def procExecWith (found : Option Ptr) (freed : VfsFile) (argv envp : List Text) (k : Kernel) (s : Vm) :
    Bool × Kernel × Vm :=
  if (vfsStat found fs).map VfsStat.type = some .file then
    let asked := askExec im fs bufs hdr ph found freed argv envp s
    let r := Proc.procExec asked.1 true k
    (r.1, r.2, asked.2)
  else (false, k, s)

/-- `SYS_execve`: the result, and what the tables of the kernel and the page tables are left as. -/
def sysExecveWith (lookup : Text → Option Ptr) (freed : VfsFile) (mem : Bytes.Memory) (a0 a1 a2 : Nat)
    (k : Kernel) (s : Vm) : Int × Kernel × Vm :=
  match execvePath mem a0, copyUserStringArray mem a1 16, copyUserStringArray mem a2 16 with
  | some path, some argv, some envp =>
    match procExecWith im fs bufs hdr ph (lookup path) freed (argvPtrs argv) (argvPtrs envp) k s with
    | (false, k, s) => (eNoent, k, s)
    | (true, k, s) => (0, k, s)
  | _, _, _ => (eFault, k, s)

/-- What `elf_load` comes to first: a refusal, the end, or a page to load. -/
inductive Loading
  | refused
  | nothing
  | pages
  deriving DecidableEq

/-- From the `i`-th of `n` program headers on. -/
def loading (file : Option Ptr) (phoff : Nat) : Nat → Nat → Bytes.Memory → Loading
  | 0, _, _ => .nothing
  | n + 1, i, ph =>
    let read := readHeader fs file phoff i
    if read.1 ≠ 56 then .refused
    else
      let ph := store ph 0 read.2
      let seg := programHeader ph
      if headerType ph ≠ 1 then loading file phoff n (i + 1) ph
      else if seg.segStart < userImagePhysStart ∨ seg.segEnd > userImagePhysEnd then .refused
      else if seg.segStart < seg.segEnd then .pages
      else loading file phoff n (i + 1) ph

/-- In a file. -/
def fileLoading (file : Option Ptr) : Loading :=
  let read := vfsReadAt file 0 64 fs
  let hdr := elfHeader (store hdr 0 read.2)
  if read.1 ≠ 64 ∨ elfCheckHdr hdr = false then .refused else loading fs file hdr.ePhoff hdr.ePhnum 0 ph

end

/-- The descriptors of the caller stand for the same, the pipes are counted as before, its break and base of
    FS are the same, each page that it reaches is translated as before, and what is in the frames in use, and
    so in all its pages, was not written. -/
structure Unharmed (k : Kernel) (s : Vm) (k' : Kernel) (s' : Vm) : Prop where
  fds : ∀ g, table k' k.currentTask g = table k k.currentTask g
  counts : ∀ p, (k'.pipes p).readers = (k.pipes p).readers ∧ (k'.pipes p).writers = (k.pipes p).writers
  brk : (k'.tasks k.currentTask).brk = (k.tasks k.currentTask).brk
  fsBase : (k'.tasks k.currentTask).fsBase = (k.tasks k.currentTask).fsBase
  pages : ∀ v e, walk s'.mem s'.pml4 v = some (e, true) ↔ walk s.mem s.pml4 v = some (e, true)
  bytes : ∀ f, bitmapTest s f = true → s'.mem f = s.mem f

/-- There is nothing that `proc_exec` takes from its caller: no descriptor above 2, a break at the start, and
    no base of FS. -/
structure Bare (k : Kernel) : Prop where
  fds : ∀ g : Fd, 3 ≤ g.val → k.fds g = none
  brk : (k.tasks k.currentTask).brk = userBrkStart
  fsBase : (k.tasks k.currentTask).fsBase = 0

/-- An argument is not accepted, or the path leads to no file. -/
def TurnedDown (fs : Vfs) (lookup : Text → Option Ptr) (mem : Bytes.Memory) (a0 a1 a2 : Nat) : Prop :=
  copyUserStringArray mem a1 16 = none ∨ copyUserStringArray mem a2 16 = none ∨
    ∀ path, execvePath mem a0 = some path → (vfsStat (lookup path) fs).map VfsStat.type ≠ some .file

/-- The call fails before it does anything, or has nothing to undo: the caller is bare, and the program is
    refused before a page of it is loaded, or has none and there is no frame for the stack. -/
def Harmless (im : Image) (fs : Vfs) (lookup : Text → Option Ptr) (hdr ph mem : Bytes.Memory)
    (a0 a1 a2 : Nat) (k : Kernel) (s : Vm) : Prop :=
  TurnedDown fs lookup mem a0 a1 a2 ∨ Bare k ∧ ∀ path, execvePath mem a0 = some path →
    fileLoading fs hdr ph (lookup path) = .refused ∨
      fileLoading fs hdr ph (lookup path) = .nothing ∧ (pagingAllocPage (newSpace im s)).1 = none

variable {im : Image} {fs : Vfs} {bufs : Nat → Nat → Bytes.Memory} {hdr ph buf mem : Bytes.Memory}
  {found file : Option Ptr} {freed : VfsFile} {ans : Answers} {argv envp : List Text} {k k' : Kernel} {s s' : Vm}
  {roots : List Nat} {kernel : Set Nat} {tag : Nat → Option Path} {lookup : Text → Option Ptr}
  {a0 a1 a2 phoff : Nat} {r : Int}

/-! ### The loader -/

/-- A segment without pages leaves the tables alone. -/
theorem elfMapSegment_empty {kbuf : Nat → Bytes.Memory} {seg : ProgramHeader}
    (hin : ¬ (seg.segStart < userImagePhysStart ∨ seg.segEnd > userImagePhysEnd))
    (hno : ¬ seg.segStart < seg.segEnd) : elfMapSegment im fs file kbuf seg s = (true, s) := by
  rw [elfMapSegment, if_neg hin, Nat.sub_eq_zero_of_le (not_lt.mp hno), Nat.zero_div, segmentLoop,
    pagingSplitHugeRange, if_pos (not_lt.mp hno)]

/-- Up to the first page the program headers leave the tables alone. -/
theorem loadLoop_loading (n : Nat) : ∀ {i : Nat} {ph : Bytes.Memory},
    (loading fs file phoff n i ph = .refused → loadLoop im fs file bufs phoff n i ph s = (false, s)) ∧
    (loading fs file phoff n i ph = .nothing → loadLoop im fs file bufs phoff n i ph s = (true, s)) := by
  induction n with
  | zero => exact ⟨fun hc => (by cases hc), fun _ => rfl⟩
  | succ n ih =>
    intro i ph
    rw [loading, loadLoop]
    dsimp only
    split
    · exact ⟨fun _ => rfl, fun hc => (by cases hc)⟩
    set ph' := store ph 0 (readHeader fs file phoff i).2
    by_cases hload : headerType ph' ≠ 1
    · rw [if_pos hload, if_pos hload]
      exact ih
    rw [if_neg hload, if_neg hload]
    by_cases hout : (programHeader ph').segStart < userImagePhysStart ∨
        (programHeader ph').segEnd > userImagePhysEnd
    · rw [if_pos hout, elfMapSegment, if_pos hout]
      exact ⟨fun _ => rfl, fun hc => (by cases hc)⟩
    rw [if_neg hout]
    split
    · exact ⟨fun hc => (by cases hc), fun hc => (by cases hc)⟩
    next hno =>
    rw [elfMapSegment_empty hout hno]
    exact ih

theorem elfLoad_loading :
    (fileLoading fs hdr buf file = .refused → elfLoad im fs file bufs hdr buf s = (none, s)) ∧
    (fileLoading fs hdr buf file = .nothing → ∃ entry, elfLoad im fs file bufs hdr buf s = (some entry, s)) := by
  rw [fileLoading, elfLoad]
  dsimp only
  by_cases hread : (vfsReadAt file 0 64 fs).1 ≠ 64
  · rw [if_pos (.inl hread), if_pos hread]
    exact ⟨fun _ => rfl, fun hc => (by cases hc)⟩
  by_cases hcheck : elfCheckHdr (elfHeader (store hdr 0 (vfsReadAt file 0 64 fs).2)) = false
  · rw [if_pos (.inr hcheck), if_neg hread, if_pos hcheck]
    exact ⟨fun _ => rfl, fun hc => (by cases hc)⟩
  rw [if_neg (not_or.mpr ⟨hread, hcheck⟩), if_neg hread, if_neg hcheck]
  obtain ⟨hrefused, hnothing⟩ := @loadLoop_loading im fs bufs file s
    (elfHeader (store hdr 0 (vfsReadAt file 0 64 fs).2)).ePhoff
    (elfHeader (store hdr 0 (vfsReadAt file 0 64 fs).2)).ePhnum 0 buf
  constructor
  · intro hl
    rw [hrefused hl]
  · intro hl
    rw [hnothing hl]
    exact ⟨_, rfl⟩

/-! ### The new address space -/

/-- What it reaches is the same, and a frame that was in use is not written. -/
theorem newSpace_keeps (h : Forest s tag) : bitmapTest (newSpace im s) 0 = true ∧
    (∀ v, walk (newSpace im s).mem (newSpace im s).pml4 v = walk s.mem s.pml4 v) ∧
    ∀ f, bitmapTest s f = true → (newSpace im s).mem f = s.mem f := by
  rw [newSpace]
  rcases hc : pagingCloneCurrentAddressSpace im s false with ⟨c, s₁⟩
  rcases cloneShared_spec h hc with ⟨rfl, rfl⟩ | ⟨r, s₂, rfl, hfr, hs⟩
  · exact ⟨h.null, fun _ => rfl, fun _ _ => rfl⟩
  · obtain ⟨hchanged, hwalk⟩ := cloneShared_forest h hfr hs
    refine ⟨hchanged.forest.null, hwalk, fun f hf => ?_⟩
    have hne : f ≠ r := by
      rintro rfl
      rw [hfr.free] at hf
      cases hf
    change s₁.mem f = s.mem f
    rw [hs]
    exact (Function.update_of_ne hne ..).trans (hfr.other f hne)

/-- Where there is no frame, not one page is mapped. -/
theorem mapUserLoop_exhausted {flags : Word} {n addr : Nat} (hnull : bitmapTest s 0 = true)
    (hfull : (pagingAllocPage s).1 = none) : mapUserLoop im flags (n + 1) addr s = (false, s) := by
  rw [mapUserLoop]
  rcases ha : pagingAllocPage s with ⟨_ | a, s₁⟩
  · rw [pagingAllocPage_none hnull ha]
  · rw [ha] at hfull
    cases hfull

/-- A file that is refused before a page is loaded, or has none to load where there is no frame: the program
    does not start, and what the caller reaches is the same. -/
theorem askExec_harmless (hnull : bitmapTest (newSpace im s) 0 = true)
    (hload : fileLoading fs hdr buf found = .refused ∨
      fileLoading fs hdr buf found = .nothing ∧ (pagingAllocPage (newSpace im s)).1 = none)
    (hask : askExec im fs bufs hdr buf found freed argv envp s = (ans, s')) :
    ans.image = none ∧ s' = newSpace im s := by
  have hnone : loadProgram im fs bufs hdr buf found (newSpace im s) = (none, newSpace im s) := by
    rw [loadProgram]
    rcases hload with hrefused | ⟨hnothing, hfull⟩
    · rw [elfLoad_loading.1 hrefused]
    · obtain ⟨entry, hentry⟩ := elfLoad_loading.2 hnothing
      rw [hentry]
      dsimp only
      rw [pagingMapUserRange, stack_range.2, mapUserLoop_exhausted hnull hfull]
  rw [askExec, hnone] at hask
  obtain ⟨rfl, rfl⟩ := Prod.mk.inj hask
  exact ⟨rfl, rfl⟩

/-! ### The caller -/

theorem Unharmed.refl (k : Kernel) (s : Vm) : Unharmed k s k s :=
  ⟨fun _ => rfl, fun _ => ⟨rfl, rfl⟩, rfl, rfl, fun _ _ => Iff.rfl, fun _ _ => rfl⟩

/-- On a file `proc_exec` fails where there is no program to start. -/
theorem procExec_fst (ans : Answers) (k : Kernel) : (Proc.procExec ans true k).1 = ans.image.isSome := by
  rw [Proc.procExec, if_pos rfl]
  dsimp only
  cases ans.image <;> rfl

/-- The result is that of `sysExecve`, with what is loaded here. -/
theorem sysExecveWith_fst : (sysExecveWith im fs bufs hdr buf lookup freed mem a0 a1 a2 k s).1 =
    match sysExecve (fun path => if (vfsStat (lookup path) fs).map VfsStat.type = some .file then
      (loadProgram im fs bufs hdr buf (lookup path) (newSpace im s)).1 else none) true mem a0 a1 a2 with
    | .error e => e
    | .ok _ => 0 := by
  rw [sysExecveWith, sysExecve]
  rcases execvePath mem a0 with _ | path
  · rfl
  rcases copyUserStringArray mem a1 16 with _ | argv
  · rfl
  rcases copyUserStringArray mem a2 16 with _ | envp
  · rfl
  dsimp only
  rw [procExecWith, Sys.procExec]
  by_cases hfile : (vfsStat (lookup path) fs).map VfsStat.type = some .file
  · have hran := procExec_fst
      (askExec im fs bufs hdr buf (lookup path) freed (argvPtrs argv) (argvPtrs envp) s).1 k
    rw [askExec, Option.isSome_map] at hran
    dsimp only at hran
    rw [if_pos hfile, if_pos hfile, askExec]
    dsimp only
    rw [hran]
    cases (loadProgram im fs bufs hdr buf (lookup path) (newSpace im s)).1 <;> rfl
  · rw [if_neg hfile, if_neg hfile]

/-- A call that is turned down does nothing. -/
theorem sysExecveWith_turnedDown (hdown : TurnedDown fs lookup mem a0 a1 a2)
    (hcall : sysExecveWith im fs bufs hdr buf lookup freed mem a0 a1 a2 k s = (r, k', s')) :
    k' = k ∧ s' = s := by
  rw [sysExecveWith] at hcall
  split at hcall
  · next path argv envp hp ha he =>
    have hno : (vfsStat (lookup path) fs).map VfsStat.type ≠ some .file := by
      rcases hdown with hc | hc | hno
      · rw [ha] at hc
        cases hc
      · rw [he] at hc
        cases hc
      · exact hno path hp
    rw [procExecWith, if_neg hno] at hcall
    obtain ⟨-, rfl, rfl⟩ : eNoent = r ∧ k = k' ∧ s = s' := by simpa using hcall
    exact ⟨rfl, rfl⟩
  · obtain ⟨-, rfl, rfl⟩ : eFault = r ∧ k = k' ∧ s = s' := by simpa using hcall
    exact ⟨rfl, rfl⟩

/-- Any other that fails has run `proc_exec` on a file. -/
theorem sysExecveWith_ran (hdown : ¬ TurnedDown fs lookup mem a0 a1 a2)
    (hcall : sysExecveWith im fs bufs hdr buf lookup freed mem a0 a1 a2 k s = (r, k', s')) (hr : r < 0) :
    ∃ path argv envp ans, execvePath mem a0 = some path ∧
      askExec im fs bufs hdr buf (lookup path) freed argv envp s = (ans, s') ∧
      Proc.procExec ans true k = (false, k') := by
  rw [TurnedDown, not_or, not_or, not_forall] at hdown
  obtain ⟨ha, he, path, hfile⟩ := hdown
  rw [Classical.not_imp, not_not] at hfile
  obtain ⟨argv, ha⟩ := Option.ne_none_iff_exists'.mp ha
  obtain ⟨envp, he⟩ := Option.ne_none_iff_exists'.mp he
  rw [sysExecveWith, hfile.1, ha, he] at hcall
  dsimp only at hcall
  rw [procExecWith, if_pos hfile.2] at hcall
  dsimp only at hcall
  rcases hask : askExec im fs bufs hdr buf (lookup path) freed (argvPtrs argv) (argvPtrs envp) s with ⟨ans, s₁⟩
  rcases hexec : Proc.procExec ans true k with ⟨_ | _, k₁⟩ <;> rw [hask, hexec] at hcall
  · obtain ⟨-, rfl, rfl⟩ : eNoent = r ∧ k₁ = k' ∧ s₁ = s' := by simpa using hcall
    exact ⟨path, _, _, ans, hfile.1, hask, hexec⟩
  · obtain ⟨rfl, -⟩ := Prod.mk.inj hcall
    exact absurd hr (lt_irrefl 0)

/-- What `proc_exec` closes and sets on a file, whether the program then starts or not. -/
theorem closed_and_set (hk : Reaches Serves k) (hl : (k.tasks k.currentTask).Live)
    (hexec : Proc.procExec ans true k = (false, k')) : Replaced k k' ∧
      (∀ g : Fd, 3 ≤ g.val → table k' k.currentTask g = none) ∧
      (k'.tasks k.currentTask).brk = userBrkStart ∧ (k'.tasks k.currentTask).fsBase = 0 := by
  have hsound : Proc.Sound False ∅ k := hk.sound fun _ _ _ hm => ⟨hm, False.elim⟩
  obtain ⟨k₁, hrep, hbrk, hfs, hafter⟩ := Proc.procExec_after (hsound.fds_injective hl) ans
  obtain rfl : k₁ = k' := by
    rw [hexec] at hafter
    split at hafter
    · exact (Prod.mk.inj hafter).2.symm
    · cases hafter
  refine ⟨hrep, fun g hg => ?_, hbrk, hfs⟩
  have hnone := hrep.closed g hg
  rw [Kernel.fds, hrep.rest.2.2] at hnone
  rw [table, hnone, Option.map_none]

/-- A bare caller has nothing that is closed or set otherwise. -/
theorem bare_unharmed (hk : Reaches Serves k) (hl : (k.tasks k.currentTask).Live) (h : Forest s tag)
    (hbare : Bare k) (hexec : Proc.procExec ans true k = (false, k')) : Unharmed k s k' (newSpace im s) := by
  obtain ⟨hrep, hclosed, hbrk, hfs⟩ := closed_and_set hk hl hexec
  obtain ⟨-, hpages, hbytes⟩ := @newSpace_keeps im _ _ h
  refine ⟨fun g => ?_, fun p => ?_, hbrk.trans hbare.brk.symm, hfs.trans hbare.fsBase.symm,
    fun v e => ?_, hbytes⟩
  · rcases Nat.lt_or_ge g.val 3 with hlt | hge
    · exact hrep.kept g hlt
    · rw [hclosed g hge, table, show (k.tasks k.currentTask).fds g = none from hbare.fds g hge, Option.map_none]
  · rw [hrep.rest.1]
    exact ⟨rfl, rfl⟩
  · rw [hpages v]

/-- Any other caller has lost something. -/
theorem unharmed_bare (hk : Reaches Serves k) (hl : (k.tasks k.currentTask).Live)
    (hexec : Proc.procExec ans true k = (false, k')) (h : Unharmed k s k' s') : Bare k := by
  obtain ⟨-, hclosed, hbrk, hfs⟩ := closed_and_set hk hl hexec
  refine ⟨fun g hg => ?_, h.brk.symm.trans hbrk, h.fsBase.symm.trans hfs⟩
  exact Option.map_eq_none_iff.mp ((h.fds g).symm.trans (hclosed g hg))

/-- In every reachable state: an exec that fails leaves its caller as it was if it was turned down or had
    nothing to undo, and only if it was turned down or its caller was bare. -/
theorem failed_exec_unharmed (hk : Reaches Serves k) (hl : (k.tasks k.currentTask).Live)
    (him : im.kernelEnd ≤ userImagePhysStart) (h : UserReach im s roots kernel)
    (hcall : sysExecveWith im fs bufs hdr buf lookup freed mem a0 a1 a2 k s = (r, k', s')) (hr : r < 0) :
    (Harmless im fs lookup hdr buf mem a0 a1 a2 k s → Unharmed k s k' s') ∧
    (Unharmed k s k' s' → TurnedDown fs lookup mem a0 a1 a2 ∨ Bare k) := by
  by_cases hdown : TurnedDown fs lookup mem a0 a1 a2
  · obtain ⟨rfl, rfl⟩ := sysExecveWith_turnedDown hdown hcall
    exact ⟨fun _ => .refl .., fun _ => .inl hdown⟩
  obtain ⟨tag, hs⟩ := h.sound him
  obtain ⟨path, argv, envp, ans, hpath, hask, hexec⟩ := sysExecveWith_ran hdown hcall hr
  refine ⟨?_, fun hun => .inr (unharmed_bare hk hl hexec hun)⟩
  rintro (hc | ⟨hbare, hload⟩)
  · exact absurd hc hdown
  obtain ⟨-, rfl⟩ := askExec_harmless (newSpace_keeps hs.forest).1 (hload path hpath) hask
  exact bare_unharmed hk hl hs.forest hbare hexec

/-! ### A file that is no program -/

/-- The caller's memory, with the list of one string; all paths lead to a file of one byte. -/
abbrev noProgram (k : Kernel) (s : Vm) : Int × Kernel × Vm :=
  sysExecveWith smallImage (oneFile [0x7f]) (fun _ _ _ => 0) (fun _ => 0) (fun _ => 0) (fun _ => some 1)
    VfsFile.fresh (caller [shText] []).mem (word (caller [shText] []).mem ((caller [shText] []).sp + 8))
    ((caller [shText] []).sp + 8) ((caller [shText] []).sp + 24) k s

/-- The path and the lists are accepted. -/
theorem noProgram_args :
    let b := caller [shText] []
    execvePath b.mem (word b.mem (b.sp + 8)) = some shText ∧
      copyUserStringArray b.mem (b.sp + 8) 16 = some [shText] ∧
      copyUserStringArray b.mem (b.sp + 24) 16 = some [] := by
  intro b
  obtain ⟨ha, he, -⟩ := started_ok shText [] [] (by decide) (by decide) (by decide) (by decide)
  refine ⟨?_, ?_, ?_⟩
  · rw [execvePath, plainPath_eq ha.2.2.1]
    exact if_pos (by decide)
  · exact copyArrayLoop_eq (by rwa [Nat.zero_mul, Nat.add_zero]) (by decide) (by decide)
  · exact copyArrayLoop_eq (by rwa [Nat.zero_mul, Nat.add_zero]) (by decide) (by decide)

theorem noProgram_refused {hdr buf : Bytes.Memory} :
    fileLoading (oneFile [0x7f]) hdr buf (some 1) = .refused := by
  rw [fileLoading, readAt_oneFile]
  exact if_pos (.inl (by decide))

/-- The call reads the file, and fails. -/
theorem noProgram_fails (k : Kernel) (s : Vm) (hnull : bitmapTest (newSpace smallImage s) 0 = true) :
    ∃ ans k', noProgram k s = (eNoent, k', newSpace smallImage s) ∧ Proc.procExec ans true k = (false, k') := by
  obtain ⟨hpath, hargv, henvp⟩ := noProgram_args
  rw [noProgram, sysExecveWith, hpath, hargv, henvp]
  dsimp only
  rw [procExecWith, if_pos (by decide)]
  dsimp only
  rcases hask : askExec smallImage (oneFile [0x7f]) (fun _ _ _ => 0) (fun _ => 0) (fun _ => 0) (some 1)
    VfsFile.fresh (argvPtrs [shText]) (argvPtrs []) s with ⟨ans, s'⟩
  obtain ⟨himage, rfl⟩ := askExec_harmless hnull (.inl noProgram_refused) hask
  refine ⟨ans, (Proc.procExec ans true k).2, ?_⟩
  have hfail : (Proc.procExec ans true k).1 = false := by rw [procExec_fst, himage, Option.isSome_none]
  rcases hexec : Proc.procExec ans true k with ⟨ok, k'⟩
  rw [hexec] at hfail
  subst hfail
  exact ⟨rfl, rfl⟩

/-- A program that has asked for nothing, in a machine where its page was loaded, keeps it. -/
theorem failed_exec_unharmed_bare : ∃ k s e k' s', Reaches Serves k ∧ (k.fds 2).isSome ∧
    UserReach smallImage s [smallImage.pmlTable] ∅ ∧ walk s.mem s.pml4 0x400000 = some (e, true) ∧
    noProgram k s = (eNoent, k', s') ∧ Unharmed k s k' s' := by
  obtain ⟨s, e, hreach, hroot, hw⟩ := loaded_page
  rw [← hroot] at hw
  obtain ⟨tag, hs⟩ := hreach.sound (by decide)
  let k := Proc.procInit (Proc.roomy 1) (Kernel.zero ∅ (fun _ => VfsFile.fresh) 0)
  have hk : Reaches Serves k := .init ..
  obtain ⟨ans, k', hcall, -⟩ := noProgram_fails k s (newSpace_keeps hs.forest).1
  have hboth := failed_exec_unharmed hk (by decide) (by decide) hreach hcall (show eNoent < 0 by decide)
  refine ⟨k, s, e, k', _, hk, by decide, hreach, hw, hcall, hboth.1 (.inr ⟨⟨?_, rfl, rfl⟩, ?_⟩)⟩
  · decide
  · exact fun path _ => .inl noProgram_refused

/-- A program with a pipe: the call fails, and the two ends of the pipe are closed. -/
theorem failed_exec_closes_pipe : ¬ ∀ im fs bufs hdr buf lookup freed mem a0 a1 a2 k s roots kernel r k' s',
    Reaches Serves k → (k.tasks k.currentTask).Live → im.kernelEnd ≤ userImagePhysStart →
    UserReach im s roots kernel →
    sysExecveWith im fs bufs hdr buf lookup freed mem a0 a1 a2 k s = (r, k', s') → r < 0 →
    Unharmed k s k' s' := by
  intro hall
  have hk := Proc.pipeMade_reaches Serves fun _ _ _ => trivial
  have hl : (Proc.pipeMade.tasks Proc.pipeMade.currentTask).Live := by decide
  have hreach : UserReach smallImage mostVm _ _ := TableReach.init (fun _ _ => 0#64) mostMemory
  obtain ⟨tag, hs⟩ := hreach.sound (by decide)
  obtain ⟨ans, k', hcall, hexec⟩ := noProgram_fails Proc.pipeMade mostVm (newSpace_keeps hs.forest).1
  have hun := hall _ _ _ _ _ _ _ _ _ _ _ _ _ _ _ _ _ _ hk hl (by decide) hreach hcall (show eNoent < 0 by decide)
  exact absurd ((unharmed_bare hk hl hexec hun).fds 3 (by decide)) (by decide)

end TypeOS.Elf
