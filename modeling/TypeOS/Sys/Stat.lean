import TypeOS.Lib.Record
import TypeOS.Sys.Getcwd
import TypeOS.Sys.Resolved

/-! Asking what a path or a descriptor is (`SYS_stat`, `SYS_newfstatat`, `SYS_fstat`).

    All of them store the same record, of which the mode, the size and a link count are filled in. A
    descriptor answers like the absolute path it was opened with; but the console's has a mode of its own,
    and `/dev/null` can be opened and not asked, since its descriptor has no inode. -/

namespace TypeOS.Sys

open Fs (Text Ptr Vfs VfsStat slash)
open Proc (Answers Kernel isConsolePath isNullPath fdGet eBadf)
open Proc.Kernel
open Bytes

/-- `E_NOSYS`. -/
abbrev eNosys : Int := -38

/-- `struct linux_stat`, but for the fields that nothing sets: they are zero. -/
structure LinuxStat where
  stNlink : Nat
  stMode : BitVec 32
  stSize : Nat

/-- All fields with their widths, in their order. -/
def LinuxStat.fields (st : LinuxStat) : List (Nat × Nat) :=
  [(8, 0), (8, 0), (8, st.stNlink), (4, st.stMode.toNat), (4, 0), (4, 0), (4, 0), (8, 0), (8, st.stSize)] ++
    List.replicate 11 (8, 0)

/-- Their widths. -/
def linuxStatWidths : List Nat := [8, 8, 8, 4, 4, 4, 4, 8, 8] ++ List.replicate 11 8

/-- `fill_stat`. -/
def fillStat (vs : VfsStat) : LinuxStat := ⟨1, vs.mode, vs.size⟩

/-- What `SYS_fstat` answers for the console. -/
def consoleStat : LinuxStat := ⟨1, 0o200600#32, 0⟩

/-- The end of the calls. -/
def putStat (mem : Memory) (dst : Nat) (st : LinuxStat) : Int × Memory :=
  match copyToUser mem dst (packRecord st.fields) with
  | none => (eFault, mem)
  | some mem => (0, mem)

/-- The answer for a path that was looked up. -/
def statFound (mem : Memory) (dst : Nat) (s : Vfs) (found : Option Ptr) : Int × Memory :=
  match Fs.vfsStat found s with
  | none => (eNoent, mem)
  | some vs => putStat mem dst (fillStat vs)

/-- `SYS_stat`: the result and the memory afterwards, for so many expansions of symlinks. -/
def sysStat (n : Nat) (mem : Memory) (a0 a1 : Nat) (s : Vfs) : Option (Int × Memory) :=
  match statPath mem a0 with
  | none => some (eFault, mem)
  | some path => (Fs.vfsLookupPath n s path true).map (statFound mem a1 s)

/-- `SYS_newfstatat` and `SYS_statx`. -/
def sysNewfstatat (n : Nat) (mem : Memory) (a0 : Int) (a1 a2 : Nat) (s : Vfs) : Option (Int × Memory) :=
  match newfstatatPath a0 mem a1 with
  | none =>
    some (if (copyStrFromUser mem a1 256).isSome ∧ a0 ≠ atFdcwd then eNosys else eFault, mem)
  | some path => (Fs.vfsLookupPath n s path true).map (statFound mem a2 s)

/-- `SYS_fstat`. -/
def sysFstat (mem : Memory) (a0 : Int) (a1 : Nat) (σ : System) : Int × Memory :=
  match fdGet a0 σ.kernel with
  | none => (eBadf, mem)
  | some h =>
    let file := σ.kernel.files h
    if file.inode = none ∧ isConsolePath file.path = true then putStat mem a1 consoleStat
    else
      match Fs.vfsStat file.inode σ.vfs with
      | none => (eBadf, mem)
      | some vs => putStat mem a1 (fillStat vs)

variable {n a0 a1 dst : Nat} {ans : Answers} {mem mem' : Memory} {σ σ' : System} {path resolved : Text}
  {r : Int} {st : LinuxStat}

/-! ### The record -/

/-- The record is stored whole or not at all. -/
theorem putStat_cases (hput : putStat mem dst st = (r, mem')) :
    r < 0 ∧ mem' = mem ∨ r = 0 ∧ mem' = store mem dst (packRecord st.fields) := by
  rw [putStat, copyToUser] at hput
  by_cases hok : userPtrOk dst (packRecord st.fields).length = true
  · rw [if_pos hok] at hput
    obtain ⟨rfl, rfl⟩ := Prod.mk.inj hput
    exact .inr ⟨rfl, rfl⟩
  · rw [if_neg hok] at hput
    obtain ⟨rfl, rfl⟩ := Prod.mk.inj hput
    exact .inl ⟨by decide, rfl⟩

/-- A record that was stored reads back. -/
theorem putStat_reads (hput : putStat mem dst st = (0, mem')) (hn : st.stNlink < 2 ^ 64)
    (hs : st.stSize < 2 ^ 64) :
    readRecord linuxStatWidths (load mem' dst 144) =
      [0, 0, st.stNlink, st.stMode.toNat, 0, 0, 0, 0, st.stSize] ++ List.replicate 11 0 := by
  obtain ⟨hneg, -⟩ | ⟨-, rfl⟩ := putStat_cases hput
  · exact absurd hneg (lt_irrefl 0)
  have hlen : (packRecord st.fields).length = 144 := by
    rw [length_packRecord]
    rfl
  rw [← hlen, load_store]
  have hmode := st.stMode.isLt
  refine @readRecord_packRecord st.fields ?_
  intro f hf
  simp only [LinuxStat.fields, List.mem_append, List.mem_cons, List.not_mem_nil, or_false,
    List.mem_replicate] at hf
  rcases hf with (rfl | rfl | rfl | rfl | rfl | rfl | rfl | rfl | rfl) | ⟨-, rfl⟩ <;> norm_num <;> omega

/-! ### After an open -/

/-- With an absolute path `SYS_newfstatat` does not look at its directory. -/
theorem sysNewfstatat_absolute (hpath : statPath mem a0 = some path) (habs : path.head? = some slash)
    (m : Nat) (dirfd : Int) (s : Vfs) : sysNewfstatat m mem dirfd a0 a1 s = sysStat m mem a0 a1 s := by
  have hcopy : copyStrFromUser mem a0 256 = some path := hpath
  have hnew : newfstatatPath dirfd mem a0 = some path := by
    rw [newfstatatPath, hcopy]
    dsimp only
    rw [if_neg (by simp [habs]), if_neg (by simp [habs])]
  rw [sysNewfstatat, hnew, sysStat, hpath]

/-- A descriptor that was just installed is found, whatever its file is set to. -/
theorem fdGet_installed {k : Kernel} (fd : Proc.Fd) (h : Proc.Handle) (file : Proc.VfsFile) :
    fdGet (fd.val : Int)
      ((Proc.install k.currentTask fd h Proc.VfsFile.fresh k).setFile h file) = some h := by
  have hfd : Proc.toFd (fd.val : Int) = some fd := by
    have := fd.isLt
    rw [Proc.toFd, dif_pos ⟨by omega, by omega⟩]
    rfl
  rw [fdGet, hfd, Option.bind_some]
  simp [Proc.Kernel.fds, Proc.install, setFd, setFile]

/-- A file that has an inode is open on what was found. -/
theorem vfsOpen_inode {found : Option Ptr} {q : Ptr} {s : Vfs}
    (hv : (Fs.vfsOpen found path s).bind Fs.VfsFile.inode = some q) : found = some q := by
  obtain ⟨file, hfile, hq⟩ := Option.bind_eq_some_iff.mp hv
  cases found with
  | none => cases hfile
  | some p =>
    rw [Fs.vfsOpen] at hfile
    split at hfile
    · cases hfile
    · obtain rfl := Option.some.inj hfile
      exact hq

/-- What a descriptor that `SYS_open` returned is open on. -/
theorem sysOpen_file (hp : openPath mem σ.cwd a0 = some resolved)
    (hopen : sysOpen n ans mem a0 σ = some (r, σ')) (hr : 0 ≤ r) :
    σ'.vfs = σ.vfs ∧ ∃ h, fdGet r σ'.kernel = some h ∧ (σ'.kernel.files h).path = stringOf resolved ∧
      (isConsolePath (stringOf resolved) = true ∨ isNullPath (stringOf resolved) = true →
        (σ'.kernel.files h).inode = none) ∧
      (¬ (isConsolePath (stringOf resolved) = true ∨ isNullPath (stringOf resolved) = true) →
        ∃ p, Fs.vfsLookupPath n σ.vfs resolved true = some (some p) ∧ (σ'.kernel.files h).inode = some p) := by
  have hmem : Proc.eNomem < 0 := by decide
  have hent : Proc.eNoent < 0 := by decide
  rw [sysOpen, hp] at hopen
  dsimp only at hopen
  obtain ⟨node, hnode, hopen⟩ := Option.map_eq_some_iff.mp hopen
  rw [Proc.sysOpenPath] at hopen
  rcases Proc.fdAlloc_cases (ans.kmalloc 0) σ.kernel with hf | ⟨fd, h, -, -, hf⟩
  · rw [hf] at hopen
    obtain ⟨rfl, -⟩ := Prod.mk.inj hopen
    exact absurd hr (not_le.mpr hmem)
  rw [openNode, hf] at hnode
  rw [hf] at hopen
  dsimp only at hopen
  by_cases hdev : isConsolePath (stringOf resolved) = true ∨ isNullPath (stringOf resolved) = true
  · rw [if_pos (by simpa using hdev)] at hopen
    obtain ⟨rfl, rfl⟩ := Prod.mk.inj hopen
    refine ⟨rfl, h, fdGet_installed fd h _, ?_, ?_, fun hno => absurd hdev hno⟩
    · simp [setFile]
    · simp [setFile, Proc.VfsFile.fresh]
  · rw [if_neg (by simpa using hdev)] at hopen
    rw [if_neg (by simpa using hdev)] at hnode
    obtain ⟨found, hl, rfl⟩ := Option.map_eq_some_iff.mp hnode
    rcases hv : (Fs.vfsOpen found resolved σ.vfs).bind Fs.VfsFile.inode with _ | q
    · rw [hv] at hopen
      obtain ⟨rfl, -⟩ := Prod.mk.inj hopen
      exact absurd hr (not_le.mpr hent)
    rw [hv] at hopen
    obtain ⟨rfl, rfl⟩ := Prod.mk.inj hopen
    refine ⟨rfl, h, fdGet_installed fd h _, ?_, fun hc => absurd hc hdev, fun _ => ⟨q, ?_, ?_⟩⟩
    · simp [setFile]
    · rw [hl, vfsOpen_inode hv]
    · simp [setFile]

/-- A descriptor that was opened with an absolute path answers like the path: with the mode and the size of
    what it leads to. The console's has a mode of its own, and that of `/dev/null` gives no answer. -/
theorem fstat_after_open (hopen : sysOpen n ans mem a0 σ = some (r, σ')) (hr : 0 ≤ r)
    (hpath : statPath mem a0 = some path) (habs : path.head? = some slash) :
    (isConsolePath (stringOf path) = true → sysFstat mem r a1 σ' = putStat mem a1 consoleStat) ∧
    (isNullPath (stringOf path) = true → sysFstat mem r a1 σ' = (eBadf, mem)) ∧
    (isConsolePath (stringOf path) = false → isNullPath (stringOf path) = false →
      ∃ p, Fs.vfsLookupPath n σ.vfs path true = some (some p) ∧
        (∀ m res, sysStat m mem a0 a1 σ.vfs = some res ∨
          (∃ dirfd, sysNewfstatat m mem dirfd a0 a1 σ.vfs = some res) → sysFstat mem r a1 σ' = res) ∧
        ((σ.vfs.inodes p).size < 2 ^ 64 → ∀ mem', sysFstat mem r a1 σ' = (0, mem') →
          readRecord linuxStatWidths (load mem' a1 144) =
            [0, 0, 1, (σ.vfs.inodes p).mode.toNat, 0, 0, 0, 0, (σ.vfs.inodes p).size] ++
              List.replicate 11 0)) := by
  have hat : StrAt mem a0 path := copyStrLoop_strAt _ hpath
  have hlen : path.length + 1 < 256 := by
    have := copyStrFromUser_eq 256 hat
    rw [show copyStrFromUser mem a0 256 = some path from hpath] at this
    by_contra hno
    rw [if_neg hno] at this
    cases this
  have hp : openPath mem σ.cwd a0 = some path := by
    have := @resolvedPath_eq mem a0 σ.cwd path hat
    rw [if_pos (by omega), joined, if_pos habs, List.take_of_length_le (by omega)] at this
    exact this
  obtain ⟨hvfs, h, hget, hfile, hdev, hreg⟩ := sysOpen_file hp hopen hr
  refine ⟨?_, ?_, ?_⟩
  · intro hcon
    rw [sysFstat, hget]
    dsimp only
    rw [if_pos ⟨hdev (.inl hcon), hfile ▸ hcon⟩]
  · intro hnull
    have hno : isConsolePath (stringOf path) = false := by
      rw [isNullPath, decide_eq_true_eq] at hnull
      rw [hnull]
      decide
    rw [sysFstat, hget]
    dsimp only
    rw [if_neg (by rw [hfile, hno]; simp), hdev (.inr hnull)]
    rfl
  · intro hcon hnull
    obtain ⟨p, hl, hinode⟩ := hreg (by simp [hcon, hnull])
    have hanswer : sysFstat mem r a1 σ' = statFound mem a1 σ.vfs (some p) := by
      rw [sysFstat, hget]
      dsimp only
      rw [if_neg (by rw [hinode]; simp), hinode, hvfs]
      rfl
    refine ⟨p, hl, ?_, ?_⟩
    · intro m res hres
      have hstat : sysStat m mem a0 a1 σ.vfs = some res := by
        rcases hres with hres | ⟨dirfd, hres⟩
        · exact hres
        · rwa [sysNewfstatat_absolute hpath habs] at hres
      rw [sysStat, hpath] at hstat
      obtain ⟨found, hl', rfl⟩ := Option.map_eq_some_iff.mp hstat
      rw [hanswer, Fs.lookup_unique hl' hl]
    · intro hsize mem' hput
      rw [hanswer] at hput
      have hone : 1 < 2 ^ 64 := by decide
      exact @putStat_reads a1 mem mem' (fillStat ⟨σ.vfs.type p, (σ.vfs.inodes p).mode, (σ.vfs.inodes p).size⟩)
        hput hone hsize

/-- The first task opens the root directory and asks what it is. -/
theorem fstat_after_open_root : ∃ σ' res,
    sysOpen 1 (Proc.roomy 10) (oneString [slash]) userAddrMin bootSystem = some (3, σ') ∧
    sysStat 1 (oneString [slash]) userAddrMin 0x500000 bootSystem.vfs = some res ∧ res.1 = 0 ∧
    sysFstat (oneString [slash]) 3 0x500000 σ' = res := by
  have hopens : (sysOpen 1 (Proc.roomy 10) (oneString [slash]) userAddrMin bootSystem).map Prod.fst = some 3 := by
    decide
  have hasks : (sysStat 1 (oneString [slash]) userAddrMin 0x500000 bootSystem.vfs).map Prod.fst = some 0 := by
    decide +kernel
  have hpath : statPath (oneString [slash]) userAddrMin = some [slash] := by decide
  obtain ⟨⟨r, σ'⟩, hopen, rfl⟩ := Option.map_eq_some_iff.mp hopens
  obtain ⟨res, hstat, hres⟩ := Option.map_eq_some_iff.mp hasks
  obtain ⟨p, -, hsame, -⟩ := (fstat_after_open hopen (by decide) hpath rfl).2.2
    (by decide) (by decide)
  exact ⟨σ', res, hopen, hstat, hres, hsame 1 res (.inl hstat)⟩

end TypeOS.Sys
