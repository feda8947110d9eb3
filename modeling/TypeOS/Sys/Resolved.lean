import TypeOS.Sys.Cwd
import TypeOS.Fs.Expand
import TypeOS.Proc.Counted

/-! What the calls that put the working directory in front of a path act on.

    The joined path is cut off at the end of its buffer, and no call is told. So a call whose path is too
    long fails only where the part that is left names nothing that it takes. -/

namespace TypeOS.Sys

open Fs (Text Ptr Vfs slash)
open Proc (Answers Kernel isConsolePath isNullPath)
open Proc.Kernel (onTask_tasks_self onTask_currentTask)
open Bytes (Memory)

/-- `E_ACCES`. -/
abbrev eAcces : Int := -13

/-- What `vfs_open` finds, if `sys_open_path` asks it, for so many expansions of symlinks. -/
def openNode (n : Nat) (ans : Answers) (path : Text) (σ : System) : Option (Option Ptr) :=
  if (Proc.fdAlloc (ans.kmalloc 0) σ.kernel).1 = none ∨ isConsolePath (stringOf path) = true ∨
    isNullPath (stringOf path) = true then some none
  else (Fs.vfsLookupPath n σ.vfs path true).map fun found =>
    (Fs.vfsOpen found path σ.vfs).bind Fs.VfsFile.inode

/-- `SYS_open`. -/
def sysOpen (n : Nat) (ans : Answers) (mem : Memory) (a0 : Nat) (σ : System) : Option (Int × System) :=
  match openPath mem σ.cwd a0 with
  | none => some (eFault, σ)
  | some resolved => (openNode n ans resolved σ).map fun node =>
    let r := Proc.sysOpenPath ans (stringOf resolved) node σ.kernel
    (r.1, { σ with kernel := r.2 })

/-- `SYS_access`. -/
def sysAccess (n : Nat) (mem : Memory) (a0 : Nat) (σ : System) : Option (Int × System) :=
  match accessPath mem σ.cwd a0 with
  | none => some (eFault, σ)
  | some resolved => (Fs.vfsLookupPath n σ.vfs resolved true).map fun found =>
    match Fs.vfsStat found σ.vfs with
    | none => (eNoent, σ)
    | some _ => (0, σ)

/-- The path in `SYS_unlink`. -/
def unlinkPath := resolvedPath

/-- `SYS_unlink`. -/
def sysUnlink (mem : Memory) (a0 : Nat) (σ : System) : Int × System :=
  match unlinkPath mem σ.cwd a0 with
  | none => (eFault, σ)
  | some resolved =>
    if isConsolePath (stringOf resolved) || isNullPath (stringOf resolved) then (eAcces, σ) else (0, σ)

/-- The calls that resolve a path. -/
inductive JoinCall
  | sysOpen
  | sysAccess
  | sysChdir
  | sysUnlink
  deriving DecidableEq

/-- A call on the path at `a0`, for so many expansions of symlinks: none if it is still at it. -/
def JoinCall.run (n : Nat) (ans : Answers) (mem : Memory) (a0 : Nat) (σ : System) :
    JoinCall → Option (Int × System)
  | sysOpen => Sys.sysOpen n ans mem a0 σ
  | sysAccess => Sys.sysAccess n mem a0 σ
  | sysChdir => Sys.sysChdir n mem a0 σ
  | sysUnlink => some (Sys.sysUnlink mem a0 σ)

/-- The path leads to something, which passes the test. -/
def LeadsTo (s : Vfs) (path : Text) (ok : Ptr → Prop) : Prop :=
  ∃ n p, Fs.vfsLookupPath n s path true = some (some p) ∧ ok p

/-- The path names something that a call takes. -/
def JoinCall.Takes (ans : Answers) (σ : System) (path : Text) : JoinCall → Prop
  | sysOpen => (Proc.fdAlloc (ans.kmalloc 0) σ.kernel).1 ≠ none ∧
      (isConsolePath (stringOf path) = true ∨ isNullPath (stringOf path) = true ∨
        LeadsTo σ.vfs path fun p => σ.vfs.type p = .file ∨ σ.vfs.type p = .dir)
  | sysAccess => LeadsTo σ.vfs path fun _ => True
  | sysChdir => LeadsTo σ.vfs path fun p => σ.vfs.type p = .dir
  | sysUnlink => isConsolePath (stringOf path) = false ∧ isNullPath (stringOf path) = false

variable {n a0 : Nat} {ans : Answers} {mem : Memory} {σ σ' : System} {path : Text} {r : Int} {s : Vfs}
  {ok : Ptr → Prop}

/-! ### When a call fails -/

/-- What a lookup found is all that there is to find. -/
theorem leadsTo_iff {found : Option Ptr} (hl : Fs.vfsLookupPath n s path true = some found) :
    LeadsTo s path ok ↔ ∃ p, found = some p ∧ ok p := by
  constructor
  · rintro ⟨m, p, hm, hp⟩
    exact ⟨p, Fs.lookup_unique hl hm, hp⟩
  · rintro ⟨p, rfl, hp⟩
    exact ⟨n, p, hl, hp⟩

theorem sysOpen_fails {resolved : Text} (hp : openPath mem σ.cwd a0 = some resolved)
    (hr : sysOpen n ans mem a0 σ = some (r, σ')) : r < 0 ↔ ¬ JoinCall.sysOpen.Takes ans σ resolved := by
  have hmem : Proc.eNomem < 0 := by decide
  have hent : Proc.eNoent < 0 := by decide
  rw [sysOpen, hp] at hr
  dsimp only at hr
  obtain ⟨node, hnode, hr⟩ := Option.map_eq_some_iff.mp hr
  rw [Proc.sysOpenPath] at hr
  rw [JoinCall.Takes]
  rcases Proc.fdAlloc_cases (ans.kmalloc 0) σ.kernel with hf | ⟨fd, h, -, -, hf⟩
  · rw [hf] at hr ⊢
    obtain ⟨rfl, -⟩ := Prod.mk.inj hr
    exact iff_of_true hmem fun ht => ht.1 rfl
  rw [openNode, hf] at hnode
  rw [hf] at hr ⊢
  dsimp only at hr
  have hfd : ¬ ((fd.val : Int) < 0) := by omega
  by_cases hdev : isConsolePath (stringOf resolved) = true ∨ isNullPath (stringOf resolved) = true
  · rw [if_pos (by simpa using hdev)] at hr
    obtain ⟨rfl, -⟩ := Prod.mk.inj hr
    refine iff_of_false hfd (not_not.mpr ⟨by simp, ?_⟩)
    tauto
  · rw [if_neg (by simpa using hdev)] at hr
    rw [if_neg (by simpa using hdev)] at hnode
    obtain ⟨found, hl, rfl⟩ := Option.map_eq_some_iff.mp hnode
    rw [leadsTo_iff hl]
    rw [not_or] at hdev
    simp only [hdev.1, hdev.2, false_or, ne_eq, reduceCtorEq, not_false_eq_true, true_and]
    rcases found with _ | p
    · obtain ⟨rfl, -⟩ := Prod.mk.inj hr
      exact iff_of_true hent (by simp)
    · by_cases ht : σ.vfs.type p = .file ∨ σ.vfs.type p = .dir
      · rw [Fs.vfsOpen, if_neg (by tauto)] at hr
        obtain ⟨rfl, -⟩ := Prod.mk.inj hr
        exact iff_of_false hfd (not_not.mpr ⟨p, rfl, ht⟩)
      · rw [Fs.vfsOpen, if_pos (by tauto)] at hr
        obtain ⟨rfl, -⟩ := Prod.mk.inj hr
        refine iff_of_true hent ?_
        rintro ⟨q, hq, hqt⟩
        rw [Option.some.inj hq] at ht
        exact ht hqt

theorem sysAccess_fails {resolved : Text} (hp : accessPath mem σ.cwd a0 = some resolved)
    (hr : sysAccess n mem a0 σ = some (r, σ')) :
    r < 0 ↔ ¬ JoinCall.sysAccess.Takes ans σ resolved := by
  rw [sysAccess, hp] at hr
  obtain ⟨found, hl, hr⟩ := Option.map_eq_some_iff.mp hr
  rw [JoinCall.Takes, leadsTo_iff hl]
  rcases found with _ | p <;> obtain ⟨rfl, -⟩ := Prod.mk.inj hr
  · exact iff_of_true (by decide) (by simp)
  · exact iff_of_false (by decide) (by simp)

theorem sysChdir_fails {resolved : Text} (hp : chdirPath mem σ.cwd a0 = some resolved)
    (hr : sysChdir n mem a0 σ = some (r, σ')) :
    r < 0 ↔ ¬ JoinCall.sysChdir.Takes ans σ resolved := by
  rw [sysChdir, hp] at hr
  dsimp only at hr
  cases hl : Fs.vfsLookupPath n σ.vfs resolved true with
  | none =>
    rw [hl] at hr
    cases hr
  | some found =>
    rw [JoinCall.Takes, leadsTo_iff hl]
    rw [hl] at hr
    rcases found with _ | p
    · obtain ⟨rfl, -⟩ := Prod.mk.inj (Option.some.inj hr)
      exact iff_of_true (by decide) (by simp)
    · dsimp only [Fs.vfsStat] at hr
      split at hr
      · next ht =>
        obtain ⟨rfl, -⟩ := Prod.mk.inj (Option.some.inj hr)
        refine iff_of_true (by decide) ?_
        rintro ⟨q, hq, hd⟩
        exact ht (Option.some.inj hq ▸ hd)
      · next ht =>
        obtain ⟨rfl, -⟩ := Prod.mk.inj (Option.some.inj hr)
        exact iff_of_false (by decide) (not_not.mpr ⟨p, rfl, not_not.mp ht⟩)

theorem sysUnlink_fails {resolved : Text} (hp : unlinkPath mem σ.cwd a0 = some resolved) :
    (sysUnlink mem a0 σ).1 < 0 ↔ ¬ JoinCall.sysUnlink.Takes ans σ resolved := by
  rw [sysUnlink, hp, JoinCall.Takes]
  dsimp only
  cases isConsolePath (stringOf resolved) <;> cases isNullPath (stringOf resolved) <;> simp

/-- A call that returns fails if and only if it does not take the path that it was given. -/
theorem JoinCall.fails {resolved : Text} (c : JoinCall)
    (hp : resolvedPath mem σ.cwd a0 = some resolved) (hr : c.run n ans mem a0 σ = some (r, σ')) :
    r < 0 ↔ ¬ c.Takes ans σ resolved := by
  cases c with
  | sysOpen => exact sysOpen_fails hp hr
  | sysAccess => exact sysAccess_fails hp hr
  | sysChdir => exact sysChdir_fails hp hr
  | sysUnlink =>
    obtain ⟨rfl, -⟩ := Prod.mk.inj (Option.some.inj hr)
    exact sysUnlink_fails hp

/-! ### What it acts on -/

end TypeOS.Sys
