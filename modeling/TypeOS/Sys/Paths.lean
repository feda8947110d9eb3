import TypeOS.Sys.User

/-! The path that a call hands to the file system.

    The calls that open, test or enter a path put the working directory in front of a relative one
    (`resolve_path`). `SYS_newfstatat` puts a slash there, and `SYS_stat`, `SYS_readlink` and
    `SYS_execve` put nothing. -/

namespace TypeOS.Sys

open Fs Bytes

/-- `AT_FDCWD`. -/
abbrev atFdcwd : Int := -100

/-- `strncat_simple`, with `dest` shorter than `destlen`. -/
def strncatSimple (dest src : Text) (destlen : Nat) : Text := dest ++ src.take (destlen - 1 - dest.length)

/-- `resolve_path`: what `out` holds. -/
def resolvePath (cwd path : Text) (outlen : Nat) : Text :=
  if path.head? = some slash then path.take (outlen - 1)
  else if cwd = [slash] then slash :: path.take (outlen - 2)
  else strncatSimple (strncatSimple (cwd.take (outlen - 1)) [slash] outlen) path outlen

/-- The start of the calls that resolve their path. -/
def resolvedPath (mem : Memory) (cwd : Text) (uaddr : Nat) : Option Text :=
  (copyStrFromUser mem uaddr 256).map fun path => resolvePath cwd path 256

/-- The path in `SYS_open`. -/
def openPath := resolvedPath

/-- The path in `SYS_openat`, which does not look at the directory that it is given. -/
def openatPath (_dirfd : Int) := resolvedPath

/-- The path in `SYS_access`. -/
def accessPath := resolvedPath

/-- The path in `SYS_chdir`. -/
def chdirPath := resolvedPath

/-- The start of the calls that take their path as it is. -/
def plainPath (mem : Memory) (uaddr : Nat) : Option Text := copyStrFromUser mem uaddr 256

/-- The path in `SYS_stat`. -/
def statPath := plainPath

/-- The path in `SYS_readlink`. -/
def readlinkPath := plainPath

/-- The path in `SYS_execve`. -/
def execvePath := plainPath

/-- The path in `SYS_newfstatat`. -/
def newfstatatPath (dirfd : Int) (mem : Memory) (uaddr : Nat) : Option Text :=
  match copyStrFromUser mem uaddr 256 with
  | none => none
  | some path =>
    if path.head? ≠ some slash ∧ dirfd = atFdcwd then
      if 280 ≤ path.length + 2 then none else some ((slash :: path).take 255)
    else if dirfd ≠ atFdcwd ∧ path.head? ≠ some slash then none
    else some path

/-- The calls that take a path. -/
inductive PathCall
  | sysOpen
  | sysOpenat
  | sysAccess
  | sysChdir
  | sysStat
  | sysNewfstatat
  | sysReadlink
  | sysExecve
  deriving DecidableEq

/-- The path that a call looks up for a task in the directory `cwd`; none when it fails before. -/
def PathCall.path (mem : Memory) (cwd : Text) (uaddr : Nat) : PathCall → Option Text
  | sysOpen => openPath mem cwd uaddr
  | sysOpenat => openatPath atFdcwd mem cwd uaddr
  | sysAccess => accessPath mem cwd uaddr
  | sysChdir => chdirPath mem cwd uaddr
  | sysStat => statPath mem uaddr
  | sysNewfstatat => newfstatatPath atFdcwd mem uaddr
  | sysReadlink => readlinkPath mem uaddr
  | sysExecve => execvePath mem uaddr

/-- The absolute path that a path means in a directory. -/
def joined (cwd path : Text) : Text :=
  if path.head? = some slash then path
  else if cwd = [slash] then slash :: path
  else cwd ++ slash :: path

variable {mem : Memory} {addr : Nat} {cwd path : Text}

/-- `resolve_path` cuts off the end of a long path, and nothing else. -/
theorem resolvePath_eq (cwd path : Text) : resolvePath cwd path 256 = (joined cwd path).take 255 := by
  unfold resolvePath joined
  split
  · rfl
  · split
    · exact (List.take_succ_cons ..).symm
    · simp only [strncatSimple]
      by_cases hl : 255 ≤ cwd.length
      · have h1 : (cwd.take 255).length = 255 := by rw [List.length_take]; omega
        rw [List.take_append_of_le_length hl]
        simp [h1]
      · have h1 : cwd.take 255 = cwd := List.take_of_length_le (by omega)
        obtain ⟨n, hn⟩ : ∃ n, 255 - cwd.length = n + 1 := ⟨254 - cwd.length, by omega⟩
        have hlen : 255 - (cwd ++ [slash]).length = n := by
          rw [List.length_append, List.length_singleton]
          omega
        have h2 : [slash].take (256 - 1 - cwd.length) = [slash] := by
          rw [hn, List.take_succ_cons, List.take_nil]
        rw [h1, h2, hlen, List.take_append, List.take_of_length_le (by omega : cwd.length ≤ 255), hn,
          List.take_succ_cons, List.append_assoc]
        rfl

/-- A path that is taken as it is, or not at all. -/
theorem plainPath_eq (h : StrAt mem addr path) :
    plainPath mem addr = if path.length ≤ 254 then some path else none := by
  rw [plainPath, copyStrFromUser_eq 256 h]
  refine if_congr ?_ rfl rfl
  omega

theorem resolvedPath_eq (h : StrAt mem addr path) : resolvedPath mem cwd addr =
    if path.length ≤ 254 then some ((joined cwd path).take 255) else none := by
  have hp := plainPath_eq h
  rw [plainPath] at hp
  rw [resolvedPath, hp]
  split
  · rw [Option.map_some, resolvePath_eq]
  · rfl

theorem newfstatatPath_eq (h : StrAt mem addr path) (ha : path.head? = some slash) :
    newfstatatPath atFdcwd mem addr = plainPath mem addr := by
  have hp := plainPath_eq h
  rw [plainPath] at hp ⊢
  rw [newfstatatPath, hp]
  split_ifs
  · simp [ha]
  · rfl

/-- A relative path is shorter than what it means. -/
theorem joined_ne (hr : path.head? ≠ some slash) : joined cwd path ≠ path := by
  intro h
  have hl := congrArg List.length h
  rw [joined, if_neg hr] at hl
  split at hl <;> simp only [List.length_cons, List.length_append] at hl <;> omega

/-- The calls agree on a path if and only if it is absolute and `copy_str_from_user` takes it. -/
theorem paths_agree_iff (h : StrAt mem addr path) (hj : (joined cwd path).length < 256) :
    (∀ c : PathCall, c.path mem cwd addr = some (joined cwd path)) ↔
      path.head? = some slash ∧ path.length ≤ 254 := by
  constructor
  · intro hall
    have hs : plainPath mem addr = some (joined cwd path) := hall .sysStat
    rw [plainPath_eq h] at hs
    split at hs
    · next hlen =>
      refine ⟨?_, hlen⟩
      by_contra hr
      exact joined_ne hr (Option.some.inj hs).symm
    · cases hs
  · rintro ⟨ha, hlen⟩
    have hjp : joined cwd path = path := if_pos ha
    have hplain : plainPath mem addr = some (joined cwd path) := by
      rw [plainPath_eq h, if_pos hlen, hjp]
    have hres : resolvedPath mem cwd addr = some (joined cwd path) := by
      rw [resolvedPath_eq h, if_pos hlen, List.take_of_length_le (by omega)]
    intro c
    cases c with
    | sysOpen | sysOpenat | sysAccess | sysChdir => exact hres
    | sysStat | sysReadlink | sysExecve => exact hplain
    | sysNewfstatat => exact (newfstatatPath_eq h ha).trans hplain

/-- The name of a file. -/
def shText : Text := [⟨115, by decide⟩, ⟨104, by decide⟩]

/-- An absolute path. -/
def binSh : Text := slash :: shText

/-- The memory of a caller with one string in it. -/
def oneString (t : Text) : Memory := store (fun _ => 0) userAddrMin (t.bytes ++ [0])

theorem paths_agree_binSh : (∀ c : PathCall, c.path (oneString binSh) [slash] userAddrMin =
      some (joined [slash] binSh)) ↔ binSh.head? = some slash ∧ binSh.length ≤ 254 :=
  paths_agree_iff (strAt_store le_rfl (by decide)) (by decide)

/-- In the directory `/sh`, `sh` is `/sh/sh` to `SYS_open` and `sh` to `SYS_stat`. -/
theorem paths_differ : ¬ ∀ mem cwd addr path, StrAt mem addr path → (joined cwd path).length < 256 →
    ∀ c : PathCall, c.path mem cwd addr = some (joined cwd path) := by
  intro hall
  have h := hall (oneString shText) (slash :: shText) userAddrMin shText
    (strAt_store le_rfl (by decide)) (by decide)
  have hs := h .sysStat
  exact absurd hs (by decide)

end TypeOS.Sys
