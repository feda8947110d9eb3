import TypeOS.Sys.Cwd
import TypeOS.Sys.Memory
import TypeOS.Sys.Read

/-! Asking for the working directory, and going back to it.

    `SYS_getcwd` stores the whole path with its NUL, or nothing. The path leads to a directory, so a
    `SYS_chdir` with what was stored enters the same directory again; but it copies its path into a buffer
    of 256 bytes, in which `copy_str_from_user` accepts no more than 254 and a NUL. -/

namespace TypeOS.Sys

open Fs (Text)
open Bytes
open Proc (Kernel)
open Proc.Kernel

/-- `SYS_getcwd`: the result, and the memory afterwards. -/
def sysGetcwd (mem : Memory) (a0 a1 : Nat) (σ : System) : Int × Memory :=
  let len := σ.cwd.length + 1
  if a1 < len then (eInval, mem)
  else
    match copyToUser mem a0 (σ.cwd.bytes ++ [0]) with
    | none => (eFault, mem)
    | some mem => (len, mem)

variable {σ : System} {mem mem' : Memory} {a0 a1 : Nat} {r : Int}

/-- The call stores the path and nothing else, or it fails and stores nothing. -/
theorem sysGetcwd_cases (hget : sysGetcwd mem a0 a1 σ = (r, mem')) :
    r < 0 ∧ mem' = mem ∨
    r = σ.cwd.length + 1 ∧ StrAt mem' a0 σ.cwd ∧ mem' = store mem a0 (σ.cwd.bytes ++ [0]) := by
  have hlen : (σ.cwd.bytes ++ [0]).length = σ.cwd.length + 1 := by simp [Text.bytes]
  rw [sysGetcwd] at hget
  split at hget
  · obtain ⟨rfl, rfl⟩ := Prod.mk.inj hget
    exact .inl ⟨by decide, rfl⟩
  rw [copyToUser, hlen] at hget
  by_cases hok : userPtrOk a0 (σ.cwd.length + 1) = true
  · rw [if_pos hok] at hget
    obtain ⟨rfl, rfl⟩ := Prod.mk.inj hget
    obtain ⟨hlow, hhigh⟩ := (userPtrOk_iff ..).mp hok
    exact .inr ⟨by push_cast; rfl, strAt_store hlow (by omega), rfl⟩
  · rw [if_neg hok] at hget
    obtain ⟨rfl, rfl⟩ := Prod.mk.inj hget
    exact .inl ⟨by decide, rfl⟩

/-- What `SYS_getcwd` stored leads back to the directory if it is not longer than 254 bytes; a longer path
    is refused. -/
theorem getcwd_chdir (h : Runs σ) (hl : (σ.kernel.tasks σ.kernel.currentTask).Live)
    (hget : sysGetcwd mem a0 a1 σ = (r, mem')) (hr : 0 ≤ r) :
    (σ.cwd.length ≤ 254 → ∃ n σ', sysChdir n mem' a0 σ = some (0, σ') ∧ σ'.cwd = σ.cwd) ∧
    (254 < σ.cwd.length → ∀ n, sysChdir n mem' a0 σ = some (eFault, σ)) := by
  have hvalid : ValidDir σ.vfs σ.cwd := h.allValid.dirs _ hl
  obtain ⟨hneg, -⟩ | ⟨-, hstr, -⟩ := sysGetcwd_cases hget
  · omega
  have hpath := @resolvedPath_eq mem' a0 σ.cwd _ hstr
  constructor
  · intro hlen
    obtain ⟨n, found, st, hlook, hst, hdir⟩ := hvalid.found
    have hhead : σ.cwd.head? = some Fs.slash := by
      simpa [Fs.vfsIsAbsolute] using hvalid.absolute
    rw [if_pos hlen, joined, if_pos hhead, List.take_of_length_le (by omega)] at hpath
    have hrun : sysChdir n mem' a0 σ = some (0, { σ with
        kernel := σ.kernel.onTask σ.kernel.currentTask fun p =>
          { p with cwd := stringOf (σ.cwd.take 255) } }) := by
      rw [sysChdir, chdirPath, hpath]
      simp only [hlook, hst, hdir, ne_eq, not_true_eq_false, if_false]
    refine ⟨n, _, hrun, ?_⟩
    rw [System.cwd, onTask_currentTask, onTask_tasks_self, textOf_stringOf]
    exact List.take_of_length_le (by omega)
  · intro hlen n
    rw [if_neg (by omega)] at hpath
    rw [sysChdir, chdirPath, hpath]

/-- The first task, in a directory below the root that it made and entered. -/
theorem getcwd_chdir_nested : ∃ mem' n σ', sysGetcwd (fun _ => 0) 0x400000 256 nestedSystem = (3, mem') ∧
    sysChdir n mem' 0x400000 nestedSystem = some (0, σ') ∧ σ'.cwd = [Fs.slash, Fs.letter 0] := by
  have hlive : (nestedSystem.kernel.tasks nestedSystem.kernel.currentTask).Live := by
    rw [nestedSystem_current]
    exact nestedSystem_live
  have hget : sysGetcwd (fun _ => 0) 0x400000 256 nestedSystem =
      (3, (sysGetcwd (fun _ => 0) 0x400000 256 nestedSystem).2) := by
    refine Prod.ext ?_ rfl
    rw [sysGetcwd, nestedSystem_cwd]
    decide
  have hlen : nestedSystem.cwd.length ≤ 254 := by
    rw [nestedSystem_cwd]
    decide
  obtain ⟨n, σ', hrun, hcwd⟩ := (getcwd_chdir nestedSystem_runs hlive hget (by decide)).1 hlen
  exact ⟨_, n, σ', hget, hrun, hcwd.trans nestedSystem_cwd⟩

end TypeOS.Sys
