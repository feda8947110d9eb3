import TypeOS.Sys.Dirents

/-! Seeking in a file.

    `SYS_lseek` adds the offset to the base modulo 2^64, stores the sum as the position and returns it as
    a signed number. So it is exact just where the sum is a number that it can return; elsewhere the
    position is changed although the result looks like an error, or is another one. -/

namespace TypeOS.Sys

open Fs (Ptr Vfs VfsFile)

/-- What the offset is added to. -/
def seekBase (pos size : Nat) (whence : Int) : Nat :=
  if whence = 0 then 0 else if whence = 1 then pos else size

/-- The sum is a position that the result can say. -/
def InRange (base : Nat) (offset : Int) : Prop := 0 ≤ base + offset ∧ base + offset < 2 ^ 63

instance (base : Nat) (offset : Int) : Decidable (InRange base offset) :=
  inferInstanceAs (Decidable (_ ∧ _))

/-- A seek goes to the sum and returns it, or it fails and leaves the position. -/
structure Exact (base : Nat) (offset : Int) (pos : Nat) (result : Int) (pos' : Nat) : Prop where
  result : 0 ≤ result ∧ result = base + offset ∧ (pos' : Int) = result ∨ result < 0 ∧ pos' = pos
  representable : pos' < 2 ^ 63

/-- The values of `whence` that name a base. -/
def IsWhence (whence : Int) : Prop := whence = 0 ∨ whence = 1 ∨ whence = 2

variable {file : VfsFile} {s : Vfs} {p : Ptr} {offset whence : Int}

/-! ### One call -/

theorem sysLseek_regular (hfile : file.inode = some p) (hp : s.type p = .file) (hwhence : IsWhence whence) :
    sysLseek file s offset whence =
      let pos : Int := seekBase file.pos (s.inodes p).size whence + offset
      (pos.bmod (2 ^ 64), { file with pos := (pos % 2 ^ 64).toNat }) := by
  rw [sysLseek]
  simp only [vfsFstat, hfile, Fs.vfsStat, hp, ne_eq, not_true_eq_false, if_false]
  rcases hwhence with rfl | rfl | rfl
  · rw [if_pos rfl, seekBase, if_pos rfl, Nat.cast_zero, zero_add]
  · rfl
  · rfl

/-- The sum modulo 2^64 is the sum if and only if the sum is a position that can be returned. -/
theorem exact_iff (base : Nat) (offset : Int) (pos : Nat) :
    Exact base offset pos (Int.bmod (base + offset) (2 ^ 64)) ((base + offset) % 2 ^ 64).toNat ↔
      InRange base offset := by
  have hmod := Int.bmod_def (base + offset) (2 ^ 64)
  constructor
  · rintro ⟨hresult, hrep⟩
    -- the position fits, so the result is not negative
    rw [if_pos (by omega)] at hmod
    rw [InRange]
    omega
  · rintro ⟨h0, h63⟩
    rw [if_pos (by omega)] at hmod
    exact ⟨Or.inl (by omega), by omega⟩

/-! ### Runs -/

/-- A call on an open file. -/
inductive FileCall
  | read (count : Nat)
  | lseek (offset whence : Int)

/-- The file after a call. -/
def FileCall.next (s : Vfs) (file : VfsFile) : FileCall → VfsFile
  | .read count => (Fs.vfsRead file count s).2.2
  | .lseek offset whence => (sysLseek file s offset whence).2

/-- If the call is a seek, it is exact. -/
def FileCall.Exact (s : Vfs) (p : Ptr) (file : VfsFile) : FileCall → Prop
  | .read _ => True
  | .lseek offset whence => IsWhence whence →
    Sys.Exact (seekBase file.pos (s.inodes p).size whence) offset file.pos
      (sysLseek file s offset whence).1 (sysLseek file s offset whence).2.pos

/-- If the call is a seek, it is to a position that can be returned. -/
def FileCall.InRange (s : Vfs) (p : Ptr) (file : VfsFile) : FileCall → Prop
  | .read _ => True
  | .lseek offset whence => IsWhence whence → Sys.InRange (seekBase file.pos (s.inodes p).size whence) offset

/-- Something holds of every call of a run, each with the tree as it is then and the file as the calls
    before left it. -/
def AllCalls (P : Vfs → VfsFile → FileCall → Prop) : List (Vfs × FileCall) → VfsFile → Prop
  | [], _ => True
  | (s, call) :: calls, file => P s file call ∧ AllCalls P calls (call.next s file)

theorem FileCall.exact_iff_inRange (hfile : file.inode = some p) (hp : s.type p = .file)
    (call : FileCall) : call.Exact s p file ↔ call.InRange s p file := by
  cases call with
  | read count => exact Iff.rfl
  | lseek offset whence =>
    refine forall_congr' fun hwhence => ?_
    rw [sysLseek_regular hfile hp hwhence]
    exact exact_iff _ offset file.pos

/-- The descriptor stays on its inode. -/
theorem FileCall.next_inode (s : Vfs) (file : VfsFile) (call : FileCall) :
    (call.next s file).inode = file.inode := by
  cases call with
  | read count =>
    rw [FileCall.next, Fs.vfsRead]
    split
    · rfl
    · split
      · dsimp only
        split_ifs <;> rfl
      · rfl
  | lseek offset whence =>
    rw [FileCall.next, sysLseek]
    split
    · rfl
    · split
      · rfl
      · dsimp only
        split_ifs <;> rfl

/-- In a run of reads and seeks on a file, every seek is exact if and only if each one is to a position that
    can be returned. -/
theorem seeks_exact_iff (calls : List (Vfs × FileCall)) : ∀ {file : VfsFile}, file.inode = some p →
    (∀ c ∈ calls, c.1.type p = .file) →
    (AllCalls (fun s file call => call.Exact s p file) calls file ↔
      AllCalls (fun s file call => call.InRange s p file) calls file) := by
  induction calls with
  | nil => exact fun _ _ => Iff.rfl
  | cons c calls ih =>
    intro file hfile hregular
    obtain ⟨hp, hrest⟩ := List.forall_mem_cons.mp hregular
    exact and_congr (c.2.exact_iff_inRange hfile hp) (ih ((c.2.next_inode c.1 file).trans hfile) hrest)

/-- A tree with one file of three bytes. -/
def oneFile : Vfs where
  root := none
  inodes := fun _ => ⟨0o100644#32, 3, .file [1, 2, 3]⟩
  live := ∅
  requests := 0

/-- A seek to the end, one back and a read. -/
theorem seek_back_exact : AllCalls (fun s file call => call.Exact s 1 file)
    [(oneFile, .lseek 0 2), (oneFile, .lseek (-1) 1), (oneFile, .read 1)] ⟨some 1, 0, []⟩ := by
  refine (seeks_exact_iff _ rfl ?_).mpr ⟨fun _ => by decide, fun _ => by decide, trivial, trivial⟩
  intro c hc
  have htree : c.1 = oneFile := by
    simp only [List.mem_cons, List.not_mem_nil, or_false] at hc
    rcases hc with rfl | rfl | rfl <;> rfl
  rw [htree]
  rfl

/-- A seek to one before the start of a file that was just opened. -/
theorem seek_before_start : ¬ ∀ (p : Ptr) (calls : List (Vfs × FileCall)),
    (∀ c ∈ calls, c.1.type p = .file) →
    AllCalls (fun s file call => call.Exact s p file) calls ⟨some p, 0, []⟩ := by
  intro h
  have hregular : ∀ c ∈ [(oneFile, FileCall.lseek (-1) 0)], c.1.type 1 = .file := by
    intro c hc
    rw [List.mem_singleton.mp hc]
    rfl
  exact absurd ((h 1 _ hregular).1 (Or.inl rfl)).representable (by decide)

end TypeOS.Sys
