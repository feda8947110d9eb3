import TypeOS.Sys.Paths
import TypeOS.Elf.Stack
import Mathlib.Data.List.TakeWhile

/-! Arguments on their way through `SYS_execve`.

    The strings are copied from the caller into rows, up to its NULL pointer; the rows are turned into
    an array of pointers, up to the first empty row; and these strings are put on the stack of the new
    program. So a list arrives whole if it has no empty string. -/

namespace TypeOS.Sys

open Fs (Text)
open Bytes Elf

/-- The loop of `copy_user_string_array`, from row i on with so many turns left: the rows. -/
def copyArrayLoop (mem : Memory) (uargv : Nat) : Nat → Nat → Option (List Text)
  | 0, _ => none
  | n + 1, i =>
    match copyFromUser mem (u64 (uargv + i * 8)) 8 with
    | none => none
    | some bytes =>
      if leNat bytes = 0 then some []
      else
        match copyStrFromUser mem (leNat bytes) 256 with
        | none => none
        | some row => (copyArrayLoop mem uargv n (i + 1)).map (row :: ·)

/-- `copy_user_string_array`. -/
def copyUserStringArray (mem : Memory) (uargv max : Nat) : Option (List Text) :=
  copyArrayLoop mem uargv (max - 1) 0

/-- `kargv`: 16 rows, cleared before they are filled. -/
def kargv (rows : List Text) : List Text := rows ++ List.replicate (16 - rows.length) []

/-- `argv_ptrs`: the rows before the first empty one. -/
def argvPtrs (rows : List Text) : List Text := (kargv rows).takeWhile (· ≠ [])

/-- A program that starts. -/
structure Started where
  entry : Nat
  stack : Built

/-- `proc_exec`: `load` is what it does before the stack is built, with the entry and the memory of the
    new program; `mapped` says that there are pages for the stack. -/
def procExec (load : Text → Option (Nat × Memory)) (mapped : Bool) (path : Text) (argv envp : List Text) :
    Option Started :=
  match load path with
  | none => none
  | some (entry, mem) => if mapped then some ⟨entry, elfBuildStack argv envp mem⟩ else none

/-- `SYS_execve`. -/
def sysExecve (load : Text → Option (Nat × Memory)) (mapped : Bool) (mem : Memory) (a0 a1 a2 : Nat) :
    Except Int Started :=
  match execvePath mem a0, copyUserStringArray mem a1 16, copyUserStringArray mem a2 16 with
  | some path, some argv, some envp =>
    match procExec load mapped path (argvPtrs argv) (argvPtrs envp) with
    | none => .error eNoent
    | some started => .ok started
  | _, _, _ => .error eFault

variable {mem : Memory} {uargv : Nat} {ts argv envp : List Text}

/-- A short enough list of short enough strings is copied whole. -/
theorem copyArrayLoop_eq {n i : Nat} (h : ListAt mem (uargv + i * 8) ts) (hn : ts.length < n)
    (hs : ∀ t ∈ ts, t.length ≤ 254) : copyArrayLoop mem uargv n i = some ts := by
  induction ts generalizing n i with
  | nil =>
    obtain ⟨hok, hw⟩ := h
    obtain ⟨n, rfl⟩ := Nat.exists_eq_succ_of_ne_zero (by omega : n ≠ 0)
    have hlt := ((userPtrOk_iff ..).mp hok).2
    simp only [userAddrMax] at hlt
    rw [copyArrayLoop, u64_of_lt (by omega), copyFromUser, if_pos hok]
    exact if_pos hw
  | cons t ts ih =>
    obtain ⟨hok, hw, hstr, hts⟩ := h
    rw [List.length_cons] at hn
    obtain ⟨n, rfl⟩ := Nat.exists_eq_succ_of_ne_zero (by omega : n ≠ 0)
    have hlt := ((userPtrOk_iff ..).mp hok).2
    simp only [userAddrMax] at hlt
    have hrow : copyStrFromUser mem (leNat (load mem (uargv + i * 8) 8)) 256 = some t := by
      have := hs t (List.mem_cons_self ..)
      exact (copyStrFromUser_eq 256 hstr).trans (if_pos (by omega))
    have hrest : copyArrayLoop mem uargv n (i + 1) = some ts :=
      ih (by rwa [Nat.succ_mul, ← Nat.add_assoc]) (by omega) fun u hu => hs u (List.mem_cons_of_mem _ hu)
    rw [word] at hw
    rw [copyArrayLoop, u64_of_lt (by omega), copyFromUser, if_pos hok]
    dsimp only
    rw [if_neg hw, hrow]
    dsimp only
    rw [hrest]
    rfl

/-- The empty rows at the end add no pointer. -/
theorem argvPtrs_eq (rows : List Text) : argvPtrs rows = rows.takeWhile (· ≠ []) := by
  rw [argvPtrs, kargv]
  generalize 16 - rows.length = n
  induction rows with
  | nil => cases n <;> rfl
  | cons t rows ih => rw [List.cons_append, List.takeWhile_cons, List.takeWhile_cons, ih]

theorem argvPtrs_isPrefix (rows : List Text) : argvPtrs rows <+: rows :=
  argvPtrs_eq rows ▸ List.takeWhile_prefix _

theorem argvPtrs_eq_self (rows : List Text) : argvPtrs rows = rows ↔ [] ∉ rows := by
  rw [argvPtrs_eq, List.takeWhile_eq_self_iff]
  constructor
  · intro h hmem
    simpa using h [] hmem
  · intro h t ht
    simpa using fun h0 : t = [] => h (h0 ▸ ht)

section

variable {load : Text → Option (Nat × Memory)} {mapped : Bool} {a0 a1 a2 : Nat} {st : Started}
  (ha : ListAt mem a1 argv) (he : ListAt mem a2 envp) (hla : argv.length ≤ 14) (hle : envp.length ≤ 14)
  (hsa : ∀ t ∈ argv, t.length ≤ 254) (hse : ∀ t ∈ envp, t.length ≤ 254)

include ha he hla hle hsa hse

/-- `proc_exec` is given the path and the strings before the first empty one. -/
theorem sysExecve_eq : sysExecve load mapped mem a0 a1 a2 =
    match execvePath mem a0 with
    | none => .error eFault
    | some path =>
      match procExec load mapped path (argvPtrs argv) (argvPtrs envp) with
      | none => .error eNoent
      | some started => .ok started := by
  have hca : copyUserStringArray mem a1 16 = some argv :=
    copyArrayLoop_eq (by rwa [Nat.zero_mul, Nat.add_zero]) (by omega) hsa
  have hce : copyUserStringArray mem a2 16 = some envp :=
    copyArrayLoop_eq (by rwa [Nat.zero_mul, Nat.add_zero]) (by omega) hse
  rw [sysExecve, hca, hce]
  cases execvePath mem a0 <;> rfl

/-- When it succeeds, the stack is built from them. -/
theorem sysExecve_ok (hok : sysExecve load mapped mem a0 a1 a2 = .ok st) :
    ∃ mem', st.stack = elfBuildStack (argvPtrs argv) (argvPtrs envp) mem' := by
  rw [sysExecve_eq ha he hla hle hsa hse] at hok
  cases hp : execvePath mem a0 with
  | none => simp [hp] at hok
  | some path =>
    rw [hp] at hok
    dsimp only at hok
    rw [procExec] at hok
    cases hl : load path with
    | none => simp [hl] at hok
    | some r =>
      obtain ⟨entry, mem'⟩ := r
      cases mapped with
      | false => simp [hl] at hok
      | true =>
        simp only [hl, if_true, Except.ok.injEq] at hok
        exact ⟨mem', by rw [← hok]⟩

/-- What the program then finds at its stack pointer. -/
theorem sysExecve_stack (hok : sysExecve load mapped mem a0 a1 a2 = .ok st) :
    (st.stack.sp % 16 = 0 ↔ ((argvPtrs argv).length + (argvPtrs envp).length) % 2 = 1) ∧
    word st.stack.mem st.stack.sp = (argvPtrs argv).length ∧
    ListAt st.stack.mem (st.stack.sp + 8) (argvPtrs argv) ∧
    ListAt st.stack.mem (st.stack.sp + 8 + 8 * ((argvPtrs argv).length + 1)) (argvPtrs envp) := by
  obtain ⟨mem', hst⟩ := sysExecve_ok ha he hla hle hsa hse hok
  have hpa := argvPtrs_isPrefix argv
  have hpe := argvPtrs_isPrefix envp
  rw [hst]
  exact elfBuildStack_spec
    (hpa.length_le.trans (hla.trans (by decide))) (hpe.length_le.trans (hle.trans (by decide)))
    (fun t ht => (hsa t (hpa.subset ht)).trans (by decide))
    (fun t ht => (hse t (hpe.subset ht)).trans (by decide)) mem'

end

/-- The arguments survive, at an aligned stack pointer, if and only if none of the strings is empty and
    their number is odd. -/
theorem execve_args_iff {load : Text → Option (Nat × Memory)} {mapped : Bool} {a0 a1 a2 : Nat}
    {st : Started} (ha : ListAt mem a1 argv) (he : ListAt mem a2 envp) (hla : argv.length ≤ 14)
    (hle : envp.length ≤ 14) (hsa : ∀ t ∈ argv, t.length ≤ 254) (hse : ∀ t ∈ envp, t.length ≤ 254)
    (hok : sysExecve load mapped mem a0 a1 a2 = .ok st) :
    ArgBlock st.stack.mem st.stack.sp argv envp ↔
      ([] ∉ argv ∧ [] ∉ envp) ∧ (argv.length + envp.length) % 2 = 1 := by
  obtain ⟨hal, hargc, hargs, henv⟩ := sysExecve_stack ha he hla hle hsa hse hok
  rw [← argvPtrs_eq_self, ← argvPtrs_eq_self]
  constructor
  · intro h
    have hA : argvPtrs argv = argv := (argvPtrs_isPrefix argv).eq_of_length (hargc.symm.trans h.argc)
    rw [hA] at henv hal
    have hE : argvPtrs envp = envp := henv.unique h.env
    exact ⟨⟨hA, hE⟩, by rw [← hE]; exact hal.mp h.aligned⟩
  · rintro ⟨⟨hA, hE⟩, hodd⟩
    rw [hA, hE] at hal henv
    rw [hA] at hargc hargs
    exact ⟨hal.mpr hodd, hargc, hargs, henv⟩

/-- A caller whose own arguments are the ones that it passes on. -/
abbrev caller (argv envp : List Text) : Built := elfBuildStack argv envp fun _ => 0

/-- A program that can be loaded, and pages for its stack. -/
def started (b : Built) (argc : Nat) : Except Int Started :=
  sysExecve (fun _ => some (userAddrMin, fun _ => 0)) true b.mem (word b.mem (b.sp + 8)) (b.sp + 8)
    (b.sp + 8 + 8 * (argc + 1))

theorem started_ok (t : Text) (argv envp : List Text) (hla : argv.length ≤ 13) (hle : envp.length ≤ 14)
    (hsa : ∀ u ∈ t :: argv, u.length ≤ 254) (hse : ∀ u ∈ envp, u.length ≤ 254) :
    ListAt (caller (t :: argv) envp).mem ((caller (t :: argv) envp).sp + 8) (t :: argv) ∧
    ListAt (caller (t :: argv) envp).mem
      ((caller (t :: argv) envp).sp + 8 + 8 * ((t :: argv).length + 1)) envp ∧
    ∃ st, started (caller (t :: argv) envp) (t :: argv).length = .ok st := by
  have hla' : (t :: argv).length ≤ 14 := Nat.succ_le_succ hla
  obtain ⟨-, -, ha, he⟩ := elfBuildStack_spec (hla'.trans (by decide)) (hle.trans (by decide))
    (fun u hu => (hsa u hu).trans (by decide)) (fun u hu => (hse u hu).trans (by decide)) fun _ => 0
  refine ⟨ha, he, ?_⟩
  have hpath := plainPath_eq ha.2.2.1
  rw [if_pos (hsa t (List.mem_cons_self ..))] at hpath
  rw [started, sysExecve_eq ha he hla' hle hsa hse, execvePath, hpath]
  exact ⟨_, rfl⟩

theorem execve_args_iff_sh : ∃ st, started (caller [shText] []) 1 = .ok st ∧
    ArgBlock st.stack.mem st.stack.sp [shText] [] := by
  obtain ⟨ha, he, st, hst⟩ := started_ok shText [] [] (by decide) (by decide) (by decide) (by decide)
  exact ⟨st, hst, (execve_args_iff ha he (by decide) (by decide) (by decide) (by decide) hst).mpr
    (by decide)⟩

/-- With one argument and one string in the environment the stack pointer is not aligned. -/
theorem execve_two_strings : ¬ ∀ load mapped mem a0 a1 a2 st argv envp, ListAt mem a1 argv →
    ListAt mem a2 envp → argv.length ≤ 14 → envp.length ≤ 14 → (∀ t ∈ argv, t.length ≤ 254) →
    (∀ t ∈ envp, t.length ≤ 254) → sysExecve load mapped mem a0 a1 a2 = .ok st →
    ArgBlock st.stack.mem st.stack.sp argv envp := by
  intro hall
  obtain ⟨ha, he, st, hst⟩ := started_ok shText [] [shText] (by decide) (by decide) (by decide)
    (by decide)
  have h := hall _ _ _ _ _ _ st _ _ ha he (by decide) (by decide) (by decide) (by decide) hst
  obtain ⟨hal, -⟩ := sysExecve_stack ha he (by decide) (by decide) (by decide) (by decide) hst
  exact absurd (hal.mp h.aligned) (by decide)

end TypeOS.Sys
