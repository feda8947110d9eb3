import TypeOS.Sys.Paths
import TypeOS.Sched.Steps
import TypeOS.Fs.Lookup

/-! The working directory of a task.

    It is written by `proc_init`, by a `SYS_chdir` that has looked the path up, and by a fork, which
    copies it; and what a path led to once, it leads to for good, since the file system only grows. -/

namespace TypeOS.Sys

open Fs (Text Ch Ptr Vfs Heap slash Reach Shape)
open Proc (Kernel Process Tid TaskState Answers Handle)
open Proc.Kernel
open Bytes (Memory)

/-- The tasks and the file system. -/
structure System where
  kernel : Kernel
  vfs : Vfs

/-- The C string that a text of the task table holds. -/
def textOf (s : String) : Text :=
  s.toList.filterMap fun c => if h : UInt8.ofNat c.toNat ≠ 0 then some ⟨UInt8.ofNat c.toNat, h⟩ else none

/-- A C string as a text of the task table. -/
def stringOf (t : Text) : String := String.ofList (t.map fun c => Char.ofNat c.1.toNat)

/-- The directory of the current task. -/
def System.cwd (σ : System) : Text := textOf (σ.kernel.tasks σ.kernel.currentTask).cwd

/-- `SYS_chdir`, for so many expansions of symlinks: none if it is still at it. -/
def sysChdir (n : Nat) (mem : Memory) (a0 : Nat) (σ : System) : Option (Int × System) :=
  match chdirPath mem σ.cwd a0 with
  | none => some (eFault, σ)
  | some resolved =>
    match Fs.vfsLookupPath n σ.vfs resolved true with
    | none => none
    | some found =>
      match Fs.vfsStat found σ.vfs with
      | none => some (eNoent, σ)
      | some st =>
        if st.type ≠ .dir then some (eNoent, σ)
        else some (0, { σ with kernel := σ.kernel.onTask σ.kernel.currentTask fun p =>
          { p with cwd := stringOf (resolved.take 255) } })

/-- The states of the system after `proc_init`: the tasks make any calls in any order, enter
    directories and create files. -/
inductive Runs : System → Prop
  | init {s : Vfs} (ans : Answers) (live : Finset Handle) (files : Handle → Proc.VfsFile) (pml4 : Nat) :
      Fs.Built s → Runs ⟨Proc.procInit ans (Kernel.zero live files pml4), s⟩
  | schedule {σ : System} (t : Tid) (state : TaskState) : Runs σ → (σ.kernel.tasks t).Live →
      state ≠ .unused → state ≠ .zombie → Runs { σ with kernel := σ.kernel.setState t state }
  | switch {σ : System} (t : Tid) : Runs σ → (σ.kernel.tasks t).Live →
      Runs { σ with kernel := { σ.kernel with currentTask := t } }
  | call {σ : System} (ans : Answers) (c : Proc.Call) : Runs σ →
      (σ.kernel.tasks σ.kernel.currentTask).Live →
      Runs { σ with kernel := (Proc.dispatch ans c σ.kernel).2 }
  | chdir {σ σ' : System} {n : Nat} {r : Int} (mem : Memory) (a0 : Nat) : Runs σ →
      (σ.kernel.tasks σ.kernel.currentTask).Live → sysChdir n mem a0 σ = some (r, σ') → Runs σ'
  | creates {σ : System} (heap : Heap) (c : Fs.Call) : Runs σ →
      Runs { σ with vfs := (c.run heap σ.vfs).2 }

/-- An absolute path that fits into `cwd` and leads to a directory. -/
structure ValidDir (s : Vfs) (cwd : Text) : Prop where
  absolute : Fs.vfsIsAbsolute cwd = true
  fits : cwd.length ≤ 255
  found : ∃ n found st, Fs.vfsLookupPath n s cwd true = some found ∧ Fs.vfsStat found s = some st ∧
    st.type = .dir

variable {k k' : Kernel} {ans : Answers} {s : Vfs} {cwd : Text}

theorem char_ofNat_toNat (b : UInt8) : (Char.ofNat b.toNat).toNat = b.toNat := by
  have hv : b.toNat.isValidChar := Or.inl (by have := b.toNat_lt; omega)
  rw [Char.ofNat, dif_pos hv]
  rfl

/-- Nothing is lost on the way into the task table. -/
@[simp] theorem textOf_stringOf (t : Text) : textOf (stringOf t) = t := by
  rw [textOf, stringOf, String.toList_ofList]
  induction t with
  | nil => rfl
  | cons c t ih =>
    have hc : UInt8.ofNat (Char.ofNat c.1.toNat).toNat = c.1 := by
      rw [char_ofNat_toNat, UInt8.ofNat_toNat]
    have hne : UInt8.ofNat (Char.ofNat c.1.toNat).toNat ≠ 0 := by rw [hc]; exact c.2
    rw [List.map_cons, List.filterMap_cons_some (dif_pos hne), ih]
    exact congrArg (· :: t) (Subtype.ext hc)

/-! ### The file system -/

/-- A growing file system keeps its directories. -/
theorem ValidDir.grows {r : Ptr} {s' : Vfs} (h : ValidDir s cwd) (g : Fs.Grows r s s')
    (hr : s.root = some r) : ValidDir s' cwd := by
  obtain ⟨n, found, st, hl, hs, hd⟩ := h.found
  cases found with
  | none => cases hs
  | some p =>
    obtain ⟨hl', hp⟩ := g.lookup hr hl
    obtain rfl := Option.some.inj hs
    exact ⟨h.absolute, h.fits, n, some p, _, hl', rfl, (g.type hp).trans hd⟩

/-- Only an absolute path is found. -/
theorem lookup_absolute {n : Nat} {path : Text} {found : Option Ptr} {st : Fs.VfsStat}
    (h : Fs.vfsLookupPath n s path true = some found) (hs : Fs.vfsStat found s = some st) :
    Fs.vfsIsAbsolute path = true := by
  by_contra ha
  rw [Bool.not_eq_true] at ha
  rw [Fs.vfsLookupPath, ha] at h
  obtain rfl := Option.some.inj h
  cases hs

/-- `resolved` is a string in a buffer of 256 bytes. -/
theorem chdirPath_length {mem : Memory} {a0 : Nat} {resolved : Text}
    (h : chdirPath mem cwd a0 = some resolved) : resolved.length ≤ 255 := by
  obtain ⟨path, -, rfl⟩ := Option.map_eq_some_iff.mp h
  rw [resolvePath_eq, List.length_take]
  exact min_le_left ..

/-- The root. -/
theorem validDir_root (hb : Fs.Built s) : ValidDir s [slash] := by
  obtain ⟨r, hr, hs⟩ := hb.shape
  have hnode := Fs.dir_of_type hs.rootDir
  have hl : Fs.vfsLookupPath 1 s [slash] true = some (some r) := by
    have hsplit : Fs.splitPath [slash] = [] := rfl
    have ha : Fs.vfsIsAbsolute [slash] = true := rfl
    simp only [Fs.vfsLookupPath, ha, hr, Fs.restart, List.take_succ_cons, List.take_nil, hsplit, Fs.scan, hnode]
  exact ⟨rfl, by decide, 1, some r, _, hl, rfl, hs.rootDir⟩

/-! ### The tasks -/

/-- A live task is in the directory that it was in, or, if it is new, in that of the current task. -/
def CwdFrom (k k' : Kernel) : Prop := ∀ t, (k'.tasks t).Live →
  (k.tasks t).Live ∧ (k'.tasks t).cwd = (k.tasks t).cwd ∨
  (k'.tasks t).cwd = (k.tasks k.currentTask).cwd

theorem cwdFrom_slots {z : Option Tid} (hl : (k.tasks k.currentTask).Live)
    (h : ∀ t, Sched.SlotStep z k t (k.tasks t) (k'.tasks t)) : CwdFrom k k' := by
  intro t ht
  cases h t with
  | same state kin =>
    refine Or.inl ⟨?_, Process.kin_cwd kin⟩
    rwa [Process.Live, ← state]
  | woken was _ kin =>
    refine Or.inl ⟨?_, Process.kin_cwd kin⟩
    rw [Process.Live, was]
    decide
  | reaped _ _ _ state => exact absurd state ht.1
  | forked was born =>
    rcases born.2 with ⟨hu, -⟩ | hc
    · exact absurd hu ht.1
    · refine Or.inr (hc.cwd ?_)
      rintro rfl
      exact hl.1 was

theorem cwdFrom_exit (status : Int) : CwdFrom k (Proc.exitCurrent status k) := by
  obtain ⟨-, hself, hother⟩ := Proc.exitCurrent_slots status k
  intro t ht
  rcases eq_or_ne t k.currentTask with rfl | hne
  · rw [hself] at ht
    exact absurd rfl ht.2
  · rcases hother t hne with h | ⟨hb, -, h⟩
    · rw [h] at ht ⊢
      exact Or.inl ⟨ht, rfl⟩
    · refine Or.inl ⟨?_, by rw [h]⟩
      rw [Process.Live, hb]
      decide

/-- Every call leaves the directories alone. -/
theorem cwdFrom_dispatch (hl : (k.tasks k.currentTask).Live) (c : Proc.Call) :
    CwdFrom k (Proc.dispatch ans c k).2 := by
  have hsame : ∀ {k'' : Kernel}, k''.tasks = k.tasks → CwdFrom k k'' := by
    intro k'' h t ht
    rw [h] at ht ⊢
    exact Or.inl ⟨ht, rfl⟩
  have hplain : ∀ {c : Proc.Call}, Sched.Plain c = true → CwdFrom k (Proc.dispatch ans c k).2 :=
    fun hc => cwdFrom_slots (z := none) hl (Sched.slot_forks (Proc.forks_plain hc))
  cases c with
  | pipe _ | dup _ | dup2 _ _ | fcntlDup _ _ | openPath _ _ | close _ | fork => exact hplain rfl
  | exec found =>
    have h := @Proc.stays_procExec k ans found
    exact cwdFrom_slots (z := none) hl fun t => .same (h.state t) (h.kin t)
  | exit status => exact cwdFrom_exit status
  | wait pid statusOk =>
    exact cwdFrom_slots hl fun t => (Sched.quiet_waitTurn pid statusOk k t).1
  | read fd count buf =>
    simp only [Proc.dispatch]
    split
    · exact hsame rfl
    · unfold Proc.pipeReadTurn
      dsimp only
      split_ifs <;> exact hsame rfl
  | write fd buf done =>
    simp only [Proc.dispatch]
    split
    · exact hsame rfl
    · unfold Proc.pipeWriteTurn
      dsimp only
      split_ifs
      · exact cwdFrom_slots (z := none) hl fun t => (Sched.quiet_wake _ t).1
      all_goals exact hsame rfl

/-! ### Runs -/

/-- The file system is well built, and every live task is in one of its directories. -/
structure AllValid (σ : System) : Prop where
  built : Fs.Built σ.vfs
  dirs : ∀ t, (σ.kernel.tasks t).Live → ValidDir σ.vfs (textOf (σ.kernel.tasks t).cwd)

/-- `proc_init` puts the first task into the root. -/
theorem cwd_procInit (ans : Answers) (live : Finset Handle) (files : Handle → Proc.VfsFile) (pml4 : Nat)
    (t : Tid) (ht : ((Proc.procInit ans (Kernel.zero live files pml4)).tasks t).Live) :
    ((Proc.procInit ans (Kernel.zero live files pml4)).tasks t).cwd = "/" := by
  obtain ⟨h, -, hcwd⟩ := Sched.procInit_slots ans live files pml4
  rcases eq_or_ne t 0 with rfl | hne
  · exact hcwd
  · have hz : ((Proc.procInit ans (Kernel.zero live files pml4)).tasks t).state = .unused :=
      Process.core_state (h.other t hne)
    exact absurd hz ht.1

theorem AllValid.chdir {σ σ' : System} {n : Nat} {r : Int} {mem : Memory} {a0 : Nat}
    (h : AllValid σ) (hc : sysChdir n mem a0 σ = some (r, σ')) : AllValid σ' := by
  unfold sysChdir at hc
  split at hc
  · obtain ⟨-, rfl⟩ := Prod.mk.inj (Option.some.inj hc)
    exact h
  next resolved hpath =>
  split at hc
  · cases hc
  next found hlook =>
  split at hc
  · obtain ⟨-, rfl⟩ := Prod.mk.inj (Option.some.inj hc)
    exact h
  next st hst =>
  split at hc
  · obtain ⟨-, rfl⟩ := Prod.mk.inj (Option.some.inj hc)
    exact h
  next hdir =>
  obtain ⟨-, rfl⟩ := Prod.mk.inj (Option.some.inj hc)
  refine ⟨h.built, fun t ht => ?_⟩
  have hlen : resolved.length ≤ 255 := chdirPath_length hpath
  rcases eq_or_ne t σ.kernel.currentTask with rfl | hne
  · rw [onTask_tasks_self, textOf_stringOf, List.take_of_length_le hlen]
    exact ⟨lookup_absolute hlook hst, hlen, n, found, st, hlook, hst, not_not.mp hdir⟩
  · rw [onTask_tasks_ne hne] at ht ⊢
    exact h.dirs t ht

/-- In every reachable state. -/
theorem Runs.allValid {σ : System} (h : Runs σ) : AllValid σ := by
  induction h with
  | init ans live files pml4 hb =>
    refine ⟨hb, fun t ht => ?_⟩
    have hroot : textOf "/" = [slash] := by decide
    rw [cwd_procInit ans live files pml4 t ht, hroot]
    exact validDir_root hb
  | @schedule σ t state _ hl hu hz ih =>
    refine ⟨ih.built, fun u hu' => ?_⟩
    rcases eq_or_ne u t with rfl | hne
    · simpa [Kernel.setState] using ih.dirs u hl
    · rw [Kernel.setState, onTask_tasks_ne hne] at hu' ⊢
      exact ih.dirs u hu'
  | switch t _ _ ih => exact ⟨ih.built, ih.dirs⟩
  | @call σ ans c _ hl ih =>
    refine ⟨ih.built, fun t ht => ?_⟩
    rcases cwdFrom_dispatch hl c t ht with ⟨hlive, h⟩ | h
    · rw [h]
      exact ih.dirs t hlive
    · rw [h]
      exact ih.dirs _ hl
  | chdir mem a0 _ _ hc ih => exact ih.chdir hc
  | @creates σ heap c _ ih =>
    obtain ⟨r, hr, hs⟩ := ih.built.shape
    refine ⟨.call heap c ih.built, fun t ht => ?_⟩
    exact (ih.dirs t ht).grows (Fs.Call.evolves c hs hr).grows hr

/-- The working directory of a live task stays valid. -/
theorem cwd_valid {σ : System} (h : Runs σ) {t : Tid} (ht : (σ.kernel.tasks t).Live) :
    ValidDir σ.vfs (textOf (σ.kernel.tasks t).cwd) := h.allValid.dirs t ht

/-- After boot, with a new file system. -/
def bootSystem : System :=
  ⟨Proc.procInit (Sched.memory 1) (Kernel.zero ∅ (fun _ => Proc.VfsFile.fresh) 1), Fs.emptyVfs⟩

/-- A task may enter a directory. -/
theorem Runs.enters (mem : Memory) (a0 n : Nat) {p : Ptr} (h : Runs σ)
    (hl : (σ.kernel.tasks σ.kernel.currentTask).Live) (hp : chdirPath mem σ.cwd a0 = some path)
    (hpath : path.length ≤ 255) (hf : Fs.vfsLookupPath n σ.vfs path true = some (some p)) (hd : σ.vfs.type p = .dir) :
    Runs { σ with kernel := σ.kernel.onTask σ.kernel.currentTask fun q =>
      { q with cwd := stringOf path } } := by
  refine h.chdir (n := n) (r := 0) mem a0 hl ?_
  rw [sysChdir, hp]
  dsimp only
  rw [hf]
  dsimp only [Fs.vfsStat]
  rw [if_neg (not_not.mpr hd), List.take_of_length_le hpath]

/-- The directories `/a` and `/a/b`. -/
def nestedVfs : Vfs := (Fs.Call.run Fs.rising (.mkdir [slash, Fs.letter 0, slash, Fs.letter 1] 0)
  (Fs.Call.run Fs.rising (.mkdir [slash, Fs.letter 0] 0) Fs.emptyVfs).2).2

/-- The first task, in `/a`. -/
def nestedSystem : System :=
  { kernel := bootSystem.kernel.onTask bootSystem.kernel.currentTask fun p =>
      { p with cwd := stringOf [slash, Fs.letter 0] }
    vfs := nestedVfs }

theorem nestedSystem_runs : Runs nestedSystem := by
  obtain ⟨hfirst, hrun, hslash⟩ := Sched.procInit_slots (Sched.memory 1) ∅ (fun _ => Proc.VfsFile.fresh) 1
  have hmade : Runs ⟨bootSystem.kernel, nestedVfs⟩ :=
    .creates Fs.rising (.mkdir [slash, Fs.letter 0, slash, Fs.letter 1] 0)
      (.creates Fs.rising (.mkdir [slash, Fs.letter 0] 0)
        (.init (Sched.memory 1) ∅ (fun _ => Proc.VfsFile.fresh) 1 Fs.emptyVfs_built))
  have hcur : bootSystem.kernel.currentTask = 0 := hfirst.cur
  have hcwd : System.cwd ⟨bootSystem.kernel, nestedVfs⟩ = [slash] := by
    rw [System.cwd, hcur]
    exact (congrArg textOf hslash).trans (by decide)
  refine Runs.enters (p := 1) (oneString [slash, Fs.letter 0]) userAddrMin 1 hmade ?_ ?_ (by decide)
    (by decide) (by decide)
  · rw [hcur, Proc.Process.Live]
    change (bootSystem.kernel.tasks 0).state = .running at hrun
    rw [hrun]
    decide
  · rw [hcwd]
    decide

theorem nestedSystem_cwd : nestedSystem.cwd = [slash, Fs.letter 0] := by
  rw [System.cwd, nestedSystem]
  dsimp only
  rw [onTask_currentTask, onTask_tasks_self, textOf_stringOf]

theorem nestedSystem_current : nestedSystem.kernel.currentTask = 0 :=
  (Sched.procInit_slots (Sched.memory 1) ∅ (fun _ => Proc.VfsFile.fresh) 1).1.cur

theorem nestedSystem_live : (nestedSystem.kernel.tasks 0).Live := by
  obtain ⟨hfirst, hrun, -⟩ := Sched.procInit_slots (Sched.memory 1) ∅ (fun _ => Proc.VfsFile.fresh) 1
  have hcur : bootSystem.kernel.currentTask = 0 := hfirst.cur
  change (bootSystem.kernel.tasks 0).state = .running at hrun
  rw [nestedSystem, hcur, Proc.Process.Live]
  dsimp only
  rw [onTask_tasks_self]
  dsimp only
  rw [hrun]
  decide

theorem cwd_valid_nested : (nestedSystem.kernel.tasks 0).Live ∧
    ValidDir nestedSystem.vfs (textOf (nestedSystem.kernel.tasks 0).cwd) ∧
    textOf (nestedSystem.kernel.tasks 0).cwd = [slash, Fs.letter 0] := by
  refine ⟨nestedSystem_live, cwd_valid nestedSystem_runs nestedSystem_live, ?_⟩
  rw [← nestedSystem_cwd, System.cwd, nestedSystem_current]

end TypeOS.Sys
