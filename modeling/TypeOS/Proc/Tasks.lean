import TypeOS.Layout
import TypeOS.Lib.Loop

/-! The process table: sixteen task slots, eight pipes, and the descriptor objects on the heap.

    A `struct vfs_file` lives at the address the heap gave for it; two descriptors that hold the same
    address share one object. The heap is taken at its specification here: it answers every request
    with an address that is not allocated, or with NULL, and what a freed object holds afterwards is
    its own affair. -/

namespace TypeOS.Proc

/-- A slot of `tasks`. -/
abbrev Tid : Type := Fin procMaxTasks

/-- A descriptor number that is in range. -/
abbrev Fd : Type := Fin procMaxFd

/-- A slot of `pipes`. -/
abbrev PipeId : Type := Fin procMaxPipe

instance : NeZero procMaxTasks := ⟨by decide⟩
instance : NeZero procMaxFd := ⟨by decide⟩
instance : NeZero procMaxPipe := ⟨by decide⟩

/-- The address of a heap object. -/
abbrev Handle : Type := Nat

/-- `enum task_state`. -/
inductive TaskState
  | unused
  | runnable
  | running
  | blocked
  | zombie
  deriving DecidableEq, Repr

/-- `struct vfs_file`. `pipeEnd` is 0 on the read end of a pipe, 1 on its write end, else -1. -/
structure VfsFile where
  inode : Option Nat
  pos : Nat
  path : String
  pipe : Option PipeId
  pipeEnd : Int
  deriving DecidableEq

/-- `sizeof (pipe->buf)`. -/
abbrev pipeSize : Nat := 4096

/-- `struct pipe`: a ring of `pipeSize` bytes and a counter for each end. -/
structure Pipe where
  buf : Nat → UInt8
  head : Nat
  tail : Nat
  count : Nat
  readers : Nat
  writers : Nat
  inUse : Bool

/-- A pipe slot after `memset`. -/
def Pipe.zero : Pipe :=
  { buf := fun _ => 0, head := 0, tail := 0, count := 0, readers := 0, writers := 0, inUse := false }

/-- `struct process`. -/
structure Process where
  brk : Nat
  cr3 : Nat
  userRsp : BitVec 64
  userRip : BitVec 64
  userRflags : BitVec 64
  userRax : BitVec 64
  userRegs : Fin 15 → BitVec 64
  fsBase : BitVec 64
  kernelStack : Option Handle
  cwd : String
  pid : Nat
  ppid : Nat
  sid : Nat
  pgid : Nat
  exitStatus : Int
  state : TaskState
  parent : Option Tid
  fds : Fd → Option Handle

/-- A task slot after `memset`. -/
def Process.zero : Process :=
  { brk := 0, cr3 := 0, userRsp := 0, userRip := 0, userRflags := 0, userRax := 0,
    userRegs := fun _ => 0, fsBase := 0, kernelStack := none, cwd := "", pid := 0, ppid := 0,
    sid := 0, pgid := 0, exitStatus := 0, state := .unused, parent := none, fds := fun _ => none }

/-- The statics of `proc.c`, the objects its pointers lead to, and the current page tables. -/
structure Kernel where
  tasks : Tid → Process
  currentTask : Tid
  pipes : PipeId → Pipe
  nextPid : Nat
  files : Handle → VfsFile
  live : Finset Handle
  pml4 : Nat

namespace Kernel

/-- A change to one task slot. -/
def onTask (t : Tid) (f : Process → Process) (k : Kernel) : Kernel :=
  { k with tasks := Function.update k.tasks t (f (k.tasks t)) }

/-- A change to one pipe slot. -/
def onPipe (p : PipeId) (f : Pipe → Pipe) (k : Kernel) : Kernel :=
  { k with pipes := Function.update k.pipes p (f (k.pipes p)) }

/-- A store to a descriptor object. -/
def setFile (h : Handle) (file : VfsFile) (k : Kernel) : Kernel :=
  { k with files := Function.update k.files h file }

/-- `t->state = state`. -/
def setState (t : Tid) (state : TaskState) : Kernel → Kernel :=
  onTask t fun p => { p with state := state }

/-- `t->fds[fd] = h`. -/
def setFd (t : Tid) (fd : Fd) (h : Option Handle) : Kernel → Kernel :=
  onTask t fun p => { p with fds := Function.update p.fds fd h }

end Kernel

open Kernel

/-- What the parts below answer during one system call: the heap to the n-th request, what it leaves
    in an object that is freed, the root that cloning the address space gives (0 if that fails), and
    the entry point and stack pointer of the program that `proc_exec` loads. -/
structure Answers where
  kmalloc : Nat → Option Handle
  freed : VfsFile
  cloneCr3 : Nat
  image : Option (BitVec 64 × BitVec 64)

/-- `kmalloc`, with the heap's answer: an address in use already is no answer. -/
def kmalloc (answer : Option Handle) (k : Kernel) : Option Handle × Kernel :=
  match answer with
  | none => (none, k)
  | some h => if h ∈ k.live then (none, k) else (some h, { k with live := insert h k.live })

/-- `kfree` of a descriptor object. -/
def kfree (freed : VfsFile) (h : Handle) (k : Kernel) : Kernel :=
  { k with live := k.live.erase h, files := Function.update k.files h freed }

/-- `vfs_close`. -/
def vfsClose (h : Handle) (k : Kernel) : Kernel :=
  k.setFile h { k.files h with inode := none, pos := 0 }

/-- The first slot with a property, as the loops over `tasks`, `pipes` and `fds` find it. -/
def firstSlot {n : Nat} (p : Fin n → Bool) : Option (Fin n) := (List.finRange n).find? p

/-- `proc_alloc_task`: the heap answers `answer` for the kernel stack. -/
def procAllocTask (answer : Option Handle) (k : Kernel) : Option Tid × Kernel :=
  match firstSlot fun t => (k.tasks t).state = .unused with
  | none => (none, k)
  | some t =>
    let k' := { k.onTask t fun _ =>
      { Process.zero with pid := k.nextPid, state := .runnable, cr3 := k.pml4 } with
        nextPid := k.nextPid + 1 }
    match kmalloc answer k' with
    | (none, k') => (none, k'.setState t .unused)
    | (some h, k') => (some t, k'.onTask t fun p => { p with kernelStack := some h })

/-- `proc_pipe_alloc`. -/
def procPipeAlloc (k : Kernel) : Option PipeId × Kernel :=
  match firstSlot fun p => !(k.pipes p).inUse with
  | none => (none, k)
  | some p => (some p, k.onPipe p fun _ => { Pipe.zero with inUse := true })

/-- `proc_pipe_free`. -/
def procPipeFree (p : PipeId) : Kernel → Kernel := onPipe p fun q => { q with inUse := false }

/-- `proc_wake_parent`. -/
def procWakeParent (k : Kernel) : Kernel :=
  match (k.tasks k.currentTask).parent with
  | none => k
  | some t => if (k.tasks t).state = .blocked then k.setState t .runnable else k

/-- `proc_has_children`: both its loops together look for a child that is not unused. -/
def procHasChildren (k : Kernel) : Bool :=
  (firstSlot fun t => (k.tasks t).state ≠ .unused ∧ (k.tasks t).parent = some k.currentTask ∧
    (k.tasks t).state ≠ .zombie).isSome ||
  (firstSlot fun t => (k.tasks t).state = .zombie ∧
    (k.tasks t).parent = some k.currentTask).isSome

/-- `proc_fork_take_status`: the pid of the child that is taken and its status, or none for -1. -/
def procForkTakeStatus (pid : Int) (k : Kernel) : Option (Nat × Int) × Kernel :=
  match firstSlot fun t => (k.tasks t).state = .zombie ∧
      (k.tasks t).parent = some k.currentTask ∧ (pid = -1 ∨ pid = (k.tasks t).pid) with
  | none => (none, k)
  | some t => (some ((k.tasks t).pid, (k.tasks t).exitStatus), k.setState t .unused)

/-- `sched_wake_all`. -/
def schedWakeAll (k : Kernel) : Kernel :=
  { k with tasks := fun t =>
      if (k.tasks t).state = .blocked then { k.tasks t with state := .runnable } else k.tasks t }

theorem firstSlot_some {n : Nat} {p : Fin n → Bool} {i : Fin n} (h : firstSlot p = some i) :
    p i = true := List.find?_some h

theorem firstSlot_none {n : Nat} {p : Fin n → Bool} (h : firstSlot p = none) (i : Fin n) :
    p i = false := by
  have := List.find?_eq_none.mp h i (List.mem_finRange i)
  simpa using this

/-- The loops find the first slot. -/
theorem firstSlot_least {n : Nat} {p : Fin n → Bool} {i j : Fin n} (h : firstSlot p = some i)
    (hj : j < i) : p j = false := by
  obtain ⟨-, m, hm, hi, hleast⟩ := List.find?_eq_some_iff_getElem.mp h
  rw [List.getElem_finRange] at hi
  have hmi : m = i.val := by rw [← hi]; rfl
  have hjm : j.val < m := by omega
  have := hleast j.val hjm
  rw [List.getElem_finRange] at this
  simpa using this

namespace Kernel

@[simp] theorem onTask_tasks_self (t : Tid) (f : Process → Process) (k : Kernel) :
    (k.onTask t f).tasks t = f (k.tasks t) := Function.update_self ..

theorem onTask_tasks_ne {t u : Tid} (h : u ≠ t) (f : Process → Process) (k : Kernel) :
    (k.onTask t f).tasks u = k.tasks u := Function.update_of_ne h ..

@[simp] theorem onTask_pipes (t : Tid) (f : Process → Process) (k : Kernel) :
    (k.onTask t f).pipes = k.pipes := rfl

@[simp] theorem onTask_files (t : Tid) (f : Process → Process) (k : Kernel) :
    (k.onTask t f).files = k.files := rfl

@[simp] theorem onTask_live (t : Tid) (f : Process → Process) (k : Kernel) :
    (k.onTask t f).live = k.live := rfl

@[simp] theorem onTask_currentTask (t : Tid) (f : Process → Process) (k : Kernel) :
    (k.onTask t f).currentTask = k.currentTask := rfl

@[simp] theorem onPipe_pipes_self (p : PipeId) (f : Pipe → Pipe) (k : Kernel) :
    (k.onPipe p f).pipes p = f (k.pipes p) := Function.update_self ..

theorem onPipe_pipes_ne {p q : PipeId} (h : q ≠ p) (f : Pipe → Pipe) (k : Kernel) :
    (k.onPipe p f).pipes q = k.pipes q := Function.update_of_ne h ..

@[simp] theorem onPipe_tasks (p : PipeId) (f : Pipe → Pipe) (k : Kernel) :
    (k.onPipe p f).tasks = k.tasks := rfl

@[simp] theorem onPipe_files (p : PipeId) (f : Pipe → Pipe) (k : Kernel) :
    (k.onPipe p f).files = k.files := rfl

@[simp] theorem onPipe_live (p : PipeId) (f : Pipe → Pipe) (k : Kernel) :
    (k.onPipe p f).live = k.live := rfl

@[simp] theorem onPipe_currentTask (p : PipeId) (f : Pipe → Pipe) (k : Kernel) :
    (k.onPipe p f).currentTask = k.currentTask := rfl

end Kernel

/-- The two outcomes of a request. -/
theorem kmalloc_cases (answer : Option Handle) (k : Kernel) :
    kmalloc answer k = (none, k) ∨
    ∃ h, answer = some h ∧ h ∉ k.live ∧
      kmalloc answer k = (some h, { k with live := insert h k.live }) := by
  cases answer with
  | none => exact Or.inl rfl
  | some h =>
    by_cases hl : h ∈ k.live
    · exact Or.inl (by simp [kmalloc, hl])
    · exact Or.inr ⟨h, rfl, hl, by simp [kmalloc, hl]⟩

end TypeOS.Proc
