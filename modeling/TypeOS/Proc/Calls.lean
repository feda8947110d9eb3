import TypeOS.Proc.Files

/-! The calls on descriptors and tasks, and the runs that any tasks make of them. -/

namespace TypeOS.Proc

open Kernel

/-- The system calls that create, copy, use or drop descriptors and tasks, with the part of their
    arguments and surroundings that decides what they do. A write is given with the number of bytes
    that earlier turns of it have written. -/
inductive Call
  | pipe (ufdOk : Bool)
  | dup (oldfd : Int)
  | dup2 (oldfd newfd : Int)
  | fcntlDup (oldfd minfd : Int)
  | openPath (path : String) (node : Option Nat)
  | close (fd : Int)
  | fork
  | exec (found : Bool)
  | exit (status : Int)
  | wait (pid : Int) (statusOk : Bool)
  | read (fd : Int) (count : Nat) (buf : UserBuf)
  | write (fd : Int) (buf : UserBuf) (done : Nat)

/-- `SYS_dup2`. -/
def sysDup2 (ans : Answers) (oldfd newfd : Int) (k : Kernel) : Int × Kernel :=
  if newfd < 0 ∨ procMaxFd ≤ newfd then (eBadf, k) else fdDupTo ans oldfd newfd k

/-- What the loop of `SYS_wait4` does before it waits; `statusOk` says that no status is asked for or
    that its address is accepted. -/
def waitTurn (pid : Int) (statusOk : Bool) (k : Kernel) : Turn × Kernel :=
  match procForkTakeStatus pid k with
  | (some (reaped, _), k) => (.done (if statusOk then reaped else eFault), k)
  | (none, k) => if procHasChildren k then (.block, k) else (.done eChld, k)

/-- A call that returns at once. -/
def atOnce (r : Int × Kernel) : Turn × Kernel := (.done r.1, r.2)

/-- `syscall_dispatch`, one turn for a call that may wait. A read or write of another kind of file
    touches no pipe and no descriptor table. -/
def dispatch (ans : Answers) (c : Call) (k : Kernel) : Turn × Kernel :=
  match c with
  | .pipe ufdOk => atOnce (sysPipe ans ufdOk k)
  | .dup oldfd => atOnce (fdDupTo ans oldfd (-1) k)
  | .dup2 oldfd newfd => atOnce (sysDup2 ans oldfd newfd k)
  | .fcntlDup oldfd minfd => atOnce (fdDupFrom ans oldfd minfd k)
  | .openPath path node => atOnce (sysOpenPath ans path node k)
  | .close fd => atOnce (sysClose ans fd k)
  | .fork => atOnce (procFork ans k)
  | .exec found => atOnce (if (procExec ans found k).1 then 0 else eNoent, (procExec ans found k).2)
  | .exit status => (.done status, exitCurrent status k)
  | .wait pid statusOk => waitTurn pid statusOk k
  | .read fd count buf =>
    match readPipe fd k with
    | none => (.done 0, k)
    | some p => pipeReadTurn p count buf k
  | .write fd buf done =>
    match writePipe fd k with
    | none => (.done buf.bytes.length, k)
    | some p => pipeWriteTurn p buf done k

/-- The statics as the loader leaves them; `live` is what the heap has given out already. -/
def Kernel.zero (live : Finset Handle) (files : Handle → VfsFile) (pml4 : Nat) : Kernel :=
  { tasks := fun _ => Process.zero, currentTask := 0, pipes := fun _ => Pipe.zero, nextPid := 2,
    files := files, live := live, pml4 := pml4 }

/-- `proc_open_console_fd`. -/
def procOpenConsoleFd (answer : Option Handle) (fd : Fd) (k : Kernel) : Kernel :=
  match k.fds fd with
  | some _ => k
  | none =>
    match kmalloc answer k with
    | (none, k) => k
    | (some h, k) =>
      (k.setFile h { VfsFile.fresh with path := "/dev/console" }).setFd k.currentTask fd (some h)

/-- The kernel stack of the first task, if there is memory for it. -/
def procInitStack (answer : Option Handle) (k : Kernel) : Kernel :=
  match kmalloc answer k with
  | (none, k) => k
  | (some h, k) => k.onTask 0 fun p => { p with kernelStack := some h }

/-- `proc_init`. -/
def procInit (ans : Answers) (k : Kernel) : Kernel :=
  let k := { k with tasks := fun _ => Process.zero, currentTask := 0 }
  let k := k.onTask 0 fun p => { p with
    pid := 1, ppid := 0, sid := 1, pgid := 1, brk := userBrkStart, cr3 := k.pml4 }
  let k := procInitStack (ans.kmalloc 0) k
  let k := k.onTask 0 fun p => { p with state := .running, cwd := "/" }
  procOpenConsoleFd (ans.kmalloc 3) 2
    (procOpenConsoleFd (ans.kmalloc 2) 1 (procOpenConsoleFd (ans.kmalloc 1) 0 k))

/-- A task that is there and has not exited. -/
def Process.Live (p : Process) : Prop := p.state ≠ .unused ∧ p.state ≠ .zombie

instance (p : Process) : Decidable p.Live := inferInstanceAs (Decidable (_ ∧ _))

/-- The states that any tasks bring about with calls that satisfy `Meets`: which live task runs next,
    and which of the live states a live task is in, is left open. -/
inductive Reaches (Meets : Answers → Call → Kernel → Prop) : Kernel → Prop
  | init (ans : Answers) (live : Finset Handle) (files : Handle → VfsFile) (pml4 : Nat) :
      Reaches Meets (procInit ans (Kernel.zero live files pml4))
  | schedule {k : Kernel} (t : Tid) (state : TaskState) : Reaches Meets k →
      (k.tasks t).Live → state ≠ .unused → state ≠ .zombie → Reaches Meets (k.setState t state)
  | switch {k : Kernel} (t : Tid) : Reaches Meets k → (k.tasks t).Live →
      Reaches Meets { k with currentTask := t }
  | call {k : Kernel} (ans : Answers) (c : Call) : Reaches Meets k →
      (k.tasks k.currentTask).Live → Meets ans c k → Reaches Meets (dispatch ans c k).2

end TypeOS.Proc
