import TypeOS.Proc.Tasks

/-! Descriptors and pipes: the calls that create, copy, use and drop them.

    A result is the `int64_t` the call returns, an error as a negative number. A call that may have to
    wait is given one turn at a time: a turn ends the call, goes on with it, or blocks. -/

namespace TypeOS.Proc

open Kernel

/-- `E_NOENT`. -/
abbrev eNoent : Int := -2
/-- `E_BADF`. -/
abbrev eBadf : Int := -9
/-- `E_CHLD`. -/
abbrev eChld : Int := -10
/-- `E_NOMEM`. -/
abbrev eNomem : Int := -12
/-- `E_FAULT`. -/
abbrev eFault : Int := -14
/-- `EPIPE`. -/
abbrev ePipe : Int := -32

/-- The range check on a descriptor number. -/
def toFd (fd : Int) : Option Fd :=
  if h : 0 ≤ fd ∧ fd < procMaxFd then some ⟨fd.toNat, by omega⟩ else none

/-- The descriptor table of the current task. -/
def Kernel.fds (k : Kernel) : Fd → Option Handle := (k.tasks k.currentTask).fds

/-- `fd_get`. -/
def fdGet (fd : Int) (k : Kernel) : Option Handle := (toFd fd).bind k.fds

/-- The file `fd_alloc` leaves. -/
def VfsFile.fresh : VfsFile := { inode := none, pos := 0, path := "", pipe := none, pipeEnd := -1 }

/-- `is_console_path`. -/
def isConsolePath (path : String) : Bool := path = "/dev/console" || path = "/dev/tty"

/-- `is_null_path`. -/
def isNullPath (path : String) : Bool := path = "/dev/null"

/-- `fd_alloc`. -/
def fdAlloc (answer : Option Handle) (k : Kernel) : Option (Fd × Handle) × Kernel :=
  match firstSlot fun fd => (k.fds fd).isNone with
  | none => (none, k)
  | some fd =>
    match kmalloc answer k with
    | (none, k) => (none, k)
    | (some h, k) => (some (fd, h), (k.setFd k.currentTask fd (some h)).setFile h VfsFile.fresh)

/-- The end of a pipe that a copied descriptor adds. -/
def countEnd (file : VfsFile) (k : Kernel) : Kernel :=
  match file.pipe with
  | none => k
  | some p =>
    if file.pipeEnd = 0 then k.onPipe p fun q => { q with readers := q.readers + 1 }
    else if file.pipeEnd = 1 then k.onPipe p fun q => { q with writers := q.writers + 1 }
    else k

/-- `memcpy (dst, src, sizeof (*dst))` and the count of the end that this adds. -/
def copyFile (src dst : Handle) (k : Kernel) : Kernel :=
  countEnd (k.files src) (k.setFile dst (k.files src))

/-- The part of `fd_dup_to` that empties the target: the pointer itself stays until it is replaced. -/
def dropTarget (freed : VfsFile) (fd : Fd) (k : Kernel) : Kernel :=
  match k.fds fd with
  | none => k
  | some h => kfree freed h (vfsClose h k)

/-- `fd_dup_to`. -/
def fdDupTo (ans : Answers) (oldfd newfd : Int) (k : Kernel) : Int × Kernel :=
  match fdGet oldfd k with
  | none => (eBadf, k)
  | some src =>
    if newfd < 0 then
      match fdAlloc (ans.kmalloc 0) k with
      | (none, k) => (eNomem, k)
      | (some (fd, dst), k) => (fd.val, copyFile src dst k)
    else
      match toFd newfd with
      | none => (eBadf, k)
      | some fd =>
        match kmalloc (ans.kmalloc 0) (dropTarget ans.freed fd k) with
        | (none, k) => (eNomem, k)
        | (some dst, k) => (fd.val, copyFile src dst (k.setFd k.currentTask fd (some dst)))

/-- `fd_dup_from`. -/
def fdDupFrom (ans : Answers) (oldfd minfd : Int) (k : Kernel) : Int × Kernel :=
  match fdGet oldfd k, toFd minfd with
  | some src, some minfd =>
    match firstSlot fun fd => minfd ≤ fd ∧ (k.fds fd).isNone with
    | none => (eBadf, k)
    | some fd =>
      match kmalloc (ans.kmalloc 0) k with
      | (none, k) => (eNomem, k)
      | (some dst, k) => (fd.val, (copyFile src dst k).setFd k.currentTask fd (some dst))
  | _, _ => (eBadf, k)

/-- `sys_pipe_impl`; `ufdOk` is the answer of `user_ptr_ok` for the two numbers it hands out. -/
def sysPipe (ans : Answers) (ufdOk : Bool) (k : Kernel) : Int × Kernel :=
  match procPipeAlloc k with
  | (none, k) => (eNomem, k)
  | (some p, k) =>
    match fdAlloc (ans.kmalloc 0) k with
    | (none, k) => (eNomem, procPipeFree p k)
    | (some (readfd, readf), k) =>
      match fdAlloc (ans.kmalloc 1) k with
      | (none, k) =>
        (eNomem, procPipeFree p ((kfree ans.freed readf k).setFd k.currentTask readfd none))
      | (some (writefd, writef), k) =>
        let k := k.onPipe p fun q => { q with readers := 1, writers := 1 }
        let k := k.setFile readf { k.files readf with
          pipe := some p, pipeEnd := 0, inode := none, path := "" }
        let k := k.setFile writef { k.files writef with
          pipe := some p, pipeEnd := 1, inode := none, path := "" }
        if ufdOk then (0, k)
        else
          let k := (k.setFd k.currentTask readfd none).setFd k.currentTask writefd none
          (eFault, procPipeFree p (kfree ans.freed writef (kfree ans.freed readf k)))

/-- `sys_open_path`; `node` is the inode that `vfs_open` finds. -/
def sysOpenPath (ans : Answers) (path : String) (node : Option Nat) (k : Kernel) : Int × Kernel :=
  match fdAlloc (ans.kmalloc 0) k with
  | (none, k) => (eNomem, k)
  | (some (fd, h), k) =>
    if isConsolePath path || isNullPath path then
      (fd.val, k.setFile h { VfsFile.fresh with path := path })
    else
      match node with
      | none => (eNoent, (kfree ans.freed h k).setFd k.currentTask fd none)
      | some inode =>
        (fd.val, k.setFile h { k.files h with path := path, inode := some inode, pos := 0 })

/-- The count that `SYS_close` takes off. -/
def uncountEnd (file : VfsFile) (q : Pipe) : Pipe :=
  if file.pipeEnd = 0 ∧ 0 < q.readers then { q with readers := q.readers - 1 }
  else if file.pipeEnd = 1 ∧ 0 < q.writers then { q with writers := q.writers - 1 }
  else q

/-- The pipe part of `SYS_close`: the last end frees the pipe. -/
def closeEnd (h : Handle) (k : Kernel) : Kernel :=
  match (k.files h).pipe with
  | none => vfsClose h k
  | some p =>
    let k := k.onPipe p (uncountEnd (k.files h))
    if (k.pipes p).readers = 0 ∧ (k.pipes p).writers = 0 then procPipeFree p k else k

/-- `SYS_close`. -/
def sysClose (ans : Answers) (fd : Int) (k : Kernel) : Int × Kernel :=
  match toFd fd with
  | none => (eBadf, k)
  | some fd =>
    match k.fds fd with
    | none => (eBadf, k)
    | some h => (0, (kfree ans.freed h (closeEnd h k)).setFd k.currentTask fd none)

/-- One turn of the loop in `proc_fd_close_all`: no count is taken off here. -/
def closeSlot (freed : VfsFile) (k : Kernel) (fd : Fd) : Kernel :=
  match k.fds fd with
  | none => k
  | some h => (kfree freed h (vfsClose h k)).setFd k.currentTask fd none

/-- `proc_fd_close_all`. -/
def procFdCloseAll (freed : VfsFile) (k : Kernel) : Kernel :=
  ((List.finRange procMaxFd).filter fun fd => 3 ≤ fd.val).foldl (closeSlot freed) k

/-- One turn of the loop in `proc_fork`. -/
def forkFd (ans : Answers) (parent child : Tid) (fd : Fd) (k : Kernel) : Bool × Kernel :=
  match (k.tasks parent).fds fd with
  | none => (true, k)
  | some src =>
    match kmalloc (ans.kmalloc (fd.val + 1)) k with
    | (none, k) => (false, k)
    | (some dst, k) => (true, copyFile src dst (k.setFd child fd (some dst)))

/-- What `proc_fork` copies from the parent's slot before the descriptors. -/
def forkSlot (parent : Tid) (p c : Process) (cr3 : Nat) : Process :=
  { c with
    cr3 := cr3, brk := p.brk, ppid := p.pid, sid := p.sid, pgid := p.pgid, parent := some parent
    userRip := p.userRip, userRsp := p.userRsp, userRflags := p.userRflags, userRax := 0
    userRegs := p.userRegs, fsBase := p.fsBase, cwd := p.cwd }

/-- `proc_fork`. -/
def procFork (ans : Answers) (k : Kernel) : Int × Kernel :=
  let parent := k.currentTask
  match procAllocTask (ans.kmalloc 0) k with
  | (none, k) => (-1, k)
  | (some child, k) =>
    if ans.cloneCr3 = 0 then (-1, k.setState child .unused)
    else
      let k := k.onTask child fun c => forkSlot parent (k.tasks parent) c ans.cloneCr3
      match forEach (forkFd ans parent child) (List.finRange procMaxFd) k with
      | (false, k) => (-1, k.setState child .unused)
      | (true, k) => ((k.tasks child).pid, k.setState child .runnable)

/-- `proc_exec`; `found` says that the path names a file. The result says whether the new program
    runs. -/
def procExec (ans : Answers) (found : Bool) (k : Kernel) : Bool × Kernel :=
  if found then
    let k := procFdCloseAll ans.freed k
    let k := if ans.cloneCr3 = 0 then k
      else { k.onTask k.currentTask fun p => { p with cr3 := ans.cloneCr3 } with pml4 := ans.cloneCr3 }
    let k := k.onTask k.currentTask fun p => { p with brk := userBrkStart, fsBase := 0 }
    match ans.image with
    | none => (false, k)
    | some (entry, stack) =>
      (true, k.onTask k.currentTask fun p => { p with
        userRip := entry, userRsp := stack, userRflags := 0x202, userRax := 0
        userRegs := fun _ => 0, cr3 := k.pml4 })
  else (false, k)

/-- What `proc_fork_sync_exit` and `proc_exit` do to the slot of a task that exits. -/
def exitCurrent (status : Int) (k : Kernel) : Kernel :=
  procWakeParent (k.onTask k.currentTask fun p => { p with exitStatus := status, state := .zombie })

/-- The loop of `pipe_read`. -/
def Pipe.read : Nat → Pipe → List UInt8 × Pipe
  | 0, q => ([], q)
  | n + 1, q =>
    if 0 < q.count then
      let r := Pipe.read n { q with tail := (q.tail + 1) % pipeSize, count := q.count - 1 }
      (q.buf q.tail :: r.1, r.2)
    else ([], q)

/-- The loop of `pipe_write`: the number of bytes that it takes. -/
def Pipe.write : List UInt8 → Pipe → Nat × Pipe
  | [], q => (0, q)
  | b :: bytes, q =>
    if q.count < pipeSize then
      let r := Pipe.write bytes { q with
        buf := Function.update q.buf q.head b, head := (q.head + 1) % pipeSize, count := q.count + 1 }
      (r.1 + 1, r.2)
    else (0, q)

/-- How a turn of a call that may wait ends. -/
inductive Turn
  | done (result : Int)
  | again (done : Nat)
  | block
  deriving DecidableEq, Repr

/-- A user buffer: its length and, for an offset and a length, the answer of `user_ptr_ok`. -/
structure UserBuf where
  bytes : List UInt8
  ok : Nat → Nat → Bool

/-- A turn of the pipe loop in `sys_read`. -/
def pipeReadTurn (p : PipeId) (count : Nat) (buf : UserBuf) (k : Kernel) : Turn × Kernel :=
  let r := (k.pipes p).read count
  let k := k.onPipe p fun _ => r.2
  if 0 < r.1.length then
    (if buf.ok 0 r.1.length then .done r.1.length else .done eFault, k)
  else if (k.pipes p).writers = 0 then (.done 0, k)
  else (.block, k)

/-- The chunk of a buffer that `sys_write` works on when `done` bytes are written. -/
def chunk (buf : UserBuf) (done : Nat) : List UInt8 := (buf.bytes.drop done).take 512

/-- A turn of the pipe loops in `sys_write`, when `done` bytes are written. -/
def pipeWriteTurn (p : PipeId) (buf : UserBuf) (done : Nat) (k : Kernel) : Turn × Kernel :=
  if done < buf.bytes.length then
    if buf.ok done (chunk buf done).length then
      let r := (k.pipes p).write (chunk buf done)
      let k := k.onPipe p fun _ => r.2
      if 0 < r.1 then (.again (done + r.1), schedWakeAll k)
      else if (k.pipes p).readers = 0 then (.done ePipe, k)
      else (.block, k)
    else (.done eFault, k)
  else (.done done, k)

/-- The pipe that a read of a descriptor takes its bytes from. -/
def readPipe (fd : Int) (k : Kernel) : Option PipeId :=
  match fdGet fd k with
  | none => none
  | some h => if (k.files h).pipeEnd = 0 then (k.files h).pipe else none

/-- The pipe that a write to a descriptor puts its bytes into: `/dev/null` is looked at first. -/
def writePipe (fd : Int) (k : Kernel) : Option PipeId :=
  match fdGet fd k with
  | none => none
  | some h =>
    if isNullPath (k.files h).path then none
    else if (k.files h).pipeEnd = 1 then (k.files h).pipe else none

end TypeOS.Proc
