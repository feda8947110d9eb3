import TypeOS.Proc.Calls
import TypeOS.Sched.Keyboard

/-! One processor that runs the tasks: which kernel code is suspended on which kernel stack, the single
    jump buffer of `proc_run_runnable`, and the steps between two points where user code, a wait loop
    or an interrupt can go on.

    A call that must wait runs other tasks from inside the kernel. `proc_run_runnable` saves its place
    in `fork_jmp_buf`, enters the user mode of another task and comes back when an exit jumps there.
    `sched_yield` changes `current_task` and leaves the processor on the kernel stack it is on. A
    kernel stack is named by the pid of the task that it was allocated for, 0 is the one from boot;
    a call runs on the one that the task state segment points to when it is entered.

    The last fields of `Machine` only record what happened. -/

namespace TypeOS.Sched

open Proc Kernel

/-- What `syscall_entry` finds in the registers. -/
structure UserContext where
  rip : BitVec 64
  rsp : BitVec 64
  rflags : BitVec 64
  rax : BitVec 64
  regs : Fin 15 → BitVec 64

/-- A call inside the kernel that may have to wait. -/
inductive Pending
  | read (p : PipeId) (count : Nat) (buf : UserBuf)
  | write (p : PipeId) (buf : UserBuf) (done : Nat)
  | console (bufOk : Bool)
  | wait (pid : Int) (statusOk : Bool)
  | exiting

/-- A call, the task that entered it and the kernel stack it runs on. -/
structure Frame where
  owner : Tid
  stack : Nat
  call : Pending

/-- The place that `setjmp_asm` saves: the call, its `self`, and the number of this
    `proc_run_runnable` call. -/
structure Saved where
  frame : Frame
  self : Tid
  number : Nat

/-- What the processor does. `idle` is the loop of `sched_block_current`, `halted` the one at the end
    of `SYS_exit`; `wild` is a jump into a stack that holds something else by now. -/
inductive Mode
  | user
  | kernel (f : Frame)
  | idle (f : Frame)
  | halted
  | wild

/-- The last system call of a task. -/
inductive LastCall
  | fresh
  | entered
  | returned (r : Int)

/-- `proc_run_runnable` calls that start a task, and exits. -/
inductive Event
  | activated (number stack : Nat) (self task : Tid)
  | exited (task : Tid)

/-- The two ways back to user mode: after `sched_after_syscall`, with the task that entered the call
    and the current one, and through `usermode_resume_task`, with the task, its last call and its
    `user_rax`. -/
inductive Return
  | afterSyscall (owner current : Tid)
  | resumed (task : Tid) (last : LastCall) (userRax : BitVec 64)

structure Machine where
  kernel : Kernel
  rrIndex : Tid
  keyboard : Keyboard
  tssRsp0 : Nat
  forkJmpActive : Bool
  forkJmpParent : Option Tid
  forkJmpBuf : Option (Nat × Nat)
  mode : Mode
  kstacks : Nat → Option Saved
  calls : Nat
  lastCall : Tid → LastCall
  waiting : Tid → Option Pending
  gone : List Nat
  history : List Event
  returns : List Return

namespace Machine

/-- The current task. -/
abbrev cur (m : Machine) : Tid := m.kernel.currentTask

/-- The state of a task. -/
abbrev state (m : Machine) (t : Tid) : TaskState := (m.kernel.tasks t).state

end Machine

/-- `gdt_set_rsp0`, for a task that has a kernel stack. -/
def gdtSetRsp0 (t : Tid) (m : Machine) : Machine :=
  if (m.kernel.tasks t).kernelStack.isSome then { m with tssRsp0 := (m.kernel.tasks t).pid } else m

/-- `proc_activate`. -/
def procActivate (t : Tid) (m : Machine) : Machine :=
  let m := gdtSetRsp0 t m
  { m with kernel :=
    { m.kernel.setState t .running with currentTask := t, pml4 := (m.kernel.tasks t).cr3 } }

/-- `proc_run_runnable`, from the call `f`: its way out by `longjmp_asm` is `resume`. -/
def procRunRunnable (f : Frame) (m : Machine) : Option Machine :=
  match firstSlot fun t => m.state t = .runnable ∧ t ≠ m.cur with
  | none => none
  | some t =>
    let m' := procActivate t m
    some { m' with
      forkJmpParent := some m.cur, forkJmpActive := true, forkJmpBuf := some (f.stack, m.calls)
      kstacks := Function.update m.kstacks f.stack (some ⟨f, m.cur, m.calls⟩)
      mode := .user, calls := m.calls + 1
      history := .activated m.calls f.stack m.cur t :: m.history
      returns := .resumed t (m.lastCall t) (m.kernel.tasks t).userRax :: m.returns }

/-- Where a call goes on after `proc_run_runnable`: to its loop, and `SYS_exit` halts. -/
def Frame.goesOn (f : Frame) : Mode :=
  match f.call with
  | .exiting => .halted
  | _ => .kernel f

/-- The end of `proc_run_runnable`, in the call whose place was saved. -/
def resume (saved : Saved) (m : Machine) : Machine :=
  { procActivate saved.self m with
    forkJmpActive := false, forkJmpParent := none
    kstacks := Function.update m.kstacks saved.frame.stack none
    mode := saved.frame.goesOn }

/-- `longjmp_asm (fork_jmp_buf, 1)`. -/
def longjmp (m : Machine) : Machine :=
  match m.forkJmpBuf with
  | none => { m with mode := .wild }
  | some (stack, number) =>
    match m.kstacks stack with
    | none => { m with mode := .wild }
    | some saved => if saved.number = number then resume saved m else { m with mode := .wild }

/-- `sched_count_runnable`. -/
def schedCountRunnable (k : Kernel) : Nat :=
  ((List.finRange procMaxTasks).filter fun t =>
    (k.tasks t).state = .runnable ∨ (k.tasks t).state = .running).length

/-- The slot that the i-th turn of the loop in `sched_pick_next` looks at. -/
def roundFrom (rr i : Tid) : Tid := ⟨(rr.val + i.val + 1) % procMaxTasks, Nat.mod_lt _ (by decide)⟩

/-- `sched_pick_next`: the task and the new `rr_index`. -/
def schedPickNext (rr : Tid) (k : Kernel) : Tid × Tid :=
  match firstSlot fun i => (k.tasks (roundFrom rr i)).state = .runnable ∨
      (k.tasks (roundFrom rr i)).state = .running with
  | none => (k.currentTask, rr)
  | some i => (roundFrom rr i, roundFrom rr i)

/-- `sched_switch_to`. -/
def schedSwitchTo (next : Tid) (m : Machine) : Machine :=
  if next = m.cur then
    if m.state m.cur = .runnable then { m with kernel := m.kernel.setState m.cur .running } else m
  else
    let m := if m.state m.cur = .running then
      { m with kernel := m.kernel.setState m.cur .runnable } else m
    let m := { m with kernel :=
      { m.kernel.setState next .running with currentTask := next, pml4 := (m.kernel.tasks next).cr3 } }
    gdtSetRsp0 next m

/-- `sched_yield`. -/
def schedYield (m : Machine) : Machine :=
  if schedCountRunnable m.kernel ≤ 1 then m
  else
    let r := schedPickNext m.rrIndex m.kernel
    schedSwitchTo r.1 { m with rrIndex := r.2 }

/-- The way out of `sched_block_current`, back to the loop of the call. -/
def schedBlockEnd (f : Frame) (cur : Tid) (m : Machine) : Machine :=
  { m with
    kernel := if m.state cur = .runnable then m.kernel.setState cur .running else m.kernel
    mode := .kernel f }

/-- `sched_block_current`, up to its first `hlt`. -/
def schedBlockCurrent (f : Frame) (m : Machine) : Machine :=
  match procRunRunnable f m with
  | some m => m
  | none =>
    let cur := m.cur
    let m := schedYield { m with
      kernel := m.kernel.setState cur .blocked
      waiting := Function.update m.waiting cur (some f.call) }
    if m.cur = cur ∧ m.state cur = .blocked then { m with mode := .idle f }
    else schedBlockEnd f cur m

/-- `sched_after_syscall` and the return to user mode, for a call that `owner` entered. -/
def schedAfterSyscall (owner : Tid) (r : Int) (m : Machine) : Machine :=
  { m with
    kernel := m.kernel.onTask m.cur fun p => { p with userRax := BitVec.ofInt 64 r }
    lastCall := Function.update m.lastCall owner (.returned r)
    mode := .user
    returns := .afterSyscall owner m.cur :: m.returns }

/-- A turn of the loop in `keyboard_getchar`, for `sys_read`. -/
def consoleTurn (bufOk : Bool) (m : Machine) : Turn × Machine :=
  let r := keyboardPoll m.keyboard
  let m := { m with
    keyboard := r.2
    kernel := if r.1 then schedWakeAll m.kernel else m.kernel }
  if r.2.head ≠ r.2.tail then
    (.done (if bufOk then 1 else eFault), { m with keyboard := (keyboardTake r.2).2 })
  else (.block, m)

/-- What a call does before it waits. -/
def callTurn (f : Frame) (m : Machine) : Turn × Machine :=
  match f.call with
  | .read p count buf =>
    let r := pipeReadTurn p count buf m.kernel
    (r.1, { m with kernel := r.2 })
  | .write p buf done =>
    let r := pipeWriteTurn p buf done m.kernel
    (r.1, { m with kernel := r.2 })
  | .console bufOk => consoleTurn bufOk m
  | .wait pid statusOk =>
    let r := waitTurn pid statusOk m.kernel
    (r.1, { m with kernel := r.2 })
  | .exiting => (.block, m)

/-- A write that has got so far. -/
def Pending.advance (n : Nat) : Pending → Pending
  | .write p buf _ => .write p buf n
  | c => c

/-- What a call does when it must wait. `SYS_exit` runs one task and halts. -/
def waitInKernel (f : Frame) (m : Machine) : Machine :=
  match f.call with
  | .exiting =>
    match procRunRunnable f m with
    | some m => m
    | none => { m with mode := .halted }
  | _ => schedBlockCurrent f m

/-- One turn of the loop of a call. -/
def turn (f : Frame) (m : Machine) : Machine :=
  match callTurn f m with
  | (.done r, m) => schedAfterSyscall f.owner r m
  | (.again n, m) => { m with mode := .kernel { f with call := f.call.advance n } }
  | (.block, m) => waitInKernel f m

/-- The system calls of a user program. `plain` stands for those that return at once, `other` for one
    that touches nothing here; `r` is the result of a read or write that finds another kind of file. -/
inductive Sys
  | plain (c : Call)
  | other (r : Int)
  | exec (found : Bool)
  | exit (status : Int)
  | wait (pid : Int) (statusOk : Bool)
  | read (fd : Int) (count : Nat) (buf : UserBuf) (r : Int)
  | write (fd : Int) (buf : UserBuf) (r : Int)

/-- The calls that `Sys.plain` may stand for. -/
def Plain : Call → Bool
  | .pipe _ | .dup _ | .dup2 _ _ | .fcntlDup _ _ | .openPath _ _ | .close _ | .fork => true
  | _ => false

/-- `syscall_entry` up to the dispatcher: the frame goes to the top of the kernel stack, over whatever
    is suspended there. -/
def enter (ctx : UserContext) (m : Machine) : Machine :=
  { m with
    kernel := m.kernel.onTask m.cur fun p => { p with
      userRip := ctx.rip, userRsp := ctx.rsp, userRflags := ctx.rflags, userRegs := ctx.regs
      userRax := ctx.rax }
    kstacks := Function.update m.kstacks m.tssRsp0 none
    lastCall := Function.update m.lastCall m.cur .entered }

/-- The frame of a call that the current task has entered. -/
def frameOf (call : Pending) (m : Machine) : Frame := ⟨m.cur, m.tssRsp0, call⟩

/-- The console test of `sys_read`. -/
def readsConsole (fd : Int) (k : Kernel) : Bool :=
  fd = 0 || match fdGet fd k with
    | none => false
    | some h => isConsolePath (k.files h).path

/-- `proc_exit` and the rest of `SYS_exit`. -/
def sysExit (status : Int) (m : Machine) : Machine :=
  let m' := { m with
    kernel := exitCurrent status m.kernel
    gone := (m.kernel.tasks m.cur).pid :: m.gone
    history := .exited m.cur :: m.history }
  if m.forkJmpActive ∧ m.forkJmpParent.isSome then longjmp m'
  else { m' with mode := .kernel (frameOf .exiting m) }

/-- `syscall_dispatch`. -/
def sysDispatch (ans : Answers) (sys : Sys) (m : Machine) : Option Machine :=
  match sys with
  | .plain c =>
    match Plain c, dispatch ans c m.kernel with
    | true, (.done r, k) =>
      some (schedAfterSyscall m.cur r { m with
        kernel := k
        lastCall := fun t => if m.state t = .unused then .fresh else m.lastCall t })
    | _, _ => none
  | .other r => some (schedAfterSyscall m.cur r m)
  | .exec found =>
    match procExec ans found m.kernel with
    | (true, k) =>
      some { m with
        kernel := k, mode := .user, lastCall := Function.update m.lastCall m.cur (.returned 0) }
    | (false, k) => some (schedAfterSyscall m.cur eNoent { m with kernel := k })
  | .exit status => some (sysExit status m)
  | .wait pid statusOk => some { m with mode := .kernel (frameOf (.wait pid statusOk) m) }
  | .read fd count buf r =>
    match readPipe fd m.kernel with
    | some p => some { m with mode := .kernel (frameOf (.read p count buf) m) }
    | none =>
      if readsConsole fd m.kernel ∧ count ≠ 0 then
        some { m with mode := .kernel (frameOf (.console (buf.ok 0 1)) m) }
      else some (schedAfterSyscall m.cur (if readsConsole fd m.kernel then 0 else r) m)
  | .write fd buf r =>
    match writePipe fd m.kernel with
    | some p => some { m with mode := .kernel (frameOf (.write p buf 0) m) }
    | none => some (schedAfterSyscall m.cur r m)

/-- What happens next: the user program enters a call, the kernel goes on, the timer interrupts the
    processor, a key is pressed. -/
inductive Input
  | syscall (ctx : UserContext) (ans : Answers) (sys : Sys)
  | turn
  | tick
  | key (scancode : Nat)

/-- One step. The timer interrupt only counts, so it matters in the loop of `sched_block_current`
    alone, which it lets look for a task again. -/
def step (i : Input) (m : Machine) : Option Machine :=
  match i, m.mode with
  | .syscall ctx ans sys, .user => sysDispatch ans sys (enter ctx m)
  | .turn, .kernel f => some (turn f m)
  | .tick, .idle f =>
    if m.state m.cur = .blocked then
      match procRunRunnable f m with
      | some m => some m
      | none => some m
    else some (schedBlockEnd f m.cur m)
  | .key scancode, _ =>
    let r := keyArrives scancode m.keyboard
    some { m with
      keyboard := r.2, kernel := if r.1 then schedWakeAll m.kernel else m.kernel }
  | _, _ => none

/-- After `kmain`: the shell runs as the first task. -/
def Machine.boot (ans : Answers) (live : Finset Handle) (files : Handle → VfsFile) (pml4 : Nat) :
    Machine :=
  { kernel := (procExec ans true (procInit ans (Kernel.zero live files pml4))).2
    rrIndex := 0, keyboard := .init, tssRsp0 := 0, forkJmpActive := false, forkJmpParent := none
    forkJmpBuf := none, mode := .user, kstacks := fun _ => none, calls := 0
    lastCall := fun _ => .fresh, waiting := fun _ => none, gone := [], history := [], returns := [] }

/-- The states that steps satisfying `Meets` lead to. -/
inductive Reaches (Meets : Input → Machine → Prop) : Machine → Prop
  | boot (ans : Answers) (live : Finset Handle) (files : Handle → VfsFile) (pml4 : Nat) :
      Reaches Meets (gdtSetRsp0 0 (Machine.boot ans live files pml4))
  | step {m m' : Machine} (i : Input) : Reaches Meets m → Meets i m → step i m = some m' →
      Reaches Meets m'

end TypeOS.Sched
