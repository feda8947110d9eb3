import TypeOS.Sched.Machine
import TypeOS.Proc.Counted

/-! What the calls that return at once leave alone in the task table: everything but the descriptors,
    and the slot of a new child. -/

namespace TypeOS.Proc

open Kernel

/-- The registers that a slot keeps. -/
def Process.context (p : Process) : Sched.UserContext :=
  ⟨p.userRip, p.userRsp, p.userRflags, p.userRax, p.userRegs⟩

/-- The fields of a slot that the scheduler works with, and the directory. -/
def Process.core (p : Process) :
    TaskState × Nat × Option Tid × Sched.UserContext × Option Handle × Nat × Int × String :=
  (p.state, p.pid, p.parent, p.context, p.kernelStack, p.ppid, p.exitStatus, p.cwd)

/-- Those of them that relatives look at, but for the state. -/
def Process.kin (p : Process) : Nat × Option Tid × Nat × Int × String :=
  (p.pid, p.parent, p.ppid, p.exitStatus, p.cwd)

/-- The slots are the same for the scheduler. -/
structure Keeps (k k' : Kernel) : Prop where
  cur : k'.currentTask = k.currentTask
  pids : k'.nextPid = k.nextPid
  core : ∀ t, (k'.tasks t).core = (k.tasks t).core

variable {k k' k'' : Kernel} {ans : Answers}

theorem Process.core_state {p q : Process} (h : p.core = q.core) : p.state = q.state :=
  congrArg Prod.fst h

theorem Process.core_pid {p q : Process} (h : p.core = q.core) : p.pid = q.pid :=
  congrArg (·.2.1) h

theorem Process.core_parent {p q : Process} (h : p.core = q.core) : p.parent = q.parent :=
  congrArg (·.2.2.1) h

theorem Process.core_context {p q : Process} (h : p.core = q.core) : p.context = q.context :=
  congrArg (·.2.2.2.1) h

theorem Process.core_kin {p q : Process} (h : p.core = q.core) : p.kin = q.kin := by
  rw [Process.kin, Process.kin, core_pid h, core_parent h]
  exact congrArg (fun c => (q.pid, q.parent, c.2.2.2.2.2)) h

theorem Process.kin_pid {p q : Process} (h : p.kin = q.kin) : p.pid = q.pid := congrArg (·.1) h

theorem Process.kin_parent {p q : Process} (h : p.kin = q.kin) : p.parent = q.parent :=
  congrArg (·.2.1) h

theorem Process.kin_ppid {p q : Process} (h : p.kin = q.kin) : p.ppid = q.ppid := congrArg (·.2.2.1) h

theorem Process.kin_exitStatus {p q : Process} (h : p.kin = q.kin) : p.exitStatus = q.exitStatus :=
  congrArg (·.2.2.2.1) h

theorem Process.kin_cwd {p q : Process} (h : p.kin = q.kin) : p.cwd = q.cwd :=
  congrArg (·.2.2.2.2) h

theorem Keeps.refl (k : Kernel) : Keeps k k := ⟨rfl, rfl, fun _ => rfl⟩

theorem Keeps.trans (h : Keeps k k') (h' : Keeps k' k'') : Keeps k k'' :=
  ⟨h'.cur.trans h.cur, h'.pids.trans h.pids, fun t => (h'.core t).trans (h.core t)⟩

theorem Keeps.onTask (h : Keeps k k') (t : Tid) (f : Process → Process)
    (hf : ∀ p, (f p).core = p.core) : Keeps k (k'.onTask t f) := by
  refine ⟨h.cur, h.pids, fun u => ?_⟩
  by_cases hu : u = t
  · rw [hu, onTask_tasks_self, hf]
    exact h.core t
  · rw [onTask_tasks_ne hu]
    exact h.core u

theorem Keeps.setFd (h : Keeps k k') {t : Tid} {fd : Fd} {v : Option Handle} :
    Keeps k (k'.setFd t fd v) := h.onTask t _ fun _ => rfl

theorem Keeps.setFile (h : Keeps k k') {a : Handle} {file : VfsFile} :
    Keeps k (k'.setFile a file) := ⟨h.cur, h.pids, h.core⟩

theorem Keeps.onPipe (h : Keeps k k') {p : PipeId} {f : Pipe → Pipe} : Keeps k (k'.onPipe p f) :=
  ⟨h.cur, h.pids, h.core⟩

theorem Keeps.kfree (h : Keeps k k') {freed : VfsFile} {a : Handle} : Keeps k (kfree freed a k') :=
  ⟨h.cur, h.pids, h.core⟩

theorem Keeps.live (h : Keeps k k') {l : Finset Handle} : Keeps k { k' with live := l } :=
  ⟨h.cur, h.pids, h.core⟩

theorem Keeps.install (h : Keeps k k') {t : Tid} {fd : Fd} {a : Handle} {file : VfsFile} :
    Keeps k (install t fd a file k') :=
  @Keeps.live _ ((k'.setFd t fd (some a)).setFile a file) h.setFd.setFile _

theorem Keeps.copyFile (h : Keeps k k') {src dst : Handle} : Keeps k (copyFile src dst k') := by
  obtain ⟨pipes, heq, -⟩ := countEnd_eq (k'.files src) (k'.setFile dst (k'.files src))
  rw [Proc.copyFile, heq]
  exact ⟨h.cur, h.pids, h.core⟩

theorem Keeps.dropTarget (h : Keeps k k') {freed : VfsFile} {fd : Fd} :
    Keeps k (dropTarget freed fd k') := by
  unfold Proc.dropTarget
  split
  · exact h
  · exact h.setFile.kfree

theorem Keeps.closeEnd (h : Keeps k k') {a : Handle} : Keeps k (closeEnd a k') := by
  unfold Proc.closeEnd
  split
  · exact h.setFile
  · dsimp only
    split
    · exact h.onPipe.onPipe
    · exact h.onPipe

theorem Keeps.pipeFree (h : Keeps k k') {p : PipeId} : Keeps k (procPipeFree p k') := h.onPipe

theorem keeps_fdDupTo (oldfd newfd : Int) : Keeps k (fdDupTo ans oldfd newfd k).2 := by
  have h := Keeps.refl k
  unfold fdDupTo
  split
  · exact h
  · split
    · rcases fdAlloc_cases (ans.kmalloc 0) k with hm | ⟨fd, dst, -, -, hm⟩ <;> rw [hm]
      · exact h
      · exact h.install.copyFile
    · split
      · exact h
      · next fd _ =>
        rcases kmalloc_cases (ans.kmalloc 0) (Proc.dropTarget ans.freed fd k) with
          hm | ⟨dst, -, -, hm⟩ <;> rw [hm]
        · exact h.dropTarget
        · exact h.dropTarget.live.setFd.copyFile

theorem keeps_fdDupFrom (oldfd minfd : Int) : Keeps k (fdDupFrom ans oldfd minfd k).2 := by
  have h := Keeps.refl k
  unfold fdDupFrom
  split
  · split
    · exact h
    · rcases kmalloc_cases (ans.kmalloc 0) k with hm | ⟨dst, -, -, hm⟩ <;> rw [hm]
      · exact h
      · exact h.live.copyFile.setFd
  · exact h

theorem keeps_sysOpenPath (path : String) (node : Option Nat) :
    Keeps k (sysOpenPath ans path node k).2 := by
  have h := Keeps.refl k
  unfold sysOpenPath
  rcases fdAlloc_cases (ans.kmalloc 0) k with hm | ⟨fd, a, -, -, hm⟩ <;> rw [hm]
  · exact h
  · dsimp only
    split
    · exact h.install.setFile
    · split
      · exact h.install.kfree.setFd
      · exact h.install.setFile

theorem keeps_sysClose (fd : Int) : Keeps k (sysClose ans fd k).2 := by
  have h := Keeps.refl k
  unfold sysClose
  split
  · exact h
  · split
    · exact h
    · exact h.closeEnd.kfree.setFd

theorem keeps_sysPipe (ufdOk : Bool) : Keeps k (sysPipe ans ufdOk k).2 := by
  unfold sysPipe
  rcases procPipeAlloc_cases k with hp | ⟨p, -, hp⟩ <;> rw [hp]
  · exact .refl k
  dsimp only
  have h₁ : Keeps k (k.onPipe p fun _ => { Pipe.zero with inUse := true }) := (Keeps.refl k).onPipe
  generalize (k.onPipe p fun _ => { Pipe.zero with inUse := true }) = k₁ at h₁
  rcases fdAlloc_cases (ans.kmalloc 0) k₁ with hm | ⟨rfd, rf, -, -, hm⟩ <;> rw [hm]
  · exact h₁.pipeFree
  have h₂ : Keeps k (Proc.install k₁.currentTask rfd rf VfsFile.fresh k₁) := h₁.install
  generalize Proc.install k₁.currentTask rfd rf VfsFile.fresh k₁ = k₂ at h₂
  dsimp only
  rcases fdAlloc_cases (ans.kmalloc 1) k₂ with hm | ⟨wfd, wf, -, -, hm⟩ <;> rw [hm]
  · exact h₂.kfree.setFd.pipeFree
  have h₃ : Keeps k (Proc.install k₂.currentTask wfd wf VfsFile.fresh k₂) := h₂.install
  generalize Proc.install k₂.currentTask wfd wf VfsFile.fresh k₂ = k₃ at h₃
  dsimp only
  split
  · exact h₃.onPipe.setFile.setFile
  · exact h₃.onPipe.setFile.setFile.setFd.setFd.kfree.kfree.pipeFree

/-! ### fork, exec, exit, wait -/

/-- A slot that is a child's of the current task. -/
structure ChildOf (k : Kernel) (t : Tid) (p : Process) : Prop where
  parent : p.parent = some k.currentTask
  ppid : t ≠ k.currentTask → p.ppid = (k.tasks k.currentTask).pid
  pid : p.pid = k.nextPid
  cwd : t ≠ k.currentTask → p.cwd = (k.tasks k.currentTask).cwd

/-- A slot that was unused after a fork: it holds no child, or one that came to be or did not. -/
def Newborn (k : Kernel) (t : Tid) (p : Process) : Prop :=
  (p.state = .unused ∨ p.state = .runnable) ∧
    (p.state = .unused ∧ p.parent = none ∨ ChildOf k t p)

/-- At most one slot is taken, and then a pid is given out. -/
def OneBorn (k k' : Kernel) : Prop := ∀ t, (k.tasks t).state = .unused → (k'.tasks t).state ≠ .unused →
  k.nextPid < k'.nextPid ∧ ∀ u, (k.tasks u).state = .unused → (k'.tasks u).state ≠ .unused → u = t

/-- The registers of a child are those of the current task, but for 0 in `user_rax`. -/
def Copies (k : Kernel) (t : Tid) (p : Process) : Prop :=
  t ≠ k.currentTask → p.context = { (k.tasks k.currentTask).context with rax := 0 }

/-- Slots that were in use are the same for the scheduler; of the others one may hold a new child, which
    has the registers of its parent. -/
structure Forks (k k' : Kernel) : Prop where
  cur : k'.currentTask = k.currentTask
  pids : k.nextPid ≤ k'.nextPid
  core : ∀ t, (k'.tasks t).core = (k.tasks t).core ∨ (k.tasks t).state = .unused ∧
    Newborn k t (k'.tasks t) ∧ ((k'.tasks t).state = .runnable → Copies k t (k'.tasks t))
  born : OneBorn k k'

theorem oneBorn_of_state (h : ∀ t, (k.tasks t).state = .unused → (k'.tasks t).state = .unused) :
    OneBorn k k' := fun t hu hn => absurd (h t hu) hn

theorem OneBorn.congr {l l' : Kernel} (h : OneBorn l l') (hn : l.nextPid = k.nextPid)
    (hs : ∀ t, (l.tasks t).state = (k.tasks t).state) (hn' : l'.nextPid = k'.nextPid)
    (hs' : ∀ t, (l'.tasks t).state = (k'.tasks t).state) : OneBorn k k' := by
  intro t hu ht
  rw [← hs] at hu
  rw [← hs'] at ht
  rw [← hn, ← hn']
  refine ⟨(h t hu ht).1, fun v hv hvn => (h t hu ht).2 v ?_ ?_⟩
  · rw [hs, hv]
  · rwa [hs']

theorem Keeps.forks (h : Keeps k k') : Forks k k' :=
  ⟨h.cur, h.pids.ge, fun t => Or.inl (h.core t),
    oneBorn_of_state fun t hu => (Process.core_state (h.core t)).trans hu⟩

/-- The copies that `proc_fork` makes of descriptors. -/
theorem keeps_forkFds (parent child : Tid) (l : List Fd) : ∀ {k k' : Kernel}, Keeps k k' →
    Keeps k (forEach (forkFd ans parent child) l k').2 := by
  induction l with
  | nil => exact fun h => h
  | cons fd l ih =>
    intro k k' h
    rw [forEach]
    cases hs : (k'.tasks parent).fds fd with
    | none =>
      have : forkFd ans parent child fd k' = (true, k') := by simp [forkFd, hs]
      rw [this]
      exact ih h
    | some src =>
      rcases kmalloc_cases (ans.kmalloc (fd.val + 1)) k' with hm | ⟨dst, -, -, hm⟩
      · have : forkFd ans parent child fd k' = (false, k') := by simp [forkFd, hs, hm]
        rw [this]
        exact h
      · have : forkFd ans parent child fd k' = (true, Proc.copyFile src dst
            ({ k' with live := insert dst k'.live }.setFd child fd (some dst))) := by
          simp only [forkFd, hs, hm]
        rw [this]
        exact ih h.live.setFd.copyFile

/-- Everything but one slot that was unused is the same for the scheduler. -/
structure Child (t : Tid) (k k' : Kernel) : Prop where
  cur : k'.currentTask = k.currentTask
  pids : k'.nextPid = k.nextPid + 1
  unused : (k.tasks t).state = .unused
  core : ∀ u, u ≠ t → (k'.tasks u).core = (k.tasks u).core
  pid : (k'.tasks t).pid = k.nextPid

theorem Child.keeps {t : Tid} (h : Child t k k') (h' : Keeps k' k'') : Child t k k'' :=
  ⟨h'.cur.trans h.cur, h'.pids.trans h.pids, h.unused, fun u hu => (h'.core u).trans (h.core u hu),
    (Process.core_pid (h'.core t)).trans h.pid⟩

theorem Child.onTask {t : Tid} (h : Child t k k') (f : Process → Process) (hf : ∀ p, (f p).pid = p.pid) :
    Child t k (k'.onTask t f) :=
  ⟨h.cur, h.pids, h.unused, fun u hu => by rw [onTask_tasks_ne hu]; exact h.core u hu,
    by rw [onTask_tasks_self, hf]; exact h.pid⟩

theorem Child.forks {t : Tid} (h : Child t k k') (hs : Newborn k t (k'.tasks t))
    (hr : (k'.tasks t).state = .runnable → Copies k t (k'.tasks t)) : Forks k k' := by
  have hold : ∀ u, (k.tasks u).state = .unused → (k'.tasks u).state ≠ .unused → u = t := by
    intro u hu hn
    by_contra hne
    exact hn ((Process.core_state (h.core u hne)).trans hu)
  refine ⟨h.cur, h.pids ▸ Nat.le_succ _, fun u => ?_, fun u hu hn => ⟨h.pids ▸ Nat.lt_succ_self _, ?_⟩⟩
  · by_cases hu : u = t
    · subst hu
      exact Or.inr ⟨h.unused, hs, hr⟩
    · exact Or.inl (h.core u hu)
  · exact fun v hv hvn => (hold v hv hvn).trans (hold u hu hn).symm

theorem ChildOf.setState {t : Tid} (h : ChildOf k t (k'.tasks t)) (state : TaskState) :
    ChildOf k t ((k'.setState t state).tasks t) := by
  rw [Kernel.setState, onTask_tasks_self]
  exact ⟨h.parent, h.ppid, h.pid, h.cwd⟩

theorem Child.gone {t : Tid} (h : Child t k k')
    (hp : (k'.tasks t).parent = none ∨ ChildOf k t (k'.tasks t)) : Forks k (k'.setState t .unused) := by
  have hs : ((k'.setState t .unused).tasks t).state = .unused := by
    rw [setState, onTask_tasks_self]
  refine Child.forks (h.onTask (fun p => { p with state := .unused }) fun _ => rfl)
    ⟨Or.inl hs, hp.imp (fun hn => ⟨hs, ?_⟩) fun hc => hc.setState _⟩ fun hr => ?_
  · rw [setState, onTask_tasks_self]
    exact hn
  · change ((k'.setState t .unused).tasks t).state = .runnable at hr
    rw [hs] at hr
    cases hr

theorem Child.runs {t : Tid} (h : Child t k k') (hr : Copies k t (k'.tasks t))
    (hc : ChildOf k t (k'.tasks t)) : Forks k (k'.setState t .runnable) := by
  have hs : ((k'.setState t .runnable).tasks t).state = .runnable := by
    rw [setState, onTask_tasks_self]
  refine Child.forks (h.onTask (fun p => { p with state := .runnable }) fun _ => rfl)
    ⟨Or.inr hs, Or.inr (hc.setState _)⟩ fun _ => ?_
  rw [setState, onTask_tasks_self]
  exact hr

theorem procAllocTask_child (answer : Option Handle) (k : Kernel) :
    procAllocTask answer k = (none, k) ∨ ∃ t k', Child t k k' ∧ (k'.tasks t).parent = none ∧
      (procAllocTask answer k = (none, k'.setState t .unused) ∨
        procAllocTask answer k = (some t, k') ∧ (k'.tasks t).state = .runnable) := by
  unfold procAllocTask
  split
  · exact Or.inl rfl
  · next t ht =>
    have hu : (k.tasks t).state = .unused := by simpa using firstSlot_some ht
    dsimp only
    generalize hk₁ : ({ k.onTask t fun _ =>
      { Process.zero with pid := k.nextPid, state := .runnable, cr3 := k.pml4 } with
        nextPid := k.nextPid + 1 } : Kernel) = k₁
    have hc : Child t k k₁ := by
      rw [← hk₁]
      refine ⟨rfl, rfl, hu, fun u hne => ?_, by simp⟩
      exact congrArg Process.core (Function.update_of_ne hne ..)
    have hs : (k₁.tasks t).state = .runnable := by simp [← hk₁]
    have hp : (k₁.tasks t).parent = none := by simp [← hk₁, Process.zero]
    rcases kmalloc_cases answer k₁ with hm | ⟨h, -, -, hm⟩ <;> rw [hm]
    · exact Or.inr ⟨t, k₁, hc, hp, Or.inl rfl⟩
    · refine Or.inr ⟨t, _, ?_, ?_, Or.inr ⟨rfl, ?_⟩⟩
      · exact (hc.keeps (Keeps.refl k₁).live).onTask _ fun _ => rfl
      · simpa using hp
      · simpa using hs

theorem forks_procFork : Forks k (procFork ans k).2 := by
  unfold procFork
  dsimp only
  rcases procAllocTask_child (ans.kmalloc 0) k with heq | ⟨t, k₁, hc, hp, heq | ⟨heq, hs⟩⟩ <;> rw [heq]
  · exact (Keeps.refl k).forks
  · exact hc.gone (Or.inl hp)
  · dsimp only
    split
    · exact hc.gone (Or.inl hp)
    · generalize hk₂ : (k₁.onTask t fun p =>
        forkSlot k.currentTask (k₁.tasks k.currentTask) p ans.cloneCr3) = k₂
      have hc₂ : Child t k k₂ := by
        rw [← hk₂]
        exact hc.onTask _ fun _ => rfl
      have hcopy : Copies k t (k₂.tasks t) := by
        intro hne
        rw [← Process.core_context (hc.core k.currentTask (Ne.symm hne))]
        simp [← hk₂, forkSlot, Process.context]
      have hchild : ChildOf k t (k₂.tasks t) := by
        refine ⟨by simp [← hk₂, forkSlot], fun hne => ?_, hc₂.pid, fun hne => ?_⟩
        · rw [← Process.core_pid (hc.core k.currentTask (Ne.symm hne))]
          simp [← hk₂, forkSlot]
        · rw [← Process.kin_cwd (Process.core_kin (hc.core k.currentTask (Ne.symm hne)))]
          simp [← hk₂, forkSlot]
      have hloop := @keeps_forkFds ans k.currentTask t (List.finRange procMaxFd) _ _ (Keeps.refl k₂)
      cases hf : forEach (forkFd ans k.currentTask t) (List.finRange procMaxFd) k₂ with
      | mk ok k₃ =>
        rw [hf] at hloop
        have hkin := Process.core_kin (hloop.core t)
        have hchild₃ : ChildOf k t (k₃.tasks t) :=
          ⟨(Process.kin_parent hkin).trans hchild.parent,
            fun hne => (Process.kin_ppid hkin).trans (hchild.ppid hne),
            (Process.kin_pid hkin).trans hchild.pid,
            fun hne => (Process.kin_cwd hkin).trans (hchild.cwd hne)⟩
        cases ok with
        | false => exact (hc₂.keeps hloop).gone (Or.inr hchild₃)
        | true =>
          exact (hc₂.keeps hloop).runs
            (fun hne => (Process.core_context (hloop.core t)).trans (hcopy hne)) hchild₃

/-- A fork that succeeds returns the pid of a child. -/
theorem procFork_child (h : (procFork ans k).1 ≠ -1) : ∃ t, (k.tasks t).state = .unused ∧
    ((procFork ans k).2.tasks t).state = .runnable ∧
    (procFork ans k).1 = ((procFork ans k).2.tasks t).pid := by
  unfold procFork at h ⊢
  dsimp only at h ⊢
  rcases procAllocTask_child (ans.kmalloc 0) k with heq | ⟨t, k₁, hc, -, heq | ⟨heq, -⟩⟩ <;>
    rw [heq] at h ⊢
  · exact absurd rfl h
  · exact absurd rfl h
  · dsimp only at h ⊢
    split at h
    · exact absurd rfl h
    · next hcr3 =>
      rw [if_neg hcr3]
      generalize (k₁.onTask t fun p =>
        forkSlot k.currentTask (k₁.tasks k.currentTask) p ans.cloneCr3) = k₂ at h ⊢
      cases hf : forEach (forkFd ans k.currentTask t) (List.finRange procMaxFd) k₂ with
      | mk ok k₃ =>
        rw [hf] at h
        cases ok with
        | false => exact absurd rfl h
        | true =>
          dsimp only
          refine ⟨t, hc.unused, ?_, ?_⟩ <;> rw [setState, onTask_tasks_self]

/-- The calls that return at once. -/
theorem forks_plain {c : Call} (hc : Sched.Plain c = true) : Forks k (dispatch ans c k).2 := by
  cases c with
  | pipe ufdOk => exact (keeps_sysPipe ufdOk).forks
  | dup oldfd => exact (keeps_fdDupTo ..).forks
  | dup2 oldfd newfd =>
    simp only [dispatch, atOnce, sysDup2]
    split
    · exact (Keeps.refl k).forks
    · exact (keeps_fdDupTo ..).forks
  | fcntlDup oldfd minfd => exact (keeps_fdDupFrom ..).forks
  | openPath path node => exact (keeps_sysOpenPath ..).forks
  | close fd => exact (keeps_sysClose fd).forks
  | fork => exact forks_procFork
  | exec _ | exit _ | wait _ _ | read _ _ _ | write _ _ _ => simp [Sched.Plain] at hc

theorem keeps_procFdCloseAll (freed : VfsFile) : Keeps k (procFdCloseAll freed k) := by
  have hstep : ∀ (l : List Fd) {k' : Kernel}, Keeps k k' → Keeps k (l.foldl (closeSlot freed) k') := by
    intro l
    induction l with
    | nil => exact fun h => h
    | cons fd l ih =>
      intro k' h
      rw [List.foldl_cons]
      refine ih ?_
      unfold closeSlot
      split
      · exact h
      · exact h.setFile.kfree.setFd
  exact hstep _ (.refl k)

/-- Slots whose state, pid and parent are the same, with one slot that may have changed otherwise. -/
structure Stays (t : Tid) (k k' : Kernel) : Prop where
  cur : k'.currentTask = k.currentTask
  pids : k'.nextPid = k.nextPid
  state : ∀ u, (k'.tasks u).state = (k.tasks u).state
  kin : ∀ u, (k'.tasks u).kin = (k.tasks u).kin
  core : ∀ u, u ≠ t → (k'.tasks u).core = (k.tasks u).core

theorem Keeps.stays (h : Keeps k k') (t : Tid) : Stays t k k' :=
  ⟨h.cur, h.pids, fun u => Process.core_state (h.core u), fun u => Process.core_kin (h.core u),
    fun u _ => h.core u⟩

theorem Stays.onTask {t : Tid} (h : Stays t k k') (f : Process → Process)
    (hf : ∀ p, (f p).state = p.state ∧ (f p).kin = p.kin) : Stays t k (k'.onTask t f) := by
  have hself : (k'.onTask t f).tasks t = f (k'.tasks t) := onTask_tasks_self ..
  have hother : ∀ u, u ≠ t → (k'.onTask t f).tasks u = k'.tasks u := fun u hu => onTask_tasks_ne hu ..
  refine ⟨h.cur, h.pids, fun u => ?_, fun u => ?_, fun u hu => by rw [hother u hu]; exact h.core u hu⟩
  · rcases eq_or_ne u t with rfl | hu
    · rw [hself, (hf _).1, h.state]
    · rw [hother u hu, h.state]
  · rcases eq_or_ne u t with rfl | hu
    · rw [hself, (hf _).2, h.kin]
    · rw [hother u hu, h.kin]

/-- An `exec` changes the slot of the caller, and not what it is to the others. -/
theorem stays_procExec (found : Bool) : Stays k.currentTask k (procExec ans found k).2 := by
  have hclose := keeps_procFdCloseAll (k := k) ans.freed
  have h₀ := (Keeps.refl k).stays k.currentTask
  unfold procExec
  split
  · have h₁ := hclose.stays k.currentTask
    have hcur := hclose.cur
    dsimp only
    generalize procFdCloseAll ans.freed k = k₁ at h₁ hcur
    have h₂ : Stays k.currentTask k (if ans.cloneCr3 = 0 then k₁
        else { k₁.onTask k₁.currentTask fun p => { p with cr3 := ans.cloneCr3 } with
          pml4 := ans.cloneCr3 }) := by
      split
      · exact h₁
      · rw [hcur]
        have h := h₁.onTask (fun p => { p with cr3 := ans.cloneCr3 }) fun p => ⟨rfl, rfl⟩
        exact ⟨h.cur, h.pids, h.state, h.kin, h.core⟩
    generalize (if ans.cloneCr3 = 0 then k₁
        else { k₁.onTask k₁.currentTask fun p => { p with cr3 := ans.cloneCr3 } with
          pml4 := ans.cloneCr3 }) = k₂ at h₂
    have h₃ := h₂.onTask (fun p => { p with brk := userBrkStart, fsBase := 0 })
      fun p => ⟨rfl, rfl⟩
    rw [← h₂.cur] at h₃ ⊢
    rcases ans.image with _ | ⟨entry, stack⟩
    · exact h₃
    · dsimp only
      exact h₃.onTask _ fun p => ⟨rfl, rfl⟩
  · exact h₀

/-- An exit: a zombie, and a parent that is no longer blocked. -/
theorem exitCurrent_slots (status : Int) (k : Kernel) :
    (exitCurrent status k).currentTask = k.currentTask ∧
    (exitCurrent status k).tasks k.currentTask =
      { k.tasks k.currentTask with exitStatus := status, state := .zombie } ∧
    ∀ t, t ≠ k.currentTask → (exitCurrent status k).tasks t = k.tasks t ∨
      (k.tasks t).state = .blocked ∧ (k.tasks k.currentTask).parent = some t ∧
        (exitCurrent status k).tasks t = { k.tasks t with state := .runnable } := by
  unfold exitCurrent
  generalize hk : (k.onTask k.currentTask fun p => { p with exitStatus := status, state := .zombie }) = k₁
  have hcur : k₁.currentTask = k.currentTask := by rw [← hk]; rfl
  have hself : k₁.tasks k.currentTask =
      { k.tasks k.currentTask with exitStatus := status, state := .zombie } := by
    rw [← hk, onTask_tasks_self]
  have hother : ∀ t, t ≠ k.currentTask → k₁.tasks t = k.tasks t := by
    intro t ht
    rw [← hk, onTask_tasks_ne ht]
  unfold procWakeParent
  rw [hcur, hself]
  dsimp only
  split
  · exact ⟨hcur, hself, fun t ht => Or.inl (hother t ht)⟩
  · next p hp =>
    split
    · next hb =>
      have hne : p ≠ k.currentTask := by
        rintro rfl
        rw [hself] at hb
        exact absurd hb (by simp)
      refine ⟨hcur, ?_, fun t ht => ?_⟩
      · rw [setState, onTask_tasks_ne (Ne.symm hne)]
        exact hself
      · rcases eq_or_ne t p with rfl | htp
        · rw [hother t ht] at hb
          refine Or.inr ⟨hb, hp, ?_⟩
          rw [setState, onTask_tasks_self, hother t ht]
        · exact Or.inl (by rw [setState, onTask_tasks_ne htp, hother t ht])
    · exact ⟨hcur, hself, fun t ht => Or.inl (hother t ht)⟩

theorem exitCurrent_pids (status : Int) (k : Kernel) :
    (exitCurrent status k).nextPid = k.nextPid := by
  unfold exitCurrent procWakeParent
  split
  · rfl
  · split <;> rfl

/-- The zombie that `proc_fork_take_status` finds. -/
def zombieChild (pid : Int) (k : Kernel) : Option Tid :=
  firstSlot fun t => (k.tasks t).state = .zombie ∧
    (k.tasks t).parent = some k.currentTask ∧ (pid = -1 ∨ pid = (k.tasks t).pid)

theorem zombieChild_some {pid : Int} {z : Tid} (h : zombieChild pid k = some z) :
    (k.tasks z).state = .zombie ∧ (k.tasks z).parent = some k.currentTask ∧
      (pid = -1 ∨ pid = (k.tasks z).pid) := by
  have := firstSlot_some h
  rwa [decide_eq_true_eq] at this

/-- A zombie child is taken, or nothing happens. -/
theorem procForkTakeStatus_cases (pid : Int) (k : Kernel) :
    (zombieChild pid k = none ∧ procForkTakeStatus pid k = (none, k)) ∨
    ∃ z, zombieChild pid k = some z ∧ procForkTakeStatus pid k =
      (some ((k.tasks z).pid, (k.tasks z).exitStatus), k.setState z .unused) := by
  unfold procForkTakeStatus
  cases h : zombieChild pid k with
  | none =>
    rw [zombieChild] at h
    exact Or.inl ⟨rfl, by rw [h]⟩
  | some z =>
    rw [zombieChild] at h
    exact Or.inr ⟨z, rfl, by rw [h]⟩

/-- A wait that reaps frees the slot of a zombie child; one that goes on changes nothing. -/
theorem waitTurn_slots (pid : Int) (statusOk : Bool) (k : Kernel) :
    (zombieChild pid k = none ∧ (waitTurn pid statusOk k).2 = k) ∨
    ∃ z, zombieChild pid k = some z ∧ (waitTurn pid statusOk k).2 = k.setState z .unused := by
  unfold waitTurn
  rcases procForkTakeStatus_cases pid k with ⟨hn, h⟩ | ⟨z, hz, h⟩ <;> rw [h]
  · refine Or.inl ⟨hn, ?_⟩
    dsimp only
    split <;> rfl
  · exact Or.inr ⟨z, hz, rfl⟩

/-- What waking does to a slot. -/
theorem schedWakeAll_slot (k : Kernel) (t : Tid) :
    (schedWakeAll k).tasks t = k.tasks t ∧ (k.tasks t).state ≠ .blocked ∨
    (k.tasks t).state = .blocked ∧ (schedWakeAll k).tasks t = { k.tasks t with state := .runnable } := by
  by_cases hb : (k.tasks t).state = .blocked
  · exact Or.inr ⟨hb, by simp [schedWakeAll, hb]⟩
  · exact Or.inl ⟨by simp [schedWakeAll, hb], hb⟩

end TypeOS.Proc
