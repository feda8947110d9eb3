import TypeOS.Lib.RoundRobin
import TypeOS.Sched.Keeps

/-! What one step of the machine can do.

    A step either works on with the current task (`Works`), starts another task from inside a call
    (`procRunRunnable_cases`), blocks (`schedBlockCurrent_cases`) or exits. -/

namespace TypeOS.Sched

open Proc Kernel

variable {m m' : Machine} {f : Frame} {t u : Tid} {z : Option Tid}

/-- What a step may do to a slot beside those of the current task and of the next: a blocked task is
    woken, the zombie `z` is reaped by its parent, a child is made or does not come to be. -/
inductive SlotStep (z : Option Tid) (k : Kernel) (t : Tid) (p p' : Process) : Prop
  | same (state : p'.state = p.state) (kin : p'.kin = p.kin)
  | woken (was : p.state = .blocked) (state : p'.state = .runnable) (kin : p'.kin = p.kin)
  | reaped (taken : z = some t) (was : p.state = .zombie) (child : p.parent = some k.currentTask)
    (state : p'.state = .unused) (kin : p'.kin = p.kin)
  | forked (was : p.state = .unused) (born : Newborn k t p')

/-- How the state of such a slot changes. -/
inductive Drifts : TaskState → TaskState → Prop
  | same (s : TaskState) : Drifts s s
  | woken : Drifts .blocked .runnable
  | reaped : Drifts .zombie .unused
  | forked : Drifts .unused .runnable

/-- A step with the current task, on its kernel stack, that reaps `z` if anyone. -/
structure Works (z : Option Tid) (m m' : Machine) : Prop where
  cur : m'.cur = m.cur
  slot : ∀ t, SlotStep z m.kernel t (m.kernel.tasks t) (m'.kernel.tasks t)
  pids : m.kernel.nextPid ≤ m'.kernel.nextPid
  born : OneBorn m.kernel m'.kernel
  tss : m'.tssRsp0 = m.tssRsp0
  active : m'.forkJmpActive = m.forkJmpActive
  parent : m'.forkJmpParent = m.forkJmpParent
  buf : m'.forkJmpBuf = m.forkJmpBuf
  calls : m'.calls = m.calls
  waiting : m'.waiting = m.waiting
  history : m'.history = m.history
  gone : m'.gone = m.gone
  stack : ∀ st, m'.kstacks st = m.kstacks st ∨ st = m.tssRsp0 ∧ m'.kstacks st = none

theorem Drifts.running {s : TaskState} (h : Drifts .running s) : s = .running := by cases h; rfl

theorem Drifts.not_running {s s' : TaskState} (h : Drifts s s') (hs : s ≠ .running) : s' ≠ .running := by
  cases h with
  | same => exact hs
  | woken | reaped | forked => decide

theorem SlotStep.drifts {k : Kernel} {p p' : Process} (h : SlotStep z k t p p') :
    Drifts p.state p'.state := by
  cases h with
  | same state => rw [state]; exact .same _
  | woken was state => rw [was, state]; exact .woken
  | reaped _ was _ state => rw [was, state]; exact .reaped
  | forked was born =>
    rw [was]
    rcases born.1 with hu | hr
    · rw [hu]
      exact .same _
    · rw [hr]
      exact .forked

/-- What is in the registers of a slot does not matter. -/
theorem SlotStep.congr {k k₁ : Kernel} {p p₁ p' p₁' : Process} (h : SlotStep z k₁ t p₁ p₁')
    (hc : k₁.currentTask = k.currentTask) (hn : k₁.nextPid = k.nextPid)
    (hcur : (k₁.tasks k.currentTask).kin = (k.tasks k.currentTask).kin) (hs : p₁.state = p.state)
    (hk : p₁.kin = p.kin) (hs' : p'.state = p₁'.state) (hk' : p'.kin = p₁'.kin) :
    SlotStep z k t p p' := by
  cases h with
  | same state kin => exact .same ((hs'.trans state).trans hs) ((hk'.trans kin).trans hk)
  | woken was state kin =>
    exact .woken (hs.symm.trans was) (hs'.trans state) ((hk'.trans kin).trans hk)
  | reaped taken was child state kin =>
    exact .reaped taken (hs.symm.trans was) ((Process.kin_parent hk).symm.trans (hc ▸ child))
      (hs'.trans state) ((hk'.trans kin).trans hk)
  | forked was born =>
    refine .forked (hs.symm.trans was) ⟨by rw [hs']; exact born.1, ?_⟩
    rcases born.2 with ⟨hu, hnone⟩ | ⟨hpar, hppid, hpid', hcwd⟩
    · exact Or.inl ⟨hs'.trans hu, (Process.kin_parent hk').trans hnone⟩
    · refine Or.inr ⟨(Process.kin_parent hk').trans (hc ▸ hpar), fun hne => ?_,
        (Process.kin_pid hk').trans (hpid'.trans hn), fun hne => ?_⟩
      · rw [Process.kin_ppid hk', hppid (hc ▸ hne), hc, Process.kin_pid hcur]
      · rw [Process.kin_cwd hk', hcwd (hc ▸ hne), hc, Process.kin_cwd hcur]

theorem Works.state (h : Works z m m') (t : Tid) : Drifts (m.state t) (m'.state t) := (h.slot t).drifts

theorem Works.kstacks (h : Works z m m') (st : Nat) (hst : st ≠ m.tssRsp0) :
    m'.kstacks st = m.kstacks st := (h.stack st).resolve_right fun hc => hst hc.1

theorem Works.refl (z : Option Tid) (m : Machine) : Works z m m :=
  ⟨rfl, fun _ => .same rfl rfl, le_rfl, oneBorn_of_state fun _ h => h, rfl, rfl, rfl, rfl, rfl, rfl, rfl,
    rfl, fun _ => Or.inl rfl⟩

/-- Such a change that makes no child. -/
def Quiet (z : Option Tid) (k : Kernel) (t : Tid) (p p' : Process) : Prop :=
  SlotStep z k t p p' ∧ (p.state = .unused → p'.state = .unused)

/-- Only the kernel's tables, the keyboard and the mode differ. -/
theorem Works.tables (hc : m'.cur = m.cur)
    (hs : ∀ t, Quiet z m.kernel t (m.kernel.tasks t) (m'.kernel.tasks t))
    (hp : m'.kernel.nextPid = m.kernel.nextPid)
    (h : ∃ k kb mode, m' = { m with kernel := k, keyboard := kb, mode := mode }) : Works z m m' := by
  obtain ⟨k, kb, mode, rfl⟩ := h
  exact ⟨hc, fun t => (hs t).1, hp.ge, oneBorn_of_state fun t => (hs t).2, rfl, rfl, rfl, rfl, rfl, rfl,
    rfl, rfl, fun _ => Or.inl rfl⟩

theorem quiet_of_eq {k : Kernel} {p p' : Process} (h : p' = p) : Quiet z k t p p' := by
  subst h
  exact ⟨.same rfl rfl, id⟩

theorem quiet_wake (k : Kernel) (t : Tid) : Quiet z k t (k.tasks t) ((schedWakeAll k).tasks t) := by
  rcases schedWakeAll_slot k t with ⟨h, -⟩ | ⟨hb, h⟩
  · exact quiet_of_eq h
  · rw [h]
    exact ⟨.woken hb rfl rfl, fun hu => absurd (hb.symm.trans hu) (by decide)⟩

theorem slot_forks {k k' : Kernel} (h : Forks k k') (t : Tid) :
    SlotStep z k t (k.tasks t) (k'.tasks t) := by
  rcases h.core t with h | ⟨hu, hb, -⟩
  · exact .same (Process.core_state h) (Process.core_kin h)
  · exact .forked hu hb

theorem quiet_waitTurn (pid : Int) (statusOk : Bool) (k : Kernel) (t : Tid) :
    Quiet (zombieChild pid k) k t (k.tasks t) ((waitTurn pid statusOk k).2.tasks t) := by
  rcases waitTurn_slots pid statusOk k with ⟨-, h⟩ | ⟨z, hz, h⟩
  · rw [h]
    exact quiet_of_eq rfl
  · rw [h]
    rcases eq_or_ne t z with rfl | ht
    · obtain ⟨hzom, hp, -⟩ := zombieChild_some hz
      rw [setState, onTask_tasks_self]
      exact ⟨.reaped hz hzom hp rfl rfl, fun _ => rfl⟩
    · rw [setState, onTask_tasks_ne ht]
      exact quiet_of_eq rfl

/-- The zombie that a turn of a call takes. -/
def takes (f : Frame) (k : Kernel) : Option Tid :=
  match f.call with
  | .wait pid _ => zombieChild pid k
  | _ => none

/-- The turn of a call. -/
theorem callTurn_works (f : Frame) (m : Machine) : Works (takes f m.kernel) m (callTurn f m).2 := by
  cases hc : f.call with
  | read p count buf =>
    simp only [callTurn, takes, hc]
    refine .tables ?_ (fun t => quiet_of_eq ?_) ?_ ⟨_, _, _, rfl⟩
    all_goals
      simp only [Machine.cur, pipeReadTurn]
      split
      · rfl
      · split <;> rfl
  | write p buf n =>
    simp only [callTurn, takes, hc]
    refine .tables ?_ (fun t => ?_) ?_ ⟨_, _, _, rfl⟩
    · simp only [Machine.cur, pipeWriteTurn]
      split
      · split
        · split
          · rfl
          · split <;> rfl
        · rfl
      · rfl
    · simp only [pipeWriteTurn]
      split
      · split
        · split
          · exact quiet_wake _ t
          · split <;> exact quiet_of_eq rfl
        · exact quiet_of_eq rfl
      · exact quiet_of_eq rfl
    · simp only [pipeWriteTurn]
      split
      · split
        · split
          · rfl
          · split <;> rfl
        · rfl
      · rfl
  | console bufOk =>
    simp only [callTurn, takes, hc, consoleTurn]
    have hk : ∀ t, Quiet none m.kernel t (m.kernel.tasks t)
        ((if (keyboardPoll m.keyboard).1 = true then schedWakeAll m.kernel else m.kernel).tasks t) := by
      intro t
      split
      · exact quiet_wake _ t
      · exact quiet_of_eq rfl
    have hc : (if (keyboardPoll m.keyboard).1 = true then schedWakeAll m.kernel
        else m.kernel).currentTask = m.cur := by split <;> rfl
    have hp : (if (keyboardPoll m.keyboard).1 = true then schedWakeAll m.kernel
        else m.kernel).nextPid = m.kernel.nextPid := by split <;> rfl
    split <;> exact .tables hc hk hp ⟨_, _, _, rfl⟩
  | wait pid statusOk =>
    simp only [callTurn, takes, hc]
    refine .tables ?_ (quiet_waitTurn pid statusOk m.kernel) ?_ ⟨_, _, _, rfl⟩
    all_goals
      rcases waitTurn_slots pid statusOk m.kernel with ⟨-, h⟩ | ⟨z, -, h⟩
      · simp only [Machine.cur, h]
      · simp only [Machine.cur, h]
        rfl
  | exiting =>
    simp only [callTurn, takes, hc]
    exact .refl _ m

theorem callTurn_mode (f : Frame) (m : Machine) : (callTurn f m).2.mode = m.mode := by
  unfold callTurn
  split
  · rfl
  · rfl
  · unfold consoleTurn
    dsimp only
    split <;> rfl
  · rfl
  · rfl

/-- `proc_run_runnable` finds no other runnable task, or starts one. -/
theorem procRunRunnable_cases (f : Frame) (m : Machine) :
    (procRunRunnable f m = none ∧ ∀ t, t ≠ m.cur → m.state t ≠ .runnable) ∨
    ∃ t m', procRunRunnable f m = some m' ∧ m.state t = .runnable ∧ t ≠ m.cur ∧
      m'.cur = t ∧ m'.state t = .running ∧ (∀ u, u ≠ t → m'.kernel.tasks u = m.kernel.tasks u) ∧
      m'.mode = .user ∧ m'.forkJmpActive = true ∧ m'.forkJmpParent = some m.cur ∧
      m'.forkJmpBuf = some (f.stack, m.calls) ∧ m'.calls = m.calls + 1 ∧
      m'.kstacks = Function.update m.kstacks f.stack (some ⟨f, m.cur, m.calls⟩) ∧
      m'.history = .activated m.calls f.stack m.cur t :: m.history := by
  unfold procRunRunnable
  split
  · next hn =>
    refine Or.inl ⟨rfl, fun t ht hr => ?_⟩
    have := firstSlot_none hn t
    simp [hr, ht] at this
  · next t ht =>
    have := firstSlot_some ht
    simp only [decide_eq_true_eq] at this
    have hk : (gdtSetRsp0 t m).kernel = m.kernel := by
      unfold gdtSetRsp0
      split <;> rfl
    refine Or.inr ⟨t, _, rfl, this.1, this.2, rfl, ?_, fun u hu => ?_, rfl, rfl, rfl, rfl, rfl, rfl, rfl⟩
    · simp [procActivate, Machine.state, setState]
    · simp only [procActivate, hk]
      exact onTask_tasks_ne hu ..

theorem gdtSetRsp0_eq (t : Tid) (m : Machine) : ∃ n, gdtSetRsp0 t m = { m with tssRsp0 := n } := by
  unfold gdtSetRsp0
  split
  · exact ⟨_, rfl⟩
  · exact ⟨m.tssRsp0, rfl⟩

/-- A task that `sched_pick_next` may return. -/
def CanRun (k : Kernel) (t : Tid) : Prop := (k.tasks t).state = .runnable ∨ (k.tasks t).state = .running

instance (k : Kernel) (t : Tid) : Decidable (CanRun k t) := inferInstanceAs (Decidable (_ ∨ _))

theorem roundFrom_eq (rr i : Tid) : roundFrom rr i = RoundRobin.after rr i := rfl

/-- `sched_pick_next` looks at every slot, so it finds the next task that can run when there is one. -/
theorem schedPickNext_cases (rr : Tid) (k : Kernel) :
    (schedPickNext rr k = (k.currentTask, rr) ∧ ∀ t, ¬ CanRun k t) ∨
    ∃ t, schedPickNext rr k = (t, t) ∧ RoundRobin.Picks (CanRun k) rr t := by
  unfold schedPickNext
  split
  · next hn =>
    refine Or.inl ⟨rfl, fun t => ?_⟩
    have hlook := firstSlot_none hn ⟨RoundRobin.gap rr t, RoundRobin.gap_lt rr t⟩
    rw [roundFrom_eq, RoundRobin.after_gap] at hlook
    exact of_decide_eq_false hlook
  · next i hi =>
    refine Or.inr ⟨_, rfl, i, rfl, of_decide_eq_true (firstSlot_some hi), fun j hj => ?_⟩
    have hlook := firstSlot_least hi (j := ⟨j, hj.trans i.isLt⟩) hj
    exact of_decide_eq_false hlook

/-- A yield leaves the current task alone, or leaves it for one that can run. -/
theorem schedYield_cases (m : Machine) (hb : m.state m.cur = .blocked) :
    (∃ rr, schedYield m = { m with rrIndex := rr }) ∨
    ∃ next rr n, next ≠ m.cur ∧ (m.state next = .runnable ∨ m.state next = .running) ∧
      1 < schedCountRunnable m.kernel ∧
      schedYield m = { m with rrIndex := rr, tssRsp0 := n, kernel := { m.kernel.setState next .running with
        currentTask := next, pml4 := (m.kernel.tasks next).cr3 } } := by
  unfold schedYield
  split
  · exact Or.inl ⟨m.rrIndex, rfl⟩
  · next hcount =>
    have hpick := schedPickNext_cases m.rrIndex m.kernel
    dsimp only
    generalize schedPickNext m.rrIndex m.kernel = r at hpick ⊢
    unfold schedSwitchTo
    by_cases hr : r.1 = m.cur
    · refine Or.inl ⟨r.2, ?_⟩
      have hb' : (m.kernel.tasks m.kernel.currentTask).state = .blocked := hb
      simp [hr, Machine.cur, Machine.state, hb']
    · have hcan : CanRun m.kernel r.1 := by
        rcases hpick with ⟨heq, -⟩ | ⟨t, heq, -, -, hcan, -⟩
        · exact absurd (congrArg Prod.fst heq) hr
        · rw [heq]
          exact hcan
      obtain ⟨n, hn⟩ := gdtSetRsp0_eq r.1 { m with rrIndex := r.2, kernel :=
        { m.kernel.setState r.1 .running with
          currentTask := r.1, pml4 := (m.kernel.tasks r.1).cr3 } }
      refine Or.inr ⟨r.1, r.2, n, hr, hcan, by omega, ?_⟩
      have hb' : (m.kernel.tasks m.kernel.currentTask).state = .blocked := hb
      simp only [Machine.cur, Machine.state] at hr hb' ⊢
      simp only [hr, if_false, hb', reduceCtorEq]
      exact hn

/-- What a machine looks like whose current task has just been marked. -/
def markBlocked (f : Frame) (m : Machine) : Machine :=
  { m with
    kernel := m.kernel.setState m.cur .blocked
    waiting := Function.update m.waiting m.cur (some f.call) }

/-- `sched_block_current` starts another task; or marks the current task blocked and idles with it; or
    marks it and goes on as another task whose call is suspended. -/
theorem schedBlockCurrent_cases (f : Frame) (m : Machine) :
    (∃ m', procRunRunnable f m = some m' ∧ schedBlockCurrent f m = m') ∨
    ((∀ t, t ≠ m.cur → m.state t ≠ .runnable) ∧
      ((∃ rr, schedBlockCurrent f m = { markBlocked f m with rrIndex := rr, mode := .idle f }) ∨
      ∃ next rr n, next ≠ m.cur ∧ m.state next = .running ∧
        1 < schedCountRunnable (markBlocked f m).kernel ∧
        schedBlockCurrent f m = { markBlocked f m with
          rrIndex := rr, tssRsp0 := n, mode := .kernel f
          kernel := { (markBlocked f m).kernel.setState next .running with
            currentTask := next, pml4 := (m.kernel.tasks next).cr3 } })) := by
  rcases procRunRunnable_cases f m with ⟨hnone, hno⟩ | ⟨t, m', hsome, -⟩
  · refine Or.inr ⟨hno, ?_⟩
    have hmark : (markBlocked f m).state (markBlocked f m).cur = .blocked := by
      simp [markBlocked, Machine.state, Machine.cur, setState]
    have hother : ∀ t, t ≠ m.cur → (markBlocked f m).kernel.tasks t = m.kernel.tasks t :=
      fun t ht => Function.update_of_ne ht ..
    have hunfold : schedBlockCurrent f m =
        (let m₁ := schedYield (markBlocked f m)
         if m₁.cur = m.cur ∧ m₁.state m.cur = .blocked then { m₁ with mode := .idle f }
         else schedBlockEnd f m.cur m₁) := by
      unfold schedBlockCurrent
      rw [hnone]
      rfl
    rw [hunfold]
    rcases schedYield_cases (markBlocked f m) hmark with ⟨rr, hy⟩ | ⟨next, rr, n, hne, hst, hc, hy⟩
    · refine Or.inl ⟨rr, ?_⟩
      rw [hy]
      exact if_pos ⟨rfl, hmark⟩
    · replace hne : next ≠ m.cur := hne
      refine Or.inr ⟨next, rr, n, hne, ?_, hc, ?_⟩
      · rw [Machine.state, hother next hne] at hst
        exact hst.resolve_left (hno next hne)
      · rw [hy]
        have hpml : (markBlocked f m).kernel.tasks next = m.kernel.tasks next := hother next hne
        have hblk : (((markBlocked f m).kernel.setState next .running).tasks m.cur).state = .blocked := by
          rw [setState, onTask_tasks_ne (Ne.symm hne)]
          exact hmark
        simp only [Machine.cur, Machine.state] at hne ⊢
        rw [if_neg (fun h => hne h.1), schedBlockEnd]
        simp only [Machine.state]
        rw [hpml]
        simp only [Machine.cur] at hblk
        simp [hblk]
  · refine Or.inl ⟨m', hsome, ?_⟩
    unfold schedBlockCurrent
    rw [hsome]

/-! ### System calls -/

theorem onTask_state {k : Kernel} {f : Process → Process} (hf : ∀ p, (f p).state = p.state) (t u : Tid) :
    ((k.onTask t f).tasks u).state = (k.tasks u).state := by
  rcases eq_or_ne u t with rfl | hu
  · rw [onTask_tasks_self, hf]
  · rw [onTask_tasks_ne hu]

theorem onTask_kin {k : Kernel} {f : Process → Process} (hf : ∀ p, (f p).kin = p.kin) (t u : Tid) :
    ((k.onTask t f).tasks u).kin = (k.tasks u).kin := by
  rcases eq_or_ne u t with rfl | hu
  · rw [onTask_tasks_self, hf]
  · rw [onTask_tasks_ne hu]

theorem schedAfterSyscall_state (owner : Tid) (r : Int) (m : Machine) (t : Tid) :
    (schedAfterSyscall owner r m).state t = m.state t := by
  simp only [Machine.state, schedAfterSyscall]
  exact onTask_state (by intro; rfl) ..

/-- A result is delivered. -/
theorem Works.after (h : Works z m m') (owner : Tid) (r : Int) :
    Works z m (schedAfterSyscall owner r m') := by
  have hs := schedAfterSyscall_state owner r m'
  refine { h with
    slot := fun t => (h.slot t).congr rfl rfl rfl rfl rfl (hs t) ?_
    born := h.born.congr rfl (fun _ => rfl) rfl fun t => (hs t).symm }
  simp only [schedAfterSyscall]
  exact onTask_kin (by intro; rfl) ..

theorem enter_state (ctx : UserContext) (m : Machine) (t : Tid) : (enter ctx m).state t = m.state t := by
  simp only [Machine.state, enter]
  exact onTask_state (by intro; rfl) _ t

theorem enter_kin (ctx : UserContext) (m : Machine) (t : Tid) :
    ((enter ctx m).kernel.tasks t).kin = (m.kernel.tasks t).kin := by
  simp only [enter]
  exact onTask_kin (by intro; rfl) ..

theorem enter_kstacks {ctx : UserContext} {st : Nat} (h : st ≠ m.tssRsp0) :
    (enter ctx m).kstacks st = m.kstacks st := Function.update_of_ne h ..

/-- A call is entered. -/
theorem Works.of_enter {ctx : UserContext} (h : Works z (enter ctx m) m') : Works z m m' := by
  refine { h with
    slot := fun t => (h.slot t).congr rfl rfl (enter_kin ctx m _) (enter_state ctx m t)
      (enter_kin ctx m t) rfl rfl
    born := h.born.congr rfl (enter_state ctx m) rfl fun _ => rfl
    stack := fun st => ?_ }
  rcases h.stack st with hst | ⟨hst, hnone⟩
  · rcases eq_or_ne st m.tssRsp0 with rfl | hne
    · refine Or.inr ⟨rfl, hst.trans ?_⟩
      exact Function.update_self ..
    · exact Or.inl (hst.trans (enter_kstacks hne))
  · exact Or.inr ⟨hst, hnone⟩

/-- A system call other than an exit works on with the current task: it is through, or it has got to
    the loop in which it may have to wait. -/
theorem sysDispatch_works {ctx : UserContext} {ans : Answers} {sys : Sys}
    (hs : sysDispatch ans sys (enter ctx m) = some m') (hx : ∀ status, sys ≠ .exit status) :
    Works none m m' ∧ (m'.mode = .user ∨ ∃ c, c ≠ .exiting ∧ m'.mode = .kernel ⟨m.cur, m.tssRsp0, c⟩) := by
  have hr := Works.refl none (enter ctx m)
  have hcall : ∀ c, c ≠ Pending.exiting → ∀ m₁,
      m₁ = { enter ctx m with mode := .kernel (frameOf c (enter ctx m)) } →
      Works none m m₁ ∧ (m₁.mode = .user ∨ ∃ c, c ≠ .exiting ∧ m₁.mode = .kernel ⟨m.cur, m.tssRsp0, c⟩) := by
    rintro c hc m₁ rfl
    exact ⟨@Works.of_enter _ _ _ ctx { hr with }, Or.inr ⟨c, hc, rfl⟩⟩
  cases sys with
  | plain c =>
    simp only [sysDispatch] at hs
    split at hs
    · next r k hp hd =>
      have hf : Forks (enter ctx m).kernel k := by
        have := @forks_plain (enter ctx m).kernel ans c hp
        rwa [hd] at this
      rw [Option.some.injEq] at hs
      subst hs
      have hw : Works none (enter ctx m) { enter ctx m with
          kernel := k
          lastCall := fun t => if (enter ctx m).state t = .unused then .fresh
            else (enter ctx m).lastCall t } :=
        { hr with cur := hf.cur, slot := slot_forks hf, pids := hf.pids, born := hf.born }
      exact ⟨(hw.after _ r).of_enter, Or.inl rfl⟩
    · simp at hs
  | other r =>
    simp only [sysDispatch, Option.some.injEq] at hs
    subst hs
    exact ⟨(hr.after _ r).of_enter, Or.inl rfl⟩
  | exec found =>
    have hst := @stays_procExec (enter ctx m).kernel ans found
    simp only [sysDispatch] at hs
    split at hs
    · next k heq =>
      rw [heq] at hst
      rw [Option.some.injEq] at hs
      subst hs
      have hw : Works none (enter ctx m) { enter ctx m with
          kernel := k, mode := .user
          lastCall := Function.update (enter ctx m).lastCall (enter ctx m).cur (.returned 0) } :=
        { hr with
          cur := hst.cur, slot := fun t => .same (hst.state t) (hst.kin t), pids := hst.pids.ge
          born := oneBorn_of_state fun t hu => (hst.state t).trans hu }
      exact ⟨hw.of_enter, Or.inl rfl⟩
    · next k heq =>
      rw [heq] at hst
      rw [Option.some.injEq] at hs
      subst hs
      have hw : Works none (enter ctx m) { enter ctx m with kernel := k } :=
        { hr with
          cur := hst.cur, slot := fun t => .same (hst.state t) (hst.kin t), pids := hst.pids.ge
          born := oneBorn_of_state fun t hu => (hst.state t).trans hu }
      exact ⟨(hw.after _ _).of_enter, Or.inl rfl⟩
  | exit status => exact absurd rfl (hx status)
  | wait pid statusOk =>
    simp only [sysDispatch, Option.some.injEq] at hs
    subst hs
    exact hcall _ (by simp) _ rfl
  | read fd count buf r =>
    simp only [sysDispatch] at hs
    split at hs
    · rw [Option.some.injEq] at hs
      subst hs
      exact hcall _ (by simp) _ rfl
    · split at hs <;>
        · rw [Option.some.injEq] at hs
          subst hs
          first
            | exact hcall _ (by simp) _ rfl
            | exact ⟨(hr.after _ _).of_enter, Or.inl rfl⟩
  | write fd buf r =>
    simp only [sysDispatch] at hs
    split at hs
    · rw [Option.some.injEq] at hs
      subst hs
      exact hcall _ (by simp) _ rfl
    · rw [Option.some.injEq] at hs
      subst hs
      exact ⟨(hr.after _ _).of_enter, Or.inl rfl⟩

/-- The machine between the death of a task and what `SYS_exit` does next. -/
def exited (status : Int) (m : Machine) : Machine :=
  { m with
    kernel := exitCurrent status m.kernel
    gone := (m.kernel.tasks m.cur).pid :: m.gone
    history := .exited m.cur :: m.history }

/-- An exit jumps when the flag is up and a parent is noted, and else goes on in `SYS_exit`. -/
theorem sysExit_cases (status : Int) (m : Machine) :
    (m.forkJmpActive = true ∧ m.forkJmpParent ≠ none ∧ sysExit status m = longjmp (exited status m)) ∨
    ((m.forkJmpActive = false ∨ m.forkJmpParent = none) ∧
      sysExit status m = { exited status m with mode := .kernel (frameOf .exiting m) }) := by
  unfold sysExit
  by_cases h : m.forkJmpActive = true ∧ m.forkJmpParent.isSome = true
  · exact Or.inl ⟨h.1, Option.isSome_iff_ne_none.mp h.2, by rw [if_pos h]; rfl⟩
  · refine Or.inr ⟨?_, by rw [if_neg h]; rfl⟩
    rcases Bool.eq_false_or_eq_true m.forkJmpActive with ha | ha
    · refine Or.inr ?_
      simpa [ha] using h
    · exact Or.inl ha

/-- A jump resumes the call whose place it finds, or goes wild. -/
theorem longjmp_cases (m : Machine) : longjmp m = { m with mode := .wild } ∨
    ∃ stack number saved, m.forkJmpBuf = some (stack, number) ∧ m.kstacks stack = some saved ∧
      saved.number = number ∧ longjmp m = resume saved m := by
  unfold longjmp
  split
  · exact Or.inl rfl
  · next stack number hb =>
    split
    · exact Or.inl rfl
    · next saved hs =>
      split
      · next hn => exact Or.inr ⟨stack, number, saved, hb, hs, hn, rfl⟩
      · exact Or.inl rfl

/-! ### Steps of a run -/

/-- A turn of a call ends it, or is followed by another turn, or by a wait. -/
theorem turn_cases (f : Frame) (m : Machine) :
    (∃ r, (callTurn f m).1 = .done r ∧ turn f m = schedAfterSyscall f.owner r (callTurn f m).2) ∨
    (∃ n, (callTurn f m).1 = .again n ∧
      turn f m = { (callTurn f m).2 with mode := .kernel { f with call := f.call.advance n } }) ∨
    ((callTurn f m).1 = .block ∧ turn f m = waitInKernel f (callTurn f m).2) := by
  unfold turn
  generalize callTurn f m = r
  obtain ⟨res, m'⟩ := r
  cases res with
  | done r => exact Or.inl ⟨r, rfl, rfl⟩
  | again n => exact Or.inr (Or.inl ⟨n, rfl, rfl⟩)
  | block => exact Or.inr (Or.inr ⟨rfl, rfl⟩)

theorem step_syscall (h : m.mode = .user) (ctx : UserContext) (ans : Answers) (sys : Sys) :
    step (.syscall ctx ans sys) m = sysDispatch ans sys (enter ctx m) := by
  simp only [step, h]

/-- A step is a system call, a turn of a call, an interrupt of a task that idles, or a key, which only
    the keyboard controller sees. -/
theorem step_cases {i : Input} (h : step i m = some m') :
    (∃ ctx ans sys, i = .syscall ctx ans sys ∧ m.mode = .user ∧
      sysDispatch ans sys (enter ctx m) = some m') ∨
    (∃ f, i = .turn ∧ m.mode = .kernel f ∧ m' = turn f m) ∨
    (∃ f, i = .tick ∧ m.mode = .idle f ∧
      ((m.state m.cur = .blocked ∧ (procRunRunnable f m = some m' ∨
        procRunRunnable f m = none ∧ m' = m)) ∨
      (m.state m.cur ≠ .blocked ∧ m' = schedBlockEnd f m.cur m))) ∨
    ∃ scancode, i = .key scancode ∧ m' = { m with keyboard :=
      { m.keyboard with controller := m.keyboard.controller ++ [scancode] } } := by
  cases i with
  | syscall ctx ans sys =>
    refine Or.inl ⟨ctx, ans, sys, rfl, ?_⟩
    cases hm : m.mode <;> simp only [step, hm, reduceCtorEq] at h
    exact ⟨rfl, h⟩
  | turn =>
    refine Or.inr (Or.inl ?_)
    cases hm : m.mode <;> simp only [step, hm, reduceCtorEq, Option.some.injEq] at h
    exact ⟨_, rfl, rfl, h.symm⟩
  | tick =>
    refine Or.inr (Or.inr (Or.inl ?_))
    cases hm : m.mode <;> simp only [step, hm, reduceCtorEq] at h
    next f =>
    refine ⟨f, rfl, rfl, ?_⟩
    split at h
    · next hb =>
      refine Or.inl ⟨hb, ?_⟩
      split at h
      · next hp => exact Or.inl (hp.trans h)
      · next hp => exact Or.inr ⟨hp, (Option.some.inj h).symm⟩
    · next hb => exact Or.inr ⟨hb, (Option.some.inj h).symm⟩
  | key scancode =>
    refine Or.inr (Or.inr (Or.inr ⟨scancode, rfl, ?_⟩))
    simp only [step, keyArrives, irq_masked, if_neg Bool.false_ne_true, Option.some.injEq] at h
    exact h.symm

/-- After a wild jump, and after the halt, only keys come. -/
theorem step_stopped {i : Input} (hw : m.mode = .wild ∨ m.mode = .halted) (h : step i m = some m') :
    ∃ scancode kb, i = .key scancode ∧ m' = { m with keyboard := kb } := by
  rcases step_cases h with ⟨_, _, _, -, hm, -⟩ | ⟨f, -, hm, -⟩ | ⟨f, -, hm, -⟩ | ⟨scancode, hi, rfl⟩
  · rw [hm] at hw
    simp at hw
  · rw [hm] at hw
    simp at hw
  · rw [hm] at hw
    simp at hw
  · exact ⟨scancode, _, hi, rfl⟩

/-! ### Boot -/

theorem keeps_procOpenConsoleFd (answer : Option Handle) (fd : Fd) (k : Kernel) :
    Keeps k (procOpenConsoleFd answer fd k) := by
  unfold procOpenConsoleFd
  split
  · exact .refl k
  · rcases kmalloc_cases answer k with h | ⟨a, -, -, h⟩ <;> rw [h]
    · exact .refl k
    · exact (Keeps.refl k).live.setFile.setFd

/-- The first task is there, without a parent, and the other slots are empty. -/
structure FirstTask (k : Kernel) : Prop where
  cur : k.currentTask = 0
  parent : (k.tasks 0).parent = none
  pid : (k.tasks 0).pid = 1
  pids : k.nextPid = 2
  other : ∀ t, t ≠ 0 → (k.tasks t).core = Process.zero.core

theorem FirstTask.onTask {k : Kernel} (h : FirstTask k) (f : Process → Process)
    (hf : ∀ p, (f p).pid = p.pid ∧ (f p).parent = p.parent) : FirstTask (k.onTask 0 f) := by
  refine ⟨h.cur, ?_, ?_, h.pids, fun t ht => ?_⟩
  · rw [onTask_tasks_self, (hf _).2, h.parent]
  · rw [onTask_tasks_self, (hf _).1, h.pid]
  · rw [onTask_tasks_ne ht]
    exact h.other t ht

/-- After `proc_init` the first task runs, in the root directory. -/
theorem procInit_slots (ans : Answers) (live : Finset Handle) (files : Handle → VfsFile) (pml4 : Nat) :
    FirstTask (procInit ans (Kernel.zero live files pml4)) ∧
    ((procInit ans (Kernel.zero live files pml4)).tasks 0).state = .running ∧
    ((procInit ans (Kernel.zero live files pml4)).tasks 0).cwd = "/" := by
  unfold procInit
  dsimp only
  generalize hk₁ : ({ Kernel.zero live files pml4 with
    tasks := fun _ => Process.zero, currentTask := 0 } : Kernel).onTask 0 _ = k₁
  have h₁ : FirstTask k₁ := by
    rw [← hk₁]
    refine ⟨rfl, by rw [onTask_tasks_self]; rfl, by rw [onTask_tasks_self], rfl, fun t ht => ?_⟩
    rw [onTask_tasks_ne ht]
  generalize hk₂ : (procInitStack (ans.kmalloc 0) k₁).onTask 0 _ = k₂
  have h₂ : FirstTask k₂ ∧ (k₂.tasks 0).state = .running ∧ (k₂.tasks 0).cwd = "/" := by
    have hs : FirstTask (procInitStack (ans.kmalloc 0) k₁) := by
      unfold procInitStack
      rcases kmalloc_cases (ans.kmalloc 0) k₁ with h | ⟨a, -, -, h⟩ <;> rw [h]
      · exact h₁
      · exact FirstTask.onTask (k := { k₁ with live := insert a k₁.live }) { h₁ with } _
          fun _ => ⟨rfl, rfl⟩
    rw [← hk₂]
    exact ⟨hs.onTask _ fun _ => ⟨rfl, rfl⟩, by rw [onTask_tasks_self], by rw [onTask_tasks_self]⟩
  have h₃ := ((keeps_procOpenConsoleFd (ans.kmalloc 1) 0 k₂).trans
    (keeps_procOpenConsoleFd (ans.kmalloc 2) 1 _)).trans (keeps_procOpenConsoleFd (ans.kmalloc 3) 2 _)
  obtain ⟨h₂, hrun, hcwd⟩ := h₂
  refine ⟨⟨h₃.cur.trans h₂.cur, (Process.core_parent (h₃.core 0)).trans h₂.parent,
    (Process.core_pid (h₃.core 0)).trans h₂.pid, h₃.pids.trans h₂.pids, fun t ht => ?_⟩,
    (Process.core_state (h₃.core 0)).trans hrun,
    (Process.kin_cwd (Process.core_kin (h₃.core 0))).trans hcwd⟩
  rw [h₃.core t, h₂.other t ht]

/-- The machine after `kmain`: the shell is in user mode, and nothing else is there. -/
theorem boot_spec (ans : Answers) (live : Finset Handle) (files : Handle → VfsFile) (pml4 : Nat) :
    ∃ n, gdtSetRsp0 0 (Machine.boot ans live files pml4) =
      { Machine.boot ans live files pml4 with tssRsp0 := n } ∧
    FirstTask (Machine.boot ans live files pml4).kernel ∧
    (Machine.boot ans live files pml4).state 0 = .running := by
  obtain ⟨h, hrun, -⟩ := procInit_slots ans live files pml4
  have hst := @stays_procExec (procInit ans (Kernel.zero live files pml4)) ans true
  obtain ⟨n, hn⟩ := gdtSetRsp0_eq 0 (Machine.boot ans live files pml4)
  refine ⟨n, hn, ⟨hst.cur.trans h.cur, (Process.kin_parent (hst.kin 0)).trans h.parent,
    (Process.kin_pid (hst.kin 0)).trans h.pid, hst.pids.trans h.pids, fun t ht => ?_⟩,
    (hst.state 0).trans hrun⟩
  rw [← h.other t ht]
  exact hst.core t (by rwa [h.cur])

/-! ### Small runs -/

/-- The machine after a list of inputs; one that does not fit is passed over. -/
def afterInputs : List Input → Machine → Machine
  | [], m => m
  | i :: l, m => afterInputs l ((step i m).getD m)

theorem Reaches.afterInputs {Meets : Input → Machine → Prop} {l : List Input} (hr : Reaches Meets m)
    (hl : ∀ i ∈ l, ∀ m, Meets i m) : Reaches Meets (afterInputs l m) := by
  induction l generalizing m with
  | nil => exact hr
  | cons i l ih =>
    refine ih ?_ fun j hj => hl j (List.mem_cons_of_mem i hj)
    cases hs : Sched.step i m with
    | none => exact hr
    | some m' => exact hr.step i (hl i (List.mem_cons_self ..) m) hs

/-- Answers with memory from address `a` on. -/
def memory (a : Handle) : Answers :=
  { kmalloc := fun n => some (a + n), freed := VfsFile.fresh, cloneCr3 := a, image := none }

def booted : Machine := gdtSetRsp0 0 (Machine.boot (memory 1) ∅ (fun _ => VfsFile.fresh) 1)

theorem booted_reaches {Meets : Input → Machine → Prop} : Reaches Meets booted := .boot ..

/-- A call with nothing in the registers. -/
def calls (a : Handle) (sys : Sys) : Input := .syscall ⟨0, 0, 0, 0, fun _ => 0⟩ (memory a) sys

def forks (a : Handle) : Input := calls a (.plain .fork)

def waits : Input := calls 0 (.wait (-1) true)

def exits : Input := calls 0 (.exit 0)

/-- The shell has forked. -/
def childMade : Machine := afterInputs [forks 10] booted

end TypeOS.Sched
