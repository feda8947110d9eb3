import TypeOS.Sched.Parents

/-! What a step leaves to the other tasks, and how long a child keeps what it starts with.

    A runnable task that is not the current one keeps its registers until `proc_run_runnable` starts it,
    since `sched_block_current` looks for such a task before it yields, and an exit jumps back to one
    that has run. -/

namespace TypeOS.Sched

open Proc Kernel

variable {m m' m'' : Machine} {f : Frame} {t : Tid}

/-- The step calls `usermode_resume_task` for `t`. -/
def Resumes (t : Tid) (m m' : Machine) : Prop :=
  ∃ last rax, m'.returns = .resumed t last rax :: m.returns

/-- Steps in which `t` is not resumed. -/
inductive Meanwhile (t : Tid) : Machine → Machine → Prop
  | refl (m : Machine) : Meanwhile t m m
  | step {m m' m'' : Machine} (i : Input) : Meanwhile t m m' → step i m' = some m'' →
      ¬ Resumes t m' m'' → Meanwhile t m m''

/-! ### Registers of other tasks -/

/-- The current task works on, and the other ones that are there keep their registers. -/
structure Calm (m m' : Machine) : Prop where
  works : ∃ z, Works z m m'
  context : ∀ t, t ≠ m.cur → m.state t ≠ .unused →
    (m'.kernel.tasks t).context = (m.kernel.tasks t).context
  returns : m'.returns = m.returns ∨ ∃ owner cur, m'.returns = .afterSyscall owner cur :: m.returns

theorem Calm.refl (m : Machine) : Calm m m := ⟨⟨none, .refl none m⟩, fun _ _ _ => rfl, Or.inl rfl⟩

theorem Calm.not_resumes (h : Calm m m') (t : Tid) : ¬ Resumes t m m' := by
  rintro ⟨last, rax, hr⟩
  rcases h.returns with he | ⟨owner, cur, he⟩ <;> rw [he] at hr <;> simp at hr

theorem live_of_running (h : m.state t = .running) : (m.kernel.tasks t).Live := by
  rw [Machine.state] at h
  exact ⟨by simp [h], by simp [h]⟩

theorem live_of_blocked (h : m.state t = .blocked) : (m.kernel.tasks t).Live := by
  rw [Machine.state] at h
  exact ⟨by simp [h], by simp [h]⟩

theorem onTask_context {k : Kernel} {u : Tid} (h : t ≠ u) (g : Process → Process) :
    ((k.onTask u g).tasks t).context = (k.tasks t).context := by
  rw [onTask_tasks_ne h]

theorem setState_context (k : Kernel) (u : Tid) (state : TaskState) (t : Tid) :
    ((k.setState u state).tasks t).context = (k.tasks t).context := by
  rcases eq_or_ne t u with rfl | hne
  · rw [setState, onTask_tasks_self]
    rfl
  · rw [setState, onTask_tasks_ne hne]

theorem schedWakeAll_context (k : Kernel) (t : Tid) :
    ((schedWakeAll k).tasks t).context = (k.tasks t).context := by
  rcases schedWakeAll_slot k t with ⟨h, -⟩ | ⟨-, h⟩ <;> rw [h]
  rfl

/-- A turn of a call leaves every task its registers. -/
theorem callTurn_context (f : Frame) (m : Machine) (t : Tid) :
    ((callTurn f m).2.kernel.tasks t).context = (m.kernel.tasks t).context := by
  cases hc : f.call with
  | read p count buf =>
    simp only [callTurn, hc, pipeReadTurn]
    split
    · rfl
    · split <;> rfl
  | write p buf n =>
    simp only [callTurn, hc, pipeWriteTurn]
    split
    · split
      · split
        · exact schedWakeAll_context _ t
        · split <;> rfl
      · rfl
    · rfl
  | console bufOk =>
    have hk : ((if (keyboardPoll m.keyboard).1 = true then schedWakeAll m.kernel
        else m.kernel).tasks t).context = (m.kernel.tasks t).context := by
      split
      · exact schedWakeAll_context _ t
      · rfl
    simp only [callTurn, hc, consoleTurn]
    split <;> exact hk
  | wait pid statusOk =>
    simp only [callTurn, hc]
    rcases waitTurn_slots pid statusOk m.kernel with ⟨-, h⟩ | ⟨z, -, h⟩ <;> rw [h]
    exact setState_context ..
  | exiting => simp only [callTurn, hc]

theorem callTurn_returns (f : Frame) (m : Machine) : (callTurn f m).2.returns = m.returns := by
  unfold callTurn
  split
  · rfl
  · rfl
  · unfold consoleTurn
    dsimp only
    split <;> rfl
  · rfl
  · rfl

theorem callTurn_calm (f : Frame) (m : Machine) : Calm m (callTurn f m).2 :=
  ⟨⟨_, callTurn_works f m⟩, fun t _ _ => callTurn_context f m t, Or.inl (callTurn_returns f m)⟩

theorem schedAfterSyscall_context (owner : Tid) (r : Int) (ht : t ≠ m.cur) :
    ((schedAfterSyscall owner r m).kernel.tasks t).context = (m.kernel.tasks t).context := by
  simp only [schedAfterSyscall]
  exact onTask_context ht _

/-- A result is delivered to the current task. -/
theorem Calm.after (h : Calm m m') (hr : m'.returns = m.returns) (owner : Tid) (r : Int) :
    Calm m (schedAfterSyscall owner r m') := by
  obtain ⟨z, hw⟩ := h.works
  refine ⟨⟨z, hw.after owner r⟩, fun t ht hu => ?_, Or.inr ⟨owner, m'.cur, ?_⟩⟩
  · rw [← h.context t ht hu]
    refine schedAfterSyscall_context owner r ?_
    rw [hw.cur]
    exact ht
  · rw [← hr]
    rfl

theorem enter_context (ctx : UserContext) (ht : t ≠ m.cur) :
    ((enter ctx m).kernel.tasks t).context = (m.kernel.tasks t).context := by
  simp only [enter]
  exact onTask_context ht _

theorem enter_calm (ctx : UserContext) (m : Machine) : Calm m (enter ctx m) :=
  ⟨⟨none, (Works.refl none (enter ctx m)).of_enter⟩, fun _ ht _ => enter_context ctx ht, Or.inl rfl⟩

/-- A system call other than an exit leaves the other tasks their registers. -/
theorem sysDispatch_calm {ctx : UserContext} {ans : Answers} {sys : Sys}
    (hs : sysDispatch ans sys (enter ctx m) = some m') (hx : ∀ status, sys ≠ .exit status) :
    Calm m m' := by
  have hw := (sysDispatch_works hs hx).1
  -- the kernel before the result is delivered
  have hdone : ∀ (k : Kernel) (last : Tid → LastCall) (owner : Tid) (r : Int),
      k.currentTask = m.cur → (∀ t, t ≠ m.cur → (m.kernel.tasks t).state ≠ .unused →
        (k.tasks t).context = ((enter ctx m).kernel.tasks t).context) →
      m' = schedAfterSyscall owner r { enter ctx m with kernel := k, lastCall := last } →
      Calm m m' := by
    rintro k last owner r hc hk rfl
    refine ⟨⟨none, hw⟩, fun t ht hu => ?_, Or.inr ⟨owner, k.currentTask, rfl⟩⟩
    rw [← enter_context ctx ht, ← hk t ht hu]
    refine schedAfterSyscall_context owner r ?_
    rw [Machine.cur, hc]
    exact ht
  have hwaits : ∀ c, m' = { enter ctx m with mode := .kernel (frameOf c (enter ctx m)) } →
      Calm m m' := by
    rintro c rfl
    exact ⟨⟨none, hw⟩, fun _ ht _ => enter_context ctx ht, Or.inl rfl⟩
  cases sys with
  | plain c =>
    simp only [sysDispatch] at hs
    split at hs
    · next r k hp hd =>
      have hf : Forks (enter ctx m).kernel k := by
        have := @forks_plain (enter ctx m).kernel ans c hp
        rwa [hd] at this
      refine hdone k _ _ r hf.cur (fun t _ hu => ?_) (Option.some.inj hs).symm
      rcases hf.core t with hcore | ⟨hun, -⟩
      · exact Process.core_context hcore
      · exact absurd ((enter_state ctx m t).symm.trans hun) hu
    · simp at hs
  | other r => exact hdone (enter ctx m).kernel _ _ r rfl (fun _ _ _ => rfl) (Option.some.inj hs).symm
  | exec found =>
    have hst := @stays_procExec (enter ctx m).kernel ans found
    simp only [sysDispatch] at hs
    split at hs
    · next k heq =>
      rw [heq] at hst
      obtain rfl := Option.some.inj hs
      refine ⟨⟨none, hw⟩, fun t ht _ => ?_, Or.inl rfl⟩
      exact (Process.core_context (hst.core t ht)).trans (enter_context ctx ht)
    · next k heq =>
      rw [heq] at hst
      exact hdone k _ _ _ hst.cur (fun t ht _ => Process.core_context (hst.core t ht))
        (Option.some.inj hs).symm
  | exit status => exact absurd rfl (hx status)
  | wait pid statusOk => exact hwaits _ (Option.some.inj hs).symm
  | read fd count buf r =>
    simp only [sysDispatch] at hs
    split at hs
    · exact hwaits _ (Option.some.inj hs).symm
    · split at hs
      · exact hwaits _ (Option.some.inj hs).symm
      · exact hdone (enter ctx m).kernel _ _ _ rfl (fun _ _ _ => rfl) (Option.some.inj hs).symm
  | write fd buf r =>
    simp only [sysDispatch] at hs
    split at hs
    · exact hwaits _ (Option.some.inj hs).symm
    · exact hdone (enter ctx m).kernel _ _ _ rfl (fun _ _ _ => rfl) (Option.some.inj hs).symm

/-! ### What a step does -/

/-- What is suspended stays so, and no live task is lost. -/
structure Marked (m m' : Machine) : Prop where
  live : ∀ t, (m.kernel.tasks t).Live → (m'.kernel.tasks t).Live
  active : m'.forkJmpActive = m.forkJmpActive
  buf : m'.forkJmpBuf = m.forkJmpBuf
  places : m'.kstacks = m.kstacks

/-- The current task works on, starts another one, waits when no other one can run, exits without a
    jump or with one; or the machine stops. -/
inductive Moves (m m' : Machine) : Prop
  | works (calm : Calm m m')
  | starts (f : Frame) (m₁ : Machine) (calm : Calm m m₁) (quiet : m₁.returns = m.returns)
    (live : f.call ≠ .exiting → (m₁.kernel.tasks m₁.cur).Live)
    (starts : procRunRunnable f m₁ = some m')
  | waits (m₁ : Machine) (calm : Calm m m₁) (quiet : m'.returns = m.returns)
    (alone : ∀ t, t ≠ m₁.cur → m₁.state t ≠ .runnable) (marked : Marked m₁ m')
  | exits (status : Int) (m₁ : Machine) (calm : Calm m m₁) (quiet : m'.returns = m.returns)
    (off : m₁.forkJmpActive = false)
    (exits : m' = { exited status m₁ with mode := .kernel (frameOf .exiting m₁) })
  | jumps (status : Int) (m₁ : Machine) (st n : Nat) (saved : Saved) (calm : Calm m m₁)
    (quiet : m'.returns = m.returns) (active : m₁.forkJmpActive = true)
    (buf : m₁.forkJmpBuf = some (st, n)) (place : m₁.kstacks st = some saved)
    (jumps : m' = resume saved (exited status m₁))
  | stops (quiet : m'.returns = m.returns) (stopped : m'.mode = .wild ∨ m'.mode = .halted)

theorem resume_returns (saved : Saved) (m : Machine) : (resume saved m).returns = m.returns := by
  obtain ⟨n, hn⟩ := gdtSetRsp0_eq saved.self m
  simp only [resume, procActivate, hn]

/-- A call must wait. -/
theorem Moves.block {m₁ : Machine} (calm : Calm m m₁) (quiet : m₁.returns = m.returns)
    (live : (m₁.kernel.tasks m₁.cur).Live) : Moves m (schedBlockCurrent f m₁) := by
  have hmark : ∀ t, (m₁.kernel.tasks t).Live → ((markBlocked f m₁).kernel.tasks t).Live := by
    intro t ht
    rcases eq_or_ne t m₁.cur with rfl | hne
    · exact live_of_blocked (by simp [markBlocked, Machine.state, setState])
    · have hsame : (markBlocked f m₁).kernel.tasks t = m₁.kernel.tasks t := Function.update_of_ne hne ..
      rwa [hsame]
  rcases schedBlockCurrent_cases f m₁ with
    ⟨m', hp, heq⟩ | ⟨hno, ⟨rr, heq⟩ | ⟨next, rr, n, -, -, -, heq⟩⟩
  · rw [heq]
    exact .starts f m₁ calm quiet (fun _ => live) hp
  · rw [heq]
    exact .waits m₁ calm quiet hno ⟨hmark, rfl, rfl, rfl⟩
  · rw [heq]
    refine .waits m₁ calm quiet hno ⟨fun t ht => ?_, rfl, rfl, rfl⟩
    rcases eq_or_ne t next with rfl | hne
    · exact live_of_running (by simp [Machine.state, setState])
    · have hsame : (((markBlocked f m₁).kernel.setState next .running).tasks t).Live := by
        rw [setState, onTask_tasks_ne hne]
        exact hmark t ht
      exact hsame

theorem waitInKernel_eq (h : f.call ≠ .exiting) (m : Machine) :
    waitInKernel f m = schedBlockCurrent f m := by
  unfold waitInKernel
  split
  · next he => exact absurd he h
  · rfl

theorem turn_moves (hn : Nest m) (hm : m.mode = .kernel f) : Moves m (turn f m) := by
  rcases eq_or_ne f.call .exiting with hf | hf
  · have ht : turn f m = waitInKernel f m := by
      simp only [turn, callTurn_exiting m hf]
    rw [ht]
    simp only [waitInKernel, hf]
    split
    · next hp => exact .starts f m (.refl m) rfl (fun hne => absurd hf hne) hp
    · exact .stops rfl (Or.inr rfl)
  · have hcalm := callTurn_calm f m
    have hq := callTurn_returns f m
    rcases turn_cases f m with ⟨r, -, ht⟩ | ⟨n, -, ht⟩ | ⟨-, ht⟩ <;> rw [ht]
    · exact .works (hcalm.after hq _ r)
    · obtain ⟨z, hw⟩ := hcalm.works
      exact .works ⟨⟨z, { hw with }⟩, hcalm.context, hcalm.returns⟩
    · rw [waitInKernel_eq hf]
      refine .block hcalm hq ?_
      have hw := callTurn_works f m
      rw [hw.cur]
      exact ((hw.slot m.cur).live (live_of_running (hn.running (Or.inr ⟨f, hm, hf⟩)))).1

theorem exit_moves (hn : Nest m) (ctx : UserContext) (status : Int) :
    Moves m (sysExit status (enter ctx m)) := by
  have hcalm := enter_calm ctx m
  rcases sysExit_cases status (enter ctx m) with ⟨hact, -, heq⟩ | ⟨hoff, heq⟩ <;> rw [heq]
  · rcases longjmp_cases (exited status (enter ctx m)) with hl | ⟨st, n, saved, hbuf, hst, -, hl⟩ <;>
      rw [hl]
    · exact .stops rfl (Or.inl rfl)
    · exact .jumps status (enter ctx m) st n saved hcalm (resume_returns ..) hact hbuf hst rfl
  · refine .exits status (enter ctx m) hcalm rfl ?_ rfl
    rcases hoff with hoff | hoff
    · exact hoff
    · rcases hn.jump with ⟨-, _, _, _, _, -, hpar, -⟩ | ⟨hf, -⟩
      · exact absurd (hpar.symm.trans hoff) (by simp)
      · exact hf

/-- One step. -/
theorem step_moves {i : Input} (hn : Nest m) (hs : step i m = some m') : Moves m m' := by
  rcases step_cases hs with ⟨ctx, ans, sys, -, -, hd⟩ | ⟨f, -, hm, rfl⟩ |
    ⟨f, -, hm, ⟨hb, hp | ⟨-, rfl⟩⟩ | ⟨hb, -⟩⟩ | ⟨scancode, -, rfl⟩
  · by_cases hx : ∃ status, sys = .exit status
    · obtain ⟨status, rfl⟩ := hx
      obtain rfl := Option.some.inj hd
      exact exit_moves hn ctx status
    · exact .works (sysDispatch_calm hd fun status hs => hx ⟨status, hs⟩)
  · exact turn_moves hn hm
  · exact .starts f m (.refl m) rfl (fun _ => live_of_blocked hb) hp
  · exact .works (.refl _)
  · exact absurd (hn.idle f hm).1 hb
  · exact .works ⟨⟨none, { Works.refl none m with }⟩, fun _ _ _ => rfl, Or.inl rfl⟩

/-! ### The place that an exit jumps back to -/

/-- It is in a call of a live task, or in an exit. -/
def Suspended (m : Machine) : Prop :=
  m.forkJmpActive = true → ∀ st n saved, m.forkJmpBuf = some (st, n) → m.kstacks st = some saved →
    saved.frame.call ≠ .exiting → (m.kernel.tasks saved.self).Live

theorem Suspended.works {z : Option Tid} (h : Suspended m) (w : Works z m m') : Suspended m' := by
  intro hact st n saved hbuf hst hcall
  rw [w.active] at hact
  rw [w.buf] at hbuf
  rcases w.stack st with hsame | ⟨-, hnone⟩
  · rw [hsame] at hst
    exact ((w.slot saved.self).live (h hact st n saved hbuf hst hcall)).1
  · rw [hnone] at hst
    cases hst

theorem Suspended.step (h : Suspended m) (hm : Moves m m') :
    m'.mode = .wild ∨ m'.mode = .halted ∨ Suspended m' := by
  cases hm with
  | works calm =>
    obtain ⟨z, hw⟩ := calm.works
    exact Or.inr (Or.inr (h.works hw))
  | starts f m₁ calm quiet live run =>
    refine Or.inr (Or.inr fun _ st n saved hbuf hst hcall => ?_)
    rcases procRunRunnable_cases f m₁ with ⟨hn, -⟩ | ⟨t, m₂, hs, -, hne, -, -, hother, -, -, -, hb, -,
      hstacks, -⟩
    · rw [hn] at run
      cases run
    · obtain rfl := Option.some.inj (hs.symm.trans run)
      rw [hb, Option.some.injEq, Prod.mk.injEq] at hbuf
      obtain ⟨rfl, rfl⟩ := hbuf
      rw [hstacks, Function.update_self, Option.some.injEq] at hst
      subst hst
      rw [hother m₁.cur (Ne.symm hne)]
      exact live hcall
  | waits m₁ calm quiet alone marked =>
    obtain ⟨z, hw⟩ := calm.works
    refine Or.inr (Or.inr fun hact st n saved hbuf hst hcall => marked.live _ ?_)
    exact h.works hw (marked.active ▸ hact) st n saved (marked.buf ▸ hbuf) (marked.places ▸ hst) hcall
  | exits status m₁ calm quiet off exits =>
    refine Or.inr (Or.inr fun hact => ?_)
    rw [exits] at hact
    exact absurd (hact.symm.trans off) (by simp)
  | jumps status m₁ st n saved calm quiet active buf place jumps =>
    obtain ⟨-, -, -, hoff, -⟩ := resume_eq saved (exited status m₁)
    refine Or.inr (Or.inr fun hact => ?_)
    rw [jumps, hoff] at hact
    cases hact
  | stops quiet stopped => exact stopped.imp_right Or.inl

/-- In every run, until a jump has gone wild or the processor halts. -/
theorem Reaches.suspended {Meets : Input → Machine → Prop} (hr : Reaches Meets m) :
    m.mode = .wild ∨ m.mode = .halted ∨ Suspended m := by
  induction hr with
  | boot ans live files pml4 =>
    obtain ⟨n, hn, -⟩ := boot_spec ans live files pml4
    rw [hn]
    exact Or.inr (Or.inr fun hact => absurd hact (by simp [Machine.boot]))
  | @step m m' i hr _ hs ih =>
    have hstopped : m.mode = .wild ∨ m.mode = .halted → m'.mode = .wild ∨ m'.mode = .halted := by
      intro hw
      obtain ⟨_, kb, -, rfl⟩ := step_stopped hw hs
      exact hw
    rcases hr.nest with hw | hn
    · exact (hstopped (Or.inl hw)).imp_right Or.inl
    · rcases ih with hw | hw | h
      · exact (hstopped (Or.inl hw)).imp_right Or.inl
      · exact (hstopped (Or.inr hw)).imp_right Or.inl
      · exact h.step (step_moves hn hs)

/-! ### A child before its first run -/

/-- `t` is ready with these registers, and nobody is come back to in its slot. -/
structure Ready (t : Tid) (ctx : UserContext) (m : Machine) : Prop where
  runnable : m.state t = .runnable
  other : t ≠ m.cur
  context : (m.kernel.tasks t).context = ctx
  jump : m.forkJmpActive = true → ∀ st n saved, m.forkJmpBuf = some (st, n) →
    m.kstacks st = some saved → saved.frame.call ≠ .exiting → saved.self ≠ t

variable {ctx : UserContext}

theorem not_resumes_of_returns (h : m'.returns = m.returns) (t : Tid) : ¬ Resumes t m m' := by
  rintro ⟨last, rax, hr⟩
  rw [h] at hr
  simp at hr

theorem Ready.calm (h : Ready t ctx m) (hc : Calm m m') : Ready t ctx m' := by
  obtain ⟨z, hw⟩ := hc.works
  have hrun : m'.state t = .runnable := by
    have hs := hw.state t
    rw [h.runnable] at hs
    generalize m'.state t = s at hs
    cases hs
    rfl
  refine ⟨hrun, ?_, ?_, ?_⟩
  · rw [hw.cur]
    exact h.other
  · rw [hc.context t h.other (by rw [h.runnable]; simp)]
    exact h.context
  · intro hact st n saved hbuf hst hcall
    rcases hw.stack st with hsame | ⟨-, hnone⟩
    · exact h.jump (hw.active ▸ hact) st n saved (hw.buf ▸ hbuf) (hsame ▸ hst) hcall
    · rw [hnone] at hst
      cases hst

/-- The task that `proc_run_runnable` starts is resumed with the registers of its slot. -/
theorem procRunRunnable_resumes (h : procRunRunnable f m = some m') :
    (∃ last rax, m'.returns = .resumed m'.cur last rax :: m.returns) ∧
      ∀ t, (m'.kernel.tasks t).context = (m.kernel.tasks t).context := by
  unfold procRunRunnable at h
  split at h
  · cases h
  · next u _ =>
    obtain rfl := Option.some.inj h
    obtain ⟨n, hn⟩ := gdtSetRsp0_eq u m
    refine ⟨⟨m.lastCall u, (m.kernel.tasks u).userRax, rfl⟩, fun t => ?_⟩
    simp only [procActivate, hn]
    exact setState_context m.kernel u .running t

theorem Ready.exited (h : Ready t ctx m) (status : Int) :
    ((exited status m).state t = .runnable) ∧ t ≠ (Sched.exited status m).cur ∧
      ((Sched.exited status m).kernel.tasks t).context = ctx := by
  obtain ⟨hcur, -, hother⟩ := exitCurrent_slots status m.kernel
  have hsame : (Sched.exited status m).kernel.tasks t = m.kernel.tasks t := by
    rcases hother t h.other with hsame | ⟨hb, -⟩
    · exact hsame
    · exact absurd (h.runnable.symm.trans hb) (by simp)
  refine ⟨?_, ?_, ?_⟩
  · rw [Machine.state, hsame]
    exact h.runnable
  · rw [Machine.cur, Sched.exited, hcur]
    exact h.other
  · rw [hsame]
    exact h.context

/-- A step resumes it with its registers, or leaves it ready. -/
theorem Ready.step (h : Ready t ctx m) (hm : Moves m m') :
    Resumes t m m' ∧ (m'.kernel.tasks t).context = ctx ∨
      ¬ Resumes t m m' ∧ (m'.mode = .wild ∨ m'.mode = .halted ∨ Ready t ctx m') := by
  cases hm with
  | works calm => exact Or.inr ⟨calm.not_resumes t, Or.inr (Or.inr (h.calm calm))⟩
  | starts f m₁ calm quiet live run =>
    have h₁ := h.calm calm
    obtain ⟨⟨last, rax, hret⟩, hctx⟩ := procRunRunnable_resumes run
    rw [quiet] at hret
    rcases procRunRunnable_cases f m₁ with ⟨hn, -⟩ | ⟨u, m₂, hs, -, -, hcur, -, hother, -, -, -, hb, -,
      hstacks, -⟩
    · rw [hn] at run
      cases run
    obtain rfl := Option.some.inj (hs.symm.trans run)
    rcases eq_or_ne t u with rfl | hne
    · exact Or.inl ⟨⟨last, rax, hcur ▸ hret⟩, (hctx t).trans h₁.context⟩
    · refine Or.inr ⟨?_, Or.inr (Or.inr ⟨?_, ?_, (hctx t).trans h₁.context, ?_⟩)⟩
      · rintro ⟨last', rax', hret'⟩
        rw [hret, hcur, List.cons.injEq, Return.resumed.injEq] at hret'
        exact hne hret'.1.1.symm
      · rw [Machine.state, hother t hne]
        exact h₁.runnable
      · rw [hcur]
        exact hne
      · intro _ st n saved hbuf hst _
        rw [hb, Option.some.injEq, Prod.mk.injEq] at hbuf
        obtain ⟨rfl, rfl⟩ := hbuf
        rw [hstacks, Function.update_self, Option.some.injEq] at hst
        subst hst
        exact Ne.symm h₁.other
  | waits m₁ calm quiet alone =>
    have h₁ := h.calm calm
    exact absurd h₁.runnable (alone t h₁.other)
  | exits status m₁ calm quiet off exits =>
    refine Or.inr ⟨not_resumes_of_returns quiet t, Or.inr (Or.inr ?_)⟩
    obtain ⟨hrun, hne, hctx⟩ := (h.calm calm).exited status
    rw [exits]
    exact ⟨hrun, hne, hctx, fun hact => absurd (hact.symm.trans off) (by simp)⟩
  | jumps status m₁ st n saved calm quiet active buf place jumps =>
    refine Or.inr ⟨not_resumes_of_returns quiet t, ?_⟩
    have h₁ := h.calm calm
    obtain ⟨hcur, -, hother, hoff, -, -, hmode⟩ := resume_eq saved (Sched.exited status m₁)
    rw [← jumps] at hcur hother hoff hmode
    by_cases hx : saved.frame.call = .exiting
    · refine Or.inr (Or.inl ?_)
      rw [hmode]
      simp only [Frame.goesOn, hx]
    · have hne : t ≠ saved.self := Ne.symm (h₁.jump active st n saved buf place hx)
      obtain ⟨hrun, -, hctx⟩ := h₁.exited status
      refine Or.inr (Or.inr ⟨?_, ?_, ?_, fun hact => ?_⟩)
      · rw [Machine.state, hother t hne]
        exact hrun
      · rw [hcur]
        exact hne
      · rw [hother t hne]
        exact hctx
      · rw [hoff] at hact
        cases hact
  | stops quiet stopped =>
    exact Or.inr ⟨not_resumes_of_returns quiet t, stopped.imp_right Or.inl⟩

theorem Meanwhile.reaches (h : Meanwhile t m m') (hr : Reaches (fun _ _ => True) m) :
    Reaches (fun _ _ => True) m' := by
  induction h with
  | refl => exact hr
  | step i _ hs _ ih => exact ih.step i trivial hs

/-- Whatever the tasks do, it stays ready until it is resumed, unless the machine stops. -/
theorem Ready.meanwhile (h : Ready t ctx m) (hr : Reaches (fun _ _ => True) m)
    (hrun : Meanwhile t m m') : m'.mode = .wild ∨ m'.mode = .halted ∨ Ready t ctx m' := by
  induction hrun with
  | refl => exact Or.inr (Or.inr h)
  | @step m₁ m₂ i hrun hs hno ih =>
    have hstopped : m₁.mode = .wild ∨ m₁.mode = .halted → m₂.mode = .wild ∨ m₂.mode = .halted := by
      intro hw
      obtain ⟨_, kb, -, rfl⟩ := step_stopped hw hs
      exact hw
    rcases (hrun.reaches hr).nest with hw | hn
    · exact (hstopped (Or.inl hw)).imp_right Or.inl
    · rcases ih with hw | hw | hready
      · exact (hstopped (Or.inl hw)).imp_right Or.inl
      · exact (hstopped (Or.inr hw)).imp_right Or.inl
      · exact ((hready.step (step_moves hn hs)).resolve_left fun hres => hno hres.1).2

/-- Then it has the registers that it was made with. -/
theorem Ready.resumed {i : Input} (h : Ready t ctx m) (hr : Reaches (fun _ _ => True) m)
    (hrun : Meanwhile t m m') (hs : Sched.step i m' = some m'') (ht : Resumes t m' m'') :
    (m''.kernel.tasks t).context = ctx := by
  have hgoes : ∀ {kb}, m'' ≠ { m' with keyboard := kb } := by
    rintro kb rfl
    exact not_resumes_of_returns rfl t ht
  have hstopped : m'.mode = .wild ∨ m'.mode = .halted → (m''.kernel.tasks t).context = ctx := by
    intro hw
    obtain ⟨_, kb, -, heq⟩ := step_stopped hw hs
    exact absurd heq hgoes
  rcases (hrun.reaches hr).nest with hw | hn
  · exact hstopped (Or.inl hw)
  · rcases h.meanwhile hr hrun with hw | hw | hready
    · exact hstopped (Or.inl hw)
    · exact hstopped (Or.inr hw)
    · exact ((hready.step (step_moves hn hs)).resolve_right fun hno => hno.1 ht).2

/-! ### A child -/

/-- A fork makes its child ready, with the registers that it was entered with. -/
theorem Ready.forked {ans : Answers} {r : Int} (hr : Reaches (fun _ _ => True) m) (hu : m.mode = .user)
    (hs : Sched.step (.syscall ctx ans (.plain .fork)) m = some m')
    (hret : m'.lastCall m.cur = .returned r) (hok : 0 ≤ r) :
    ∃ t, m.state t = .unused ∧ (m'.kernel.tasks t).pid = r ∧
      Ready t { ctx with rax := 0 } m' := by
  have hn : Nest m := hr.nest.resolve_left fun hw => by simp [hu] at hw
  have hsusp : Suspended m := by
    rcases hr.suspended with hw | hw | h
    · simp [hu] at hw
    · simp [hu] at hw
    · exact h
  rw [step_syscall hu] at hs
  have hm' : m' = schedAfterSyscall m.cur (procFork ans (enter ctx m).kernel).1 { enter ctx m with
      kernel := (procFork ans (enter ctx m).kernel).2
      lastCall := fun t => if (enter ctx m).state t = .unused then .fresh
        else (enter ctx m).lastCall t } := (Option.some.inj hs).symm
  have hforks := @forks_procFork (enter ctx m).kernel ans
  have hresult : (procFork ans (enter ctx m).kernel).1 = r := by
    rw [hm'] at hret
    simpa [schedAfterSyscall] using hret
  obtain ⟨t, hun, hrun, hpid⟩ := @procFork_child (enter ctx m).kernel ans (by omega)
  have hnone : m.state t = .unused := (enter_state ctx m t).symm.trans hun
  have hne : t ≠ m.cur := by
    rintro rfl
    exact absurd ((hn.running (Or.inl hu)).symm.trans hnone) (by simp)
  generalize procFork ans (enter ctx m).kernel = res at hm' hforks hresult hrun hpid
  have hcur : m'.cur = m.cur := by
    rw [hm']
    exact hforks.cur
  refine ⟨t, hnone, ?_, ?_, ?_, ?_, ?_⟩
  · have hkin : (m'.kernel.tasks t).kin = (res.2.tasks t).kin := by
      rw [hm']
      simp only [schedAfterSyscall]
      exact onTask_kin (by intro; rfl) ..
    rw [Process.kin_pid hkin, ← hpid, hresult]
  · rw [hm', schedAfterSyscall_state]
    exact hrun
  · rw [hcur]
    exact hne
  · have hcopies : Copies (enter ctx m).kernel t (res.2.tasks t) := by
      rcases hforks.core t with hcore | ⟨-, -, hcopies⟩
      · exact absurd ((Process.core_state hcore).symm.trans hrun) (by simp [hun])
      · exact hcopies hrun
    have hkept : (m'.kernel.tasks t).context = (res.2.tasks t).context := by
      rw [hm']
      refine schedAfterSyscall_context _ _ ?_
      exact fun heq => hne (heq.trans hforks.cur)
    rw [hkept]
    refine (hcopies hne).trans ?_
    simp [enter, Process.context]
  · rw [hm']
    intro hact st n saved hbuf hst hcall
    have hst' : m.kstacks st = some saved := by
      rcases eq_or_ne st m.tssRsp0 with rfl | hother
      · simp [schedAfterSyscall, enter] at hst
      · exact (@enter_kstacks m ctx st hother).symm.trans hst
    rintro rfl
    exact (hsusp hact st n saved hbuf hst' hcall).1 hnone

end TypeOS.Sched
