import TypeOS.Sched.Steps

/-! Where an exit returns to.

    One jump buffer, one flag and one parent stand for the stack of suspended callers. They describe
    the last `proc_run_runnable` call that started a task, as long as no task has exited since: a
    second call overwrites them and the first exit clears them. So an exit finds its own activator
    exactly when nothing was started and nobody exited in between. -/

namespace TypeOS.Sched

open Proc Kernel

variable {m m' : Machine} {f : Frame}

/-- The last `proc_run_runnable` call that started a task: its number, its kernel stack and its
    `self`. -/
def lastActivation (u : Tid) : List Event → Option (Nat × Nat × Tid)
  | [] => none
  | .activated number stack self task :: l =>
    if task = u then some (number, stack, self) else lastActivation u l
  | .exited _ :: l => lastActivation u l

theorem lastActivation_mem {u : Tid} {n st : Nat} {s : Tid} {l : List Event}
    (h : lastActivation u l = some (n, st, s)) : Event.activated n st s u ∈ l := by
  induction l with
  | nil => simp [lastActivation] at h
  | cons e l ih =>
    cases e with
    | activated n' st' s' t =>
      rw [lastActivation] at h
      split at h
      · next ht =>
        simp only [Option.some.injEq, Prod.mk.injEq] at h
        obtain ⟨rfl, rfl, rfl⟩ := h
        exact ht ▸ List.mem_cons_self ..
      · exact List.mem_cons_of_mem _ (ih h)
    | exited t => exact List.mem_cons_of_mem _ (ih h)

/-- An exit of the current task returns to call `n` of task `s`, suspended on kernel stack `st`: the
    jump variables describe this call, and the exit leaves `s` current in it, the exiting task a
    zombie. -/
def ExitReturns (n st : Nat) (s : Tid) (m : Machine) : Prop :=
  m.forkJmpActive = true ∧ m.forkJmpParent = some s ∧ m.forkJmpBuf = some (st, n) ∧
  ∀ ctx ans status, ∃ m' saved, step (.syscall ctx ans (.exit status)) m = some m' ∧
    m.kstacks st = some saved ∧ saved.number = n ∧ m'.mode = saved.frame.goesOn ∧
    m'.cur = s ∧ m'.state m.cur = .zombie

/-- The jump variables are those of the last event, and the place they name is intact while the task
    that was started runs on a kernel stack of its own. -/
structure Nest (m : Machine) : Prop where
  jump : (m.forkJmpActive = true ∧ ∃ n st s u, m.history.head? = some (.activated n st s u) ∧
      m.forkJmpParent = some s ∧ m.forkJmpBuf = some (st, n)) ∨
    (m.forkJmpActive = false ∧ ∀ n st s u, m.history.head? ≠ some (.activated n st s u))
  number : ∀ n st s u, Event.activated n st s u ∈ m.history → n < m.calls
  unique : ∀ n st s u st' s' u', Event.activated n st s u ∈ m.history →
    Event.activated n st' s' u' ∈ m.history → u = u'
  running : (m.mode = .user ∨ ∃ f, m.mode = .kernel f ∧ f.call ≠ .exiting) →
    m.state m.cur = .running
  idle : ∀ f, m.mode = .idle f → m.state m.cur = .blocked ∧ f.call ≠ .exiting
  place : ∀ n st s u, m.history.head? = some (.activated n st s u) → s ≠ u ∧
    ((m.cur = u ∧ (st ≠ m.tssRsp0 → ∃ saved, m.kstacks st = some saved ∧ saved.number = n ∧
      saved.self = s)) ∨ (m.cur ≠ u ∧ m.state u ≠ .running))

/-- The current task works on. -/
theorem Nest.works (h : Nest m) {z : Option Tid} (w : Works z m m') (hr : m.state m.cur = .running)
    (hi : ∀ f, m'.mode ≠ .idle f) : Nest m' where
  jump := by
    rw [w.active, w.parent, w.buf, w.history]
    exact h.jump
  number := by
    rw [w.history, w.calls]
    exact h.number
  unique := by
    rw [w.history]
    exact h.unique
  running := by
    intro _
    have := w.state m.cur
    rw [hr] at this
    rw [w.cur]
    exact this.running
  idle := fun f hf => absurd hf (hi f)
  place := by
    intro n st s u hh
    rw [w.history] at hh
    obtain ⟨hne, hA | hB⟩ := h.place n st s u hh
    · refine ⟨hne, Or.inl ⟨w.cur.trans hA.1, fun hst => ?_⟩⟩
      rw [w.tss] at hst
      rw [w.kstacks st hst]
      exact hA.2 hst
    · refine ⟨hne, Or.inr ⟨?_, (w.state u).not_running hB.2⟩⟩
      rw [w.cur]
      exact hB.1

/-- A call starts another task. -/
theorem Nest.activate (h : Nest m) (hp : procRunRunnable f m = some m') : Nest m' := by
  rcases procRunRunnable_cases f m with ⟨hn, -⟩ | ⟨t, m₁, hs, -, hne, hcur, hst, -, hmode, hact, hpar,
    hbuf, hcalls, hstacks, hhist⟩
  · rw [hn] at hp
    simp at hp
  rw [hs, Option.some.injEq] at hp
  subst hp
  refine ⟨?_, fun n st s u hmem => ?_, fun n st s u st' s' u' h1 h2 => ?_, fun _ => ?_, fun f hf => ?_,
    fun n st s u hh => ?_⟩
  · exact Or.inl ⟨hact, _, _, _, _, by rw [hhist]; rfl, hpar, hbuf⟩
  · rw [hhist] at hmem
    rw [hcalls]
    rcases List.mem_cons.mp hmem with heq | hmem
    · injection heq with heq
      omega
    · exact Nat.lt_succ_of_lt (h.number n st s u hmem)
  · rw [hhist] at h1 h2
    rcases List.mem_cons.mp h1 with heq | h1 <;> rcases List.mem_cons.mp h2 with heq' | h2
    · injection heq with _ _ _ hu
      injection heq' with _ _ _ hu'
      exact hu.trans hu'.symm
    · injection heq with hn
      exact absurd (h.number n st' s' u' h2) (by omega)
    · injection heq' with hn
      exact absurd (h.number n st s u h1) (by omega)
    · exact h.unique n st s u st' s' u' h1 h2
  · rw [hcur, hst]
  · rw [hmode] at hf
    simp at hf
  · rw [hhist, List.head?_cons, Option.some.injEq] at hh
    injection hh with hn hst' hs' hu
    subst hn hst' hs' hu
    refine ⟨Ne.symm hne, Or.inl ⟨hcur, fun _ => ⟨⟨f, m.cur, m.calls⟩, ?_, rfl, rfl⟩⟩⟩
    rw [hstacks, Function.update_self]

/-- A call must wait. -/
theorem Nest.block (h : Nest m) (hf : f.call ≠ .exiting) : Nest (schedBlockCurrent f m) := by
  rcases schedBlockCurrent_cases f m with ⟨m', hp, heq⟩ | ⟨hno, ⟨rr, heq⟩ | ⟨next, rr, n, hne, hst, -, heq⟩⟩
  · rw [heq]
    exact h.activate hp
  · rw [heq]
    have hblk : (markBlocked f m).state m.cur = .blocked := by
      simp [markBlocked, Machine.state, setState]
    have hother : ∀ u, u ≠ m.cur → (markBlocked f m).state u = m.state u := by
      intro u hu
      exact congrArg Process.state (Function.update_of_ne hu ..)
    refine ⟨h.jump, h.number, h.unique, fun hm => ?_, fun g hg => ⟨hblk, ?_⟩, fun n st s u hh => ?_⟩
    · rcases hm with hm | ⟨g, hm, -⟩ <;> simp at hm
    · simp only [Mode.idle.injEq] at hg
      exact hg ▸ hf
    · obtain ⟨hsu, hA | hB⟩ := h.place n st s u hh
      · exact ⟨hsu, Or.inl hA⟩
      · exact ⟨hsu, Or.inr ⟨hB.1, by
          rw [← hother u (Ne.symm hB.1)] at hB
          exact hB.2⟩⟩
  · rw [heq]
    have hother : ∀ u, u ≠ m.cur → u ≠ next →
        (((markBlocked f m).kernel.setState next .running).tasks u).state = m.state u := by
      intro u hu hun
      rw [setState, onTask_tasks_ne hun]
      exact congrArg Process.state (Function.update_of_ne hu ..)
    have hnext : (((markBlocked f m).kernel.setState next .running).tasks next).state = .running := by
      rw [setState, onTask_tasks_self]
    have hold : (((markBlocked f m).kernel.setState next .running).tasks m.cur).state = .blocked := by
      rw [setState, onTask_tasks_ne (Ne.symm hne)]
      simp [markBlocked, setState]
    refine ⟨h.jump, h.number, h.unique, fun _ => hnext, fun g hg => ?_, fun n' st s u hh => ?_⟩
    · simp at hg
    · obtain ⟨hsu, hA | hB⟩ := h.place n' st s u hh
      · refine ⟨hsu, Or.inr ⟨fun hn => hne (hn.trans hA.1.symm), ?_⟩⟩
        rw [Machine.state, ← hA.1, hold]
        decide
      · have hun : u ≠ next := by
          rintro rfl
          exact hB.2 hst
        refine ⟨hsu, Or.inr ⟨Ne.symm hun, ?_⟩⟩
        rw [Machine.state, hother u (Ne.symm hB.1) hun]
        exact hB.2

/-- `proc_activate` of the call that resumes. -/
theorem resume_eq (saved : Saved) (m : Machine) : (resume saved m).cur = saved.self ∧
    (resume saved m).state saved.self = .running ∧
    (∀ u, u ≠ saved.self → (resume saved m).kernel.tasks u = m.kernel.tasks u) ∧
    (resume saved m).forkJmpActive = false ∧ (resume saved m).calls = m.calls ∧
    (resume saved m).history = m.history ∧ (resume saved m).mode = saved.frame.goesOn := by
  obtain ⟨n, hn⟩ := gdtSetRsp0_eq saved.self m
  simp only [resume, procActivate, hn, Machine.cur, Machine.state]
  refine ⟨trivial, ?_, fun u hu => ?_, trivial, trivial, trivial, trivial⟩
  · rw [setState, onTask_tasks_self]
  · rw [setState, onTask_tasks_ne hu]

/-- An exit with the jump buffer set: what the place on that stack decides. -/
theorem exit_jumps (m : Machine) (status : Int) {st n : Nat} (hact : m.forkJmpActive = true)
    (hpar : m.forkJmpParent ≠ none) (hbuf : m.forkJmpBuf = some (st, n)) :
    (m.kstacks st = none → sysExit status m = { exited status m with mode := .wild }) ∧
    ∀ saved, m.kstacks st = some saved → saved.number = n →
      sysExit status m = resume saved (exited status m) := by
  have hj : sysExit status m = longjmp (exited status m) := by
    rcases sysExit_cases status m with ⟨-, -, h⟩ | ⟨h | h, -⟩
    · exact h
    · rw [hact] at h
      cases h
    · exact absurd h hpar
  rw [hj]
  unfold longjmp
  simp only [exited, hbuf]
  refine ⟨fun h => by simp only [h], fun saved h hn => ?_⟩
  simp only [h, hn, if_true]

/-- After an exit nothing is noted any more, unless the jump went wild. -/
theorem Nest.exit (h : Nest m) (status : Int) :
    (sysExit status m).mode = .wild ∨ Nest (sysExit status m) := by
  have hnum : ∀ n st s u, Event.activated n st s u ∈ (exited status m).history →
      Event.activated n st s u ∈ m.history := by
    intro n st s u hmem
    simpa [exited] using hmem
  rcases sysExit_cases status m with ⟨hact, hpar, heq⟩ | ⟨hoff, heq⟩ <;> rw [heq]
  · rcases longjmp_cases (exited status m) with hl | ⟨st, n, saved, -, -, -, hl⟩ <;> rw [hl]
    · exact Or.inl rfl
    · obtain ⟨hcur, hrun, -, hoff, hcalls, hhist, hmode⟩ := resume_eq saved (exited status m)
      refine Or.inr ⟨Or.inr ⟨hoff, ?_⟩, ?_, ?_, fun _ => by rw [hcur, hrun], ?_, ?_⟩
      · rw [hhist]
        simp [exited]
      · intro n st s u hmem
        rw [hhist] at hmem
        rw [hcalls]
        exact h.number n st s u (hnum n st s u hmem)
      · intro n st s u st' s' u' h1 h2
        rw [hhist] at h1 h2
        exact h.unique n st s u st' s' u' (hnum _ _ _ _ h1) (hnum _ _ _ _ h2)
      · intro f hf
        rw [hmode] at hf
        unfold Frame.goesOn at hf
        split at hf <;> simp at hf
      · intro n st s u hh
        rw [hhist] at hh
        simp [exited] at hh
  · have hoff' : m.forkJmpActive = false := by
      rcases hoff with hoff | hoff
      · exact hoff
      · rcases h.jump with ⟨-, n, st, s, u, -, hp, -⟩ | ⟨hf, -⟩
        · rw [hp] at hoff
          simp at hoff
        · exact hf
    refine Or.inr ⟨Or.inr ⟨hoff', by simp [exited]⟩, ?_, ?_, ?_, ?_, by simp [exited]⟩
    · exact fun n st s u hmem => h.number n st s u (hnum n st s u hmem)
    · exact fun n st s u st' s' u' h1 h2 =>
        h.unique n st s u st' s' u' (hnum _ _ _ _ h1) (hnum _ _ _ _ h2)
    · rintro (hm | ⟨g, hm, hg⟩)
      · simp at hm
      · simp only [Mode.kernel.injEq] at hm
        subst hm
        exact absurd rfl hg
    · simp

/-! ### Runs -/

theorem callTurn_exiting (m : Machine) (hf : f.call = .exiting) : callTurn f m = (.block, m) := by
  simp only [callTurn, hf]

/-- A dead task starts another one and is not come back to, or the processor halts. -/
theorem Nest.exiting (h : Nest m) (hf : f.call = .exiting) : Nest (turn f m) := by
  rcases turn_cases f m with ⟨r, hr, -⟩ | ⟨n, hn, -⟩ | ⟨-, ht⟩
  · simp [callTurn_exiting m hf] at hr
  · simp [callTurn_exiting m hf] at hn
  · rw [ht, callTurn_exiting m hf]
    simp only [waitInKernel, hf]
    split
    · next hp => exact h.activate hp
    · refine ⟨h.jump, h.number, h.unique, fun hm => ?_, fun g hg => ?_, h.place⟩
      · rcases hm with hm | ⟨g, hm, -⟩ <;> simp at hm
      · simp at hg

/-- One turn of a call that may wait. -/
theorem Nest.turn (h : Nest m) (hm : m.mode = .kernel f) (hf : f.call ≠ .exiting) :
    Nest (turn f m) := by
  have hrun := h.running (Or.inr ⟨f, hm, hf⟩)
  have hw := callTurn_works f m
  have hmode : (callTurn f m).2.mode = .kernel f := (callTurn_mode f m).trans hm
  rcases turn_cases f m with ⟨r, -, ht⟩ | ⟨n, -, ht⟩ | ⟨-, ht⟩ <;> rw [ht]
  · exact h.works (hw.after _ r) hrun (by simp [schedAfterSyscall])
  · exact h.works { hw with } hrun (by simp)
  · have hn : Nest (callTurn f m).2 := h.works hw hrun (by simp [hmode])
    have hblock : waitInKernel f (callTurn f m).2 = schedBlockCurrent f (callTurn f m).2 := by
      unfold waitInKernel
      split
      · next he => exact absurd he hf
      · rfl
    rw [hblock]
    exact hn.block hf

/-- One step. -/
theorem Nest.step (h : Nest m) {i : Input} (hs : step i m = some m') :
    m'.mode = .wild ∨ Nest m' := by
  rcases step_cases hs with ⟨ctx, ans, sys, -, hm, hd⟩ | ⟨f, -, hm, rfl⟩ |
    ⟨f, -, hm, ⟨-, hp | ⟨-, rfl⟩⟩ | ⟨hb, -⟩⟩ | ⟨scancode, -, rfl⟩
  · have hrun := h.running (Or.inl hm)
    by_cases hx : ∃ status, sys = .exit status
    · obtain ⟨status, rfl⟩ := hx
      simp only [sysDispatch, Option.some.injEq] at hd
      subst hd
      have he : Nest (enter ctx m) :=
        h.works (Works.of_enter (Works.refl none (enter ctx m))) hrun (by simp [enter, hm])
      exact he.exit status
    · obtain ⟨hw, hmode⟩ := sysDispatch_works hd fun status hs => hx ⟨status, hs⟩
      refine Or.inr (h.works hw hrun fun g hg => ?_)
      rcases hmode with hu | ⟨c, -, hk⟩
      · rw [hu] at hg
        cases hg
      · rw [hk] at hg
        cases hg
  · rcases eq_or_ne f.call .exiting with hf | hf
    · exact Or.inr (h.exiting hf)
    · exact Or.inr (h.turn hm hf)
  · exact Or.inr (h.activate hp)
  · exact Or.inr h
  · exact absurd (h.idle f hm).1 hb
  · exact Or.inr ⟨h.jump, h.number, h.unique, h.running, h.idle, h.place⟩

/-- In every run, until a jump has gone wild. -/
theorem Reaches.nest {Meets : Input → Machine → Prop} (hr : Reaches Meets m) :
    m.mode = .wild ∨ Nest m := by
  induction hr with
  | boot ans live files pml4 =>
    obtain ⟨n, hn, hfirst, hrun⟩ := boot_spec ans live files pml4
    rw [hn]
    refine Or.inr ⟨Or.inr ⟨rfl, by simp [Machine.boot]⟩, by simp [Machine.boot], by simp [Machine.boot],
      fun _ => ?_, by simp [Machine.boot], by simp [Machine.boot]⟩
    exact (congrArg _ hfirst.cur).trans hrun
  | @step m m' i _ _ hs ih =>
    rcases ih with hw | hn
    · obtain ⟨_, kb, -, rfl⟩ := step_stopped (Or.inl hw) hs
      exact Or.inl hw
    · exact hn.step hs

/-- In every state of every run, an exit of a task that a `proc_run_runnable` call of task `s` started
    returns to that call if and only if since then no other task was started and no task exited, and
    the task is not on the kernel stack that the call is suspended on. -/
theorem exit_returns (hr : Reaches (fun _ _ => True) m) (hu : m.mode = .user) {n st : Nat} {s : Tid}
    (ha : lastActivation m.cur m.history = some (n, st, s)) :
    ExitReturns n st s m ↔
      m.history.head? = some (.activated n st s m.cur) ∧ st ≠ m.tssRsp0 := by
  obtain hw | h := hr.nest
  · rw [hu] at hw
    cases hw
  have hmem := lastActivation_mem ha
  constructor
  · rintro ⟨hact, hpar, hbuf, hexit⟩
    rcases h.jump with ⟨-, n', st', s', u, hh, hp, hb⟩ | ⟨hoff, -⟩
    · rw [hpar, Option.some.injEq] at hp
      rw [hbuf, Option.some.injEq, Prod.mk.injEq] at hb
      obtain ⟨rfl, rfl⟩ := hb
      subst hp
      have hcur := h.unique _ _ _ _ _ _ _ (List.mem_of_head? hh) hmem
      subst hcur
      refine ⟨hh, ?_⟩
      -- an entry on that stack destroys what is suspended there
      rintro rfl
      obtain ⟨m', saved, hs, -, -, hmode, -⟩ :=
        hexit ⟨0, 0, 0, 0, fun _ => 0⟩ ⟨fun _ => none, VfsFile.fresh, 0, none⟩ 0
      have hwild := exit_jumps (enter ⟨0, 0, 0, 0, fun _ => 0⟩ m) 0 hact (by simp [enter, hpar]) hbuf
      rw [step_syscall hu] at hs
      simp only [sysDispatch, Option.some.injEq] at hs
      rw [hwild.1 (by simp [enter])] at hs
      rw [← hs] at hmode
      unfold Frame.goesOn at hmode
      split at hmode <;> simp at hmode
    · rw [hoff] at hact
      simp at hact
  · rintro ⟨hh, hst⟩
    rcases h.jump with ⟨hact, n', st', s', u, hh', hpar, hbuf⟩ | ⟨-, hno⟩
    · rw [hh, Option.some.injEq] at hh'
      injection hh' with hn hst' hs' _
      subst hn hst' hs'
      refine ⟨hact, hpar, hbuf, fun ctx ans status => ?_⟩
      obtain ⟨hne, ⟨-, hplace⟩ | ⟨hcur, -⟩⟩ := h.place n st s m.cur hh
      · obtain ⟨saved, hk, hnum, hself⟩ := hplace hst
        have hk' : (enter ctx m).kstacks st = some saved := (enter_kstacks hst).trans hk
        have hj := (exit_jumps (enter ctx m) status hact (by simp [enter, hpar]) hbuf).2 saved hk' hnum
        obtain ⟨hcur, -, hother, -, -, -, hmode⟩ := resume_eq saved (exited status (enter ctx m))
        refine ⟨_, saved, ?_, hk, hnum, hmode, hcur.trans hself, ?_⟩
        · rw [step_syscall hu]
          simp only [sysDispatch, hj]
        · rw [Machine.state, hother m.cur (by rw [hself]; exact Ne.symm hne)]
          have hself := (exitCurrent_slots status (enter ctx m).kernel).2.1
          exact congrArg Process.state hself
      · exact absurd rfl hcur
    · exact absurd hh (hno n st s m.cur)

/-- The shell forks, waits, and its child runs. -/
def childRuns : Machine := afterInputs [forks 10, waits, .turn] booted

theorem childRuns_reaches : Reaches (fun _ _ => True) childRuns :=
  booted_reaches.afterInputs fun _ _ _ => trivial

theorem exit_returns_childRuns :
    childRuns.mode = .user ∧ lastActivation childRuns.cur childRuns.history = some (0, 1, 0) ∧
    (ExitReturns 0 1 0 childRuns ↔
      childRuns.history.head? = some (.activated 0 1 0 childRuns.cur) ∧ 1 ≠ childRuns.tssRsp0) := by
  have hu : childRuns.mode = .user := rfl
  have ha : lastActivation childRuns.cur childRuns.history = some (0, 1, 0) := by decide
  exact ⟨hu, ha, exit_returns childRuns_reaches hu ha⟩

/-- The shell waits for a child; the child waits for one of its own, which exits, and is reaped. -/
def grandchildReaped : Machine :=
  afterInputs [forks 10, waits, .turn, forks 20, waits, .turn, exits, .turn] booted

/-- Then the flag is down, and an exit of the child does not return to the shell. -/
theorem nested_exit_lost : ¬ ∀ m, Reaches (fun _ _ => True) m → m.mode = .user → ∀ n st s,
    lastActivation m.cur m.history = some (n, st, s) → ExitReturns n st s m := by
  intro h
  have hr : Reaches (fun _ _ => True) grandchildReaped := booted_reaches.afterInputs fun _ _ _ => trivial
  have ha : lastActivation grandchildReaped.cur grandchildReaped.history = some (0, 1, 0) := by
    decide
  have hoff : grandchildReaped.forkJmpActive = false := by decide
  have := (h _ hr rfl 0 1 0 ha).1
  rw [hoff] at this
  exact Bool.false_ne_true this

end TypeOS.Sched
