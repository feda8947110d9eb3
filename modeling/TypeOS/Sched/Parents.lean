import TypeOS.Sched.Nested

/-! Whether a `parent` pointer leads to the task that forked.

    The pointer is to a slot of `tasks`, and a slot is given up when its zombie is reaped. A zombie may
    be a parent still; its children are not told. So the links are good up to the first wait that
    reaps such a zombie. A jump that comes back to a dead task takes its slot into use again, and finds
    the link that the slot was given up with. -/

namespace TypeOS.Sched

open Proc Kernel

variable {m m' : Machine} {k k' k'' : Kernel} {f : Frame} {i : Input} {t s : Tid} {z : Option Tid}

/-- The parent of a slot is there, with the pid that was noted at the fork. -/
def Linked (k : Kernel) (t : Tid) : Prop := ∀ s, (k.tasks t).parent = some s →
  (k.tasks s).state ≠ .unused ∧ (k.tasks s).pid = (k.tasks t).ppid

/-- The parent of every task that is there is the task that forked it. -/
def Genuine (k : Kernel) : Prop := ∀ t, (k.tasks t).state ≠ .unused → Linked k t

/-- No wait takes a zombie that is the parent of a task. -/
def TakesNoParent (i : Input) (m : Machine) : Prop :=
  ∀ f, i = .turn → m.mode = .kernel f → ∀ z, takes f m.kernel = some z →
    ∀ t, m.state t ≠ .unused → (m.kernel.tasks t).parent ≠ some z

theorem takesNoParent_of_ne (hi : i ≠ .turn) : TakesNoParent i m := fun _ h => absurd h hi

/-! ### Links -/

/-- The links are the same, and who was there still is. -/
structure SameLinks (k k' : Kernel) : Prop where
  pid : ∀ t, (k'.tasks t).pid = (k.tasks t).pid
  parent : ∀ t, (k'.tasks t).parent = (k.tasks t).parent
  ppid : ∀ t, (k'.tasks t).ppid = (k.tasks t).ppid
  present : ∀ t, (k.tasks t).state ≠ .unused → (k'.tasks t).state ≠ .unused

theorem SameLinks.trans (h : SameLinks k k') (h' : SameLinks k' k'') : SameLinks k k'' :=
  ⟨fun t => (h'.pid t).trans (h.pid t), fun t => (h'.parent t).trans (h.parent t),
    fun t => (h'.ppid t).trans (h.ppid t), fun t ht => h'.present t (h.present t ht)⟩

theorem SameLinks.onTask (t : Tid) (f : Process → Process)
    (hf : ∀ p, (f p).pid = p.pid ∧ (f p).parent = p.parent ∧ (f p).ppid = p.ppid)
    (hs : (k.tasks t).state ≠ .unused → (f (k.tasks t)).state ≠ .unused) :
    SameLinks k (k.onTask t f) := by
  refine ⟨fun u => ?_, fun u => ?_, fun u => ?_, fun u hu => ?_⟩ <;>
    rcases eq_or_ne u t with rfl | hne
  · rw [onTask_tasks_self, (hf _).1]
  · rw [onTask_tasks_ne hne]
  · rw [onTask_tasks_self, (hf _).2.1]
  · rw [onTask_tasks_ne hne]
  · rw [onTask_tasks_self, (hf _).2.2]
  · rw [onTask_tasks_ne hne]
  · rw [onTask_tasks_self]
    exact hs hu
  · rw [onTask_tasks_ne hne]
    exact hu

theorem SameLinks.setState (t : Tid) {state : TaskState} (hs : state ≠ .unused) :
    SameLinks k (k.setState t state) := .onTask t _ (fun _ => ⟨rfl, rfl, rfl⟩) fun _ => hs

theorem SameLinks.exitCurrent (status : Int) (k : Kernel) : SameLinks k (exitCurrent status k) := by
  obtain ⟨-, hself, hother⟩ := exitCurrent_slots status k
  refine ⟨fun t => ?_, fun t => ?_, fun t => ?_, fun t ht => ?_⟩ <;>
    rcases eq_or_ne t k.currentTask with rfl | hne
  · rw [hself]
  · rcases hother t hne with h | ⟨-, -, h⟩ <;> rw [h]
  · rw [hself]
  · rcases hother t hne with h | ⟨-, -, h⟩ <;> rw [h]
  · rw [hself]
  · rcases hother t hne with h | ⟨-, -, h⟩ <;> rw [h]
  · rw [hself]
    simp
  · rcases hother t hne with h | ⟨-, -, h⟩ <;> rw [h]
    · exact ht
    · simp

theorem SameLinks.linked (h : SameLinks k k') (hl : Linked k t) : Linked k' t := by
  intro s hs
  rw [h.parent] at hs
  obtain ⟨hthere, hpid⟩ := hl s hs
  exact ⟨h.present s hthere, by rw [h.pid, h.ppid, hpid]⟩

theorem Genuine.links (h : Genuine k) (hl : SameLinks k k')
    (hold : ∀ t, (k'.tasks t).state ≠ .unused → (k.tasks t).state ≠ .unused ∨ Linked k t) :
    Genuine k' := fun t ht => hl.linked ((hold t ht).elim (h t) id)

/-! ### What is saved for a jump -/

/-- A task that a jump may bring back: it is there, or was reaped by a parent that is alive. -/
def Kept (k : Kernel) (t : Tid) : Prop := (k.tasks t).state ≠ .unused ∨
  ∀ s, (k.tasks t).parent = some s → (k.tasks s).Live ∧ (k.tasks s).pid = (k.tasks t).ppid

theorem Kept.linked (h : Kept k t) (hg : Genuine k) : Linked k t := by
  rcases h with ht | hs
  · exact hg t ht
  · exact fun s hp => ⟨(hs s hp).1.1, (hs s hp).2⟩

theorem Kept.links (h : Kept k t) (hl : SameLinks k k')
    (hlive : ∀ s, (k.tasks s).Live → (k'.tasks s).Live) : Kept k' t := by
  refine h.imp (hl.present t) fun hs s hp => ?_
  rw [hl.parent] at hp
  exact ⟨hlive s (hs s hp).1, by rw [hl.pid, hl.ppid, (hs s hp).2]⟩

/-- The links are good, and stay so when a jump comes back. -/
structure Kinship (m : Machine) : Prop where
  genuine : Genuine m.kernel
  present : m.state m.cur ≠ .unused
  suspended : m.forkJmpActive = true → ∀ st n saved, m.forkJmpBuf = some (st, n) →
    m.kstacks st = some saved → Kept m.kernel saved.self

/-! ### The current task works on -/

theorem SlotStep.live {p p' : Process} (h : SlotStep z k t p p') (hp : p.Live) :
    p'.Live ∧ p'.kin = p.kin := by
  cases h with
  | same state kin => exact ⟨⟨by rw [state]; exact hp.1, by rw [state]; exact hp.2⟩, kin⟩
  | woken _ state kin => exact ⟨⟨by simp [state], by simp [state]⟩, kin⟩
  | reaped _ was => exact absurd was hp.2
  | forked was => exact absurd was hp.1

/-- A task that is there and is not reaped stays. -/
theorem SlotStep.stays {p p' : Process} (h : SlotStep z k t p p') (hp : p.state ≠ .unused)
    (hz : z ≠ some t) : p'.state ≠ .unused ∧ p'.kin = p.kin := by
  cases h with
  | same state kin => exact ⟨by rwa [state], kin⟩
  | woken _ state kin => exact ⟨by simp [state], kin⟩
  | reaped taken => exact absurd taken hz
  | forked was => exact absurd was hp

/-- A child of the current task is linked to it. -/
theorem Works.childOf (w : Works z m m') (hc : (m.kernel.tasks m.cur).Live) {p : Process}
    (hu : (m.kernel.tasks t).state = .unused) (h : ChildOf m.kernel t p) :
    p.parent = some m.cur ∧ (m'.kernel.tasks m.cur).Live ∧ (m'.kernel.tasks m.cur).pid = p.ppid := by
  obtain ⟨hlive, hkin⟩ := (w.slot m.cur).live hc
  have hne : t ≠ m.cur := by
    rintro rfl
    exact hc.1 hu
  exact ⟨h.parent, hlive, by rw [Process.kin_pid hkin, h.ppid hne]⟩

theorem Genuine.works (h : Genuine m.kernel) (hc : (m.kernel.tasks m.cur).Live) (w : Works z m m')
    (hz : ∀ c, z = some c → ∀ t, m.state t ≠ .unused → (m.kernel.tasks t).parent ≠ some c) :
    Genuine m'.kernel := by
  intro t ht s hs
  have hold : m.state t ≠ .unused → (m'.kernel.tasks t).kin = (m.kernel.tasks t).kin →
      (m'.kernel.tasks s).state ≠ .unused ∧
        (m'.kernel.tasks s).pid = (m'.kernel.tasks t).ppid := by
    intro hthere hkin
    rw [Process.kin_parent hkin] at hs
    obtain ⟨hst, hpid⟩ := h t hthere s hs
    obtain ⟨hst', hkin'⟩ := (w.slot s).stays hst fun hzs => hz s hzs t hthere hs
    exact ⟨hst', by rw [Process.kin_pid hkin', Process.kin_ppid hkin, hpid]⟩
  cases w.slot t with
  | same state kin => exact hold (by rwa [Machine.state, ← state]) kin
  | woken was _ kin => exact hold (by simp [Machine.state, was]) kin
  | reaped _ _ _ state => exact absurd state ht
  | forked was born =>
    rcases born.2 with ⟨hu, -⟩ | hchild
    · exact absurd hu ht
    · obtain ⟨hpar, hlive, hpid⟩ := w.childOf hc was hchild
      rw [hpar, Option.some.injEq] at hs
      subst hs
      exact ⟨hlive.1, hpid⟩

theorem Kept.works (h : Kept m.kernel t) (hg : Genuine m.kernel) (hc : (m.kernel.tasks m.cur).Live)
    (w : Works z m m') : Kept m'.kernel t := by
  cases w.slot t with
  | same state kin =>
    refine h.imp (fun ht => by rwa [state]) fun hs s hp => ?_
    rw [Process.kin_parent kin] at hp
    obtain ⟨hlive, hpid⟩ := hs s hp
    obtain ⟨hlive', hkin'⟩ := (w.slot s).live hlive
    exact ⟨hlive', by rw [Process.kin_pid hkin', Process.kin_ppid kin, hpid]⟩
  | woken _ state => exact Or.inl (by simp [state])
  | reaped _ was child _ kin =>
    -- the parent that reaps it is the current task
    refine Or.inr fun s hp => ?_
    rw [Process.kin_parent kin, child, Option.some.injEq] at hp
    subst hp
    obtain ⟨hlive', hkin'⟩ := (w.slot m.cur).live hc
    refine ⟨hlive', ?_⟩
    rw [Process.kin_pid hkin', Process.kin_ppid kin]
    exact (hg t (by simp [was]) _ child).2
  | forked was born =>
    refine Or.inr fun s hp => ?_
    rcases born.2 with ⟨-, hnone⟩ | hchild
    · rw [hnone] at hp
      cases hp
    · obtain ⟨hpar, hlive, hpid⟩ := w.childOf hc was hchild
      rw [hpar, Option.some.injEq] at hp
      subst hp
      exact ⟨hlive, hpid⟩

theorem Kinship.works (h : Kinship m) (hr : m.state m.cur = .running) (w : Works z m m')
    (hz : ∀ c, z = some c → ∀ t, m.state t ≠ .unused → (m.kernel.tasks t).parent ≠ some c) :
    Kinship m' := by
  have hc : (m.kernel.tasks m.cur).Live := by
    rw [Machine.state] at hr
    exact ⟨by simp [hr], by simp [hr]⟩
  refine ⟨h.genuine.works hc w hz, ?_, fun hact st n saved hbuf hst => ?_⟩
  · rw [w.cur]
    exact ((w.slot m.cur).live hc).1.1
  · rw [w.active] at hact
    rw [w.buf] at hbuf
    refine (h.suspended hact st n saved hbuf ?_).works h.genuine hc w
    rcases w.stack st with heq | ⟨-, hnone⟩
    · rw [← heq, hst]
    · rw [hnone] at hst
      cases hst

/-! ### Another task goes on -/

theorem procRunRunnable_links (hp : procRunRunnable f m = some m') : SameLinks m.kernel m'.kernel := by
  unfold procRunRunnable at hp
  split at hp
  · cases hp
  · next t _ =>
    rw [Option.some.injEq] at hp
    subst hp
    obtain ⟨n, hn⟩ := gdtSetRsp0_eq t m
    simp only [procActivate, hn]
    exact { @SameLinks.setState m.kernel t .running (by decide) with }

theorem Kinship.activate (h : Kinship m) (hp : procRunRunnable f m = some m') : Kinship m' := by
  have hl := procRunRunnable_links hp
  rcases procRunRunnable_cases f m with ⟨hn, -⟩ | ⟨t, m₁, hs, ht, -, hcur, hst, hother, -, -, -, hbuf, -,
    hstacks, -⟩
  · rw [hn] at hp
    cases hp
  rw [hs, Option.some.injEq] at hp
  subst hp
  refine ⟨h.genuine.links hl fun u hu => ?_, by rw [hcur, hst]; decide, fun _ st n saved hb hk => ?_⟩
  · rcases eq_or_ne u t with rfl | hne
    · refine Or.inl ?_
      rw [Machine.state] at ht
      rw [ht]
      decide
    · rw [hother u hne] at hu
      exact Or.inl hu
  · rw [hbuf, Option.some.injEq, Prod.mk.injEq] at hb
    obtain ⟨rfl, -⟩ := hb
    rw [hstacks, Function.update_self, Option.some.injEq] at hk
    subst hk
    exact Or.inl (hl.present m.cur h.present)

/-- Two slots are marked, of tasks that are alive. -/
theorem Kinship.block (h : Kinship m) (hc : (m.kernel.tasks m.cur).Live) :
    Kinship (schedBlockCurrent f m) := by
  have hmark : SameLinks m.kernel (markBlocked f m).kernel := SameLinks.setState m.cur (by decide)
  have hlive : ∀ {k : Kernel} {state : TaskState} (t : Tid), state ≠ .unused → state ≠ .zombie →
      ∀ s, (k.tasks s).Live → ((k.setState t state).tasks s).Live := by
    intro k state t hu hz s hs
    rcases eq_or_ne s t with rfl | hne
    · rw [setState, onTask_tasks_self]
      exact ⟨hu, hz⟩
    · rw [setState, onTask_tasks_ne hne]
      exact hs
  have hold : ∀ {k : Kernel} {state : TaskState} (t u : Tid), (k.tasks t).state ≠ .unused →
      ((k.setState t state).tasks u).state ≠ .unused → (k.tasks u).state ≠ .unused := by
    intro k state t u ht hu
    rcases eq_or_ne u t with rfl | hne
    · exact ht
    · rwa [setState, onTask_tasks_ne hne] at hu
  have hg : Genuine (markBlocked f m).kernel :=
    h.genuine.links hmark fun u hu => Or.inl (hold m.cur u hc.1 hu)
  rcases schedBlockCurrent_cases f m with ⟨m', hp, heq⟩ | ⟨-, ⟨rr, heq⟩ | ⟨next, rr, n, hne, hst, -, heq⟩⟩ <;>
    rw [heq]
  · exact h.activate hp
  · refine ⟨hg, hmark.present _ h.present, fun hact st n saved hb hk => ?_⟩
    exact (h.suspended hact st n saved hb hk).links hmark (hlive m.cur (by decide) (by decide))
  · have hnext : ((markBlocked f m).kernel.tasks next).state ≠ .unused := by
      have : (markBlocked f m).kernel.tasks next = m.kernel.tasks next := Function.update_of_ne hne ..
      rw [this]
      rw [Machine.state] at hst
      rw [hst]
      decide
    have hswitch : SameLinks (markBlocked f m).kernel
        ((markBlocked f m).kernel.setState next .running) := SameLinks.setState next (by decide)
    refine ⟨fun u hu => ?_, ?_, fun hact st n saved hb hk => ?_⟩
    · exact hswitch.linked (hg u (hold next u hnext hu))
    · exact hswitch.present next hnext
    · have hkept := (h.suspended hact st _ saved hb hk).links hmark
        (hlive m.cur (by decide) (by decide))
      have hkept' := hkept.links hswitch (hlive next (by decide) (by decide))
      exact hkept'

theorem resume_links (saved : Saved) (m : Machine) : SameLinks m.kernel (resume saved m).kernel := by
  obtain ⟨n, hn⟩ := gdtSetRsp0_eq saved.self m
  simp only [resume, procActivate, hn]
  exact { @SameLinks.setState m.kernel saved.self .running (by decide) with }

/-- An exit comes back to a task whose link is good, or to none. -/
theorem Kinship.exit (h : Kinship m) (hn : Nest m) (status : Int) :
    Genuine (sysExit status m).kernel ∧
      ((sysExit status m).mode = .wild ∨ Kinship (sysExit status m)) := by
  obtain ⟨hcur, hself, hother⟩ := exitCurrent_slots status m.kernel
  have hl : SameLinks m.kernel (exited status m).kernel := .exitCurrent status m.kernel
  have hold : ∀ u, ((exited status m).kernel.tasks u).state ≠ .unused → m.state u ≠ .unused := by
    intro u hu
    change ((exitCurrent status m.kernel).tasks u).state ≠ .unused at hu
    rcases eq_or_ne u m.cur with rfl | hne
    · exact h.present
    · rcases hother u hne with heq | ⟨hb, -, -⟩
      · rwa [heq] at hu
      · simp [Machine.state, hb]
  have hg : Genuine (exited status m).kernel := h.genuine.links hl fun u hu => Or.inl (hold u hu)
  rcases sysExit_cases status m with ⟨hact, -, heq⟩ | ⟨hoff, heq⟩ <;> rw [heq]
  · rcases longjmp_cases (exited status m) with hw | ⟨st, n, saved, hb, hk, -, hj⟩
    · rw [hw]
      exact ⟨hg, Or.inl rfl⟩
    · rw [hj]
      obtain ⟨hcur', hrun, hother', hoff, -⟩ := resume_eq saved (exited status m)
      have hl' := resume_links saved (exited status m)
      have hg' : Genuine (resume saved (exited status m)).kernel := by
        refine hg.links hl' fun u hu => ?_
        rcases eq_or_ne u saved.self with rfl | hne
        · exact Or.inr (hl.linked ((h.suspended hact st n saved hb hk).linked h.genuine))
        · rw [hother' u hne] at hu
          exact Or.inl hu
      refine ⟨hg', Or.inr ⟨hg', by rw [hcur', hrun]; decide, fun hact' => ?_⟩⟩
      rw [hoff] at hact'
      cases hact'
  · refine ⟨hg, Or.inr ⟨hg, ?_, fun hact => ?_⟩⟩
    · simp only [exited, Machine.state, Machine.cur]
      rw [hcur, hself]
      simp
    · rcases hn.jump with ⟨-, _, _, _, _, -, hpar, -⟩ | ⟨hf, -⟩
      · change m.forkJmpActive = true at hact
        rw [hact, hpar] at hoff
        simp at hoff
      · change m.forkJmpActive = true at hact
        rw [hf] at hact
        cases hact

/-! ### Runs -/

/-- One turn of a call. -/
theorem Kinship.turn (h : Kinship m) (hn : Nest m) (hm : m.mode = .kernel f)
    (hz : ∀ c, takes f m.kernel = some c → ∀ t, m.state t ≠ .unused →
      (m.kernel.tasks t).parent ≠ some c) : Kinship (turn f m) := by
  rcases eq_or_ne f.call .exiting with hf | hf
  · have ht : Sched.turn f m = waitInKernel f m := by
      simp only [Sched.turn, callTurn_exiting m hf]
    rw [ht]
    simp only [waitInKernel, hf]
    split
    · next hp => exact h.activate hp
    · exact ⟨h.genuine, h.present, h.suspended⟩
  have hrun := hn.running (Or.inr ⟨f, hm, hf⟩)
  have hw := callTurn_works f m
  rcases turn_cases f m with ⟨r, -, ht⟩ | ⟨n, -, ht⟩ | ⟨-, ht⟩ <;> rw [ht]
  · exact h.works hrun (hw.after _ r) hz
  · exact h.works hrun { hw with } hz
  · have hblock : waitInKernel f (callTurn f m).2 = schedBlockCurrent f (callTurn f m).2 := by
      unfold waitInKernel
      split
      · next he => exact absurd he hf
      · rfl
    have hlive := (hw.slot m.cur).live (by
      rw [Machine.state] at hrun
      exact ⟨by simp [hrun], by simp [hrun]⟩)
    rw [hblock]
    refine (h.works hrun hw hz).block ?_
    rw [hw.cur]
    exact hlive.1

/-- What a step leaves. -/
theorem Kinship.step (h : Kinship m) (hn : Nest m) (hm : TakesNoParent i m)
    (hs : step i m = some m') : Genuine m'.kernel ∧ (m'.mode = .wild ∨ Kinship m') := by
  have hall : ∀ {m' : Machine}, Kinship m' → Genuine m'.kernel ∧ (m'.mode = .wild ∨ Kinship m') :=
    fun hk => ⟨hk.genuine, Or.inr hk⟩
  have hnone : ∀ c, (none : Option Tid) = some c → ∀ t, m.state t ≠ .unused →
      (m.kernel.tasks t).parent ≠ some c := fun c hc => absurd hc (by simp)
  rcases step_cases hs with ⟨ctx, ans, sys, -, hu, hd⟩ | ⟨f, rfl, hk, rfl⟩ |
    ⟨f, -, hi, ⟨-, hp | ⟨-, rfl⟩⟩ | ⟨hb, -⟩⟩ | ⟨scancode, -, rfl⟩
  · have hrun := hn.running (Or.inl hu)
    by_cases hx : ∃ status, sys = .exit status
    · obtain ⟨status, rfl⟩ := hx
      simp only [sysDispatch, Option.some.injEq] at hd
      subst hd
      have hw := Works.of_enter (Works.refl none (enter ctx m))
      exact (h.works hrun hw hnone).exit (hn.works hw hrun (by simp [enter, hu])) status
    · exact hall (h.works hrun (sysDispatch_works hd fun status hst => hx ⟨status, hst⟩).1 hnone)
  · exact hall (h.turn hn hk (hm f rfl hk))
  · exact hall (h.activate hp)
  · exact hall h
  · exact absurd (hn.idle f hi).1 hb
  · exact hall ⟨h.genuine, h.present, h.suspended⟩

/-- A zombie that is taken leaves its slot, and its children stay. -/
theorem takes_some {c : Tid} (h : takes f m.kernel = some c) :
    m.state c = .zombie ∧ (m.kernel.tasks c).parent = some m.cur ∧
      ∃ r, turn f m = schedAfterSyscall f.owner r (callTurn f m).2 ∧
        (callTurn f m).2.state c = .unused := by
  cases hc : f.call with
  | read p count buf => simp [takes, hc] at h
  | write p buf n => simp [takes, hc] at h
  | console bufOk => simp [takes, hc] at h
  | exiting => simp [takes, hc] at h
  | wait pid statusOk =>
    simp only [takes, hc] at h
    obtain ⟨hz, hp, -⟩ := zombieChild_some h
    rcases procForkTakeStatus_cases pid m.kernel with ⟨hn, -⟩ | ⟨z, hz', heq⟩
    · rw [h] at hn
      cases hn
    rw [h, Option.some.injEq] at hz'
    subst hz'
    refine ⟨hz, hp, if statusOk then (m.kernel.tasks c).pid else eFault, ?_, ?_⟩
    · simp only [turn, callTurn, hc, waitTurn, heq]
    · simp only [callTurn, hc, waitTurn, heq, Machine.state]
      rw [setState, onTask_tasks_self]

/-- After a zombie with children has been taken, the links are no longer good. -/
theorem takesNoParent_of_genuine (hn : Nest m) (hs : step i m = some m') (hg : Genuine m'.kernel) :
    TakesNoParent i m := by
  rintro f rfl hm c hc t ht hp
  simp only [step, hm, Option.some.injEq] at hs
  obtain ⟨hz, hparent, r, hturn, hgone⟩ := takes_some hc
  have hw := (callTurn_works f m).after f.owner r
  rw [← hturn, hs] at hw
  have hne : c ≠ t := by
    rintro rfl
    rw [hparent, Option.some.injEq] at hp
    have hf : f.call ≠ .exiting := by
      intro he
      simp [takes, he] at hc
    have hrun := hn.running (Or.inr ⟨f, hm, hf⟩)
    rw [hp, hz] at hrun
    cases hrun
  obtain ⟨ht', hkin⟩ := (hw.slot t).stays ht fun h => hne (Option.some.inj (hc.symm.trans h))
  refine (hg t ht' c ((Process.kin_parent hkin).trans hp)).1 ?_
  rw [← hs, hturn]
  exact (schedAfterSyscall_state ..).trans hgone

theorem Kinship.boot (ans : Answers) (live : Finset Handle) (files : Handle → VfsFile) (pml4 : Nat) :
    Kinship (gdtSetRsp0 0 (Machine.boot ans live files pml4)) := by
  obtain ⟨n, hn, hfirst, hrun⟩ := boot_spec ans live files pml4
  rw [hn]
  refine ⟨fun t ht s hs => ?_, ?_, fun hact => ?_⟩
  · rcases eq_or_ne t 0 with rfl | ht0
    · exact absurd (hfirst.parent.symm.trans hs) (by simp)
    · exact absurd (Process.core_state (hfirst.other t ht0)) ht
  · intro hu
    have hu : (Machine.boot ans live files pml4).state (Machine.boot ans live files pml4).cur = .unused :=
      hu
    rw [Machine.cur, hfirst.cur, hrun] at hu
    cases hu
  · exact absurd hact (by simp [Machine.boot])

theorem Reaches.kinship (hr : Reaches TakesNoParent m) :
    Genuine m.kernel ∧ (m.mode = .wild ∨ Kinship m) := by
  induction hr with
  | boot ans live files pml4 =>
    have h := Kinship.boot ans live files pml4
    exact ⟨h.genuine, Or.inr h⟩
  | @step m m' i hr hm hs ih =>
    have hwild : m.mode = .wild → Genuine m'.kernel ∧ (m'.mode = .wild ∨ Kinship m') := by
      intro hw
      obtain ⟨_, kb, -, rfl⟩ := step_stopped (Or.inl hw) hs
      exact ⟨ih.1, Or.inl hw⟩
    rcases ih.2 with hw | hk
    · exact hwild hw
    · rcases hr.nest with hw | hn
      · exact hwild hw
      · exact hk.step hn hm hs

/-- The children that `proc_has_children` finds and the zombies that `proc_fork_take_status` takes are
    those of the task that asks. -/
def OwnChildren (k : Kernel) : Prop :=
  (procHasChildren k = true → ∃ t, (k.tasks t).state ≠ .unused ∧
    (k.tasks t).parent = some k.currentTask ∧ (k.tasks t).ppid = (k.tasks k.currentTask).pid) ∧
  ∀ pid t, zombieChild pid k = some t → (k.tasks t).ppid = (k.tasks k.currentTask).pid

theorem Genuine.ownChildren (h : Genuine k) : OwnChildren k := by
  have hown : ∀ t, (k.tasks t).state ≠ .unused → (k.tasks t).parent = some k.currentTask →
      (k.tasks t).ppid = (k.tasks k.currentTask).pid := fun t ht hp => (h t ht _ hp).2.symm
  refine ⟨fun hc => ?_, fun pid t ht => ?_⟩
  · rw [procHasChildren, Bool.or_eq_true, Option.isSome_iff_exists, Option.isSome_iff_exists] at hc
    rcases hc with ⟨t, ht⟩ | ⟨t, ht⟩
    · have := firstSlot_some ht
      rw [decide_eq_true_eq] at this
      exact ⟨t, this.1, this.2.1, hown t this.1 this.2.1⟩
    · have := firstSlot_some ht
      rw [decide_eq_true_eq] at this
      have hu : (k.tasks t).state ≠ .unused := by simp [this.1]
      exact ⟨t, hu, this.2, hown t hu this.2⟩
  · obtain ⟨hz, hp, -⟩ := zombieChild_some ht
    exact hown t (by simp [hz]) hp

/-- In every run in which no wait takes a zombie that is the parent of a task, every parent is the task
    that forked its child; and a wait that takes one ends it. -/
theorem parents_genuine (hr : Reaches TakesNoParent m) :
    (Genuine m.kernel ∧ OwnChildren m.kernel) ∧
      ∀ i m', step i m = some m' → (Genuine m'.kernel ↔ TakesNoParent i m) := by
  have hall := hr.kinship
  refine ⟨⟨hall.1, hall.1.ownChildren⟩, fun i m' hs => ⟨fun hg => ?_, fun hm => ?_⟩⟩
  · rcases hr.nest with hw | hn
    · rintro f rfl hf
      rw [hw] at hf
      cases hf
    · exact takesNoParent_of_genuine hn hs hg
  · exact (hr.step i hm hs).kinship.1

theorem parents_genuine_childMade : (childMade.kernel.tasks 1).parent = some 0 ∧
    childMade.state 0 ≠ .unused ∧ (childMade.kernel.tasks 0).pid = (childMade.kernel.tasks 1).ppid := by
  have hr : Reaches TakesNoParent childMade := booted_reaches.afterInputs fun i hi _ =>
    takesNoParent_of_ne (by rw [List.mem_singleton.mp hi, forks, calls]; simp)
  have hp : (childMade.kernel.tasks 1).parent = some 0 := by decide
  exact ⟨hp, (parents_genuine hr).1.1 1 (by decide) 0 hp⟩

/-- The shell forks and waits, its child forks and exits, the shell takes the child. -/
def orphaned : Machine := afterInputs [forks 10, waits, .turn, forks 50, exits, .turn] booted

/-- The task that the child has forked has an unused slot for a parent. -/
theorem orphan_of_unused : ¬ ∀ m, Reaches (fun _ _ => True) m → Genuine m.kernel := by
  intro h
  have hg := h orphaned (booted_reaches.afterInputs fun _ _ _ => trivial)
  have hthere : orphaned.state 2 ≠ .unused := by decide
  have hparent : (orphaned.kernel.tasks 2).parent = some 1 := by decide
  exact (hg 2 hthere 1 hparent).1 (by decide)

end TypeOS.Sched
