import TypeOS.Proc.Fifo
import TypeOS.Sched.OneRunning

/-! Who may sleep: a blocked task has nothing to wake up for.

    A task blocks at the end of a turn that found nothing: no byte in its pipe, no key in the ring, no
    zombie child. Each of the three comes about in one place of the kernel, and each of these places
    wakes whoever may wait for it: `pipe_write` and `keyboard_push` wake everybody, `proc_wake_parent`
    the parent of the task that exits. So a blocked reader of a pipe that holds bytes, of the keyboard
    while a key is there, and a blocked `wait4` with a zombie to take never come about, whatever the
    tasks call and however their kernel stacks are nested. Of a writer nothing is said: `pipe_read`
    makes room for it and wakes nobody. -/

namespace TypeOS.Proc

open Kernel

variable {k k' : Kernel} {ans : Answers}

/-- No pipe holds more than before. -/
def Drains (k k' : Kernel) : Prop := ∀ p, (k'.pipes p).count ≤ (k.pipes p).count

theorem Drains.refl (k : Kernel) : Drains k k := fun _ => le_rfl

theorem Drains.of_pipes (h : k'.pipes = k.pipes) : Drains k k' := fun p => (congrFun h p ▸ le_rfl)

theorem Drains.onPipe (h : Drains k k') {p : PipeId} {f : Pipe → Pipe}
    (hf : (f (k'.pipes p)).count ≤ (k'.pipes p).count) : Drains k (k'.onPipe p f) := by
  intro q
  by_cases hq : q = p
  · subst hq
    rw [onPipe_pipes_self]
    exact hf.trans (h q)
  · rw [onPipe_pipes_ne hq]
    exact h q

theorem Drains.pipeFree (h : Drains k k') {p : PipeId} : Drains k (procPipeFree p k') :=
  h.onPipe le_rfl

theorem Drains.closeEnd (h : Drains k k') {a : Handle} : Drains k (closeEnd a k') := by
  unfold Proc.closeEnd
  split
  · exact h
  · next p _ =>
    have hun : (uncountEnd (k'.files a) (k'.pipes p)).count ≤ (k'.pipes p).count := by
      unfold uncountEnd
      split
      · exact le_rfl
      · split <;> exact le_rfl
    dsimp only
    split
    · exact (h.onPipe hun).pipeFree
    · exact h.onPipe hun

/-- Every pipe holds what it held, and has lost no end. -/
def Widens (k k' : Kernel) : Prop := ∀ p, (k'.pipes p).count = (k.pipes p).count ∧
  (k.pipes p).readers ≤ (k'.pipes p).readers ∧ (k.pipes p).writers ≤ (k'.pipes p).writers

theorem Widens.drains (h : Widens k k') : Drains k k' := fun p => (h p).1.le

theorem Widens.refl (k : Kernel) : Widens k k := fun _ => ⟨rfl, le_rfl, le_rfl⟩

theorem Widens.of_pipes (h : k'.pipes = k.pipes) : Widens k k' := by
  intro p
  rw [h]
  exact ⟨rfl, le_rfl, le_rfl⟩

theorem Widens.copyFile (h : Widens k k') {src dst : Handle} : Widens k (copyFile src dst k') := by
  intro p
  obtain ⟨pipes, heq, hp⟩ := countEnd_eq (k'.files src) (k'.setFile dst (k'.files src))
  obtain ⟨-, hcount, hreaders, hwriters⟩ := hp p
  obtain ⟨hc, hr, hw⟩ := h p
  rw [Proc.copyFile, heq]
  refine ⟨hcount.trans hc, ?_, ?_⟩
  · exact hr.trans (hreaders ▸ Nat.le_add_right ..)
  · exact hw.trans (hwriters ▸ Nat.le_add_right ..)

theorem widens_dropTarget (freed : VfsFile) (fd : Fd) (k : Kernel) : Widens k (dropTarget freed fd k) := by
  unfold dropTarget
  split <;> exact .refl k

theorem widens_fdAlloc (answer : Option Handle) (k : Kernel) : Widens k (fdAlloc answer k).2 := by
  rcases fdAlloc_cases answer k with h | ⟨fd, a, -, -, h⟩ <;> rw [h]
  · exact .refl k
  · exact .refl k

theorem widens_fdDupTo (oldfd newfd : Int) : Widens k (fdDupTo ans oldfd newfd k).2 := by
  unfold fdDupTo
  split
  · exact .refl k
  · split
    · rcases fdAlloc_cases (ans.kmalloc 0) k with hm | ⟨fd, dst, -, -, hm⟩ <;> rw [hm]
      · exact .refl k
      · refine Widens.copyFile ?_
        exact .refl k
    · split
      · exact .refl k
      · next fd _ =>
        have h := widens_dropTarget ans.freed fd k
        rcases kmalloc_cases (ans.kmalloc 0) (dropTarget ans.freed fd k) with
          hm | ⟨dst, -, -, hm⟩ <;> rw [hm]
        · exact h
        · refine Widens.copyFile ?_
          exact h

theorem widens_fdDupFrom (oldfd minfd : Int) : Widens k (fdDupFrom ans oldfd minfd k).2 := by
  unfold fdDupFrom
  split
  · split
    · exact .refl k
    · rcases kmalloc_cases (ans.kmalloc 0) k with hm | ⟨dst, -, -, hm⟩ <;> rw [hm]
      · exact .refl k
      · refine Widens.copyFile ?_
        exact .refl k
  · exact .refl k

theorem widens_sysOpenPath (path : String) (node : Option Nat) :
    Widens k (sysOpenPath ans path node k).2 := by
  have h := widens_fdAlloc (ans.kmalloc 0) k
  unfold sysOpenPath
  split
  · next heq => rw [heq] at h; exact h
  · next heq =>
    rw [heq] at h
    split
    · exact h
    · split <;> exact h

theorem widens_forkFds (ans : Answers) (parent child : Tid) (l : List Fd) : ∀ {k k' : Kernel}, Widens k k' →
    Widens k (forEach (forkFd ans parent child) l k').2 := by
  induction l with
  | nil => exact fun h => h
  | cons fd l ih =>
    intro k k' h
    rw [forEach]
    cases hs : (k'.tasks parent).fds fd with
    | none =>
      have : forkFd ans parent child fd k' = (true, k') := by simp [forkFd, hs]
      rw [this]
      exact ih h
    | some src =>
      rcases kmalloc_cases (ans.kmalloc (fd.val + 1)) k' with hm | ⟨dst, -, -, hm⟩
      · have : forkFd ans parent child fd k' = (false, k') := by simp [forkFd, hs, hm]
        rw [this]
        exact h
      · have : forkFd ans parent child fd k' = (true, Proc.copyFile src dst
            ({ k' with live := insert dst k'.live }.setFd child fd (some dst))) := by
          simp only [forkFd, hs, hm]
        rw [this]
        refine ih (Widens.copyFile ?_)
        exact h

theorem widens_procFork : Widens k (procFork ans k).2 := by
  unfold procFork
  dsimp only
  rcases procAllocTask_cases (ans.kmalloc 0) k with ⟨k', heq, -, -, -, hp⟩ |
    ⟨c, k₁, h, heq, -, -, -, -, -, hp, -⟩ <;> rw [heq]
  · exact .of_pipes hp
  have h₁ : Widens k k₁ := .of_pipes hp
  dsimp only
  split
  · exact h₁
  · generalize hk₂ : (k₁.onTask c fun p =>
      forkSlot k.currentTask (k₁.tasks k.currentTask) p ans.cloneCr3) = k₂
    have h₂ : Widens k k₂ := hk₂ ▸ h₁
    have hloop := widens_forkFds ans k.currentTask c (List.finRange procMaxFd) h₂
    split
    · next heq => rw [heq] at hloop; exact hloop
    · next heq => rw [heq] at hloop; exact hloop

/-- The calls that return at once neither fill a pipe nor take an end off, but for `pipe` and `close`. -/
theorem widens_plain {c : Call} (hc : Sched.Plain c = true) (hp : ∀ ufdOk, c ≠ .pipe ufdOk)
    (hcl : ∀ fd, c ≠ .close fd) : Widens k (dispatch ans c k).2 := by
  cases c with
  | pipe ufdOk => exact absurd rfl (hp ufdOk)
  | dup oldfd => exact widens_fdDupTo oldfd (-1)
  | dup2 oldfd newfd =>
    simp only [dispatch, atOnce, sysDup2]
    split
    · exact .refl k
    · exact widens_fdDupTo oldfd newfd
  | fcntlDup oldfd minfd => exact widens_fdDupFrom oldfd minfd
  | openPath path node => exact widens_sysOpenPath path node
  | close fd => exact absurd rfl (hcl fd)
  | fork => exact widens_procFork
  | exec _ | exit _ | wait _ _ | read _ _ _ | write _ _ _ => simp [Sched.Plain] at hc

theorem drains_sysClose (fd : Int) : Drains k (sysClose ans fd k).2 := by
  unfold sysClose
  split
  · exact .refl k
  · split
    · exact .refl k
    · next a _ => exact Drains.closeEnd (a := a) (.refl k)

/-- A pipe that is handed out holds nothing. -/
theorem drains_sysPipe (ufdOk : Bool) : Drains k (sysPipe ans ufdOk k).2 := by
  unfold sysPipe
  rcases procPipeAlloc_cases k with hp | ⟨p, -, hp⟩ <;> rw [hp]
  · exact .refl k
  dsimp only
  have h₁ : Drains k (k.onPipe p fun _ => { Pipe.zero with inUse := true }) :=
    (Drains.refl k).onPipe (Nat.zero_le _)
  generalize (k.onPipe p fun _ => { Pipe.zero with inUse := true }) = k₁ at h₁
  rcases fdAlloc_cases (ans.kmalloc 0) k₁ with hm | ⟨rfd, rf, -, -, hm⟩ <;> rw [hm]
  · exact h₁.pipeFree
  have h₂ : Drains k (install k₁.currentTask rfd rf VfsFile.fresh k₁) := h₁
  generalize install k₁.currentTask rfd rf VfsFile.fresh k₁ = k₂ at h₂
  dsimp only
  rcases fdAlloc_cases (ans.kmalloc 1) k₂ with hm | ⟨wfd, wf, -, -, hm⟩ <;> rw [hm]
  · have hback : Drains k (Kernel.setFd k₂.currentTask rfd none (kfree ans.freed rf k₂)) := h₂
    exact hback.pipeFree
  have h₃ : Drains k (install k₂.currentTask wfd wf VfsFile.fresh k₂) := h₂
  generalize install k₂.currentTask wfd wf VfsFile.fresh k₂ = k₃ at h₃
  have h₄ : Drains k (k₃.onPipe p fun q => { q with readers := 1, writers := 1 }) := h₃.onPipe le_rfl
  dsimp only
  split
  · exact h₄
  · exact Drains.pipeFree h₄

/-- The calls that return at once put no byte into a pipe. -/
theorem drains_plain {c : Call} (hc : Sched.Plain c = true) : Drains k (dispatch ans c k).2 := by
  cases c with
  | pipe ufdOk => exact drains_sysPipe ufdOk
  | close fd => exact drains_sysClose fd
  | dup _ | dup2 _ _ | fcntlDup _ _ | openPath _ _ | fork =>
    exact (widens_plain hc (fun _ => Call.noConfusion) fun _ => Call.noConfusion).drains
  | exec _ | exit _ | wait _ _ | read _ _ _ | write _ _ _ => simp [Sched.Plain] at hc

theorem pipes_closeSlots (freed : VfsFile) (l : List Fd) : ∀ k : Kernel,
    (l.foldl (closeSlot freed) k).pipes = k.pipes := by
  induction l with
  | nil => exact fun _ => rfl
  | cons fd l ih =>
    intro k
    rw [List.foldl_cons, ih]
    unfold closeSlot
    split <;> rfl

theorem pipes_procExec (found : Bool) : (procExec ans found k).2.pipes = k.pipes := by
  have hclose : (procFdCloseAll ans.freed k).pipes = k.pipes := pipes_closeSlots ..
  unfold procExec
  split
  · dsimp only
    split <;> split <;> exact hclose
  · rfl

theorem pipeReadTurn_snd (p : PipeId) (count : Nat) (buf : UserBuf) (k : Kernel) :
    (pipeReadTurn p count buf k).2 = k.onPipe p fun _ => ((k.pipes p).read count).2 := by
  simp only [pipeReadTurn]
  split
  · rfl
  · split <;> rfl

/-- A turn of a write has put bytes into the pipe and woken everybody, or has put none. -/
theorem pipeWriteTurn_cases (p : PipeId) (buf : UserBuf) (done : Nat) (k : Kernel) :
    (∃ k₁, (pipeWriteTurn p buf done k).2 = schedWakeAll k₁) ∨
      Drains k (pipeWriteTurn p buf done k).2 := by
  unfold pipeWriteTurn
  split
  · split
    · dsimp only
      split
      · exact Or.inl ⟨_, rfl⟩
      · next hnone =>
        have h : Drains k (k.onPipe p fun _ => ((k.pipes p).write (chunk buf done)).2) := by
          rw [Pipe.write_nothing (by omega)]
          exact (Drains.refl k).onPipe le_rfl
        split <;> exact Or.inr h
    · exact Or.inr (.refl k)
  · exact Or.inr (.refl k)

/-- An exit leaves nobody asleep who waits for the task that exits. -/
theorem exitCurrent_wakes (status : Int) {t : Tid} (ht : (k.tasks k.currentTask).parent = some t) :
    ((exitCurrent status k).tasks t).state ≠ .blocked := by
  intro hb
  unfold exitCurrent procWakeParent at hb
  simp only [onTask_currentTask, onTask_tasks_self, ht] at hb
  split at hb
  · rw [setState, onTask_tasks_self] at hb
    cases hb
  · next hnot => exact hnot hb

theorem exitCurrent_pipes (status : Int) (k : Kernel) : (exitCurrent status k).pipes = k.pipes := by
  unfold exitCurrent procWakeParent
  split
  · rfl
  · split <;> rfl

end TypeOS.Proc

namespace TypeOS.Sched

open Proc Kernel

variable {m m' : Machine} {f : Frame} {i : Input}

/-- What a call of a task waits for is not there: no byte for a read of some, no key, no zombie child
    that a `wait4` would take. -/
def Unmet (m : Machine) (t : Tid) : Pending → Prop
  | .read p count _ => 0 < count → (m.kernel.pipes p).count = 0
  | .write .. => True
  | .console _ => m.keyboard.head = m.keyboard.tail
  | .wait pid _ => ∀ z, m.state z = .zombie → (m.kernel.tasks z).parent = some t →
      pid ≠ -1 ∧ pid ≠ (m.kernel.tasks z).pid
  | .exiting => False

/-- Every blocked task waits, in the call it blocked in, for something that is not there. -/
def Asleep (m : Machine) : Prop :=
  ∀ t, m.state t = .blocked → ∃ c, m.waiting t = some c ∧ Unmet m t c

/-- A step that puts nobody to sleep, and leaves those asleep who were and whose call has still
    nothing. -/
def Lulls (m m' : Machine) : Prop := ∀ t, m'.state t = .blocked →
  m.state t = .blocked ∧ m'.waiting t = m.waiting t ∧ ∀ c, Unmet m t c → Unmet m' t c

theorem Asleep.lulls (h : Asleep m) (hl : Lulls m m') : Asleep m' := by
  intro t ht
  obtain ⟨hb, hw, hu⟩ := hl t ht
  obtain ⟨c, hc, hunmet⟩ := h t hb
  exact ⟨c, hw.trans hc, hu c hunmet⟩

theorem Lulls.trans {m'' : Machine} (h : Lulls m m') (h' : Lulls m' m'') : Lulls m m'' := by
  intro t ht
  obtain ⟨hb', hw', hu'⟩ := h' t ht
  obtain ⟨hb, hw, hu⟩ := h t hb'
  exact ⟨hb, hw'.trans hw, fun c hc => hu' c (hu c hc)⟩

theorem Lulls.refl (m : Machine) : Lulls m m := fun _ ht => ⟨ht, rfl, fun _ hc => hc⟩

/-- Nobody sleeps afterwards. -/
theorem lulls_awake (h : ∀ t, m'.state t ≠ .blocked) : Lulls m m' := fun t ht => absurd ht (h t)

/-- An empty ring of keys stays empty. -/
def RingKept (m m' : Machine) : Prop :=
  m.keyboard.head = m.keyboard.tail → m'.keyboard.head = m'.keyboard.tail

theorem wakeAll_state (k : Kernel) (t : Tid) : ((schedWakeAll k).tasks t).state ≠ .blocked := by
  rcases schedWakeAll_slot k t with ⟨h, hb⟩ | ⟨-, h⟩ <;> rw [h]
  · exact hb
  · simp

/-- The slots after a step that makes no zombie. -/
theorem Unmet.kept {t : Tid} (hd : Drains m.kernel m'.kernel) (hk : RingKept m m')
    (hz : ∀ z, m'.state z = .zombie → m.state z = .zombie ∧
      (m'.kernel.tasks z).parent = (m.kernel.tasks z).parent ∧
      (m'.kernel.tasks z).pid = (m.kernel.tasks z).pid) {c : Pending} (h : Unmet m t c) :
    Unmet m' t c := by
  cases c with
  | read p count buf => exact fun hc => Nat.le_zero.mp ((h hc) ▸ hd p)
  | write p buf n => trivial
  | console bufOk => exact hk h
  | wait pid statusOk =>
    intro z hzom hpar
    obtain ⟨hwas, hp, hpid⟩ := hz z hzom
    rw [hpid]
    exact h z hwas (hp.symm.trans hpar)
  | exiting => exact h

/-- A step with the current task that fills no pipe and pushes no key. -/
theorem Works.lulls {z : Option Tid} (w : Works z m m') (hd : Drains m.kernel m'.kernel)
    (hk : RingKept m m') : Lulls m m' := by
  intro t ht
  have hdrift := w.state t
  rw [ht] at hdrift
  refine ⟨?_, congrFun w.waiting t, fun c hc => hc.kept hd hk fun y hy => ?_⟩
  · generalize m.state t = s at hdrift
    cases hdrift
    rfl
  · cases w.slot y with
    | same state kin =>
      exact ⟨state.symm.trans hy, Process.kin_parent kin, Process.kin_pid kin⟩
    | woken _ state => exact absurd (state.symm.trans hy) (by simp)
    | reaped _ _ _ state => exact absurd (state.symm.trans hy) (by simp)
    | forked _ born =>
      exact absurd hy (by rcases born.1 with h | h <;> simp [Machine.state, h])

/-- Nothing but one task that does not sleep is different. -/
theorem lulls_one {n : Tid} (hn : m'.state n ≠ .blocked ∧ m'.state n ≠ .zombie)
    (ho : ∀ u, u ≠ n → m'.kernel.tasks u = m.kernel.tasks u) (hw : m'.waiting = m.waiting)
    (hp : m'.kernel.pipes = m.kernel.pipes)
    (hk : m'.keyboard.head = m.keyboard.head ∧ m'.keyboard.tail = m.keyboard.tail) : Lulls m m' := by
  intro t ht
  have htn : t ≠ n := fun h => hn.1 (h ▸ ht)
  refine ⟨by rwa [Machine.state, ho t htn] at ht, congrFun hw t,
    fun c hc => hc.kept (.of_pipes hp) (fun h => by rw [hk.1, hk.2, h]) fun z hz => ?_⟩
  have hzn : z ≠ n := fun h => hn.2 (h ▸ hz)
  rw [Machine.state, ho z hzn] at hz
  exact ⟨hz, by rw [ho z hzn], by rw [ho z hzn]⟩

/-! ### Turns of a call -/

/-- A poll that wakes nobody leaves the ring as it was. -/
theorem pollAll_quiet (l : List Nat) : ∀ kb : Keyboard, (pollAll l kb).1 = false →
    (pollAll l kb).2.head = kb.head ∧ (pollAll l kb).2.tail = kb.tail := by
  induction l with
  | nil => exact fun _ _ => ⟨rfl, rfl⟩
  | cons scancode l ih =>
    intro kb h
    rw [pollAll] at h ⊢
    obtain ⟨hfirst, hrest⟩ := Bool.or_eq_false_iff.mp h
    obtain ⟨hhead, htail⟩ := ih _ hrest
    have hone : (keyboardHandleScancode scancode kb).2.head = kb.head ∧
        (keyboardHandleScancode scancode kb).2.tail = kb.tail := by
      obtain ⟨shift, extended, hcode | ⟨key, hcode⟩⟩ := keyboardHandleScancode_cases scancode kb
      · rw [hcode]
        exact ⟨rfl, rfl⟩
      · rw [hcode] at hfirst ⊢
        unfold keyboardPush at hfirst ⊢
        dsimp only at hfirst ⊢
        split at hfirst
        · next hfull =>
          rw [if_pos hfull]
          exact ⟨rfl, rfl⟩
        · cases hfirst
    exact ⟨hhead.trans hone.1, htail.trans hone.2⟩

theorem keyboardPoll_quiet {kb : Keyboard} (h : (keyboardPoll kb).1 = false) :
    (keyboardPoll kb).2.head = kb.head ∧ (keyboardPoll kb).2.tail = kb.tail :=
  pollAll_quiet _ _ h

theorem consoleTurn_lulls (bufOk : Bool) (m : Machine)
    (w : Works none m (consoleTurn bufOk m).2) : Lulls m (consoleTurn bufOk m).2 := by
  cases hp : (keyboardPoll m.keyboard).1 with
  | true =>
    refine lulls_awake fun t => ?_
    simp only [Machine.state, consoleTurn, hp, if_true]
    split <;> exact wakeAll_state m.kernel t
  | false =>
    obtain ⟨hhead, htail⟩ := keyboardPoll_quiet hp
    refine w.lulls (.of_pipes ?_) fun hempty => ?_
    · simp only [consoleTurn, hp]
      split <;> rfl
    · have : ¬ (keyboardPoll m.keyboard).2.head ≠ (keyboardPoll m.keyboard).2.tail := by
        rw [hhead, htail]
        exact not_not.mpr hempty
      simp only [consoleTurn, if_neg this]
      rw [hhead, htail, hempty]

/-- A turn wakes everybody when it puts a byte into a pipe or a key into the ring. -/
theorem callTurn_lulls (f : Frame) (m : Machine) : Lulls m (callTurn f m).2 := by
  have w := callTurn_works f m
  cases hc : f.call with
  | read p count buf =>
    refine w.lulls ?_ ?_
    · simp only [callTurn, hc, pipeReadTurn_snd]
      refine (Drains.refl m.kernel).onPipe ?_
      rw [Pipe.count_read]
      exact Nat.sub_le ..
    · simp only [RingKept, callTurn, hc]
      exact id
  | write p buf n =>
    rcases pipeWriteTurn_cases p buf n m.kernel with ⟨k₁, hwake⟩ | hd
    · refine lulls_awake fun t => ?_
      simp only [Machine.state, callTurn, hc, hwake]
      exact wakeAll_state k₁ t
    · refine w.lulls ?_ ?_
      · simpa only [callTurn, hc] using hd
      · simp only [RingKept, callTurn, hc]
        exact id
  | console bufOk =>
    have heq : callTurn f m = consoleTurn bufOk m := by rw [callTurn, hc]
    rw [heq] at w ⊢
    refine consoleTurn_lulls bufOk m ?_
    simpa only [takes, hc] using w
  | wait pid statusOk =>
    refine w.lulls (.of_pipes ?_) ?_
    · simp only [callTurn, hc]
      rcases waitTurn_slots pid statusOk m.kernel with ⟨-, h⟩ | ⟨z, -, h⟩ <;> rw [h]
      rfl
    · simp only [RingKept, callTurn, hc]
      exact id
  | exiting =>
    simp only [callTurn, hc]
    exact .refl m

/-- A turn that must wait has found nothing. -/
theorem callTurn_unmet (hb : (callTurn f m).1 = .block) (hx : f.call ≠ .exiting) :
    Unmet (callTurn f m).2 m.cur f.call := by
  cases hc : f.call with
  | read p count buf =>
    intro hcount
    have hnone : ¬ 0 < ((m.kernel.pipes p).read count).1.length := by
      intro hsome
      simp only [callTurn, hc, pipeReadTurn, if_pos hsome] at hb
      split at hb <;> cases hb
    rw [Pipe.length_read] at hnone
    simp only [callTurn, hc, pipeReadTurn_snd, onPipe_pipes_self, Pipe.count_read]
    omega
  | write p buf n => trivial
  | console bufOk =>
    simp only [callTurn, hc] at hb ⊢
    unfold consoleTurn at hb ⊢
    dsimp only at hb ⊢
    split at hb
    · cases hb
    · next h =>
      rw [if_neg h]
      exact not_not.mp h
  | wait pid statusOk =>
    have hs := callTurn_block hb
    simp only [callTurn, hc] at hb hs ⊢
    rcases waitTurn_slots pid statusOk m.kernel with ⟨hn, h⟩ | ⟨z, hz, h⟩
    · intro z hzom hpar
      rw [h] at hpar ⊢
      rw [Machine.state, h] at hzom
      have hfree : ¬ ((m.kernel.tasks z).state = .zombie ∧ (m.kernel.tasks z).parent = some m.cur ∧
          (pid = -1 ∨ pid = (m.kernel.tasks z).pid)) := of_decide_eq_false (firstSlot_none hn z)
      exact not_or.mp fun hpid => hfree ⟨hzom, hpar, hpid⟩
    · have := hs z
      rw [Machine.state, h, setState, onTask_tasks_self, Machine.state,
        (zombieChild_some hz).1] at this
      cases this
  | exiting => exact absurd hc hx

/-! ### Steps -/

theorem Lulls.after (h : Lulls m m') (owner : Tid) (r : Int) :
    Lulls m (schedAfterSyscall owner r m') :=
  h.trans (((Works.refl none m').after owner r).lulls (.refl _) id)

theorem Lulls.mode (h : Lulls m m') (mode : Mode) : Lulls m { m' with mode := mode } := h

theorem lulls_activate (hp : procRunRunnable f m = some m') : Lulls m m' := by
  rcases procRunRunnable_cases f m with ⟨hn, -⟩ | ⟨t, m₁, hs, -, -, -, hst, hother, -⟩
  · rw [hn] at hp
    cases hp
  · rw [hs, Option.some.injEq] at hp
    subst hp
    have hrest : m₁.waiting = m.waiting ∧ m₁.kernel.pipes = m.kernel.pipes ∧
        m₁.keyboard = m.keyboard := by
      unfold procRunRunnable at hs
      split at hs
      · cases hs
      · next u _ =>
        obtain ⟨n, hn⟩ := gdtSetRsp0_eq u m
        simp only [procActivate, hn, Option.some.injEq] at hs
        subst hs
        exact ⟨rfl, rfl, rfl⟩
    exact lulls_one (n := t) (by simp [hst]) hother hrest.1 hrest.2.1 (by simp [hrest.2.2])

theorem lulls_resume (saved : Saved) (m : Machine) : Lulls m (resume saved m) := by
  obtain ⟨-, hst, hother, -⟩ := resume_eq saved m
  obtain ⟨n, hn⟩ := gdtSetRsp0_eq saved.self m
  refine lulls_one (n := saved.self) (by simp [hst]) hother ?_ ?_ ?_ <;>
    simp only [resume, procActivate, hn, and_self]
  rfl

/-- The parent is awake by the time there is a zombie for it. -/
theorem lulls_exited (status : Int) (m : Machine) : Lulls m (exited status m) := by
  obtain ⟨-, hself, hother⟩ := exitCurrent_slots status m.kernel
  intro t ht
  have htc : t ≠ m.kernel.currentTask := by
    rintro rfl
    have hz : (exited status m).state m.kernel.currentTask = .zombie := congrArg Process.state hself
    rw [hz] at ht
    cases ht
  have hnot : (m.kernel.tasks m.kernel.currentTask).parent ≠ some t :=
    fun hp => exitCurrent_wakes status hp ht
  have hsame : (exitCurrent status m.kernel).tasks t = m.kernel.tasks t :=
    (hother t htc).resolve_right fun h => hnot h.2.1
  refine ⟨?_, rfl, fun c hc => ?_⟩
  · exact (congrArg Process.state hsame).symm.trans ht
  · cases c with
    | read p count buf => exact fun h => (congrArg (fun q => (q p).count)
        (exitCurrent_pipes status m.kernel)).trans (hc h)
    | write p buf n => trivial
    | console bufOk => exact hc
    | wait pid statusOk =>
      intro z hz hpar
      have hz : ((exitCurrent status m.kernel).tasks z).state = .zombie := hz
      have hpar : ((exitCurrent status m.kernel).tasks z).parent = some t := hpar
      change pid ≠ -1 ∧ pid ≠ ((exitCurrent status m.kernel).tasks z).pid
      by_cases hzc : z = m.kernel.currentTask
      · subst hzc
        rw [hself] at hpar
        exact absurd hpar hnot
      · rcases hother z hzc with h | ⟨-, -, h⟩ <;> rw [h] at hz hpar ⊢
        · exact hc z hz hpar
        · cases hz
    | exiting => exact hc

/-- An exit, and where it goes on. -/
theorem lulls_exit (status : Int) (m : Machine) : Lulls m (sysExit status m) := by
  have h := lulls_exited status m
  rcases sysExit_cases status m with ⟨-, -, heq⟩ | ⟨-, heq⟩ <;> rw [heq]
  · rcases longjmp_cases (exited status m) with hl | ⟨-, -, saved, -, -, -, hl⟩ <;> rw [hl]
    · exact h.mode .wild
    · exact h.trans (lulls_resume saved _)
  · exact h.mode _

/-- Before its first turn a system call changes no pipe, but one that returns at once. -/
theorem sysDispatch_pipes {ans : Answers} {sys : Sys} (hs : sysDispatch ans sys m = some m')
    (hx : ∀ status, sys ≠ .exit status) :
    m'.keyboard = m.keyboard ∧ (m'.kernel.pipes = m.kernel.pipes ∨ ∃ c, sys = .plain c ∧ Plain c = true ∧
      m'.kernel.pipes = (dispatch ans c m.kernel).2.pipes) := by
  have hafter : ∀ r, (schedAfterSyscall m.cur r m).keyboard = m.keyboard ∧
      (schedAfterSyscall m.cur r m).kernel.pipes = m.kernel.pipes := fun r => ⟨rfl, rfl⟩
  cases sys with
  | plain c =>
    simp only [sysDispatch] at hs
    split at hs
    · next r k hp hd =>
      rw [Option.some.injEq] at hs
      subst hs
      exact ⟨rfl, Or.inr ⟨c, rfl, hp, by rw [hd]; rfl⟩⟩
    · cases hs
  | other r =>
    simp only [sysDispatch, Option.some.injEq] at hs
    subst hs
    exact (hafter r).imp id Or.inl
  | exec found =>
    have hpipes := @pipes_procExec m.kernel ans found
    simp only [sysDispatch] at hs
    split at hs <;> next k heq =>
      rw [heq] at hpipes
      rw [Option.some.injEq] at hs
      subst hs
      exact ⟨rfl, Or.inl hpipes⟩
  | exit status => exact absurd rfl (hx status)
  | wait pid statusOk =>
    simp only [sysDispatch, Option.some.injEq] at hs
    subst hs
    exact ⟨rfl, Or.inl rfl⟩
  | read fd count buf r =>
    simp only [sysDispatch] at hs
    split at hs
    · rw [Option.some.injEq] at hs
      subst hs
      exact ⟨rfl, Or.inl rfl⟩
    · split at hs <;> rw [Option.some.injEq] at hs <;> subst hs
      · exact ⟨rfl, Or.inl rfl⟩
      · exact (hafter _).imp id Or.inl
  | write fd buf r =>
    simp only [sysDispatch] at hs
    split at hs <;> rw [Option.some.injEq] at hs <;> subst hs
    · exact ⟨rfl, Or.inl rfl⟩
    · exact (hafter _).imp id Or.inl

/-- No other system call fills a pipe or pushes a key before its first turn. -/
theorem sysDispatch_quiet {ans : Answers} {sys : Sys} (hs : sysDispatch ans sys m = some m')
    (hx : ∀ status, sys ≠ .exit status) :
    Drains m.kernel m'.kernel ∧ m'.keyboard = m.keyboard := by
  obtain ⟨hk, hp | ⟨c, -, hplain, hp⟩⟩ := sysDispatch_pipes hs hx
  · exact ⟨.of_pipes hp, hk⟩
  · refine ⟨fun p => ?_, hk⟩
    rw [hp]
    exact drains_plain hplain p

theorem lulls_sysDispatch {ctx : UserContext} {ans : Answers} {sys : Sys}
    (hs : sysDispatch ans sys (enter ctx m) = some m') : Lulls m m' := by
  by_cases hx : ∃ status, sys = .exit status
  · obtain ⟨status, rfl⟩ := hx
    simp only [sysDispatch, Option.some.injEq] at hs
    subst hs
    have henter : Lulls m (enter ctx m) :=
      Works.lulls (Works.of_enter (Works.refl none (enter ctx m))) (.refl _) id
    exact henter.trans (lulls_exit status _)
  · have hx : ∀ status, sys ≠ .exit status := fun status h => hx ⟨status, h⟩
    obtain ⟨hd, hk⟩ := sysDispatch_quiet hs hx
    exact (sysDispatch_works hs hx).1.lulls hd fun hempty => by rw [hk]; exact hempty

/-- A call that must wait starts another task, or its own goes to sleep over what it did not find. -/
theorem Asleep.block (h : Asleep m) (hu : Unmet m m.cur f.call) : Asleep (schedBlockCurrent f m) := by
  have hmark : ∀ t, t ≠ m.cur → (markBlocked f m).kernel.tasks t = m.kernel.tasks t :=
    fun t ht => Function.update_of_ne ht ..
  have hblk : (markBlocked f m).state m.cur = .blocked := by
    simp [markBlocked, Machine.state, setState]
  have hzom : ∀ z, (markBlocked f m).state z = .zombie → m.state z = .zombie ∧
      ((markBlocked f m).kernel.tasks z).parent = (m.kernel.tasks z).parent ∧
      ((markBlocked f m).kernel.tasks z).pid = (m.kernel.tasks z).pid := by
    intro z hz
    have hzc : z ≠ m.cur := by
      rintro rfl
      rw [hblk] at hz
      cases hz
    rw [Machine.state, hmark z hzc] at hz
    exact ⟨hz, by rw [hmark z hzc], by rw [hmark z hzc]⟩
  have hdrains : Drains m.kernel (markBlocked f m).kernel := .of_pipes rfl
  have hring : RingKept m (markBlocked f m) := id
  have hkept : ∀ t c, Unmet m t c → Unmet (markBlocked f m) t c :=
    fun _ _ hc => hc.kept hdrains hring hzom
  have hmarked : Asleep (markBlocked f m) := by
    intro t ht
    rcases eq_or_ne t m.cur with rfl | htc
    · refine ⟨f.call, ?_, hkept _ _ hu⟩
      simp [markBlocked]
    · rw [Machine.state, hmark t htc] at ht
      obtain ⟨c, hc, hunmet⟩ := h t ht
      refine ⟨c, ?_, hkept _ _ hunmet⟩
      rw [← hc]
      exact Function.update_of_ne htc ..
  rcases schedBlockCurrent_cases f m with ⟨m', hp, heq⟩ | ⟨-, ⟨rr, heq⟩ | ⟨next, rr, n, -, -, -, heq⟩⟩ <;>
    rw [heq]
  · exact h.lulls (lulls_activate hp)
  · exact hmarked
  · refine hmarked.lulls (lulls_one (n := next) ?_ (fun u hu => ?_) rfl rfl ⟨rfl, rfl⟩)
    · simp [Machine.state, setState]
    · simp only [setState]
      exact onTask_tasks_ne hu ..

/-- The way out of `sched_block_current`. -/
theorem lulls_blockEnd (f : Frame) (m : Machine) : Lulls m (schedBlockEnd f m.cur m) := by
  unfold schedBlockEnd
  by_cases hr : m.state m.cur = .runnable
  · refine lulls_one (n := m.cur) ?_ (fun u hu => ?_) rfl ?_ ⟨rfl, rfl⟩
    · simp only [Machine.state, Machine.cur, if_pos hr, setState, onTask_tasks_self]
      simp
    · simp only [if_pos hr, setState]
      exact onTask_tasks_ne hu ..
    · simp only [if_pos hr, setState, onTask_pipes]
  · rw [if_neg hr]
    exact .refl m

/-- A turn of a call that is not the end of `SYS_exit`. -/
theorem Asleep.turn (h : Asleep m) : Asleep (turn f m) := by
  have h' := h.lulls (callTurn_lulls f m)
  rcases turn_cases f m with ⟨r, -, heq⟩ | ⟨n, -, heq⟩ | ⟨hb, heq⟩ <;> rw [heq]
  · exact h.lulls ((callTurn_lulls f m).after f.owner r)
  · exact h.lulls ((callTurn_lulls f m).mode _)
  · unfold waitInKernel
    split
    · split
      · next hp => exact h'.lulls (lulls_activate hp)
      · exact h'
    · next hx =>
      refine h'.block ?_
      rw [(callTurn_works f m).cur]
      exact callTurn_unmet hb hx

theorem Asleep.step (h : Asleep m) (hs : step i m = some m') : Asleep m' := by
  rcases step_cases hs with ⟨ctx, ans, sys, rfl, -, hd⟩ | ⟨f, rfl, -, rfl⟩ |
    ⟨f, rfl, -, ⟨-, hp | ⟨-, rfl⟩⟩ | ⟨-, rfl⟩⟩ | ⟨scancode, rfl, rfl⟩
  · exact h.lulls (lulls_sysDispatch hd)
  · exact h.turn
  · exact h.lulls (lulls_activate hp)
  · exact h
  · exact h.lulls (lulls_blockEnd f m)
  · exact h

/-! ### Runs -/

theorem boot_awake (ans : Answers) (live : Finset Handle) (files : Handle → VfsFile) (pml4 : Nat) (t : Tid) :
    (gdtSetRsp0 0 (Machine.boot ans live files pml4)).state t ≠ .blocked := by
  obtain ⟨n, hn, hfirst, hrun⟩ := boot_spec ans live files pml4
  rw [hn]
  intro ht
  have ht : (Machine.boot ans live files pml4).state t = .blocked := ht
  rcases eq_or_ne t 0 with rfl | ht0
  · rw [hrun] at ht
    cases ht
  · have hst := Process.core_state (hfirst.other t ht0)
    rw [Machine.state, hst] at ht
    cases ht

theorem Reaches.asleep {Meets : Input → Machine → Prop} (hr : Reaches Meets m) : Asleep m := by
  induction hr with
  | boot ans live files pml4 => exact fun t ht => absurd ht (boot_awake ans live files pml4 t)
  | step i _ _ hs ih => exact ih.step hs

/-- In every state of every run, a blocked task is in a call that has nothing to go on with: the pipe it
    reads is empty, the ring holds no key, or it has no zombie child of the pid that it waits for. What a
    writer waits for is left open. -/
theorem blocked_has_nothing {Meets : Input → Machine → Prop} (hr : Reaches Meets m) {t : Tid}
    (ht : m.state t = .blocked) : ∃ c, m.waiting t = some c ∧ Unmet m t c :=
  hr.asleep t ht

/-- The shell waits for a key, with nobody else to run. -/
def shellIdles : Machine :=
  afterInputs [calls 0 (.read 0 1 ⟨[], fun _ _ => true⟩ 0), .turn] booted

theorem blocked_has_nothing_shellIdles :
    shellIdles.state 0 = .blocked ∧ ∃ c, shellIdles.waiting 0 = some c ∧ Unmet shellIdles 0 c := by
  have hr : Reaches (fun _ _ => True) shellIdles := booted_reaches.afterInputs fun _ _ _ => trivial
  have ht : shellIdles.state 0 = .blocked := by decide
  exact ⟨ht, blocked_has_nothing hr ht⟩

end TypeOS.Sched
