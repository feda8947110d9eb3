import TypeOS.Proc.PipeEnds
import TypeOS.Sched.Wakeups

/-! Tasks that nobody wakes.

    Four steps bring about what a sleeping task waits for and wake no one: a read that makes room in a pipe,
    a close of the last end of one kind, a key that stays in the controller because its line is masked, and a
    read of no bytes, which sleeps over a pipe that holds some. A call of `pipe` starts a pipe anew. In a run
    without them nobody sleeps over what is there. An end is open as long as the pipe counts it. -/

namespace TypeOS.Proc

open Kernel

variable {k : Kernel} {ans : Answers} {q : PipeId}

/-- `pipe` leaves the pipes alone that it does not take. -/
theorem sysPipe_others (ufdOk : Bool) (hq : (procPipeAlloc k).1 ≠ some q) :
    (sysPipe ans ufdOk k).2.pipes q = k.pipes q := by
  unfold sysPipe
  rcases procPipeAlloc_cases k with hp | ⟨p, -, hp⟩ <;> rw [hp] at hq ⊢
  have hne : q ≠ p := fun h => hq (h ▸ rfl)
  dsimp only
  have h₁ : (k.onPipe p fun _ => { Pipe.zero with inUse := true }).pipes q = k.pipes q :=
    onPipe_pipes_ne hne ..
  generalize (k.onPipe p fun _ => { Pipe.zero with inUse := true }) = k₁ at h₁
  have hfree : ∀ k', k'.pipes q = k.pipes q → (procPipeFree p k').pipes q = k.pipes q := by
    intro k' h
    rw [procPipeFree, onPipe_pipes_ne hne, h]
  rcases fdAlloc_cases (ans.kmalloc 0) k₁ with hm | ⟨rfd, rf, -, -, hm⟩ <;> rw [hm]
  · exact hfree _ h₁
  have h₂ : (install k₁.currentTask rfd rf VfsFile.fresh k₁).pipes q = k.pipes q := h₁
  generalize install k₁.currentTask rfd rf VfsFile.fresh k₁ = k₂ at h₂
  dsimp only
  rcases fdAlloc_cases (ans.kmalloc 1) k₂ with hm | ⟨wfd, wf, -, -, hm⟩ <;> rw [hm]
  · exact hfree _ h₂
  have h₃ : (install k₂.currentTask wfd wf VfsFile.fresh k₂).pipes q = k.pipes q := h₂
  generalize install k₂.currentTask wfd wf VfsFile.fresh k₂ = k₃ at h₃
  have h₄ : (k₃.onPipe p fun r => { r with readers := 1, writers := 1 }).pipes q = k.pipes q := by
    rw [onPipe_pipes_ne hne, h₃]
  dsimp only
  split
  · exact h₄
  · exact hfree _ h₄

/-- A close takes the end off that its descriptor is, if it is one. -/
theorem closeEnd_pipe (h : Handle) (k : Kernel) (q : PipeId) : (closeEnd h k).pipes q = k.pipes q ∨
    (k.files h).pipe = some q ∧ ((closeEnd h k).pipes q).count = (k.pipes q).count ∧
      ((closeEnd h k).pipes q).readers = (uncountEnd (k.files h) (k.pipes q)).readers ∧
      ((closeEnd h k).pipes q).writers = (uncountEnd (k.files h) (k.pipes q)).writers := by
  unfold closeEnd
  split
  · exact Or.inl rfl
  · next p hp =>
    by_cases hq : q = p
    · subst hq
      have hcount : (uncountEnd (k.files h) (k.pipes q)).count = (k.pipes q).count := by
        unfold uncountEnd
        split
        · rfl
        · split <;> rfl
      refine Or.inr ⟨hp, ?_⟩
      dsimp only
      split <;> simp only [procPipeFree, onPipe_pipes_self, hcount, and_self]
    · refine Or.inl ?_
      dsimp only
      split <;> simp only [procPipeFree, onPipe_pipes_ne hq]

/-- A write end that is not the last one leaves one open. -/
theorem uncountEnd_writers {file : VfsFile} {q : Pipe} (hopen : 0 < q.writers)
    (h : file.pipeEnd = 1 → q.writers ≠ 1) : 0 < (uncountEnd file q).writers := by
  unfold uncountEnd
  split
  · exact hopen
  · split
    · next hw => exact Nat.sub_pos_of_lt (lt_of_le_of_ne hw.2 (h hw.1).symm)
    · exact hopen

theorem uncountEnd_readers {file : VfsFile} {q : Pipe} (hopen : 0 < q.readers)
    (h : file.pipeEnd = 0 → q.readers ≠ 1) : 0 < (uncountEnd file q).readers := by
  unfold uncountEnd
  split
  · next hr => exact Nat.sub_pos_of_lt (lt_of_le_of_ne hr.2 (h hr.1).symm)
  · split <;> exact hopen

theorem sysClose_pipes (fd : Int) : ((sysClose ans fd k).2.pipes = k.pipes) ∨ ∃ slot h,
    toFd fd = some slot ∧ k.fds slot = some h ∧ (sysClose ans fd k).2.pipes = (closeEnd h k).pipes := by
  unfold sysClose
  split
  · exact Or.inl rfl
  · next slot hslot =>
    split
    · exact Or.inl rfl
    · next h hh => exact Or.inr ⟨slot, h, hslot, hh, rfl⟩

theorem procPipeAlloc_fst (k : Kernel) : (procPipeAlloc k).1 = firstSlot fun p => !(k.pipes p).inUse := by
  unfold procPipeAlloc
  split <;> simp only [*]

/-- A write that puts none of some bytes finds no room. -/
theorem Pipe.write_full_of {b : UInt8} {bytes : List UInt8} {q : Pipe} (h : (q.write (b :: bytes)).1 = 0) :
    pipeSize ≤ q.count := by
  rw [Pipe.write_cons] at h
  split at h
  · exact absurd h (Nat.succ_ne_zero _)
  · next hfull => exact Nat.not_lt.mp hfull

/-- A turn of a write wakes everybody, or leaves the pipes as they are. -/
theorem pipeWriteTurn_pipes (p : PipeId) (buf : UserBuf) (done : Nat) (k : Kernel) :
    (∃ k₁, (pipeWriteTurn p buf done k).2 = schedWakeAll k₁) ∨
      (pipeWriteTurn p buf done k).2.pipes = k.pipes := by
  unfold pipeWriteTurn
  split
  · split
    · dsimp only
      split
      · exact Or.inl ⟨_, rfl⟩
      · next hnone =>
        have hsame : (k.onPipe p fun _ => ((k.pipes p).write (chunk buf done)).2) = k := by
          rw [Pipe.write_nothing (by omega)]
          exact onPipe_self p
        rw [hsame]
        split <;> exact Or.inr rfl
    · exact Or.inr rfl
  · exact Or.inr rfl

/-- One that must wait has found the pipe full, and a read end open. -/
theorem pipeWriteTurn_block {p : PipeId} {buf : UserBuf} {done : Nat}
    (hb : (pipeWriteTurn p buf done k).1 = .block) :
    pipeSize ≤ ((pipeWriteTurn p buf done k).2.pipes p).count ∧
      0 < ((pipeWriteTurn p buf done k).2.pipes p).readers := by
  unfold pipeWriteTurn at hb ⊢
  split at hb
  swap
  · cases hb
  next hless =>
  rw [if_pos hless]
  split at hb
  swap
  · cases hb
  next hok =>
  rw [if_pos hok]
  dsimp only at hb ⊢
  split at hb
  · cases hb
  next hnone =>
  rw [if_neg hnone]
  have hzero : ((k.pipes p).write (chunk buf done)).1 = 0 := by omega
  have hsame : (k.onPipe p fun _ => ((k.pipes p).write (chunk buf done)).2) = k := by
    rw [Pipe.write_nothing hzero]
    exact onPipe_self p
  rw [hsame] at hb ⊢
  split at hb
  · cases hb
  next hopen =>
  rw [if_neg hopen]
  refine ⟨?_, Nat.pos_of_ne_zero hopen⟩
  rcases hchunk : chunk buf done with _ | ⟨b, bytes⟩
  · have hlen := congrArg List.length hchunk
    simp only [chunk, List.length_take, List.length_drop, List.length_nil] at hlen
    omega
  · rw [hchunk] at hzero
    exact Pipe.write_full_of hzero

end TypeOS.Proc

namespace TypeOS.Sched

open Proc Kernel

variable {m m' : Machine} {f : Frame} {i : Input} {p : PipeId} {c : Pending}

/-- A task sleeps in the call. -/
def Sleeps (m : Machine) (c : Pending) : Prop := ∃ t, m.state t = .blocked ∧ m.waiting t = some c

def ReaderSleeps (m : Machine) (p : PipeId) : Prop := ∃ count buf, Sleeps m (.read p count buf)

def WriterSleeps (m : Machine) (p : PipeId) : Prop := ∃ buf n, Sleeps m (.write p buf n)

/-- A turn of a read: where its pipe holds bytes, it takes some and no writer of the pipe sleeps, or it takes
    none and need not wait, or lets another task run. -/
def HeedsWriters (p : PipeId) (count : Nat) (m : Machine) : Prop :=
  0 < (m.kernel.pipes p).count →
    0 < count ∧ ¬ WriterSleeps m p ∨
    count = 0 ∧ ((m.kernel.pipes p).writers = 0 ∨ ∃ t, t ≠ m.cur ∧ m.state t = .runnable)

/-- A close: nobody sleeps over a pipe whose last end of the other kind it takes off. -/
def HeedsEnds (fd : Int) (m : Machine) : Prop :=
  ∀ slot h p, toFd fd = some slot → m.kernel.fds slot = some h → (m.kernel.files h).pipe = some p →
    ((m.kernel.files h).pipeEnd = 1 → (m.kernel.pipes p).writers = 1 → ¬ ReaderSleeps m p) ∧
    ((m.kernel.files h).pipeEnd = 0 → (m.kernel.pipes p).readers = 1 → ¬ WriterSleeps m p)

/-- The step does not bring about what a sleeping task waits for in a place that wakes nobody. -/
def Heeds (i : Input) (m : Machine) : Prop :=
  match i with
  | .syscall _ _ (.plain (.close fd)) => HeedsEnds fd m
  | .syscall _ _ (.plain (.pipe _)) =>
    ∀ p, (procPipeAlloc m.kernel).1 = some p → ¬ ReaderSleeps m p ∧ ¬ WriterSleeps m p
  | .turn => ∀ f p count buf, m.mode = .kernel f → f.call = .read p count buf → HeedsWriters p count m
  | .key scancode => (∃ bufOk, Sleeps m (.console bufOk)) →
      (keyArrives scancode m.keyboard).2.available = false
  | _ => True

/-- A call waits for something of a pipe or the keyboard that is not there. -/
def Lacks (m : Machine) : Pending → Prop
  | .read p _ _ => (m.kernel.pipes p).count = 0 ∧ 0 < (m.kernel.pipes p).writers
  | .write p _ _ => pipeSize ≤ (m.kernel.pipes p).count ∧ 0 < (m.kernel.pipes p).readers
  | .console _ => m.keyboard.available = false
  | .wait .. => True
  | .exiting => True

/-- So does every call that a task sleeps in. -/
def Unheard (m : Machine) : Prop := ∀ c, Sleeps m c → Lacks m c

/-- The pipes and the keyboard are as before. -/
def Still (m m' : Machine) : Prop := m'.kernel.pipes = m.kernel.pipes ∧ m'.keyboard = m.keyboard

theorem Still.trans {m'' : Machine} (h : Still m m') (h' : Still m' m'') : Still m m'' :=
  ⟨h'.1.trans h.1, h'.2.trans h.2⟩

theorem Lacks.still (hs : Still m m') (h : Lacks m c) : Lacks m' c := by
  unfold Lacks
  rw [hs.1, hs.2]
  exact h

/-- Only a pipe that somebody sleeps over matters. -/
theorem Lacks.pipes (h : Lacks m c) (hk : m'.keyboard = m.keyboard)
    (hr : ∀ q, ReaderSleeps m q → (m.kernel.pipes q).count = 0 → 0 < (m.kernel.pipes q).writers →
      (m'.kernel.pipes q).count = 0 ∧ 0 < (m'.kernel.pipes q).writers)
    (hw : ∀ q, WriterSleeps m q → pipeSize ≤ (m.kernel.pipes q).count → 0 < (m.kernel.pipes q).readers →
      pipeSize ≤ (m'.kernel.pipes q).count ∧ 0 < (m'.kernel.pipes q).readers)
    (hc : Sleeps m c) : Lacks m' c := by
  cases c with
  | read q n b => exact hr q ⟨n, b, hc⟩ h.1 h.2
  | write q b n => exact hw q ⟨b, n, hc⟩ h.1 h.2
  | console bufOk => exact (congrArg Keyboard.available hk).trans h
  | wait pid statusOk => trivial
  | exiting => trivial

/-- A step that puts nobody to sleep. -/
theorem Unheard.lulls (h : Unheard m) (hl : Lulls m m')
    (hk : ∀ c, Sleeps m c → Sleeps m' c → Lacks m c → Lacks m' c) : Unheard m' := by
  rintro c ⟨t, hb, hw⟩
  obtain ⟨hb₀, hw₀, -⟩ := hl t hb
  have hs : Sleeps m c := ⟨t, hb₀, hw₀.symm.trans hw⟩
  exact hk c hs ⟨t, hb, hw⟩ (h c hs)

theorem Unheard.quiet (h : Unheard m) (hl : Lulls m m') (hs : Still m m') : Unheard m' :=
  h.lulls hl fun _ _ _ => Lacks.still hs

/-! ### What leaves the pipes and the keyboard alone -/

theorem still_activate (hp : procRunRunnable f m = some m') : Still m m' := by
  unfold procRunRunnable at hp
  split at hp
  · cases hp
  · next u _ =>
    obtain ⟨n, hn⟩ := gdtSetRsp0_eq u m
    simp only [procActivate, hn, Option.some.injEq] at hp
    subst hp
    exact ⟨rfl, rfl⟩

theorem still_resume (saved : Saved) (m : Machine) : Still m (resume saved m) := by
  obtain ⟨n, hn⟩ := gdtSetRsp0_eq saved.self m
  simp only [resume, procActivate, hn]
  exact ⟨rfl, rfl⟩

theorem still_exit (status : Int) (m : Machine) : Still m (sysExit status m) := by
  have h : Still m (exited status m) := ⟨exitCurrent_pipes status m.kernel, rfl⟩
  rcases sysExit_cases status m with ⟨-, -, heq⟩ | ⟨-, heq⟩ <;> rw [heq]
  · rcases longjmp_cases (exited status m) with hl | ⟨-, -, saved, -, -, -, hl⟩ <;> rw [hl]
    · exact h
    · exact h.trans (still_resume saved _)
  · exact h

theorem still_blockEnd (f : Frame) (t : Tid) (m : Machine) : Still m (schedBlockEnd f t m) := by
  unfold schedBlockEnd
  refine ⟨?_, rfl⟩
  dsimp only
  split <;> rfl

/-! ### Turns of a call -/

/-- With nothing in the controller a key is available when the ring holds one. -/
theorem available_empty {kb : Keyboard} (h : kb.controller = []) (hring : kb.head = kb.tail) :
    kb.available = false := by
  simp [Keyboard.available, keyboardPoll, h, pollAll, hring]

/-- A console turn that finds no key leaves none behind. -/
theorem consoleTurn_unavailable (bufOk : Bool)
    (h : (keyboardPoll m.keyboard).2.head = (keyboardPoll m.keyboard).2.tail) :
    (consoleTurn bufOk m).2.keyboard.available = false := by
  simp only [consoleTurn, if_neg (not_not.mpr h)]
  exact available_empty (pollAll_controller ..) h

/-- A turn that makes a pipe no fuller and keeps its ends. -/
theorem readTurn_pipe (p : PipeId) (count : Nat) (buf : UserBuf) (k : Kernel) :
    ((pipeReadTurn p count buf k).2.pipes p).count = (k.pipes p).count - min count (k.pipes p).count ∧
      ((pipeReadTurn p count buf k).2.pipes p).readers = (k.pipes p).readers ∧
      ((pipeReadTurn p count buf k).2.pipes p).writers = (k.pipes p).writers := by
  obtain ⟨-, hr, hw⟩ := Pipe.read_ends count (k.pipes p)
  rw [pipeReadTurn_snd, onPipe_pipes_self]
  exact ⟨Pipe.count_read count (k.pipes p), hr, hw⟩

theorem Lacks.readTurn {count : Nat} {buf : UserBuf} (hf : f.call = .read p count buf)
    (hm : HeedsWriters p count m) (hc : Sleeps m c) (h : Lacks m c) : Lacks (callTurn f m).2 c := by
  obtain ⟨hcount, hr, hw⟩ := readTurn_pipe p count buf m.kernel
  have hother : ∀ q, q ≠ p → (callTurn f m).2.kernel.pipes q = m.kernel.pipes q := by
    intro q hq
    simp only [callTurn, hf, pipeReadTurn_snd]
    exact onPipe_pipes_ne hq ..
  have hself : (callTurn f m).2.kernel.pipes p = (pipeReadTurn p count buf m.kernel).2.pipes p := by
    simp only [callTurn, hf]
  have hkeys : (callTurn f m).2.keyboard = m.keyboard := by simp only [callTurn, hf]
  refine h.pipes hkeys (fun q _ hempty hopen => ?_) (fun q hsleeps hfull hopen => ?_) hc
  · rcases eq_or_ne q p with rfl | hq
    · rw [hself, hcount, hw, hempty]
      exact ⟨Nat.zero_sub _, hopen⟩
    · rw [hother q hq]
      exact ⟨hempty, hopen⟩
  · rcases eq_or_ne q p with rfl | hq
    · rw [hself, hcount, hr]
      rcases hm (lt_of_lt_of_le (by decide) hfull) with ⟨-, hno⟩ | ⟨rfl, -⟩
      · exact absurd hsleeps hno
      · rw [Nat.zero_min, Nat.sub_zero]
        exact ⟨hfull, hopen⟩
    · rw [hother q hq]
      exact ⟨hfull, hopen⟩

/-- A turn of a call, which may take bytes that nobody sleeps for room for. -/
theorem Unheard.callTurn (h : Unheard m)
    (hm : ∀ p count buf, f.call = .read p count buf → HeedsWriters p count m) :
    Unheard (callTurn f m).2 := by
  refine h.lulls (callTurn_lulls f m) fun c hc hc' hl => ?_
  cases hf : f.call with
  | read p count buf => exact hl.readTurn hf (hm p count buf hf) hc
  | write p buf n =>
    have hturn : (Sched.callTurn f m).2.kernel = (pipeWriteTurn p buf n m.kernel).2 := by
      simp only [Sched.callTurn, hf]
    rcases pipeWriteTurn_pipes p buf n m.kernel with ⟨k₁, hwake⟩ | hsame
    · obtain ⟨t, hb, -⟩ := hc'
      rw [Machine.state, hturn, hwake] at hb
      exact absurd hb (wakeAll_state k₁ t)
    · refine hl.still ⟨?_, ?_⟩
      · rw [hturn, hsame]
      · simp only [Sched.callTurn, hf]
  | console bufOk =>
    have hturn : Sched.callTurn f m = consoleTurn bufOk m := by rw [Sched.callTurn, hf]
    have hpipes : (consoleTurn bufOk m).2.kernel.pipes = m.kernel.pipes := by
      have hwake : (if (keyboardPoll m.keyboard).1 then schedWakeAll m.kernel else m.kernel).pipes =
          m.kernel.pipes := by split <;> rfl
      simp only [consoleTurn]
      split <;> exact hwake
    rw [hturn]
    cases c with
    | read q n b =>
      simp only [Lacks, hpipes]
      exact hl
    | write q b n =>
      simp only [Lacks, hpipes]
      exact hl
    | console ok =>
      refine consoleTurn_unavailable bufOk ?_
      simpa [Lacks, Keyboard.available] using hl
    | wait pid statusOk => trivial
    | exiting => trivial
  | wait pid statusOk =>
    refine hl.still ⟨?_, by simp only [Sched.callTurn, hf]⟩
    simp only [Sched.callTurn, hf]
    rcases waitTurn_slots pid statusOk m.kernel with ⟨-, heq⟩ | ⟨z, -, heq⟩ <;> rw [heq]
    rfl
  | exiting => exact hl.still ⟨by simp only [Sched.callTurn, hf], by simp only [Sched.callTurn, hf]⟩

/-- A turn that must wait has found nothing, or lets another task run. -/
theorem callTurn_lacks (hb : (callTurn f m).1 = .block)
    (hm : ∀ p count buf, f.call = .read p count buf → HeedsWriters p count m) :
    Lacks (callTurn f m).2 f.call ∨ ∃ t, t ≠ m.cur ∧ m.state t = .runnable := by
  cases hf : f.call with
  | read p count buf =>
    obtain ⟨hcount, -, hw⟩ := readTurn_pipe p count buf m.kernel
    have hturn : callTurn f m = ((pipeReadTurn p count buf m.kernel).1,
        { m with kernel := (pipeReadTurn p count buf m.kernel).2 }) := by simp only [callTurn, hf]
    rw [hturn] at hb ⊢
    have hnone : ¬ 0 < ((m.kernel.pipes p).read count).1.length := by
      intro hsome
      simp only [pipeReadTurn, if_pos hsome] at hb
      split at hb <;> cases hb
    have hopen : ((pipeReadTurn p count buf m.kernel).2.pipes p).writers ≠ 0 := by
      intro hno
      rw [pipeReadTurn_snd] at hno
      simp only [pipeReadTurn, if_neg hnone, if_pos hno] at hb
      cases hb
    rw [Pipe.length_read] at hnone
    by_cases hempty : (m.kernel.pipes p).count = 0
    · refine Or.inl ⟨?_, Nat.pos_of_ne_zero hopen⟩
      rw [hcount, hempty]
      exact Nat.zero_sub _
    · rw [hw] at hopen
      rcases hm p count buf hf (Nat.pos_of_ne_zero hempty) with ⟨hpos, -⟩ | ⟨-, hno | hrun⟩
      · omega
      · exact absurd hno hopen
      · exact Or.inr hrun
  | write p buf n =>
    refine Or.inl ?_
    have hturn : callTurn f m = ((pipeWriteTurn p buf n m.kernel).1,
        { m with kernel := (pipeWriteTurn p buf n m.kernel).2 }) := by simp only [callTurn, hf]
    rw [hturn] at hb ⊢
    exact pipeWriteTurn_block hb
  | console bufOk =>
    have hturn : callTurn f m = consoleTurn bufOk m := by rw [callTurn, hf]
    rw [hturn] at hb ⊢
    refine Or.inl (consoleTurn_unavailable bufOk ?_)
    by_contra hne
    simp only [consoleTurn, if_pos hne] at hb
    cases hb
  | wait pid statusOk => exact Or.inl trivial
  | exiting => exact Or.inl trivial

/-! ### Steps -/

theorem enter_fds (ctx : UserContext) (m : Machine) : (enter ctx m).kernel.fds = m.kernel.fds := by
  simp only [Kernel.fds, enter, onTask_currentTask, onTask_tasks_self]

/-- A system call, up to its first turn. -/
theorem Unheard.syscall (h : Unheard m) {ctx : UserContext} {ans : Answers} {sys : Sys}
    (hm : Heeds (.syscall ctx ans sys) m) (hs : sysDispatch ans sys (enter ctx m) = some m') :
    Unheard m' := by
  have hl := lulls_sysDispatch hs
  by_cases hx : ∃ status, sys = .exit status
  · obtain ⟨status, rfl⟩ := hx
    simp only [sysDispatch, Option.some.injEq] at hs
    subst hs
    exact h.quiet hl (still_exit status (enter ctx m))
  obtain ⟨hkeys, hp | ⟨call, rfl, hplain, hp⟩⟩ := sysDispatch_pipes hs fun status he => hx ⟨status, he⟩
  · exact h.quiet hl ⟨hp, hkeys⟩
  refine h.lulls hl fun c hc _ hlacks => ?_
  cases call with
  | pipe ufdOk =>
    have hsame : ∀ q, (procPipeAlloc m.kernel).1 ≠ some q → m'.kernel.pipes q = m.kernel.pipes q := by
      intro q hq
      rw [procPipeAlloc_fst] at hq
      rw [hp]
      exact sysPipe_others ufdOk (by rw [procPipeAlloc_fst]; exact hq)
    refine hlacks.pipes hkeys (fun q hsleeps hempty hopen => ?_) (fun q hsleeps hfull hopen => ?_) hc
    · rw [hsame q fun htaken => (hm q htaken).1 hsleeps]
      exact ⟨hempty, hopen⟩
    · rw [hsame q fun htaken => (hm q htaken).2 hsleeps]
      exact ⟨hfull, hopen⟩
  | close fd =>
    rcases @sysClose_pipes (enter ctx m).kernel ans fd with hsame | ⟨slot, file, hslot, hfd, hclosed⟩
    · exact hlacks.still ⟨hp.trans hsame, hkeys⟩
    have hend : m'.kernel.pipes = (closeEnd file (enter ctx m).kernel).pipes := hp.trans hclosed
    rw [enter_fds] at hfd
    refine hlacks.pipes hkeys (fun q hsleeps hempty hopen => ?_) (fun q hsleeps hfull hopen => ?_) hc <;>
      rw [hend] <;>
      rcases closeEnd_pipe file (enter ctx m).kernel q with hsame | ⟨hpipe, hcount, hr, hw⟩
    · rw [hsame]
      exact ⟨hempty, hopen⟩
    · rw [hcount, hw]
      have hlast := (hm slot file q hslot hfd hpipe).1
      exact ⟨hempty, uncountEnd_writers hopen fun he hone => hlast he hone hsleeps⟩
    · rw [hsame]
      exact ⟨hfull, hopen⟩
    · rw [hcount, hr]
      have hlast := (hm slot file q hslot hfd hpipe).2
      exact ⟨hfull, uncountEnd_readers hopen fun he hone => hlast he hone hsleeps⟩
  | dup _ | dup2 _ _ | fcntlDup _ _ | openPath _ _ | fork =>
    have hw := @widens_plain (enter ctx m).kernel ans _ hplain (fun _ => Call.noConfusion)
      fun _ => Call.noConfusion
    refine hlacks.pipes hkeys (fun q _ hempty hopen => ?_) (fun q _ hfull hopen => ?_) hc
    · rw [hp, (hw q).1]
      exact ⟨hempty, lt_of_lt_of_le hopen (hw q).2.2⟩
    · rw [hp, (hw q).1]
      exact ⟨hfull, lt_of_lt_of_le hopen (hw q).2.1⟩
  | exec _ | exit _ | wait _ _ | read _ _ _ | write _ _ _ => simp [Plain] at hplain

/-- A call that must wait starts another task, or its own goes to sleep over what is not there. -/
theorem Unheard.block (h : Unheard m) (hu : Lacks m f.call ∨ ∃ t, t ≠ m.cur ∧ m.state t = .runnable) :
    Unheard (schedBlockCurrent f m) := by
  rcases schedBlockCurrent_cases f m with ⟨m', hp, heq⟩ | ⟨hno, hrest⟩
  · rw [heq]
    exact h.quiet (lulls_activate hp) (still_activate hp)
  have hlacks : Lacks m f.call := by
    rcases hu with hu | ⟨t, hne, ht⟩
    · exact hu
    · exact absurd ht (hno t hne)
  have hmarked : Unheard (markBlocked f m) := by
    rintro c ⟨t, ht, hw⟩
    have hstill : Still m (markBlocked f m) := ⟨rfl, rfl⟩
    rcases eq_or_ne t m.cur with rfl | htc
    · simp only [markBlocked, Function.update_self, Option.some.injEq] at hw
      exact hw ▸ hlacks.still hstill
    · refine (h c ⟨t, ?_, ?_⟩).still hstill
      · rwa [Machine.state, markBlocked, setState, onTask_tasks_ne htc] at ht
      · have hupdate : Function.update m.waiting m.cur (some f.call) t = some c := hw
        rwa [Function.update_of_ne htc] at hupdate
  rcases hrest with ⟨rr, heq⟩ | ⟨next, rr, n, -, -, -, heq⟩ <;> rw [heq]
  · exact hmarked
  · refine hmarked.quiet (lulls_one (n := next) ?_ (fun u hu => ?_) rfl rfl ⟨rfl, rfl⟩) ⟨rfl, rfl⟩
    · simp [Machine.state, setState]
    · simp only [setState]
      exact onTask_tasks_ne hu ..

/-- A turn of a call that is not the end of `SYS_exit`. -/
theorem Unheard.turn (h : Unheard m)
    (hm : ∀ p count buf, f.call = .read p count buf → HeedsWriters p count m) : Unheard (turn f m) := by
  have h' := h.callTurn hm
  rcases turn_cases f m with ⟨r, -, heq⟩ | ⟨n, -, heq⟩ | ⟨hb, heq⟩ <;> rw [heq]
  · exact h'.quiet ((Lulls.refl _).after f.owner r) ⟨rfl, rfl⟩
  · exact h'
  · unfold waitInKernel
    split
    · split
      · next hp => exact h'.quiet (lulls_activate hp) (still_activate hp)
      · exact h'
    · refine h'.block ?_
      rcases callTurn_lacks hb hm with hl | ⟨t, hne, ht⟩
      · exact Or.inl hl
      · refine Or.inr ⟨t, ?_, (callTurn_block hb t).trans ht⟩
        rw [(callTurn_works f m).cur]
        exact hne

theorem Unheard.step (h : Unheard m) (hm : Heeds i m) (hs : step i m = some m') : Unheard m' := by
  rcases step_cases hs with ⟨ctx, ans, sys, rfl, -, hd⟩ | ⟨f, rfl, hmode, rfl⟩ |
    ⟨f, rfl, -, ⟨-, hp | ⟨-, rfl⟩⟩ | ⟨-, rfl⟩⟩ | ⟨scancode, rfl, rfl⟩
  · exact h.syscall hm hd
  · exact h.turn fun p count buf hf => hm f p count buf hmode hf
  · exact h.quiet (lulls_activate hp) (still_activate hp)
  · exact h
  · exact h.quiet (lulls_blockEnd f m) (still_blockEnd f m.cur m)
  · have hl : Lulls m { m with keyboard :=
        { m.keyboard with controller := m.keyboard.controller ++ [scancode] } } :=
      fun t ht => ⟨ht, rfl, fun _ hc => hc⟩
    refine h.lulls hl fun c hc _ hlacks => ?_
    cases c with
    | read q n b => exact hlacks
    | write q b n => exact hlacks
    | console bufOk =>
      have hno := hm ⟨bufOk, hc⟩
      rw [keyArrives, irq_masked, if_neg (by decide)] at hno
      exact hno
    | wait pid statusOk => trivial
    | exiting => trivial

/-! ### Runs -/

/-- A step of a small run. -/
theorem Reaches.next {Meets : Input → Machine → Prop} (hr : Reaches Meets m) (hm : Meets i m) :
    Reaches Meets (Sched.afterInputs [i] m) := by
  cases hs : Sched.step i m with
  | none => simpa [Sched.afterInputs, hs] using hr
  | some m' => simpa [Sched.afterInputs, hs] using hr.step i hm hs

end TypeOS.Sched
