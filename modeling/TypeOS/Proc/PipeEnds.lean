import TypeOS.Proc.Counted

/-! No pipe counts an end that nobody holds, in every run that stays clear of the calls that lose
    count.

    `Meets` says what a call must stay clear of. A `dup2` closes its target without `SYS_close`, an
    `exec` closes from 3 on without it, an exit closes nothing, a fork that fails half way gives its
    slot back with the descriptors in it; and a write looks at the readers only when the pipe is
    full. -/

namespace TypeOS.Proc

open Kernel

/-- The calls that keep the counters exact: a `dup2` onto an open descriptor that is no pipe end and
    not its own source, with memory for the copy; a fork that is not refused memory after its first
    pipe end; an `exec` with no pipe end above 2; an exit without pipe ends; and a write to a pipe
    that nobody reads only when the pipe is full and the buffer is accepted. -/
def Meets (ans : Answers) (c : Call) (k : Kernel) : Prop :=
  match c with
  | .dup2 oldfd newfd => ∀ fd h, toFd newfd = some fd → k.fds fd = some h → fdGet oldfd k ≠ none →
      (k.files h).pipe = none ∧ oldfd ≠ newfd ∧
        ∃ a, ans.kmalloc 0 = some a ∧ a ∉ k.live.erase h
  | .fork => ∀ fd fd' h h', fd < fd' → k.fds fd = some h → (k.files h).pipe ≠ none →
      k.fds fd' = some h' → Granted ans k (fd'.val + 1)
  | .exec found => found = true → ∀ fd h, 3 ≤ fd.val → k.fds fd = some h → (k.files h).pipe = none
  | .exit _ => ∀ fd h, k.fds fd = some h → (k.files h).pipe = none
  | .write fd buf done => ∀ p, writePipe fd k = some p → done < buf.bytes.length →
      readEnds k p = 0 → (k.pipes p).count = pipeSize ∧ buf.ok done (chunk buf done).length = true
  | _ => True

variable {k : Kernel}

theorem openEnd_none (hl : (k.tasks k.currentTask).Live) {fd : Fd}
    (h : ∀ h, k.fds fd = some h → (k.files h).pipe = none) : openEnd k (k.currentTask, fd) = none := by
  cases hfd : k.fds fd with
  | none =>
    have : held k (k.currentTask, fd) = none := by
      simp only [Kernel.fds] at hfd
      simp [held, hfd]
    rw [openEnd, this, Option.bind_none]
  | some g => rw [openEnd, held_fds hl hfd, Option.bind_some, VfsFile.end, h g hfd, Option.map_none]

/-- Every call that meets the condition keeps the counters exact. -/
theorem Exact.dispatch (e : Exact k) (hl : (k.tasks k.currentTask).Live) {ans : Answers} {c : Call}
    (hm : Meets ans c k) : Exact (dispatch ans c k).2 := by
  cases c with
  | pipe ufdOk => exact e.sysPipe hl
  | dup oldfd => exact e.dup hl
  | dup2 oldfd newfd =>
    simp only [Proc.dispatch, atOnce, sysDup2]
    split
    · exact e
    · exact e.dupTo hl (by omega) hm
  | fcntlDup oldfd minfd => exact e.dupFrom hl
  | openPath path node => exact e.openPath hl
  | close fd => exact e.close hl
  | fork => exact e.fork hl hm
  | exec found => exact e.exec hl fun hf fd h3 => openEnd_none hl fun h => hm hf fd h h3
  | exit status => exact e.exit fun fd => openEnd_none hl (hm fd)
  | wait pid statusOk =>
    have : Exact (procForkTakeStatus pid k).2 := e.wait
    simp only [Proc.dispatch, waitTurn]
    split
    · next heq => rw [heq] at this; exact this
    · next heq => rw [heq] at this; split <;> exact this
  | read fd count buf =>
    simp only [Proc.dispatch]
    split
    · exact e
    · exact e.readTurn ..
  | write fd buf done =>
    simp only [Proc.dispatch]
    split
    · exact e
    · exact e.writeTurn ..

/-! ### Runs -/

theorem Exact.openConsole (e : Exact k) (hl : (k.tasks k.currentTask).Live) (answer : Option Handle)
    (fd : Fd) : Exact (procOpenConsoleFd answer fd k) ∧
      ((procOpenConsoleFd answer fd k).tasks (procOpenConsoleFd answer fd k).currentTask).Live := by
  unfold procOpenConsoleFd
  split
  · exact ⟨e, hl⟩
  · next hfd =>
    rcases kmalloc_cases answer k with hm | ⟨h, -, hh, hm⟩ <;> rw [hm]
    · exact ⟨e, hl⟩
    · refine ⟨e.install { VfsFile.fresh with path := "/dev/console" } hl hfd hh (by simp [VfsFile.fresh])
        rfl rfl rfl ?_, (setFd_live k.currentTask (some h)).mpr hl⟩
      simp [unit, VfsFile.end, VfsFile.fresh, setFd, setFile]

/-- Before the first descriptor is opened. -/
structure Blank (k : Kernel) : Prop where
  fds : ∀ t fd, (k.tasks t).fds fd = none
  pipes : ∀ p, (k.pipes p).inUse = false
  cur : k.currentTask = 0

theorem Blank.onTask (b : Blank k) (t : Tid) (f : Process → Process) (hf : ∀ p, (f p).fds = p.fds) :
    Blank (k.onTask t f) := by
  refine ⟨fun u fd => ?_, b.pipes, b.cur⟩
  by_cases hu : u = t
  · rw [hu, onTask_tasks_self, hf]
    exact b.fds t fd
  · rw [onTask_tasks_ne hu]
    exact b.fds u fd

theorem Blank.stack (b : Blank k) (answer : Option Handle) : Blank (procInitStack answer k) := by
  unfold procInitStack
  rcases kmalloc_cases answer k with hm | ⟨h, -, -, hm⟩ <;> rw [hm]
  · exact b
  · have b' : Blank { k with live := insert h k.live } := ⟨b.fds, b.pipes, b.cur⟩
    exact b'.onTask 0 _ fun _ => rfl

theorem Blank.exact (b : Blank k) : Exact k := by
  have hheld : ∀ x, held k x = none := fun x => by simp [held, b.fds]
  refine ⟨⟨fun x h hx => ?_, fun x y h hx => ?_, fun x h p hx => ?_⟩, fun p hu => ?_, fun p hu => ?_,
    fun p _ x e => ?_⟩
  · simp [hheld] at hx
  · simp [hheld] at hx
  · simp [hheld] at hx
  · simp [b.pipes] at hu
  · simp [b.pipes] at hu
  · simp [openEnd, hheld]

theorem exact_init (ans : Answers) (live : Finset Handle) (files : Handle → VfsFile) (pml4 : Nat) :
    Exact (procInit ans (Kernel.zero live files pml4)) := by
  have b₀ : Blank { Kernel.zero live files pml4 with tasks := fun _ => Process.zero, currentTask := 0 } :=
    ⟨fun _ _ => rfl, fun _ => rfl, rfl⟩
  have b₁ := (b₀.onTask 0 (fun p => { p with
    pid := 1, ppid := 0, sid := 1, pgid := 1, brk := userBrkStart, cr3 := pml4 }) fun _ => rfl).stack
      (ans.kmalloc 0)
  unfold procInit
  change Blank (procInitStack (ans.kmalloc 0) _) at b₁
  generalize hk : procInitStack (ans.kmalloc 0) _ = k at b₁
  have b := b₁.onTask 0 (fun p => { p with state := .running, cwd := "/" }) fun _ => rfl
  have hl : ((k.onTask 0 fun p => { p with state := .running, cwd := "/" }).tasks
      (k.onTask 0 fun p => { p with state := .running, cwd := "/" }).currentTask).Live := by
    rw [b.cur]
    simp [Process.Live]
  obtain ⟨e₁, hl₁⟩ := b.exact.openConsole hl (ans.kmalloc 1) 0
  obtain ⟨e₂, hl₂⟩ := e₁.openConsole hl₁ (ans.kmalloc 2) 1
  have e₃ := (e₂.openConsole hl₂ (ans.kmalloc 3) 2).1
  rw [← hk] at e₃
  exact e₃

/-- The counters of the pipes in use are backed by descriptors. -/
def EndsCounted (k : Kernel) : Prop :=
  ∀ p, (k.pipes p).inUse = true →
    (k.pipes p).readers ≤ readEnds k p ∧ (k.pipes p).writers ≤ writeEnds k p

theorem Reaches.exact (hr : Reaches Meets k) : Exact k := by
  induction hr with
  | init ans live files pml4 => exact exact_init ans live files pml4
  | @schedule k t state _ hl hu hz ih =>
    have hheld : held (k.setState t state) = held k :=
      held_onTask (by simpa [Process.Live, hu, hz] using hl) fun _ => rfl
    exact ih.forget (fun x => Or.inl (congrFun hheld x)) rfl rfl rfl
  | switch t _ _ ih => exact ih.forget (fun x => Or.inl rfl) rfl rfl rfl
  | call ans c _ hl hm ih => exact ih.dispatch hl hm

/-- A descriptor for reading is open on a read end, one for writing on a write end. -/
theorem readPipe_some {fd : Int} {p : PipeId} (h : readPipe fd k = some p) :
    ∃ f h, k.fds f = some h ∧ (k.files h).pipe = some p ∧ (k.files h).pipeEnd = 0 := by
  unfold readPipe at h
  split at h
  · simp at h
  · next g hg =>
    obtain ⟨f, -, hf⟩ := fdGet_some hg
    split at h
    · next h0 => exact ⟨f, g, hf, h, h0⟩
    · simp at h

theorem writePipe_some {fd : Int} {p : PipeId} (h : writePipe fd k = some p) :
    ∃ f h, k.fds f = some h ∧ (k.files h).pipe = some p ∧ (k.files h).pipeEnd = 1 := by
  unfold writePipe at h
  split at h
  · simp at h
  · next g hg =>
    obtain ⟨f, -, hf⟩ := fdGet_some hg
    split at h
    · simp at h
    · split at h
      · next h1 => exact ⟨f, g, hf, h, h1⟩
      · simp at h

theorem Pipe.read_empty {q : Pipe} (h : q.count = 0) (n : Nat) : q.read n = ([], q) := by
  cases n with
  | zero => rfl
  | succ n => simp [Pipe.read, h]

theorem Pipe.write_full {q : Pipe} (h : q.count = pipeSize) (bytes : List UInt8) :
    q.write bytes = (0, q) := by
  cases bytes with
  | nil => rfl
  | cons b bytes => simp [Pipe.write, h]

theorem onPipe_self (p : PipeId) : (k.onPipe p fun _ => k.pipes p) = k := by
  simp [onPipe]

/-- In every state that calls meeting the condition lead to, no pipe counts an end nobody holds; a
    read of an empty pipe without a held write end returns 0, and a write of at least one byte to a
    pipe without a held read end returns `-EPIPE` and changes nothing. -/
theorem pipe_ends_counted (hr : Reaches Meets k) :
    EndsCounted k ∧ ((k.tasks k.currentTask).Live →
      (∀ ans fd count buf p, readPipe fd k = some p → (k.pipes p).count = 0 → writeEnds k p = 0 →
        dispatch ans (.read fd count buf) k = (.done 0, k)) ∧
      (∀ ans fd buf p, writePipe fd k = some p → 0 < buf.bytes.length → readEnds k p = 0 →
        Meets ans (.write fd buf 0) k → dispatch ans (.write fd buf 0) k = (.done ePipe, k))) := by
  have e := hr.exact
  refine ⟨fun p hp => ⟨(e.readers p hp).le, (e.writers p hp).le⟩, fun hl => ⟨?_, ?_⟩⟩
  · intro ans fd count buf p hp hc hw
    obtain ⟨f, h, hf, hpipe, -⟩ := readPipe_some hp
    have hu := (e.held_end (held_fds hl hf) hpipe).2
    have hz : (k.pipes p).writers = 0 := (e.writers p hu).trans hw
    simp only [Proc.dispatch, hp, pipeReadTurn, Pipe.read_empty hc, onPipe_self, List.length_nil,
      lt_irrefl, if_false, hz, if_true]
  · intro ans fd buf p hp hn hz hm
    obtain ⟨f, h, hf, hpipe, -⟩ := writePipe_some hp
    have hu := (e.held_end (held_fds hl hf) hpipe).2
    have hr0 : (k.pipes p).readers = 0 := (e.readers p hu).trans hz
    obtain ⟨hfull, hok⟩ := hm p hp hn hz
    simp only [Proc.dispatch, hp, pipeWriteTurn, hn, if_true, hok, Pipe.write_full hfull, onPipe_self,
      lt_irrefl, if_false, hr0]

/-- A heap with room: it answers with fresh addresses from `a` on. -/
def roomy (a : Handle) : Answers :=
  { kmalloc := fun n => some (a + n), freed := VfsFile.fresh, cloneCr3 := 0, image := none }

/-- The first task makes a pipe. -/
def pipeMade : Kernel :=
  (dispatch (roomy 10) (.pipe true) (procInit (roomy 1) (Kernel.zero ∅ (fun _ => VfsFile.fresh) 0))).2

theorem pipeMade_reaches (M : Answers → Call → Kernel → Prop)
    (h : ∀ ans ufdOk k, M ans (.pipe ufdOk) k) : Reaches M pipeMade :=
  .call _ _ (.init ..) (by decide) (h ..)

theorem pipe_ends_counted_pipeMade : EndsCounted pipeMade :=
  (pipe_ends_counted (pipeMade_reaches Meets fun _ _ _ => trivial)).1

/-- The first task makes a pipe and exits: the pipe counts a reader and a writer, and there are
    none. -/
theorem exit_keeps_counters :
    ¬ ∀ k, Reaches (fun _ _ _ => True) k → EndsCounted k := by
  intro h
  have hr := Reaches.call (roomy 0) (.exit 0) (pipeMade_reaches (fun _ _ _ => True) fun _ _ _ => trivial)
    (by decide) trivial
  have hlive : ∀ t, ¬ ((dispatch (roomy 0) (.exit 0) pipeMade).2.tasks t).Live := by decide
  have hends : readEnds (dispatch (roomy 0) (.exit 0) pipeMade).2 0 = 0 := by
    refine count_eq_zero.mpr fun x => ?_
    rw [openEnd, held, if_neg (hlive x.1)]
    simp
  have hcount : ((dispatch (roomy 0) (.exit 0) pipeMade).2.pipes 0).readers = 1 := by decide
  have := (h _ hr 0 (by decide)).1
  rw [hends, hcount] at this
  exact absurd this (by decide)

end TypeOS.Proc
