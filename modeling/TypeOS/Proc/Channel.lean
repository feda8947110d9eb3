import TypeOS.Proc.Inherit
import TypeOS.Proc.Fifo

/-! A pipe carries what is written to it to those who read from it.

    Tasks share a pipe through descriptors that are duplicated, inherited and closed in any order, and
    its slot is used again for another pipe when the last end is closed. A run is kept with what was
    written to each pipe and what was read from it since it was made (`Logged`). Only the turns of a
    read and a write, and the call that makes a pipe, touch the bytes of one in use (`dispatch_bytes`),
    so what was written is what was read and then what the pipe holds. The counters are never too low:
    a reader is told of the end only when no task can write any more, and a writer that nobody reads
    only when that is so. -/

namespace TypeOS.Proc

open Kernel

variable {k k' k'' : Kernel} {ans : Answers} {p : PipeId} {h src dst : Handle} {fd : Fd}

/-! ### Bytes that stay where they are -/

/-- The same bytes at the same place. -/
structure Pipe.Same (q q' : Pipe) : Prop where
  buf : q'.buf = q.buf
  head : q'.head = q.head
  tail : q'.tail = q.tail
  count : q'.count = q.count

theorem Pipe.Same.refl (q : Pipe) : q.Same q := ⟨rfl, rfl, rfl, rfl⟩

theorem Pipe.Same.trans {q q' q'' : Pipe} (h : q.Same q') (h' : q'.Same q'') : q.Same q'' :=
  ⟨h'.buf.trans h.buf, h'.head.trans h.head, h'.tail.trans h.tail, h'.count.trans h.count⟩

theorem Pipe.Same.held {q q' : Pipe} (h : q.Same q') : q'.held = q.held := by
  rw [Pipe.held, Pipe.held, h.buf, h.tail, h.count]

theorem Pipe.Same.ring {q q' : Pipe} (h : q.Same q') (r : q.Ring) : q'.Ring :=
  ⟨h.tail ▸ r.tail, h.count ▸ r.count, by rw [h.head, h.tail, h.count]; exact r.head⟩

/-- No pipe comes into use, and those that stay in use keep their bytes. -/
def Quiet (k k' : Kernel) : Prop :=
  ∀ p, (k'.pipes p).inUse = true → (k.pipes p).inUse = true ∧ (k.pipes p).Same (k'.pipes p)

theorem Quiet.of_pipes (hp : k'.pipes = k.pipes) : Quiet k k' := by
  intro p hu
  rw [hp] at hu ⊢
  exact ⟨hu, .refl _⟩

theorem Quiet.trans (h : Quiet k k') (h' : Quiet k' k'') : Quiet k k'' := by
  intro p hu
  obtain ⟨hu', hsame'⟩ := h' p hu
  obtain ⟨hu'', hsame⟩ := h p hu'
  exact ⟨hu'', hsame.trans hsame'⟩

/-- A change to one pipe that only counts, or gives it back. -/
theorem Quiet.onPipe {f : Pipe → Pipe}
    (hf : (f (k.pipes p)).inUse = true → (k.pipes p).inUse = true ∧ (k.pipes p).Same (f (k.pipes p))) :
    Quiet k (k.onPipe p f) := by
  intro q hu
  rcases eq_or_ne q p with rfl | hne
  · rw [onPipe_pipes_self] at hu ⊢
    exact hf hu
  · rw [onPipe_pipes_ne hne] at hu ⊢
    exact ⟨hu, .refl _⟩

theorem copyFile_quiet (src dst : Handle) (k : Kernel) : Quiet k (copyFile src dst k) := by
  intro p hu
  rw [copyFile_pipes] at hu ⊢
  exact ⟨hu, rfl, rfl, rfl, rfl⟩

/-! ### The calls that move no bytes -/

theorem fdDupTo_quiet (ans : Answers) (oldfd newfd : Int) (k : Kernel) :
    Quiet k (fdDupTo ans oldfd newfd k).2 := by
  rw [fdDupTo]
  split
  · exact .of_pipes rfl
  next src _ =>
  split
  · rcases fdAlloc_cases (ans.kmalloc 0) k with hm | ⟨fd, dst, -, -, hm⟩ <;> rw [hm]
    · exact .of_pipes rfl
    · exact (Quiet.of_pipes rfl).trans (copyFile_quiet src dst _)
  split
  · exact .of_pipes rfl
  next fd _ =>
  have hdrop : Quiet k (dropTarget ans.freed fd k) := by
    rw [dropTarget]
    split <;> exact .of_pipes rfl
  rcases kmalloc_cases (ans.kmalloc 0) (dropTarget ans.freed fd k) with hm | ⟨dst, -, -, hm⟩ <;> rw [hm]
  · exact hdrop
  · exact hdrop.trans ((Quiet.of_pipes rfl).trans (copyFile_quiet src dst _))

theorem fdDupFrom_quiet (ans : Answers) (oldfd minfd : Int) (k : Kernel) :
    Quiet k (fdDupFrom ans oldfd minfd k).2 := by
  rcases dupFrom_cases ans oldfd minfd k with ⟨r, hr⟩ | ⟨f, src, fd, dst, k', -, hprep, hr⟩ <;> rw [hr]
  · exact .of_pipes rfl
  · exact (Quiet.of_pipes hprep.pipes).trans (copyFile_quiet src dst k')

theorem sysOpenPath_quiet (ans : Answers) (path : String) (node : Option Nat) (k : Kernel) :
    Quiet k (sysOpenPath ans path node k).2 := by
  rw [sysOpenPath]
  rcases fdAlloc_cases (ans.kmalloc 0) k with hm | ⟨fd, h, -, -, hm⟩ <;> rw [hm] <;> dsimp only
  · exact .of_pipes rfl
  · split
    · exact .of_pipes rfl
    split <;> exact .of_pipes rfl

theorem closeEnd_quiet (h : Handle) (k : Kernel) : Quiet k (closeEnd h k) := by
  rw [closeEnd]
  split
  · exact .of_pipes rfl
  next p _ =>
  have hcount : Quiet k (k.onPipe p (uncountEnd (k.files h))) := by
    refine .onPipe fun hu => ?_
    rw [uncountEnd] at hu ⊢
    split_ifs at hu ⊢ <;> exact ⟨hu, rfl, rfl, rfl, rfl⟩
  dsimp only
  split
  · exact hcount.trans (.onPipe fun hu => absurd hu Bool.false_ne_true)
  · exact hcount

theorem sysClose_quiet (ans : Answers) (n : Int) (k : Kernel) : Quiet k (sysClose ans n k).2 := by
  rcases sysClose_cases ans n k with hr | ⟨fd, h, -, -, hr⟩ <;> rw [hr]
  · exact .of_pipes rfl
  · exact (closeEnd_quiet h k).trans (.of_pipes rfl)

theorem procFork_quiet (ans : Answers) (k : Kernel) : Quiet k (procFork ans k).2 := by
  have hturn : ∀ (parent child : Tid) (fd : Fd) (k : Kernel), Quiet k (forkFd ans parent child fd k).2 := by
    intro parent child fd k
    rw [forkFd]
    split
    · exact .of_pipes rfl
    next src _ =>
    rcases kmalloc_cases (ans.kmalloc (fd.val + 1)) k with hm | ⟨dst, -, -, hm⟩ <;> rw [hm]
    · exact .of_pipes rfl
    · exact (Quiet.of_pipes rfl).trans (copyFile_quiet src dst _)
  rw [procFork]
  rcases procAllocTask_cases (ans.kmalloc 0) k with
    ⟨k', hm, -, -, -, hp⟩ | ⟨c, k', h, hm, -, -, -, -, -, hp, -⟩ <;> rw [hm] <;> dsimp only
  · exact .of_pipes hp
  split
  · exact .of_pipes hp
  have hloop : Quiet k (forEach (forkFd ans k.currentTask c) (List.finRange procMaxFd)
      (k'.onTask c fun child => forkSlot k.currentTask (k'.tasks k.currentTask) child ans.cloneCr3)).2 :=
    forEach_inv (fun fd _ s hs => hs.trans (hturn _ _ fd s)) (.of_pipes hp)
  generalize forEach _ _ _ = res at hloop ⊢
  obtain ⟨ok, k''⟩ := res
  cases ok <;> exact hloop.trans (.of_pipes rfl)

theorem procExec_quiet (ans : Answers) (found : Bool) (k : Kernel) : Quiet k (procExec ans found k).2 := by
  have hclose : ∀ (l : List Fd) (k : Kernel), (l.foldl (closeSlot ans.freed) k).pipes = k.pipes := by
    intro l
    induction l with
    | nil => exact fun _ => rfl
    | cons fd l ih =>
      intro k
      refine (ih _).trans ?_
      rw [closeSlot]
      split <;> rfl
  have hall : (procFdCloseAll ans.freed k).pipes = k.pipes := hclose _ k
  refine .of_pipes ?_
  rw [procExec]
  dsimp only
  split
  · split <;> split <;> exact hall
  · rfl

theorem exitCurrent_quiet (status : Int) (k : Kernel) : Quiet k (exitCurrent status k) := by
  rw [exitCurrent, procWakeParent]
  split
  · exact .of_pipes rfl
  · split <;> exact .of_pipes rfl

theorem procForkTakeStatus_quiet (pid : Int) (k : Kernel) : Quiet k (procForkTakeStatus pid k).2 := by
  rw [procForkTakeStatus]
  split <;> exact .of_pipes rfl

/-! ### The calls that do -/

/-- What a turn of a call puts into a pipe. -/
def puts (c : Call) (k : Kernel) (p : PipeId) : List UInt8 :=
  match c with
  | .write fd buf done =>
    if writePipe fd k = some p ∧ done < buf.bytes.length ∧ buf.ok done (chunk buf done).length = true then
      (chunk buf done).take ((k.pipes p).write (chunk buf done)).1
    else []
  | _ => []

/-- What it takes out of it. -/
def takes (c : Call) (k : Kernel) (p : PipeId) : List UInt8 :=
  match c with
  | .read fd count _ => if readPipe fd k = some p then ((k.pipes p).read count).1 else []
  | _ => []

/-- What a call leaves of a pipe that is in use afterwards: what it held goes out in front, and new bytes
    come in behind; or the pipe is a new one. -/
structure Moves (c : Call) (k k' : Kernel) (p : PipeId) : Prop where
  inUse : (k.pipes p).inUse = true
  ring : (k.pipes p).Ring → (k'.pipes p).Ring
  held : (k.pipes p).Ring → (k.pipes p).held ++ puts c k p = takes c k p ++ (k'.pipes p).held

/-- A pipe that was not in use and is empty. -/
structure Made (k k' : Kernel) (p : PipeId) : Prop where
  free : (k.pipes p).inUse = false
  ring : (k'.pipes p).Ring
  empty : (k'.pipes p).held = []

theorem Moves.same {c : Call} (hu : (k.pipes p).inUse = true) (hs : (k.pipes p).Same (k'.pipes p))
    (hputs : puts c k p = []) (htakes : takes c k p = []) : Moves c k k' p :=
  ⟨hu, hs.ring, fun _ => by rw [hputs, htakes, hs.held, List.append_nil, List.nil_append]⟩

theorem sysPipe_bytes (ans : Answers) (ufdOk : Bool) (hu : ((sysPipe ans ufdOk k).2.pipes p).inUse = true) :
    Moves (.pipe ufdOk) k (sysPipe ans ufdOk k).2 p ∨ Made k (sysPipe ans ufdOk k).2 p := by
  have hsame : ∀ {k'}, (k'.pipes p).inUse = true → k'.pipes p = k.pipes p → Moves (.pipe ufdOk) k k' p := by
    intro k' hu hk'
    rw [hk'] at hu
    exact .same hu (by rw [hk']; exact .refl _) rfl rfl
  rcases sysPipe_cases ans ufdOk k with ⟨-, hr | ⟨q, hr⟩⟩ | ⟨q, rfd, wfd, rf, wf, htakes, hr⟩
  · rw [hr] at hu ⊢
    exact .inl (hsame hu rfl)
  · have hne : p ≠ q := by
      rintro rfl
      rw [hr.pipe] at hu
      exact absurd hu Bool.false_ne_true
    exact .inl (hsame hu (hr.pipes p hne))
  · rw [hr] at hu ⊢
    rcases eq_or_ne p q with rfl | hne
    · refine .inr ⟨htakes.free, ?_, ?_⟩
      · simp only [connect, install, onPipe_pipes_self, setFile, setFd, onTask_pipes]
        exact ⟨by decide, by decide, by decide⟩
      · simp only [connect, install, onPipe_pipes_self, setFile, setFd, onTask_pipes]
        rfl
    · refine .inl (hsame hu ?_)
      simp only [connect, install, setFile, setFd, onPipe_pipes_ne hne, onTask_pipes]

theorem readTurn_bytes {n : Int} {count : Nat} {buf : UserBuf} {q : PipeId} (hq : readPipe n k = some q)
    (hu : ((pipeReadTurn q count buf k).2.pipes p).inUse = true) :
    Moves (.read n count buf) k (pipeReadTurn q count buf k).2 p := by
  have hpipes : (pipeReadTurn q count buf k).2.pipes =
      (k.onPipe q fun _ => ((k.pipes q).read count).2).pipes := by
    rw [pipeReadTurn]
    split_ifs <;> rfl
  rcases eq_or_ne p q with rfl | hne
  · have hself : (pipeReadTurn p count buf k).2.pipes p = ((k.pipes p).read count).2 := by
      rw [hpipes, onPipe_pipes_self]
    rw [hself, (Pipe.read_ends count _).1] at hu
    refine ⟨hu, fun r => ?_, fun r => ?_⟩
    · rw [hself]
      exact (r.read count).1
    · have hputs : puts (.read n count buf) k p = [] := rfl
      rw [hself, hputs, takes, if_pos hq, List.append_nil]
      exact (r.read count).2.2
  · have hother : (pipeReadTurn q count buf k).2.pipes p = k.pipes p := by
      rw [hpipes, onPipe_pipes_ne hne]
    rw [hother] at hu
    refine .same hu (by rw [hother]; exact .refl _) rfl ?_
    rw [takes, if_neg]
    rw [hq, Option.some_inj]
    exact hne.symm

theorem writeTurn_bytes {n : Int} {buf : UserBuf} {done : Nat} {q : PipeId} (hq : writePipe n k = some q)
    (hu : ((pipeWriteTurn q buf done k).2.pipes p).inUse = true) :
    Moves (.write n buf done) k (pipeWriteTurn q buf done k).2 p := by
  by_cases hgo : done < buf.bytes.length ∧ buf.ok done (chunk buf done).length = true
  · have hpipes : (pipeWriteTurn q buf done k).2.pipes =
        (k.onPipe q fun _ => ((k.pipes q).write (chunk buf done)).2).pipes := by
      rw [pipeWriteTurn, if_pos hgo.1, if_pos hgo.2]
      dsimp only
      split_ifs <;> rfl
    rcases eq_or_ne p q with rfl | hne
    · have hself : (pipeWriteTurn p buf done k).2.pipes p = ((k.pipes p).write (chunk buf done)).2 := by
        rw [hpipes, onPipe_pipes_self]
      rw [hself, (Pipe.write_ends _ _).1] at hu
      refine ⟨hu, fun r => ?_, fun r => ?_⟩
      · rw [hself]
        exact (r.write _).1
      · have htakes : takes (.write n buf done) k p = [] := rfl
        rw [hself, puts, htakes, if_pos ⟨hq, hgo⟩, List.nil_append]
        exact (r.write _).2.2.symm
    · have hother : (pipeWriteTurn q buf done k).2.pipes p = k.pipes p := by
        rw [hpipes, onPipe_pipes_ne hne]
      rw [hother] at hu
      refine .same hu (by rw [hother]; exact .refl _) ?_ rfl
      rw [puts, if_neg]
      rw [hq, Option.some_inj]
      exact fun hc => hne hc.1.symm
  · have hsame : (pipeWriteTurn q buf done k).2 = k := by
      rw [pipeWriteTurn]
      split
      · next hlt => rw [if_neg fun hok => hgo ⟨hlt, hok⟩]
      · rfl
    rw [hsame] at hu ⊢
    refine .same hu (.refl _) ?_ rfl
    rw [puts, if_neg fun hc => hgo hc.2]

/-- What one call can do to a pipe. -/
theorem dispatch_bytes (ans : Answers) (c : Call) (hu : ((dispatch ans c k).2.pipes p).inUse = true) :
    Moves c k (dispatch ans c k).2 p ∨ Made k (dispatch ans c k).2 p := by
  have hquiet : Quiet k (dispatch ans c k).2 → puts c k p = [] → takes c k p = [] →
      Moves c k (dispatch ans c k).2 p ∨ Made k (dispatch ans c k).2 p := fun hq hputs htakes =>
    .inl (.same (hq p hu).1 (hq p hu).2 hputs htakes)
  cases c with
  | pipe ufdOk => exact sysPipe_bytes ans ufdOk hu
  | dup oldfd => exact hquiet (fdDupTo_quiet ans oldfd (-1) k) rfl rfl
  | dup2 oldfd newfd =>
    refine hquiet ?_ rfl rfl
    simp only [dispatch, atOnce, sysDup2]
    split
    · exact .of_pipes rfl
    · exact fdDupTo_quiet ans oldfd newfd k
  | fcntlDup oldfd minfd => exact hquiet (fdDupFrom_quiet ans oldfd minfd k) rfl rfl
  | openPath path node => exact hquiet (sysOpenPath_quiet ans path node k) rfl rfl
  | close fd => exact hquiet (sysClose_quiet ans fd k) rfl rfl
  | fork => exact hquiet (procFork_quiet ans k) rfl rfl
  | exec found => exact hquiet (procExec_quiet ans found k) rfl rfl
  | exit status => exact hquiet (exitCurrent_quiet status k) rfl rfl
  | wait pid statusOk =>
    refine hquiet ?_ rfl rfl
    have hwait := procForkTakeStatus_quiet pid k
    simp only [dispatch, waitTurn]
    split
    · next heq => rwa [heq] at hwait
    · next heq =>
      rw [heq] at hwait
      split <;> exact hwait
  | read n count buf =>
    simp only [dispatch] at hu hquiet ⊢
    cases hq : readPipe n k with
    | none =>
      rw [hq] at hu
      have hnone : takes (.read n count buf) k p = [] := by
        rw [takes, hq, if_neg (by simp)]
      exact .inl (.same hu (.refl _) rfl hnone)
    | some q =>
      rw [hq] at hu
      exact .inl (readTurn_bytes hq hu)
  | write n buf done =>
    simp only [dispatch] at hu hquiet ⊢
    cases hq : writePipe n k with
    | none =>
      rw [hq] at hu
      have hnone : puts (.write n buf done) k p = [] := by
        rw [puts, hq, if_neg (by simp)]
      exact .inl (.same hu (.refl _) hnone rfl)
    | some q =>
      rw [hq] at hu
      exact .inl (writeTurn_bytes hq hu)

/-! ### Runs -/

/-- For each pipe a list of bytes. -/
abbrev Log : Type := PipeId → List UInt8

variable {w r : Log}

/-- The states that any tasks bring about with calls whose `dup2`s go to other descriptors, with what was
    written to each pipe and what was read from it since it was made. -/
inductive Logged : Kernel → Log → Log → Prop
  | init (ans : Answers) (live : Finset Handle) (files : Handle → VfsFile) (pml4 : Nat) :
      Logged (procInit ans (Kernel.zero live files pml4)) (fun _ => []) (fun _ => [])
  | schedule {k : Kernel} {w r : Log} (t : Tid) (state : TaskState) : Logged k w r →
      (k.tasks t).Live → state ≠ .unused → state ≠ .zombie → Logged (k.setState t state) w r
  | switch {k : Kernel} {w r : Log} (t : Tid) : Logged k w r → (k.tasks t).Live →
      Logged { k with currentTask := t } w r
  | call {k : Kernel} {w r : Log} (ans : Answers) (c : Call) : Logged k w r →
      (k.tasks k.currentTask).Live → Serves ans c k → c.Distinct →
      Logged (dispatch ans c k).2 (fun p => if (k.pipes p).inUse then w p ++ puts c k p else [])
        (fun p => if (k.pipes p).inUse then r p ++ takes c k p else [])

/-- The states are those of the runs without the logs. -/
theorem Logged.reaches (h : Logged k w r) : Reaches (fun ans c k => Serves ans c k ∧ c.Distinct) k := by
  induction h with
  | init ans live files pml4 => exact .init ans live files pml4
  | schedule t state _ hl hu hz ih => exact .schedule t state ih hl hu hz
  | switch t _ hl ih => exact .switch t ih hl
  | call ans c _ hl hs hd ih => exact .call ans c ih hl ⟨hs, hd⟩

theorem Reaches.logged (h : Reaches (fun ans c k => Serves ans c k ∧ c.Distinct) k) :
    ∃ w r, Logged k w r := by
  induction h with
  | init ans live files pml4 => exact ⟨_, _, .init ans live files pml4⟩
  | schedule t state _ hl hu hz ih =>
    obtain ⟨w, r, h⟩ := ih
    exact ⟨w, r, .schedule t state h hl hu hz⟩
  | switch t _ hl ih =>
    obtain ⟨w, r, h⟩ := ih
    exact ⟨w, r, .switch t h hl⟩
  | call ans c _ hl hm ih =>
    obtain ⟨w, r, h⟩ := ih
    exact ⟨_, _, .call ans c h hl hm.1 hm.2⟩

/-- What was written to a pipe in use was read from it, or it holds it. -/
def Carries (k : Kernel) (w r : Log) : Prop :=
  ∀ p, (k.pipes p).inUse = true → (k.pipes p).Ring ∧ w p = r p ++ (k.pipes p).held

theorem procInit_pipes (ans : Answers) (k : Kernel) : (procInit ans k).pipes = k.pipes := by
  have hconsole : ∀ (answer : Option Handle) (fd : Fd) (k : Kernel),
      (procOpenConsoleFd answer fd k).pipes = k.pipes := by
    intro answer fd k
    rw [procOpenConsoleFd]
    split
    · rfl
    · rcases kmalloc_cases answer k with hm | ⟨h, -, -, hm⟩ <;> rw [hm]
      rfl
  have hstack : ∀ (answer : Option Handle) (k : Kernel), (procInitStack answer k).pipes = k.pipes := by
    intro answer k
    rw [procInitStack]
    rcases kmalloc_cases answer k with hm | ⟨h, -, -, hm⟩ <;> rw [hm]
    rfl
  rw [procInit, hconsole, hconsole, hconsole]
  exact hstack ..

/-- Every call goes on with the logs. -/
theorem Carries.call (h : Carries k w r) (ans : Answers) (c : Call) :
    Carries (dispatch ans c k).2 (fun p => if (k.pipes p).inUse then w p ++ puts c k p else [])
      (fun p => if (k.pipes p).inUse then r p ++ takes c k p else []) := by
  intro p hu
  rcases dispatch_bytes ans c hu with hmoves | hmade
  · obtain ⟨hring, hw⟩ := h p hmoves.inUse
    refine ⟨hmoves.ring hring, ?_⟩
    dsimp only
    rw [if_pos hmoves.inUse, if_pos hmoves.inUse, hw, List.append_assoc, hmoves.held hring,
      List.append_assoc]
  · refine ⟨hmade.ring, ?_⟩
    dsimp only
    rw [hmade.free, hmade.empty]
    rfl

theorem Logged.carries (h : Logged k w r) : Carries k w r := by
  induction h with
  | init ans live files pml4 =>
    intro p hu
    rw [procInit_pipes] at hu
    exact absurd hu Bool.false_ne_true
  | schedule t state _ _ _ _ ih => exact ih
  | switch t _ _ ih => exact ih
  | call ans c _ _ _ _ ih => exact ih.call ans c

/-- In every run whose `dup2`s go to other descriptors, and whichever tasks share a pipe: what was written
    to it since it was made is what was read from it and then what it holds. A read of at least one byte
    is told of the end only when everything was read and no descriptor of a live task is open for writing;
    a write is refused only when none is open for reading. -/
theorem pipe_channel (h : Logged k w r) :
    (∀ p, (k.pipes p).inUse = true → w p = r p ++ (k.pipes p).held) ∧
    ((k.tasks k.currentTask).Live →
      (∀ ans n count buf p, readPipe n k = some p → 0 < count →
        (dispatch ans (.read n count buf) k).1 = .done 0 →
          r p = w p ∧ ∀ x, openEnd k x ≠ some (p, 1)) ∧
      ∀ ans n buf done p, writePipe n k = some p → (dispatch ans (.write n buf done) k).1 = .done ePipe →
        ∀ x, openEnd k x ≠ some (p, 0)) := by
  have hcarries := h.carries
  have hsound : Sound True ∅ k := h.reaches.sound fun _ _ _ hm => ⟨hm.1, fun _ => hm.2⟩
  refine ⟨fun p hu => (hcarries p hu).2, fun hl => ⟨?_, ?_⟩⟩
  · intro ans n count buf p hp hcount hend
    obtain ⟨fd, g, hfd, hpipe, hside⟩ := readPipe_some hp
    have hopen : openEnd k (k.currentTask, fd) = some (p, 0) := by
      rw [openEnd, held_fds hl hfd, Option.bind_some, VfsFile.end, hpipe, hside]
      rfl
    obtain ⟨hring, hw⟩ := hcarries p (hsound.ends trivial _ p 0 hopen).2
    have hlen := (hring.read count).2.1
    simp only [dispatch, hp, pipeReadTurn] at hend
    split at hend
    · next hpos =>
      split at hend
      · have := Turn.done.inj hend
        omega
      · exact absurd (Turn.done.inj hend) (by decide)
    next hnone =>
    split at hend
    · next hzero =>
      refine ⟨?_, ?_⟩
      · have hempty : (k.pipes p).held = [] := by
          rw [← List.length_eq_zero_iff, Pipe.length_held]
          omega
        rw [hw, hempty, List.append_nil]
      · have hwriters := hsound.writers trivial p
        rw [onPipe_pipes_self, (Pipe.read_ends count _).2.2] at hzero
        rw [hzero, Nat.le_zero] at hwriters
        exact count_eq_zero.mp hwriters
    · cases hend
  · intro ans n buf done p hp hrefused
    simp only [dispatch, hp, pipeWriteTurn] at hrefused
    split at hrefused
    · split at hrefused
      · split at hrefused
        · cases hrefused
        split at hrefused
        · next hzero =>
          have hreaders := hsound.readers trivial p
          rw [onPipe_pipes_self, (Pipe.write_ends _ _).2.1] at hzero
          rw [hzero, Nat.le_zero] at hreaders
          exact count_eq_zero.mp hreaders
        · cases hrefused
      · exact absurd (Turn.done.inj hrefused) (by decide)
    · have hneg : (done : Int) = ePipe := Turn.done.inj hrefused
      have hpipe : ePipe < 0 := by decide
      omega

/-- The first task makes a pipe and writes two bytes to it. -/
theorem pipe_channel_twoBytes :
    ((dispatch (roomy 0) (.write 4 ⟨[7, 8], fun _ _ => true⟩ 0) pipeMade).2.pipes 0).held = [7, 8] := by
  have hmade : Logged pipeMade _ _ := .call (roomy 10) (.pipe true)
    (.init (roomy 1) ∅ (fun _ => VfsFile.fresh) 0) (by decide) trivial trivial
  have hsent := Logged.call (roomy 0) (.write 4 ⟨[7, 8], fun _ _ => true⟩ 0) hmade (by decide) trivial trivial
  exact ((pipe_channel hsent).1 0 (by decide)).symm

end TypeOS.Proc
