import TypeOS.Heap.Runs
import TypeOS.Proc.PipeEnds
import TypeOS.Proc.Slots

/-! Ownership of descriptor objects, and pipes that stay in use while a descriptor is open on them,
    in every run.

    `dup2` frees the object of its target before it asks for the new one, with the pointer still in
    the table; were it refused, the slot would be left with a freed object. The heap does not refuse:
    the block that was freed is large enough. -/

namespace TypeOS.Proc

open Kernel

/-- `sizeof (struct vfs_file)`. -/
abbrev vfsFileSize : Nat := 288

/-- `NULL` is address 0. -/
def heapAnswer (a : Nat) : Option Handle := if a = 0 then none else some a

/-- The first request of the call is answered by the kernel's heap after it has freed `h`: a heap in
    some state of its own runs, which holds what the kernel has allocated. -/
def FromHeap (ans : Answers) (k : Kernel) (h : Handle) : Prop :=
  ∃ (P : Type) (pg : Heap.Pager P) (s : Heap.HeapState P) (live : List (Nat × Nat)),
    Heap.Reaches pg s live ∧ (h, vfsFileSize) ∈ live ∧ (∀ a ∈ k.live, ∃ n, (a, n) ∈ live) ∧
      ans.kmalloc 0 = heapAnswer (Heap.kmalloc pg (Heap.kfree s h) vfsFileSize).1

/-- The heap answers a `dup2` onto an open descriptor as the kernel's heap does; other requests it
    may refuse or grant. -/
def Serves (ans : Answers) (c : Call) (k : Kernel) : Prop :=
  match c with
  | .dup2 _ newfd => ∀ fd h, toFd newfd = some fd → k.fds fd = some h → FromHeap ans k h
  | _ => True

/-- Not a `dup2` of a descriptor onto itself. -/
def Call.Distinct : Call → Prop
  | .dup2 oldfd newfd => oldfd ≠ newfd
  | _ => True

variable {counted : Prop} {apart : Set Handle} {k k' : Kernel} {t : Tid} {fd : Fd}
  {h src dst : Handle} {ans : Answers}

/-- The heap has the block that was freed, at least, for a request of the same size. -/
theorem kmalloc_of_freed {P : Type} {pg : Heap.Pager P} {s : Heap.HeapState P}
    {live : List (Nat × Nat)} (hr : Heap.Reaches pg s live) {h n : Nat} (hin : (h, n) ∈ live)
    (hpos : 0 < n) : ∃ a, a ≠ 0 ∧
      (Heap.kmalloc pg (Heap.kfree s h) n).1 = a ∧ ∀ r ∈ live.erase (h, n), r.1 ≠ a := by
  obtain ⟨hne, hfresh⟩ := Heap.kmalloc_after_kfree hr hin hpos le_rfl
  exact ⟨_, hne, rfl, hfresh⟩

theorem FromHeap.grants (hf : FromHeap ans k h) :
    ∃ a, ans.kmalloc 0 = some a ∧ a ∉ k.live.erase h := by
  obtain ⟨P, pg, s, live, hr, hin, hall, hans⟩ := hf
  obtain ⟨a, hne, ha, hfresh⟩ := kmalloc_of_freed hr hin (by norm_num)
  rw [ha, heapAnswer, if_neg hne] at hans
  refine ⟨a, hans, fun ha => ?_⟩
  obtain ⟨hah, ha⟩ := Finset.mem_erase.mp ha
  obtain ⟨n, hn⟩ := hall a ha
  exact hfresh (a, n) ((List.mem_erase_of_ne fun hc => hah (Prod.mk.inj hc).1).mpr hn) rfl

/-! ### dup, dup2, fcntl -/

theorem Sound.prepared (b : Sound counted apart k) (hl : (k.tasks k.currentTask).Live) {x : Tid × Fd}
    (hs : held k x = some src) (c : Prepared k fd dst k') : Sound counted apart (copyFile src dst k') :=
  b.copy hs hl c.empty c.fresh c.tasks c.files c.live c.pipes

theorem Sound.dup (b : Sound counted apart k) (hl : (k.tasks k.currentTask).Live) {oldfd : Int} :
    Sound counted apart (fdDupTo ans oldfd (-1) k).2 := by
  rcases @dup_cases k ans oldfd (-1) (by decide) with ⟨r, -, hc⟩ | ⟨f, src, fd, dst, k', -, hf, c, hc⟩ <;>
    rw [hc]
  · exact b
  · exact b.prepared hl (held_fds hl hf) c

theorem Sound.dupFrom (b : Sound counted apart k) (hl : (k.tasks k.currentTask).Live)
    {oldfd minfd : Int} : Sound counted apart (fdDupFrom ans oldfd minfd k).2 := by
  rcases dupFrom_cases ans oldfd minfd k with ⟨r, hc⟩ | ⟨f, src, fd, dst, k', hf, c, hc⟩ <;> rw [hc]
  · exact b
  · exact b.prepared hl (held_fds hl hf) c

/-- A `dup2`, onto its own source too, when the heap answers as the kernel's does. -/
theorem Sound.dupTo (b : Sound counted apart k) (hl : (k.tasks k.currentTask).Live)
    {oldfd newfd : Int} (h0 : 0 ≤ newfd) (hm : Serves ans (.dup2 oldfd newfd) k)
    (hd : counted → oldfd ≠ newfd) : Sound counted apart (fdDupTo ans oldfd newfd k).2 := by
  rcases dupTo_cases h0 fun fd h hn hfd _ => (hm fd h hn hfd).grants with
    ⟨r, -, hc⟩ | ⟨f, src, fd, dst, k₀, k', hof, hf, hn, c, hc, hk⟩ <;> rw [hc]
  · exact b
  have hsrc := held_fds hl hf
  rcases hk with rfl | ⟨h, hfd, rfl⟩
  · exact b.prepared hl hsrc c
  have hrel := b.release (held_fds hl hfd) ans.freed
  have hlive : ((Proc.release k.currentTask fd h ans.freed k).tasks k.currentTask).Live :=
    (setFd_live k.currentTask none).mpr hl
  by_cases hff : f = fd
  · -- the source is the object that was freed; whatever it holds now, the slot is filled
    have hself : ¬ counted := by
      intro hc
      refine hd hc ((toFd_val hof).symm.trans ?_)
      rw [hff]
      exact toFd_val hn
    obtain ⟨hct, hcl, -⟩ := copyFile_rest src dst k'
    have hempty : held (Proc.release k.currentTask fd h ans.freed k) (k.currentTask, fd) = none := by
      rw [held_release hl, Function.update_self]
    refine hrel.put hempty c.fresh ?_ (hcl.trans c.live).ge (fun hc => absurd hc hself)
      (fun hc => absurd hc hself) fun hc => absurd hc hself
    rw [← held_setFd hlive]
    exact held_congr (hct.trans c.tasks)
  · have hsrc' : held (Proc.release k.currentTask fd h ans.freed k) (k.currentTask, f) = some src := by
      rw [held_release hl, Function.update_of_ne (by simp [hff])]
      exact hsrc
    exact hrel.prepared hlive hsrc' c

/-! ### open, pipe, close -/

theorem Sound.openPath (b : Sound counted apart k) (hl : (k.tasks k.currentTask).Live) {path : String}
    {node : Option Nat} : Sound counted apart (sysOpenPath ans path node k).2 := by
  unfold sysOpenPath
  rcases fdAlloc_cases (ans.kmalloc 0) k with hm | ⟨fd, h, hn, hh, hm⟩ <;> rw [hm]
  · exact b
  · have hx : held (Proc.install k.currentTask fd h VfsFile.fresh k) (k.currentTask, fd) =
        some h := by rw [held_install hl, Function.update_self]
    have hfile : (Proc.install k.currentTask fd h VfsFile.fresh k).files h = VfsFile.fresh :=
      Function.update_self ..
    -- another file that is no pipe end in place of the fresh one
    have hset : ∀ file : VfsFile, file.pipe = none →
        Sound counted apart ((Proc.install k.currentTask fd h VfsFile.fresh k).setFile h file) := by
      intro file hp
      have hi : Sound counted apart (Proc.install k.currentTask fd h file k) := b.install hl hn hh hp
      refine hi.same rfl rfl ?_ fun _ => ⟨rfl, rfl, rfl⟩
      simp [Proc.install, setFile, setFd]
    dsimp only
    split
    · exact hset _ rfl
    · cases node with
      | none => exact (b.install hl hn hh rfl).release hx ans.freed
      | some inode => exact hset _ (by rw [hfile]; rfl)

/-- A pipe that was taken for a call that fails, or that has got its ends by none. -/
theorem Sound.unused (b : Sound counted apart k) {p : PipeId} (hu : (k.pipes p).inUse = false)
    (hh : held k' = held k) (hl : k.live ⊆ k'.live)
    (hf : ∀ x h, held k x = some h → k'.files h = k.files h)
    (hp : ∀ q, q ≠ p → k'.pipes q = k.pipes q) : Sound counted apart k' :=
  b.onPipe hh hl hf (fun hc => b.free hc hu) fun _ => hp

/-- One end of a pipe in use in an empty slot, where it is counted. -/
theorem Sound.installEnd (b : Sound counted apart k) {p : PipeId} {e : Int} (hl : (k.tasks t).Live)
    (hn : (k.tasks t).fds fd = none) (hh : h ∉ k.live) (he : e = 0 ∨ e = 1)
    (hu : (k.pipes p).inUse = true) {f : Pipe → Pipe} (hf : (f (k.pipes p)).inUse = true ∧
      (f (k.pipes p)).readers = (k.pipes p).readers + (if e = 0 then 1 else 0) ∧
      (f (k.pipes p)).writers = (k.pipes p).writers + if e = 1 then 1 else 0) :
    Sound counted apart ((Proc.install t fd h (pipeFile p e) k).onPipe p f) := by
  have hself : (Proc.install t fd h (pipeFile p e) k).files h = pipeFile p e := Function.update_self ..
  refine b.put (x := (t, fd)) (by simp [held, hn]) hh (@held_install k t fd h (pipeFile p e) hl) subset_rfl
    (fun _ g hg => Function.update_of_ne hg ..) (fun _ q e' hend => ?_) fun _ q => ?_
  · rw [onPipe_files, hself] at hend
    obtain ⟨rfl, rfl⟩ : p = q ∧ e = e' := by simpa [VfsFile.end, pipeFile] using hend
    exact ⟨he, hu⟩
  · rw [onPipe_files, hself, unit_pipeFile, unit_pipeFile]
    by_cases hq : q = p
    · subst hq
      rw [onPipe_pipes_self, show (Proc.install t fd h (pipeFile q e) k).pipes = k.pipes from rfl, hu,
        hf.1, hf.2.1, hf.2.2]
      simp
    · rw [onPipe_pipes_ne hq, if_neg fun hc => hq hc.1.symm, if_neg fun hc => hq hc.1.symm]
      exact ⟨rfl, le_rfl, le_rfl⟩

/-- The two ends of a new pipe. -/
theorem Sound.connect (b : Sound counted apart k) (hl : (k.tasks k.currentTask).Live) {p : PipeId}
    {rfd wfd : Fd} {rf wf : Handle} (ht : TakesPipe k p rfd wfd rf wf) :
    Sound counted apart (Proc.connect p rfd wfd rf wf k) := by
  have b₁ : Sound counted apart (k.onPipe p fun _ => { Pipe.zero with inUse := true }) :=
    b.unused ht.free rfl subset_rfl (fun _ _ _ => rfl) fun q hq => onPipe_pipes_ne hq ..
  have hpipe : (k.onPipe p fun _ => { Pipe.zero with inUse := true }).pipes p =
      { Pipe.zero with inUse := true } := onPipe_pipes_self ..
  have b₂ := b₁.installEnd (p := p) (e := 0) (f := fun q => { q with readers := 1 }) hl ht.first.empty
    ht.fresh.1 (Or.inl rfl) (by rw [hpipe]) (by rw [hpipe]; exact ⟨rfl, rfl, rfl⟩)
  rw [Proc.connect]
  refine b₂.installEnd ((setFd_live k.currentTask (some rf)).mpr hl) (ht.empty_second (pipeFile p 0))
    ht.fresh_second (Or.inr rfl) ?_ ?_
  · rw [onPipe_pipes_self]
    exact congrArg Pipe.inUse hpipe
  · rw [onPipe_pipes_self]
    exact ⟨congrArg Pipe.inUse hpipe, rfl, (congrArg Pipe.writers hpipe).symm ▸ rfl⟩

theorem Sound.sysPipe (b : Sound counted apart k) (hl : (k.tasks k.currentTask).Live) {ufdOk : Bool} :
    Sound counted apart (sysPipe ans ufdOk k).2 := by
  rcases sysPipe_cases ans ufdOk k with ⟨-, heq | ⟨p, hr⟩⟩ | ⟨p, rfd, wfd, rf, wf, ht, heq⟩
  · rw [heq]
    exact b
  · exact b.unused hr.free (held_congr hr.tasks) hr.live.ge (fun x h hx => hr.files h (b.live x h hx))
      hr.pipes
  · rw [heq]
    exact b.connect hl ht

/-- `SYS_close` takes at most the end off its counter. -/
theorem uncountEnd_le (q : Pipe) {file : VfsFile} {p : PipeId} (hp : file.pipe = some p) :
    (uncountEnd file q).inUse = q.inUse ∧
      q.readers ≤ (uncountEnd file q).readers + unit file p 0 ∧
      q.writers ≤ (uncountEnd file q).writers + unit file p 1 := by
  unfold uncountEnd
  split
  · next h0 =>
    simp [unit, VfsFile.end, hp, h0.1]
    omega
  · split
    · next h1 =>
      simp [unit, VfsFile.end, hp, h1.1]
      omega
    · exact ⟨rfl, Nat.le_add_right .., Nat.le_add_right ..⟩

theorem Sound.close (b : Sound counted apart k) (hl : (k.tasks k.currentTask).Live) {n : Int} :
    Sound counted apart (sysClose ans n k).2 := by
  rcases sysClose_cases ans n k with hc | ⟨fd, h, -, hfd, hc⟩ <;> rw [hc]
  · exact b
  have hx := held_fds hl hfd
  cases hp : (k.files h).pipe with
  | none =>
    rw [closeEnd_plain hp]
    exact b.release hx ans.freed
  | some p =>
    obtain ⟨htasks, hfiles, hlive, hcur⟩ := closeEnd_rest hp
    obtain ⟨hr, hw, hfree⟩ := closeEnd_self hp
    refine b.drop hx ?_ ?_ (fun _ g hg => ?_) fun _ q => ?_
    · rw [← held_setFd hl]
      exact held_congr (by simp only [setFd, onTask, kfree, htasks])
    · simp only [setFd, onTask_live, kfree, hlive]
      exact subset_rfl
    · simp only [setFd, onTask_files, kfree, hfiles]
      exact Function.update_of_ne hg ..
    · simp only [setFd, onTask_pipes, kfree]
      by_cases hne : q = p
      · subst hne
        obtain ⟨hin, hcr, hcw⟩ := uncountEnd_le (k.pipes q) hp
        rw [hr, hw] at hfree ⊢
        exact ⟨hcr, hcw, hfree.imp_left fun hsame => hsame.trans hin⟩
      · rw [closeEnd_other hp hne]
        exact ⟨Nat.le_add_right .., Nat.le_add_right .., Or.inl rfl⟩

theorem sysClose_live {n : Int} (hn : toFd n = some fd) (hfd : k.fds fd = some h) :
    (sysClose ans n k).2.live = k.live.erase h := by
  simp only [sysClose, hn, hfd, setFd, onTask_live, kfree]
  cases hp : (k.files h).pipe with
  | none => simp [closeEnd, hp, vfsClose, setFile]
  | some p => rw [(closeEnd_rest hp).2.2.1]

/-! ### exec, exit, wait -/

/-- `proc_fd_close_all`, whatever the slots are open on, and as far as it has got. -/
theorem Sound.closeSlots (freed : VfsFile) (l : List Fd) : ∀ {k : Kernel}, Sound counted apart k →
    (k.tasks k.currentTask).Live → Sound counted apart (l.foldl (closeSlot freed) k) ∧
      ((l.foldl (closeSlot freed) k).tasks (l.foldl (closeSlot freed) k).currentTask).Live := by
  induction l with
  | nil => exact fun b hl => ⟨b, hl⟩
  | cons fd l ih =>
    intro k b hl
    rw [List.foldl_cons]
    cases hfd : k.fds fd with
    | none =>
      have : closeSlot freed k fd = k := by simp [closeSlot, hfd]
      rw [this]
      exact ih b hl
    | some h =>
      rw [closeSlot_eq freed hfd]
      exact ih (b.release (held_fds hl hfd) freed) ((setFd_live k.currentTask none).mpr hl)

/-- Stores to the other fields of a slot. -/
theorem Sound.store (b : Sound counted apart k) (t : Tid) (f : Process → Process)
    (hf : ∀ p, (f p).state = p.state ∧ (f p).fds = p.fds) : Sound counted apart (k.onTask t f) :=
  b.same (held_onTask (by simp [Process.Live, (hf _).1]) fun _ => (hf _).2) rfl rfl
    fun _ => ⟨rfl, rfl, rfl⟩

/-- A task is in another of the live states, or a task that holds nothing in any. -/
theorem Sound.setState (b : Sound counted apart k) {t : Tid} {state : TaskState}
    (hl : (({ k.tasks t with state := state } : Process).Live ↔ (k.tasks t).Live)) :
    Sound counted apart (k.setState t state) :=
  b.same (held_onTask hl fun _ => rfl) rfl rfl fun _ => ⟨rfl, rfl, rfl⟩

theorem Sound.exec (b : Sound counted apart k) (hl : (k.tasks k.currentTask).Live) {found : Bool} :
    Sound counted apart (procExec ans found k).2 := by
  unfold procExec
  split
  · have b₁ : Sound counted apart (procFdCloseAll ans.freed k) := (b.closeSlots ans.freed _ hl).1
    generalize procFdCloseAll ans.freed k = k₁ at b₁
    have b₂ : Sound counted apart (if ans.cloneCr3 = 0 then k₁
        else { k₁.onTask k₁.currentTask fun p => { p with cr3 := ans.cloneCr3 } with
          pml4 := ans.cloneCr3 }) := by
      split
      · exact b₁
      · exact (b₁.store k₁.currentTask (fun p => { p with cr3 := ans.cloneCr3 })
          fun _ => ⟨rfl, rfl⟩).same rfl rfl rfl fun _ => ⟨rfl, rfl, rfl⟩
    dsimp only
    generalize (if ans.cloneCr3 = 0 then k₁
        else { k₁.onTask k₁.currentTask fun p => { p with cr3 := ans.cloneCr3 } with
          pml4 := ans.cloneCr3 }) = k₂ at b₂
    have b₃ := b₂.store k₂.currentTask (fun p => { p with brk := userBrkStart, fsBase := 0 })
      fun _ => ⟨rfl, rfl⟩
    rcases ans.image with _ | ⟨entry, stack⟩
    · exact b₃
    · dsimp only
      exact b₃.store _ _ fun _ => ⟨rfl, rfl⟩
  · exact b

/-- The slots of a task that exits are forgotten. -/
theorem Sound.exit (b : Sound counted apart k) {status : Int} :
    Sound counted apart (exitCurrent status k) := by
  obtain ⟨hf, hv, hp⟩ := procWakeParent_rest
    (k.onTask k.currentTask fun p => { p with exitStatus := status, state := .zombie })
  refine b.keep (fun x => ?_) hv.ge (fun _ _ _ _ => by rw [exitCurrent, hf]; rfl)
    fun _ p => by rw [exitCurrent, hp]; exact ⟨rfl, le_rfl, le_rfl⟩
  rw [exitCurrent, held_procWakeParent]
  obtain ⟨t, fd⟩ := x
  by_cases ht : t = k.currentTask
  · subst ht
    exact Or.inr (by simp [held, Process.Live])
  · exact Or.inl (by rw [held, held, onTask_tasks_ne ht])

theorem Sound.wait (b : Sound counted apart k) {pid : Int} :
    Sound counted apart (procForkTakeStatus pid k).2 := by
  unfold procForkTakeStatus
  split
  · exact b
  · next t ht =>
    have hz : (k.tasks t).state = .zombie := by
      have := firstSlot_some ht
      simp only [decide_eq_true_eq] at this
      exact this.1
    exact b.setState (by simp [Process.Live, hz])

/-! ### read and write -/

/-- Bytes that go in or out of a pipe leave its ends alone. -/
theorem Sound.bytes (b : Sound counted apart k) {p : PipeId} {q : Pipe}
    (hq : q.inUse = (k.pipes p).inUse ∧ q.readers = (k.pipes p).readers ∧
      q.writers = (k.pipes p).writers) : Sound counted apart (k.onPipe p fun _ => q) := by
  refine b.same rfl rfl rfl fun p' => ?_
  by_cases hp : p' = p
  · subst hp
    simpa using hq
  · simp [onPipe_pipes_ne hp]

theorem Sound.readTurn (b : Sound counted apart k) (p : PipeId) (n : Nat) (buf : UserBuf) :
    Sound counted apart (pipeReadTurn p n buf k).2 := by
  have b₁ := b.bytes (Pipe.read_ends n (k.pipes p))
  unfold pipeReadTurn
  dsimp only
  split
  · exact b₁
  · split <;> exact b₁

theorem Sound.writeTurn (b : Sound counted apart k) (p : PipeId) (buf : UserBuf) (n : Nat) :
    Sound counted apart (pipeWriteTurn p buf n k).2 := by
  have b₁ := b.bytes (Pipe.write_ends (chunk buf n) (k.pipes p))
  unfold pipeWriteTurn
  split
  · split
    · dsimp only
      split
      · exact b₁.same held_schedWakeAll rfl rfl fun _ => ⟨rfl, rfl, rfl⟩
      · split <;> exact b₁
    · exact b
  · exact b

/-! ### fork -/

/-- What holds while `proc_fork` copies descriptors to the child, those of `todo` still to be copied. -/
structure Copying (counted : Prop) (apart : Set Handle) (k₀ : Kernel) (child : Tid) (todo : List Fd)
    (k : Kernel) : Prop where
  sound : Sound counted apart k
  parentLive : (k.tasks k₀.currentTask).Live
  childLive : (k.tasks child).Live
  ne : child ≠ k₀.currentTask
  same : (k.tasks k₀.currentTask).fds = k₀.fds
  empty : ∀ fd ∈ todo, (k.tasks child).fds fd = none

theorem Copying.step {k₀ : Kernel} {child : Tid} {todo : List Fd} (ans : Answers)
    (c : Copying counted apart k₀ child (fd :: todo) k) (hfd : fd ∉ todo) :
    forkFd ans k₀.currentTask child fd k = (false, k) ∨
    ∃ k', forkFd ans k₀.currentTask child fd k = (true, k') ∧ Copying counted apart k₀ child todo k' := by
  have hempty : ∀ g ∈ todo, (k.tasks child).fds g = none :=
    fun g hg => c.empty g (List.mem_cons_of_mem _ hg)
  cases hs : k₀.fds fd with
  | none => exact Or.inr ⟨k, by simp [forkFd, c.same, hs], { c with empty := hempty }⟩
  | some src =>
    have hsame : (k.tasks k₀.currentTask).fds fd = some src := by rw [c.same, hs]
    have hsrc : held k (k₀.currentTask, fd) = some src := held_some.mpr ⟨c.parentLive, hsame⟩
    rcases kmalloc_cases (ans.kmalloc (fd.val + 1)) k with hm | ⟨dst, -, hdst, hm⟩
    · exact Or.inl (by simp only [forkFd, hsame, hm])
    let k₁ : Kernel := { k with live := insert dst k.live }.setFd child fd (some dst)
    obtain ⟨htasks, -, -⟩ := copyFile_rest src dst k₁
    have hparent : (copyFile src dst k₁).tasks k₀.currentTask = k.tasks k₀.currentTask := by
      rw [htasks]
      exact onTask_tasks_ne (Ne.symm c.ne) ..
    refine Or.inr ⟨copyFile src dst k₁, by simp only [forkFd, hsame, hm]; rfl, ?_, ?_, ?_, c.ne, ?_,
      fun g hg => ?_⟩
    · exact c.sound.copy hsrc c.childLive (c.empty fd (List.mem_cons_self ..)) hdst rfl
        (fun _ _ => rfl) rfl rfl
    · exact hparent ▸ c.parentLive
    · rw [htasks]
      exact (setFd_live child (some dst)).mpr c.childLive
    · rw [hparent]
      exact c.same
    · have hne : g ≠ fd := fun heq => hfd (heq ▸ hg)
      rw [htasks]
      simp only [k₁, setFd, onTask_tasks_self, Function.update_of_ne hne]
      exact hempty g hg

/-- The loop, to its end or to the request that is refused. -/
theorem Copying.loop {k₀ : Kernel} {child : Tid} (ans : Answers) (l : List Fd) : ∀ {k : Kernel}, l.Nodup →
    Copying counted apart k₀ child l k →
      Copying counted apart k₀ child [] (forEach (forkFd ans k₀.currentTask child) l k).2 := by
  induction l with
  | nil => exact fun _ c => c
  | cons fd l ih =>
    intro k hnd c
    obtain ⟨hfd, hnd⟩ := List.nodup_cons.mp hnd
    rw [forEach]
    rcases c.step ans hfd with heq | ⟨k', heq, c'⟩ <;> rw [heq]
    · exact { c with empty := fun g hg => absurd hg List.not_mem_nil }
    · exact ih hnd c'

/-- What is set apart may be forgotten. -/
theorem Sound.forget (b : Sound counted (insert h apart) k) : Sound counted apart k :=
  { b with apart := fun g hg => b.apart g (Set.mem_insert_of_mem h hg) }

/-- A `proc_fork` that gets a slot and a kernel stack leaves the stack allocated and to no descriptor,
    whether it works or fails. -/
theorem Sound.fork_stack (b : Sound counted apart k) (hl : (k.tasks k.currentTask).Live) :
    (procFork ans k).1 = -1 ∧ Sound counted apart (procFork ans k).2 ∨
      ∃ stack, stack ∉ k.live ∧ Sound counted (insert stack apart) (procFork ans k).2 := by
  unfold procFork
  dsimp only
  rcases procAllocTask_cases (ans.kmalloc 0) k with ⟨k', heq, hh, hf, hv, hp⟩ |
    ⟨c, k₁, h, heq, hu, hlc, hfds, hother, hf, hp, hcur, -, hnew, hv⟩ <;> rw [heq]
  · exact Or.inl ⟨rfl, b.same hh hv hf fun p => by rw [hp]; exact ⟨rfl, rfl, rfl⟩⟩
  refine Or.inr ⟨h, hnew, ?_⟩
  have hne : k.currentTask ≠ c := by
    rintro rfl
    exact hl.1 hu
  have hh : held k₁ = held k := by
    funext x
    by_cases hx : x.1 = c
    · simp [held, hx, hfds, Process.Live, hu]
    · rw [held, held, hother _ hx]
  have b₀ : Sound counted apart k₁ := b.keep (fun x => Or.inl (congrFun hh x))
    (by rw [hv]; exact Finset.subset_insert ..) (fun _ _ _ _ => by rw [hf])
    fun _ p => by rw [hp]; exact ⟨rfl, le_rfl, le_rfl⟩
  have b₁ : Sound counted (insert h apart) k₁ := by
    refine { b₀ with apart := fun g hg => ?_ }
    rcases hg with rfl | hg
    · exact ⟨hv ▸ Finset.mem_insert_self .., fun x hx => hnew (b.live x g (hh ▸ hx))⟩
    · exact b₀.apart g hg
  -- a child that is unused holds nothing
  have hgone : ∀ k₂ : Kernel, Sound counted (insert h apart) k₂ →
      Sound counted (insert h apart) (k₂.setState c .unused) := by
    intro k₂ b₂
    refine b₂.keep (fun x => ?_) subset_rfl (fun _ _ _ _ => rfl) fun _ _ => ⟨rfl, le_rfl, le_rfl⟩
    by_cases hx : x.1 = c
    · exact Or.inr (by simp [held, hx, Kernel.setState, Process.Live])
    · exact Or.inl (by rw [held, held, Kernel.setState, onTask_tasks_ne hx])
  dsimp only
  split
  · exact hgone k₁ b₁
  · generalize hk₂ : (k₁.onTask c fun p =>
      forkSlot k.currentTask (k₁.tasks k.currentTask) p ans.cloneCr3) = k₂
    have hparent : k₂.tasks k.currentTask = k.tasks k.currentTask := by
      rw [← hk₂, onTask_tasks_ne hne, hother _ hne]
    have start : Copying counted (insert h apart) k c (List.finRange procMaxFd) k₂ := by
      refine ⟨?_, hparent ▸ hl, ?_, Ne.symm hne, by rw [hparent]; rfl, fun fd _ => ?_⟩
      · rw [← hk₂]
        exact b₁.store c _ fun _ => ⟨rfl, rfl⟩
      · rw [← hk₂, onTask_tasks_self]
        exact hlc
      · rw [← hk₂, onTask_tasks_self]
        exact congrFun hfds fd
    have done := start.loop ans _ (List.nodup_finRange _)
    cases hloop : forEach (forkFd ans k.currentTask c) (List.finRange procMaxFd) k₂ with
    | mk ok k₃ =>
      rw [hloop] at done
      cases ok with
      | false => exact hgone k₃ done.sound
      | true => exact done.sound.setState (by simpa [Process.Live] using done.childLive)

theorem Sound.fork (b : Sound counted apart k) (hl : (k.tasks k.currentTask).Live) :
    Sound counted apart (procFork ans k).2 := by
  rcases @Sound.fork_stack counted apart k ans b hl with ⟨-, hb⟩ | ⟨stack, -, hb⟩
  · exact hb
  · exact hb.forget

/-- Every call keeps the descriptors sound, and the counters too if it is no `dup2` of a descriptor
    onto itself. -/
theorem Sound.dispatch (b : Sound counted apart k) (hl : (k.tasks k.currentTask).Live) {c : Call}
    (hs : Serves ans c k) (hd : counted → c.Distinct) : Sound counted apart (dispatch ans c k).2 := by
  cases c with
  | pipe ufdOk => exact b.sysPipe hl
  | dup oldfd => exact b.dup hl
  | dup2 oldfd newfd =>
    simp only [Proc.dispatch, atOnce, sysDup2]
    split
    · exact b
    · exact b.dupTo hl (by omega) hs hd
  | fcntlDup oldfd minfd => exact b.dupFrom hl
  | openPath path node => exact b.openPath hl
  | close fd => exact b.close hl
  | fork => exact b.fork hl
  | exec found => exact b.exec hl
  | exit status => exact b.exit
  | wait pid statusOk =>
    have : Sound counted apart (procForkTakeStatus pid k).2 := b.wait
    simp only [Proc.dispatch, waitTurn]
    split
    · next heq => rw [heq] at this; exact this
    · next heq => rw [heq] at this; split <;> exact this
  | read fd count buf =>
    simp only [Proc.dispatch]
    split
    · exact b
    · exact b.readTurn ..
  | write fd buf done =>
    simp only [Proc.dispatch]
    split
    · exact b
    · exact b.writeTurn ..

/-! ### Runs -/

/-- Counters that are exact are sound. -/
theorem Exact.sound (e : Exact k) : Sound counted ∅ k := by
  refine ⟨e.live, e.own, fun h hh => absurd hh (Set.notMem_empty h), fun _ x p end' hx => ?_,
    fun _ p => ?_, fun _ p => ?_⟩
  · obtain ⟨h, hh, hend⟩ := openEnd_some.mp hx
    obtain ⟨hp, rfl⟩ := VfsFile.end_some.mp hend
    exact ⟨(e.held_end hh hp).1.1, (e.held_end hh hp).2⟩
  · cases hu : (k.pipes p).inUse with
    | true => exact (e.readers p hu).ge
    | false => exact (count_eq_zero.mpr fun x => e.free p hu x 0).trans_le (Nat.zero_le _)
  · cases hu : (k.pipes p).inUse with
    | true => exact (e.writers p hu).ge
    | false => exact (count_eq_zero.mpr fun x => e.free p hu x 1).trans_le (Nat.zero_le _)

theorem Reaches.sound {Meets : Answers → Call → Kernel → Prop}
    (hM : ∀ ans c k, Meets ans c k → Serves ans c k ∧ (counted → c.Distinct))
    (hr : Reaches Meets k) : Sound counted ∅ k := by
  induction hr with
  | init ans live files pml4 => exact (exact_init ans live files pml4).sound
  | schedule t state _ hl hu hz ih => exact ih.setState (by simpa [Process.Live, hu, hz] using hl)
  | switch t _ _ ih => exact ih.same rfl rfl rfl fun _ => ⟨rfl, rfl, rfl⟩
  | call ans c _ hl hm ih => exact ih.dispatch hl (hM ans c _ hm).1 (hM ans c _ hm).2

/-- In every run whose `dup2`s go to other descriptors, a descriptor that refers to a pipe refers to one
    in use and is counted on it, and a new pipe is given a slot that no descriptor refers to. -/
theorem pipe_not_recycled (hr : Reaches (fun ans c k => Serves ans c k ∧ c.Distinct) k) :
    (∀ x p e, openEnd k x = some (p, e) → (e = 0 ∨ e = 1) ∧ (k.pipes p).inUse = true) ∧
      (∀ p, readEnds k p ≤ (k.pipes p).readers ∧ writeEnds k p ≤ (k.pipes p).writers) ∧
      ∀ p, (procPipeAlloc k).1 = some p → ∀ x e, openEnd k x ≠ some (p, e) := by
  have b : Sound True ∅ k := hr.sound fun _ _ _ hm => ⟨hm.1, fun _ => hm.2⟩
  refine ⟨b.ends trivial, fun p => ⟨b.readers trivial p, b.writers trivial p⟩, fun p hp => ?_⟩
  rcases procPipeAlloc_cases k with hnone | ⟨q, hu, hq⟩
  · rw [hnone] at hp
    simp at hp
  · obtain rfl : q = p := by simpa [hq] using hp
    exact b.free trivial hu

theorem pipe_not_recycled_pipeMade :
    (∀ x p e, openEnd pipeMade x = some (p, e) →
        (e = 0 ∨ e = 1) ∧ (pipeMade.pipes p).inUse = true) ∧
      (∀ p, readEnds pipeMade p ≤ (pipeMade.pipes p).readers ∧
        writeEnds pipeMade p ≤ (pipeMade.pipes p).writers) ∧
      ∀ p, (procPipeAlloc pipeMade).1 = some p → ∀ x e, openEnd pipeMade x ≠ some (p, e) :=
  pipe_not_recycled (pipeMade_reaches _ fun _ _ _ => ⟨trivial, trivial⟩)

/-- In every run, each descriptor of a live task has an allocated object of its own. What `SYS_close`
    frees no descriptor is left on, and what `proc_fd_close_all` frees is allocated at each of its
    turns. -/
theorem objects_owned_once (hr : Reaches Serves k) :
    (∀ x h, held k x = some h → h ∈ k.live ∧ ∀ y, held k y = some h → y = x) ∧
      ((k.tasks k.currentTask).Live →
        (∀ ans n fd h, toFd n = some fd → k.fds fd = some h →
          ∀ x, held (sysClose ans n k).2 x ≠ some h) ∧
        ∀ freed (done : List Fd) fd h, (done.foldl (closeSlot freed) k).fds fd = some h →
          h ∈ (done.foldl (closeSlot freed) k).live) := by
  have b : Sound False ∅ k := hr.sound fun _ _ _ hm => ⟨hm, False.elim⟩
  refine ⟨fun x h hx => ⟨b.live x h hx, fun y hy => b.own y x h hy hx⟩, fun hl => ⟨?_, ?_⟩⟩
  · intro ans n fd h hn hfd x hx
    have b' : Sound False ∅ (sysClose ans n k).2 := b.close hl
    have hin := b'.live x h hx
    rw [sysClose_live hn hfd] at hin
    exact absurd hin (Finset.notMem_erase h _)
  · intro freed done fd h hfd
    obtain ⟨b', hl'⟩ := b.closeSlots freed done hl
    exact b'.live _ h (held_fds hl' hfd)

theorem objects_owned_once_pipeMade :
    (∀ x h, held pipeMade x = some h → h ∈ pipeMade.live ∧ ∀ y, held pipeMade y = some h → y = x) ∧
      ((pipeMade.tasks pipeMade.currentTask).Live →
        (∀ ans n fd h, toFd n = some fd → pipeMade.fds fd = some h →
          ∀ x, held (sysClose ans n pipeMade).2 x ≠ some h) ∧
        ∀ freed (done : List Fd) fd h, (done.foldl (closeSlot freed) pipeMade).fds fd = some h →
          h ∈ (done.foldl (closeSlot freed) pipeMade).live) :=
  objects_owned_once (pipeMade_reaches _ fun _ _ _ => trivial)

end TypeOS.Proc
