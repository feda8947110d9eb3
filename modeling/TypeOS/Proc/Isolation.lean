import TypeOS.Proc.Inherit

/-! What a call leaves to the other tasks.

    All tasks are in one table, and their descriptors in one heap. A call reaches another task only by its
    run state, and by a pipe on which the caller has a descriptor: the slot of every other live task, the
    objects of its descriptors and the other pipes stay as they are. So a task finds its descriptors as it
    left them, whatever the others have done between two of its calls. -/

namespace TypeOS.Proc

open Kernel

variable {k k' k'' : Kernel} {ans : Answers} {c t : Tid} {fd : Fd} {h src dst : Handle} {p : PipeId}
  {H : Set Handle} {P : Set PipeId} {file : VfsFile}

/-- Besides the slot of `c`, objects of `H` and pipes of `P`, only the run state of live tasks changed, and
    what was not in use. -/
structure Spares (c : Tid) (H : Set Handle) (P : Set PipeId) (k k' : Kernel) : Prop where
  slots : ∀ t, t ≠ c → (k.tasks t).Live →
    (k'.tasks t).Live ∧ k'.tasks t = { k.tasks t with state := (k'.tasks t).state }
  objects : ∀ h ∈ k.live, h ∉ H → h ∈ k'.live ∧ k'.files h = k.files h
  pipes : ∀ p, (k.pipes p).inUse = true → p ∉ P → k'.pipes p = k.pipes p

theorem runnable_live (p : Process) : { p with state := .runnable }.Live := by
  constructor
  · intro h
    cases h
  · intro h
    cases h

namespace Spares

/-- What leaves the other slots alone. -/
theorem of_tasks (ht : ∀ t, t ≠ c → (k.tasks t).Live → k'.tasks t = k.tasks t)
    (ho : ∀ h ∈ k.live, h ∉ H → h ∈ k'.live ∧ k'.files h = k.files h)
    (hp : ∀ p, (k.pipes p).inUse = true → p ∉ P → k'.pipes p = k.pipes p) : Spares c H P k k' :=
  ⟨fun t hc hl => by rw [ht t hc hl]; exact ⟨hl, rfl⟩, ho, hp⟩

theorem refl : Spares c H P k k :=
  of_tasks (fun _ _ _ => rfl) (fun _ hh _ => ⟨hh, rfl⟩) fun _ _ _ => rfl

theorem trans (s : Spares c H P k k') (s' : Spares c H P k' k'') : Spares c H P k k'' where
  slots := by
    intro t hc hl
    obtain ⟨hl', heq⟩ := s.slots t hc hl
    obtain ⟨hl'', heq'⟩ := s'.slots t hc hl'
    refine ⟨hl'', ?_⟩
    rw [heq', heq]
  objects := by
    intro h hh hH
    obtain ⟨hl, heq⟩ := s.objects h hh hH
    obtain ⟨hl', heq'⟩ := s'.objects h hl hH
    exact ⟨hl', heq'.trans heq⟩
  pipes := by
    intro p hu hP
    have heq := s.pipes p hu hP
    rw [s'.pipes p (heq ▸ hu) hP, heq]

theorem mono {H' : Set Handle} {P' : Set PipeId} (s : Spares c H P k k') (hH : H ⊆ H') (hP : P ⊆ P') :
    Spares c H' P' k k' :=
  ⟨s.slots, fun h hh hn => s.objects h hh fun hc => hn (hH hc),
    fun p hu hn => s.pipes p hu fun hc => hn (hP hc)⟩

/-- The slot of the task itself, or one that was not in use. -/
theorem task (s : Spares c H P k k') (ht : t = c ∨ ¬ (k.tasks t).Live) (f : Process → Process) :
    Spares c H P k (k'.onTask t f) := by
  refine ⟨?_, s.objects, s.pipes⟩
  intro u hu hl
  have hne : u ≠ t := by
    rintro rfl
    exact ht.elim hu fun hc => hc hl
  rw [onTask_tasks_ne hne]
  exact s.slots u hu hl

/-- A task is made runnable. -/
theorem wake (s : Spares c H P k k') (t : Tid) : Spares c H P k (k'.setState t .runnable) := by
  refine ⟨?_, s.objects, s.pipes⟩
  intro u hu hl
  obtain ⟨hl', heq⟩ := s.slots u hu hl
  rcases eq_or_ne u t with rfl | hne
  · rw [setState, onTask_tasks_self]
    exact ⟨runnable_live _, by rw [heq]⟩
  · rw [setState, onTask_tasks_ne hne]
    exact ⟨hl', heq⟩

theorem pipe (s : Spares c H P k k') (hp : (k.pipes p).inUse = true → p ∈ P) (f : Pipe → Pipe) :
    Spares c H P k (k'.onPipe p f) := by
  refine ⟨s.slots, s.objects, ?_⟩
  intro q hu hq
  have hne : q ≠ p := by
    rintro rfl
    exact hq (hp hu)
  rw [onPipe_pipes_ne hne]
  exact s.pipes q hu hq

theorem object (s : Spares c H P k k') (hh : h ∈ k.live → h ∈ H) (file : VfsFile) :
    Spares c H P k (k'.setFile h file) := by
  refine ⟨s.slots, ?_, s.pipes⟩
  intro g hg hn
  have hne : g ≠ h := by
    rintro rfl
    exact hn (hh hg)
  obtain ⟨hl, heq⟩ := s.objects g hg hn
  exact ⟨hl, (Function.update_of_ne hne ..).trans heq⟩

theorem free (s : Spares c H P k k') (hh : h ∈ k.live → h ∈ H) (freed : VfsFile) :
    Spares c H P k (kfree freed h k') := by
  refine ⟨s.slots, ?_, s.pipes⟩
  intro g hg hn
  have hne : g ≠ h := by
    rintro rfl
    exact hn (hh hg)
  obtain ⟨hl, heq⟩ := s.objects g hg hn
  exact ⟨Finset.mem_erase.mpr ⟨hne, hl⟩, (Function.update_of_ne hne ..).trans heq⟩

theorem take (s : Spares c H P k k') (h : Handle) :
    Spares c H P k { k' with live := insert h k'.live } :=
  ⟨s.slots, fun g hg hn => ⟨Finset.mem_insert_of_mem (s.objects g hg hn).1, (s.objects g hg hn).2⟩, s.pipes⟩

/-- A descriptor of the task itself. -/
theorem slot (s : Spares c H P k k') (fd : Fd) (v : Option Handle) : Spares c H P k (k'.setFd c fd v) :=
  s.task (.inl rfl) _

theorem install (s : Spares c H P k k') (hh : h ∉ k.live) (fd : Fd) (file : VfsFile) :
    Spares c H P k (Proc.install c fd h file k') :=
  ((s.slot fd (some h)).object (fun hc => absurd hc hh) file).take h

theorem wakeAll (s : Spares c H P k k') : Spares c H P k (schedWakeAll k') := by
  refine ⟨?_, s.objects, s.pipes⟩
  intro u hu hl
  obtain ⟨hl', heq⟩ := s.slots u hu hl
  simp only [schedWakeAll]
  split
  · exact ⟨runnable_live _, by rw [heq]⟩
  · exact ⟨hl', heq⟩

/-- A copy counts an end of a pipe that the copied file is open on. -/
theorem copy (s : Spares c H P k k') (hp : ∀ p, (k'.files src).pipe = some p → p ∈ P)
    (hd : dst ∈ k.live → dst ∈ H) : Spares c H P k (copyFile src dst k') := by
  have s' := s.object hd (k'.files src)
  rw [copyFile, countEnd]
  split
  · exact s'
  · next q hq =>
    split
    · exact s'.pipe (fun _ => hp q hq) _
    · split
      · exact s'.pipe (fun _ => hp q hq) _
      · exact s'

end Spares

/-! ### What a task has -/

/-- The objects of a task's descriptors. -/
def objectsOf (k : Kernel) (t : Tid) : Set Handle := {h | ∃ g, (k.tasks t).fds g = some h}

/-- The pipes a task has descriptors of. -/
def pipesOf (k : Kernel) (t : Tid) : Set PipeId :=
  {p | ∃ g h, (k.tasks t).fds g = some h ∧ (k.files h).pipe = some p}

/-- What a call of the current task leaves. -/
abbrev Confined (k k' : Kernel) : Prop :=
  Spares k.currentTask (objectsOf k k.currentTask) (pipesOf k k.currentTask) k k'

/-! ### The calls -/

theorem Prepared.spares (q : Prepared k fd dst k') : Spares k.currentTask H P k k' := by
  refine .of_tasks ?_ ?_ ?_
  · intro t ht _
    rw [q.tasks, setFd, onTask_tasks_ne ht]
  · intro h hh _
    have hne : h ≠ dst := by
      rintro rfl
      exact q.fresh hh
    refine ⟨?_, q.files h hne⟩
    rw [q.live]
    exact Finset.mem_insert_of_mem hh
  · intro p _ _
    rw [q.pipes]

/-- A descriptor is copied to an empty slot. -/
theorem Prepared.copied (q : Prepared k fd dst k') (hsrc : src ∈ k.live)
    (hp : ∀ p, (k.files src).pipe = some p → p ∈ P) : Spares k.currentTask H P k (copyFile src dst k') := by
  have hne : src ≠ dst := by
    rintro rfl
    exact q.fresh hsrc
  refine q.spares.copy ?_ fun hc => absurd hc q.fresh
  intro p hpipe
  rw [q.files src hne] at hpipe
  exact hp p hpipe

section

variable (hlive : ∀ g h, k.fds g = some h → h ∈ k.live)

include hlive

theorem dup_confined (ans : Answers) (oldfd : Int) : Confined k (fdDupTo ans oldfd (-1) k).2 := by
  rcases @dup_cases k ans oldfd (-1) (by decide) with ⟨r, -, hc⟩ | ⟨f, src, fd, dst, k', -, hf, q, hc⟩ <;>
    rw [hc]
  · exact .refl
  · exact q.copied (hlive f src hf) fun p hp => ⟨f, src, hf, hp⟩

theorem dupFrom_confined (ans : Answers) (oldfd minfd : Int) : Confined k (fdDupFrom ans oldfd minfd k).2 := by
  rcases dupFrom_cases ans oldfd minfd k with ⟨r, hc⟩ | ⟨f, src, fd, dst, k', hf, q, hc⟩ <;> rw [hc]
  · exact .refl
  · exact q.copied (hlive f src hf) fun p hp => ⟨f, src, hf, hp⟩

/-- A `dup2` gives the object of its target back first. -/
theorem dupTo_confined {oldfd newfd : Int} (hown : ∀ g g' h, k.fds g = some h → k.fds g' = some h → g = g')
    (h0 : 0 ≤ newfd) (hs : Serves ans (.dup2 oldfd newfd) k) (hd : oldfd ≠ newfd) :
    Confined k (fdDupTo ans oldfd newfd k).2 := by
  rcases dupTo_cases h0 fun fd h hn hfd _ => (hs fd h hn hfd).grants with
    ⟨r, -, hc⟩ | ⟨f, src, fd, dst, k₀, k', hof, hf, hn, q, hc, hk⟩ <;> rw [hc]
  · exact .refl
  rcases hk with rfl | ⟨h, hfd, rfl⟩
  · exact q.copied (hlive f src hf) fun p hp => ⟨f, src, hf, hp⟩
  have hne : src ≠ h := by
    rintro rfl
    refine hd ((toFd_val hof).symm.trans ?_)
    rw [hown f fd src hf hfd]
    exact toFd_val hn
  have hsame : (release k.currentTask fd h ans.freed k).files src = k.files src :=
    Function.update_of_ne hne ..
  have hrel : Confined k (release k.currentTask fd h ans.freed k) := by
    refine .of_tasks ?_ ?_ fun _ _ _ => rfl
    · intro t ht _
      exact Function.update_of_ne ht ..
    · intro g hg hno
      have hgh : g ≠ h := by
        rintro rfl
        exact hno ⟨fd, hfd⟩
      exact ⟨Finset.mem_erase.mpr ⟨hgh, hg⟩, Function.update_of_ne hgh ..⟩
  refine hrel.trans (q.copied (Finset.mem_erase.mpr ⟨hne, hlive f src hf⟩) ?_)
  intro p hp
  rw [hsame] at hp
  exact ⟨f, src, hf, hp⟩

end

theorem openPath_confined (ans : Answers) (path : String) (node : Option Nat) (k : Kernel) :
    Confined k (sysOpenPath ans path node k).2 := by
  unfold sysOpenPath
  rcases fdAlloc_cases (ans.kmalloc 0) k with hm | ⟨fd, h, -, hh, hm⟩ <;> rw [hm]
  · exact .refl
  have hnew : h ∈ k.live → h ∈ objectsOf k k.currentTask := fun hc => absurd hc hh
  have hi : Confined k (install k.currentTask fd h VfsFile.fresh k) := Spares.refl.install hh fd _
  dsimp only
  split
  · exact hi.object hnew _
  · cases node with
    | none => exact (hi.free hnew ans.freed).slot fd none
    | some inode => exact hi.object hnew _

/-- A pipe that is made was not in use. -/
theorem pipe_confined (ans : Answers) (ufdOk : Bool) (k : Kernel) :
    Confined k (sysPipe ans ufdOk k).2 := by
  rcases sysPipe_cases ans ufdOk k with ⟨-, heq | ⟨p, hr⟩⟩ | ⟨p, rfd, wfd, rf, wf, ht, heq⟩
  · rw [heq]
    exact .refl
  · refine .of_tasks ?_ ?_ ?_
    · intro t _ _
      rw [hr.tasks]
    · intro h hh _
      exact ⟨by rwa [hr.live], hr.files h hh⟩
    · intro q hu _
      refine hr.pipes q ?_
      rintro rfl
      rw [hr.free] at hu
      cases hu
  · have hunused : (k.pipes p).inUse = true → p ∈ pipesOf k k.currentTask := by
      intro hc
      rw [ht.free] at hc
      cases hc
    have h₁ : Confined k (k.onPipe p fun _ => { Pipe.zero with inUse := true }) := Spares.refl.pipe hunused _
    have h₂ := (h₁.install ht.fresh.1 rfd (pipeFile p 0)).pipe hunused fun q => { q with readers := 1 }
    rw [heq]
    exact (h₂.install ht.fresh.2.1 wfd (pipeFile p 1)).pipe hunused fun q => { q with writers := 1 }

theorem close_confined (ans : Answers) (n : Int) (k : Kernel) : Confined k (sysClose ans n k).2 := by
  rcases sysClose_cases ans n k with hc | ⟨fd, h, -, hfd, hc⟩ <;> rw [hc]
  · exact .refl
  have hown : h ∈ k.live → h ∈ objectsOf k k.currentTask := fun _ => ⟨fd, hfd⟩
  have hend : Confined k (closeEnd h k) := by
    rw [closeEnd]
    split
    · exact Spares.refl.object hown _
    · next q hq =>
      have hpipe : (k.pipes q).inUse = true → q ∈ pipesOf k k.currentTask := fun _ => ⟨fd, h, hfd, hq⟩
      dsimp only
      split
      · exact (Spares.refl.pipe hpipe _).pipe hpipe _
      · exact Spares.refl.pipe hpipe _
  exact (hend.free hown ans.freed).slot fd none

theorem Untouched.spares (u : Untouched k k') (hp : k'.pipes = k.pipes) : Spares c H P k k' :=
  .of_tasks (fun t _ hl => u.tasks t hl.1) (fun h hh _ => ⟨u.live hh, u.files h hh⟩) fun p _ _ => by rw [hp]

/-- A turn of the loop of `proc_fork`: the slot of the child was not in use. -/
theorem forkFd_spares {parent child : Tid} (hno : ¬ (k.tasks child).Live)
    (hlive : ∀ g h, (k.tasks parent).fds g = some h → h ∈ k.live) (hne : child ≠ parent) (fd : Fd)
    (s : Spares parent ∅ (pipesOf k parent) k k') (hsame : k'.tasks parent = k.tasks parent) :
    Spares parent ∅ (pipesOf k parent) k (forkFd ans parent child fd k').2 ∧
      (forkFd ans parent child fd k').2.tasks parent = k.tasks parent := by
  rw [forkFd, hsame]
  cases hsrc : (k.tasks parent).fds fd with
  | none => exact ⟨s, hsame⟩
  | some src =>
    rcases kmalloc_cases (ans.kmalloc (fd.val + 1)) k' with hm | ⟨dst, -, hdst, hm⟩ <;> rw [hm]
    · exact ⟨s, hsame⟩
    obtain ⟨-, hfile⟩ := s.objects src (hlive fd src hsrc) fun hc => hc
    refine ⟨((s.take dst).task (.inr hno) _).copy ?_ ?_, ?_⟩
    · intro p hp
      exact ⟨fd, src, hsrc, hfile ▸ hp⟩
    · intro hc
      exact absurd (s.objects dst hc fun hc => hc).1 hdst
    · dsimp only
      rw [(copyFile_rest ..).1, setFd, onTask_tasks_ne hne.symm]
      exact hsame

/-- A `fork` fills a slot that was not in use. -/
theorem fork_confined (hl : (k.tasks k.currentTask).Live) (hlive : ∀ g h, k.fds g = some h → h ∈ k.live)
    (ans : Answers) : Confined k (procFork ans k).2 := by
  refine Spares.mono (H := ∅) ?_ (Set.empty_subset _) subset_rfl
  unfold procFork
  dsimp only
  rcases procAllocTask_slot (ans.kmalloc 0) k with ⟨k', heq, hu⟩ | ⟨child, stack, hu, -, heq⟩
  · have hpipes : k'.pipes = k.pipes := by
      rcases procAllocTask_cases (ans.kmalloc 0) k with ⟨k'', heq', -, -, -, hp⟩ | ⟨_, _, _, heq', -⟩ <;>
        rw [heq] at heq'
      · rw [(Prod.mk.inj heq').2, hp]
      · cases heq'
    rw [heq]
    exact hu.spares hpipes
  have hno : ¬ (k.tasks child).Live := fun hc => hc.1 hu
  have hne : child ≠ k.currentTask := by
    rintro rfl
    exact hno hl
  have h₁ : Spares k.currentTask ∅ (pipesOf k k.currentTask) k (slotTaken k child stack) := by
    refine .of_tasks ?_ (fun h hh _ => ⟨Finset.mem_insert_of_mem hh, rfl⟩) fun _ _ _ => rfl
    intro t _ ht
    refine slotTaken_ne ?_ ..
    rintro rfl
    exact hno ht
  rw [heq]
  dsimp only
  split
  · dsimp only
    exact h₁.task (.inr hno) _
  have hloop : ∀ {k₂ : Kernel}, Spares k.currentTask ∅ (pipesOf k k.currentTask) k k₂ →
      k₂.tasks k.currentTask = k.tasks k.currentTask → Spares k.currentTask ∅ (pipesOf k k.currentTask) k
        (forEach (forkFd ans k.currentTask child) (List.finRange procMaxFd) k₂).2 := fun hs ht =>
    (forEach_inv (I := fun k' => Spares k.currentTask ∅ (pipesOf k k.currentTask) k k' ∧
      k'.tasks k.currentTask = k.tasks k.currentTask)
      (fun fd _ k' s => forkFd_spares hno hlive hne fd s.1 s.2) ⟨hs, ht⟩).1
  have h₂ := hloop (h₁.task (.inr hno) fun c =>
      forkSlot k.currentTask ((slotTaken k child stack).tasks k.currentTask) c ans.cloneCr3)
    ((onTask_tasks_ne hne.symm ..).trans (slotTaken_ne hne.symm ..))
  rcases hf : forEach (forkFd ans k.currentTask child) (List.finRange procMaxFd) _ with ⟨_ | _, k₃⟩ <;>
    rw [hf] at h₂ <;> dsimp only
  · exact h₂.task (.inr hno) _
  · exact h₂.task (.inr hno) _

theorem exec_confined (ans : Answers) (found : Bool) (k : Kernel) : Confined k (procExec ans found k).2 := by
  rw [procExec]
  split
  · have e : Emptied aboveStandard k (procFdCloseAll ans.freed k) :=
      Emptied.loop ans.freed ((List.nodup_finRange _).filter _)
    have h₁ : Confined k (procFdCloseAll ans.freed k) := by
      refine .of_tasks (fun t ht _ => e.tasks t ht) ?_ fun p _ _ => by rw [e.rest.1]
      intro h hh hno
      have hother : ∀ g ∈ aboveStandard, k.fds g ≠ some h := fun g _ hc => hno ⟨g, hc⟩
      exact ⟨(e.live h).mpr ⟨hh, hother⟩, e.files h hother⟩
    have hcur := e.rest.2.2.1
    dsimp only
    have h₂ : Confined k (if ans.cloneCr3 = 0 then procFdCloseAll ans.freed k
        else { (procFdCloseAll ans.freed k).onTask (procFdCloseAll ans.freed k).currentTask
          fun p => { p with cr3 := ans.cloneCr3 } with pml4 := ans.cloneCr3 }) ∧
        (if ans.cloneCr3 = 0 then procFdCloseAll ans.freed k
          else { (procFdCloseAll ans.freed k).onTask (procFdCloseAll ans.freed k).currentTask
            fun p => { p with cr3 := ans.cloneCr3 } with pml4 := ans.cloneCr3 }).currentTask = k.currentTask := by
      split
      · exact ⟨h₁, hcur⟩
      · obtain ⟨hslots, hobjects, hpipes⟩ := h₁.task (.inl hcur) fun p => { p with cr3 := ans.cloneCr3 }
        exact ⟨⟨hslots, hobjects, hpipes⟩, hcur⟩
    generalize (if ans.cloneCr3 = 0 then _ else _ : Kernel) = k₂ at h₂ ⊢
    have h₃ := h₂.1.task (.inl h₂.2) fun p => { p with brk := userBrkStart, fsBase := 0 }
    split
    · exact h₃
    · dsimp only
      exact h₃.task (.inl h₂.2) _
  · exact .refl

/-- A task that exits wakes its parent. -/
theorem exit_confined (status : Int) (k : Kernel) : Confined k (exitCurrent status k) := by
  have h : Confined k (k.onTask k.currentTask fun p =>
      { p with exitStatus := status, state := .zombie }) := Spares.refl.task (.inl rfl) _
  rw [exitCurrent, procWakeParent]
  split
  · exact h
  · next t _ =>
    split
    · exact h.wake t
    · exact h

/-- A child that is reaped has exited before. -/
theorem wait_confined (pid : Int) (statusOk : Bool) (k : Kernel) : Confined k (waitTurn pid statusOk k).2 := by
  have h : Confined k (procForkTakeStatus pid k).2 := by
    unfold procForkTakeStatus
    split
    · exact .refl
    · next t ht =>
      have hz := firstSlot_some ht
      simp only [decide_eq_true_eq] at hz
      dsimp only
      exact Spares.refl.task (.inr fun hc => hc.2 hz.1) _
  rw [waitTurn]
  rcases hr : procForkTakeStatus pid k with ⟨_ | _, k'⟩ <;> rw [hr] at h
  · dsimp only
    split <;> exact h
  · exact h

theorem readTurn_confined {fd : Int} (hp : readPipe fd k = some p) (n : Nat) (buf : UserBuf) :
    Confined k (pipeReadTurn p n buf k).2 := by
  obtain ⟨f, h, hf, hpipe, -⟩ := readPipe_some hp
  have hin : p ∈ pipesOf k k.currentTask := ⟨f, h, hf, hpipe⟩
  have hs : Confined k (k.onPipe p fun _ => ((k.pipes p).read n).2) :=
    Spares.refl.pipe (fun _ => hin) _
  unfold pipeReadTurn
  dsimp only
  split
  · exact hs
  · split <;> exact hs

theorem writeTurn_confined {fd : Int} (hp : writePipe fd k = some p) (buf : UserBuf) (done : Nat) :
    Confined k (pipeWriteTurn p buf done k).2 := by
  obtain ⟨f, h, hf, hpipe, -⟩ := writePipe_some hp
  have hin : p ∈ pipesOf k k.currentTask := ⟨f, h, hf, hpipe⟩
  have hs : Confined k (k.onPipe p fun _ => ((k.pipes p).write (chunk buf done)).2) :=
    Spares.refl.pipe (fun _ => hin) _
  unfold pipeWriteTurn
  dsimp only
  split
  · split
    · split
      · exact hs.wakeAll
      · split <;> exact hs
    · exact .refl
  · exact .refl

/-- Every call of the current task is confined to what it has. -/
theorem dispatch_confined (hl : (k.tasks k.currentTask).Live) (hlive : ∀ g h, k.fds g = some h → h ∈ k.live)
    (hown : ∀ g g' h, k.fds g = some h → k.fds g' = some h → g = g') {call : Call}
    (hs : Serves ans call k) (hd : call.Distinct) : Confined k (dispatch ans call k).2 := by
  cases call with
  | pipe ufdOk => exact pipe_confined ans ufdOk k
  | dup oldfd => exact dup_confined hlive ans oldfd
  | dup2 oldfd newfd =>
    change Confined k (sysDup2 ans oldfd newfd k).2
    rw [sysDup2]
    split
    · exact .refl
    · next hr => exact dupTo_confined hlive hown (by omega) hs hd
  | fcntlDup oldfd minfd => exact dupFrom_confined hlive ans oldfd minfd
  | openPath path node => exact openPath_confined ans path node k
  | close fd => exact close_confined ans fd k
  | fork => exact fork_confined hl hlive ans
  | exec found => exact exec_confined ans found k
  | exit status => exact exit_confined status k
  | wait pid statusOk => exact wait_confined pid statusOk k
  | read fd count buf =>
    simp only [dispatch]
    split
    · exact .refl
    · next p hp => exact readTurn_confined hp count buf
  | write fd buf done =>
    simp only [dispatch]
    split
    · exact .refl
    · next p hp => exact writeTurn_confined hp buf done

/-! ### Between two calls of a task -/

/-- What the others do while `t` makes no call: which of them runs, and what they call, is left open. -/
inductive Elsewhere (t : Tid) (k : Kernel) : Kernel → Prop
  | refl : Elsewhere t k k
  | schedule {k' : Kernel} (u : Tid) (state : TaskState) : Elsewhere t k k' → (k'.tasks u).Live →
      state ≠ .unused → state ≠ .zombie → Elsewhere t k (k'.setState u state)
  | switch {k' : Kernel} (u : Tid) : Elsewhere t k k' → (k'.tasks u).Live →
      Elsewhere t k { k' with currentTask := u }
  | call {k' : Kernel} (ans : Answers) (c : Call) : Elsewhere t k k' → k'.currentTask ≠ t →
      (k'.tasks k'.currentTask).Live → Serves ans c k' → c.Distinct → Elsewhere t k (dispatch ans c k').2

theorem Elsewhere.reaches (h : Elsewhere t k k') (hr : Reaches (fun ans c k => Serves ans c k ∧ c.Distinct) k) :
    Reaches (fun ans c k => Serves ans c k ∧ c.Distinct) k' := by
  induction h with
  | refl => exact hr
  | schedule u state _ hl hu hz ih => exact .schedule u state ih hl hu hz
  | switch u _ hl ih => exact .switch u ih hl
  | call ans c _ _ hl hs hd ih => exact .call ans c ih hl ⟨hs, hd⟩

/-- The task is there, with its slot and its descriptors, but for its run state. -/
structure LeftAlone (t : Tid) (k k' : Kernel) : Prop where
  live : (k'.tasks t).Live
  slot : k'.tasks t = { k.tasks t with state := (k'.tasks t).state }
  table : table k' t = table k t

/-- Whatever the other tasks do between two of its calls, a task finds its slot and its descriptors as it
    left them. -/
theorem descriptors_private (hr : Reaches (fun ans c k => Serves ans c k ∧ c.Distinct) k)
    (hl : (k.tasks t).Live) (h : Elsewhere t k k') : LeftAlone t k k' := by
  induction h with
  | refl => exact ⟨hl, rfl, rfl⟩
  | @schedule k' u state h hu hun hz ih =>
    obtain ⟨hlive, hslot, htable⟩ := ih
    rcases eq_or_ne t u with rfl | hne
    · refine ⟨?_, ?_, ?_⟩
      · rw [setState, onTask_tasks_self]
        exact ⟨hun, hz⟩
      · rw [setState, onTask_tasks_self, hslot]
      · rw [← htable]
        funext g
        rw [Proc.table, Proc.table, setState, onTask_tasks_self]
        rfl
    · have hsame : (k'.setState u state).tasks t = k'.tasks t := onTask_tasks_ne hne ..
      refine ⟨hsame ▸ hlive, hsame ▸ hslot, ?_⟩
      rw [← htable]
      funext g
      rw [Proc.table, Proc.table, hsame]
      rfl
  | switch u h hu ih => exact ⟨ih.live, ih.slot, ih.table⟩
  | @call k' ans c h hne hcur hs hd ih =>
    obtain ⟨hlive, hslot, htable⟩ := ih
    have b : Sound False ∅ k' := (h.reaches hr).sound fun _ _ _ hm => ⟨hm.1, False.elim⟩
    have hconf : Confined k' (dispatch ans c k').2 :=
      dispatch_confined hcur (fun g h hg => b.live _ h (held_fds hcur hg))
        (b.fds_injective hcur) hs hd
    obtain ⟨hlive', hslot'⟩ := hconf.slots t hne.symm hlive
    refine ⟨hlive', ?_, ?_⟩
    · rw [hslot', hslot]
    · rw [← htable]
      funext g
      rw [Proc.table, Proc.table, hslot']
      cases hopen : (k'.tasks t).fds g with
      | none => rfl
      | some a =>
        have hheld : held k' (t, g) = some a := held_some.mpr ⟨hlive, hopen⟩
        -- the object is the task's own, so the caller has no descriptor of it
        have hother : a ∉ objectsOf k' k'.currentTask := by
          rintro ⟨g', hg'⟩
          exact hne (Prod.mk.inj (b.own _ _ a (held_fds hcur hg') hheld)).1
        rw [Option.map_some, Option.map_some, (hconf.objects a (b.live _ a hheld) hother).2]

/-- A pipe is made and inherited; the child closes an end of it, and the parent still has both. -/
theorem descriptors_private_inherited : ∃ k k', Elsewhere 0 k k' ∧ (table k 0 3).isSome ∧
    table k' 1 3 = none ∧ table k' 0 3 = table k 0 3 := by
  have hr : Reaches (fun ans c k => Serves ans c k ∧ c.Distinct)
      (dispatch { roomy 20 with cloneCr3 := 1 } .fork pipeMade).2 :=
    .call _ .fork (pipeMade_reaches _ fun _ _ _ => ⟨trivial, trivial⟩) (by decide) ⟨trivial, trivial⟩
  have hrun : Elsewhere 0 (dispatch { roomy 20 with cloneCr3 := 1 } .fork pipeMade).2
      (dispatch (roomy 40) (.close 3)
        { (dispatch { roomy 20 with cloneCr3 := 1 } .fork pipeMade).2 with currentTask := 1 }).2 :=
    .call _ _ (.switch 1 .refl (by decide)) (by decide) (by decide) trivial trivial
  exact ⟨_, _, hrun, by decide, by decide, congrFun (descriptors_private hr (by decide) hrun).table 3⟩

end TypeOS.Proc
