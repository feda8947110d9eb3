import TypeOS.Proc.Inherit

/-! What a process leaves behind.

    A child is forked, runs and exits, and its parent takes its status: what was taken on its behalf should
    be given back by then. Its kernel stack never is. `proc_fork` takes it from the heap, no descriptor
    refers to it, and what the calls free are the objects of descriptors. -/

namespace TypeOS.Proc

open Kernel

/-- The pipes that are in use. -/
def usedPipes (k : Kernel) : Finset PipeId := Finset.univ.filter fun p => (k.pipes p).inUse = true

/-- What of the heap, and which pipes, are owned on behalf of a task. The frames behind its address space
    are not looked at: what is left on the heap decides. -/
structure Account where
  heap : Finset Handle
  pipes : Finset PipeId
  deriving DecidableEq

/-- What is owned on behalf of a task that is not there. -/
def Account.nothing : Account := ⟨∅, ∅⟩

/-- The task takes it. -/
def Account.take (own : Account) (k k' : Kernel) : Account :=
  ⟨own.heap ∪ (k'.live \ k.live), own.pipes ∪ (usedPipes k' \ usedPipes k)⟩

/-- It is given back, by the task or by another. -/
def Account.give (own : Account) (k' : Kernel) : Account := ⟨own.heap ∩ k'.live, own.pipes ∩ usedPipes k'⟩

/-- After a step from `k` to `k'`, which takes what it takes on behalf of the task if it is `its` own. -/
def Account.after (own : Account) (its : Bool) (k k' : Kernel) : Account :=
  (if its then own.take k k' else own).give k'

/-- A run of any tasks, in which what is owned on behalf of the task in slot `c` is kept account of. -/
inductive Tracked (c : Tid) (k : Kernel) (own : Account) : Kernel → Account → Prop
  | refl : Tracked c k own k own
  | schedule {k' : Kernel} {own' : Account} (t : Tid) (state : TaskState) : Tracked c k own k' own' →
      (k'.tasks t).Live → state ≠ .unused → state ≠ .zombie → Tracked c k own (k'.setState t state) own'
  | switch {k' : Kernel} {own' : Account} (t : Tid) : Tracked c k own k' own' → (k'.tasks t).Live →
      Tracked c k own { k' with currentTask := t } own'
  | call {k' : Kernel} {own' : Account} (ans : Answers) (call : Call) : Tracked c k own k' own' →
      (k'.tasks k'.currentTask).Live → Serves ans call k' →
      Tracked c k own (dispatch ans call k').2
        (own'.after (decide (k'.currentTask = c)) k' (dispatch ans call k').2)

/-- The current task of `k` forks a child in slot `c`; the child runs, has no child of its own any more, and
    exits; and some time later the same task takes the status of the child. `own` is owned on its behalf
    then. -/
inductive Round (k : Kernel) (c : Tid) : Account → Prop
  | intro (ans : Answers) {k₁ k₂ : Kernel} {own₁ own₂ : Account} (status taken pid : Int) (reaped : Nat) :
      (k.tasks c).state = .unused → ((procFork ans k).2.tasks c).state = .runnable →
      Tracked c (procFork ans k).2 (Account.nothing.after true k (procFork ans k).2) k₁ own₁ →
      k₁.currentTask = c → (k₁.tasks c).Live →
      (∀ t, (k₁.tasks t).parent = some c → (k₁.tasks t).state = .unused) →
      Tracked c (exitCurrent status k₁) (own₁.after true k₁ (exitCurrent status k₁)) k₂ own₂ →
      k₂.currentTask = k.currentTask → (k₂.tasks k₂.currentTask).Live →
      (procForkTakeStatus pid k₂).1 = some (reaped, taken) → (procFork ans k).1 = reaped →
      Round k c (own₂.after false k₂ (procForkTakeStatus pid k₂).2)

variable {k k' : Kernel} {c : Tid} {own own' : Account} {h : Handle}

/-- What stays allocated stays owned. -/
theorem Account.mem_after (hh : h ∈ own.heap) (hl : h ∈ k'.live) (its : Bool) :
    h ∈ (own.after its k k').heap := by
  refine Finset.mem_inter.mpr ⟨?_, hl⟩
  cases its with
  | false => exact hh
  | true => exact Finset.mem_union_left _ hh

/-- What is set apart stays allocated, whoever calls. -/
theorem Tracked.keeps (t : Tracked c k own k' own') (b : Sound False {h} k) (hh : h ∈ own.heap) :
    Sound False {h} k' ∧ h ∈ own'.heap := by
  induction t with
  | refl => exact ⟨b, hh⟩
  | schedule t state _ hl hu hz ih =>
    exact ⟨ih.1.setState (by simpa [Process.Live, hu, hz] using hl), ih.2⟩
  | switch t _ _ ih => exact ⟨ih.1.same rfl rfl rfl fun _ => ⟨rfl, rfl, rfl⟩, ih.2⟩
  | call ans call _ hl hs ih =>
    have b' := ih.1.dispatch hl hs False.elim
    exact ⟨b', Account.mem_after ih.2 (b'.apart h rfl).1 _⟩

/-- The kernel stack of the child is owned on its behalf to the end. -/
theorem Round.stack (r : Round k c own) (hr : Reaches Serves k) (hl : (k.tasks k.currentTask).Live) :
    own.heap.Nonempty := by
  obtain ⟨ans, status, taken, pid, reaped, -, -, hlife, -, -, -, hrest, -, -, -, hpid⟩ := r
  have b : Sound False ∅ k := hr.sound fun _ _ _ hm => ⟨hm, False.elim⟩
  rcases @Sound.fork_stack False ∅ k ans b hl with ⟨hfail, -⟩ | ⟨stack, hnew, hb⟩
  · rw [hpid] at hfail
    omega
  rw [insert_empty_eq] at hb
  have hstack : stack ∈ (Account.nothing.after true k (procFork ans k).2).heap := by
    have hlive := (hb.apart stack rfl).1
    exact Finset.mem_inter.mpr ⟨Finset.mem_union_right _ (Finset.mem_sdiff.mpr ⟨hlive, hnew⟩), hlive⟩
  obtain ⟨b₁, h₁⟩ := hlife.keeps hb hstack
  have b₁' := @Sound.exit _ _ _ b₁ status
  obtain ⟨b₂, h₂⟩ := hrest.keeps b₁' (Account.mem_after h₁ (b₁'.apart stack rfl).1 _)
  have b₂' := @Sound.wait _ _ _ b₂ pid
  exact ⟨stack, Account.mem_after h₂ (b₂'.apart stack rfl).1 _⟩

/-- No process gives back what it took: after every round of fork, exit and wait, something that was taken on
    behalf of the child is still allocated. -/
theorem round_leaves_stack (hr : Reaches Serves k) (hl : (k.tasks k.currentTask).Live)
    (r : Round k c own) : own ≠ Account.nothing := by
  rintro rfl
  obtain ⟨stack, hs⟩ := r.stack hr hl
  exact absurd hs (Finset.notMem_empty stack)

/-! ### A round -/

/-- The heap has room, and the address space can be cloned. -/
def forkable : Answers := { roomy 20 with cloneCr3 := 1 }

/-- The child of the task that made a pipe is there, and runs. -/
def childRuns : Kernel := { (procFork forkable pipeMade).2 with currentTask := 1 }

/-- It closes the two ends of the pipe. -/
def childClosed : Kernel := (dispatch (roomy 40) (.close 4) (dispatch (roomy 40) (.close 3) childRuns).2).2

/-- It exits, and its parent goes on. -/
def childGone : Kernel := { exitCurrent 7 childClosed with currentTask := 0 }

theorem childClosed_tracked : ∃ own, Tracked 1 (procFork forkable pipeMade).2
    (Account.nothing.after true pipeMade (procFork forkable pipeMade).2) childClosed own :=
  ⟨_, .call (roomy 40) (.close 4) (.call (roomy 40) (.close 3) (.switch 1 .refl (by decide)) (by decide) trivial)
    (by decide) trivial⟩

theorem childGone_tracked (own : Account) : Tracked 1 (exitCurrent 7 childClosed) own childGone own :=
  .switch 0 .refl (by decide +kernel)

theorem round_pipeMade : ∃ own, Round pipeMade 1 own := by
  obtain ⟨own, hlife⟩ := childClosed_tracked
  refine ⟨_, .intro forkable 7 7 (-1) 2 ?_ ?_ hlife ?_ ?_ ?_ (childGone_tracked _) ?_ ?_ ?_ ?_⟩
  all_goals decide +kernel

theorem round_leaves_stack_pipeMade : ∃ own, Round pipeMade 1 own ∧ own ≠ Account.nothing := by
  obtain ⟨own, r⟩ := round_pipeMade
  exact ⟨own, r, round_leaves_stack (pipeMade_reaches Serves fun _ _ _ => trivial) (by decide) r⟩

/-- The child that gave back all it could leaves its stack allocated. -/
theorem closed_child_leaves : ¬ ∀ k c own, Reaches Serves k → (k.tasks k.currentTask).Live → Round k c own →
    own = Account.nothing := by
  intro hall
  obtain ⟨own, r⟩ := round_pipeMade
  have hr : Reaches Serves pipeMade := pipeMade_reaches Serves fun _ _ _ => trivial
  obtain rfl := hall pipeMade 1 own hr (by decide) r
  exact absurd (r.stack hr (by decide)) Finset.not_nonempty_empty

end TypeOS.Proc
