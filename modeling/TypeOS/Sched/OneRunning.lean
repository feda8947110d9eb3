import TypeOS.Sched.Nested

/-! When more than one task is `TASK_RUNNING`.

    `proc_run_runnable` marks the task that it starts and leaves its caller marked. So the mark is the
    current task's alone up to the first call that must wait while another task is runnable; a task
    that blocks or exits first has lost its mark by then. -/

namespace TypeOS.Sched

open Proc Kernel

variable {m m' : Machine} {f : Frame} {i : Input}

/-- Nobody is marked as running but the current task. -/
def OneRunning (m : Machine) : Prop := ∀ t, m.state t = .running → t = m.cur

/-- A running task whose call must wait finds no other task runnable. -/
def WaitsAlone (i : Input) (m : Machine) : Prop :=
  ∀ f, i = .turn → m.mode = .kernel f → (callTurn f m).1 = .block → m.state m.cur = .running →
    ∀ t, t ≠ m.cur → m.state t ≠ .runnable

theorem waitsAlone_of_ne (hi : i ≠ .turn) : WaitsAlone i m := fun _ h => absurd h hi

/-! ### A turn that must wait -/

/-- A ring that holds a key still does after a push, and one with a key pushed does. -/
theorem keyboardPush_holds (key : Nat) (kb : Keyboard)
    (h : (keyboardPush key kb).1 = true ∨ kb.head ≠ kb.tail) :
    (keyboardPush key kb).2.head ≠ (keyboardPush key kb).2.tail := by
  unfold keyboardPush at h ⊢
  dsimp only at h ⊢
  split
  · next hfull =>
    rw [if_pos hfull] at h
    exact h.resolve_left (by simp)
  · next hroom => exact hroom

theorem pollAll_holds (l : List Nat) : ∀ kb : Keyboard,
    (pollAll l kb).1 = true ∨ kb.head ≠ kb.tail → (pollAll l kb).2.head ≠ (pollAll l kb).2.tail := by
  induction l with
  | nil =>
    intro kb h
    exact h.resolve_left (by simp [pollAll])
  | cons scancode l ih =>
    intro kb h
    rw [pollAll] at h ⊢
    obtain ⟨shift, extended, hcode | ⟨key, hcode⟩⟩ := keyboardHandleScancode_cases scancode kb
    · rw [hcode, Bool.false_or] at h
      rw [hcode]
      exact ih _ h
    · rw [hcode, Bool.or_eq_true] at h
      rw [hcode]
      refine ih _ ?_
      rcases h with (h | h) | h
      · exact Or.inr (keyboardPush_holds key _ (Or.inl h))
      · exact Or.inl h
      · exact Or.inr (keyboardPush_holds key _ (Or.inr h))

/-- A call that must wait has woken and reaped nobody. -/
theorem callTurn_block (hb : (callTurn f m).1 = .block) (t : Tid) :
    (callTurn f m).2.state t = m.state t := by
  unfold callTurn at hb ⊢
  split at hb
  · next p count buf _ =>
    simp only [Machine.state, pipeReadTurn]
    split
    · rfl
    · split <;> rfl
  · next p buf n _ =>
    simp only [Machine.state, pipeWriteTurn] at hb ⊢
    split at hb
    · split at hb
      · split at hb
        · cases hb
        · next hlen hok hfull =>
          simp only [if_pos hlen, if_pos hok, if_neg hfull]
          split <;> rfl
      · cases hb
    · cases hb
  · unfold consoleTurn at hb ⊢
    dsimp only at hb ⊢
    split at hb
    · cases hb
    · next hempty =>
      rw [if_neg hempty]
      have hquiet : (keyboardPoll m.keyboard).1 = false := by
        by_contra hpushed
        rw [Bool.not_eq_false] at hpushed
        exact hempty (pollAll_holds _ _ (Or.inl hpushed))
      simp only [Machine.state, hquiet, if_neg Bool.false_ne_true]
  · next pid statusOk _ =>
    simp only [Machine.state] at hb ⊢
    unfold waitTurn at hb ⊢
    rcases hp : procForkTakeStatus pid m.kernel with ⟨taken, k⟩
    rw [hp] at hb
    cases taken with
    | some r => cases hb
    | none =>
      have hk : k = m.kernel := by
        rcases procForkTakeStatus_cases pid m.kernel with ⟨-, heq⟩ | ⟨z, -, heq⟩ <;>
          rw [heq] at hp
        · exact (Prod.mk.inj hp).2.symm
        · cases (Prod.mk.inj hp).1
      subst hk
      dsimp only
      split <;> rfl
  · rfl

/-! ### Steps -/

/-- A step with the current task. -/
theorem OneRunning.works (h : OneRunning m) {z : Option Tid} (w : Works z m m') : OneRunning m' := by
  intro t ht
  have hdrift := w.state t
  rw [w.cur]
  by_contra hne
  exact hdrift.not_running (fun hr => hne (h t hr)) ht

/-- `proc_run_runnable` starts another task; afterwards the marks are as they should be if its caller
    has none. -/
theorem OneRunning.activate (h : OneRunning m) (hp : procRunRunnable f m = some m') :
    OneRunning m' ↔ m.state m.cur ≠ .running := by
  rcases procRunRunnable_cases f m with ⟨hn, -⟩ | ⟨t, m₁, hs, -, hne, hcur, -, hother, -⟩
  · rw [hn] at hp
    cases hp
  rw [hs, Option.some.injEq] at hp
  subst hp
  have hstate : ∀ u, u ≠ t → m₁.state u = m.state u := fun u hu => congrArg Process.state (hother u hu)
  constructor
  · intro hone hrun
    rw [← hstate m.cur (Ne.symm hne)] at hrun
    exact hne (hcur.symm.trans (hone _ hrun).symm)
  · intro hnot u hu
    rw [hcur]
    by_contra hut
    rw [hstate u hut] at hu
    exact hnot (h u hu ▸ hu)

/-- A call that must wait starts another task, or its own is marked as blocked. -/
theorem OneRunning.block (h : OneRunning m) :
    OneRunning (schedBlockCurrent f m) ↔
      (m.state m.cur = .running → ∀ t, t ≠ m.cur → m.state t ≠ .runnable) := by
  have hmark : ∀ t, t ≠ m.cur → (markBlocked f m).kernel.tasks t = m.kernel.tasks t :=
    fun t ht => Function.update_of_ne ht ..
  have hself : (markBlocked f m).state m.cur = .blocked := by
    simp [markBlocked, Machine.state, setState]
  rcases schedBlockCurrent_cases f m with ⟨m', hp, heq⟩ | ⟨hno, hrest⟩
  · rw [heq, h.activate hp]
    rcases procRunRunnable_cases f m with ⟨hn, -⟩ | ⟨t, _, -, ht, hne, -⟩
    · rw [hn] at hp
      cases hp
    · exact ⟨fun hnot hrun => absurd hrun hnot, fun hall hrun => hall hrun t hne ht⟩
  · refine ⟨fun _ _ => hno, fun _ => ?_⟩
    rcases hrest with ⟨rr, heq⟩ | ⟨next, rr, n, hne, -, -, heq⟩ <;> rw [heq]
    · intro t ht
      by_contra htc
      have ht : (markBlocked f m).state t = .running := ht
      rw [Machine.state, hmark t htc] at ht
      exact htc (h t ht)
    · intro t ht
      by_contra htn
      have ht : (((markBlocked f m).kernel.setState next .running).tasks t).state = .running := ht
      rw [setState, onTask_tasks_ne htn] at ht
      rcases eq_or_ne t m.cur with rfl | htc
      · have hblk : ((markBlocked f m).kernel.tasks m.cur).state = .blocked := hself
        rw [hblk] at ht
        cases ht
      · rw [hmark t htc] at ht
        exact htc (h t ht)

/-- The mark of a task that exits is gone; the one that is come back to gets it. -/
theorem OneRunning.exit (h : OneRunning m) (status : Int) : OneRunning (sysExit status m) := by
  obtain ⟨hcur, hself, hother⟩ := exitCurrent_slots status m.kernel
  have hdead : ∀ t, (exited status m).state t ≠ .running := by
    intro t ht
    have ht : ((exitCurrent status m.kernel).tasks t).state = .running := ht
    rcases eq_or_ne t m.cur with rfl | htc
    · rw [hself] at ht
      cases ht
    · rcases hother t htc with heq | ⟨-, -, heq⟩ <;> rw [heq] at ht
      · exact htc (h t ht)
      · cases ht
  rcases sysExit_cases status m with ⟨-, -, heq⟩ | ⟨-, heq⟩ <;> rw [heq]
  · rcases longjmp_cases (exited status m) with hl | ⟨-, -, saved, -, -, -, hl⟩ <;> rw [hl]
    · exact fun t ht => absurd ht (hdead t)
    · obtain ⟨hc, -, hrest, -⟩ := resume_eq saved (exited status m)
      intro t ht
      rw [hc]
      by_contra hts
      rw [Machine.state, hrest t hts] at ht
      exact hdead t ht
  · exact fun t ht => absurd ht (hdead t)

/-- A turn of a call. -/
theorem OneRunning.turn (h : OneRunning m) :
    OneRunning (turn f m) ↔ ((callTurn f m).1 = .block → m.state m.cur = .running →
      ∀ t, t ≠ m.cur → m.state t ≠ .runnable) := by
  have hw := callTurn_works f m
  rcases turn_cases f m with ⟨r, hr, heq⟩ | ⟨n, hn, heq⟩ | ⟨hb, heq⟩ <;> rw [heq]
  · refine ⟨fun _ hblock => ?_, fun _ => h.works (hw.after _ r)⟩
    rw [hr] at hblock
    cases hblock
  · refine ⟨fun _ hblock => ?_, fun _ => h.works { hw with }⟩
    rw [hn] at hblock
    cases hblock
  · have h' := h.works hw
    have hiff : ((callTurn f m).2.state (callTurn f m).2.cur = .running →
        ∀ t, t ≠ (callTurn f m).2.cur → (callTurn f m).2.state t ≠ .runnable) ↔
        ((callTurn f m).1 = .block → m.state m.cur = .running →
          ∀ t, t ≠ m.cur → m.state t ≠ .runnable) := by
      simp only [callTurn_block hb, hw.cur, hb, true_implies]
    rw [← hiff]
    unfold waitInKernel
    split
    · rcases procRunRunnable_cases f (callTurn f m).2 with ⟨hn, hno⟩ | ⟨t, m', hs, ht, hne, -⟩
      · simp only [hn]
        exact ⟨fun _ _ => hno, fun _ => h'⟩
      · simp only [hs]
        rw [h'.activate hs]
        exact ⟨fun hnot hrun => absurd hrun hnot, fun hall hrun => hall hrun t hne ht⟩
    · exact h'.block

/-- What a step leaves: the marks are still as they should be, unless a running task has started
    another. -/
theorem OneRunning.step (h : OneRunning m) (hs : step i m = some m') :
    OneRunning m' ↔ WaitsAlone i m := by
  rcases step_cases hs with ⟨ctx, ans, sys, rfl, hm, hd⟩ | ⟨f, rfl, hm, rfl⟩ |
    ⟨f, rfl, hm, ⟨hblk, hp | ⟨-, rfl⟩⟩ | ⟨-, rfl⟩⟩ | ⟨scancode, rfl, rfl⟩
  · refine ⟨fun _ => waitsAlone_of_ne (by simp), fun _ => ?_⟩
    by_cases hx : ∃ status, sys = .exit status
    · obtain ⟨status, rfl⟩ := hx
      simp only [sysDispatch, Option.some.injEq] at hd
      subst hd
      have he : OneRunning (enter ctx m) := h.works (Works.of_enter (Works.refl none (enter ctx m)))
      exact he.exit status
    · exact h.works (sysDispatch_works hd fun status hst => hx ⟨status, hst⟩).1
  · rw [h.turn]
    refine ⟨fun hall g _ hg => ?_, fun hall => hall f rfl hm⟩
    rw [hm, Mode.kernel.injEq] at hg
    exact hg ▸ hall
  · refine ⟨fun _ => waitsAlone_of_ne (by simp), fun _ => (h.activate hp).mpr ?_⟩
    rw [hblk]
    decide
  · exact ⟨fun _ => waitsAlone_of_ne (by simp), fun _ => h⟩
  · refine ⟨fun _ => waitsAlone_of_ne (by simp), fun _ t ht => ?_⟩
    simp only [schedBlockEnd, Machine.state, Machine.cur] at ht ⊢
    split at ht
    · next hr =>
      rw [if_pos hr]
      change t = m.kernel.currentTask
      by_contra htc
      rw [setState, onTask_tasks_ne htc] at ht
      exact htc (h t ht)
    · next hr =>
      rw [if_neg hr]
      exact h t ht
  · exact ⟨fun _ => waitsAlone_of_ne (by simp), fun _ => h⟩

/-! ### Runs -/

theorem oneRunning_boot (ans : Answers) (live : Finset Handle) (files : Handle → VfsFile) (pml4 : Nat) :
    OneRunning (gdtSetRsp0 0 (Machine.boot ans live files pml4)) := by
  obtain ⟨n, hn, hfirst, -⟩ := boot_spec ans live files pml4
  rw [hn]
  intro t ht
  by_contra htc
  have ht0 : t ≠ 0 := fun h => htc (h.trans hfirst.cur.symm)
  have hst := Process.core_state (hfirst.other t ht0)
  have ht : ((Machine.boot ans live files pml4).kernel.tasks t).state = .running := ht
  rw [hst] at ht
  cases ht

/-- In every run in which no running task starts another one while it waits, the current task is the
    only one marked as running; and a step that does so ends it. -/
theorem one_running (hr : Reaches WaitsAlone m) :
    OneRunning m ∧ ∀ i m', step i m = some m' → (OneRunning m' ↔ WaitsAlone i m) := by
  have h : OneRunning m := by
    induction hr with
    | boot ans live files pml4 => exact oneRunning_boot ans live files pml4
    | step i _ hm hs ih => exact (ih.step hs).mpr hm
  exact ⟨h, fun _ _ hs => h.step hs⟩

theorem reaches_turn (hr : Reaches WaitsAlone m) (h : WaitsAlone .turn m) :
    Reaches WaitsAlone (afterInputs [.turn] m) := by
  rw [afterInputs, afterInputs]
  cases hs : Sched.step .turn m with
  | none => exact hr
  | some m' => exact hr.step .turn h hs

/-- The shell has a key to read and asks for it. -/
def shellReads : Machine := afterInputs [.key 0x1e, calls 0 (.read 0 1 ⟨[0], fun _ _ => true⟩ 0)] booted

/-- It has read it, and forks and exits. -/
def shellExits : Machine := afterInputs [forks 10, exits] (afterInputs [.turn] shellReads)

/-- Then its child runs, and is the only task that is marked as running. -/
theorem one_running_heir : OneRunning (afterInputs [.turn] shellExits) ∧
    (afterInputs [.turn] shellExits).state 1 = .running := by
  have hr₁ : Reaches WaitsAlone shellReads := booted_reaches.afterInputs fun i hi _ =>
    waitsAlone_of_ne (by
      rcases List.mem_cons.mp hi with rfl | hi
      · simp
      · simp [List.mem_singleton.mp hi, calls])
  have hr₂ := reaches_turn hr₁ fun _ _ _ _ _ => by decide
  have hr₃ : Reaches WaitsAlone shellExits := hr₂.afterInputs fun i hi _ =>
    waitsAlone_of_ne (by
      rcases List.mem_cons.mp hi with rfl | hi
      · simp [forks, calls]
      · simp [List.mem_singleton.mp hi, exits, calls])
  have hexited : shellExits.state shellExits.cur ≠ .running := by decide
  have hr₄ := reaches_turn hr₃ fun _ _ _ _ hrun => absurd hrun hexited
  exact ⟨(one_running hr₄).1, by decide⟩

/-- The shell forks and waits: it and its child are marked as running. -/
theorem two_running : ¬ ∀ m, Reaches (fun _ _ => True) m → OneRunning m := by
  intro h
  have hrun : childRuns.state 0 = .running := by decide
  have hcur : childRuns.cur = 1 := by decide
  have := h childRuns childRuns_reaches 0 hrun
  rw [hcur] at this
  exact absurd this (by decide)

end TypeOS.Sched
