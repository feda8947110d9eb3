import TypeOS.Sched.Steps

/-! `sched_pick_next`, called again and again (`sched.c`).

    Nothing lies between two calls but `rr_index`: the tasks may become any others. A task that can run
    at each of `PROC_MAX_TASKS` calls is returned by one of them, since every other call begins the
    next one closer behind it. -/

namespace TypeOS.Sched

open Proc Kernel

/-- `rr_index` before each of the calls, where call `j` finds the tasks of `ks j`. -/
def rrIndexAt (rr : Tid) (ks : Nat → Kernel) : Nat → Tid
  | 0 => rr
  | j + 1 => (schedPickNext (rrIndexAt rr ks j) (ks j)).2

/-- The task that call `j` returns. -/
def picked (rr : Tid) (ks : Nat → Kernel) (j : Nat) : Tid := (schedPickNext (rrIndexAt rr ks j) (ks j)).1

variable {rr t : Tid} {ks : Nat → Kernel} {j : Nat}

/-- A call that finds a task that can run takes the next one, and remembers it. -/
theorem picked_next (ht : CanRun (ks j) t) : rrIndexAt rr ks (j + 1) = picked rr ks j ∧
    RoundRobin.Picks (CanRun (ks j)) (rrIndexAt rr ks j) (rrIndexAt rr ks (j + 1)) := by
  rw [rrIndexAt, picked]
  rcases schedPickNext_cases (rrIndexAt rr ks j) (ks j) with ⟨-, hnone⟩ | ⟨u, heq, hpicks⟩
  · exact absurd ht (hnone t)
  · rw [heq]
    exact ⟨rfl, hpicks⟩

/-- From any call on, wherever `rr_index` is. -/
theorem picked_within (h : ∀ i < procMaxTasks, CanRun (ks (j + i)) t) :
    ∃ i < procMaxTasks, picked rr ks (j + i) = t := by
  have hready : ∀ i, j ≤ i → i < j + procMaxTasks → CanRun (ks i) t := by
    intro i hji hi
    have hcan := h (i - j) (by omega)
    rwa [Nat.add_sub_cancel' hji] at hcan
  obtain ⟨i, hji, hi, hpicked⟩ := RoundRobin.picked_in_time procMaxTasks
    (RoundRobin.gap_lt (rrIndexAt rr ks j) t) (fun i hji hi => (picked_next (hready i hji hi)).2) hready
  refine ⟨i - j, by omega, ?_⟩
  rw [Nat.add_sub_cancel' hji, ← hpicked]
  exact (picked_next (hready i hji hi)).1.symm

/-- One round is enough, and no task is returned that cannot run while there is one that can. -/
theorem picks_fair (rr : Tid) (ks : Nat → Kernel) :
    (∀ t j, (∀ i < procMaxTasks, CanRun (ks (j + i)) t) → ∃ i < procMaxTasks, picked rr ks (j + i) = t) ∧
    ∀ j, (∃ t, CanRun (ks j) t) → CanRun (ks j) (picked rr ks j) := by
  refine ⟨fun t j h => picked_within h, fun j ⟨t, ht⟩ => ?_⟩
  have hnext : rrIndexAt rr ks (j + 1) = picked rr ks j ∧ _ := picked_next ht
  obtain ⟨heq, i, -, hcan, -⟩ := hnext
  rwa [heq] at hcan

/-- The tasks of call `j`: task 3 can always run, the others at every other call. -/
def everyOther (j : Nat) : Kernel :=
  { Kernel.zero ∅ (fun _ => VfsFile.fresh) 0 with
    tasks := fun t => { Process.zero with state := if t = 3 ∨ j % 2 = 0 then .runnable else .blocked } }

theorem picks_fair_everyOther : ∃ i < procMaxTasks, picked 0 everyOther (5 + i) = 3 :=
  (picks_fair 0 everyOther).1 3 5 fun i _ => Or.inl (by simp [everyOther])

end TypeOS.Sched
