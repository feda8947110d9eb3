import TypeOS.Proc.Calls
import TypeOS.Lib.Count

/-! The ends of the pipes that descriptors of live tasks hold, and what each edit of the tables does
    to them. -/

namespace TypeOS.Proc

open Kernel

/-- The object that a descriptor of a live task holds. -/
def held (k : Kernel) (x : Tid × Fd) : Option Handle :=
  if (k.tasks x.1).Live then (k.tasks x.1).fds x.2 else none

/-- The end of a pipe that a file stands for. -/
def VfsFile.end (file : VfsFile) : Option (PipeId × Int) := file.pipe.map fun p => (p, file.pipeEnd)

/-- The end of a pipe that a descriptor of a live task is open on. -/
def openEnd (k : Kernel) (x : Tid × Fd) : Option (PipeId × Int) :=
  (held k x).bind fun h => (k.files h).end

/-- The descriptors open on the read end of a pipe in the tables of tasks that have not exited. -/
def readEnds (k : Kernel) (p : PipeId) : Nat := count (openEnd k) (p, 0)

/-- The descriptors open on its write end. -/
def writeEnds (k : Kernel) (p : PipeId) : Nat := count (openEnd k) (p, 1)

/-- Every descriptor of a live task has an object of its own, allocated, and a pipe end is one of the
    two, without a path. -/
structure Owned (k : Kernel) : Prop where
  live : ∀ x h, held k x = some h → h ∈ k.live
  own : ∀ x y h, held k x = some h → held k y = some h → x = y
  ends : ∀ x h p, held k x = some h → (k.files h).pipe = some p →
    ((k.files h).pipeEnd = 0 ∨ (k.files h).pipeEnd = 1) ∧ (k.files h).path = ""

/-- The counters of a pipe in use are the descriptors open on its ends, and no descriptor is open on
    another. -/
structure Exact (k : Kernel) : Prop extends Owned k where
  readers : ∀ p, (k.pipes p).inUse = true → (k.pipes p).readers = readEnds k p
  writers : ∀ p, (k.pipes p).inUse = true → (k.pipes p).writers = writeEnds k p
  free : ∀ p, (k.pipes p).inUse = false → ∀ x e, openEnd k x ≠ some (p, e)

/-- A new object in an empty slot. -/
def install (t : Tid) (fd : Fd) (h : Handle) (file : VfsFile) (k : Kernel) : Kernel :=
  { (k.setFd t fd (some h)).setFile h file with live := insert h k.live }

/-- A slot emptied and its object freed. -/
def release (t : Tid) (fd : Fd) (h : Handle) (freed : VfsFile) (k : Kernel) : Kernel :=
  { (k.setFd t fd none).setFile h freed with live := k.live.erase h }

variable {k k' : Kernel} {t : Tid} {fd : Fd} {h : Handle} {file : VfsFile}

theorem held_some {x : Tid × Fd} : held k x = some h ↔
    (k.tasks x.1).Live ∧ (k.tasks x.1).fds x.2 = some h := by
  unfold held
  split <;> simp [*]

theorem openEnd_some {x : Tid × Fd} {b : PipeId × Int} : openEnd k x = some b ↔
    ∃ h, held k x = some h ∧ (k.files h).end = some b := by
  simp [openEnd, Option.bind_eq_some_iff]

theorem VfsFile.end_some {p : PipeId} {e : Int} : file.end = some (p, e) ↔
    file.pipe = some p ∧ file.pipeEnd = e := by
  simp [VfsFile.end]

theorem setFd_live (u : Tid) (v : Option Handle) :
    ((k.setFd t fd v).tasks u).Live ↔ (k.tasks u).Live := by
  by_cases hu : u = t
  · subst hu
    simp [setFd, Process.Live]
  · simp [setFd, onTask_tasks_ne hu]

/-- A store to one slot of a live task. -/
theorem held_setFd (hl : (k.tasks t).Live) (v : Option Handle) :
    held (k.setFd t fd v) = Function.update (held k) (t, fd) v := by
  funext x
  obtain ⟨u, g⟩ := x
  by_cases hu : u = t
  · subst hu
    by_cases hg : g = fd
    · subst hg
      have : ((k.setFd u g v).tasks u).Live := (setFd_live u v).mpr hl
      rw [Function.update_self, held, if_pos this]
      simp [setFd]
    · rw [Function.update_of_ne (by simp [hg]), held, held, if_pos hl,
        if_pos ((setFd_live u v).mpr hl)]
      simp [setFd, Function.update_of_ne hg]
  · rw [Function.update_of_ne (by simp [hu])]
    have : (k.setFd t fd v).tasks u = k.tasks u := onTask_tasks_ne hu ..
    simp only [held, this]

/-- Who holds what depends on the task table alone. -/
theorem held_congr (h : k'.tasks = k.tasks) : held k' = held k := by
  funext x
  rw [held, held, h]

/-- With the slots and the held objects as before, so are the ends. -/
theorem openEnd_congr (hh : held k' = held k)
    (hf : ∀ x h, held k x = some h → k'.files h = k.files h) : openEnd k' = openEnd k := by
  funext x
  rw [openEnd, openEnd, hh]
  cases hx : held k x with
  | none => rfl
  | some h => simp [hf x h hx]

theorem Owned.congr (o : Owned k) (hh : held k' = held k) (hl : k.live ⊆ k'.live)
    (hf : ∀ x h, held k x = some h → k'.files h = k.files h) : Owned k' where
  live x h hx := hl (o.live x h (hh ▸ hx))
  own x y h hx hy := o.own x y h (hh ▸ hx) (hh ▸ hy)
  ends x h p hx hp := by
    rw [hh] at hx
    rw [hf x h hx] at hp ⊢
    exact o.ends x h p hx hp

theorem Exact.congr (e : Exact k) (hh : held k' = held k) (hl : k.live ⊆ k'.live)
    (hf : ∀ x h, held k x = some h → k'.files h = k.files h)
    (hp : ∀ p, (k'.pipes p).readers = (k.pipes p).readers ∧
      (k'.pipes p).writers = (k.pipes p).writers ∧ (k'.pipes p).inUse = (k.pipes p).inUse) :
    Exact k' where
  toOwned := e.toOwned.congr hh hl hf
  readers p hu := by
    rw [(hp p).2.2] at hu
    rw [(hp p).1, e.readers p hu, readEnds, readEnds, openEnd_congr hh hf]
  writers p hu := by
    rw [(hp p).2.2] at hu
    rw [(hp p).2.1, e.writers p hu, writeEnds, writeEnds, openEnd_congr hh hf]
  free p hu x b := by
    rw [(hp p).2.2] at hu
    rw [openEnd_congr hh hf]
    exact e.free p hu x b

/-- A pipe that no descriptor is counted on has none: there are only the two ends. -/
theorem Owned.no_end (o : Owned k) {p : PipeId} (hr : readEnds k p = 0) (hw : writeEnds k p = 0)
    (x : Tid × Fd) (b : Int) : openEnd k x ≠ some (p, b) := by
  intro hb
  obtain ⟨g, hg, hend⟩ := openEnd_some.mp hb
  rw [VfsFile.end_some] at hend
  rcases (o.ends x g p hg hend.1).1 with h0 | h1
  · rw [← hend.2, h0] at hb
    exact count_eq_zero.mp hr x hb
  · rw [← hend.2, h1] at hb
    exact count_eq_zero.mp hw x hb

/-! ### A new object -/

theorem held_install (hl : (k.tasks t).Live) :
    held (install t fd h file k) = Function.update (held k) (t, fd) (some h) := by
  rw [← held_setFd hl]
  exact held_congr rfl

theorem Owned.install_files (o : Owned k) (hh : h ∉ k.live) {x : Tid × Fd} {h' : Handle}
    (hx : held k x = some h') : (install t fd h file k).files h' = k.files h' := by
  have : h' ≠ h := fun heq => hh (heq ▸ o.live x h' hx)
  exact Function.update_of_ne this ..

theorem Owned.openEnd_install (o : Owned k) (hl : (k.tasks t).Live) (hh : h ∉ k.live) :
    openEnd (Proc.install t fd h file k) = Function.update (openEnd k) (t, fd) file.end := by
  funext x
  rw [openEnd, held_install hl]
  by_cases hx : x = (t, fd)
  · subst hx
    simp [install, setFile]
  · rw [Function.update_of_ne hx, Function.update_of_ne hx, openEnd]
    cases hx : held k x with
    | none => rfl
    | some h' => simp [o.install_files hh hx]

theorem Owned.install (o : Owned k) (hl : (k.tasks t).Live) (hh : h ∉ k.live)
    (hfile : ∀ p, file.pipe = some p →
      (file.pipeEnd = 0 ∨ file.pipeEnd = 1) ∧ file.path = "") :
    Owned (Proc.install t fd h file k) := by
  have hself : (Proc.install t fd h file k).files h = file := Function.update_self ..
  have hheld : held (Proc.install t fd h file k) = Function.update (held k) (t, fd) (some h) :=
    held_install hl
  -- a slot holds the new object or what it held
  have hcases : ∀ x g, held (Proc.install t fd h file k) x = some g →
      (x = (t, fd) ∧ g = h) ∨ (x ≠ (t, fd) ∧ held k x = some g) := by
    intro x g hx
    rw [hheld] at hx
    by_cases hxt : x = (t, fd)
    · subst hxt
      rw [Function.update_self, Option.some.injEq] at hx
      exact Or.inl ⟨rfl, hx.symm⟩
    · rw [Function.update_of_ne hxt] at hx
      exact Or.inr ⟨hxt, hx⟩
  refine ⟨fun x g hx => ?_, fun x y g hx hy => ?_, fun x g p hx hp => ?_⟩
  · rcases hcases x g hx with ⟨-, rfl⟩ | ⟨-, hx⟩
    · exact Finset.mem_insert_self ..
    · exact Finset.mem_insert_of_mem (o.live x g hx)
  · rcases hcases x g hx with ⟨rfl, rfl⟩ | ⟨-, hx⟩ <;>
      rcases hcases y _ hy with ⟨rfl, hg⟩ | ⟨-, hy⟩
    · rfl
    · exact absurd (o.live y _ hy) hh
    · exact absurd (o.live x _ (hg ▸ hx)) hh
    · exact o.own x y g hx hy
  · rcases hcases x g hx with ⟨-, rfl⟩ | ⟨-, hx⟩
    · rw [hself] at hp ⊢
      exact hfile p hp
    · rw [o.install_files hh hx] at hp ⊢
      exact o.ends x g p hx hp

/-- What one file adds to the descriptors on an end. -/
abbrev unit (file : VfsFile) (p : PipeId) (e : Int) : Nat := if file.end = some (p, e) then 1 else 0

/-- A new object in an empty slot, with its end counted. -/
theorem Exact.install (e : Exact k) (file : VfsFile) (hl : (k.tasks t).Live) (hn : (k.tasks t).fds fd = none)
    (hh : h ∉ k.live) (hfile : ∀ p, file.pipe = some p →
      ((file.pipeEnd = 0 ∨ file.pipeEnd = 1) ∧ file.path = "") ∧ (k.pipes p).inUse = true)
    (ht : k'.tasks = (k.setFd t fd (some h)).tasks)
    (hf : k'.files = Function.update k.files h file)
    (hv : k'.live = insert h k.live)
    (hp : ∀ p, (k'.pipes p).inUse = (k.pipes p).inUse ∧
      (k'.pipes p).readers = (k.pipes p).readers + unit file p 0 ∧
      (k'.pipes p).writers = (k.pipes p).writers + unit file p 1) : Exact k' := by
  have hheld : held k' = held (Proc.install t fd h file k) := held_congr ht
  have hends : openEnd k' = Function.update (openEnd k) (t, fd) file.end := by
    rw [← e.openEnd_install (h := h) hl hh]
    exact openEnd_congr hheld fun x g _ => by rw [hf]; rfl
  have hnone : openEnd k (t, fd) = none := by simp [openEnd, held, hn]
  refine ⟨?_, fun p hu => ?_, fun p hu => ?_, fun p hu x b => ?_⟩
  · refine (e.toOwned.install hl hh fun p hp => (hfile p hp).1).congr hheld ?_ fun x g _ => by
      rw [hf]; rfl
    rw [hv]
    rfl
  · rw [(hp p).1] at hu
    rw [(hp p).2.1, e.readers p hu, readEnds, readEnds, hends, count_fill hnone]
  · rw [(hp p).1] at hu
    rw [(hp p).2.2, e.writers p hu, writeEnds, writeEnds, hends, count_fill hnone]
  · rw [(hp p).1] at hu
    rw [hends]
    by_cases hx : x = (t, fd)
    · subst hx
      rw [Function.update_self]
      intro hb
      rw [VfsFile.end_some] at hb
      rw [(hfile p hb.1).2] at hu
      exact absurd hu (by simp)
    · rw [Function.update_of_ne hx]
      exact e.free p hu x b

/-! ### A slot emptied -/

theorem held_release (hl : (k.tasks t).Live) :
    held (release t fd h file k) = Function.update (held k) (t, fd) none := by
  rw [← held_setFd hl]
  exact held_congr rfl

/-- The object that a slot holds is no other slot's. -/
theorem Owned.release_files (o : Owned k) (hx : held k (t, fd) = some h) {y : Tid × Fd} {g : Handle}
    (hy : held k y = some g) (hne : y ≠ (t, fd)) : g ≠ h :=
  fun hg => hne (o.own y (t, fd) h (hg ▸ hy) hx)

theorem Owned.openEnd_release (o : Owned k) (hx : held k (t, fd) = some h) :
    openEnd (release t fd h file k) = Function.update (openEnd k) (t, fd) none := by
  funext y
  rw [openEnd, held_release (held_some.mp hx).1]
  by_cases hy : y = (t, fd)
  · subst hy
    simp
  · rw [Function.update_of_ne hy, Function.update_of_ne hy, openEnd]
    cases hg : held k y with
    | none => rfl
    | some g =>
      have : (Proc.release t fd h file k).files g = k.files g :=
        Function.update_of_ne (o.release_files hx hg hy) ..
      rw [Option.bind_some, Option.bind_some, this]

theorem Owned.release (o : Owned k) (hx : held k (t, fd) = some h) :
    Owned (release t fd h file k) := by
  have hheld : held (Proc.release t fd h file k) = Function.update (held k) (t, fd) none :=
    held_release (held_some.mp hx).1
  have hcases : ∀ y g, held (Proc.release t fd h file k) y = some g →
      y ≠ (t, fd) ∧ held k y = some g := by
    intro y g hy
    rw [hheld] at hy
    by_cases hyt : y = (t, fd)
    · subst hyt
      simp at hy
    · rw [Function.update_of_ne hyt] at hy
      exact ⟨hyt, hy⟩
  refine ⟨fun y g hy => ?_, fun y z g hy hz => ?_, fun y g p hy hp => ?_⟩
  · obtain ⟨hne, hy⟩ := hcases y g hy
    exact Finset.mem_erase.mpr ⟨o.release_files hx hy hne, o.live y g hy⟩
  · exact o.own y z g (hcases y g hy).2 (hcases z g hz).2
  · obtain ⟨hne, hy⟩ := hcases y g hy
    have hfiles : (Proc.release t fd h file k).files g = k.files g :=
      Function.update_of_ne (o.release_files hx hy hne) ..
    rw [hfiles] at hp ⊢
    exact o.ends y g p hy hp

/-- A slot emptied, with the end it held taken off the counters; a pipe freed with it has no counted
    end left. -/
theorem Exact.release (e : Exact k) (freed : VfsFile) (hx : held k (t, fd) = some h)
    (ht : k'.tasks = (k.setFd t fd none).tasks)
    (hf : k'.files = Function.update k.files h freed) (hv : k'.live = k.live.erase h)
    (hu : ∀ p, (k'.pipes p).inUse = true → (k.pipes p).inUse = true)
    (hp : ∀ p, (k.pipes p).inUse = true →
      (k.pipes p).readers = (k'.pipes p).readers + unit (k.files h) p 0 ∧
      (k.pipes p).writers = (k'.pipes p).writers + unit (k.files h) p 1)
    (hz : ∀ p, (k.pipes p).inUse = true → (k'.pipes p).inUse = false →
      (k'.pipes p).readers = 0 ∧ (k'.pipes p).writers = 0) : Exact k' := by
  have hheld : held k' = held (Proc.release t fd h freed k) := held_congr ht
  have hends : openEnd k' = Function.update (openEnd k) (t, fd) none :=
    (openEnd_congr hheld fun x g _ => by rw [hf]; rfl).trans (e.openEnd_release hx)
  have hend : openEnd k (t, fd) = (k.files h).end := by rw [openEnd, hx, Option.bind_some]
  have howned : Owned k' := by
    refine (e.toOwned.release hx).congr hheld ?_ fun x g _ => by rw [hf]; rfl
    rw [hv]
    rfl
  have hread : ∀ p, (k.pipes p).inUse = true → (k'.pipes p).readers = readEnds k' p := by
    intro p hin
    have h1 := e.readers p hin
    have h2 := (hp p hin).1
    rw [readEnds, count_clear (openEnd k) (t, fd), ← hends, hend] at h1
    exact Nat.add_right_cancel (h2.symm.trans h1)
  have hwrite : ∀ p, (k.pipes p).inUse = true → (k'.pipes p).writers = writeEnds k' p := by
    intro p hin
    have h1 := e.writers p hin
    have h2 := (hp p hin).2
    rw [writeEnds, count_clear (openEnd k) (t, fd), ← hends, hend] at h1
    exact Nat.add_right_cancel (h2.symm.trans h1)
  refine ⟨howned, fun p hin => hread p (hu p hin), fun p hin => hwrite p (hu p hin),
    fun p hout x b hb => ?_⟩
  cases hin : (k.pipes p).inUse with
  | false =>
    rw [hends] at hb
    by_cases hxt : x = (t, fd)
    · subst hxt
      simp at hb
    · rw [Function.update_of_ne hxt] at hb
      exact e.free p hin x b hb
  | true =>
    obtain ⟨hr, hw⟩ := hz p hin hout
    exact howned.no_end ((hread p hin).symm.trans hr) ((hwrite p hin).symm.trans hw) x b hb

/-! ### Slots that change hands otherwise -/

/-- A change of a slot that is not seen by who holds what. -/
theorem held_onTask {f : Process → Process} (hl : (f (k.tasks t)).Live ↔ (k.tasks t).Live)
    (hf : (k.tasks t).Live → (f (k.tasks t)).fds = (k.tasks t).fds) :
    held (k.onTask t f) = held k := by
  funext x
  by_cases hx : x.1 = t
  · by_cases hlive : (k.tasks t).Live
    · rw [held, held, hx, onTask_tasks_self, if_pos hlive, if_pos (hl.mpr hlive), hf hlive]
    · rw [held, held, hx, onTask_tasks_self, if_neg hlive, if_neg (fun h => hlive (hl.mp h))]
  · rw [held, held, onTask_tasks_ne hx]

/-- Descriptors that are no pipe ends can be forgotten without a count to take off. -/
theorem Exact.forget (e : Exact k)
    (hh : ∀ x, held k' x = held k x ∨ (held k' x = none ∧ openEnd k x = none))
    (hf : k'.files = k.files) (hv : k'.live = k.live) (hp : k'.pipes = k.pipes) : Exact k' := by
  have hends : openEnd k' = openEnd k := by
    funext x
    rcases hh x with hx | ⟨hx, hn⟩
    · rw [openEnd, openEnd, hx, hf]
    · rw [hn, openEnd, hx, Option.bind_none]
  have hsub : ∀ x g, held k' x = some g → held k x = some g := by
    intro x g hx
    rcases hh x with h | ⟨h, -⟩
    · rwa [← h]
    · simp [h] at hx
  refine ⟨⟨fun x g hx => ?_, fun x y g hx hy => ?_, fun x g p hx hg => ?_⟩, ?_, ?_, ?_⟩
  · exact hv ▸ e.live x g (hsub x g hx)
  · exact e.own x y g (hsub x g hx) (hsub y g hy)
  · rw [hf] at hg ⊢
    exact e.ends x g p (hsub x g hx) hg
  · rw [hp]
    simpa [readEnds, hends] using e.readers
  · rw [hp]
    simpa [writeEnds, hends] using e.writers
  · rw [hp, hends]
    exact e.free

end TypeOS.Proc
