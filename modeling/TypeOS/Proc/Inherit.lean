import TypeOS.Proc.PipeEnds
import TypeOS.Proc.Backed

/-! What a new task and a new program start with.

    `proc_fork` gives the child a copy of every descriptor, each in an object of its own, and counts the
    pipe ends among them; nobody else's slot or file changes. `proc_exec` keeps the descriptors 0, 1 and 2
    and gives the objects of the others back. Both are loops over the table of the current task, so each is
    one lemma about a turn and one about the slots that are done. -/

namespace TypeOS.Proc

open Kernel

variable {k k' : Kernel} {ans : Answers} {t parent child : Tid} {fd g : Fd} {h src dst : Handle} {p : PipeId}

/-- What the descriptors of a task stand for. -/
def table (k : Kernel) (t : Tid) (g : Fd) : Option VfsFile := ((k.tasks t).fds g).map k.files

/-- How many descriptors of a table are open on an end of a pipe. -/
def endsIn (f : Fd → Option VfsFile) (p : PipeId) (e : Int) : Nat :=
  count (fun g => (f g).bind VfsFile.end) (p, e)

/-- The ends that the descriptors `l` of a table are open on, one after the other. -/
def endsAlong (f : Fd → Option VfsFile) (l : List Fd) (p : PipeId) (e : Int) : Nat :=
  (l.map fun g => if (f g).bind VfsFile.end = some (p, e) then 1 else 0).sum

theorem endsAlong_all (f : Fd → Option VfsFile) (p : PipeId) (e : Int) :
    endsAlong f (List.finRange procMaxFd) p e = endsIn f p e := by
  rw [endsAlong, endsIn, count, Finset.card_filter, Fin.sum_univ_def]

/-! ### The descriptors of a child -/

/-- The descriptors `l` of the parent are copied to the child, and nothing else changes. -/
structure Inherits (parent child : Tid) (l : List Fd) (k k' : Kernel) : Prop where
  tasks : ∀ t, t ≠ child → k'.tasks t = k.tasks t
  slot : k'.tasks child = { k.tasks child with fds := (k'.tasks child).fds }
  kept : ∀ g, g ∉ l → (k'.tasks child).fds g = (k.tasks child).fds g
  copied : ∀ g ∈ l, table k' child g = table k parent g
  fresh : ∀ g ∈ l, ∀ h, (k'.tasks child).fds g = some h → h ∉ k.live ∧ h ∈ k'.live
  live : k.live ⊆ k'.live
  files : ∀ h ∈ k.live, k'.files h = k.files h
  rest : k'.nextPid = k.nextPid ∧ k'.currentTask = k.currentTask
  pipes : ∀ p, k'.pipes p = { k.pipes p with
    readers := (k.pipes p).readers + endsAlong (table k parent) l p 0
    writers := (k.pipes p).writers + endsAlong (table k parent) l p 1 }

theorem Inherits.nil : Inherits parent child [] k k :=
  ⟨fun _ _ => rfl, rfl, fun _ _ => rfl, nofun, nofun, subset_rfl, fun _ _ => rfl, ⟨rfl, rfl⟩, fun _ => rfl⟩

/-- A copy counts its end, and stores nothing else in a pipe. -/
theorem copyFile_pipes (src dst : Handle) (k : Kernel) (p : PipeId) :
    (copyFile src dst k).pipes p = { k.pipes p with
      readers := (k.pipes p).readers + unit (k.files src) p 0
      writers := (k.pipes p).writers + unit (k.files src) p 1 } := by
  rw [copyFile, countEnd]
  cases hp : (k.files src).pipe with
  | none => simp [unit, VfsFile.end, hp, setFile]
  | some q =>
    have hunit : ∀ e, unit (k.files src) p e = if q = p ∧ (k.files src).pipeEnd = e then 1 else 0 := by
      intro e
      simp [unit, VfsFile.end, hp]
    rw [hunit, hunit]
    dsimp only
    rcases eq_or_ne p q with rfl | hne
    · split_ifs <;> simp_all [setFile]
    · have hno : ∀ e, (if q = p ∧ (k.files src).pipeEnd = e then 1 else 0) = 0 := fun e =>
        if_neg fun hc => hne hc.1.symm
      rw [hno, hno]
      split_ifs <;> simp [setFile, onPipe_pipes_ne hne]

theorem copyFile_rest_statics (src dst : Handle) (k : Kernel) :
    (copyFile src dst k).nextPid = k.nextPid ∧ (copyFile src dst k).currentTask = k.currentTask := by
  obtain ⟨pipes, heq, -⟩ := countEnd_eq (k.files src) (k.setFile dst (k.files src))
  rw [copyFile, heq]
  exact ⟨rfl, rfl⟩

/-- One turn at a descriptor that is open. -/
theorem Inherits.one (hsrc : (k.tasks parent).fds fd = some src)
    (hlive : src ∈ k.live) (hdst : dst ∉ k.live) : Inherits parent child [fd] k
      (copyFile src dst ({ k with live := insert dst k.live }.setFd child fd (some dst))) := by
  have hsd : src ≠ dst := fun hc => hdst (hc ▸ hlive)
  generalize hk₁ : ({ k with live := insert dst k.live }.setFd child fd (some dst)) = k₁
  have hfiles₁ : k₁.files = k.files := by rw [← hk₁]; rfl
  have hpipes₁ : k₁.pipes = k.pipes := by rw [← hk₁]; rfl
  have hself : k₁.tasks child = { k.tasks child with fds := Function.update (k.tasks child).fds fd (some dst) } := by
    rw [← hk₁, setFd, onTask_tasks_self]
  obtain ⟨htasks, hlv, hfiles⟩ := copyFile_rest src dst k₁
  obtain ⟨hpid, hcur⟩ := copyFile_rest_statics src dst k₁
  have hfds : ((copyFile src dst k₁).tasks child).fds = Function.update (k.tasks child).fds fd (some dst) := by
    rw [htasks, hself]
  refine ⟨fun t ht => ?_, ?_, fun g hg => ?_, fun g hg => ?_, fun g hg h hh => ?_, ?_, fun h hh => ?_, ?_,
    fun p => ?_⟩
  · rw [htasks, ← hk₁, setFd, onTask_tasks_ne ht]
  · rw [hfds, htasks, hself]
  · have hgf : g ≠ fd := fun hc => hg (List.mem_singleton.mpr hc)
    rw [hfds, Function.update_of_ne hgf]
  · rw [List.mem_singleton.mp hg, table, table, hfds, hsrc, Function.update_self, Option.map_some,
      Option.map_some, hfiles, Function.update_self, hfiles₁]
  · rw [List.mem_singleton.mp hg, hfds, Function.update_self] at hh
    cases hh
    rw [hlv, ← hk₁]
    exact ⟨hdst, Finset.mem_insert_self ..⟩
  · rw [hlv, ← hk₁]
    exact Finset.subset_insert ..
  · have hhd : h ≠ dst := fun hc => hdst (hc ▸ hh)
    rw [hfiles, Function.update_of_ne hhd, hfiles₁]
  · rw [hpid, hcur, ← hk₁]
    exact ⟨rfl, rfl⟩
  · rw [copyFile_pipes, hfiles₁, hpipes₁]
    simp [endsAlong, table, hsrc, unit]

/-- The slots that are done, and those that are left. -/
theorem Inherits.append {l l' : List Fd} {k₁ : Kernel} (hne : child ≠ parent)
    (hlive : ∀ g h, (k.tasks parent).fds g = some h → h ∈ k.live) (hdis : ∀ g ∈ l, g ∉ l')
    (i : Inherits parent child l k k₁) (i' : Inherits parent child l' k₁ k') :
    Inherits parent child (l ++ l') k k' := by
  have htable : table k₁ parent = table k parent := by
    funext g
    rw [table, table, i.tasks parent hne.symm]
    cases hg : (k.tasks parent).fds g with
    | none => rfl
    | some h => rw [Option.map_some, Option.map_some, i.files h (hlive g h hg)]
  refine ⟨fun t ht => (i'.tasks t ht).trans (i.tasks t ht), ?_, fun g hg => ?_, fun g hg => ?_,
    fun g hg h hh => ?_, i.live.trans i'.live, fun h hh => ?_, ?_, fun p => ?_⟩
  · rw [i'.slot, i.slot]
  · rw [List.mem_append, not_or] at hg
    rw [i'.kept g hg.2, i.kept g hg.1]
  · rcases List.mem_append.mp hg with hg | hg
    · rw [← i.copied g hg, table, table, i'.kept g (hdis g hg)]
      cases hc : (k₁.tasks child).fds g with
      | none => rfl
      | some h => rw [Option.map_some, Option.map_some, i'.files h (i.fresh g hg h hc).2]
    · rw [i'.copied g hg, htable]
  · rcases List.mem_append.mp hg with hg | hg
    · rw [i'.kept g (hdis g hg)] at hh
      exact ⟨(i.fresh g hg h hh).1, i'.live (i.fresh g hg h hh).2⟩
    · exact ⟨fun hc => (i'.fresh g hg h hh).1 (i.live hc), (i'.fresh g hg h hh).2⟩
  · rw [i'.files h (i.live hh), i.files h hh]
  · exact ⟨i'.rest.1.trans i.rest.1, i'.rest.2.trans i.rest.2⟩
  · rw [i'.pipes, i.pipes, htable]
    simp only [endsAlong, List.map_append, List.sum_append, Nat.add_assoc]

/-- One turn at a descriptor that is not open. -/
theorem Inherits.skip (hempty : (k.tasks child).fds fd = none) (hnone : (k.tasks parent).fds fd = none) :
    Inherits parent child [fd] k k := by
  refine ⟨fun _ _ => rfl, rfl, fun _ _ => rfl, fun g hg => ?_, fun g hg h hh => ?_, subset_rfl,
    fun _ _ => rfl, ⟨rfl, rfl⟩, fun p => ?_⟩
  · rw [List.mem_singleton.mp hg, table, table, hempty, hnone]
  · rw [List.mem_singleton.mp hg, hempty] at hh
    cases hh
  · simp [endsAlong, table, hnone]

/-- A turn of the loop of `proc_fork` that is not refused. -/
theorem Inherits.turn (ans : Answers) (hempty : (k.tasks child).fds fd = none)
    (hlive : ∀ g h, (k.tasks parent).fds g = some h → h ∈ k.live)
    (hok : forkFd ans parent child fd k = (true, k')) : Inherits parent child [fd] k k' := by
  rw [forkFd] at hok
  cases hsrc : (k.tasks parent).fds fd with
  | none =>
    rw [hsrc] at hok
    cases hok
    exact .skip hempty hsrc
  | some src =>
    rw [hsrc] at hok
    dsimp only at hok
    rcases kmalloc_cases (ans.kmalloc (fd.val + 1)) k with hm | ⟨dst, -, hdst, hm⟩ <;> rw [hm] at hok
    · cases hok
    · cases hok
      exact .one hsrc (hlive fd src hsrc) hdst

/-- The loop of `proc_fork`, when no request is refused. -/
theorem Inherits.loop (ans : Answers) (hne : child ≠ parent) : ∀ {l : List Fd} {k k' : Kernel}, l.Nodup →
    (∀ g ∈ l, (k.tasks child).fds g = none) →
    (∀ g h, (k.tasks parent).fds g = some h → h ∈ k.live) →
    forEach (forkFd ans parent child) l k = (true, k') → Inherits parent child l k k'
  | [], k, k', _, _, _, hok => by
    cases hok
    exact .nil
  | fd :: l, k, k', hnd, hempty, hlive, hok => by
    obtain ⟨hfd, hnd⟩ := List.nodup_cons.mp hnd
    rw [forEach] at hok
    rcases hf : forkFd ans parent child fd k with ⟨_ | _, k₁⟩ <;> rw [hf] at hok
    · cases hok
    · have hturn := Inherits.turn ans (hempty fd (List.mem_cons_self ..)) hlive hf
      have hrest : Inherits parent child l k₁ k' := by
        refine loop ans hne hnd (fun g hg => ?_) (fun g h hh => ?_) hok
        · have hgf : g ∉ [fd] := fun hc => hfd (List.mem_singleton.mp hc ▸ hg)
          rw [hturn.kept g hgf, hempty g (List.mem_cons_of_mem _ hg)]
        · rw [hturn.tasks parent hne.symm] at hh
          exact hturn.live (hlive g h hh)
      refine hturn.append hne hlive (fun g hg => ?_) hrest
      rw [List.mem_singleton.mp hg]
      exact hfd

/-! ### fork -/

/-- Existing tasks, their descriptors and all allocations are as they were. -/
structure Untouched (k k' : Kernel) : Prop where
  tasks : ∀ t, (k.tasks t).state ≠ .unused → k'.tasks t = k.tasks t
  unused : ∀ t, (k.tasks t).state = .unused → (k'.tasks t).state = .unused
  files : ∀ h ∈ k.live, k'.files h = k.files h
  live : k.live ⊆ k'.live

/-- The slot that `proc_alloc_task` hands out. -/
def newTask (k : Kernel) (stack : Handle) : Process :=
  { Process.zero with
    pid := k.nextPid, state := .runnable, cr3 := k.pml4, kernelStack := some stack }

/-- A slot and a kernel stack are taken. -/
def slotTaken (k : Kernel) (c : Tid) (stack : Handle) : Kernel :=
  { k with
    tasks := Function.update k.tasks c (newTask k stack)
    nextPid := k.nextPid + 1, live := insert stack k.live }

theorem slotTaken_self (k : Kernel) (c : Tid) (stack : Handle) :
    (slotTaken k c stack).tasks c = newTask k stack := Function.update_self ..

theorem slotTaken_ne {c : Tid} (hne : t ≠ c) (k : Kernel) (stack : Handle) :
    (slotTaken k c stack).tasks t = k.tasks t := Function.update_of_ne hne ..

/-- `proc_alloc_task` takes an unused slot and a kernel stack, or leaves the slot unused. -/
theorem procAllocTask_slot (answer : Option Handle) (k : Kernel) :
    (∃ k', procAllocTask answer k = (none, k') ∧ Untouched k k') ∨
    ∃ c stack, (k.tasks c).state = .unused ∧ stack ∉ k.live ∧
      procAllocTask answer k = (some c, slotTaken k c stack) := by
  unfold procAllocTask
  split
  · exact .inl ⟨k, rfl, fun _ _ => rfl, fun _ hu => hu, fun _ _ => rfl, subset_rfl⟩
  · next c hc =>
    have hu : (k.tasks c).state = .unused := by simpa using firstSlot_some hc
    dsimp only
    rcases kmalloc_cases answer { k.onTask c fun _ =>
      { Process.zero with pid := k.nextPid, state := .runnable, cr3 := k.pml4 } with
        nextPid := k.nextPid + 1 } with hm | ⟨stack, -, hs, hm⟩ <;> rw [hm]
    · refine .inl ⟨_, rfl, fun t ht => ?_, fun t ht => ?_, fun _ _ => rfl, subset_rfl⟩
      · have hne : t ≠ c := fun hc => ht (hc ▸ hu)
        simp [setState, onTask, Function.update_of_ne hne]
      · rcases eq_or_ne t c with rfl | hne
        · simp [setState]
        · simpa [setState, onTask, Function.update_of_ne hne] using ht
    · refine .inr ⟨c, stack, hu, hs, ?_⟩
      simp [onTask, newTask, slotTaken]

/-- All but the slot of the child is as it was. -/
structure Aside (c : Tid) (k k' : Kernel) : Prop where
  tasks : ∀ t, t ≠ c → k'.tasks t = k.tasks t
  files : ∀ h ∈ k.live, k'.files h = k.files h
  live : k.live ⊆ k'.live

/-- A child that is given up leaves no task behind. -/
theorem Aside.untouched {c : Tid} (a : Aside c k k') (hu : (k.tasks c).state = .unused) :
    Untouched k (k'.setState c .unused) := by
  refine ⟨fun t ht => ?_, fun t ht => ?_, a.files, a.live⟩
  · have hne : t ≠ c := fun hc => ht (hc ▸ hu)
    rw [setState, onTask_tasks_ne hne, a.tasks t hne]
  · rcases eq_or_ne t c with rfl | hne
    · simp [setState]
    · rw [setState, onTask_tasks_ne hne, a.tasks t hne, ht]

/-- A turn of the loop, refused or not. -/
theorem Aside.turn (ans : Answers) (parent : Tid) (fd : Fd) {k₀ : Kernel} (a : Aside child k₀ k) :
    Aside child k₀ (forkFd ans parent child fd k).2 := by
  rw [forkFd]
  cases hsrc : (k.tasks parent).fds fd with
  | none => exact a
  | some src =>
    rcases kmalloc_cases (ans.kmalloc (fd.val + 1)) k with hm | ⟨dst, -, hdst, hm⟩ <;> rw [hm]
    · exact a
    · obtain ⟨htasks, hlv, hfiles⟩ := copyFile_rest src dst
        ({ k with live := insert dst k.live }.setFd child fd (some dst))
      refine ⟨fun t ht => ?_, fun h hh => ?_, ?_⟩ <;> dsimp only
      · rw [htasks, setFd, onTask_tasks_ne ht]
        exact a.tasks t ht
      · have hhd : h ≠ dst := fun hc => hdst (hc ▸ a.live hh)
        rw [hfiles, Function.update_of_ne hhd]
        exact a.files h hh
      · rw [hlv]
        exact a.live.trans (Finset.subset_insert ..)

/-- The child's slot is a copy of the parent's where `proc_fork` copies, its descriptors stand for what the
    parent's stand for, each in a new object, and the pipes count them. -/
structure Forked (ans : Answers) (k k' : Kernel) (c : Tid) (stack : Handle) : Prop where
  unused : (k.tasks c).state = .unused
  slot : k'.tasks c = { forkSlot k.currentTask (k.tasks k.currentTask) (newTask k stack) ans.cloneCr3 with
    fds := (k'.tasks c).fds }
  others : ∀ t, t ≠ c → k'.tasks t = k.tasks t
  copied : ∀ g, table k' c g = table k k.currentTask g
  fresh : stack ∉ k.live ∧ ∀ g h, (k'.tasks c).fds g = some h → h ∉ k.live ∧ h ≠ stack ∧ h ∈ k'.live
  live : k.live ⊆ k'.live
  files : ∀ h ∈ k.live, k'.files h = k.files h
  pipes : ∀ p, k'.pipes p = { k.pipes p with
    readers := (k.pipes p).readers + endsIn (table k k.currentTask) p 0
    writers := (k.pipes p).writers + endsIn (table k k.currentTask) p 1 }
  nextPid : k'.nextPid = k.nextPid + 1

/-- `proc_fork`, from a table whose objects are allocated. -/
theorem procFork_spec (ans : Answers) (hl : (k.tasks k.currentTask).Live)
    (hlive : ∀ g h, k.fds g = some h → h ∈ k.live) :
    ((procFork ans k).1 = -1 ∧ Untouched k (procFork ans k).2) ∨
    ∃ c stack, (procFork ans k).1 = k.nextPid ∧ Forked ans k (procFork ans k).2 c stack := by
  unfold procFork
  dsimp only
  rcases procAllocTask_slot (ans.kmalloc 0) k with ⟨k', heq, hk⟩ | ⟨c, stack, hu, hs, heq⟩ <;> rw [heq]
  · exact .inl ⟨rfl, hk⟩
  have hne : c ≠ k.currentTask := by
    rintro rfl
    exact hl.1 hu
  have haside : ∀ f : Process → Process, Aside c k ((slotTaken k c stack).onTask c f) := fun f =>
    ⟨fun t ht => by rw [onTask_tasks_ne ht, slotTaken_ne ht], fun _ _ => rfl, Finset.subset_insert ..⟩
  dsimp only
  split
  · refine .inl ⟨rfl, Aside.untouched ⟨fun t ht => slotTaken_ne ht .., fun _ _ => rfl, ?_⟩ hu⟩
    exact Finset.subset_insert ..
  rw [slotTaken_ne hne.symm]
  generalize hk₂ : onTask c _ _ = k₂
  have hself : k₂.tasks c =
      forkSlot k.currentTask (k.tasks k.currentTask) (newTask k stack) ans.cloneCr3 := by
    rw [← hk₂, onTask_tasks_self, slotTaken_self]
  have hparent : k₂.tasks k.currentTask = k.tasks k.currentTask := by
    rw [← hk₂, onTask_tasks_ne hne.symm, slotTaken_ne hne.symm]
  have hlv : k₂.live = insert stack k.live := by rw [← hk₂]; rfl
  have hfiles : k₂.files = k.files := by rw [← hk₂]; rfl
  have hpipes : k₂.pipes = k.pipes := by rw [← hk₂]; rfl
  have hpid : k₂.nextPid = k.nextPid + 1 := by rw [← hk₂]; rfl
  have hempty : (k₂.tasks c).fds = fun _ => none := by rw [hself]; rfl
  have htable : table k₂ k.currentTask = table k k.currentTask := by
    funext g
    rw [table, table, hparent, hfiles]
  have ha₂ : Aside c k k₂ := hk₂ ▸ haside _
  rcases hloop : forEach (forkFd ans k.currentTask c) (List.finRange procMaxFd) k₂ with ⟨_ | _, k₃⟩
  · have ha := forEach_inv (l := List.finRange procMaxFd) (I := Aside c k)
      (fun fd _ _ ha => ha.turn ans k.currentTask fd) ha₂
    rw [hloop] at ha
    exact .inl ⟨rfl, ha.untouched hu⟩
  · have i := Inherits.loop ans hne (List.nodup_finRange _) (fun g _ => congrFun hempty g)
      (fun g h hh => by
        rw [hparent] at hh
        rw [hlv]
        exact Finset.mem_insert_of_mem (hlive g h hh)) hloop
    have hslot := i.slot
    rw [hself] at hslot
    have hpidc : (k₃.tasks c).pid = k.nextPid := by rw [hslot]; rfl
    have hself₃ : (k₃.setState c .runnable).tasks c = { k₃.tasks c with state := .runnable } :=
      onTask_tasks_self ..
    refine .inr ⟨c, stack, congrArg Nat.cast hpidc, ?_⟩
    change Forked ans k (k₃.setState c .runnable) c stack
    refine ⟨hu, ?_, fun t ht => ?_, fun g => ?_, ⟨hs, fun g h hh => ?_⟩, ?_, fun h hh => ?_, fun p => ?_, ?_⟩
    · rw [hself₃, hslot]
      rfl
    · rw [setState, onTask_tasks_ne ht, i.tasks t ht, ha₂.tasks t ht]
    · have hcopy := i.copied g (List.mem_finRange g)
      rw [htable] at hcopy
      rw [← hcopy, table, table, hself₃]
      rfl
    · rw [hself₃] at hh
      obtain ⟨hold, hnew⟩ := i.fresh g (List.mem_finRange g) h hh
      rw [hlv, Finset.mem_insert, not_or] at hold
      exact ⟨hold.2, hold.1, hnew⟩
    · exact ha₂.live.trans i.live
    · exact (i.files h (ha₂.live hh)).trans (ha₂.files h hh)
    · have hp := i.pipes p
      rw [endsAlong_all, endsAlong_all, htable, hpipes] at hp
      exact hp
    · exact i.rest.1.trans hpid

/-! ### exec -/

/-- The slots `l` of the current task are empty, and exactly their objects are given back. -/
structure Emptied (l : List Fd) (k k' : Kernel) : Prop where
  tasks : ∀ t, t ≠ k.currentTask → k'.tasks t = k.tasks t
  slot : k'.tasks k.currentTask = { k.tasks k.currentTask with fds := (k'.tasks k.currentTask).fds }
  fds : ∀ g, k'.fds g = if g ∈ l then none else k.fds g
  live : ∀ h, h ∈ k'.live ↔ h ∈ k.live ∧ ∀ g ∈ l, k.fds g ≠ some h
  files : ∀ h, (∀ g ∈ l, k.fds g ≠ some h) → k'.files h = k.files h
  rest : k'.pipes = k.pipes ∧ k'.nextPid = k.nextPid ∧ k'.currentTask = k.currentTask ∧ k'.pml4 = k.pml4

theorem Emptied.nil : Emptied [] k k :=
  ⟨fun _ _ => rfl, rfl, fun _ => by simp, fun _ => by simp, fun _ _ => rfl, ⟨rfl, rfl, rfl, rfl⟩⟩

/-- A slot that is empty needs no turn. -/
theorem Emptied.skip {l : List Fd} (hnone : k.fds fd = none) (e : Emptied l k k') :
    Emptied (fd :: l) k k' := by
  have hno : ∀ h, k.fds fd ≠ some h := fun h => by simp [hnone]
  refine ⟨e.tasks, e.slot, fun g => ?_, fun h => ?_, fun h hh => ?_, e.rest⟩
  · rw [e.fds]
    rcases eq_or_ne g fd with rfl | hne
    · simp [hnone]
    · simp [hne]
  · rw [e.live, List.forall_mem_cons]
    exact ⟨fun ⟨h1, h2⟩ => ⟨h1, hno h, h2⟩, fun ⟨h1, _, h2⟩ => ⟨h1, h2⟩⟩
  · exact e.files h fun g hg => hh g (List.mem_cons_of_mem _ hg)

theorem release_fds (freed : VfsFile) (fd : Fd) (h : Handle) (k : Kernel) :
    (release k.currentTask fd h freed k).fds = Function.update k.fds fd none := by
  simp [release, setFd, setFile, Kernel.fds]

/-- A turn at a slot that is open, and the turns after it. -/
theorem Emptied.cons {l : List Fd} (freed : VfsFile) (hfd : fd ∉ l) (hopen : k.fds fd = some h)
    (e : Emptied l (release k.currentTask fd h freed k) k') : Emptied (fd :: l) k k' := by
  have hcur : (release k.currentTask fd h freed k).currentTask = k.currentTask := rfl
  have hothers : ∀ g ∈ l, (release k.currentTask fd h freed k).fds g = k.fds g := fun g hg => by
    have hne : g ≠ fd := fun hc => hfd (hc ▸ hg)
    rw [release_fds, Function.update_of_ne hne]
  have hslot := e.slot
  rw [hcur] at hslot
  refine ⟨fun t ht => ?_, ?_, fun g => ?_, fun a => ?_, fun a ha => ?_, e.rest⟩
  · have hsame : (release k.currentTask fd h freed k).tasks t = k.tasks t :=
      Function.update_of_ne ht ..
    rw [e.tasks t ht, hsame]
  · rw [hslot]
    simp [release, setFd, setFile]
  · rw [e.fds, release_fds]
    rcases eq_or_ne g fd with rfl | hne
    · simp
    · simp [hne]
  · rw [e.live, List.forall_mem_cons, hopen]
    have hlive : (release k.currentTask fd h freed k).live = k.live.erase h := rfl
    rw [hlive, Finset.mem_erase]
    constructor
    · rintro ⟨⟨hah, ha⟩, hl⟩
      exact ⟨ha, fun hc => hah (Option.some.inj hc).symm, fun g hg => hothers g hg ▸ hl g hg⟩
    · rintro ⟨ha, hah, hl⟩
      exact ⟨⟨fun hc => hah (hc ▸ rfl), ha⟩, fun g hg => (hothers g hg).symm ▸ hl g hg⟩
  · have hah : a ≠ h := by
      rintro rfl
      exact ha fd (List.mem_cons_self ..) hopen
    rw [e.files a fun g hg => (hothers g hg).symm ▸ ha g (List.mem_cons_of_mem _ hg)]
    exact Function.update_of_ne hah ..

/-- The loop of `proc_fd_close_all`. -/
theorem Emptied.loop (freed : VfsFile) : ∀ {l : List Fd} {k : Kernel}, l.Nodup →
    Emptied l k (l.foldl (closeSlot freed) k)
  | [], _, _ => .nil
  | fd :: l, k, hnd => by
    obtain ⟨hfd, hnd⟩ := List.nodup_cons.mp hnd
    rw [List.foldl_cons]
    cases hopen : k.fds fd with
    | none =>
      have hsame : closeSlot freed k fd = k := by simp [closeSlot, hopen]
      rw [hsame]
      exact (loop freed hnd).skip hopen
    | some h =>
      rw [closeSlot_eq freed hopen]
      exact .cons freed hfd hopen (loop freed hnd)

/-- A slot with the fields that `proc_exec` sets taken from another. -/
def Process.reload (p q : Process) : Process :=
  { p with
    cr3 := q.cr3, brk := q.brk, userRip := q.userRip, userRsp := q.userRsp, userRflags := q.userRflags
    userRax := q.userRax, userRegs := q.userRegs, fsBase := q.fsBase }

/-- A new program keeps the descriptors 0, 1 and 2 and has no other, exactly the objects of the others are
    given back, and the rest of its task's slot is kept but for the fields `proc_exec` sets. -/
structure Replaced (k k' : Kernel) : Prop where
  others : ∀ t, t ≠ k.currentTask → k'.tasks t = k.tasks t
  slot : k'.tasks k.currentTask =
    { (k.tasks k.currentTask).reload (k'.tasks k.currentTask) with fds := k'.fds }
  kept : ∀ g : Fd, g.val < 3 → table k' k.currentTask g = table k k.currentTask g
  closed : ∀ g : Fd, 3 ≤ g.val → k'.fds g = none
  live : ∀ h, h ∈ k'.live ↔ h ∈ k.live ∧ ∀ g : Fd, 3 ≤ g.val → k.fds g ≠ some h
  files : ∀ h, (∀ g : Fd, 3 ≤ g.val → k.fds g ≠ some h) → k'.files h = k.files h
  rest : k'.pipes = k.pipes ∧ k'.nextPid = k.nextPid ∧ k'.currentTask = k.currentTask

/-- The descriptors that `proc_fd_close_all` visits. -/
abbrev aboveStandard : List Fd := (List.finRange procMaxFd).filter fun fd => 3 ≤ fd.val

theorem mem_aboveStandard : g ∈ aboveStandard ↔ 3 ≤ g.val := by
  simp [aboveStandard]

/-- Closing the descriptors is all that `proc_exec` does to tables and objects. -/
theorem Emptied.replaced (hown : ∀ g g' h, k.fds g = some h → k.fds g' = some h → g = g')
    (e : Emptied aboveStandard k k') : Replaced k k' := by
  have hfds : (k'.tasks k.currentTask).fds = k'.fds := by rw [Kernel.fds, e.rest.2.2.1]
  refine ⟨e.tasks, ?_, fun g hg => ?_, fun g hg => ?_, fun h => ?_, fun h hh => ?_,
    ⟨e.rest.1, e.rest.2.1, e.rest.2.2.1⟩⟩
  · rw [e.slot, hfds]
    rfl
  · have hout : g ∉ aboveStandard := fun hc => absurd (mem_aboveStandard.mp hc) (not_le.mpr hg)
    rw [table, hfds, e.fds, if_neg hout, table]
    change (k.fds g).map k'.files = (k.fds g).map k.files
    cases hopen : k.fds g with
    | none => rfl
    | some h =>
      rw [Option.map_some, Option.map_some, e.files h fun g' hg' hc => ?_]
      rw [hown g g' h hopen hc] at hg
      exact absurd (mem_aboveStandard.mp hg') (not_le.mpr hg)
  · rw [e.fds, if_pos (mem_aboveStandard.mpr hg)]
  · rw [e.live]
    simp only [mem_aboveStandard]
  · exact e.files h fun g hg => hh g (mem_aboveStandard.mp hg)

/-- Stores to the fields that a new program gets. -/
theorem Replaced.store (r : Replaced k k') (f : Process → Process) (hf : ∀ p, f p = p.reload (f p)) :
    Replaced k (k'.onTask k'.currentTask f) := by
  have hcur := r.rest.2.2
  have hself : (k'.onTask k'.currentTask f).tasks k.currentTask = f (k'.tasks k.currentTask) := by
    rw [hcur, onTask_tasks_self]
  have hkept : ∀ p, (f p).fds = p.fds := fun p => by rw [hf]; rfl
  have hfds : (k'.onTask k'.currentTask f).fds = k'.fds := by
    rw [Kernel.fds, onTask_currentTask, onTask_tasks_self, hkept]
    rfl
  refine ⟨fun t ht => ?_, ?_, fun g hg => ?_, fun g hg => ?_, r.live, r.files, r.rest⟩
  · rw [onTask_tasks_ne (by rwa [hcur]), r.others t ht]
  · rw [hself, hfds]
    calc f (k'.tasks k.currentTask)
        = (k'.tasks k.currentTask).reload (f (k'.tasks k.currentTask)) := hf _
      _ = ({ (k.tasks k.currentTask).reload (k'.tasks k.currentTask) with
            fds := k'.fds } : Process).reload (f (k'.tasks k.currentTask)) :=
          congrArg (fun p => p.reload (f (k'.tasks k.currentTask))) r.slot
      _ = _ := rfl
  · rw [← r.kept g hg, table, table, hself, hkept, onTask_files]
  · rw [hfds]
    exact r.closed g hg

/-- What the current task starts a program with. -/
structure Starts (k : Kernel) (entry stack : BitVec 64) : Prop where
  userRip : (k.tasks k.currentTask).userRip = entry
  userRsp : (k.tasks k.currentTask).userRsp = stack
  cleared : (k.tasks k.currentTask).userRax = 0 ∧ (∀ i, (k.tasks k.currentTask).userRegs i = 0) ∧
    (k.tasks k.currentTask).fsBase = 0
  brk : (k.tasks k.currentTask).brk = userBrkStart
  cr3 : (k.tasks k.currentTask).cr3 = k.pml4

/-- A `proc_exec` that finds its file has closed the descriptors above 2 and set the break and the base of FS
    before it looks at the program. -/
theorem procExec_after (hown : ∀ g g' h, k.fds g = some h → k.fds g' = some h → g = g') (ans : Answers) :
    ∃ k', Replaced k k' ∧ (k'.tasks k.currentTask).brk = userBrkStart ∧ (k'.tasks k.currentTask).fsBase = 0 ∧
      procExec ans true k = match ans.image with
        | none => (false, k')
        | some (entry, stack) => (true, k'.onTask k'.currentTask fun p => { p with
            userRip := entry, userRsp := stack, userRflags := 0x202, userRax := 0
            userRegs := fun _ => 0, cr3 := k'.pml4 }) := by
  have r₁ : Replaced k (procFdCloseAll ans.freed k) :=
    (Emptied.loop ans.freed ((List.nodup_finRange _).filter _)).replaced hown
  have r₂ : Replaced k (if ans.cloneCr3 = 0 then procFdCloseAll ans.freed k
      else { (procFdCloseAll ans.freed k).onTask (procFdCloseAll ans.freed k).currentTask
        fun p => { p with cr3 := ans.cloneCr3 } with pml4 := ans.cloneCr3 }) := by
    split
    · exact r₁
    · obtain ⟨h1, h2, h3, h4, h5, h6, h7⟩ := r₁.store (fun p => { p with cr3 := ans.cloneCr3 }) fun _ => rfl
      exact ⟨h1, h2, h3, h4, h5, h6, h7⟩
  rw [procExec, if_pos rfl]
  dsimp only
  generalize (if ans.cloneCr3 = 0 then _ else _ : Kernel) = k₂ at r₂ ⊢
  have r₃ := r₂.store (fun p => { p with brk := userBrkStart, fsBase := 0 }) fun _ => rfl
  have hcur := r₂.rest.2.2
  refine ⟨_, r₃, ?_, ?_, ?_⟩
  · rw [← hcur, onTask_tasks_self]
  · rw [← hcur, onTask_tasks_self]
  · rfl

/-- In every run: a `proc_exec` that finds its file, whether it runs the program or fails after that, keeps
    the descriptors 0, 1 and 2 and closes all others; the slot of a program that runs says where it starts,
    with the saved registers cleared. -/
theorem exec_replaces (hr : Reaches Serves k) (hl : (k.tasks k.currentTask).Live) (ans : Answers) :
    Replaced k (procExec ans true k).2 ∧ ∀ entry stack, ans.image = some (entry, stack) →
      (procExec ans true k).1 = true ∧ Starts (procExec ans true k).2 entry stack := by
  have b : Sound False ∅ k := hr.sound fun _ _ _ hm => ⟨hm, False.elim⟩
  obtain ⟨k', r, hbrk, hfs, hexec⟩ := procExec_after (b.fds_injective hl) ans
  have hcur := r.rest.2.2
  rw [hexec]
  rcases himage : ans.image with _ | ⟨entry, stack⟩
  · exact ⟨r, nofun⟩
  · dsimp only
    refine ⟨r.store _ fun _ => rfl, ?_⟩
    rintro entry' stack' ⟨⟩
    rw [← hcur] at hbrk hfs
    exact ⟨rfl, by simp, by simp, by simp [hfs], by simp [hbrk], by simp [onTask]⟩

/-- A program found, loaded and run while the two ends of a pipe are open. -/
theorem exec_replaces_pipeMade :
    let ans : Answers := { roomy 0 with cloneCr3 := 1, image := some (0x400000#64, 0x7ff000#64) }
    let started := procExec ans true pipeMade
    (pipeMade.fds 3).isSome ∧ Replaced pipeMade started.2 ∧ started.2.fds 3 = none ∧ started.1 = true ∧
      Starts started.2 0x400000 0x7ff000 := by
  intro ans started
  obtain ⟨r, hruns⟩ := exec_replaces (pipeMade_reaches Serves fun _ _ _ => trivial) (by decide) ans
  obtain ⟨hok, hstarts⟩ := hruns 0x400000 0x7ff000 rfl
  exact ⟨by decide, r, r.closed 3 (by decide), hok, hstarts⟩

/-- In every run, a `proc_fork` that works makes a child whose descriptors stand for what the parent's stand
    for, each in an object no other descriptor has, and counts their pipe ends; every other task keeps its
    slot and its files. One that fails leaves every task that was there as it was. -/
theorem fork_inherits (hr : Reaches Serves k) (hl : (k.tasks k.currentTask).Live) (ans : Answers) :
    ((procFork ans k).1 = -1 ∧ Untouched k (procFork ans k).2) ∨
    ∃ c stack, (procFork ans k).1 = k.nextPid ∧ Forked ans k (procFork ans k).2 c stack ∧
      (∀ t, t ≠ c → (k.tasks t).Live → table (procFork ans k).2 t = table k t) ∧
      ∀ g t g' h, ((procFork ans k).2.tasks c).fds g = some h → ((procFork ans k).2.tasks t).Live →
        ((procFork ans k).2.tasks t).fds g' = some h → t = c ∧ g' = g := by
  have b : Sound False ∅ k := hr.sound fun _ _ _ hm => ⟨hm, False.elim⟩
  rcases procFork_spec ans hl fun g h hg => b.live _ h (held_fds hl hg) with hfail | ⟨c, stack, hpid, f⟩
  · exact .inl hfail
  refine .inr ⟨c, stack, hpid, f, fun t ht hlt => ?_, fun g t g' h hg hlt hg' => ?_⟩
  · funext g
    rw [table, table, f.others t ht]
    cases hopen : (k.tasks t).fds g with
    | none => rfl
    | some h =>
      rw [Option.map_some, Option.map_some, f.files h (b.live (t, g) h (held_some.mpr ⟨hlt, hopen⟩))]
  · have b' : Sound False ∅ (procFork ans k).2 := b.fork hl
    have hlc : ((procFork ans k).2.tasks c).Live := by
      rw [f.slot]
      exact ⟨nofun, nofun⟩
    obtain ⟨h1, h2⟩ := Prod.mk.inj (b'.own (t, g') (c, g) h (held_some.mpr ⟨hlt, hg'⟩)
      (held_some.mpr ⟨hlc, hg⟩))
    exact ⟨h1, h2⟩

theorem fork_inherits_pipeMade : ∃ c stack,
    Forked { roomy 20 with cloneCr3 := 1 } pipeMade (procFork { roomy 20 with cloneCr3 := 1 } pipeMade).2
      c stack := by
  rcases fork_inherits (pipeMade_reaches Serves fun _ _ _ => trivial) (by decide)
    { roomy 20 with cloneCr3 := 1 } with ⟨hfail, -⟩ | ⟨c, stack, -, f, -⟩
  · exact absurd hfail (by decide)
  · exact ⟨c, stack, f⟩

end TypeOS.Proc
