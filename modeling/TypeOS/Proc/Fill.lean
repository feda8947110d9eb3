import TypeOS.Proc.Ends

/-! What filling slots can do.

    `fd_alloc` takes the lowest empty slot, and `SYS_pipe` two of them and a pipe. What it takes it
    gives back where it fails, so that it leaves what it found but for files that nobody had. The calls
    that copy a descriptor empty its target first. -/

namespace TypeOS.Proc

open Kernel

variable {k k' : Kernel} {ans : Answers} {t : Tid} {fd rfd wfd : Fd} {h src dst rf wf : Handle}
  {file : VfsFile} {oldfd newfd : Int} {p : PipeId}

/-! ### The lowest empty slot -/

/-- The lowest empty slot of the current task. -/
structure Lowest (k : Kernel) (fd : Fd) : Prop where
  empty : k.fds fd = none
  least : ∀ g < fd, k.fds g ≠ none

/-- `fd_alloc` finds nothing, or fills an empty slot with a fresh file. -/
theorem fdAlloc_cases (answer : Option Handle) (k : Kernel) :
    fdAlloc answer k = (none, k) ∨ ∃ fd h, k.fds fd = none ∧ h ∉ k.live ∧
      fdAlloc answer k = (some (fd, h), install k.currentTask fd h VfsFile.fresh k) := by
  unfold fdAlloc
  cases hs : firstSlot fun fd => (k.fds fd).isNone with
  | none => exact Or.inl rfl
  | some fd =>
    have hfd : k.fds fd = none := by simpa using firstSlot_some hs
    rcases kmalloc_cases answer k with hm | ⟨h, -, hh, hm⟩
    · exact Or.inl (by simp [hm])
    · exact Or.inr ⟨fd, h, hfd, hh, by rw [hm]; rfl⟩

/-- `fd_alloc` finds nothing, or fills the lowest empty slot with a fresh file. -/
theorem fdAlloc_lowest (answer : Option Handle) (k : Kernel) :
    fdAlloc answer k = (none, k) ∨ ∃ fd h, Lowest k fd ∧ h ∉ k.live ∧
      fdAlloc answer k = (some (fd, h), install k.currentTask fd h VfsFile.fresh k) := by
  rcases fdAlloc_cases answer k with hnone | ⟨fd, h, hn, hh, heq⟩
  · exact Or.inl hnone
  · refine Or.inr ⟨fd, h, ⟨hn, fun g hg => ?_⟩, hh, heq⟩
    have hslot : firstSlot (fun fd => (k.fds fd).isNone) = some fd := by
      unfold fdAlloc at heq
      cases hs : firstSlot fun fd => (k.fds fd).isNone with
      | none => simp [hs] at heq
      | some fd' =>
        rw [hs] at heq
        rcases kmalloc_cases answer k with hm | ⟨a, -, -, hm⟩ <;> simp only [hm] at heq
        · simp at heq
        · simp only [Prod.mk.injEq, Option.some.injEq] at heq
          rw [heq.1.1]
    have hfilled := firstSlot_least hslot hg
    intro hc
    rw [hc] at hfilled
    simp at hfilled

/-- The slot after the first of two. -/
theorem Lowest.next (h : Lowest k rfd) {v : Handle} {f : VfsFile}
    (hw : Lowest (install k.currentTask rfd v f k) wfd) :
    rfd < wfd ∧ k.fds wfd = none ∧ ∀ g < wfd, g ≠ rfd → k.fds g ≠ none := by
  have hfds : ∀ g, (install k.currentTask rfd v f k).fds g =
      Function.update k.fds rfd (some v) g := by
    intro g
    simp [install, setFd, setFile, Kernel.fds]
  have hne : wfd ≠ rfd := by
    rintro rfl
    have := hw.empty
    rw [hfds, Function.update_self] at this
    cases this
  have hempty := hw.empty
  rw [hfds, Function.update_of_ne hne] at hempty
  refine ⟨lt_of_not_ge fun hle => ?_, hempty, fun g hg hgr => ?_⟩
  · exact h.least wfd (lt_of_le_of_ne hle hne) hempty
  · have := hw.least g hg
    rwa [hfds, Function.update_of_ne hgr] at this

/-! ### Slots that are emptied again -/

/-- An emptied slot was filled just before. -/
theorem setFd_undo (hn : k.fds fd = none) (v : Option Handle) :
    ((k.setFd k.currentTask fd v).setFd k.currentTask fd none).tasks = k.tasks := by
  have hfds : Function.update (Function.update (k.tasks k.currentTask).fds fd v) fd none =
      (k.tasks k.currentTask).fds := by
    rw [Function.update_idem]
    exact Function.update_eq_self_iff.mpr hn.symm
  simp only [setFd, onTask, Function.update_self, Function.update_idem, hfds, Function.update_eq_self]

theorem setFd_undo_two (hr : k.fds rfd = none) (hw : k.fds wfd = none)
    (v w : Option Handle) : ((((k.setFd k.currentTask rfd v).setFd k.currentTask wfd w).setFd
      k.currentTask rfd none).setFd k.currentTask wfd none).tasks = k.tasks := by
  have hfds : Function.update (Function.update (Function.update (Function.update
      (k.tasks k.currentTask).fds rfd v) wfd w) rfd none) wfd none = (k.tasks k.currentTask).fds := by
    funext g
    rcases eq_or_ne g wfd with rfl | hgw
    · rw [Function.update_self]
      exact hw.symm
    rw [Function.update_of_ne hgw]
    rcases eq_or_ne g rfd with rfl | hgr
    · rw [Function.update_self]
      exact hr.symm
    rw [Function.update_of_ne hgr, Function.update_of_ne hgw, Function.update_of_ne hgr]
  simp only [setFd, onTask, Function.update_self, Function.update_idem, hfds, Function.update_eq_self]

/-! ### dup, dup2, fcntl -/

/-- Counting an end and storing to a slot commute. -/
theorem countEnd_setFd (v : Option Handle) :
    (countEnd file (k.setFile dst file)).setFd t fd v =
      countEnd file ((k.setFd t fd v).setFile dst file) := by
  unfold countEnd
  cases file.pipe with
  | none => rfl
  | some p =>
    by_cases h0 : file.pipeEnd = 0
    · simp only [h0, if_true]
      rfl
    · by_cases h1 : file.pipeEnd = 1
      · simp only [h1, if_true]
        rfl
      · simp only [h0, h1, if_false]
        rfl

theorem copyFile_setFd (v : Option Handle) :
    (copyFile src dst k).setFd t fd v = copyFile src dst (k.setFd t fd v) := by
  have hfiles : (k.setFd t fd v).files = k.files := rfl
  rw [copyFile, copyFile, hfiles]
  exact countEnd_setFd ..

theorem toFd_val {n : Int} {f : Fd} (hf : toFd n = some f) : (f.val : Int) = n := by
  unfold toFd at hf
  split at hf
  · next hr =>
    rw [Option.some.injEq] at hf
    subst hf
    exact Int.toNat_of_nonneg hr.1
  · simp at hf

theorem fdGet_some {fd : Int} (hg : fdGet fd k = some h) : ∃ f, toFd fd = some f ∧ k.fds f = some h := by
  simpa [fdGet, Option.bind_eq_some_iff] using hg

/-- Before the copy: an object that nobody had is in a slot that was empty. -/
structure Prepared (k : Kernel) (fd : Fd) (dst : Handle) (k' : Kernel) : Prop where
  empty : k.fds fd = none
  fresh : dst ∉ k.live
  tasks : k'.tasks = (k.setFd k.currentTask fd (some dst)).tasks
  files : ∀ g, g ≠ dst → k'.files g = k.files g
  live : k'.live = insert dst k.live
  pipes : k'.pipes = k.pipes

/-- With a negative number `fd_dup_to` fails, or copies an open descriptor to an empty slot. -/
theorem dup_cases (h0 : newfd < 0) : (∃ r < 0, fdDupTo ans oldfd newfd k = (r, k)) ∨
    ∃ f src fd dst k', toFd oldfd = some f ∧ k.fds f = some src ∧ Prepared k fd dst k' ∧
      fdDupTo ans oldfd newfd k = ((fd.val : Int), copyFile src dst k') := by
  rw [fdDupTo]
  cases hg : fdGet oldfd k with
  | none => exact Or.inl ⟨eBadf, by decide, rfl⟩
  | some src =>
    obtain ⟨f, hof, hf⟩ := fdGet_some hg
    simp only [if_pos h0]
    rcases fdAlloc_cases (ans.kmalloc 0) k with hm | ⟨fd, dst, hn, hh, hm⟩ <;> rw [hm]
    · exact Or.inl ⟨eNomem, by decide, rfl⟩
    · exact Or.inr ⟨f, src, fd, dst, install k.currentTask fd dst VfsFile.fresh k, hof, hf,
        ⟨hn, hh, rfl, fun g hg => Function.update_of_ne hg .., rfl, rfl⟩, rfl⟩

theorem dupFrom_cases (ans : Answers) (oldfd minfd : Int) (k : Kernel) :
    (∃ r, fdDupFrom ans oldfd minfd k = (r, k)) ∨ ∃ f src fd dst k', k.fds f = some src ∧
      Prepared k fd dst k' ∧ fdDupFrom ans oldfd minfd k = ((fd.val : Int), copyFile src dst k') := by
  unfold fdDupFrom
  split
  · next src minfd hg hm =>
    obtain ⟨f, -, hf⟩ := fdGet_some hg
    split
    · exact Or.inl ⟨_, rfl⟩
    · next fd hfd =>
      have hn : k.fds fd = none := by
        have := firstSlot_some hfd
        simp only [Option.isNone_iff_eq_none, decide_eq_true_eq] at this
        exact this.2
      rcases kmalloc_cases (ans.kmalloc 0) k with hm | ⟨dst, -, hh, hm⟩ <;> rw [hm]
      · exact Or.inl ⟨_, rfl⟩
      · simp only [copyFile_setFd]
        exact Or.inr ⟨f, src, fd, dst,
          { k with live := insert dst k.live }.setFd k.currentTask fd (some dst), hf,
          ⟨hn, hh, rfl, fun _ _ => rfl, rfl, rfl⟩, rfl⟩
  · exact Or.inl ⟨_, rfl⟩

theorem dropTarget_empty (hfd : k.fds fd = none) (freed : VfsFile) : dropTarget freed fd k = k := by
  simp only [dropTarget, hfd]

/-- `vfs_close` does nothing that `kfree` does not undo. -/
theorem dropTarget_open (hfd : k.fds fd = some h) (freed : VfsFile) :
    dropTarget freed fd k = kfree freed h k := by
  simp [dropTarget, hfd, kfree, vfsClose, setFile]

/-- The heap has an object after one was freed. -/
theorem kmalloc_granted (ha : ans.kmalloc 0 = some dst) (hnot : dst ∉ k.live.erase h) (freed : VfsFile) :
    kmalloc (ans.kmalloc 0) (kfree freed h k) =
      (some dst, { kfree freed h k with live := insert dst (k.live.erase h) }) := by
  rw [ha]
  exact if_neg hnot

/-- With a slot number it fails, or copies an open descriptor to that slot: it was empty, or its object
    is gone when the heap, which then has memory, is asked for the new one. -/
theorem dupTo_cases (h0 : 0 ≤ newfd)
    (hm : ∀ fd h, toFd newfd = some fd → k.fds fd = some h → fdGet oldfd k ≠ none →
      ∃ a, ans.kmalloc 0 = some a ∧ a ∉ k.live.erase h) :
    (∃ r < 0, fdDupTo ans oldfd newfd k = (r, k)) ∨
    ∃ f src fd dst k₀ k', toFd oldfd = some f ∧ k.fds f = some src ∧ toFd newfd = some fd ∧
      Prepared k₀ fd dst k' ∧ fdDupTo ans oldfd newfd k = ((fd.val : Int), copyFile src dst k') ∧
      (k₀ = k ∨ ∃ h, k.fds fd = some h ∧ k₀ = release k.currentTask fd h ans.freed k) := by
  rw [fdDupTo]
  cases hg : fdGet oldfd k with
  | none => exact Or.inl ⟨eBadf, by decide, rfl⟩
  | some src =>
    obtain ⟨f, hof, hf⟩ := fdGet_some hg
    simp only [if_neg (not_lt.mpr h0)]
    cases hn : toFd newfd with
    | none => exact Or.inl ⟨eBadf, by decide, rfl⟩
    | some fd =>
      dsimp only
      cases hfd : k.fds fd with
      | none =>
        rw [dropTarget_empty hfd]
        rcases kmalloc_cases (ans.kmalloc 0) k with hk | ⟨dst, -, hh, hk⟩ <;> rw [hk]
        · exact Or.inl ⟨eNomem, by decide, rfl⟩
        · exact Or.inr ⟨f, src, fd, dst, k,
            { k with live := insert dst k.live }.setFd k.currentTask fd (some dst), hof, hf, rfl,
            ⟨hfd, hh, rfl, fun _ _ => rfl, rfl, rfl⟩, rfl, Or.inl rfl⟩
      | some h =>
        obtain ⟨a, ha, hnot⟩ := hm fd h hn hfd (by simp [hg])
        rw [dropTarget_open hfd, kmalloc_granted ha hnot]
        refine Or.inr ⟨f, src, fd, a, release k.currentTask fd h ans.freed k,
          { kfree ans.freed h k with live := insert a (k.live.erase h) }.setFd k.currentTask fd (some a),
          hof, hf, rfl,
          ⟨?_, hnot, ?_, fun _ _ => rfl, rfl, rfl⟩, rfl, Or.inr ⟨h, hfd, rfl⟩⟩
        · simp [release, setFd, setFile, Kernel.fds]
        · simp only [release, setFd, setFile, kfree, onTask]
          rw [Function.update_idem, Function.update_self, Function.update_idem]

/-! ### close -/

theorem sysClose_cases (ans : Answers) (n : Int) (k : Kernel) : sysClose ans n k = (eBadf, k) ∨
    ∃ fd h, toFd n = some fd ∧ k.fds fd = some h ∧
      sysClose ans n k = (0, (kfree ans.freed h (closeEnd h k)).setFd k.currentTask fd none) := by
  rw [sysClose]
  cases hn : toFd n with
  | none => exact Or.inl rfl
  | some fd =>
    dsimp only
    cases hfd : k.fds fd with
    | none => exact Or.inl rfl
    | some h => exact Or.inr ⟨fd, h, rfl, hfd, rfl⟩

/-- An object that is no pipe end is dropped and nothing else. -/
theorem closeEnd_plain (hp : (k.files h).pipe = none) (freed : VfsFile) :
    (kfree freed h (closeEnd h k)).setFd k.currentTask fd none = release k.currentTask fd h freed k := by
  simp [closeEnd, hp, kfree, vfsClose, setFd, setFile, onTask, release]

/-! ### pipe -/

theorem procPipeAlloc_cases (k : Kernel) :
    procPipeAlloc k = (none, k) ∨ ∃ p, (k.pipes p).inUse = false ∧
      procPipeAlloc k = (some p, k.onPipe p fun _ => { Pipe.zero with inUse := true }) := by
  unfold procPipeAlloc
  cases hs : firstSlot fun p => !(k.pipes p).inUse with
  | none => exact Or.inl rfl
  | some p =>
    have : (k.pipes p).inUse = false := by simpa using firstSlot_some hs
    exact Or.inr ⟨p, this, rfl⟩

/-- A pipe and files were taken and given back. -/
structure Returned (k k' : Kernel) (p : PipeId) : Prop where
  free : (k.pipes p).inUse = false
  tasks : k'.tasks = k.tasks
  live : k'.live = k.live
  files : ∀ h ∈ k.live, k'.files h = k.files h
  pipe : (k'.pipes p).inUse = false
  pipes : ∀ q, q ≠ p → k'.pipes q = k.pipes q

/-- A pipe that is free, the two lowest empty slots and two objects. -/
structure TakesPipe (k : Kernel) (p : PipeId) (rfd wfd : Fd) (rf wf : Handle) : Prop where
  free : (k.pipes p).inUse = false
  first : Lowest k rfd
  second : rfd < wfd ∧ k.fds wfd = none ∧ ∀ g < wfd, g ≠ rfd → k.fds g ≠ none
  fresh : rf ∉ k.live ∧ wf ∉ k.live ∧ rf ≠ wf

/-- One end of a pipe. -/
def pipeFile (p : PipeId) (e : Int) : VfsFile := { VfsFile.fresh with pipe := some p, pipeEnd := e }

/-- The two slots are the ends of the pipe, counted. -/
def connect (p : PipeId) (rfd wfd : Fd) (rf wf : Handle) (k : Kernel) : Kernel :=
  let k := k.onPipe p fun _ => { Pipe.zero with inUse := true }
  let k := (install k.currentTask rfd rf (pipeFile p 0) k).onPipe p fun q => { q with readers := 1 }
  (install k.currentTask wfd wf (pipeFile p 1) k).onPipe p fun q => { q with writers := 1 }

/-- The first slot does not take the second one. -/
theorem TakesPipe.empty_second (h : TakesPipe k p rfd wfd rf wf) (file : VfsFile) :
    ((install k.currentTask rfd rf file k).tasks k.currentTask).fds wfd = none := by
  simp only [install, setFd, setFile, onTask, Function.update_self]
  rw [Function.update_of_ne h.second.1.ne']
  exact h.second.2.1

theorem TakesPipe.fresh_second (h : TakesPipe k p rfd wfd rf wf) : wf ∉ insert rf k.live := by
  rw [Finset.mem_insert, not_or]
  exact ⟨h.fresh.2.2.symm, h.fresh.2.1⟩

/-- The files of a pipe may be set up one after the other, or both at the end from fresh ones. -/
theorem connect_eq {k₁ k₃ : Kernel} (hk : k₁ = k.onPipe p fun _ => { Pipe.zero with inUse := true })
    (hne : wf ≠ rf) (hk₃ : k₃ = (install k₁.currentTask wfd wf VfsFile.fresh
      (install k₁.currentTask rfd rf VfsFile.fresh k₁)).onPipe p
        fun q => { q with readers := 1, writers := 1 }) {r w : VfsFile}
    (hr : r = { k₃.files rf with pipe := some p, pipeEnd := 0, inode := none, path := "" })
    (hw : w = { (k₃.setFile rf r).files wf with pipe := some p, pipeEnd := 1, inode := none, path := "" }) :
    (k₃.setFile rf r).setFile wf w = connect p rfd wfd rf wf k := by
  subst hk
  have hr' : r = pipeFile p 0 := by
    rw [hr, hk₃]
    simp [install, setFd, setFile, hne.symm, pipeFile, VfsFile.fresh]
  have hw' : w = pipeFile p 1 := by
    rw [hw, hk₃]
    simp [install, setFd, setFile, hne, pipeFile, VfsFile.fresh]
  subst hk₃
  rw [hr', hw']
  simp only [connect, install, setFd, onTask, setFile, onPipe, Function.update_idem, Function.update_self]
  congr 1
  funext h
  by_cases hw : h = wf
  · simp [hw]
  · by_cases hr : h = rf
    · simp [hr, hne.symm]
    · simp [hw, hr]

/-- What `sys_pipe_impl` can do. -/
theorem sysPipe_cases (ans : Answers) (ufdOk : Bool) (k : Kernel) :
    ((sysPipe ans ufdOk k).1 < 0 ∧
      ((sysPipe ans ufdOk k).2 = k ∨ ∃ p, Returned k (sysPipe ans ufdOk k).2 p)) ∨
    ∃ p rfd wfd rf wf, TakesPipe k p rfd wfd rf wf ∧
      sysPipe ans ufdOk k = (0, connect p rfd wfd rf wf k) := by
  have hmem : eNomem < 0 := by decide
  have hfault : eFault < 0 := by decide
  rw [sysPipe]
  rcases procPipeAlloc_cases k with hp | ⟨p, hu, hp⟩ <;> rw [hp] <;> dsimp only
  · exact Or.inl ⟨hmem, Or.inl rfl⟩
  have hother : ∀ q, q ≠ p → (k.onPipe p fun _ => { Pipe.zero with inUse := true }).pipes q = k.pipes q :=
    fun q hne => onPipe_pipes_ne hne ..
  generalize hk₁ : (k.onPipe p fun _ => { Pipe.zero with inUse := true }) = k₁ at hother
  obtain ⟨htasks, hcur, hlive, hfiles⟩ : k₁.tasks = k.tasks ∧ k₁.currentTask = k.currentTask ∧
      k₁.live = k.live ∧ k₁.files = k.files := by
    rw [← hk₁]
    exact ⟨rfl, rfl, rfl, rfl⟩
  have hfds : k₁.fds = k.fds := by rw [Kernel.fds, Kernel.fds, htasks, hcur]
  -- the mark is taken off again
  have hmark : ∀ k' : Kernel, (∀ q, q ≠ p → k'.pipes q = k.pipes q) →
      ((procPipeFree p k').pipes p).inUse = false ∧
        ∀ q, q ≠ p → (procPipeFree p k').pipes q = k.pipes q := fun k' hk' =>
    ⟨by rw [procPipeFree, onPipe_pipes_self], fun q hne => (onPipe_pipes_ne hne ..).trans (hk' q hne)⟩
  rcases fdAlloc_lowest (ans.kmalloc 0) k₁ with hf | ⟨rfd, rf, hrl, hrh, hf⟩ <;> rw [hf] <;> dsimp only
  · obtain ⟨hp, hps⟩ := hmark k₁ hother
    exact Or.inl ⟨hmem, Or.inr ⟨p, hu, htasks, hlive, fun h _ => congrFun hfiles h, hp, hps⟩⟩
  have hlive₁ : ∀ h ∈ k.live, h ≠ rf := by
    rintro h hh rfl
    exact hrh (hlive ▸ hh)
  rcases fdAlloc_lowest (ans.kmalloc 1) (install k₁.currentTask rfd rf VfsFile.fresh k₁) with
    hg | ⟨wfd, wf, hwl, hwh, hg⟩ <;> rw [hg] <;> dsimp only
  · obtain ⟨hp, hps⟩ := hmark ((kfree ans.freed rf (install k₁.currentTask rfd rf VfsFile.fresh k₁)).setFd
      k₁.currentTask rfd none) hother
    refine Or.inl ⟨hmem, Or.inr ⟨p, hu, ?_, ?_, fun h hh => ?_, hp, hps⟩⟩
    · rw [← htasks, ← setFd_undo hrl.empty (some rf)]
      rfl
    · rw [← hlive]
      exact Finset.erase_insert hrh
    · rw [← hfiles]
      exact (Function.update_of_ne (hlive₁ h hh) ..).trans (Function.update_of_ne (hlive₁ h hh) ..)
  obtain ⟨hlt, hwn, hleast⟩ := hrl.next hwl
  obtain ⟨hne, hwh'⟩ : wf ≠ rf ∧ wf ∉ k₁.live := by
    rw [← not_or, ← Finset.mem_insert]
    exact hwh
  split
  · have htakes : TakesPipe k p rfd wfd rf wf :=
      ⟨hu, ⟨hfds ▸ hrl.empty, hfds ▸ hrl.least⟩, ⟨hlt, hfds ▸ hwn, hfds ▸ hleast⟩,
        hlive ▸ hrh, hlive ▸ hwh', hne.symm⟩
    refine Or.inr ⟨p, rfd, wfd, rf, wf, htakes, Prod.ext rfl ?_⟩
    exact connect_eq hk₁.symm hne rfl rfl rfl
  · obtain ⟨hp, hps⟩ := hmark (((k₁.onPipe p fun q => { q with readers := 1, writers := 1 }))) fun q hq =>
      (onPipe_pipes_ne hq ..).trans (hother q hq)
    refine Or.inl ⟨hfault, Or.inr ⟨p, hu, ?_, ?_, fun h hh => ?_, hp, hps⟩⟩
    · rw [← htasks, ← setFd_undo_two hrl.empty hwn (some rf) (some wf)]
      rfl
    · have hwh₀ : wf ∉ insert rf k₁.live := hwh
      have herase : ((insert wf (insert rf k₁.live)).erase rf).erase wf = k₁.live := by
        rw [Finset.erase_right_comm, Finset.erase_insert hwh₀, Finset.erase_insert hrh]
      exact herase.trans hlive
    · have hr := hlive₁ h hh
      have hw : h ≠ wf := by
        rintro rfl
        exact hwh' (hlive ▸ hh)
      rw [← hfiles]
      simp [kfree, setFd, setFile, install, procPipeFree, hr, hw]

end TypeOS.Proc
