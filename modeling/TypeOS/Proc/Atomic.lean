import TypeOS.Proc.Backed

/-! What the calls that fill a slot leave of the others.

    `SYS_open` and `SYS_pipe` give back what they took when they fail, and otherwise fill the lowest empty
    slots. `fd_dup_to` frees the object of its target before it reads the source, so the copy is what
    the source stood for if the two are different descriptors. -/

namespace TypeOS.Proc

open Kernel

variable {k k' : Kernel} {ans : Answers} {fd : Fd} {h src dst : Handle} {oldfd newfd r : Int}

/-! ### open and pipe -/

/-- The descriptor tables, the marks of the pipes and the allocations are the same. -/
structure SameResources (k k' : Kernel) : Prop where
  tasks : k'.tasks = k.tasks
  inUse : ∀ p, (k'.pipes p).inUse = (k.pipes p).inUse
  live : k'.live = k.live

/-- A slot that was empty is filled with a new object, and no other slot changes. -/
structure Fills (k k' : Kernel) (fd : Fd) (h : Handle) : Prop where
  lowest : Lowest k fd
  fresh : h ∉ k.live
  tasks : k'.tasks = (k.setFd k.currentTask fd (some h)).tasks
  live : k'.live = insert h k.live

/-- A `SYS_open` that fails leaves everything; one that works fills the lowest empty slot. -/
theorem sysOpenPath_atomic (ans : Answers) (path : String) (node : Option Nat) (k : Kernel) :
    ((sysOpenPath ans path node k).1 < 0 → SameResources k (sysOpenPath ans path node k).2) ∧
    (0 ≤ (sysOpenPath ans path node k).1 → ∃ fd h, (sysOpenPath ans path node k).1 = fd.val ∧
      Fills k (sysOpenPath ans path node k).2 fd h ∧
      (sysOpenPath ans path node k).2.pipes = k.pipes) := by
  have hmem : ¬ 0 ≤ eNomem := by decide
  have hent : ¬ 0 ≤ eNoent := by decide
  rw [sysOpenPath]
  rcases fdAlloc_lowest (ans.kmalloc 0) k with hf | ⟨fd, h, hlow, hh, hf⟩ <;> rw [hf] <;> dsimp only
  · exact ⟨fun _ => ⟨rfl, fun _ => rfl, rfl⟩, fun hc => absurd hc hmem⟩
  have hpos : ¬ ((fd.val : Int) < 0) := by omega
  split
  · exact ⟨fun hc => absurd hc hpos, fun _ => ⟨fd, h, rfl, ⟨hlow, hh, rfl, rfl⟩, rfl⟩⟩
  · cases node with
    | none =>
      refine ⟨fun _ => ⟨setFd_undo hlow.empty (some h), fun _ => rfl, ?_⟩, fun hc => absurd hc hent⟩
      exact Finset.erase_insert hh
    | some inode => exact ⟨fun hc => absurd hc hpos, fun _ => ⟨fd, h, rfl, ⟨hlow, hh, rfl, rfl⟩, rfl⟩⟩

/-- Two slots that were empty are filled with new objects, and no other slot changes. -/
structure FillsTwo (k k' : Kernel) (rfd wfd : Fd) (rf wf : Handle) : Prop where
  first : Lowest k rfd
  second : rfd < wfd ∧ k.fds wfd = none ∧ ∀ g < wfd, g ≠ rfd → k.fds g ≠ none
  fresh : rf ∉ k.live ∧ wf ∉ k.live ∧ rf ≠ wf
  tasks : k'.tasks = ((k.setFd k.currentTask rfd (some rf)).setFd k.currentTask wfd (some wf)).tasks
  live : k'.live = insert wf (insert rf k.live)

/-- A `SYS_pipe` that fails leaves everything; one that works fills the two lowest empty slots, and marks
    a pipe that was free. -/
theorem sysPipe_atomic (ans : Answers) (ufdOk : Bool) (k : Kernel) :
    ((sysPipe ans ufdOk k).1 < 0 → SameResources k (sysPipe ans ufdOk k).2) ∧
    (0 ≤ (sysPipe ans ufdOk k).1 → ∃ rfd wfd rf wf p, FillsTwo k (sysPipe ans ufdOk k).2 rfd wfd rf wf ∧
      (k.pipes p).inUse = false ∧ ((sysPipe ans ufdOk k).2.pipes p).inUse = true ∧
      ∀ q, q ≠ p → (sysPipe ans ufdOk k).2.pipes q = k.pipes q) := by
  rcases sysPipe_cases ans ufdOk k with ⟨hneg, heq | ⟨p, hr⟩⟩ | ⟨p, rfd, wfd, rf, wf, ht, heq⟩
  · rw [heq]
    exact ⟨fun _ => ⟨rfl, fun _ => rfl, rfl⟩, fun hc => absurd hneg (not_lt.mpr hc)⟩
  · refine ⟨fun _ => ⟨hr.tasks, fun q => ?_, hr.live⟩, fun hc => absurd hneg (not_lt.mpr hc)⟩
    rcases eq_or_ne q p with rfl | hne
    · rw [hr.pipe, hr.free]
    · rw [hr.pipes q hne]
  · rw [heq]
    refine ⟨fun hc => absurd hc (lt_irrefl 0), fun _ => ⟨rfd, wfd, rf, wf, p,
      ⟨ht.first, ht.second, ht.fresh, ?_, rfl⟩, ht.free, ?_, fun q hne => ?_⟩⟩
    · simp only [connect, install, setFd, onTask, setFile, onPipe]
    · simp only [connect, install, setFd, onTask, setFile, onPipe, Function.update_self]
    · simp only [connect, install, setFd, onTask, setFile, onPipe, Function.update_of_ne hne]

/-- In every state, for every path and every address: a `SYS_open` or `SYS_pipe` that fails leaves the
    tables, the marks of the pipes and the allocations as they were, and one that works fills the lowest
    empty slots, one or two. -/
theorem open_pipe_atomic (k : Kernel) (ans : Answers) :
    (∀ path node r k', sysOpenPath ans path node k = (r, k') → (r < 0 → SameResources k k') ∧
      (0 ≤ r → ∃ fd h, r = fd.val ∧ Fills k k' fd h ∧ k'.pipes = k.pipes)) ∧
    ∀ ufdOk r k', sysPipe ans ufdOk k = (r, k') → (r < 0 → SameResources k k') ∧
      (0 ≤ r → ∃ rfd wfd rf wf p, FillsTwo k k' rfd wfd rf wf ∧ (k.pipes p).inUse = false ∧
        (k'.pipes p).inUse = true ∧ ∀ q, q ≠ p → k'.pipes q = k.pipes q) := by
  refine ⟨fun path node r k' h => ?_, fun ufdOk r k' h => ?_⟩
  · have hopen := sysOpenPath_atomic ans path node k
    rwa [h] at hopen
  · have hpipe := sysPipe_atomic ans ufdOk k
    rwa [h] at hpipe

/-! ### dup2 -/

/-- Each descriptor of the current task has an allocated object of its own. -/
structure OwnObjects (k : Kernel) : Prop where
  live : ∀ g h, k.fds g = some h → h ∈ k.live
  own : ∀ g g' h, k.fds g = some h → k.fds g' = some h → g = g'

/-- What a descriptor of the current task stands for. -/
def described (k : Kernel) (g : Fd) : Option VfsFile := (k.fds g).map k.files

/-- The new slot stands for what the old one stood for, and the others for what they stood for; or the
    call fails, and all do. -/
structure Duplicates (k : Kernel) (oldfd newfd : Int) (r : Int) (k' : Kernel) : Prop where
  copied : 0 ≤ r → (0 ≤ newfd → r = newfd) ∧ ∃ src dst, toFd oldfd = some src ∧ toFd r = some dst ∧
    (described k src).isSome ∧ described k' dst = described k src ∧ described k' src = described k src ∧
    ∀ g, g ≠ dst → described k' g = described k g
  failed : r < 0 → ∀ g, described k' g = described k g

/-- In every run of the tasks the descriptors of a live one are such. -/
theorem Reaches.ownObjects (hr : Reaches Serves k) (hl : (k.tasks k.currentTask).Live) : OwnObjects k := by
  have b : Sound False ∅ k := hr.sound fun _ _ _ hm => ⟨hm, False.elim⟩
  exact ⟨fun g h hg => b.live _ h (held_fds hl hg), b.fds_injective hl⟩

theorem copyFile_current (src dst : Handle) (k : Kernel) :
    (copyFile src dst k).currentTask = k.currentTask := by
  obtain ⟨pipes, heq, -⟩ := countEnd_eq (k.files src) (k.setFile dst (k.files src))
  rw [copyFile, heq]
  rfl

theorem fds_setFd (v : Option Handle) :
    (k.setFd k.currentTask fd v).fds = Function.update k.fds fd v := by
  simp [Kernel.fds, setFd]

/-- The copy is what is at the source then; the other slots hold their own objects. -/
theorem described_copyFile {k₁ : Kernel} (ht : k₁.fds = Function.update k.fds fd (some dst))
    (hm : ∀ g h, g ≠ fd → k.fds g = some h → h ≠ dst ∧ k₁.files h = k.files h) :
    described (copyFile src dst k₁) fd = some (k₁.files src) ∧
      ∀ g, g ≠ fd → described (copyFile src dst k₁) g = described k g := by
  obtain ⟨htasks, -, hfiles⟩ := copyFile_rest src dst k₁
  have hfds : (copyFile src dst k₁).fds = Function.update k.fds fd (some dst) := by
    rw [← ht, Kernel.fds, Kernel.fds, htasks, copyFile_current]
  refine ⟨?_, fun g hg => ?_⟩
  · rw [described, hfds, Function.update_self, Option.map_some, hfiles, Function.update_self]
  · rw [described, described, hfds, Function.update_of_ne hg]
    cases hk : k.fds g with
    | none => rfl
    | some h =>
      obtain ⟨hne, hsame⟩ := hm g h hg hk
      rw [Option.map_some, Option.map_some, hfiles, Function.update_of_ne hne, hsame]

/-- What `fd_dup_to` does with a slot number, given that the heap has memory: the object of the target is
    gone when the source is read. -/
theorem fdDupTo_target (ho : OwnObjects k) (hs : Serves ans (.dup2 oldfd newfd) k) {f : Fd}
    (hf : toFd oldfd = some f) (hsrc : k.fds f = some src) (hn : toFd newfd = some fd) (h0 : ¬ newfd < 0) :
    fdDupTo ans oldfd newfd k = (eNomem, k) ∧ f ≠ fd ∨
    (fdDupTo ans oldfd newfd k).1 = newfd ∧
    described (fdDupTo ans oldfd newfd k).2 fd = (if f = fd then some ans.freed else described k f) ∧
    ∀ g, g ≠ fd → described (fdDupTo ans oldfd newfd k).2 g = described k g := by
  have hg : fdGet oldfd k = some src := by rw [fdGet, hf, Option.bind_some, hsrc]
  have hval := toFd_val hn
  rw [fdDupTo, hg]
  simp only [if_neg h0, hn]
  cases hfd : k.fds fd with
  | none =>
    have hff : f ≠ fd := by
      rintro rfl
      rw [hsrc] at hfd
      cases hfd
    rw [dropTarget_empty hfd]
    rcases kmalloc_cases (ans.kmalloc 0) k with hk | ⟨dst, -, hh, hk⟩ <;> rw [hk] <;> dsimp only
    · exact Or.inl ⟨rfl, hff⟩
    · obtain ⟨hcopy, hrest⟩ := @described_copyFile k fd src dst
        ({ k with live := insert dst k.live }.setFd k.currentTask fd (some dst)) (fds_setFd _)
        fun g h _ hgh => ⟨fun hc => hh (hc ▸ ho.live g h hgh), rfl⟩
      refine Or.inr ⟨hval, hcopy.trans ?_, hrest⟩
      rw [if_neg hff, described, hsrc]
      rfl
  | some h =>
    obtain ⟨a, ha, hnot⟩ := (hs fd h hn hfd).grants
    rw [dropTarget_open hfd, kmalloc_granted ha hnot]
    dsimp only
    -- the other slots have other objects
    have hother : ∀ g h', g ≠ fd → k.fds g = some h' → h' ≠ h := by
      rintro g h' hne hgh rfl
      exact hne (ho.own g fd h' hgh hfd)
    obtain ⟨hcopy, hrest⟩ := @described_copyFile k fd src a
      ({ kfree ans.freed h k with live := insert a (k.live.erase h) }.setFd k.currentTask fd (some a))
      (fds_setFd _) fun g h' hne hgh => by
        have hne' := hother g h' hne hgh
        refine ⟨fun hc => hnot (hc ▸ Finset.mem_erase.mpr ⟨hne', ho.live g h' hgh⟩), ?_⟩
        exact Function.update_of_ne hne' ..
    refine Or.inr ⟨hval, hcopy.trans ?_, hrest⟩
    by_cases hff : f = fd
    · subst hff
      obtain rfl : src = h := Option.some.inj (hsrc.symm.trans hfd)
      rw [if_pos rfl]
      exact congrArg some (Function.update_self ..)
    · rw [if_neg hff, described, hsrc]
      exact congrArg some (Function.update_of_ne (hother f src hff hsrc) ..)

/-- With a negative number the lowest empty slot is the target. -/
theorem fdDupTo_lowest (ho : OwnObjects k) {f : Fd} (hf : toFd oldfd = some f) (hsrc : k.fds f = some src)
    (h0 : newfd < 0) : fdDupTo ans oldfd newfd k = (eNomem, k) ∨ ∃ fd,
      (fdDupTo ans oldfd newfd k).1 = fd.val ∧ f ≠ fd ∧
      described (fdDupTo ans oldfd newfd k).2 fd = described k f ∧
      ∀ g, g ≠ fd → described (fdDupTo ans oldfd newfd k).2 g = described k g := by
  have hg : fdGet oldfd k = some src := by rw [fdGet, hf, Option.bind_some, hsrc]
  rw [fdDupTo, hg]
  simp only [if_pos h0]
  rcases fdAlloc_cases (ans.kmalloc 0) k with hm | ⟨fd, dst, hn, hh, hm⟩ <;> rw [hm] <;> dsimp only
  · exact Or.inl rfl
  · have hne : ∀ g h, k.fds g = some h → h ≠ dst := fun g h hgh hc => hh (hc ▸ ho.live g h hgh)
    obtain ⟨hcopy, hrest⟩ := @described_copyFile k fd src dst
      (install k.currentTask fd dst VfsFile.fresh k) (fds_setFd _)
      fun g h _ hgh => ⟨hne g h hgh, Function.update_of_ne (hne g h hgh) ..⟩
    refine Or.inr ⟨fd, rfl, ?_, hcopy.trans ?_, hrest⟩
    · rintro rfl
      rw [hsrc] at hn
      cases hn
    · rw [described, hsrc]
      exact congrArg some (Function.update_of_ne (hne f src hsrc) ..)

/-- A call that does nothing. -/
theorem Duplicates.fails (h : r < 0) : Duplicates k oldfd newfd r k :=
  ⟨fun hc => absurd h (by omega), fun _ _ => rfl⟩

/-- `fd_dup_to` copies a descriptor and leaves the others, or fails and leaves all, if and only if the two
    numbers differ, or the object that it frees still reads as it did. -/
theorem dup_to_copies_iff (ho : OwnObjects k) (hs : Serves ans (.dup2 oldfd newfd) k) :
    Duplicates k oldfd newfd (fdDupTo ans oldfd newfd k).1 (fdDupTo ans oldfd newfd k).2 ↔
      oldfd ≠ newfd ∨ ∀ src, fdGet oldfd k = some src → ans.freed = k.files src := by
  have hbad : eBadf < 0 := by decide
  have hmem : eNomem < 0 := by decide
  cases hg : fdGet oldfd k with
  | none =>
    have hcall : fdDupTo ans oldfd newfd k = (eBadf, k) := by rw [fdDupTo, hg]
    rw [hcall]
    exact iff_of_true (.fails hbad) (Or.inr fun src hc => by cases hc)
  | some src =>
    obtain ⟨f, hf, hsrc⟩ := fdGet_some hg
    have hval := toFd_val hf
    have hsome : described k f = some (k.files src) := by
      rw [described, hsrc]
      rfl
    by_cases h0 : newfd < 0
    · refine iff_of_true ?_ (Or.inl (by omega))
      rcases @fdDupTo_lowest k ans src oldfd newfd ho f hf hsrc h0 with hc | ⟨fd, hr, hne, hcopy, hrest⟩
      · rw [hc]
        exact .fails hmem
      · have hfd : toFd (fdDupTo ans oldfd newfd k).1 = some fd := by
          rw [hr, toFd, dif_pos (by omega)]
          rfl
        exact ⟨fun _ => ⟨fun hc => by omega, f, fd, hf, hfd, by rw [hsome]; rfl, hcopy, hrest f hne, hrest⟩,
          fun hc => by omega⟩
    cases hn : toFd newfd with
    | none =>
      have hcall : fdDupTo ans oldfd newfd k = (eBadf, k) := by
        rw [fdDupTo, hg]
        simp only [if_neg h0, hn]
      rw [hcall]
      refine iff_of_true (.fails hbad) (Or.inl ?_)
      rintro rfl
      rw [hf] at hn
      cases hn
    | some fd =>
      have hval' := toFd_val hn
      rcases fdDupTo_target ho hs hf hsrc hn h0 with ⟨hc, hne⟩ | ⟨hr, hcopy, hrest⟩
      · rw [hc]
        refine iff_of_true (.fails hmem) (Or.inl ?_)
        rintro rfl
        exact hne (Option.some.inj (hf.symm.trans hn))
      rw [hr]
      by_cases hff : f = fd
      · -- the freed object is copied onto itself
        subst hff
        rw [if_pos rfl] at hcopy
        have hsame : oldfd = newfd := hval.symm.trans hval'
        constructor
        · rintro ⟨hdup, -⟩
          obtain ⟨-, g, dst, hg', hd, -, hto, -⟩ := hdup (by omega)
          obtain rfl := Option.some.inj (hn.symm.trans hd)
          obtain rfl := Option.some.inj (hf.symm.trans hg')
          refine Or.inr fun src' hsrc' => ?_
          rw [hcopy, hsome] at hto
          rw [← Option.some.inj hsrc']
          exact Option.some.inj hto
        · rintro (hne | hfreed)
          · exact absurd hsame hne
          · rw [hfreed src rfl, ← hsome] at hcopy
            exact ⟨fun _ => ⟨fun _ => rfl, f, f, hf, hn, by rw [hsome]; rfl, hcopy, hcopy, hrest⟩,
              fun hc => absurd hc h0⟩
      · rw [if_neg hff] at hcopy
        refine iff_of_true ?_ (Or.inl fun hc => hff ?_)
        · exact ⟨fun _ => ⟨fun _ => rfl, f, fd, hf, hn, by rw [hsome]; rfl, hcopy, hrest f hff, hrest⟩,
            fun hc => absurd hc h0⟩
        · exact Option.some.inj (hf.symm.trans (hc ▸ hn))

/-- The first object that the heap gives. -/
def firstObject : Handle := kernelHeapStart + Heap.headerSize

/-- A task with no descriptor. -/
def noneOpen : Kernel :=
  (Kernel.zero {firstObject} (fun _ => ⟨some 1, 5, "/a", none, -1⟩) 0).setState 0 .running

/-- It has read some of a file, its descriptor 3. -/
def oneOpen : Kernel := noneOpen.setFd noneOpen.currentTask 3 (some firstObject)

/-- The heap gives the object that was freed, and it reads as `vfs_close` left it. -/
def sameObject : Answers :=
  { kmalloc := fun _ => some firstObject, freed := ⟨none, 0, "/a", none, -1⟩, cloneCr3 := 0, image := none }

theorem oneOpen_fds (g : Fd) : oneOpen.fds g = if g = 3 then some firstObject else none := by
  have hnone : noneOpen.fds g = none := by
    simp [noneOpen, Kernel.fds, setState, Kernel.zero, Process.zero]
  rw [oneOpen, fds_setFd, Function.update_apply, hnone]

theorem oneOpen_own : OwnObjects oneOpen := by
  have hfd : ∀ g h, oneOpen.fds g = some h → g = 3 ∧ h = firstObject := by
    intro g h hg
    rw [oneOpen_fds] at hg
    split at hg
    · next hg3 => exact ⟨hg3, (Option.some.inj hg).symm⟩
    · cases hg
  refine ⟨fun g h hg => ?_, fun g g' h hg hg' => (hfd g h hg).1.trans (hfd g' h hg').1.symm⟩
  rw [(hfd g h hg).2]
  exact Finset.mem_singleton_self _

theorem oneOpen_serves (newfd : Int) : Serves sameObject (.dup2 3 newfd) oneOpen := by
  intro fd h _ hfd
  rw [oneOpen_fds] at hfd
  split at hfd
  · obtain rfl := Option.some.inj hfd
    have hp : (Heap.kmalloc Heap.countingPager
        (Heap.heapInit Heap.countingPager (fun _ => 0) 20) vfsFileSize).1 = firstObject := by decide
    have hr := Heap.Reaches.kmalloc vfsFileSize
      (Heap.Reaches.init (fun _ => 0) 20 (by decide) : Heap.Reaches Heap.countingPager _ _) (by decide)
      (by decide)
    rw [hp, if_neg (by decide)] at hr
    refine ⟨Nat, Heap.countingPager, _, _, hr, List.mem_singleton_self _, fun a ha => ⟨vfsFileSize, ?_⟩,
      by decide +kernel⟩
    rw [Finset.mem_singleton.mp ha]
    exact List.mem_singleton_self _
  · cases hfd

theorem dup_to_copies_oneOpen :
    Duplicates oneOpen 3 4 (fdDupTo sameObject 3 4 oneOpen).1 (fdDupTo sameObject 3 4 oneOpen).2 :=
  (dup_to_copies_iff oneOpen_own (oneOpen_serves 4)).mpr (Or.inl (by decide))

/-- A `dup2` of the descriptor onto itself loses the file and the position. -/
theorem dup_onto_itself : ¬ ∀ k ans oldfd newfd, OwnObjects k → Serves ans (.dup2 oldfd newfd) k →
    Duplicates k oldfd newfd (fdDupTo ans oldfd newfd k).1 (fdDupTo ans oldfd newfd k).2 := by
  intro hall
  have hdup := hall oneOpen sameObject 3 3 oneOpen_own (oneOpen_serves 3)
  have hfd : oneOpen.fds 3 = some firstObject := by rw [oneOpen_fds, if_pos rfl]
  have hthree : toFd 3 = some 3 := rfl
  rcases fdDupTo_target oneOpen_own (oneOpen_serves 3) hthree hfd hthree (by decide) with
    ⟨-, hne⟩ | ⟨hr, hcopy, -⟩
  · exact hne rfl
  · rw [hr] at hdup
    obtain ⟨-, src, dst, hs, hd, -, hto, -⟩ := hdup.copied (by decide)
    obtain rfl : (3 : Fd) = dst := Option.some.inj hd
    obtain rfl : (3 : Fd) = src := Option.some.inj hs
    rw [hcopy, if_pos rfl, described, hfd] at hto
    exact absurd (Option.some.inj hto) (by decide)

end TypeOS.Proc
