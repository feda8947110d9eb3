import TypeOS.Proc.Fill

/-! The counters of a pipe are exact in every run that stays clear of the four calls that lose count.

    `SYS_close` is the only way to drop a descriptor that takes its end off the counter. A `dup2` onto
    an open pipe end, an `exec` with pipe ends above 2, an exit with pipe ends and a fork that fails
    after it has copied one all drop ends without it. Call by call: without these the counters stay
    equal to the number of descriptors. -/

namespace TypeOS.Proc

open Kernel

variable {k k' : Kernel} {t : Tid} {fd : Fd} {h src dst : Handle} {file : VfsFile} {ans : Answers}

theorem countEnd_eq (file : VfsFile) (k : Kernel) :
    ∃ pipes, countEnd file k = { k with pipes := pipes } ∧ ∀ p,
      (pipes p).inUse = (k.pipes p).inUse ∧ (pipes p).count = (k.pipes p).count ∧
      (pipes p).readers = (k.pipes p).readers + unit file p 0 ∧
      (pipes p).writers = (k.pipes p).writers + unit file p 1 := by
  cases hp : file.pipe with
  | none => exact ⟨k.pipes, by simp [countEnd, hp], by simp [unit, VfsFile.end, hp]⟩
  | some q =>
    have hother : ∀ p, p ≠ q → ∀ e, unit file p e = 0 := by
      intro p hne e
      simp [unit, VfsFile.end, hp, Ne.symm hne]
    by_cases h0 : file.pipeEnd = 0
    · refine ⟨_, by simp only [countEnd, hp, h0, if_true]; rfl, fun p => ?_⟩
      by_cases hne : p = q
      · subst hne
        simp [unit, VfsFile.end, hp, h0]
      · simp [Function.update_of_ne hne, hother p hne]
    · by_cases h1 : file.pipeEnd = 1
      · refine ⟨_, by simp only [countEnd, hp, h1, if_true]; rfl, fun p => ?_⟩
        by_cases hne : p = q
        · subst hne
          simp [unit, VfsFile.end, hp, h1]
        · simp [Function.update_of_ne hne, hother p hne]
      · refine ⟨k.pipes, by simp [countEnd, hp, h0, h1], fun p => ?_⟩
        simp [unit, VfsFile.end, h0, h1]

theorem held_fds (hl : (k.tasks k.currentTask).Live) {f : Fd} (hg : k.fds f = some h) :
    held k (k.currentTask, f) = some h := held_some.mpr ⟨hl, hg⟩

/-- A file that a live descriptor holds is the end of a pipe in use. -/
theorem Exact.held_end (e : Exact k) {x : Tid × Fd} (hx : held k x = some h) {p : PipeId}
    (hp : (k.files h).pipe = some p) :
    (((k.files h).pipeEnd = 0 ∨ (k.files h).pipeEnd = 1) ∧ (k.files h).path = "") ∧
      (k.pipes p).inUse = true := by
  refine ⟨e.ends x h p hx hp, ?_⟩
  by_contra hf
  have hend : openEnd k x = some (p, (k.files h).pipeEnd) :=
    openEnd_some.mpr ⟨h, hx, VfsFile.end_some.mpr ⟨hp, rfl⟩⟩
  exact e.free p (by simpa using hf) x _ hend

/-- A copy of a descriptor in an empty slot of a live task. -/
theorem Exact.copy (e : Exact k) {x : Tid × Fd} (hs : held k x = some src)
    (hl : (k.tasks t).Live) (hn : (k.tasks t).fds fd = none) (hd : dst ∉ k.live)
    {k₁ : Kernel} (ht : k₁.tasks = (k.setFd t fd (some dst)).tasks)
    (hf : k₁.files src = k.files src ∧ ∀ g, g ≠ dst → k₁.files g = k.files g)
    (hv : k₁.live = insert dst k.live) (hp : k₁.pipes = k.pipes) : Exact (copyFile src dst k₁) := by
  obtain ⟨pipes, heq, hpipes⟩ := countEnd_eq (k₁.files src) (k₁.setFile dst (k₁.files src))
  rw [copyFile, heq]
  rw [hf.1] at hpipes ⊢
  refine e.install (k.files src) hl hn hd (fun p hp => e.held_end hs hp) ht ?_ hv fun p => ?_
  · funext g
    by_cases hg : g = dst
    · subst hg
      simp [setFile]
    · simp [setFile, Function.update_of_ne hg, hf.2 g hg]
  · have hk : (k₁.setFile dst (k.files src)).pipes = k.pipes := hp
    rw [hk] at hpipes
    exact ⟨(hpipes p).1, (hpipes p).2.2⟩

theorem Exact.fresh (e : Exact k) (hl : (k.tasks k.currentTask).Live) (hn : k.fds fd = none)
    (hh : h ∉ k.live) : Exact (Proc.install k.currentTask fd h VfsFile.fresh k) :=
  e.install VfsFile.fresh hl hn hh (by simp [VfsFile.fresh]) rfl rfl rfl
    (by simp [unit, VfsFile.end, VfsFile.fresh, Proc.install, setFd, setFile])

/-! ### dup, dup2, fcntl -/

theorem Exact.prepared (e : Exact k) (hl : (k.tasks k.currentTask).Live) {x : Tid × Fd}
    (hs : held k x = some src) (c : Prepared k fd dst k') : Exact (copyFile src dst k') :=
  e.copy hs hl c.empty c.fresh c.tasks ⟨c.files src fun hc => c.fresh (hc ▸ e.live _ _ hs), c.files⟩
    c.live c.pipes

theorem Exact.dup (e : Exact k) (hl : (k.tasks k.currentTask).Live) {oldfd : Int} :
    Exact (fdDupTo ans oldfd (-1) k).2 := by
  rcases @dup_cases k ans oldfd (-1) (by decide) with ⟨r, -, hc⟩ | ⟨f, src, fd, dst, k', -, hf, c, hc⟩ <;>
    rw [hc]
  · exact e
  · exact e.prepared hl (held_fds hl hf) c

theorem Exact.dupFrom (e : Exact k) (hl : (k.tasks k.currentTask).Live) {oldfd minfd : Int} :
    Exact (fdDupFrom ans oldfd minfd k).2 := by
  rcases dupFrom_cases ans oldfd minfd k with ⟨r, hc⟩ | ⟨f, src, fd, dst, k', hf, c, hc⟩ <;> rw [hc]
  · exact e
  · exact e.prepared hl (held_fds hl hf) c

/-- A held object that is no pipe end is dropped without a count to take off. -/
theorem Exact.release_plain (e : Exact k) (freed : VfsFile) (hx : held k (t, fd) = some h)
    (hp : (k.files h).pipe = none) : Exact (Proc.release t fd h freed k) :=
  e.release freed hx rfl rfl rfl (fun _ hu => hu)
    (by simp [unit, VfsFile.end, hp, Proc.release, setFd, setFile])
    (fun p hu hf => by simp [Proc.release, setFd, setFile, hu] at hf)

/-- A `dup2` onto a closed slot, or onto an open one that is no pipe end and not the source, when the
    heap then has memory for the copy. -/
theorem Exact.dupTo (e : Exact k) (hl : (k.tasks k.currentTask).Live) {oldfd newfd : Int} (h0 : 0 ≤ newfd)
    (hm : ∀ f h, toFd newfd = some f → k.fds f = some h → fdGet oldfd k ≠ none →
      (k.files h).pipe = none ∧ oldfd ≠ newfd ∧
        ∃ a, ans.kmalloc 0 = some a ∧ a ∉ k.live.erase h) :
    Exact (fdDupTo ans oldfd newfd k).2 := by
  rcases dupTo_cases h0 fun fd h hn hfd hg => (hm fd h hn hfd hg).2.2 with
    ⟨r, -, hc⟩ | ⟨f, src, fd, dst, k₀, k', hof, hf, hn, c, hc, hk⟩ <;> rw [hc]
  · exact e
  have hsrc := held_fds hl hf
  rcases hk with rfl | ⟨h, hfd, rfl⟩
  · exact e.prepared hl hsrc c
  · obtain ⟨hpipe, hne, -⟩ := hm fd h hn hfd (by
      rw [fdGet, hof, Option.bind_some, hf]
      exact Option.some_ne_none _)
    -- the source is another descriptor, so its object is still there
    have hfne : f ≠ fd := by
      rintro rfl
      exact hne ((toFd_val hof).symm.trans (toFd_val hn))
    have hsrc' : held (Proc.release k.currentTask fd h ans.freed k) (k.currentTask, f) = some src := by
      rw [held_release hl, Function.update_of_ne (by simp [hfne])]
      exact hsrc
    exact (e.release_plain ans.freed (held_fds hl hfd) hpipe).prepared
      ((setFd_live k.currentTask none).mpr hl) hsrc' c

/-! ### open, pipe, close -/

theorem Exact.openPath (e : Exact k) (hl : (k.tasks k.currentTask).Live) {path : String}
    {node : Option Nat} : Exact (sysOpenPath ans path node k).2 := by
  unfold sysOpenPath
  rcases fdAlloc_cases (ans.kmalloc 0) k with hm | ⟨fd, h, hn, hh, hm⟩ <;> rw [hm]
  · exact e
  · have hi := e.fresh hl hn hh
    have hx : held (Proc.install k.currentTask fd h VfsFile.fresh k) (k.currentTask, fd) = some h := by
      rw [held_install hl, Function.update_self]
    have hfile : (Proc.install k.currentTask fd h VfsFile.fresh k).files h = VfsFile.fresh :=
      Function.update_self ..
    -- another file that is no pipe end in place of the fresh one
    have hset : ∀ file : VfsFile, file.pipe = none →
        Exact ((Proc.install k.currentTask fd h VfsFile.fresh k).setFile h file) := by
      intro file hp
      refine e.install file hl hn hh (by simp [hp]) rfl ?_ rfl
        (by simp [unit, VfsFile.end, hp, Proc.install, setFd, setFile])
      simp [Proc.install, setFile, setFd]
    dsimp only
    split
    · exact hset _ rfl
    · cases node with
      | none => exact hi.release_plain ans.freed hx (by rw [hfile]; rfl)
      | some inode => exact hset _ (by rw [hfile]; rfl)

/-- A pipe out of use stays so, or comes into use with its counters at 0. -/
theorem Exact.onPipe_unused (e : Exact k) {p : PipeId} (hu : (k.pipes p).inUse = false) (q : Pipe)
    (hq : q.inUse = true → q.readers = 0 ∧ q.writers = 0) : Exact (k.onPipe p fun _ => q) := by
  have hends : openEnd (k.onPipe p fun _ => q) = openEnd k := openEnd_congr rfl fun _ _ _ => rfl
  have hpipe : ∀ p', p' ≠ p → (k.onPipe p fun _ => q).pipes p' = k.pipes p' :=
    fun p' hne => onPipe_pipes_ne hne ..
  refine ⟨e.toOwned.congr rfl (Finset.Subset.refl _) fun _ _ _ => rfl, fun p' hp' => ?_,
    fun p' hp' => ?_, fun p' hp' => ?_⟩
  · rw [readEnds, hends]
    by_cases hne : p' = p
    · subst hne
      rw [onPipe_pipes_self] at hp' ⊢
      rw [(hq hp').1]
      exact (count_eq_zero.mpr fun x => e.free p' hu x 0).symm
    · rw [hpipe p' hne] at hp' ⊢
      exact e.readers p' hp'
  · rw [writeEnds, hends]
    by_cases hne : p' = p
    · subst hne
      rw [onPipe_pipes_self] at hp' ⊢
      rw [(hq hp').2]
      exact (count_eq_zero.mpr fun x => e.free p' hu x 1).symm
    · rw [hpipe p' hne] at hp' ⊢
      exact e.writers p' hp'
  · rw [hends]
    by_cases hne : p' = p
    · subst hne
      exact e.free p' hu
    · rw [hpipe p' hne] at hp'
      exact e.free p' hp'

/-- A pipe whose counters are 0 has no descriptor and can be freed. -/
theorem Exact.pipeFree (e : Exact k) {p : PipeId} (hr : (k.pipes p).readers = 0)
    (hw : (k.pipes p).writers = 0) : Exact (procPipeFree p k) := by
  cases hu : (k.pipes p).inUse with
  | false => exact e.onPipe_unused hu _ fun _ => ⟨hr, hw⟩
  | true =>
    have hpipe : ∀ p', p' ≠ p → (procPipeFree p k).pipes p' = k.pipes p' :=
      fun p' hne => onPipe_pipes_ne hne ..
    have hself : ((procPipeFree p k).pipes p).inUse = false := by simp [procPipeFree]
    refine ⟨e.toOwned.congr rfl (Finset.Subset.refl _) fun _ _ _ => rfl, fun p' hp' => ?_,
      fun p' hp' => ?_, fun p' hp' x b hb => ?_⟩
    · have hne : p' ≠ p := by rintro rfl; simp [hself] at hp'
      rw [hpipe p' hne] at hp' ⊢
      exact e.readers p' hp'
    · have hne : p' ≠ p := by rintro rfl; simp [hself] at hp'
      rw [hpipe p' hne] at hp' ⊢
      exact e.writers p' hp'
    · by_cases hne : p' = p
      · subst hne
        exact e.no_end ((e.readers p' hu).symm.trans hr) ((e.writers p' hu).symm.trans hw) x b hb
      · rw [hpipe p' hne] at hp'
        exact e.free p' hp' x b hb

/-- What was given back is as it was. -/
theorem Exact.returned (e : Exact k) {p : PipeId} (hr : Returned k k' p) : Exact k' := by
  have hunused := e.onPipe_unused hr.free (k'.pipes p) fun hu => by
    rw [hr.pipe] at hu
    cases hu
  refine hunused.congr (held_congr hr.tasks) hr.live.ge (fun x h hx => hr.files h (e.live x h hx))
    fun q => ?_
  by_cases hq : q = p
  · subst hq
    rw [onPipe_pipes_self]
    exact ⟨rfl, rfl, rfl⟩
  · rw [onPipe_pipes_ne hq, hr.pipes q hq]
    exact ⟨rfl, rfl, rfl⟩

theorem unit_pipeFile (p q : PipeId) (e b : Int) :
    unit (pipeFile p e) q b = if p = q ∧ e = b then 1 else 0 := by
  simp [unit, VfsFile.end, pipeFile]

/-- One end of a pipe in use in an empty slot, where it is counted. -/
theorem Exact.installEnd (e : Exact k) {p : PipeId} {b : Int} (hl : (k.tasks t).Live)
    (hn : (k.tasks t).fds fd = none) (hh : h ∉ k.live) (hb : b = 0 ∨ b = 1)
    (hu : (k.pipes p).inUse = true) {f : Pipe → Pipe} (hf : (f (k.pipes p)).inUse = true ∧
      (f (k.pipes p)).readers = (k.pipes p).readers + (if b = 0 then 1 else 0) ∧
      (f (k.pipes p)).writers = (k.pipes p).writers + if b = 1 then 1 else 0) :
    Exact ((Proc.install t fd h (pipeFile p b) k).onPipe p f) := by
  refine e.install (pipeFile p b) hl hn hh (fun q hq => ?_) rfl rfl rfl fun q => ?_
  · obtain rfl : p = q := by simpa [pipeFile] using hq
    exact ⟨⟨hb, rfl⟩, hu⟩
  · rw [unit_pipeFile, unit_pipeFile]
    by_cases hq : q = p
    · subst hq
      rw [onPipe_pipes_self, show (Proc.install t fd h (pipeFile q b) k).pipes = k.pipes from rfl]
      simpa [hu] using hf
    · rw [onPipe_pipes_ne hq, if_neg fun hc => hq hc.1.symm, if_neg fun hc => hq hc.1.symm]
      exact ⟨rfl, rfl, rfl⟩

/-- The two ends of a new pipe. -/
theorem Exact.connect (e : Exact k) (hl : (k.tasks k.currentTask).Live) {p : PipeId} {rfd wfd : Fd}
    {rf wf : Handle} (ht : TakesPipe k p rfd wfd rf wf) : Exact (Proc.connect p rfd wfd rf wf k) := by
  have e₁ := e.onPipe_unused ht.free { Pipe.zero with inUse := true } fun _ => ⟨rfl, rfl⟩
  have hpipe : (k.onPipe p fun _ => { Pipe.zero with inUse := true }).pipes p =
      { Pipe.zero with inUse := true } := onPipe_pipes_self ..
  have e₂ := e₁.installEnd (p := p) (b := 0) (f := fun q => { q with readers := 1 }) hl ht.first.empty
    ht.fresh.1 (Or.inl rfl) (by rw [hpipe]) (by rw [hpipe]; exact ⟨rfl, rfl, rfl⟩)
  rw [Proc.connect]
  refine e₂.installEnd ((setFd_live k.currentTask (some rf)).mpr hl) (ht.empty_second (pipeFile p 0))
    ht.fresh_second (Or.inr rfl) ?_ ?_
  · rw [onPipe_pipes_self]
    exact congrArg Pipe.inUse hpipe
  · rw [onPipe_pipes_self]
    exact ⟨congrArg Pipe.inUse hpipe, rfl, (congrArg Pipe.writers hpipe).symm ▸ rfl⟩

theorem Exact.sysPipe (e : Exact k) (hl : (k.tasks k.currentTask).Live) {ufdOk : Bool} :
    Exact (sysPipe ans ufdOk k).2 := by
  rcases sysPipe_cases ans ufdOk k with ⟨-, heq | ⟨p, hr⟩⟩ | ⟨p, rfd, wfd, rf, wf, ht, heq⟩
  · rw [heq]
    exact e
  · exact e.returned hr
  · rw [heq]
    exact e.connect hl ht

/-- `SYS_close` takes the end off its counter. -/
theorem uncountEnd_spec (q : Pipe) {p : PipeId} (hp : file.pipe = some p)
    (he : file.pipeEnd = 0 ∨ file.pipeEnd = 1) (hr : file.pipeEnd = 0 → 0 < q.readers)
    (hw : file.pipeEnd = 1 → 0 < q.writers) :
    (uncountEnd file q).inUse = q.inUse ∧
      q.readers = (uncountEnd file q).readers + unit file p 0 ∧
      q.writers = (uncountEnd file q).writers + unit file p 1 := by
  rcases he with h0 | h1
  · have := hr h0
    simp [uncountEnd, unit, VfsFile.end, hp, h0, this]
    omega
  · have := hw h1
    simp [uncountEnd, unit, VfsFile.end, hp, h1, this]
    omega

theorem closeEnd_rest {p : PipeId} (hp : (k.files h).pipe = some p) :
    (closeEnd h k).tasks = k.tasks ∧ (closeEnd h k).files = k.files ∧
      (closeEnd h k).live = k.live ∧ (closeEnd h k).currentTask = k.currentTask := by
  simp only [closeEnd, hp]
  split <;> exact ⟨rfl, rfl, rfl, rfl⟩

/-- The pipe that loses an end has the counters that are left and is freed when they are 0. -/
theorem closeEnd_self {p : PipeId} (hp : (k.files h).pipe = some p) :
    ((closeEnd h k).pipes p).readers = (uncountEnd (k.files h) (k.pipes p)).readers ∧
    ((closeEnd h k).pipes p).writers = (uncountEnd (k.files h) (k.pipes p)).writers ∧
    (((closeEnd h k).pipes p).inUse = (uncountEnd (k.files h) (k.pipes p)).inUse ∨
      ((closeEnd h k).pipes p).readers = 0 ∧ ((closeEnd h k).pipes p).writers = 0) := by
  simp only [closeEnd, hp, onPipe_pipes_self]
  split
  · next hz => simp [procPipeFree, hz]
  · simp

theorem closeEnd_other {p p' : PipeId} (hp : (k.files h).pipe = some p) (hne : p' ≠ p) :
    (closeEnd h k).pipes p' = k.pipes p' := by
  simp only [closeEnd, hp]
  split
  · rw [procPipeFree, onPipe_pipes_ne hne, onPipe_pipes_ne hne]
  · rw [onPipe_pipes_ne hne]

theorem Exact.close (e : Exact k) (hl : (k.tasks k.currentTask).Live) {n : Int} :
    Exact (sysClose ans n k).2 := by
  rcases sysClose_cases ans n k with hc | ⟨fd, h, -, hfd, hc⟩ <;> rw [hc]
  · exact e
  have hx := held_fds hl hfd
  cases hp : (k.files h).pipe with
  | none =>
    rw [closeEnd_plain hp]
    exact e.release_plain ans.freed hx hp
  | some p =>
    obtain ⟨⟨he, -⟩, hu⟩ := e.held_end hx hp
    have hend : ∀ b, (k.files h).pipeEnd = b → openEnd k (k.currentTask, fd) = some (p, b) :=
      fun b hb => openEnd_some.mpr ⟨h, hx, VfsFile.end_some.mpr ⟨hp, hb⟩⟩
    obtain ⟨hin, hread, hwrite⟩ := uncountEnd_spec (k.pipes p) hp he
      (fun h0 => by rw [e.readers p hu]; exact count_pos.mpr ⟨_, hend 0 h0⟩)
      (fun h1 => by rw [e.writers p hu]; exact count_pos.mpr ⟨_, hend 1 h1⟩)
    obtain ⟨htasks, hfiles, hlive, hcur⟩ := closeEnd_rest hp
    obtain ⟨hr, hw, hfree⟩ := closeEnd_self hp
    refine e.release ans.freed hx ?_ ?_ ?_ (fun p' hp' => ?_) (fun p' hp' => ?_)
      (fun p' hp' hf => ?_)
    · simp only [setFd, onTask, kfree, htasks]
    · simp only [setFd, onTask_files, kfree, hfiles]
    · simp only [setFd, onTask_live, kfree, hlive]
    · by_cases hne : p' = p
      · exact hne ▸ hu
      · simp only [setFd, onTask_pipes, kfree, closeEnd_other hp hne] at hp'
        exact hp'
    · simp only [setFd, onTask_pipes, kfree]
      by_cases hne : p' = p
      · subst hne
        rw [hr, hw]
        exact ⟨hread, hwrite⟩
      · have hunit : ∀ b, unit (k.files h) p' b = 0 := by
          intro b
          simp [unit, VfsFile.end, hp, Ne.symm hne]
        rw [closeEnd_other hp hne, hunit, hunit]
        exact ⟨rfl, rfl⟩
    · simp only [setFd, onTask_pipes, kfree] at hf ⊢
      by_cases hne : p' = p
      · subst hne
        rcases hfree with hin' | hz
        · rw [hin', hin, hp'] at hf
          simp at hf
        · exact hz
      · rw [closeEnd_other hp hne, hp'] at hf
        simp at hf

/-! ### exec, exit, wait -/

theorem closeSlot_eq (freed : VfsFile) (hfd : k.fds fd = some h) :
    closeSlot freed k fd = Proc.release k.currentTask fd h freed k := by
  simp [closeSlot, hfd, kfree, vfsClose, setFd, setFile, onTask, Proc.release]

/-- `proc_fd_close_all` over a table whose slots in question are no pipe ends. -/
theorem Exact.closeSlots (freed : VfsFile) (l : List Fd) : ∀ {k : Kernel}, Exact k →
    (k.tasks k.currentTask).Live → (∀ fd ∈ l, openEnd k (k.currentTask, fd) = none) →
    Exact (l.foldl (closeSlot freed) k) ∧ (l.foldl (closeSlot freed) k).currentTask = k.currentTask ∧
      ((l.foldl (closeSlot freed) k).tasks k.currentTask).Live := by
  induction l with
  | nil => exact fun e hl _ => ⟨e, rfl, hl⟩
  | cons fd l ih =>
    intro k e hl hn
    rw [List.foldl_cons]
    cases hfd : k.fds fd with
    | none =>
      have : closeSlot freed k fd = k := by simp [closeSlot, hfd]
      rw [this]
      exact ih e hl fun g hg => hn g (List.mem_cons_of_mem _ hg)
    | some h =>
      have hx := held_fds hl hfd
      have hp : (k.files h).pipe = none := by
        have := hn fd (List.mem_cons_self ..)
        rw [openEnd, hx, Option.bind_some] at this
        simpa [VfsFile.end] using this
      rw [closeSlot_eq freed hfd]
      refine ih (e.release_plain freed hx hp) ((setFd_live k.currentTask none).mpr hl) fun g hg => ?_
      have hg := hn g (List.mem_cons_of_mem _ hg)
      change openEnd (Proc.release k.currentTask fd h freed k) (k.currentTask, g) = none
      rw [e.openEnd_release hx]
      by_cases hgf : g = fd
      · subst hgf
        rw [Function.update_self]
      · rw [Function.update_of_ne (by simp [hgf])]
        exact hg

/-- Stores to the other fields of a slot. -/
theorem Exact.store (e : Exact k) (t : Tid) (f : Process → Process)
    (hf : ∀ p, (f p).state = p.state ∧ (f p).fds = p.fds) : Exact (k.onTask t f) :=
  e.forget (fun x => Or.inl (congrFun
    (held_onTask (by simp [Process.Live, (hf _).1]) fun _ => (hf _).2) x)) rfl rfl rfl

theorem Exact.exec (e : Exact k) (hl : (k.tasks k.currentTask).Live) {found : Bool}
    (hn : found = true → ∀ fd : Fd, 3 ≤ fd.val → openEnd k (k.currentTask, fd) = none) :
    Exact (procExec ans found k).2 := by
  unfold procExec
  split
  · next hfound =>
    obtain ⟨e₁, hcur, hl₁⟩ := e.closeSlots ans.freed
      ((List.finRange procMaxFd).filter fun fd => 3 ≤ fd.val) hl
      (fun fd hfd => hn hfound fd (by simpa using (List.mem_filter.mp hfd).2))
    change Exact (procFdCloseAll ans.freed k) at e₁
    generalize procFdCloseAll ans.freed k = k₁ at e₁ hcur hl₁
    have e₂ : Exact (if ans.cloneCr3 = 0 then k₁
        else { k₁.onTask k₁.currentTask fun p => { p with cr3 := ans.cloneCr3 } with
          pml4 := ans.cloneCr3 }) := by
      split
      · exact e₁
      · exact (e₁.store k₁.currentTask (fun p => { p with cr3 := ans.cloneCr3 })
          fun p => ⟨rfl, rfl⟩).forget (fun x => Or.inl rfl) rfl rfl rfl
    dsimp only
    generalize (if ans.cloneCr3 = 0 then k₁
        else { k₁.onTask k₁.currentTask fun p => { p with cr3 := ans.cloneCr3 } with
          pml4 := ans.cloneCr3 }) = k₂ at e₂
    have e₃ := e₂.store k₂.currentTask (fun p => { p with brk := userBrkStart, fsBase := 0 })
      fun p => ⟨rfl, rfl⟩
    rcases ans.image with _ | ⟨entry, stack⟩
    · exact e₃
    · dsimp only
      exact e₃.store _ _ fun p => ⟨rfl, rfl⟩
  · exact e

/-- Waking the parent changes a live state to a live state. -/
theorem held_procWakeParent : held (procWakeParent k) = held k := by
  unfold procWakeParent
  split
  · rfl
  · split
    · next t _ hb => exact held_onTask (by simp [Process.Live, hb]) fun _ => rfl
    · rfl

theorem procWakeParent_rest (k : Kernel) : (procWakeParent k).files = k.files ∧
    (procWakeParent k).live = k.live ∧ (procWakeParent k).pipes = k.pipes := by
  unfold procWakeParent
  split
  · exact ⟨rfl, rfl, rfl⟩
  · split <;> exact ⟨rfl, rfl, rfl⟩

theorem Exact.exit (e : Exact k) {status : Int}
    (hn : ∀ fd, openEnd k (k.currentTask, fd) = none) : Exact (exitCurrent status k) := by
  obtain ⟨hf, hv, hp⟩ := procWakeParent_rest
    (k.onTask k.currentTask fun p => { p with exitStatus := status, state := .zombie })
  refine e.forget (fun x => ?_) hf hv hp
  rw [exitCurrent, held_procWakeParent]
  obtain ⟨t, fd⟩ := x
  by_cases ht : t = k.currentTask
  · subst ht
    exact Or.inr ⟨by simp [held, Process.Live], hn fd⟩
  · exact Or.inl (by rw [held, held, onTask_tasks_ne ht])

theorem Exact.wait (e : Exact k) {pid : Int} : Exact (procForkTakeStatus pid k).2 := by
  unfold procForkTakeStatus
  split
  · exact e
  · next t ht =>
    have hz : (k.tasks t).state = .zombie := by
      have := firstSlot_some ht
      simp only [decide_eq_true_eq] at this
      exact this.1
    have hheld : held (k.setState t .unused) = held k :=
      held_onTask (by simp [Process.Live, hz]) fun h => absurd hz h.2
    exact e.forget (fun x => Or.inl (congrFun hheld x)) rfl rfl rfl

/-! ### read and write -/

theorem Pipe.read_ends (n : Nat) : ∀ q : Pipe, (q.read n).2.inUse = q.inUse ∧
    (q.read n).2.readers = q.readers ∧ (q.read n).2.writers = q.writers := by
  induction n with
  | zero => exact fun q => ⟨rfl, rfl, rfl⟩
  | succ n ih =>
    intro q
    rw [Pipe.read]
    split
    · exact ih _
    · exact ⟨rfl, rfl, rfl⟩

theorem Pipe.write_ends (bytes : List UInt8) : ∀ q : Pipe, (q.write bytes).2.inUse = q.inUse ∧
    (q.write bytes).2.readers = q.readers ∧ (q.write bytes).2.writers = q.writers := by
  induction bytes with
  | nil => exact fun q => ⟨rfl, rfl, rfl⟩
  | cons b bytes ih =>
    intro q
    rw [Pipe.write]
    split
    · exact ih _
    · exact ⟨rfl, rfl, rfl⟩

/-- Bytes that go in or out of a pipe leave its ends alone. -/
theorem Exact.bytes (e : Exact k) {p : PipeId} {q : Pipe} (hu : q.inUse = (k.pipes p).inUse)
    (hr : q.readers = (k.pipes p).readers) (hw : q.writers = (k.pipes p).writers) :
    Exact (k.onPipe p fun _ => q) := by
  refine e.congr rfl (Finset.Subset.refl _) (fun _ _ _ => rfl) fun p' => ?_
  by_cases hp : p' = p
  · subst hp
    simp [hu, hr, hw]
  · simp [onPipe_pipes_ne hp]

theorem held_schedWakeAll : held (schedWakeAll k) = held k := by
  funext x
  by_cases hb : (k.tasks x.1).state = .blocked
  · simp [held, schedWakeAll, hb, Process.Live]
  · simp [held, schedWakeAll, hb]

theorem Exact.readTurn (e : Exact k) (p : PipeId) (n : Nat) (buf : UserBuf) :
    Exact (pipeReadTurn p n buf k).2 := by
  obtain ⟨hu, hr, hw⟩ := Pipe.read_ends n (k.pipes p)
  unfold pipeReadTurn
  dsimp only
  split
  · exact e.bytes hu hr hw
  · split <;> exact e.bytes hu hr hw

theorem Exact.writeTurn (e : Exact k) (p : PipeId) (buf : UserBuf) (n : Nat) :
    Exact (pipeWriteTurn p buf n k).2 := by
  obtain ⟨hu, hr, hw⟩ := Pipe.write_ends (chunk buf n) (k.pipes p)
  have e₁ := e.bytes hu hr hw
  unfold pipeWriteTurn
  split
  · split
    · dsimp only
      split
      · exact e₁.forget (fun x => Or.inl (congrFun held_schedWakeAll x)) rfl rfl rfl
      · split <;> exact e₁
    · exact e
  · exact e

/-! ### fork -/

/-- The heap grants the n-th request of a call. -/
def Granted (ans : Answers) (k : Kernel) (n : Nat) : Prop :=
  ∃ a, ans.kmalloc n = some a ∧ a ∉ k.live ∧ ∀ m < n, ans.kmalloc m ≠ some a

/-- What holds while `proc_fork` copies descriptors, `d` of them done: the child's pipe ends are the
    parent's, and what is allocated since the call began answers its requests. -/
structure Forking (ans : Answers) (k₀ : Kernel) (child : Tid) (d : List Fd) (k : Kernel) : Prop where
  exact : Exact k
  parentLive : (k.tasks k₀.currentTask).Live
  childLive : (k.tasks child).Live
  ne : child ≠ k₀.currentTask
  same : (k.tasks k₀.currentTask).fds = k₀.fds
  file : ∀ fd h, k₀.fds fd = some h → k.files h = k₀.files h
  todo : ∀ fd ∉ d, (k.tasks child).fds fd = none
  ends : ∀ fd, openEnd k (child, fd) = none ∨ ∃ h, fd ∈ d ∧ k₀.fds fd = some h ∧ (k₀.files h).pipe ≠ none
  heap : ∀ a ∈ k.live, a ∈ k₀.live ∨ ∃ m, ans.kmalloc m = some a ∧
    (m = 0 ∨ ∃ fd ∈ d, m = fd.val + 1)

theorem copyFile_rest (src dst : Handle) (k : Kernel) : (copyFile src dst k).tasks = k.tasks ∧
    (copyFile src dst k).live = k.live ∧
    (copyFile src dst k).files = Function.update k.files dst (k.files src) := by
  obtain ⟨pipes, heq, -⟩ := countEnd_eq (k.files src) (k.setFile dst (k.files src))
  rw [copyFile, heq]
  exact ⟨rfl, rfl, rfl⟩

/-- One descriptor is copied, or the heap refuses and nothing changes. -/
theorem Forking.step {k₀ : Kernel} {child : Tid} {d : List Fd} (f : Forking ans k₀ child d k)
    (hfd : fd ∉ d) :
    (forkFd ans k₀.currentTask child fd k = (false, k) ∧ k₀.fds fd ≠ none ∧
      kmalloc (ans.kmalloc (fd.val + 1)) k = (none, k)) ∨
    (∃ k', forkFd ans k₀.currentTask child fd k = (true, k') ∧
      Forking ans k₀ child (d ++ [fd]) k') := by
  cases hs : k₀.fds fd with
  | none =>
    refine Or.inr ⟨k, by simp [forkFd, f.same, hs], { f with todo := ?_, ends := ?_, heap := ?_ }⟩
    · exact fun g hg => f.todo g (fun h => hg (List.mem_append_left _ h))
    · intro g
      rcases f.ends g with h | ⟨h, hd, hrest⟩
      · exact Or.inl h
      · exact Or.inr ⟨h, List.mem_append_left _ hd, hrest⟩
    · intro a ha
      rcases f.heap a ha with h | ⟨m, hm, h0 | ⟨g, hg, hmg⟩⟩
      · exact Or.inl h
      · exact Or.inr ⟨m, hm, Or.inl h0⟩
      · exact Or.inr ⟨m, hm, Or.inr ⟨g, List.mem_append_left _ hg, hmg⟩⟩
  | some src =>
    have hsame : (k.tasks k₀.currentTask).fds fd = some src := by rw [f.same, hs]
    have hsrc : held k (k₀.currentTask, fd) = some src := held_some.mpr ⟨f.parentLive, hsame⟩
    rcases kmalloc_cases (ans.kmalloc (fd.val + 1)) k with hm | ⟨dst, ha, hdst, hm⟩
    · exact Or.inl ⟨by simp only [forkFd, hsame, hm], by simp, hm⟩
    let k₁ : Kernel := { k with live := insert dst k.live }.setFd child fd (some dst)
    obtain ⟨htasks, hlive, hfiles⟩ := copyFile_rest src dst k₁
    have hcopy : Exact (copyFile src dst k₁) := f.exact.copy hsrc f.childLive (f.todo fd hfd) hdst rfl
      ⟨rfl, fun _ _ => rfl⟩ rfl rfl
    have hends : openEnd (copyFile src dst k₁) =
        Function.update (openEnd k) (child, fd) (k.files src).end := by
      rw [← f.exact.openEnd_install (h := dst) f.childLive hdst]
      exact openEnd_congr (held_congr htasks) fun x g _ => by rw [hfiles]; rfl
    have hother : (copyFile src dst k₁).tasks k₀.currentTask = k.tasks k₀.currentTask := by
      rw [htasks]
      exact onTask_tasks_ne (Ne.symm f.ne) ..
    refine Or.inr ⟨copyFile src dst k₁, by simp only [forkFd, hsame, hm]; rfl, hcopy, ?_, ?_, f.ne, ?_,
      fun g h hg => ?_, fun g hg => ?_, fun g => ?_, fun a ha' => ?_⟩
    · rw [hother]
      exact f.parentLive
    · rw [htasks]
      exact (setFd_live child (some dst)).mpr f.childLive
    · rw [hother]
      exact f.same
    · have hx : held k (k₀.currentTask, g) = some h :=
        held_some.mpr ⟨f.parentLive, by rw [f.same, hg]⟩
      have hne : h ≠ dst := fun heq => hdst (heq ▸ f.exact.live _ _ hx)
      rw [hfiles, Function.update_of_ne hne]
      exact f.file g h hg
    · have hne : g ≠ fd := fun heq => hg (heq ▸ List.mem_append_right _ (List.mem_singleton_self _))
      rw [htasks]
      simp only [k₁, setFd, onTask_tasks_self, Function.update_of_ne hne]
      exact f.todo g fun h => hg (List.mem_append_left _ h)
    · rw [hends]
      by_cases hg : g = fd
      · subst hg
        rw [Function.update_self, f.file g src hs]
        cases hp : (k₀.files src).pipe with
        | none => exact Or.inl (by simp [VfsFile.end, hp])
        | some p => exact Or.inr ⟨src, by simp, hs, by simp [hp]⟩
      · rw [Function.update_of_ne (by simp [hg])]
        rcases f.ends g with h | ⟨h, hd, hrest⟩
        · exact Or.inl h
        · exact Or.inr ⟨h, List.mem_append_left _ hd, hrest⟩
    · rw [hlive] at ha'
      rcases Finset.mem_insert.mp ha' with rfl | ha'
      · exact Or.inr ⟨_, ha, Or.inr ⟨fd, by simp, rfl⟩⟩
      · rcases f.heap a ha' with h | ⟨m, hm, h0 | ⟨g, hg, hmg⟩⟩
        · exact Or.inl h
        · exact Or.inr ⟨m, hm, Or.inl h0⟩
        · exact Or.inr ⟨m, hm, Or.inr ⟨g, List.mem_append_left _ hg, hmg⟩⟩

/-- A fork that is refused memory only below its first pipe end leaves the counters exact. -/
theorem Forking.loop {k₀ : Kernel} {child : Tid} (hm : ∀ fd fd' h h', fd < fd' → k₀.fds fd = some h →
      (k₀.files h).pipe ≠ none → k₀.fds fd' = some h' → Granted ans k₀ (fd'.val + 1)) (l : List Fd) :
    ∀ {d : List Fd} {k : Kernel}, (d ++ l).Pairwise (· < ·) → Forking ans k₀ child d k →
      ∃ d', Forking ans k₀ child d' (forEach (forkFd ans k₀.currentTask child) l k).2 ∧
        ((forEach (forkFd ans k₀.currentTask child) l k).1 = false →
          ∀ fd, openEnd (forEach (forkFd ans k₀.currentTask child) l k).2 (child, fd) = none) := by
  induction l with
  | nil => exact fun _ f => ⟨_, f, by simp [forEach]⟩
  | cons fd l ih =>
    intro d k hord f
    have hlt : ∀ g ∈ d, g < fd := fun g hg =>
      (List.pairwise_append.mp hord).2.2 g hg fd (List.mem_cons_self ..)
    have hfd : fd ∉ d := fun h => absurd (hlt fd h) (lt_irrefl fd)
    rw [forEach]
    rcases f.step hfd with ⟨heq, hsrc, href⟩ | ⟨k', heq, f'⟩ <;> rw [heq]
    · refine ⟨d, f, fun _ g => ?_⟩
      rcases f.ends g with h | ⟨h, hg, hgs, hp⟩
      · exact h
      · -- a pipe end was copied before, so the heap grants this request
        obtain ⟨src, hsrc⟩ := Option.ne_none_iff_exists'.mp hsrc
        obtain ⟨a, ha, hnot, hfresh⟩ := hm g fd h src (hlt g hg) hgs hp hsrc
        have hlive : a ∉ k.live := by
          intro hin
          rcases f.heap a hin with h | ⟨m, hma, h0 | ⟨g', hg', hmg⟩⟩
          · exact hnot h
          · exact hfresh m (by omega) hma
          · have := Fin.lt_def.mp (hlt g' hg')
            exact hfresh m (by omega) hma
        simp [kmalloc, ha, hlive] at href
    · exact ih (by simpa using hord) f'

/-- A slot is found, emptied and given a kernel stack, or no descriptor changes. -/
theorem procAllocTask_cases (answer : Option Handle) (k : Kernel) :
    (∃ k', procAllocTask answer k = (none, k') ∧ held k' = held k ∧ k'.files = k.files ∧
      k'.live = k.live ∧ k'.pipes = k.pipes) ∨
    ∃ t k' h, procAllocTask answer k = (some t, k') ∧ (k.tasks t).state = .unused ∧
      (k'.tasks t).Live ∧ (k'.tasks t).fds = (fun _ => none) ∧ (∀ u, u ≠ t → k'.tasks u = k.tasks u) ∧
      k'.files = k.files ∧ k'.pipes = k.pipes ∧ k'.currentTask = k.currentTask ∧
      answer = some h ∧ h ∉ k.live ∧ k'.live = insert h k.live := by
  unfold procAllocTask
  split
  · exact Or.inl ⟨k, rfl, rfl, rfl, rfl, rfl⟩
  · next t ht =>
    have hu : (k.tasks t).state = .unused := by simpa using firstSlot_some ht
    have hdead : ¬ (k.tasks t).Live := fun h => h.1 hu
    dsimp only
    generalize hk₁ : ({ k.onTask t fun _ =>
      { Process.zero with pid := k.nextPid, state := .runnable, cr3 := k.pml4 } with
        nextPid := k.nextPid + 1 } : Kernel) = k₁
    have htasks : ∀ u, u ≠ t → k₁.tasks u = k.tasks u := by
      intro u hne
      rw [← hk₁]
      exact Function.update_of_ne hne ..
    have hrest : k₁.files = k.files ∧ k₁.live = k.live ∧ k₁.pipes = k.pipes ∧
        k₁.currentTask = k.currentTask := by rw [← hk₁]; exact ⟨rfl, rfl, rfl, rfl⟩
    have hself : (k₁.tasks t).Live ∧ (k₁.tasks t).fds = fun _ => none := by
      simp [← hk₁, Process.Live, Process.zero]
    rcases kmalloc_cases answer k₁ with hm | ⟨h, ha, hno, hm⟩ <;> rw [hm]
    · refine Or.inl ⟨_, rfl, ?_, hrest.1, hrest.2.1, hrest.2.2.1⟩
      funext x
      by_cases hx : x.1 = t
      · simp [held, hx, setState, Process.Live, hu]
      · rw [held, held, setState, onTask_tasks_ne hx, htasks _ hx]
    · refine Or.inr ⟨t, _, h, rfl, hu, ?_, ?_, fun u hne => ?_, hrest.1, hrest.2.2.1, hrest.2.2.2, ha,
        hrest.2.1 ▸ hno, ?_⟩
      · simpa [Process.Live] using hself.1
      · simpa using hself.2
      · rw [onTask_tasks_ne hne]
        exact htasks u hne
      · simp [hrest.2.1]

theorem Exact.fork (e : Exact k) (hl : (k.tasks k.currentTask).Live)
    (hm : ∀ fd fd' h h', fd < fd' → k.fds fd = some h → (k.files h).pipe ≠ none →
      k.fds fd' = some h' → Granted ans k (fd'.val + 1)) : Exact (procFork ans k).2 := by
  unfold procFork
  dsimp only
  rcases procAllocTask_cases (ans.kmalloc 0) k with ⟨k', heq, hh, hf, hv, hp⟩ |
    ⟨c, k₁, h, heq, hu, hlc, hfds, hother, hf, hp, hcur, ha, -, hv⟩ <;> rw [heq]
  · exact e.forget (fun x => Or.inl (congrFun hh x)) hf hv hp
  have hne : k.currentTask ≠ c := by
    rintro rfl
    exact hl.1 hu
  have hh : held k₁ = held k := by
    funext x
    by_cases hx : x.1 = c
    · simp [held, hx, hfds, Process.Live, hu]
    · rw [held, held, hother _ hx]
  have e₁ : Exact k₁ := e.congr hh (by rw [hv]; exact Finset.subset_insert ..)
    (fun x g _ => by rw [hf]) (fun p => by rw [hp]; exact ⟨rfl, rfl, rfl⟩)
  -- an unused child holds nothing
  have hgone : ∀ k₂ : Kernel, Exact k₂ → (∀ fd, openEnd k₂ (c, fd) = none) →
      Exact (k₂.setState c .unused) := by
    intro k₂ e₂ hn
    refine e₂.forget (fun x => ?_) rfl rfl rfl
    by_cases hx : x.1 = c
    · refine Or.inr ⟨?_, ?_⟩
      · simp [held, hx, setState, Process.Live]
      · rw [← hn x.2, ← hx]
    · exact Or.inl (by rw [held, held, setState, onTask_tasks_ne hx])
  dsimp only
  split
  · exact hgone k₁ e₁ fun fd => by simp [openEnd, held, hfds]
  · generalize hk₂ : (k₁.onTask c fun p =>
      forkSlot k.currentTask (k₁.tasks k.currentTask) p ans.cloneCr3) = k₂
    have e₂ : Exact k₂ := by
      rw [← hk₂]
      exact e₁.store c _ fun p => ⟨rfl, rfl⟩
    have hheld : held k₂ = held k := by
      rw [← hk₂, ← hh]
      exact held_onTask Iff.rfl fun _ => rfl
    have hfiles : k₂.files = k.files := by rw [← hk₂, ← hf]; rfl
    have hcf : (k₂.tasks c).fds = fun _ => none := by
      rw [← hk₂, onTask_tasks_self, ← hfds]
      rfl
    have hparent : k₂.tasks k.currentTask = k.tasks k.currentTask := by
      rw [← hk₂, onTask_tasks_ne hne, hother _ hne]
    have hchild : (k₂.tasks c).Live := by
      rw [← hk₂, onTask_tasks_self]
      exact hlc
    have start : Forking ans k c [] k₂ := by
      refine ⟨e₂, hparent ▸ hl, hchild, Ne.symm hne, by rw [hparent]; rfl, fun fd g _ => by rw [hfiles],
        fun fd _ => by rw [hcf], fun fd => Or.inl (by simp [openEnd, held, hcf]), fun a hin => ?_⟩
      rw [← hk₂, onTask_live, hv] at hin
      rcases Finset.mem_insert.mp hin with rfl | hin
      · exact Or.inr ⟨0, ha, Or.inl rfl⟩
      · exact Or.inl hin
    obtain ⟨d, f, hfail⟩ := start.loop hm (List.finRange procMaxFd) (List.pairwise_lt_finRange _)
    cases hloop : forEach (forkFd ans k.currentTask c) (List.finRange procMaxFd) k₂ with
    | mk ok k₃ =>
      rw [hloop] at f hfail
      cases ok with
      | false => exact hgone k₃ f.exact (hfail rfl)
      | true =>
        have hrun : held (k₃.setState c .runnable) = held k₃ :=
          held_onTask (by simpa [Process.Live] using f.childLive) fun _ => rfl
        exact f.exact.forget (fun x => Or.inl (congrFun hrun x)) rfl rfl rfl

end TypeOS.Proc
