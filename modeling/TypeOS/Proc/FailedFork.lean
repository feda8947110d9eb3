import TypeOS.Heap.Beside
import TypeOS.Proc.Inherit
import TypeOS.Sys.Undo

/-! What a fork that fails leaves behind.

    `proc_fork` takes a task slot, a kernel stack, an address space and an object for each descriptor. Where
    one of the later ones is refused it makes the slot unused again, and gives nothing else back. So a fork
    that fails leaves no trace only if it got no further than the kernel stack, and the heap gave that up
    before it had taken a frame. As for requests for memory, this is about calls whose direct accesses
    land. -/

namespace TypeOS.Proc

open Kernel Paging

/-- The calls of `paging.c` that the kernel's heap makes. -/
def vmPager (im : Image) : Heap.Pager Vm where
  pagingAllocPage := pagingAllocPage
  pagingMapPage s virt phys flags := pagingMapPage im s virt phys (BitVec.ofNat 64 flags)
  pagingFreePage := pagingFreePage

/-- The kernel's heap, and paging behind it. -/
abbrev KernelHeap : Type := Heap.HeapState Vm

/-- The heap has answered the n-th request. -/
def Answers.answered (ans : Answers) (n a : Nat) : Answers :=
  { ans with kmalloc := Function.update ans.kmalloc n (heapAnswer a) }

/-- No part was asked yet. -/
def Answers.none : Answers :=
  { kmalloc := fun _ => Option.none, freed := VfsFile.fresh, cloneCr3 := 0, image := Option.none }

variable (im : Image)

/-- The object for the copy of one descriptor. -/
def askObject (fds : Fd → Option Handle) (fd : Fd) (r : Answers × KernelHeap) : Bool × Answers × KernelHeap :=
  match fds fd with
  | none => (true, r)
  | some _ =>
    let object := Heap.kmalloc (vmPager im) r.2 vfsFileSize
    (object.1 != 0, r.1.answered (fd.val + 1) object.1, object.2)

/-- What `proc_fork` asks for once the heap has answered for the kernel stack, up to the first request that is
    refused: the answers, and what the heap and paging are left as. -/
def askRest (fds : Fd → Option Handle) (stack : Nat × KernelHeap) : Answers × KernelHeap :=
  let ans := Answers.none.answered 0 stack.1
  if stack.1 = 0 then (ans, stack.2)
  else
    match pagingCloneCurrentAddressSpace im stack.2.pager true with
    | (none, s) => (ans, { stack.2 with pager := s })
    | (some root, s) =>
      (forEach (askObject im fds) (List.finRange procMaxFd)
        ({ ans with cloneCr3 := root }, { stack.2 with pager := s })).2

/-- What `proc_fork` asks the heap and paging for. -/
def askFork (k : Kernel) (h : KernelHeap) : Answers × KernelHeap :=
  match firstSlot fun t => (k.tasks t).state = .unused with
  | none => (.none, h)
  | some _ => askRest im k.fds (Heap.kmalloc (vmPager im) h taskKernelStackSize)

/-- `proc_fork`, with the kernel's heap and paging. -/
def procForkWith (k : Kernel) (h : KernelHeap) : Int × Kernel × KernelHeap :=
  let r := askFork im k h
  ((procFork r.1 k).1, (procFork r.1 k).2, r.2)

/-- The free frames, the live allocations, the counts of the pipes and the task slots in use are as before. -/
structure NoTrace (k : Kernel) (h : KernelHeap) (k' : Kernel) (h' : KernelHeap) : Prop where
  frames : freeFrames h'.pager = freeFrames h.pager
  live : k'.live = k.live
  counts : ∀ p, (k'.pipes p).readers = (k.pipes p).readers ∧ (k'.pipes p).writers = (k.pipes p).writers
  tasks : ∀ t, (k.tasks t).state ≠ .unused → k'.tasks t = k.tasks t
  unused : ∀ t, (k.tasks t).state = .unused → (k'.tasks t).state = .unused

/-- There is no frame for the first page that the heap would grow by, or its page table is missing and there
    is no frame for that. -/
def NoFirstPage (h : KernelHeap) : Prop :=
  (pagingAllocPage h.pager).1 = none ∨
    ptOf h.pager.mem h.pager.pml4 h.heapMappedEnd = none ∧ Sys.NoTable im h.pager

/-- The heap has no block for a kernel stack, and cannot grow by a single page. -/
structure StackRefused (h : KernelHeap) : Prop where
  block : ¬ Heap.FreeFor h (Heap.alignUp taskKernelStackSize Heap.heapAlign)
  room : h.heapMappedEnd < kernelHeapLimit
  page : NoFirstPage im h

variable {im} {k k' : Kernel} {ans : Answers} {h h' : KernelHeap} {live : List (Nat × Nat)}
  {bs : List Heap.Block} {tag : Nat → Option Path} {c : Tid} {fd : Fd} {s s' s₁ : Vm} {a f n : Nat}

/-! ### The heap -/

theorem grows_allocPage (s : Vm) : Grows s (pagingAllocPage s).2 := by
  rw [pagingAllocPage]
  split
  · exact fun _ hf => hf
  · exact grows_bitmapSet s _

/-- A frame that was free before may be given back. -/
theorem grows_freePage (h : Grows s s') (hfree : bitmapTest s f = false) :
    Grows s (pagingFreePage s' (f * pageSize)) := by
  intro g hg
  have hne : g ≠ f * pageSize / pageSize := by
    rw [frame_div f]
    rintro rfl
    rw [hfree] at hg
    cases hg
  rw [(pagingFreePage_eq s' (f * pageSize)).2.2.2 g hne]
  exact h g hg

/-- A turn of `heap_map_more` gives back no frame but one it took. -/
theorem grows_heapMapPage (im : Image) (h : KernelHeap) :
    Grows h.pager (Heap.heapMapPage (vmPager im) h).2.pager := by
  have hg := grows_allocPage h.pager
  unfold Heap.heapMapPage
  simp only [vmPager]
  rcases ha : pagingAllocPage h.pager with ⟨_ | a, s₁⟩ <;> rw [ha] at hg
  · exact hg
  obtain ⟨f, rfl, -, -, -, hfree, -⟩ := pagingAllocPage_some ha
  have hgrow := hg.trans (grows_mapPageFlags im s₁ h.heapMappedEnd (f * pageSize)
    (BitVec.ofNat 64 Heap.heapPageFlags) (pagePresent ||| pageWritable))
  rw [← pagingMapPage] at hgrow
  dsimp only
  rcases hm : pagingMapPage im s₁ h.heapMappedEnd (f * pageSize) (BitVec.ofNat 64 Heap.heapPageFlags) with
    ⟨_ | _, s₂⟩ <;> rw [hm] at hgrow
  · exact grows_freePage hgrow hfree
  · exact hgrow

theorem grows_heapMapPages (im : Image) : ∀ (n : Nat) (h : KernelHeap),
    Grows h.pager (Heap.heapMapPages (vmPager im) n h).2.pager
  | 0, _ => fun _ hf => hf
  | n + 1, h => by
    have hg := grows_heapMapPage im h
    rw [Heap.heapMapPages]
    rcases hturn : Heap.heapMapPage (vmPager im) h with ⟨_ | _, h₁⟩ <;> rw [hturn] at hg
    · exact hg
    · exact hg.trans (grows_heapMapPages im n h₁)

theorem not_same_frames (ht : Takes s s') : freeFrames s' ≠ freeFrames s := by
  intro hsame
  obtain ⟨f, hfree, htaken⟩ := ht
  have hmem := mem_freeFrames.mpr hfree
  rw [← hsame, mem_freeFrames, htaken] at hmem
  cases hmem

/-- The first page of a growth: it cannot be had, or a frame is gone. -/
theorem heapMapPage_first (hf : Forest h.pager tag) (hal : h.heapMappedEnd % pageSize = 0) :
    (NoFirstPage im h → (Heap.heapMapPage (vmPager im) h).1 = false ∧
      freeFrames (Heap.heapMapPage (vmPager im) h).2.pager = freeFrames h.pager) ∧
    (¬ NoFirstPage im h → Takes h.pager (Heap.heapMapPage (vmPager im) h).2.pager) := by
  unfold Heap.heapMapPage NoFirstPage
  simp only [vmPager]
  rcases ha : pagingAllocPage h.pager with ⟨_ | a, s₁⟩
  · rw [pagingAllocPage_none hf.null ha]
    exact ⟨fun _ => ⟨rfl, rfl⟩, fun hno => absurd (Or.inl rfl) hno⟩
  obtain ⟨f, rfl, hpos, hmax, hlt, hfree, rfl⟩ := pagingAllocPage_some ha
  have hp : f * pageSize % pageSize = 0 := Nat.mul_mod_left ..
  have h₁ : Forest (bitmapSet h.pager f) tag :=
    (Mapped.take (E := fun _ => True) (W := fun _ => True) hf f).forest
  have hpt : ptOf (bitmapSet h.pager f).mem (bitmapSet h.pager f).pml4 h.heapMappedEnd =
      ptOf h.pager.mem h.pager.pml4 h.heapMappedEnd := by
    rw [bitmapSet_mem, bitmapSet_pml4]
  have hT : Sys.NoTable im h.pager ↔ (pagingAllocTable im (bitmapSet h.pager f)).1 = none := by
    rw [Sys.NoTable, ha]
  have hgrow := grows_mapPageFlags im (bitmapSet h.pager f) h.heapMappedEnd (f * pageSize)
    (BitVec.ofNat 64 Heap.heapPageFlags) (pagePresent ||| pageWritable)
  have hmissing := @pagingMapPageFlags_missing im _ tag h.heapMappedEnd (f * pageSize)
    (BitVec.ofNat 64 Heap.heapPageFlags) (pagePresent ||| pageWritable) h₁ hal hp
  have hthere := @pagingMapPageFlags_there im (bitmapSet h.pager f) tag
  dsimp only
  simp only [reduceCtorEq, false_or]
  rw [← hpt, hT]
  rcases hm : pagingMapPage im (bitmapSet h.pager f) h.heapMappedEnd (f * pageSize)
    (BitVec.ofNat 64 Heap.heapPageFlags) with ⟨ok, s₂⟩
  rw [← pagingMapPage, hm] at hgrow hmissing
  constructor
  · rintro ⟨hnone, hno⟩
    obtain ⟨d, hd⟩ := (hmissing hnone).1 hno
    obtain ⟨rfl, rfl⟩ := Prod.mk.inj hd
    refine ⟨rfl, ?_⟩
    ext g
    rw [mem_freeFrames, mem_freeFrames,
      Sys.bitmapTest_freePage hfree hpos hmax (by simpa [bitmapSet_total] using hlt)]
    split
    · next hg => rw [hg, hfree]
    · next hg =>
      have hb : bitmapTest { bitmapSet h.pager f with direct := d } g = bitmapTest (bitmapSet h.pager f) g := rfl
      rw [hb, bitmapTest_bitmapSet, decide_eq_false hg, Bool.false_or]
  · intro hno
    cases ok with
    | true =>
      refine ⟨f, hfree, hgrow f ?_⟩
      rw [bitmapTest_bitmapSet, decide_eq_true rfl, Bool.true_or]
    | false =>
      have hnone : ptOf (bitmapSet h.pager f).mem (bitmapSet h.pager f).pml4 h.heapMappedEnd = none := by
        rcases hk : ptOf (bitmapSet h.pager f).mem (bitmapSet h.pager f).pml4 h.heapMappedEnd with _ | t
        · rfl
        · obtain ⟨d, hd⟩ := hthere h₁ hal hp hk
          rw [← pagingMapPage, hm] at hd
          cases (Prod.mk.inj hd).1
      exact Sys.takes_freePage ((hmissing hnone).2 fun hc => hno ⟨hnone, hc⟩)

/-- Where there is no frame and no block, paging is left as it is. -/
theorem kmalloc_exhausted (hi : Heap.HeapInv h live bs) (hnull : bitmapTest h.pager 0 = true)
    (ha : (pagingAllocPage h.pager).1 = none) (hn : n ≠ 0)
    (hfree : ¬ Heap.FreeFor h (Heap.alignUp n Heap.heapAlign)) :
    (Heap.kmalloc (vmPager im) h n).2.pager = h.pager := by
  have hturn : Heap.heapMapPage (vmPager im) h = (false, h) := by
    rcases hs : pagingAllocPage h.pager with ⟨_ | a, s⟩
    · obtain rfl := pagingAllocPage_none hnull hs
      simp only [Heap.heapMapPage, vmPager, hs]
    · rw [hs] at ha
      cases ha
  have hmore : ∀ m, (Heap.heapMapPages (vmPager im) m h).2 = h := by
    intro m
    cases m with
    | zero => rfl
    | succ m => rw [Heap.heapMapPages, hturn]
  rw [Heap.kmalloc_extends _ hi.holds hi.mapped hn (Heap.find_none hi.holds hfree), Heap.heapMapMore]
  have hpages := hmore ((Heap.heapTarget h (Heap.expandBytes (Heap.alignUp n Heap.heapAlign)) -
    h.heapMappedEnd + (pageSize - 1)) / pageSize)
  rcases hm : Heap.heapMapPages (vmPager im) _ h with ⟨ok, h₁⟩
  rw [hm] at hpages
  obtain rfl : h₁ = h := hpages
  cases ok with
  | false => rfl
  | true => exact Heap.appendBlock_pager ..

/-- The heap refuses a kernel stack and takes no frame for it. -/
theorem stackRefused_iff (hi : Heap.HeapInv h live bs) (hf : Forest h.pager tag) :
    ((Heap.kmalloc (vmPager im) h taskKernelStackSize).1 = 0 ∧
      freeFrames (Heap.kmalloc (vmPager im) h taskKernelStackSize).2.pager = freeFrames h.pager) ↔
    StackRefused im h := by
  have hn : taskKernelStackSize ≠ 0 := by decide
  by_cases hfree : Heap.FreeFor h (Heap.alignUp taskKernelStackSize Heap.heapAlign)
  · obtain ⟨b, -, -, hpay, -⟩ := Heap.kmalloc_free (vmPager im) hi.holds hi.mapped hn hfree
    rw [hpay]
    exact iff_of_false (fun hc => by simp [Heap.Block.payload] at hc) fun hc => hc.block hfree
  have hbytes : Heap.expandBytes (Heap.alignUp taskKernelStackSize Heap.heapAlign) = 0x11000 := by decide
  have hend := hi.mapped.end_le
  obtain ⟨-, -, htarget⟩ := @Heap.heapTarget_spec _ h 0x11000 hi.mapped (by decide)
  obtain ⟨hfail, htakes⟩ := @heapMapPage_first im h tag hf hi.mapped.paged
  rw [Heap.kmalloc_extends _ hi.holds hi.mapped hn (Heap.find_none hi.holds hfree), hbytes, Heap.heapMapMore,
    htarget (by simp only [kernelHeapLimit] at hend; omega)]
  rcases hturns : (min (h.heapMappedEnd + 0x11000) kernelHeapLimit - h.heapMappedEnd + (pageSize - 1)) / pageSize
    with _ | n
  · -- the window is full, and the loop has no turn
    refine iff_of_false (fun hc => ?_) fun hc => ?_
    · simp [Heap.heapMapPages, Heap.headerSize] at hc
    · have := hc.room
      simp only [kernelHeapLimit, pageSize] at *
      omega
  have hroom : h.heapMappedEnd < kernelHeapLimit := by
    simp only [kernelHeapLimit, pageSize] at *
    omega
  rw [Heap.heapMapPages]
  rcases hturn : Heap.heapMapPage (vmPager im) h with ⟨ok, h₁⟩
  rw [hturn] at hfail htakes
  by_cases hno : NoFirstPage im h
  · obtain ⟨rfl, hsame⟩ := hfail hno
    exact iff_of_true ⟨rfl, hsame⟩ ⟨hfree, hroom, hno⟩
  · refine iff_of_false (fun hc => ?_) fun hc => hno hc.page
    cases ok with
    | false => exact not_same_frames (htakes hno) hc.2
    | true =>
      have hgrow := grows_heapMapPages im n h₁
      dsimp only at hc
      rcases hrest : Heap.heapMapPages (vmPager im) n h₁ with ⟨_ | _, h₂⟩ <;> rw [hrest] at hc hgrow
      · exact not_same_frames ((htakes hno).grows hgrow) hc.2
      · simp [Heap.headerSize] at hc

/-! ### The tables -/

theorem procFork_full (hs : firstSlot (fun t => (k.tasks t).state = .unused) = none) (ans : Answers) :
    procFork ans k = (-1, k) := by
  rw [procFork, procAllocTask, hs]

/-- A fork that gets no kernel stack fails, and leaves the tables and the heap alone. -/
theorem procFork_refused (hm : ans.kmalloc 0 = none) : (procFork ans k).1 = -1 ∧
    (procFork ans k).2.live = k.live ∧ (procFork ans k).2.pipes = k.pipes ∧
    Untouched k (procFork ans k).2 := by
  rcases procAllocTask_cases (ans.kmalloc 0) k with ⟨k', heq, -, -, hlive, hpipes⟩ |
    ⟨_, _, a, -, -, -, -, -, -, -, -, ha, -⟩
  · rcases procAllocTask_slot (ans.kmalloc 0) k with ⟨k'', heq', hu⟩ | ⟨_, _, -, -, heq'⟩ <;> rw [heq] at heq'
    · obtain ⟨-, rfl⟩ := Prod.mk.inj heq'
      rw [procFork, heq]
      exact ⟨rfl, hlive, hpipes, hu⟩
    · cases (Prod.mk.inj heq').1
  · rw [hm] at ha
    cases ha

/-- A kernel stack that was granted is allocated after the call, however that ends. -/
theorem procFork_granted (hs : firstSlot (fun t => (k.tasks t).state = .unused) = some c)
    (hm : ans.kmalloc 0 = some a) (ha : a ∉ k.live) : a ∈ (procFork ans k).2.live := by
  have halloc : (procAllocTask (ans.kmalloc 0) k).1 = some c ∧
      a ∈ (procAllocTask (ans.kmalloc 0) k).2.live := by
    simp [procAllocTask, hs, hm, kmalloc, ha]
  rcases heq : procAllocTask (ans.kmalloc 0) k with ⟨_ | c', k₁⟩ <;> rw [heq] at halloc
  · cases halloc.1
  rw [procFork, heq]
  dsimp only
  split
  · exact halloc.2
  have hturn : ∀ (fd : Fd) (k₂ : Kernel), a ∈ k₂.live → a ∈ (forkFd ans k.currentTask c' fd k₂).2.live := by
    intro fd k₂ hin
    rw [forkFd]
    split
    · exact hin
    · rcases kmalloc_cases (ans.kmalloc (fd.val + 1)) k₂ with hk | ⟨dst, -, -, hk⟩ <;> rw [hk]
      · exact hin
      · rw [(copyFile_rest ..).2.1]
        exact Finset.mem_insert_of_mem hin
  have hloop := forEach_inv (l := List.finRange procMaxFd) (I := fun k₂ : Kernel => a ∈ k₂.live)
    (fun fd _ k₂ hin => hturn fd k₂ hin) (s := k₁.onTask c' fun p =>
      forkSlot k.currentTask (k₁.tasks k.currentTask) p ans.cloneCr3) halloc.2
  rcases hf : forEach (forkFd ans k.currentTask c') (List.finRange procMaxFd) _ with ⟨_ | _, k₃⟩ <;>
    rw [hf] at hloop
  · exact hloop
  · exact hloop

/-- A fork whose address space is refused fails. -/
theorem procFork_uncloned (hc : ans.cloneCr3 = 0) : (procFork ans k).1 = -1 := by
  rw [procFork]
  rcases procAllocTask (ans.kmalloc 0) k with ⟨_ | c, k₁⟩
  · rfl
  · simp only [hc, if_true]

/-! ### The call -/

/-- An object for a descriptor is another request. -/
theorem askObject_stack (fds : Fd → Option Handle) (fd : Fd) (r : Answers × KernelHeap) :
    (askObject im fds fd r).2.1.kmalloc 0 = r.1.kmalloc 0 := by
  unfold askObject
  split
  · rfl
  · simp [Answers.answered]

/-- The answer for the kernel stack is that of the heap. -/
theorem askRest_stack (fds : Fd → Option Handle) (stack : Nat × KernelHeap) :
    (askRest im fds stack).1.kmalloc 0 = heapAnswer stack.1 := by
  have hfirst : (Answers.none.answered 0 stack.1).kmalloc 0 = heapAnswer stack.1 := by
    simp [Answers.answered]
  rw [askRest]
  split
  · exact hfirst
  rcases pagingCloneCurrentAddressSpace im stack.2.pager true with ⟨_ | root, s⟩
  · exact hfirst
  refine forEach_inv (I := fun r : Answers × KernelHeap => r.1.kmalloc 0 = heapAnswer stack.1) ?_ hfirst
  intro fd _ r hr
  rw [askObject_stack]
  exact hr

theorem askFork_slot (hs : firstSlot (fun t => (k.tasks t).state = .unused) = some c) :
    askFork im k h = askRest im k.fds (Heap.kmalloc (vmPager im) h taskKernelStackSize) := by
  rw [askFork, hs]

/-- Where the heap refuses a kernel stack, nothing else is asked for. -/
theorem askRest_refused {fds : Fd → Option Handle} {stack : Nat × KernelHeap} (hz : stack.1 = 0) :
    (askRest im fds stack).2 = stack.2 := by
  rw [askRest, if_pos hz]

/-- A fork that the heap refuses a kernel stack fails, and leaves the heap as that does. -/
theorem refused_fork_fails (hs : firstSlot (fun t => (k.tasks t).state = .unused) = some c)
    (hz : (Heap.kmalloc (vmPager im) h taskKernelStackSize).1 = 0) : (procForkWith im k h).1 = -1 ∧
    (procForkWith im k h).2.2 = (Heap.kmalloc (vmPager im) h taskKernelStackSize).2 := by
  have hask : askFork im k h = askRest im k.fds (Heap.kmalloc (vmPager im) h taskKernelStackSize) :=
    askFork_slot hs
  have hans : (askFork im k h).1.kmalloc 0 = none := by
    rw [hask, askRest_stack, hz, heapAnswer, if_pos rfl]
  have hleft : (askFork im k h).2 = (Heap.kmalloc (vmPager im) h taskKernelStackSize).2 := by
    rw [hask, askRest_refused hz]
  exact ⟨(procFork_refused hans).1, hleft⟩

/-- So does one whose address space cannot be cloned, and it leaves paging as that does. -/
theorem uncloned_fork_fails (hs : firstSlot (fun t => (k.tasks t).state = .unused) = some c)
    (hne : (Heap.kmalloc (vmPager im) h taskKernelStackSize).1 ≠ 0)
    (hc : pagingCloneCurrentAddressSpace im (Heap.kmalloc (vmPager im) h taskKernelStackSize).2.pager true =
      (none, s)) : (procForkWith im k h).1 = -1 ∧ (procForkWith im k h).2.2.pager = s := by
  have hask : askFork im k h =
      (Answers.none.answered 0 (Heap.kmalloc (vmPager im) h taskKernelStackSize).1,
        { (Heap.kmalloc (vmPager im) h taskKernelStackSize).2 with pager := s }) := by
    rw [askFork_slot hs, askRest, if_neg hne, hc]
  rw [procForkWith, hask]
  exact ⟨procFork_uncloned rfl, rfl⟩

/-- A kernel stack that the heap gives is never given back. -/
theorem fork_keeps_stack (hi : Heap.HeapInv h live bs) (hk : ∀ a ∈ k.live, ∃ n, (a, n) ∈ live)
    (hs : firstSlot (fun t => (k.tasks t).state = .unused) = some c)
    (hne : (Heap.kmalloc (vmPager im) h taskKernelStackSize).1 ≠ 0) :
    ¬ NoTrace k h (procForkWith im k h).2.1 (procForkWith im k h).2.2 := by
  have hnew : ∀ stack, stack = (Heap.kmalloc (vmPager im) h taskKernelStackSize).1 → stack ∉ k.live := by
    intro stack heq hin
    obtain ⟨n, hn⟩ := hk stack hin
    exact hi.fresh (by decide) hn heq
  have hans : (askFork im k h).1.kmalloc 0 = some (Heap.kmalloc (vmPager im) h taskKernelStackSize).1 := by
    rw [askFork_slot hs, askRest_stack, heapAnswer, if_neg hne]
  intro hno
  have hin := procFork_granted hs hans (hnew _ rfl)
  rw [procForkWith] at hno
  rw [hno.live] at hin
  exact hnew _ rfl hin

/-- In every reachable state: a fork that fails leaves no trace exactly if there was no slot for the child, or
    the heap had no block for its kernel stack and could not grow by a single page. -/
theorem failed_fork_traceless_iff {roots : List Nat} (hr : Heap.Beside (vmPager im) h live)
    (hv : Sys.VmReach im h.pager roots) (hk : ∀ a ∈ k.live, ∃ n, (a, n) ∈ live) :
    (procForkWith im k h).1 = -1 → Lands h.pager (procForkWith im k h).2.2.pager →
      (NoTrace k h (procForkWith im k h).2.1 (procForkWith im k h).2.2 ↔
        (∀ t, (k.tasks t).state ≠ .unused) ∨ StackRefused im h) := by
  intro _ _
  obtain ⟨bs, hi⟩ := hr.inv
  obtain ⟨tag, hf, -⟩ := hv.sound
  rcases hs : firstSlot (fun t => (k.tasks t).state = .unused) with _ | c
  · refine iff_of_true ?_ (Or.inl fun t => by simpa using firstSlot_none hs t)
    have hask : (askFork im k h).2 = h := by rw [askFork, hs]
    rw [procForkWith, procFork_full hs, hask]
    exact ⟨rfl, rfl, fun _ => ⟨rfl, rfl⟩, fun _ _ => rfl, fun _ hu => hu⟩
  have hslot : ¬ ∀ t, (k.tasks t).state ≠ .unused := by
    intro hall
    exact hall c (by simpa using firstSlot_some hs)
  rw [or_iff_right hslot, ← stackRefused_iff hi hf]
  by_cases hz : (Heap.kmalloc (vmPager im) h taskKernelStackSize).1 = 0
  · have hans : (askFork im k h).1.kmalloc 0 = none := by
      rw [askFork_slot hs, askRest_stack, hz, heapAnswer, if_pos rfl]
    obtain ⟨-, hlive, hpipes, hu⟩ := procFork_refused hans
    have hask : (askFork im k h).2 = (Heap.kmalloc (vmPager im) h taskKernelStackSize).2 := by
      rw [askFork_slot hs, askRest_refused hz]
    rw [and_iff_right hz, ← hask]
    refine ⟨fun hno => hno.frames, fun hframes => ⟨hframes, hlive, fun p => ?_, hu.tasks, hu.unused⟩⟩
    rw [procForkWith, hpipes]
    exact ⟨rfl, rfl⟩
  · exact iff_of_false (fork_keeps_stack hi hk hs hz) fun hc => hz hc.1

/-! ### A machine without frames -/

/-- All frames may be taken. -/
theorem exhausted {roots : List Nat} (n : Nat) : ∀ {s : Vm}, (freeFrames s).card ≤ n → Sys.VmReach im s roots →
    ∃ s', Sys.VmReach im s' roots ∧ (pagingAllocPage s').1 = none := by
  induction n with
  | zero =>
    intro s hn hv
    rcases ha : pagingAllocPage s with ⟨_ | a, s₁⟩
    · exact ⟨s, hv, by rw [ha]⟩
    · obtain ⟨f, -, -, -, -, hfree, -⟩ := pagingAllocPage_some ha
      have hmem := mem_freeFrames.mpr hfree
      rw [Finset.card_eq_zero.mp (Nat.le_zero.mp hn)] at hmem
      cases hmem
  | succ n ih =>
    intro s hn hv
    rcases ha : pagingAllocPage s with ⟨_ | a, s₁⟩
    · exact ⟨s, hv, by rw [ha]⟩
    · obtain ⟨f, -, -, -, -, hfree, rfl⟩ := pagingAllocPage_some ha
      have hless := card_freeFrames_lt (grows_bitmapSet s f) hfree (by simp [bitmapTest_bitmapSet])
      have hstep := hv.step .allocPage
      rw [ha] at hstep
      exact ih (s := bitmapSet s f) (by omega) hstep

/-- Then no address space can be cloned. -/
theorem clone_exhausted (copyUser : Bool) (hnull : bitmapTest s 0 = true) (ha : (pagingAllocPage s).1 = none) :
    pagingCloneCurrentAddressSpace im s copyUser = (none, s) := by
  rw [pagingCloneCurrentAddressSpace]
  rcases pagingAllocTable_cases im hnull with ⟨hnone, -⟩ | ⟨f, -, -, hlt, hf, -⟩
  · rw [hnone]
  · rcases hs : firstFrom (fun i => !bitmapTest s i) s.totalFrames 0 with _ | g
    · have := firstFrom_none hs f (Nat.zero_le f) (by omega)
      rw [tableFrame_free hf] at this
      cases this
    · rw [pagingAllocPage, hs] at ha
      obtain ⟨-, -, hfree, -⟩ := firstFrom_some hs
      have hne : g * pageSize ≠ 0 := by
        intro h0
        obtain rfl : g = 0 := by simpa [pageSize] using h0
        rw [hnull] at hfree
        cases hfree
      simp only [framePtr, if_neg hne] at ha
      cases ha

/-- Where the heap has a block for the kernel stack, a fork fails for want of an address space. -/
theorem exhausted_fork (hi : Heap.HeapInv h live bs) (hnull : bitmapTest h.pager 0 = true)
    (ha : (pagingAllocPage h.pager).1 = none)
    (hs : firstSlot (fun t => (k.tasks t).state = .unused) = some c)
    (hfree : Heap.FreeFor h (Heap.alignUp taskKernelStackSize Heap.heapAlign)) :
    (Heap.kmalloc (vmPager im) h taskKernelStackSize).1 ≠ 0 ∧ (procForkWith im k h).1 = -1 ∧
      (procForkWith im k h).2.2.pager = h.pager := by
  obtain ⟨b, -, -, hpay, hpager⟩ := Heap.kmalloc_free (vmPager im) hi.holds hi.mapped
    (n := taskKernelStackSize) (by decide) hfree
  have hstack : (Heap.kmalloc (vmPager im) h taskKernelStackSize).1 ≠ 0 := by
    rw [hpay]
    simp [Heap.Block.payload]
  refine ⟨hstack, uncloned_fork_fails hs hstack ?_⟩
  rw [hpager]
  exact clone_exhausted true hnull ha

/-- The first task, with nothing on the heap. -/
def firstTask : Kernel := procInit Answers.none (Kernel.zero ∅ (fun _ => VfsFile.fresh) 0)

theorem firstTask_slot : firstSlot (fun t => (firstTask.tasks t).state = .unused) = some 1 := by decide

theorem firstTask_live {live : List (Nat × Nat)} : ∀ a ∈ firstTask.live, ∃ n, (a, n) ∈ live :=
  fun a ha => absurd ha (Finset.notMem_empty a)

/-- Memory with some free frames. -/
def emptyVm : Vm :=
  { mem := fun _ _ => 0, frameBitmap := fun f => decide (f < 2), totalFrames := 64, pml4 := 1, direct := [] }

/-- The heap after `heap_init`. -/
def newHeap : KernelHeap := Heap.heapInit (vmPager smallImage) (fun _ => 0) emptyVm

/-- A file of 64 KiB comes and goes. -/
def usedHeap : KernelHeap :=
  Heap.kfree (Heap.kmalloc (vmPager smallImage) newHeap taskKernelStackSize).2 0x10010020

/-- A machine of 64 MiB has no frame left. -/
theorem full_machine : ∃ s, Sys.VmReach smallImage s [smallImage.pmlTable] ∧ (pagingAllocPage s).1 = none :=
  exhausted _ le_rfl (Sys.TableReach.init (fun _ _ => 0#64) lowMemory)

theorem newHeap_refuses (hs : (pagingAllocPage s).1 = none) :
    StackRefused smallImage { newHeap with pager := s } := by
  have hroom : newHeap.heapMappedEnd < kernelHeapLimit := by decide
  refine ⟨fun hfree => ?_, hroom, Or.inl hs⟩
  exact Heap.heapInit_small (fun _ => 0) emptyVm (by decide) (Heap.freeFor_pager.mp hfree)

/-- The fork is refused its kernel stack, and nothing has happened. -/
theorem failed_fork_traceless_newHeap : ∃ s,
    (procForkWith smallImage firstTask { newHeap with pager := s }).1 = -1 ∧
    NoTrace firstTask { newHeap with pager := s }
      (procForkWith smallImage firstTask { newHeap with pager := s }).2.1
      (procForkWith smallImage firstTask { newHeap with pager := s }).2.2 := by
  obtain ⟨s, hv, hs⟩ := full_machine
  have hr : Heap.Beside (vmPager smallImage) { newHeap with pager := s } [] := .pager s (.init _ _)
  have hrefused := newHeap_refuses hs
  obtain ⟨bs, hi⟩ := hr.inv
  obtain ⟨tag, hf, -⟩ := hv.sound
  have hz := ((stackRefused_iff hi hf).mpr hrefused).1
  obtain ⟨hfail, hleft⟩ := refused_fork_fails firstTask_slot hz
  have hpager := @kmalloc_exhausted smallImage _ _ _ taskKernelStackSize hi hf.null hs (by decide) hrefused.block
  rw [← hleft] at hpager
  have hlands := Lands.same (congrArg Vm.direct hpager)
  exact ⟨s, hfail, (failed_fork_traceless_iff hr hv firstTask_live hfail hlands).mpr (Or.inr hrefused)⟩

theorem usedHeap_beside : Heap.Beside (vmPager smallImage) usedHeap [] ∧
    Heap.FreeFor usedHeap (Heap.alignUp taskKernelStackSize Heap.heapAlign) := by
  have hval : (Heap.kmalloc (vmPager smallImage) newHeap taskKernelStackSize).1 = 0x10010020 := by decide +kernel
  have hsafe : Heap.Safe (vmPager smallImage) newHeap taskKernelStackSize := by
    refine Or.inr (Or.inr ⟨Heap.heapInit_small _ _ (by decide), Or.inl ?_⟩)
    decide
  have hr := Heap.Beside.kmalloc taskKernelStackSize (.init (fun _ => 0) emptyVm) hsafe
  rw [← newHeap, hval, if_neg (by decide)] at hr
  have hfreed := hr.kfree (List.mem_singleton_self _)
  have hblock := hr.free_after (List.mem_singleton_self _) le_rfl
  rw [List.erase_cons_head, ← usedHeap] at hfreed
  rw [← usedHeap] at hblock
  exact ⟨hfreed, hblock⟩

/-- The fork gets a kernel stack, finds no frame for an address space, and keeps the stack. -/
theorem failed_fork_keeps_stack : ¬ ∀ (im : Image) (k : Kernel) (h : KernelHeap) (live : List (Nat × Nat))
    (roots : List Nat), Heap.Beside (vmPager im) h live → Sys.VmReach im h.pager roots →
    (∀ a ∈ k.live, ∃ n, (a, n) ∈ live) → (procForkWith im k h).1 = -1 →
    Lands h.pager (procForkWith im k h).2.2.pager →
    NoTrace k h (procForkWith im k h).2.1 (procForkWith im k h).2.2 := by
  intro hall
  obtain ⟨s, hv, hs⟩ := full_machine
  obtain ⟨hused, hblock⟩ := usedHeap_beside
  have hr : Heap.Beside (vmPager smallImage) { usedHeap with pager := s } [] := .pager s hused
  obtain ⟨bs', hi⟩ := hr.inv
  obtain ⟨tag, hf, -⟩ := hv.sound
  obtain ⟨hstack, hfail, hleft⟩ := @exhausted_fork smallImage firstTask _ _ _ _ hi hf.null hs firstTask_slot
    (Heap.freeFor_pager.mpr hblock)
  have hno := hall smallImage firstTask { usedHeap with pager := s } [] _ hr hv firstTask_live hfail
    (.same (congrArg Vm.direct hleft))
  exact fork_keeps_stack hi firstTask_live firstTask_slot hstack hno

end TypeOS.Proc
