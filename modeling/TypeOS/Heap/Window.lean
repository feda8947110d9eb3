import TypeOS.Heap.Runs

/-! Where the heap's bytes lie: inside the mapped part of the window, as long as no request is rounded past
    2^64 or has `heap_map_more` stop at the limit.

    `RunsFrom` is a run from any state, with any condition on the requests. `Safe` is the condition on a
    request that keeps the next call in the window, and no weaker one does. -/

namespace TypeOS.Heap

variable {P : Type}

/-- A run of calls and stores, where every request meets `ok`. -/
inductive RunsFrom (pg : Pager P) (ok : HeapState P → Nat → Prop) (start : HeapState P) :
    HeapState P → List (Nat × Nat) → Prop
  | start : RunsFrom pg ok start start []
  | kmalloc {h : HeapState P} {live : List (Nat × Nat)} (n : Nat) (hr : RunsFrom pg ok start h live)
    (hok : ok h n) : RunsFrom pg ok start (kmalloc pg h n).2
      (if (kmalloc pg h n).1 = 0 then live else ((kmalloc pg h n).1, n) :: live)
  | kfreeNull {h : HeapState P} {live : List (Nat × Nat)} (hr : RunsFrom pg ok start h live) :
    RunsFrom pg ok start (kfree h 0) live
  | kfree {h : HeapState P} {live : List (Nat × Nat)} {q : Nat × Nat} (hr : RunsFrom pg ok start h live)
    (hq : q ∈ live) : RunsFrom pg ok start (kfree h q.1) (live.erase q)
  | store {h : HeapState P} {live : List (Nat × Nat)} {q : Nat × Nat} (a v : Nat)
    (hr : RunsFrom pg ok start h live) (hq : q ∈ live) (ha : a % 8 = 0) (hlo : q.1 ≤ a)
    (hhi : a < q.1 + q.2) : RunsFrom pg ok start { h with mem := Function.update h.mem a v } live

/-- `heap_current <= heap_mapped_end <= KERNEL_HEAP_LIMIT`. -/
def InWindow (h : HeapState P) : Prop :=
  h.heapCurrent ≤ h.heapMappedEnd ∧ h.heapMappedEnd ≤ kernelHeapLimit

/-- `NULL`, or `n` mapped bytes. -/
def Handed (r : Nat × HeapState P) (n : Nat) : Prop :=
  r.1 = 0 ∨ kernelHeapStart ≤ r.1 ∧ r.1 + n ≤ r.2.heapMappedEnd

/-- The list has a free block of so many bytes. -/
def FreeFor (h : HeapState P) (size : Nat) : Prop :=
  ∃ bs, Holds h bs ∧ ∃ b ∈ bs, b.free = true ∧ size ≤ b.size

/-- The pager has so many pages to map, from an address on. -/
def Pager.gives (pg : Pager P) : Nat → Nat → P → Bool
  | 0, _, _ => true
  | n + 1, virt, p =>
    match pg.pagingAllocPage p with
    | (none, _) => false
    | (some frame, p) =>
      match pg.pagingMapPage p virt frame heapPageFlags with
      | (false, _) => false
      | (true, p) => pg.gives n (virt + pageSize) p

/-- The pager has the pages that an extension by `bytes` asks for. -/
def Granted (pg : Pager P) (h : HeapState P) (bytes : Nat) : Prop :=
  pg.gives ((heapTarget h bytes - h.heapMappedEnd) / pageSize) h.heapMappedEnd h.pager = true

/-- The requests that the heap can take: nothing; what a free block holds; and, where no free block holds
    what the rounding makes of it, what still fits below the limit or is refused for want of pages. -/
def Safe (pg : Pager P) (h : HeapState P) (n : Nat) : Prop :=
  n = 0 ∨ FreeFor h n ∨ ¬ FreeFor h (alignUp n heapAlign) ∧
    (h.heapCurrent + extension n ≤ kernelHeapLimit ∨
      ¬ Granted pg h (expandBytes (alignUp n heapAlign)))

variable {pg : Pager P} {h : HeapState P} {live : List (Nat × Nat)} {bs : List Block} {n : Nat}

/-- The loop of `heap_map_more` works when the pager gives it its pages. -/
theorem heapMapPages_gives (pg : Pager P) : ∀ (n : Nat) (h : HeapState P),
    (heapMapPages pg n h).1 = pg.gives n h.heapMappedEnd h.pager
  | 0, _ => rfl
  | n + 1, h => by
    rw [heapMapPages, heapMapPage, Pager.gives]
    rcases pg.pagingAllocPage h.pager with ⟨_ | frame, p⟩
    · rfl
    dsimp only
    rcases pg.pagingMapPage p h.heapMappedEnd frame heapPageFlags with ⟨_ | _, p'⟩
    · rfl
    · exact heapMapPages_gives pg n _

theorem heapMapMore_granted (hm : Mapped h) {bytes : Nat} (hb : bytes % pageSize = 0) :
    (heapMapMore pg h bytes).1 = true ↔ Granted pg h bytes := by
  obtain ⟨-, htp, -⟩ := heapTarget_spec hm hb
  have hmp := hm.paged
  have hcount : (heapTarget h bytes - h.heapMappedEnd + (pageSize - 1)) / pageSize =
      (heapTarget h bytes - h.heapMappedEnd) / pageSize := by
    simp only [pageSize] at *
    omega
  rw [heapMapMore, heapMapPages_gives, hcount, Granted]

theorem FreeFor.mem (hb : Holds h bs) {size : Nat} (hf : FreeFor h size) :
    ∃ b ∈ bs, b.free = true ∧ size ≤ b.size := by
  obtain ⟨bs', hb', hfit⟩ := hf
  rwa [hb.unique hb']

/-- A search that ends without a block. -/
theorem find_none (hb : Holds h bs) {size : Nat} (hno : ¬ FreeFor h size) :
    bs.find? (fun b => b.free && decide (size ≤ b.size)) = none := by
  refine List.find?_eq_none.mpr fun b hmem hfit => hno ⟨bs, hb, b, hmem, ?_⟩
  rw [Bool.and_eq_true, decide_eq_true_eq] at hfit
  exact hfit

/-- A request for which there is neither a block nor a page fails. -/
theorem kmalloc_refused (hb : Holds h bs) (hm : Mapped h) (hn : n ≠ 0)
    (hno : ¬ FreeFor h (alignUp n heapAlign))
    (hpages : ¬ Granted pg h (expandBytes (alignUp n heapAlign))) :
    (kmalloc pg h n).1 = 0 ∧ SameBlocks h (kmalloc pg h n).2 ∧ Mapped (kmalloc pg h n).2 := by
  have he := (expandBytes_paged (alignUp n heapAlign)).1
  rw [← heapMapMore_granted hm he] at hpages
  obtain ⟨hs, hm', -⟩ := heapMapMore_spec pg hm he
  rw [kmalloc_extends pg hb hm hn (find_none hb hno)]
  generalize heapMapMore pg h (expandBytes (alignUp n heapAlign)) = r at *
  rcases r with ⟨_ | _, h'⟩
  · exact ⟨rfl, hs, hm'⟩
  · exact absurd rfl hpages

theorem Mapped.inWindow (hm : Mapped h) : InWindow h := ⟨hm.current_le, hm.end_le⟩

/-- What a request that the heap can take does. -/
theorem Safe.cases (hb : Holds h bs) (hm : Mapped h) (hs : Safe pg h n) :
    ((∃ b ∈ bs, b.free = true ∧ n ≤ b.size) ∨ h.heapCurrent + extension n ≤ kernelHeapLimit) ∨
      ((kmalloc pg h n).1 = 0 ∧ SameBlocks h (kmalloc pg h n).2 ∧ Mapped (kmalloc pg h n).2) := by
  rcases eq_or_ne n 0 with rfl | hn
  · rw [kmalloc, if_pos rfl]
    exact .inr ⟨rfl, ⟨rfl, rfl, rfl⟩, hm⟩
  rcases hs with hz | hfree | ⟨hno, hroom | hpages⟩
  · exact absurd hz hn
  · exact .inl (.inl (hfree.mem hb))
  · exact .inl (.inr hroom)
  · exact .inr (kmalloc_refused hb hm hn hno hpages)

/-- A request that the heap can take leaves it in the window, with mapped bytes handed out. -/
theorem Safe.handed (hb : Holds h bs) (hm : Mapped h) (hs : Safe pg h n) :
    InWindow (kmalloc pg h n).2 ∧ Handed (kmalloc pg h n) n := by
  rcases hs.cases hb hm with hroom | ⟨hz, -, hm'⟩
  · obtain ⟨hm', ⟨hz, -⟩ | ⟨bs', b, hb', hp, -, hsize, ht, -⟩⟩ := kmalloc_spec pg hb hm hroom
    · exact ⟨hm'.inWindow, .inl hz⟩
    · obtain ⟨h1, h2⟩ := hb'.bounds ((ht.taken b).mpr (.inr rfl)).1
      have h3 := hm'.current_le
      refine ⟨hm'.inWindow, .inr ?_⟩
      rw [hp, Block.payload]
      omega
  · exact ⟨hm'.inWindow, .inl hz⟩

/-- The search finds a block that only holds what the rounding made of the request. -/
theorem not_handed_of_found (hm : Mapped h) (hn : n ≠ 0) (hno : ¬ FreeFor h n)
    (hfree : FreeFor h (alignUp n heapAlign)) : ¬ Handed (kmalloc pg h n) n := by
  obtain ⟨bs, hb, c, hc, hcf, hcs⟩ := hfree
  have hlim := hm.end_le
  cases hfind : bs.find? fun b => b.free && decide (alignUp n heapAlign ≤ b.size) with
  | none =>
    have := List.find?_eq_none.mp hfind c hc
    simp [hcf, hcs] at this
  | some b =>
    have hfit := List.find?_some hfind
    rw [Bool.and_eq_true, decide_eq_true_eq] at hfit
    rw [kmalloc_found pg hb hm hn hfind, Handed, Block.payload]
    rintro (hz | ⟨-, hle⟩)
    · simp only [headerSize] at hz
      omega
    · simp only [headerSize, kernelHeapLimit] at hle hlim
      have hround := (alignUp_spec (n := n) (a := heapAlign) (by decide)
        (by simp only [heapAlign]; omega)).1
      exact hno ⟨bs, hb, b, List.mem_of_find?_eq_some hfind, hfit.1, hround.trans hfit.2⟩

/-- An extension past the limit takes `heap_current` there, or is none of the bytes asked for. -/
theorem not_handed_of_past (hb : Holds h bs) (hm : Mapped h) (hn : n ≠ 0)
    (hno : ¬ FreeFor h (alignUp n heapAlign))
    (hpast : ¬ h.heapCurrent + extension n ≤ kernelHeapLimit)
    (hpages : Granted pg h (expandBytes (alignUp n heapAlign))) :
    ¬ (InWindow (kmalloc pg h n).2 ∧ Handed (kmalloc pg h n) n) := by
  have he := (expandBytes_paged (alignUp n heapAlign)).1
  rw [← heapMapMore_granted hm he] at hpages
  obtain ⟨⟨-, -, hcur⟩, hm', -⟩ := heapMapMore_spec pg hm he
  have hlim := hm'.end_le
  rw [kmalloc_extends pg hb hm hn (find_none hb hno)]
  generalize heapMapMore pg h (expandBytes (alignUp n heapAlign)) = r at *
  rcases r with ⟨_ | _, h'⟩
  · cases hpages
  have happ : ∀ e, (appendBlock h' e).heapCurrent = u64 (h'.heapCurrent + e) ∧
      (appendBlock h' e).heapMappedEnd = h'.heapMappedEnd := by
    intro e
    rw [appendBlock]
    split <;> exact ⟨rfl, rfl⟩
  rintro ⟨⟨hwin, -⟩, hz | ⟨-, hle⟩⟩
  · simp only [headerSize] at hz
    omega
  · simp only [happ, headerSize, kernelHeapLimit] at hwin hle hlim hcur hpast
    -- the request is small, so that nothing has wrapped
    rw [expandBytes_alignUp (by omega), hcur] at hwin
    have hext : extension n ≤ n + 2 ^ 17 := by
      simp only [extension, heapMinExpand, headerSize, pageSize]
      omega
    rw [u64_of_lt (by omega)] at hwin
    omega

theorem safe_of_handed (hb : Holds h bs) (hm : Mapped h)
    (hw : InWindow (kmalloc pg h n).2 ∧ Handed (kmalloc pg h n) n) : Safe pg h n := by
  by_contra hs
  simp only [Safe, not_or, not_and, not_not] at hs
  obtain ⟨hn, hno, hrest⟩ := hs
  by_cases hfree : FreeFor h (alignUp n heapAlign)
  · exact not_handed_of_found hm hn hno hfree hw.2
  · obtain ⟨hpast, hpages⟩ := hrest hfree
    exact not_handed_of_past hb hm hn hfree hpast hpages hw

/-- The invariant of a run, over a request that the heap can take. -/
theorem HeapInv.safe (hi : HeapInv h live bs) (hs : Safe pg h n) : ∃ bs',
    HeapInv (Heap.kmalloc pg h n).2
      (if (Heap.kmalloc pg h n).1 = 0 then live else ((Heap.kmalloc pg h n).1, n) :: live) bs' := by
  rcases hs.cases hi.holds hi.mapped with hroom | ⟨hz, hsame, hm'⟩
  · obtain ⟨bs', hi', -⟩ := hi.kmalloc pg hroom
    exact ⟨bs', hi'⟩
  · rw [if_pos hz]
    exact ⟨bs, hsame.holds hi.holds, hm', hi.exactly, hi.merged⟩

/-- A run of requests that the heap can take. -/
theorem RunsFrom.inv {m : Words} {p : P}
    (hr : RunsFrom pg (fun h n => n < 2 ^ 64 ∧ Safe pg h n) (heapInit pg m p) h live) :
    ∃ bs, HeapInv h live bs := by
  induction hr with
  | start =>
    obtain ⟨bs, hi, -⟩ := HeapInv.init pg m p
    exact ⟨bs, hi⟩
  | kmalloc n _ hok ih =>
    obtain ⟨bs, hi⟩ := ih
    exact hi.safe hok.2
  | kfreeNull _ ih => exact ih
  | kfree _ hq ih =>
    obtain ⟨bs, hi⟩ := ih
    obtain ⟨bs', hi', -⟩ := hi.kfree hq
    exact ⟨bs', hi'⟩
  | store a v _ hq ha hlo hhi ih =>
    obtain ⟨bs, hi⟩ := ih
    exact ⟨bs, hi.store hq ha hlo hhi⟩

/-- After requests that the heap can take, whatever `heap_init` got, the blocks end in the mapped part and
    that ends by the limit; the live allocations are mapped; and the next request keeps to it exactly if
    the heap can take it, too. -/
theorem handed_mapped_iff (m : Words) (p : P)
    (hr : RunsFrom pg (fun h n => n < 2 ^ 64 ∧ Safe pg h n) (heapInit pg m p) h live) :
    InWindow h ∧ (∀ q ∈ live, kernelHeapStart ≤ q.1 ∧ q.1 + q.2 ≤ h.heapMappedEnd) ∧
      ∀ n < 2 ^ 64, (InWindow (kmalloc pg h n).2 ∧ Handed (kmalloc pg h n) n ↔ Safe pg h n) := by
  obtain ⟨bs, hi⟩ := hr.inv
  refine ⟨hi.mapped.inWindow, fun q hq => ?_, fun n _ => ⟨safe_of_handed hi.holds hi.mapped,
    Safe.handed hi.holds hi.mapped⟩⟩
  obtain ⟨b, ht, hp, hsize⟩ := hi.exactly.taken q hq
  obtain ⟨h1, h2⟩ := hi.holds.bounds ht.1
  have h3 := hi.mapped.current_le
  rw [← hp, Block.payload]
  omega

theorem handed_mapped_iff_counting :
    InWindow (kmalloc countingPager (heapInit countingPager (fun _ => 0) 20) 100).2 ∧
      Handed (kmalloc countingPager (heapInit countingPager (fun _ => 0) 20) 100) 100 := by
  have hb := (heapInit_spec countingPager (fun _ => 0) 20).2.resolve_left fun hz =>
    absurd hz.1 (by decide)
  exact ((handed_mapped_iff (fun _ => 0) 20 .start).2.2 100 (by decide)).mpr
    (.inr (.inl ⟨_, hb, _, List.mem_singleton_self _, rfl, by decide⟩))

/-- The largest request is rounded to nothing, and handed a block of nothing. -/
theorem largest_request_handed : ¬ ∀ (P : Type) (pg : Pager P) (m : Words) (p : P) (h : HeapState P)
    (live : List (Nat × Nat)), RunsFrom pg (fun _ n => n < 2 ^ 64) (heapInit pg m p) h live →
    InWindow h ∧ ∀ n < 2 ^ 64, InWindow (kmalloc pg h n).2 ∧ Handed (kmalloc pg h n) n := by
  intro hall
  have hbad := ((hall Nat countingPager (fun _ => 0) 20 _ [] .start).2 (2 ^ 64 - 1) (by decide)).2
  have hp : (kmalloc countingPager (heapInit countingPager (fun _ => 0) 20) (2 ^ 64 - 1)).1 =
      kernelHeapStart + headerSize := by decide
  have hend : (kmalloc countingPager (heapInit countingPager (fun _ => 0) 20)
      (2 ^ 64 - 1)).2.heapMappedEnd = kernelHeapStart + heapMinExpand := by decide
  rw [Handed, hp, hend] at hbad
  revert hbad
  decide

end TypeOS.Heap
