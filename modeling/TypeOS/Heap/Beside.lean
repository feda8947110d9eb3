import TypeOS.Heap.Window

/-! The heap beside other users of the pager.

    Between two calls of the heap the rest of the kernel maps pages and takes frames, too. The blocks do not
    depend on what the pager has left, so the invariant is that of a run with the heap alone. -/

namespace TypeOS.Heap

variable {P : Type} {pg : Pager P} {h : HeapState P} {live : List (Nat × Nat)} {bs : List Block} {b : Block}
  {n : Nat}

/-- A run of the heap in which others use the pager between its calls, and which makes no request that the
    heap cannot take. -/
inductive Beside (pg : Pager P) : HeapState P → List (Nat × Nat) → Prop
  | init (m : Words) (p : P) : Beside pg (heapInit pg m p) []
  | kmalloc {h : HeapState P} {live : List (Nat × Nat)} (n : Nat) (hr : Beside pg h live)
    (hs : Safe pg h n) : Beside pg (kmalloc pg h n).2
      (if (kmalloc pg h n).1 = 0 then live else ((kmalloc pg h n).1, n) :: live)
  | kfree {h : HeapState P} {live : List (Nat × Nat)} {q : Nat × Nat} (hr : Beside pg h live)
    (hq : q ∈ live) : Beside pg (kfree h q.1) (live.erase q)
  | store {h : HeapState P} {live : List (Nat × Nat)} {q : Nat × Nat} (a v : Nat)
    (hr : Beside pg h live) (hq : q ∈ live) (ha : a % 8 = 0) (hlo : q.1 ≤ a)
    (hhi : a < q.1 + q.2) : Beside pg { h with mem := Function.update h.mem a v } live
  | pager {h : HeapState P} {live : List (Nat × Nat)} (p : P) (hr : Beside pg h live) :
    Beside pg { h with pager := p } live

/-- The blocks are where they were whatever the pager has left. -/
theorem HeapInv.pager (hi : HeapInv h live bs) (p : P) : HeapInv { h with pager := p } live bs :=
  ⟨hi.holds, ⟨hi.mapped.1, hi.mapped.2, hi.mapped.3⟩, hi.exactly, hi.merged⟩

theorem Beside.inv (hr : Beside pg h live) : ∃ bs, HeapInv h live bs := by
  induction hr with
  | init m p =>
    obtain ⟨bs, hi, -⟩ := HeapInv.init pg m p
    exact ⟨bs, hi⟩
  | kmalloc n _ hs ih =>
    obtain ⟨bs, hi⟩ := ih
    exact hi.safe hs
  | kfree _ hq ih =>
    obtain ⟨bs, hi⟩ := ih
    obtain ⟨bs', hi', -⟩ := hi.kfree hq
    exact ⟨bs', hi'⟩
  | store a v _ hq ha hlo hhi ih =>
    obtain ⟨bs, hi⟩ := ih
    exact ⟨bs, hi.store hq ha hlo hhi⟩
  | pager p _ ih =>
    obtain ⟨bs, hi⟩ := ih
    exact ⟨bs, hi.pager p⟩

/-- A free block that is large enough answers a request, without the pager. -/
theorem kmalloc_free (pg : Pager P) (hb : Holds h bs) (hm : Mapped h) (hn : n ≠ 0)
    (hfree : FreeFor h (alignUp n heapAlign)) :
    ∃ b ∈ bs, b.free = true ∧ (kmalloc pg h n).1 = b.payload ∧ (kmalloc pg h n).2.pager = h.pager := by
  rcases hfind : bs.find? fun b => b.free && decide (alignUp n heapAlign ≤ b.size) with _ | b
  · obtain ⟨b, hmem, hbf, hfit⟩ := hfree.mem hb
    have hno := List.find?_eq_none.mp hfind b hmem
    rw [hbf, Bool.true_and, decide_eq_true_eq] at hno
    exact absurd hfit hno
  · have hbf := List.find?_some hfind
    rw [Bool.and_eq_true] at hbf
    rw [kmalloc_found pg hb hm hn hfind]
    exact ⟨b, List.mem_of_find?_eq_some hfind, hbf.1, rfl, rfl⟩

/-- The address that a request gets is the address of no live allocation. -/
theorem HeapInv.fresh (hi : HeapInv h live bs) (hn : n ≠ 0) {q : Nat × Nat} (hq : q ∈ live) :
    q.1 ≠ (Heap.kmalloc pg h n).1 := by
  obtain ⟨c, ⟨hc, hcf⟩, hp, -⟩ := hi.exactly.taken q hq
  rw [← hp]
  by_cases hfree : FreeFor h (alignUp n heapAlign)
  · obtain ⟨b, hb, hbf, hpay, -⟩ := kmalloc_free pg hi.holds hi.mapped hn hfree
    rw [hpay]
    intro heq
    rw [payload_inj hi.holds hb hc heq, hbf] at hcf
    cases hcf
  · rw [kmalloc_extends pg hi.holds hi.mapped hn (find_none hi.holds hfree)]
    have hend := (hi.holds.bounds hc).2
    rcases heapMapMore pg h (expandBytes (alignUp n heapAlign)) with ⟨_ | _, h'⟩
    · simp [Block.payload]
    · simp only [Block.payload, headerSize] at *
      omega

theorem freeFor_pager {p : P} : FreeFor { h with pager := p } n ↔ FreeFor h n := Iff.rfl

/-- A block is appended without the pager. -/
theorem appendBlock_pager (h : HeapState P) (expand : Nat) : (appendBlock h expand).pager = h.pager := by
  rw [appendBlock]
  split <;> rfl

/-- What was freed can be asked for again. -/
theorem Beside.free_after (hr : Beside pg h live) {q : Nat × Nat} (hq : q ∈ live) (hfit : n ≤ q.2) :
    FreeFor (Heap.kfree h q.1) n := by
  obtain ⟨bs, hi⟩ := hr.inv
  obtain ⟨b, ht, hp, hsize⟩ := hi.exactly.taken q hq
  obtain ⟨bs', hb', -, ⟨c, hc, hcf, hcs⟩, -⟩ := kfree_spec hi.holds hi.mapped ht
  rw [hp] at hb'
  exact ⟨bs', hb', c, hc, hcf, by omega⟩

/-- After `heap_init` there is no block of 64 KiB. -/
theorem heapInit_small (m : Words) (p : P) (hn : heapMinExpand ≤ n) : ¬ FreeFor (heapInit pg m p) n := by
  rintro ⟨bs, hb, b, hmem, -, hfit⟩
  obtain ⟨-, ⟨-, hb'⟩ | hb'⟩ := heapInit_spec pg m p <;> rw [hb.unique hb'] at hmem
  · cases hmem
  · rw [List.mem_singleton] at hmem
    rw [hmem] at hfit
    simp only [headerSize, heapMinExpand] at *
    omega

end TypeOS.Heap
