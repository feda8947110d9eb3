import TypeOS.Heap.Window

/-! What frees leave behind: no two neighbours of the block list are both free, so when everything has been
    freed, in any order, one free block is left.

    The list can also be empty: `heap_init` sets no block up when it gets no memory. -/

namespace TypeOS.Heap

variable {P : Type} {pg : Pager P} {h : HeapState P} {live : List (Nat × Nat)} {bs : List Block}

/-- Requests of at most 2^32 bytes that stay below `KERNEL_HEAP_LIMIT`. -/
def Below (h : HeapState P) (n : Nat) : Prop := n ≤ 2 ^ 32 ∧ Room h n

theorem RunsFrom.room {m : Words} {p : P} (hr : RunsFrom pg Below (heapInit pg m p) h live) :
    ∃ bs, HeapInv h live bs ∧ ((heapInit pg m p).heapHead ≠ 0 → bs ≠ []) := by
  induction hr with
  | start => exact HeapInv.init pg m p
  | kmalloc n _ hok ih =>
    obtain ⟨bs, hi, hne⟩ := ih
    obtain ⟨bs', hi', hne'⟩ := hi.kmalloc pg (hok.2.spec hi.holds hok.1)
    exact ⟨bs', hi', fun hz => hne' (hne hz)⟩
  | kfreeNull _ ih => exact ih
  | kfree _ hq ih =>
    obtain ⟨bs, hi, -⟩ := ih
    obtain ⟨bs', hi', hne'⟩ := hi.kfree hq
    exact ⟨bs', hi', fun _ => hne'⟩
  | store a v _ hq ha hlo hhi ih =>
    obtain ⟨bs, hi, hne⟩ := ih
    exact ⟨bs, hi.store hq ha hlo hhi, hne⟩

/-- The blocks are one free block of all bytes of the window. -/
def OneFree (h : HeapState P) (bs : List Block) : Prop :=
  ∃ b, bs = [b] ∧ b.free = true ∧ b.addr = kernelHeapStart ∧
    b.addr + headerSize + b.size = h.heapCurrent

/-- A merged list without a taken block has one block, or none. -/
theorem HeapInv.oneFree (hi : HeapInv h [] bs) :
    OneFree h bs ∨ bs = [] ∧ h.heapHead = 0 ∧ h.heapCurrent = kernelHeapStart := by
  have hfree : ∀ b ∈ bs, b.free = true := by
    intro b hb
    by_contra hf
    obtain ⟨n, hn⟩ := hi.exactly.owned b ⟨hb, Bool.eq_false_of_not_eq_true hf⟩
    exact List.not_mem_nil hn
  have htiles := hi.holds.tiles
  match bs, hi, hfree, htiles with
  | [], hi, _, htiles => exact .inr ⟨rfl, hi.holds.head_eq, htiles.symm⟩
  | [b], hi, hfree, ⟨h1, h2⟩ =>
    refine .inl ⟨b, rfl, hfree b (List.mem_singleton_self b), h1, ?_⟩
    simp only [Block.extent] at h1 h2
    rw [← h2, h1, Nat.add_assoc]
  | b :: c :: bs, hi, hfree, _ =>
    have hb := hfree b (by simp)
    have hc := hfree c (by simp)
    rcases (List.isChain_cons_cons.mp hi.merged).1 with hf | hf
    · rw [hb] at hf
      cases hf
    · rw [hc] at hf
      cases hf

/-- In every state that a run from `heap_init` reaches, no two neighbours are both free. When nothing is
    allocated any more, one free block covers the window, unless `heap_init` failed and left the list
    empty, as it still is. -/
theorem frees_merge (m : Words) (p : P) (hr : RunsFrom pg Below (heapInit pg m p) h live) :
    ∃ bs, Holds h bs ∧ Merged bs ∧ (live = [] → OneFree h bs ∨
      (heapInit pg m p).heapHead = 0 ∧ bs = [] ∧ h.heapHead = 0 ∧ h.heapCurrent = kernelHeapStart) := by
  obtain ⟨bs, hi, hne⟩ := hr.room
  refine ⟨bs, hi.holds, hi.merged, ?_⟩
  rintro rfl
  rcases hi.oneFree with hone | ⟨rfl, hhead, hcur⟩
  · exact .inl hone
  · exact .inr ⟨not_not.mp fun hz => hne hz rfl, rfl, hhead, hcur⟩

/-- Two requests, freed in the order they were made. -/
theorem frees_merge_two :
    let h₁ := (kmalloc countingPager (heapInit countingPager (fun _ => 0) 20) 100).2
    let h₂ := (kmalloc countingPager h₁ 200).2
    ∃ bs, OneFree (kfree (kfree h₂ (kernelHeapStart + 32)) (kernelHeapStart + 176)) bs := by
  intro h₁ h₂
  have hp : (kmalloc countingPager (heapInit countingPager (fun _ => 0) 20) 100).1 =
      kernelHeapStart + 32 := by decide
  have hp' : (kmalloc countingPager h₁ 200).1 = kernelHeapStart + 176 := by decide +kernel
  have hstart : RunsFrom countingPager Below (heapInit countingPager (fun _ => 0) 20) _ _ := .start
  have hr := hstart.kmalloc 100 ⟨by decide, by decide⟩
  rw [hp, if_neg (by decide)] at hr
  have hr' := RunsFrom.kmalloc 200 hr ⟨by decide, by decide +kernel⟩
  rw [hp', if_neg (by decide)] at hr'
  have hfreed := (hr'.kfree (q := (kernelHeapStart + 32, 100)) (by simp)).kfree
    (q := (kernelHeapStart + 176, 200)) (by decide)
  obtain ⟨bs, -, -, hone⟩ := frees_merge _ _ hfreed
  exact ⟨bs, (hone (by decide)).resolve_right fun hz => absurd hz.1 (by decide)⟩

/-- Without memory for `heap_init` there is no block. -/
theorem no_block : ¬ ∀ (P : Type) (pg : Pager P) (m : Words) (p : P) (h : HeapState P)
    (live : List (Nat × Nat)), RunsFrom pg Below (heapInit pg m p) h live →
    ∃ bs, Holds h bs ∧ Merged bs ∧ (live = [] → OneFree h bs) := by
  intro hall
  obtain ⟨bs, hb, -, hone⟩ := hall Nat countingPager (fun _ => 0) 0 _ [] .start
  obtain ⟨b, rfl, -, haddr, -⟩ := hone rfl
  have hhead : (heapInit countingPager (fun _ => 0) 0).heapHead = 0 := by decide
  have hzero := hb.head_eq
  rw [hhead] at hzero
  simp only [List.map_cons, List.headD_cons, haddr] at hzero
  cases hzero

end TypeOS.Heap
