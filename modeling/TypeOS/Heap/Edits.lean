import TypeOS.Heap.Blocks

/-! The edits `kmalloc` and `kfree` make to the block list: setting a free flag, splitting a block,
    absorbing a neighbour and appending a block at the tail. -/

namespace TypeOS.Heap
open Tiling Segment

namespace BlockList

variable {m : Words} {head cur : Nat} {bs xs ys : List Block} {b : Block}

/-- The forward link of a block in the middle of the list. -/
theorem next_eq (h : BlockList m head cur (xs ++ b :: ys)) :
    blockNext m b.addr = (ys.map Block.addr).headD 0 := by
  have := h.linked
  rw [List.map_append, List.map_cons, linked_cut] at this
  exact this.2.2.1

/-- The backward link of a block in the middle of the list. -/
theorem prev_eq (h : BlockList m head cur (xs ++ b :: ys)) :
    blockPrev m b.addr = (xs.map Block.addr).getLastD 0 := by
  have := h.linked
  rw [List.map_append, List.map_cons, linked_cut] at this
  exact this.2.1

/-- A forward link that is not `NULL` is the address of the next block. -/
theorem next_mem (h : BlockList m head cur (xs ++ b :: ys)) (hne : blockNext m b.addr ≠ 0) :
    ∃ y ∈ ys, blockNext m b.addr = y.addr := by
  rw [h.next_eq] at hne ⊢
  cases ys with
  | nil => exact absurd rfl hne
  | cons y ys => exact ⟨y, List.mem_cons_self .., rfl⟩

/-- A forward link does not lead back. -/
theorem not_next (h : BlockList m head cur (xs ++ b :: ys)) {a : Nat} (ha : a ≤ b.addr) :
    ¬ (blockNext m b.addr ≠ 0 ∧ a = blockNext m b.addr) := by
  rintro ⟨hne, rfl⟩
  obtain ⟨y, hy, he⟩ := h.next_mem hne
  have := h.around.2 y hy
  simp only [headerSize] at this
  omega

/-- Of the blocks behind it, a block's forward link names exactly the first. -/
theorem next_iff (h : BlockList m head cur (xs ++ b :: ys)) {y : Block} (hy : y ∈ ys) :
    blockNext m b.addr ≠ 0 ∧ (y.addr = blockNext m b.addr ↔ ys.head? = some y) := by
  have hnd := h.addr_nodup
  rw [h.next_eq]
  cases ys with
  | nil => simp at hy
  | cons y' ys =>
    rw [List.map_append, List.map_cons, List.map_cons, List.nodup_append, List.nodup_cons,
      List.nodup_cons] at hnd
    refine ⟨h.addr_ne_zero (by simp), ?_⟩
    simp only [List.map_cons, List.headD_cons, List.head?_cons, Option.some.injEq]
    refine ⟨fun he => ?_, fun he => he ▸ rfl⟩
    rcases List.mem_cons.mp hy with rfl | hy
    · rfl
    · exact absurd (he ▸ List.mem_map_of_mem hy) hnd.2.1.2.1

/-! ### Setting the free flag -/

theorem setFree (h : BlockList m head cur (xs ++ b :: ys)) (f : Bool) :
    BlockList (setFree m b.addr f) head cur (xs ++ { b with free := f } :: ys) := by
  have hap : ∀ c ∈ xs ++ b :: ys, Apart b.addr c.addr := fun c hc => h.apart (by simp) hc
  have hne : ∀ c ∈ xs ++ ys, c.addr ≠ b.addr := by
    intro c hc
    rcases List.mem_append.mp hc with hc | hc
    · have := h.around.1 c hc; simp only [headerSize] at this; omega
    · have := h.around.2 c hc; simp only [headerSize] at this; omega
  have h' := BlockList.edit { b with free := f } [] [] ys (Heap.setFree m b.addr f) h rfl
    (fun x hx => ?_) (fun y hy => ?_) (fun y hy => ?_) (fun y hy _ => ?_) ?_ ?_ (fun lo hi ht => ht) ?_
  · exact h'
  · have ha := hap x (by simp [hx])
    refine ⟨blockSize_setFree f ha, ?_, blockNext_setFree f ha, blockPrev_setFree f ha⟩
    rw [blockFree_setFree, if_neg (hne x (by simp [hx]))]
  · have ha := hap y (by simp [hy])
    refine ⟨blockSize_setFree f ha, ?_, blockNext_setFree f ha⟩
    rw [blockFree_setFree, if_neg (hne y (by simp [hy]))]
  · have hmem : y ∈ ys := List.mem_of_mem_head? hy
    rw [blockPrev_setFree f (hap y (by simp [hmem]))]
    obtain ⟨ys', rfl⟩ : ∃ ys', ys = y :: ys' := by
      cases ys with
      | nil => simp at hy
      | cons z zs => exact ⟨zs, by simpa using hy⟩
    have := @prev_eq _ _ _ (xs ++ [b]) ys' y (by simpa using h)
    rw [this]; simp
  · exact blockPrev_setFree f (hap y (by simp [hy]))
  · simp only [List.map_cons, List.map_nil, linked_cons, List.headD_nil, linked_nil, and_true]
    rw [blockPrev_setFree f (Apart.refl _), blockNext_setFree f (Apart.refl _)]
    exact ⟨h.prev_eq, h.next_eq⟩
  · simp only [List.mem_singleton, forall_eq]
    rw [blockSize_setFree f (Apart.refl _), blockFree_setFree, if_pos rfl]
    exact ⟨(h.header b (by simp)).1, rfl⟩
  · simp only [List.mem_singleton, forall_eq]
    exact h.aligned b (by simp)

/-! ### Splitting a block -/

end BlockList

/-- The header at `c` after a split of the block at `b` that makes a new block. -/
structure SplitHeader (m m' : Words) (b n c : Nat) : Prop where
  size : blockSize m' c =
    if c = b then n else if c = b + 32 + n then blockSize m b - n - 32 else blockSize m c
  free : blockFree m' c = if c = b + 32 + n then true else blockFree m c
  next : blockNext m' c =
    if c = b then b + 32 + n else if c = b + 32 + n then blockNext m b else blockNext m c
  prev : blockPrev m' c = if blockNext m b ≠ 0 ∧ c = blockNext m b then b + 32 + n
    else if c = b + 32 + n then b else blockPrev m c

theorem splitBlock_fields {m : Words} {b size c : Nat} (hlt : b + 32 + blockSize m b < 2 ^ 64)
    (hbig : size + 48 ≤ blockSize m b) (hnx : blockNext m b ≠ 0 → Apart (blockNext m b) b ∧
      Apart (blockNext m b) (b + 32 + size) ∧ blockNext m b ≠ b + 32 + size)
    (hb : Apart b c) (hn : Apart (b + 32 + size) c)
    (hc : blockNext m b ≠ 0 → Apart (blockNext m b) c) :
    SplitHeader m (splitBlock m b size) b size c := by
  have hbn : Apart (b + 32 + size) b := by simp only [Apart, headerSize]; omega
  have hnn : Apart (b + 32 + size) (b + 32 + size) := Apart.refl _
  have hne : b + 32 + size ≠ b := by omega
  have hsmall : ¬ blockSize m b < u64 (size + headerSize + heapAlign) := by
    rw [u64_of_lt (by simp only [headerSize, heapAlign]; omega)]
    simp only [headerSize, heapAlign]; omega
  have hrest : u64Sub (u64Sub (blockSize m b) size) headerSize = blockSize m b - size - 32 := by
    rw [u64Sub_of_le (show size ≤ blockSize m b by omega) (by omega)]
    exact u64Sub_of_le (by simp only [headerSize]; omega) (by omega)
  rw [splitBlock, if_neg hsmall, u64_of_lt (by simp only [headerSize]; omega), hrest]
  simp only [headerSize]
  -- the new header's forward link is the old one of the block that is split
  have hnext : blockNext (setPrev (setNext (setFree (setSize m (b + 32 + size)
      (blockSize m b - size - 32)) (b + 32 + size) true) (b + 32 + size)
      (blockNext (setFree (setSize m (b + 32 + size) (blockSize m b - size - 32))
        (b + 32 + size) true) b)) (b + 32 + size) b) (b + 32 + size) = blockNext m b := by
    rw [blockNext_setPrev _ hnn, blockNext_setNext, if_pos rfl, blockNext_setFree _ hbn,
      blockNext_setSize _ hbn]
  rw [hnext]
  by_cases h0 : blockNext m b ≠ 0
  · obtain ⟨hxb, hxn, hxne⟩ := hnx h0
    have hxc := hc h0
    rw [if_pos h0]
    refine ⟨?_, ?_, ?_, ?_⟩
    · simp only [blockSize_setSize, blockSize_setFree _ hn, blockSize_setNext _ hb,
        blockSize_setNext _ hn, blockSize_setPrev _ hn, blockSize_setPrev _ hxc]
    · simp only [blockFree_setFree, blockFree_setSize _ hb, blockFree_setSize _ hn,
        blockFree_setNext _ hb, blockFree_setNext _ hn, blockFree_setPrev _ hn,
        blockFree_setPrev _ hxc]
    · simp only [blockNext_setNext, blockNext_setSize _ hb, blockNext_setSize _ hn,
        blockNext_setFree _ hn, blockNext_setPrev _ hn, blockNext_setPrev _ hxc,
        blockNext_setFree _ hbn, blockNext_setSize _ hbn]
    · simp only [blockPrev_setPrev, blockPrev_setSize _ hb, blockPrev_setSize _ hn,
        blockPrev_setFree _ hn, blockPrev_setNext _ hb, blockPrev_setNext _ hn, h0, ne_eq,
        not_false_eq_true, true_and]
  · rw [if_neg h0]
    refine ⟨?_, ?_, ?_, ?_⟩
    · simp only [blockSize_setSize, blockSize_setFree _ hn, blockSize_setNext _ hb,
        blockSize_setNext _ hn, blockSize_setPrev _ hn]
    · simp only [blockFree_setFree, blockFree_setSize _ hb, blockFree_setSize _ hn,
        blockFree_setNext _ hb, blockFree_setNext _ hn, blockFree_setPrev _ hn]
    · simp only [blockNext_setNext, blockNext_setSize _ hb, blockNext_setSize _ hn,
        blockNext_setFree _ hn, blockNext_setPrev _ hn, blockNext_setFree _ hbn,
        blockNext_setSize _ hbn]
    · simp only [blockPrev_setPrev, blockPrev_setSize _ hb, blockPrev_setSize _ hn,
        blockPrev_setFree _ hn, blockPrev_setNext _ hb, blockPrev_setNext _ hn, h0, false_and,
        if_false]

namespace BlockList
variable {m : Words} {head cur size : Nat} {xs ys : List Block} {b : Block}

/-- A block too small to be split keeps its bytes. -/
theorem split_small (h : BlockList m head cur (xs ++ b :: ys)) (hsmall : b.size < size + 48)
    (hlt : size + 48 < 2 ^ 64) : splitBlock m b.addr size = m := by
  rw [splitBlock, if_pos]
  rw [(h.header b (by simp)).1, u64_of_lt (by simp only [headerSize, heapAlign]; omega)]
  simp only [headerSize, heapAlign]; omega

/-- The header of every block of the list after a split, and of the new one. -/
theorem splitHeader (h : BlockList m head cur (xs ++ b :: ys)) (hcur : cur ≤ kernelHeapLimit)
    (hbig : size + 48 ≤ b.size) :
    (∀ c ∈ xs ++ b :: ys, SplitHeader m (splitBlock m b.addr size) b.addr size c.addr) ∧
    SplitHeader m (splitBlock m b.addr size) b.addr size (b.addr + 32 + size) := by
  have hbef := h.around.1
  have haft := h.around.2
  simp only [headerSize] at hbef haft
  have hsz := (h.header b (by simp)).1
  have hlt : b.addr + 32 + blockSize m b.addr < 2 ^ 64 := by
    have := (h.bounds (b := b) (by simp)).2
    simp only [headerSize, kernelHeapLimit] at this hcur
    omega
  have hnx : blockNext m b.addr ≠ 0 → Apart (blockNext m b.addr) b.addr ∧
      Apart (blockNext m b.addr) (b.addr + 32 + size) ∧
      blockNext m b.addr ≠ b.addr + 32 + size := by
    intro hne
    obtain ⟨y, hy, he⟩ := h.next_mem hne
    have := haft y hy
    rw [he]; simp only [Apart, headerSize]; omega
  refine ⟨fun c hc => splitBlock_fields hlt (hsz ▸ hbig) hnx (h.apart (by simp) hc) ?_ fun hne => ?_,
    splitBlock_fields hlt (hsz ▸ hbig) hnx (by simp only [Apart, headerSize]; omega) (Apart.refl _)
      fun hne => (hnx hne).2.1⟩
  · rcases List.mem_append.mp hc with hx | hx
    · have := hbef c hx; simp only [Apart, headerSize]; omega
    rcases List.mem_cons.mp hx with rfl | hx
    · simp only [Apart, headerSize]; omega
    · have := haft c hx; simp only [Apart, headerSize]; omega
  · obtain ⟨y, hy, he⟩ := h.next_mem hne
    rw [he]; exact h.apart (by simp [hy]) hc

/-- Splitting makes a free block of the bytes behind the first `size`. -/
theorem split (h : BlockList m head cur (xs ++ b :: ys)) (hcur : cur ≤ kernelHeapLimit)
    (hbig : size + 48 ≤ b.size) (hal : size % heapAlign = 0) :
    BlockList (splitBlock m b.addr size) head cur
      (xs ++ { b with size := size } :: ⟨b.addr + 32 + size, b.size - size - 32, true⟩ :: ys) := by
  have hbef := h.around.1
  have haft := h.around.2
  simp only [headerSize] at hbef haft
  have hsz := (h.header b (by simp)).1
  obtain ⟨hold, hnew⟩ := h.splitHeader hcur hbig
  have hself := hold b (by simp)
  have hne0 : b.addr + 32 + size ≠ b.addr := by omega
  refine BlockList.edit { b with size := size } [] [⟨b.addr + 32 + size, b.size - size - 32, true⟩] ys
    _ h rfl (fun x hx => ?_) (fun y hy => ?_) (fun y hy => ?_)
    (fun y hy hyh => ?_) ?_ ?_ (fun lo hi ht => ?_) ?_
  · have hx' := hold x (by simp [hx])
    have := hbef x hx
    have hxb : x.addr ≠ b.addr := by omega
    have hxn : x.addr ≠ b.addr + 32 + size := by omega
    refine ⟨?_, ?_, ?_, ?_⟩
    · rw [hx'.size, if_neg hxb, if_neg hxn]
    · rw [hx'.free, if_neg hxn]
    · rw [hx'.next, if_neg hxb, if_neg hxn]
    · rw [hx'.prev, if_neg (h.not_next (by omega)), if_neg hxn]
  · have hy' := hold y (by simp [hy])
    have := haft y hy
    have hyb : y.addr ≠ b.addr := by omega
    have hyn : y.addr ≠ b.addr + 32 + size := by omega
    refine ⟨?_, ?_, ?_⟩
    · rw [hy'.size, if_neg hyb, if_neg hyn]
    · rw [hy'.free, if_neg hyn]
    · rw [hy'.next, if_neg hyb, if_neg hyn]
  · have hmem : y ∈ ys := List.mem_of_mem_head? hy
    obtain ⟨hn0, hiff⟩ := h.next_iff hmem
    rw [(hold y (by simp [hmem])).prev, if_pos ⟨hn0, hiff.mpr hy⟩]
    rfl
  · obtain ⟨hn0, hiff⟩ := h.next_iff hy
    have := haft y hy
    rw [(hold y (by simp [hy])).prev, if_neg (fun hc => hyh (hiff.mp hc.2)), if_neg (by omega)]
  · simp only [List.map_cons, List.map_nil, linked_cons, List.headD_cons, List.headD_nil,
      linked_nil, and_true]
    refine ⟨?_, ?_, ?_, ?_⟩
    · rw [hself.prev, if_neg (h.not_next le_rfl), if_neg hne0.symm]
      exact h.prev_eq
    · rw [hself.next, if_pos rfl]
    · rw [hnew.prev, if_neg fun hc => ?_, if_pos rfl]
      obtain ⟨y, hy, he⟩ := h.next_mem hc.1
      have := haft y hy
      omega
    · rw [hnew.next, if_neg hne0, if_pos rfl]
      exact h.next_eq
  · intro c hc
    rcases List.mem_cons.mp hc with rfl | hc
    · exact ⟨hself.size.trans (if_pos rfl),
        (hself.free.trans (if_neg hne0.symm)).trans (h.header b (by simp)).2⟩
    · rw [List.mem_singleton] at hc
      subst hc
      refine ⟨?_, hnew.free.trans (if_pos rfl)⟩
      rw [hnew.size, if_neg hne0, if_pos rfl, hsz]
  · simp only [List.map_cons, List.map_nil, tiles_cons, tiles_nil, Block.extent, headerSize] at *
    omega
  · obtain ⟨h1, h2⟩ := h.aligned b (by simp)
    simp only [heapAlign] at *
    intro c hc
    rcases List.mem_cons.mp hc with rfl | hc
    · exact ⟨h1, hal⟩
    · rw [List.mem_singleton] at hc
      subst hc
      simp only
      omega

end BlockList

/-! ### Coalescing -/

/-- What both halves of `coalesce` do: `p` takes over the bytes of `c`, its successor. -/
def absorb (m : Words) (p c : Nat) : Words :=
  let m' := setNext (setSize m p (u64 (blockSize m p + (headerSize + blockSize m c)))) p (blockNext m c)
  if blockNext m c ≠ 0 then setPrev m' (blockNext m c) p else m'

/-- The header at `d` after `p` has taken over the bytes of `c`. -/
structure AbsorbHeader (m m' : Words) (p c d : Nat) : Prop where
  size : blockSize m' d =
    if d = p then u64 (blockSize m p + (headerSize + blockSize m c)) else blockSize m d
  free : blockFree m' d = blockFree m d
  next : blockNext m' d = if d = p then blockNext m c else blockNext m d
  prev : blockPrev m' d = if blockNext m c ≠ 0 ∧ d = blockNext m c then p else blockPrev m d

theorem absorb_fields {m : Words} {p c d : Nat} (hp : Apart p d)
    (hn : blockNext m c ≠ 0 → Apart (blockNext m c) d) : AbsorbHeader m (absorb m p c) p c d := by
  rw [absorb]
  by_cases h0 : blockNext m c ≠ 0
  · have hnd := hn h0
    rw [if_pos h0]
    refine ⟨?_, ?_, ?_, ?_⟩
    · rw [blockSize_setPrev _ hnd, blockSize_setNext _ hp, blockSize_setSize]
    · rw [blockFree_setPrev _ hnd, blockFree_setNext _ hp, blockFree_setSize _ hp]
    · rw [blockNext_setPrev _ hnd, blockNext_setNext, blockNext_setSize _ hp]
    · rw [blockPrev_setPrev, blockPrev_setNext _ hp, blockPrev_setSize _ hp]
      simp only [h0, ne_eq, not_false_eq_true, true_and]
  · rw [if_neg h0]
    refine ⟨?_, ?_, ?_, ?_⟩
    · rw [blockSize_setNext _ hp, blockSize_setSize]
    · rw [blockFree_setNext _ hp, blockFree_setSize _ hp]
    · rw [blockNext_setNext, blockNext_setSize _ hp]
    · rw [blockPrev_setNext _ hp, blockPrev_setSize _ hp, if_neg (fun hc => h0 hc.1)]

namespace BlockList
variable {m : Words} {head cur : Nat} {bs xs ys : List Block} {b c : Block}

/-- Absorbing the next block merges the two. -/
theorem absorb_next (h : BlockList m head cur (xs ++ b :: c :: ys)) (hcur : cur ≤ kernelHeapLimit) :
    BlockList (absorb m b.addr c.addr) head cur
      (xs ++ { b with size := b.size + (headerSize + c.size) } :: ys) := by
  have hc : BlockList m head cur ((xs ++ [b]) ++ c :: ys) := by simpa using h
  have hbef := h.around.1
  have haft := hc.around.2
  have hbc := h.around.2 c (by simp)
  simp only [headerSize] at hbef haft hbc
  have hfields : ∀ d ∈ xs ++ b :: c :: ys, AbsorbHeader m (absorb m b.addr c.addr) b.addr c.addr d.addr :=
    fun d hd => absorb_fields (h.apart (b := b) (by simp) hd) fun hne => by
      obtain ⟨y, hy, he⟩ := hc.next_mem hne
      rw [he]; exact h.apart (by simp [hy]) hd
  have hself := hfields b (by simp)
  have h' := BlockList.edit { b with size := b.size + (headerSize + c.size) } [c] [] ys
    (absorb m b.addr c.addr) h rfl
    (fun x hx => ?_) (fun y hy => ?_) (fun y hy => ?_) (fun y hy hyh => ?_) ?_ ?_
    (fun lo hi ht => ?_) ?_
  · exact h'
  · have hx' := hfields x (by simp [hx])
    have := hbef x hx
    have hxb : x.addr ≠ b.addr := by omega
    exact ⟨hx'.size.trans (if_neg hxb), hx'.free, hx'.next.trans (if_neg hxb),
      hx'.prev.trans (if_neg (hc.not_next (by omega)))⟩
  · have hy' := hfields y (by simp [hy])
    have := haft y hy
    have hyb : y.addr ≠ b.addr := by omega
    exact ⟨hy'.size.trans (if_neg hyb), hy'.free, hy'.next.trans (if_neg hyb)⟩
  · have hmem : y ∈ ys := List.mem_of_mem_head? hy
    obtain ⟨hn0, hiff⟩ := hc.next_iff hmem
    rw [(hfields y (by simp [hmem])).prev, if_pos ⟨hn0, hiff.mpr hy⟩]
    rfl
  · obtain ⟨hn0, hiff⟩ := hc.next_iff hy
    rw [(hfields y (by simp [hy])).prev, if_neg (fun he => hyh (hiff.mp he.2))]
  · simp only [List.map_cons, List.map_nil, linked_cons, List.headD_nil, linked_nil, and_true]
    refine ⟨?_, ?_⟩
    · rw [hself.prev, if_neg (hc.not_next (by omega))]
      exact h.prev_eq
    · rw [hself.next, if_pos rfl]
      exact hc.next_eq
  · simp only [List.mem_singleton, forall_eq]
    have hend := (h.bounds (b := c) (by simp)).2
    simp only [headerSize, kernelHeapLimit] at hend hcur
    refine ⟨?_, hself.free.trans (h.header b (by simp)).2⟩
    rw [hself.size, if_pos rfl, (h.header b (by simp)).1, (h.header c (by simp)).1,
      u64_of_lt (by simp only [headerSize]; omega)]
  · simp only [List.map_cons, List.map_nil, tiles_cons, tiles_nil, Block.extent, headerSize] at *
    omega
  · simp only [List.mem_singleton, forall_eq]
    have h1 := h.aligned b (by simp)
    have h2 := h.aligned c (by simp)
    simp only [heapAlign, headerSize] at *
    omega

/-- The first half of `coalesce`: a free successor is absorbed, any other stays. -/
theorem coalesceNext (h : BlockList m head cur (xs ++ b :: ys)) (hcur : cur ≤ kernelHeapLimit) :
    ∃ b' ys', BlockList (coalesceNext m b.addr) head cur (xs ++ b' :: ys') ∧
      b'.addr = b.addr ∧ b'.free = b.free ∧
      ((b' = b ∧ ys' = ys ∧ ∀ y ∈ ys.head?, y.free = false) ∨ ∃ c, c.free = true ∧ ys = c :: ys' ∧
        b'.size = b.size + (headerSize + c.size)) := by
  cases ys with
  | nil =>
    have hn := h.next_eq
    rw [List.map_nil, List.headD_nil] at hn
    exact ⟨b, [], by rwa [Heap.coalesceNext, if_neg (fun hc => hc.1 hn)], rfl, rfl,
      Or.inl ⟨rfl, rfl, nofun⟩⟩
  | cons c ys =>
    have hn : blockNext m b.addr = c.addr := h.next_eq
    have hfree : blockFree m c.addr = c.free := (h.header c (by simp)).2
    have hbc : Apart b.addr c.addr := h.apart (by simp) (by simp)
    cases hf : c.free with
    | false =>
      refine ⟨b, c :: ys, ?_, rfl, rfl, Or.inl ⟨rfl, rfl, by simpa using hf⟩⟩
      rwa [Heap.coalesceNext, if_neg]
      rw [hn, hfree, hf]
      simp
    | true =>
      refine ⟨{ b with size := b.size + (headerSize + c.size) }, ys, ?_, rfl, rfl,
        Or.inr ⟨c, hf, rfl, rfl⟩⟩
      have habs : Heap.coalesceNext m b.addr = absorb m b.addr c.addr := by
        rw [Heap.coalesceNext, if_pos ⟨by rw [hn]; exact h.addr_ne_zero (by simp),
          by rw [hn, hfree, hf]⟩, absorb]
        simp only [hn, blockNext_setSize _ (Apart.refl b.addr), blockNext_setSize _ hbc,
          blockNext_setNext, if_true]
      rw [habs]
      exact h.absorb_next hcur

/-- The second half of `coalesce`: a free predecessor absorbs the block, any other stays. -/
theorem coalescePrev (h : BlockList m head cur (xs ++ b :: ys)) (hcur : cur ≤ kernelHeapLimit) :
    ∃ xs' b', BlockList (coalescePrev m b.addr) head cur (xs' ++ b' :: ys) ∧
      ((xs' = xs ∧ b' = b ∧ ∀ x ∈ xs.getLast?, x.free = false) ∨
        ∃ a, a.free = true ∧ xs = xs' ++ [a] ∧ b'.addr = a.addr ∧ b'.free = true ∧
          b'.size = a.size + (headerSize + b.size)) := by
  rcases List.eq_nil_or_concat xs with rfl | ⟨xs, a, rfl⟩
  · have hp := h.prev_eq
    rw [List.map_nil] at hp
    exact ⟨[], b, by rwa [Heap.coalescePrev, if_neg (fun hc => hc.1 hp)], Or.inl ⟨rfl, rfl, nofun⟩⟩
  · rw [List.concat_eq_append] at *
    have h2 : BlockList m head cur (xs ++ a :: b :: ys) := by simpa using h
    have hp : blockPrev m b.addr = a.addr := by rw [h.prev_eq]; simp
    have hfree : blockFree m a.addr = a.free := (h2.header a (by simp)).2
    have hab : Apart a.addr b.addr := h2.apart (by simp) (by simp)
    have hne : b.addr ≠ a.addr := by
      have := h2.around.2 b (by simp)
      simp only [headerSize] at this; omega
    cases hf : a.free with
    | false =>
      refine ⟨xs ++ [a], b, ?_, Or.inl ⟨rfl, rfl, by simpa using hf⟩⟩
      rwa [Heap.coalescePrev, if_neg]
      rw [hp, hfree, hf]
      simp
    | true =>
      refine ⟨xs, { a with size := a.size + (headerSize + b.size) }, ?_,
        Or.inr ⟨a, hf, rfl, rfl, hf, rfl⟩⟩
      have habs : Heap.coalescePrev m b.addr = absorb m a.addr b.addr := by
        rw [Heap.coalescePrev, if_pos ⟨by rw [hp]; exact h2.addr_ne_zero (by simp),
          by rw [hp, hfree, hf]⟩, absorb]
        simp only [hp, blockNext_setNext, if_neg hne, blockNext_setSize _ hab]
      rw [habs]
      exact h2.absorb_next hcur

/-! ### The list as `kmalloc` walks it -/

/-- The first fit loop finds the first free block that is large enough. -/
theorem findBlock_eq (size : Nat) : ∀ {p fuel : Nat} {bs : List Block},
    Linked (blockNext m) (blockPrev m) p (bs.map Block.addr) 0 →
    (∀ b ∈ bs, b.addr ≠ 0 ∧ blockSize m b.addr = b.size ∧ blockFree m b.addr = b.free) →
    bs.length ≤ fuel →
    findBlock m size fuel ((bs.map Block.addr).headD 0) =
      ((bs.find? fun b => b.free && decide (size ≤ b.size)).map Block.addr).getD 0
  | _, 0, [], _, _, _ => rfl
  | _, fuel + 1, [], _, _, _ => rfl
  | _, 0, b :: bs, _, _, hf => by simp at hf
  | _, fuel + 1, b :: bs, ⟨_, hn, hl⟩, hb, hf => by
    obtain ⟨h0, h1, h2⟩ := hb b (by simp)
    have ih := findBlock_eq size hl (fun c hc => hb c (by simp [hc]))
      (by simpa using hf : bs.length ≤ fuel)
    rw [List.map_cons, List.headD_cons, findBlock, if_neg h0, h1, h2, List.find?_cons]
    by_cases hfit : b.free = true ∧ size ≤ b.size
    · rw [if_neg (by simp [hfit.1]; omega), show (b.free && decide (size ≤ b.size)) = true by
        simp [hfit.1, hfit.2]]
      rfl
    · have hcond : (!b.free || decide (b.size < size)) = true := by
        cases hbf : b.free
        · rfl
        · simp only [hbf, true_and, not_le] at hfit; simp [hfit]
      rw [if_pos (by simpa using hcond), hn, ih,
        show (b.free && decide (size ≤ b.size)) = false by
          cases hbf : b.free <;> simp_all]

/-- The tail loop ends at the last block. -/
theorem findTail_eq : ∀ {p fuel a : Nat} {l : List Nat},
    Linked (blockNext m) (blockPrev m) p (a :: l) 0 → (∀ c ∈ l, c ≠ 0) → l.length ≤ fuel →
    findTail m fuel a = l.getLastD a
  | _, 0, a, [], _, _, _ => rfl
  | _, fuel + 1, a, [], ⟨_, hn, _⟩, _, _ => by
    rw [List.headD_nil] at hn
    rw [findTail, if_neg (fun h => h hn)]; rfl
  | _, 0, a, _ :: _, _, _, hf => by simp at hf
  | _, fuel + 1, a, c :: l, ⟨_, hn, hl⟩, h0, hf => by
    rw [List.headD_cons] at hn
    rw [findTail, if_pos (by rw [hn]; exact h0 c (by simp)), hn,
      findTail_eq hl (fun d hd => h0 d (by simp [hd])) (by simpa using hf), List.getLastD_cons]

/-! ### Appending at the tail -/

end BlockList

/-- The header of the block that `kmalloc` makes behind the heap. -/
def putHeader (m : Words) (c size : Nat) : Words :=
  setPrev (setNext (setFree (setSize m c size) c false) c 0) c 0

/-- The new block becomes the one behind the tail. -/
def linkTail (m : Words) (tail c : Nat) : Words := setPrev (setNext m tail c) c tail

theorem putHeader_self (m : Words) (c size : Nat) :
    blockSize (putHeader m c size) c = size ∧ blockFree (putHeader m c size) c = false ∧
    blockNext (putHeader m c size) c = 0 ∧ blockPrev (putHeader m c size) c = 0 := by
  have hself := Apart.refl c
  refine ⟨?_, ?_, ?_, ?_⟩ <;> rw [putHeader]
  · rw [blockSize_setPrev _ hself, blockSize_setNext _ hself, blockSize_setFree _ hself,
      blockSize_setSize, if_pos rfl]
  · rw [blockFree_setPrev _ hself, blockFree_setNext _ hself, blockFree_setFree, if_pos rfl]
  · rw [blockNext_setPrev _ hself, blockNext_setNext, if_pos rfl]
  · rw [blockPrev_setPrev, if_pos rfl]

theorem putHeader_other {m : Words} {c d : Nat} (size : Nat) (ha : Apart c d) (hne : d ≠ c) :
    BlockList.SameHeader m (putHeader m c size) d := by
  refine ⟨?_, ?_, ?_, ?_⟩ <;> rw [putHeader]
  · rw [blockSize_setPrev _ ha, blockSize_setNext _ ha, blockSize_setFree _ ha, blockSize_setSize,
      if_neg hne]
  · rw [blockFree_setPrev _ ha, blockFree_setNext _ ha, blockFree_setFree, if_neg hne,
      blockFree_setSize _ ha]
  · rw [blockNext_setPrev _ ha, blockNext_setNext, if_neg hne, blockNext_setFree _ ha,
      blockNext_setSize _ ha]
  · rw [blockPrev_setPrev, if_neg hne, blockPrev_setNext _ ha, blockPrev_setFree _ ha,
      blockPrev_setSize _ ha]

theorem linkTail_fields {m : Words} {tail c d : Nat} (ht : Apart tail d) (hc : Apart c d) :
    blockSize (linkTail m tail c) d = blockSize m d ∧ blockFree (linkTail m tail c) d = blockFree m d ∧
    blockNext (linkTail m tail c) d = (if d = tail then c else blockNext m d) ∧
    blockPrev (linkTail m tail c) d = (if d = c then tail else blockPrev m d) := by
  refine ⟨?_, ?_, ?_, ?_⟩ <;> rw [linkTail]
  · rw [blockSize_setPrev _ hc, blockSize_setNext _ ht]
  · rw [blockFree_setPrev _ hc, blockFree_setNext _ ht]
  · rw [blockNext_setPrev _ hc, blockNext_setNext]
  · rw [blockPrev_setPrev, blockPrev_setNext _ ht]

namespace BlockList

variable {m : Words} {head cur : Nat} {bs xs : List Block} {b : Block}

/-- The end of the tiled window is as aligned as its blocks. -/
theorem cur_aligned (h : BlockList m head cur bs) : cur % heapAlign = 0 := by
  rcases List.eq_nil_or_concat bs with rfl | ⟨bs, b, rfl⟩
  · have := h.tiles
    rw [List.map_nil, tiles_nil] at this
    rw [← this]; rfl
  · rw [List.concat_eq_append] at h
    have ht := h.tiles
    rw [List.map_append, List.map_cons, List.map_nil, tiles_cut] at ht
    have hal := h.aligned b (by simp)
    simp only [Block.extent, tiles_nil, headerSize, heapAlign] at ht hal ⊢
    omega

/-- On an empty list the tail extension of `kmalloc` makes the first block. -/
theorem append_nil {P : Type} {s : HeapState P} {expand : Nat}
    (h : BlockList s.mem s.heapHead s.heapCurrent []) (hexp : headerSize ≤ expand)
    (hal : expand % heapAlign = 0) (hlim : s.heapCurrent + expand ≤ kernelHeapLimit) :
    BlockList (appendBlock s expand).mem (appendBlock s expand).heapHead
      (appendBlock s expand).heapCurrent [⟨s.heapCurrent, expand - headerSize, false⟩] := by
  have hhead : s.heapHead = 0 := h.head_eq
  have htiles : kernelHeapStart = s.heapCurrent := h.tiles
  obtain ⟨hsize, hfree, hnext, hprev⟩ := putHeader_self s.mem s.heapCurrent (expand - headerSize)
  have hstate : appendBlock s expand = ⟨putHeader s.mem s.heapCurrent (expand - headerSize),
      s.heapCurrent, s.heapCurrent + expand, s.heapMappedEnd, s.pager⟩ := by
    rw [appendBlock]
    simp only [if_neg (fun hc : s.heapHead ≠ 0 => hc hhead),
      u64_of_lt (show s.heapCurrent + expand < 2 ^ 64 by simp only [kernelHeapLimit] at hlim; omega)]
    rfl
  rw [hstate]
  refine ⟨rfl, ⟨hprev, hnext, trivial⟩, ?_, ?_, ?_⟩
  · simp only [List.mem_singleton, forall_eq]
    exact ⟨hsize, hfree⟩
  · simp only [List.map_cons, List.map_nil, tiles_cons, tiles_nil, Block.extent]
    omega
  · simp only [List.mem_singleton, forall_eq]
    simp only [heapAlign, headerSize, kernelHeapStart] at *
    omega

/-- The tail loop finds the last block, whatever was written apart from the list. -/
theorem findTail_concat (h : BlockList m head cur (xs ++ [b])) {m' : Words} {fuel : Nat}
    (hsame : ∀ c ∈ xs ++ [b], SameHeader m m' c.addr) (hfuel : xs.length ≤ fuel) :
    findTail m' fuel head = b.addr := by
  have hl : Linked (blockNext m') (blockPrev m') 0 ((xs ++ [b]).map Block.addr) 0 :=
    h.linked.frame fun a ha => by
      obtain ⟨c, hc, rfl⟩ := List.mem_map.mp ha
      exact (hsame c hc).2.2
  have h0 : ∀ a ∈ (xs ++ [b]).map Block.addr, a ≠ 0 := fun a ha => by
    obtain ⟨c, hc, rfl⟩ := List.mem_map.mp ha
    exact h.addr_ne_zero hc
  rw [h.head_eq]
  cases xs with
  | nil => exact findTail_eq hl (by simp) (by simp)
  | cons x xs =>
    have := findTail_eq hl (fun a ha => h0 a (List.mem_cons_of_mem _ ha)) (by simpa using hfuel)
    rw [List.cons_append, List.map_cons, List.headD_cons]
    simpa using this

/-- Behind the blocks of a list it writes a header and links it behind the last one. -/
theorem appendBlock_concat {P : Type} {s : HeapState P} {expand : Nat}
    (h : BlockList s.mem s.heapHead s.heapCurrent (xs ++ [b]))
    (hsame : ∀ c ∈ xs ++ [b], SameHeader s.mem
      (putHeader s.mem s.heapCurrent (expand - headerSize)) c.addr)
    (hlim : s.heapCurrent + expand ≤ kernelHeapLimit) :
    appendBlock s expand =
      ⟨linkTail (putHeader s.mem s.heapCurrent (expand - headerSize)) b.addr s.heapCurrent,
        s.heapHead, s.heapCurrent + expand, s.heapMappedEnd, s.pager⟩ := by
  have hhead : s.heapHead ≠ 0 := by
    rw [h.head_eq]
    cases xs with
    | nil => exact h.addr_ne_zero (by simp)
    | cons x xs => exact h.addr_ne_zero (by simp)
  have hfuel : xs.length ≤ listFuel s := by
    have := h.length_le
    rw [List.length_append, List.length_singleton] at this
    rw [listFuel]
    omega
  have htail := h.findTail_concat hsame hfuel
  rw [putHeader] at htail
  rw [appendBlock]
  simp only
  rw [if_pos hhead, htail, u64_of_lt (by simp only [kernelHeapLimit] at hlim; omega)]
  rfl

/-- Behind the blocks of a list it appends one taken block that covers the new bytes. -/
theorem append_concat {P : Type} {s : HeapState P} {expand : Nat}
    (h : BlockList s.mem s.heapHead s.heapCurrent bs) (hne : bs ≠ [])
    (hexp : headerSize ≤ expand) (hal : expand % heapAlign = 0)
    (hlim : s.heapCurrent + expand ≤ kernelHeapLimit) :
    BlockList (appendBlock s expand).mem (appendBlock s expand).heapHead
      (appendBlock s expand).heapCurrent
      (bs ++ [⟨s.heapCurrent, expand - headerSize, false⟩]) := by
  obtain ⟨xs, b, rfl⟩ := (List.eq_nil_or_concat bs).resolve_left hne
  rw [List.concat_eq_append] at *
  have hend : ∀ c ∈ xs ++ [b], c.addr + 32 ≤ s.heapCurrent := by
    intro c hc
    have := (h.bounds hc).2
    simp only [headerSize] at this
    omega
  have hap : ∀ c ∈ xs ++ [b], Apart s.heapCurrent c.addr := by
    intro c hc
    have := hend c hc
    simp only [Apart, headerSize]
    omega
  have hold : ∀ c ∈ xs ++ [b], c.addr ≠ s.heapCurrent := fun c hc => by
    have := hend c hc
    omega
  -- the new header is written first, and leaves every block of the list as it is
  have hsame : ∀ c ∈ xs ++ [b], SameHeader s.mem
      (putHeader s.mem s.heapCurrent (expand - headerSize)) c.addr :=
    fun c hc => putHeader_other _ (hap c hc) (hold c hc)
  obtain ⟨hsize, hfree, hnext, hprev⟩ := putHeader_self s.mem s.heapCurrent (expand - headerSize)
  rw [h.appendBlock_concat hsame hlim]
  -- then the link to it is written
  have hfields := fun c hc => @linkTail_fields (putHeader s.mem s.heapCurrent (expand - headerSize))
    b.addr s.heapCurrent c.addr (h.apart (by simp) hc) (hap c hc)
  obtain ⟨nsize, nfree, nnext, nprev⟩ :=
    @linkTail_fields (putHeader s.mem s.heapCurrent (expand - headerSize)) b.addr s.heapCurrent
      s.heapCurrent (hap b (by simp)).symm (Apart.refl _)
  refine ⟨?_, ?_, ?_, ?_, ?_⟩
  · rw [h.head_eq]
    cases xs <;> simp
  · rw [List.map_append (f := Block.addr), linked_append]
    refine ⟨h.linked.retarget ?_ ?_ ?_ h.addr_nodup, ?_⟩
    · intro a ha
      simp only [List.map_append, List.map_cons, List.map_nil, List.getLast?_concat,
        Option.some.injEq] at ha
      subst ha
      rw [(hfields b (by simp)).2.2.1, if_pos rfl]
      rfl
    · intro a ha hl
      obtain ⟨c, hc, rfl⟩ := List.mem_map.mp ha
      rw [(hfields c hc).2.2.1, if_neg, (hsame c hc).2.2.1]
      intro he
      exact hl (by simp [he])
    · intro a ha
      obtain ⟨c, hc, rfl⟩ := List.mem_map.mp ha
      rw [(hfields c hc).2.2.2, if_neg (hold c hc), (hsame c hc).2.2.2]
    · simp only [List.map_append, List.map_cons, List.map_nil, linked_cons, List.headD_nil,
        linked_nil, and_true, List.getLastD_concat]
      refine ⟨by rw [nprev, if_pos rfl], ?_⟩
      rw [nnext, if_neg (hold b (by simp)).symm, hnext]
  · intro c hc
    rcases List.mem_append.mp hc with hc | hc
    · obtain ⟨h1, h2⟩ := h.header c hc
      obtain ⟨f1, f2, -, -⟩ := hfields c hc
      exact ⟨by rw [f1, (hsame c hc).1, h1], by rw [f2, (hsame c hc).2.1, h2]⟩
    · rw [List.mem_singleton] at hc
      subst hc
      exact ⟨nsize.trans hsize, nfree.trans hfree⟩
  · rw [List.map_append, tiles_append]
    refine ⟨s.heapCurrent, h.tiles, ?_⟩
    simp only [List.map_cons, List.map_nil, tiles_cons, tiles_nil, Block.extent, true_and]
    omega
  · have hcal := h.cur_aligned
    intro c hc
    rcases List.mem_append.mp hc with hc | hc
    · exact h.aligned c hc
    · rw [List.mem_singleton] at hc
      subst hc
      simp only [headerSize, heapAlign] at *
      omega

/-- The tail extension of `kmalloc` appends one taken block that covers the new bytes. -/
theorem append {P : Type} {s : HeapState P} {expand : Nat}
    (h : BlockList s.mem s.heapHead s.heapCurrent bs) (hexp : headerSize ≤ expand)
    (hal : expand % heapAlign = 0) (hlim : s.heapCurrent + expand ≤ kernelHeapLimit) :
    BlockList (appendBlock s expand).mem (appendBlock s expand).heapHead
      (appendBlock s expand).heapCurrent
      (bs ++ [⟨s.heapCurrent, expand - headerSize, false⟩]) := by
  rcases eq_or_ne bs [] with rfl | hne
  · exact h.append_nil hexp hal hlim
  · exact h.append_concat hne hexp hal hlim

end BlockList

end TypeOS.Heap
