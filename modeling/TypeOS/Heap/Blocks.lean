import TypeOS.Lib.Tiling
import TypeOS.Lib.Segment
import TypeOS.Heap.Alloc

/-! What the block list of the kernel heap represents, and what each edit of it does.

    `BlockList m head cur bs` reads the words `m` as the list of blocks `bs`: linked both ways from
    `head`, each header holding its block's size and free flag, and the blocks tiling the window
    `[KERNEL_HEAP_START, cur)` in address order. Splitting, coalescing, setting a free flag and
    appending at the tail are one lemma each: they change `bs` in one place. -/

namespace TypeOS.Heap
open Tiling Segment

/-- A block: where its header lies, how many bytes follow it, and whether they are free. -/
structure Block where
  addr : Nat
  size : Nat
  free : Bool
  deriving DecidableEq

/-- The bytes of a block, header included. -/
def Block.extent (b : Block) : Nat × Nat := (b.addr, headerSize + b.size)

/-- What `kmalloc` hands out for a block. -/
def Block.payload (b : Block) : Nat := b.addr + headerSize

/-- The words `m`, entered at `head`, hold the blocks `bs`, which tile the window up to `cur`. -/
structure BlockList (m : Words) (head cur : Nat) (bs : List Block) : Prop where
  head_eq : head = (bs.map Block.addr).headD 0
  linked : Linked (blockNext m) (blockPrev m) 0 (bs.map Block.addr) 0
  header : ∀ b ∈ bs, blockSize m b.addr = b.size ∧ blockFree m b.addr = b.free
  tiles : Tiles kernelHeapStart (bs.map Block.extent) cur
  aligned : ∀ b ∈ bs, b.addr % heapAlign = 0 ∧ b.size % heapAlign = 0

/-! ### Fields of apart headers -/

/-- Two header addresses that are the same or do not overlap. -/
def Apart (a c : Nat) : Prop := a = c ∨ a + headerSize ≤ c ∨ c + headerSize ≤ a

theorem Apart.refl (a : Nat) : Apart a a := Or.inl rfl

theorem Apart.symm {a c : Nat} (h : Apart a c) : Apart c a := by
  simp only [Apart, headerSize] at *; omega

section Fields
variable {m : Words} {a c : Nat} (v : Nat) (f : Bool)

theorem blockSize_setSize : blockSize (setSize m a v) c = if c = a then v else blockSize m c := by
  simp [blockSize, setSize, Function.update_apply]

theorem blockFree_setFree : blockFree (setFree m a f) c = if c = a then f else blockFree m c := by
  rcases eq_or_ne c a with rfl | hne
  · cases f <;> simp [blockFree, setFree, Nat.add_mod]
  · simp [blockFree, setFree, hne]

theorem blockNext_setNext : blockNext (setNext m a v) c = if c = a then v else blockNext m c := by
  simp [blockNext, setNext, Function.update_apply]

theorem blockPrev_setPrev : blockPrev (setPrev m a v) c = if c = a then v else blockPrev m c := by
  simp [blockPrev, setPrev, Function.update_apply]

variable (h : Apart a c)
include h

theorem blockSize_setFree : blockSize (setFree m a f) c = blockSize m c :=
  Function.update_of_ne (by simp only [Apart, headerSize] at h; omega) ..
theorem blockSize_setNext : blockSize (setNext m a v) c = blockSize m c :=
  Function.update_of_ne (by simp only [Apart, headerSize] at h; omega) ..
theorem blockSize_setPrev : blockSize (setPrev m a v) c = blockSize m c :=
  Function.update_of_ne (by simp only [Apart, headerSize] at h; omega) ..

theorem blockFree_setSize : blockFree (setSize m a v) c = blockFree m c := by
  simp only [blockFree, setSize]; rw [Function.update_of_ne (by simp only [Apart, headerSize] at h; omega)]
theorem blockFree_setNext : blockFree (setNext m a v) c = blockFree m c := by
  simp only [blockFree, setNext]; rw [Function.update_of_ne (by simp only [Apart, headerSize] at h; omega)]
theorem blockFree_setPrev : blockFree (setPrev m a v) c = blockFree m c := by
  simp only [blockFree, setPrev]; rw [Function.update_of_ne (by simp only [Apart, headerSize] at h; omega)]

theorem blockNext_setSize : blockNext (setSize m a v) c = blockNext m c :=
  Function.update_of_ne (by simp only [Apart, headerSize] at h; omega) ..
theorem blockNext_setFree : blockNext (setFree m a f) c = blockNext m c :=
  Function.update_of_ne (by simp only [Apart, headerSize] at h; omega) ..
theorem blockNext_setPrev : blockNext (setPrev m a v) c = blockNext m c :=
  Function.update_of_ne (by simp only [Apart, headerSize] at h; omega) ..

theorem blockPrev_setSize : blockPrev (setSize m a v) c = blockPrev m c :=
  Function.update_of_ne (by simp only [Apart, headerSize] at h; omega) ..
theorem blockPrev_setFree : blockPrev (setFree m a f) c = blockPrev m c :=
  Function.update_of_ne (by simp only [Apart, headerSize] at h; omega) ..
theorem blockPrev_setNext : blockPrev (setNext m a v) c = blockPrev m c :=
  Function.update_of_ne (by simp only [Apart, headerSize] at h; omega) ..

end Fields

/-! ### Where the blocks lie -/

namespace BlockList
variable {m m' : Words} {head cur : Nat} {bs xs ys : List Block} {b : Block}

/-- A block of the list lies in the window, past its start and before `cur`. -/
theorem bounds (h : BlockList m head cur bs) (hb : b ∈ bs) :
    kernelHeapStart ≤ b.addr ∧ b.addr + headerSize + b.size ≤ cur := by
  obtain ⟨h1, h2⟩ := h.tiles.mem (List.mem_map_of_mem (f := Block.extent) hb)
  simp only [Block.extent] at h1 h2
  exact ⟨h1, by omega⟩

/-- The blocks before and after a block of the list end before it and start behind it. -/
theorem around (h : BlockList m head cur (xs ++ b :: ys)) :
    (∀ x ∈ xs, x.addr + headerSize + x.size ≤ b.addr) ∧
    (∀ y ∈ ys, b.addr + headerSize + b.size ≤ y.addr) := by
  have ht := h.tiles
  rw [List.map_append, List.map_cons, tiles_cut] at ht
  refine ⟨fun x hx => ?_, fun y hy => ?_⟩
  · have := (ht.1.mem (List.mem_map_of_mem (f := Block.extent) hx)).2
    simp only [Block.extent] at this
    omega
  · have := (ht.2.mem (List.mem_map_of_mem (f := Block.extent) hy)).1
    simp only [Block.extent] at this
    omega

theorem pairwise (h : BlockList m head cur bs) :
    bs.Pairwise fun b c => b.addr + headerSize + b.size ≤ c.addr := by
  refine (List.pairwise_map.mp h.tiles.pairwise).imp fun {b c} hbc => ?_
  simp only [Block.extent] at hbc
  omega

/-- The headers of the list never overlap. -/
theorem apart (h : BlockList m head cur bs) {c : Block} (hb : b ∈ bs) (hc : c ∈ bs) :
    Apart b.addr c.addr := by
  have hp : bs.Pairwise fun b c => Apart b.addr c.addr :=
    h.pairwise.imp fun {b c} hbc => Or.inr (Or.inl (by omega))
  have hsymm : bs.Pairwise (flip fun b c => Apart b.addr c.addr) := hp.imp fun hbc => hbc.symm
  exact (hp.forall_of_forall_of_flip (fun _ _ => Apart.refl _) hsymm : ∀ ⦃b⦄, b ∈ bs → ∀ ⦃c⦄,
    c ∈ bs → Apart b.addr c.addr) hb hc

/-- Two different blocks of the list do not overlap. -/
theorem apart_extent (h : BlockList m head cur bs) {c : Block} (hb : b ∈ bs) (hc : c ∈ bs)
    (hne : b ≠ c) :
    b.addr + headerSize + b.size ≤ c.addr ∨ c.addr + headerSize + c.size ≤ b.addr := by
  obtain ⟨xs, ys, rfl⟩ := List.append_of_mem hb
  rcases List.mem_append.mp hc with hx | hx
  · exact Or.inr (h.around.1 c hx)
  rcases List.mem_cons.mp hx with rfl | hx
  · exact absurd rfl hne
  · exact Or.inl (h.around.2 c hx)

theorem addr_nodup (h : BlockList m head cur bs) : (bs.map Block.addr).Nodup := by
  refine List.pairwise_map.mpr (h.pairwise.imp fun {b c} hbc => ?_)
  simp only [headerSize] at hbc
  omega

theorem addr_ne_zero (h : BlockList m head cur bs) (hb : b ∈ bs) : b.addr ≠ 0 := by
  have := (h.bounds hb).1
  simp only [kernelHeapStart] at this
  omega

/-- The words hold one list. -/
theorem unique {bs' : List Block} (h : BlockList m head cur bs) (h' : BlockList m head cur bs') :
    bs = bs' := by
  have haddr : bs.map Block.addr = bs'.map Block.addr := by
    refine h.linked.unique h'.linked (h.head_eq.symm.trans h'.head_eq) ?_ ?_
    · exact List.forall_mem_map.mpr fun b hb => h.addr_ne_zero hb
    · exact List.forall_mem_map.mpr fun b hb => h'.addr_ne_zero hb
  have hread : ∀ {l : List Block}, (∀ b ∈ l, blockSize m b.addr = b.size ∧ blockFree m b.addr = b.free) →
      (l.map Block.addr).map (fun a => (⟨a, blockSize m a, blockFree m a⟩ : Block)) = l := by
    intro l hl
    rw [List.map_map]
    refine (List.map_congr_left fun b hb => ?_).trans (List.map_id l)
    obtain ⟨h1, h2⟩ := hl b hb
    rw [Function.comp_apply, h1, h2]
    rfl
  rw [← hread h.header, haddr, hread h'.header]

/-- A list of blocks is no longer than the window it tiles. -/
theorem length_le (h : BlockList m head cur bs) : bs.length ≤ cur - kernelHeapStart := by
  have := h.tiles.length_le fun p hp => by
    obtain ⟨b, -, rfl⟩ := List.mem_map.mp hp
    simp only [Block.extent, headerSize]
    omega
  rw [List.length_map] at this
  omega

/-! ### Editing the list in one place -/

/-- All four header fields at `a` are the same in both memories. -/
def SameHeader (m m' : Words) (a : Nat) : Prop :=
  blockSize m' a = blockSize m a ∧ blockFree m' a = blockFree m a ∧
    blockNext m' a = blockNext m a ∧ blockPrev m' a = blockPrev m a

/-- The list only depends on the headers of its blocks. -/
theorem frame (h : BlockList m head cur bs) (hs : ∀ b ∈ bs, SameHeader m m' b.addr) :
    BlockList m' head cur bs := by
  obtain ⟨hhead, hlink, hheader, htile, hal⟩ := h
  refine ⟨hhead, hlink.frame fun a ha => ?_, fun b hb => ?_, htile, hal⟩
  · obtain ⟨b, hb, rfl⟩ := List.mem_map.mp ha
    exact ⟨(hs b hb).2.2.1, (hs b hb).2.2.2⟩
  · exact ⟨(hs b hb).1.trans (hheader b hb).1, (hs b hb).2.1.trans (hheader b hb).2⟩

/-- The frame of every edit: blocks `b :: rest` become `b' :: rest'`, which start at the same
    address, cover the same bytes and are linked in their place; the blocks before keep their
    headers, and those behind keep theirs but for the first one's backward link. -/
theorem edit (b' : Block) (rest rest' ys : List Block) (m' : Words)
    (h : BlockList m head cur (xs ++ (b :: rest ++ ys))) (haddr : b'.addr = b.addr)
    (hxs : ∀ x ∈ xs, SameHeader m m' x.addr)
    (hys : ∀ y ∈ ys, blockSize m' y.addr = blockSize m y.addr ∧
      blockFree m' y.addr = blockFree m y.addr ∧ blockNext m' y.addr = blockNext m y.addr)
    (hfirst : ∀ y, ys.head? = some y →
      blockPrev m' y.addr = ((b' :: rest').map Block.addr).getLastD 0)
    (hprev : ∀ y ∈ ys, ys.head? ≠ some y → blockPrev m' y.addr = blockPrev m y.addr)
    (hmid : Linked (blockNext m') (blockPrev m') ((xs.map Block.addr).getLastD 0)
      ((b' :: rest').map Block.addr) ((ys.map Block.addr).headD 0))
    (hhdr : ∀ c ∈ b' :: rest', blockSize m' c.addr = c.size ∧ blockFree m' c.addr = c.free)
    (htiles : ∀ lo hi, Tiles lo ((b :: rest).map Block.extent) hi →
      Tiles lo ((b' :: rest').map Block.extent) hi)
    (halign : ∀ c ∈ b' :: rest', c.addr % heapAlign = 0 ∧ c.size % heapAlign = 0) :
    BlockList m' head cur (xs ++ (b' :: rest' ++ ys)) := by
  have hnd := h.addr_nodup
  obtain ⟨hhead, hlink, hheader, htile, hal⟩ := h
  rw [List.map_append, List.map_append, linked_append, linked_append] at hlink
  obtain ⟨hl1, hl2, hl3⟩ := hlink
  rw [List.map_append, List.map_append, List.nodup_append, List.nodup_append] at hnd
  refine ⟨?_, ?_, ?_, ?_, ?_⟩
  · rw [hhead]
    cases xs <;> simp [haddr]
  · rw [List.map_append, List.map_append, linked_append, linked_append]
    refine ⟨?_, hmid, ?_⟩
    · refine (hl1.frame fun a ha => ?_) |> fun h => by simpa [haddr] using h
      obtain ⟨x, hx, rfl⟩ := List.mem_map.mp ha
      exact ⟨(hxs x hx).2.2.1, (hxs x hx).2.2.2⟩
    · refine hl3.reroot ?_ ?_ ?_ hnd.2.1.2.1
      · intro a ha
        rw [List.head?_map] at ha
        obtain ⟨y, hy, rfl⟩ := Option.map_eq_some_iff.mp ha
        rw [hfirst y hy, List.map_cons, List.getLastD_cons, List.getLastD_cons]
      · intro a ha hne
        obtain ⟨y, hy, rfl⟩ := List.mem_map.mp ha
        refine hprev y hy fun he => hne ?_
        rw [List.head?_map, he]; rfl
      · intro a ha
        obtain ⟨y, hy, rfl⟩ := List.mem_map.mp ha
        exact (hys y hy).2.2
  · intro c hc
    rcases List.mem_append.mp hc with hc | hc
    · obtain ⟨h1, h2⟩ := hheader c (by simp [hc])
      exact ⟨(hxs c hc).1.trans h1, (hxs c hc).2.1.trans h2⟩
    rcases List.mem_append.mp hc with hc | hc
    · exact hhdr c hc
    · obtain ⟨h1, h2⟩ := hheader c (by simp [hc])
      exact ⟨(hys c hc).1.trans h1, (hys c hc).2.1.trans h2⟩
  · rw [List.map_append, List.map_append] at htile ⊢
    obtain ⟨lo, h1, h2⟩ := (tiles_append ..).mp htile
    obtain ⟨hi, h2, h3⟩ := (tiles_append ..).mp h2
    exact (tiles_append ..).mpr ⟨lo, h1, (tiles_append ..).mpr ⟨hi, htiles lo hi h2, h3⟩⟩
  · intro c hc
    rcases List.mem_append.mp hc with hc | hc
    · exact hal c (by simp [hc])
    rcases List.mem_append.mp hc with hc | hc
    · exact halign c hc
    · exact hal c (by simp [hc])

end BlockList

end TypeOS.Heap
