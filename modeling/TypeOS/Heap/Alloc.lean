import TypeOS.Layout

/-! The kernel heap of `mm/heap.c`: a first fit allocator over one doubly linked list of blocks.

    The allocator works in place. Its memory is a map from addresses to 64 bit words, and the
    header `struct heap_block` of a block at `a` is the four fields at `a` (`size`), `a + 8`
    (`free`, the low byte of its word), `a + 16` (`next`) and `a + 24` (`prev`). `NULL` is `0`.
    The pager behind the heap is a parameter: every function only reaches it through the three
    calls of `paging.c` that `heap_map_more` makes. -/

namespace TypeOS.Heap

/-- `HEAP_MIN_EXPAND`. -/
abbrev heapMinExpand : Nat := 64 * 1024

/-- `HEAP_ALIGN`. -/
abbrev heapAlign : Nat := 16

/-- `sizeof (heap_block_t)`. -/
abbrev headerSize : Nat := 32

/-- `PAGE_PRESENT | PAGE_WRITABLE`, the flags of every heap page. -/
abbrev heapPageFlags : Nat := 3

/-- The calls of `paging.c` the heap makes: `paging_alloc_page` (`none` is `NULL`),
    `paging_map_page virt phys flags` (`true` is 0) and `paging_free_page`. -/
structure Pager (P : Type) where
  pagingAllocPage : P → Option Nat × P
  pagingMapPage : P → Nat → Nat → Nat → Bool × P
  pagingFreePage : P → Nat → P

/-- The words of the heap window, by address. -/
abbrev Words := Nat → Nat

/-- The static variables of `heap.c`, the memory they point into, and the pager. -/
structure HeapState (P : Type) where
  mem : Words
  heapHead : Nat
  heapCurrent : Nat
  heapMappedEnd : Nat
  pager : P

/-! ### Header fields -/

def blockSize (m : Words) (a : Nat) : Nat := m a
def blockFree (m : Words) (a : Nat) : Bool := m (a + 8) % 256 != 0
def blockNext (m : Words) (a : Nat) : Nat := m (a + 16)
def blockPrev (m : Words) (a : Nat) : Nat := m (a + 24)

def setSize (m : Words) (a v : Nat) : Words := Function.update m a v

/-- A `bool` is one byte: the other seven bytes of its word are padding and stay as they are. -/
def setFree (m : Words) (a : Nat) (b : Bool) : Words :=
  Function.update m (a + 8) (m (a + 8) / 256 * 256 + b.toNat)

def setNext (m : Words) (a v : Nat) : Words := Function.update m (a + 16) v
def setPrev (m : Words) (a v : Nat) : Words := Function.update m (a + 24) v

/-- `align_up`, for an `align` that is a power of two. -/
def alignUp (value align : Nat) : Nat := u64 (value + align - 1) / align * align

/-! ### Growing the mapped part -/

variable {P : Type} (pg : Pager P)

/-- One turn of the loop of `heap_map_more`: a frame for the page at `heap_mapped_end`. -/
def heapMapPage (h : HeapState P) : Bool × HeapState P :=
  match pg.pagingAllocPage h.pager with
  | (none, p) => (false, { h with pager := p })
  | (some frame, p) =>
    match pg.pagingMapPage p h.heapMappedEnd frame heapPageFlags with
    | (false, p) => (false, { h with pager := pg.pagingFreePage p frame })
    | (true, p) => (true, { h with pager := p, heapMappedEnd := h.heapMappedEnd + pageSize })

/-- The loop of `heap_map_more`, for the number of pages it has left to map. -/
def heapMapPages : Nat → HeapState P → Bool × HeapState P
  | 0, h => (true, h)
  | n + 1, h =>
    match heapMapPage pg h with
    | (false, h) => (false, h)
    | (true, h) => heapMapPages n h

/-- Where `heap_map_more` stops: `bytes` past the mapped end, but not past the limit. -/
def heapTarget (h : HeapState P) (bytes : Nat) : Nat :=
  let target := u64 (h.heapMappedEnd + bytes)
  if target > kernelHeapLimit then kernelHeapLimit else target

/-- `heap_map_more`: the loop runs while `heap_mapped_end < target`, a page at a time. -/
def heapMapMore (h : HeapState P) (bytes : Nat) : Bool × HeapState P :=
  heapMapPages pg ((heapTarget h bytes - h.heapMappedEnd + (pageSize - 1)) / pageSize) h

/-! ### The block list -/

/-- `split_block`, on the memory: `block` keeps `size` bytes, the rest becomes a free block. -/
def splitBlock (m : Words) (block size : Nat) : Words :=
  if blockSize m block < u64 (size + headerSize + heapAlign) then m
  else
    let new := u64 (block + headerSize + size)
    let m := setSize m new (u64Sub (u64Sub (blockSize m block) size) headerSize)
    let m := setFree m new true
    let m := setNext m new (blockNext m block)
    let m := setPrev m new block
    let m := if blockNext m new ≠ 0 then setPrev m (blockNext m new) new else m
    let m := setSize m block size
    setNext m block new

/-- `coalesce`, first half: `block` swallows a free successor. -/
def coalesceNext (m : Words) (block : Nat) : Words :=
  if blockNext m block ≠ 0 ∧ blockFree m (blockNext m block) = true then
    let m := setSize m block
      (u64 (blockSize m block + (headerSize + blockSize m (blockNext m block))))
    let m := setNext m block (blockNext m (blockNext m block))
    if blockNext m block ≠ 0 then setPrev m (blockNext m block) block else m
  else m

/-- `coalesce`, second half: a free predecessor swallows `block`. -/
def coalescePrev (m : Words) (block : Nat) : Words :=
  if blockPrev m block ≠ 0 ∧ blockFree m (blockPrev m block) = true then
    let prev := blockPrev m block
    let m := setSize m prev (u64 (blockSize m prev + (headerSize + blockSize m block)))
    let m := setNext m prev (blockNext m block)
    if blockNext m block ≠ 0 then setPrev m (blockNext m block) prev else m
  else m

/-- `coalesce`. -/
def coalesce (m : Words) (block : Nat) : Words := coalescePrev (coalesceNext m block) block

/-- The first fit loop of `kmalloc` from `block` on: the first free block of at least `size`
    bytes, or `0` at the end of the list. -/
def findBlock (m : Words) (size : Nat) : Nat → Nat → Nat
  | 0, _ => 0
  | fuel + 1, block =>
    if block = 0 then 0
    else if !blockFree m block || blockSize m block < size then
      findBlock m size fuel (blockNext m block)
    else block

/-- `while (tail->next) tail = tail->next`. -/
def findTail (m : Words) : Nat → Nat → Nat
  | 0, tail => tail
  | fuel + 1, tail => if blockNext m tail ≠ 0 then findTail m fuel (blockNext m tail) else tail

/-- More turns than the list has blocks: each block takes more than one byte of the window. -/
def listFuel (h : HeapState P) : Nat := h.heapCurrent - kernelHeapStart + 1

/-- How far `kmalloc` extends the heap for a request of `size` bytes, already aligned. -/
def expandBytes (size : Nat) : Nat :=
  let expand := alignUp (u64 (size + headerSize)) pageSize
  if expand < heapMinExpand then heapMinExpand else expand

/-- The tail extension of `kmalloc`: a block at `heap_current`, linked behind the last one. -/
def appendBlock (h : HeapState P) (expand : Nat) : HeapState P :=
  let block := h.heapCurrent
  let m := setSize h.mem block (expand - headerSize)
  let m := setFree m block false
  let m := setNext m block 0
  let m := setPrev m block 0
  if h.heapHead ≠ 0 then
    let tail := findTail m (listFuel h) h.heapHead
    let m := setPrev (setNext m tail block) block tail
    { h with mem := m, heapCurrent := u64 (h.heapCurrent + expand) }
  else { h with mem := m, heapHead := block, heapCurrent := u64 (h.heapCurrent + expand) }

/-- `kmalloc`. -/
def kmalloc (h : HeapState P) (size : Nat) : Nat × HeapState P :=
  if size = 0 then (0, h)
  else
    let size := alignUp size heapAlign
    let block := findBlock h.mem size (listFuel h) h.heapHead
    if block ≠ 0 then
      (u64 (block + headerSize), { h with mem := splitBlock (setFree h.mem block false) block size })
    else
      let expand := expandBytes size
      match heapMapMore pg h expand with
      | (false, h) => (0, h)
      | (true, h) =>
        let block := h.heapCurrent
        let h := appendBlock h expand
        (u64 (block + headerSize), { h with mem := splitBlock h.mem block size })

/-- `kfree`. -/
def kfree (h : HeapState P) (ptr : Nat) : HeapState P :=
  if ptr = 0 then h
  else
    let block := u64Sub ptr headerSize
    { h with mem := coalesce (setFree h.mem block true) block }

/-- `heap_init`, over a window that holds any words: on failure `heap_head` stays `NULL`. -/
def heapInit (m : Words) (p : P) : HeapState P :=
  let h : HeapState P := ⟨m, 0, kernelHeapStart, kernelHeapStart, p⟩
  match heapMapMore pg h heapMinExpand with
  | (false, h) => h
  | (true, h) =>
    let head := h.heapCurrent
    let m := setSize h.mem head (heapMinExpand - headerSize)
    let m := setFree m head true
    let m := setNext m head 0
    let m := setPrev m head 0
    { h with mem := m, heapHead := head, heapCurrent := h.heapCurrent + heapMinExpand }

end TypeOS.Heap
