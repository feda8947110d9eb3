import TypeOS.Lib.Loop
import TypeOS.Paging.Entry

/-! The frame allocator and the page tables of `mm/paging.c`.

    Physical memory is a map from frames to their 512 words. The kernel edits tables through their
    physical addresses, so a function here reads and writes them by frame; what a processor would
    make of those addresses is what `touch` keeps: each direct access is entered in `direct`,
    newest first, with the address and with what `paging_virt_to_phys` gives for it at that
    moment. A pointer that may be `NULL` is an `Option`; the address 0 is `NULL`. -/

namespace TypeOS.Paging

/-- A table has an entry 0. -/
instance tableEntries : NeZero 512 := ⟨by decide⟩

/-- Physical memory, by frame and word. -/
abbrev Memory := Nat → Fin 512 → Word

/-- What the linker decides: the frame of `pml4_table`, and where the kernel ends. `pdp_table` and
    `pd_table` follow `pml4_table` in the `.bss` of the image, which starts at 1 MiB and which
    `kernel_end` closes. -/
structure Image where
  pmlTable : Nat
  kernelEnd : Nat
  start_le : 0x100 ≤ pmlTable
  tables_le : (pmlTable + 3) * pageSize ≤ kernelEnd
  end_lt : kernelEnd < 2 ^ 32

/-- The frame of `pdp_table`. -/
def Image.pdpTable (im : Image) : Nat := im.pmlTable + 1

/-- The frame of `pd_table`. -/
def Image.pdTable (im : Image) : Nat := im.pmlTable + 2

/-- `stack_bottom`: the kernel stack follows the image. -/
def Image.stackBottom (im : Image) : Nat := (im.kernelEnd + 15) / 16 * 16

/-- `stack_top`. -/
def Image.stackTop (im : Image) : Nat := im.stackBottom + 64 * 1024

/-- The static variables of `paging.c`, physical memory, and the direct accesses so far. `pml4` is
    the frame `pml4` points at, which is also the one in `cr3`. -/
structure Vm where
  mem : Memory
  frameBitmap : Nat → Bool
  totalFrames : Nat
  pml4 : Nat
  direct : List (Nat × Nat)

/-! ### Indices and words -/

/-- `PML4_INDEX`. -/
def pml4Index (v : Nat) : Fin 512 := Fin.ofNat 512 (v / 2 ^ 39)

/-- `PDP_INDEX`. -/
def pdpIndex (v : Nat) : Fin 512 := Fin.ofNat 512 (v / 2 ^ 30)

/-- `PD_INDEX`. -/
def pdIndex (v : Nat) : Fin 512 := Fin.ofNat 512 (v / 2 ^ 21)

/-- `PT_INDEX`. -/
def ptIndex (v : Nat) : Fin 512 := Fin.ofNat 512 (v / 2 ^ 12)

/-- `page & PAGE_MASK`. -/
def pageOf (a : Nat) : Nat := a / pageSize * pageSize

/-- `table[index] = e`. -/
def writeEntry (s : Vm) (table : Nat) (index : Fin 512) (e : Word) : Vm :=
  { s with mem := Function.update s.mem table (Function.update (s.mem table) index e) }

/-- A whole frame is overwritten. -/
def writeFrame (s : Vm) (frame : Nat) (words : Fin 512 → Word) : Vm :=
  { s with mem := Function.update s.mem frame words }

/-- The address of a frame as a pointer: frame 0 is `NULL`. -/
def framePtr (f : Nat) : Option Nat := if f = 0 then none else some f

/-! ### Translation -/

/-- `paging_virt_to_phys`, through the tables under `pml4`. -/
def virtToPhys (mem : Memory) (pml4 virt : Nat) : Nat :=
  if !has (mem pml4 (pml4Index virt)) pagePresent then 0
  else
    let pdpt := entryFrame (mem pml4 (pml4Index virt))
    if !has (mem pdpt (pdpIndex virt)) pagePresent then 0
    else
      let pd := entryFrame (mem pdpt (pdpIndex virt))
      let pdEntry := mem pd (pdIndex virt)
      if !has pdEntry pagePresent then 0
      else if has pdEntry pageHuge then entryFrame pdEntry * pageSize + virt % 0x200000
      else
        let ptEntry := mem (entryFrame pdEntry) (ptIndex virt)
        if !has ptEntry pagePresent then 0 else entryFrame ptEntry * pageSize + virt % pageSize

/-- `paging_virt_to_phys`. -/
def pagingVirtToPhys (s : Vm) (virt : Nat) : Nat := virtToPhys s.mem s.pml4 virt

/-- `paging_pte_value`. -/
def pagingPteValue (s : Vm) (virt : Nat) : Word :=
  if !has (s.mem s.pml4 (pml4Index virt)) pagePresent then 0#64
  else
    let pdpt := entryFrame (s.mem s.pml4 (pml4Index virt))
    if !has (s.mem pdpt (pdpIndex virt)) pagePresent then 0#64
    else
      let pd := entryFrame (s.mem pdpt (pdpIndex virt))
      let pdEntry := s.mem pd (pdIndex virt)
      if !has pdEntry pagePresent || has pdEntry pageHuge then 0#64
      else s.mem (entryFrame pdEntry) (ptIndex virt)

/-- The kernel dereferences the physical address `a` as it stands. -/
def touch (s : Vm) (a : Nat) : Vm :=
  { s with direct := (a, pagingVirtToPhys s a) :: s.direct }

/-! ### Frames -/

/-- `bitmap_set`. -/
def bitmapSet (s : Vm) (frame : Nat) : Vm :=
  if frame ≥ maxFrames then s
  else { s with frameBitmap := Function.update s.frameBitmap frame true }

/-- `bitmap_clear`. -/
def bitmapClear (s : Vm) (frame : Nat) : Vm :=
  if frame ≥ maxFrames then s
  else { s with frameBitmap := Function.update s.frameBitmap frame false }

/-- `bitmap_test`. -/
def bitmapTest (s : Vm) (frame : Nat) : Bool :=
  if frame ≥ maxFrames then true else s.frameBitmap frame

/-- `paging_alloc_page`: the address of the lowest free frame. -/
def pagingAllocPage (s : Vm) : Option Nat × Vm :=
  match firstFrom (fun i => !bitmapTest s i) s.totalFrames 0 with
  | none => (none, s)
  | some i => (framePtr (i * pageSize), bitmapSet s i)

/-- `paging_free_page`. -/
def pagingFreePage (s : Vm) (page : Nat) : Vm :=
  if page = 0 then s
  else if page / pageSize < s.totalFrames then bitmapClear s (page / pageSize) else s

variable (im : Image)

/-- What `paging_alloc_table` takes: a free frame that is not under the kernel stack. -/
def tableFrame (s : Vm) (i : Nat) : Bool :=
  !(decide (im.kernelEnd ≤ i * pageSize) && decide (i * pageSize < im.stackTop)) &&
    !bitmapTest s i

/-- `paging_alloc_table`: the loop breaks at `IDENTITY_MAP_LIMIT`; the frame is zeroed in place. -/
def pagingAllocTable (s : Vm) : Option Nat × Vm :=
  match firstFrom (tableFrame im s) (min s.totalFrames (identityMapLimit / pageSize)) 0 with
  | none => (none, s)
  | some i => (framePtr i, writeFrame (touch (bitmapSet s i) (i * pageSize)) i fun _ => 0#64)

/-! ### Mapping -/

/-- `split_huge_page`; `true` is 0. -/
def splitHugePage (s : Vm) (pd : Nat) (pdIdx : Fin 512) : Bool × Vm :=
  let huge := s.mem pd pdIdx
  if !has huge pagePresent || !has huge pageHuge then (true, s)
  else
    match pagingAllocTable im s with
    | (none, s) => (false, s)
    | (some pt, s) =>
      let s := writeFrame s pt (splitEntry huge)
      (true, writeEntry s pd pdIdx (frameWord pt ||| (pagePresent ||| pageWritable)))

/-- `get_or_create_table`. -/
def getOrCreateTable (s : Vm) (table : Nat) (index : Fin 512) (flags : Word) :
    Option Nat × Vm :=
  let e := s.mem table index
  if has e pagePresent then
    if has e pageHuge then (none, s)
    else (framePtr (entryFrame e), touch s (entryFrame e * pageSize))
  else
    match pagingAllocTable im s with
    | (none, s) => (none, s)
    | (some child, s) => (some child, writeEntry s table index (frameWord child ||| flags))

/-- `paging_map_page_flags`; `true` is 0. -/
def pagingMapPageFlags (s : Vm) (virt phys : Nat) (flags tableFlags : Word) :
    Bool × Vm :=
  if virt % pageSize ≠ 0 ∨ phys % pageSize ≠ 0 then (false, s)
  else
    match getOrCreateTable im s s.pml4 (pml4Index virt) tableFlags with
    | (none, s) => (false, s)
    | (some pdpt, s) =>
      match getOrCreateTable im s pdpt (pdpIndex virt) tableFlags with
      | (none, s) => (false, s)
      | (some pd, s) =>
        match splitHugePage im s pd (pdIndex virt) with
        | (false, s) => (false, s)
        | (true, s) =>
          match getOrCreateTable im s pd (pdIndex virt) tableFlags with
          | (none, s) => (false, s)
          | (some pt, s) =>
            (true, writeEntry s pt (ptIndex virt)
              ((BitVec.ofNat 64 phys &&& pteAddrMask) ||| flags))

/-- `paging_map_page`. -/
def pagingMapPage (s : Vm) (virt phys : Nat) (flags : Word) : Bool × Vm :=
  pagingMapPageFlags im s virt phys flags (pagePresent ||| pageWritable)

/-- `paging_map_user_page`. -/
def pagingMapUserPage (s : Vm) (virt phys : Nat) (flags : Word) : Bool × Vm :=
  pagingMapPageFlags im s virt phys (flags ||| pageUser)
    (pagePresent ||| pageWritable ||| pageUser)

/-- `paging_unmap_page`. -/
def pagingUnmapPage (s : Vm) (virt : Nat) : Vm :=
  if !has (s.mem s.pml4 (pml4Index virt)) pagePresent then s
  else
    let pdpt := entryFrame (s.mem s.pml4 (pml4Index virt))
    let s := touch s (pdpt * pageSize)
    if !has (s.mem pdpt (pdpIndex virt)) pagePresent then s
    else
      let pd := entryFrame (s.mem pdpt (pdpIndex virt))
      let s := touch s (pd * pageSize)
      if !has (s.mem pd (pdIndex virt)) pagePresent || has (s.mem pd (pdIndex virt)) pageHuge then s
      else
        let pt := entryFrame (s.mem pd (pdIndex virt))
        writeEntry (touch s (pt * pageSize)) pt (ptIndex virt) 0#64

/-- `paging_switch_cr3`. -/
def pagingSwitchCr3 (s : Vm) (cr3 : Nat) : Vm := { s with pml4 := cr3 }

/-! ### Cloning -/

/-- A page is copied through two virtual addresses: each one reaches the frame it maps to. -/
def copyThrough (s : Vm) (dst src : Nat) : Vm :=
  writeFrame s (pagingVirtToPhys s dst / pageSize) (s.mem (pagingVirtToPhys s src / pageSize))

/-- `paging_copy_frame`; `true` is 0. -/
def pagingCopyFrame (s : Vm) (dstPhys srcPhys : Nat) : Bool × Vm :=
  if srcPhys < identityMapLimit ∧ dstPhys < identityMapLimit then
    let s := touch (touch s srcPhys) dstPhys
    (true, writeFrame s (dstPhys / pageSize) (s.mem (srcPhys / pageSize)))
  else
    match pagingMapPage im s kernelKmapWindow srcPhys pagePresent with
    | (false, s) => (false, s)
    | (true, s) =>
      match pagingMapPage im s (kernelKmapWindow + pageSize) dstPhys
          (pagePresent ||| pageWritable) with
      | (false, s) => (false, pagingUnmapPage s kernelKmapWindow)
      | (true, s) =>
        let s := copyThrough s (kernelKmapWindow + pageSize) kernelKmapWindow
        let s := pagingUnmapPage s kernelKmapWindow
        (true, pagingUnmapPage s (kernelKmapWindow + pageSize))

/-- `PAGE_PRESENT | PAGE_WRITABLE | PAGE_USER`, the flags of every table a clone makes. -/
def cloneFlags : Word := pagePresent ||| pageWritable ||| pageUser

/-- One turn of the loop of `paging_clone_user_pt`. -/
def clonePte (dstPt srcPt : Nat) (i : Fin 512) (s : Vm) : Bool × Vm :=
  let srcEntry := s.mem srcPt i
  if !has srcEntry pagePresent then (true, s)
  else if !has srcEntry pageUser then (true, writeEntry s dstPt i srcEntry)
  else
    match pagingAllocPage s with
    | (none, s) => (false, s)
    | (some frame, s) =>
      match pagingCopyFrame im s frame (entryFrame srcEntry * pageSize) with
      | (false, s) => (false, pagingFreePage s frame)
      | (true, s) =>
        (true, writeEntry s dstPt i (BitVec.ofNat 64 frame ||| (srcEntry &&& ~~~pteAddrMask)))

/-- `paging_clone_user_pt`; `true` is 0. -/
def pagingCloneUserPt (s : Vm) (dstPd srcPt : Nat) (pdIdx : Fin 512) : Bool × Vm :=
  match pagingAllocTable im s with
  | (none, s) => (false, s)
  | (some dstPt, s) =>
    forEach (clonePte im dstPt srcPt) (List.finRange 512)
      (writeEntry s dstPd pdIdx (frameWord dstPt ||| cloneFlags))

/-- One turn of the loop of `paging_clone_user_pd`. -/
def clonePde (dstPd srcPd : Nat) (i : Fin 512) (s : Vm) : Bool × Vm :=
  let entry := s.mem srcPd i
  if !has entry pagePresent then (true, s)
  else if !has entry pageUser then (true, writeEntry s dstPd i entry)
  else if has entry pageHuge then (true, writeEntry s dstPd i entry)
  else pagingCloneUserPt im (touch s (entryFrame entry * pageSize)) dstPd (entryFrame entry) i

/-- `paging_clone_user_pd`; `true` is 0. -/
def pagingCloneUserPd (s : Vm) (dstPdpt srcPd : Nat) (pdptIdx : Fin 512) : Bool × Vm :=
  match pagingAllocTable im s with
  | (none, s) => (false, s)
  | (some dstPd, s) =>
    forEach (clonePde im dstPd srcPd) (List.finRange 512)
      (writeEntry s dstPdpt pdptIdx (frameWord dstPd ||| cloneFlags))

/-- One turn of the loop of `paging_clone_user_pdpt`. -/
def clonePdpte (dstPdpt srcPdpt : Nat) (i : Fin 512) (s : Vm) : Bool × Vm :=
  let entry := s.mem srcPdpt i
  if !has entry pagePresent then (true, s)
  else if !has entry pageUser then (true, writeEntry s dstPdpt i entry)
  else pagingCloneUserPd im (touch s (entryFrame entry * pageSize)) dstPdpt (entryFrame entry) i

/-- `paging_clone_user_pdpt`; `true` is 0. -/
def pagingCloneUserPdpt (s : Vm) (dstPml4 srcPdpt : Nat) (pml4Idx : Fin 512) :
    Bool × Vm :=
  match pagingAllocTable im s with
  | (none, s) => (false, s)
  | (some dstPdpt, s) =>
    forEach (clonePdpte im dstPdpt srcPdpt) (List.finRange 512)
      (writeEntry s dstPml4 pml4Idx (frameWord dstPdpt ||| cloneFlags))

/-- One turn of the loop of `paging_clone_current_address_space`. -/
def clonePml4e (copyUser : Bool) (dstPml4 srcPml4 : Nat) (i : Fin 512) (s : Vm) :
    Bool × Vm :=
  let entry := s.mem srcPml4 i
  if !has entry pagePresent then (true, s)
  else if !copyUser || !has entry pageUser then (true, writeEntry s dstPml4 i entry)
  else pagingCloneUserPdpt im (touch s (entryFrame entry * pageSize)) dstPml4 (entryFrame entry) i

/-- `paging_clone_current_address_space`: the new `cr3`, or 0 where it runs out of frames. -/
def pagingCloneCurrentAddressSpace (s : Vm) (copyUser : Bool) : Option Nat × Vm :=
  let srcPml4 := s.pml4
  match pagingAllocTable im s with
  | (none, s) => (none, s)
  | (some dstPml4, s) =>
    match forEach (clonePml4e im copyUser dstPml4 srcPml4) (List.finRange 512) s with
    | (false, s) => (none, s)
    | (true, s) => (some dstPml4, s)

/-! ### Boot -/

/-- A region of the multiboot memory map; type 1 is available memory. -/
structure MmapEntry where
  baseAddr : Nat
  length : Nat
  type : Nat

/-- What `paging_init` reads of the multiboot information: the memory map, if there is one with
    entries of at least the known size, and the `[mod_start, mod_end)` of each module. -/
structure MultibootInfo where
  mmap : Option (List MmapEntry)
  modules : List (Nat × Nat)

/-- The tables `_start` sets up map 0 to 4 MiB through two huge pages; the rest of memory holds
    anything. -/
def bootMemory (mem : Memory) : Memory :=
  let mem := Function.update mem im.pmlTable fun i =>
    if i = 0 then frameWord im.pdpTable ||| 3#64 else 0#64
  let mem := Function.update mem im.pdpTable fun i =>
    if i = 0 then frameWord im.pdTable ||| 3#64 else 0#64
  Function.update mem im.pdTable fun i =>
    if i = 0 then 0x83#64 else if i = 1 then 0x200083#64 else 0#64

/-- The loop over the frames of an available region, `n` of them from `addr` on. -/
def freeRegion : Nat → Nat → Vm → Vm
  | 0, _, s => s
  | n + 1, addr, s =>
    let frame := addr / pageSize
    if frame ≥ maxFrames then s
    else
      let s := if frame + 1 > s.totalFrames then { s with totalFrames := frame + 1 } else s
      freeRegion n (addr + pageSize) (bitmapClear s frame)

/-- The body of the loop over the memory map. -/
def freeEntry (s : Vm) (e : MmapEntry) : Vm :=
  let regionEnd := u64 (e.baseAddr + e.length)
  if e.type = 1 ∧ e.baseAddr < maxPhysMem then
    let regionEnd := if regionEnd > maxPhysMem then maxPhysMem else regionEnd
    freeRegion ((regionEnd - e.baseAddr + (pageSize - 1)) / pageSize) e.baseAddr s
  else s

/-- The loop of `reserve_frames`, `n` frames from `frame` on. -/
def reserveLoop : Nat → Nat → Vm → Vm
  | 0, _, s => s
  | n + 1, frame, s => reserveLoop n (frame + 1) (if frame < maxFrames then bitmapSet s frame else s)

/-- `reserve_frames`. -/
def reserveFrames (s : Vm) (start stop : Nat) : Vm :=
  let first := start / pageSize
  let last := u64 (stop + pageSize - 1) / pageSize
  reserveLoop (last - first) first s

/-- The loop of `paging_extend_identity_map`: `n` pages from `addr` on, up to the first failure. -/
def extendIdentityFrom : Nat → Nat → Vm → Vm
  | 0, _, s => s
  | n + 1, addr, s =>
    match pagingMapPage im s addr addr (pagePresent ||| pageWritable) with
    | (false, s) => s
    | (true, s) => extendIdentityFrom n (addr + pageSize) s

/-- `paging_extend_identity_map`. -/
def pagingExtendIdentityMap (s : Vm) : Vm :=
  extendIdentityFrom im ((identity4kEnd - identity4kStart) / pageSize) identity4kStart s

/-- The frames `paging_init` leaves free, before it extends the identity map. -/
def pagingInitFrames (mem : Memory) (mb : MultibootInfo) : Vm :=
  let s : Vm := ⟨bootMemory im mem, fun _ => true, 0, im.pmlTable, []⟩
  let s := (mb.mmap.getD []).foldl freeEntry s
  let s := if s.totalFrames = 0 then
      { s with totalFrames := maxFrames, frameBitmap := fun _ => false } else s
  let s := reserveFrames s 0 (if maxPhysMem < im.kernelEnd then maxPhysMem else im.kernelEnd)
  let s := reserveFrames s im.stackBottom im.stackTop
  let s := reserveFrames s userImagePhysStart userImagePhysEnd
  mb.modules.foldl (fun s m => reserveFrames s m.1 m.2) s

/-- `paging_init`, on the memory `_start` leaves. -/
def pagingInit (mem : Memory) (mb : MultibootInfo) : Vm :=
  pagingExtendIdentityMap im (pagingInitFrames im mem mb)

end TypeOS.Paging
