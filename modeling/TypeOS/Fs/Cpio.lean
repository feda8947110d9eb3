import TypeOS.Layout
import TypeOS.Fs.Vfs

/-! The two unpackers of `fs/cpio.c`.

    `cpio_populate_vfs_phys` copies what it reads out of physical memory: `paging_copy_from_phys`
    fills a buffer with the bytes of the range, or fails. `cpio_populate_vfs` reads through pointers,
    so here each range that it reads is entered in a log. Pointers wrap at 2^64; the offsets of the
    other unpacker do not get that far, since `cpio_align4` cuts its result off at 2^32. A name
    without a NUL goes on in what lies behind it. -/

namespace TypeOS.Fs

/-- Memory, by address. -/
abbrev Bytes := Nat → UInt8

/-- The bytes from an address on. -/
def bytesAt (mem : Bytes) (a n : Nat) : List UInt8 := (List.range n).map fun i => mem (a + i)

/-- Physical memory, and which ranges can be copied. -/
structure Phys where
  bytes : Bytes
  copies : Nat → Nat → Bool

/-- Every part of a range can be copied. -/
def Phys.Copies (phys : Phys) (base size : Nat) : Prop :=
  ∀ a n, base ≤ a → a + n ≤ base + size → phys.copies a n = true

/-- `paging_copy_from_phys`: what is in the buffer, if it succeeds. -/
def pagingCopyFromPhys (phys : Phys) (src len : Nat) : Option (List UInt8) :=
  if phys.copies src len then some (bytesAt phys.bytes src len) else none

/-- The C string in a buffer, with what lies behind the buffer. -/
def cString : List UInt8 → Text → Text
  | [], behind => behind
  | b :: bs, behind => if h : b = 0 then [] else ⟨b, h⟩ :: cString bs behind

/-- `CPIO_NEWC_MAGIC`. -/
def cpioNewcMagic : List UInt8 := [48, 55, 48, 55, 48, 49]

/-- `CPIO_TRAILER`. -/
def cpioTrailer : Text :=
  [⟨84, by decide⟩, ⟨82, by decide⟩, ⟨65, by decide⟩, ⟨73, by decide⟩, ⟨76, by decide⟩,
    ⟨69, by decide⟩, ⟨82, by decide⟩, ⟨33, by decide⟩, ⟨33, by decide⟩, ⟨33, by decide⟩]

/-- `CPIO_HEADER_SIZE`. -/
abbrev cpioHeaderSize : Nat := 110

/-- The digit that `cpio_parse_hex` takes a byte for. -/
def hexDigit (c : UInt8) : BitVec 32 :=
  if 48 ≤ c ∧ c ≤ 57 then BitVec.ofNat 32 (c.toNat - 48)
  else if 97 ≤ c ∧ c ≤ 102 then BitVec.ofNat 32 (c.toNat - 97 + 10)
  else if 65 ≤ c ∧ c ≤ 70 then BitVec.ofNat 32 (c.toNat - 65 + 10)
  else 0#32

/-- `cpio_parse_hex`. -/
def cpioParseHex (text : List UInt8) : BitVec 32 :=
  text.foldl (fun value c => (value <<< 4) ||| hexDigit c) 0#32

/-- `cpio_align4` and `cpio_align_offset`: `~3U` has 32 bits. -/
def cpioAlignOffset (offset : Nat) : Nat := (offset + 3) &&& 0xFFFFFFFC

/-- Eight bytes of a header. -/
def field (hdr : List UInt8) (start : Nat) : List UInt8 := (hdr.drop start).take 8

/-- `c_mode`. -/
def headerMode (hdr : List UInt8) : BitVec 32 := cpioParseHex (field hdr 14)

/-- `c_filesize`. -/
def headerFilesize (hdr : List UInt8) : Nat := (cpioParseHex (field hdr 54)).toNat

/-- `c_namesize`. -/
def headerNamesize (hdr : List UInt8) : Nat := (cpioParseHex (field hdr 94)).toNat

def dot : Ch := ⟨46, by decide⟩

/-- The path that `cpio_normalize_path` makes of a name: none if nothing is left of it. -/
def normalized (name : Text) : Option Text :=
  match vfsSkipSlash (name.dropWhile (· = dot)) with
  | [] => none
  | rest => some (slash :: rest)

/-- `cpio_normalize_path`: `NULL` also where there is no memory. -/
def cpioNormalizePath (heap : Heap) (name : Text) (s : Vfs) : Option (Ptr × Text) × Vfs :=
  match normalized name with
  | none => (none, s)
  | some path =>
    match kmalloc heap s with
    | (none, s) => (none, s)
    | (some p, s) => (some (p, path), s)

/-- `cpio_install_entry_phys`. -/
def cpioInstallEntryPhys (heap : Heap) (phys : Phys) (path : Text) (mode : BitVec 32)
    (dataPhys size : Nat) (s : Vfs) : Int × Vfs :=
  if mode &&& sIfmt = sIfdir then vfsMkdir heap path mode s
  else if mode &&& sIfmt = sIflnk then
    if size = 0 then (-1, s)
    else
      match kmalloc heap s with
      | (none, s) => (-1, s)
      | (some target, s) =>
        match pagingCopyFromPhys phys dataPhys size with
        | none => (-1, kfree target s)
        | some bytes =>
          match vfsSymlink heap (cString bytes []) path s with
          | (rc, s) => (rc, kfree target s)
  else if mode &&& sIfmt = sIfreg ∨ mode &&& sIfmt = 0#32 then
    let mode := if mode &&& sIfmt = 0#32 then mode ||| sIfreg else mode
    if 0 < size then
      match kmalloc heap s with
      | (none, s) => (-1, s)
      | (some data, s) =>
        match pagingCopyFromPhys phys dataPhys size with
        | none => (-1, kfree data s)
        | some bytes =>
          match vfsCreate heap path mode bytes s with
          | (rc, s) => (rc, kfree data s)
    else vfsCreate heap path mode [] s
  else (0, s)

/-- A turn of an unpacker: it returns, or goes on at an offset. -/
inductive Turn
  | ends (rc : Int) (s : Vfs)
  | next (offset : Nat) (s : Vfs)

/-- The body of the loop of `cpio_populate_vfs_phys`; `behind` tells what the heap holds behind the
    block of a request, up to a NUL. -/
def populatePhysTurn (heap : Heap) (phys : Phys) (behind : Nat → Text) (basePhys size offset : Nat)
    (s : Vfs) : Turn :=
  if size < offset + cpioHeaderSize then .ends (-1) s
  else
    match pagingCopyFromPhys phys (basePhys + offset) cpioHeaderSize with
    | none => .ends (-1) s
    | some hdr =>
      if hdr.take 6 ≠ cpioNewcMagic then .ends (-1) s
      else
        let namesize := headerNamesize hdr
        let filesize := headerFilesize hdr
        if namesize = 0 ∨ 4096 < namesize then .ends (-1) s
        else if size < offset + cpioHeaderSize + namesize then .ends (-1) s
        else
          match kmalloc heap s with
          | (none, s') => .ends (-1) s'
          | (some block, s') =>
            match pagingCopyFromPhys phys (basePhys + (offset + cpioHeaderSize)) namesize with
            | none => .ends (-1) (kfree block s')
            | some name =>
              if strncmp (namesize - 1) name cpioTrailer.bytes = 0 then .ends 0 (kfree block s')
              else
                let data := cpioAlignOffset (offset + cpioHeaderSize + namesize)
                if size < data + filesize then .ends (-1) (kfree block s')
                else
                  match cpioNormalizePath heap (cString name (behind s.requests)) s' with
                  | (none, s') => .next (cpioAlignOffset (data + filesize)) (kfree block s')
                  | (some (p, path), s') =>
                    match cpioInstallEntryPhys heap phys path (headerMode hdr) (basePhys + data) filesize
                      (kfree block s') with
                    | (0, s') => .next (cpioAlignOffset (data + filesize)) (kfree p s')
                    | (rc, s') => .ends rc (kfree p s')

/-- The loop of `cpio_populate_vfs_phys` for so many turns: no answer if it is still at it. -/
def populatePhysLoop (heap : Heap) (phys : Phys) (behind : Nat → Text) (basePhys size : Nat) :
    Nat → Nat → Vfs → Option Int × Vfs
  | 0, _, s => (none, s)
  | n + 1, offset, s =>
    match populatePhysTurn heap phys behind basePhys size offset s with
    | .ends rc s => (some rc, s)
    | .next offset s => populatePhysLoop heap phys behind basePhys size n offset s

/-- `cpio_populate_vfs_phys`. -/
def cpioPopulateVfsPhys (heap : Heap) (phys : Phys) (behind : Nat → Text) (basePhys size n : Nat)
    (s : Vfs) : Option Int × Vfs :=
  populatePhysLoop heap phys behind basePhys size n 0 s

/-! ### Through pointers -/

/-- `(size_t) (a - b)`. -/
def ptrDiff (a b : Nat) : Nat := u64 (a + 2 ^ 64 - b)

/-- Ranges of addresses that were read: the first address and the number of bytes. -/
abbrev Reads := List (Nat × Nat)

/-- `cpio_install_entry`, with the range of `data` that it reads. -/
def cpioInstallEntry (heap : Heap) (mem : Bytes) (path : Text) (mode : BitVec 32) (data size : Nat)
    (s : Vfs) : Int × Reads × Vfs :=
  if mode &&& sIfmt = sIfdir then
    match vfsMkdir heap path mode s with
    | (rc, s) => (rc, [], s)
  else if mode &&& sIfmt = sIflnk then
    if size = 0 then (-1, [], s)
    else
      match kmalloc heap s with
      | (none, s) => (-1, [], s)
      | (some target, s) =>
        match vfsSymlink heap (cString (bytesAt mem data size) []) path s with
        | (rc, s) => (rc, [(data, size)], kfree target s)
  else if mode &&& sIfmt = sIfreg ∨ mode &&& sIfmt = 0#32 then
    let mode := if mode &&& sIfmt = 0#32 then mode ||| sIfreg else mode
    match vfsCreate heap path mode (bytesAt mem data size) s with
    | (rc, s) => (rc, [(data, size)], s)
  else (0, [], s)

/-- What is read of a header: `c_magic`, `c_namesize`, `c_filesize` and `c_mode`. -/
def headerReads (cursor : Nat) : Reads :=
  [(cursor, 6), (cursor + 94, 8), (cursor + 54, 8), (cursor + 14, 8)]

/-- The body of the loop of `cpio_populate_vfs`, with what it reads; `behind` tells what lies at an
    address, up to a NUL. -/
def populateTurn (heap : Heap) (mem : Bytes) (behind : Nat → Text) (stop cursor : Nat) (s : Vfs) :
    Reads × Turn :=
  if ptrDiff stop cursor < cpioHeaderSize then ([], .ends (-1) s)
  else
    let hdr := bytesAt mem cursor cpioHeaderSize
    if hdr.take 6 ≠ cpioNewcMagic then ([(cursor, 6)], .ends (-1) s)
    else
      let namesize := headerNamesize hdr
      let filesize := headerFilesize hdr
      let name := u64 (cursor + cpioHeaderSize)
      if ptrDiff stop name < namesize then (headerReads cursor, .ends (-1) s)
      else if namesize = 0 then (headerReads cursor, .ends (-1) s)
      else
        let text := bytesAt mem name namesize
        let compared := headerReads cursor ++ [(name, min (namesize - 1) (cpioTrailer.length + 1))]
        if strncmp (namesize - 1) text cpioTrailer.bytes = 0 then (compared, .ends 0 s)
        else
          let data := cpioAlignOffset (u64 (name + namesize))
          if stop < data then (compared, .ends (-1) s)
          else if ptrDiff stop data < filesize then (compared, .ends (-1) s)
          else
            let string := cString text (behind (name + namesize))
            let named := compared ++ [(name, string.length + 1)]
            match cpioNormalizePath heap string s with
            | (none, s) => (named, .next (cpioAlignOffset (u64 (data + filesize))) s)
            | (some (p, path), s) =>
              match cpioInstallEntry heap mem path (headerMode hdr) data filesize s with
              | (0, reads, s) =>
                (named ++ reads, .next (cpioAlignOffset (u64 (data + filesize))) (kfree p s))
              | (rc, reads, s) => (named ++ reads, .ends rc (kfree p s))

/-- Where a turn leads, if `go` does the turns after it. -/
def Turn.followed (go : Nat → Vfs → Option Int × Reads × Vfs) :
    Reads × Turn → Option Int × Reads × Vfs
  | (reads, .ends rc s) => (some rc, reads, s)
  | (reads, .next cursor s) =>
    match go cursor s with
    | (rc, later, s) => (rc, reads ++ later, s)

/-- The loop of `cpio_populate_vfs`. -/
def populateLoop (heap : Heap) (mem : Bytes) (behind : Nat → Text) (stop : Nat) :
    Nat → Nat → Vfs → Option Int × Reads × Vfs
  | 0, _, s => (none, [], s)
  | n + 1, cursor, s =>
    Turn.followed (populateLoop heap mem behind stop n) (populateTurn heap mem behind stop cursor s)

/-- `cpio_populate_vfs`; `data` is not `NULL` unless it is 0. -/
def cpioPopulateVfs (heap : Heap) (mem : Bytes) (behind : Nat → Text) (data size n : Nat) (s : Vfs) :
    Option Int × Reads × Vfs :=
  if data = 0 then (some (-1), [], s)
  else populateLoop heap mem behind (u64 (data + size)) n data s

end TypeOS.Fs
