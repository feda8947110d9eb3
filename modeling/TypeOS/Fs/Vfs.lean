import TypeOS.Fs.Text

/-! The ramfs of `fs/vfs.c`: inodes, directory entries, lookup, and the calls on them.

    An inode is named by the address that `kmalloc` gave for it; what a name, a target or the data of
    a file is a copy of is kept in its place. The union of `struct vfs_inode` is `Node`, so an entry
    list is there in a directory only, and a symlink has a target: `vfs_symlink` enters none without
    one. -/

namespace TypeOS.Fs

/-- An address that `kmalloc` gives out. -/
abbrev Ptr := Nat

inductive VfsType
  | dir
  | file
  | symlink
  deriving DecidableEq

/-- `struct vfs_dentry`. -/
structure Dentry where
  name : Text
  inode : Ptr
  deriving DecidableEq

/-- The union of `struct vfs_inode`. -/
inductive Node
  | dir (children : List Dentry)
  | file (data : List UInt8)
  | symlink (target : Text)
  deriving DecidableEq

/-- `struct vfs_inode`. -/
structure Inode where
  mode : BitVec 32
  size : Nat
  node : Node
  deriving DecidableEq

/-- `inode->type`. -/
def Node.type : Node → VfsType
  | .dir _ => .dir
  | .file _ => .file
  | .symlink _ => .symlink

def sIfmt : BitVec 32 := 0o170000#32

def sIfdir : BitVec 32 := 0o040000#32

def sIfreg : BitVec 32 := 0o100000#32

def sIflnk : BitVec 32 := 0o120000#32

/-- `root_inode`, the inodes, the addresses in use, and how often `kmalloc` was called. -/
structure Vfs where
  root : Option Ptr
  inodes : Ptr → Inode
  live : Finset Ptr
  requests : Nat

/-- What the heap answers to the n-th request. -/
abbrev Heap := Nat → Option Ptr

/-- `kmalloc`: an address in use already is no answer. -/
def kmalloc (heap : Heap) (s : Vfs) : Option Ptr × Vfs :=
  match heap s.requests with
  | none => (none, { s with requests := s.requests + 1 })
  | some p =>
    if p ∈ s.live then (none, { s with requests := s.requests + 1 })
    else (some p, { s with live := insert p s.live, requests := s.requests + 1 })

/-- `kfree`. -/
def kfree (p : Ptr) (s : Vfs) : Vfs := { s with live := s.live.erase p }

/-- A store to an inode. -/
def Vfs.setInode (p : Ptr) (inode : Inode) (s : Vfs) : Vfs :=
  { s with inodes := Function.update s.inodes p inode }

/-- The type of an inode. -/
def Vfs.type (s : Vfs) (p : Ptr) : VfsType := (s.inodes p).node.type

/-- The test in `vfs_dir_find`. -/
def Dentry.named (name : Text) (len : Nat) (e : Dentry) : Bool :=
  strncmp len e.name.bytes name.bytes = 0 && e.name[len]? = none

/-- `vfs_dir_find`. -/
def vfsDirFind (s : Vfs) (dir : Ptr) (name : Text) (len : Nat) : Option Dentry :=
  match (s.inodes dir).node with
  | .dir children => children.find? (Dentry.named name len)
  | _ => none

/-- `vfs_dir_add`: the entry, and the copy of its name. -/
def vfsDirAdd (heap : Heap) (dir : Ptr) (name : Text) (inode : Ptr) (s : Vfs) : Int × Vfs :=
  match (s.inodes dir).node with
  | .dir children =>
    if (vfsDirFind s dir name name.length).isSome then (-1, s)
    else
      match kmalloc heap s with
      | (none, s) => (-1, s)
      | (some entry, s) =>
        match kmalloc heap s with
        | (none, s) => (-1, kfree entry s)
        | (some _, s) =>
          (0, s.setInode dir { s.inodes dir with node := .dir (⟨name, inode⟩ :: children) })
  | _ => (-1, s)

/-- `vfs_inode_new`, with what the caller stores in the union. -/
def vfsInodeNew (heap : Heap) (node : Node) (mode : BitVec 32) (s : Vfs) : Option Ptr × Vfs :=
  match kmalloc heap s with
  | (none, s) => (none, s)
  | (some p, s) => (some p, s.setInode p ⟨mode, 0, node⟩)

/-- The loop of `vfs_lookup_parent`, with `create`: the directory and the last component. -/
def lookupParentLoop (heap : Heap) : List (Text × Text) → Ptr → Vfs → Option (Ptr × Text) × Vfs
  | [], current, s => (some (current, []), s)
  | (component, cursor) :: l, current, s =>
    if 256 ≤ component.length then (none, s)
    else if cursor = [] then (some (current, component), s)
    else if s.type current ≠ .dir then (none, s)
    else
      match vfsDirFind s current component component.length with
      | some entry => lookupParentLoop heap l entry.inode s
      | none =>
        match vfsInodeNew heap (.dir []) (sIfdir ||| 0o755#32) s with
        | (none, s) => (none, s)
        | (some next, s) =>
          match vfsDirAdd heap current component next s with
          | (0, s) => lookupParentLoop heap l next s
          | (_, s) => (none, s)

/-- `vfs_lookup_parent`, as its callers use it. -/
def vfsLookupParent (heap : Heap) (path : Text) (s : Vfs) : Option (Ptr × Text) × Vfs :=
  match vfsIsAbsolute path, s.root with
  | true, some root => lookupParentLoop heap (splitPath path) root s
  | _, _ => (none, s)

/-- `vfs_init`. -/
def vfsInit (heap : Heap) (s : Vfs) : Vfs :=
  match vfsInodeNew heap (.dir []) (sIfdir ||| 0o755#32) s with
  | (p, s) => { s with root := p }

/-- `vfs_mkdir`. -/
def vfsMkdir (heap : Heap) (path : Text) (mode : BitVec 32) (s : Vfs) : Int × Vfs :=
  match vfsLookupParent heap path s with
  | (none, s) => (-1, s)
  | (some (parent, name), s) =>
    if name = [] then (-1, s)
    else if (vfsDirFind s parent name name.length).isSome then (0, s)
    else
      match vfsInodeNew heap (.dir []) mode s with
      | (none, s) => (-1, s)
      | (some inode, s) => vfsDirAdd heap parent name inode s

/-- The copy of the data in `vfs_create`: none if there is no memory, and no address for no data. -/
def copyData (heap : Heap) (data : List UInt8) (s : Vfs) : Option (Option Ptr) × Vfs :=
  if data.length = 0 then (some none, s)
  else
    match kmalloc heap s with
    | (none, s) => (none, s)
    | (some copy, s) => (some (some copy), s)

/-- `kfree`, of `NULL` too. -/
def kfreeIf (p : Option Ptr) (s : Vfs) : Vfs :=
  match p with
  | none => s
  | some p => kfree p s

/-- `vfs_create`, with the bytes that `data` points at. -/
def vfsCreate (heap : Heap) (path : Text) (mode : BitVec 32) (data : List UInt8) (s : Vfs) :
    Int × Vfs :=
  match vfsLookupParent heap path s with
  | (none, s) => (-1, s)
  | (some (parent, name), s) =>
    if name = [] then (-1, s)
    else if (vfsDirFind s parent name name.length).isSome then (-1, s)
    else
      match vfsInodeNew heap (.file []) mode s with
      | (none, s) => (-1, s)
      | (some inode, s) =>
        match copyData heap data s with
        | (none, s) => (-1, kfree inode s)
        | (some copy, s) =>
          match vfsDirAdd heap parent name inode (s.setInode inode ⟨mode, data.length, .file data⟩) with
          | (0, s) => (0, s)
          | (_, s) => (-1, kfree inode (kfreeIf copy s))

/-- `vfs_symlink`. -/
def vfsSymlink (heap : Heap) (target path : Text) (s : Vfs) : Int × Vfs :=
  match vfsLookupParent heap path s with
  | (none, s) => (-1, s)
  | (some (parent, name), s) =>
    if name = [] then (-1, s)
    else if (vfsDirFind s parent name name.length).isSome then (-1, s)
    else
      match vfsInodeNew heap (.symlink []) (sIflnk ||| 0o777#32) s with
      | (none, s) => (-1, s)
      | (some inode, s) =>
        match kmalloc heap s with
        | (none, s) => (-1, kfree inode s)
        | (some copy, s) =>
          match vfsDirAdd heap parent name inode
            (s.setInode inode ⟨sIflnk ||| 0o777#32, target.length, .symlink target⟩) with
          | (0, s) => (0, s)
          | (_, s) => (-1, kfree inode (kfree copy s))

/-! ### Lookup -/

/-- `vfs_symlink_resolve`: what `out` holds. -/
def vfsSymlinkResolve (base target : Text) (outlen : Nat) : Text :=
  if target.head? = some slash then target.take (outlen - 1)
  else
    match lastSlash base with
    | none => []
    | some i =>
      let dirlen := if i = 0 then 1 else i
      if dirlen + 1 + target.length + 1 > outlen then []
      else base.take dirlen ++ slash :: target

/-- Where the loop of `vfs_lookup_path` gets to: `NULL`, its end, or a symlink to follow, with the
    cursor behind it. -/
inductive Scan
  | null
  | done (current : Ptr)
  | link (target cursor : Text)
  deriving DecidableEq

/-- The loop of `vfs_lookup_path`. -/
def scan (s : Vfs) (follow : Bool) : List (Text × Text) → Ptr → Scan
  | [], current => .done current
  | (component, cursor) :: l, current =>
    if 256 ≤ component.length then .null
    else
      match vfsDirFind s current component component.length with
      | none => .null
      | some entry =>
        match (s.inodes entry.inode).node, follow with
        | .symlink target, true => .link target cursor
        | _, _ => scan s follow l entry.inode

/-- What `curpath` holds when the loop starts again; none where `vfs_lookup_path` returns `NULL`. -/
def expand (curpath target cursor : Text) : Option Text :=
  let rest := cursor.take 255
  let plen := curpath.length - cursor.length
  if 512 ≤ plen then none
  else
    let linkbuf := vfsSymlinkResolve (curpath.take plen) target 512
    if rest = [] then some (linkbuf.take 511)
    else if linkbuf.length + 1 + rest.length + 1 > 512 then none
    else some ((linkbuf ++ slash :: rest).take 511)

/-- `vfs_lookup_path` from `restart` on, for so many expansions: none if it is still at it. The
    counter `depth` is set back with each expansion. -/
def restart (s : Vfs) (follow : Bool) (root : Ptr) : Nat → Nat → Text → Option (Option Ptr)
  | 0, _, _ => none
  | n + 1, depth, curpath =>
    match scan s follow (splitPath curpath) root with
    | .null => some none
    | .link target cursor =>
      if depth + 1 > 8 then some none
      else
        match expand curpath target cursor with
        | none => some none
        | some curpath => restart s follow root n 0 curpath
    | .done current =>
      match (s.inodes current).node, follow with
      | .symlink target, true =>
        if vfsIsAbsolute (vfsSymlinkResolve curpath target 512) then
          restart s follow root n 0 ((vfsSymlinkResolve curpath target 512).take 511)
        else some none
      | _, _ => some (some current)

/-- `vfs_lookup_path`. -/
def vfsLookupPath (n : Nat) (s : Vfs) (path : Text) (follow : Bool) : Option (Option Ptr) :=
  match vfsIsAbsolute path, s.root with
  | true, some root => restart s follow root n 0 (path.take 511)
  | _, _ => some none

/-! ### Files -/

/-- `struct vfs_stat`. -/
structure VfsStat where
  type : VfsType
  mode : BitVec 32
  size : Nat
  deriving DecidableEq

/-- `struct vfs_file`. -/
structure VfsFile where
  inode : Option Ptr
  pos : Nat
  path : Text

/-- `vfs_stat`; here and below the lookup has answered `found`. -/
def vfsStat (found : Option Ptr) (s : Vfs) : Option VfsStat :=
  match found with
  | none => none
  | some p => some ⟨s.type p, (s.inodes p).mode, (s.inodes p).size⟩

/-- `vfs_open`. -/
def vfsOpen (found : Option Ptr) (path : Text) (s : Vfs) : Option VfsFile :=
  match found with
  | none => none
  | some p =>
    if s.type p ≠ .file ∧ s.type p ≠ .dir then none else some ⟨some p, 0, path.take 255⟩

/-- `vfs_read`: the result, the bytes that it copies, and the file. -/
def vfsRead (file : VfsFile) (count : Nat) (s : Vfs) : Int × List UInt8 × VfsFile :=
  match file.inode with
  | none => (-1, [], file)
  | some p =>
    match (s.inodes p).node with
    | .file data =>
      if (s.inodes p).size ≤ file.pos then (0, [], file)
      else
        let count := min count ((s.inodes p).size - file.pos)
        if 0 < count ∧ data ≠ [] then
          (count, (data.drop file.pos).take count, { file with pos := file.pos + count })
        else (count, [], file)
    | _ => (-1, [], file)

/-- `vfs_read_at`. -/
def vfsReadAt (found : Option Ptr) (offset count : Nat) (s : Vfs) : Int × List UInt8 :=
  match found with
  | none => (-1, [])
  | some p =>
    match (s.inodes p).node with
    | .file data =>
      if (s.inodes p).size ≤ offset then (0, [])
      else
        let count := min count ((s.inodes p).size - offset)
        (count, if 0 < count ∧ data ≠ [] then (data.drop offset).take count else [])
    | _ => (-1, [])

/-- `vfs_readlink`. -/
def vfsReadlink (found : Option Ptr) (bufsz : Nat) (s : Vfs) : Int × Text :=
  match found with
  | none => (-1, [])
  | some p =>
    match (s.inodes p).node with
    | .symlink target =>
      if bufsz = 0 then (-1, [])
      else
        let len := if bufsz ≤ target.length then bufsz - 1 else target.length
        (len, target.take len)
    | _ => (-1, [])

/-- `vfs_readdir`. -/
def vfsReaddir (found : Option Ptr) (maxEntries : Nat) (s : Vfs) : Option (List (Text × VfsType)) :=
  match found with
  | none => none
  | some p =>
    match (s.inodes p).node with
    | .dir children => some ((children.take maxEntries).map fun e => (e.name, s.type e.inode))
    | _ => none

end TypeOS.Fs
