import TypeOS.Sys.Getdents
import TypeOS.Sys.Read
import TypeOS.Sys.Memory

/-! What the caller of `SYS_getdents64` finds in its buffer.

    The packing loop stores a header and a name for each record, with a gap up to the next multiple of 8.
    A reader goes from record to record by `d_reclen`, and takes a name up to its NUL. It finds the entries
    of the directory again, from the position of the descriptor on, and ends where the call said. -/

namespace TypeOS.Sys

open Bytes
open Fs (Text Ptr Vfs Heap VfsType VfsFile)

/-! ### The buffer -/

/-- The bytes of a `struct linux_dirent64`. -/
def direntHeader (d : LinuxDirent64) : List UInt8 :=
  leBytes 8 d.dIno ++ (leBytes 8 d.dOff ++ (leBytes 2 d.dReclen ++ leBytes 1 d.dType))

/-- A name with its NUL. -/
def nameBytes (name : Text) : List UInt8 := name.bytes ++ [0]

/-- The packing loop on the memory of the caller. -/
def packCopy (buf count : Nat) :
    List (Text × VfsType) → Nat → Nat → Nat → Memory → Packed × Memory
  | [], _, out, pos, mem => (⟨true, out, pos, []⟩, mem)
  | entry :: entries, i, out, pos, mem =>
    if count < out + reclen entry.1 then (⟨true, out, pos, []⟩, mem)
    else
      match copyToUser mem (u64 (buf + out)) (direntHeader (record i entry)) with
      | none => (⟨false, out, pos, []⟩, mem)
      | some mem =>
        match copyToUser mem (u64 (buf + out + direntSize)) (nameBytes entry.1) with
        | none => (⟨false, out, pos, []⟩, mem)
        | some mem =>
          let packed := packCopy buf count entries (i + 1) (out + reclen entry.1) (i + 1) mem
          ({ packed.1 with records := record i entry :: packed.1.records }, packed.2)

/-- `sys_getdents64` with the memory of its caller. -/
def sysGetdents64Copy (n : Nat) (file : VfsFile) (s : Vfs) (buf count : Nat) (mem : Memory) :
    Option (Int × Memory × VfsFile) :=
  if (vfsFstat file s).map Fs.VfsStat.type ≠ some .dir then some (eNotdir, mem, file)
  else
    match Fs.vfsLookupPath n s file.path true with
    | none => none
    | some found =>
      match Fs.vfsReaddir found maxEntries s with
      | none => some (eFault, mem, file)
      | some entries =>
        let i := file.pos % 2 ^ 32
        let packed := packCopy buf count (entries.drop i) i 0 file.pos mem
        some (if packed.1.ok then packed.1.out else eFault, packed.2, { file with pos := packed.1.pos })

/-- `sys_lseek` on the file of a descriptor. -/
def sysLseek (file : VfsFile) (s : Vfs) (offset whence : Int) : Int × VfsFile :=
  match vfsFstat file s with
  | none => (0, file)
  | some vs =>
    if vs.type ≠ .file then (0, file)
    else
      let seek (pos : Int) : Int × VfsFile :=
        (Int.bmod pos (2 ^ 64), { file with pos := (pos % 2 ^ 64).toNat })
      if whence = 0 then seek offset
      else if whence = 1 then seek (file.pos + offset)
      else if whence = 2 then seek (vs.size + offset)
      else (eInval, file)

/-! ### The reader -/

/-- The text up to the first NUL, if there is one. -/
def firstText : List UInt8 → Option Text
  | [] => none
  | c :: cs => if h : c = 0 then some [] else (firstText cs).map (⟨c, h⟩ :: ·)

/-- The record at an address, with its name in the bytes that `d_reclen` leaves for it. -/
def readDirent (mem : Memory) (a : Nat) : Option LinuxDirent64 :=
  let len := leNat (load mem (a + 16) 2)
  (firstText (load mem (a + direntSize) (len - direntSize))).map fun name =>
    ⟨leNat (load mem a 8), leNat (load mem (a + 8) 8), len, leNat (load mem (a + 18) 1), name⟩

/-- The records in so many bytes from an address on, for so many turns: no answer if the lengths do not
    end where the bytes do. -/
def walkDirents (mem : Memory) : Nat → Nat → Nat → Option (List LinuxDirent64)
  | 0, _, _ => none
  | n + 1, a, left =>
    if left = 0 then some []
    else
      (readDirent mem a).bind fun d =>
        if d.dReclen = 0 ∨ left < d.dReclen then none
        else (walkDirents mem n (a + d.dReclen) (left - d.dReclen)).map (d :: ·)

/-- A record of the entry number i. -/
structure OfEntry (d : LinuxDirent64) (i : Nat) (entry : Text × VfsType) : Prop where
  name : d.dName = entry.1
  type : d.dType = vfsTypeToDirent entry.2
  off : d.dOff = i + 1
  multiple : d.dReclen % 8 = 0
  covers : direntSize + (entry.1.length + 1) ≤ d.dReclen

/-- Records of consecutive entries, from the number i on. -/
def Consecutive (entries : List (Text × VfsType)) (i : Nat) (rs : List LinuxDirent64) : Prop :=
  ∀ j d, rs[j]? = some d → ∃ entry, entries[i + j]? = some entry ∧ OfEntry d (i + j) entry

/-! ### One record -/

variable {mem mem' : Memory} {a buf count : Nat} {d : LinuxDirent64}

theorem length_direntHeader (d : LinuxDirent64) : (direntHeader d).length = direntSize := by
  simp only [direntHeader, List.length_append, length_leBytes]

theorem length_nameBytes (name : Text) : (nameBytes name).length = name.length + 1 := by
  simp [nameBytes, Text.bytes]

theorem firstText_nameBytes (name : Text) (rest : List UInt8) :
    firstText (nameBytes name ++ rest) = some name := by
  induction name with
  | nil => rfl
  | cons c name ih =>
    have hcons : nameBytes (c :: name) ++ rest = c.1 :: (nameBytes name ++ rest) := rfl
    rw [hcons, firstText, dif_neg c.2, ih]
    rfl

/-- What fits the fields of the header. -/
structure Fits (d : LinuxDirent64) : Prop where
  ino : d.dIno < 2 ^ 64
  off : d.dOff < 2 ^ 64
  reclen : d.dReclen < 2 ^ 16
  type : d.dType < 2 ^ 8
  covers : direntSize + (d.dName.length + 1) ≤ d.dReclen

/-- A record is read back. -/
theorem readDirent_eq (hf : Fits d) (hh : load mem a direntSize = direntHeader d)
    (hn : load mem (a + direntSize) (d.dName.length + 1) = nameBytes d.dName) :
    readDirent mem a = some d := by
  have hfield : ∀ (x z : List UInt8) (n v : Nat), direntHeader d = x ++ (leBytes n v ++ z) →
      v < 256 ^ n → leNat (load mem (a + x.length) n) = v := by
    intro x z n v hsplit hv
    have hlen : x.length + ((leBytes n v).length + z.length) = direntSize := by
      rw [← length_direntHeader d, hsplit, List.length_append, List.length_append]
    have hpart := load_part (hlen ▸ hh.trans hsplit) rfl (length_leBytes n v).symm
    rw [hpart, leNat_leBytes, Nat.mod_eq_of_lt hv]
  have hino := hfield [] _ 8 d.dIno rfl (by have := hf.ino; omega)
  have hoff := hfield (leBytes 8 d.dIno) _ 8 d.dOff rfl (by have := hf.off; omega)
  have hlen := hfield (leBytes 8 d.dIno ++ leBytes 8 d.dOff) (leBytes 1 d.dType) 2 d.dReclen
    (by simp only [direntHeader, List.append_assoc]) (by have := hf.reclen; omega)
  have htype := hfield (leBytes 8 d.dIno ++ (leBytes 8 d.dOff ++ leBytes 2 d.dReclen)) [] 1 d.dType
    (by simp only [direntHeader, List.append_assoc, List.append_nil]) (by have := hf.type; omega)
  simp only [List.length_append, length_leBytes, List.length_nil, Nat.add_zero, Nat.reduceAdd] at *
  have hname : load mem (a + direntSize) (d.dReclen - direntSize) = nameBytes d.dName ++
      load mem (a + direntSize + (d.dName.length + 1)) (d.dReclen - direntSize - (d.dName.length + 1)) := by
    have hc := hf.covers
    rw [← hn, ← load_add]
    exact congrArg (load mem _) (by omega)
  simp only [readDirent, hino, hoff, hlen, htype, hname, firstText_nameBytes, Option.map_some]

/-! ### The loop -/

variable {entries : List (Text × VfsType)} {i out pos : Nat}

/-- The loop on the memory is the loop. -/
theorem packCopy_fst (buf count : Nat) (entries : List (Text × VfsType)) (i out pos : Nat) (mem : Memory) :
    (packCopy buf count entries i out pos mem).1 = packLoop buf count entries i out pos := by
  induction entries generalizing i out pos mem with
  | nil => rfl
  | cons entry entries ih =>
    have hh := length_direntHeader (record i entry)
    have hn := length_nameBytes entry.1
    rw [packCopy, packLoop]
    split
    · rfl
    · rw [copyToUser, hh]
      cases hok : userPtrOk (u64 (buf + out)) direntSize with
      | false => simp
      | true =>
        simp only [copyToUser, hn, if_true, Bool.true_and]
        cases userPtrOk (u64 (buf + out + direntSize)) (entry.1.length + 1) with
        | false => rfl
        | true =>
          simp only [if_true]
          rw [ih]

theorem vfsTypeToDirent_lt (type : VfsType) : vfsTypeToDirent type < 2 ^ 8 := by
  cases type <;> decide

theorem reclen_short {name : Text} (h : name.length ≤ 255) : reclen name % 2 ^ 16 = reclen name := by
  simp only [reclen, direntSize]
  omega

/-- The record of an entry with a name of the file system. -/
theorem record_fits {entry : Text × VfsType} (h : entry.1.length ≤ 255) (hi : i < 2 ^ 32) :
    Fits (record i entry) where
  ino := by simp only [record]; omega
  off := by simp only [record]; omega
  reclen := Nat.mod_lt _ (by decide)
  type := vfsTypeToDirent_lt entry.2
  covers := by
    simp only [record, reclen_short h]
    exact reclen_pos entry.1

theorem record_ofEntry {entry : Text × VfsType} (h : entry.1.length ≤ 255) :
    OfEntry (record i entry) i entry where
  name := rfl
  type := rfl
  off := rfl
  multiple := by
    simp only [record, reclen]
    omega
  covers := by
    simp only [record, reclen_short h]
    exact reclen_pos entry.1

theorem no_records {r : Packed} (hr : r.records = []) (hp : r.pos = pos) :
    (∀ j d, r.records[j]? = some d →
      ∃ entry, entries[j]? = some entry ∧ d = record (i + j) entry) ∧
    (r.records = [] → r.pos = pos) ∧ ∀ d ∈ r.records.getLast?, r.pos = d.dOff := by
  refine ⟨fun j d hj => ?_, fun _ => hp, fun d hd => ?_⟩
  · rw [hr, List.getElem?_nil] at hj
    cases hj
  · rw [hr, List.getLast?_nil] at hd
    cases hd

/-- The records are of the entries in order, and the position is behind the last. -/
theorem packLoop_records (buf count : Nat) (entries : List (Text × VfsType)) (i out pos : Nat) :
    (∀ j d, (packLoop buf count entries i out pos).records[j]? = some d →
      ∃ entry, entries[j]? = some entry ∧ d = record (i + j) entry) ∧
    ((packLoop buf count entries i out pos).records = [] →
      (packLoop buf count entries i out pos).pos = pos) ∧
    ∀ d ∈ (packLoop buf count entries i out pos).records.getLast?,
      (packLoop buf count entries i out pos).pos = d.dOff := by
  induction entries generalizing i out pos with
  | nil => exact no_records rfl rfl
  | cons entry entries ih =>
    rw [packLoop]
    split
    · exact no_records rfl rfl
    · split
      · obtain ⟨horder, hnone, hlast⟩ := ih (i + 1) (out + reclen entry.1) (i + 1)
        refine ⟨fun j d hj => ?_, fun hnil => by (cases hnil), fun d hd => ?_⟩
        · cases j with
          | zero => exact ⟨entry, rfl, (Option.some.inj hj).symm⟩
          | succ j =>
            obtain ⟨e, he, hrec⟩ := horder j d hj
            exact ⟨e, he, by rw [hrec, Nat.add_right_comm, Nat.add_assoc]⟩
        · cases hr : (packLoop buf count entries (i + 1) (out + reclen entry.1) (i + 1)).records with
          | nil =>
            simp only [hr, List.getLast?_singleton, Option.mem_some_iff] at hd
            rw [← hd]
            exact hnone hr
          | cons d' ds =>
            simp only [hr, List.getLast?_cons_cons] at hd
            exact hlast d (hr ▸ hd)
      · exact no_records rfl rfl

theorem walkDirents_none {n : Nat} (hn : out - out < n) : walkDirents mem n a (out - out) = some [] := by
  match n, hn with
  | n + 1, _ => rw [Nat.sub_self, walkDirents, if_pos rfl]

/-- After a loop without a failed copy the reader finds the records, and what lies before them is as it
    was. -/
theorem packCopy_walk (hbuf : buf + out < 2 ^ 64) (hshort : ∀ e ∈ entries, e.1.length ≤ 255)
    (hi : i + entries.length < 2 ^ 32) (hout : out ≤ count)
    (hok : (packCopy buf count entries i out pos mem).1.ok = true) :
    out ≤ (packCopy buf count entries i out pos mem).1.out ∧
    (packCopy buf count entries i out pos mem).1.out ≤ count ∧
    (∀ x < buf + out, (packCopy buf count entries i out pos mem).2 x = mem x) ∧
    ∀ n, (packCopy buf count entries i out pos mem).1.out - out < n →
      walkDirents (packCopy buf count entries i out pos mem).2 n (buf + out)
        ((packCopy buf count entries i out pos mem).1.out - out) =
        some (packCopy buf count entries i out pos mem).1.records := by
  induction entries generalizing i out pos mem with
  | nil => exact ⟨le_rfl, hout, fun _ _ => rfl, fun n => walkDirents_none⟩
  | cons entry entries ih =>
    have hname := hshort entry (List.mem_cons_self ..)
    have hfits := record_fits (i := i) hname (by simp only [List.length_cons] at hi; omega)
    have hcovers := reclen_pos entry.1
    revert hok
    rw [packCopy]
    split
    · exact fun _ => ⟨le_rfl, hout, fun _ _ => rfl, fun n => walkDirents_none⟩
    rename_i hroom
    rw [copyToUser, length_direntHeader, u64_of_lt hbuf]
    split
    · exact fun hok => absurd hok Bool.false_ne_true
    rename_i mem₁ hmem₁
    split at hmem₁
    case isFalse => cases hmem₁
    rename_i hptr
    rw [userPtrOk_iff] at hptr
    simp only [userAddrMax, direntSize] at hptr
    rw [copyToUser, length_nameBytes, u64_of_lt (by simp only [direntSize]; omega)]
    split
    · exact fun hok => absurd hok Bool.false_ne_true
    rename_i mem₂ hmem₂
    split at hmem₂
    case isFalse => cases hmem₂
    rename_i hptr'
    rw [userPtrOk_iff] at hptr'
    simp only [userAddrMax, direntSize] at hptr'
    intro hok
    -- the two stores of this record
    set mem₁' := store mem (buf + out) (direntHeader (record i entry)) with hmem₁'
    set mem₂' := store mem₁' (buf + out + direntSize) (nameBytes entry.1) with hmem₂'
    obtain rfl : mem₁' = mem₁ := Option.some.inj hmem₁
    obtain rfl : mem₂' = mem₂ := Option.some.inj hmem₂
    have hlen : (record i entry).dReclen = reclen entry.1 := reclen_short hname
    have hsum : buf + (out + reclen entry.1) = buf + out + reclen entry.1 := (Nat.add_assoc ..).symm
    obtain ⟨h1, h2, h3, h4⟩ := @ih mem₂' (i + 1) (out + reclen entry.1) (i + 1)
      (by simp only [reclen, direntSize]; omega) (fun e he => hshort e (List.mem_cons_of_mem _ he))
      (by simp only [List.length_cons] at hi; omega) (by omega) hok
    generalize packCopy buf count entries (i + 1) (out + reclen entry.1) (i + 1) mem₂' = r at *
    rw [hsum] at h3 h4
    simp only [direntSize] at hcovers
    have hheader : load r.2 (buf + out) direntSize = direntHeader (record i entry) := by
      have hst := load_store mem (buf + out) (direntHeader (record i entry))
      rw [length_direntHeader] at hst
      rw [← hst]
      refine load_congr fun k hk => ?_
      simp only [direntSize] at hk
      rw [h3 _ (by omega)]
      exact store_of_lt (by simp only [direntSize]; omega)
    have hnamed : load r.2 (buf + out + direntSize) (entry.1.length + 1) = nameBytes entry.1 := by
      have hst := load_store mem₁' (buf + out + direntSize) (nameBytes entry.1)
      rw [length_nameBytes] at hst
      rw [← hst]
      exact load_congr fun k hk => h3 _ (by simp only [direntSize]; omega)
    dsimp only
    refine ⟨by omega, h2, fun x hx => ?_, fun n hn => ?_⟩
    · rw [h3 x (by omega), hmem₂', store_of_lt (by simp only [direntSize]; omega), hmem₁', store_of_lt hx]
    · obtain ⟨n, rfl⟩ : ∃ m, n = m + 1 := Nat.exists_eq_add_one.mpr (by omega)
      rw [walkDirents, if_neg (by omega), readDirent_eq hfits hheader hnamed, Option.bind_some,
        if_neg (by rw [hlen]; omega), hlen, Nat.sub_sub, h4 n (by omega), Option.map_some]

/-! ### A directory in use -/

/-- The call on the memory is the call. -/
theorem sysGetdents64Copy_eq (n : Nat) (file : VfsFile) (s : Vfs) (buf count : Nat) (mem : Memory) :
    (sysGetdents64Copy n file s buf count mem).map (fun q => (q.1, q.2.2)) =
      (sysGetdents64 n file s buf count).map fun q => (q.1, q.2.2) := by
  rw [sysGetdents64Copy, sysGetdents64]
  split
  · rfl
  · cases Fs.vfsLookupPath n s file.path true with
    | none => rfl
    | some found =>
      dsimp only
      cases Fs.vfsReaddir found maxEntries s with
      | none => rfl
      | some entries => simp only [packCopy_fst, Option.map_some]

/-- A descriptor opened on the directory p, after any calls that use its position, while the file system
    changes. -/
inductive OpenDir (p : Ptr) : Vfs → VfsFile → Prop
  | opened {s : Vfs} {file : VfsFile} {n : Nat} (path : Text) : Fs.Built s → path.length ≤ 255 →
      Fs.vfsLookupPath n s path true = some (some p) → s.type p = .dir →
      Fs.vfsOpen (some p) path s = some file → OpenDir p s file
  | getdents {s : Vfs} {file file' : VfsFile} {n buf count : Nat} {mem mem' : Memory} {r : Int} :
      OpenDir p s file → sysGetdents64Copy n file s buf count mem = some (r, mem', file') →
      OpenDir p s file'
  | lseek {s : Vfs} {file : VfsFile} (offset whence : Int) : OpenDir p s file →
      OpenDir p s (sysLseek file s offset whence).2
  | read {s : Vfs} {file : VfsFile} (count : Nat) : OpenDir p s file →
      OpenDir p s (Fs.vfsRead file count s).2.2
  | meanwhile {s : Vfs} {file : VfsFile} (heap : Heap) (c : Fs.Call) : OpenDir p s file →
      OpenDir p (c.run heap s).2 file

variable {p : Ptr} {s : Vfs} {file file' : VfsFile} {n : Nat} {r : Int}

/-- What holds in each of these states: the position is one of the snapshot, or behind it. -/
structure OnDir (p : Ptr) (s : Vfs) (file : VfsFile) : Prop where
  built : Fs.Built s
  inode : file.inode = some p
  found : ∃ n, Fs.vfsLookupPath n s file.path true = some (some p)
  dir : s.type p = .dir
  pos : file.pos ≤ maxEntries

theorem OnDir.stat (h : OnDir p s file) : (vfsFstat file s).map Fs.VfsStat.type = some .dir := by
  rw [vfsFstat, h.inode, ← h.dir]
  rfl

/-- The snapshot of the directory. -/
theorem OnDir.readdir (h : OnDir p s file) : ∃ entries, Fs.vfsReaddir (some p) maxEntries s = some entries ∧
    entries.length ≤ maxEntries ∧ ∀ e ∈ entries, e.1.length ≤ 255 := by
  have hnode := Fs.dir_of_type h.dir
  refine ⟨((s.entries p).take maxEntries).map fun e => (e.name, s.type e.inode), ?_, ?_, ?_⟩
  · rw [Fs.vfsReaddir, hnode]
  · rw [List.length_map, List.length_take]
    exact min_le_left ..
  · obtain ⟨r, hr, hs⟩ := h.built.shape
    obtain ⟨n, hl⟩ := h.found
    refine List.forall_mem_map.mpr fun e he => ?_
    exact (hs.valid p e ((Fs.Grows.refl r s).lookup hr hl).2 (List.mem_of_mem_take he)).length_le

/-- A call on the directory packs its snapshot from the position on. -/
theorem OnDir.packs (h : OnDir p s file) {mem' : Memory}
    (hc : sysGetdents64Copy n file s buf count mem = some (r, mem', file')) :
    ∃ entries, Fs.vfsLookupPath n s file.path true = some (some p) ∧
      Fs.vfsReaddir (some p) maxEntries s = some entries ∧ entries.length ≤ maxEntries ∧
      (∀ e ∈ entries, e.1.length ≤ 255) ∧
      let packed := packCopy buf count (entries.drop file.pos) file.pos 0 file.pos mem
      r = (if packed.1.ok then (packed.1.out : Int) else eFault) ∧ mem' = packed.2 ∧
        file' = { file with pos := packed.1.pos } := by
  obtain ⟨n', hl'⟩ := h.found
  obtain ⟨entries, hread, hlen, hshort⟩ := h.readdir
  have hpos := h.pos
  have hmod : file.pos % 2 ^ 32 = file.pos :=
    Nat.mod_eq_of_lt (by simp only [maxEntries] at hpos; omega)
  rw [sysGetdents64Copy, if_neg (not_not.mpr h.stat)] at hc
  cases hl : Fs.vfsLookupPath n s file.path true with
  | none =>
    rw [hl] at hc
    cases hc
  | some found =>
    obtain rfl := Fs.lookup_unique hl hl'
    simp only [hl, hread, hmod, Option.some.injEq, Prod.mk.injEq] at hc
    exact ⟨entries, rfl, hread, hlen, hshort, hc.1.symm, hc.2.1.symm, hc.2.2.symm⟩

theorem OnDir.getdents (h : OnDir p s file) {mem' : Memory}
    (hc : sysGetdents64Copy n file s buf count mem = some (r, mem', file')) : OnDir p s file' := by
  obtain ⟨entries, -, -, hlen, -, -, -, rfl⟩ := h.packs hc
  refine ⟨h.built, h.inode, h.found, h.dir, ?_⟩
  rw [packCopy_fst]
  obtain ⟨horder, hnone, hlast⟩ := packLoop_records buf count (entries.drop file.pos) file.pos 0 file.pos
  generalize packLoop buf count (entries.drop file.pos) file.pos 0 file.pos = packed at *
  rcases List.eq_nil_or_concat packed.records with hr | ⟨ds, d, hr⟩
  · exact (hnone hr).trans_le h.pos
  · rw [List.concat_eq_append] at hr
    rw [hr] at horder hlast
    obtain ⟨entry, hentry, hd⟩ := horder ds.length d List.getElem?_concat_length
    rw [List.getElem?_drop] at hentry
    have hlt := (List.getElem?_eq_some_iff.mp hentry).1
    have hpos := hlast d (by rw [List.getLast?_concat]; rfl)
    have hoff : d.dOff = file.pos + ds.length + 1 := by rw [hd]; rfl
    show packed.pos ≤ maxEntries
    omega

/-- The position of a directory only moves by the records. -/
theorem OpenDir.onDir (h : OpenDir p s file) : OnDir p s file := by
  induction h with
  | opened path hb hlen hl hd ho =>
    rw [Fs.vfsOpen] at ho
    split at ho
    · cases ho
    · obtain rfl := Option.some.inj ho
      refine ⟨hb, rfl, ?_, hd, Nat.zero_le _⟩
      rw [List.take_of_length_le hlen]
      exact ⟨_, hl⟩
  | getdents _ hc ih => exact ih.getdents hc
  | @lseek s file offset whence _ ih =>
    have hsame : (sysLseek file s offset whence).2 = file := by
      have hstat := ih.stat
      rw [sysLseek]
      cases hs : vfsFstat file s with
      | none => rfl
      | some vs =>
        rw [hs] at hstat
        have hd : vs.type = .dir := Option.some.inj hstat
        dsimp only
        rw [if_pos (by rw [hd]; decide)]
    rw [hsame]
    exact ih
  | @read s file count _ ih =>
    have hsame : (Fs.vfsRead file count s).2.2 = file := by
      rw [Fs.vfsRead, ih.inode]
      simp only [Fs.dir_of_type ih.dir]
    rw [hsame]
    exact ih
  | meanwhile heap c _ ih =>
    obtain ⟨r, hr, hs⟩ := ih.built.shape
    obtain ⟨n, hl⟩ := ih.found
    have g := (@Fs.Call.evolves _ r heap c hs hr).grows
    obtain ⟨hl', hp⟩ := g.lookup hr hl
    exact ⟨.call heap c ih.built, ih.inode, ⟨n, hl'⟩, (g.type hp).trans ih.dir, ih.pos⟩

/-- What a call that does not fail leaves in the buffer: records that its reader finds, of consecutive
    entries of the directory from the old position on, up to the new one. -/
theorem getdents_decodes (h : OpenDir p s file) (hbuf : buf < 2 ^ 64) {mem' : Memory}
    (hc : sysGetdents64Copy n file s buf count mem = some (r, mem', file')) (hr : 0 ≤ r) :
    r ≤ count ∧ ∃ found entries rs, Fs.vfsLookupPath n s file.path true = some found ∧
      Fs.vfsReaddir found maxEntries s = some entries ∧
      walkDirents mem' (r.toNat + 1) buf r.toNat = some rs ∧ Consecutive entries file.pos rs ∧
      (∀ d ∈ rs.getLast?, file'.pos = d.dOff) ∧ (rs = [] → file'.pos = file.pos) := by
  have hd := h.onDir
  have hpos := hd.pos
  obtain ⟨entries, hl, hread, hlen, hshort, hres, rfl, rfl⟩ := hd.packs hc
  simp only [maxEntries] at hlen hpos
  cases hok : (packCopy buf count (entries.drop file.pos) file.pos 0 file.pos mem).1.ok with
  | false =>
    rw [hok, if_neg Bool.false_ne_true] at hres
    rw [hres] at hr
    exact absurd hr (by decide)
  | true =>
    rw [hok, if_pos rfl] at hres
    have hshort' : ∀ e ∈ entries.drop file.pos, e.1.length ≤ 255 := fun e he =>
      hshort e (List.mem_of_mem_drop he)
    obtain ⟨-, h2, -, h4⟩ := packCopy_walk hbuf hshort'
      (by rw [List.length_drop]; omega) (Nat.zero_le count) hok
    obtain ⟨horder, hnone, hlast⟩ := packLoop_records buf count (entries.drop file.pos) file.pos 0 file.pos
    rw [← packCopy_fst _ _ _ _ _ _ mem] at horder hnone hlast
    generalize packCopy buf count (entries.drop file.pos) file.pos 0 file.pos mem = packed at *
    subst hres
    refine ⟨Int.ofNat_le.mpr h2, some p, entries, packed.1.records, hl, hread, ?_, ?_, hlast, hnone⟩
    · exact h4 _ (Nat.lt_succ_self _)
    · intro j d hj
      obtain ⟨entry, hentry, rfl⟩ := horder j d hj
      rw [List.getElem?_drop] at hentry
      exact ⟨entry, hentry, record_ofEntry (hshort entry (List.mem_of_getElem? hentry))⟩

/-- Of three entries two fit in 60 bytes, and the walk decodes them. -/
theorem getdents_decodes_threeEntries : ∃ mem' rs file', walkDirents mem' 49 userAddrMin 48 = some rs ∧
    sysGetdents64Copy 1 rootFile threeEntries userAddrMin 60 (fun _ => 0) = some (48, mem', file') ∧
    rs.map LinuxDirent64.dName = [[Fs.letter 2], [Fs.letter 1]] ∧ ∀ d ∈ rs.getLast?, file'.pos = d.dOff := by
  have hd : threeEntries.type 0 = .dir := by decide
  have hl : Fs.vfsLookupPath 1 threeEntries [Fs.slash] true = some (some 0) := by decide
  have hopen : OpenDir 0 threeEntries rootFile :=
    .opened [Fs.slash] threeEntries_built (by decide) hl hd (root_opens hd)
  have hres : (sysGetdents64Copy 1 rootFile threeEntries userAddrMin 60 (fun _ => 0)).map Prod.fst = some 48 := by
    decide
  have hnames : ((sysGetdents64Copy 1 rootFile threeEntries userAddrMin 60 (fun _ => 0)).bind fun q =>
      (walkDirents q.2.1 49 userAddrMin 48).map (List.map LinuxDirent64.dName)) =
      some [[Fs.letter 2], [Fs.letter 1]] := by
    decide
  cases hc : sysGetdents64Copy 1 rootFile threeEntries userAddrMin 60 (fun _ => 0) with
  | none =>
    rw [hc] at hres
    cases hres
  | some q =>
    obtain ⟨r, mem', file'⟩ := q
    rw [hc] at hres hnames
    obtain rfl : r = 48 := Option.some.inj hres
    obtain ⟨-, -, -, rs, -, -, hwalk, -, hlast, -⟩ := getdents_decodes hopen (by decide) hc (by decide)
    have hwalk : walkDirents mem' 49 userAddrMin 48 = some rs := hwalk
    simp only [Option.bind_some, hwalk, Option.map_some, Option.some.injEq] at hnames
    exact ⟨mem', rs, file', hwalk, rfl, hnames, hlast⟩

end TypeOS.Sys
