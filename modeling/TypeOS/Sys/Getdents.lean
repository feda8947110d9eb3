import TypeOS.Sys.User
import TypeOS.Fs.Expand

/-! Reading a directory.

    `SYS_getdents64` looks the directory up by the path of the descriptor, takes a snapshot of its first
    32 entries and packs those from `pos` on into the buffer, as far as they fit; `pos` goes on behind
    the last one. So calls in a row report the snapshot in order and nothing behind it. -/

namespace TypeOS.Sys

open Fs (Text Ptr Vfs Heap VfsType VfsFile Dentry)

/-- `struct linux_dirent64` and the name behind it. -/
structure LinuxDirent64 where
  dIno : Nat
  dOff : Nat
  dReclen : Nat
  dType : Nat
  dName : Text
  deriving DecidableEq

/-- `E_NOTDIR`. -/
abbrev eNotdir : Int := -20

/-- `vfs_type_to_dirent`. -/
def vfsTypeToDirent : VfsType → Nat
  | .dir => 4
  | .file => 8
  | .symlink => 10

/-- `sizeof (struct linux_dirent64)`. -/
abbrev direntSize : Nat := 19

/-- The length of a record: the header and the name with its NUL, rounded up. -/
def reclen (name : Text) : Nat := (direntSize + (name.length + 1) + 7) / 8 * 8

/-- The size of the snapshot. -/
abbrev maxEntries : Nat := 32

/-- What the packing loop leaves: whether no copy failed, the length, the position, the records. -/
structure Packed where
  ok : Bool
  out : Nat
  pos : Nat
  records : List LinuxDirent64
  deriving DecidableEq

/-- The record of the entry number i. -/
def record (i : Nat) (entry : Text × VfsType) : LinuxDirent64 :=
  { dIno := i + 1, dOff := i + 1, dReclen := reclen entry.1 % 2 ^ 16,
    dType := vfsTypeToDirent entry.2, dName := entry.1 }

/-- The packing loop, from entry i on. -/
def packLoop (buf count : Nat) : List (Text × VfsType) → Nat → Nat → Nat → Packed
  | [], _, out, pos => ⟨true, out, pos, []⟩
  | entry :: entries, i, out, pos =>
    if count < out + reclen entry.1 then ⟨true, out, pos, []⟩
    else if userPtrOk (u64 (buf + out)) direntSize &&
        userPtrOk (u64 (buf + out + direntSize)) (entry.1.length + 1) then
      let packed := packLoop buf count entries (i + 1) (out + reclen entry.1) (i + 1)
      { packed with records := record i entry :: packed.records }
    else ⟨false, out, pos, []⟩

/-- `vfs_fstat`. -/
def vfsFstat (file : VfsFile) (s : Vfs) : Option Fs.VfsStat := Fs.vfsStat file.inode s

/-- `sys_getdents64` on the file of a descriptor, for so many expansions of symlinks: the result, the
    records in the buffer, the file. -/
def sysGetdents64 (n : Nat) (file : VfsFile) (s : Vfs) (buf count : Nat) :
    Option (Int × List LinuxDirent64 × VfsFile) :=
  if (vfsFstat file s).map Fs.VfsStat.type ≠ some .dir then some (eNotdir, [], file)
  else
    match Fs.vfsLookupPath n s file.path true with
    | none => none
    | some found =>
      match Fs.vfsReaddir found maxEntries s with
      | none => some (eFault, [], file)
      | some entries =>
        let i := file.pos % 2 ^ 32
        let packed := packLoop buf count (entries.drop i) i 0 file.pos
        some (if packed.ok then packed.out else eFault, packed.records, { file with pos := packed.pos })

variable {buf count : Nat} {s s' : Vfs} {p : Ptr} {file file' : VfsFile} {rs new : List LinuxDirent64}

theorem reclen_pos (name : Text) : direntSize + (name.length + 1) ≤ reclen name := by
  simp only [reclen]
  omega

/-- Inside an accepted buffer every copy succeeds. -/
theorem copies_ok (hb : userPtrOk buf count = true) {out len : Nat}
    (h : out + (direntSize + len) ≤ count) :
    (userPtrOk (u64 (buf + out)) direntSize &&
      userPtrOk (u64 (buf + out + direntSize)) len) = true := by
  rw [userPtrOk_iff] at hb
  simp only [userAddrMin, userAddrMax, direntSize] at hb h ⊢
  rw [u64_of_lt (by omega), u64_of_lt (by omega), Bool.and_eq_true, userPtrOk_iff, userPtrOk_iff]
  simp only [userAddrMin, userAddrMax]
  omega

/-- The loop packs the entries in order, up to the end or to one that does not fit. -/
theorem packLoop_spec (hb : userPtrOk buf count = true) (entries : List (Text × VfsType)) (i out : Nat) :
    (packLoop buf count entries i out i).ok = true ∧ ∃ m ≤ entries.length,
      (packLoop buf count entries i out i).pos = i + m ∧
      (packLoop buf count entries i out i).records.map LinuxDirent64.dName =
        (entries.take m).map Prod.fst ∧
      (m = 0 → (packLoop buf count entries i out i).out = out ∧
        ∀ e, entries.head? = some e → count < out + reclen e.1) ∧
      (0 < m → out < (packLoop buf count entries i out i).out) := by
  induction entries generalizing i out with
  | nil => exact ⟨rfl, 0, le_rfl, rfl, rfl, fun _ => ⟨rfl, by simp⟩, fun h => absurd h (lt_irrefl 0)⟩
  | cons entry entries ih =>
    rw [packLoop]
    by_cases hfit : count < out + reclen entry.1
    · rw [if_pos hfit]
      refine ⟨rfl, 0, Nat.zero_le _, rfl, rfl, fun _ => ⟨rfl, ?_⟩, fun h => absurd h (lt_irrefl 0)⟩
      rintro e he
      obtain rfl := Option.some.inj he
      exact hfit
    · have hlen := reclen_pos entry.1
      rw [if_neg hfit, if_pos (copies_ok hb (by omega))]
      obtain ⟨hok, m, hm, hpos, hrec, hzero, hout⟩ := ih (i + 1) (out + reclen entry.1)
      have hpos' : 0 < reclen entry.1 := by simp only [direntSize] at hlen; omega
      refine ⟨hok, m + 1, Nat.succ_le_succ hm, ?_, ?_, fun h => absurd h (by omega), fun _ => ?_⟩
      · exact hpos.trans (by omega)
      · simp only [List.map_cons, List.take_succ_cons, hrec]
        rfl
      · rcases Nat.eq_zero_or_pos m with h0 | h0
        · simp only [(hzero h0).1]
          omega
        · have := hout h0
          simp only
          omega

/-- A buffer that is accepted and takes the next entry, if there is one. -/
structure TakesNext (children : List Dentry) (pos buf count : Nat) : Prop where
  accepted : userPtrOk buf count = true
  fits : ∀ e, children[pos]? = some e → reclen e.name ≤ count

/-- A descriptor opened on the directory p, and the records that calls have reported so far; meanwhile
    files are created, but not in p. -/
inductive Listing (p : Ptr) : Vfs → VfsFile → List LinuxDirent64 → Prop
  | opened {s : Vfs} {file : VfsFile} {n : Nat} (path : Text) : Fs.Built s → path.length ≤ 255 →
      Fs.vfsLookupPath n s path true = some (some p) → s.type p = .dir →
      Fs.vfsOpen (some p) path s = some file → Listing p s file []
  | call {s : Vfs} {file file' : VfsFile} {rs new : List LinuxDirent64} {n buf count : Nat} {r : Int} :
      Listing p s file rs → TakesNext (s.entries p) file.pos buf count →
      sysGetdents64 n file s buf count = some (r, new, file') → Listing p s file' (rs ++ new)
  | meanwhile {s : Vfs} {file : VfsFile} {rs : List LinuxDirent64} (heap : Heap) (c : Fs.Call) :
      Listing p s file rs → ((c.run heap s).2.inodes p).node = (s.inodes p).node →
      Listing p (c.run heap s).2 file rs

/-- What holds between the calls: the path still leads to p, and the entries before `pos` have been
    reported. -/
structure Reported (p : Ptr) (s : Vfs) (file : VfsFile) (rs : List LinuxDirent64) : Prop where
  built : Fs.Built s
  inode : file.inode = some p
  found : ∃ n, Fs.vfsLookupPath n s file.path true = some (some p)
  dir : s.type p = .dir
  pos : file.pos ≤ min maxEntries (s.entries p).length
  names : rs.map LinuxDirent64.dName = ((s.entries p).take file.pos).map Dentry.name

/-- A call goes on by so many entries of the snapshot; it returns 0 when these are none, and then there
    are none left. -/
theorem Reported.packs (h : Reported p s file rs) {n : Nat} {r : Int}
    (ht : TakesNext (s.entries p) file.pos buf count)
    (hc : sysGetdents64 n file s buf count = some (r, new, file')) :
    ∃ m, file' = { file with pos := file.pos + m } ∧
      file.pos + m ≤ min maxEntries (s.entries p).length ∧
      new.map LinuxDirent64.dName = (((s.entries p).drop file.pos).take m).map Dentry.name ∧
      (r = 0 ↔ m = 0) ∧ (m = 0 → file.pos = min maxEntries (s.entries p).length) := by
  obtain ⟨m₀, hm⟩ := h.found
  have hstat : (vfsFstat file s).map Fs.VfsStat.type = some .dir := by
    rw [vfsFstat, h.inode, ← h.dir]
    rfl
  have hnode := Fs.dir_of_type h.dir
  have hpos := h.pos
  have hmod : file.pos % 2 ^ 32 = file.pos :=
    Nat.mod_eq_of_lt (by simp only [maxEntries] at hpos; omega)
  rw [sysGetdents64, if_neg (not_not.mpr hstat)] at hc
  cases hl : Fs.vfsLookupPath n s file.path true with
  | none =>
    rw [hl] at hc
    cases hc
  | some found =>
    obtain rfl := Fs.lookup_unique hl hm
    simp only [hl, Fs.vfsReaddir, hnode, hmod] at hc
    generalize hsnap : ((s.entries p).take maxEntries).map (fun e => (e.name, s.type e.inode)) = snap at hc
    have hlen : snap.length = min maxEntries (s.entries p).length := by
      rw [← hsnap, List.length_map, List.length_take]
    obtain ⟨hok, m, hle, hp, hrec, hzero, hout⟩ := packLoop_spec ht.accepted (snap.drop file.pos) file.pos 0
    simp only [hok, if_true, hp, Option.some.injEq, Prod.mk.injEq] at hc
    obtain ⟨hr, rfl, rfl⟩ := hc
    rw [List.length_drop, hlen] at hle
    refine ⟨m, rfl, by omega, ?_, ?_, fun h0 => ?_⟩
    · have hdrop : (((s.entries p).take maxEntries).drop file.pos).take m =
          ((s.entries p).drop file.pos).take m := by
        rw [List.drop_take, List.take_take, min_eq_left (by omega)]
      rw [hrec, ← hsnap, ← hdrop, ← List.map_drop, ← List.map_take, List.map_map]
      rfl
    · constructor
      · intro h0
        by_contra hm0
        have := hout (Nat.pos_of_ne_zero hm0)
        omega
      · intro h0
        rw [← hr, (hzero h0).1]
        rfl
    · -- the next entry would have fitted
      by_contra hne
      have hlt : file.pos < min maxEntries (s.entries p).length := by omega
      have hhead : (snap.drop file.pos).head? = some snap[file.pos] := by
        rw [List.head?_drop, List.getElem?_eq_getElem]
      have hno := (hzero h0).2 _ hhead
      have hfits := ht.fits _ (List.getElem?_eq_getElem (hlt.trans_le (min_le_right ..)))
      have hname : snap[file.pos].1 = (s.entries p)[file.pos].name := by simp [← hsnap]
      rw [hname] at hno
      omega

/-- A call keeps the report in order. -/
theorem Reported.call (h : Reported p s file rs) {n : Nat} {r : Int}
    (ht : TakesNext (s.entries p) file.pos buf count)
    (hc : sysGetdents64 n file s buf count = some (r, new, file')) : Reported p s file' (rs ++ new) := by
  obtain ⟨m, rfl, hle, hnew, -, -⟩ := h.packs ht hc
  refine ⟨h.built, h.inode, h.found, h.dir, hle, ?_⟩
  rw [List.map_append, h.names, hnew, List.take_add, List.map_append]

/-- The directory is there in every state that the calls see. -/
theorem Listing.reported (h : Listing p s file rs) : Reported p s file rs := by
  induction h with
  | opened path hb hlen hl hd ho =>
    rw [Fs.vfsOpen] at ho
    split at ho
    · cases ho
    · obtain rfl := Option.some.inj ho
      refine ⟨hb, rfl, ?_, hd, Nat.zero_le _, rfl⟩
      rw [List.take_of_length_le hlen]
      exact ⟨_, hl⟩
  | call _ ht hc ih => exact ih.call ht hc
  | meanwhile heap c _ hsame ih =>
    obtain ⟨r, hr, hs⟩ := ih.built.shape
    obtain ⟨n, hl⟩ := ih.found
    have g := (@Fs.Call.evolves _ r heap c hs hr).grows
    obtain ⟨hl', hp⟩ := g.lookup hr hl
    have hent : (c.run heap _).2.entries p = Fs.Vfs.entries _ p := congrArg Fs.Node.entries hsame
    exact ⟨.call heap c ih.built, ih.inode, ⟨n, hl'⟩, (g.type hp).trans ih.dir, hent ▸ ih.pos,
      hent ▸ ih.names⟩

/-- The names in a directory are distinct. -/
theorem Reported.distinct (h : Reported p s file rs) : ((s.entries p).map Dentry.name).Nodup := by
  obtain ⟨r, hr, hs⟩ := h.built.shape
  obtain ⟨n, hl⟩ := h.found
  exact hs.distinct p ((Fs.Grows.refl r s).lookup hr hl).2

/-- A buffer for any entry. -/
theorem Reported.takesNext (h : Reported p s file rs) :
    TakesNext (s.entries p) file.pos userAddrMin pageSize := by
  refine ⟨by decide, fun e he => ?_⟩
  obtain ⟨r, hr, hs⟩ := h.built.shape
  obtain ⟨n, hl⟩ := h.found
  have := (hs.valid p e ((Fs.Grows.refl r s).lookup hr hl).2 (List.mem_of_getElem? he)).length_le
  simp only [reclen, direntSize, pageSize]
  omega

/-- The call answers. -/
theorem Reported.answers (h : Reported p s file rs) (buf count : Nat) :
    ∃ n r new file', sysGetdents64 n file s buf count = some (r, new, file') := by
  obtain ⟨n, hl⟩ := h.found
  have hstat : (vfsFstat file s).map Fs.VfsStat.type = some .dir := by
    rw [vfsFstat, h.inode, ← h.dir]
    rfl
  have hnode := Fs.dir_of_type h.dir
  refine ⟨n, ?_⟩
  rw [sysGetdents64, if_neg (not_not.mpr hstat)]
  simp only [hl, Fs.vfsReaddir, hnode]
  exact ⟨_, _, _, rfl⟩

/-- Calls with such buffers come to an end. -/
theorem Listing.ends (h : Listing p s file rs) : ∃ rs' file' n new file'', Listing p s file' rs' ∧
    TakesNext (s.entries p) file'.pos userAddrMin pageSize ∧
    sysGetdents64 n file' s userAddrMin pageSize = some (0, new, file'') := by
  obtain ⟨d, hd⟩ : ∃ d, file.pos + d = min maxEntries (s.entries p).length :=
    ⟨_, Nat.add_sub_cancel' h.reported.pos⟩
  induction d using Nat.strong_induction_on generalizing file rs with
  | _ d ih =>
    have ht := h.reported.takesNext
    obtain ⟨n, r, new, file', hc⟩ := h.reported.answers userAddrMin pageSize
    obtain ⟨m, hfile, hle, -, hr, -⟩ := h.reported.packs ht hc
    rcases Nat.eq_zero_or_pos m with h0 | hm
    · obtain rfl := hr.mpr h0
      exact ⟨rs, file, n, new, file', h, ht, hc⟩
    · have hpos : file'.pos = file.pos + m := by rw [hfile]
      exact ih (d - m) (by omega) (.call h ht hc) (by omega)

/-- What is reported once a call returns 0: the children that the snapshot took. -/
theorem Listing.last (h : Listing p s file rs) {n : Nat} (ht : TakesNext (s.entries p) file.pos buf count)
    (hlast : sysGetdents64 n file s buf count = some (0, new, file')) :
    ((s.entries p).map Dentry.name).Nodup ∧
      (rs ++ new).map LinuxDirent64.dName = ((s.entries p).map Dentry.name).take maxEntries := by
  have h' := h.reported.call ht hlast
  have hend : file'.pos = min maxEntries (s.entries p).length := by
    obtain ⟨m, rfl, -, -, hr, h0⟩ := h.reported.packs ht hlast
    obtain rfl := hr.mp rfl
    exact h0 rfl
  refine ⟨h'.distinct, ?_⟩
  rw [h'.names, hend, List.map_take, ← List.length_map (f := Dentry.name), List.take_eq_take_min]
  simp

/-- A child that the snapshot left out is not reported. -/
theorem Listing.left_out (h : Listing p s file rs) {n : Nat}
    (ht : TakesNext (s.entries p) file.pos buf count)
    (hlast : sysGetdents64 n file s buf count = some (0, new, file'))
    (hlong : maxEntries < (s.entries p).length) :
    ((rs ++ new).map LinuxDirent64.dName).count (s.entries p)[maxEntries].name = 0 := by
  obtain ⟨hd, hnames⟩ := h.last ht hlast
  rw [hnames]
  refine List.count_eq_zero_of_not_mem fun hmem => ?_
  obtain ⟨i, hi, heq⟩ := List.getElem_of_mem hmem
  rw [List.length_take, List.length_map] at hi
  have hlt : maxEntries < ((s.entries p).map Dentry.name).length := by rwa [List.length_map]
  have hname : ((s.entries p).map Dentry.name)[maxEntries] = (s.entries p)[maxEntries].name :=
    List.getElem_map ..
  rw [List.getElem_take, ← hname] at heq
  have := (List.Nodup.getElem_inj_iff hd).mp heq
  omega

/-- Calls until one returns 0 report every child exactly once if and only if the snapshot takes all the
    children. -/
theorem getdents_complete_iff (h : Listing p s file rs) {n : Nat}
    (ht : TakesNext (s.entries p) file.pos buf count)
    (hlast : sysGetdents64 n file s buf count = some (0, new, file')) :
    (∀ e ∈ s.entries p, ((rs ++ new).map LinuxDirent64.dName).count e.name = 1) ↔
      (s.entries p).length ≤ 32 := by
  obtain ⟨hd, hnames⟩ := h.last ht hlast
  constructor
  · intro hall
    by_contra hlong
    have hlt : maxEntries < (s.entries p).length := not_le.mp hlong
    have hone := hall (s.entries p)[maxEntries] (List.getElem_mem _)
    rw [h.left_out ht hlast hlt] at hone
    cases hone
  · intro hshort e he
    rw [hnames, List.take_of_length_le (by rw [List.length_map]; exact hshort)]
    exact List.count_eq_one_of_mem hd (List.mem_map_of_mem he)

/-- A root with two directories and a file. -/
def threeEntries : Vfs :=
  (Fs.Call.run Fs.rising (.create [Fs.slash, Fs.letter 2] 0 [1])
    (Fs.Call.run Fs.rising (.mkdir [Fs.slash, Fs.letter 1] 0)
      (Fs.Call.run Fs.rising (.mkdir [Fs.slash, Fs.letter 0] 0) Fs.emptyVfs).2).2).2

theorem threeEntries_built : Fs.Built threeEntries := .call _ _ (.call _ _ (.call _ _ Fs.emptyVfs_built))

/-- The root of a tree, open. -/
def rootFile : VfsFile := ⟨some 0, 0, [Fs.slash]⟩

theorem root_opens (hd : s.type 0 = .dir) : Fs.vfsOpen (some 0) [Fs.slash] s = some rootFile := by
  rw [Fs.vfsOpen, if_neg fun h => h.2 hd]
  rfl

theorem threeEntries_listing : Listing 0 threeEntries rootFile [] := by
  have hd : threeEntries.type 0 = .dir := by decide
  have hl : Fs.vfsLookupPath 1 threeEntries [Fs.slash] true = some (some 0) := by decide
  exact .opened [Fs.slash] threeEntries_built (by decide) hl hd (root_opens hd)

theorem getdents_complete_iff_threeEntries : ∃ rs new : List LinuxDirent64,
    ((rs ++ new).map LinuxDirent64.dName).count [Fs.letter 0] = 1 ∧
    ((rs ++ new).map LinuxDirent64.dName).count [Fs.letter 1] = 1 ∧
    ((rs ++ new).map LinuxDirent64.dName).count [Fs.letter 2] = 1 := by
  obtain ⟨rs, file, n, new, file', h, ht, hc⟩ := threeEntries_listing.ends
  have hentries : (threeEntries.entries 0).map Dentry.name = [[Fs.letter 2], [Fs.letter 1], [Fs.letter 0]] := by
    decide
  have hfew : (threeEntries.entries 0).length ≤ 32 := by
    rw [← List.length_map (f := Dentry.name), hentries]
    decide
  have hall := (getdents_complete_iff h ht hc).mpr hfew
  have hname : ∀ name ∈ (threeEntries.entries 0).map Dentry.name,
      ((rs ++ new).map LinuxDirent64.dName).count name = 1 := by
    intro name hname
    obtain ⟨e, he, rfl⟩ := List.mem_map.mp hname
    exact hall e he
  rw [hentries] at hname
  exact ⟨rs, new, hname _ (by simp), hname _ (by simp), hname _ (by simp)⟩

/-- A directory with 33 entries. -/
def wideDir : Vfs := (List.range 33).foldl
  (fun s i => (Fs.Call.run Fs.rising (.mkdir [Fs.slash, Fs.letter i] 0) s).2) Fs.emptyVfs

theorem wideDir_built : Fs.Built wideDir := by
  have hstep : ∀ (l : List Nat) {s : Vfs}, Fs.Built s → Fs.Built (l.foldl
      (fun s i => (Fs.Call.run Fs.rising (.mkdir [Fs.slash, Fs.letter i] 0) s).2) s) := by
    intro l
    induction l with
    | nil => exact fun h => h
    | cons i l ih => exact fun h => ih (.call _ _ h)
  exact hstep _ Fs.emptyVfs_built

/-- The oldest of 33 entries is not reported. -/
theorem wideDir_incomplete : ¬ ∀ p s file rs n buf count new file', Listing p s file rs →
    TakesNext (s.entries p) file.pos buf count →
    sysGetdents64 n file s buf count = some (0, new, file') →
    ∀ e ∈ s.entries p, ((rs ++ new).map LinuxDirent64.dName).count e.name = 1 := by
  intro hall
  have hd : wideDir.type 0 = .dir := by decide +kernel
  have hl : Fs.vfsLookupPath 1 wideDir [Fs.slash] true = some (some 0) := by decide +kernel
  have hopen : Listing 0 wideDir rootFile [] :=
    .opened [Fs.slash] wideDir_built (by decide) hl hd (root_opens hd)
  obtain ⟨rs, file, n, new, file', h, ht, hc⟩ := hopen.ends
  have hlong : maxEntries < (wideDir.entries 0).length := by decide +kernel
  have hone := hall _ _ _ _ _ _ _ _ _ h ht hc (wideDir.entries 0)[maxEntries] (List.getElem_mem _)
  rw [h.left_out ht hc hlong] at hone
  cases hone

end TypeOS.Sys
