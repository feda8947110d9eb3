import TypeOS.Fs.Create

/-! What a lookup finds it goes on to find, and what was created is found and read.

    The loop of `vfs_lookup_path` reads directory entries that stay where they are found, so it takes
    the same turns in a tree that has grown. A path that `vfs_create` has accepted leads through
    directories only: the two loops cut it into the same components. -/

namespace TypeOS.Fs

variable {s s' : Vfs} {r p q current : Ptr} {heap : Heap} {follow : Bool}
  {l : List (Text × Text)} {path target cursor : Text}

/-- One turn of the loop. -/
theorem scan_cons (s : Vfs) (follow : Bool) (component cursor : Text) (l : List (Text × Text))
    (current : Ptr) :
    scan s follow ((component, cursor) :: l) current =
      if 256 ≤ component.length then .null
      else match s.child current component with
        | none => .null
        | some q =>
          match (s.inodes q).node, follow with
          | .symlink target, true => .link target cursor
          | _, _ => scan s follow l q := by
  rw [scan, vfsDirFind_eq, Vfs.child]
  cases (s.entries current).find? fun e => e.name = component <;> rfl

theorem Node.add_symlink {node : Node} {new : List Dentry} :
    node.add new = .symlink target ↔ node = .symlink target := by
  cases node <;> simp [Node.add]

theorem Grows.symlink (g : Grows r s s') (h : Reach s r p) :
    (s'.inodes p).node = .symlink target ↔ (s.inodes p).node = .symlink target := by
  obtain ⟨new, hn, -⟩ := g.node p h
  rw [hn, Node.add_symlink]

/-- The loop takes the same turns in a tree that has grown. -/
theorem Grows.scan (g : Grows r s s') (hc : Reach s r current) (h : scan s follow l current ≠ .null) :
    scan s' follow l current = scan s follow l current ∧
    ∀ p, scan s follow l current = .done p → Reach s r p := by
  induction l generalizing current with
  | nil =>
    refine ⟨rfl, fun p hp => ?_⟩
    injection hp with hp
    exact hp ▸ hc
  | cons x l ih =>
    obtain ⟨component, cursor⟩ := x
    rw [scan_cons] at h ⊢
    rw [scan_cons]
    split at h
    · exact absurd rfl h
    · next hlen =>
      rw [if_neg hlen]
      cases hch : s.child current component with
      | none => simp [hch] at h
      | some q =>
        rw [hch] at h
        have hq := hc.child hch
        rw [g.child hc hch, if_neg hlen]
        dsimp only at h ⊢
        cases hn : (s.inodes q).node with
        | symlink target =>
          rw [g.symlink hq |>.mpr hn]
          rw [hn] at h
          cases follow with
          | true => exact ⟨rfl, by simp⟩
          | false => exact ih hq h
        | dir children =>
          have hn' : ∃ children', (s'.inodes q).node = .dir children' := by
            obtain ⟨new, h', -⟩ := g.node q hq
            rw [h', hn]
            exact ⟨_, rfl⟩
          obtain ⟨children', hn'⟩ := hn'
          rw [hn']
          rw [hn] at h
          exact ih hq h
        | file data =>
          have hn' : (s'.inodes q).node = .file data := by
            obtain ⟨new, h', -⟩ := g.node q hq
            rw [h', hn]
            rfl
          rw [hn']
          rw [hn] at h
          exact ih hq h

theorem Grows.restart (g : Grows r s s') {n depth : Nat} {curpath : Text}
    (h : restart s follow r n depth curpath = some (some p)) :
    restart s' follow r n depth curpath = some (some p) ∧ Reach s r p := by
  induction n generalizing depth curpath with
  | zero => simp [Fs.restart] at h
  | succ n ih =>
    rw [Fs.restart] at h ⊢
    have hscan := @Grows.scan s s' r r follow (splitPath curpath) g .root
    cases hs : Fs.scan s follow (splitPath curpath) r with
    | null => simp [hs] at h
    | link target cursor =>
      rw [(hscan (by simp [hs])).1, hs]
      rw [hs] at h
      dsimp only at h ⊢
      split at h
      · simp at h
      · next hd =>
        rw [if_neg hd]
        cases he : expand curpath target cursor with
        | none => simp [he] at h
        | some next =>
          rw [he] at h
          exact ih h
    | done q =>
      obtain ⟨hsame, hreach⟩ := hscan (by simp [hs])
      rw [hsame, hs]
      rw [hs] at h
      have hq := hreach q hs
      dsimp only at h ⊢
      cases follow with
      | false =>
        have h' : q = p := by
          cases hn : (s.inodes q).node <;> simpa [hn] using h
        subst h'
        refine ⟨?_, hq⟩
        cases (s'.inodes q).node <;> rfl
      | true =>
        cases hn : (s.inodes q).node with
        | symlink target =>
          rw [g.symlink hq |>.mpr hn]
          rw [hn] at h
          dsimp only at h ⊢
          split at h
          · next ha =>
            rw [if_pos ha]
            exact ih h
          · simp at h
        | dir children =>
          obtain ⟨new, h', -⟩ := g.node q hq
          rw [hn] at h
          rw [h', hn]
          have h'' : q = p := by simpa using h
          exact ⟨h, h'' ▸ hq⟩
        | file data =>
          obtain ⟨new, h', -⟩ := g.node q hq
          rw [hn] at h
          rw [h', hn]
          have h'' : q = p := by simpa using h
          exact ⟨h, h'' ▸ hq⟩

/-- A lookup has one answer, however long one waits for it. -/
theorem restart_unique {n m depth : Nat} {curpath : Text} {found found' : Option Ptr}
    (h : restart s follow r n depth curpath = some found)
    (h' : restart s follow r m depth curpath = some found') : found = found' := by
  induction n generalizing m depth curpath with
  | zero => cases h
  | succ n ih =>
    cases m with
    | zero => cases h'
    | succ m =>
      rw [restart] at h h'
      cases hs : Fs.scan s follow (splitPath curpath) r with
      | null =>
        rw [hs] at h h'
        exact (Option.some.inj h).symm.trans (Option.some.inj h')
      | link target cursor =>
        rw [hs] at h h'
        dsimp only at h h'
        split_ifs at h h' with hd
        · exact (Option.some.inj h).symm.trans (Option.some.inj h')
        · cases he : expand curpath target cursor with
          | none =>
            rw [he] at h h'
            exact (Option.some.inj h).symm.trans (Option.some.inj h')
          | some next =>
            rw [he] at h h'
            exact ih h h'
      | done q =>
        rw [hs] at h h'
        dsimp only at h h'
        cases hn : (s.inodes q).node with
        | dir _ | file _ =>
          rw [hn] at h h'
          exact (Option.some.inj h).symm.trans (Option.some.inj h')
        | symlink target =>
          rw [hn] at h h'
          cases follow with
          | false => exact (Option.some.inj h).symm.trans (Option.some.inj h')
          | true =>
            dsimp only at h h'
            split_ifs at h h'
            · exact ih h h'
            · exact (Option.some.inj h).symm.trans (Option.some.inj h')

theorem lookup_unique {n m : Nat} {found found' : Option Ptr}
    (h : vfsLookupPath n s path follow = some found)
    (h' : vfsLookupPath m s path follow = some found') : found = found' := by
  unfold vfsLookupPath at h h'
  cases ha : vfsIsAbsolute path with
  | false =>
    rw [ha] at h h'
    exact (Option.some.inj h).symm.trans (Option.some.inj h')
  | true =>
    cases hr : s.root with
    | none =>
      rw [ha, hr] at h h'
      exact (Option.some.inj h).symm.trans (Option.some.inj h')
    | some r =>
      rw [ha, hr] at h h'
      exact restart_unique h h'

/-- Growing keeps what a path leads to. -/
theorem Grows.lookup (g : Grows r s s') (hr : s.root = some r) {n : Nat}
    (h : vfsLookupPath n s path follow = some (some p)) :
    vfsLookupPath n s' path follow = some (some p) ∧ Reach s r p := by
  unfold vfsLookupPath at h ⊢
  rw [g.root, hr]
  rw [hr] at h
  cases ha : vfsIsAbsolute path with
  | false => simp [ha] at h
  | true =>
    rw [ha] at h
    exact g.restart h

/-- What an inode holds beside its entries: the bytes of a file, the target of a symlink. -/
def Node.content : Node → List UInt8
  | .dir _ => []
  | .file data => data
  | .symlink target => target.bytes

/-- What a path led to before a call, whether the call succeeds or not, it leads to after it, and the
    inode is the same. -/
theorem lookup_stays (hb : Built s) (c : Call) {n : Nat}
    (h : vfsLookupPath n s path follow = some (some p)) :
    vfsLookupPath n (c.run heap s).2 path follow = some (some p) ∧
    (c.run heap s).2.type p = s.type p ∧
    ((c.run heap s).2.inodes p).mode = (s.inodes p).mode ∧
    ((c.run heap s).2.inodes p).size = (s.inodes p).size ∧
    ((c.run heap s).2.inodes p).node.content = (s.inodes p).node.content := by
  obtain ⟨r, hr, hs⟩ := hb.shape
  have g := (@Call.evolves s r heap c hs hr).grows
  obtain ⟨hres, hp⟩ := g.lookup hr h
  refine ⟨hres, g.type hp, g.mode p hp, g.size p hp, ?_⟩
  obtain ⟨new, hn, -⟩ := g.node p hp
  rw [hn]
  cases (s.inodes p).node <;> rfl

/-- The empty tree. -/
def emptyVfs : Vfs := vfsInit rising noVfs

theorem emptyVfs_built : Built emptyVfs := .init rising noVfs (by decide)

/-- A file two directories deep, across an insertion into the upper one. -/
theorem lookup_stays_inserted :
    ((Call.mkdir [slash, letter 0, slash, letter 4] 0).run rising someTree).1 = 0 ∧ ∃ p,
      vfsLookupPath 1 someTree [slash, letter 0, slash, letter 1, slash, letter 2] true = some (some p) ∧
      vfsLookupPath 1 ((Call.mkdir [slash, letter 0, slash, letter 4] 0).run rising someTree).2
        [slash, letter 0, slash, letter 1, slash, letter 2] true = some (some p) ∧
      (((Call.mkdir [slash, letter 0, slash, letter 4] 0).run rising someTree).2.inodes p).node.content =
        [104, 105] := by
  have hfound : ((vfsLookupPath 1 someTree [slash, letter 0, slash, letter 1, slash, letter 2] true).getD
      none).map (fun p => (someTree.inodes p).node.content) = some [104, 105] := by decide
  refine ⟨by decide, ?_⟩
  rcases hl : vfsLookupPath 1 someTree [slash, letter 0, slash, letter 1, slash, letter 2] true with
    _ | _ | p
  · rw [hl] at hfound
    cases hfound
  · rw [hl] at hfound
    cases hfound
  · rw [hl] at hfound
    obtain ⟨hafter, -, -, -, hcontent⟩ := @lookup_stays someTree p rising true _ someTree_built
      (.mkdir [slash, letter 0, slash, letter 4] 0) 1 hl
    exact ⟨p, rfl, hafter, hcontent.trans (Option.some.inj hfound)⟩

/-! ### Reading what was created -/

/-- A path through directories is looked up name by name. -/
theorem scan_walk (hl : splitPath path = l) (hshort : ∀ x ∈ l, x.1.length ≤ 255)
    (hw : s.walk current (l.map Prod.fst) = some q)
    (hq : ∀ target, (s.inodes q).node ≠ .symlink target) : scan s follow l current = .done q := by
  induction l generalizing current path with
  | nil =>
    rw [scan, Option.some.inj hw]
  | cons x l ih =>
    obtain ⟨component, cursor⟩ := x
    obtain ⟨-, -, hl', -⟩ := splitPath_eq_cons hl
    obtain ⟨next, hc, hw'⟩ := Option.bind_eq_some_iff.mp hw
    have hnext : ∀ target, (s.inodes next).node ≠ .symlink target := by
      cases l with
      | nil =>
        obtain rfl := Option.some.inj hw'
        exact hq
      | cons y l =>
        -- it has an entry
        obtain ⟨_, hc', -⟩ := Option.bind_eq_some_iff.mp hw'
        obtain ⟨e, he, -⟩ := child_mem hc'
        intro target ht
        have := type_of_mem he
        rw [Vfs.type, ht] at this
        cases this
    have hlen := hshort (component, cursor) (List.mem_cons_self ..)
    rw [scan_cons, if_neg (by dsimp only at hlen; omega), hc]
    dsimp only
    have hgo := ih hl'.symm (fun y hy => hshort y (List.mem_cons_of_mem _ hy)) hw'
    cases hn : (s.inodes next).node with
    | symlink target => exact absurd hn (hnext target)
    | dir children => exact hgo
    | file data => exact hgo

/-- The file after reads of so many bytes. -/
def afterReads (s : Vfs) : List Nat → VfsFile → VfsFile
  | [], file => file
  | count :: l, file => afterReads s l (vfsRead file count s).2.2

/-- A read takes the next bytes. -/
theorem vfsRead_spec {mode : BitVec 32} {data : List UInt8} {file : VfsFile} (count : Nat)
    (hf : file.inode = some p) (hp : s.inodes p = ⟨mode, data.length, .file data⟩) :
    (vfsRead file count s).1 = ((data.drop file.pos).take count).length ∧
    (vfsRead file count s).2.1 = (data.drop file.pos).take count ∧
    (vfsRead file count s).2.2.inode = some p ∧
    data.drop (vfsRead file count s).2.2.pos = (data.drop file.pos).drop count := by
  unfold vfsRead
  simp only [hf, hp]
  split
  · next hend =>
    have hd : data.drop file.pos = [] := List.drop_eq_nil_of_le hend
    simp [hd, hf]
  · next hend =>
    have hlen : (data.drop file.pos).length = data.length - file.pos := List.length_drop
    have htake : (data.drop file.pos).take (min count (data.length - file.pos)) =
        (data.drop file.pos).take count := by
      rw [← hlen, ← List.take_take, List.take_of_length_le le_rfl]
    split
    · next hc =>
      refine ⟨?_, htake, rfl, ?_⟩
      · rw [List.length_take, hlen]
      · dsimp only
        rw [List.drop_drop]
        rcases Nat.le_total count (data.length - file.pos) with hle | hle
        · rw [min_eq_left hle]
        · rw [min_eq_right hle, List.drop_eq_nil_of_le (by omega), List.drop_eq_nil_of_le (by omega)]
    · next hc =>
      have hne : data ≠ [] := by
        rintro rfl
        simp at hend
      have hz : count = 0 := by
        by_contra h0
        exact hc ⟨by omega, hne⟩
      subst hz
      simp [hf]

theorem afterReads_spec {mode : BitVec 32} {data : List UInt8} (counts : List Nat) {file : VfsFile}
    (hf : file.inode = some p) (hp : s.inodes p = ⟨mode, data.length, .file data⟩) :
    (afterReads s counts file).inode = some p ∧
    data.drop (afterReads s counts file).pos = (data.drop file.pos).drop counts.sum := by
  induction counts generalizing file with
  | nil => exact ⟨hf, by simp [afterReads]⟩
  | cons count l ih =>
    obtain ⟨-, -, hf', hpos⟩ := vfsRead_spec count hf hp
    obtain ⟨h1, h2⟩ := ih hf'
    refine ⟨h1, ?_⟩
    rw [afterReads, h2, hpos, List.drop_drop, List.sum_cons]

theorem vfsReadAt_spec {mode : BitVec 32} {data : List UInt8} (offset count : Nat)
    (hp : s.inodes p = ⟨mode, data.length, .file data⟩) :
    vfsReadAt (some p) offset count s =
      ((((data.drop offset).take count).length : Int), (data.drop offset).take count) := by
  unfold vfsReadAt
  simp only [hp]
  split
  · next hend => simp [List.drop_eq_nil_of_le hend]
  · next hend =>
    have hlen : (data.drop offset).length = data.length - offset := List.length_drop
    rw [List.length_take, hlen]
    split
    · have htake : (data.drop offset).take (min count (data.length - offset)) =
          (data.drop offset).take count := by
        rw [← hlen, ← List.take_take, List.take_of_length_le le_rfl]
      rw [htake]
    · next hc =>
      have hne : data ≠ [] := by
        rintro rfl
        simp at hend
      have hz : count = 0 := by
        by_contra h0
        exact hc ⟨by omega, hne⟩
      simp [hz]

/-- After a `vfs_create` that returns 0 the path leads to the file, which opens, has the type, mode and
    size, and whose reads, in sequence or at an offset, give its bytes. -/
theorem created_is_read (hb : Built s) {mode : BitVec 32} {data : List UInt8}
    (hlen : path.length ≤ 511) (h : (vfsCreate heap path mode data s).1 = 0) :
    ∃ p, (∀ n follow, vfsLookupPath (n + 1) (vfsCreate heap path mode data s).2 path follow =
        some (some p)) ∧
      vfsStat (some p) (vfsCreate heap path mode data s).2 = some ⟨.file, mode, data.length⟩ ∧
      (∃ file, vfsOpen (some p) path (vfsCreate heap path mode data s).2 = some file ∧
        ∀ counts count,
          let bytes := (data.drop counts.sum).take count
          let result := vfsRead (afterReads (vfsCreate heap path mode data s).2 counts file) count
            (vfsCreate heap path mode data s).2
          result.1 = bytes.length ∧ result.2.1 = bytes) ∧
      ∀ offset count, vfsReadAt (some p) offset count (vfsCreate heap path mode data s).2 =
        ((((data.drop offset).take count).length : Int), (data.drop offset).take count) := by
  obtain ⟨r, hr, hs⟩ := hb.shape
  obtain ⟨e, hmade⟩ := @vfsCreate_spec s r heap path mode data hs hr
  obtain ⟨habs, hshort, p, hw, hp⟩ := hmade h
  generalize (vfsCreate heap path mode data s).2 = s' at e hw hp
  have htype : s'.type p = .file := by
    rw [Vfs.type, hp]
    rfl
  refine ⟨p, fun n follow => ?_, ?_, ⟨⟨some p, 0, path.take 255⟩, ?_, fun counts count => ?_⟩,
    fun offset count => vfsReadAt_spec offset count hp⟩
  · have hscan : scan s' follow (splitPath path) r = .done p := by
      refine scan_walk rfl (fun x hx => hshort x.1 (List.mem_map_of_mem hx)) hw fun target ht => ?_
      rw [hp] at ht
      cases ht
    unfold vfsLookupPath
    rw [e.grows.root, hr, habs]
    dsimp only
    rw [List.take_of_length_le hlen, restart, hscan]
    simp only [hp]
  · simp [vfsStat, htype, hp]
  · simp [vfsOpen, htype]
  · have hopen : (⟨some p, 0, path.take 255⟩ : VfsFile).inode = some p := rfl
    obtain ⟨hf, hpos⟩ := afterReads_spec counts hopen hp
    obtain ⟨h1, h2, -⟩ := vfsRead_spec count hf hp
    rw [hpos, List.drop_zero] at h1 h2
    exact ⟨h1, h2⟩

theorem created_is_read_small : ∃ p,
    vfsStat (some p) (vfsCreate rising [slash, slash, ⟨97, by decide⟩] 5 [1, 2, 3] emptyVfs).2 =
      some ⟨.file, 5, 3⟩ := by
  obtain ⟨p, -, h, -⟩ := @created_is_read emptyVfs rising [slash, slash, ⟨97, by decide⟩] emptyVfs_built
    5 [1, 2, 3] (by decide) (by decide)
  exact ⟨p, h⟩

end TypeOS.Fs
