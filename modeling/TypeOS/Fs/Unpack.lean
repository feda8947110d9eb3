import TypeOS.Fs.Resolve
import TypeOS.Fs.Newc

/-! Unpacking undoes packing.

    An `Entry` is packed into a header, its name, its data and padding. What has been unpacked of a
    listing is a function of it (`unpacked`): each entry under its path, and the directories above that
    are not listed. The induction over the listing carries that along, together with the offset, which
    is where the next header stands. -/

namespace TypeOS.Fs

/-! ### Packing -/

inductive Kind
  | dir
  | file (data : List UInt8)
  | symlink (target : Text)
  deriving DecidableEq

def Kind.format : Kind → BitVec 32
  | .dir => sIfdir
  | .file _ => sIfreg
  | .symlink _ => sIflnk

/-- The bytes behind the name. -/
def Kind.content : Kind → List UInt8
  | .dir => []
  | .file data => data
  | .symlink target => target.bytes

/-- The fields of a header that unpacking does not read, and the case of the digits. -/
structure Meta where
  upper : Bool
  ino : Vector UInt8 8
  owner : Vector UInt8 32
  dev : Vector UInt8 32
  check : Vector UInt8 8

/-- A directory, a regular file or a symlink, with the names of its path. -/
structure Entry where
  path : List Text
  mode : BitVec 32
  kind : Kind
  unread : Meta
  path_ne : path ≠ []
  valid : ∀ c ∈ path, ValidName c
  format : mode &&& sIfmt = kind.format
  target : ∀ t, kind = .symlink t → t ≠ []

/-- Names with slashes between them. -/
def joined : List Text → Text
  | [] => []
  | [c] => c
  | c :: cs => c ++ slash :: joined cs

def Entry.name (e : Entry) : Text := joined e.path

def hexChar (upper : Bool) (d : Nat) : UInt8 :=
  if d < 10 then UInt8.ofNat (48 + d) else UInt8.ofNat ((if upper then 65 else 97) + (d - 10))

/-- A number in so many digits. -/
def hexOf (upper : Bool) : Nat → Nat → List UInt8
  | 0, _ => []
  | n + 1, v => hexOf upper n (v / 16) ++ [hexChar upper (v % 16)]

def newcHeader (m : Meta) (mode : BitVec 32) (filesize namesize : Nat) : List UInt8 :=
  cpioNewcMagic ++ (m.ino.toList ++ (hexOf m.upper 8 mode.toNat ++ (m.owner.toList ++
    (hexOf m.upper 8 filesize ++ (m.dev.toList ++ (hexOf m.upper 8 namesize ++ m.check.toList))))))

def Entry.raw (e : Entry) : RawEntry where
  header := newcHeader e.unread e.mode e.kind.content.length (e.name.length + 1)
  name := e.name.bytes ++ [0]
  pad := List.replicate (padOf (cpioHeaderSize + (e.name.length + 1))) 0
  data := e.kind.content
  padding := List.replicate (padOf e.kind.content.length) 0

/-- The end of an archive, and whatever follows. -/
def trailerBytes (m : Meta) (mode : BitVec 32) (filesize : Nat) (rest : List UInt8) : List UInt8 :=
  newcHeader m mode filesize (cpioTrailer.length + 1) ++ ((cpioTrailer.bytes ++ [0]) ++ rest)

/-- Entries one after the other. -/
def packed (es : List Entry) : List UInt8 := es.flatMap fun e => e.raw.bytes

/-- The other path leads through this one. -/
def Entry.Above (e e' : Entry) : Prop := e.path <+: e'.path ∧ e.path ≠ e'.path

/-- What a list of entries must be to be packed: short names of their own that are not taken for the
    trailer and do not begin with a dot, each listed directory before its members, and no path through
    anything but directories. -/
structure Listing (es : List Entry) : Prop where
  nodot : ∀ e ∈ es, e.name.head? ≠ some dot
  short : ∀ e ∈ es, e.name.length < 4096
  other : ∀ e ∈ es, ¬ e.name <+: cpioTrailer
  distinct : (es.map Entry.path).Nodup
  order : es.Pairwise fun e e' => e'.kind = .dir → ¬ e'.Above e
  through : ∀ e ∈ es, ∀ e' ∈ es, e.Above e' → e.kind = .dir

/-- What is unpacked of an entry. -/
def Entry.inode (e : Entry) : Inode :=
  match e.kind with
  | .dir => ⟨e.mode, 0, .dir []⟩
  | .file data => ⟨e.mode, data.length, .file data⟩
  | .symlink target => ⟨sIflnk ||| 0o777#32, target.length, .symlink target⟩

/-- What is under a path when the entries are unpacked. -/
def unpacked (es : List Entry) (cs : List Text) : Option Inode :=
  match es.find? fun e => e.path = cs with
  | some e => some e.inode
  | none => if ∃ e ∈ es, cs <+: e.path then some Namespace.newDir else none

/-- An inode without the names in it. -/
def Inode.bare (i : Inode) : Inode :=
  { i with
    node :=
      match i.node with
      | .dir _ => .dir []
      | node => node }

/-- What is under a path, but for the names in a directory. -/
def Vfs.item (s : Vfs) (r : Ptr) (cs : List Text) : Option Inode :=
  (s.walk r cs).map fun p => (s.inodes p).bare

variable {s : Vfs} {r : Ptr} {heap : Heap} {V V' : Namespace} {phys : Phys} {A pre post : List UInt8}
  {o base : Nat} {behind : Nat → Text} {e : Entry} {es done : List Entry} {m : Meta}
  {mode : BitVec 32} {name : Text} {dir cs : List Text} {inode : Inode} {H : Set Ptr}

/-! ### Reading what was packed -/

theorem hexDigit_hexChar (upper : Bool) {d : Nat} (h : d < 16) :
    hexDigit (hexChar upper d) = BitVec.ofNat 32 d := by
  interval_cases d <;> cases upper <;> decide

/-- The reader undoes the digits. -/
theorem cpioParseHex_hexOf (upper : Bool) {n : Nat} (hn : n ≤ 8) (v : Nat) :
    (cpioParseHex (hexOf upper n v)).toNat = v % 16 ^ n := by
  induction n generalizing v with
  | zero => simp [hexOf, cpioParseHex, Nat.mod_one]
  | succ n ih =>
    have hv := ih (by omega) (v / 16)
    rw [hexOf, cpioParseHex, List.foldl_append, List.foldl_cons, List.foldl_nil,
      hexDigit_hexChar upper (Nat.mod_lt v (by decide)), ← cpioParseHex]
    generalize cpioParseHex (hexOf upper n (v / 16)) = x at hv ⊢
    -- the digits so far leave room for one more
    have hx : x.toNat < 2 ^ 28 := by
      rw [hv]
      calc v / 16 % 16 ^ n < 16 ^ n := Nat.mod_lt _ (by positivity)
        _ ≤ 16 ^ 7 := Nat.pow_le_pow_right (by decide) (by omega)
        _ = 2 ^ 28 := by decide
    have hd : v % 16 < 2 ^ 4 := Nat.mod_lt v (by decide)
    rw [BitVec.toNat_or, BitVec.toNat_shiftLeft, BitVec.toNat_ofNat, Nat.shiftLeft_eq,
      Nat.mod_eq_of_lt (a := x.toNat * 2 ^ 4) (by omega), Nat.mod_eq_of_lt (a := v % 16) (by omega),
      Nat.mul_comm, ← Nat.two_pow_add_eq_or_of_lt hd, hv, show 16 ^ (n + 1) = 16 * 16 ^ n from
        Nat.pow_succ', Nat.mod_mul]
    omega

theorem length_hexOf (upper : Bool) (n v : Nat) : (hexOf upper n v).length = n := by
  induction n generalizing v with
  | zero => rfl
  | succ n ih => rw [hexOf, List.length_append, ih]; rfl

theorem length_newcHeader (m : Meta) (mode : BitVec 32) (f n : Nat) :
    (newcHeader m mode f n).length = cpioHeaderSize := by
  simp [newcHeader, length_hexOf, cpioNewcMagic]

theorem headerMode_newc (m : Meta) (mode : BitVec 32) (f n : Nat) :
    headerMode (newcHeader m mode f n) = mode := by
  have hcut : newcHeader m mode f n = (cpioNewcMagic ++ m.ino.toList) ++
      (hexOf m.upper 8 mode.toNat ++ (m.owner.toList ++ (hexOf m.upper 8 f ++ (m.dev.toList ++
        (hexOf m.upper 8 n ++ m.check.toList))))) := by
    simp only [newcHeader, List.append_assoc]
  have hf : field (newcHeader m mode f n) 14 = hexOf m.upper 8 mode.toNat := by
    rw [hcut]
    exact slice_append_of (by simp [cpioNewcMagic]) (length_hexOf ..)
  rw [headerMode, hf]
  refine BitVec.eq_of_toNat_eq ?_
  rw [cpioParseHex_hexOf m.upper (le_refl 8)]
  exact Nat.mod_eq_of_lt mode.isLt

theorem headerFilesize_newc (m : Meta) (mode : BitVec 32) {f : Nat} (n : Nat) (hf : f < 2 ^ 32) :
    headerFilesize (newcHeader m mode f n) = f := by
  have hcut : newcHeader m mode f n = (cpioNewcMagic ++ (m.ino.toList ++ (hexOf m.upper 8 mode.toNat ++
      m.owner.toList))) ++ (hexOf m.upper 8 f ++ (m.dev.toList ++
        (hexOf m.upper 8 n ++ m.check.toList))) := by
    simp only [newcHeader, List.append_assoc]
  have hfield : field (newcHeader m mode f n) 54 = hexOf m.upper 8 f := by
    rw [hcut]
    exact slice_append_of (by simp [cpioNewcMagic, length_hexOf]) (length_hexOf ..)
  rw [headerFilesize, hfield, cpioParseHex_hexOf m.upper (le_refl 8)]
  exact Nat.mod_eq_of_lt hf

theorem headerNamesize_newc (m : Meta) (mode : BitVec 32) (f : Nat) {n : Nat} (hn : n < 2 ^ 32) :
    headerNamesize (newcHeader m mode f n) = n := by
  have hcut : newcHeader m mode f n = (cpioNewcMagic ++ (m.ino.toList ++ (hexOf m.upper 8 mode.toNat ++
      (m.owner.toList ++ (hexOf m.upper 8 f ++ m.dev.toList))))) ++
        (hexOf m.upper 8 n ++ m.check.toList) := by
    simp only [newcHeader, List.append_assoc]
  have hfield : field (newcHeader m mode f n) 94 = hexOf m.upper 8 n := by
    rw [hcut]
    exact slice_append_of (by simp [cpioNewcMagic, length_hexOf]) (length_hexOf ..)
  rw [headerNamesize, hfield, cpioParseHex_hexOf m.upper (le_refl 8)]
  exact Nat.mod_eq_of_lt hn

theorem magic_newc (m : Meta) (mode : BitVec 32) (f n : Nat) :
    (newcHeader m mode f n).take 6 = cpioNewcMagic := by
  rw [newcHeader]
  exact List.take_left' rfl

theorem length_bytes (t : Text) : t.bytes.length = t.length := List.length_map ..

theorem cString_bytes (t : Text) : cString t.bytes [] = t := by
  induction t with
  | nil => rfl
  | cons c t ih =>
    rw [Text.bytes, List.map_cons, cString, dif_neg c.2]
    exact congrArg _ ih

theorem cString_nul (t : Text) (x : List UInt8) (u : Text) : cString (t.bytes ++ 0 :: x) u = t := by
  induction t with
  | nil => rfl
  | cons c t ih =>
    rw [Text.bytes, List.map_cons, List.cons_append, cString, dif_neg c.2]
    exact congrArg _ ih

/-- Comparing all of a name with another one. -/
theorem strncmp_bytes_left (s t : Text) (x : List UInt8) :
    strncmp s.length (s.bytes ++ x) t.bytes = 0 ↔ s <+: t := by
  induction s generalizing t with
  | nil => simp [strncmp]
  | cons c s ih =>
    have hc := c.2
    rw [List.length_cons, strncmp_succ]
    cases t with
    | nil => simp [Text.bytes, hc]
    | cons d t =>
      have := ih t
      simp only [Text.bytes, List.map_cons, List.cons_append, List.headD_cons, List.tail_cons, hc,
        false_or, List.cons_prefix_cons] at this ⊢
      rw [this, Subtype.ext_iff]

theorem Entry.fits (hshort : e.name.length < 4096) (hlen : e.kind.content.length < 2 ^ 32) :
    e.raw.Fits := by
  have hn : e.raw.name.length = e.name.length + 1 := by
    simp [Entry.raw, length_bytes]
  refine ⟨length_newcHeader .., magic_newc .., ?_, by omega, by omega, ?_, ?_, ?_⟩
  · rw [hn, Entry.raw, headerNamesize_newc _ _ _ (by omega)]
  · rw [hn]
    exact List.length_replicate
  · exact (headerFilesize_newc _ _ _ hlen).symm
  · exact List.length_replicate

theorem Entry.parsed (e : Entry) : e.raw.parsed = .member e.name e.mode e.kind.content := by
  rw [RawEntry.parsed, Entry.raw, cString_nul, headerMode_newc]

/-! ### Names -/

theorem components_name (h : ValidName name) : components name = [name] := by
  obtain ⟨c, t, rfl⟩ := List.exists_cons_of_ne_nil h.ne_nil
  have hall : ∀ x ∈ c :: t, decide (x ≠ slash) = true := by
    intro x hx
    simpa using fun hc : x = slash => h.slash (hc ▸ hx)
  have hc : c ≠ slash := by simpa using hall c (List.mem_cons_self ..)
  have hdrop : (c :: t).dropWhile (· ≠ slash) = [] := by
    rw [← List.append_nil (c :: t), List.dropWhile_append_of_pos hall]
    rfl
  have htake := headComponent_append_drop (c :: t)
  rw [hdrop, List.append_nil] at htake
  rw [components_cons hc, htake, hdrop, components_nil]

theorem components_joined (h : ∀ c ∈ cs, ValidName c) : components (joined cs) = cs := by
  induction cs with
  | nil => rfl
  | cons c cs ih =>
    have hc := components_name (h c (List.mem_cons_self ..))
    cases cs with
    | nil => exact hc
    | cons d cs =>
      rw [joined, components_parted, hc, ih fun x hx => h x (List.mem_cons_of_mem _ hx)]
      · rfl
      · simp

theorem joined_head (hne : cs ≠ []) (h : ∀ c ∈ cs, ValidName c) :
    joined cs ≠ [] ∧ (joined cs).head? ≠ some slash := by
  cases cs with
  | nil => exact absurd rfl hne
  | cons c cs =>
    have hc := h c (List.mem_cons_self ..)
    obtain ⟨x, t, rfl⟩ := List.exists_cons_of_ne_nil hc.ne_nil
    have hx : x ≠ slash := fun hx => hc.slash (hx ▸ List.mem_cons_self ..)
    cases cs with
    | nil => exact ⟨by simp [joined], by simpa [joined] using hx⟩
    | cons d cs => exact ⟨by simp [joined], by simpa [joined] using hx⟩

/-- The name of an entry is its path but for the slash before it. -/
theorem Entry.normalized_name (e : Entry) (hdot : e.name.head? ≠ some dot) :
    normalized e.name = some (slash :: e.name) := by
  obtain ⟨hne, hslash⟩ := joined_head e.path_ne e.valid
  have hd : e.name.dropWhile (· = dot) = e.name := by
    cases hn : e.name with
    | nil => rfl
    | cons c t =>
      rw [hn] at hdot
      exact List.dropWhile_cons_of_neg (by simpa using hdot)
  rw [normalized, hd, show vfsSkipSlash e.name = e.name from skipSlash_of_head hslash]
  cases hn : e.name with
  | nil => exact absurd hn hne
  | cons c t => rfl

/-! ### Entering in a map of paths -/

@[simp] theorem Inode.bare_type (i : Inode) : i.bare.node.type = i.node.type := by
  obtain ⟨mode, size, node⟩ := i
  cases node <;> rfl

theorem Inode.bare_add (i : Inode) (new : List Dentry) :
    Inode.bare { i with node := i.node.add new } = i.bare := by
  obtain ⟨mode, size, node⟩ := i
  cases node <;> rfl

theorem Inode.bare_shown (i : Inode) : i.shown.bare = i.bare := by
  obtain ⟨mode, size, node⟩ := i
  cases node <;> rfl

theorem Entry.inode_bare (e : Entry) : e.inode.bare = e.inode := by
  rw [Entry.inode]
  cases e.kind <;> rfl

namespace Namespace

/-- What is under a path, but for the names in a directory. -/
def item (V : Namespace) (cs : List Text) : Option Inode := (V cs).map Inode.bare

theorem item_enter (V : Namespace) (dir : List Text) (name : Text) (inode : Inode) (cs : List Text) :
    (V.enter dir name inode).item cs = if cs = dir ++ [name] then some inode.bare else V.item cs := by
  rw [Namespace.item, enter]
  split
  · rfl
  split
  · rw [Option.map_map, Namespace.item]
    congr 1
    funext i
    exact Inode.bare_add ..
  · rfl

theorem isDir_eq (V : Namespace) (cs : List Text) :
    V.isDir cs = (V.item cs).any fun i => i.node.type = .dir := by
  rw [isDir, Namespace.item]
  cases V cs <;> simp

theorem isSome_eq (V : Namespace) (cs : List Text) : (V cs).isSome = (V.item cs).isSome := by
  rw [Namespace.item, Option.isSome_map]

theorem item_ne {V : Namespace} (h : V.isDir cs = true) : V.item cs ≠ none := by
  intro hnone
  rw [isDir_eq, hnone] at h
  simp at h

end Namespace

theorem between_iff {p : List Text} :
    dir <+: p ∧ p <+: dir ++ cs ↔ ∃ q, q <+: cs ∧ p = dir ++ q := by
  constructor
  · rintro ⟨⟨q, rfl⟩, h⟩
    exact ⟨q, (List.prefix_append_right_inj dir).mp h, rfl⟩
  · rintro ⟨q, hq, rfl⟩
    exact ⟨List.prefix_append .., (List.prefix_append_right_inj dir).mpr hq⟩

/-- Between a directory and a path through its entry `c` lie itself and what is from the entry on. -/
theorem between_entry {p : List Text} (hp : p ≠ dir) :
    dir ++ [c] <+: p ∧ p <+: dir ++ [c] ++ cs ↔ dir <+: p ∧ p <+: dir ++ c :: cs := by
  rw [between_iff, between_iff]
  constructor
  · rintro ⟨q, hq, rfl⟩
    exact ⟨c :: q, by simpa using hq, by simp⟩
  · rintro ⟨q, hq, rfl⟩
    cases q with
    | nil => exact absurd (List.append_nil dir) hp
    | cons x q =>
      obtain ⟨rfl, hq'⟩ := List.cons_prefix_cons.mp hq
      exact ⟨q, hq', by simp⟩

/-- The directories that are missing on the way come to be, and nothing else. -/
theorem parents_spec (hlen : ∀ c ∈ cs ++ [name], c.length ≤ 255) (hdir : V.isDir dir = true)
    (hway : ∀ q, q <+: cs → V.item (dir ++ q) = none ∨ V.isDir (dir ++ q) = true) :
    ∃ V', V.parents dir (cs ++ [name]) = (some (dir ++ cs, name), V') ∧
      V'.isDir (dir ++ cs) = true ∧
      ∀ p, V'.item p = if V.item p = none ∧ dir <+: p ∧ p <+: dir ++ cs then some Namespace.newDir
        else V.item p := by
  induction cs generalizing V dir with
  | nil =>
    have hn := hlen name (by simp)
    refine ⟨V, ?_, by simpa using hdir, fun p => ?_⟩
    · rw [List.nil_append, Namespace.parents, if_neg (by omega), if_pos rfl, List.append_nil]
    · rw [if_neg]
      rintro ⟨hp, hb⟩
      obtain ⟨q, hq, rfl⟩ := between_iff.mp hb
      rw [List.prefix_nil.mp hq, List.append_nil] at hp
      exact Namespace.item_ne hdir hp
  | cons c cs ih =>
    have hc := hlen c (by simp)
    have hlen' : ∀ c ∈ cs ++ [name], c.length ≤ 255 := fun x hx => hlen x (List.mem_cons_of_mem _ hx)
    have hassoc : ∀ q, dir ++ [c] ++ q = dir ++ c :: q := by simp
    have hfree : ∀ p, V.item p = none → p ≠ dir := by
      rintro p hp rfl
      exact Namespace.item_ne hdir hp
    have hway_c : ∀ q, q <+: cs → V.item (dir ++ [c] ++ q) = none ∨ V.isDir (dir ++ [c] ++ q) = true := by
      intro q hq
      rw [hassoc]
      exact hway (c :: q) (by simpa using hq)
    rw [List.cons_append, Namespace.parents, if_neg (by omega), if_neg (by simp),
      if_neg (by simp [hdir]), Namespace.isSome_eq]
    rcases hway [c] (by simp) with hnone | hd
    · rw [hnone]
      simp only [Option.isSome_none, Bool.false_eq_true, if_false]
      have hdir' : (V.enter dir c Namespace.newDir).isDir (dir ++ [c]) = true := by
        rw [Namespace.isDir_eq, Namespace.item_enter, if_pos rfl]
        decide
      have hway' : ∀ q, q <+: cs → (V.enter dir c Namespace.newDir).item (dir ++ [c] ++ q) = none ∨
          (V.enter dir c Namespace.newDir).isDir (dir ++ [c] ++ q) = true := by
        intro q hq
        rcases eq_or_ne q [] with rfl | hq0
        · right
          rw [List.append_nil]
          exact hdir'
        · rw [Namespace.isDir_eq, Namespace.item_enter, if_neg (by simpa using hq0), ← Namespace.isDir_eq]
          exact hway_c q hq
      obtain ⟨V', h1, h2, h3⟩ := ih hlen' hdir' hway'
      rw [hassoc] at h1 h2
      refine ⟨V', h1, h2, fun p => ?_⟩
      rw [h3, Namespace.item_enter]
      rcases eq_or_ne p (dir ++ [c]) with rfl | hp
      · rw [if_pos rfl, if_neg (by simp), if_pos ⟨hnone, between_iff.mpr ⟨[c], by simp, rfl⟩⟩]
        rfl
      · rw [if_neg hp]
        congr 1
        exact propext (and_congr_right fun hpn => between_entry (hfree p hpn))
    · have hsome : (V.item (dir ++ [c])).isSome = true :=
        Option.isSome_iff_ne_none.mpr (Namespace.item_ne hd)
      rw [if_pos hsome]
      obtain ⟨V', h1, h2, h3⟩ := ih hlen' hd hway_c
      rw [hassoc] at h1 h2
      refine ⟨V', h1, h2, fun p => ?_⟩
      rw [h3]
      congr 1
      exact propext (and_congr_right fun hpn => between_entry (hfree p hpn))

/-- An inode is made where nothing is, under a path through directories. -/
theorem make_spec {path : Text} {present : Int} (habs : vfsIsAbsolute path = true)
    (hcs : components path = cs ++ [name]) (hlen : ∀ c ∈ cs ++ [name], c.length ≤ 255) (hne : name ≠ [])
    (hroot : V.isDir [] = true) (hway : ∀ q, q <+: cs → V.item q = none ∨ V.isDir q = true)
    (hfree : V.item (cs ++ [name]) = none) :
    ∃ V', V.make present path inode = (0, V') ∧ V'.isDir [] = true ∧
      ∀ p, V'.item p = if p = cs ++ [name] then some inode.bare
        else if V.item p = none ∧ p <+: cs then some Namespace.newDir else V.item p := by
  obtain ⟨V', h1, h2, h3⟩ := parents_spec hlen hroot hway
  simp only [List.nil_append, List.nil_prefix, true_and] at h1 h2 h3
  have hnew : V'.item (cs ++ [name]) = none := by
    rw [h3, if_neg, hfree]
    rintro ⟨-, hp⟩
    simpa using hp.length_le
  have hsome : (V' (cs ++ [name])).isSome = false := by
    rw [Namespace.isSome_eq, hnew]
    rfl
  refine ⟨V'.enter cs name inode, ?_, ?_, fun p => ?_⟩
  · rw [Namespace.make, Namespace.lookupParent, habs, if_pos rfl, hcs, h1]
    simp only [if_neg hne, hsome, Bool.false_eq_true, if_false, h2, if_true]
  · rw [Namespace.isDir_eq, Namespace.item_enter, if_neg (by simp), h3, if_neg, ← Namespace.isDir_eq]
    · exact hroot
    · rintro ⟨hn, -⟩
      exact Namespace.item_ne hroot hn
  · rw [Namespace.item_enter, h3]

/-! ### The induction over the listing -/

/-- The root and the entries that have been unpacked. -/
structure Installed (V : Namespace) (es : List Entry) : Prop where
  root : V.isDir [] = true
  items : ∀ p, p ≠ [] → V.item p = unpacked es p

/-- An entry whose path is not on the way to one before it. -/
theorem unpacked_snoc (hcs : e.path = cs ++ [name]) (hnew : ∀ e' ∈ done, ¬ e.path <+: e'.path)
    (p : List Text) : unpacked (done ++ [e]) p = if p = cs ++ [name] then some e.inode
      else if unpacked done p = none ∧ p <+: cs then some Namespace.newDir else unpacked done p := by
  rw [← hcs]
  have hprefix : p <+: e.path ↔ p = e.path ∨ p <+: cs := by
    rw [hcs, List.prefix_concat_iff]
  rw [unpacked, unpacked, List.find?_append]
  cases hf : done.find? fun e => e.path = p with
  | some e' =>
    have hp : e'.path = p := by simpa using List.find?_some hf
    have hne : p ≠ e.path := by
      rintro rfl
      exact hnew e' (List.mem_of_find?_eq_some hf) (hp ▸ List.prefix_rfl)
    rw [if_neg hne]
    rfl
  | none =>
    rcases eq_or_ne p e.path with rfl | hne
    · rw [if_pos rfl, List.find?_cons_of_pos (by simp)]
      rfl
    · have hlast : [e].find? (fun e => decide (e.path = p)) = none := by simpa using hne.symm
      rw [if_neg hne, hlast]
      simp only [Option.or_none, List.mem_append, List.mem_singleton, or_and_right, exists_or,
        exists_eq_left, hprefix, hne, false_or]
      by_cases hd : ∃ e' ∈ done, p <+: e'.path
      · simp [hd]
      · by_cases hp : p <+: cs <;> simp [hd, hp]

/-- Installing an entry makes its inode under its path. -/
theorem Entry.install (e : Entry) (V : Namespace) (path : Text) :
    ∃ present, V.install path e.mode e.kind.content = V.make present path e.inode := by
  have hf := e.format
  rw [Namespace.install, Entry.inode]
  cases hk : e.kind with
  | dir =>
    rw [hk, Kind.format] at hf
    exact ⟨0, by rw [if_pos hf]; rfl⟩
  | symlink t =>
    rw [hk, Kind.format] at hf
    have ht : (Kind.symlink t).content ≠ [] := fun hc => e.target t hk (List.map_eq_nil_iff.mp hc)
    refine ⟨-1, ?_⟩
    rw [if_neg (by rw [hf]; decide), if_pos hf, if_neg ht]
    simp only [Kind.content, cString_bytes]
    rfl
  | file data =>
    rw [hk, Kind.format] at hf
    refine ⟨-1, ?_⟩
    have hz : ¬ e.mode &&& sIfmt = 0#32 := by
      rw [hf]
      decide
    rw [if_neg (by rw [hf]; decide), if_neg (by rw [hf]; decide), if_pos (Or.inl hf), if_neg hz]
    rfl

/-- The next entry of a listing is unpacked. -/
theorem Installed.next (h : Installed V done) (hl : Listing (done ++ e :: es)) :
    ∃ V', V.unpackMember e.name e.mode e.kind.content = (0, V') ∧ Installed V' (done ++ [e]) := by
  have hmem : e ∈ done ++ e :: es := by simp
  have hdone : ∀ e' ∈ done, e' ∈ done ++ e :: es := fun e' he => List.mem_append_left _ he
  have hdistinct : ∀ e' ∈ done, e'.path ≠ e.path := by
    have := hl.distinct
    rw [List.map_append, List.map_cons, List.nodup_append] at this
    intro e' he
    exact this.2.2 _ (List.mem_map_of_mem he) _ (List.mem_cons_self ..)
  -- no path before leads through this one
  have hnew : ∀ e' ∈ done, ¬ e.path <+: e'.path := by
    intro e' he hp
    have habove : e.Above e' := ⟨hp, (hdistinct e' he).symm⟩
    have hdir := hl.through e hmem e' (hdone e' he) habove
    exact (List.pairwise_append.mp hl.order).2.2 e' he e (List.mem_cons_self ..) hdir habove
  obtain ⟨cs, name, hcs⟩ : ∃ cs name, e.path = cs ++ [name] := by
    rcases List.eq_nil_or_concat e.path with hn | ⟨cs, name, hc⟩
    · exact absurd hn e.path_ne
    · exact ⟨cs, name, by rw [hc, List.concat_eq_append]⟩
  have hvalid := e.valid
  rw [hcs] at hvalid
  have hway : ∀ q, q <+: cs → V.item q = none ∨ V.isDir q = true := by
    intro q hq
    rcases eq_or_ne q [] with rfl | hq0
    · exact Or.inr h.root
    · rw [Namespace.isDir_eq, h.items q hq0, unpacked]
      cases hf : done.find? fun e => e.path = q with
      | none =>
        dsimp only
        split
        · exact Or.inr (by decide)
        · exact Or.inl rfl
      | some e' =>
        have hp : e'.path = q := by simpa using List.find?_some hf
        have he' := List.mem_of_find?_eq_some hf
        have habove : e'.Above e := by
          refine ⟨?_, hdistinct e' he'⟩
          rw [hp, hcs]
          exact hq.trans (List.prefix_append ..)
        right
        simp only [Option.any_some, Entry.inode, hl.through e' (hdone e' he') e hmem habove]
        rfl
  have hfree : V.item (cs ++ [name]) = none := by
    rw [← hcs, h.items _ e.path_ne, unpacked]
    have hf : done.find? (fun e' => decide (e'.path = e.path)) = none := by
      refine List.find?_eq_none.mpr fun e' he' => ?_
      simpa using hdistinct e' he'
    rw [hf]
    dsimp only
    rw [if_neg]
    rintro ⟨e', he', hp⟩
    exact hnew e' he' hp
  obtain ⟨present, hmake⟩ := e.install V (slash :: e.name)
  have hcomp : components (slash :: e.name) = cs ++ [name] := by
    rw [components_slash, ← hcs]
    exact components_joined e.valid
  obtain ⟨V', h1, h2, h3⟩ := @make_spec V name cs e.inode (slash :: e.name) present rfl hcomp
    (fun c hc => (hvalid c hc).length_le) (hvalid name (by simp)).ne_nil h.root hway hfree
  refine ⟨V', ?_, h2, fun p hp => ?_⟩
  · rw [Namespace.unpackMember, e.normalized_name (hl.nodot e hmem)]
    exact hmake.trans h1
  · rw [h3, unpacked_snoc hcs hnew, h.items p hp, e.inode_bare]

/-- From an offset where the rest of a listing stands, the loop unpacks it and ends at the trailer. -/
theorem populatePhysLoop_packed {n : Nat} {filesize : Nat} {rest : List UInt8}
    (hl : Listing (done ++ es)) (hc : phys.Copies base A.length)
    (hmem : bytesAt phys.bytes base A.length = A) (hlen : A.length < 2 ^ 32)
    (hA : A = pre ++ (packed es ++ trailerBytes m mode filesize rest)) (hpre : pre.length = o)
    (ho : o % 4 = 0) (hn : es.length < n) (h : Mirrors heap r ∅ s V) (hi : Installed V done) :
    ∃ V', (populatePhysLoop heap phys behind base A.length n o s).1 = some 0 ∧
      Mirrors heap r ∅ (populatePhysLoop heap phys behind base A.length n o s).2 V' ∧
      Installed V' (done ++ es) := by
  induction es generalizing done n pre o s V with
  | nil =>
    obtain ⟨n, rfl⟩ : ∃ k, n = k + 1 := ⟨n - 1, by simp at hn; omega⟩
    have hsize : (cpioTrailer.bytes ++ [0]).length =
        headerNamesize (newcHeader m mode filesize (cpioTrailer.length + 1)) := by
      rw [headerNamesize_newc _ _ _ (by decide)]
      rfl
    have hparse : parseAt A o = .trailer :=
      parseAt_trailer (length_newcHeader ..) (magic_newc ..) hsize (by decide) (by decide) (by decide)
        hpre hA
    obtain ⟨-, hname, -⟩ := head_parts (length_newcHeader ..) hsize hpre hA
    have hfollow := @populatePhysTurn_follows s r heap V phys A o base A.length behind h hc hmem
      fun _ _ _ _ => by
        rw [hname]
        decide
    rw [Namespace.turn, hparse] at hfollow
    rw [populatePhysLoop]
    generalize populatePhysTurn heap phys behind base A.length o s = turn at hfollow ⊢
    cases turn with
    | next => exact hfollow.elim
    | ends rc s' =>
      obtain ⟨rfl, h'⟩ := hfollow
      exact ⟨V, rfl, h', by rwa [List.append_nil]⟩
  | cons e es ih =>
    obtain ⟨n, rfl⟩ : ∃ k, n = k + 1 := ⟨n - 1, by simp at hn; omega⟩
    have hmem' : e ∈ done ++ e :: es := by simp
    have hcut : A = pre ++ (e.raw.bytes ++ (packed es ++ trailerBytes m mode filesize rest)) := by
      rw [hA, packed, List.flatMap_cons, List.append_assoc]
      rfl
    have hshort := hl.short e hmem'
    have hcontent : e.kind.content.length < 2 ^ 32 := by
      have := congrArg List.length hcut
      rw [List.length_append, List.length_append, e.raw.length_bytes] at this
      have hd : e.raw.data.length = e.kind.content.length := rfl
      omega
    have hfits := e.fits hshort hcontent
    obtain ⟨hhdr, hname, -, -, hnext, -⟩ := hfits.parts hpre ho hcut hlen
    have hparse : parseAt A o = .member e.name e.mode e.kind.content := by
      have hname : e.raw.name.length - 1 = e.name.length := by
        simp [Entry.raw, length_bytes]
      rw [hfits.parseAt hpre ho hcut hlen, e.parsed, if_neg]
      rw [hname]
      exact fun hc => hl.other e hmem' ((strncmp_bytes_left ..).mp hc)
    obtain ⟨V', hunpack, hi'⟩ := hi.next hl
    have hfollow := @populatePhysTurn_follows s r heap V phys A o base A.length behind h hc hmem
      fun _ _ _ _ => by
        rw [hname]
        simp [Entry.raw]
    rw [Namespace.turn, hparse] at hfollow
    simp only [hunpack, if_true] at hfollow
    rw [populatePhysLoop]
    generalize populatePhysTurn heap phys behind base A.length o s = turn at hfollow ⊢
    cases turn with
    | ends => exact hfollow.elim
    | next o' s' =>
      obtain ⟨rfl, h'⟩ := hfollow
      have hl' : Listing ((done ++ [e]) ++ es) := by rwa [List.append_assoc, List.singleton_append]
      have hA' : A = (pre ++ e.raw.bytes) ++ (packed es ++ trailerBytes m mode filesize rest) := by
        rw [hcut, List.append_assoc]
      have hpre' : (pre ++ e.raw.bytes).length = 0 + cpioAlignOffset (dataEnd A o) := by
        rw [hnext, List.length_append, hpre, Nat.zero_add]
      have ho' : (0 + cpioAlignOffset (dataEnd A o)) % 4 = 0 := by
        rw [Nat.zero_add]
        exact cpioAlignOffset_mod _
      obtain ⟨V'', h1, h2, h3⟩ := ih hl' hA' hpre' ho' (by simp at hn; omega) h' hi'
      refine ⟨V'', h1, h2, ?_⟩
      rwa [List.append_assoc, List.singleton_append] at h3

/-- The tree of a map. -/
theorem Mirrors.item (h : Mirrors heap r H s V) (cs : List Text) : s.item r cs = V.item cs := by
  rw [← h.view, Vfs.item, Namespace.item, Vfs.view, Option.map_map]
  congr 1
  funext p
  exact (Inode.bare_shown _).symm

/-- Unpacking a packed listing on an empty tree, with memory available, returns 0, and what is under
    each path but the root's is what the listing says. -/
theorem unpack_packed {n filesize : Nat} {rest : List UInt8} (hl : Listing es)
    (hA : A = packed es ++ trailerBytes m mode filesize rest) (hlen : A.length < 2 ^ 32)
    (hmem : bytesAt phys.bytes base A.length = A) (hc : phys.Copies base A.length)
    (hroomy : Roomy heap s) (hb : Built s) (hr : s.root = some r) (hempty : s.entries r = [])
    (hn : es.length < n) :
    (cpioPopulateVfsPhys heap phys behind base A.length n s).1 = some 0 ∧
    (cpioPopulateVfsPhys heap phys behind base A.length n s).2.root = some r ∧
    ∀ cs, cs ≠ [] →
      (cpioPopulateVfsPhys heap phys behind base A.length n s).2.item r cs = unpacked es cs := by
  obtain ⟨r', hr', hs⟩ := hb.shape
  obtain rfl := Option.some.inj (hr.symm.trans hr')
  have h : Mirrors heap r ∅ s (s.view r) := ⟨hs, hr, hroomy, rfl, by simp⟩
  have hi : Installed (s.view r) [] := by
    refine ⟨?_, fun p hp => ?_⟩
    · rw [h.isDir rfl]
      exact decide_eq_true hs.rootDir
    · obtain ⟨c, cs, rfl⟩ := List.exists_cons_of_ne_nil hp
      have hnone : s.child r c = none := by
        rw [Vfs.child, hempty]
        rfl
      rw [← h.item, Vfs.item, Vfs.walk, hnone]
      rfl
  have hA' : A = [] ++ (packed es ++ trailerBytes m mode filesize rest) := hA
  have hl' : Listing ([] ++ es) := hl
  obtain ⟨V', h1, h2, h3⟩ :
      ∃ V', (populatePhysLoop heap phys behind base A.length n 0 s).1 = some 0 ∧
        Mirrors heap r ∅ (populatePhysLoop heap phys behind base A.length n 0 s).2 V' ∧
        Installed V' ([] ++ es) :=
    populatePhysLoop_packed hl' hc hmem hlen hA' rfl rfl hn h hi
  exact ⟨h1, h2.root, fun cs hcs => (h2.item cs).trans (h3.items cs hcs)⟩

/-- An archive in memory from address 0 on. -/
def inMemory (A : List UInt8) : Bytes := fun a => A.getD a 0

theorem bytesAt_inMemory (A : List UInt8) : bytesAt (inMemory A) 0 A.length = A := by
  refine List.ext_getElem (length_bytesAt ..) fun i hi hi' => ?_
  simp [bytesAt, inMemory, hi']

theorem roomy_empty : Roomy rising emptyVfs := by
  have hreq : emptyVfs.requests = 1 := rfl
  have hlive : emptyVfs.live = {0} := rfl
  refine ⟨fun n hn => ⟨n, rfl, ?_⟩, fun m n _ _ h => Option.some.inj h⟩
  rw [hlive, Finset.mem_singleton]
  rw [hreq] at hn
  exact Nat.ne_of_gt hn

def noMeta : Meta := ⟨false, .replicate 8 48, .replicate 32 48, .replicate 32 48, .replicate 8 48⟩

/-- A directory with a file in it. -/
def dirAndFile : List Entry :=
  [⟨[[letter 3]], 0o040755#32, .dir, noMeta, by decide, by
      intro c hc
      obtain rfl := List.mem_singleton.mp hc
      exact ⟨by decide, by decide, by decide⟩, by decide, by simp⟩,
    ⟨[[letter 3], [letter 5]], 0o100644#32, .file [104, 105], noMeta, by decide, by
      intro c hc
      rcases List.mem_cons.mp hc with rfl | hc
      · exact ⟨by decide, by decide, by decide⟩
      · obtain rfl := List.mem_singleton.mp hc
        exact ⟨by decide, by decide, by decide⟩, by decide, by simp⟩]

instance (e e' : Entry) : Decidable (e.Above e') := by
  unfold Entry.Above
  infer_instance

theorem dirAndFile_listing : Listing dirAndFile :=
  ⟨by decide, by decide, by decide, by decide, by decide, by decide⟩

theorem unpack_packed_dirAndFile :
    let A := packed dirAndFile ++ trailerBytes noMeta 0 0 []
    let res := cpioPopulateVfsPhys rising ⟨inMemory A, fun _ _ => true⟩ (fun _ => []) 0 A.length 3
      emptyVfs
    res.1 = some 0 ∧ res.2.item 0 [[letter 3], [letter 5]] =
      some ⟨0o100644#32, 2, .file [104, 105]⟩ := by
  intro A res
  obtain ⟨h1, -, h3⟩ := @unpack_packed emptyVfs 0 rising ⟨inMemory A, fun _ _ => true⟩ A 0
    (fun _ => []) dirAndFile noMeta 0 3 0 [] dirAndFile_listing rfl (by decide +kernel) (bytesAt_inMemory A)
    (fun _ _ _ _ => rfl) roomy_empty emptyVfs_built rfl rfl (by decide)
  exact ⟨h1, (h3 _ (by decide)).trans (by decide)⟩

end TypeOS.Fs
