import TypeOS.Fs.Create

/-! What the calls that create something are for: a map from paths to what is there.

    Addresses do not show in it, nor does the heap as long as it answers. A `Namespace` gives for each
    list of names what its inode shows. `view` reads it off a tree; `vfs_mkdir`, `vfs_create` and
    `vfs_symlink` return what `Namespace.mkdir` and `Namespace.make` return and leave a tree with the
    view that these leave. -/

namespace TypeOS.Fs

variable {s s' s'' : Vfs} {r d n p q : Ptr} {heap : Heap} {name : Text} {dir cs cs' : List Text}

/-- What an inode shows: of its entries the names. -/
def Inode.shown (i : Inode) : Inode :=
  { i with
    node :=
      match i.node with
      | .dir children => .dir (children.map fun e => ⟨e.name, 0⟩)
      | node => node }

abbrev Namespace := List Text → Option Inode

/-- The paths of a tree. -/
def Vfs.view (s : Vfs) (r : Ptr) : Namespace := fun cs => (s.walk r cs).map fun p => (s.inodes p).shown

namespace Namespace

variable {V : Namespace}

def isDir (V : Namespace) (dir : List Text) : Bool :=
  match V dir with
  | some inode => inode.node.type = .dir
  | none => false

/-- A new entry. -/
def enter (V : Namespace) (dir : List Text) (name : Text) (inode : Inode) : Namespace := fun cs =>
  if cs = dir ++ [name] then some inode
  else if cs = dir then (V cs).map fun i => { i with node := i.node.add [⟨name, 0⟩] }
  else V cs

/-- An empty directory of mode 0755. -/
def newDir : Inode := ⟨sIfdir ||| 0o755#32, 0, .dir []⟩

/-- The directory of a path and its last name; missing directories come to be. -/
def parents (V : Namespace) (dir : List Text) : List Text → Option (List Text × Text) × Namespace
  | [] => (some (dir, []), V)
  | c :: cs =>
    if 256 ≤ c.length then (none, V)
    else if cs = [] then (some (dir, c), V)
    else if V.isDir dir = false then (none, V)
    else if (V (dir ++ [c])).isSome then parents V (dir ++ [c]) cs
    else parents (V.enter dir c newDir) (dir ++ [c]) cs

def lookupParent (V : Namespace) (path : Text) : Option (List Text × Text) × Namespace :=
  if vfsIsAbsolute path then V.parents [] (components path) else (none, V)

/-- An inode is made under a path; `present` is the answer where something is there. -/
def make (V : Namespace) (present : Int) (path : Text) (inode : Inode) : Int × Namespace :=
  match V.lookupParent path with
  | (none, V) => (-1, V)
  | (some (dir, name), V) =>
    if name = [] then (-1, V)
    else if (V (dir ++ [name])).isSome then (present, V)
    else if V.isDir dir then (0, V.enter dir name inode)
    else (-1, V)

/-- `vfs_mkdir`. -/
def mkdir (V : Namespace) (path : Text) (mode : BitVec 32) : Int × Namespace :=
  V.make 0 path ⟨mode, 0, .dir []⟩

/-- `vfs_create`. -/
def create (V : Namespace) (path : Text) (mode : BitVec 32) (data : List UInt8) : Int × Namespace :=
  V.make (-1) path ⟨mode, data.length, .file data⟩

/-- `vfs_symlink`. -/
def symlink (V : Namespace) (target path : Text) : Int × Namespace :=
  V.make (-1) path ⟨sIflnk ||| 0o777#32, target.length, .symlink target⟩

end Namespace

/-! ### The view of a tree -/

@[simp] theorem Inode.shown_type (i : Inode) : i.shown.node.type = i.node.type := by
  obtain ⟨mode, size, node⟩ := i
  cases node <;> rfl

/-- In a tree one path leads to an inode. -/
theorem Shape.walk_inj (h : Shape s r) (hp : s.walk r cs = some p) (hp' : s.walk r cs' = some p) :
    cs = cs' := by
  have hroot : ∀ cs c, s.walk r (cs ++ [c]) ≠ some r := by
    intro cs c hw
    rw [walk_snoc] at hw
    obtain ⟨q, hq, hc⟩ := Option.bind_eq_some_iff.mp hw
    obtain ⟨e, he, -, hr⟩ := child_mem hc
    exact h.rootFree q e (Reach.root.walk hq) he hr
  induction cs using List.reverseRecOn generalizing cs' p with
  | nil =>
    obtain rfl := Option.some.inj hp
    rcases List.eq_nil_or_concat cs' with rfl | ⟨cs', c', rfl⟩
    · rfl
    · rw [List.concat_eq_append] at hp'
      exact absurd hp' (hroot cs' c')
  | append_singleton cs c ih =>
    rcases List.eq_nil_or_concat cs' with rfl | ⟨cs', c', rfl⟩
    · obtain rfl := Option.some.inj hp'
      exact absurd hp (hroot cs c)
    · rw [List.concat_eq_append] at hp' ⊢
      rw [walk_snoc] at hp hp'
      obtain ⟨q, hq, hc⟩ := Option.bind_eq_some_iff.mp hp
      obtain ⟨q', hq', hc'⟩ := Option.bind_eq_some_iff.mp hp'
      obtain ⟨e, he, rfl, hep⟩ := child_mem hc
      obtain ⟨e', he', rfl, hep'⟩ := child_mem hc'
      obtain ⟨rfl, rfl⟩ := h.unique q q' e e' (Reach.root.walk hq) (Reach.root.walk hq') he he'
        (hep.trans hep'.symm)
      rw [ih hq hq']

theorem Frame.walk (f : Frame r s s') (hp : Reach s r p) : s'.walk p cs = s.walk p cs := by
  induction cs generalizing p with
  | nil => rfl
  | cons c cs ih =>
    have hc : s'.child p c = s.child p c := by
      rw [Vfs.child, f.entries hp]
      rfl
    rw [Vfs.walk, Vfs.walk, hc]
    cases hq : s.child p c with
    | none => rfl
    | some q => exact ih (hp.child hq)

theorem Frame.view (f : Frame r s s') : s'.view r = s.view r := by
  funext cs
  rw [Vfs.view, Vfs.view, f.walk .root]
  cases hw : s.walk r cs with
  | none => rfl
  | some p => rw [Option.map_some, Option.map_some, f.inodes p (Reach.root.walk hw)]

theorem view_isDir (hw : s.walk r dir = some d) : (s.view r).isDir dir = decide (s.type d = .dir) := by
  rw [Namespace.isDir, Vfs.view, hw, Option.map_some]
  simp only [Inode.shown_type]
  rfl

theorem view_child (hw : s.walk r dir = some d) :
    s.view r (dir ++ [name]) = (s.child d name).map fun p => (s.inodes p).shown := by
  rw [Vfs.view, walk_snoc, hw]
  rfl

theorem child_none_iff : s.child d name = none ↔ ∀ e ∈ s.entries d, e.name ≠ name := by
  simp [Vfs.child]

/-- A new entry is a new path, and changes no other. -/
theorem Shape.walk_graft (h : Shape s r) (hw : s.walk r dir = some d) (hn : ¬ Reach s r n)
    (hleaf : s.entries n = []) (hfree : ∀ e ∈ s.entries d, e.name ≠ name) :
    (s.graft d name n).walk r cs = if cs = dir ++ [name] then some n else s.walk r cs := by
  have hnd : n ≠ d := fun hc => hn (hc ▸ Reach.root.walk hw)
  have hold : s.walk r (dir ++ [name]) = none := by
    rw [walk_snoc, hw]
    exact child_none_iff.mpr hfree
  induction cs using List.reverseRecOn with
  | nil => simp [Vfs.walk]
  | append_singleton cs c ih =>
    rw [walk_snoc, ih, walk_snoc]
    split
    · next hcs =>
      -- nothing lies below the new inode
      subst hcs
      have hnone : (s.graft d name n).child n c = none := by
        rw [Vfs.child, graft_entries_ne hnd, hleaf]
        rfl
      rw [if_neg (by simp), hold]
      exact hnone
    · cases hx : s.walk r cs with
      | none =>
        rw [if_neg]
        · rfl
        · intro hc
          obtain ⟨rfl, -⟩ := List.append_inj' hc rfl
          rw [hw] at hx
          simp at hx
      | some x =>
        simp only [Option.bind_some]
        rcases eq_or_ne x d with rfl | hxd
        · obtain rfl := h.walk_inj hx hw
          rcases eq_or_ne c name with rfl | hc
          · rw [if_pos rfl, graft_child]
          · rw [if_neg (by simpa using hc), Vfs.child, graft_entries_self,
              List.find?_cons_of_neg (by simpa using hc.symm)]
            rfl
        · rw [if_neg, Vfs.child, graft_entries_ne hxd]
          · rfl
          · intro hc
            obtain ⟨rfl, -⟩ := List.append_inj' hc rfl
            rw [hw] at hx
            exact hxd (Option.some.inj hx).symm

theorem Shape.view_graft (h : Shape s r) (hw : s.walk r dir = some d) (hdir : s.type d = .dir)
    (hn : ¬ Reach s r n) (hleaf : s.entries n = []) (hfree : ∀ e ∈ s.entries d, e.name ≠ name) :
    (s.graft d name n).view r = (s.view r).enter dir name (s.inodes n).shown := by
  have hnd : n ≠ d := fun hc => hn (hc ▸ Reach.root.walk hw)
  funext cs
  rw [Vfs.view, h.walk_graft hw hn hleaf hfree, Namespace.enter]
  split
  · rw [Option.map_some, graft_inodes_ne hnd]
  split
  · next hcs =>
    subst hcs
    have hself : (s.graft d name n).inodes d =
        { s.inodes d with node := .dir (⟨name, n⟩ :: s.entries d) } := Function.update_self ..
    rw [Vfs.view, hw, Option.map_some, Option.map_some, Option.map_some, hself]
    simp only [Inode.shown, dir_of_type hdir, Node.add, List.map_cons, List.singleton_append]
  · next hcs =>
    rw [Vfs.view]
    cases hx : s.walk r cs with
    | none => rfl
    | some x =>
      have hxd : x ≠ d := by
        rintro rfl
        exact hcs (h.walk_inj hx hw)
      rw [Option.map_some, Option.map_some, graft_inodes_ne hxd]

/-! ### Memory available -/

/-- The heap has a block for every request from now on, never the same and none in use. -/
structure Roomy (heap : Heap) (s : Vfs) : Prop where
  answers : ∀ n, s.requests ≤ n → ∃ p, heap n = some p ∧ p ∉ s.live
  apart : ∀ m n, s.requests ≤ m → s.requests ≤ n → heap m = heap n → m = n

theorem Roomy.kmalloc (h : Roomy heap s) : ∃ p s', Fs.kmalloc heap s = (some p, s') ∧ p ∉ s.live ∧
    Quiet s s' ∧ s'.live = insert p s.live ∧ Roomy heap s' := by
  obtain ⟨p, hp, hl⟩ := h.answers s.requests le_rfl
  refine ⟨p, { s with live := insert p s.live, requests := s.requests + 1 }, ?_, hl,
    ⟨rfl, rfl, Finset.subset_insert ..⟩, rfl, fun n hn => ?_, fun m n hm hn => ?_⟩
  · simp only [Fs.kmalloc, hp, if_neg hl]
  · obtain ⟨q, hq, hql⟩ := h.answers n (by dsimp only at hn; omega)
    refine ⟨q, hq, fun hc => ?_⟩
    rcases Finset.mem_insert.mp hc with rfl | hc
    · have := h.apart s.requests n le_rfl (by dsimp only at hn; omega) (hp.trans hq.symm)
      dsimp only at hn
      omega
    · exact hql hc
  · exact h.apart m n (by dsimp only at hm; omega) (by dsimp only at hn; omega)

theorem Roomy.mono (h : Roomy heap s) (hr : s'.requests = s.requests) (hl : s'.live ⊆ s.live) :
    Roomy heap s' := by
  refine ⟨fun n hn => ?_, fun m n hm hn => h.apart m n (hr ▸ hm) (hr ▸ hn)⟩
  obtain ⟨p, hp, hpl⟩ := h.answers n (hr ▸ hn)
  exact ⟨p, hp, fun hc => hpl (hl hc)⟩

theorem Roomy.kfree (h : Roomy heap s) (p : Ptr) : Roomy heap (Fs.kfree p s) :=
  h.mono rfl (Finset.erase_subset ..)

theorem Roomy.setInode (h : Roomy heap s) (p : Ptr) (inode : Inode) :
    Roomy heap (s.setInode p inode) := h.mono rfl (Finset.Subset.refl _)

/-! ### The calls -/

/-- A tree with memory available and with this view; the blocks in `H` are in use, but the tree does
    not lead to them. -/
structure Mirrors (heap : Heap) (r : Ptr) (H : Set Ptr) (s : Vfs) (V : Namespace) : Prop where
  shape : Shape s r
  root : s.root = some r
  roomy : Roomy heap s
  view : s.view r = V
  held : ∀ p ∈ H, p ∈ s.live ∧ ¬ Reach s r p

variable {V : Namespace} {H : Set Ptr}

theorem Mirrors.frame (h : Mirrors heap r H s V) (f : Frame r s s') (hm : Roomy heap s')
    (hl : ∀ p ∈ H, p ∈ s'.live) : Mirrors heap r H s' V := by
  refine ⟨h.shape.frame f, f.root.trans h.root, hm, f.view.trans h.view, fun p hp => ⟨hl p hp, ?_⟩⟩
  rw [f.reach]
  exact (h.held p hp).2

/-- A block is given back that is not held. -/
theorem Mirrors.free (h : Mirrors heap r H s V) (hn : ¬ Reach s r p) (hp : p ∉ H) :
    Mirrors heap r H (Fs.kfree p s) V := by
  refine h.frame (frame_kfree hn) (h.roomy.kfree p) fun q hq => Finset.mem_erase.mpr ⟨?_, (h.held q hq).1⟩
  rintro rfl
  exact hp hq

/-- A block to hold. -/
theorem Mirrors.alloc (h : Mirrors heap r H s V) : ∃ p s', Fs.kmalloc heap s = (some p, s') ∧
    Mirrors heap r (insert p H) s' V ∧ p ∉ H ∧ s'.inodes = s.inodes := by
  obtain ⟨p, s', hm, hl, hq, hlive, hroomy⟩ := h.roomy.kmalloc
  have f : Frame r s s' := hq.frame
  have h' := h.frame f hroomy fun q hq' => hq.live (h.held q hq').1
  refine ⟨p, s', hm, ⟨h'.shape, h'.root, hroomy, h'.view, fun q hq' => ?_⟩, fun hp => hl (h.held p hp).1,
    hq.inodes⟩
  rcases hq' with rfl | hq'
  · refine ⟨by simp [hlive], ?_⟩
    rw [f.reach]
    exact fun hr => hl (h.shape.live q hr)
  · exact h'.held q hq'

/-- A block that was held is given back. -/
theorem Mirrors.release (h : Mirrors heap r (insert p H) s V) (hp : p ∉ H) :
    Mirrors heap r H (Fs.kfree p s) V := by
  have h' : Mirrors heap r H s V :=
    ⟨h.shape, h.root, h.roomy, h.view, fun q hq => h.held q (Set.mem_insert_of_mem _ hq)⟩
  exact h'.free (h.held p (Set.mem_insert ..)).2 hp

theorem Mirrors.isDir (h : Mirrors heap r H s V) (hw : s.walk r dir = some d) :
    V.isDir dir = decide (s.type d = .dir) := by
  rw [← h.view]
  exact view_isDir hw

theorem Mirrors.child (h : Mirrors heap r H s V) (hw : s.walk r dir = some d) :
    (V (dir ++ [name])).isSome = (s.child d name).isSome := by
  rw [← h.view, view_child hw, Option.isSome_map]

theorem Mirrors.find (h : Mirrors heap r H s V) (hw : s.walk r dir = some d) :
    (vfsDirFind s d name name.length).isSome = (V (dir ++ [name])).isSome := by
  rw [h.child hw, vfsDirFind_eq, Vfs.child, Option.isSome_map]

/-- A new inode is one that nothing leads to. -/
theorem Mirrors.inodeNew (h : Mirrors heap r H s V) (node : Node) (mode : BitVec 32) :
    ∃ n s', vfsInodeNew heap node mode s = (some n, s') ∧ Mirrors heap r H s' V ∧ Frame r s s' ∧
      ¬ Reach s' r n ∧ n ∉ H ∧ n ∈ s'.live ∧ s'.inodes n = ⟨mode, 0, node⟩ := by
  obtain ⟨p, s₁, hm, hl, hq, hlive, hroomy⟩ := h.roomy.kmalloc
  have hn : ¬ Reach s r p := fun hr => hl (h.shape.live p hr)
  have hn₁ : ¬ Reach s₁ r p := by rwa [(hq.frame (r := r)).reach]
  have f : Frame r s (s₁.setInode p ⟨mode, 0, node⟩) := hq.frame.trans (frame_setInode hn₁)
  refine ⟨p, _, by rw [vfsInodeNew, hm], h.frame f (hroomy.setInode ..) fun q hq' => ?_, f, ?_,
    fun hp => hl (h.held p hp).1, ?_, ?_⟩
  · exact hq.live (h.held q hq').1
  · rwa [f.reach]
  · simp [Vfs.setInode, hlive]
  · exact Function.update_self ..

/-- The entry is made, unless its directory is none. -/
theorem Mirrors.dirAdd (h : Mirrors heap r H s V) (hw : s.walk r dir = some d) (hn : ¬ Reach s r n)
    (hH : n ∉ H) (hleaf : s.entries n = []) (hl : n ∈ s.live) (hv : ValidName name)
    (hfree : V (dir ++ [name]) = none) :
    (V.isDir dir = false ∧ vfsDirAdd heap d name n s = (-1, s)) ∨
    ∃ s', V.isDir dir = true ∧ vfsDirAdd heap d name n s = (0, s') ∧
      Mirrors heap r H s' (V.enter dir name (s.inodes n).shown) ∧
      s'.walk r (dir ++ [name]) = some n := by
  have hnone : s.child d name = none := by
    rw [← Option.isNone_iff_eq_none, ← Option.isSome_eq_false_iff, ← h.child hw, hfree]
    rfl
  have hfind : (vfsDirFind s d name name.length).isSome = false := by
    rw [h.find hw, hfree]
    rfl
  rw [h.isDir hw]
  cases ht : s.type d with
  | dir =>
    obtain ⟨p₁, s₁, hm₁, -, hq₁, -, hr₁⟩ := h.roomy.kmalloc
    obtain ⟨p₂, s₂, hm₂, -, hq₂, -, hr₂⟩ := hr₁.kmalloc
    have hq := hq₁.trans hq₂
    have f : Frame r s s₂ := hq.frame
    have hw₂ : s₂.walk r dir = some d := by rw [f.walk .root, hw]
    have hn₂ : ¬ Reach s₂ r n := by rwa [f.reach]
    have hleaf₂ : s₂.entries n = [] := by rw [hq.entries, hleaf]
    have hfree₂ : ∀ e ∈ s₂.entries d, e.name ≠ name := by
      rw [hq.entries]
      exact child_none_iff.mp hnone
    have hdir₂ : s₂.type d = .dir := by rw [hq.type, ht]
    have hs₂ := h.shape.frame f
    have hshape := hs₂.graft (Reach.root.walk hw₂) hdir₂ hn₂ hleaf₂ (hq.live hl) hv hfree₂
    refine Or.inr ⟨s₂.graft d name n, by simp, ?_,
      ⟨hshape, f.root.trans h.root, hr₂.setInode .., ?_, fun p hp => ⟨hq.live (h.held p hp).1, ?_⟩⟩, ?_⟩
    · rw [vfsDirAdd, dir_of_type ht]
      simp only [hfind, Bool.false_eq_true, if_false, hm₁, hm₂]
      rw [Vfs.graft, hq.entries]
    · rw [hs₂.view_graft hw₂ hdir₂ hn₂ hleaf₂ hfree₂, f.view, h.view, hq.inodes]
    · rw [reach_graft (Reach.root.walk hw₂) hdir₂ hn₂ hleaf₂ hfree₂, f.reach]
      rintro (hp' | rfl)
      · exact (h.held p hp).2 hp'
      · exact hH hp
    · rw [hs₂.walk_graft hw₂ hn₂ hleaf₂ hfree₂, if_pos rfl]
  | file | symlink =>
    refine Or.inl ⟨by simp, ?_⟩
    rw [vfsDirAdd]
    split
    · next children hc =>
      rw [Vfs.type, hc] at ht
      cases ht
    · rfl

/-- The two answers to where an entry belongs: an inode and the path that leads to it. -/
def SameParent (s : Vfs) (r : Ptr) : Option (Ptr × Text) → Option (List Text × Text) → Prop
  | some (p, name), some (dir, name') => name = name' ∧ s.walk r dir = some p
  | none, none => True
  | _, _ => False

theorem Mirrors.lookupParentLoop {t : Text} {l : List (Text × Text)} {current : Ptr}
    (h : Mirrors heap r H s V) (hw : s.walk r dir = some current) (hl : splitPath t = l) :
    Mirrors heap r H (lookupParentLoop heap l current s).2 (V.parents dir (l.map Prod.fst)).2 ∧
    SameParent (Fs.lookupParentLoop heap l current s).2 r (Fs.lookupParentLoop heap l current s).1
      (V.parents dir (l.map Prod.fst)).1 := by
  induction l generalizing s current t V dir with
  | nil => exact ⟨h, rfl, hw⟩
  | cons x l ih =>
    obtain ⟨component, cursor⟩ := x
    obtain ⟨hne, hslash, hl', hlast⟩ := splitPath_eq_cons hl
    have hcur : cursor = [] ↔ l.map Prod.fst = [] := by rw [hlast, List.map_eq_nil_iff]
    rw [Fs.lookupParentLoop, List.map_cons, Namespace.parents]
    split
    · exact ⟨h, trivial⟩
    · next hlen =>
      split
      · next hc =>
        rw [if_pos (hcur.mp hc)]
        exact ⟨h, rfl, hw⟩
      · next hc =>
        rw [if_neg fun hm => hc (hcur.mpr hm), h.isDir hw]
        split
        · next ht =>
          rw [if_pos (by simpa using ht)]
          exact ⟨h, trivial⟩
        · next ht =>
          rw [if_neg (by simpa using ht)]
          have hfind := @Mirrors.find s r current heap component dir V H h hw
          split
          · next entry hf =>
            rw [hf] at hfind
            have hpres : (V (dir ++ [component])).isSome = true := hfind.symm
            simp only [hpres, if_true]
            refine ih h ?_ hl'.symm
            rw [walk_snoc, hw, Option.bind_some, Vfs.child, ← vfsDirFind_eq, hf]
            rfl
          · next hf =>
            rw [hf] at hfind
            have hfree : V (dir ++ [component]) = none := by
              simpa using hfind.symm
            simp only [hfree, Option.isSome_none, Bool.false_eq_true, if_false]
            obtain ⟨next, s₁, heq, h₁, f, hn, hH, hlive, hin⟩ :=
              h.inodeNew (.dir []) (sIfdir ||| 0o755#32)
            have hw₁ : s₁.walk r dir = some current := by rw [f.walk .root, hw]
            rw [heq]
            dsimp only
            rcases h₁.dirAdd hw₁ hn hH (entries_dir (by rw [hin])) hlive ⟨hne, by omega, hslash⟩ hfree with
              ⟨hd, -⟩ | ⟨s₂, -, heq₂, h₂, hw₂⟩
            · rw [h.isDir hw] at hd
              exact absurd (by simpa using hd) ht
            · rw [heq₂]
              rw [hin] at h₂
              exact ih h₂ hw₂ hl'.symm

theorem Mirrors.lookupParent {path : Text} (h : Mirrors heap r H s V) :
    Mirrors heap r H (vfsLookupParent heap path s).2 (V.lookupParent path).2 ∧
    SameParent (vfsLookupParent heap path s).2 r (vfsLookupParent heap path s).1
      (V.lookupParent path).1 := by
  rw [vfsLookupParent, Namespace.lookupParent, h.root]
  cases ha : vfsIsAbsolute path with
  | false => exact ⟨h, trivial⟩
  | true => exact h.lookupParentLoop rfl rfl

/-- The part that the three calls share: `k` makes the entry once its place is known. -/
theorem Mirrors.make {path : Text} {present : Int} {inode : Inode} {k : Ptr → Text → Vfs → Int × Vfs}
    (hk : ∀ s V dir d name, Mirrors heap r H s V → s.walk r dir = some d → ValidName name →
      V (dir ++ [name]) = none →
      (V.isDir dir = false ∧ (k d name s).1 = -1 ∧ Mirrors heap r H (k d name s).2 V) ∨
      (V.isDir dir = true ∧ (k d name s).1 = 0 ∧
        Mirrors heap r H (k d name s).2 (V.enter dir name inode)))
    (h : Mirrors heap r H s V) {res : Int × Vfs}
    (hres : res = match vfsLookupParent heap path s with
      | (none, s) => (-1, s)
      | (some (parent, name), s) =>
        if name = [] then (-1, s)
        else if (vfsDirFind s parent name name.length).isSome then (present, s)
        else k parent name s) :
    res.1 = (V.make present path inode).1 ∧ Mirrors heap r H res.2 (V.make present path inode).2 := by
  obtain ⟨h₁, hsame⟩ := @Mirrors.lookupParent s r heap V H path h
  have hspec := (@vfsLookupParent_spec s r heap path h.shape h.root).2
  rw [hres, Namespace.make]
  rcases hp : vfsLookupParent heap path s with ⟨_ | ⟨d, name⟩, s₁⟩ <;>
    rcases hq : V.lookupParent path with ⟨_ | ⟨dir, name'⟩, V₁⟩ <;> rw [hp, hq] at hsame h₁
  · exact ⟨rfl, h₁⟩
  · exact hsame.elim
  · exact hsame.elim
  · obtain ⟨rfl, hw⟩ := hsame
    dsimp only at h₁ hw ⊢
    rw [hp] at hspec
    obtain ⟨-, -, hname⟩ := hspec d name rfl
    split
    · exact ⟨rfl, h₁⟩
    · next hne =>
      have hv := (hname.resolve_left hne).1
      rw [h₁.find hw]
      split
      · exact ⟨rfl, h₁⟩
      · next hpres =>
        have hfree : V₁ (dir ++ [name]) = none := by simpa using hpres
        rcases hk s₁ V₁ dir d name h₁ hw hv hfree with ⟨hd, hc, hm⟩ | ⟨hd, hc, hm⟩
        · rw [hd]
          exact ⟨hc, hm⟩
        · rw [hd]
          exact ⟨hc, hm⟩

/-- What `vfs_mkdir` does once it has the parent. -/
def mkdirIn (heap : Heap) (mode : BitVec 32) (parent : Ptr) (name : Text) (s : Vfs) : Int × Vfs :=
  match vfsInodeNew heap (.dir []) mode s with
  | (none, s) => (-1, s)
  | (some inode, s) => vfsDirAdd heap parent name inode s

/-- What `vfs_create` does once it has the parent. -/
def createIn (heap : Heap) (mode : BitVec 32) (data : List UInt8) (parent : Ptr) (name : Text) (s : Vfs) :
    Int × Vfs :=
  match vfsInodeNew heap (.file []) mode s with
  | (none, s) => (-1, s)
  | (some inode, s) =>
    match copyData heap data s with
    | (none, s) => (-1, kfree inode s)
    | (some copy, s) =>
      match vfsDirAdd heap parent name inode (s.setInode inode ⟨mode, data.length, .file data⟩) with
      | (0, s) => (0, s)
      | (_, s) => (-1, kfree inode (kfreeIf copy s))

/-- What `vfs_symlink` does once it has the parent. -/
def symlinkIn (heap : Heap) (target : Text) (parent : Ptr) (name : Text) (s : Vfs) : Int × Vfs :=
  match vfsInodeNew heap (.symlink []) (sIflnk ||| 0o777#32) s with
  | (none, s) => (-1, s)
  | (some inode, s) =>
    match kmalloc heap s with
    | (none, s) => (-1, kfree inode s)
    | (some copy, s) =>
      match vfsDirAdd heap parent name inode
        (s.setInode inode ⟨sIflnk ||| 0o777#32, target.length, .symlink target⟩) with
      | (0, s) => (0, s)
      | (_, s) => (-1, kfree inode (kfree copy s))

theorem Mirrors.mkdir {path : Text} {mode : BitVec 32} (h : Mirrors heap r H s V) :
    (vfsMkdir heap path mode s).1 = (V.mkdir path mode).1 ∧
      Mirrors heap r H (vfsMkdir heap path mode s).2 (V.mkdir path mode).2 := by
  refine h.make (k := mkdirIn heap mode) ?_ rfl
  intro s V dir d name h hw hv hfree
  obtain ⟨n, s₁, heq, h₁, f, hn, hH, hl, hin⟩ := h.inodeNew (.dir []) mode
  have hw₁ : s₁.walk r dir = some d := by rw [f.walk .root, hw]
  simp only [mkdirIn, heq]
  rcases h₁.dirAdd hw₁ hn hH (entries_dir (by rw [hin])) hl hv hfree with
    ⟨hd, heq₂⟩ | ⟨s₂, hd, heq₂, h₂, -⟩ <;> rw [heq₂]
  · exact Or.inl ⟨hd, rfl, h₁⟩
  · rw [hin] at h₂
    exact Or.inr ⟨hd, rfl, h₂⟩

/-- The end of `vfs_create` and `vfs_symlink`: the inode is filled in and entered, or given back with
    the copy that belongs to it. -/
theorem Mirrors.fillIn {inode : Inode} {c : Option Ptr} (h : Mirrors heap r H s V)
    (hw : s.walk r dir = some d) (hn : ¬ Reach s r n) (hH : n ∉ H) (hl : n ∈ s.live)
    (hleaf : inode.node.entries = []) (hcopy : ∀ p, c = some p → ¬ Reach s r p ∧ p ∉ H)
    (hv : ValidName name) (hfree : V (dir ++ [name]) = none) {res : Int × Vfs}
    (hres : res = match vfsDirAdd heap d name n (s.setInode n inode) with
      | (0, s) => (0, s)
      | (_, s) => (-1, kfree n (kfreeIf c s))) :
    (V.isDir dir = false ∧ res.1 = -1 ∧ Mirrors heap r H res.2 V) ∨
    (V.isDir dir = true ∧ res.1 = 0 ∧ Mirrors heap r H res.2 (V.enter dir name inode.shown)) := by
  have f : Frame r s (s.setInode n inode) := frame_setInode hn
  have h₁ := h.frame f (h.roomy.setInode n inode) fun p hp => (h.held p hp).1
  have hin : (s.setInode n inode).inodes n = inode := Function.update_self ..
  have hleaf₁ : (s.setInode n inode).entries n = [] := by rw [Vfs.entries, hin, hleaf]
  have hw₁ : (s.setInode n inode).walk r dir = some d := by rw [f.walk .root, hw]
  have hn₁ : ¬ Reach (s.setInode n inode) r n := by rwa [f.reach]
  rw [hres]
  rcases h₁.dirAdd hw₁ hn₁ hH hleaf₁ hl hv hfree with ⟨hd, heq⟩ | ⟨s₂, hd, heq, h₂, -⟩ <;> rw [heq]
  · have hcopy₁ : ∀ p, c = some p → ¬ Reach (s.setInode n inode) r p := by
      intro p hp
      rw [f.reach]
      exact (hcopy p hp).1
    have hn₂ : ¬ Reach (kfreeIf c (s.setInode n inode)) r n := by
      rwa [(frame_kfreeIf hcopy₁).reach]
    have h₂ : Mirrors heap r H (kfreeIf c (s.setInode n inode)) V := by
      cases c with
      | none => exact h₁
      | some p => exact h₁.free (hcopy₁ p rfl) (hcopy p rfl).2
    exact Or.inl ⟨hd, rfl, h₂.free hn₂ hH⟩
  · rw [hin] at h₂
    exact Or.inr ⟨hd, rfl, h₂⟩

theorem Mirrors.create {path : Text} {mode : BitVec 32} {data : List UInt8} (h : Mirrors heap r H s V) :
    (vfsCreate heap path mode data s).1 = (V.create path mode data).1 ∧
      Mirrors heap r H (vfsCreate heap path mode data s).2 (V.create path mode data).2 := by
  refine h.make (k := createIn heap mode data) ?_ rfl
  intro s V dir d name h hw hv hfree
  obtain ⟨n, s₁, heq, h₁, f, hn, hH, hl, -⟩ := h.inodeNew (.file []) mode
  have hw₁ : s₁.walk r dir = some d := by rw [f.walk .root, hw]
  obtain ⟨copy, s₂, heq₂, hq, hcopy, hroomy⟩ : ∃ copy s₂, copyData heap data s₁ = (some copy, s₂) ∧
      Quiet s₁ s₂ ∧ (∀ p, copy = some p → p ∉ s₁.live) ∧ Roomy heap s₂ := by
    rw [copyData]
    split
    · exact ⟨none, s₁, rfl, .refl s₁, by simp, h₁.roomy⟩
    · obtain ⟨p, s₂, hm, hp, hq, -, hr⟩ := h₁.roomy.kmalloc
      rw [hm]
      refine ⟨some p, s₂, rfl, hq, fun q hq' => ?_, hr⟩
      rwa [← Option.some.inj hq']
  have f₂ : Frame r s₁ s₂ := hq.frame
  simp only [createIn, heq, heq₂]
  have h₂ := h₁.frame f₂ hroomy fun p hp => hq.live (h₁.held p hp).1
  refine h₂.fillIn (by rw [f₂.walk .root, hw₁]) (by rwa [f₂.reach]) hH (hq.live hl) rfl
    (fun p hp => ⟨?_, fun hc => hcopy p hp (h₁.held p hc).1⟩) hv hfree rfl
  rw [f₂.reach]
  exact fun hreach => hcopy p hp (h₁.shape.live p hreach)

theorem Mirrors.symlink {target path : Text} (h : Mirrors heap r H s V) :
    (vfsSymlink heap target path s).1 = (V.symlink target path).1 ∧
      Mirrors heap r H (vfsSymlink heap target path s).2 (V.symlink target path).2 := by
  refine h.make (k := symlinkIn heap target) ?_ rfl
  intro s V dir d name h hw hv hfree
  obtain ⟨n, s₁, heq, h₁, f, hn, hH, hl, -⟩ := h.inodeNew (.symlink []) (sIflnk ||| 0o777#32)
  have hw₁ : s₁.walk r dir = some d := by rw [f.walk .root, hw]
  obtain ⟨copy, s₂, heq₂, hcopy, hq, -, hroomy⟩ := h₁.roomy.kmalloc
  have f₂ : Frame r s₁ s₂ := hq.frame
  simp only [symlinkIn, heq, heq₂]
  have h₂ := h₁.frame f₂ hroomy fun p hp => hq.live (h₁.held p hp).1
  refine h₂.fillIn (c := some copy) (by rw [f₂.walk .root, hw₁]) (by rwa [f₂.reach]) hH (hq.live hl)
    rfl (fun p hp => ?_) hv hfree rfl
  obtain rfl := Option.some.inj hp
  rw [f₂.reach]
  exact ⟨fun hreach => hcopy (h₁.shape.live copy hreach), fun hc => hcopy (h₁.held copy hc).1⟩

end TypeOS.Fs
