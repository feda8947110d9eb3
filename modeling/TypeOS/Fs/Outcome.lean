import TypeOS.Fs.Expand
import TypeOS.Fs.Namespace

/-! What it means that a call on the tree succeeds or fails.

    A lookup that follows no symlink walks from name to name. `vfs_lookup_parent` takes the same way as
    long as there are entries, and makes a directory where there is none. So `vfs_mkdir` and
    `vfs_symlink` end where a lookup of the path arrives, and what a failed call leaves behind is what
    it made before it failed. -/

namespace TypeOS.Fs

/-- The path that a call is given. -/
def Call.path : Call → Text
  | .mkdir path _ => path
  | .create path _ _ => path
  | .symlink _ path => path

variable {s s' : Vfs} {r d p q current : Ptr} {heap : Heap} {l : List (Text × Text)}
  {path t name : Text}

/-! ### Lookups that follow nothing -/

theorem scan_cons_names (s : Vfs) (component cursor : Text) (l : List (Text × Text)) (current : Ptr) :
    scan s false ((component, cursor) :: l) current =
      if 256 ≤ component.length then .null
      else match s.child current component with
        | none => .null
        | some q => scan s false l q := by
  rw [scan_cons]
  cases s.child current component with
  | none => rfl
  | some q =>
    dsimp only
    cases (s.inodes q).node <;> rfl

/-- A lookup that follows nothing walks. -/
theorem scan_names : scan s false l current = .done q ↔
    (∀ x ∈ l, x.1.length ≤ 255) ∧ s.walk current (l.map Prod.fst) = some q := by
  induction l generalizing current with
  | nil => simp [scan, Vfs.walk]
  | cons x l ih =>
    obtain ⟨component, cursor⟩ := x
    rw [scan_cons_names, List.forall_mem_cons, List.map_cons, Vfs.walk]
    by_cases hlen : 256 ≤ component.length
    · rw [if_pos hlen]
      constructor
      · intro h
        cases h
      · rintro ⟨⟨hle, -⟩, -⟩
        simp only at hle
        omega
    · rw [if_neg hlen]
      cases hc : s.child current component with
      | none => simp
      | some p =>
        simp only [ih, Option.bind_some]
        constructor
        · rintro ⟨h, hw⟩
          exact ⟨⟨by omega, h⟩, hw⟩
        · rintro ⟨⟨-, h⟩, hw⟩
          exact ⟨h, hw⟩

theorem scan_no_link : ∀ {l : List (Text × Text)} {current : Ptr} (target cursor : Text),
    scan s false l current ≠ .link target cursor
  | [], _, _, _ => by simp [scan]
  | (component, cursor') :: l, current, target, cursor => by
    rw [scan_cons_names]
    split
    · simp
    · split
      · simp
      · exact scan_no_link target cursor

/-- A path that fits into `curpath` is looked up without following as it is walked. -/
theorem lookup_names (hr : s.root = some r) (hlen : path.length ≤ 511) (n : Nat) :
    vfsLookupPath (n + 1) s path false = some (some p) ↔ vfsIsAbsolute path = true ∧
      (∀ c ∈ components path, c.length ≤ 255) ∧ s.walk r (components path) = some p := by
  have hshort : (∀ c ∈ components path, c.length ≤ 255) ↔ ∀ x ∈ splitPath path, x.1.length ≤ 255 := by
    simp [components]
  rw [hshort, components, ← scan_names]
  unfold vfsLookupPath
  rw [hr]
  cases ha : vfsIsAbsolute path with
  | false => simp
  | true =>
    simp only [List.take_of_length_le hlen, restart, true_and]
    cases hs : scan s false (splitPath path) r with
    | null => simp
    | link target cursor => exact absurd hs (scan_no_link target cursor)
    | done current => cases (s.inodes current).node <;> simp

/-! ### Where a call puts its entry -/

/-- How far `vfs_lookup_parent` gets without making a directory: it fails, it meets a directory that is
    not there, or it knows the directory and the last name. -/
inductive Parent
  | null
  | missing
  | found (dir : Ptr) (name : Text)
  deriving DecidableEq

/-- What `vfs_lookup_parent` returns, unless it has to make a directory. -/
def Parent.place : Parent → Option (Ptr × Text)
  | .found dir name => some (dir, name)
  | _ => none

/-- The loop of `vfs_lookup_parent` up to there. -/
def findParent (s : Vfs) : List (Text × Text) → Ptr → Parent
  | [], current => .found current []
  | (component, cursor) :: l, current =>
    if 256 ≤ component.length then .null
    else if cursor = [] then .found current component
    else if s.type current ≠ .dir then .null
    else
      match vfsDirFind s current component component.length with
      | some entry => findParent s l entry.inode
      | none => .missing

/-- The start of `vfs_lookup_parent`. -/
def parentOf (s : Vfs) (path : Text) : Parent :=
  match vfsIsAbsolute path, s.root with
  | true, some root => findParent s (splitPath path) root
  | _, _ => .null

/-- When no directory is missing, nothing is made. -/
theorem lookupParentLoop_eq (h : findParent s l current ≠ .missing) :
    lookupParentLoop heap l current s = ((findParent s l current).place, s) := by
  induction l generalizing current with
  | nil => rfl
  | cons x l ih =>
    obtain ⟨component, cursor⟩ := x
    rw [findParent] at h ⊢
    rw [lookupParentLoop]
    by_cases hlen : 256 ≤ component.length
    · rw [if_pos hlen, if_pos hlen]
      rfl
    rw [if_neg hlen] at h
    rw [if_neg hlen, if_neg hlen]
    by_cases hcur : cursor = []
    · rw [if_pos hcur, if_pos hcur]
      rfl
    rw [if_neg hcur] at h
    rw [if_neg hcur, if_neg hcur]
    by_cases hdir : s.type current ≠ .dir
    · rw [if_pos hdir, if_pos hdir]
      rfl
    rw [if_neg hdir] at h
    rw [if_neg hdir, if_neg hdir]
    cases hf : vfsDirFind s current component component.length with
    | none => simp [hf] at h
    | some entry =>
      rw [hf] at h
      exact ih h

theorem vfsLookupParent_eq (h : parentOf s path ≠ .missing) :
    vfsLookupParent heap path s = ((parentOf s path).place, s) := by
  unfold vfsLookupParent
  unfold parentOf at h ⊢
  cases ha : vfsIsAbsolute path with
  | false => rfl
  | true =>
    cases hr : s.root with
    | none => rfl
    | some root =>
      rw [ha, hr] at h
      exact lookupParentLoop_eq h

/-- Where a walk arrives at an entry, its directory is found. -/
theorem findParent_of_walk (hl : splitPath t = l) (hne : l ≠ [])
    (hshort : ∀ x ∈ l, x.1.length ≤ 255) (hw : s.walk current (l.map Prod.fst) = some q) :
    ∃ d name, findParent s l current = .found d name ∧ name ≠ [] ∧ s.child d name = some q := by
  induction l generalizing current t with
  | nil => exact absurd rfl hne
  | cons x l ih =>
    obtain ⟨component, cursor⟩ := x
    obtain ⟨hname, -, hl', hlast⟩ := splitPath_eq_cons hl
    obtain ⟨p, hc, hw'⟩ := Option.bind_eq_some_iff.mp hw
    have hlen := hshort _ (List.mem_cons_self ..)
    rw [findParent, if_neg (by dsimp only at hlen; omega)]
    by_cases hcur : cursor = []
    · rw [if_pos hcur]
      refine ⟨current, component, rfl, hname, ?_⟩
      rw [hlast.mp hcur] at hw'
      rw [hc, Option.some.inj hw']
    · rw [if_neg hcur]
      obtain ⟨e, he, -, -⟩ := child_mem hc
      rw [if_neg (not_not.mpr (type_of_mem he))]
      rw [Vfs.child, ← vfsDirFind_eq] at hc
      obtain ⟨entry, hf, rfl⟩ := Option.map_eq_some_iff.mp hc
      rw [hf]
      exact ih hl'.symm (fun h => hcur (hlast.mpr h))
        (fun y hy => hshort y (List.mem_cons_of_mem _ hy)) hw'

/-- And the other way round. -/
theorem walk_of_findParent (hl : splitPath t = l) (h : findParent s l current = .found d name)
    (hne : name ≠ []) (hc : s.child d name = some q) :
    (∀ x ∈ l, x.1.length ≤ 255) ∧ s.walk current (l.map Prod.fst) = some q := by
  induction l generalizing current t with
  | nil =>
    rw [findParent, Parent.found.injEq] at h
    exact absurd h.2.symm hne
  | cons x l ih =>
    obtain ⟨component, cursor⟩ := x
    obtain ⟨-, -, hl', hlast⟩ := splitPath_eq_cons hl
    rw [findParent] at h
    split at h
    · cases h
    next hlen =>
    have hle : component.length ≤ 255 := by omega
    rw [List.forall_mem_cons, List.map_cons, Vfs.walk]
    split at h
    · next hcur =>
      obtain ⟨rfl, rfl⟩ := Parent.found.inj h
      rw [hlast.mp hcur, hc]
      exact ⟨⟨hle, by simp⟩, rfl⟩
    split at h
    · cases h
    split at h
    · next entry hf =>
      have hchild : s.child current component = some entry.inode := by
        rw [Vfs.child, ← vfsDirFind_eq, hf]
        rfl
      obtain ⟨hrest, hw⟩ := ih hl'.symm h
      rw [hchild]
      exact ⟨⟨hle, hrest⟩, hw⟩
    · cases h

theorem vfsDirFind_of_empty (h : s.entries p = []) (name : Text) :
    vfsDirFind s p name name.length = none := by
  rw [vfsDirFind_eq, h]
  rfl

/-- A turn that makes a directory goes on in it, and it is empty. -/
theorem lookupParentLoop_made {component cursor : Text} (h : Shape s r) (hc : Reach s r current)
    (hname : ValidName component) (hf : vfsDirFind s current component component.length = none)
    (hcur : cursor ≠ []) (hdir : s.type current = .dir)
    (hres : lookupParentLoop heap ((component, cursor) :: l) current s = (some (d, name), s')) :
    ∃ next s₂, lookupParentLoop heap l next s₂ = (some (d, name), s') ∧ Shape s₂ r ∧
      Reach s₂ r next ∧ s₂.entries next = [] := by
  have hlen := hname.length_le
  rw [lookupParentLoop, if_neg (by omega), if_neg hcur, if_neg (not_not.mpr hdir), hf] at hres
  dsimp only at hres
  rcases vfsInodeNew_cases h heap (.dir []) (sIfdir ||| 0o755#32) with
    ⟨s₁, heq, -⟩ | ⟨next, s₁, heq, f, hn, hlive, hin⟩
  · simp [heq] at hres
  · rw [heq] at hres
    dsimp only at hres
    have hleaf : s₁.entries next = [] := entries_dir (by rw [hin])
    rcases @Shape.dirAdd s₁ r current next heap component (h.frame f) (f.reach.mpr hc)
      (by rwa [f.reach]) hleaf hlive hname with ⟨s₂, heq₂, -⟩ | ⟨s₂, heq₂, e, hreach, -, hsame⟩
    · simp [heq₂] at hres
    · rw [heq₂] at hres
      refine ⟨next, s₂, hres, e.shape, hreach, ?_⟩
      rw [Vfs.entries, hsame]
      exact hleaf

/-- In an empty directory the loop makes all the others, and the last one is empty. -/
theorem lookupParentLoop_empty (hl : splitPath t = l) (h : Shape s r) (hc : Reach s r current)
    (hempty : s.entries current = [])
    (hres : lookupParentLoop heap l current s = (some (d, name), s')) : s'.entries d = [] := by
  induction l generalizing s current t with
  | nil =>
    obtain ⟨hd, rfl⟩ := Prod.mk.inj hres
    rw [Option.some.injEq, Prod.mk.injEq] at hd
    rwa [← hd.1]
  | cons x l ih =>
    obtain ⟨component, cursor⟩ := x
    obtain ⟨hne, hslash, hl', -⟩ := splitPath_eq_cons hl
    by_cases hlen : 256 ≤ component.length
    · simp [lookupParentLoop, hlen] at hres
    by_cases hcur : cursor = []
    · rw [lookupParentLoop, if_neg hlen, if_pos hcur] at hres
      obtain ⟨hd, rfl⟩ := Prod.mk.inj hres
      rw [Option.some.injEq, Prod.mk.injEq] at hd
      rwa [← hd.1]
    by_cases hdir : s.type current = .dir
    · obtain ⟨next, s₂, hres', h₂, hreach, hempty₂⟩ := lookupParentLoop_made h hc
        ⟨hne, by omega, hslash⟩ (vfsDirFind_of_empty hempty component) hcur hdir hres
      exact ih hl'.symm h₂ hreach hempty₂ hres'
    · simp [lookupParentLoop, hlen, hcur, hdir] at hres

/-- Where a directory was missing, the entry belongs into an empty one. -/
theorem lookupParentLoop_missing (hl : splitPath t = l) (h : Shape s r) (hc : Reach s r current)
    (hm : findParent s l current = .missing)
    (hres : lookupParentLoop heap l current s = (some (d, name), s')) : s'.entries d = [] := by
  induction l generalizing current t with
  | nil => cases hm
  | cons x l ih =>
    obtain ⟨component, cursor⟩ := x
    obtain ⟨hne, hslash, hl', -⟩ := splitPath_eq_cons hl
    rw [findParent] at hm
    split at hm
    · cases hm
    next hlen =>
    split at hm
    · cases hm
    next hcur =>
    split at hm
    · cases hm
    next hdir =>
    have hdir := not_not.mp hdir
    split at hm
    · next entry hf =>
      have hchild : s.child current component = some entry.inode := by
        rw [Vfs.child, ← vfsDirFind_eq, hf]
        rfl
      rw [lookupParentLoop, if_neg hlen, if_neg hcur, if_neg (not_not.mpr hdir), hf] at hres
      exact ih hl'.symm (hc.child hchild) hm hres
    · next hf =>
      obtain ⟨next, s₂, hres', h₂, hreach, hempty⟩ := lookupParentLoop_made h hc
        ⟨hne, by omega, hslash⟩ hf hcur hdir hres
      exact lookupParentLoop_empty hl'.symm h₂ hreach hempty hres'

/-! ### What success says -/

/-- Where a call has created something, a lookup arrives. -/
theorem Created.lookup {inode : Inode} (h : Created r path inode s) (hr : s.root = some r)
    (hlen : path.length ≤ 511) : ∃ p, (∀ n, vfsLookupPath (n + 1) s path false = some (some p)) ∧
      s.inodes p = inode := by
  obtain ⟨p, hw, hp⟩ := h.there
  exact ⟨p, fun n => (lookup_names hr hlen n).mpr ⟨h.absolute, h.short, hw⟩, hp⟩

/-- A call of `vfs_mkdir` on what a path leads to already. -/
theorem vfsMkdir_present {mode : BitVec 32} (hr : s.root = some r) (ha : vfsIsAbsolute path = true)
    (hshort : ∀ c ∈ components path, c.length ≤ 255) (hne : components path ≠ [])
    (hw : s.walk r (components path) = some p) : vfsMkdir heap path mode s = (0, s) := by
  obtain ⟨d, name, hf, hname, hchild⟩ := findParent_of_walk (t := path) rfl
    (fun h => hne (by rw [components, h]; rfl))
    (fun x hx => hshort x.1 (List.mem_map_of_mem hx)) hw
  have hpar : parentOf s path = .found d name := by
    rw [parentOf, ha, hr]
    exact hf
  have hfind : (vfsDirFind s d name name.length).isSome = true := by
    rw [vfsDirFind_eq, ← Option.isSome_map (f := Dentry.inode)]
    exact Option.isSome_of_eq_some hchild
  rw [vfsMkdir, vfsLookupParent_eq (by rw [hpar]; simp), hpar]
  dsimp only [Parent.place]
  rw [if_neg hname, if_pos hfind]

/-- A call of `vfs_mkdir` that returns 0 made a directory, or there was something before. -/
theorem vfsMkdir_zero {mode : BitVec 32} (hs : Shape s r) (hr : s.root = some r)
    (h : (vfsMkdir heap path mode s).1 = 0) :
    Created r path ⟨mode, 0, .dir []⟩ (vfsMkdir heap path mode s).2 ∨
      (vfsMkdir heap path mode s).2 = s ∧ vfsIsAbsolute path = true ∧
        (∀ c ∈ components path, c.length ≤ 255) ∧ ∃ p, s.walk r (components path) = some p := by
  rcases (vfsMkdir_spec hs hr).2 h with ⟨d, name, hres, hne, hsome⟩ | hmade
  · right
    obtain ⟨q, hchild⟩ := Option.isSome_iff_exists.mp hsome
    have ha : vfsIsAbsolute path = true := ((vfsLookupParent_spec hs hr).2 d name (by rw [hres])).1
    have hfind : parentOf s path = findParent s (splitPath path) r := by
      rw [parentOf, ha, hr]
    have hloop : vfsLookupParent heap path s = lookupParentLoop heap (splitPath path) r s := by
      rw [vfsLookupParent, ha, hr]
    by_cases hm : parentOf s path = .missing
    · -- then the entry would be in an empty directory
      rw [hfind] at hm
      rw [hloop] at hres
      have hempty := lookupParentLoop_missing rfl hs .root hm hres
      obtain ⟨e, he, -⟩ := child_mem hchild
      rw [hempty] at he
      cases he
    · rw [vfsLookupParent_eq hm] at hres
      obtain ⟨hplace, hsame⟩ := Prod.mk.inj hres
      rw [← hsame] at hchild ⊢
      have hfound : findParent s (splitPath path) r = .found d name := by
        rw [← hfind]
        cases hp : parentOf s path with
        | null => simp [hp, Parent.place] at hplace
        | missing => exact absurd hp hm
        | found d' name' =>
          rw [hp, Parent.place, Option.some.injEq, Prod.mk.injEq] at hplace
          rw [hplace.1, hplace.2]
      obtain ⟨hshort, hw⟩ := walk_of_findParent rfl hfound hne hchild
      refine ⟨rfl, ha, fun c hc => ?_, q, hw⟩
      obtain ⟨x, hx, rfl⟩ := List.mem_map.mp hc
      exact hshort x hx
  · exact Or.inl hmade

/-- What success promises: after `vfs_mkdir` a directory under the path, after `vfs_symlink` a link that
    reads as the target, cut to the buffer. -/
structure Delivers (heap : Heap) (path : Text) (mode : BitVec 32) (target : Text) (s : Vfs) : Prop where
  mkdir : (vfsMkdir heap path mode s).1 = 0 →
    ∃ p, (∀ n, vfsLookupPath (n + 1) (vfsMkdir heap path mode s).2 path false = some (some p)) ∧
      (vfsMkdir heap path mode s).2.type p = .dir
  symlink : (vfsSymlink heap target path s).1 = 0 →
    ∃ p, (∀ n, vfsLookupPath (n + 1) (vfsSymlink heap target path s).2 path false =
        some (some p)) ∧
      ∀ bufsz, 0 < bufsz → vfsReadlink (some p) bufsz (vfsSymlink heap target path s).2 =
        (((min target.length (bufsz - 1) : Nat) : Int), target.take (min target.length (bufsz - 1)))

theorem vfsReadlink_link {mode : BitVec 32} {size : Nat} {target : Text}
    (hp : s.inodes p = ⟨mode, size, .symlink target⟩) {bufsz : Nat} (hb : 0 < bufsz) :
    vfsReadlink (some p) bufsz s =
      (((min target.length (bufsz - 1) : Nat) : Int), target.take (min target.length (bufsz - 1))) := by
  have hlen : (if bufsz ≤ target.length then bufsz - 1 else target.length) =
      min target.length (bufsz - 1) := by
    split <;> omega
  simp only [vfsReadlink, hp]
  rw [if_neg (by omega), hlen]

/-- What was under the path before is a directory when the calls keep their promise: `vfs_mkdir` leaves
    it there. -/
theorem Delivers.dir (h : Delivers heap path mode target s) (hb : Built s) (hlen : path.length ≤ 511)
    (hp : vfsLookupPath 1 s path false = some (some p)) : s.type p = .dir := by
  obtain ⟨r, hr, hs⟩ := hb.shape
  obtain ⟨ha, hshort, hw⟩ := (lookup_names hr hlen 0).mp hp
  by_cases hne : components path = []
  · rw [hne] at hw
    rw [← Option.some.inj hw]
    exact hs.rootDir
  · have hcall : vfsMkdir heap path mode s = (0, s) := vfsMkdir_present hr ha hshort hne hw
    obtain ⟨q, hq, htype⟩ := h.mkdir (by rw [hcall])
    rw [hcall] at hq htype
    rw [Option.some.inj (Option.some.inj (hp.symm.trans (hq 0)))]
    exact htype

/-- The calls keep their promise if and only if the path did not lead to something else than a directory
    before. -/
theorem mkdir_symlink_deliver_iff (hb : Built s) (hlen : path.length ≤ 511) (heap : Heap)
    (mode : BitVec 32) (target : Text) : Delivers heap path mode target s ↔
      ∀ p, vfsLookupPath 1 s path false = some (some p) → s.type p = .dir := by
  obtain ⟨r, hr, hs⟩ := hb.shape
  constructor
  · exact fun h p hp => h.dir hb hlen hp
  · refine fun hdir => ⟨fun h => ?_, fun h => ?_⟩
    · have e := (@vfsMkdir_spec s r heap path mode hs hr).1
      rcases vfsMkdir_zero hs hr h with hmade | ⟨hsame, ha, hshort, p, hw⟩
      · obtain ⟨p, hp, hin⟩ := hmade.lookup (e.grows.root.trans hr) hlen
        refine ⟨p, hp, ?_⟩
        rw [Vfs.type, hin]
        rfl
      · have hp := fun n => (lookup_names hr hlen n).mpr ⟨ha, hshort, hw⟩
        rw [hsame]
        exact ⟨p, hp, hdir p (hp 0)⟩
    · obtain ⟨e, hmade⟩ := @vfsSymlink_spec s r heap target path hs hr
      obtain ⟨p, hp, hin⟩ := (hmade h).lookup (e.grows.root.trans hr) hlen
      exact ⟨p, hp, fun bufsz hb => vfsReadlink_link hin hb⟩

theorem mkdir_symlink_deliver_empty : Delivers rising [slash, letter 0] 0 [slash] emptyVfs :=
  (mkdir_symlink_deliver_iff emptyVfs_built (by decide) rising 0 [slash]).mpr fun p hp => by
    have hnone : vfsLookupPath 1 emptyVfs [slash, letter 0] false = some none := by decide
    rw [hnone] at hp
    cases hp

/-- A tree with a file. -/
def oneFile : Vfs := (vfsCreate rising [slash, letter 0] 0 [] emptyVfs).2

/-- `vfs_mkdir` of a file returns 0. -/
theorem mkdir_of_file : ¬ ∀ s path heap mode target, Built s → path.length ≤ 511 →
    Delivers heap path mode target s := by
  intro h
  have hb : Built oneFile := .call rising (.create [slash, letter 0] 0 []) emptyVfs_built
  have hdir := (h oneFile [slash, letter 0] rising 0 [slash] hb (by decide)).dir (p := 1) hb (by decide)
    (by decide)
  exact absurd hdir (by decide)

/-! ### What failure leaves behind -/

/-- Nothing shows that a call was made. -/
structure Restored (r : Ptr) (s s' : Vfs) : Prop where
  view : s'.view r = s.view r
  live : s'.live = s.live

/-- The tree is as it was, and beyond what was allocated the blocks in `A` are. -/
structure Holds (r : Ptr) (s s' : Vfs) (A : Finset Ptr) : Prop where
  root : s'.root = s.root
  inodes : ∀ p, Reach s r p → s'.inodes p = s.inodes p
  live : s'.live = s.live ∪ A
  fresh : ∀ p ∈ A, p ∉ s.live

variable {A : Finset Ptr} {n : Ptr} {s'' : Vfs}

theorem Holds.refl (r : Ptr) (s : Vfs) : Holds r s s ∅ := ⟨rfl, fun _ _ => rfl, by simp, by simp⟩

theorem Holds.restored (h : Holds r s s' ∅) : Restored r s s' := by
  have hlive : s'.live = s.live := by rw [h.live, Finset.union_empty]
  have f : Frame r s s' := ⟨h.root, h.inodes, fun p _ hl => hlive ▸ hl⟩
  exact ⟨f.view, hlive⟩

theorem Holds.not_restored (h : Holds r s s' A) (hn : n ∈ A) : ¬ Restored r s s' := by
  intro hr
  refine h.fresh n hn ?_
  rw [← hr.live, h.live]
  exact Finset.mem_union_right _ hn

theorem Holds.refused (h : Holds r s s' A) (hm : kmalloc heap s' = (none, s'')) : Holds r s s'' A := by
  unfold kmalloc at hm
  split at hm
  · obtain ⟨-, rfl⟩ := Prod.mk.inj hm
    exact ⟨h.root, h.inodes, h.live, h.fresh⟩
  · split at hm
    · obtain ⟨-, rfl⟩ := Prod.mk.inj hm
      exact ⟨h.root, h.inodes, h.live, h.fresh⟩
    · simp at hm

theorem Holds.granted (h : Holds r s s' A) (hm : kmalloc heap s' = (some n, s'')) :
    n ∉ A ∧ Holds r s s'' (insert n A) := by
  unfold kmalloc at hm
  split at hm
  · simp at hm
  · split at hm
    · simp at hm
    · next hl =>
      obtain ⟨hn, rfl⟩ := Prod.mk.inj hm
      obtain rfl := Option.some.inj hn
      rw [h.live, Finset.mem_union, not_or] at hl
      refine ⟨hl.2, h.root, h.inodes, ?_, ?_⟩
      · simp only [h.live, Finset.union_insert]
      · intro p hp
        rcases Finset.mem_insert.mp hp with rfl | hp
        · exact hl.1
        · exact h.fresh p hp

theorem Holds.kfree (h : Holds r s s' A) (hn : n ∈ A) : Holds r s (kfree n s') (A.erase n) where
  root := h.root
  inodes := h.inodes
  live := by
    rw [Fs.kfree, h.live, Finset.erase_union_distrib, Finset.erase_eq_of_notMem (h.fresh n hn)]
  fresh p hp := h.fresh p (Finset.mem_of_mem_erase hp)

theorem Holds.setInode (hs : Shape s r) (h : Holds r s s' A) (hn : n ∈ A) (inode : Inode) :
    Holds r s (s'.setInode n inode) A where
  root := h.root
  inodes p hp := by
    have hne : p ≠ n := by
      rintro rfl
      exact h.fresh p hn (hs.live p hp)
    exact (Function.update_of_ne hne ..).trans (h.inodes p hp)
  live := h.live
  fresh := h.fresh

/-- An entry that is not made gives its block back. -/
theorem Holds.dirAdd {result : Int} (h : Holds r s s' A)
    (ha : vfsDirAdd heap d name n s' = (result, s'')) (hres : result ≠ 0) : Holds r s s'' A := by
  unfold vfsDirAdd at ha
  split at ha
  · split at ha
    · obtain ⟨-, rfl⟩ := Prod.mk.inj ha
      exact h
    · rcases hm : Fs.kmalloc heap s' with ⟨_ | entry, s₁⟩
      · rw [hm] at ha
        obtain ⟨-, rfl⟩ := Prod.mk.inj ha
        exact h.refused hm
      · obtain ⟨hnew, h₁⟩ := h.granted hm
        rw [hm] at ha
        dsimp only at ha
        rcases hm₂ : Fs.kmalloc heap s₁ with ⟨_ | copy, s₂⟩
        · rw [hm₂] at ha
          obtain ⟨-, rfl⟩ := Prod.mk.inj ha
          have h₂ := (h₁.refused hm₂).kfree (Finset.mem_insert_self ..)
          rwa [Finset.erase_insert hnew] at h₂
        · rw [hm₂] at ha
          exact absurd (Prod.mk.inj ha).1.symm hres
  · obtain ⟨-, rfl⟩ := Prod.mk.inj ha
    exact h

/-- A new inode is held. -/
theorem Holds.inodeNew (hs : Shape s r) (h : Holds r s s' A) {node : Node} {mode : BitVec 32}
    {found : Option Ptr} (hn : vfsInodeNew heap node mode s' = (found, s'')) :
    found = (kmalloc heap s').1 ∧ match found with
      | none => Holds r s s'' A
      | some n => n ∉ A ∧ Holds r s s'' (insert n A) := by
  unfold vfsInodeNew at hn
  rcases hm : Fs.kmalloc heap s' with ⟨_ | n, s₁⟩
  · rw [hm] at hn
    obtain ⟨rfl, rfl⟩ := Prod.mk.inj hn
    exact ⟨rfl, h.refused hm⟩
  · rw [hm] at hn
    obtain ⟨rfl, rfl⟩ := Prod.mk.inj hn
    obtain ⟨hnew, h₁⟩ := h.granted hm
    exact ⟨rfl, hnew, h₁.setInode hs (Finset.mem_insert_self ..) _⟩

variable {s₁ : Vfs} {mode : BitVec 32}

theorem Call.run_null {c : Call} (h : vfsLookupParent heap c.path s = (none, s₁)) :
    c.run heap s = (-1, s₁) := by
  cases c with
  | mkdir path mode => rw [Call.run, vfsMkdir, show vfsLookupParent heap path s = _ from h]
  | create path mode data => rw [Call.run, vfsCreate, show vfsLookupParent heap path s = _ from h]
  | symlink target path => rw [Call.run, vfsSymlink, show vfsLookupParent heap path s = _ from h]

/-- The inode of a directory that cannot be entered is kept. -/
theorem vfsMkdir_failed (hs : Shape s₁ r) (hp : vfsLookupParent heap path s = (some (d, name), s₁))
    (hfail : (vfsMkdir heap path mode s).1 = -1) :
    (name = [] ∨ (Fs.kmalloc heap s₁).1 = none) ∧ Holds r s₁ (vfsMkdir heap path mode s).2 ∅ ∨
      name ≠ [] ∧ vfsDirFind s₁ d name name.length = none ∧
        ∃ n, (Fs.kmalloc heap s₁).1 = some n ∧ Holds r s₁ (vfsMkdir heap path mode s).2 {n} := by
  unfold vfsMkdir at hfail ⊢
  rw [hp] at hfail ⊢
  dsimp only at hfail ⊢
  by_cases hname : name = []
  · rw [if_pos hname]
    exact Or.inl ⟨Or.inl hname, .refl r s₁⟩
  rw [if_neg hname] at hfail ⊢
  by_cases hf : (vfsDirFind s₁ d name name.length).isSome = true
  · rw [if_pos hf] at hfail
    simp at hfail
  rw [if_neg hf] at hfail ⊢
  rcases hn : vfsInodeNew heap (.dir []) mode s₁ with ⟨_ | n, s₂⟩
  · obtain ⟨hnone, h⟩ := (Holds.refl r s₁).inodeNew hs hn
    exact Or.inl ⟨Or.inr hnone.symm, h⟩
  · obtain ⟨hsome, -, h⟩ := (Holds.refl r s₁).inodeNew hs hn
    rw [hn] at hfail
    dsimp only at hfail ⊢
    rw [Bool.not_eq_true, Option.isSome_eq_false_iff, Option.isNone_iff_eq_none] at hf
    have hne : (vfsDirAdd heap d name n s₂).1 ≠ 0 := by
      rw [hfail]
      decide
    exact Or.inr ⟨hname, hf, n, hsome.symm, h.dirAdd Prod.mk.eta.symm hne⟩

/-- What the inode of a file or a symlink takes, its block for the data or the target included. -/
def taken (n : Ptr) : Option Ptr → Finset Ptr
  | none => {n}
  | some copy => {copy, n}

/-- The end of `vfs_create` and `vfs_symlink`: an inode that is not entered is given back with its
    copy. -/
theorem Holds.entered {copy : Option Ptr} (hs : Shape s r) (h : Holds r s s' (taken n copy))
    (hnew : ∀ c, copy = some c → c ≠ n) (inode : Inode) {res : Int × Vfs}
    (hres : res = match vfsDirAdd heap d name n (s'.setInode n inode) with
      | (0, s) => (0, s)
      | (_, s) => (-1, Fs.kfree n (kfreeIf copy s))) (hfail : res.1 = -1) : Holds r s res.2 ∅ := by
  have hn : n ∈ taken n copy := by
    cases copy <;> simp [taken]
  have h₁ := h.setInode hs hn inode
  rcases ha : vfsDirAdd heap d name n (s'.setInode n inode) with ⟨result, s₂⟩
  rw [ha] at hres
  by_cases h0 : result = 0
  · rw [h0] at hres
    rw [hres] at hfail
    simp at hfail
  · have hback : res = (-1, Fs.kfree n (kfreeIf copy s₂)) := by
      rw [hres]
      split
      · next heq => exact absurd (Prod.mk.inj heq).1 h0
      · next heq =>
        rw [← (Prod.mk.inj heq).2]
    have h₂ := h₁.dirAdd ha h0
    rw [hback]
    cases copy with
    | none =>
      have h₃ := h₂.kfree (n := n) (by simp [taken])
      rwa [taken, Finset.erase_singleton] at h₃
    | some c =>
      have hne := hnew c rfl
      have h₃ := (h₂.kfree (n := c) (by simp [taken])).kfree (n := n) (by simp [taken, hne.symm])
      rwa [taken, Finset.erase_insert (by simpa using hne), Finset.erase_singleton] at h₃

theorem vfsCreate_failed {data : List UInt8} (hs : Shape s₁ r)
    (hp : vfsLookupParent heap path s = (some (d, name), s₁))
    (hfail : (vfsCreate heap path mode data s).1 = -1) :
    Holds r s₁ (vfsCreate heap path mode data s).2 ∅ := by
  unfold vfsCreate at hfail ⊢
  rw [hp] at hfail ⊢
  dsimp only at hfail ⊢
  by_cases hname : name = []
  · rw [if_pos hname]
    exact .refl r s₁
  rw [if_neg hname] at hfail ⊢
  by_cases hf : (vfsDirFind s₁ d name name.length).isSome = true
  · rw [if_pos hf]
    exact .refl r s₁
  rw [if_neg hf] at hfail ⊢
  rcases hn : vfsInodeNew heap (.file []) mode s₁ with ⟨_ | n, s₂⟩
  · exact ((Holds.refl r s₁).inodeNew hs hn).2
  obtain ⟨-, -, h₂⟩ := (Holds.refl r s₁).inodeNew hs hn
  rw [hn] at hfail
  dsimp only at hfail ⊢
  unfold copyData at hfail ⊢
  by_cases hdata : data.length = 0
  · rw [if_pos hdata] at hfail ⊢
    have h₃ : Holds r s₁ s₂ (taken n none) := h₂
    exact h₃.entered hs (by simp) _ rfl hfail
  · rw [if_neg hdata] at hfail ⊢
    rcases hm : Fs.kmalloc heap s₂ with ⟨_ | copy, s₃⟩
    · have h₃ := (h₂.refused hm).kfree (Finset.mem_insert_self ..)
      rwa [Finset.erase_insert (by simp)] at h₃
    · obtain ⟨hne, h₃⟩ := h₂.granted hm
      have h₄ : Holds r s₁ s₃ (taken n (some copy)) := h₃
      rw [hm] at hfail
      exact h₄.entered hs (by simpa using hne) _ rfl hfail

theorem vfsSymlink_failed {target : Text} (hs : Shape s₁ r)
    (hp : vfsLookupParent heap path s = (some (d, name), s₁))
    (hfail : (vfsSymlink heap target path s).1 = -1) :
    Holds r s₁ (vfsSymlink heap target path s).2 ∅ := by
  unfold vfsSymlink at hfail ⊢
  rw [hp] at hfail ⊢
  dsimp only at hfail ⊢
  by_cases hname : name = []
  · rw [if_pos hname]
    exact .refl r s₁
  rw [if_neg hname] at hfail ⊢
  by_cases hf : (vfsDirFind s₁ d name name.length).isSome = true
  · rw [if_pos hf]
    exact .refl r s₁
  rw [if_neg hf] at hfail ⊢
  rcases hn : vfsInodeNew heap (.symlink []) (sIflnk ||| 0o777#32) s₁ with ⟨_ | n, s₂⟩
  · exact ((Holds.refl r s₁).inodeNew hs hn).2
  obtain ⟨-, -, h₂⟩ := (Holds.refl r s₁).inodeNew hs hn
  rw [hn] at hfail
  dsimp only at hfail ⊢
  rcases hm : Fs.kmalloc heap s₂ with ⟨_ | copy, s₃⟩
  · have h₃ := (h₂.refused hm).kfree (Finset.mem_insert_self ..)
    rwa [Finset.erase_insert (by simp)] at h₃
  · obtain ⟨hne, h₃⟩ := h₂.granted hm
    have h₄ : Holds r s₁ s₃ (taken n (some copy)) := h₃
    rw [hm] at hfail
    exact h₄.entered hs (by simpa using hne) _ rfl hfail

/-! ### Directories made on the way -/

theorem vfsDirAdd_live (heap : Heap) (d n : Ptr) (name : Text) (s : Vfs) :
    s.live ⊆ (vfsDirAdd heap d name n s).2.live := by
  rcases vfsDirAdd_cases heap d n name s with ⟨s', heq, hq⟩ | ⟨s', heq, hq, -⟩
  · rw [heq]
    exact hq.live
  · rw [heq]
    exact hq.live

theorem kmalloc_live (heap : Heap) (s : Vfs) : s.live ⊆ (Fs.kmalloc heap s).2.live := by
  rcases kmalloc_cases heap s with ⟨s', heq, hq⟩ | ⟨p, s', heq, -, -, hq, -⟩
  · rw [heq]
    exact hq.live
  · rw [heq]
    exact hq.live

theorem vfsInodeNew_live (heap : Heap) (node : Node) (mode : BitVec 32) (s : Vfs) :
    (vfsInodeNew heap node mode s).2.live = (Fs.kmalloc heap s).2.live := by
  unfold vfsInodeNew
  rcases Fs.kmalloc heap s with ⟨_ | p, s'⟩
  · rfl
  · rfl

/-- What is allocated while directories are made stays allocated. -/
theorem lookupParentLoop_live (heap : Heap) : ∀ (l : List (Text × Text)) (current : Ptr) (s : Vfs),
    s.live ⊆ (lookupParentLoop heap l current s).2.live ∧
      (findParent s l current = .missing →
        (Fs.kmalloc heap s).2.live ⊆ (lookupParentLoop heap l current s).2.live)
  | [], _, _ => ⟨Finset.Subset.refl _, fun h => by cases h⟩
  | (component, cursor) :: l, current, s => by
    rw [lookupParentLoop, findParent]
    by_cases hlen : 256 ≤ component.length
    · rw [if_pos hlen, if_pos hlen]
      exact ⟨Finset.Subset.refl _, fun h => by cases h⟩
    rw [if_neg hlen, if_neg hlen]
    by_cases hcur : cursor = []
    · rw [if_pos hcur, if_pos hcur]
      exact ⟨Finset.Subset.refl _, fun h => by cases h⟩
    rw [if_neg hcur, if_neg hcur]
    by_cases hdir : s.type current ≠ .dir
    · rw [if_pos hdir, if_pos hdir]
      exact ⟨Finset.Subset.refl _, fun h => by cases h⟩
    rw [if_neg hdir, if_neg hdir]
    cases hf : vfsDirFind s current component component.length with
    | some entry => exact lookupParentLoop_live heap l entry.inode s
    | none =>
      have hnew := vfsInodeNew_live heap (.dir []) (sIfdir ||| 0o755#32) s
      rw [← hnew]
      have hstart : s.live ⊆ (vfsInodeNew heap (.dir []) (sIfdir ||| 0o755#32) s).2.live :=
        hnew ▸ kmalloc_live heap s
      suffices hmade : (vfsInodeNew heap (.dir []) (sIfdir ||| 0o755#32) s).2.live ⊆ _ from
        ⟨hstart.trans hmade, fun _ => hmade⟩
      rcases hn : vfsInodeNew heap (.dir []) (sIfdir ||| 0o755#32) s with ⟨_ | next, s₁⟩
      · exact Finset.Subset.refl _
      · have hadd := vfsDirAdd_live heap current next component s₁
        rcases ha : vfsDirAdd heap current component next s₁ with ⟨result, s₂⟩
        rw [ha] at hadd
        dsimp only
        rw [ha]
        split
        · next heq =>
          obtain ⟨-, rfl⟩ := Prod.mk.inj heq
          exact hadd.trans (lookupParentLoop_live heap l next _).1
        · next heq =>
          obtain ⟨-, rfl⟩ := Prod.mk.inj heq
          exact hadd

/-- The first directory that is missing is not made when there is no memory for it. -/
theorem lookupParentLoop_refused (hm : findParent s l current = .missing)
    (hnone : Fs.kmalloc heap s = (none, s₁)) : lookupParentLoop heap l current s = (none, s₁) := by
  induction l generalizing current with
  | nil => cases hm
  | cons x l ih =>
    obtain ⟨component, cursor⟩ := x
    rw [findParent] at hm
    rw [lookupParentLoop]
    split at hm
    · cases hm
    next hlen =>
    rw [if_neg hlen]
    split at hm
    · cases hm
    next hcur =>
    rw [if_neg hcur]
    split at hm
    · cases hm
    next hdir =>
    rw [if_neg hdir]
    cases hf : vfsDirFind s current component component.length with
    | some entry =>
      rw [hf] at hm
      exact ih hm
    | none =>
      have hn : vfsInodeNew heap (.dir []) (sIfdir ||| 0o755#32) s = (none, s₁) := by
        rw [vfsInodeNew, hnone]
      simp only [hn]

/-- The call has to make a directory: one that is missing on the way, or the one it is for. -/
def Call.Begins (c : Call) (s : Vfs) : Prop :=
  parentOf s c.path = .missing ∨
    ∃ path mode d name, c = .mkdir path mode ∧ parentOf s path = .found d name ∧ name ≠ [] ∧
      vfsDirFind s d name name.length = none

/-- What a failed call holds once the place for its entry is known: the inode of a directory that could
    not be entered. -/
theorem Call.failed {c : Call} (hs : Shape s₁ r)
    (hp : vfsLookupParent heap c.path s = (some (d, name), s₁)) (hfail : (c.run heap s).1 = -1) :
    Holds r s₁ (c.run heap s).2 ∅ ∧ (∀ path mode, c = .mkdir path mode → name ≠ [] →
        vfsDirFind s₁ d name name.length = none → (Fs.kmalloc heap s₁).1 = none) ∨
      ∃ path mode n, c = .mkdir path mode ∧ name ≠ [] ∧ vfsDirFind s₁ d name name.length = none ∧
        (Fs.kmalloc heap s₁).1 = some n ∧ Holds r s₁ (c.run heap s).2 {n} := by
  cases c with
  | mkdir path mode =>
    rcases vfsMkdir_failed hs hp hfail with ⟨hnone, h⟩ | ⟨hname, hf, n, hn, h⟩
    · exact Or.inl ⟨h, fun _ _ _ hname _ => hnone.resolve_left hname⟩
    · exact Or.inr ⟨path, mode, n, rfl, hname, hf, hn, h⟩
  | create path mode data => exact Or.inl ⟨vfsCreate_failed hs hp hfail, by simp⟩
  | symlink target path => exact Or.inl ⟨vfsSymlink_failed hs hp hfail, by simp⟩

/-- A block that the search for the place has taken is there after the call. -/
theorem Call.live_of_failed {c : Call} (hs : Shape s r) (hr : s.root = some r)
    (hfail : (c.run heap s).1 = -1) :
    (vfsLookupParent heap c.path s).2.live ⊆ (c.run heap s).2.live := by
  have hshape := (@vfsLookupParent_spec s r heap c.path hs hr).1.shape
  rcases hp : vfsLookupParent heap c.path s with ⟨_ | ⟨d, name⟩, s₁⟩
  · rw [Call.run_null hp]
  · rw [hp] at hshape
    have hlive : ∀ A, Holds r s₁ (c.run heap s).2 A → s₁.live ⊆ (c.run heap s).2.live := by
      intro A h
      rw [h.live]
      exact Finset.subset_union_left
    rcases Call.failed hshape hp hfail with ⟨h, -⟩ | ⟨_, _, n, -, -, -, -, h⟩
    · exact hlive ∅ h
    · exact hlive {n} h

theorem parentOf_missing (hr : s.root = some r) (hm : parentOf s path = .missing) :
    findParent s (splitPath path) r = .missing ∧
      vfsLookupParent heap path s = lookupParentLoop heap (splitPath path) r s := by
  have ha : vfsIsAbsolute path = true := by
    cases ha : vfsIsAbsolute path with
    | false => simp [parentOf, ha] at hm
    | true => rfl
  refine ⟨?_, ?_⟩
  · rw [← hm, parentOf, ha, hr]
  · rw [vfsLookupParent, ha, hr]

/-- The first directory that the way needed is still there after the call. -/
theorem Call.not_restored {c : Call} (hs : Shape s r) (hr : s.root = some r)
    (hfail : (c.run heap s).1 = -1) (hm : parentOf s c.path = .missing)
    (hk : (Fs.kmalloc heap s).1.isSome = true) : ¬ Restored r s (c.run heap s).2 := by
  obtain ⟨hloop, hlookup⟩ := @parentOf_missing _ _ heap _ hr hm
  rcases hk' : Fs.kmalloc heap s with ⟨_ | p, s₁⟩
  · rw [hk'] at hk
    cases hk
  · obtain ⟨-, hp⟩ := (Holds.refl r s).granted hk'
    have hin : p ∈ (c.run heap s).2.live := by
      refine Call.live_of_failed hs hr hfail ?_
      rw [hlookup]
      refine (lookupParentLoop_live heap (splitPath c.path) r s).2 hloop ?_
      rw [hk', hp.live]
      simp
    intro hrest
    rw [hrest.live] at hin
    exact hp.fresh p (Finset.mem_insert_self ..) hin

/-- A failed call leaves nothing behind if and only if it had no directory to make, or no memory for the
    first of them. -/
theorem failed_call_restores_iff (hb : Built s) (hr : s.root = some r) (c : Call)
    (hfail : (c.run heap s).1 = -1) :
    Restored r s (c.run heap s).2 ↔ ¬ (c.Begins s ∧ (Fs.kmalloc heap s).1.isSome = true) := by
  obtain ⟨r', hr', hs⟩ := hb.shape
  obtain rfl := Option.some.inj (hr.symm.trans hr')
  by_cases hm : parentOf s c.path = .missing
  · have hbegins : c.Begins s := Or.inl hm
    obtain ⟨hloop, hlookup⟩ := @parentOf_missing _ _ heap _ hr hm
    rcases hk : Fs.kmalloc heap s with ⟨_ | p, s₁⟩
    · have hrun := Call.run_null (hlookup.trans (lookupParentLoop_refused hloop hk))
      rw [hrun]
      simp only [Option.isSome_none, Bool.false_eq_true, and_false, not_false_eq_true, iff_true]
      exact ((Holds.refl r s).refused hk).restored
    · exact iff_of_false (Call.not_restored hs hr hfail hm (by rw [hk]; rfl)) (by simp [hbegins])
  · have hlookup : vfsLookupParent heap c.path s = ((parentOf s c.path).place, s) :=
      vfsLookupParent_eq hm
    cases hpar : parentOf s c.path with
    | missing => exact absurd hpar hm
    | null =>
      rw [hpar] at hlookup
      rw [Call.run_null hlookup]
      refine iff_of_true (Holds.refl r s).restored ?_
      rintro ⟨hbegins | ⟨path, mode, d, name, rfl, hfound, -⟩, -⟩
      · exact hm hbegins
      · rw [Call.path, hfound] at hpar
        cases hpar
    | found d name =>
      rw [hpar] at hlookup
      rcases Call.failed hs hlookup hfail with ⟨h, hnone⟩ | ⟨path, mode, n, rfl, hname, hf, hn, h⟩
      · refine iff_of_true h.restored ?_
        rintro ⟨hbegins | ⟨path, mode, d', name', rfl, hfound, hname, hf⟩, hsome⟩
        · exact hm hbegins
        · rw [Call.path, hfound] at hpar
          obtain ⟨rfl, rfl⟩ := Parent.found.inj hpar
          rw [hnone path mode rfl hname hf] at hsome
          cases hsome
      · refine iff_of_false (h.not_restored (Finset.mem_singleton_self n)) (not_not.mpr ⟨?_, ?_⟩)
        · exact Or.inr ⟨path, mode, d, name, rfl, hpar, hname, hf⟩
        · rw [hn]
          rfl

/-- A heap that refuses the fifth request. -/
def refusing : Heap := fun n => if n = 4 then none else some n

/-- A file that is given its inode, its bytes and its directory entry, and is refused the last one's name. -/
theorem failed_call_restores_refused : (vfsCreate refusing [slash, letter 0] 0 [1, 2] emptyVfs).2.requests = 5 ∧
    Restored 0 emptyVfs (vfsCreate refusing [slash, letter 0] 0 [1, 2] emptyVfs).2 := by
  have hfail : ((Call.create [slash, letter 0] 0 [1, 2]).run refusing emptyVfs).1 = -1 := by decide
  refine ⟨by decide, (failed_call_restores_iff (r := 0) emptyVfs_built rfl _ hfail).mpr ?_⟩
  rintro ⟨hbegins | ⟨path, mode, d, name, hc, -⟩, -⟩
  · exact absurd hbegins (by decide)
  · cases hc

/-- `/a/b` is not made, and `/a` is. -/
theorem failed_mkdir_makes_parent : ¬ ∀ s r heap (c : Call), Built s → s.root = some r →
    (c.run heap s).1 = -1 → Restored r s (c.run heap s).2 := by
  intro h
  have hfail : ((Call.mkdir [slash, letter 0, slash, letter 1] 0).run refusing emptyVfs).1 = -1 := by
    decide
  obtain ⟨r, hr, hs⟩ := emptyVfs_built.shape
  obtain rfl : 0 = r := Option.some.inj hr
  exact Call.not_restored hs hr hfail (by decide) (by decide)
    (h emptyVfs 0 refusing _ emptyVfs_built rfl hfail)

end TypeOS.Fs
