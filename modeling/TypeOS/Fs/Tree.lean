import TypeOS.Fs.Vfs

/-! The inodes that the root leads to form a tree, whatever is created and whatever the heap answers.

    An operation works on the tree in two ways only. It changes what the root does not lead to
    (`Frame`): blocks come and go, an inode is filled in. Or it enters an inode that nothing leads to
    in a directory (`Shape.graft`). Both keep the tree (`Shape`), and both leave every inode of it as
    it was but for new entries at the head of a directory (`Grows`). -/

namespace TypeOS.Fs

variable {s s' s'' : Vfs} {r d n p q : Ptr} {heap : Heap} {name : Text}

/-- The entries of an inode: a directory has some. -/
def Node.entries : Node → List Dentry
  | .dir children => children
  | _ => []

def Vfs.entries (s : Vfs) (p : Ptr) : List Dentry := (s.inodes p).node.entries

/-- The inodes that directory entries lead to. -/
inductive Reach (s : Vfs) (r : Ptr) : Ptr → Prop
  | root : Reach s r r
  | entry {p : Ptr} {e : Dentry} : Reach s r p → e ∈ s.entries p → Reach s r e.inode

/-- What `vfs_lookup_parent` leaves of a name. -/
structure ValidName (name : Text) : Prop where
  ne_nil : name ≠ []
  length_le : name.length ≤ 255
  slash : slash ∉ name

/-- The tree under the root `r`. -/
structure Shape (s : Vfs) (r : Ptr) : Prop where
  rootDir : s.type r = .dir
  live : ∀ p, Reach s r p → p ∈ s.live
  rootFree : ∀ p e, Reach s r p → e ∈ s.entries p → e.inode ≠ r
  unique : ∀ p p' e e', Reach s r p → Reach s r p' → e ∈ s.entries p → e' ∈ s.entries p' →
    e.inode = e'.inode → p = p' ∧ e = e'
  distinct : ∀ p, Reach s r p → ((s.entries p).map Dentry.name).Nodup
  valid : ∀ p e, Reach s r p → e ∈ s.entries p → ValidName e.name

/-- New entries at the head of a directory. -/
def Node.add (new : List Dentry) : Node → Node
  | .dir children => .dir (new ++ children)
  | node => node

/-- Every inode of the tree is as it was, but for new entries under new names. -/
structure Grows (r : Ptr) (s s' : Vfs) : Prop where
  root : s'.root = s.root
  mode : ∀ p, Reach s r p → (s'.inodes p).mode = (s.inodes p).mode
  size : ∀ p, Reach s r p → (s'.inodes p).size = (s.inodes p).size
  node : ∀ p, Reach s r p → ∃ new, (s'.inodes p).node = (s.inodes p).node.add new ∧
    ∀ e ∈ new, ∀ e' ∈ s.entries p, e.name ≠ e'.name

/-- The tree is the same; what it does not hold may differ. -/
structure Frame (r : Ptr) (s s' : Vfs) : Prop where
  root : s'.root = s.root
  inodes : ∀ p, Reach s r p → s'.inodes p = s.inodes p
  live : ∀ p, Reach s r p → p ∈ s.live → p ∈ s'.live

@[simp] theorem Node.add_nil (node : Node) : node.add [] = node := by cases node <;> rfl

theorem Node.add_add (new new' : List Dentry) (node : Node) :
    (node.add new).add new' = node.add (new' ++ new) := by
  cases node <;> simp [Node.add]

@[simp] theorem Node.add_type (new : List Dentry) (node : Node) : (node.add new).type = node.type := by
  cases node <;> rfl

theorem Node.mem_add {new : List Dentry} {node : Node} {e : Dentry} (h : e ∈ node.entries) :
    e ∈ (node.add new).entries := by
  cases node with
  | dir children => exact List.mem_append_right _ h
  | file => exact h
  | symlink => exact h

theorem entries_dir {children : List Dentry} (h : (s.inodes p).node = .dir children) :
    s.entries p = children := by
  rw [Vfs.entries, h]
  rfl

theorem type_of_mem {e : Dentry} (h : e ∈ s.entries p) : s.type p = .dir := by
  unfold Vfs.entries at h
  unfold Vfs.type
  cases hn : (s.inodes p).node with
  | dir => rfl
  | file => simp [hn, Node.entries] at h
  | symlink => simp [hn, Node.entries] at h

theorem dir_of_type (h : s.type p = .dir) : (s.inodes p).node = .dir (s.entries p) := by
  unfold Vfs.type at h
  unfold Vfs.entries
  cases hn : (s.inodes p).node with
  | dir => rfl
  | file => simp [hn, Node.type] at h
  | symlink => simp [hn, Node.type] at h

/-! ### What stays -/

theorem Grows.reach (g : Grows r s s') (h : Reach s r p) : Reach s' r p := by
  induction h with
  | root => exact .root
  | @entry p e hp he ih =>
    obtain ⟨new, hn, -⟩ := g.node p hp
    refine ih.entry ?_
    rw [Vfs.entries, hn]
    exact Node.mem_add he

theorem Grows.refl (r : Ptr) (s : Vfs) : Grows r s s :=
  ⟨rfl, fun _ _ => rfl, fun _ _ => rfl, fun _ _ => ⟨[], by simp, by simp⟩⟩

theorem Grows.trans (g : Grows r s s') (g' : Grows r s' s'') : Grows r s s'' := by
  refine ⟨g'.root.trans g.root, fun p hp => (g'.mode p (g.reach hp)).trans (g.mode p hp),
    fun p hp => (g'.size p (g.reach hp)).trans (g.size p hp), fun p hp => ?_⟩
  obtain ⟨new, hn, hd⟩ := g.node p hp
  obtain ⟨new', hn', hd'⟩ := g'.node p (g.reach hp)
  refine ⟨new' ++ new, by rw [hn', hn, Node.add_add], fun e he e' he' => ?_⟩
  rcases List.mem_append.mp he with he | he
  · refine hd' e he e' ?_
    rw [Vfs.entries, hn]
    exact Node.mem_add he'
  · exact hd e he e' he'

theorem Grows.type (g : Grows r s s') (h : Reach s r p) : s'.type p = s.type p := by
  obtain ⟨new, hn, -⟩ := g.node p h
  rw [Vfs.type, hn, Node.add_type]
  rfl

theorem Frame.entries (f : Frame r s s') (h : Reach s r p) : s'.entries p = s.entries p := by
  rw [Vfs.entries, f.inodes p h]
  rfl

theorem Frame.grows (f : Frame r s s') : Grows r s s' :=
  ⟨f.root, fun p hp => by rw [f.inodes p hp], fun p hp => by rw [f.inodes p hp],
    fun p hp => ⟨[], by rw [f.inodes p hp, Node.add_nil], by simp⟩⟩

theorem Frame.reach (f : Frame r s s') : Reach s' r p ↔ Reach s r p := by
  refine ⟨fun h => ?_, f.grows.reach⟩
  induction h with
  | root => exact .root
  | entry _ he ih =>
    rw [f.entries ih] at he
    exact ih.entry he

theorem Frame.refl (r : Ptr) (s : Vfs) : Frame r s s := ⟨rfl, fun _ _ => rfl, fun _ _ h => h⟩

theorem Frame.trans (f : Frame r s s') (f' : Frame r s' s'') : Frame r s s'' :=
  ⟨f'.root.trans f.root, fun p hp => (f'.inodes p (f.reach.mpr hp)).trans (f.inodes p hp),
    fun p hp hl => f'.live p (f.reach.mpr hp) (f.live p hp hl)⟩

theorem Shape.frame (h : Shape s r) (f : Frame r s s') : Shape s' r := by
  refine ⟨?_, fun p hp => ?_, fun p e hp he => ?_, fun p p' e e' hp hp' he he' => ?_, fun p hp => ?_,
    fun p e hp he => ?_⟩
  · rw [f.grows.type .root]
    exact h.rootDir
  · rw [f.reach] at hp
    exact f.live p hp (h.live p hp)
  · rw [f.reach] at hp
    rw [f.entries hp] at he
    exact h.rootFree p e hp he
  · rw [f.reach] at hp hp'
    rw [f.entries hp] at he
    rw [f.entries hp'] at he'
    exact h.unique p p' e e' hp hp' he he'
  · rw [f.reach] at hp
    rw [f.entries hp]
    exact h.distinct p hp
  · rw [f.reach] at hp
    rw [f.entries hp] at he
    exact h.valid p e hp he

/-- The directory `d` with a new entry. -/
def Vfs.graft (d : Ptr) (name : Text) (n : Ptr) (s : Vfs) : Vfs :=
  s.setInode d { s.inodes d with node := .dir (⟨name, n⟩ :: s.entries d) }

theorem graft_inodes_ne (h : p ≠ d) : (s.graft d name n).inodes p = s.inodes p :=
  Function.update_of_ne h ..

theorem graft_entries_self : (s.graft d name n).entries d = ⟨name, n⟩ :: s.entries d := by
  simp [Vfs.graft, Vfs.entries, Vfs.setInode, Node.entries]

theorem graft_entries_ne (h : p ≠ d) : (s.graft d name n).entries p = s.entries p := by
  rw [Vfs.entries, graft_inodes_ne h]
  rfl

theorem grows_graft (hdir : s.type d = .dir) (hfree : ∀ e ∈ s.entries d, e.name ≠ name) :
    Grows r s (s.graft d name n) := by
  have hself : (s.graft d name n).inodes d =
      { s.inodes d with node := .dir (⟨name, n⟩ :: s.entries d) } := Function.update_self ..
  refine ⟨rfl, fun p _ => ?_, fun p _ => ?_, fun p _ => ?_⟩
  · rcases eq_or_ne p d with rfl | hp
    · rw [hself]
    · rw [graft_inodes_ne hp]
  · rcases eq_or_ne p d with rfl | hp
    · rw [hself]
    · rw [graft_inodes_ne hp]
  · rcases eq_or_ne p d with rfl | hp
    · refine ⟨[⟨name, n⟩], ?_, ?_⟩
      · rw [hself, dir_of_type hdir]
        rfl
      · intro e he e' he'
        obtain rfl := List.mem_singleton.mp he
        exact (hfree e' he').symm
    · exact ⟨[], by rw [graft_inodes_ne hp, Node.add_nil], by simp⟩

/-- The new entry leads to the new inode, and to nothing else that is new. -/
theorem reach_graft (hd : Reach s r d) (hdir : s.type d = .dir) (hn : ¬ Reach s r n)
    (hleaf : s.entries n = []) (hfree : ∀ e ∈ s.entries d, e.name ≠ name) :
    Reach (s.graft d name n) r p ↔ Reach s r p ∨ p = n := by
  have hnd : n ≠ d := fun h => hn (h ▸ hd)
  constructor
  · intro h
    induction h with
    | root => exact Or.inl .root
    | @entry p e _ he ih =>
      rcases ih with ih | rfl
      · rcases eq_or_ne p d with rfl | hp
        · rw [graft_entries_self] at he
          rcases List.mem_cons.mp he with rfl | he
          · exact Or.inr rfl
          · exact Or.inl (ih.entry he)
        · rw [graft_entries_ne hp] at he
          exact Or.inl (ih.entry he)
      · rw [graft_entries_ne hnd, hleaf] at he
        simp at he
  · have g : Grows r s (s.graft d name n) := grows_graft hdir hfree
    rintro (h | rfl)
    · exact g.reach h
    · refine (g.reach hd).entry (e := ⟨name, p⟩) ?_
      rw [graft_entries_self]
      exact List.mem_cons_self ..

/-- An inode that nothing leads to, entered in a directory under a new name. -/
theorem Shape.graft (h : Shape s r) (hd : Reach s r d) (hdir : s.type d = .dir) (hn : ¬ Reach s r n)
    (hleaf : s.entries n = []) (hl : n ∈ s.live) (hv : ValidName name)
    (hfree : ∀ e ∈ s.entries d, e.name ≠ name) : Shape (s.graft d name n) r := by
  have hnd : n ≠ d := fun h => hn (h ▸ hd)
  have hreach := fun p => @reach_graft s r d n p name hd hdir hn hleaf hfree
  -- an entry is an old one or the new one
  have hold : ∀ p e, Reach (s.graft d name n) r p → e ∈ (s.graft d name n).entries p →
      (Reach s r p ∧ e ∈ s.entries p) ∨ (p = d ∧ e = ⟨name, n⟩) := by
    intro p e hp he
    rcases eq_or_ne p d with rfl | hpd
    · rw [graft_entries_self] at he
      rcases List.mem_cons.mp he with rfl | he
      · exact Or.inr ⟨rfl, rfl⟩
      · exact Or.inl ⟨hd, he⟩
    · rw [graft_entries_ne hpd] at he
      rcases (hreach p).mp hp with hp | rfl
      · exact Or.inl ⟨hp, he⟩
      · rw [hleaf] at he
        simp at he
  refine ⟨?_, fun p hp => ?_, fun p e hp he => ?_, fun p p' e e' hp hp' he he' heq => ?_, fun p hp => ?_,
    fun p e hp he => ?_⟩
  · have g : Grows r s (s.graft d name n) := grows_graft hdir hfree
    rw [g.type .root]
    exact h.rootDir
  · rcases (hreach p).mp hp with hp | rfl
    · exact h.live p hp
    · exact hl
  · rcases hold p e hp he with ⟨hp, he⟩ | ⟨-, rfl⟩
    · exact h.rootFree p e hp he
    · rintro rfl
      exact hn .root
  · rcases hold p e hp he with ⟨h₁, he₁⟩ | ⟨rfl, rfl⟩ <;>
      rcases hold p' e' hp' he' with ⟨h₂, he₂⟩ | ⟨rfl, rfl⟩
    · exact h.unique p p' e e' h₁ h₂ he₁ he₂ heq
    · refine absurd (h₁.entry he₁) ?_
      rwa [heq]
    · refine absurd (h₂.entry he₂) ?_
      rwa [← heq]
    · exact ⟨rfl, rfl⟩
  · rcases eq_or_ne p d with rfl | hpd
    · rw [graft_entries_self, List.map_cons, List.nodup_cons]
      refine ⟨fun hm => ?_, h.distinct p hd⟩
      obtain ⟨e, he, hname⟩ := List.mem_map.mp hm
      exact hfree e he hname
    · rw [graft_entries_ne hpd]
      rcases (hreach p).mp hp with hp | rfl
      · exact h.distinct p hp
      · rw [hleaf]
        simp
  · rcases hold p e hp he with ⟨hp, he⟩ | ⟨-, rfl⟩
    · exact h.valid p e hp he
    · exact hv

end TypeOS.Fs
