import TypeOS.Fs.Tree

/-! `vfs_mkdir`, `vfs_create` and `vfs_symlink` keep the tree and let it grow, and what they have
    created is where the path says. -/

namespace TypeOS.Fs

variable {s s' s'' : Vfs} {r d n p q : Ptr} {heap : Heap} {name : Text}

/-! ### The heap -/

/-- Blocks come and go; root and inodes stay. -/
structure Quiet (s s' : Vfs) : Prop where
  root : s'.root = s.root
  inodes : s'.inodes = s.inodes
  live : s.live ⊆ s'.live

theorem Quiet.refl (s : Vfs) : Quiet s s := ⟨rfl, rfl, fun _ h => h⟩

theorem Quiet.trans (h : Quiet s s') (h' : Quiet s' s'') : Quiet s s'' :=
  ⟨h'.root.trans h.root, h'.inodes.trans h.inodes, h.live.trans h'.live⟩

theorem Quiet.frame (h : Quiet s s') : Frame r s s' :=
  ⟨h.root, fun p _ => congrFun h.inodes p, fun _ _ hl => h.live hl⟩

theorem Quiet.entries (h : Quiet s s') (p : Ptr) : s'.entries p = s.entries p := by
  rw [Vfs.entries, h.inodes]
  rfl

theorem Quiet.type (h : Quiet s s') (p : Ptr) : s'.type p = s.type p := by
  rw [Vfs.type, h.inodes]
  rfl

/-- The two outcomes of a request. -/
theorem kmalloc_cases (heap : Heap) (s : Vfs) :
    (∃ s', kmalloc heap s = (none, s') ∧ Quiet s s') ∨
    ∃ p s', kmalloc heap s = (some p, s') ∧ heap s.requests = some p ∧ p ∉ s.live ∧ Quiet s s' ∧
      s'.live = insert p s.live := by
  unfold kmalloc
  split
  · exact Or.inl ⟨_, rfl, rfl, rfl, fun _ h => h⟩
  · next p hp =>
    split
    · exact Or.inl ⟨_, rfl, rfl, rfl, fun _ h => h⟩
    · next hl => exact Or.inr ⟨p, _, rfl, hp, hl, ⟨rfl, rfl, Finset.subset_insert ..⟩, rfl⟩

/-- A block that nothing leads to is given back. -/
theorem frame_kfree (hn : ¬ Reach s r p) : Frame r s (kfree p s) := by
  refine ⟨rfl, fun _ _ => rfl, fun q hq hl => Finset.mem_erase.mpr ⟨?_, hl⟩⟩
  rintro rfl
  exact hn hq

/-- A store to an inode that nothing leads to. -/
theorem frame_setInode {inode : Inode} (hn : ¬ Reach s r p) : Frame r s (s.setInode p inode) := by
  refine ⟨rfl, fun q hq => Function.update_of_ne ?_ .., fun _ _ hl => hl⟩
  rintro rfl
  exact hn hq

/-- A new inode is one that nothing leads to. -/
theorem vfsInodeNew_cases (h : Shape s r) (heap : Heap) (node : Node) (mode : BitVec 32) :
    (∃ s', vfsInodeNew heap node mode s = (none, s') ∧ Frame r s s') ∨
    ∃ n s', vfsInodeNew heap node mode s = (some n, s') ∧ Frame r s s' ∧ ¬ Reach s r n ∧
      n ∈ s'.live ∧ s'.inodes n = ⟨mode, 0, node⟩ := by
  unfold vfsInodeNew
  rcases kmalloc_cases heap s with ⟨s', hm, hq⟩ | ⟨n, s', hm, -, hl, hq, hlive⟩ <;> rw [hm]
  · exact Or.inl ⟨s', rfl, hq.frame⟩
  · have hn : ¬ Reach s r n := fun hr => hl (h.live n hr)
    have hn' : ¬ Reach s' r n := by rwa [(hq.frame (r := r)).reach]
    refine Or.inr ⟨n, _, rfl, (hq.frame).trans (frame_setInode hn'), hn, ?_, ?_⟩
    · simp [Vfs.setInode, hlive]
    · exact Function.update_self ..

/-! ### Directories -/

theorem named_iff (name : Text) (e : Dentry) : e.named name name.length = true ↔ e.name = name := by
  simp only [Dentry.named, Bool.and_eq_true, decide_eq_true_eq, strncmp_bytes]
  constructor
  · rintro ⟨hp, hl⟩
    refine (hp.eq_of_length ?_).symm
    have := hp.length_le
    rw [List.getElem?_eq_none_iff] at hl
    omega
  · rintro rfl
    exact ⟨List.prefix_rfl, by simp⟩

/-- `vfs_dir_find` of a whole name. -/
theorem vfsDirFind_eq (s : Vfs) (p : Ptr) (name : Text) :
    vfsDirFind s p name name.length = (s.entries p).find? fun e => e.name = name := by
  have hn : Dentry.named name name.length = fun e => decide (e.name = name) := by
    funext e
    rw [Bool.eq_iff_iff, named_iff, decide_eq_true_eq]
  unfold vfsDirFind Vfs.entries
  rw [hn]
  cases (s.inodes p).node <;> rfl

theorem vfsDirFind_none (h : vfsDirFind s p name name.length = none) :
    ∀ e ∈ s.entries p, e.name ≠ name := by
  intro e he hname
  rw [vfsDirFind_eq] at h
  have := List.find?_eq_none.mp h e he
  simp [hname] at this

/-- An entry fails and leaves the tree alone, or is made. -/
theorem vfsDirAdd_cases (heap : Heap) (d n : Ptr) (name : Text) (s : Vfs) :
    (∃ s', vfsDirAdd heap d name n s = (-1, s') ∧ Quiet s s') ∨
    ∃ s', vfsDirAdd heap d name n s = (0, s'.graft d name n) ∧ Quiet s s' ∧ s.type d = .dir ∧
      ∀ e ∈ s.entries d, e.name ≠ name := by
  unfold vfsDirAdd
  split
  · next children hc =>
    split
    · exact Or.inl ⟨s, rfl, .refl s⟩
    · next hf =>
      rw [Bool.not_eq_true, Option.isSome_eq_false_iff, Option.isNone_iff_eq_none] at hf
      rcases kmalloc_cases heap s with ⟨s₁, hm, hq⟩ | ⟨e, s₁, hm, -, hl, hq, hlive⟩ <;> rw [hm]
      · exact Or.inl ⟨s₁, rfl, hq⟩
      · dsimp only
        rcases kmalloc_cases heap s₁ with ⟨s₂, hm₂, hq₂⟩ | ⟨e₂, s₂, hm₂, -, -, hq₂, -⟩ <;> rw [hm₂]
        · refine Or.inl ⟨_, rfl, ⟨hq₂.root.trans hq.root, hq₂.inodes.trans hq.inodes, fun p hp => ?_⟩⟩
          refine Finset.mem_erase.mpr ⟨?_, hq₂.live (hq.live hp)⟩
          rintro rfl
          exact hl hp
        · have hq' := hq.trans hq₂
          refine Or.inr ⟨s₂, ?_, hq', ?_, vfsDirFind_none hf⟩
          · rw [Vfs.graft, hq'.entries, entries_dir hc]
          · rw [Vfs.type, hc]
            rfl
  · exact Or.inl ⟨s, rfl, .refl s⟩

/-! ### Paths in the tree -/

/-- The child of a directory under a name. -/
def Vfs.child (s : Vfs) (p : Ptr) (name : Text) : Option Ptr :=
  ((s.entries p).find? fun e => e.name = name).map Dentry.inode

/-- The inode that a list of names leads to. -/
def Vfs.walk (s : Vfs) : Ptr → List Text → Option Ptr
  | p, [] => some p
  | p, c :: cs => (s.child p c).bind fun q => s.walk q cs

theorem child_mem (h : s.child p name = some q) :
    ∃ e ∈ s.entries p, e.name = name ∧ e.inode = q := by
  obtain ⟨e, he, rfl⟩ := Option.map_eq_some_iff.mp h
  exact ⟨e, List.mem_of_find?_eq_some he, by simpa using List.find?_some he, rfl⟩

theorem Reach.child (h : Reach s r p) (hc : s.child p name = some q) : Reach s r q := by
  obtain ⟨e, he, -, rfl⟩ := child_mem hc
  exact h.entry he

theorem Reach.walk {cs : List Text} (h : Reach s r p) (hw : s.walk p cs = some q) : Reach s r q := by
  induction cs generalizing p with
  | nil => exact Option.some.inj hw ▸ h
  | cons c cs ih =>
    obtain ⟨p', hc, hw⟩ := Option.bind_eq_some_iff.mp hw
    exact ih (h.child hc) hw

theorem walk_append (s : Vfs) (p : Ptr) (cs cs' : List Text) :
    s.walk p (cs ++ cs') = (s.walk p cs).bind fun q => s.walk q cs' := by
  induction cs generalizing p with
  | nil => rfl
  | cons c cs ih =>
    simp only [List.cons_append, Vfs.walk, Option.bind_assoc]
    cases s.child p c with
    | none => rfl
    | some q => exact ih q

theorem walk_snoc (s : Vfs) (p : Ptr) (cs : List Text) (c : Text) :
    s.walk p (cs ++ [c]) = (s.walk p cs).bind fun q => s.child q c := by
  rw [walk_append]
  congr 1
  funext q
  simp [Vfs.walk]

/-- New entries do not hide old ones. -/
theorem Grows.child (g : Grows r s s') (h : Reach s r p) (hc : s.child p name = some q) :
    s'.child p name = some q := by
  obtain ⟨new, hn, hd⟩ := g.node p h
  obtain ⟨e, he, hname, -⟩ := child_mem hc
  have hdir := dir_of_type (type_of_mem he)
  have hent : s'.entries p = new ++ s.entries p := by
    rw [Vfs.entries, hn, hdir]
    rfl
  have hnew : new.find? (fun e => e.name = name) = none := by
    refine List.find?_eq_none.mpr fun e' he' => ?_
    simpa [hname] using hd e' he' e he
  rw [Vfs.child, hent, List.find?_append, hnew, Option.none_or]
  exact hc

theorem Grows.walk (g : Grows r s s') {cs : List Text} (h : Reach s r p)
    (hw : s.walk p cs = some q) : s'.walk p cs = some q := by
  induction cs generalizing p with
  | nil => exact hw
  | cons c cs ih =>
    obtain ⟨p', hc, hw⟩ := Option.bind_eq_some_iff.mp hw
    rw [Vfs.walk, g.child h hc]
    exact ih (h.child hc) hw

theorem graft_child (d n : Ptr) (name : Text) (s : Vfs) :
    (s.graft d name n).child d name = some n := by
  rw [Vfs.child, graft_entries_self, List.find?_cons_of_pos (by simp)]
  rfl

/-! ### The calls -/

/-- The tree is kept, and grows. -/
structure Evolves (r : Ptr) (s s' : Vfs) : Prop where
  shape : Shape s' r
  grows : Grows r s s'

theorem Evolves.trans (h : Evolves r s s') (h' : Evolves r s' s'') : Evolves r s s'' :=
  ⟨h'.shape, h.grows.trans h'.grows⟩

theorem Shape.evolves (h : Shape s r) (f : Frame r s s') : Evolves r s s' := ⟨h.frame f, f.grows⟩

/-- A new inode in a directory: when it is entered it is there and as it was. -/
theorem Shape.dirAdd (h : Shape s r) (hd : Reach s r d) (hn : ¬ Reach s r n)
    (hleaf : s.entries n = []) (hl : n ∈ s.live) (hv : ValidName name) :
    (∃ s', vfsDirAdd heap d name n s = (-1, s') ∧ Frame r s s') ∨
    ∃ s', vfsDirAdd heap d name n s = (0, s') ∧ Evolves r s s' ∧ Reach s' r n ∧
      s'.child d name = some n ∧ s'.inodes n = s.inodes n := by
  rcases vfsDirAdd_cases heap d n name s with ⟨s', heq, hq⟩ | ⟨s', heq, hq, hdir, hfree⟩
  · exact Or.inl ⟨s', heq, hq.frame⟩
  · have f : Frame r s s' := hq.frame
    have hd' := f.reach.mpr hd
    have hn' : ¬ Reach s' r n := by rwa [f.reach]
    have hdir' : s'.type d = .dir := by rw [hq.type, hdir]
    have hleaf' : s'.entries n = [] := by rw [hq.entries, hleaf]
    have hfree' : ∀ e ∈ s'.entries d, e.name ≠ name := by rwa [hq.entries]
    have hnd : n ≠ d := fun h => hn (h ▸ hd)
    refine Or.inr ⟨_, heq, ⟨?_, ?_⟩, ?_, graft_child .., ?_⟩
    · exact (h.frame f).graft hd' hdir' hn' hleaf' (hq.live hl) hv hfree'
    · exact f.grows.trans (grows_graft hdir' hfree')
    · exact (reach_graft hd' hdir' hn' hleaf' hfree').mpr (Or.inr rfl)
    · rw [graft_inodes_ne hnd, hq.inodes]

/-- What the loop of `vfs_lookup_parent` does in a tree: directories come to be, and the last
    component and its directory are found. -/
theorem lookupParentLoop_spec {t : Text} {l : List (Text × Text)} {current : Ptr} (h : Shape s r)
    (hc : Reach s r current) (hl : splitPath t = l) :
    Evolves r s (lookupParentLoop heap l current s).2 ∧
    ∀ p name, (lookupParentLoop heap l current s).1 = some (p, name) →
      Reach (lookupParentLoop heap l current s).2 r p ∧
      (l = [] ∧ name = [] ∨ ValidName name ∧ ∃ cs, l.map Prod.fst = cs ++ [name] ∧
        (∀ c ∈ cs, c.length ≤ 255) ∧
        (lookupParentLoop heap l current s).2.walk current cs = some p) := by
  have hrefl := h.evolves (.refl r s)
  induction l generalizing s current t with
  | nil =>
    refine ⟨hrefl, fun p name hres => ?_⟩
    rw [lookupParentLoop, Option.some.injEq, Prod.mk.injEq] at hres
    obtain ⟨rfl, rfl⟩ := hres
    exact ⟨hc, Or.inl ⟨rfl, rfl⟩⟩
  | cons x l ih =>
    obtain ⟨component, cursor⟩ := x
    obtain ⟨hne, hslash, hl', hlast⟩ := splitPath_eq_cons hl
    -- the loop goes on in `next`, a child of `current`
    have hgo : ∀ s₁ next, Evolves r s s₁ → Reach s₁ r next → s₁.child current component = some next →
        component.length ≤ 255 →
        Evolves r s (lookupParentLoop heap l next s₁).2 ∧
        ∀ p name, (lookupParentLoop heap l next s₁).1 = some (p, name) → cursor ≠ [] →
          Reach (lookupParentLoop heap l next s₁).2 r p ∧
          (((component, cursor) :: l) = [] ∧ name = [] ∨ ValidName name ∧
            ∃ cs, ((component, cursor) :: l).map Prod.fst = cs ++ [name] ∧
            (∀ c ∈ cs, c.length ≤ 255) ∧
            (lookupParentLoop heap l next s₁).2.walk current cs = some p) := by
      intro s₁ next e hnext hchild hlen
      obtain ⟨e', hres⟩ := ih e.shape hnext hl'.symm (e.shape.evolves (.refl r s₁))
      refine ⟨e.trans e', fun p name hp hcur => ?_⟩
      obtain ⟨hreach, ⟨hnil, -⟩ | ⟨hv, cs, hcs, hle, hw⟩⟩ := hres p name hp
      · exact absurd (hlast.mpr hnil) hcur
      · refine ⟨hreach, Or.inr ⟨hv, component :: cs, by simp [hcs], ?_, ?_⟩⟩
        · intro c hmem
          rcases List.mem_cons.mp hmem with rfl | hmem
          · exact hlen
          · exact hle c hmem
        · rw [Vfs.walk, e'.grows.child (e.grows.reach hc) hchild]
          exact hw
    rw [lookupParentLoop]
    split
    · exact ⟨hrefl, by simp⟩
    · next hlen =>
      split
      · next hcur =>
        refine ⟨hrefl, fun p name hres => ?_⟩
        rw [Option.some.injEq, Prod.mk.injEq] at hres
        obtain ⟨rfl, rfl⟩ := hres
        refine ⟨hc, Or.inr ⟨⟨hne, by omega, hslash⟩, [], ?_, by simp, rfl⟩⟩
        simp [hlast.mp hcur]
      · next hcur =>
        split
        · exact ⟨hrefl, by simp⟩
        · split
          · next entry hf =>
            have hchild : s.child current component = some entry.inode := by
              rw [Vfs.child, ← vfsDirFind_eq, hf]
              rfl
            obtain ⟨h1, h2⟩ := hgo s entry.inode hrefl (hc.child hchild) hchild (by omega)
            exact ⟨h1, fun p name hp => h2 p name hp hcur⟩
          · rcases vfsInodeNew_cases h heap (.dir []) (sIfdir ||| 0o755#32) with
              ⟨s₁, heq, f⟩ | ⟨next, s₁, heq, f, hn, hlive, hin⟩ <;> rw [heq]
            · exact ⟨h.evolves f, by simp⟩
            · dsimp only
              have hleaf : s₁.entries next = [] := entries_dir (by rw [hin])
              rcases @Shape.dirAdd s₁ r current next heap component (h.frame f) (f.reach.mpr hc)
                (by rwa [f.reach]) hleaf hlive ⟨hne, by omega, hslash⟩ with
                ⟨s₂, heq₂, f₂⟩ | ⟨s₂, heq₂, e₂, hreach, hchild, -⟩ <;> rw [heq₂]
              · exact ⟨h.evolves (f.trans f₂), by simp⟩
              · have e : Evolves r s s₂ := (h.evolves f).trans e₂
                obtain ⟨h1, h2⟩ := hgo s₂ next e hreach hchild (by omega)
                exact ⟨h1, fun p name hp => h2 p name hp hcur⟩

theorem vfsLookupParent_spec {path : Text} (h : Shape s r) (hr : s.root = some r) :
    Evolves r s (vfsLookupParent heap path s).2 ∧
    ∀ p name, (vfsLookupParent heap path s).1 = some (p, name) →
      vfsIsAbsolute path = true ∧ Reach (vfsLookupParent heap path s).2 r p ∧
      (name = [] ∨ ValidName name ∧ ∃ cs, components path = cs ++ [name] ∧
        (∀ c ∈ cs, c.length ≤ 255) ∧ (vfsLookupParent heap path s).2.walk r cs = some p) := by
  have hspec := @lookupParentLoop_spec s r heap path _ r h .root rfl
  unfold vfsLookupParent
  rw [hr]
  cases ha : vfsIsAbsolute path with
  | false => exact ⟨h.evolves (.refl r s), by simp⟩
  | true =>
    refine ⟨hspec.1, fun p name hres => ?_⟩
    obtain ⟨hreach, ⟨-, hn⟩ | hv⟩ := hspec.2 p name hres
    · exact ⟨rfl, hreach, Or.inl hn⟩
    · exact ⟨rfl, hreach, Or.inr hv⟩

/-- What a call has created: the inode is where the path says. -/
structure Created (r : Ptr) (path : Text) (inode : Inode) (s : Vfs) : Prop where
  absolute : vfsIsAbsolute path = true
  short : ∀ c ∈ components path, c.length ≤ 255
  there : ∃ n, s.walk r (components path) = some n ∧ s.inodes n = inode

/-- The part that the three calls share: the inode `n` is filled in and entered. -/
theorem Shape.install {path : Text} {inode : Inode} (h : Shape s r) (ha : vfsIsAbsolute path = true)
    (hd : Reach s r d) (hv : ValidName name) {cs : List Text} (hcs : components path = cs ++ [name])
    (hle : ∀ c ∈ cs, c.length ≤ 255) (hw : s.walk r cs = some d) (hn : ¬ Reach s r n)
    (hl : n ∈ s.live) (hin : s.inodes n = inode) (hleaf : inode.node.entries = []) :
    (∃ s', vfsDirAdd heap d name n s = (-1, s') ∧ Frame r s s') ∨
    ∃ s', vfsDirAdd heap d name n s = (0, s') ∧ Evolves r s s' ∧ Created r path inode s' := by
  have hleaf' : s.entries n = [] := by rw [Vfs.entries, hin, hleaf]
  rcases @Shape.dirAdd s r d n heap name h hd hn hleaf' hl hv with
    ⟨s', heq, f⟩ | ⟨s', heq, e, -, hchild, hsame⟩
  · exact Or.inl ⟨s', heq, f⟩
  · refine Or.inr ⟨s', heq, e, ha, fun c hc => ?_, n, ?_, hsame.trans hin⟩
    · rw [hcs] at hc
      rcases List.mem_append.mp hc with hc | hc
      · exact hle c hc
      · rw [List.mem_singleton.mp hc]
        exact hv.length_le
    · rw [hcs, walk_snoc, e.grows.walk .root hw]
      exact hchild

/-- A call of `vfs_mkdir` that returns 0 has found an entry there or made a directory. -/
theorem vfsMkdir_spec {path : Text} {mode : BitVec 32} (h : Shape s r) (hr : s.root = some r) :
    Evolves r s (vfsMkdir heap path mode s).2 ∧
    ((vfsMkdir heap path mode s).1 = 0 →
      (∃ d name, vfsLookupParent heap path s = (some (d, name), (vfsMkdir heap path mode s).2) ∧
        name ≠ [] ∧ ((vfsMkdir heap path mode s).2.child d name).isSome) ∨
      Created r path ⟨mode, 0, .dir []⟩ (vfsMkdir heap path mode s).2) := by
  have hspec := @vfsLookupParent_spec s r heap path h hr
  unfold vfsMkdir
  split
  · next heq =>
    rw [heq] at hspec
    exact ⟨hspec.1, by simp⟩
  · next parent name s₁ heq =>
    rw [heq] at hspec
    obtain ⟨e, hres⟩ := hspec
    dsimp only at e hres
    obtain ⟨ha, hd, hname⟩ := hres parent name rfl
    split
    · exact ⟨e, by simp⟩
    · next hne =>
      obtain ⟨hv, cs, hcs, hle, hw⟩ := hname.resolve_left hne
      split
      · next hfound =>
        rw [vfsDirFind_eq, ← Option.isSome_map (f := Dentry.inode)] at hfound
        exact ⟨e, fun _ => Or.inl ⟨parent, name, heq, hne, hfound⟩⟩
      · rcases vfsInodeNew_cases e.shape heap (.dir []) mode with
          ⟨s₂, heq₂, f⟩ | ⟨n, s₂, heq₂, f, hn, hl, hin⟩ <;> rw [heq₂]
        · exact ⟨e.trans (e.shape.evolves f), by simp⟩
        · have e₂ := e.trans (e.shape.evolves f)
          rcases @Shape.install s₂ r parent n heap name path _ e₂.shape ha (f.reach.mpr hd) hv cs hcs hle
            (f.grows.walk .root hw) (by rwa [f.reach]) hl hin rfl with
            ⟨s₃, heq₃, f₃⟩ | ⟨s₃, heq₃, e₃, hmade⟩
          · dsimp only
            rw [heq₃]
            exact ⟨e₂.trans (e₂.shape.evolves f₃), by simp⟩
          · dsimp only
            rw [heq₃]
            exact ⟨e₂.trans e₃, fun _ => Or.inr hmade⟩

theorem copyData_cases (heap : Heap) (data : List UInt8) (s : Vfs) :
    (∃ s', copyData heap data s = (none, s') ∧ Quiet s s') ∨
    ∃ copy s', copyData heap data s = (some copy, s') ∧ Quiet s s' ∧
      ∀ p, copy = some p → p ∉ s.live := by
  unfold copyData
  split
  · exact Or.inr ⟨none, s, rfl, .refl s, by simp⟩
  · rcases kmalloc_cases heap s with ⟨s', hm, hq⟩ | ⟨p, s', hm, -, hl, hq, -⟩ <;> rw [hm]
    · exact Or.inl ⟨s', rfl, hq⟩
    · refine Or.inr ⟨some p, s', rfl, hq, fun q hq' => ?_⟩
      rwa [← Option.some.inj hq']

theorem frame_kfreeIf {copy : Option Ptr} (hn : ∀ p, copy = some p → ¬ Reach s r p) :
    Frame r s (kfreeIf copy s) := by
  cases copy with
  | none => exact .refl r s
  | some p => exact frame_kfree (hn p rfl)

/-- The end of `vfs_create` and `vfs_symlink`: the inode is filled in and entered, or given back with
    the copy that belongs to it. -/
theorem Shape.fillIn {path : Text} {inode : Inode} {c : Option Ptr} (h : Shape s r)
    (ha : vfsIsAbsolute path = true) (hd : Reach s r d) (hv : ValidName name) {cs : List Text}
    (hcs : components path = cs ++ [name]) (hle : ∀ c ∈ cs, c.length ≤ 255)
    (hw : s.walk r cs = some d) (hn : ¬ Reach s r n) (hl : n ∈ s.live)
    (hcopy : ∀ p, c = some p → ¬ Reach s r p) (hleaf : inode.node.entries = []) {res : Int × Vfs}
    (hres : res = match vfsDirAdd heap d name n (s.setInode n inode) with
      | (0, s) => (0, s)
      | (_, s) => (-1, kfree n (kfreeIf c s))) :
    Evolves r s res.2 ∧ (res.1 = 0 → Created r path inode res.2) := by
  have f : Frame r s (s.setInode n inode) := frame_setInode hn
  have e := h.evolves f
  rcases @Shape.install _ r d n heap name path inode e.shape ha (f.reach.mpr hd) hv cs hcs hle
    (f.grows.walk .root hw) (by rwa [f.reach]) hl (Function.update_self ..) hleaf with
    ⟨s', heq, f'⟩ | ⟨s', heq, e', hmade⟩ <;> rw [hres, heq]
  · have hfree : ∀ p, c = some p → ¬ Reach s' r p := by
      intro p hp
      rw [f'.reach, f.reach]
      exact hcopy p hp
    have f₂ := frame_kfreeIf hfree
    refine ⟨e.trans (e.shape.evolves (f'.trans (f₂.trans (frame_kfree ?_)))), by simp⟩
    rwa [f₂.reach, f'.reach, f.reach]
  · exact ⟨e.trans e', fun _ => hmade⟩

theorem vfsCreate_spec {path : Text} {mode : BitVec 32} {data : List UInt8} (h : Shape s r)
    (hr : s.root = some r) : Evolves r s (vfsCreate heap path mode data s).2 ∧
    ((vfsCreate heap path mode data s).1 = 0 →
      Created r path ⟨mode, data.length, .file data⟩ (vfsCreate heap path mode data s).2) := by
  have hspec := @vfsLookupParent_spec s r heap path h hr
  unfold vfsCreate
  split
  · next heq =>
    rw [heq] at hspec
    exact ⟨hspec.1, by simp⟩
  · next parent name s₁ heq =>
    rw [heq] at hspec
    obtain ⟨e, hres⟩ := hspec
    dsimp only at e hres
    obtain ⟨ha, hd, hname⟩ := hres parent name rfl
    split
    · exact ⟨e, by simp⟩
    · next hne =>
      obtain ⟨hv, cs, hcs, hle, hw⟩ := hname.resolve_left hne
      split
      · exact ⟨e, by simp⟩
      · rcases vfsInodeNew_cases e.shape heap (.file []) mode with
          ⟨s₂, heq₂, f⟩ | ⟨n, s₂, heq₂, f, hn, hl, -⟩ <;> rw [heq₂]
        · exact ⟨e.trans (e.shape.evolves f), by simp⟩
        · dsimp only
          rcases copyData_cases heap data s₂ with ⟨s₃, heq₃, hq⟩ | ⟨copy, s₃, heq₃, hq, hcopy⟩ <;> rw [heq₃]
          all_goals
            have f₃ : Frame r s₁ s₃ := f.trans hq.frame
            have e₃ := e.trans (e.shape.evolves f₃)
            have hn₃ : ¬ Reach s₃ r n := by rwa [f₃.reach]
          · exact ⟨e₃.trans (e₃.shape.evolves (frame_kfree hn₃)), by simp⟩
          · have hcopy₃ : ∀ p, copy = some p → ¬ Reach s₃ r p := by
              intro p hp hreach
              rw [f₃.reach, ← f.reach] at hreach
              exact hcopy p hp ((e.shape.frame f).live p hreach)
            obtain ⟨e₄, hmade⟩ := @Shape.fillIn s₃ r parent n heap name path
              ⟨mode, data.length, .file data⟩ copy e₃.shape ha (f₃.reach.mpr hd) hv cs hcs hle
              (f₃.grows.walk .root hw) hn₃ (hq.live hl) hcopy₃ rfl _ rfl
            exact ⟨e₃.trans e₄, hmade⟩

theorem vfsSymlink_spec {target path : Text} (h : Shape s r) (hr : s.root = some r) :
    Evolves r s (vfsSymlink heap target path s).2 ∧
    ((vfsSymlink heap target path s).1 = 0 →
      Created r path ⟨sIflnk ||| 0o777#32, target.length, .symlink target⟩
        (vfsSymlink heap target path s).2) := by
  have hspec := @vfsLookupParent_spec s r heap path h hr
  unfold vfsSymlink
  split
  · next heq =>
    rw [heq] at hspec
    exact ⟨hspec.1, by simp⟩
  · next parent name s₁ heq =>
    rw [heq] at hspec
    obtain ⟨e, hres⟩ := hspec
    dsimp only at e hres
    obtain ⟨ha, hd, hname⟩ := hres parent name rfl
    split
    · exact ⟨e, by simp⟩
    · next hne =>
      obtain ⟨hv, cs, hcs, hle, hw⟩ := hname.resolve_left hne
      split
      · exact ⟨e, by simp⟩
      · rcases vfsInodeNew_cases e.shape heap (.symlink []) (sIflnk ||| 0o777#32) with
          ⟨s₂, heq₂, f⟩ | ⟨n, s₂, heq₂, f, hn, hl, -⟩ <;> rw [heq₂]
        · exact ⟨e.trans (e.shape.evolves f), by simp⟩
        · dsimp only
          rcases kmalloc_cases heap s₂ with ⟨s₃, heq₃, hq⟩ | ⟨copy, s₃, heq₃, -, hcopy, hq, -⟩ <;> rw [heq₃]
          all_goals
            have f₃ : Frame r s₁ s₃ := f.trans hq.frame
            have e₃ := e.trans (e.shape.evolves f₃)
            have hn₃ : ¬ Reach s₃ r n := by rwa [f₃.reach]
          · exact ⟨e₃.trans (e₃.shape.evolves (frame_kfree hn₃)), by simp⟩
          · have hcopy₃ : ∀ p, some copy = some p → ¬ Reach s₃ r p := by
              intro p hp hreach
              rw [f₃.reach, ← f.reach, ← Option.some.inj hp] at hreach
              exact hcopy ((e.shape.frame f).live copy hreach)
            obtain ⟨e₄, hmade⟩ := @Shape.fillIn s₃ r parent n heap name path
              ⟨sIflnk ||| 0o777#32, target.length, .symlink target⟩ (some copy) e₃.shape ha
              (f₃.reach.mpr hd) hv cs hcs hle (f₃.grows.walk .root hw) hn₃ (hq.live hl) hcopy₃ rfl _ rfl
            exact ⟨e₃.trans e₄, hmade⟩

/-! ### Runs -/

/-- The calls that create something. -/
inductive Call
  | mkdir (path : Text) (mode : BitVec 32)
  | create (path : Text) (mode : BitVec 32) (data : List UInt8)
  | symlink (target path : Text)

def Call.run (heap : Heap) : Call → Vfs → Int × Vfs
  | .mkdir path mode => vfsMkdir heap path mode
  | .create path mode data => vfsCreate heap path mode data
  | .symlink target path => vfsSymlink heap target path

theorem Call.evolves (c : Call) (h : Shape s r) (hr : s.root = some r) :
    Evolves r s (c.run heap s).2 := by
  cases c with
  | mkdir path mode => exact (vfsMkdir_spec h hr).1
  | create path mode data => exact (vfsCreate_spec h hr).1
  | symlink target path => exact (vfsSymlink_spec h hr).1

/-- The trees that these calls build after `vfs_init`, whatever they are given and the heap answers. -/
inductive Built : Vfs → Prop
  | init (heap : Heap) (s : Vfs) : (vfsInit heap s).root ≠ none → Built (vfsInit heap s)
  | call {s : Vfs} (heap : Heap) (c : Call) : Built s → Built (c.run heap s).2

/-- A directory without entries. -/
theorem shape_root (hl : r ∈ s.live) (hd : (s.inodes r).node = .dir []) : Shape s r := by
  have hent : s.entries r = [] := entries_dir hd
  have hreach : ∀ p, Reach s r p → p = r := by
    intro p hp
    induction hp with
    | root => rfl
    | entry _ he ih =>
      rw [ih, hent] at he
      simp at he
  refine ⟨by rw [Vfs.type, hd]; rfl, fun p hp => hreach p hp ▸ hl, fun p e hp he => ?_,
    fun p p' e e' hp hp' he => ?_, fun p hp => ?_, fun p e hp he => ?_⟩
  · rw [hreach p hp, hent] at he
    simp at he
  · rw [hreach p hp, hent] at he
    simp at he
  · rw [hreach p hp, hent]
    exact List.nodup_nil
  · rw [hreach p hp, hent] at he
    simp at he

theorem Built.shape (hb : Built s) : ∃ r, s.root = some r ∧ Shape s r := by
  induction hb with
  | init heap s hroot =>
    unfold vfsInit vfsInodeNew at hroot ⊢
    rcases kmalloc_cases heap s with ⟨s', hm, hq⟩ | ⟨p, s', hm, -, -, hq, hlive⟩ <;> rw [hm] at hroot ⊢
    · simp at hroot
    · refine ⟨p, rfl, shape_root ?_ ?_⟩
      · simp [Vfs.setInode, hlive]
      · simp [Vfs.setInode]
  | call heap c _ ih =>
    obtain ⟨r, hr, h⟩ := ih
    have e := @Call.evolves _ r heap c h hr
    exact ⟨r, e.grows.root.trans hr, e.shape⟩

/-- What makes the inodes under a root a tree of names: one entry for each inode but the root, entries in
    directories only, distinct and well formed names in each. -/
structure IsTree (s : Vfs) (r : Ptr) : Prop where
  root : ∀ p e, Reach s r p → e ∈ s.entries p → e.inode ≠ r
  once : ∀ q, Reach s r q → q ≠ r → ∃! x : Ptr × Dentry,
    Reach s r x.1 ∧ x.2 ∈ s.entries x.1 ∧ x.2.inode = q
  dirs : ∀ p e, Reach s r p → e ∈ s.entries p → s.type p = .dir
  distinct : ∀ p, Reach s r p → ((s.entries p).map Dentry.name).Nodup
  names : ∀ p e, Reach s r p → e ∈ s.entries p →
    e.name ≠ [] ∧ e.name.length ≤ 255 ∧ slash ∉ e.name

theorem Shape.isTree (h : Shape s r) : IsTree s r := by
  refine ⟨h.rootFree, fun q hq hne => ?_, fun p e _ he => type_of_mem he, h.distinct,
    fun p e hp he => ⟨(h.valid p e hp he).ne_nil, (h.valid p e hp he).length_le,
      (h.valid p e hp he).slash⟩⟩
  cases hq with
  | root => exact absurd rfl hne
  | @entry p e hp he =>
    refine ⟨(p, e), ⟨hp, he, rfl⟩, ?_⟩
    rintro ⟨p', e'⟩ ⟨hp', he', heq⟩
    obtain ⟨rfl, rfl⟩ := h.unique p' p e' e hp' hp he' he heq
    rfl

/-- In every tree that the calls build. -/
theorem built_isTree (hb : Built s) : ∃ r, s.root = some r ∧ IsTree s r := by
  obtain ⟨r, hr, h⟩ := hb.shape
  exact ⟨r, hr, h.isTree⟩

/-- A heap that answers with the address after the last. -/
def rising : Heap := fun n => some n

/-- Nothing yet. -/
def noVfs : Vfs := ⟨none, fun _ => ⟨0, 0, .file []⟩, ∅, 0⟩

/-- A letter. -/
def letter (n : Nat) : Ch := if h : UInt8.ofNat (97 + n) ≠ 0 then ⟨UInt8.ofNat (97 + n), h⟩ else slash

/-- A directory `a` with a file `c` in a directory of its own and a symlink to that. -/
def someTree : Vfs :=
  (Call.run rising (.symlink [letter 1] [slash, letter 0, slash, letter 3])
    (Call.run rising (.create [slash, letter 0, slash, letter 1, slash, letter 2] 0o644 [104, 105])
      (Call.run rising (.mkdir [slash, letter 0] 0o755) (vfsInit rising noVfs)).2).2).2

theorem someTree_built : Built someTree :=
  .call rising _ (.call rising _ (.call rising _ (.init rising noVfs (by decide))))

theorem built_isTree_some : ∃ r p, someTree.root = some r ∧ IsTree someTree r ∧
    (someTree.entries r).map (fun e => (e.name, e.inode)) = [([letter 0], p)] ∧
    (someTree.entries p).map Dentry.name = [[letter 3], [letter 1]] := by
  obtain ⟨r, hr, h⟩ := built_isTree someTree_built
  have h0 : someTree.root = some 0 := by decide
  obtain rfl : r = 0 := Option.some.inj (hr.symm.trans h0)
  exact ⟨0, 1, hr, h, by decide, by decide⟩

end TypeOS.Fs
