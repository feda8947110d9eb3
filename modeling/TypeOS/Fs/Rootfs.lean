import TypeOS.Fs.Unpack
import TypeOS.Boot.Modules

/-! The root file system that `kmain` sets up.

    `vfs_mkdir`, `vfs_create` and `vfs_symlink` called one after the other answer and leave what the same
    calls of a `Namespace` do. `initramfs_load` is such a run: it finds the first module, unpacks it and
    makes two device files; `kmain` then makes `/proc` and `/sys`. What is there at the end is the
    archive's listing with four paths added to it (`addPath`), each where there is nothing. -/

namespace TypeOS.Fs

variable {s : Vfs} {r : Ptr} {heap : Heap} {V V' : Namespace} {phys : Phys} {H : Set Ptr} {es : List Entry}
  {cs : List Text} {name : Text}

/-! ### Calls one after the other -/

/-- What a call does to the paths. -/
def Call.answer : Call → Namespace → Int × Namespace
  | .mkdir path mode, V => V.mkdir path mode
  | .create path mode data, V => V.create path mode data
  | .symlink target path, V => V.symlink target path

/-- The results of calls and where they lead. -/
def runAll {σ : Type} (step : Call → σ → Int × σ) : List Call → σ → List Int × σ
  | [], s => ([], s)
  | c :: calls, s => ((step c s).1 :: (runAll step calls (step c s).2).1, (runAll step calls (step c s).2).2)

/-- A root without entries. -/
def Namespace.rootOnly : Namespace := fun cs => if cs = [] then some newDir else none

theorem Mirrors.call (h : Mirrors heap r H s V) (c : Call) :
    (c.run heap s).1 = (c.answer V).1 ∧ Mirrors heap r H (c.run heap s).2 (c.answer V).2 := by
  cases c with
  | mkdir path mode => exact h.mkdir
  | create path mode data => exact h.create
  | symlink target path => exact h.symlink

theorem Mirrors.runAll (calls : List Call) : ∀ {s : Vfs} {V : Namespace}, Mirrors heap r H s V →
    (runAll (Call.run heap) calls s).1 = (runAll Call.answer calls V).1 ∧
      Mirrors heap r H (runAll (Call.run heap) calls s).2 (runAll Call.answer calls V).2 := by
  induction calls with
  | nil => exact fun h => ⟨rfl, h⟩
  | cons c calls ih =>
    intro s V h
    obtain ⟨hrc, h₁⟩ := h.call c
    obtain ⟨hrcs, h₂⟩ := ih h₁
    exact ⟨by rw [Fs.runAll, Fs.runAll, hrc, hrcs], h₂⟩

/-- `vfs_init` makes the root. -/
theorem vfsInit_mirrors (h : Roomy heap s) :
    ∃ r, Mirrors heap r ∅ (vfsInit heap s) Namespace.rootOnly := by
  obtain ⟨p, s', hm, -, -, hlive, hroomy⟩ := h.kmalloc
  have hinit : vfsInit heap s = { s'.setInode p Namespace.newDir with root := some p } := by
    rw [vfsInit, vfsInodeNew, hm]
    rfl
  have hnode : (vfsInit heap s).inodes p = Namespace.newDir := by
    rw [hinit]
    exact Function.update_self ..
  have hlv : (vfsInit heap s).live = insert p s.live := by
    rw [hinit]
    exact hlive
  refine ⟨p, shape_root (by simp [hlv]) (by rw [hnode]; rfl), by rw [hinit], ?_, ?_, by simp⟩
  · rw [hinit]
    exact hroomy.mono rfl (Finset.Subset.refl _)
  · funext cs
    cases cs with
    | nil =>
      rw [Vfs.view, Vfs.walk, Option.map_some, hnode]
      rfl
    | cons c cs =>
      have hnone : (vfsInit heap s).child p c = none := by
        rw [Vfs.child, entries_dir (by rw [hnode]; rfl)]
        rfl
      rw [Vfs.view, Vfs.walk, hnone]
      rfl

/-- With memory available, any calls on a new tree return what they return for the paths alone, and leave
    a tree with the paths that these leave. -/
theorem vfs_refines_namespace (h : Roomy heap s) (calls : List Call) :
    ∃ r, (runAll (Call.run heap) calls (vfsInit heap s)).2.root = some r ∧
      (runAll (Call.run heap) calls (vfsInit heap s)).1 = (runAll Call.answer calls .rootOnly).1 ∧
      (runAll (Call.run heap) calls (vfsInit heap s)).2.view r = (runAll Call.answer calls .rootOnly).2 := by
  obtain ⟨r, hm⟩ := vfsInit_mirrors h
  obtain ⟨hrc, hm'⟩ := hm.runAll calls
  exact ⟨r, hm'.root, hrc, hm'.view⟩

theorem roomy_noVfs : Roomy rising noVfs := by
  refine ⟨fun n hn => ⟨n, rfl, Finset.notMem_empty n⟩, fun m n _ _ h => Option.some.inj h⟩

/-- The same file made twice. -/
theorem vfs_refines_namespace_twice :
    let make : Call := .create [slash, letter 3, slash, letter 5] 0o644#32 [104]
    (runAll (Call.run rising) [make, make] (vfsInit rising noVfs)).1 = [0, -1] := by
  intro make
  obtain ⟨r, -, hrc, -⟩ := vfs_refines_namespace roomy_noVfs [make, make]
  exact hrc.trans (by decide)

/-! ### The calls of the boot -/

/-- `module->mod_start`. -/
def modStart (mem : Bytes) (module : Nat) : Nat := Boot.field mem (module + 8)

/-- `module->mod_end`. -/
def modEnd (mem : Bytes) (module : Nat) : Nat := Boot.field mem (module + 12)

/-- `multiboot_module_size`. -/
def multibootModuleSize (mem : Bytes) : Option Nat → Nat
  | none => 0
  | some module =>
    if modEnd mem module ≤ modStart mem module then 0 else modEnd mem module - modStart mem module

/-- "dev". -/
def dev : Text := [letter 3, letter 4, letter 21]
/-- "console". -/
def console : Text := [letter 2, letter 14, letter 13, letter 18, letter 14, letter 11, letter 4]
/-- "null". -/
def null : Text := [letter 13, letter 20, letter 11, letter 11]
/-- "proc". -/
def proc : Text := [letter 15, letter 17, letter 14, letter 2]
/-- "sys". -/
def sys : Text := [letter 18, letter 24, letter 18]

/-- The device files: a failure is only reported. -/
def makeDevices (heap : Heap) (s : Vfs) : Vfs :=
  let s := (vfsCreate heap (slash :: dev ++ slash :: console) (sIfreg ||| 0o620#32) [] s).2
  (vfsCreate heap (slash :: dev ++ slash :: null) (sIfreg ||| 0o666#32) [] s).2

/-- `initramfs_load`, of whose loops the one over the tags takes at most `n` turns and the one over the
    archive `k`: no result if either is still at it. -/
def initramfsLoad (heap : Heap) (phys : Phys) (behind : Nat → Text) (info n k : Nat) (s : Vfs) :
    Option Int × Vfs :=
  let s := vfsInit heap s
  match (Boot.multibootModuleAt phys.bytes info 0 n).result with
  | none => (none, s)
  | some none => (some 0, s)
  | some (some module) =>
    let size := multibootModuleSize phys.bytes (some module)
    if size = 0 then (some (-1), s)
    else
      match cpioPopulateVfsPhys heap phys behind (modStart phys.bytes module) size k s with
      | (none, s) => (none, s)
      | (some rc, s) => if rc ≠ 0 then (some rc, s) else (some 0, makeDevices heap s)

/-- The directories that `kmain` makes before it starts the first program. -/
def makeMountPoints (heap : Heap) (s : Vfs) : Vfs :=
  (vfsMkdir heap (slash :: sys) 0o755#32 (vfsMkdir heap (slash :: proc) 0o755#32 s).2).2

/-! ### Adding a path -/

/-- A path where there is nothing is added with the directories above it that are missing. -/
def addPath (U : List Text → Option Inode) (path : List Text) (inode : Inode) (p : List Text) :
    Option Inode :=
  if U path ≠ none then U p
  else if p = path then some inode
  else if U p = none ∧ p <+: path then some Namespace.newDir
  else U p

/-- What is under each path but the root's, and no path without the directories above it. -/
structure Has (V : Namespace) (U : List Text → Option Inode) : Prop where
  root : V.isDir [] = true
  items : ∀ p, p ≠ [] → V.item p = U p
  closed : ∀ q p, q <+: p → q ≠ [] → U p ≠ none → U q ≠ none

/-- Nothing is in the way but directories. -/
def Passable (U : List Text → Option Inode) (cs : List Text) : Prop :=
  ∀ q, q <+: cs → q ≠ [] → U q = none ∨ (U q).any (fun i => i.node.type = .dir) = true

theorem addPath_same {U : List Text → Option Inode} {path : List Text} {inode : Inode} (h : U path ≠ none)
    (p : List Text) : addPath U path inode p = U p := if_pos h

theorem addPath_new {U : List Text → Option Inode} {path : List Text} {inode : Inode} (h : U path = none)
    (p : List Text) : addPath U path inode p = if p = path then some inode
      else if U p = none ∧ p <+: path then some Namespace.newDir else U p := if_neg (not_not.mpr h)

/-- There is then what was there, and the path with what leads to it. -/
theorem addPath_ne_none {U : List Text → Option Inode} {path p : List Text} {inode : Inode}
    (h : U path = none) : addPath U path inode p ≠ none ↔ p <+: path ∨ U p ≠ none := by
  rw [addPath_new h]
  split
  · next hp => exact iff_of_true (by simp) (.inl (hp ▸ List.prefix_rfl))
  split
  · next hp => exact iff_of_true (by simp) (.inl hp.2)
  · next hp =>
    refine ⟨.inr, fun hor => hor.elim (fun hpre hnone => hp ⟨hnone, hpre⟩) id⟩

theorem addPath_closed {U : List Text → Option Inode} {path : List Text} {inode : Inode}
    (h : ∀ q p, q <+: p → q ≠ [] → U p ≠ none → U q ≠ none) (q p : List Text) (hqp : q <+: p)
    (hq : q ≠ []) (hp : addPath U path inode p ≠ none) : addPath U path inode q ≠ none := by
  by_cases hfree : U path = none
  · rw [addPath_ne_none hfree] at hp ⊢
    exact hp.imp hqp.trans (h q p hqp hq)
  · rw [addPath_same hfree] at hp ⊢
    exact h q p hqp hq hp

/-- A call that makes an inode adds its path. -/
theorem Has.make {U : List Text → Option Inode} (h : Has V U) (cs : List Text) (name : Text)
    (present : Int) (path : Text) (inode : Inode)
    (habs : vfsIsAbsolute path = true) (hcs : components path = cs ++ [name])
    (hlen : ∀ c ∈ cs ++ [name], c.length ≤ 255) (hne : name ≠ []) (hway : Passable U cs) :
    Has (V.make present path inode).2 (addPath U (cs ++ [name]) inode.bare) := by
  have hway' : ∀ q, q <+: cs → V.item q = none ∨ V.isDir q = true := by
    intro q hq
    rcases eq_or_ne q [] with rfl | hq0
    · exact .inr h.root
    · rw [Namespace.isDir_eq, h.items q hq0]
      exact hway q hq hq0
  have hpath : V.item (cs ++ [name]) = U (cs ++ [name]) := h.items _ (by simp)
  by_cases hfree : U (cs ++ [name]) = none
  · obtain ⟨V', h1, h2, h3⟩ : ∃ V', V.make present path inode = (0, V') ∧ _ ∧ _ :=
      make_spec habs hcs hlen hne h.root hway' (hpath.trans hfree)
    rw [h1]
    refine ⟨h2, fun p hp => ?_, addPath_closed h.closed⟩
    rw [h3, h.items p hp, addPath_new hfree]
    by_cases hpp : p = cs ++ [name]
    · rw [if_pos hpp, if_pos hpp]
    · simp only [List.prefix_concat_iff, hpp, false_or]
  · -- the directories above it are there, so looking it up makes none
    obtain ⟨V', h1, -, h3⟩ := parents_spec hlen h.root hway'
    simp only [List.nil_append, List.nil_prefix, true_and] at h1 h3
    have hkeep : ∀ p, p ≠ [] → V'.item p = U p := by
      intro p hp
      rw [h3, h.items p hp, if_neg]
      rintro ⟨hnone, hpre⟩
      exact h.closed p _ (hpre.trans (List.prefix_append ..)) hp hfree hnone
    have hsome : (V' (cs ++ [name])).isSome = true := by
      rw [Namespace.isSome_eq, hkeep _ (by simp)]
      exact Option.isSome_iff_ne_none.mpr hfree
    have hmake : V.make present path inode = (present, V') := by
      rw [Namespace.make, Namespace.lookupParent, habs, if_pos rfl, hcs, h1]
      simp only [if_neg hne, hsome, if_true]
    rw [hmake]
    refine ⟨?_, fun p hp => (hkeep p hp).trans (addPath_same hfree p).symm, addPath_closed h.closed⟩
    rw [Namespace.isDir_eq, h3, if_neg, ← Namespace.isDir_eq]
    · exact h.root
    · exact fun hc => Namespace.item_ne h.root hc.1

/-! ### The boot -/

theorem Installed.has (h : Installed V es) : Has V (unpacked es) := by
  refine ⟨h.root, h.items, fun q p hqp _ hp => ?_⟩
  -- whatever an entry's path leads through is there
  have hmem : ∀ e ∈ es, q <+: e.path → unpacked es q ≠ none := by
    intro e he hq
    rw [unpacked]
    split
    · simp
    · rw [if_pos ⟨e, he, hq⟩]
      simp
  rw [unpacked] at hp
  split at hp
  · next e he =>
    obtain rfl : e.path = p := by simpa using List.find?_some he
    exact hmem e (List.mem_of_find?_eq_some he) hqp
  · split at hp
    · next hex =>
      obtain ⟨e, he, hpe⟩ := hex
      exact hmem e he (hqp.trans hpe)
    · exact absurd rfl hp

/-- A device file. -/
def device (mode : BitVec 32) : Inode := ⟨sIfreg ||| mode, 0, .file []⟩

/-- What is under each path when the first program is started. -/
def bootItems (es : List Entry) : List Text → Option Inode :=
  let U := addPath (unpacked es) [dev, console] (device 0o620#32)
  let U := addPath U [dev, null] (device 0o666#32)
  let U := addPath U [proc] ⟨0o755#32, 0, .dir []⟩
  addPath U [sys] ⟨0o755#32, 0, .dir []⟩

theorem passable_nil {U : List Text → Option Inode} : Passable U [] := fun _ hq hq0 =>
  absurd (List.prefix_nil.mp hq) hq0

/-- A path of one name leads through the root and it. -/
theorem passable_one {U : List Text → Option Inode}
    (h : U [name] = none ∨ (U [name]).any (fun i => i.node.type = .dir) = true) : Passable U [name] := by
  intro q hq hq0
  rcases List.prefix_concat_iff.mp (show q <+: [] ++ [name] from hq) with rfl | hq
  · exact h
  · exact absurd (List.prefix_nil.mp hq) hq0

/-- Adding a path leaves a way through the others open. -/
theorem addPath_open {U : List Text → Option Inode} {path q : List Text} {inode : Inode} (hq : q ≠ path)
    (h : U q = none ∨ (U q).any (fun i => i.node.type = .dir) = true) :
    addPath U path inode q = none ∨
      (addPath U path inode q).any (fun i => i.node.type = .dir) = true := by
  rw [addPath]
  by_cases hpath : U path ≠ none
  · rwa [if_pos hpath]
  · rw [if_neg hpath, if_neg hq]
    split
    · exact .inr (by simp [Namespace.newDir, Node.type])
    · exact h

/-- `makeDevices` adds the two paths. -/
theorem Has.devices {U : List Text → Option Inode} (hm : Mirrors heap r H s V) (h : Has V U)
    (hdev : U [dev] = none ∨ (U [dev]).any (fun i => i.node.type = .dir) = true) :
    ∃ V', Mirrors heap r H (makeDevices heap s) V' ∧
      Has V' (addPath (addPath U [dev, console] (device 0o620#32)) [dev, null] (device 0o666#32)) := by
  have h₁ : Has _ (addPath U [dev, console] (device 0o620#32)) :=
    h.make [dev] console (-1) (slash :: dev ++ slash :: console) (device 0o620#32) rfl (by decide)
      (by decide) (by decide) (passable_one hdev)
  have h₂ := h₁.make [dev] null (-1) (slash :: dev ++ slash :: null) (device 0o666#32) rfl (by decide)
    (by decide) (by decide)
    (passable_one (addPath_open (by decide) hdev))
  exact ⟨_, (hm.create.2).create.2, h₂⟩

/-- So does `makeMountPoints`. -/
theorem Has.mountPoints {U : List Text → Option Inode} (hm : Mirrors heap r H s V) (h : Has V U) :
    ∃ V', Mirrors heap r H (makeMountPoints heap s) V' ∧
      Has V' (addPath (addPath U [proc] ⟨0o755#32, 0, .dir []⟩) [sys] ⟨0o755#32, 0, .dir []⟩) := by
  have h₁ : Has _ (addPath U [proc] ⟨0o755#32, 0, .dir []⟩) :=
    h.make [] proc 0 (slash :: proc) ⟨0o755#32, 0, .dir []⟩ rfl (by decide) (by decide) (by decide) passable_nil
  have h₂ := h₁.make [] sys 0 (slash :: sys) ⟨0o755#32, 0, .dir []⟩ rfl (by decide) (by decide) (by decide) passable_nil
  exact ⟨_, (hm.mkdir.2).mkdir.2, h₂⟩

theorem rootOnly_installed : Installed Namespace.rootOnly [] :=
  ⟨rfl, fun p hp => by rw [Namespace.item, Namespace.rootOnly, if_neg hp]; rfl⟩

/-- The size of a module is the length of what it holds. -/
theorem multibootModuleSize_of {mem : Bytes.Memory} {t size : Nat} (h : modEnd mem t = modStart mem t + size) :
    multibootModuleSize mem (some t) = size := by
  simp only [multibootModuleSize]
  split <;> omega

/-- When the boot loader passes an archive as the first module, and memory is available, the first program
    finds what the archive lists, and besides it the two devices and the two mount points where the archive
    has nothing. -/
theorem boot_rootfs {m : Meta} {mode : BitVec 32} {filesize info n k t : Nat} {rest A : List UInt8}
    {behind : Nat → Text} (hroomy : Roomy heap s) (hsized : Boot.WellSized phys.bytes info)
    (hn : Boot.totalSize phys.bytes info / 8 < n) (ht : (Boot.moduleTags phys.bytes info)[0]? = some t)
    (hl : Listing es) (hA : A = packed es ++ trailerBytes m mode filesize rest)
    (hmem : bytesAt phys.bytes (modStart phys.bytes t) A.length = A)
    (hend : modEnd phys.bytes t = modStart phys.bytes t + A.length)
    (hc : phys.Copies (modStart phys.bytes t) A.length) (hk : es.length < k)
    (hdev : ∀ e ∈ es, e.path = [dev] → e.kind = .dir) :
    ∃ r s', initramfsLoad heap phys behind info n k s = (some 0, s') ∧
      (makeMountPoints heap s').root = some r ∧
      ∀ cs, cs ≠ [] → (makeMountPoints heap s').item r cs = bootItems es cs := by
  have hlen : A.length < 2 ^ 32 := by
    have := Boot.field_lt phys.bytes (t + 12)
    rw [modEnd] at hend
    omega
  have hne : A.length ≠ 0 := by
    rw [hA, trailerBytes, List.length_append, List.length_append, length_newcHeader]
    have : cpioHeaderSize = 110 := rfl
    omega
  obtain ⟨r, h₀⟩ := vfsInit_mirrors hroomy
  have hl₀ : Listing ([] ++ es) := hl
  have hA₀ : A = [] ++ (packed es ++ trailerBytes m mode filesize rest) := hA
  obtain ⟨V₁, hrc, h₁, hi⟩ :=
    populatePhysLoop_packed hl₀ hc hmem hlen hA₀ rfl rfl hk h₀ rootOnly_installed
  have hway : unpacked es [dev] = none ∨
      (unpacked es [dev]).any (fun i => i.node.type = .dir) = true := by
    rw [unpacked]
    split
    · next e he =>
      obtain hp : e.path = [dev] := by simpa using List.find?_some he
      right
      rw [Entry.inode, hdev e (List.mem_of_find?_eq_some he) hp]
      rfl
    · split
      · exact .inr rfl
      · exact .inl rfl
  obtain ⟨V₂, h₂, hs₂⟩ := Has.devices h₁ hi.has hway
  obtain ⟨V₃, h₃, hs₃⟩ := Has.mountPoints h₂ hs₂
  refine ⟨r, _, ?_, h₃.root, fun cs hcs => (h₃.item cs).trans (hs₃.items cs hcs)⟩
  rw [initramfsLoad, Boot.multibootModuleAt_result hsized hn, ht]
  simp only [multibootModuleSize_of hend, if_neg hne, cpioPopulateVfsPhys]
  generalize populatePhysLoop heap phys behind (modStart phys.bytes t) A.length k 0 (vfsInit heap s) = res
    at hrc ⊢
  obtain ⟨rc, s₁⟩ := res
  obtain rfl : rc = some 0 := hrc
  rfl

/-- The bytes of `dirAndFile`, at 0x2000 behind the tags that say so. -/
def dirAndFileBytes : List UInt8 := packed dirAndFile ++ trailerBytes noMeta 0 0 []

def dirAndFileLoaded : Bytes.Memory := fun a =>
  if a < 0x2000 then
    Boot.blockAt 0x1000 [32, 0, 0, 0, 0, 0, 0, 0, 3, 0, 0, 0, 16, 0, 0, 0, 0, 0x20, 0, 0, 0x61, 0x21, 0, 0,
      0, 0, 0, 0, 8, 0, 0, 0] a
  else dirAndFileBytes.getD (a - 0x2000) 0

theorem dirAndFileLoaded_wellSized : Boot.WellSized dirAndFileLoaded 0x1000 := by
  intro t ht hlt
  have hend : Boot.multibootTagEnd dirAndFileLoaded 0x1000 = 0x1020 := by decide
  rw [hend] at ht hlt ⊢
  have hnext : Boot.multibootNextTag dirAndFileLoaded (Boot.multibootFirstTag 0x1000) = 0x1018 := by decide
  rcases ht.cases with rfl | ⟨-, -, ht⟩
  · decide
  rw [hnext] at ht
  rcases ht.cases with rfl | ⟨-, hne, -⟩
  · decide
  · exact absurd hne (by decide)

theorem dirAndFileLoaded_bytes : bytesAt dirAndFileLoaded 0x2000 dirAndFileBytes.length = dirAndFileBytes := by
  refine List.ext_getElem (length_bytesAt ..) fun i hi hi' => ?_
  simp [bytesAt, dirAndFileLoaded, hi']

theorem dirAndFileBytes_length : dirAndFileBytes.length = 0x161 := by decide +kernel

theorem boot_rootfs_dirAndFile :
    ∃ r s', initramfsLoad rising ⟨dirAndFileLoaded, fun _ _ => true⟩ (fun _ => []) 0x1000 5 3 noVfs =
        (some 0, s') ∧
      (makeMountPoints rising s').item r [[letter 3], [letter 5]] =
        some ⟨0o100644#32, 2, .file [104, 105]⟩ ∧
      (makeMountPoints rising s').item r [dev, null] = some (device 0o666#32) := by
  have hstart : modStart dirAndFileLoaded 0x1008 = 0x2000 := by decide
  have hend : modEnd dirAndFileLoaded 0x1008 = 0x2000 + 0x161 := by decide
  obtain ⟨r, s', h1, -, h3⟩ := @boot_rootfs noVfs rising ⟨dirAndFileLoaded, fun _ _ => true⟩ dirAndFile noMeta
    0 0 0x1000 5 3 0x1008 [] dirAndFileBytes (fun _ => []) roomy_noVfs dirAndFileLoaded_wellSized
    (by decide) (by decide) dirAndFile_listing rfl
    (by rw [hstart, dirAndFileLoaded_bytes]) (by rw [hend, hstart, dirAndFileBytes_length])
    (fun _ _ _ _ => rfl) (by decide) (by decide)
  exact ⟨r, s', h1, (h3 _ (by decide)).trans (by decide), (h3 _ (by decide)).trans (by decide)⟩

end TypeOS.Fs
