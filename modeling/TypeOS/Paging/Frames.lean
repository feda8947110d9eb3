import TypeOS.Paging.Exact

/-! Who owns a frame.

    Two allocators with scan rules of their own share one bitmap. What keeps them apart is that
    every owned frame and every reserved one has its bit set, from `paging_init` on: an allocator
    takes a frame whose bit is clear and sets it, and only the bit of an owned page is cleared. -/

namespace TypeOS.Paging

/-! ### The boot information -/

/-- A tag of the boot information, as far as the kernel reads it; `Boot.decodeTag` has it from memory. -/
inductive MultibootTag
  | stop
  | module (modStart modEnd : BitVec 32)
  | mmap (entrySize : BitVec 32) (entries : List MmapEntry)
  | other

/-- The information GRUB leaves: its size, and its tags in order, each with its `size`. -/
structure BootInfo where
  totalSize : BitVec 32
  tags : List (BitVec 32 × MultibootTag)

/-- `multiboot_next_tag`: how far the next tag is. -/
def multibootNextTag (size : BitVec 32) : Nat := ((size + 7#32) &&& ~~~7#32).toNat

/-- What the loops over the tags see, from the tag at `offset` on: they stop at the end of the
    information and at an end tag. -/
def tagsFrom (total : Nat) : Nat → List (BitVec 32 × MultibootTag) → List MultibootTag
  | _, [] => []
  | _, (_, .stop) :: _ => []
  | offset, (size, tag) :: tags =>
    if offset < total then tag :: tagsFrom total (offset + multibootNextTag size) tags else []

/-- `multiboot_info_valid`, and the tags of a valid information. -/
def multibootTags : Option BootInfo → List MultibootTag
  | none => []
  | some info =>
    if 16 ≤ info.totalSize.toNat then tagsFrom info.totalSize.toNat 8 info.tags else []

/-- The loop of `multiboot_find_mmap`. -/
def findMmapLoop : List MultibootTag → Option (BitVec 32 × List MmapEntry)
  | [] => none
  | .mmap entrySize entries :: _ => some (entrySize, entries)
  | _ :: tags => findMmapLoop tags

/-- The loop of `multiboot_module_count`. -/
def moduleCountLoop (count : Nat) : List MultibootTag → Nat
  | [] => count
  | .module _ _ :: tags => moduleCountLoop (count + 1) tags
  | _ :: tags => moduleCountLoop count tags

/-- `multiboot_module_count`. -/
def multibootModuleCount (info : Option BootInfo) : Nat := moduleCountLoop 0 (multibootTags info)

/-- The loop of `multiboot_module_at`. -/
def moduleAtLoop (index seen : Nat) : List MultibootTag → Option (Nat × Nat)
  | [] => none
  | .module modStart modEnd :: tags =>
    if seen = index then some (modStart.toNat, modEnd.toNat) else moduleAtLoop index (seen + 1) tags
  | _ :: tags => moduleAtLoop index seen tags

/-- `multiboot_module_at`. -/
def multibootModuleAt (info : Option BootInfo) (index : Nat) : Option (Nat × Nat) :=
  moduleAtLoop index 0 (multibootTags info)

/-- What `paging_init` asks of the boot information; a memory map entry has 24 bytes. -/
def initInfo (info : Option BootInfo) : MultibootInfo where
  mmap :=
    match findMmapLoop (multibootTags info) with
    | none => none
    | some (entrySize, entries) => if 24 ≤ entrySize.toNat then some entries else none
  modules := (List.range (multibootModuleCount info)).filterMap (multibootModuleAt info)

/-- The modules among the tags. -/
def moduleRange : MultibootTag → Option (Nat × Nat)
  | .module modStart modEnd => some (modStart.toNat, modEnd.toNat)
  | _ => none

theorem moduleCountLoop_eq : ∀ (tags : List MultibootTag) (count : Nat),
    moduleCountLoop count tags = count + (tags.filterMap moduleRange).length
  | [], count => rfl
  | tag :: tags, count => by
    cases tag with
    | module a b =>
      have hcons : (MultibootTag.module a b :: tags).filterMap moduleRange =
          (a.toNat, b.toNat) :: tags.filterMap moduleRange := rfl
      rw [moduleCountLoop, moduleCountLoop_eq tags, hcons, List.length_cons]
      omega
    | stop | mmap | other =>
      rw [List.filterMap_cons_none rfl]
      exact moduleCountLoop_eq tags count

theorem moduleAtLoop_eq : ∀ (tags : List MultibootTag) (seen k : Nat),
    moduleAtLoop (seen + k) seen tags = (tags.filterMap moduleRange)[k]?
  | [], _, _ => rfl
  | tag :: tags, seen, k => by
    cases tag with
    | module a b =>
      have hcons : (MultibootTag.module a b :: tags).filterMap moduleRange =
          (a.toNat, b.toNat) :: tags.filterMap moduleRange := rfl
      rw [moduleAtLoop, hcons]
      cases k with
      | zero => rw [if_pos (Nat.add_zero _).symm, List.getElem?_cons_zero]
      | succ k =>
        rw [if_neg (by omega), List.getElem?_cons_succ, ← moduleAtLoop_eq tags (seen + 1) k,
          Nat.add_right_comm, Nat.add_assoc]
    | stop | mmap | other =>
      rw [List.filterMap_cons_none rfl]
      exact moduleAtLoop_eq tags seen k

theorem range_filterMap_getElem? {A : Type} (l : List A) :
    (List.range l.length).filterMap (l[·]?) = l := by
  induction l with
  | nil => rfl
  | cons a l ih =>
    have hcons : ∀ k : List Nat, (0 :: k).filterMap ((a :: l)[·]?) =
        a :: k.filterMap ((a :: l)[·]?) := fun k => rfl
    rw [List.length_cons, List.range_succ_eq_map, hcons, List.filterMap_map]
    exact congrArg _ ih

/-- Counting the modules and asking for each by its number gives them all. -/
theorem initInfo_modules (info : Option BootInfo) :
    (initInfo info).modules = (multibootTags info).filterMap moduleRange := by
  have hat : multibootModuleAt info = (((multibootTags info).filterMap moduleRange)[·]?) := by
    funext k
    rw [multibootModuleAt, ← moduleAtLoop_eq, Nat.zero_add]
  rw [initInfo, multibootModuleCount, moduleCountLoop_eq, Nat.zero_add, hat]
  exact range_filterMap_getElem? _

/-! ### Reserved frames -/

/-- Some byte of `[start, stop)` lies in the frame. -/
def Meets (f start stop : Nat) : Prop := ∃ a, start ≤ a ∧ a < stop ∧ a / pageSize = f

theorem Meets.reserves {f start stop : Nat} (h : Meets f start stop) (hlt : stop < 2 ^ 63) :
    reserves start stop f := by
  obtain ⟨a, h1, h2, rfl⟩ := h
  rw [Paging.reserves, u64_of_lt (by simp only [pageSize]; omega)]
  simp only [pageSize]
  omega

/-- The frames no allocator may hand out: frame 0, those of the kernel image, of the boot stack and
    of the fixed images, and those of the modules. -/
def Kept (im : Image) (info : Option BootInfo) (f : Nat) : Prop :=
  f = 0 ∨ Meets f 0 im.kernelEnd ∨ Meets f im.stackBottom im.stackTop ∨
    Meets f userImagePhysStart userImagePhysEnd ∨
    ∃ modStart modEnd, .module modStart modEnd ∈ multibootTags info ∧
      Meets f modStart.toNat modEnd.toNat

variable {im : Image} {mem : Memory} {info : Option BootInfo} {s s' : Vm} {f g : Nat}
  {pages tables : Set Nat}

/-- `paging_init` reserves what must be kept, whatever the memory map gives away. -/
theorem pagingInitFrames_kept (h : Kept im info f) :
    bitmapTest (pagingInitFrames im mem (initInfo info)) f = true := by
  obtain ⟨-, -, -, -, hbits⟩ := pagingInitFrames_spec im mem (initInfo info)
  rw [hbits]
  rcases Nat.lt_or_ge f maxFrames with hlt | hge
  · have hend := im.end_lt
    have hkernel : Meets f 0 im.kernelEnd → reserves 0 (min maxPhysMem im.kernelEnd) f := by
      rintro ⟨a, -, h2, rfl⟩
      simp only [maxFrames, maxPhysMem, pageSize] at *
      exact Meets.reserves ⟨a, Nat.zero_le _, by omega, rfl⟩ (by omega)
    rcases h with rfl | h | h | h | ⟨a, b, hm, h⟩
    · have htables := im.tables_le
      simp only [pageSize] at htables
      rw [decide_eq_true (hkernel ⟨0, le_refl _, by omega, Nat.zero_div _⟩)]
      simp
    · rw [decide_eq_true (hkernel h)]
      simp
    · rw [decide_eq_true (h.reserves (by simp only [Image.stackTop, Image.stackBottom]; omega))]
      simp
    · rw [decide_eq_true (h.reserves (by decide))]
      simp
    · have hmod : (a.toNat, b.toNat) ∈ (initInfo info).modules := by
        rw [initInfo_modules, List.mem_filterMap]
        exact ⟨_, hm, rfl⟩
      have hex : ∃ m ∈ (initInfo info).modules, reserves m.1 m.2 f :=
        ⟨_, hmod, h.reserves (lt_trans b.isLt (by decide))⟩
      rw [decide_eq_true hex]
      simp
  · rw [show bitmapTest (mapFrames im mem (initInfo info)) f = true from if_pos hge]
    simp

/-- Growing the identity map clears no bit. -/
theorem extendIdentityFrom_bits (im : Image) : ∀ (n addr : Nat) {s : Vm} {tag : Nat → Option Path},
    Forest s tag → bitmapTest s f = true → bitmapTest (extendIdentityFrom im n addr s) f = true
  | 0, _, _, _, _, hf => hf
  | n + 1, addr, s, tag, h, hf => by
    rcases hm : pagingMapPage im s addr addr (pagePresent ||| pageWritable) with ⟨ok, s₁⟩
    obtain ⟨tag₁, g⟩ := pagingMapPage_mapped h hm
    rw [extendIdentityFrom, hm]
    cases ok with
    | false => exact g.bits f hf
    | true => exact extendIdentityFrom_bits im n (addr + pageSize) g.forest (g.bits f hf)

theorem pagingInit_bits (hf : bitmapTest (pagingInitFrames im mem (initInfo info)) f = true) :
    bitmapTest (pagingInit im mem (initInfo info)) f = true :=
  extendIdentityFrom_bits im _ _ (forest_initFrames im mem (initInfo info)) hf

/-! ### The allocators -/

/-- The lowest free frame is handed out, or nothing happens. -/
theorem pagingAllocPage_cases (hnull : bitmapTest s 0 = true) :
    pagingAllocPage s = (none, s) ∨
    ∃ f, bitmapTest s f = false ∧ pagingAllocPage s = (some (f * pageSize), bitmapSet s f) := by
  rw [pagingAllocPage]
  cases hf : firstFrom (fun i => !bitmapTest s i) s.totalFrames 0 with
  | none => exact Or.inl rfl
  | some f =>
    obtain ⟨-, -, h3, -⟩ := firstFrom_some hf
    have hfree : bitmapTest s f = false := by simpa using h3
    have hne : f * pageSize ≠ 0 := by
      intro hc
      rcases Nat.mul_eq_zero.mp hc with rfl | hc
      · rw [hnull] at hfree
        simp at hfree
      · simp at hc
    exact Or.inr ⟨f, hfree, by simp only [framePtr, if_neg hne]⟩

/-! ### Runs -/

/-- The frame behind an address an allocator returned; `NULL` is none. -/
def frameOf (r : Option Nat) : Set Nat := {f | ∃ a, r = some a ∧ a / pageSize = f}

/-- The frames `paging_init` took for the tables of the identity map. -/
def mapTables (im : Image) (mem : Memory) (info : Option BootInfo) : Set Nat :=
  {f | bitmapTest (pagingInitFrames im mem (initInfo info)) f = false ∧
    bitmapTest (pagingInit im mem (initInfo info)) f = true}

/-- The runs after `paging_init`, with the frames owned as pages and as tables: what an allocator
    returns is owned from then on, and an owned page may be freed. -/
inductive FrameRun (im : Image) (mem : Memory) (info : Option BootInfo) :
    Vm → Set Nat → Set Nat → Prop
  | init : FrameRun im mem info (pagingInit im mem (initInfo info)) ∅ (mapTables im mem info)
  | allocPage {s : Vm} {pages tables : Set Nat} (h : FrameRun im mem info s pages tables) :
    FrameRun im mem info (pagingAllocPage s).2 (pages ∪ frameOf (pagingAllocPage s).1) tables
  | allocTable {s : Vm} {pages tables : Set Nat} (h : FrameRun im mem info s pages tables) :
    FrameRun im mem info (pagingAllocTable im s).2 pages
      (tables ∪ {f | (pagingAllocTable im s).1 = some f})
  | freePage {s : Vm} {pages tables : Set Nat} (page : Nat) (hpage : page % pageSize = 0)
    (hown : page / pageSize ∈ pages) (h : FrameRun im mem info s pages tables) :
    FrameRun im mem info (pagingFreePage s page) (pages \ {page / pageSize}) tables

/-- Every owned frame and every kept one is in use, and no frame has two owners. -/
structure Owned (im : Image) (info : Option BootInfo) (s : Vm) (pages tables : Set Nat) :
    Prop where
  kept : ∀ f, Kept im info f → bitmapTest s f = true
  page : ∀ f ∈ pages, bitmapTest s f = true
  table : ∀ f ∈ tables, bitmapTest s f = true
  pages_kept : ∀ f ∈ pages, ¬ Kept im info f
  tables_kept : ∀ f ∈ tables, ¬ Kept im info f
  disjoint : ∀ f ∈ pages, f ∉ tables

theorem Owned.null (h : Owned im info s pages tables) : bitmapTest s 0 = true :=
  h.kept 0 (Or.inl rfl)

/-- A frame may be handed out: it has no owner and is not to be kept. -/
def Free (im : Image) (info : Option BootInfo) (pages tables : Set Nat) (f : Nat) : Prop :=
  f ∉ pages ∧ f ∉ tables ∧ ¬ Kept im info f

theorem Owned.free (h : Owned im info s pages tables) (hf : bitmapTest s f = false) :
    Free im info pages tables f := by
  have hset : ∀ {p : Prop}, (p → bitmapTest s f = true) → ¬ p := by
    intro p hp hc
    rw [hp hc] at hf
    simp at hf
  exact ⟨hset (h.page f), hset (h.table f), hset (h.kept f)⟩

/-- Setting a free bit and owning its frame, as a page or as a table, keeps the books. -/
theorem Owned.take (h : Owned im info s pages tables) (hf : bitmapTest s f = false)
    (hbits : ∀ g, bitmapTest s' g = (decide (g = f) || bitmapTest s g)) :
    Owned im info s' (pages ∪ {f}) tables ∧ Owned im info s' pages (tables ∪ {f}) := by
  obtain ⟨hp, ht, hk⟩ := h.free hf
  have hself : bitmapTest s' f = true := by rw [hbits, decide_eq_true rfl, Bool.true_or]
  have hold : ∀ g, bitmapTest s g = true → bitmapTest s' g = true := by
    intro g hg
    rw [hbits, hg, Bool.or_true]
  constructor
  · refine ⟨fun g hg => hold g (h.kept g hg), ?_, fun g hg => hold g (h.table g hg), ?_,
      h.tables_kept, ?_⟩
    · rintro g (hg | rfl)
      · exact hold g (h.page g hg)
      · exact hself
    · rintro g (hg | rfl)
      · exact h.pages_kept g hg
      · exact hk
    · rintro g (hg | rfl)
      · exact h.disjoint g hg
      · exact ht
  · refine ⟨fun g hg => hold g (h.kept g hg), fun g hg => hold g (h.page g hg), ?_, h.pages_kept,
      ?_, ?_⟩
    · rintro g (hg | rfl)
      · exact hold g (h.table g hg)
      · exact hself
    · rintro g (hg | rfl)
      · exact h.tables_kept g hg
      · exact hk
    · rintro g hg (hc | rfl)
      · exact h.disjoint g hg hc
      · exact hp hg

theorem frameOf_some {a : Nat} (h : (some a : Option Nat) = some (f * pageSize)) :
    frameOf (some a) = {f} := by
  ext g
  rw [frameOf, Set.mem_ofPred_eq, Set.mem_singleton_iff, h]
  constructor
  · rintro ⟨b, hb, rfl⟩
    rw [← Option.some.inj hb, frame_div _]
  · rintro rfl
    exact ⟨_, rfl, frame_div _⟩

theorem Owned.allocPage (h : Owned im info s pages tables) :
    Owned im info (pagingAllocPage s).2 (pages ∪ frameOf (pagingAllocPage s).1) tables := by
  rcases pagingAllocPage_cases h.null with ha | ⟨f, hf, ha⟩
  · rw [ha, show frameOf none = ∅ by ext g; simp [frameOf], Set.union_empty]
    exact h
  · rw [ha, frameOf_some rfl]
    exact (h.take hf fun g => bitmapTest_bitmapSet).1

theorem Owned.allocTable (h : Owned im info s pages tables) :
    Owned im info (pagingAllocTable im s).2 pages
      (tables ∪ {f | (pagingAllocTable im s).1 = some f}) := by
  rcases ha : pagingAllocTable im s with ⟨_ | f, s'⟩
  · rw [pagingAllocTable_none h.null ha, show {f : Nat | (none : Option Nat) = some f} = ∅ by
      ext g; simp, Set.union_empty]
    exact h
  · have hfresh := pagingAllocTable_some h.null ha
    rw [show {g : Nat | some f = some g} = {f} by ext g; simp [eq_comm]]
    exact (h.take hfresh.free hfresh.bits).2

theorem Owned.freePage (h : Owned im info s pages tables) {page : Nat}
    (hown : page / pageSize ∈ pages) :
    Owned im info (pagingFreePage s page) (pages \ {page / pageSize}) tables := by
  have hkeep : ∀ g, g ≠ page / pageSize → bitmapTest s g = true →
      bitmapTest (pagingFreePage s page) g = true := by
    intro g hne hg
    rw [(pagingFreePage_eq s page).2.2.2 g hne, hg]
  refine ⟨?_, ?_, ?_, fun g hg => h.pages_kept g hg.1, h.tables_kept, fun g hg => h.disjoint g hg.1⟩
  · intro g hg
    exact hkeep g (by rintro rfl; exact h.pages_kept _ hown hg) (h.kept g hg)
  · intro g hg
    exact hkeep g hg.2 (h.page g hg.1)
  · intro g hg
    exact hkeep g (by rintro rfl; exact h.disjoint _ hown hg) (h.table g hg)

theorem FrameRun.owned (h : FrameRun im mem info s pages tables) :
    Owned im info s pages tables := by
  induction h with
  | init =>
    refine ⟨fun f hf => pagingInit_bits (pagingInitFrames_kept hf), by simp, fun f hf => hf.2,
      by simp, fun f hf hc => ?_, by simp⟩
    have hbit := hf.1
    rw [pagingInitFrames_kept hc] at hbit
    simp at hbit
  | allocPage _ ih => exact ih.allocPage
  | allocTable _ ih => exact ih.allocTable
  | freePage page _ hown _ ih => exact ih.freePage hown

/-- In every run after `paging_init` an allocator hands out a frame that has no owner and is not
    kept for the kernel, the stack, the fixed images or a module, or returns `NULL` and takes
    nothing. -/
theorem frames_owned_once (h : FrameRun im mem info s pages tables) :
    (∀ page, (pagingAllocPage s).1 = some page →
      page ≠ 0 ∧ page % pageSize = 0 ∧ Free im info pages tables (page / pageSize)) ∧
    (∀ table, (pagingAllocTable im s).1 = some table → Free im info pages tables table) ∧
    ((pagingAllocPage s).1 = none → (pagingAllocPage s).2 = s) ∧
    ((pagingAllocTable im s).1 = none → (pagingAllocTable im s).2 = s) := by
  have ho := h.owned
  refine ⟨fun page hp => ?_, fun table ht => ?_, fun hn => ?_, fun hn => ?_⟩
  · rcases pagingAllocPage_cases ho.null with ha | ⟨f, hf, ha⟩
    · rw [ha] at hp
      simp at hp
    · rw [ha, Option.some.injEq] at hp
      subst hp
      rw [frame_div _]
      refine ⟨fun hc => ?_, Nat.mul_mod_left .., ho.free hf⟩
      rcases Nat.mul_eq_zero.mp hc with rfl | hc
      · rw [ho.null] at hf
        simp at hf
      · simp at hc
  · exact ho.free (pagingAllocTable_some ho.null (Prod.ext ht rfl)).free
  · rcases pagingAllocPage_cases ho.null with ha | ⟨f, -, ha⟩
    · rw [ha]
    · rw [ha] at hn
      simp at hn
  · exact pagingAllocTable_none ho.null (Prod.ext hn rfl)

/-- A module at 3 MiB, and two pages handed out one after the other. -/
theorem frames_owned_once_module :
    let info : Option BootInfo := some ⟨32#32, [(16#32, .module 0x300000#32 0x300800#32)]⟩
    let s := (pagingAllocPage (pagingInit smallImage (fun _ _ => 0#64) (initInfo info))).2
    ∀ page, (pagingAllocPage s).1 = some page → page ≠ 0 ∧ page / pageSize ≠ 0x300 := by
  intro info s page hp
  have hinit := @FrameRun.init smallImage (fun _ _ => 0#64) info
  obtain ⟨hne, -, hfree⟩ := (frames_owned_once hinit.allocPage).1 page hp
  refine ⟨hne, fun hc => hfree.2.2 ?_⟩
  rw [hc]
  exact Or.inr (Or.inr (Or.inr (Or.inr ⟨0x300000#32, 0x300800#32, by simp [info, multibootTags, tagsFrom],
    0x300000, by decide, by decide, by decide⟩)))

end TypeOS.Paging
