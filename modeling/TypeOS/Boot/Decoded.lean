import TypeOS.Boot.Modules
import TypeOS.Paging.Frames

/-! The boot information that `paging_init` is given.

    `Paging.BootInfo` has the tags as values. Here they are decoded from the block in memory, and where the
    sizes of the tags are such that the walk over the block ends at all, finding the memory map, counting the
    modules and asking for them by number give the same of the block as of the values. -/

namespace TypeOS.Boot

open Bytes (load leNat)
open Paging (MultibootTag BootInfo MmapEntry MultibootInfo)

/-- `MULTIBOOT_TAG_TYPE_MMAP`. -/
abbrev tagTypeMmap : Nat := 6

/-- A 64 bit field. -/
def field64 (mem : Bytes.Memory) (addr : Nat) : Nat := leNat (load mem addr 8)

/-- `struct multiboot_mmap_entry`. -/
def mmapEntryAt (mem : Bytes.Memory) (entry : Nat) : MmapEntry :=
  ⟨field64 mem entry, field64 mem (entry + 8), field mem (entry + 16)⟩

/-- The entries that the loop of `paging_init` comes to, at most so many. -/
def mmapEntriesFrom (mem : Bytes.Memory) (entrySize mmapEnd : Nat) : Nat → Nat → List MmapEntry
  | 0, _ => []
  | n + 1, entry =>
    if entry + entrySize ≤ mmapEnd then
      mmapEntryAt mem entry :: mmapEntriesFrom mem entrySize mmapEnd n (entry + entrySize)
    else []

/-- `mmap->entry_size`. -/
def mmapEntrySize (mem : Bytes.Memory) (mmap : Nat) : Nat := field mem (mmap + 8)

/-- The entries of a memory map; each takes a byte at least. -/
def mmapEntries (mem : Bytes.Memory) (mmap : Nat) : List MmapEntry :=
  mmapEntriesFrom mem (mmapEntrySize mem mmap) (mmap + tagSize mem mmap) (tagSize mem mmap) (mmap + 16)

/-- A tag as a value. -/
def decodeTag (mem : Bytes.Memory) (tag : Nat) : MultibootTag :=
  if tagType mem tag = tagTypeEnd then .stop
  else if tagType mem tag = tagTypeModule then
    .module (BitVec.ofNat 32 (field mem (tag + 8))) (BitVec.ofNat 32 (field mem (tag + 12)))
  else if tagType mem tag = tagTypeMmap then
    .mmap (BitVec.ofNat 32 (mmapEntrySize mem tag)) (mmapEntries mem tag)
  else .other

/-- A tag with its size. -/
def decodeSized (mem : Bytes.Memory) (tag : Nat) : BitVec 32 × MultibootTag :=
  (BitVec.ofNat 32 (tagSize mem tag), decodeTag mem tag)

/-- The information of a block, up to its end tag. -/
def bootInfoAt (mem : Bytes.Memory) (info : Nat) : Option BootInfo :=
  if info = 0 then none
  else some ⟨BitVec.ofNat 32 (totalSize mem info),
    (tagsFrom mem (multibootTagEnd mem info) (totalSize mem info / 8) (multibootFirstTag info)).map
      (decodeSized mem)⟩

/-- What `paging_init` asks of a block. -/
def initInfoAt (mem : Bytes.Memory) (info n : Nat) : MultibootInfo where
  mmap :=
    match (multibootFindTag mem info tagTypeMmap n).result.getD none with
    | none => none
    | some mmap => if 24 ≤ mmapEntrySize mem mmap then some (mmapEntries mem mmap) else none
  modules := pagingModules mem info n

variable {mem : Bytes.Memory} {info stop tag t n : Nat}

/-! ### The tags of the block and the values -/

theorem toNat_field (mem : Bytes.Memory) (addr : Nat) :
    (BitVec.ofNat 32 (field mem addr)).toNat = field mem addr := by
  rw [BitVec.toNat_ofNat, Nat.mod_eq_of_lt (field_lt mem addr)]

/-- Rounding up to 8 by a mask is rounding up by division. -/
theorem multibootNextTag_toNat (size : BitVec 32) : Paging.multibootNextTag size = roundUp8 size.toNat := by
  have hmask : ∀ x : BitVec 32, x &&& ~~~7#32 = (x >>> 3) <<< 3 := by
    refine fun x => BitVec.eq_of_getLsbD_eq fun i hi => ?_
    have hseven : (~~~7#32).getLsbD i = decide (3 ≤ i) := by
      interval_cases i <;> rfl
    rw [BitVec.getLsbD_and, hseven, BitVec.getLsbD_shiftLeft, BitVec.getLsbD_ushiftRight]
    rcases Nat.lt_or_ge i 3 with h | h
    · simp [h, Nat.not_le.mpr h]
    · simp [h, hi, Nat.not_lt.mpr h, Nat.add_sub_cancel' h]
  rw [Paging.multibootNextTag, hmask, BitVec.toNat_shiftLeft, BitVec.toNat_ushiftRight, BitVec.toNat_add,
    Nat.shiftLeft_eq, Nat.shiftRight_eq_div_pow, roundUp8]
  simp
  omega

theorem decodeTag_ne_stop (h : tagType mem t ≠ tagTypeEnd) : decodeTag mem t ≠ .stop := by
  rw [decodeTag, if_neg h]
  split
  · exact MultibootTag.noConfusion
  split
  · exact MultibootTag.noConfusion
  · exact MultibootTag.noConfusion

/-- A tag that is not the end tag is seen if it is inside the block. -/
theorem tagsFrom_cons {value : MultibootTag} (h : value ≠ .stop) (total offset : Nat) (size : BitVec 32)
    (tags : List (BitVec 32 × MultibootTag)) : Paging.tagsFrom total offset ((size, value) :: tags) =
      if offset < total then value :: Paging.tagsFrom total (offset + Paging.multibootNextTag size) tags
      else [] := by
  cases value with
  | stop => exact absurd rfl h
  | module | mmap | other => rfl

/-- The loops see the tags of the block. -/
theorem tagsFrom_decoded (total n : Nat) : ∀ offset : Nat,
    Paging.tagsFrom total offset ((tagsFrom mem (info + total) n (info + offset)).map (decodeSized mem)) =
      (tagsFrom mem (info + total) n (info + offset)).map (decodeTag mem) := by
  induction n with
  | zero => exact fun _ => rfl
  | succ n ih =>
    intro offset
    rw [tagsFrom]
    split
    · next hgo =>
      rw [List.map_cons, List.map_cons, decodeSized, tagsFrom_cons (decodeTag_ne_stop hgo.2),
        if_pos (by omega), multibootNextTag_toNat, tagSize, toNat_field, ← tagSize, multibootNextTag,
        Nat.add_assoc info, ih]
    · rfl

theorem multibootTags_bootInfoAt (mem : Bytes.Memory) (info : Nat) : Paging.multibootTags (bootInfoAt mem info) =
    (if multibootInfoValid mem info then
      tagsFrom mem (multibootTagEnd mem info) (totalSize mem info / 8) (multibootFirstTag info)
      else []).map (decodeTag mem) := by
  rw [bootInfoAt]
  by_cases h0 : info = 0
  · rw [if_pos h0, if_neg (by simp [multibootInfoValid, h0])]
    rfl
  rw [if_neg h0, Paging.multibootTags]
  have htotal : (BitVec.ofNat 32 (totalSize mem info)).toNat = totalSize mem info := toNat_field mem info
  simp only [htotal]
  by_cases h16 : 16 ≤ totalSize mem info
  · rw [if_pos h16, if_pos (by simp [multibootInfoValid, h0, h16])]
    exact tagsFrom_decoded (totalSize mem info) (totalSize mem info / 8) 8
  · rw [if_neg h16, if_neg (by simp [multibootInfoValid, h16])]
    rfl

/-! ### What is asked of them -/

theorem modules_decoded (mem : Bytes.Memory) : ∀ l : List Nat,
    (l.map (decodeTag mem)).filterMap Paging.moduleRange =
    (l.filter (tagType mem · = tagTypeModule)).map (moduleRange mem)
  | [] => rfl
  | t :: l => by
    have ih := modules_decoded mem l
    by_cases hm : tagType mem t = tagTypeModule
    · have hd : Paging.moduleRange (decodeTag mem t) = some (moduleRange mem t) := by
        rw [decodeTag, if_neg (by rw [hm]; decide), if_pos hm, Paging.moduleRange, toNat_field, toNat_field,
          moduleRange]
      rw [List.map_cons, List.filterMap_cons_some hd, ih, List.filter_cons_of_pos (by simpa using hm), List.map_cons]
    · have hd : Paging.moduleRange (decodeTag mem t) = none := by
        rw [decodeTag]
        split
        · rfl
        · split <;> rfl
      rw [List.map_cons, List.filterMap_cons_none hd, ih, List.filter_cons_of_neg (by simpa using hm)]

theorem mmap_decoded (mem : Bytes.Memory) : ∀ l : List Nat, (∀ t ∈ l, tagType mem t ≠ tagTypeEnd) →
    Paging.findMmapLoop (l.map (decodeTag mem)) =
      (l.filter (tagType mem · = tagTypeMmap)).head?.map fun t =>
        (BitVec.ofNat 32 (mmapEntrySize mem t), mmapEntries mem t)
  | [], _ => rfl
  | t :: l, h => by
    have ih := mmap_decoded mem l fun t ht => h t (List.mem_cons_of_mem _ ht)
    by_cases hm : tagType mem t = tagTypeMmap
    · have hd : decodeTag mem t = .mmap (BitVec.ofNat 32 (mmapEntrySize mem t)) (mmapEntries mem t) := by
        rw [decodeTag, if_neg (h t (List.mem_cons_self ..)), if_neg (by rw [hm]; decide), if_pos hm]
      rw [List.map_cons, hd, Paging.findMmapLoop, List.filter_cons_of_pos (by simpa using hm)]
      rfl
    · rw [List.filter_cons_of_neg (by simpa using hm), ← ih, List.map_cons, decodeTag,
        if_neg (h t (List.mem_cons_self ..)), if_neg hm]
      split <;> rfl

theorem blockTags_ne_end (n : Nat) : ∀ tag : Nat,
    ∀ t ∈ tagsFrom mem stop n tag, tagType mem t ≠ tagTypeEnd := by
  induction n with
  | zero => exact fun _ t ht => absurd ht List.not_mem_nil
  | succ n ih =>
    intro tag t ht
    rw [tagsFrom] at ht
    split at ht
    · next hgo =>
      rcases List.mem_cons.mp ht with rfl | ht
      · exact hgo.2
      · exact ih _ t ht
    · exact absurd ht List.not_mem_nil

/-- `paging_init` gets the same out of the block and out of the values. -/
theorem initInfo_bootInfoAt (h : WellSized mem info) (hn : totalSize mem info / 8 < n) :
    Paging.initInfo (bootInfoAt mem info) = initInfoAt mem info n := by
  have hmodules : (Paging.initInfo (bootInfoAt mem info)).modules = pagingModules mem info n := by
    rw [Paging.initInfo_modules, multibootTags_bootInfoAt, modules_decoded, moduleTags_filter,
      pagingModules_eq h hn]
  have hmmap : (Paging.initInfo (bootInfoAt mem info)).mmap = (initInfoAt mem info n).mmap := by
    rw [Paging.initInfo, initInfoAt, multibootTags_bootInfoAt, multibootFindTag, walkBlock_result h _ _ _ hn,
      find_through, mmap_decoded, Option.getD_some]
    · cases ((if multibootInfoValid mem info then tagsFrom mem (multibootTagEnd mem info)
        (totalSize mem info / 8) (multibootFirstTag info) else []).filter
          (tagType mem · = tagTypeMmap)).head? with
      | none => rfl
      | some mmap => exact if_congr (by rw [mmapEntrySize, toNat_field]) rfl rfl
    · intro t ht
      split at ht
      · exact blockTags_ne_end _ _ t ht
      · exact absurd ht List.not_mem_nil
  rw [initInfoAt] at hmmap ⊢
  cases hi : Paging.initInfo (bootInfoAt mem info) with
  | mk mmap modules =>
    rw [hi] at hmodules hmmap
    obtain rfl := hmodules
    exact congrArg (MultibootInfo.mk · _) hmmap

end TypeOS.Boot
