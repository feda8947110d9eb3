import TypeOS.Lib.Bytes
import TypeOS.Lib.Iterate

/-! The tags that the boot loader hands over (`multiboot.c`).

    Three functions walk the same list: a tag's size, rounded up to 8, leads to the next one. Nothing
    looks at the size before it is used, so a tag of size 0, or one whose rounding wraps, is its own
    successor, and a header may begin inside the block and end behind it. -/

namespace TypeOS.Boot

open Bytes (load leNat)
open Iterate (iterates iterates_add)

/-- A 32 bit field. -/
def field (mem : Bytes.Memory) (addr : Nat) : Nat := leNat (load mem addr 4)

/-- `MULTIBOOT_TAG_TYPE_END`. -/
abbrev tagTypeEnd : Nat := 0

/-- `MULTIBOOT_TAG_TYPE_MODULE`. -/
abbrev tagTypeModule : Nat := 3

/-- `tag->type`. -/
def tagType (mem : Bytes.Memory) (tag : Nat) : Nat := field mem tag

/-- `tag->size`. -/
def tagSize (mem : Bytes.Memory) (tag : Nat) : Nat := field mem (tag + 4)

/-- `info->total_size`. -/
def totalSize (mem : Bytes.Memory) (info : Nat) : Nat := field mem info

/-- `(size + 7U) & ~7U`. -/
def roundUp8 (size : Nat) : Nat := (size + 7) % 2 ^ 32 / 8 * 8

/-- `multiboot_first_tag`. -/
def multibootFirstTag (info : Nat) : Nat := info + 8

/-- `multiboot_next_tag`. -/
def multibootNextTag (mem : Bytes.Memory) (tag : Nat) : Nat := tag + roundUp8 (tagSize mem tag)

/-- `multiboot_tag_end`. -/
def multibootTagEnd (mem : Bytes.Memory) (info : Nat) : Nat := info + totalSize mem info

/-- `multiboot_info_valid`. -/
def multibootInfoValid (mem : Bytes.Memory) (info : Nat) : Bool := info ≠ 0 ∧ 16 ≤ totalSize mem info

/-- What a walk has read, field by field, and its result once it has one. -/
structure Walk (ρ : Type) where
  reads : List Nat
  result : Option ρ

/-- The loop of the three functions, at most so many turns: `look` ends it at a tag, or says what it
    goes on with, and `last` is the result where the tags end. -/
def walkTags {σ ρ : Type} (mem : Bytes.Memory) (stop : Nat) (look : σ → Nat → ρ ⊕ σ) (last : σ → ρ) :
    Nat → Nat → σ → Walk ρ
  | 0, _, _ => ⟨[], none⟩
  | n + 1, tag, acc =>
    if tag < stop then
      if tagType mem tag = tagTypeEnd then ⟨[tag], some (last acc)⟩
      else
        match look acc tag with
        | .inl r => ⟨[tag], some r⟩
        | .inr acc =>
          let w := walkTags mem stop look last n (multibootNextTag mem tag) acc
          ⟨tag :: (tag + 4) :: w.reads, w.result⟩
    else ⟨[], some (last acc)⟩

/-- The three functions: nothing is walked where there is no information. -/
def walkBlock {σ ρ : Type} (mem : Bytes.Memory) (info : Nat) (look : σ → Nat → ρ ⊕ σ) (last : σ → ρ)
    (acc : σ) (n : Nat) : Walk ρ :=
  if multibootInfoValid mem info then
    walkTags mem (multibootTagEnd mem info) look last n (multibootFirstTag info) acc
  else ⟨[], some (last acc)⟩

/-- The body of the loop of `multiboot_find_tag`. -/
def findLook (mem : Bytes.Memory) (type : Nat) (_ : Unit) (tag : Nat) : Option Nat ⊕ Unit :=
  if tagType mem tag = type then .inl (some tag) else .inr ()

/-- `multiboot_find_tag`. -/
def multibootFindTag (mem : Bytes.Memory) (info type n : Nat) : Walk (Option Nat) :=
  walkBlock mem info (findLook mem type) (fun _ => none) () n

/-- The body of the loop of `multiboot_module_count`. -/
def countLook (mem : Bytes.Memory) (count tag : Nat) : Nat ⊕ Nat :=
  .inr (if tagType mem tag = tagTypeModule then (count + 1) % 2 ^ 32 else count)

/-- `multiboot_module_count`. -/
def multibootModuleCount (mem : Bytes.Memory) (info n : Nat) : Walk Nat :=
  walkBlock mem info (countLook mem) id 0 n

/-- The body of the loop of `multiboot_module_at`. -/
def atLook (mem : Bytes.Memory) (index seen tag : Nat) : Option Nat ⊕ Nat :=
  if tagType mem tag = tagTypeModule then
    if seen = index then .inl (some tag) else .inr ((seen + 1) % 2 ^ 32)
  else .inr seen

/-- `multiboot_module_at`. -/
def multibootModuleAt (mem : Bytes.Memory) (info index n : Nat) : Walk (Option Nat) :=
  walkBlock mem info (atLook mem index) (fun _ => none) 0 n

/-- The step to the next tag, if the loop goes on to it. -/
def tagStep (mem : Bytes.Memory) (stop tag : Nat) : Option Nat :=
  if tag < stop ∧ tagType mem tag ≠ tagTypeEnd then some (multibootNextTag mem tag) else none

/-- The steps lead from one tag to another. -/
def Leads (mem : Bytes.Memory) (stop tag t : Nat) : Prop := ∃ k, iterates (tagStep mem stop) k tag = some t

/-- A tag that can be gone on from: it is inside the block, and its size, rounded up, is not 0. -/
def Sized (mem : Bytes.Memory) (stop t : Nat) : Prop :=
  t + 8 ≤ stop ∧ tagSize mem t ≠ 0 ∧ tagSize mem t + 7 < 2 ^ 32

/-- All tags up to the end tag are such, and of the end tag the type is inside the block. -/
def AllSized (mem : Bytes.Memory) (stop tag : Nat) : Prop :=
  ∀ t, Leads mem stop tag t → t < stop →
    if tagType mem t = tagTypeEnd then t + 4 ≤ stop else Sized mem stop t

variable {mem : Bytes.Memory} {info stop tag t n m : Nat} {σ ρ : Type} {look : σ → Nat → ρ ⊕ σ}
  {last : σ → ρ} {acc : σ}

theorem roundUp8_pos (size : Nat) (hlt : size < 2 ^ 32) :
    0 < roundUp8 size ↔ size ≠ 0 ∧ size + 7 < 2 ^ 32 := by
  rw [roundUp8]
  omega

theorem field_lt (mem : Bytes.Memory) (addr : Nat) : field mem addr < 2 ^ 32 := by
  have h : ∀ b ∈ (load mem addr 4).map UInt8.toNat, b < 256 := by
    intro b hb
    obtain ⟨x, -, rfl⟩ := List.mem_map.mp hb
    exact x.toNat_lt
  have hlt := Nat.ofDigits_lt_base_pow_length (by decide : 1 < 256) h
  rw [List.length_map, Bytes.length_load] at hlt
  rw [field, leNat]
  omega

/-- A tag that can be gone on from leads at least 8 bytes on. -/
theorem Sized.next (h : Sized mem stop t) : t + 8 ≤ multibootNextTag mem t := by
  have hpos := (roundUp8_pos _ (field_lt mem (t + 4))).mpr h.2
  rw [multibootNextTag, tagSize]
  rw [roundUp8] at *
  omega

theorem Leads.refl : Leads mem stop tag tag := ⟨0, rfl⟩

theorem Leads.step (hlt : tag < stop) (hne : tagType mem tag ≠ tagTypeEnd)
    (h : Leads mem stop (multibootNextTag mem tag) t) : Leads mem stop tag t := by
  obtain ⟨k, hk⟩ := h
  refine ⟨k + 1, ?_⟩
  rw [iterates, tagStep, if_pos ⟨hlt, hne⟩, Option.bind_some, hk]

/-- A walk leads nowhere else than to where it is, or on from the next tag. -/
theorem Leads.cases (h : Leads mem stop tag t) : t = tag ∨
    tag < stop ∧ tagType mem tag ≠ tagTypeEnd ∧ Leads mem stop (multibootNextTag mem tag) t := by
  obtain ⟨_ | k, hk⟩ := h
  · exact Or.inl (Option.some.inj hk).symm
  · rw [iterates, tagStep] at hk
    split at hk
    · next hgo => exact Or.inr ⟨hgo.1, hgo.2, k, hk⟩
    · cases hk

theorem AllSized.next (h : AllSized mem stop tag) (hlt : tag < stop) (hne : tagType mem tag ≠ tagTypeEnd) :
    AllSized mem stop (multibootNextTag mem tag) := fun t ht => h t (ht.step hlt hne)

/-- Where all tags can be gone on from, the turns are bounded by what is left of the block, and every
    field that is read is inside it. -/
theorem walkTags_ends (n : Nat) : ∀ {tag : Nat} {acc : σ}, AllSized mem stop tag → stop ≤ tag + 8 * n →
    (walkTags mem stop look last (n + 1) tag acc).result ≠ none ∧
      ∀ a ∈ (walkTags mem stop look last (n + 1) tag acc).reads, tag ≤ a ∧ a + 4 ≤ stop := by
  induction n with
  | zero =>
    intro tag acc _ hle
    rw [walkTags, if_neg (by omega)]
    exact ⟨Option.some_ne_none _, fun a ha => by cases ha⟩
  | succ n ih =>
    intro tag acc h hle
    rw [walkTags]
    split
    · next hlt =>
      have hhere := h tag .refl hlt
      split
      · next hend =>
        rw [if_pos hend] at hhere
        exact ⟨Option.some_ne_none _, fun a ha => by rw [List.mem_singleton.mp ha]; exact ⟨le_rfl, hhere⟩⟩
      · next hne =>
        rw [if_neg hne] at hhere
        have hin := hhere.1
        have hnext := hhere.next
        split
        · exact ⟨Option.some_ne_none _, fun a ha => by rw [List.mem_singleton.mp ha]; omega⟩
        · obtain ⟨hres, hreads⟩ := ih (h.next hlt hne) (by omega)
          refine ⟨hres, fun a ha => ?_⟩
          rcases List.mem_cons.mp ha with rfl | ha
          · omega
          rcases List.mem_cons.mp ha with rfl | ha
          · omega
          · have := hreads a ha
            omega
    · exact ⟨Option.some_ne_none _, fun a ha => by cases ha⟩

/-- A tag that is its own successor is never left. -/
theorem walkTags_stays (hgo : ∀ acc t, ∃ acc', look acc t = .inr acc') (hlt : tag < stop)
    (hne : tagType mem tag ≠ tagTypeEnd) (hself : multibootNextTag mem tag = tag) (n : Nat) :
    ∀ acc : σ, (walkTags mem stop look last n tag acc).result = none := by
  induction n with
  | zero => exact fun _ => rfl
  | succ n ih =>
    intro acc
    obtain ⟨acc', hl⟩ := hgo acc tag
    rw [walkTags, if_pos hlt, if_neg hne, hl, hself]
    exact ih acc'

/-- A walk that looks at every tag finds all of them sized if it ends and stays inside the block. -/
theorem allSized_of_ends (hgo : ∀ acc t, ∃ acc', look acc t = .inr acc') (n : Nat) :
    ∀ {tag : Nat} {acc : σ}, (walkTags mem stop look last n tag acc).result ≠ none →
      (∀ a ∈ (walkTags mem stop look last n tag acc).reads, a + 4 ≤ stop) → AllSized mem stop tag := by
  induction n with
  | zero => exact fun hres => absurd rfl hres
  | succ n ih =>
    intro tag acc hres hreads t ht hts
    obtain ⟨acc', hl⟩ := hgo acc tag
    rw [walkTags] at hres hreads
    have hlt : tag < stop := by
      by_contra hge
      rcases ht.cases with rfl | ⟨hlt, -⟩
      · exact hge hts
      · exact hge hlt
    rw [if_pos hlt] at hres hreads
    by_cases hend : tagType mem tag = tagTypeEnd
    · rw [if_pos hend] at hreads
      obtain rfl : t = tag := ht.cases.resolve_right fun hc => hc.2.1 hend
      rw [if_pos hend]
      exact hreads t (List.mem_singleton_self t)
    · rw [if_neg hend, hl] at hres hreads
      rcases ht.cases with rfl | ⟨-, -, ht⟩
      · rw [if_neg hend]
        refine ⟨?_, ?_⟩
        · exact hreads (t + 4) (by simp)
        · -- otherwise the walk would stay here
          by_contra hno
          have hzero : ¬ 0 < roundUp8 (tagSize mem t) := fun hpos =>
            hno ((roundUp8_pos _ (field_lt mem (t + 4))).mp hpos)
          have hself : multibootNextTag mem t = t := by
            rw [multibootNextTag, Nat.eq_zero_of_not_pos hzero, Nat.add_zero]
          rw [hself] at hres
          exact hres (walkTags_stays hgo hlt hend hself n acc')
      · exact ih hres (fun a ha => hreads a (by simp [ha])) t ht hts

/-- There is a result after `total_size / 8` steps, in the turn that sees the end at the latest, and no
    header field is read outside the block. -/
def Bounded (mem : Bytes.Memory) (info : Nat) (walk : Nat → Walk ρ) : Prop :=
  (walk (totalSize mem info / 8 + 1)).result ≠ none ∧
    ∀ a ∈ (walk (totalSize mem info / 8 + 1)).reads, info + 8 ≤ a ∧ a + 4 ≤ info + totalSize mem info

theorem walkBlock_bounded (look : σ → Nat → ρ ⊕ σ) (last : σ → ρ) (acc : σ)
    (h : multibootInfoValid mem info = true →
      AllSized mem (multibootTagEnd mem info) (multibootFirstTag info)) :
    Bounded mem info (walkBlock mem info look last acc) := by
  rw [Bounded, walkBlock]
  split
  · next hvalid =>
    refine walkTags_ends (totalSize mem info / 8) (h hvalid) ?_
    rw [multibootTagEnd, multibootFirstTag]
    omega
  · exact ⟨Option.some_ne_none _, fun a ha => by cases ha⟩

/-- The three functions end after `total_size / 8` steps and read only inside the block if and only if no
    tag has size 0 or a size that wraps when it is rounded up, and no header is cut off by the end of the
    block. -/
theorem tags_walked_iff (mem : Bytes.Memory) (info : Nat) :
    ((∀ type, Bounded mem info (multibootFindTag mem info type)) ∧
      Bounded mem info (multibootModuleCount mem info) ∧
      ∀ index, Bounded mem info (multibootModuleAt mem info index)) ↔
    (multibootInfoValid mem info = true →
      AllSized mem (multibootTagEnd mem info) (multibootFirstTag info)) := by
  constructor
  · rintro ⟨-, hcount, -⟩ hvalid
    rw [Bounded, multibootModuleCount, walkBlock, if_pos hvalid] at hcount
    exact allSized_of_ends (fun _ _ => ⟨_, rfl⟩) _ hcount.1 fun a ha => (hcount.2 a ha).2
  · intro h
    exact ⟨fun type => walkBlock_bounded _ _ _ h, walkBlock_bounded _ _ _ h,
      fun index => walkBlock_bounded _ _ _ h⟩

/-- The bytes of a block. -/
def blockAt (info : Nat) (bytes : List UInt8) : Bytes.Memory := Bytes.store (fun _ => 0) info bytes

/-- A tag of size 0 before the end tag. -/
theorem size_zero_walked : ¬ ∀ mem info, (∀ type, Bounded mem info (multibootFindTag mem info type)) ∧
    Bounded mem info (multibootModuleCount mem info) ∧
    ∀ index, Bounded mem info (multibootModuleAt mem info index) := by
  intro h
  have hcount := (h (blockAt 0x1000 [24, 0, 0, 0, 0, 0, 0, 0, 1]) 0x1000).2.1
  exact absurd hcount.1 (by decide)

end TypeOS.Boot
