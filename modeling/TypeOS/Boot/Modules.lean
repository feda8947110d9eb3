import TypeOS.Boot.Tags
import TypeOS.Paging.Tables

/-! Modules by number.

    `paging_init` counts the modules and then asks for each by its number. Both calls walk the block from
    its first tag again; they agree because all of them look at the same tags in the same order. -/

namespace TypeOS.Boot

/-- The tags up to the end tag, at most so many. -/
def tagsFrom (mem : Bytes.Memory) (stop : Nat) : Nat → Nat → List Nat
  | 0, _ => []
  | n + 1, tag =>
    if tag < stop ∧ tagType mem tag ≠ tagTypeEnd then
      tag :: tagsFrom mem stop n (multibootNextTag mem tag)
    else []

/-- Sizes are at least 8 and do not wrap when they are rounded up, and each header is inside the block. -/
def WellSized (mem : Bytes.Memory) (info : Nat) : Prop :=
  ∀ t, Leads mem (multibootTagEnd mem info) (multibootFirstTag info) t → t < multibootTagEnd mem info →
    8 ≤ tagSize mem t ∧ tagSize mem t + 7 < 2 ^ 32 ∧ t + 8 ≤ multibootTagEnd mem info

/-- A module tag that the walk comes to. -/
def IsModule (mem : Bytes.Memory) (info t : Nat) : Prop :=
  multibootInfoValid mem info = true ∧
    Leads mem (multibootTagEnd mem info) (multibootFirstTag info) t ∧ t < multibootTagEnd mem info ∧
    tagType mem t = tagTypeModule

/-- The tags of the modules. -/
def moduleTags (mem : Bytes.Memory) (info : Nat) : List Nat :=
  if multibootInfoValid mem info then
    (tagsFrom mem (multibootTagEnd mem info) (totalSize mem info / 8) (multibootFirstTag info)).filter
      (tagType mem · = tagTypeModule)
  else []

variable {mem : Bytes.Memory} {info stop tag t n m : Nat} {σ ρ : Type} {look : σ → Nat → ρ ⊕ σ}
  {last : σ → ρ} {acc : σ}

/-- The loop over a list of tags. -/
def lookThrough (look : σ → Nat → ρ ⊕ σ) (last : σ → ρ) : List Nat → σ → ρ
  | [], acc => last acc
  | t :: l, acc =>
    match look acc t with
    | .inl r => r
    | .inr acc => lookThrough look last l acc

theorem WellSized.allSized (h : WellSized mem info) :
    AllSized mem (multibootTagEnd mem info) (multibootFirstTag info) := by
  intro t ht hlt
  obtain ⟨hsize, hwrap, hin⟩ := h t ht hlt
  split
  · omega
  · exact ⟨hin, by omega, hwrap⟩

/-- The walk is the loop over the tags, where they can be gone on from. -/
theorem walkTags_result (n : Nat) : ∀ {tag m : Nat} {acc : σ}, AllSized mem stop tag →
    stop ≤ tag + 8 * n → n < m →
    (walkTags mem stop look last m tag acc).result =
      some (lookThrough look last (tagsFrom mem stop n tag) acc) := by
  induction n with
  | zero =>
    intro tag m acc _ hle hm
    obtain ⟨m, rfl⟩ := Nat.exists_eq_succ_of_ne_zero (by omega : m ≠ 0)
    rw [walkTags, if_neg (by omega)]
    rfl
  | succ n ih =>
    intro tag m acc h hle hm
    obtain ⟨m, rfl⟩ := Nat.exists_eq_succ_of_ne_zero (by omega : m ≠ 0)
    rw [walkTags, tagsFrom]
    by_cases hlt : tag < stop
    · by_cases hend : tagType mem tag = tagTypeEnd
      · rw [if_pos hlt, if_pos hend, if_neg fun hc => hc.2 hend]
        rfl
      · have hhere := h tag .refl hlt
        rw [if_neg hend] at hhere
        have hnext := hhere.next
        rw [if_pos hlt, if_neg hend, if_pos ⟨hlt, hend⟩, lookThrough]
        cases look acc tag with
        | inl r => rfl
        | inr acc' => exact ih (h.next hlt hend) (by omega) (by omega)
    · rw [if_neg hlt, if_neg fun hc => hlt hc.1]
      rfl

theorem mem_tagsFrom (n : Nat) : ∀ {tag : Nat}, AllSized mem stop tag → stop ≤ tag + 8 * n →
    (t ∈ tagsFrom mem stop n tag ↔ Leads mem stop tag t ∧ t < stop ∧ tagType mem t ≠ tagTypeEnd) := by
  induction n with
  | zero =>
    intro tag _ hle
    refine iff_of_false (by simp [tagsFrom]) ?_
    rintro ⟨ht, hlt, -⟩
    rcases ht.cases with rfl | ⟨hgo, -⟩ <;> omega
  | succ n ih =>
    intro tag h hle
    rw [tagsFrom]
    split
    · next hgo =>
      have hhere := h tag .refl hgo.1
      rw [if_neg hgo.2] at hhere
      have hnext := hhere.next
      rw [List.mem_cons, ih (h.next hgo.1 hgo.2) (by omega)]
      constructor
      · rintro (rfl | ⟨ht, hrest⟩)
        · exact ⟨.refl, hgo⟩
        · exact ⟨ht.step hgo.1 hgo.2, hrest⟩
      · rintro ⟨ht, hrest⟩
        rcases ht.cases with rfl | ⟨-, -, ht⟩
        · exact Or.inl rfl
        · exact Or.inr ⟨ht, hrest⟩
    · next hno =>
      refine iff_of_false List.not_mem_nil ?_
      rintro ⟨ht, hlt, hne⟩
      rcases ht.cases with rfl | ⟨hgo, hgo', -⟩
      · exact hno ⟨hlt, hne⟩
      · exact hno ⟨hgo, hgo'⟩

/-- The tags come in the order of their addresses. -/
theorem tagsFrom_sorted (n : Nat) : ∀ {tag : Nat}, AllSized mem stop tag →
    (∀ t ∈ tagsFrom mem stop n tag, tag ≤ t) ∧ (tagsFrom mem stop n tag).Pairwise (· < ·) := by
  induction n with
  | zero => exact fun _ => ⟨fun t ht => absurd ht List.not_mem_nil, .nil⟩
  | succ n ih =>
    intro tag h
    rw [tagsFrom]
    split
    · next hgo =>
      have hhere := h tag .refl hgo.1
      rw [if_neg hgo.2] at hhere
      have hnext := hhere.next
      obtain ⟨hge, hsorted⟩ := ih (h.next hgo.1 hgo.2)
      refine ⟨fun t ht => ?_, List.pairwise_cons.mpr ⟨fun t ht => ?_, hsorted⟩⟩
      · rcases List.mem_cons.mp ht with rfl | ht
        · exact le_rfl
        · exact (by omega : tag ≤ _).trans (hge t ht)
      · exact lt_of_lt_of_le (by omega) (hge t ht)
    · exact ⟨fun t ht => absurd ht List.not_mem_nil, .nil⟩

theorem length_tagsFrom_le (n : Nat) : ∀ tag : Nat, (tagsFrom mem stop n tag).length ≤ n := by
  induction n with
  | zero => exact fun _ => le_rfl
  | succ n ih =>
    intro tag
    rw [tagsFrom]
    split
    · exact Nat.succ_le_succ (ih _)
    · exact Nat.zero_le _

/-! ### The three bodies -/

theorem find_through (mem : Bytes.Memory) (type : Nat) : ∀ l : List Nat,
    lookThrough (findLook mem type) (fun _ => none) l () = (l.filter (tagType mem · = type)).head?
  | [] => rfl
  | t :: l => by
    rw [lookThrough, findLook, List.filter_cons]
    by_cases ht : tagType mem t = type
    · simp [ht]
    · simp [ht, find_through mem type l]

theorem count_through (mem : Bytes.Memory) : ∀ (l : List Nat) (count : Nat),
    count + l.length < 2 ^ 32 → lookThrough (countLook mem) id l count =
      count + (l.filter (tagType mem · = tagTypeModule)).length
  | [], _, _ => rfl
  | t :: l, count, hlt => by
    rw [List.length_cons] at hlt
    rw [lookThrough, countLook, List.filter_cons]
    by_cases ht : tagType mem t = tagTypeModule
    · simp only [ht, if_true, decide_true, List.length_cons]
      rw [Nat.mod_eq_of_lt (by omega), count_through mem l _ (by omega)]
      omega
    · simp only [ht, if_false, decide_false, Bool.false_eq_true]
      exact count_through mem l count (by omega)

theorem at_through (mem : Bytes.Memory) (index : Nat) : ∀ (l : List Nat) (seen : Nat), seen ≤ index →
    seen + l.length < 2 ^ 32 → lookThrough (atLook mem index) (fun _ => none) l seen =
      (l.filter (tagType mem · = tagTypeModule))[index - seen]?
  | [], _, _, _ => rfl
  | t :: l, seen, hle, hlt => by
    rw [List.length_cons] at hlt
    rw [lookThrough, atLook, List.filter_cons]
    by_cases ht : tagType mem t = tagTypeModule
    · simp only [ht, if_true, decide_true]
      by_cases hi : seen = index
      · simp [hi]
      · obtain ⟨k, hk⟩ := Nat.exists_eq_succ_of_ne_zero (by omega : index - seen ≠ 0)
        simp only [hi, if_false]
        rw [Nat.mod_eq_of_lt (by omega), at_through mem index l _ (by omega) (by omega), hk,
          List.getElem?_cons_succ]
        congr 1
        omega
    · simp only [ht, if_false, decide_false, Bool.false_eq_true]
      exact at_through mem index l seen hle (by omega)

/-! ### Counting and indexing -/

theorem walkBlock_result (h : WellSized mem info) (look : σ → Nat → ρ ⊕ σ) (last : σ → ρ) (acc : σ)
    (hn : totalSize mem info / 8 < n) : (walkBlock mem info look last acc n).result =
      some (lookThrough look last (if multibootInfoValid mem info then
        tagsFrom mem (multibootTagEnd mem info) (totalSize mem info / 8) (multibootFirstTag info)
        else []) acc) := by
  rw [walkBlock]
  split
  · refine walkTags_result _ h.allSized ?_ hn
    rw [multibootTagEnd, multibootFirstTag]
    omega
  · rfl

theorem moduleTags_filter (mem : Bytes.Memory) (info : Nat) :
    (if multibootInfoValid mem info then
      tagsFrom mem (multibootTagEnd mem info) (totalSize mem info / 8) (multibootFirstTag info)
      else []).filter (tagType mem · = tagTypeModule) = moduleTags mem info := by
  rw [moduleTags]
  split <;> rfl

theorem mem_moduleTags (h : WellSized mem info) : t ∈ moduleTags mem info ↔ IsModule mem info t := by
  rw [moduleTags, IsModule]
  split
  · next hvalid =>
    rw [List.mem_filter, mem_tagsFrom _ h.allSized (by rw [multibootTagEnd, multibootFirstTag]; omega),
      decide_eq_true_iff]
    constructor
    · rintro ⟨⟨ht, hlt, -⟩, htype⟩
      exact ⟨hvalid, ht, hlt, htype⟩
    · rintro ⟨-, ht, hlt, htype⟩
      exact ⟨⟨ht, hlt, by rw [htype]; decide⟩, htype⟩
  · next hno => exact iff_of_false List.not_mem_nil fun hc => hno hc.1

theorem moduleTags_sorted (h : WellSized mem info) : (moduleTags mem info).Pairwise (· < ·) := by
  rw [moduleTags]
  split
  · exact (tagsFrom_sorted _ h.allSized).2.filter _
  · exact .nil

/-- The tags of a block are fewer than an `unsigned` can count. -/
theorem blockTags_few (mem : Bytes.Memory) (info : Nat) : (if multibootInfoValid mem info then
    tagsFrom mem (multibootTagEnd mem info) (totalSize mem info / 8) (multibootFirstTag info)
    else []).length < 2 ^ 32 := by
  split
  · have hle : (tagsFrom mem (multibootTagEnd mem info) (totalSize mem info / 8)
        (multibootFirstTag info)).length ≤ totalSize mem info / 8 := length_tagsFrom_le ..
    have hlt := field_lt mem info
    rw [← totalSize] at hlt
    omega
  · exact Nat.two_pow_pos 32

theorem multibootModuleCount_result (h : WellSized mem info) (hn : totalSize mem info / 8 < n) :
    (multibootModuleCount mem info n).result = some (moduleTags mem info).length := by
  have hfew := blockTags_few mem info
  rw [multibootModuleCount, walkBlock_result h _ _ _ hn, count_through mem _ 0 (by omega),
    moduleTags_filter, Nat.zero_add]

theorem multibootModuleAt_result (h : WellSized mem info) (hn : totalSize mem info / 8 < n) (i : Nat) :
    (multibootModuleAt mem info i n).result = some (moduleTags mem info)[i]? := by
  have hfew := blockTags_few mem info
  rw [multibootModuleAt, walkBlock_result h _ _ _ hn, at_through mem i _ 0 (Nat.zero_le i) (by omega),
    moduleTags_filter, Nat.sub_zero]

/-- The modules are numbered in the order of their tags, each once: there is a module of a number if and
    only if it is below the count, and the first is the one that `multiboot_find_tag` finds. -/
theorem modules_numbered (h : WellSized mem info) (hn : totalSize mem info / 8 < n) :
    ∃ l : List Nat, l.Pairwise (· < ·) ∧ (∀ t, t ∈ l ↔ IsModule mem info t) ∧
      (multibootModuleCount mem info n).result = some l.length ∧
      (∀ i, (multibootModuleAt mem info i n).result = some l[i]? ∧ (l[i]? ≠ none ↔ i < l.length)) ∧
      (multibootFindTag mem info tagTypeModule n).result = some l[0]? := by
  refine ⟨moduleTags mem info, moduleTags_sorted h, fun t => mem_moduleTags h,
    multibootModuleCount_result h hn, fun i => ⟨multibootModuleAt_result h hn i, ?_⟩, ?_⟩
  · rw [Ne, List.getElem?_eq_none_iff, not_le]
  · rw [multibootFindTag, walkBlock_result h _ _ _ hn, find_through, moduleTags_filter,
      List.head?_eq_getElem?]

/-- A block with two modules, a tag of another kind between them, and the end tag. -/
def twoModules : Bytes.Memory := blockAt 0x1000
  [64, 0, 0, 0, 0, 0, 0, 0, 3, 0, 0, 0, 16, 0, 0, 0, 0, 0, 0x20, 0, 0, 0x10, 0x20, 0, 1, 0, 0, 0, 9, 0, 0, 0,
    0, 0, 0, 0, 0, 0, 0, 0, 3, 0, 0, 0, 16, 0, 0, 0, 0, 0, 0x30, 0, 0, 0x10, 0x30, 0, 0, 0, 0, 0, 8, 0, 0, 0]

theorem twoModules_wellSized : WellSized twoModules 0x1000 := by
  intro t ht hlt
  have hend : multibootTagEnd twoModules 0x1000 = 0x1040 := by decide
  rw [hend] at ht hlt ⊢
  have hnext : multibootNextTag twoModules (multibootFirstTag 0x1000) = 0x1018 ∧
      multibootNextTag twoModules 0x1018 = 0x1028 ∧ multibootNextTag twoModules 0x1028 = 0x1038 := by decide
  rcases ht.cases with rfl | ⟨-, -, ht⟩
  · decide
  rw [hnext.1] at ht
  rcases ht.cases with rfl | ⟨-, -, ht⟩
  · decide
  rw [hnext.2.1] at ht
  rcases ht.cases with rfl | ⟨-, -, ht⟩
  · decide
  rw [hnext.2.2] at ht
  rcases ht.cases with rfl | ⟨-, hne, -⟩
  · decide
  · exact absurd hne (by decide)

/-- The second of them is the last. -/
theorem modules_numbered_two : (multibootModuleCount twoModules 0x1000 9).result = some 2 ∧
    (multibootModuleAt twoModules 0x1000 1 9).result = some (some 0x1028) ∧
    (multibootModuleAt twoModules 0x1000 2 9).result = some none ∧ IsModule twoModules 0x1000 0x1028 := by
  obtain ⟨l, -, hmem, hcount, hat, -⟩ := @modules_numbered twoModules 0x1000 9 twoModules_wellSized (by decide)
  have hlen : l.length = 2 := by
    have hc : (multibootModuleCount twoModules 0x1000 9).result = some 2 := by decide
    exact Option.some.inj (hcount.symm.trans hc)
  have hsecond : (multibootModuleAt twoModules 0x1000 1 9).result = some (some 0x1028) := by decide
  have hin : 0x1028 ∈ l := List.mem_of_getElem? (Option.some.inj ((hat 1).1.symm.trans hsecond))
  have hnone : l[2]? = none := by
    by_contra hc
    have := (hat 2).2.mp hc
    omega
  exact ⟨by rw [hcount, hlen], hsecond, by rw [(hat 2).1, hnone], (hmem _).mp hin⟩

/-- `[mod_start, mod_end)`. -/
def moduleRange (mem : Bytes.Memory) (tag : Nat) : Nat × Nat := (field mem (tag + 8), field mem (tag + 12))

/-- What the loop of `paging_init` reserves. -/
def pagingModules (mem : Bytes.Memory) (info n : Nat) : List (Nat × Nat) :=
  (List.range ((multibootModuleCount mem info n).result.getD 0)).filterMap fun i =>
    ((multibootModuleAt mem info i n).result.getD none).map (moduleRange mem)

/-- It reserves all modules. -/
theorem pagingModules_eq (h : WellSized mem info) (hn : totalSize mem info / 8 < n) :
    pagingModules mem info n = (moduleTags mem info).map (moduleRange mem) := by
  have hnumbers : ∀ l : List Nat, (List.range l.length).filterMap (fun i => l[i]?.map (moduleRange mem)) =
      l.map (moduleRange mem) := by
    intro l
    induction l with
    | nil => rfl
    | cons t l ih =>
      rw [List.length_cons, List.range_succ_eq_map, List.filterMap_cons, List.filterMap_map, List.map_cons]
      simp only [List.getElem?_cons_zero, Option.map_some]
      congr 1
  rw [pagingModules, multibootModuleCount_result h hn, Option.getD_some]
  simp only [multibootModuleAt_result h hn, Option.getD_some]
  exact hnumbers _

end TypeOS.Boot
