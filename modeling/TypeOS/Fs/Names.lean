import TypeOS.Fs.Unpack

/-! Which names of an archive keep their identity.

    `cpio_normalize_path` passes over the dots at the start of a name, as many as there are, then over
    the slashes. So it takes a `./` off, but also the dots of a first component that begins with some. -/

namespace TypeOS.Fs

/-- A component of a relative name. -/
structure Component (c : Text) : Prop where
  ne_nil : c ≠ []
  slash : slash ∉ c
  current : c ≠ [dot]
  parent : c ≠ [dot, dot]

/-- A relative name in an archive, with or without the `./`. -/
def archiveName (dotted : Bool) (cs : List Text) : Text :=
  if dotted then dot :: slash :: joined cs else joined cs

/-- The name has the `./`, or its first component begins with no dot. -/
def Kept (dotted : Bool) (cs : List Text) : Prop := dotted = true ∨ (joined cs).head? ≠ some dot

instance (dotted : Bool) (cs : List Text) : Decidable (Kept dotted cs) :=
  inferInstanceAs (Decidable (_ ∨ _))

variable {heap : Heap} {s : Vfs} {p : Ptr} {cs : List Text} {dotted : Bool}

theorem Component.joined_head (hne : cs ≠ []) (h : ∀ c ∈ cs, Component c) :
    ∃ x t, joined cs = x :: t ∧ x ≠ Fs.slash := by
  obtain ⟨c, cs, rfl⟩ := List.exists_cons_of_ne_nil hne
  have hc := h c (List.mem_cons_self ..)
  obtain ⟨x, t, rfl⟩ := List.exists_cons_of_ne_nil hc.ne_nil
  have hx : x ≠ Fs.slash := fun hx => hc.slash (hx ▸ List.mem_cons_self ..)
  cases cs with
  | nil => exact ⟨x, t, rfl, hx⟩
  | cons d cs => exact ⟨x, t ++ Fs.slash :: joined (d :: cs), rfl, hx⟩

/-- What is left of a name when it begins with no slash. -/
theorem normalized_of_drop {name rest : Text} {x : Ch} (hd : name.dropWhile (· = dot) = slash :: x :: rest ∨
    name.dropWhile (· = dot) = x :: rest) (hx : x ≠ slash) : normalized name = some (slash :: x :: rest) := by
  have hskip : vfsSkipSlash (name.dropWhile (· = dot)) = x :: rest := by
    have hrest : vfsSkipSlash (x :: rest) = x :: rest :=
      skipSlash_of_head (by simpa using hx)
    rcases hd with hd | hd
    · rw [hd, vfsSkipSlash, List.dropWhile_cons_of_pos (by simp)]
      exact hrest
    · rw [hd, hrest]
  rw [normalized, hskip]

/-- What `cpio_normalize_path` makes of a name that keeps its identity. -/
theorem normalized_kept (hne : cs ≠ []) (h : ∀ c ∈ cs, Component c) (hk : Kept dotted cs) :
    normalized (archiveName dotted cs) = some (slash :: joined cs) := by
  obtain ⟨x, t, hj, hx⟩ := Component.joined_head hne h
  rw [Kept, hj] at hk
  rw [archiveName, hj]
  cases dotted with
  | true =>
    refine normalized_of_drop (Or.inl ?_) hx
    rw [if_pos rfl, List.dropWhile_cons_of_pos (by simp)]
    exact List.dropWhile_cons_of_neg (by decide)
  | false =>
    have hdot : x ≠ dot := by simpa using hk
    refine normalized_of_drop (Or.inr ?_) hx
    rw [if_neg (by simp)]
    exact List.dropWhile_cons_of_neg (by simpa using hdot)

/-- A dot at the start is lost. -/
theorem normalized_not_kept (hk : ¬ Kept dotted cs) :
    normalized (archiveName dotted cs) ≠ some (slash :: joined cs) := by
  rw [Kept, not_or, not_not] at hk
  obtain ⟨hd, hhead⟩ := hk
  obtain ⟨t, ht⟩ : ∃ t, joined cs = dot :: t := by
    cases hj : joined cs with
    | nil => simp [hj] at hhead
    | cons x t => exact ⟨t, by rw [hj] at hhead; rw [Option.some.inj hhead]⟩
  have hlt : (vfsSkipSlash ((dot :: t).dropWhile (· = dot))).length < (dot :: t).length := by
    rw [List.dropWhile_cons_of_pos (by simp), List.length_cons]
    exact Nat.lt_succ_of_le ((skipSlash_length_le _).trans (List.dropWhile_suffix _).length_le)
  rw [archiveName, if_neg hd, ht, normalized]
  intro hc
  split at hc
  · cases hc
  · next rest hrest =>
    have := congrArg List.length (List.cons.inj (Option.some.inj hc)).2
    omega

/-- Where there is memory, a name becomes the path of its own components if and only if it is kept; and
    two kept names with other components do not become the same path. -/
theorem normalize_keeps_iff (hne : cs ≠ []) (h : ∀ c ∈ cs, Component c)
    (hm : (kmalloc heap s).1 = some p) :
    ((cpioNormalizePath heap (archiveName dotted cs) s).1 = some (p, slash :: joined cs) ↔
      Kept dotted cs) ∧
    ∀ dotted' cs', cs' ≠ [] → (∀ c ∈ cs', Component c) → Kept dotted cs → Kept dotted' cs' →
      joined cs ≠ joined cs' →
      normalized (archiveName dotted cs) ≠ normalized (archiveName dotted' cs') := by
  refine ⟨⟨fun hc => ?_, fun hk => ?_⟩, fun dotted' cs' hne' h' hk hk' hdiff => ?_⟩
  · by_contra hk
    have hnot := normalized_not_kept hk
    rw [cpioNormalizePath] at hc
    cases hn : normalized (archiveName dotted cs) with
    | none =>
      rw [hn] at hc
      cases hc
    | some path =>
      rcases hk' : kmalloc heap s with ⟨_ | q, s'⟩ <;> rw [hn, hk'] at hc
      · cases hc
      · exact hnot (hn.trans (congrArg some (Prod.mk.inj (Option.some.inj hc)).2))
  · rw [cpioNormalizePath, normalized_kept hne h hk]
    rcases hk' : kmalloc heap s with ⟨_ | q, s'⟩ <;> rw [hk'] at hm
    · cases hm
    · obtain rfl := Option.some.inj hm
      rfl
  · rw [normalized_kept hne h hk, normalized_kept hne' h' hk']
    exact fun hc => hdiff (List.cons.inj (Option.some.inj hc)).2

theorem hidden_component : ∀ c ∈ [[dot, letter 0]], Component c := by
  intro c hc
  rw [List.mem_singleton.mp hc]
  exact ⟨by decide, by decide, by decide, by decide⟩

theorem normalize_keeps_iff_dotted :
    (cpioNormalizePath rising (archiveName true [[dot, letter 0]]) emptyVfs).1 =
      some (1, [slash, dot, letter 0]) :=
  (normalize_keeps_iff (by decide) hidden_component (by decide)).1.mpr (Or.inl rfl)

/-- `.a` and `a` become the same path. -/
theorem dot_lost : (¬ ∀ dotted cs heap s p, cs ≠ [] → (∀ c ∈ cs, Component c) →
    (kmalloc heap s).1 = some p →
    (cpioNormalizePath heap (archiveName dotted cs) s).1 = some (p, slash :: joined cs)) ∧
    normalized (archiveName false [[dot, letter 0]]) = normalized (archiveName false [[letter 0]]) := by
  refine ⟨fun hall => ?_, by decide⟩
  have h := hall false [[dot, letter 0]] rising emptyVfs 1 (by decide) hidden_component
    (by decide)
  exact absurd h (by decide)

end TypeOS.Fs
