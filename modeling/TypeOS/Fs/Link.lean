import TypeOS.Fs.Expand

/-! Where a symlink stands in a text: behind the directories that are gone through, before slashes and
    the rest. -/

namespace TypeOS.Fs

variable {s : Vfs} {r p q d current : Ptr} {l l₁ l₂ : List (Text × Text)} {path target cursor t u : Text}
  {component name : Text}

/-! ### Slashes -/

theorem components_nil : components [] = [] := rfl

@[simp] theorem components_slash (t : Text) : components (slash :: t) = components t := by
  rw [components, splitPath_slash, components]

/-- A text that begins with a component is the component, slashes, and the cursor behind them. -/
theorem after_decomp (t : Text) : ∃ sl, t = headComponent t ++ (sl ++ afterComponent t) ∧
    (∀ c ∈ sl, c = slash) ∧ (afterComponent t ≠ [] → sl ≠ []) := by
  refine ⟨(t.dropWhile (· ≠ slash)).takeWhile (· = slash), ?_, fun c hc => ?_, fun hne hnil => ?_⟩
  · rw [afterComponent, vfsSkipSlash, List.takeWhile_append_dropWhile]
    exact (headComponent_append_drop t).symm
  · have := List.all_eq_true.mp (List.all_takeWhile (p := fun c => decide (c = slash))) c hc
    simpa using this
  · -- without a slash the component goes on
    have hd : afterComponent t = t.dropWhile (· ≠ slash) := by
      rw [afterComponent, vfsSkipSlash]
      conv_rhs => rw [← List.takeWhile_append_dropWhile (p := fun c => decide (c = slash))
        (l := t.dropWhile (· ≠ slash)), hnil, List.nil_append]
    cases hc : t.dropWhile (· ≠ slash) with
    | nil => exact hne (hd.trans hc)
    | cons c cs =>
      have h1 := List.head?_dropWhile_not (p := fun c => decide (c ≠ slash)) (l := t)
      rw [hc] at h1
      have h2 := afterComponent_head t
      rw [hd, hc] at h2
      simp at h1 h2
      exact h2 h1

/-- The text before and behind a component. -/
structure Stands (t : Text) (dirs : List Text) (component cursor pre sl : Text) : Prop where
  eq : t = pre ++ (component ++ (sl ++ cursor))
  slashes : ∀ c ∈ sl, c = slash
  parted : cursor ≠ [] → sl ≠ []
  names : components pre = dirs
  ends : t.head? = some slash ∨ dirs ≠ [] → pre.getLast? = some slash
  starts : t.head? ≠ some slash → dirs = [] → pre = []
  head : cursor.head? ≠ some slash
  name_ne : component ≠ []
  name_slash : slash ∉ component

/-- A text whose head is a component and slashes. -/
theorem components_append {c : Ch} (hc : c ≠ slash) {cs sl : Text} (hcs : slash ∉ c :: cs)
    (hsl : ∀ c ∈ sl, c = slash) (hne : sl ≠ []) (t : Text) :
    components ((c :: cs) ++ (sl ++ t)) = (c :: cs) :: components t := by
  have htake : headComponent ((c :: cs) ++ (sl ++ t)) = c :: cs := by
    obtain ⟨x, sl, rfl⟩ := List.exists_cons_of_ne_nil hne
    obtain rfl := hsl x (List.mem_cons_self ..)
    rw [headComponent, List.takeWhile_append_of_pos]
    · simp
    · intro a ha
      simpa using fun h : a = slash => hcs (h ▸ ha)
  have hdrop : ((c :: cs) ++ (sl ++ t)).dropWhile (· ≠ slash) = sl ++ t := by
    have := headComponent_append_drop ((c :: cs) ++ (sl ++ t))
    rw [htake] at this
    exact List.append_cancel_left this
  have hafter : afterComponent ((c :: cs) ++ (sl ++ t)) = vfsSkipSlash t := by
    rw [afterComponent, hdrop]
    clear htake hdrop hne
    induction sl with
    | nil => rfl
    | cons x sl ih =>
      obtain rfl := hsl x (List.mem_cons_self ..)
      rw [List.cons_append, vfsSkipSlash, List.dropWhile_cons_of_pos (by simp)]
      exact ih fun c hc => hsl c (List.mem_cons_of_mem _ hc)
  rw [List.cons_append] at htake hafter ⊢
  rw [components, splitPath_cons hc, htake, hafter, List.map_cons, splitPath_skipSlash, components]

theorem splitPath_stands (h : splitPath t = l₁ ++ (component, cursor) :: l₂) :
    l₂ = splitPath cursor ∧ ∃ pre sl, Stands t (l₁.map Prod.fst) component cursor pre sl := by
  induction hn : t.length using Nat.strong_induction_on generalizing t l₁ with
  | _ n ih =>
    cases t with
    | nil => simp at h
    | cons c t =>
      rcases eq_or_ne c slash with rfl | hc
      · rw [splitPath_slash] at h
        obtain ⟨hl₂, pre, sl, hst⟩ := ih t.length (by simp [← hn]) h rfl
        refine ⟨hl₂, slash :: pre, sl, by rw [List.cons_append, ← hst.eq], hst.slashes, hst.parted,
          by rw [components_slash, hst.names], fun _ => ?_, fun h => absurd rfl h, hst.head, hst.name_ne,
          hst.name_slash⟩
        by_cases hs : t.head? = some slash ∨ l₁.map Prod.fst ≠ []
        · have := hst.ends hs
          rw [List.getLast?_cons, this]
          rfl
        · rw [not_or, not_not] at hs
          rw [hst.starts hs.1 hs.2]
          rfl
      · rw [splitPath_cons hc] at h
        obtain ⟨sl₀, heq, hsl₀, hpart⟩ := after_decomp (c :: t)
        cases l₁ with
        | nil =>
          rw [List.nil_append] at h
          obtain ⟨h1, rfl⟩ := List.cons.inj h
          obtain ⟨rfl, rfl⟩ := Prod.mk.inj h1
          refine ⟨rfl, [], sl₀, heq, hsl₀, hpart, rfl, fun h => ?_, fun _ _ => rfl, afterComponent_head _,
            headComponent_ne_nil hc, headComponent_slash _⟩
          rcases h with h | h
          · exact absurd (by simpa using h) hc
          · exact absurd rfl h
        | cons x l₁ =>
          rw [List.cons_append] at h
          obtain ⟨rfl, hl⟩ := List.cons.inj h
          have hlt := @afterComponent_length_lt c t hc
          obtain ⟨hl₂, pre, sl, hst⟩ := ih _ (by rw [← hn]; exact hlt) hl rfl
          have hne : afterComponent (c :: t) ≠ [] := by
            intro hnil
            rw [hnil] at hl
            simp at hl
          have hhead : ∃ cs, headComponent (c :: t) = c :: cs := by
            rw [headComponent, List.takeWhile_cons_of_pos (by simpa using hc)]
            exact ⟨_, rfl⟩
          obtain ⟨cs, hcs⟩ := hhead
          have hnos := headComponent_slash (c :: t)
          refine ⟨hl₂, headComponent (c :: t) ++ (sl₀ ++ pre), sl, ?_, hst.slashes, hst.parted, ?_,
            fun _ => ?_, fun _ h => by simp at h, hst.head, hst.name_ne, hst.name_slash⟩
          · conv_lhs => rw [heq, hst.eq]
            simp only [List.append_assoc]
          · rw [hcs] at hnos
            rw [List.map_cons, hcs, components_append hc hnos hsl₀ (hpart hne), hst.names]
          · rcases List.eq_nil_or_concat pre with hpre | ⟨pre', x, hpre⟩
            · obtain ⟨sl', x, hx⟩ := (List.eq_nil_or_concat sl₀).resolve_left (hpart hne)
              have : x = slash := hsl₀ x (by rw [hx]; simp)
              rw [hpre, hx, this]
              simp
            · have hs : (afterComponent (c :: t)).head? = some slash ∨ l₁.map Prod.fst ≠ [] := by
                by_contra hcon
                rw [not_or, not_not] at hcon
                have := hst.starts hcon.1 hcon.2
                rw [hpre] at this
                simp at this
              have := hst.ends hs
              rw [← List.append_assoc, List.getLast?_append, this]
              rfl

/-! ### Links -/

/-- The names of a list of turns lead to a directory without a symlink on the way. -/
def Plain (s : Vfs) : Ptr → List (Text × Text) → Ptr → Prop
  | p, [], d => d = p
  | p, (c, _) :: l, d => c.length ≤ 255 ∧ ∃ q, s.child p c = some q ∧
      (∀ target, (s.inodes q).node ≠ .symlink target) ∧ Plain s q l d

/-- The loop gets through a plain list of turns. -/
theorem scan_plain {follow : Bool} (h : Plain s current l₁ d) (l₂ : List (Text × Text)) :
    scan s follow (l₁ ++ l₂) current = scan s follow l₂ d := by
  induction l₁ generalizing current with
  | nil => rw [Plain] at h; rw [h]; rfl
  | cons x l ih =>
    obtain ⟨c, cur⟩ := x
    obtain ⟨hlen, q, hq, hn, hrest⟩ := h
    rw [List.cons_append, scan_cons, if_neg (by omega), hq]
    dsimp only
    have hgo := ih hrest
    cases hnode : (s.inodes q).node with
    | symlink target => exact absurd hnode (hn target)
    | dir children => exact hgo
    | file data => exact hgo

/-- The loop meets a symlink behind a plain list of turns. -/
theorem scan_link : scan s true l current = .link target cursor ↔
    ∃ l₁ component l₂ d q, l = l₁ ++ (component, cursor) :: l₂ ∧ Plain s current l₁ d ∧
      component.length ≤ 255 ∧ s.child d component = some q ∧ (s.inodes q).node = .symlink target := by
  constructor
  · intro h
    induction l generalizing current with
    | nil => simp [scan] at h
    | cons x l ih =>
      obtain ⟨c, cur⟩ := x
      rw [scan_cons] at h
      split at h
      · simp at h
      · next hlen =>
        split at h
        · simp at h
        · next q hq =>
          cases hn : (s.inodes q).node with
          | symlink target' =>
            rw [hn] at h
            injection h with h1 h2
            exact ⟨[], c, l, current, q, by rw [← h2]; rfl, rfl, by omega, hq, h1 ▸ hn⟩
          | dir children =>
            rw [hn] at h
            obtain ⟨l₁, c', l₂, d, q', rfl, hp, h1, h2, h3⟩ := ih h
            exact ⟨(c, cur) :: l₁, c', l₂, d, q', rfl, ⟨by omega, q, hq, by simp [hn], hp⟩, h1, h2, h3⟩
          | file data =>
            rw [hn] at h
            obtain ⟨l₁, c', l₂, d, q', rfl, hp, h1, h2, h3⟩ := ih h
            exact ⟨(c, cur) :: l₁, c', l₂, d, q', rfl, ⟨by omega, q, hq, by simp [hn], hp⟩, h1, h2, h3⟩
  · rintro ⟨l₁, c, l₂, d, q, rfl, hp, hlen, hq, hn⟩
    rw [scan_plain hp, scan_cons, if_neg (by omega), hq]
    simp only [hn]

/-! ### The last slash -/

theorem lastSlash_append {u : Text} (h : slash ∉ u) (t : Text) :
    lastSlash (t ++ slash :: u) = some t.length := by
  induction t with
  | nil =>
    have hu : lastSlash u = none := by
      induction u with
      | nil => rfl
      | cons c u ih =>
        rw [List.mem_cons, not_or] at h
        rw [lastSlash, ih h.2, if_neg (Ne.symm h.1)]
    rw [List.nil_append, lastSlash, hu, if_pos rfl]
    rfl
  | cons c t ih =>
    rw [List.cons_append, lastSlash, ih]
    rfl

/-- The directory of a text, as `vfs_symlink_resolve` writes it. -/
def dirText (base : Text) : Text :=
  match lastSlash base with
  | none => []
  | some i => base.take (if i = 0 then 1 else i) ++ [slash]

end TypeOS.Fs
