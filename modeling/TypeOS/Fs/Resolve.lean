import TypeOS.Fs.Overflow

/-! Symlinks by the book, and where the lookup follows them so.

    `resolve` is resolution on lists of names: the first symlink on the way is replaced by the names of
    its target, behind those of its directory unless the target is absolute. The lookup does the same
    on texts, and gets it right when the link is absolute or ends the text. Else the `partial` it hands
    to `vfs_symlink_resolve` ends in a slash, the directory it takes the target from is the link
    itself, and the next round meets the link again. -/

namespace TypeOS.Fs

open Iterate

variable {s : Vfs} {r p q current : Ptr} {l l₁ l₂ : List (Text × Text)} {path target cursor t t' u w : Text}
  {component pre sl : Text} {dirs names : List Text} {n k : Nat} {answer : Option Ptr}

/-! ### The reference -/

/-- The end of a walk over names: nothing, an inode, or a symlink in the directory `dirs`, with the
    names that are left. -/
inductive Found
  | none
  | at (p : Ptr)
  | link (dirs : List Text) (target : Text) (rest : List Text)

/-- The walk up to the first symlink. -/
def firstLink (s : Vfs) : List Text → Ptr → List Text → Found
  | _, p, [] => .at p
  | dirs, p, c :: cs =>
    match s.child p c with
    | none => .none
    | some q =>
      match (s.inodes q).node with
      | .symlink target => .link dirs target cs
      | _ => firstLink s (dirs ++ [c]) q cs

/-- The names that replace a link. -/
def replaced (dirs : List Text) (target : Text) (rest : List Text) : List Text :=
  (if target.head? = some slash then [] else dirs) ++ (components target ++ rest)

/-- Resolution with at most n symlinks: none if there are more. -/
def resolve (s : Vfs) (r : Ptr) : Nat → List Text → Option (Option Ptr)
  | n, names =>
    match firstLink s [] r names, n with
    | .none, _ => some none
    | .at p, _ => some (some p)
    | .link .., 0 => none
    | .link dirs target rest, n + 1 => resolve s r n (replaced dirs target rest)

/-! ### The reference on texts -/

/-- The text in front of the link. -/
def linkDir (t cursor : Text) : Text :=
  (((t.take (t.length - cursor.length)).reverse.dropWhile (· = slash)).dropWhile (· ≠ slash)).reverse

/-- The text with the link replaced by its target, from the root or behind its directory. -/
def refText (t target cursor : Text) : Text :=
  (if target.head? = some slash then target else linkDir t cursor ++ target) ++
    (if cursor = [] then [] else slash :: cursor)

/-- The next intermediate text. -/
def refNext (s : Vfs) (r : Ptr) (t : Text) : Option Text :=
  match scan s true (splitPath t) r with
  | .link target cursor => some (refText t target cursor)
  | _ => none

theorem components_skipSlash (t : Text) : components (vfsSkipSlash t) = components t := by
  rw [components, splitPath_skipSlash, components]

theorem components_cons {c : Ch} (hc : c ≠ slash) (t : Text) : components (c :: t) =
    headComponent (c :: t) :: components ((c :: t).dropWhile (· ≠ slash)) := by
  rw [components, splitPath_cons hc, List.map_cons, ← components_skipSlash]
  rfl

/-- A slash parts the names of a text. -/
theorem components_parted (x y : Text) :
    components (x ++ slash :: y) = components x ++ components y := by
  induction hn : x.length using Nat.strong_induction_on generalizing x with
  | _ n ih =>
    cases x with
    | nil => rw [List.nil_append, components_slash]; rfl
    | cons c x =>
      rcases eq_or_ne c slash with rfl | hc
      · rw [List.cons_append, components_slash, components_slash]
        exact ih x.length (by simp [← hn]) x rfl
      · have hdrop : ((c :: x) ++ slash :: y).dropWhile (· ≠ slash) =
            (c :: x).dropWhile (· ≠ slash) ++ slash :: y := by
          clear hn ih hc
          induction c :: x with
          | nil => simp
          | cons d z ih =>
            rcases eq_or_ne d slash with rfl | hd
            · simp
            · rw [List.cons_append, List.dropWhile_cons_of_pos (by simpa using hd), ih,
                List.dropWhile_cons_of_pos (by simpa using hd)]
        have hhead : headComponent ((c :: x) ++ slash :: y) = headComponent (c :: x) := by
          have h1 := headComponent_append_drop ((c :: x) ++ slash :: y)
          have h2 := headComponent_append_drop (c :: x)
          rw [hdrop, ← List.append_assoc] at h1
          conv_rhs at h1 => rw [← h2]
          exact List.append_cancel_right (List.append_cancel_right h1)
        have hlt : ((c :: x).dropWhile (· ≠ slash)).length < n := by
          rw [List.dropWhile_cons_of_pos (by simpa using hc), ← hn, List.length_cons]
          exact Nat.lt_succ_of_le (List.dropWhile_suffix _).length_le
        rw [List.cons_append] at hhead hdrop ⊢
        rw [components_cons hc, components_cons hc, hhead, hdrop, ih _ hlt _ rfl, List.cons_append]

theorem Stands.take (h : Stands t dirs component cursor pre sl) :
    t.take (t.length - cursor.length) = pre ++ (component ++ sl) := by
  conv_lhs => rw [h.eq]
  simp only [List.length_append, ← List.append_assoc]
  rw [List.take_left' (by simp only [List.length_append]; omega)]

/-- The directory of the link is what stands in front of it. -/
theorem Stands.linkDir (h : Stands t dirs component cursor pre sl) (hp : pre.getLast? = some slash) :
    linkDir t cursor = pre := by
  obtain ⟨c, cs, hc⟩ := List.exists_cons_of_ne_nil (List.reverse_ne_nil_iff.mpr h.name_ne)
  have hmem : ∀ a ∈ component.reverse, a ≠ slash := by
    intro a ha he
    exact h.name_slash (he ▸ List.mem_reverse.mp ha)
  have hpre : pre.reverse.dropWhile (· ≠ slash) = pre.reverse := by
    rw [← List.head?_reverse] at hp
    cases hr : pre.reverse with
    | nil => rfl
    | cons a as =>
      rw [hr] at hp
      refine List.dropWhile_cons_of_neg ?_
      simpa using hp
  rw [Fs.linkDir, h.take, List.reverse_append, List.reverse_append, List.append_assoc,
    List.dropWhile_append_of_pos fun a ha => by simpa using h.slashes a (List.mem_reverse.mp ha)]
  have hstop : (component.reverse ++ pre.reverse).dropWhile (· = slash) =
      component.reverse ++ pre.reverse := by
    rw [hc, List.cons_append]
    refine List.dropWhile_cons_of_neg ?_
    simpa using hmem c (by rw [hc]; exact List.mem_cons_self ..)
  rw [hstop, List.dropWhile_append_of_pos fun a ha => by simpa using hmem a ha, hpre, List.reverse_reverse]

/-- Replacing a link in the text replaces it in the list of names. -/
theorem Stands.components_refText (h : Stands t dirs component cursor pre sl)
    (hp : pre.getLast? = some slash) :
    components (refText t target cursor) = replaced dirs target (components cursor) := by
  have htail : components (target ++ if cursor = [] then [] else slash :: cursor) =
      components target ++ components cursor := by
    split
    · next hc => simp [hc, components_nil]
    · exact components_parted ..
  unfold refText replaced
  split
  · exact htail
  · obtain ⟨pre', hpre⟩ := List.getLast?_eq_some_iff.mp hp
    rw [h.linkDir hp, ← h.names, hpre, List.append_assoc, List.append_assoc, List.singleton_append,
      components_parted, htail, components_parted, components_nil, List.append_nil]

/-- The walk over the names and the loop over the text see the same. -/
theorem firstLink_scan (hshort : ∀ x ∈ l, x.1.length ≤ 255) (dirs : List Text) (current : Ptr) :
    (scan s true l current = .null ∧ firstLink s dirs current (l.map Prod.fst) = .none) ∨
    (∃ p, scan s true l current = .done p ∧ firstLink s dirs current (l.map Prod.fst) = .at p) ∨
    ∃ l₁ component cursor l₂ target, l = l₁ ++ (component, cursor) :: l₂ ∧
      scan s true l current = .link target cursor ∧
      firstLink s dirs current (l.map Prod.fst) =
        .link (dirs ++ l₁.map Prod.fst) target (l₂.map Prod.fst) := by
  induction l generalizing dirs current with
  | nil => exact Or.inr (Or.inl ⟨current, rfl, rfl⟩)
  | cons x l ih =>
    obtain ⟨c, cur⟩ := x
    have hlen := hshort (c, cur) (List.mem_cons_self ..)
    dsimp only at hlen
    rw [scan_cons, if_neg (by omega), List.map_cons, firstLink]
    cases hq : s.child current c with
    | none => exact Or.inl ⟨rfl, rfl⟩
    | some q =>
      dsimp only
      have hgo := ih (fun y hy => hshort y (List.mem_cons_of_mem _ hy)) (dirs ++ [c]) q
      have hrest : (∃ l₁ component cursor l₂ target, l = l₁ ++ (component, cursor) :: l₂ ∧
          scan s true l q = .link target cursor ∧ firstLink s (dirs ++ [c]) q (l.map Prod.fst) =
            .link (dirs ++ [c] ++ l₁.map Prod.fst) target (l₂.map Prod.fst)) →
          ∃ l₁ component cursor l₂ target, (c, cur) :: l = l₁ ++ (component, cursor) :: l₂ ∧
            scan s true l q = .link target cursor ∧ firstLink s (dirs ++ [c]) q (l.map Prod.fst) =
              .link (dirs ++ l₁.map Prod.fst) target (l₂.map Prod.fst) := by
        rintro ⟨l₁, c', cur', l₂, target, rfl, h1, h2⟩
        refine ⟨(c, cur) :: l₁, c', cur', l₂, target, rfl, h1, ?_⟩
        rw [h2, List.map_cons, List.append_assoc, List.singleton_append]
      cases hn : (s.inodes q).node with
      | symlink target =>
        refine Or.inr (Or.inr ⟨[], c, cur, l, target, rfl, rfl, ?_⟩)
        rw [List.map_nil, List.append_nil]
      | dir children =>
        exact hgo.imp_right (Or.imp_right hrest)
      | file data =>
        exact hgo.imp_right (Or.imp_right hrest)

theorem component_short {x : Text × Text} (hx : x ∈ splitPath t) (ht : t.length ≤ 255) :
    x.1.length ≤ 255 := by
  obtain ⟨l₁, l₂, hl⟩ := List.append_of_mem hx
  obtain ⟨-, pre, sl, hst⟩ := splitPath_stands (hl : splitPath t = l₁ ++ (x.1, x.2) :: l₂)
  have := congrArg List.length hst.eq
  simp only [List.length_append] at this
  omega

/-- Resolution goes from text to text. -/
theorem resolve_refNext (ha : t.head? = some slash) (ht : t.length ≤ 255) (n : Nat) :
    resolve s r n (components t) =
      match refNext s r t, n with
      | none, _ => some (lastAnswer s true r t)
      | some _, 0 => none
      | some t', n + 1 => resolve s r n (components t') := by
  have hshort : ∀ x ∈ splitPath t, x.1.length ≤ 255 := fun x hx => component_short hx ht
  rw [resolve.eq_def]
  dsimp only
  rw [components]
  rcases @firstLink_scan s _ hshort [] r with ⟨h1, h2⟩ | ⟨p, h1, h2⟩ |
    ⟨l₁, component, cursor, l₂, target, hl, h1, h2⟩
  · rw [h2]
    simp only [refNext, lastAnswer, h1]
  · rw [h2]
    simp only [refNext, lastAnswer, h1]
  · obtain ⟨rfl, pre, sl, hst⟩ := splitPath_stands hl
    rw [h2]
    simp only [refNext, h1, List.nil_append]
    cases n with
    | zero => rfl
    | succ n =>
      dsimp only
      rw [hst.components_refText (hst.ends (Or.inl ha))]
      rfl

end TypeOS.Fs
