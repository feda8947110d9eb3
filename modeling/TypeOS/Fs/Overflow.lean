import TypeOS.Fs.Link

/-! What a lookup does when a text does not fit.

    `expansion` is the text that should replace `curpath`. Where it fits, `expand` gives it; where what is
    left of the target and of the remainder is too long together, `expand` gives up. Otherwise a cut text
    takes its place and the lookup goes on with it. -/

namespace TypeOS.Fs

open Iterate

variable {s : Vfs} {r : Ptr} {follow : Bool} {path base target cursor t t' w : Text} {n k : Nat}

/-- A target, taken from the root or from the directory of `base`. -/
def resolved (base target : Text) : Text :=
  if target.head? = some slash then target else dirText base ++ target

/-- The text with a link replaced, of any length. -/
def expansion (t target cursor : Text) : Text :=
  resolved (t.take (t.length - cursor.length)) target ++ (if cursor = [] then [] else slash :: cursor)

/-- What `linkbuf` holds, also where the directory and the target do not fit. -/
def linkText (base target : Text) : Text :=
  if (resolved base target).length ≤ 511 then resolved base target
  else if target.head? = some slash then target.take 511 else []

/-- What `curpath` holds then. -/
def leftover (t target cursor : Text) : Text :=
  linkText (t.take (t.length - cursor.length)) target ++
    (if cursor = [] then [] else slash :: cursor.take 255)

/-- What is left is too long, and there is a remainder: only then the lengths are compared. -/
def Noticed (t target cursor : Text) : Prop := cursor ≠ [] ∧ 511 < (leftover t target cursor).length

instance (t target cursor : Text) : Decidable (Noticed t target cursor) :=
  inferInstanceAs (Decidable (_ ∧ _))

/-- `linkbuf`, `rest` and `curpath` hold what they have to. -/
def Fits (t target cursor : Text) : Prop :=
  (resolved (t.take (t.length - cursor.length)) target).length ≤ 511 ∧ cursor.length ≤ 255 ∧
    (expansion t target cursor).length ≤ 511

instance (t target cursor : Text) : Decidable (Fits t target cursor) :=
  inferInstanceAs (Decidable (_ ∧ _))

/-- The text that the lookup goes on with as long as everything fits. -/
def exactNext (s : Vfs) (follow : Bool) (r : Ptr) (t : Text) : Option Text :=
  match scan s follow (splitPath t) r with
  | .link target cursor => if Fits t target cursor then some (expansion t target cursor) else none
  | _ => none

theorem lastSlash_lt {t : Text} {i : Nat} (h : lastSlash t = some i) : i < t.length := by
  induction t generalizing i with
  | nil => simp [lastSlash] at h
  | cons c t ih =>
    rw [lastSlash] at h
    split at h
    · next j hj =>
      have := ih hj
      rw [← Option.some.inj h, List.length_cons]
      omega
    · split at h
      · rw [← Option.some.inj h, List.length_cons]
        omega
      · simp at h

theorem lastSlash_of_mem {t : Text} (h : slash ∈ t) : ∃ i, lastSlash t = some i := by
  induction t with
  | nil => simp at h
  | cons c t ih =>
    rw [lastSlash]
    cases ht : lastSlash t with
    | some i => exact ⟨i + 1, rfl⟩
    | none =>
      rcases List.mem_cons.mp h with rfl | hmem
      · exact ⟨0, if_pos rfl⟩
      · obtain ⟨i, hi⟩ := ih hmem
        rw [ht] at hi
        cases hi

/-- Below a base with a slash in it `vfs_symlink_resolve` cuts an absolute target and drops a relative one. -/
theorem vfsSymlinkResolve_eq (hbase : slash ∈ base) :
    vfsSymlinkResolve base target 512 = linkText base target := by
  unfold vfsSymlinkResolve linkText resolved
  split
  · split
    · next hle => exact List.take_of_length_le hle
    · rfl
  · next ha =>
    obtain ⟨i, hi⟩ := lastSlash_of_mem hbase
    have hlt := lastSlash_lt hi
    have hd : dirText base = base.take (if i = 0 then 1 else i) ++ [slash] := by
      rw [dirText, hi]
    have hlen : (base.take (if i = 0 then 1 else i)).length = if i = 0 then 1 else i := by
      rw [List.length_take]
      split <;> omega
    rw [hi, hd, List.length_append, List.length_append, hlen, List.length_singleton]
    dsimp only
    by_cases hle : (if i = 0 then 1 else i) + 1 + target.length ≤ 511
    · rw [if_pos hle, if_neg (by omega), List.append_assoc, List.singleton_append]
    · rw [if_neg hle, if_pos (by omega)]

theorem length_linkText (base target : Text) : (linkText base target).length ≤ 511 := by
  unfold linkText
  split
  · next h => exact h
  · split
    · exact List.length_take_le ..
    · exact Nat.zero_le _

/-- The expansion is what is left, unless its length is noticed. -/
theorem expand_eq (ht : t.length ≤ 511) (hbase : slash ∈ t.take (t.length - cursor.length)) :
    expand t target cursor = if Noticed t target cursor then none else some (leftover t target cursor) := by
  unfold expand
  dsimp only
  rw [if_neg (by omega), vfsSymlinkResolve_eq hbase]
  by_cases hc : cursor = []
  · have hleft : leftover t target cursor = linkText (t.take (t.length - cursor.length)) target := by
      rw [leftover, if_pos hc, List.append_nil]
    rw [if_pos (by rw [hc]; rfl), if_neg fun hn : Noticed t target cursor => hn.1 hc, hleft,
      List.take_of_length_le (length_linkText ..)]
  · have hleft : leftover t target cursor =
        linkText (t.take (t.length - cursor.length)) target ++ slash :: cursor.take 255 := by
      rw [leftover, if_neg hc]
    have hlen := congrArg List.length hleft
    rw [List.length_append, List.length_cons] at hlen
    rw [if_neg (by simpa using hc)]
    by_cases hlong : 511 < (leftover t target cursor).length
    · rw [if_pos (show Noticed t target cursor from ⟨hc, hlong⟩), if_pos (by omega)]
    · rw [if_neg fun hn : Noticed t target cursor => hlong hn.2, if_neg (by omega), ← hleft,
        List.take_of_length_le (not_lt.mp hlong)]

/-- What fits is left whole. -/
theorem leftover_of_fits (h : Fits t target cursor) :
    leftover t target cursor = expansion t target cursor := by
  obtain ⟨h1, h2, -⟩ := h
  rw [leftover, expansion, linkText, if_pos h1, List.take_of_length_le h2]

theorem expand_of_fits (ht : t.length ≤ 511) (hbase : slash ∈ t.take (t.length - cursor.length))
    (h : Fits t target cursor) : expand t target cursor = some (expansion t target cursor) := by
  rw [expand_eq ht hbase, leftover_of_fits h, if_neg]
  rintro ⟨-, hlong⟩
  rw [leftover_of_fits h] at hlong
  exact absurd h.2.2 (not_le.mpr hlong)

/-! ### Absolute texts -/

/-- Without `follow_symlink` no link is followed. -/
theorem scan_not_link {l : List (Text × Text)} {current : Ptr} :
    scan s false l current ≠ .link target cursor := by
  induction l generalizing current with
  | nil => simp [scan]
  | cons x l ih =>
    obtain ⟨component, cur⟩ := x
    rw [scan_cons]
    split
    · simp
    · split
      · simp
      · next q _ => cases (s.inodes q).node <;> exact ih

/-- Before a link that the loop meets stands a slash. -/
theorem link_slash (ht : t.head? = some slash) (h : scan s true (splitPath t) r = .link target cursor) :
    slash ∈ t.take (t.length - cursor.length) := by
  obtain ⟨l₁, component, l₂, d, q, hl, -⟩ := scan_link.mp h
  obtain ⟨-, pre, sl, hst⟩ := splitPath_stands hl
  have hpre := hst.ends (Or.inl ht)
  have hlen : t.take (t.length - cursor.length) = pre ++ (component ++ sl) := by
    conv_lhs => rw [hst.eq]
    simp only [List.length_append, ← List.append_assoc]
    rw [List.take_left' (by simp only [List.length_append]; omega)]
  rw [hlen]
  exact List.mem_append_left _ (List.mem_of_getLast? hpre)

theorem dirText_head (hb : base.head? = some slash) : (dirText base).head? = some slash := by
  have hmem : slash ∈ base := List.mem_of_head? hb
  obtain ⟨i, hi⟩ := lastSlash_of_mem hmem
  cases base with
  | nil => simp at hb
  | cons c base =>
    obtain rfl : c = slash := by simpa using hb
    unfold dirText
    rw [hi]
    dsimp only
    split
    · rfl
    · next h0 =>
      obtain ⟨j, rfl⟩ := Nat.exists_eq_succ_of_ne_zero h0
      rfl

theorem resolved_head (hb : base.head? = some slash) : (resolved base target).head? = some slash := by
  unfold resolved
  split
  · next ha => exact ha
  · rw [List.head?_append, dirText_head hb]
    rfl

/-- So what stands before a link is absolute. -/
theorem link_base (ht : t.head? = some slash) (h : scan s true (splitPath t) r = .link target cursor) :
    (t.take (t.length - cursor.length)).head? = some slash := by
  have hmem := link_slash ht h
  cases t with
  | nil => simp at ht
  | cons c t =>
    cases hn : (c :: t).length - cursor.length with
    | zero =>
      rw [hn] at hmem
      simp at hmem
    | succ n => simpa using ht

theorem expansion_head (ht : t.head? = some slash)
    (h : scan s true (splitPath t) r = .link target cursor) :
    (expansion t target cursor).head? = some slash := by
  rw [expansion, List.head?_append, resolved_head (link_base ht h)]
  rfl

/-- What is left is absolute too, or nothing. -/
theorem leftover_head (ht : t.head? = some slash)
    (h : scan s true (splitPath t) r = .link target cursor) (hne : leftover t target cursor ≠ []) :
    (leftover t target cursor).head? = some slash := by
  unfold leftover linkText at hne ⊢
  split
  · rw [List.head?_append, resolved_head (link_base ht h)]
    rfl
  · split
    · next ha =>
      cases target with
      | nil => cases ha
      | cons c target => simpa using ha
    · next hlong hrel =>
      rw [if_neg hlong, if_neg hrel] at hne
      rw [List.nil_append] at hne ⊢
      split
      · next hc => exact absurd (if_pos hc) hne
      · rfl

/-- One step of the lookup, where everything fits. -/
theorem nextText_of_exact (ht : t.length ≤ 511) (ha : t.head? = some slash)
    (h : exactNext s follow r t = some t') :
    nextText s follow r t = some t' ∧ t'.length ≤ 511 ∧ t'.head? = some slash := by
  cases hs : scan s follow (splitPath t) r with
  | null => simp [exactNext, hs] at h
  | done p => simp [exactNext, hs] at h
  | link target cursor =>
    have hnext : nextText s follow r t = expand t target cursor := by simp only [nextText, hs]
    simp only [exactNext, hs] at h
    cases follow with
    | false => exact absurd hs scan_not_link
    | true =>
      rw [hnext]
      split at h
      · next hf =>
        rw [← Option.some.inj h]
        exact ⟨expand_of_fits ht (link_slash ha hs) hf, hf.2.2, expansion_head ha hs⟩
      · simp at h

theorem iterates_of_exact (ht : t.length ≤ 511) (ha : t.head? = some slash)
    (h : iterates (exactNext s follow r) k t = some t') :
    iterates (nextText s follow r) k t = some t' := by
  induction k generalizing t with
  | zero => exact h
  | succ k ih =>
    obtain ⟨u, hu, hk⟩ := Option.bind_eq_some_iff.mp h
    obtain ⟨h1, h2, h3⟩ := nextText_of_exact ht ha hu
    rw [iterates, h1]
    exact ih h2 h3 hk

/-! ### What does not fit -/

/-- The path, or a text on the way, does not fit. -/
def Overflows (s : Vfs) (follow : Bool) (r : Ptr) (path : Text) : Prop :=
  511 < path.length ∨ ∃ k t target cursor, iterates (exactNext s follow r) k path = some t ∧
    scan s follow (splitPath t) r = .link target cursor ∧ ¬ Fits t target cursor

/-- The first text that does not fit is cut without notice, and `w` is what is left. -/
def CutTo (s : Vfs) (follow : Bool) (r : Ptr) (path w : Text) : Prop :=
  (511 < path.length ∧ w = path.take 511) ∨
  (path.length ≤ 511 ∧ ∃ k t target cursor, iterates (exactNext s follow r) k path = some t ∧
    scan s follow (splitPath t) r = .link target cursor ∧ ¬ Fits t target cursor ∧
    ¬ Noticed t target cursor ∧ w = leftover t target cursor)

/-- The texts of the chain before the first that does not fit are short and absolute. -/
theorem exact_texts (ht : t.length ≤ 511) (ha : t.head? = some slash)
    (h : iterates (exactNext s follow r) k t = some t') : t'.length ≤ 511 ∧ t'.head? = some slash := by
  induction k generalizing t with
  | zero => exact Option.some.inj h ▸ ⟨ht, ha⟩
  | succ k ih =>
    obtain ⟨u, hu, hk⟩ := Option.bind_eq_some_iff.mp h
    obtain ⟨-, h2, h3⟩ := nextText_of_exact ht ha hu
    exact ih h2 h3 hk

/-- At the first link whose expansion does not fit, the lookup gives up where that is noticed, and goes on
    with what is left where it is not. -/
theorem answers_overflow (ht : path.length ≤ 511) (ha : path.head? = some slash)
    (hk : iterates (exactNext s follow r) k path = some t)
    (hs : scan s follow (splitPath t) r = .link target cursor) :
    (Noticed t target cursor → Answers s follow r path none) ∧
    (¬ Noticed t target cursor → ∀ answer,
      Answers s follow r path answer ↔ Answers s follow r (leftover t target cursor) answer) := by
  obtain ⟨hshort, habs⟩ := exact_texts ht ha hk
  have hk' := iterates_of_exact ht ha hk
  have hnext : nextText s follow r t = expand t target cursor := by simp only [nextText, hs]
  cases follow with
  | false => exact absurd hs scan_not_link
  | true =>
    rw [expand_eq hshort (link_slash habs hs)] at hnext
    refine ⟨fun hn => ?_, fun hn answer => ?_⟩
    · rw [if_pos hn] at hnext
      rw [answers_iterates hk']
      exact ⟨0, t, rfl, hnext, by simp only [lastAnswer, hs]⟩
    · rw [if_neg hn] at hnext
      rw [answers_iterates hk', answers_iterates (k := 1) (by rw [iterates, hnext]; rfl)]

/-- The empty text leads to the root. -/
theorem answers_nil : Answers s follow r [] (some r) := by
  have hscan : scan s follow (splitPath []) r = .done r := by rw [splitPath_nil]; rfl
  exact ⟨0, [], rfl, by simp only [nextText, hscan], by simp only [lastAnswer, hscan]⟩

/-- A lookup for which something does not fit returns `NULL` if no text is cut without notice. Where one
    is, the lookup answers what it answers for the text that is left, and for an empty one the root. -/
theorem overflow_is_null (hb : Built s) (hr : s.root = some r) (ha : vfsIsAbsolute path = true) :
    ((∀ w, ¬ CutTo s follow r path w) → Overflows s follow r path →
      ∃ n, vfsLookupPath n s path follow = some none) ∧
    ∀ w, CutTo s follow r path w →
      (w = [] → ∃ n, vfsLookupPath n s path follow = some (some r)) ∧
      (w ≠ [] → ∀ answer, (∃ n, vfsLookupPath n s path follow = some answer) ↔
        ∃ n, vfsLookupPath n s w follow = some answer) := by
  obtain ⟨r', hr', h⟩ := hb.shape
  obtain rfl : r' = r := Option.some.inj (hr'.symm.trans hr)
  have habs : path.head? = some slash := by simpa [vfsIsAbsolute] using ha
  have hanswers : ∀ {t}, t.head? = some slash → ∀ answer,
      (∃ n, vfsLookupPath n s t follow = some answer) ↔ Answers s follow r' (t.take 511) answer := by
    intro t ht answer
    simp only [vfsLookupPath_absolute hr (by simpa [vfsIsAbsolute] using ht)]
    exact restart_some h
  rw [hanswers habs]
  refine ⟨?_, ?_⟩
  · rintro hcut (hlong | ⟨k, t, target, cursor, hk, hs, hf⟩)
    · exact absurd (Or.inl ⟨hlong, rfl⟩) (hcut _)
    rcases Nat.lt_or_ge 511 path.length with hlong | hshort
    · exact absurd (Or.inl ⟨hlong, rfl⟩) (hcut _)
    rw [List.take_of_length_le hshort]
    refine (answers_overflow hshort habs hk hs).1 ?_
    by_contra hn
    exact hcut _ (Or.inr ⟨hshort, k, t, target, cursor, hk, hs, hf, hn, rfl⟩)
  · intro w hw
    have hsame : (w ≠ [] → w.head? = some slash) ∧ w.length ≤ 511 ∧
        ∀ answer, Answers s follow r' (path.take 511) answer ↔ Answers s follow r' w answer := by
      rcases hw with ⟨-, rfl⟩ | ⟨hshort, k, t, target, cursor, hk, hs, -, hn, rfl⟩
      · refine ⟨fun hne => ?_, List.length_take_le .., fun _ => Iff.rfl⟩
        cases path with
        | nil => cases habs
        | cons c path => simpa using habs
      · obtain ⟨htexts, hthead⟩ := exact_texts hshort habs hk
        rw [List.take_of_length_le hshort]
        refine ⟨fun hne => ?_, ?_, (answers_overflow hshort habs hk hs).2 hn⟩
        · cases follow with
          | false => exact absurd hs scan_not_link
          | true => exact leftover_head hthead hs hne
        · by_cases hc : cursor = []
          · rw [leftover, if_pos hc, List.append_nil]
            exact length_linkText ..
          · exact not_lt.mp fun hlong => hn ⟨hc, hlong⟩
    obtain ⟨hhead, hlen, hsame⟩ := hsame
    refine ⟨?_, fun hne answer => ?_⟩
    · rintro rfl
      rw [hanswers habs, hsame]
      exact answers_nil
    · rw [hanswers habs, hanswers (hhead hne), hsame, List.take_of_length_le hlen]

/-- A symlink `a` with a target of 300 bytes. -/
def wideLink : Vfs :=
  (Call.run rising (.symlink (List.replicate 300 (letter 1)) [slash, letter 0]) emptyVfs).2

theorem wideLink_built : Built wideLink := .call rising _ emptyVfs_built

/-- A path through it, whose remainder fits but not behind the target. -/
def wideLinkPath : Text := slash :: letter 0 :: slash :: List.replicate 250 (letter 2)

theorem overflow_is_null_wideLink : Overflows wideLink true 0 wideLinkPath ∧
    ∃ n, vfsLookupPath n wideLink wideLinkPath true = some none := by
  have hscan : scan wideLink true (splitPath wideLinkPath) 0 =
      .link (List.replicate 300 (letter 1)) (List.replicate 250 (letter 2)) := by decide +kernel
  have hover : Overflows wideLink true 0 wideLinkPath :=
    Or.inr ⟨0, _, _, _, rfl, hscan, by decide +kernel⟩
  refine ⟨hover, (overflow_is_null wideLink_built (by decide) (by decide)).1 ?_ hover⟩
  rintro w (⟨hlong, -⟩ | ⟨-, k, t, target, cursor, hk, hs, hf, hn, -⟩)
  · exact absurd hlong (by decide +kernel)
  · -- the chain ends at its first text
    have hend : exactNext wideLink true 0 wideLinkPath = none := by
      simp only [exactNext, hscan]
      exact if_neg (by decide +kernel)
    cases k with
    | zero =>
      obtain rfl := Option.some.inj hk
      rw [hscan] at hs
      injection hs with h1 h2
      rw [← h1, ← h2] at hn
      exact hn (by decide +kernel)
    | succ k =>
      rw [iterates, hend] at hk
      cases hk

/-- A symlink with a target of 600 bytes. -/
def longLink : Vfs :=
  (Call.run rising (.symlink (List.replicate 600 (letter 1)) [slash, letter 0]) emptyVfs).2

theorem longLink_built : Built longLink := .call rising _ emptyVfs_built

/-- Its expansion does not fit, and the lookup finds the root. -/
theorem longLink_is_root : ¬ ∀ s r path follow, Built s → s.root = some r →
    vfsIsAbsolute path = true → Overflows s follow r path →
      ∃ n, vfsLookupPath n s path follow = some none := by
  intro hall
  have hscan : scan longLink true (splitPath [slash, letter 0]) 0 =
      .link (List.replicate 600 (letter 1)) [] := by decide +kernel
  have hroot : longLink.root = some 0 := by decide
  have hover : Overflows longLink true 0 [slash, letter 0] :=
    Or.inr ⟨0, _, _, _, rfl, hscan, by decide +kernel⟩
  obtain ⟨n, hn⟩ := hall longLink 0 _ true longLink_built hroot (by decide) hover
  rw [vfsLookupPath_absolute hroot (by decide)] at hn
  obtain ⟨r, hr, h⟩ := longLink_built.shape
  obtain rfl : r = 0 := Option.some.inj (hr.symm.trans hroot)
  have hnull : Answers longLink true 0 [slash, letter 0] none := (restart_some h).mp ⟨n, hn⟩
  have hnext : nextText longLink true 0 [slash, letter 0] = some [] := by
    simp only [nextText, hscan]
    decide +kernel
  rw [answers_iterates (k := 1) (by rw [iterates, hnext]; rfl),
    answers_last (by decide)] at hnull
  exact absurd hnull (by decide)

end TypeOS.Fs
