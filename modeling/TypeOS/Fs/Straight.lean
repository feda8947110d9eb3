import TypeOS.Fs.Resolve

/-! The lookup agrees with the reference as long as the links that it meets are straight, and what it
    does at the first that is not. -/

namespace TypeOS.Fs

open Iterate

variable {s : Vfs} {r p q d current : Ptr} {l l₁ l₂ : List (Text × Text)}
  {path target cursor c t t' u w : Text} {component pre sl : Text} {dirs names : List Text} {n k : Nat}
  {answer : Option Ptr}

/-- A link whose target is absolute, or that ends the text. -/
def Straight (s : Vfs) (r : Ptr) (t : Text) : Prop :=
  ∀ target cursor, scan s true (splitPath t) r = .link target cursor →
    target.head? = some slash ∨ (cursor = [] ∧ t.getLast? ≠ some slash)

/-- The text of the lookup may have one slash more in front than the text of the reference. -/
def Same (c t : Text) : Prop := c = t ∨ c = slash :: t

theorem Same.splitPath (h : Same c t) : splitPath c = Fs.splitPath t := by
  rcases h with rfl | rfl
  · rfl
  · exact splitPath_slash t

theorem Same.head (h : Same c t) (ha : t.head? = some slash) : c.head? = some slash := by
  rcases h with rfl | rfl
  · exact ha
  · rfl

theorem Same.length (h : Same c t) : c.length ≤ t.length + 1 := by
  rcases h with rfl | rfl <;> simp

theorem Same.getLast (h : Same c t) (ha : t.head? = some slash) : c.getLast? = t.getLast? := by
  rcases h with rfl | rfl
  · rfl
  · cases t with
    | nil => simp at ha
    | cons a t => rfl

theorem Same.straight (h : Same c t) (ha : t.head? = some slash) : Straight s r c ↔ Straight s r t := by
  unfold Straight
  rw [h.splitPath, h.getLast ha]

/-- The directory that `vfs_symlink_resolve` finds for a link that ends the text. -/
theorem dirText_end (hs : slash ∉ component) (y : Text) :
    dirText (y ++ slash :: component) = if y = [] then [slash, slash] else y ++ [slash] := by
  rw [dirText, lastSlash_append hs]
  dsimp only
  cases y with
  | nil => rfl
  | cons a y =>
    rw [if_neg (by simp), if_neg (by simp)]
    simp

theorem refText_head (ha : t.head? = some slash) (h : scan s true (splitPath t) r = .link target cursor) :
    (refText t target cursor).head? = some slash := by
  obtain ⟨l₁, component, l₂, d, q, hl, -⟩ := scan_link.mp h
  obtain ⟨-, pre, sl, hst⟩ := splitPath_stands hl
  have hp := hst.ends (Or.inl ha)
  unfold refText
  split
  · next habs => rw [List.head?_append, habs]; rfl
  · rw [hst.linkDir hp]
    have hpre : pre.head? = some slash := by
      cases pre with
      | nil => simp at hp
      | cons a pre =>
        rw [hst.eq] at ha
        exact ha
    rw [List.append_assoc, List.head?_append, hpre]
    rfl

/-- At a straight link the lookup goes on with the text of the reference. -/
theorem Same.next (h : Same c t) (ha : t.head? = some slash) (ht : t.length ≤ 255)
    (hs : scan s true (Fs.splitPath t) r = .link target cursor) (hst : Straight s r t)
    (hlen : (refText t target cursor).length ≤ 255) :
    ∃ c', nextText s true r c = some c' ∧ Same c' (refText t target cursor) := by
  have hc := h.head ha
  have hs' : scan s true (Fs.splitPath c) r = .link target cursor := by rw [h.splitPath, hs]
  have hcl := h.length
  have hnext : nextText s true r c = expand c target cursor := by simp only [nextText, hs']
  obtain ⟨l₁, component, l₂, d, q, hl, -⟩ := scan_link.mp hs
  obtain ⟨-, pre, sl, hstand⟩ := splitPath_stands hl
  have hcur : cursor.length ≤ 255 := by
    have := congrArg List.length hstand.eq
    simp only [List.length_append] at this
    omega
  -- the text that it goes on with, whether it fits or not
  have hsame : Same (expansion c target cursor) (refText t target cursor) := by
    unfold expansion refText resolved
    by_cases habs : target.head? = some slash
    · rw [if_pos habs, if_pos habs]
      exact Or.inl rfl
    · rw [if_neg habs, if_neg habs]
      obtain ⟨rfl, hlast⟩ := (hst target cursor hs).resolve_left habs
      have hp := hstand.ends (Or.inl ha)
      obtain ⟨pre', rfl⟩ := List.getLast?_eq_some_iff.mp hp
      have hsl : sl = [] := by
        rcases List.eq_nil_or_concat sl with hsl | ⟨sl', x, rfl⟩
        · exact hsl
        · have hx := hstand.slashes x (by simp)
          rw [hstand.eq, hx] at hlast
          refine absurd ?_ hlast
          simp only [List.append_nil, List.concat_eq_append, ← List.append_assoc, List.getLast?_concat]
      have heq := hstand.eq
      rw [hsl] at heq
      simp only [List.append_nil, List.append_assoc, List.singleton_append] at heq
      rw [hstand.linkDir hp, if_pos rfl, List.append_nil, List.append_nil]
      have hdir : Same (dirText c) (pre' ++ [slash]) := by
        rcases h with rfl | rfl
        · rw [heq, dirText_end hstand.name_slash]
          split
          · next hnil => rw [hnil]; exact Or.inr rfl
          · exact Or.inl rfl
        · rw [heq, ← List.cons_append, dirText_end hstand.name_slash, if_neg (by simp)]
          exact Or.inr rfl
      rw [List.length_nil, Nat.sub_zero, List.take_length]
      rcases hdir with hd | hd <;> rw [hd]
      · exact Or.inl rfl
      · exact Or.inr rfl
  have hfits : Fits c target cursor := by
    have := hsame.length
    refine ⟨?_, hcur, by omega⟩
    rw [expansion, List.length_append] at this
    omega
  exact ⟨_, hnext.trans (expand_of_fits (by omega) (link_slash hc hs') hfits), hsame⟩

/-! ### A link that is not straight -/

/-- A list of turns is plain by its names. -/
theorem Plain.congr {l l' : List (Text × Text)} (h : Plain s p l d) (hl : l'.map Prod.fst = l.map Prod.fst) :
    Plain s p l' d := by
  induction l generalizing p l' with
  | nil =>
    obtain rfl := List.map_eq_nil_iff.mp hl
    exact h
  | cons x l ih =>
    obtain ⟨a, cur⟩ := x
    cases l' with
    | nil => simp at hl
    | cons y l' =>
      obtain ⟨b, cur'⟩ := y
      simp only [List.map_cons, List.cons.injEq] at hl
      obtain ⟨rfl, hl⟩ := hl
      obtain ⟨hlen, q, hq, hn, hrest⟩ := h
      exact ⟨hlen, q, hq, hn, ih hrest hl⟩

/-- The turns over a text that goes on behind a slash. -/
theorem splitPath_front (hp : pre = [] ∨ pre.getLast? = some slash) (x : Text) :
    ∃ l, splitPath (pre ++ x) = l ++ splitPath x ∧ l.map Prod.fst = components pre := by
  induction hn : pre.length using Nat.strong_induction_on generalizing pre with
  | _ n ih =>
    cases pre with
    | nil => exact ⟨[], rfl, rfl⟩
    | cons a pre =>
      have hlast : (a :: pre).getLast? = some slash := hp.resolve_left (by simp)
      rcases eq_or_ne a slash with rfl | ha
      · have hp' : pre = [] ∨ pre.getLast? = some slash := by
          cases pre with
          | nil => exact Or.inl rfl
          | cons b pre => exact Or.inr (by simpa using hlast)
        obtain ⟨l, h1, h2⟩ := ih pre.length (by simp [← hn]) hp' rfl
        exact ⟨l, by rw [List.cons_append, splitPath_slash, h1], by rw [h2, components_slash]⟩
      · have hmem : slash ∈ a :: pre := List.mem_of_getLast? hlast
        have hne : (a :: pre).dropWhile (· ≠ slash) ≠ [] := by
          intro hnil
          have hall := headComponent_append_drop (a :: pre)
          rw [hnil, List.append_nil] at hall
          rw [← hall] at hmem
          exact headComponent_slash (a :: pre) hmem
        have hdrop : ((a :: pre) ++ x).dropWhile (· ≠ slash) =
            (a :: pre).dropWhile (· ≠ slash) ++ x := by
          rw [List.dropWhile_append, if_neg (by simpa using hne)]
        have hhead : headComponent ((a :: pre) ++ x) = headComponent (a :: pre) := by
          have h1 := headComponent_append_drop ((a :: pre) ++ x)
          have h2 := headComponent_append_drop (a :: pre)
          rw [hdrop, ← List.append_assoc] at h1
          conv_rhs at h1 => rw [← h2]
          exact List.append_cancel_right (List.append_cancel_right h1)
        have hlt : ((a :: pre).dropWhile (· ≠ slash)).length < n := by
          rw [List.dropWhile_cons_of_pos (by simpa using ha), ← hn, List.length_cons]
          exact Nat.lt_succ_of_le (List.dropWhile_suffix _).length_le
        have hp' : ((a :: pre).dropWhile (· ≠ slash)).getLast? = some slash := by
          obtain ⟨front, hfront⟩ := List.dropWhile_suffix (l := a :: pre) (fun b => decide (b ≠ slash))
          rw [← hfront, List.getLast?_append_of_ne_nil _ hne] at hlast
          exact hlast
        obtain ⟨l, h1, h2⟩ := ih _ hlt (Or.inr hp') rfl
        refine ⟨(headComponent (a :: pre), afterComponent ((a :: pre) ++ x)) :: l, ?_, ?_⟩
        · rw [List.cons_append] at hhead hdrop ⊢
          rw [splitPath_cons ha, hhead, afterComponent, splitPath_skipSlash, hdrop, h1]
          rfl
        · rw [List.map_cons, h2, components_cons ha]

/-- A component with slashes behind it is one turn. -/
theorem splitPath_component (hne : component ≠ []) (hs : slash ∉ component) (hsl : ∀ a ∈ sl, a = slash)
    (hslne : sl ≠ []) (hu : u.head? ≠ some slash) :
    splitPath (component ++ (sl ++ u)) = (component, u) :: splitPath u := by
  obtain ⟨a, as, rfl⟩ := List.exists_cons_of_ne_nil hne
  obtain ⟨b, bs, rfl⟩ := List.exists_cons_of_ne_nil hslne
  obtain rfl := hsl b (List.mem_cons_self ..)
  have ha : a ≠ slash := fun h => hs (h ▸ List.mem_cons_self ..)
  have hmem : ∀ x ∈ a :: as, decide (x ≠ slash) = true := by
    intro x hx
    simpa using fun h : x = slash => hs (h ▸ hx)
  have htake : headComponent ((a :: as) ++ (slash :: bs ++ u)) = a :: as := by
    rw [headComponent, List.takeWhile_append_of_pos hmem]
    simp
  have hafter : afterComponent ((a :: as) ++ (slash :: bs ++ u)) = u := by
    rw [afterComponent, List.dropWhile_append_of_pos hmem, List.cons_append,
      List.dropWhile_cons_of_neg (by simp), ← List.cons_append, vfsSkipSlash,
      List.dropWhile_append_of_pos fun x hx => by simpa using hsl x hx]
    exact skipSlash_of_head hu
  rw [List.cons_append] at htake hafter ⊢
  rw [splitPath_cons ha, htake, hafter]

/-- A relative link with slashes behind it. -/
structure Bent (s : Vfs) (r : Ptr) (pre component sl target : Text) : Prop where
  starts : pre.getLast? = some slash
  name_ne : component ≠ []
  name_slash : slash ∉ component
  slashes : ∀ a ∈ sl, a = slash
  slashes_ne : sl ≠ []
  relative : target.head? ≠ some slash
  there : ∃ l d q, l.map Prod.fst = components pre ∧ Plain s r l d ∧ component.length ≤ 255 ∧
    s.child d component = some q ∧ (s.inodes q).node = .symlink target

/-- What stands behind it does not matter: it is the link that the loop meets. -/
theorem Bent.scan (h : Bent s r pre component sl target) (hu : u.head? ≠ some slash) :
    scan s true (splitPath (pre ++ (component ++ (sl ++ u)))) r = .link target u := by
  obtain ⟨l, d, q, hl, hp, hlen, hq, hn⟩ := h.there
  obtain ⟨l', h1, h2⟩ := splitPath_front (Or.inr h.starts) (component ++ (sl ++ u))
  rw [h1, splitPath_component h.name_ne h.name_slash h.slashes h.slashes_ne hu]
  exact scan_link.mpr ⟨l', component, _, d, q, rfl, hp.congr (h2.trans hl.symm), hlen, hq, hn⟩

/-- The link, with its directory and the slashes behind it. -/
abbrev bend (pre component sl : Text) : Text := pre ++ (component ++ sl)

theorem Bent.dirText (h : Bent s r pre component sl target) :
    dirText (bend pre component sl) = bend pre component sl := by
  obtain ⟨sl', x, hsl⟩ := (List.eq_nil_or_concat sl).resolve_left h.slashes_ne
  have hx := h.slashes x (by rw [hsl]; simp)
  have heq : bend pre component sl = (pre ++ (component ++ sl')) ++ slash :: [] := by
    rw [bend, hsl, hx]
    simp
  rw [heq, dirText_end (by simp), if_neg]
  have := h.name_ne
  simp [this]

/-- One round at the link: the target stands behind it, and it is met again. -/
theorem Bent.expand (h : Bent s r pre component sl target)
    (hlen : (bend pre component sl).length + target.length ≤ 511) :
    expand (bend pre component sl ++ u) target u =
      if u = [] then some (bend pre component sl ++ target)
      else if (bend pre component sl).length + target.length + (u.take 255).length + 2 > 512 then none
      else some (bend pre component sl ++ (target ++ slash :: u.take 255)) := by
  have htake : (bend pre component sl ++ u).take ((bend pre component sl ++ u).length - u.length) =
      bend pre component sl := List.take_left' (by simp; omega)
  have hmem : slash ∈ bend pre component sl :=
    List.mem_append_left _ (List.mem_of_getLast? h.starts)
  have hres : vfsSymlinkResolve (bend pre component sl) target 512 = bend pre component sl ++ target := by
    have : resolved (bend pre component sl) target = bend pre component sl ++ target := by
      rw [resolved, if_neg h.relative, h.dirText]
    rw [vfsSymlinkResolve_eq hmem, linkText, this, if_pos (by rw [List.length_append]; exact hlen)]
  unfold Fs.expand
  dsimp only
  rw [htake, hres, if_neg (by rw [List.length_append]; omega)]
  by_cases hu : u = []
  · rw [hu]
    simp only [List.take_nil, if_true]
    rw [List.take_of_length_le (by rw [List.length_append]; exact hlen)]
  · have hne : u.take 255 ≠ [] := by
      intro hnil
      rw [List.take_eq_nil_iff] at hnil
      exact hnil.elim (by omega) hu
    rw [if_neg hne, if_neg hu, List.length_append]
    by_cases hbig : (bend pre component sl).length + target.length + (u.take 255).length + 2 > 512
    · rw [if_pos hbig, if_pos (by omega)]
    · rw [if_neg hbig, if_neg (by omega), List.append_assoc, List.take_of_length_le]
      simp only [List.length_append, List.length_cons] at hbig ⊢
      omega

theorem Bent.next (h : Bent s r pre component sl target) (hu : u.head? ≠ some slash) :
    nextText s true r (bend pre component sl ++ u) = Fs.expand (bend pre component sl ++ u) target u := by
  have hs := h.scan hu
  have heq : bend pre component sl ++ u = pre ++ (component ++ (sl ++ u)) := by simp [bend]
  rw [nextText, heq, hs]

theorem Bent.last (h : Bent s r pre component sl target) (hu : u.head? ≠ some slash) :
    lastAnswer s true r (bend pre component sl ++ u) = none := by
  have hs := h.scan hu
  have heq : bend pre component sl ++ u = pre ++ (component ++ (sl ++ u)) := by simp [bend]
  rw [lastAnswer, heq, hs]

/-- What a round puts behind the link begins with the target. -/
theorem Bent.head (h : Bent s r pre component sl target) (hne : target ≠ []) (v : Text) :
    (target ++ v).head? ≠ some slash := by
  rw [List.head?_append_of_ne_nil _ hne]
  exact h.relative

/-- With room for the remainder it goes on for ever. -/
theorem Bent.never (h : Bent s r pre component sl target) (hne : target ≠ [])
    (hlen : (bend pre component sl).length + target.length ≤ 255) (hu : u.head? ≠ some slash) (n : Nat) :
    iterates (nextText s true r) n (bend pre component sl ++ u) ≠ none := by
  induction n generalizing u with
  | zero => simp [iterates]
  | succ n ih =>
    have hexp := @Bent.expand s r target u component pre sl h (by omega)
    rw [iterates, h.next hu, hexp]
    split
    · have := ih (u := target ++ []) (h.head hne [])
      rwa [List.append_nil] at this
    · have : (u.take 255).length ≤ 255 := by
        rw [List.length_take]
        omega
      rw [if_neg (by omega)]
      exact ih (h.head hne _)

/-- Without, it gives up once the remainder has grown. -/
theorem Bent.gives_up (h : Bent s r pre component sl target) (hne : target ≠ [])
    (hlen : 255 < (bend pre component sl).length + target.length)
    (hmax : (bend pre component sl).length + target.length ≤ 511) (hu : u.head? ≠ some slash) :
    Answers s true r (bend pre component sl ++ u) none := by
  have hpos := List.length_pos_of_ne_nil hne
  induction hm : 256 - u.length using Nat.strong_induction_on generalizing u with
  | _ m ih =>
    have hexp := @Bent.expand s r target u component pre sl h hmax
    rw [← h.next hu] at hexp
    by_cases hnil : u = []
    · rw [if_pos hnil] at hexp
      rw [answers_iterates (k := 1) (by rw [iterates, hexp]; rfl), ← List.append_nil target]
      refine ih _ ?_ (h.head hne []) rfl
      rw [List.append_nil, ← hm, hnil, List.length_nil]
      omega
    · rw [if_neg hnil] at hexp
      split at hexp
      · exact (answers_last hexp).mpr (h.last hu)
      · next hsmall =>
        have htake : (u.take 255).length = u.length := by
          rw [List.length_take] at hsmall ⊢
          omega
        rw [answers_iterates (k := 1) (by rw [iterates, hexp]; rfl)]
        refine ih _ ?_ (h.head hne _) rfl
        rw [← hm, List.length_append, List.length_cons, htake]
        rw [htake] at hsmall
        omega

/-- One slash more. -/
theorem Bent.more (h : Bent s r pre component sl target) :
    Bent s r pre component (sl ++ [slash]) target := by
  refine ⟨h.starts, h.name_ne, h.name_slash, fun a ha => ?_, by simp, h.relative, h.there⟩
  rcases List.mem_append.mp ha with ha | ha
  · exact h.slashes a ha
  · simpa using ha

/-- A link to nothing gains a slash in each round, until the remainder does not fit. -/
theorem Bent.gives_up_empty (h : Bent s r pre component sl []) (hu : u.head? ≠ some slash)
    (hne : u ≠ []) (hshort : u.length ≤ 255) (hmax : (bend pre component sl).length ≤ 511) :
    Answers s true r (bend pre component sl ++ u) none := by
  induction hm : 512 - (bend pre component sl).length using Nat.strong_induction_on generalizing sl with
  | _ m ih =>
    have hexp := @Bent.expand s r [] u component pre sl h (by simpa using hmax)
    rw [← h.next hu, if_neg hne, List.take_of_length_le hshort] at hexp
    have hpos := List.length_pos_of_ne_nil hne
    split at hexp
    · exact (answers_last hexp).mpr (h.last hu)
    · next hsmall =>
      have heq : bend pre component sl ++ ([] ++ slash :: u) = bend pre component (sl ++ [slash]) ++ u := by
        simp [bend]
      have hlen : (bend pre component (sl ++ [slash])).length = (bend pre component sl).length + 1 := by
        simp [bend]
        omega
      rw [heq] at hexp
      rw [answers_iterates (k := 1) (by rw [iterates, hexp]; rfl)]
      rw [List.length_nil] at hsmall
      refine ih _ ?_ h.more (by rw [hlen]; omega) rfl
      rw [hlen]
      omega

/-- A link to nothing at the end of the text is expanded to the same text. -/
theorem Bent.cycles (h : Bent s r pre component sl []) (hmax : (bend pre component sl).length ≤ 511) :
    Cycles (nextText s true r) (bend pre component sl) := by
  have hexp := @Bent.expand s r [] [] component pre sl h (by simpa using hmax)
  rw [← h.next (by simp), if_pos rfl, List.append_nil] at hexp
  exact ⟨0, _, rfl, 1, Nat.one_pos, by rw [iterates, hexp]; rfl⟩

/-- A link that is not straight is bent. -/
theorem bent_of_link (ha : t.head? = some slash)
    (hs : Fs.scan s true (splitPath t) r = .link target cursor) (hrel : target.head? ≠ some slash)
    (hb : cursor ≠ [] ∨ t.getLast? = some slash) :
    ∃ pre component sl, t = bend pre component sl ++ cursor ∧ cursor.head? ≠ some slash ∧
      Bent s r pre component sl target := by
  obtain ⟨l₁, component, l₂, d, q, hl, hp, hlen, hq, hn⟩ := scan_link.mp hs
  obtain ⟨-, pre, sl, hst⟩ := splitPath_stands hl
  have hslne : sl ≠ [] := by
    rcases hb with hb | hb
    · exact hst.parted hb
    · rintro rfl
      by_cases hc : cursor = []
      · -- the last byte is one of the name
        rw [hst.eq, hc, List.append_nil, List.append_nil, List.getLast?_append_of_ne_nil _ hst.name_ne] at hb
        exact hst.name_slash (List.mem_of_getLast? hb)
      · exact hst.parted hc rfl
  refine ⟨pre, component, sl, by rw [hst.eq]; simp [bend], hst.head, hst.ends (Or.inl ha), hst.name_ne,
    hst.name_slash, hst.slashes, hslne, hrel, l₁, d, q, hst.names.symm, hp, hlen, hq, hn⟩

/-! ### All lookups -/

/-- The path and the texts that symlinks turn it into have at most 255 bytes. -/
def Moderate (s : Vfs) (r : Ptr) (path : Text) : Prop :=
  ∀ k t, iterates (refNext s r) k path = some t → t.length ≤ 255

/-- The first link that is not straight. -/
structure FirstBent (s : Vfs) (r : Ptr) (path t target cursor : Text) : Prop where
  met : ∃ k, iterates (nextText s true r) k path = some t ∧
    ∀ j u, j < k → iterates (nextText s true r) j path = some u → Straight s r u
  link : scan s true (splitPath t) r = .link target cursor
  relative : target.head? ≠ some slash
  followed : cursor ≠ [] ∨ t.getLast? = some slash

/-- The lookup does not come to an end at such a link, unless it has names to append to nothing, or the
    texts outgrow the buffers. -/
def OutOfRoom (t target cursor : Text) : Prop :=
  if target = [] then cursor ≠ [] else 255 < t.length - cursor.length + target.length

theorem FirstBent.unique {u target' cursor' : Text} (h : FirstBent s r path t target cursor)
    (h' : FirstBent s r path u target' cursor') : t = u := by
  obtain ⟨k, hk, hbefore⟩ := h.met
  obtain ⟨k', hk', hbefore'⟩ := h'.met
  -- each is not straight
  have hnot : ∀ {t target cursor}, FirstBent s r path t target cursor → ¬ Straight s r t := by
    intro t target cursor h hst
    rcases hst target cursor h.link with habs | ⟨hc, hl⟩
    · exact h.relative habs
    · exact h.followed.elim (fun hf => hf hc) hl
  rcases Nat.lt_trichotomy k k' with hlt | rfl | hgt
  · exact absurd (hbefore' k t hlt hk) (hnot h)
  · exact Option.some.inj (hk.symm.trans hk')
  · exact absurd (hbefore k' u hgt hk') (hnot h')

/-- Where the reference is through, the lookup is. -/
theorem answers_same (hsame : Same c t) (hnext : refNext s r t = none)
    (hl : lastAnswer s true r t = answer) : Answers s true r c answer ∧
      ∀ k u, iterates (nextText s true r) k c = some u → Straight s r u := by
  have hno : ∀ target cursor, scan s true (splitPath c) r ≠ .link target cursor := by
    intro target cursor hs
    rw [hsame.splitPath] at hs
    simp [refNext, hs] at hnext
  have hnone : nextText s true r c = none := by
    unfold nextText
    split
    · next target cursor hs => exact absurd hs (hno target cursor)
    · rfl
  refine ⟨(answers_last hnone).mpr ?_, fun k u hk => ?_⟩
  · rw [← hl, lastAnswer, lastAnswer, hsame.splitPath]
  · cases k with
    | zero =>
      obtain rfl := Option.some.inj hk
      exact fun target cursor hs => absurd hs (hno target cursor)
    | succ k =>
      rw [iterates, hnone] at hk
      cases hk

/-- The lookup gives the answer of the reference, or meets a link that is not straight. -/
theorem straight_or_bent (hres : resolve s r n (components t) = some answer) (hsame : Same c t)
    (ha : t.head? = some slash) (hmod : Moderate s r t) :
    (Answers s true r c answer ∧
      ∀ k u, iterates (nextText s true r) k c = some u → Straight s r u) ∨
    ∃ u target cursor, FirstBent s r c u target cursor ∧ u.head? = some slash ∧ u.length ≤ 256 ∧
      target.length ≤ 255 := by
  induction n generalizing c t with
  | zero =>
    rw [resolve_refNext ha (hmod 0 t rfl)] at hres
    cases hnext : refNext s r t with
    | some t' => simp [hnext] at hres
    | none =>
      rw [hnext] at hres
      exact Or.inl (answers_same hsame hnext (Option.some.inj hres))
  | succ n ih =>
    rw [resolve_refNext ha (hmod 0 t rfl)] at hres
    cases hnext : refNext s r t with
    | none =>
      rw [hnext] at hres
      exact Or.inl (answers_same hsame hnext (Option.some.inj hres))
    | some t' =>
      rw [hnext] at hres
      dsimp only at hres
      have hlen' : t'.length ≤ 255 := hmod 1 t' (by rw [iterates, hnext]; rfl)
      have hmod' : Moderate s r t' := by
        intro k u hk
        exact hmod (k + 1) u (by rw [iterates, hnext]; exact hk)
      unfold refNext at hnext
      cases hs : scan s true (splitPath t) r with
      | null => simp [hs] at hnext
      | done p => simp [hs] at hnext
      | link target cursor =>
        rw [hs] at hnext
        obtain rfl := Option.some.inj hnext
        have hs' : scan s true (splitPath c) r = .link target cursor := by rw [hsame.splitPath, hs]
        by_cases hst : Straight s r t
        · obtain ⟨c', hc', hsame'⟩ := hsame.next ha (hmod 0 t rfl) hs hst hlen'
          have hone : iterates (nextText s true r) 1 c = some c' := by rw [iterates, hc']; rfl
          have hfirst : Straight s r c := (hsame.straight ha).mpr hst
          rcases ih hres hsame' (refText_head ha hs) hmod' with
            ⟨hans, hall⟩ | ⟨u, target', cursor', hb, hhead, hlen, htar⟩
          · refine Or.inl ⟨(answers_iterates hone).mpr hans, fun k u hk => ?_⟩
            cases k with
            | zero => exact Option.some.inj hk ▸ hfirst
            | succ k =>
              rw [iterates, hc'] at hk
              exact hall k u hk
          · obtain ⟨k, hk, hbefore⟩ := hb.met
            refine Or.inr ⟨u, target', cursor',
              ⟨⟨k + 1, by rw [iterates, hc']; exact hk, fun j v hj hv => ?_⟩, hb.link, hb.relative,
                hb.followed⟩, hhead, hlen, htar⟩
            cases j with
            | zero => exact Option.some.inj hv ▸ hfirst
            | succ j =>
              rw [iterates, hc'] at hv
              exact hbefore j v (by omega) hv
        · refine Or.inr ⟨c, target, cursor, ⟨⟨0, rfl, by omega⟩, hs', fun habs => hst ?_, ?_⟩,
            hsame.head ha, ?_, ?_⟩
          · intro target' cursor' hs₂
            rw [hs] at hs₂
            injection hs₂ with h1 _
            exact Or.inl (h1 ▸ habs)
          · rw [hsame.getLast ha]
            by_contra hcon
            rw [not_or, not_not] at hcon
            refine hst fun target' cursor' hs₂ => ?_
            rw [hs] at hs₂
            injection hs₂ with _ h2
            exact Or.inr ⟨h2 ▸ hcon.1, hcon.2⟩
          · have := hsame.length
            have := hmod 0 t rfl
            omega
          · unfold refText at hlen'
            rw [List.length_append] at hlen'
            split at hlen'
            · omega
            · rw [List.length_append] at hlen'
              omega

/-- What the lookup does at the first link that is not straight. -/
theorem FirstBent.answers (h : FirstBent s r path t target cursor) (ha : t.head? = some slash)
    (ht : t.length ≤ 256) (htar : target.length ≤ 255) :
    Answers s true r path answer ↔ answer = none ∧ OutOfRoom t target cursor := by
  obtain ⟨k, hk, -⟩ := h.met
  rw [answers_iterates hk]
  obtain ⟨pre, component, sl, heq, hhead, hb⟩ := bent_of_link ha h.link h.relative h.followed
  have hlen : t.length = (bend pre component sl).length + cursor.length := by
    rw [heq, List.length_append]
  have hpos : 0 < (bend pre component sl).length := by
    have := List.length_pos_of_ne_nil hb.name_ne
    rw [bend, List.length_append, List.length_append]
    omega
  have hends : Answers s true r t answer → Ends (nextText s true r) t := by
    rintro ⟨m, u, hm, hu, -⟩
    exact ⟨m + 1, by rw [iterates_add, hm, Option.bind_some, iterates, hu]; rfl⟩
  have hone : Answers s true r t none → Answers s true r t answer → answer = none := by
    rintro ⟨m, u, hm, hu, hl⟩ hans
    rw [answers_iterates hm, answers_last hu] at hans
    rw [← hans, hl]
  unfold OutOfRoom
  rcases eq_or_ne target [] with rfl | hne
  · rw [if_pos rfl]
    rcases eq_or_ne cursor [] with rfl | hcne
    · refine ⟨fun hans => ?_, fun hans => absurd rfl hans.2⟩
      rw [List.append_nil] at heq
      have hcyc := hb.cycles (by rw [← heq]; omega)
      rw [← heq] at hcyc
      exact absurd (hends hans) hcyc.not_ends
    · have hnone := hb.gives_up_empty hhead hcne (by omega) (by omega)
      rw [← heq] at hnone
      refine ⟨fun hans => ⟨hone hnone hans, hcne⟩, ?_⟩
      rintro ⟨rfl, -⟩
      exact hnone
  · rw [if_neg hne]
    rcases Nat.lt_or_ge 255 (t.length - cursor.length + target.length) with hbig | hsmall
    · have hnone := hb.gives_up hne (by omega) (by omega) hhead
      rw [← heq] at hnone
      refine ⟨fun hans => ⟨hone hnone hans, hbig⟩, ?_⟩
      rintro ⟨rfl, -⟩
      exact hnone
    · refine ⟨fun hans => ?_, fun hans => absurd hans.2 (by omega)⟩
      obtain ⟨m, hm⟩ := hends hans
      have := hb.never hne (by omega) hhead m
      rw [← heq] at this
      exact absurd hm this

/-- A path whose texts are moderate and that meets at most 8 symlinks is looked up as the reference
    resolves it if and only if each link that it meets is straight, or it names nothing and the first
    link that is not straight makes the lookup give up. -/
theorem lookup_resolves_iff (hb : Built s) (hr : s.root = some r) (ha : vfsIsAbsolute path = true)
    (hmod : Moderate s r path) (hres : resolve s r 8 (components path) = some answer) :
    (∃ n, vfsLookupPath n s path true = some answer) ↔
      (∀ k t, iterates (nextText s true r) k path = some t → Straight s r t) ∨
      (answer = none ∧ ∃ t target cursor, FirstBent s r path t target cursor ∧
        OutOfRoom t target cursor) := by
  obtain ⟨r', hr', h⟩ := hb.shape
  obtain rfl : r' = r := Option.some.inj (hr'.symm.trans hr)
  have habs : path.head? = some slash := by simpa [vfsIsAbsolute] using ha
  have hlen := hmod 0 path rfl
  simp only [vfsLookupPath_absolute hr ha]
  rw [List.take_of_length_le (by omega), restart_some h]
  rcases straight_or_bent hres (Or.inl rfl) habs hmod with
    ⟨hans, hall⟩ | ⟨u, target, cursor, hbent, hhead, hu, htar⟩
  · exact iff_of_true hans (Or.inl hall)
  · rw [hbent.answers hhead hu htar]
    constructor
    · exact fun hout => Or.inr ⟨hout.1, u, target, cursor, hbent, hout.2⟩
    · rintro (hall | ⟨hnone, t, target', cursor', hbent', hout⟩)
      · obtain ⟨k, hk, -⟩ := hbent.met
        rcases hall k u hk target cursor hbent.link with habs' | ⟨hc, hl⟩
        · exact absurd habs' hbent.relative
        · exact absurd hbent.followed (by simp [hc, hl])
      · obtain rfl := hbent'.unique hbent
        have hlink := hbent'.link
        rw [hbent.link] at hlink
        injection hlink with h1 h2
        exact ⟨hnone, h1 ▸ h2 ▸ hout⟩

/-- A directory `b` with a file `c`, and a symlink `a` to `b` beside it. -/
def linkedDir : Vfs :=
  (Call.run rising (.symlink [letter 1] [slash, letter 0])
    (Call.run rising (.create [slash, letter 1, slash, letter 2] 0 [1]) emptyVfs).2).2

theorem linkedDir_built : Built linkedDir := .call rising _ (.call rising _ emptyVfs_built)

theorem moderate_of_two (ht : path.length ≤ 255) (ht' : t'.length ≤ 255)
    (h : refNext s r path = some t') (h' : refNext s r t' = none) : Moderate s r path := by
  intro k t hk
  rcases k with _ | _ | k
  · exact Option.some.inj hk ▸ ht
  · rw [iterates, h] at hk
    exact Option.some.inj hk ▸ ht'
  · rw [iterates, h, Option.bind_some, iterates, h'] at hk
    cases hk

theorem lookup_resolves_iff_linkedDir :
    (∃ n, vfsLookupPath n linkedDir [slash, letter 0] true = some (some 1)) ↔
      (∀ k t, iterates (nextText linkedDir true 0) k [slash, letter 0] = some t →
        Straight linkedDir 0 t) ∨
      (some 1 = none ∧ ∃ t target cursor, FirstBent linkedDir 0 [slash, letter 0] t target cursor ∧
        OutOfRoom t target cursor) :=
  lookup_resolves_iff linkedDir_built (by decide) (by decide)
    (@moderate_of_two linkedDir 0 _ [slash, letter 1] (by decide) (by decide) (by decide)
      (by decide)) (by decide)

/-- Through the link the file is not found. -/
theorem linkedDir_not_found : ¬ ∀ s r path answer, Built s → s.root = some r →
    vfsIsAbsolute path = true → Moderate s r path → resolve s r 8 (components path) = some answer →
      ∃ n, vfsLookupPath n s path true = some answer := by
  intro hall
  have hroot : linkedDir.root = some 0 := by decide
  have hlink : scan linkedDir true (splitPath [slash, letter 0, slash, letter 2]) 0 =
      .link [letter 1] [letter 2] := by decide
  have hres : resolve linkedDir 0 8 (components [slash, letter 0, slash, letter 2]) = some (some 4) := by
    decide
  obtain ⟨n, hn⟩ := hall linkedDir 0 [slash, letter 0, slash, letter 2] _ linkedDir_built hroot
    (by decide) (@moderate_of_two linkedDir 0 _ [slash, letter 1, slash, letter 2] (by decide)
      (by decide) (by decide) (by decide)) hres
  rw [vfsLookupPath_absolute hroot (by decide)] at hn
  obtain ⟨r, hr, h⟩ := linkedDir_built.shape
  obtain rfl : r = 0 := Option.some.inj (hr.symm.trans hroot)
  have hans := (restart_some h).mp ⟨n, hn⟩
  have hbent : FirstBent linkedDir 0 [slash, letter 0, slash, letter 2]
      [slash, letter 0, slash, letter 2] [letter 1] [letter 2] :=
    ⟨⟨0, rfl, by omega⟩, hlink, by decide, Or.inl (by decide)⟩
  have := ((hbent.answers rfl (by decide) (by decide)).mp hans).1
  cases this

end TypeOS.Fs
