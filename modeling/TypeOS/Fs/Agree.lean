import TypeOS.Fs.Unpack

/-! The two unpackers agree as long as the pointers stay inside.

    On the same bytes both follow `Namespace.unpack`, the one with offsets always, the one with
    pointers while its cursor is in the archive. The cursor leaves it where an entry that is gone past
    has its padded end outside: the difference of `end` and the cursor wraps, so the loop goes on and
    reads a header there. Below 4 GiB that is the only way for the two to differ. -/

namespace TypeOS.Fs

variable {s : Vfs} {r p : Ptr} {heap heap' : Heap} {H : Set Ptr} {V V₀ V' : Namespace} {phys : Phys}
  {mem : Bytes} {A : List UInt8} {o o' base base' n : Nat} {behind behind' : Nat → Text} {path : Text}
  {mode : BitVec 32} {data : List UInt8}

/-- A range of addresses that lies in the archive. -/
def Inside (base size : Nat) (x : Nat × Nat) : Prop :=
  x.2 = 0 ∨ base ≤ x.1 ∧ x.1 + x.2 ≤ base + size

/-- The names that unpacking gets to have their NUL and no more than 4096 bytes. -/
def NamesFit (A : List UInt8) (V₀ : Namespace) : Prop :=
  ∀ o V, Visits A V₀ o V → o + cpioHeaderSize ≤ A.length → (hdrAt A o).take 6 = cpioNewcMagic →
    nameEnd A o ≤ A.length →
    headerNamesize (hdrAt A o) ≤ 4096 ∧ (headerNamesize (hdrAt A o) ≠ 0 → 0 ∈ nameAt A o)

/-- No entry that is gone past has its padded end outside the archive, and rounding pointers up is
    rounding offsets up. -/
structure Padded (A : List UInt8) (base : Nat) (V₀ : Namespace) : Prop where
  ends : ∀ o V o' V', Visits A V₀ o V → V.turn A o = (.ok o', V') → o' ≤ A.length
  name : ∀ o V, Visits A V₀ o V → nameEnd A o ≤ A.length →
    cpioAlignOffset (base + nameEnd A o) = base + cpioAlignOffset (nameEnd A o)
  data : ∀ o V o' V', Visits A V₀ o V → V.turn A o = (.ok o', V') →
    cpioAlignOffset (base + dataEnd A o) = base + cpioAlignOffset (dataEnd A o)

theorem cString_length_lt {buf : List UInt8} (h : 0 ∈ buf) (t : Text) :
    (cString buf t).length < buf.length := by
  induction buf with
  | nil => simp at h
  | cons b bs ih =>
    rw [cString]
    split
    · simp
    · next hb =>
      rcases List.mem_cons.mp h with h | h
      · exact absurd h.symm hb
      · have := ih h
        simp only [List.length_cons]
        omega

theorem ptrDiff_of_le {a b : Nat} (h : b ≤ a) (ha : a < 2 ^ 64) : ptrDiff a b = a - b := by
  rw [ptrDiff, u64]
  omega

/-- Behind the end the difference wraps. -/
theorem ptrDiff_of_lt {a b : Nat} (h : a < b) (hb : b < a + 2 ^ 64) : ptrDiff a b = a + 2 ^ 64 - b := by
  rw [ptrDiff, u64]
  omega

theorem cpioInstallEntry_reads {a size : Nat} {x : Nat × Nat}
    (h : x ∈ (cpioInstallEntry heap mem path mode a size s).2.1) : x = (a, size) := by
  rw [cpioInstallEntry] at h
  split at h
  · simp at h
  split at h
  · split at h
    · simp at h
    · split at h
      · simp at h
      · simpa using h
  split at h
  · simpa using h
  · simp at h

/-! ### What a turn reads -/

/-- The header, and the name as far as it is compared. -/
def comparedReads (A : List UInt8) (base o : Nat) : Reads :=
  headerReads (base + o) ++
    [(base + o + cpioHeaderSize, min (headerNamesize (hdrAt A o) - 1) (cpioTrailer.length + 1))]

/-- The name once more, of an entry that is not the trailer. -/
def namedReads (A : List UInt8) (base o : Nat) : Reads :=
  comparedReads A base o ++ [(base + o + cpioHeaderSize, (cString (nameAt A o) []).length + 1)]

theorem headerReads_inside (h : o + cpioHeaderSize ≤ A.length) :
    ∀ x ∈ headerReads (base + o), Inside base A.length x := by
  intro x hx
  have hH : cpioHeaderSize = 110 := rfl
  simp only [headerReads, List.mem_cons, List.not_mem_nil, or_false] at hx
  rcases hx with rfl | rfl | rfl | rfl <;> exact Or.inr ⟨by omega, by omega⟩

theorem comparedReads_inside (h : nameEnd A o ≤ A.length) :
    ∀ x ∈ comparedReads A base o, Inside base A.length x := by
  intro x hx
  rw [nameEnd] at h
  rcases List.mem_append.mp hx with hx | hx
  · exact headerReads_inside (by omega) x hx
  · obtain rfl := List.mem_singleton.mp hx
    exact Or.inr ⟨by omega, by omega⟩

theorem namedReads_inside (h : nameEnd A o ≤ A.length) (hnul : 0 ∈ nameAt A o) :
    ∀ x ∈ namedReads A base o, Inside base A.length x := by
  intro x hx
  rcases List.mem_append.mp hx with hx | hx
  · exact comparedReads_inside h x hx
  · obtain rfl := List.mem_singleton.mp hx
    have hstring := cString_length_lt hnul []
    rw [nameAt, length_slice h] at hstring
    rw [nameEnd] at h
    exact Or.inr ⟨by omega, by rw [nameAt]; omega⟩

/-! ### Turns -/

/-- The rest of a turn that has read an entry: it is installed. -/
def installTurn (heap : Heap) (mem : Bytes) (A : List UInt8) (base o : Nat) (s : Vfs) : Reads × Turn :=
  match cpioNormalizePath heap (cString (nameAt A o) []) s with
  | (none, s) => (namedReads A base o, .next (cpioAlignOffset (base + dataEnd A o)) s)
  | (some (p, path), s) =>
    match cpioInstallEntry heap mem path (headerMode (hdrAt A o)) (base + dataStart A o)
      (headerFilesize (hdrAt A o)) s with
    | (0, reads, s) =>
      (namedReads A base o ++ reads, .next (cpioAlignOffset (base + dataEnd A o)) (kfree p s))
    | (rc, reads, s) => (namedReads A base o ++ reads, .ends rc (kfree p s))

theorem populateTurn_unread (hA : bytesAt mem base A.length = A) (hfit : base + A.length < 2 ^ 64)
    (ho : o ≤ A.length)
    (hname : o + cpioHeaderSize ≤ A.length → (hdrAt A o).take 6 = cpioNewcMagic →
      nameEnd A o ≤ A.length → headerNamesize (hdrAt A o) ≤ 4096) (hr : ¬ Read A o) :
    ∃ reads, populateTurn heap mem behind (base + A.length) (base + o) s = (reads, .ends (-1) s) ∧
      ∀ x ∈ reads, Inside base A.length x := by
  have hH : cpioHeaderSize = 110 := rfl
  rw [populateTurn, ptrDiff_of_le (by omega) hfit]
  rcases Nat.lt_or_ge A.length (o + cpioHeaderSize) with hhdr | hhdr
  · rw [if_pos (by omega)]
    exact ⟨[], rfl, by simp⟩
  rw [if_neg (by omega)]
  simp only [bytesAt_slice hA hhdr]
  change ∃ reads, (if (hdrAt A o).take 6 ≠ cpioNewcMagic then _ else _) = _ ∧ _
  by_cases hmagic : (hdrAt A o).take 6 = cpioNewcMagic
  swap
  · rw [if_pos hmagic]
    refine ⟨_, rfl, fun x hx => ?_⟩
    obtain rfl := List.mem_singleton.mp hx
    exact Or.inr ⟨by omega, by omega⟩
  rw [if_neg (not_not.mpr hmagic), u64_of_lt (x := base + o + cpioHeaderSize) (by omega),
    ptrDiff_of_le (by omega) hfit]
  change ∃ reads, (if _ < headerNamesize (hdrAt A o) then _ else
    if headerNamesize (hdrAt A o) = 0 then _ else _) = _ ∧ _
  have hend : nameEnd A o = o + cpioHeaderSize + headerNamesize (hdrAt A o) := rfl
  rcases Nat.lt_or_ge A.length (nameEnd A o) with hlong | hlong
  · rw [if_pos (by omega)]
    exact ⟨_, rfl, headerReads_inside hhdr⟩
  rw [if_neg (by omega)]
  have hzero : headerNamesize (hdrAt A o) = 0 := by
    by_contra hne
    exact hr ⟨hhdr, hmagic, hne, hname hhdr hmagic hlong, hlong⟩
  rw [if_pos hzero]
  exact ⟨_, rfl, headerReads_inside hhdr⟩

theorem populateTurn_read (hA : bytesAt mem base A.length = A) (hfit : base + A.length < 2 ^ 64)
    (hr : Read A o) (hnul : 0 ∈ nameAt A o)
    (halign : cpioAlignOffset (base + nameEnd A o) = base + cpioAlignOffset (nameEnd A o)) :
    populateTurn heap mem behind (base + A.length) (base + o) s =
      if strncmp (headerNamesize (hdrAt A o) - 1) (nameAt A o) cpioTrailer.bytes = 0 then
        (comparedReads A base o, .ends 0 s)
      else if A.length < dataEnd A o then (comparedReads A base o, .ends (-1) s)
      else installTurn heap mem A base o s := by
  have hend : nameEnd A o = o + cpioHeaderSize + headerNamesize (hdrAt A o) := rfl
  have hdend : dataEnd A o = dataStart A o + headerFilesize (hdrAt A o) := rfl
  have hhdr := hr.header
  have hlong := hr.name
  have hbytes : bytesAt mem (base + o) cpioHeaderSize = hdrAt A o := bytesAt_slice hA hhdr
  have htext : bytesAt mem (base + o + cpioHeaderSize) (headerNamesize (hdrAt A o)) = nameAt A o := by
    rw [Nat.add_assoc]
    exact bytesAt_slice hA hlong
  have hdata : cpioAlignOffset (u64 (base + o + cpioHeaderSize + headerNamesize (hdrAt A o))) =
      base + dataStart A o := by
    rw [u64_of_lt (by omega), dataStart, ← halign]
    congr 1
    omega
  rw [populateTurn, ptrDiff_of_le (by omega) hfit, if_neg (by omega)]
  simp only [hbytes]
  rw [if_neg (not_not.mpr hr.magic), u64_of_lt (x := base + o + cpioHeaderSize) (by omega),
    ptrDiff_of_le (by omega) hfit, if_neg (by omega), if_neg hr.size_pos]
  simp only [htext, hdata]
  refine if_congr Iff.rfl rfl ?_
  rcases Nat.lt_or_ge A.length (dataEnd A o) with hshort | hshort
  · rw [if_pos hshort]
    rcases Nat.lt_or_ge A.length (dataStart A o) with hs | hs
    · rw [if_pos (by omega)]
      rfl
    · rw [if_neg (by omega), ptrDiff_of_le (by omega) hfit, if_pos (by omega)]
      rfl
  have hto : u64 (base + dataStart A o + headerFilesize (hdrAt A o)) = base + dataEnd A o := by
    rw [u64_of_lt (by omega), hdend, Nat.add_assoc]
  rw [if_neg (not_lt.mpr hshort), if_neg (by omega), ptrDiff_of_le (by omega) hfit, if_neg (by omega),
    cString_behind hnul, hto]
  rfl

theorem installTurn_follows (h : Mirrors heap r ∅ s V) (hA : bytesAt mem base A.length = A)
    (hr : Read A o) (hnul : 0 ∈ nameAt A o) (hd : dataEnd A o ≤ A.length)
    (hp : parseAt A o = .member (cString (nameAt A o) []) (headerMode (hdrAt A o))
      (slice A (dataStart A o) (headerFilesize (hdrAt A o))))
    (hnext : ∀ o' V', V.turn A o = (.ok o', V') →
      cpioAlignOffset (base + dataEnd A o) = base + cpioAlignOffset (dataEnd A o)) :
    Follows heap r base (installTurn heap mem A base o s).2 (V.turn A o) ∧
    ∀ x ∈ (installTurn heap mem A base o s).1, Inside base A.length x := by
  have hnamed := @namedReads_inside A o base hr.name hnul
  have hlen : (slice A (dataStart A o) (headerFilesize (hdrAt A o))).length =
      headerFilesize (hdrAt A o) := length_slice hd
  have hcontent : bytesAt mem (base + dataStart A o) (headerFilesize (hdrAt A o)) =
      slice A (dataStart A o) (headerFilesize (hdrAt A o)) := bytesAt_slice hA hd
  rw [Namespace.turn, hp] at hnext ⊢
  simp only at hnext ⊢
  generalize slice A (dataStart A o) (headerFilesize (hdrAt A o)) = content at hlen hcontent hnext ⊢
  rw [installTurn, cpioNormalizePath]
  rw [Namespace.unpackMember] at hnext ⊢
  cases hn : normalized (cString (nameAt A o) []) with
  | none =>
    simp only [hn, if_true] at hnext ⊢
    exact ⟨⟨hnext _ _ rfl, h⟩, hnamed⟩
  | some path =>
    simp only [hn] at hnext ⊢
    obtain ⟨p, s₁, hm, h₁, hp, -⟩ := h.alloc
    simp only [hm]
    obtain ⟨hrc, h₂⟩ := @Mirrors.installEntry _ r heap _ V mem path (headerMode (hdrAt A o)) content h₁
      (base + dataStart A o) (by rw [hlen]; exact hcontent)
    have hreads := @cpioInstallEntry_reads s₁ heap mem path (headerMode (hdrAt A o))
      (base + dataStart A o) (headerFilesize (hdrAt A o))
    rw [hlen] at hrc h₂
    generalize cpioInstallEntry heap mem path (headerMode (hdrAt A o)) (base + dataStart A o)
      (headerFilesize (hdrAt A o)) s₁ = res at hrc h₂ hreads ⊢
    obtain ⟨rc, reads, s₂⟩ := res
    have h₃ := h₂.release hp
    have hall : ∀ x ∈ namedReads A base o ++ reads, Inside base A.length x := by
      intro x hx
      rcases List.mem_append.mp hx with hx | hx
      · exact hnamed x hx
      · rw [hreads hx]
        exact Or.inr ⟨by omega, by rw [dataEnd] at hd; dsimp only; omega⟩
    dsimp only at hrc ⊢
    rw [← hrc] at hnext ⊢
    split
    · next heq =>
      obtain ⟨rfl, heq'⟩ := Prod.mk.inj heq
      obtain ⟨rfl, rfl⟩ := Prod.mk.inj heq'
      rw [if_pos rfl] at hnext ⊢
      exact ⟨⟨hnext _ _ rfl, h₃⟩, hall⟩
    · next hne heq =>
      obtain ⟨rfl, heq'⟩ := Prod.mk.inj heq
      obtain ⟨rfl, rfl⟩ := Prod.mk.inj heq'
      rw [if_neg hne]
      exact ⟨⟨rfl, h₃⟩, hall⟩

/-- A turn through pointers, from a cursor in the archive. -/
theorem populateTurn_follows (h : Mirrors heap r ∅ s V) (hA : bytesAt mem base A.length = A)
    (hfit : base + A.length < 2 ^ 64) (ho : o ≤ A.length)
    (hname : o + cpioHeaderSize ≤ A.length → (hdrAt A o).take 6 = cpioNewcMagic →
      nameEnd A o ≤ A.length →
      headerNamesize (hdrAt A o) ≤ 4096 ∧ (headerNamesize (hdrAt A o) ≠ 0 → 0 ∈ nameAt A o))
    (halign : nameEnd A o ≤ A.length →
      cpioAlignOffset (base + nameEnd A o) = base + cpioAlignOffset (nameEnd A o))
    (hnext : ∀ o' V', V.turn A o = (.ok o', V') →
      cpioAlignOffset (base + dataEnd A o) = base + cpioAlignOffset (dataEnd A o)) :
    Follows heap r base (populateTurn heap mem behind (base + A.length) (base + o) s).2 (V.turn A o) ∧
    ∀ x ∈ (populateTurn heap mem behind (base + A.length) (base + o) s).1, Inside base A.length x := by
  by_cases hr : Read A o
  swap
  · have hbad : parseAt A o = .bad := by
      by_contra hc
      exact hr (parseAt_read hc)
    obtain ⟨reads, hturn, hin⟩ := @populateTurn_unread s heap mem A o base behind hA hfit ho
      (fun h1 h2 h3 => (hname h1 h2 h3).1) hr
    rw [hturn, Namespace.turn, hbad]
    exact ⟨⟨rfl, h⟩, hin⟩
  have hnul := (hname hr.header hr.magic hr.name).2 hr.size_pos
  have hcompared := @comparedReads_inside A o base hr.name
  have hparse := parseAt_of_read hr
  rw [populateTurn_read hA hfit hr hnul (halign hr.name)]
  split
  · next hcmp =>
    rw [Namespace.turn, (parseAt_trailer_iff hr).mpr hcmp]
    exact ⟨⟨rfl, h⟩, hcompared⟩
  next hcmp =>
  rw [if_neg hcmp] at hparse
  split
  · next hshort =>
    rw [Namespace.turn, hparse, if_pos hshort]
    exact ⟨⟨rfl, h⟩, hcompared⟩
  · next hshort =>
    rw [if_neg hshort] at hparse
    exact installTurn_follows h hA hr hnul (not_lt.mp hshort) hparse hnext

/-! ### Loops -/

/-- What the unpacker with pointers leaves is what unpacking the paths leaves, and it stays inside. -/
structure LoopFollows (heap : Heap) (r : Ptr) (base size : Nat) (res : Option Int × Reads × Vfs)
    (spec : Option Int × Namespace) : Prop where
  answer : res.1 = spec.1
  mirrors : Mirrors heap r ∅ res.2.2 spec.2
  inside : ∀ x ∈ res.2.1, Inside base size x

theorem populatePhysLoop_follows (hc : phys.Copies base A.length)
    (hA : bytesAt phys.bytes base A.length = A) (hnames : NamesFit A V₀) (hv : Visits A V₀ o V)
    (h : Mirrors heap r ∅ s V) :
    (populatePhysLoop heap phys behind base A.length n o s).1 = (V.unpack A n o).1 ∧
    Mirrors heap r ∅ (populatePhysLoop heap phys behind base A.length n o s).2 (V.unpack A n o).2 := by
  induction n generalizing o s V with
  | zero => exact ⟨rfl, h⟩
  | succ n ih =>
    have hturn := @populatePhysTurn_follows s r heap V phys A o base A.length behind h hc hA
      fun h1 h2 h3 h4 => (hnames o V hv h1 h2 h3).2 h4
    rw [populatePhysLoop, Namespace.unpack]
    generalize populatePhysTurn heap phys behind base A.length o s = turn at hturn ⊢
    rcases hspec : V.turn A o with ⟨rc | o', V'⟩ <;> rw [hspec] at hturn
    · cases turn with
      | next => exact hturn.elim
      | ends rc' s' => exact ⟨congrArg some hturn.1, hturn.2⟩
    · cases turn with
      | ends => exact hturn.elim
      | next o'' s' =>
        obtain ⟨ho, h'⟩ := hturn
        rw [Nat.zero_add] at ho
        subst ho
        exact ih (hv.next hspec) h'

theorem populateLoop_follows (hA : bytesAt mem base A.length = A) (hfit : base + A.length < 2 ^ 64)
    (hnames : NamesFit A V₀) (hpad : Padded A base V₀) (hv : Visits A V₀ o V) (ho : o ≤ A.length)
    (h : Mirrors heap r ∅ s V) :
    LoopFollows heap r base A.length
      (populateLoop heap mem behind (base + A.length) n (base + o) s) (V.unpack A n o) := by
  induction n generalizing o s V with
  | zero =>
    rw [populateLoop, Namespace.unpack]
    exact ⟨rfl, h, by simp⟩
  | succ n ih =>
    obtain ⟨hturn, hin⟩ := @populateTurn_follows s r heap V mem A o base behind h hA hfit ho
      (hnames o V hv) (hpad.name o V hv) fun o' V' ht => hpad.data o V o' V' hv ht
    rw [populateLoop, Namespace.unpack]
    generalize populateTurn heap mem behind (base + A.length) (base + o) s = turn at hturn hin ⊢
    obtain ⟨reads, turn⟩ := turn
    rcases hspec : V.turn A o with ⟨rc | o', V'⟩ <;> rw [hspec] at hturn
    · cases turn with
      | next => exact hturn.elim
      | ends rc' s' => exact ⟨congrArg some hturn.1, hturn.2, hin⟩
    · cases turn with
      | ends => exact hturn.elim
      | next cursor s' =>
        obtain ⟨rfl, h'⟩ := hturn
        have hgo := ih (hv.next hspec) (hpad.ends o V o' V' hv hspec) h'
        rw [Turn.followed]
        generalize populateLoop heap mem behind (base + A.length) n (base + o') s' = res at hgo ⊢
        obtain ⟨rc, later, s''⟩ := res
        obtain ⟨h1, h2, h3⟩ := hgo
        have hall : ∀ x ∈ reads ++ later, Inside base A.length x := by
          intro x hx
          rcases List.mem_append.mp hx with hx | hx
          · exact hin x hx
          · exact h3 x hx
        exact ⟨h1, h2, hall⟩

/-! ### Agreement -/

/-- An archive in memory and in physical memory, both available, and a tree to unpack it on. -/
structure Placed (heap heap' : Heap) (mem : Bytes) (phys : Phys) (A : List UInt8) (base base' : Nat)
    (s : Vfs) (r : Ptr) : Prop where
  pos : 0 < base
  aligned : base % 4 = 0
  fits : base + A.length < 2 ^ 64
  bytes : bytesAt mem base A.length = A
  phys_bytes : bytesAt phys.bytes base' A.length = A
  copies : phys.Copies base' A.length
  roomy : Roomy heap s
  roomy' : Roomy heap' s
  built : Built s
  root : s.root = some r
  names : NamesFit A (s.view r)

/-- After any number of turns the two unpackers have the same answer and the same tree, and the one
    with pointers has read in the archive only. -/
def Agree (heap heap' : Heap) (mem : Bytes) (phys : Phys) (behind behind' : Nat → Text) (base base' size : Nat)
    (s : Vfs) (r : Ptr) : Prop :=
  ∀ n, (cpioPopulateVfs heap mem behind base size n s).1 =
      (cpioPopulateVfsPhys heap' phys behind' base' size n s).1 ∧
    (cpioPopulateVfs heap mem behind base size n s).2.2.view r =
      (cpioPopulateVfsPhys heap' phys behind' base' size n s).2.view r ∧
    ∀ x ∈ (cpioPopulateVfs heap mem behind base size n s).2.1, Inside base size x

theorem Placed.mirrors (h : Placed heap heap' mem phys A base base' s r) :
    Mirrors heap r ∅ s (s.view r) ∧ Mirrors heap' r ∅ s (s.view r) := by
  obtain ⟨r', hr', hs⟩ := h.built.shape
  obtain rfl := Option.some.inj (h.root.symm.trans hr')
  exact ⟨⟨hs, h.root, h.roomy, rfl, by simp⟩, ⟨hs, h.root, h.roomy', rfl, by simp⟩⟩

theorem Placed.populate_eq (h : Placed heap heap' mem phys A base base' s r) (n : Nat) :
    cpioPopulateVfs heap mem behind base A.length n s =
      populateLoop heap mem behind (base + A.length) n base s := by
  have hpos := h.pos
  rw [cpioPopulateVfs, if_neg (by omega), u64_of_lt h.fits]

theorem Placed.agree (h : Placed heap heap' mem phys A base base' s r)
    (hpad : Padded A base (s.view r)) :
    Agree heap heap' mem phys behind behind' base base' A.length s r := by
  intro n
  obtain ⟨hm, hm'⟩ := h.mirrors
  obtain ⟨h1, h2, h3⟩ := @populateLoop_follows s r heap (s.view r) (s.view r) mem A 0 base n behind
    h.bytes h.fits h.names hpad .start (Nat.zero_le _) hm
  obtain ⟨h4, h5⟩ := @populatePhysLoop_follows s r heap' (s.view r) (s.view r) phys A 0 base' n behind'
    h.copies h.phys_bytes h.names .start hm'
  rw [h.populate_eq]
  exact ⟨h1.trans h4.symm, h2.view.trans h5.view.symm, h3⟩

/-! ### Where they differ -/

/-- Below 4 GiB rounding pointers up is rounding offsets up. -/
theorem align_add (hb : base % 4 = 0) {x : Nat} (h : base + x + 3 < 2 ^ 32) :
    cpioAlignOffset (base + x) = base + cpioAlignOffset x := by
  rw [cpioAlignOffset_of_lt (by omega), cpioAlignOffset_of_lt (by omega)]
  omega

theorem turn_ok (h : V.turn A o = (.ok o', V')) :
    nameEnd A o ≤ A.length ∧ dataEnd A o ≤ A.length ∧ o' = cpioAlignOffset (dataEnd A o) := by
  rw [Namespace.turn] at h
  cases hp : parseAt A o with
  | bad => simp [hp] at h
  | trailer => simp [hp] at h
  | member name mode data =>
    rw [hp] at h
    dsimp only at h
    split at h
    · obtain ⟨ho, -⟩ := Prod.mk.inj h
      injection ho with ho
      exact ⟨(parseAt_read (by rw [hp]; simp)).name, (parseAt_member hp).1, ho.symm⟩
    · obtain ⟨ho, -⟩ := Prod.mk.inj h
      cases ho

/-- Behind the end of the archive a header is read. -/
theorem populateTurn_outside (hsize : A.length < o) (ho : o ≤ A.length + 3) :
    (base + o, 6) ∈ (populateTurn heap mem behind (base + A.length) (base + o) s).1 := by
  have hH : cpioHeaderSize = 110 := rfl
  have hdiff : ¬ ptrDiff (base + A.length) (base + o) < cpioHeaderSize := by
    rw [ptrDiff_of_lt (by omega) (by omega)]
    omega
  rw [populateTurn, if_neg hdiff]
  dsimp only
  split
  · simp
  split
  · simp [headerReads]
  split
  · simp [headerReads]
  split
  · simp [headerReads]
  split
  · simp [headerReads]
  split
  · simp [headerReads]
  split
  · simp [headerReads]
  split <;> simp [headerReads]

/-- The cursor gets to every offset that unpacking gets to, while it reads in the archive only. -/
theorem visits_reached (h : Placed heap heap' mem phys A base base' s r)
    (hlow : base + A.length + 3 < 2 ^ 32)
    (hin : ∀ n, ∀ x ∈ (populateLoop heap mem behind (base + A.length) n base s).2.1,
      Inside base A.length x) (hv : Visits A (s.view r) o V) :
    o ≤ A.length ∧ ∃ k s' reads, Mirrors heap r ∅ s' V ∧
      ∀ n, populateLoop heap mem behind (base + A.length) (n + k) base s =
        ((populateLoop heap mem behind (base + A.length) n (base + o) s').1,
          reads ++ (populateLoop heap mem behind (base + A.length) n (base + o) s').2.1,
          (populateLoop heap mem behind (base + A.length) n (base + o) s').2.2) := by
  have haligned := h.aligned
  induction hv with
  | start =>
    refine ⟨Nat.zero_le _, 0, s, [], h.mirrors.1, fun n => ?_⟩
    rw [Nat.add_zero, Nat.add_zero, List.nil_append]
  | @next o o' V V' hv hturn ih =>
    obtain ⟨ho, k, s', reads, hm, hrun⟩ := ih
    obtain ⟨-, hend, ho'⟩ := turn_ok hturn
    have halign : ∀ x, x ≤ A.length → cpioAlignOffset (base + x) = base + cpioAlignOffset x :=
      fun x hx => align_add haligned (by omega)
    obtain ⟨hfollow, -⟩ := @populateTurn_follows s' r heap V mem A o base behind hm h.bytes h.fits ho
      (h.names o V hv) (fun hn => halign _ hn) fun o'' V'' ht => halign _ hend
    rw [hturn] at hfollow
    rcases hp : populateTurn heap mem behind (base + A.length) (base + o) s' with ⟨reads', turn⟩
    rw [hp] at hfollow
    cases turn with
    | ends => exact hfollow.elim
    | next cursor s'' =>
      obtain ⟨rfl, hm'⟩ := hfollow
      have hrun' : ∀ n, populateLoop heap mem behind (base + A.length) (n + (k + 1)) base s =
          ((populateLoop heap mem behind (base + A.length) n (base + o') s'').1,
            (reads ++ reads') ++ (populateLoop heap mem behind (base + A.length) n (base + o') s'').2.1,
            (populateLoop heap mem behind (base + A.length) n (base + o') s'').2.2) := by
        intro n
        rw [show n + (k + 1) = (n + 1) + k by omega, hrun (n + 1), populateLoop, hp, Turn.followed]
        simp only [List.append_assoc]
      refine ⟨?_, k + 1, s'', reads ++ reads', hm', hrun'⟩
      by_contra hout
      have hle : o' ≤ A.length + 3 := by
        rw [ho', cpioAlignOffset_of_lt (by omega)]
        omega
      have hmem := @populateTurn_outside s'' heap mem A o' base behind (by omega) hle
      have hread : (base + o', 6) ∈
          (populateLoop heap mem behind (base + A.length) (1 + (k + 1)) base s).2.1 := by
        rw [hrun' 1, populateLoop]
        generalize populateTurn heap mem behind (base + A.length) (base + o') s'' = turn at hmem
        obtain ⟨reads'', turn⟩ := turn
        cases turn with
        | ends => exact List.mem_append_right _ hmem
        | next => exact List.mem_append_right _ (List.mem_append_left _ hmem)
      rcases hin _ _ hread with hz | ⟨-, hz⟩
      · simp at hz
      · dsimp only at hz
        omega

theorem Placed.inside_of_agree (h : Placed heap heap' mem phys A base base' s r)
    (hagree : Agree heap heap' mem phys behind behind' base base' A.length s r) (n : Nat) :
    ∀ x ∈ (populateLoop heap mem behind (base + A.length) n base s).2.1, Inside base A.length x := by
  have hn := (hagree n).2.2
  rw [h.populate_eq] at hn
  exact hn

/-- Below 4 GiB only the padded ends matter. -/
theorem padded_of_ends (hb : base % 4 = 0) (hlow : base + A.length + 3 < 2 ^ 32)
    (hends : ∀ o V o' V', Visits A V₀ o V → V.turn A o = (.ok o', V') → o' ≤ A.length) :
    Padded A base V₀ := by
  have halign : ∀ x, x ≤ A.length → cpioAlignOffset (base + x) = base + cpioAlignOffset x :=
    fun x hx => align_add hb (by omega)
  exact ⟨hends, fun o V _ hn => halign _ hn, fun o V o' V' _ ht => halign _ (turn_ok ht).2.1⟩

/-- On an archive that is placed alike for both, the two unpackers agree where no entry that is gone
    past has its padded end outside; and below 4 GiB only there. -/
theorem unpackers_agree_iff (h : Placed heap heap' mem phys A base base' s r) :
    (Padded A base (s.view r) →
      Agree heap heap' mem phys behind behind' base base' A.length s r) ∧
    (base + A.length + 3 < 2 ^ 32 →
      (Agree heap heap' mem phys behind behind' base base' A.length s r ↔
        ∀ o V o' V', Visits A (s.view r) o V → V.turn A o = (.ok o', V') → o' ≤ A.length)) := by
  refine ⟨h.agree, fun hlow => ⟨fun hagree o V o' V' hv ht => ?_, fun hends => ?_⟩⟩
  · exact (visits_reached h hlow (h.inside_of_agree hagree) (hv.next ht)).1
  · exact h.agree (padded_of_ends h.aligned hlow hends)

/-! ### Unpadded data -/

/-- A file of one byte, with the padding behind it. -/
def oneByte : List UInt8 :=
  packed [⟨[[letter 0]], 0o100644#32, .file [104], noMeta, by decide, by
    intro c hc
    obtain rfl := List.mem_singleton.mp hc
    exact ⟨by decide, by decide, by decide⟩, by decide, by simp⟩]

/-- An archive that ends with the byte. -/
def unpadded : List UInt8 := oneByte.take 113

/-- Memory at 4096: what lies behind the archive is a trailer. -/
def trailerBehind : Bytes := fun a => (oneByte ++ trailerBytes noMeta 0 0 []).getD (a - 4096) 0

/-- The unpacker with pointers finds the trailer, the other one the end of the archive. -/
theorem unpadded_disagrees :
    let res := cpioPopulateVfs rising trailerBehind (fun _ => []) 4096 unpadded.length 2 emptyVfs
    let resPhys := cpioPopulateVfsPhys rising ⟨inMemory unpadded, fun _ _ => true⟩ (fun _ => []) 0
      unpadded.length 2 emptyVfs
    bytesAt trailerBehind 4096 unpadded.length = unpadded ∧ unpadded.length = 113 ∧
      res.1 = some 0 ∧ resPhys.1 = some (-1) ∧ (4212, 6) ∈ res.2.1 ∧ ¬ Inside 4096 113 (4212, 6) := by
  refine ⟨by decide, by decide, by decide, by decide,
    by decide, ?_⟩
  rintro (h | ⟨-, h⟩)
  · simp at h
  · simp at h

/-- Unpacking gets on by a header at least. -/
theorem Visits.zero_or_header (hv : Visits A V₀ o V) (hA : A.length + 3 < 2 ^ 32) :
    o = 0 ∨ cpioHeaderSize ≤ o := by
  cases hv with
  | start => exact Or.inl rfl
  | @next o o' V V' hv hturn =>
    obtain ⟨hname, hend, ho'⟩ := turn_ok hturn
    have hstart : nameEnd A o ≤ dataStart A o := by
      rw [dataStart, cpioAlignOffset_of_lt (by omega)]
      omega
    have hdata : dataStart A o ≤ dataEnd A o := Nat.le_add_right ..
    have hheader : cpioHeaderSize ≤ nameEnd A o := by
      rw [nameEnd]
      omega
    right
    rw [ho', cpioAlignOffset_of_lt (by omega)]
    omega

theorem unpadded_length : unpadded.length = 113 := by decide

theorem unpadded_placed : Placed rising rising trailerBehind ⟨inMemory unpadded, fun _ _ => true⟩ unpadded
    4096 0 emptyVfs 0 where
  pos := by decide
  aligned := by decide
  fits := by rw [unpadded_length]; decide
  bytes := by decide
  phys_bytes := bytesAt_inMemory unpadded
  copies := fun _ _ _ _ => rfl
  roomy := roomy_empty
  roomy' := roomy_empty
  built := emptyVfs_built
  root := rfl
  names := by
    intro o V hv hheader _ _
    have hzero : o = 0 := by
      have hlen := unpadded_length
      rcases hv.zero_or_header (by omega) with h | h
      · exact h
      · exact absurd hheader (by have : cpioHeaderSize = 110 := rfl; omega)
    subst hzero
    exact ⟨by decide, fun _ => by decide⟩

theorem unpackers_agree_iff_unpadded :
    ¬ Agree rising rising trailerBehind ⟨inMemory unpadded, fun _ _ => true⟩ (fun _ => []) (fun _ => [])
      4096 0 unpadded.length emptyVfs 0 := by
  intro hagree
  have hlen := unpadded_length
  have hends := ((unpackers_agree_iff unpadded_placed).2 (by omega)).mp hagree
  have hturn : ((emptyVfs.view 0).turn unpadded 0).1 = .ok 116 := by decide +kernel
  rcases hres : (emptyVfs.view 0).turn unpadded 0 with ⟨next, V'⟩
  rw [hres] at hturn
  subst hturn
  have hend := hends 0 _ 116 V' .start hres
  omega

end TypeOS.Fs
