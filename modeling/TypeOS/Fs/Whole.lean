import TypeOS.Fs.Unpack

/-! What `cpio_populate_vfs_phys` accepts.

    It says 0 at an entry whose name it takes for the trailer's and nowhere else. With limit
    namesize - 1 it compares no NUL, so it takes `T` for that name too, and the rest of the archive is
    dropped; digits of a header that are none count as 0, a name without a NUL is taken as it is, and
    an entry is passed over where there is no block for its path. Where none of this happens at a header
    that the loop gets to, what is accepted is a whole archive. -/

namespace TypeOS.Fs

variable {s s' s₁ s₂ : Vfs} {heap : Heap} {phys : Phys} {behind : Nat → Text} {A : List UInt8}
  {base n k o o' : Nat} {e : RawEntry} {es : List RawEntry} {header name rest : List UInt8}

/-- Eight digits. -/
def HexField (digits : List UInt8) : Prop :=
  ∀ c ∈ digits, (48 ≤ c ∧ c ≤ 57) ∨ (97 ≤ c ∧ c ≤ 102) ∨ (65 ≤ c ∧ c ≤ 70)

instance (digits : List UInt8) : Decidable (HexField digits) := List.decidableBAll _ digits

/-- A header with the magic number and digits in the fields that are read. -/
structure WellFormedHeader (header : List UInt8) : Prop where
  length : header.length = cpioHeaderSize
  magic : header.take 6 = cpioNewcMagic
  mode : HexField (field header 14)
  filesize : HexField (field header 54)
  namesize : HexField (field header 94)

/-- A well-formed entry. -/
structure WellFormed (e : RawEntry) : Prop where
  fits : e.Fits
  header : WellFormedHeader e.header
  nul : 0 ∈ e.name

/-- The header and the name of an entry that is called `TRAILER!!!`, with its data in what follows. -/
structure Trailer (header name rest : List UInt8) : Prop where
  wellFormed : WellFormedHeader header
  namesize : name.length = headerNamesize header
  name_pos : 0 < name.length
  name_le : name.length ≤ 4096
  nul : 0 ∈ name
  named : cString name [] = cpioTrailer
  data : headerFilesize header ≤ rest.length - padOf (cpioHeaderSize + name.length)

/-- How far the data of an entry are from its header. -/
def RawEntry.dataOffset (e : RawEntry) : Nat := cpioHeaderSize + e.name.length + e.pad.length

/-- An entry at an offset is processed: nothing is left of its name, or it is installed. -/
inductive Processes (heap : Heap) (phys : Phys) (base o : Nat) (e : RawEntry) (s : Vfs) : Vfs → Prop
  | passed {block : Ptr} {s₁ : Vfs} : kmalloc heap s = (some block, s₁) →
    normalized (cString e.name []) = none → Processes heap phys base o e s (kfree block s₁)
  | installed {block p : Ptr} {path : Text} {s₁ s₂ s₃ : Vfs} : kmalloc heap s = (some block, s₁) →
    cpioNormalizePath heap (cString e.name []) s₁ = (some (p, path), s₂) →
    cpioInstallEntryPhys heap phys path (headerMode e.header) (base + (o + e.dataOffset)) e.data.length
      (kfree block s₂) = (0, s₃) →
    Processes heap phys base o e s (kfree p s₃)

/-- Entries one behind the other are processed one after the other. -/
inductive AllProcessed (heap : Heap) (phys : Phys) (base : Nat) :
    Nat → List RawEntry → Vfs → Vfs → Prop
  | nil (o : Nat) (s : Vfs) : AllProcessed heap phys base o [] s s
  | cons {o : Nat} {e : RawEntry} {es : List RawEntry} {s s₁ s' : Vfs} :
    Processes heap phys base o e s s₁ →
    AllProcessed heap phys base (o + e.bytes.length) es s₁ s' →
    AllProcessed heap phys base o (e :: es) s s'

/-- Bytes from an offset on are a whole archive, and the loop has unpacked it: they are well-formed
    entries up to one that is called `TRAILER!!!`, each was processed in a turn of its own, and all that
    was done then is to take and give back a block for the last name. -/
def Whole (heap : Heap) (phys : Phys) (behind : Nat → Text) (base size o : Nat) (s s' : Vfs)
    (X : List UInt8) : Prop :=
  ∃ (es : List RawEntry) (header name rest : List UInt8) (s₁ s₂ : Vfs) (block : Ptr),
    X = es.flatMap RawEntry.bytes ++ (header ++ (name ++ rest)) ∧ (∀ e ∈ es, WellFormed e) ∧
    Trailer header name rest ∧ AllProcessed heap phys base o es s s₁ ∧
    populatePhysLoop heap phys behind base size es.length o s = (none, s₁) ∧
    kmalloc heap s₁ = (some block, s₂) ∧ s' = kfree block s₂

/-- What the code does not check of a header that it gets to: its digits, the NUL of its name, that the
    name is more than a beginning of `TRAILER!!!`, that the last entry has its data in the archive, and,
    for another one, that there is a block for its path. -/
structure Clean (heap : Heap) (A : List UInt8) (o : Nat) (s : Vfs) : Prop where
  header : WellFormedHeader (hdrAt A o)
  nul : 0 ∈ nameAt A o
  data : headerFilesize (hdrAt A o) ≤ A.length - (nameEnd A o + padOf (nameEnd A o))
  trailer : ∀ t : Text, t <+: cpioTrailer → nameAt A o = t.bytes ++ [0] → t = cpioTrailer
  block : cString (nameAt A o) [] ≠ cpioTrailer → normalized (cString (nameAt A o) []) ≠ none →
    (kmalloc heap (kmalloc heap s).2).1 ≠ none

/-- Where the parts of an entry are inside, rounding up does not go beyond 32 bits. -/
def RoundsUp (A : List UInt8) (o : Nat) : Prop :=
  nameEnd A o ≤ A.length → dataEnd A o ≤ A.length → nameEnd A o + 3 < 2 ^ 32 ∧ dataEnd A o + 3 < 2 ^ 32

/-! ### Names taken for the trailer's -/

/-- Up to a NUL that is not compared, the bytes begin the other name; if it is compared they are it. -/
theorem strncmp_nul {u t : Text} {x : List UInt8} (h : strncmp n (u.bytes ++ 0 :: x) t.bytes = 0) :
    if n ≤ u.length then u.take n <+: t else u = t := by
  induction u generalizing n t with
  | nil =>
    cases n with
    | zero => simp
    | succ n =>
      obtain ⟨hb, -⟩ := (strncmp_succ ..).mp h
      cases t with
      | nil => simp
      | cons d t => exact absurd hb.symm d.2
  | cons c u ih =>
    cases n with
    | zero => simp
    | succ n =>
      obtain ⟨hb, hrest⟩ := (strncmp_succ ..).mp h
      have hrest := hrest.resolve_left c.2
      cases t with
      | nil => exact absurd hb c.2
      | cons d t =>
        obtain rfl : c = d := Subtype.ext hb
        have := ih hrest
        simp only [List.length_cons, Nat.add_le_add_iff_right, List.take_succ_cons,
          List.cons_prefix_cons, true_and, List.cons.injEq]
        exact this

theorem nul_split {l : List UInt8} (h : 0 ∈ l) : ∃ x, l = (cString l []).bytes ++ 0 :: x := by
  induction l with
  | nil => cases h
  | cons b l ih =>
    by_cases hb : b = 0
    · subst hb
      exact ⟨l, rfl⟩
    · obtain ⟨x, hx⟩ := ih ((List.mem_cons.mp h).resolve_left (Ne.symm hb))
      refine ⟨x, ?_⟩
      rw [cString, dif_neg hb, Text.bytes, List.map_cons, List.cons_append]
      exact congrArg (b :: ·) hx

/-- A name that is taken for another one is that one, or a beginning of it with a NUL. -/
theorem strncmp_taken {t : Text} (h : 0 ∈ name) (hcmp : strncmp (name.length - 1) name t.bytes = 0) :
    cString name [] = t ∨ ∃ u : Text, u <+: t ∧ name = u.bytes ++ [0] := by
  obtain ⟨x, hx⟩ := nul_split h
  have hlen := congrArg List.length hx
  rw [List.length_append, length_bytes, List.length_cons] at hlen
  rw [hx] at hcmp
  have hnul := strncmp_nul hcmp
  rw [← hx] at hnul
  split at hnul
  · next hle =>
    obtain rfl : x = [] := List.eq_nil_of_length_eq_zero (by omega)
    refine Or.inr ⟨cString name [], ?_, hx⟩
    rwa [List.take_of_length_le (by simp only [List.length_nil] at hlen; omega)] at hnul
  · exact Or.inl hnul

/-- A name is taken for itself, and so is a beginning of it with a NUL. -/
theorem beginning_taken {t u : Text} (h : u <+: t) (hn : name = u.bytes ++ [0]) :
    strncmp (name.length - 1) name t.bytes = 0 := by
  have hlen : name.length - 1 = u.length := by
    rw [hn, List.length_append, length_bytes]
    rfl
  rw [hlen, hn]
  exact (strncmp_bytes_left u t [0]).mpr h

theorem strncmp_self (u : Text) (x : List UInt8) (n : Nat) :
    strncmp n (u.bytes ++ 0 :: x) u.bytes = 0 := by
  induction u generalizing n with
  | nil =>
    cases n with
    | zero => rfl
    | succ n => exact (strncmp_succ ..).mpr ⟨rfl, Or.inl rfl⟩
  | cons c u ih =>
    cases n with
    | zero => rfl
    | succ n => exact (strncmp_succ ..).mpr ⟨rfl, Or.inr (ih n)⟩

/-! ### Turns -/

theorem pagingCopyFromPhys_some {a n : Nat} {bytes : List UInt8}
    (h : pagingCopyFromPhys phys a n = some bytes) : bytes = bytesAt phys.bytes a n := by
  rw [pagingCopyFromPhys] at h
  split at h
  · exact (Option.some.inj h).symm
  · cases h

/-- What a turn has checked before it compares the name. -/
theorem populatePhysTurn_cases (hA : bytesAt phys.bytes base A.length = A) :
    (∃ rc s', rc ≠ 0 ∧ populatePhysTurn heap phys behind base A.length o s = .ends rc s') ∨
    Read A o ∧ ∃ block s₁, kmalloc heap s = (some block, s₁) ∧
      populatePhysTurn heap phys behind base A.length o s =
        if strncmp (headerNamesize (hdrAt A o) - 1) (nameAt A o) cpioTrailer.bytes = 0 then
          .ends 0 (kfree block s₁)
        else if A.length < dataEnd A o then .ends (-1) (kfree block s₁)
        else
          match cpioNormalizePath heap (cString (nameAt A o) (behind s.requests)) s₁ with
          | (none, s₂) => .next (cpioAlignOffset (dataEnd A o)) (kfree block s₂)
          | (some (p, path), s₂) =>
            match cpioInstallEntryPhys heap phys path (headerMode (hdrAt A o)) (base + dataStart A o)
              (headerFilesize (hdrAt A o)) (kfree block s₂) with
            | (0, s₃) => .next (cpioAlignOffset (dataEnd A o)) (kfree p s₃)
            | (rc, s₃) => .ends rc (kfree p s₃) := by
  rw [populatePhysTurn]
  rcases Nat.lt_or_ge A.length (o + cpioHeaderSize) with hshort | hheader
  · rw [if_pos hshort]
    exact Or.inl ⟨-1, s, by decide, rfl⟩
  rw [if_neg (not_lt.mpr hheader)]
  cases hhdr : pagingCopyFromPhys phys (base + o) cpioHeaderSize with
  | none => exact Or.inl ⟨-1, s, by decide, rfl⟩
  | some hdr =>
    have hdr_eq : hdr = hdrAt A o := by
      rw [pagingCopyFromPhys_some hhdr, bytesAt_slice hA hheader]
      rfl
    subst hdr_eq
    dsimp only
    by_cases hmagic : (hdrAt A o).take 6 = cpioNewcMagic
    swap
    · rw [if_pos hmagic]
      exact Or.inl ⟨-1, s, by decide, rfl⟩
    rw [if_neg (not_not.mpr hmagic)]
    by_cases hsize : headerNamesize (hdrAt A o) = 0 ∨ 4096 < headerNamesize (hdrAt A o)
    · rw [if_pos hsize]
      exact Or.inl ⟨-1, s, by decide, rfl⟩
    rw [if_neg hsize]
    obtain ⟨hpos, hle⟩ := not_or.mp hsize
    rcases Nat.lt_or_ge A.length (o + cpioHeaderSize + headerNamesize (hdrAt A o)) with hlong | hname
    · rw [if_pos hlong]
      exact Or.inl ⟨-1, s, by decide, rfl⟩
    rw [if_neg (not_lt.mpr hname)]
    cases hm : kmalloc heap s with
    | mk block s₁ =>
      cases block with
      | none => exact Or.inl ⟨-1, s₁, by decide, rfl⟩
      | some block =>
        dsimp only
        cases hcopy : pagingCopyFromPhys phys (base + (o + cpioHeaderSize))
            (headerNamesize (hdrAt A o)) with
        | none => exact Or.inl ⟨-1, kfree block s₁, by decide, rfl⟩
        | some text =>
          have htext : text = nameAt A o := by
            rw [pagingCopyFromPhys_some hcopy, bytesAt_slice hA hname]
            rfl
          subst htext
          exact Or.inr ⟨⟨hheader, hmagic, hpos, not_lt.mp hle, hname⟩, block, s₁, rfl, rfl⟩

/-- A turn that goes on has found an entry whose name is not taken for the trailer's, and done with it
    what there was to do. -/
theorem populatePhysTurn_goes (hA : bytesAt phys.bytes base A.length = A)
    (h : populatePhysTurn heap phys behind base A.length o s = .next o' s') :
    Read A o ∧ strncmp (headerNamesize (hdrAt A o) - 1) (nameAt A o) cpioTrailer.bytes ≠ 0 ∧
    dataEnd A o ≤ A.length ∧ o' = cpioAlignOffset (dataEnd A o) ∧
    ∃ block s₁, kmalloc heap s = (some block, s₁) ∧
      ((∃ s₂, cpioNormalizePath heap (cString (nameAt A o) (behind s.requests)) s₁ = (none, s₂) ∧
          s' = kfree block s₂) ∨
        ∃ p path s₂ s₃,
          cpioNormalizePath heap (cString (nameAt A o) (behind s.requests)) s₁ = (some (p, path), s₂) ∧
          cpioInstallEntryPhys heap phys path (headerMode (hdrAt A o)) (base + dataStart A o)
            (headerFilesize (hdrAt A o)) (kfree block s₂) = (0, s₃) ∧ s' = kfree p s₃) := by
  rcases @populatePhysTurn_cases s heap phys behind A base o hA with
    ⟨rc, s₁, -, hends⟩ | ⟨hr, block, s₁, hm, hturn⟩
  · rw [hends] at h
    cases h
  rw [hturn] at h
  split at h
  · cases h
  next hcmp =>
  split at h
  · cases h
  next hdata =>
  refine ⟨hr, hcmp, not_lt.mp hdata, ?_⟩
  split at h
  · next s₂ hnone =>
    obtain ⟨rfl, rfl⟩ := Turn.next.inj h
    exact ⟨rfl, block, s₁, hm, Or.inl ⟨s₂, hnone, rfl⟩⟩
  · next p path s₂ hsome =>
    split at h
    · next s₃ hinstall =>
      obtain ⟨rfl, rfl⟩ := Turn.next.inj h
      exact ⟨rfl, block, s₁, hm, Or.inr ⟨p, path, s₂, s₃, hsome, hinstall, rfl⟩⟩
    · cases h

/-- Where nothing is wrong with the header, it is the trailer's. -/
theorem Clean.last (hc : Clean heap A o s) (ho : o % 4 = 0) (hr : Read A o)
    (hcmp : strncmp (headerNamesize (hdrAt A o) - 1) (nameAt A o) cpioTrailer.bytes = 0) :
    Trailer (hdrAt A o) (nameAt A o) (A.drop (nameEnd A o)) := by
  have hlen : (nameAt A o).length = headerNamesize (hdrAt A o) := length_slice hr.name
  refine ⟨hc.header, hlen, hlen ▸ Nat.pos_of_ne_zero hr.size_pos, hlen ▸ hr.size_le, hc.nul, ?_, ?_⟩
  · rw [← hlen] at hcmp
    rcases strncmp_taken hc.nul hcmp with hname | ⟨u, hu, hname⟩
    · exact hname
    · obtain rfl := hc.trailer u hu hname
      rw [hname]
      exact cString_nul cpioTrailer [] []
  · have hdata := hc.data
    have hpad : padOf (nameEnd A o) = padOf (cpioHeaderSize + (nameAt A o).length) := by
      rw [nameEnd, hlen]
      simp only [padOf]
      omega
    rw [List.length_drop, ← hpad]
    omega

/-- Where nothing is wrong with the header, what is gone past is an entry, and it is processed. -/
theorem Clean.entry (hc : Clean heap A o s) (hu : RoundsUp A o)
    (hA : bytesAt phys.bytes base A.length = A) (ho : o % 4 = 0)
    (h : populatePhysTurn heap phys behind base A.length o s = .next o' s') (hle : o' ≤ A.length) :
    ∃ e : RawEntry, WellFormed e ∧ A.drop o = e.bytes ++ A.drop o' ∧ o' = o + e.bytes.length ∧
      Processes heap phys base o e s s' := by
  obtain ⟨hr, hcmp, hdata, rfl, block, s₁, hm, hdone⟩ := populatePhysTurn_goes hA h
  obtain ⟨hname, hend⟩ := hu hr.name hdata
  obtain ⟨e, hfits, hbytes, hheader, hn, hstart, hnext⟩ := hr.raw ho hdata hname hend hle
  refine ⟨e, ⟨hfits, hheader ▸ hc.header, hn ▸ hc.nul⟩, hbytes, hnext, ?_⟩
  have hnot : cString (nameAt A o) [] ≠ cpioTrailer := by
    intro heq
    obtain ⟨x, hx⟩ := nul_split hc.nul
    rw [heq] at hx
    rw [hx] at hcmp
    exact hcmp (strncmp_self ..)
  rw [cString_behind hc.nul, ← hn] at hdone
  rcases hdone with ⟨s₂, hnone, rfl⟩ | ⟨p, path, s₂, s₃, hsome, hinstall, rfl⟩
  · -- there is a block for the path, so there is no path
    have hnull : normalized (cString e.name []) = none := by
      by_contra hpath
      have hblock := hc.block hnot (hn ▸ hpath)
      rw [hm] at hblock
      rw [cpioNormalizePath] at hnone
      split at hnone
      · next hnull => exact hpath hnull
      · split at hnone
        · next hrefused => exact hblock (congrArg Prod.fst hrefused)
        · cases hnone
    rw [cpioNormalizePath, hnull] at hnone
    obtain rfl := (Prod.mk.inj hnone).2
    exact .passed hm hnull
  · rw [hstart, ← hheader, ← hfits.data] at hinstall
    exact .installed hm hsome hinstall

/-- A path that was made has a block. -/
theorem cpioNormalizePath_cases {t : Text} {res : Option (Ptr × Text)}
    (h : cpioNormalizePath heap t s = (res, s')) :
    (normalized t = none ∧ res = none ∧ s' = s) ∨ (normalized t ≠ none ∧ s' = (kmalloc heap s).2 ∧
      (res = none ↔ (kmalloc heap s).1 = none)) := by
  rw [cpioNormalizePath] at h
  split at h
  · next hnull =>
    obtain ⟨rfl, rfl⟩ := Prod.mk.inj h
    exact Or.inl ⟨hnull, rfl, rfl⟩
  · next path hpath =>
    refine Or.inr ⟨by rw [hpath]; simp, ?_⟩
    split at h
    · next hm =>
      obtain ⟨rfl, rfl⟩ := Prod.mk.inj h
      rw [hm]
      simp
    · next hm =>
      obtain ⟨rfl, rfl⟩ := Prod.mk.inj h
      rw [hm]
      simp

/-- Where an entry stands and is processed, the header is clean, and the turn ends behind the entry and
    leaves what processing it leaves. -/
theorem WellFormed.turn (he : WellFormed e) (hA : bytesAt phys.bytes base A.length = A)
    (hlen : A.length + 3 < 2 ^ 32) (ho : o % 4 = 0) (hle : o ≤ A.length)
    (hX : A.drop o = e.bytes ++ rest) (hp : Processes heap phys base o e s s₁)
    (h : populatePhysTurn heap phys behind base A.length o s = .next o' s') :
    Clean heap A o s ∧ o' = o + e.bytes.length ∧ s' = s₁ := by
  have hA' : A = A.take o ++ (e.bytes ++ rest) := by
    rw [← hX, List.take_append_drop]
  obtain ⟨hheader, hname, hnend, -, halign, hdend⟩ :=
    he.fits.parts (List.length_take_of_le hle) ho hA' (by omega)
  obtain ⟨hr, hcmp, hdata, rfl, block, s₂, hm, hdone⟩ := populatePhysTurn_goes hA h
  have hnlen := hr.name
  have hstart : dataStart A o = o + e.dataOffset := by
    rw [dataStart, cpioAlignOffset_of_lt (by omega), hnend, RawEntry.dataOffset, he.fits.pad, padOf]
    omega
  rw [hname, cString_behind he.nul, hheader, hstart, ← he.fits.data] at hdone
  have hpast : s' = s₁ ∧ (normalized (cString e.name []) ≠ none →
      (kmalloc heap (kmalloc heap s).2).1 ≠ none) := by
    rw [hm]
    cases hp with
    | passed hm' hnull =>
      obtain ⟨hb, rfl⟩ := Prod.mk.inj (hm.symm.trans hm')
      obtain rfl := Option.some.inj hb
      refine ⟨?_, fun hpath => absurd hnull hpath⟩
      rcases hdone with ⟨s₃, hnone, rfl⟩ | ⟨p, path, s₃, s₄, hsome, -, -⟩
      · rcases cpioNormalizePath_cases hnone with ⟨-, -, rfl⟩ | ⟨hpath, -⟩
        · rfl
        · exact absurd hnull hpath
      · rcases cpioNormalizePath_cases hsome with ⟨-, hres, -⟩ | ⟨hpath, -⟩
        · cases hres
        · exact absurd hnull hpath
    | installed hm' hsome' hinstall' =>
      obtain ⟨hb, rfl⟩ := Prod.mk.inj (hm.symm.trans hm')
      obtain rfl := Option.some.inj hb
      refine ⟨?_, fun hpath => ?_⟩
      · rcases hdone with ⟨s₃, hnone, -⟩ | ⟨p, path, s₃, s₄, hsome, hinstall, rfl⟩
        · cases hnone.symm.trans hsome'
        · obtain ⟨hres, rfl⟩ := Prod.mk.inj (hsome.symm.trans hsome')
          obtain ⟨rfl, rfl⟩ := Prod.mk.inj (Option.some.inj hres)
          obtain ⟨-, rfl⟩ := Prod.mk.inj (hinstall.symm.trans hinstall')
          rfl
      · rcases cpioNormalizePath_cases hsome' with ⟨hnull, -⟩ | ⟨-, -, hblock⟩
        · exact absurd hnull hpath
        · exact fun hrefused => Option.some_ne_none _ (hblock.mpr hrefused)
  refine ⟨⟨hheader ▸ he.header, hname ▸ he.nul, ?_, fun t ht hnamet => ?_, fun _ => hname ▸ hpast.2⟩,
    halign, hpast.1⟩
  · have hde : dataEnd A o = dataStart A o + e.data.length := by
      rw [dataEnd, hheader, he.fits.data]
    have hds : dataStart A o = nameEnd A o + padOf (nameEnd A o) := by
      rw [hstart, RawEntry.dataOffset, he.fits.pad, hnend]
      simp only [padOf]
      omega
    rw [hheader, ← he.fits.data]
    omega
  · rw [hheader, ← he.fits.name, ← hname] at hcmp
    exact absurd (beginning_taken ht hnamet) hcmp

/-- Where the trailer stands it is found. -/
theorem Trailer.found (ht : Trailer header name rest) (hle : o ≤ A.length)
    (hX : A.drop o = header ++ (name ++ rest)) :
    hdrAt A o = header ∧ nameAt A o = name ∧ nameEnd A o = o + cpioHeaderSize + name.length := by
  have hA' : A = A.take o ++ (header ++ (name ++ rest)) := by
    rw [← hX, List.take_append_drop]
  exact head_parts ht.wellFormed.length ht.namesize (List.length_take_of_le hle) hA'

/-- At the trailer the loop does not go on. -/
theorem Trailer.stops (ht : Trailer header name rest) (hA : bytesAt phys.bytes base A.length = A)
    (hle : o ≤ A.length) (hX : A.drop o = header ++ (name ++ rest)) :
    populatePhysTurn heap phys behind base A.length o s ≠ .next o' s' := by
  intro h
  obtain ⟨-, hname, -⟩ := ht.found hle hX
  obtain ⟨-, hcmp, -⟩ := populatePhysTurn_goes hA h
  obtain ⟨x, hx⟩ := nul_split ht.nul
  rw [ht.named] at hx
  rw [hname, hx] at hcmp
  exact hcmp (strncmp_self ..)

/-! ### Runs -/

theorem wellFormedHeader_iff (header : List UInt8) : WellFormedHeader header ↔
    header.length = cpioHeaderSize ∧ header.take 6 = cpioNewcMagic ∧ HexField (field header 14) ∧
      HexField (field header 54) ∧ HexField (field header 94) := by
  constructor
  · rintro ⟨h1, h2, h3, h4, h5⟩
    exact ⟨h1, h2, h3, h4, h5⟩
  · rintro ⟨h1, h2, h3, h4, h5⟩
    exact ⟨h1, h2, h3, h4, h5⟩

instance (header : List UInt8) : Decidable (WellFormedHeader header) :=
  decidable_of_iff _ (wellFormedHeader_iff header).symm

/-- The beginnings of the trailer's name can be gone through. -/
theorem clean_iff (heap : Heap) (A : List UInt8) (o : Nat) (s : Vfs) : Clean heap A o s ↔
    WellFormedHeader (hdrAt A o) ∧ 0 ∈ nameAt A o ∧
    headerFilesize (hdrAt A o) ≤ A.length - (nameEnd A o + padOf (nameEnd A o)) ∧
    (∀ t ∈ cpioTrailer.inits, nameAt A o = Text.bytes t ++ [0] → t = cpioTrailer) ∧
    (cString (nameAt A o) [] ≠ cpioTrailer → normalized (cString (nameAt A o) []) ≠ none →
      (kmalloc heap (kmalloc heap s).2).1 ≠ none) := by
  constructor
  · rintro ⟨h1, h2, h3, h4, h5⟩
    exact ⟨h1, h2, h3, fun t ht => h4 t (List.mem_inits t _ |>.mp ht), h5⟩
  · rintro ⟨h1, h2, h3, h4, h5⟩
    exact ⟨h1, h2, h3, fun t ht => h4 t (List.mem_inits t _ |>.mpr ht), h5⟩

instance (heap : Heap) (A : List UInt8) (o : Nat) (s : Vfs) : Decidable (Clean heap A o s) :=
  decidable_of_iff _ (clean_iff heap A o s).symm

instance (A : List UInt8) (o : Nat) : Decidable (RoundsUp A o) := by
  unfold RoundsUp
  infer_instance

end TypeOS.Fs
