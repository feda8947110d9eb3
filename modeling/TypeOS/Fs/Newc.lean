import TypeOS.Fs.Archive

/-! The "newc" format: header, name, padding, data, padding.

    `RawEntry.Fits` says when five pieces make up an entry. Where its bytes stand in an archive at a
    multiple of four, `parseAt` reads the entry and ends behind it; and where `parseAt` reads an entry
    whose padding the archive holds too, five such pieces stand there. -/

namespace TypeOS.Fs

variable {A pre post : List UInt8} {o n : Nat} {name : Text} {mode : BitVec 32} {data : List UInt8}

/-! ### Alignment and numbers -/

theorem cpioAlignOffset_eq (x : Nat) : cpioAlignOffset x = (x + 3) / 4 % 2 ^ 30 * 4 := by
  have hmask : 0xFFFFFFFC = (2 ^ 30 - 1) <<< 2 := by decide
  have hmul : (x + 3) / 4 % 2 ^ 30 * 4 = ((x + 3) >>> 2 % 2 ^ 30) <<< 2 := by
    rw [Nat.shiftLeft_eq, Nat.shiftRight_eq_div_pow]
  rw [cpioAlignOffset, hmask, hmul]
  refine Nat.eq_of_testBit_eq fun i => ?_
  rw [Nat.testBit_and, Nat.testBit_shiftLeft, Nat.testBit_shiftLeft, Nat.testBit_two_pow_sub_one,
    Nat.testBit_mod_two_pow, Nat.testBit_shiftRight]
  rcases Nat.lt_or_ge i 2 with hi | hi
  · simp [Nat.not_le.mpr hi]
  · rw [Nat.add_sub_cancel' hi]
    cases (x + 3).testBit i <;> simp

/-- Below 4 GiB an offset is rounded up. -/
theorem cpioAlignOffset_of_lt {x : Nat} (h : (x + 3) / 4 * 4 < 2 ^ 32) :
    cpioAlignOffset x = (x + 3) / 4 * 4 := by
  rw [cpioAlignOffset_eq]
  omega

theorem cpioAlignOffset_mod (x : Nat) : cpioAlignOffset x % 4 = 0 := by
  rw [cpioAlignOffset_eq]
  omega

/-- How many bytes of padding follow. -/
def padOf (n : Nat) : Nat := (4 - n % 4) % 4

/-! ### Pieces -/

theorem slice_append (pre x post : List UInt8) : slice (pre ++ (x ++ post)) pre.length x.length = x := by
  rw [slice, List.drop_left, List.take_left]

theorem slice_append_of {k : Nat} (hpre : pre.length = o) {x : List UInt8} (hx : x.length = k) :
    slice (pre ++ (x ++ post)) o k = x := by
  subst hpre hx
  exact slice_append pre x post

theorem drop_slice (A : List UInt8) (o n : Nat) : A.drop o = slice A o n ++ A.drop (o + n) := by
  rw [slice, ← List.drop_drop, List.take_append_drop]

structure RawEntry where
  header : List UInt8
  name : List UInt8
  pad : List UInt8
  data : List UInt8
  padding : List UInt8

def RawEntry.bytes (e : RawEntry) : List UInt8 :=
  e.header ++ (e.name ++ (e.pad ++ (e.data ++ e.padding)))

/-- A header whose sizes are those of what follows. -/
structure RawEntry.Fits (e : RawEntry) : Prop where
  header : e.header.length = cpioHeaderSize
  magic : e.header.take 6 = cpioNewcMagic
  name : e.name.length = headerNamesize e.header
  name_pos : 0 < e.name.length
  name_le : e.name.length ≤ 4096
  pad : e.pad.length = padOf (cpioHeaderSize + e.name.length)
  data : e.data.length = headerFilesize e.header
  padding : e.padding.length = padOf e.data.length

/-- The entry that `parseAt` makes of the pieces. -/
def RawEntry.parsed (e : RawEntry) : Parsed := .member (cString e.name []) (headerMode e.header) e.data

variable {e : RawEntry}

theorem RawEntry.length_bytes (e : RawEntry) : e.bytes.length =
    e.header.length + e.name.length + e.pad.length + e.data.length + e.padding.length := by
  simp only [RawEntry.bytes, List.length_append]
  omega

theorem hdrAt_append {header : List UInt8} (hpre : pre.length = o)
    (hh : header.length = cpioHeaderSize) : hdrAt (pre ++ (header ++ post)) o = header :=
  slice_append_of hpre hh

/-- Where a header and a name stand they are found. -/
theorem head_parts {header name : List UInt8} (hh : header.length = cpioHeaderSize)
    (hn : name.length = headerNamesize header) (hpre : pre.length = o)
    (hA : A = pre ++ (header ++ (name ++ post))) :
    hdrAt A o = header ∧ nameAt A o = name ∧ nameEnd A o = o + cpioHeaderSize + name.length := by
  have hheader : hdrAt A o = header := by
    rw [hA]
    exact hdrAt_append hpre hh
  refine ⟨hheader, ?_, by rw [nameEnd, hheader, hn]⟩
  have hpre' : (pre ++ header).length = o + cpioHeaderSize := by
    rw [List.length_append, hpre, hh]
  have hcut : A = (pre ++ header) ++ (name ++ post) := by
    rw [hA, List.append_assoc]
  rw [nameAt, hheader, hcut]
  exact slice_append_of hpre' hn

/-- Where an entry stands its parts are found. -/
theorem RawEntry.Fits.parts (h : e.Fits) (hpre : pre.length = o) (ho : o % 4 = 0)
    (hA : A = pre ++ (e.bytes ++ post)) (hlen : A.length < 2 ^ 32) :
    hdrAt A o = e.header ∧ nameAt A o = e.name ∧ nameEnd A o = o + cpioHeaderSize + e.name.length ∧
    slice A (dataStart A o) (headerFilesize e.header) = e.data ∧
    cpioAlignOffset (dataEnd A o) = o + e.bytes.length ∧ dataEnd A o ≤ A.length := by
  have hlen' := congrArg List.length hA
  rw [List.length_append, List.length_append, hpre, e.length_bytes, h.header, h.pad, h.padding] at hlen'
  have hcut : A = pre ++ (e.header ++ (e.name ++ (e.pad ++ (e.data ++ e.padding) ++ post))) := by
    rw [hA, RawEntry.bytes]
    simp only [List.append_assoc]
  obtain ⟨hheader, hname, hnend⟩ := head_parts h.header h.name hpre hcut
  have hstart : dataStart A o = o + cpioHeaderSize + e.name.length + e.pad.length := by
    rw [dataStart, hnend, h.pad]
    simp only [padOf] at hlen' ⊢
    rw [cpioAlignOffset_of_lt (by omega)]
    omega
  have hdata : slice A (dataStart A o) (headerFilesize e.header) = e.data := by
    have hpre' : (pre ++ (e.header ++ (e.name ++ e.pad))).length = dataStart A o := by
      simp only [List.length_append, hpre, h.header, hstart]
      omega
    have hcut' : A = (pre ++ (e.header ++ (e.name ++ e.pad))) ++ (e.data ++ (e.padding ++ post)) := by
      rw [hA, RawEntry.bytes]
      simp only [List.append_assoc]
    calc slice A (dataStart A o) (headerFilesize e.header)
        = slice ((pre ++ (e.header ++ (e.name ++ e.pad))) ++ (e.data ++ (e.padding ++ post)))
            (dataStart A o) (headerFilesize e.header) := by rw [← hcut']
      _ = e.data := slice_append_of hpre' h.data
  have hend : dataEnd A o = o + cpioHeaderSize + e.name.length + e.pad.length + e.data.length := by
    rw [dataEnd, hstart, hheader, h.data]
  refine ⟨hheader, hname, hnend, hdata, ?_, ?_⟩
  · rw [hend, e.length_bytes, h.header, h.pad, h.padding]
    simp only [padOf] at hlen' ⊢
    rw [cpioAlignOffset_of_lt (by omega)]
    omega
  · rw [hend, h.pad]
    omega

/-- An entry is read where it stands. -/
theorem RawEntry.Fits.parseAt (h : e.Fits) (hpre : pre.length = o) (ho : o % 4 = 0)
    (hA : A = pre ++ (e.bytes ++ post)) (hlen : A.length < 2 ^ 32) :
    Fs.parseAt A o = if strncmp (e.name.length - 1) e.name cpioTrailer.bytes = 0 then .trailer
      else e.parsed := by
  obtain ⟨h1, h2, h3, h4, -, h6⟩ := h.parts hpre ho hA hlen
  have hlen' := congrArg List.length hA
  rw [List.length_append, List.length_append, hpre, e.length_bytes, h.header] at hlen'
  rw [Fs.parseAt, if_neg (by omega), h1, if_neg (by simpa using h.magic), ← h.name,
    if_neg (not_or.mpr ⟨h.name_pos.ne', by have := h.name_le; omega⟩), if_neg (by omega), h2]
  split
  · rfl
  · rw [if_neg (by omega), h4]
    rfl

/-- The trailer is read where it stands; what follows its name does not matter. -/
theorem parseAt_trailer {header name : List UInt8} (hh : header.length = cpioHeaderSize)
    (hm : header.take 6 = cpioNewcMagic) (hn : name.length = headerNamesize header)
    (hpos : 0 < name.length) (hle : name.length ≤ 4096)
    (hcmp : strncmp (name.length - 1) name cpioTrailer.bytes = 0) (hpre : pre.length = o)
    (hA : A = pre ++ (header ++ (name ++ post))) : parseAt A o = .trailer := by
  have hlen := congrArg List.length hA
  simp only [List.length_append, hpre, hh] at hlen
  obtain ⟨hheader, hname, hnend⟩ := head_parts hh hn hpre hA
  rw [parseAt, if_neg (by omega), hheader, if_neg (by simpa using hm), ← hn,
    if_neg (not_or.mpr ⟨hpos.ne', by omega⟩), if_neg (by omega), hname, if_pos hcmp]

/-- What `parseAt` has read of an entry it goes past. -/
structure Read (A : List UInt8) (o : Nat) : Prop where
  header : o + cpioHeaderSize ≤ A.length
  magic : (hdrAt A o).take 6 = cpioNewcMagic
  size_pos : headerNamesize (hdrAt A o) ≠ 0
  size_le : headerNamesize (hdrAt A o) ≤ 4096
  name : nameEnd A o ≤ A.length

theorem parseAt_read (h : parseAt A o ≠ .bad) : Read A o := by
  rw [parseAt] at h
  split at h
  · exact absurd rfl h
  split at h
  · exact absurd rfl h
  split at h
  · exact absurd rfl h
  split at h
  · exact absurd rfl h
  · next h1 h2 h3 h4 =>
    rw [not_or] at h3
    exact ⟨not_lt.mp h1, by simpa using h2, h3.1, not_lt.mp h3.2, not_lt.mp h4⟩

theorem parseAt_of_read (h : Read A o) : parseAt A o =
    if strncmp (headerNamesize (hdrAt A o) - 1) (nameAt A o) cpioTrailer.bytes = 0 then .trailer
    else if A.length < dataEnd A o then .bad
    else .member (cString (nameAt A o) []) (headerMode (hdrAt A o))
      (slice A (dataStart A o) (headerFilesize (hdrAt A o))) := by
  have hsz : ¬ (headerNamesize (hdrAt A o) = 0 ∨ 4096 < headerNamesize (hdrAt A o)) :=
    not_or.mpr ⟨h.size_pos, not_lt.mpr h.size_le⟩
  rw [parseAt, if_neg (not_lt.mpr h.header), if_neg (by simpa using h.magic), if_neg hsz,
    if_neg (not_lt.mpr h.name)]

theorem parseAt_trailer_iff (h : Read A o) : parseAt A o = .trailer ↔
    strncmp (headerNamesize (hdrAt A o) - 1) (nameAt A o) cpioTrailer.bytes = 0 := by
  rw [parseAt_of_read h]
  constructor
  · intro ht
    split at ht
    · assumption
    · split at ht <;> cases ht
  · intro hc
    rw [if_pos hc]

theorem parseAt_member (h : parseAt A o = .member name mode data) :
    dataEnd A o ≤ A.length ∧ name = cString (nameAt A o) [] ∧ mode = headerMode (hdrAt A o) ∧
    data = slice A (dataStart A o) (headerFilesize (hdrAt A o)) := by
  rw [parseAt_of_read (parseAt_read (by rw [h]; simp))] at h
  split at h
  · cases h
  split at h
  · cases h
  · next hd =>
    injection h with h1 h2 h3
    exact ⟨not_lt.mp hd, h1.symm, h2.symm, h3.symm⟩

/-- An entry was read and its padding is there: its pieces stand there. -/
theorem Read.raw (hr : Read A o) (ho : o % 4 = 0) (hend : dataEnd A o ≤ A.length)
    (hname : nameEnd A o + 3 < 2 ^ 32) (hdata : dataEnd A o + 3 < 2 ^ 32)
    (hnext : cpioAlignOffset (dataEnd A o) ≤ A.length) :
    ∃ e : RawEntry, e.Fits ∧ A.drop o = e.bytes ++ A.drop (cpioAlignOffset (dataEnd A o)) ∧
      e.header = hdrAt A o ∧ e.name = nameAt A o ∧
      dataStart A o = o + (cpioHeaderSize + e.name.length + e.pad.length) ∧
      cpioAlignOffset (dataEnd A o) = o + e.bytes.length := by
  have hhl : (hdrAt A o).length = cpioHeaderSize := length_slice hr.header
  have hnl : (nameAt A o).length = headerNamesize (hdrAt A o) := length_slice hr.name
  have hdl : (slice A (dataStart A o) (headerFilesize (hdrAt A o))).length =
      headerFilesize (hdrAt A o) := length_slice hend
  have hne := hr.name
  have hstart : dataStart A o = (nameEnd A o + 3) / 4 * 4 := cpioAlignOffset_of_lt (by omega)
  have hstop : cpioAlignOffset (dataEnd A o) = (dataEnd A o + 3) / 4 * 4 :=
    cpioAlignOffset_of_lt (by omega)
  have hde : dataEnd A o = dataStart A o + headerFilesize (hdrAt A o) := rfl
  have hnd : nameEnd A o = o + cpioHeaderSize + headerNamesize (hdrAt A o) := rfl
  rw [hstop] at hnext ⊢
  obtain ⟨k, hk⟩ : ∃ k, dataStart A o = nameEnd A o + k := ⟨dataStart A o - nameEnd A o, by omega⟩
  obtain ⟨l, hl⟩ : ∃ l, (dataEnd A o + 3) / 4 * 4 = dataEnd A o + l :=
    ⟨(dataEnd A o + 3) / 4 * 4 - dataEnd A o, by omega⟩
  have hkl : (slice A (nameEnd A o) k).length = k := length_slice (by omega)
  have hll : (slice A (dataEnd A o) l).length = l := length_slice (by omega)
  refine ⟨⟨hdrAt A o, nameAt A o, slice A (nameEnd A o) k,
    slice A (dataStart A o) (headerFilesize (hdrAt A o)), slice A (dataEnd A o) l⟩,
    ⟨hhl, hr.magic, hnl, ?_, ?_, ?_, hdl, ?_⟩, ?_, rfl, rfl, ?_, ?_⟩
  · rw [hnl]
    exact Nat.pos_of_ne_zero hr.size_pos
  · rw [hnl]
    exact hr.size_le
  · rw [hkl, hnl, padOf]
    omega
  · rw [hll, hdl, padOf]
    omega
  · rw [hl, RawEntry.bytes]
    simp only [List.append_assoc]
    rw [← drop_slice, hde, ← drop_slice, hk, ← drop_slice, nameEnd, nameAt, ← drop_slice, hdrAt,
      ← drop_slice]
  · rw [hnl, hkl]
    omega
  · rw [RawEntry.length_bytes, hhl, hnl, hkl, hdl, hll]
    omega

end TypeOS.Fs
