import TypeOS.Fs.Namespace
import TypeOS.Fs.Cpio

/-! What an archive says, and what unpacking it does to the paths.

    `parseAt` reads the entry at an offset off the bytes alone, and `Namespace.unpack` enters one after
    the other in a map from paths. With memory available both unpackers follow it, turn by turn; the
    one for physical memory follows it always. -/

namespace TypeOS.Fs

variable {s : Vfs} {r p : Ptr} {heap : Heap} {H : Set Ptr} {V : Namespace} {phys : Phys} {mem : Bytes}
  {A : List UInt8} {o base size : Nat} {behind : Nat → Text} {path : Text} {mode : BitVec 32}
  {data : List UInt8}

/-- So many bytes of a list from an offset on. -/
def slice (A : List UInt8) (o n : Nat) : List UInt8 := (A.drop o).take n

/-- The header at an offset, and where its name and its data lie. -/
def hdrAt (A : List UInt8) (o : Nat) : List UInt8 := slice A o cpioHeaderSize

def nameAt (A : List UInt8) (o : Nat) : List UInt8 :=
  slice A (o + cpioHeaderSize) (headerNamesize (hdrAt A o))

def nameEnd (A : List UInt8) (o : Nat) : Nat := o + cpioHeaderSize + headerNamesize (hdrAt A o)

def dataStart (A : List UInt8) (o : Nat) : Nat := cpioAlignOffset (nameEnd A o)

def dataEnd (A : List UInt8) (o : Nat) : Nat := dataStart A o + headerFilesize (hdrAt A o)

/-- What is at an offset of an archive. -/
inductive Parsed
  | bad
  | trailer
  | member (name : Text) (mode : BitVec 32) (data : List UInt8)

def parseAt (A : List UInt8) (o : Nat) : Parsed :=
  if A.length < o + cpioHeaderSize then .bad
  else if (hdrAt A o).take 6 ≠ cpioNewcMagic then .bad
  else if headerNamesize (hdrAt A o) = 0 ∨ 4096 < headerNamesize (hdrAt A o) then .bad
  else if A.length < nameEnd A o then .bad
  else if strncmp (headerNamesize (hdrAt A o) - 1) (nameAt A o) cpioTrailer.bytes = 0 then .trailer
  else if A.length < dataEnd A o then .bad
  else .member (cString (nameAt A o) []) (headerMode (hdrAt A o))
    (slice A (dataStart A o) (headerFilesize (hdrAt A o)))

namespace Namespace

/-- An entry is installed under a path. -/
def install (V : Namespace) (path : Text) (mode : BitVec 32) (data : List UInt8) : Int × Namespace :=
  if mode &&& sIfmt = sIfdir then V.mkdir path mode
  else if mode &&& sIfmt = sIflnk then
    if data = [] then (-1, V) else V.symlink (cString data []) path
  else if mode &&& sIfmt = sIfreg ∨ mode &&& sIfmt = 0#32 then
    V.create path (if mode &&& sIfmt = 0#32 then mode ||| sIfreg else mode) data
  else (0, V)

/-- An entry is unpacked; one with no path is passed over. -/
def unpackMember (V : Namespace) (name : Text) (mode : BitVec 32) (data : List UInt8) :
    Int × Namespace :=
  match normalized name with
  | none => (0, V)
  | some path => V.install path mode data

/-- A turn: the answer, or the offset to go on at. -/
def turn (A : List UInt8) (V : Namespace) (o : Nat) : Except Int Nat × Namespace :=
  match parseAt A o with
  | .bad => (.error (-1), V)
  | .trailer => (.error 0, V)
  | .member name mode data =>
    if (V.unpackMember name mode data).1 = 0 then
      (.ok (cpioAlignOffset (dataEnd A o)), (V.unpackMember name mode data).2)
    else (.error (V.unpackMember name mode data).1, (V.unpackMember name mode data).2)

/-- An archive is unpacked from an offset on, in so many turns. -/
def unpack (A : List UInt8) : Nat → Nat → Namespace → Option Int × Namespace
  | 0, _, V => (none, V)
  | n + 1, o, V =>
    match V.turn A o with
    | (.error rc, V) => (some rc, V)
    | (.ok o, V) => unpack A n o V

end Namespace

/-- The offsets of entries that unpacking gets to, with the paths there are then. -/
inductive Visits (A : List UInt8) (V₀ : Namespace) : Nat → Namespace → Prop
  | start : Visits A V₀ 0 V₀
  | next {o o' : Nat} {V V' : Namespace} : Visits A V₀ o V → V.turn A o = (.ok o', V') →
    Visits A V₀ o' V'

/-! ### Bytes -/

@[simp] theorem length_bytesAt (mem : Bytes) (a n : Nat) : (bytesAt mem a n).length = n := by
  simp [bytesAt]

theorem length_slice (h : o + size ≤ A.length) : (slice A o size).length = size := by
  rw [slice, List.length_take, List.length_drop]
  omega

/-- A range of memory that holds an archive. -/
theorem bytesAt_slice {n : Nat} (hA : bytesAt mem base size = A) (h : o + n ≤ A.length) :
    bytesAt mem (base + o) n = slice A o n := by
  subst hA
  rw [length_bytesAt] at h
  refine List.ext_getElem ?_ fun i hi _ => ?_
  · rw [length_bytesAt, length_slice (by rwa [length_bytesAt])]
  · simp [bytesAt, slice, Nat.add_assoc]

theorem cString_behind {buf : List UInt8} (h : 0 ∈ buf) (t : Text) : cString buf t = cString buf [] := by
  induction buf with
  | nil => simp at h
  | cons b bs ih =>
    rw [cString, cString]
    split
    · rfl
    · next hb =>
      rw [ih]
      rcases List.mem_cons.mp h with h | h
      · exact absurd h.symm hb
      · exact h

/-! ### Installing an entry -/

theorem Mirrors.installPhys (h : Mirrors heap r H s V) {a : Nat} (hc : phys.copies a data.length = true)
    (hd : bytesAt phys.bytes a data.length = data) :
    (cpioInstallEntryPhys heap phys path mode a data.length s).1 = (V.install path mode data).1 ∧
    Mirrors heap r H (cpioInstallEntryPhys heap phys path mode a data.length s).2
      (V.install path mode data).2 := by
  have hcopy : pagingCopyFromPhys phys a data.length = some data := by
    rw [pagingCopyFromPhys, hc, if_pos rfl, hd]
  rw [cpioInstallEntryPhys, Namespace.install]
  split
  · exact h.mkdir
  split
  · rcases eq_or_ne data [] with rfl | hne
    · exact ⟨rfl, h⟩
    · have hlen : data.length ≠ 0 := by simpa using hne
      rw [if_neg hlen, if_neg hne]
      obtain ⟨p, s₁, hm, h₁, hp, -⟩ := h.alloc
      rw [hm]
      dsimp only
      rw [hcopy]
      obtain ⟨hrc, h₂⟩ := @Mirrors.symlink s₁ r heap V _ (cString data []) path h₁
      exact ⟨hrc, h₂.release hp⟩
  split
  · dsimp only
    split
    · obtain ⟨p, s₁, hm, h₁, hp, -⟩ := h.alloc
      rw [hm]
      dsimp only
      rw [hcopy]
      obtain ⟨hrc, h₂⟩ := @Mirrors.create s₁ r heap V _ path
        (if mode &&& sIfmt = 0#32 then mode ||| sIfreg else mode) data h₁
      exact ⟨hrc, h₂.release hp⟩
    · next hpos =>
      obtain rfl : data = [] := by simpa using hpos
      exact h.create
  · exact ⟨rfl, h⟩

theorem Mirrors.installEntry (h : Mirrors heap r H s V) {a : Nat}
    (hd : bytesAt mem a data.length = data) :
    (cpioInstallEntry heap mem path mode a data.length s).1 = (V.install path mode data).1 ∧
    Mirrors heap r H (cpioInstallEntry heap mem path mode a data.length s).2.2
      (V.install path mode data).2 := by
  rw [cpioInstallEntry, Namespace.install]
  split
  · exact h.mkdir
  split
  · rcases eq_or_ne data [] with rfl | hne
    · exact ⟨rfl, h⟩
    · have hlen : data.length ≠ 0 := by simpa using hne
      rw [if_neg hlen, if_neg hne]
      obtain ⟨p, s₁, hm, h₁, hp, -⟩ := h.alloc
      rw [hm]
      dsimp only
      rw [hd]
      obtain ⟨hrc, h₂⟩ := @Mirrors.symlink s₁ r heap V _ (cString data []) path h₁
      exact ⟨hrc, h₂.release hp⟩
  split
  · dsimp only
    rw [hd]
    exact h.create
  · exact ⟨rfl, h⟩

/-! ### Turns -/

/-- A turn of an unpacker, whose offsets count from `base`, does what a turn on paths does. -/
def Follows (heap : Heap) (r : Ptr) (base : Nat) : Turn → Except Int Nat × Namespace → Prop
  | .ends rc s, (.error rc', V) => rc = rc' ∧ Mirrors heap r ∅ s V
  | .next o s, (.ok o', V) => o = base + o' ∧ Mirrors heap r ∅ s V
  | _, _ => False

/-- Of two blocks the one that was there first is given back. -/
theorem Mirrors.release_first {p block : Ptr} (h : Mirrors heap r (insert p (insert block ∅)) s V)
    (hne : p ≠ block) : Mirrors heap r {p} (kfree block s) V := by
  have hset : insert p (insert block (∅ : Set Ptr)) = insert block {p} := by
    rw [Set.insert_comm, insert_empty_eq]
  rw [hset] at h
  exact h.release (by rw [Set.mem_singleton_iff]; exact hne.symm)

/-- What a turn of `cpio_populate_vfs_phys` does with a member, whose name is in `block`. -/
def installPhysTurn (heap : Heap) (phys : Phys) (A : List UInt8) (base o : Nat) (block : Ptr) (s : Vfs) :
    Turn :=
  match cpioNormalizePath heap (cString (nameAt A o) []) s with
  | (none, s) => .next (cpioAlignOffset (dataEnd A o)) (kfree block s)
  | (some (p, path), s) =>
    match cpioInstallEntryPhys heap phys path (headerMode (hdrAt A o)) (base + dataStart A o)
      (headerFilesize (hdrAt A o)) (kfree block s) with
    | (0, s) => .next (cpioAlignOffset (dataEnd A o)) (kfree p s)
    | (rc, s) => .ends rc (kfree p s)

theorem installPhysTurn_follows {block : Ptr} (h : Mirrors heap r (insert block ∅) s V)
    (hb : block ∉ (∅ : Set Ptr)) (hc : phys.Copies base size)
    (hA : bytesAt phys.bytes base size = A) (hd : dataEnd A o ≤ A.length) :
    let done := V.unpackMember (cString (nameAt A o) []) (headerMode (hdrAt A o))
      (slice A (dataStart A o) (headerFilesize (hdrAt A o)))
    Follows heap r 0 (installPhysTurn heap phys A base o block s)
      (if done.1 = 0 then (.ok (cpioAlignOffset (dataEnd A o)), done.2) else (.error done.1, done.2)) := by
  have hlen : (slice A (dataStart A o) (headerFilesize (hdrAt A o))).length =
      headerFilesize (hdrAt A o) := length_slice hd
  have hbytes : bytesAt phys.bytes (base + dataStart A o) (headerFilesize (hdrAt A o)) =
      slice A (dataStart A o) (headerFilesize (hdrAt A o)) := bytesAt_slice hA hd
  have hcopy : phys.copies (base + dataStart A o) (headerFilesize (hdrAt A o)) = true := by
    have hsize : A.length = size := by rw [← hA, length_bytesAt]
    refine hc _ _ (Nat.le_add_right ..) ?_
    rw [dataEnd] at hd
    omega
  rw [installPhysTurn, cpioNormalizePath]
  dsimp only
  rw [Namespace.unpackMember]
  cases hn : normalized (cString (nameAt A o) []) with
  | none =>
    dsimp only
    rw [if_pos rfl]
    exact ⟨(Nat.zero_add _).symm, h.release hb⟩
  | some path =>
    obtain ⟨p, s₁, hm, h₁, hfresh, -⟩ := h.alloc
    have h₂ := h₁.release_first fun hc => hfresh (hc ▸ Set.mem_insert ..)
    simp only [hm]
    obtain ⟨hrc, h₃⟩ := @Mirrors.installPhys _ r heap _ V phys path
      (headerMode (hdrAt A o)) _ h₂ (base + dataStart A o) (by rw [hlen]; exact hcopy)
      (by rw [hlen]; exact hbytes)
    rw [hlen] at hrc h₃
    generalize cpioInstallEntryPhys heap phys path (headerMode (hdrAt A o))
      (base + dataStart A o) (headerFilesize (hdrAt A o)) (kfree block s₁) = res at hrc h₃ ⊢
    obtain ⟨rc, s₂⟩ := res
    have h₄ : Mirrors heap r ∅ (kfree p s₂) (V.install path (headerMode (hdrAt A o))
        (slice A (dataStart A o) (headerFilesize (hdrAt A o)))).2 := by
      refine Mirrors.release (p := p) ?_ (by simp)
      rw [insert_empty_eq]
      exact h₃
    dsimp only at hrc ⊢
    rw [← hrc]
    split
    · next heq =>
      obtain ⟨rfl, rfl⟩ := Prod.mk.inj heq
      rw [if_pos rfl]
      exact ⟨(Nat.zero_add _).symm, h₄⟩
    · next hne heq =>
      obtain ⟨rfl, rfl⟩ := Prod.mk.inj heq
      rw [if_neg hne]
      exact ⟨rfl, h₄⟩

/-- A turn through physical addresses. -/
theorem populatePhysTurn_follows (h : Mirrors heap r ∅ s V) (hc : phys.Copies base size)
    (hA : bytesAt phys.bytes base size = A)
    (hnul : o + cpioHeaderSize ≤ A.length → (hdrAt A o).take 6 = cpioNewcMagic →
      nameEnd A o ≤ A.length → headerNamesize (hdrAt A o) ≠ 0 → 0 ∈ nameAt A o) :
    Follows heap r 0 (populatePhysTurn heap phys behind base size o s) (V.turn A o) := by
  have hsize : A.length = size := by rw [← hA, length_bytesAt]
  rw [populatePhysTurn, Namespace.turn, parseAt, hsize]
  split
  · exact ⟨rfl, h⟩
  · next hfits =>
    have hhdr : pagingCopyFromPhys phys (base + o) cpioHeaderSize = some (hdrAt A o) := by
      rw [pagingCopyFromPhys, hc _ _ (by omega) (by omega), if_pos rfl, bytesAt_slice hA (by omega)]
      rfl
    simp only [hhdr]
    split
    · exact ⟨rfl, h⟩
    · next hmagic =>
      split
      · exact ⟨rfl, h⟩
      · next hsz =>
        change Follows heap r 0 (if size < nameEnd A o then _ else _) _
        split
        · exact ⟨rfl, h⟩
        · next hin =>
          rw [not_or] at hsz
          obtain ⟨block, s₁, hm, h₁, hb, -⟩ := h.alloc
          have hname : pagingCopyFromPhys phys (base + (o + cpioHeaderSize))
              (headerNamesize (hdrAt A o)) = some (nameAt A o) := by
            rw [nameEnd] at hin
            rw [pagingCopyFromPhys, hc _ _ (by omega) (by omega), if_pos rfl,
              bytesAt_slice hA (by rw [hsize]; exact not_lt.mp hin)]
            rfl
          have h₂ := h₁.release hb
          simp only [hm, hname]
          split
          · exact ⟨rfl, h₂⟩
          · change Follows heap r 0 (if size < dataEnd A o then _ else _) _
            split
            · exact ⟨rfl, h₂⟩
            · next hdata =>
              have hdata' : dataEnd A o ≤ A.length := by omega
              rw [cString_behind (hnul (by omega) (by simpa using hmagic) (by omega) hsz.1)]
              exact installPhysTurn_follows h₁ hb hc hA hdata'

end TypeOS.Fs
