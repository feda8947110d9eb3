import TypeOS.Layout
import TypeOS.Lib.Bytes
import TypeOS.Fs.Text

/-! What a system call copies from the memory of its caller.

    A call reads the bytes at the addresses that its caller passes, after `user_ptr_ok` has looked at
    the address alone: whether a page is mapped there is the caller's affair. A string is copied byte
    by byte, a list of strings by its table of pointers up to the first NULL. -/

namespace TypeOS.Sys

open Fs Bytes

/-- `E_NOENT`. -/
abbrev eNoent : Int := -2

/-- `E_FAULT`. -/
abbrev eFault : Int := -14

/-- `user_ptr_ok`. -/
def userPtrOk (addr len : Nat) : Bool :=
  decide (userAddrMin ≤ addr) && decide (addr ≤ userAddrMax) && decide (len ≤ userAddrMax - addr)

/-- `copy_from_user`. -/
def copyFromUser (mem : Memory) (uaddr len : Nat) : Option (List UInt8) :=
  if userPtrOk uaddr len then some (load mem uaddr len) else none

/-- The loop of `copy_str_from_user`, with so many turns left. -/
def copyStrLoop (mem : Memory) : Nat → Nat → Option Text
  | 0, _ => none
  | n + 1, uaddr =>
    if userPtrOk uaddr 1 then
      if h : mem uaddr ≠ 0 then (copyStrLoop mem n (u64 (uaddr + 1))).map (⟨mem uaddr, h⟩ :: ·)
      else some []
    else none

/-- `copy_str_from_user`: there is an answer when the NUL comes before the last byte of `kbuf`. -/
def copyStrFromUser (mem : Memory) (uaddr kbufLen : Nat) : Option Text :=
  copyStrLoop mem (kbufLen - 1) uaddr

/-- The text lies at this address, with its NUL, where `user_ptr_ok` accepts it. -/
structure StrAt (mem : Memory) (addr : Nat) (t : Text) : Prop where
  low : userAddrMin ≤ addr
  high : addr + t.length + 1 ≤ userAddrMax
  chars : ∀ i (h : i < t.length), mem (addr + i) = (t[i]).1
  nul : mem (addr + t.length) = 0

/-- A table of pointers to the strings, with a NULL behind them. -/
def ListAt (mem : Memory) : Nat → List Text → Prop
  | a, [] => userPtrOk a 8 = true ∧ word mem a = 0
  | a, t :: ts => userPtrOk a 8 = true ∧ word mem a ≠ 0 ∧ StrAt mem (word mem a) t ∧ ListAt mem (a + 8) ts

variable {mem : Memory} {addr : Nat} {t u : Text}

theorem userPtrOk_iff (addr len : Nat) : userPtrOk addr len = true ↔
    userAddrMin ≤ addr ∧ addr + len ≤ userAddrMax := by
  simp only [userPtrOk, Bool.and_eq_true, decide_eq_true_eq]
  omega

theorem StrAt.tail {c : Ch} (h : StrAt mem addr (c :: t)) : StrAt mem (addr + 1) t where
  low := h.low.trans (Nat.le_succ _)
  high := by have := h.high; rw [List.length_cons] at this; omega
  chars := fun i hi => by
    have := h.chars (i + 1) (by simpa using hi)
    rwa [List.getElem_cons_succ, ← Nat.add_assoc, Nat.add_right_comm] at this
  nul := by
    have := h.nul
    rwa [List.length_cons, ← Nat.add_assoc, Nat.add_right_comm] at this

/-- There is one string at an address. -/
theorem StrAt.unique (h : StrAt mem addr t) (h' : StrAt mem addr u) : t = u := by
  induction t generalizing addr u with
  | nil =>
    cases u with
    | nil => rfl
    | cons d u => exact absurd ((h'.chars 0 (Nat.succ_pos _)).symm.trans h.nul) d.2
  | cons c t ih =>
    have hc : mem addr = c.1 := h.chars 0 (Nat.succ_pos _)
    cases u with
    | nil => exact absurd (hc.symm.trans h'.nul) c.2
    | cons d u =>
      have hd : mem addr = d.1 := h'.chars 0 (Nat.succ_pos _)
      rw [ih h.tail h'.tail, Subtype.ext (hc.symm.trans hd)]

theorem ListAt.unique {ts us : List Text} (h : ListAt mem addr ts) (h' : ListAt mem addr us) :
    ts = us := by
  induction ts generalizing addr us with
  | nil =>
    cases us with
    | nil => rfl
    | cons u us => exact absurd h.2 h'.2.1
  | cons t ts ih =>
    obtain ⟨-, hne, hs, hts⟩ := h
    cases us with
    | nil => exact absurd h'.2 hne
    | cons u us =>
      obtain ⟨-, -, hs', hus⟩ := h'
      rw [hs.unique hs', ih hts hus]

/-- A string that ends in time is copied whole, and no other string is. -/
theorem copyStrLoop_eq (n : Nat) (h : StrAt mem addr t) :
    copyStrLoop mem n addr = if t.length < n then some t else none := by
  induction n generalizing addr t with
  | zero => rfl
  | succ n ih =>
    have hok : userPtrOk addr 1 = true := by
      have := h.high
      exact (userPtrOk_iff addr 1).mpr ⟨h.low, by omega⟩
    rw [copyStrLoop, if_pos hok]
    cases t with
    | nil =>
      have h0 : ¬ mem addr ≠ 0 := not_not.mpr h.nul
      rw [dif_neg h0]
      rfl
    | cons c t =>
      have hc : mem addr = c.1 := h.chars 0 (Nat.succ_pos _)
      have hne : mem addr ≠ 0 := hc ▸ c.2
      have hlt : addr + 1 < 2 ^ 64 := by
        have := h.high
        simp only [userAddrMax] at this
        omega
      have hcc : (⟨mem addr, hne⟩ : Ch) = c := Subtype.ext hc
      rw [dif_pos hne, u64_of_lt hlt, ih h.tail, hcc, List.length_cons]
      by_cases hn : t.length < n
      · rw [if_pos hn, if_pos (Nat.succ_lt_succ hn)]
        rfl
      · rw [if_neg hn, if_neg (by omega)]
        rfl

theorem StrAt.cons {c : Ch} (hok : userPtrOk addr 1 = true) (hc : mem addr = c.1)
    (h : StrAt mem (addr + 1) t) : StrAt mem addr (c :: t) where
  low := ((userPtrOk_iff addr 1).mp hok).1
  high := by have := h.high; rw [List.length_cons]; omega
  chars := fun i hi => by
    cases i with
    | zero => exact hc
    | succ i =>
      have := h.chars i (by simpa using hi)
      rwa [List.getElem_cons_succ, Nat.add_comm i, ← Nat.add_assoc]
  nul := by
    have := h.nul
    rwa [List.length_cons, Nat.add_comm t.length, ← Nat.add_assoc]

/-- Only a string is copied. -/
theorem copyStrLoop_strAt (n : Nat) (h : copyStrLoop mem n addr = some t) : StrAt mem addr t := by
  induction n generalizing addr t with
  | zero => exact absurd h nofun
  | succ n ih =>
    rw [copyStrLoop] at h
    split at h
    · next hok =>
      have hrange := (userPtrOk_iff addr 1).mp hok
      split at h
      · next hne =>
        have hlt : addr + 1 < 2 ^ 64 := by simp only [userAddrMax] at hrange; omega
        rw [u64_of_lt hlt] at h
        obtain ⟨u, hu, rfl⟩ := Option.map_eq_some_iff.mp h
        exact (ih hu).cons hok rfl
      · next h0 =>
        obtain rfl := Option.some.inj h
        exact ⟨hrange.1, hrange.2, nofun, not_not.mp h0⟩
    · cases h

/-- The bytes of a string and its NUL. -/
theorem StrAt.load (h : StrAt mem addr t) : Bytes.load mem addr (t.length + 1) = t.bytes ++ [0] := by
  refine List.ext_getElem (by simp [Text.bytes]) fun i hi hi' => ?_
  rw [length_load] at hi
  rcases Nat.lt_succ_iff_lt_or_eq.mp hi with hlt | rfl
  · rw [List.getElem_append_left (by simpa [Text.bytes] using hlt)]
    simp [Bytes.load, Text.bytes, h.chars i hlt]
  · simp [Bytes.load, Text.bytes, h.nul]

theorem copyStrFromUser_eq (kbufLen : Nat) (h : StrAt mem addr t) :
    copyStrFromUser mem addr kbufLen = if t.length + 1 < kbufLen then some t else none := by
  rw [copyStrFromUser, copyStrLoop_eq _ h]
  refine if_congr ?_ rfl rfl
  omega

/-- A string that was stored. -/
theorem strAt_store (h : userAddrMin ≤ addr) (ht : addr + t.length + 1 ≤ userAddrMax) :
    StrAt (store mem addr (t.bytes ++ [0])) addr t where
  low := h
  high := ht
  chars := fun i hi => by
    have hb : i < (t.bytes ++ [0]).length := by simp [Text.bytes]; omega
    rw [store_get hb, List.getElem_append_left (by simpa [Text.bytes] using hi)]
    simp [Text.bytes]
  nul := by
    have hb : t.length < (t.bytes ++ [0]).length := by simp [Text.bytes]
    rw [store_get hb]
    simp [Text.bytes]

end TypeOS.Sys
