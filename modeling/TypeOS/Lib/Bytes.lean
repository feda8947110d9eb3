import Mathlib.Tactic
import Mathlib.Data.List.GetD

/-! A memory of bytes, and numbers in it with the low byte first.

    `load` reads a run of bytes and `store` writes one. A read sees the bytes of the last store that
    covers it (`load_store`) and nothing of a store elsewhere (`store_of_lt`, `store_of_ge`). -/

namespace TypeOS.Bytes

/-- The bytes at each address. -/
abbrev Memory : Type := Nat → UInt8

/-- The n bytes from an address on. -/
def load (mem : Memory) (a n : Nat) : List UInt8 := (List.range n).map fun i => mem (a + i)

/-- The memory with these bytes from an address on. -/
def store (mem : Memory) (a : Nat) (bytes : List UInt8) : Memory := fun x =>
  if a ≤ x ∧ x < a + bytes.length then bytes.getD (x - a) 0 else mem x

/-- The number that the bytes stand for, low byte first. -/
def leNat (bytes : List UInt8) : Nat := Nat.ofDigits 256 (bytes.map UInt8.toNat)

/-- The n low bytes of a number, low byte first. -/
def leBytes : Nat → Nat → List UInt8
  | 0, _ => []
  | n + 1, v => UInt8.ofNat v :: leBytes n (v / 256)

/-- The 64 bit number at an address. -/
def word (mem : Memory) (a : Nat) : Nat := leNat (load mem a 8)

variable {mem mem' : Memory} {a : Nat} {bytes : List UInt8}

@[simp] theorem length_leBytes (n v : Nat) : (leBytes n v).length = n := by
  induction n generalizing v with
  | zero => rfl
  | succ n ih => rw [leBytes, List.length_cons, ih]

/-- What n bytes hold of a number. -/
theorem leNat_leBytes (n v : Nat) : leNat (leBytes n v) = v % 256 ^ n := by
  induction n generalizing v with
  | zero => simp [leBytes, leNat, Nat.mod_one]
  | succ n ih =>
    have htail := ih (v / 256)
    rw [leNat] at htail
    rw [leBytes, leNat, List.map_cons, Nat.ofDigits_cons, htail, UInt8.toNat_ofNat',
      Nat.pow_succ' (m := 256), Nat.mod_mul (a := 256)]

@[simp] theorem store_nil (mem : Memory) (a : Nat) : store mem a [] = mem := by
  funext x
  rw [store, if_neg]
  simp only [List.length_nil]
  omega

theorem store_get {i : Nat} (h : i < bytes.length) : store mem a bytes (a + i) = bytes[i] := by
  rw [store, if_pos ⟨Nat.le_add_right .., by omega⟩, Nat.add_sub_cancel_left]
  simp [List.getD, h]

theorem store_of_lt {x : Nat} (h : x < a) : store mem a bytes x = mem x :=
  if_neg fun hx => absurd hx.1 (by omega)

theorem store_of_ge {x : Nat} (h : a + bytes.length ≤ x) : store mem a bytes x = mem x :=
  if_neg fun hx => absurd hx.2 (by omega)

/-- What a store leaves at an address depends on what was there only. -/
theorem store_at {x : Nat} (h : mem' x = mem x) : store mem' a bytes x = store mem a bytes x := by
  rw [store, store, h]

/-- Two stores, one after the other, are one. -/
theorem store_append (mem : Memory) (a : Nat) (bytes bytes' : List UInt8) :
    store (store mem a bytes) (a + bytes.length) bytes' = store mem a (bytes ++ bytes') := by
  funext x
  simp only [store, List.length_append]
  by_cases hlo : a ≤ x ∧ x < a + bytes.length
  · rw [if_neg (by omega), if_pos hlo, if_pos ⟨hlo.1, by omega⟩, List.getD_append _ _ _ _ (by omega)]
  · rw [if_neg hlo]
    by_cases hhi : a + bytes.length ≤ x ∧ x < a + bytes.length + bytes'.length
    · rw [if_pos hhi, if_pos ⟨by omega, by omega⟩, List.getD_append_right _ _ _ _ (by omega)]
      congr 1
      omega
    · rw [if_neg hhi, if_neg (by omega)]

/-- A read of what was stored. -/
theorem load_store (mem : Memory) (a : Nat) (bytes : List UInt8) :
    load (store mem a bytes) a bytes.length = bytes := by
  refine List.ext_getElem (by simp [load]) fun i h _ => ?_
  have hi : i < bytes.length := by simpa [load] using h
  simp only [load, List.getElem_map, List.getElem_range]
  exact store_get hi

theorem load_congr {n : Nat} (h : ∀ i < n, mem' (a + i) = mem (a + i)) : load mem' a n = load mem a n :=
  List.map_congr_left fun i hi => h i (List.mem_range.mp hi)

/-- A run of bytes is two runs. -/
theorem load_add (mem : Memory) (a m n : Nat) : load mem a (m + n) = load mem a m ++ load mem (a + m) n := by
  rw [load, load, load, List.range_add, List.map_append, List.map_map]
  congr 1
  exact List.map_congr_left fun i _ => by rw [Function.comp_apply, Nat.add_assoc]

@[simp] theorem length_load (mem : Memory) (a n : Nat) : (load mem a n).length = n := by
  rw [load, List.length_map, List.length_range]

/-- A part of the bytes of a run. -/
theorem load_part {x y z : List UInt8} {k n : Nat}
    (h : load mem a (x.length + (y.length + z.length)) = x ++ (y ++ z)) (hk : k = x.length)
    (hn : n = y.length) : load mem (a + k) n = y := by
  subst hk hn
  rw [load_add, load_add] at h
  exact (List.append_inj (List.append_inj h (length_load ..)).2 (length_load ..)).1

theorem word_congr (h : ∀ i < 8, mem' (a + i) = mem (a + i)) : word mem' a = word mem a := by
  rw [word, word, load_congr h]

/-- A word that was stored. -/
theorem word_store {w : Nat} (hw : w < 2 ^ 64) : word (store mem a (leBytes 8 w)) a = w := by
  have h := load_store mem a (leBytes 8 w)
  rw [length_leBytes] at h
  rw [word, h, leNat_leBytes]
  exact Nat.mod_eq_of_lt (by omega)

end TypeOS.Bytes
