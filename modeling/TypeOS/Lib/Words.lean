import TypeOS.Lib.Bytes

/-! The bytes of an array of 64 bit words.

    A processor that stores the low byte first sees the words of a page as bytes and the other way
    round. `withBytes` is an array some bytes of which were overwritten. -/

namespace TypeOS.Bytes

variable {m : Nat} [NeZero m] {w : Fin m → BitVec 64} {mem : Memory} {bytes : List UInt8} {a x k : Nat}

/-- The byte at a place of the array. -/
def byteOf (w : Fin m → BitVec 64) (a : Nat) : UInt8 :=
  UInt8.ofNat ((w (Fin.ofNat m (a / 8))).toNat / 256 ^ (a % 8))

/-- The array that holds these bytes. -/
def ofBytes (mem : Memory) : Fin m → BitVec 64 := fun i => BitVec.ofNat 64 (word mem (8 * i))

/-- The array with these bytes from a place on. -/
def withBytes (w : Fin m → BitVec 64) (a : Nat) (bytes : List UInt8) : Fin m → BitVec 64 :=
  ofBytes (store (byteOf w) a bytes)

theorem leNat_cons (b : UInt8) (bytes : List UInt8) :
    leNat (b :: bytes) = b.toNat + 256 * leNat bytes := by
  rw [leNat, leNat, List.map_cons, Nat.ofDigits_cons]

theorem leNat_lt (bytes : List UInt8) : leNat bytes < 256 ^ bytes.length := by
  induction bytes with
  | nil => simp [leNat]
  | cons b bytes ih =>
    have hb : b.toNat < 256 := UInt8.toNat_lt b
    rw [leNat_cons, List.length_cons, Nat.pow_succ']
    omega

/-- The bytes of a number are the ones it was put together from. -/
theorem leNat_digit (hk : k < bytes.length) : UInt8.ofNat (leNat bytes / 256 ^ k) = bytes[k] := by
  induction bytes generalizing k with
  | nil => cases hk
  | cons b bytes ih =>
    have hb : b.toNat < 256 := UInt8.toNat_lt b
    rw [leNat_cons]
    cases k with
    | zero =>
      rw [Nat.pow_zero, Nat.div_one, List.getElem_cons_zero]
      refine UInt8.toNat_inj.mp ?_
      rw [UInt8.toNat_ofNat']
      omega
    | succ k =>
      have hdiv : (b.toNat + 256 * leNat bytes) / 256 = leNat bytes := by omega
      rw [Nat.pow_succ', ← Nat.div_div_eq_div_mul, hdiv, List.getElem_cons_succ]
      exact ih (Nat.lt_of_succ_lt_succ hk)

theorem word_lt (mem : Memory) (a : Nat) : word mem a < 2 ^ 64 := by
  have := leNat_lt (load mem a 8)
  rw [load, List.length_map, List.length_range] at this
  exact this

theorem byteOf_ofBytes (h : x < 8 * m) : byteOf (ofBytes mem : Fin m → BitVec 64) x = mem x := by
  have hlen : x % 8 < (load mem (8 * (x / 8)) 8).length := by
    rw [load, List.length_map, List.length_range]
    omega
  have hi : ((Fin.ofNat m (x / 8) : Fin m) : Nat) = x / 8 := Nat.mod_eq_of_lt (by omega)
  rw [byteOf, ofBytes, hi, BitVec.toNat_ofNat, Nat.mod_eq_of_lt (word_lt ..), word, leNat_digit hlen]
  simp only [load, List.getElem_map, List.getElem_range]
  rw [Nat.div_add_mod]

theorem byteOf_withBytes (h : x < 8 * m) :
    byteOf (withBytes w a bytes) x = store (byteOf w) a bytes x :=
  byteOf_ofBytes h

theorem leNat_zeros : ∀ n, leNat (List.replicate n 0) = 0
  | 0 => rfl
  | n + 1 => by rw [List.replicate_succ, leNat_cons, leNat_zeros n]; rfl

/-- An array that is overwritten with zeros is zero. -/
theorem withBytes_zeros (w : Fin m → BitVec 64) :
    withBytes w 0 (List.replicate (8 * m) 0) = fun _ => 0#64 := by
  funext i
  have hload : load (store (byteOf w) 0 (List.replicate (8 * m) 0)) (8 * i) 8 = List.replicate 8 0 := by
    refine List.ext_getElem (by simp) fun k hk _ => ?_
    have hlt := i.isLt
    simp only [length_load] at hk
    simp only [load, List.getElem_map, List.getElem_range, List.getElem_replicate]
    rw [← Nat.zero_add (8 * i + k), store_get (by rw [List.length_replicate]; omega),
      List.getElem_replicate]
  rw [withBytes, ofBytes, word, hload, leNat_zeros]

@[simp] theorem byteOf_zero (x : Nat) : byteOf (fun _ : Fin m => 0#64) x = 0 := by
  simp [byteOf]

end TypeOS.Bytes
