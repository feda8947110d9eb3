import Mathlib.Tactic

/-! The digits of `kprintf` (`vga.c`): `u64_to_str`, `reverse_buf`, and the zeros of the precision.

    All of it happens in `kprintf_num_buf`; the indices that are stored to are kept, so that it can be
    said where they are. -/

namespace TypeOS.Console

/-- `kprintf_num_buf`, and the indices that were stored to, the last one first. -/
structure NumBuf where
  bytes : Nat → UInt8
  stores : List Nat

/-- `KPRINTF_NUM_BUF`. -/
abbrev kprintfNumBuf : Nat := 66

namespace NumBuf

/-- `buf[i] = c`. -/
def store (buf : NumBuf) (i : Nat) (c : UInt8) : NumBuf :=
  ⟨Function.update buf.bytes i c, i :: buf.stores⟩

/-- The first characters. -/
def text (buf : NumBuf) (len : Nat) : List UInt8 := (List.range len).map buf.bytes

end NumBuf

/-- `digits_lower` of `u64_to_str`. -/
def digitsLower : List UInt8 :=
  [48, 49, 50, 51, 52, 53, 54, 55, 56, 57, 97, 98, 99, 100, 101, 102]

/-- `digits_upper` of `u64_to_str`. -/
def digitsUpper : List UInt8 :=
  [48, 49, 50, 51, 52, 53, 54, 55, 56, 57, 65, 66, 67, 68, 69, 70]

/-- `digits[d]`. -/
def digitChar (uppercase : Bool) (d : Nat) : UInt8 :=
  (if uppercase then digitsUpper else digitsLower).getD d 0

/-- The loop of `u64_to_str`, for so many turns at most. -/
def toStrLoop (base : Nat) (uppercase : Bool) : Nat → Nat → Nat → NumBuf → Nat × NumBuf
  | 0, _, len, buf => (len, buf)
  | n + 1, value, len, buf =>
    if 0 < value then
      toStrLoop base uppercase n (value / base) (len + 1)
        (buf.store len (digitChar uppercase (value % base)))
    else (len, buf)

/-- `u64_to_str`; 64 turns are enough in every base. -/
def u64ToStr (buf : NumBuf) (value base : Nat) (uppercase : Bool) : Nat × NumBuf :=
  if value = 0 then (1, buf.store 0 48) else toStrLoop base uppercase 64 value 0 buf

/-- A turn of `reverse_buf`. -/
def swapEnds (len : Nat) (buf : NumBuf) (i : Nat) : NumBuf :=
  (buf.store i (buf.bytes (len - 1 - i))).store (len - 1 - i) (buf.bytes i)

/-- `reverse_buf`. -/
def reverseBuf (buf : NumBuf) (len : Nat) : NumBuf := (List.range (len / 2)).foldl (swapEnds len) buf

/-- `abs_s64`: the magnitude and the sign. -/
def absS64 (value : BitVec 64) : BitVec 64 × UInt8 :=
  if value.toInt < 0 then (-(value + 1) + 1, 45) else (value, 0)

/-- The first loop of `format_number` that moves the digits up, for the first n of them. -/
def shiftUp (shift : Nat) : Nat → NumBuf → NumBuf
  | 0, buf => buf
  | n + 1, buf => shiftUp shift n (buf.store (n + shift) (buf.bytes n))

/-- The loop of `format_number` that stores zeros before them. -/
def zeroFill (shift : Nat) (buf : NumBuf) : NumBuf :=
  (List.range shift).foldl (fun (buf : NumBuf) (i : Nat) => buf.store i 48) buf

variable {buf buf' : NumBuf} {base value len n shift : Nat} {uppercase : Bool}

/-! ### The buffer -/

namespace NumBuf

theorem text_length : (buf.text len).length = len := by rw [text, List.length_map, List.length_range]

theorem text_get {j : Nat} (hj : j < (buf.text len).length) : (buf.text len)[j] = buf.bytes j := by
  simp [text]

theorem text_succ (buf : NumBuf) (len : Nat) : buf.text (len + 1) = buf.text len ++ [buf.bytes len] := by
  rw [text, List.range_succ, List.map_append, List.map_singleton, ← text]

theorem text_congr (h : ∀ j < len, buf'.bytes j = buf.bytes j) : buf'.text len = buf.text len :=
  List.map_congr_left fun j hj => h j (List.mem_range.mp hj)

theorem text_store_self (buf : NumBuf) (len : Nat) (c : UInt8) :
    (buf.store len c).text (len + 1) = buf.text len ++ [c] := by
  have hkeep : (buf.store len c).text len = buf.text len :=
    text_congr fun j hj => Function.update_of_ne hj.ne _ _
  rw [text_succ, hkeep]
  simp [store]

end NumBuf

/-- What was stored to since, is below a bound. -/
def StoredBelow (buf buf' : NumBuf) (bound : Nat) : Prop :=
  (∀ i ∈ buf'.stores, i ∈ buf.stores ∨ i < bound) ∧ ∀ i ∈ buf.stores, i ∈ buf'.stores

namespace StoredBelow

theorem refl (buf : NumBuf) (bound : Nat) : StoredBelow buf buf bound := ⟨fun _ => Or.inl, fun _ => id⟩

theorem trans {buf'' : NumBuf} {bound : Nat} (h : StoredBelow buf buf' bound)
    (h' : StoredBelow buf' buf'' bound) : StoredBelow buf buf'' bound :=
  ⟨fun i hi => (h'.1 i hi).elim (h.1 i) Or.inr, fun i hi => h'.2 i (h.2 i hi)⟩

theorem mono {bound bound' : Nat} (h : StoredBelow buf buf' bound) (hle : bound ≤ bound') :
    StoredBelow buf buf' bound' :=
  ⟨fun i hi => (h.1 i hi).imp_right fun hlt => hlt.trans_le hle, h.2⟩

theorem store (buf : NumBuf) {i bound : Nat} (c : UInt8) (h : i < bound) :
    StoredBelow buf (buf.store i c) bound :=
  ⟨fun _ hj => (List.mem_cons.mp hj).elim (fun he => Or.inr (he ▸ h)) Or.inl,
    fun _ hj => List.mem_cons_of_mem _ hj⟩

end StoredBelow

/-! ### Digits -/

/-- The digits of a value as they are written. -/
def numeral (base : Nat) (uppercase : Bool) (value : Nat) : List UInt8 :=
  if value = 0 then [48] else ((Nat.digits base value).map (digitChar uppercase)).reverse

/-- The loop stores the digits of the value, the last one first. -/
theorem toStrLoop_spec (hbase : 1 < base) (uppercase : Bool) : ∀ (n : Nat) {value : Nat} (len : Nat)
    (buf : NumBuf), value < base ^ n → ∃ buf', toStrLoop base uppercase n value len buf =
      (len + (Nat.digits base value).length, buf') ∧
    buf'.text (len + (Nat.digits base value).length) =
      buf.text len ++ (Nat.digits base value).map (digitChar uppercase) ∧
    StoredBelow buf buf' (len + (Nat.digits base value).length) := by
  intro n
  induction n with
  | zero =>
    intro value len buf hv
    obtain rfl : value = 0 := by simpa using hv
    rw [Nat.digits_zero, List.map_nil, List.append_nil]
    exact ⟨buf, rfl, rfl, .refl ..⟩
  | succ n ih =>
    intro value len buf hv
    rw [toStrLoop]
    by_cases hpos : 0 < value
    · rw [if_pos hpos, Nat.digits_def' hbase hpos, List.length_cons, List.map_cons]
      have hv' : value / base < base ^ n := Nat.div_lt_of_lt_mul (by rwa [Nat.pow_succ'] at hv)
      obtain ⟨buf', hrun, htext, hstored⟩ := ih (len + 1)
        (buf.store len (digitChar uppercase (value % base))) hv'
      rw [NumBuf.text_store_self, List.append_assoc, List.singleton_append] at htext
      have hlen : len + ((Nat.digits base (value / base)).length + 1) =
          len + 1 + (Nat.digits base (value / base)).length := by omega
      rw [hlen]
      exact ⟨buf', hrun, htext, (StoredBelow.store buf _ (by omega)).trans hstored⟩
    · obtain rfl : value = 0 := Nat.eq_zero_of_not_pos hpos
      rw [if_neg hpos, Nat.digits_zero, List.map_nil, List.append_nil]
      exact ⟨buf, rfl, rfl, .refl ..⟩

theorem numeral_length (uppercase : Bool) (hv : value ≠ 0) :
    (numeral base uppercase value).length = (Nat.digits base value).length := by
  rw [numeral, if_neg hv, List.length_reverse, List.length_map]

/-- `u64_to_str` stores the numeral backwards. -/
theorem u64ToStr_spec (hbase : 1 < base) (hv : value < 2 ^ 64) (uppercase : Bool) (buf : NumBuf) :
    ∃ buf', u64ToStr buf value base uppercase = ((numeral base uppercase value).length, buf') ∧
      buf'.text (numeral base uppercase value).length = (numeral base uppercase value).reverse ∧
      StoredBelow buf buf' (numeral base uppercase value).length := by
  rw [u64ToStr]
  by_cases h0 : value = 0
  · rw [if_pos h0, numeral, if_pos h0]
    exact ⟨_, rfl, NumBuf.text_store_self buf 0 48, .store buf 48 Nat.one_pos⟩
  · obtain ⟨buf', hrun, htext, hstored⟩ := toStrLoop_spec hbase uppercase 64 0 buf
      (hv.trans_le (Nat.pow_le_pow_left hbase 64))
    rw [if_neg h0, numeral_length uppercase h0]
    rw [Nat.zero_add] at hrun htext hstored
    refine ⟨buf', hrun, htext.trans ?_, hstored⟩
    rw [numeral, if_neg h0, List.reverse_reverse]
    rfl

/-! ### The reversal -/

/-- After n turns the first n and the last n are exchanged. -/
theorem swapEnds_run (len : Nat) (buf : NumBuf) : ∀ n ≤ len / 2,
    (∀ j < len, ((List.range n).foldl (swapEnds len) buf).bytes j =
      if j < n ∨ len - n ≤ j then buf.bytes (len - 1 - j) else buf.bytes j) ∧
    StoredBelow buf ((List.range n).foldl (swapEnds len) buf) len := by
  intro n
  induction n with
  | zero =>
    refine fun _ => ⟨fun j hj => ?_, .refl ..⟩
    rw [if_neg (by omega)]
    rfl
  | succ n ih =>
    intro hn
    obtain ⟨hbytes, hstored⟩ := ih (by omega)
    rw [List.range_succ, List.foldl_append, List.foldl_cons, List.foldl_nil]
    generalize (List.range n).foldl (swapEnds len) buf = b at hbytes hstored ⊢
    refine ⟨fun j hj => ?_, hstored.trans ((StoredBelow.store b _ (by omega)).trans
      (.store _ _ (by omega)))⟩
    simp only [swapEnds, NumBuf.store, Function.update_apply]
    rw [hbytes j hj, hbytes n (by omega), hbytes (len - 1 - n) (by omega)]
    by_cases hlast : j = len - 1 - n
    · rw [if_pos hlast, if_neg (by omega), if_pos (by omega)]
      congr 1
      omega
    · rw [if_neg hlast]
      by_cases hfirst : j = n
      · rw [if_pos hfirst, if_neg (by omega), if_pos (by omega), hfirst]
      · rw [if_neg hfirst]
        congr 1
        rw [eq_iff_iff]
        omega

theorem reverseBuf_spec (buf : NumBuf) (len : Nat) :
    (reverseBuf buf len).text len = (buf.text len).reverse ∧ StoredBelow buf (reverseBuf buf len) len := by
  obtain ⟨hbytes, hstored⟩ := swapEnds_run len buf (len / 2) le_rfl
  refine ⟨List.ext_getElem ?_ fun j hj hj' => ?_, hstored⟩
  · rw [List.length_reverse, NumBuf.text_length, NumBuf.text_length]
  · rw [NumBuf.text_length] at hj
    rw [NumBuf.text_get, List.getElem_reverse, NumBuf.text_get, NumBuf.text_length, reverseBuf, hbytes j hj]
    split
    · rfl
    · -- the middle of an odd length stays
      congr 1
      omega

/-! ### The precision -/

/-- Going down, no digit is stored over before it is read. -/
theorem shiftUp_spec (hshift : 0 < shift) : ∀ (n : Nat) (buf : NumBuf),
    (∀ j, (shiftUp shift n buf).bytes j =
      if shift ≤ j ∧ j < n + shift then buf.bytes (j - shift) else buf.bytes j) ∧
    StoredBelow buf (shiftUp shift n buf) (n + shift) := by
  intro n
  induction n with
  | zero =>
    refine fun buf => ⟨fun j => ?_, .refl ..⟩
    rw [if_neg (by omega)]
    rfl
  | succ n ih =>
    intro buf
    obtain ⟨hbytes, hstored⟩ := ih (buf.store (n + shift) (buf.bytes n))
    refine ⟨fun j => ?_, (StoredBelow.store buf _ (by omega)).trans (hstored.mono (by omega))⟩
    rw [shiftUp, hbytes j]
    simp only [NumBuf.store, Function.update_apply]
    by_cases hlast : j = n + shift
    · rw [if_neg (by omega), if_pos hlast, if_pos (by omega)]
      congr 1
      omega
    · rw [if_neg hlast]
      by_cases hin : shift ≤ j ∧ j < n + shift
      · rw [if_pos hin, if_neg (by omega), if_pos (by omega)]
      · rw [if_neg hin, if_neg (by omega)]

theorem zeroFill_spec (buf : NumBuf) : ∀ n, (∀ j, (zeroFill n buf).bytes j = if j < n then 48 else buf.bytes j) ∧
    StoredBelow buf (zeroFill n buf) n := by
  intro n
  induction n with
  | zero =>
    refine ⟨fun j => ?_, .refl ..⟩
    rw [if_neg (Nat.not_lt_zero j)]
    rfl
  | succ n ih =>
    obtain ⟨hbytes, hstored⟩ := ih
    rw [zeroFill, List.range_succ, List.foldl_append, List.foldl_cons, List.foldl_nil, ← zeroFill]
    refine ⟨fun j => ?_, (hstored.mono (Nat.le_succ n)).trans (.store _ _ (Nat.lt_succ_self n))⟩
    simp only [NumBuf.store, Function.update_apply]
    rw [hbytes j]
    split_ifs <;> first | rfl | (exfalso; omega)

/-- The digits with zeros before them. -/
theorem precision_spec (hshift : 0 < shift) (len : Nat) (buf : NumBuf) :
    (zeroFill shift (shiftUp shift len buf)).text (len + shift) =
      List.replicate shift 48 ++ buf.text len ∧
    StoredBelow buf (zeroFill shift (shiftUp shift len buf)) (len + shift) := by
  obtain ⟨hup, hstored⟩ := shiftUp_spec hshift len buf
  obtain ⟨hfill, hstored'⟩ := zeroFill_spec (shiftUp shift len buf) shift
  refine ⟨List.ext_getElem ?_ fun j hj hj' => ?_, hstored.trans (hstored'.mono (Nat.le_add_left ..))⟩
  · rw [List.length_append, List.length_replicate, NumBuf.text_length, NumBuf.text_length, Nat.add_comm]
  · rw [NumBuf.text_length] at hj
    rw [NumBuf.text_get, hfill, hup, List.getElem_append]
    simp only [List.length_replicate, List.getElem_replicate, NumBuf.text_get]
    split_ifs <;> first | rfl | (exfalso; omega)

theorem numeral_pos (base : Nat) (uppercase : Bool) (value : Nat) :
    0 < (numeral base uppercase value).length := by
  by_cases hv : value = 0
  · rw [numeral, if_pos hv]
    exact Nat.one_pos
  · rw [numeral_length uppercase hv, List.length_pos_iff]
    exact Nat.digits_ne_nil_iff_ne_zero.mpr hv

/-- No base below 8 is used, so 22 digits are enough. -/
theorem numeral_short (hbase : 8 ≤ base) (hv : value < 2 ^ 64) (uppercase : Bool) :
    (numeral base uppercase value).length ≤ 22 := by
  by_cases h0 : value = 0
  · rw [numeral, if_pos h0]
    decide
  · rw [numeral_length uppercase h0, Nat.digits_length_le_iff (by omega)]
    exact hv.trans_le ((by decide : 2 ^ 64 ≤ 8 ^ 22).trans (Nat.pow_le_pow_left hbase 22))

/-! ### The magnitude -/

/-- No step of `abs_s64` overflows, not even for the least value. -/
theorem absS64_steps {value : BitVec 64} (h : value.toInt < 0) :
    (value + 1).toInt = value.toInt + 1 ∧ (-(value + 1)).toInt = -(value.toInt + 1) := by
  have hcond := BitVec.toInt_eq_toNat_cond value
  have hlt := value.isLt
  have hone : (1 : BitVec 64).toNat = 1 := rfl
  have hnext : (value + 1).toInt = value.toInt + 1 := by
    rw [BitVec.toInt_eq_toNat_cond (value + 1), BitVec.toNat_add, hone]
    split at hcond <;> split <;> omega
  refine ⟨hnext, ?_⟩
  rw [BitVec.toInt_neg, hnext]
  split at hcond <;> (rw [Int.bmod]; omega)

theorem absS64_magnitude (value : BitVec 64) : (absS64 value).1.toNat = value.toInt.natAbs := by
  have hcond := BitVec.toInt_eq_toNat_cond value
  have hlt := value.isLt
  rw [absS64]
  by_cases hneg : value.toInt < 0
  · rw [if_pos hneg]
    simp only [BitVec.toNat_add, BitVec.toNat_neg]
    split at hcond <;> omega
  · rw [if_neg hneg]
    dsimp only
    split at hcond <;> omega

theorem absS64_sign (value : BitVec 64) : (absS64 value).2 = if value.toInt < 0 then 45 else 0 := by
  rw [absS64]
  split <;> rfl

end TypeOS.Console
