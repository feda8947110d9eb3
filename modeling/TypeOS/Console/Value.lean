import TypeOS.Console.Digits

/-! What the digits of `u64_to_str` denote (`vga.c`).

    `readNumber` reads a text from the left, as anyone does; what `u64_to_str` and `reverse_buf` leave in
    the buffer reads as the value again, and has no zero in front. -/

namespace TypeOS.Console

/-- The value of a character as a digit, of either case. -/
def digitValue (c : UInt8) : Option Nat :=
  if 48 ≤ c ∧ c ≤ 57 then some (c.toNat - 48)
  else if 65 ≤ c ∧ c ≤ 70 then some (c.toNat - 55)
  else if 97 ≤ c ∧ c ≤ 102 then some (c.toNat - 87)
  else none

/-- A digit behind a number. -/
def readDigit (base v : Nat) (c : UInt8) : Option Nat :=
  (digitValue c).bind fun d => if d < base then some (v * base + d) else none

/-- The number that a text denotes, if every character is a digit of the base. -/
def readNumber (base : Nat) (text : List UInt8) : Option Nat := text.foldlM (readDigit base) 0

variable {base value : Nat}

theorem digitValue_digitChar (uppercase : Bool) : ∀ d < 16, digitValue (digitChar uppercase d) = some d := by
  cases uppercase <;> decide

theorem readNumber_concat (base : Nat) (text : List UInt8) (c : UInt8) :
    readNumber base (text ++ [c]) = (readNumber base text).bind fun v => readDigit base v c := by
  rw [readNumber, List.foldlM_append, ← readNumber]
  simp only [List.foldlM_cons, List.foldlM_nil, bind_pure]
  rfl

/-- The digits are read in the other order than they are made. -/
theorem readNumber_digits (hbase : base ≤ 16) (uppercase : Bool) (l : List Nat) (h : ∀ d ∈ l, d < base) :
    readNumber base (l.map (digitChar uppercase)).reverse = some (Nat.ofDigits base l) := by
  induction l with
  | nil => rfl
  | cons d l ih =>
    obtain ⟨hd, hl⟩ := List.forall_mem_cons.mp h
    have hvalue := digitValue_digitChar uppercase d (hd.trans_le hbase)
    rw [List.map_cons, List.reverse_cons, readNumber_concat, ih hl, Option.bind_some, readDigit, hvalue,
      Option.bind_some, if_pos hd, Nat.ofDigits_cons, Nat.mul_comm, Nat.add_comm]

theorem readNumber_numeral (hbase : 1 < base) (hbase' : base ≤ 16) (uppercase : Bool) (value : Nat) :
    readNumber base (numeral base uppercase value) = some value := by
  rw [numeral]
  split
  · next h0 =>
    have hvalue : digitValue 48 = some 0 := rfl
    have hzero : readDigit base 0 48 = some 0 := by
      rw [readDigit, hvalue, Option.bind_some, if_pos (by omega), Nat.zero_mul]
    rw [h0, ← List.nil_append [48], readNumber_concat]
    exact hzero
  · rw [readNumber_digits hbase' uppercase _ fun d hd => Nat.digits_lt_base hbase hd, Nat.ofDigits_digits]

/-- There is no zero in front of a number. -/
theorem numeral_head (hbase : 1 < base) (hbase' : base ≤ 16) (uppercase : Bool) (hv : value ≠ 0) :
    (numeral base uppercase value).head? ≠ some 48 := by
  have hne : Nat.digits base value ≠ [] := Nat.digits_ne_nil_iff_ne_zero.mpr hv
  have hlast := Nat.getLast_digit_ne_zero base hv
  have hlt : (Nat.digits base value).getLast hne < 16 :=
    (Nat.digits_lt_base hbase (List.getLast_mem hne)).trans_le hbase'
  rw [numeral, if_neg hv, List.head?_reverse, List.getLast?_map, List.getLast?_eq_getLast_of_ne_nil hne,
    Option.map_some]
  intro h
  have hvalue := digitValue_digitChar uppercase _ hlt
  rw [Option.some.inj h] at hvalue
  exact hlast (Option.some.inj hvalue).symm

/-- What the two functions leave in the buffer. -/
theorem u64ToStr_reverse (hbase : 1 < base) (hv : value < 2 ^ 64) (uppercase : Bool) (buf : NumBuf) :
    (u64ToStr buf value base uppercase).1 = (numeral base uppercase value).length ∧
    (reverseBuf (u64ToStr buf value base uppercase).2 (u64ToStr buf value base uppercase).1).text
      (u64ToStr buf value base uppercase).1 = numeral base uppercase value := by
  obtain ⟨buf', hrun, htext, -⟩ := u64ToStr_spec hbase hv uppercase buf
  rw [hrun]
  refine ⟨rfl, ?_⟩
  rw [(reverseBuf_spec buf' _).1, htext, List.reverse_reverse]

/-- The digits denote the value; the magnitude and its sign are those of the signed one, and nothing overflows
    on the way. -/
theorem digits_denote (hbase : base = 8 ∨ base = 10 ∨ base = 16) :
    (∀ (value : BitVec 64) (uppercase : Bool) (buf : NumBuf),
      let r := u64ToStr buf value.toNat base uppercase
      let text := (reverseBuf r.2 r.1).text r.1
      r.1 ≤ 22 ∧ readNumber base text = some value.toNat ∧
        (value = 0 → text = [48]) ∧ (value ≠ 0 → text.head? ≠ some 48)) ∧
    ∀ value : BitVec 64,
      ((absS64 value).2 = 45 ∧ value.toInt < 0 ∧ value.toInt = -((absS64 value).1.toNat : Int) ∨
        (absS64 value).2 = 0 ∧ 0 ≤ value.toInt ∧ value.toInt = (absS64 value).1.toNat) ∧
      (value.toInt < 0 →
        (value + 1).toInt = value.toInt + 1 ∧ (-(value + 1)).toInt = -(value.toInt + 1)) := by
  have h8 : 8 ≤ base := by omega
  have h16 : base ≤ 16 := by omega
  have h1 : 1 < base := by omega
  refine ⟨fun value uppercase buf => ?_, fun value => ?_⟩
  · obtain ⟨hlen, htext⟩ := u64ToStr_reverse h1 value.isLt uppercase buf
    dsimp only
    rw [htext, hlen]
    refine ⟨numeral_short h8 value.isLt uppercase, readNumber_numeral h1 h16 uppercase _, ?_, fun hne => ?_⟩
    · rintro rfl
      rfl
    · refine numeral_head h1 h16 uppercase fun h0 => hne ?_
      exact BitVec.eq_of_toNat_eq h0
  · refine ⟨?_, absS64_steps⟩
    rw [absS64_magnitude, absS64_sign]
    by_cases hneg : value.toInt < 0
    · rw [if_pos hneg]
      exact Or.inl ⟨rfl, hneg, by omega⟩
    · rw [if_neg hneg]
      exact Or.inr ⟨rfl, by omega, by omega⟩

/-- In base 10, from an empty buffer. -/
theorem digits_denote_ten :
    readNumber 10 ((reverseBuf (u64ToStr ⟨fun _ => 0, []⟩ 1984 10 false).2
      (u64ToStr ⟨fun _ => 0, []⟩ 1984 10 false).1).text
        (u64ToStr ⟨fun _ => 0, []⟩ 1984 10 false).1) = some 1984 :=
  ((digits_denote (Or.inr (Or.inl rfl))).1 1984 false ⟨fun _ => 0, []⟩).2.1

end TypeOS.Console
