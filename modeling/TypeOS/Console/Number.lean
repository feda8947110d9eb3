import TypeOS.Console.Digits

/-! Numbers of `kprintf` (`vga.c`): what `format_number` prints.

    What is printed is the list of the characters that go to `vga_putchar`. A C `int` is an integer here
    and wraps through `i32` where the source adds or multiplies. -/

namespace TypeOS.Console

/-- The value an `int` computation leaves. -/
def i32 (z : Int) : Int := z.bmod (2 ^ 32)

theorem i32_of_range {z : Int} (h : -2 ^ 31 ≤ z) (h' : z < 2 ^ 31) : i32 z = z := by
  rw [i32, Int.bmod_def]
  omega

/-- `fmt_flags_t`. -/
structure FmtFlags where
  width : Int
  precision : Int
  left : Bool
  zeroPad : Bool
  alt : Bool
  uppercase : Bool
  length : UInt8
  deriving DecidableEq

/-- `kputs_padded`. -/
def kputsPadded (str : List UInt8) (flags : FmtFlags) (padChar : UInt8) : List UInt8 :=
  let padCount := (i32 (flags.width - str.length)).toNat
  (if flags.left then [] else List.replicate padCount padChar) ++ str ++
    (if flags.left then List.replicate padCount 32 else [])

/-- The start of `format_number`: the digits, with zeros up to the precision. -/
def numberDigits (value base : Nat) (flags : FmtFlags) (buf : NumBuf) : Nat × NumBuf :=
  let (len, buf) := u64ToStr buf value base flags.uppercase
  let buf := reverseBuf buf len
  let precision := if flags.precision < 0 then 1 else flags.precision
  if value = 0 ∧ precision = 0 then (0, buf)
  else if (len : Int) < precision then
    let shift := (precision - len).toNat
    (precision.toNat, zeroFill shift (shiftUp shift len buf))
  else (len, buf)

/-- `prefix` of `format_number`. -/
def numberPrefix (value base : Nat) (flags : FmtFlags) : List UInt8 :=
  if flags.alt && value ≠ 0 then
    if base = 16 then [48, if flags.uppercase then 88 else 120] else if base = 8 then [48] else []
  else []

/-- `format_number` prints with zeros. -/
def zeroPadded (flags : FmtFlags) : Bool := flags.zeroPad && !flags.left && flags.precision < 0

/-- The end of `format_number`: the sign, the prefix and the digits with their padding. -/
def putNumber (digits : List UInt8) (sign : UInt8) (head : List UInt8) (flags : FmtFlags) : List UInt8 :=
  let out := { flags with width := i32 (flags.width - (head.length + if sign = 0 then 0 else 1)) }
  if zeroPadded flags then
    (if sign = 0 then [] else [sign]) ++ head ++ kputsPadded digits out 48
  else if sign = 0 then head ++ kputsPadded digits out 32
  else
    kputsPadded [sign] out 32 ++ head ++
      kputsPadded digits { out with width := i32 (flags.width - head.length - 1) } 32

/-- `format_number`: the characters, and the buffer. -/
def formatNumber (value : Nat) (sign : UInt8) (base : Nat) (flags : FmtFlags) (buf : NumBuf) :
    List UInt8 × NumBuf :=
  let (len, buf) := numberDigits value base flags buf
  (putNumber (buf.text len) sign (numberPrefix value base flags) flags, buf)

/-- The conversions of numbers that C knows, without `%i`, which is `%d`. -/
inductive NumConv
  | d
  | u
  | o
  | x
  | upperX
  deriving DecidableEq

namespace NumConv

/-- The base that `kvprintf` passes on. -/
def base : NumConv → Nat
  | d => 10
  | u => 10
  | o => 8
  | x => 16
  | upperX => 16

/-- `format_number` as `kvprintf` calls it; `uppercase` is set for `%X`. -/
def format (c : NumConv) (value : BitVec 64) (flags : FmtFlags) (buf : NumBuf) : List UInt8 × NumBuf :=
  let flags := { flags with uppercase := c = upperX }
  if c = d then formatNumber (absS64 value).1.toNat (absS64 value).2 c.base flags buf
  else formatNumber value.toNat 0 c.base flags buf

end NumConv

/-! ### What C prescribes -/

/-- The digits that C asks for: at least as many as the precision, which is 1 if it is absent, and none for
    0 with the precision 0. -/
def precisionDigits (base : Nat) (uppercase : Bool) (value : Nat) (precision : Int) : List UInt8 :=
  if value = 0 ∧ precision = 0 then []
  else
    List.replicate ((if precision < 0 then 1 else precision).toNat - (numeral base uppercase value).length) 48 ++
      numeral base uppercase value

/-- A result with its head (the sign or the prefix) directly before the digits, padded to the width. -/
def padded (head digits : List UInt8) (width : Int) (left zero : Bool) : List UInt8 :=
  let pad := (width - (head.length + digits.length)).toNat
  if left then head ++ digits ++ List.replicate pad 32
  else if zero then head ++ List.replicate pad 48 ++ digits
  else List.replicate pad 32 ++ head ++ digits

namespace NumConv

/-- The value without its sign. -/
def magnitude (c : NumConv) (value : BitVec 64) : Nat := if c = d then value.toInt.natAbs else value.toNat

/-- The value has a sign. -/
def signed (c : NumConv) (value : BitVec 64) : Bool := c = d && value.toInt < 0

/-- The value is printed with `0x` or `0X`. -/
def prefixed (c : NumConv) (value : BitVec 64) (flags : FmtFlags) : Bool :=
  flags.alt && (c = x || c = upperX) && value ≠ 0

/-- The digits. -/
def digits (c : NumConv) (value : BitVec 64) (flags : FmtFlags) : List UInt8 :=
  precisionDigits c.base (c = upperX) (c.magnitude value) flags.precision

/-- The characters that C prescribes. A `-` makes a `0` void, and so does a precision. -/
def printf (c : NumConv) (value : BitVec 64) (flags : FmtFlags) : List UInt8 :=
  let sign := if c.signed value then [45] else []
  let head := if c.prefixed value flags then [48, if c = upperX then 88 else 120] else []
  padded (sign ++ head) (c.digits value flags) flags.width flags.left (flags.zeroPad && flags.precision < 0)

/-- Zeros are used, or there is no space to put: a sign has a width of at most 2, and a prefix has its
    spaces on the right or none. -/
def Aligned (c : NumConv) (value : BitVec 64) (flags : FmtFlags) : Prop :=
  zeroPadded flags = true ∨
  (c.signed value = true → flags.width ≤ 2) ∧
  (c.prefixed value flags = true → flags.left = true ∨ flags.width ≤ 2 + (c.digits value flags).length)

end NumConv

variable {buf buf' : NumBuf} {base value : Nat} {flags : FmtFlags}

/-! ### The digits -/

/-- The buffer holds the digits; it is stored to up to the precision. -/
theorem numberDigits_spec (hbase : 1 < base) (hv : value < 2 ^ 64) (flags : FmtFlags) (buf : NumBuf) :
    ∃ len buf', numberDigits value base flags buf = (len, buf') ∧
      buf'.text len = precisionDigits base flags.uppercase value flags.precision ∧
      StoredBelow buf buf' (max (numeral base flags.uppercase value).length flags.precision.toNat) ∧
      ((numeral base flags.uppercase value).length < flags.precision →
        flags.precision.toNat - 1 ∈ buf'.stores) := by
  obtain ⟨b, hrun, htext, hstored⟩ := u64ToStr_spec hbase hv flags.uppercase buf
  have hlen := numeral_pos base flags.uppercase value
  rw [numberDigits, hrun, precisionDigits]
  generalize numeral base flags.uppercase value = l at htext hstored hlen ⊢
  dsimp only
  obtain ⟨hrev, hstored'⟩ := reverseBuf_spec b l.length
  rw [htext, List.reverse_reverse] at hrev
  have hbelow := hstored.trans hstored'
  generalize reverseBuf b l.length = b' at hrev hbelow ⊢
  by_cases hzero : value = 0 ∧ flags.precision = 0
  · rw [if_pos hzero, if_pos ⟨hzero.1, by rw [hzero.2]; rfl⟩]
    exact ⟨0, b', rfl, rfl, hbelow.mono (le_max_left ..), fun h => by omega⟩
  · rw [if_neg hzero, if_neg (by split <;> omega)]
    by_cases hshort : (l.length : Int) < flags.precision
    · obtain ⟨k, hk⟩ : ∃ k, flags.precision.toNat = l.length + (k + 1) :=
        ⟨flags.precision.toNat - l.length - 1, by omega⟩
      have hshift : (flags.precision - (l.length : Int)).toNat = k + 1 := by omega
      obtain ⟨hdigits, hstored⟩ := precision_spec (Nat.succ_pos k) l.length b'
      rw [if_neg (by omega : ¬ flags.precision < 0), if_pos hshort, hshift, hk, Nat.add_sub_cancel_left,
        max_eq_right (Nat.le_add_right ..)]
      rw [hrev] at hdigits
      refine ⟨_, _, rfl, hdigits, (hbelow.mono (Nat.le_add_right ..)).trans hstored, fun _ => ?_⟩
      -- the first digit that is moved up is the last one
      obtain ⟨m, hm⟩ := Nat.exists_eq_succ_of_ne_zero hlen.ne'
      rw [hm, shiftUp]
      refine (zeroFill_spec _ (k + 1)).2.2 _ ((shiftUp_spec (Nat.succ_pos k) m _).2.2 _ ?_)
      have hlast : m.succ + (k + 1) - 1 = m + (k + 1) := by omega
      rw [hlast]
      exact List.mem_cons_self
    · have hfill : (if flags.precision < 0 then 1 else flags.precision).toNat - l.length = 0 := by
        split <;> omega
      rw [if_neg (by split <;> omega), hfill, List.replicate_zero, List.nil_append]
      exact ⟨l.length, b', rfl, hrev, hbelow.mono (le_max_left ..), fun h => absurd h hshort⟩

/-! ### The padding -/

theorem kputsPadded_eq {str : List UInt8} (h : -2 ^ 31 ≤ flags.width - str.length)
    (h' : flags.width < 2 ^ 31) (padChar : UInt8) : kputsPadded str flags padChar =
      if flags.left then str ++ List.replicate (flags.width - str.length).toNat 32
      else List.replicate (flags.width - str.length).toNat padChar ++ str := by
  rw [kputsPadded, i32_of_range h (by omega)]
  cases flags.left
  · exact List.append_nil _
  · rfl

variable {digits head : List UInt8} {sign : UInt8}

/-- What is printed around the digits does not depend on their case. -/
theorem putNumber_uppercase (digits : List UInt8) (sign : UInt8) (head : List UInt8) (uppercase : Bool) :
    putNumber digits sign head { flags with uppercase := uppercase } = putNumber digits sign head flags := rfl

/-- With zeros between them, the sign, the prefix and the digits are right. -/
theorem putNumber_zero (hw : 0 ≤ flags.width) (hw' : flags.width < 2 ^ 31)
    (hlen : head.length + digits.length < 2 ^ 30) (hzero : zeroPadded flags = true) :
    putNumber digits sign head flags =
      padded ((if sign = 0 then [] else [sign]) ++ head) digits flags.width flags.left true := by
  have hleft : flags.left = false := by
    simp only [zeroPadded, Bool.and_eq_true, Bool.not_eq_true'] at hzero
    exact hzero.1.2
  have hwidth : i32 (flags.width - (head.length + if sign = 0 then 0 else 1)) =
      flags.width - (head.length + if sign = 0 then 0 else 1) := by
    apply i32_of_range <;> split_ifs <;> omega
  have hsign : ((if sign = 0 then [] else [sign] : List UInt8).length : Int) = if sign = 0 then 0 else 1 := by
    split <;> rfl
  rw [putNumber, hwidth, if_pos hzero, kputsPadded_eq (by dsimp only; split_ifs <;> omega)
    (by dsimp only; split_ifs <;> omega), padded]
  simp only [hleft, Bool.false_eq_true, if_false, if_true, List.append_assoc, List.length_append, Nat.cast_add,
    hsign]
  congr 5
  omega

/-- Without a sign, spaces come between the prefix and the digits if they are on the left. -/
theorem putNumber_unsigned_iff (hw : 0 ≤ flags.width) (hw' : flags.width < 2 ^ 31)
    (hlen : head.length + digits.length < 2 ^ 30) (hzero : zeroPadded flags = false)
    (hhead : ∀ c ∈ head.head?, c ≠ 32) :
    putNumber digits 0 head flags = padded head digits flags.width flags.left false ↔
      (head = [] ∨ flags.left = true ∨ flags.width ≤ head.length + digits.length) := by
  have hwidth : i32 (flags.width - (head.length + if (0 : UInt8) = 0 then 0 else 1)) =
      flags.width - head.length := by
    rw [if_pos rfl, add_zero]
    exact i32_of_range (by omega) (by omega)
  have hpad : flags.width - head.length - digits.length = flags.width - (head.length + digits.length) := by
    omega
  rw [putNumber, hwidth, if_neg (by rw [hzero]; decide), if_pos rfl,
    kputsPadded_eq (by dsimp only; omega) (by dsimp only; omega), padded]
  simp only [hpad, Bool.false_eq_true, if_false]
  cases hl : flags.left with
  | true => simp
  | false =>
    simp only [Bool.false_eq_true, if_false, false_or]
    cases head with
    | nil => simp
    | cons c head =>
      have hc : c ≠ 32 := hhead c rfl
      cases hn : (flags.width - ((c :: head).length + digits.length : Int)).toNat with
      | zero =>
        rw [List.replicate_zero, List.nil_append, List.nil_append]
        exact iff_of_true rfl (Or.inr (by omega))
      | succ n =>
        refine iff_of_false (fun h => hc (List.cons.inj h).1) ?_
        rintro (h | h)
        · cases h
        · omega

/-- A sign is padded to the width itself, so there are too many spaces. -/
theorem putNumber_signed_iff (hw : 0 ≤ flags.width) (hw' : flags.width < 2 ^ 31)
    (hlen : digits.length < 2 ^ 30) (hpos : 0 < digits.length) (hzero : zeroPadded flags = false)
    (hsign : sign ≠ 0) :
    putNumber digits sign [] flags = padded [sign] digits flags.width flags.left false ↔ flags.width ≤ 2 := by
  have hout : i32 (flags.width - (([] : List UInt8).length + if sign = 0 then 0 else 1)) = flags.width - 1 := by
    rw [if_neg hsign, List.length_nil, Nat.cast_zero, zero_add]
    exact i32_of_range (by omega) (by omega)
  have hwidth : i32 (flags.width - ([] : List UInt8).length - 1) = flags.width - 1 := by
    rw [List.length_nil, Nat.cast_zero, sub_zero]
    exact i32_of_range (by omega) (by omega)
  have hpad : flags.width - 1 - (digits.length : Int) = flags.width - (1 + digits.length) := by omega
  rw [putNumber, hout, hwidth, if_neg (by rw [hzero]; decide), if_neg hsign,
    kputsPadded_eq (by simp only [List.length_singleton, Nat.cast_one]; omega) (by dsimp only; omega),
    kputsPadded_eq (by dsimp only; omega) (by dsimp only; omega), padded]
  simp only [List.append_nil, List.length_singleton, Nat.cast_one, Bool.false_eq_true, if_false, hpad]
  constructor
  · intro h
    have hlength := congrArg List.length h
    cases hl : flags.left <;> simp [hl] at hlength <;> omega
  · intro h
    have h0 : (flags.width - 1 - 1).toNat = 0 := by omega
    have h1 : (flags.width - (1 + (digits.length : Int))).toNat = 0 := by omega
    rw [h0, h1]
    cases flags.left <;> simp

namespace NumConv

variable {c : NumConv} {value : BitVec 64}

theorem eight_le_base (c : NumConv) : 8 ≤ c.base := by cases c <;> decide

theorem one_lt_base (c : NumConv) : 1 < c.base := (by decide : 1 < 8).trans_le c.eight_le_base

theorem magnitude_lt (c : NumConv) (value : BitVec 64) : c.magnitude value < 2 ^ 64 := by
  have hlt := value.isLt
  have hcond := BitVec.toInt_eq_toNat_cond value
  rw [magnitude]
  split
  · split at hcond <;> omega
  · exact hlt

/-- Every conversion is one call. -/
theorem format_eq (c : NumConv) (value : BitVec 64) (flags : FmtFlags) (buf : NumBuf) :
    c.format value flags buf = formatNumber (c.magnitude value) (if c.signed value then 45 else 0) c.base
      { flags with uppercase := c = upperX } buf := by
  rw [format, magnitude, signed]
  by_cases hd : c = d
  · rw [if_pos hd, if_pos hd, absS64_magnitude, absS64_sign]
    simp only [hd, decide_true, Bool.true_and, decide_eq_true_eq]
  · rw [if_neg hd, if_neg hd]
    simp only [hd, decide_false, Bool.false_and, Bool.false_eq_true, if_false]

theorem numberPrefix_eq (ho : c = o → flags.alt = false) :
    numberPrefix (c.magnitude value) c.base { flags with uppercase := c = upperX } =
      if c.prefixed value flags then [48, if c = upperX then 88 else 120] else [] := by
  have hzero : value.toNat = 0 ↔ value = 0 := (BitVec.toNat_inj (y := 0)).trans Iff.rfl
  cases c with
  | o => simp [numberPrefix, prefixed, ho rfl]
  | d => simp [numberPrefix, prefixed, base]
  | u => simp [numberPrefix, prefixed, base]
  | x => simp [numberPrefix, prefixed, base, magnitude, hzero]
  | upperX => simp [numberPrefix, prefixed, base, magnitude, hzero]

theorem digits_short (hp : flags.precision ≤ kprintfNumBuf) (c : NumConv) (value : BitVec 64) :
    (c.digits value flags).length < 100 := by
  have hshort := numeral_short c.eight_le_base (c.magnitude_lt value) (c = upperX)
  have hp : flags.precision ≤ 66 := hp
  rw [digits, precisionDigits]
  split
  · exact Nat.zero_lt_succ _
  · rw [List.length_append, List.length_replicate]
    split <;> omega

theorem digits_pos (c : NumConv) (hv : c.magnitude value ≠ 0) : 0 < (c.digits value flags).length := by
  rw [digits, precisionDigits, if_neg (fun h => hv h.1), List.length_append]
  exact Nat.add_pos_right _ (numeral_pos ..)

end NumConv

/-- Where no zeros are used, the flag for them does not matter. -/
theorem padded_void {head digits : List UInt8} {width : Int} (hzero : zeroPadded flags = false) :
    padded head digits width flags.left (flags.zeroPad && flags.precision < 0) =
      padded head digits width flags.left false := by
  rw [padded, padded]
  cases hl : flags.left with
  | true => rfl
  | false =>
    rw [zeroPadded, hl, Bool.not_false, Bool.and_true] at hzero
    rw [hzero]

/-- `format_number` prints what C prescribes if and only if zeros are used or there is no space to put
    before a sign or behind a prefix. -/
theorem format_printf_iff (c : NumConv) (value : BitVec 64) (buf : NumBuf) (hw : 0 ≤ flags.width)
    (hw' : flags.width < 2 ^ 31) (hp : flags.precision ≤ kprintfNumBuf) (ho : c = .o → flags.alt = false) :
    (c.format value flags buf).1 = c.printf value flags ↔ c.Aligned value flags := by
  obtain ⟨len, buf', hrun, htext, -, -⟩ := numberDigits_spec c.one_lt_base (c.magnitude_lt value)
    { flags with uppercase := c = .upperX } buf
  have htext : buf'.text len = c.digits value flags := htext
  have hlen := c.digits_short hp value
  rw [c.format_eq, formatNumber, hrun, NumConv.numberPrefix_eq ho]
  dsimp only
  rw [htext, putNumber_uppercase, NumConv.printf, NumConv.Aligned]
  have hshort : ∀ {head : List UInt8}, head.length ≤ 2 →
      head.length + (c.digits value flags).length < 2 ^ 30 := by
    intro head hhead
    omega
  have hhead : (if c.prefixed value flags then [48, if c = .upperX then 88 else 120] else [] : List UInt8).length
      ≤ 2 := by
    split
    · exact le_rfl
    · exact Nat.zero_le 2
  cases hzero : zeroPadded flags with
  | true =>
    have hvoid : (flags.zeroPad && flags.precision < 0) = true := by
      simp only [zeroPadded, Bool.and_eq_true] at hzero ⊢
      exact ⟨hzero.1.1, hzero.2⟩
    rw [putNumber_zero hw hw' (hshort hhead) hzero, hvoid]
    refine iff_of_true ?_ (Or.inl rfl)
    cases c.signed value <;> rfl
  | false =>
    rw [padded_void hzero]
    cases hs : c.signed value with
    | true =>
      -- only `%d` has a sign, and it has no prefix
      obtain rfl : c = .d := by
        rw [NumConv.signed, Bool.and_eq_true, decide_eq_true_eq] at hs
        exact hs.1
      have hvalue : NumConv.d.magnitude value ≠ 0 := by
        rw [NumConv.signed, Bool.and_eq_true, decide_eq_true_eq, decide_eq_true_eq] at hs
        rw [NumConv.magnitude, if_pos rfl]
        omega
      have hpre : NumConv.d.prefixed value flags = false := by simp [NumConv.prefixed]
      rw [hpre, if_pos rfl, if_pos rfl, if_neg Bool.false_ne_true, List.append_nil,
        putNumber_signed_iff hw hw' (by omega) (NumConv.d.digits_pos hvalue) hzero (by decide)]
      simp
    | false =>
      rw [if_neg Bool.false_ne_true, if_neg Bool.false_ne_true, List.nil_append,
        putNumber_unsigned_iff hw hw' (hshort hhead) hzero (by split <;> simp)]
      cases hpre : c.prefixed value flags <;> simp

/-- A width for a number that is not negative. -/
theorem width_printed : (NumConv.u.format 42 ⟨5, -1, false, false, false, false, 0⟩ ⟨fun _ => 0, []⟩).1 =
    NumConv.u.printf 42 ⟨5, -1, false, false, false, false, 0⟩ :=
  (format_printf_iff .u 42 _ (by decide) (by decide) (by decide) nofun).mpr
    (Or.inr ⟨nofun, nofun⟩)

/-- `%5d` of -1. -/
theorem signed_width_printed : ¬ ∀ (c : NumConv) (value : BitVec 64) (flags : FmtFlags) (buf : NumBuf),
    0 ≤ flags.width → flags.width ≤ 60 → -1 ≤ flags.precision → flags.precision ≤ 60 →
    (c = .o → flags.alt = false) → (c.format value flags buf).1 = c.printf value flags := by
  intro h
  have hd := h .d (-1) ⟨5, -1, false, false, false, false, 0⟩ ⟨fun _ => 0, []⟩ (by decide) (by decide)
    (by decide) (by decide) nofun
  have hlength := congrArg List.length hd
  exact absurd hlength (by decide)

end TypeOS.Console
