import TypeOS.Console.Number

/-! The format of `kprintf` (`vga.c`).

    A format is the list of its bytes with the NUL; a byte that is read behind the list is a fault. A
    conversion takes its last character without a look at it, so one that is cut off takes the NUL, and the
    loop reads on behind it. -/

namespace TypeOS.Console

/-- An argument: the word, and the string at that address where it is one. -/
structure Arg where
  word : BitVec 64
  text : List UInt8

/-- The arguments that are not taken yet. -/
abbrev VaList : Type := Nat → Arg

/-- The arguments behind the first n. -/
def VaList.skip (args : VaList) (n : Nat) : VaList := fun i => args (i + n)

/-- `va_arg (args, int)`. -/
def Arg.int (arg : Arg) : Int := (arg.word.setWidth 32).toInt

/-- A decimal digit. -/
def isDigit (c : UInt8) : Bool := 48 ≤ c && c ≤ 57

/-- `parse_digits`, with the value so far. -/
def parseDigits : Int → List UInt8 → Int × List UInt8
  | value, [] => (value, [])
  | value, c :: fmt =>
    if isDigit c then parseDigits (i32 (value * 10 + (c.toNat - 48 : Int))) fmt else (value, c :: fmt)

/-- The loop over the flags. -/
def parseFlags : FmtFlags → List UInt8 → FmtFlags × List UInt8
  | flags, [] => (flags, [])
  | flags, c :: fmt =>
    if c = 45 then parseFlags { flags with left := true } fmt
    else if c = 48 then parseFlags { flags with zeroPad := true } fmt
    else if c = 35 then parseFlags { flags with alt := true } fmt
    else (flags, c :: fmt)

/-- A width, or what stands behind the point: `*`, digits, or nothing. -/
def parseCount (absent : Int) (args : VaList) : List UInt8 → Int × VaList × List UInt8
  | [] => (absent, args, [])
  | c :: fmt =>
    if c = 42 then ((args 0).int, args.skip 1, fmt)
    else if isDigit c then ((parseDigits 0 (c :: fmt)).1, args, (parseDigits 0 (c :: fmt)).2)
    else (absent, args, c :: fmt)

/-- The precision. -/
def parsePrecision (args : VaList) : List UInt8 → Int × VaList × List UInt8
  | [] => (-1, args, [])
  | c :: fmt => if c = 46 then parseCount 0 args fmt else (-1, args, c :: fmt)

/-- `h` or `l`, which may be there twice. -/
def parseTwice (once twice : UInt8) : List UInt8 → UInt8 × List UInt8
  | [] => (once, [])
  | c :: fmt => if c = once then (twice, fmt) else (once, c :: fmt)

/-- The length modifier. -/
def parseLength : List UInt8 → UInt8 × List UInt8
  | [] => (0, [])
  | c :: fmt =>
    if c = 104 then parseTwice 104 72 fmt
    else if c = 108 then parseTwice 108 76 fmt
    else if c = 122 then (122, fmt)
    else (0, c :: fmt)

/-- The flags before they are parsed. -/
def FmtFlags.start : FmtFlags :=
  { width := 0, precision := -1, left := false, zeroPad := false, alt := false, uppercase := false,
    length := 0 }

/-- The fields of a conversion, up to its character. -/
def parseFields (args : VaList) (fmt : List UInt8) : FmtFlags × VaList × List UInt8 :=
  let (flags, fmt) := parseFlags .start fmt
  let (width, args, fmt) := parseCount 0 args fmt
  let (precision, args, fmt) := parsePrecision args fmt
  let (length, fmt) := parseLength fmt
  ({ flags with width := width, precision := precision, length := length }, args, fmt)

/-- The argument of `%d`. -/
def signedArg (length : UInt8) (word : BitVec 64) : BitVec 64 :=
  if length = 72 then (word.setWidth 8).signExtend 64
  else if length = 104 then (word.setWidth 16).signExtend 64
  else if length = 76 ∨ length = 108 ∨ length = 122 then word
  else (word.setWidth 32).signExtend 64

/-- The argument of `%u`, `%x`, `%X` and `%o`. -/
def unsignedArg (length : UInt8) (word : BitVec 64) : BitVec 64 :=
  if length = 72 then (word.setWidth 8).setWidth 64
  else if length = 104 then (word.setWidth 16).setWidth 64
  else if length = 76 ∨ length = 108 ∨ length = 122 then word
  else (word.setWidth 32).setWidth 64

/-- The bytes of `(null)`. -/
def nullText : List UInt8 := [40, 110, 117, 108, 108, 41]

/-- `format_string`. -/
def formatString (arg : Arg) (flags : FmtFlags) : List UInt8 :=
  let str := if arg.word = 0 then nullText else arg.text
  let len := if 0 ≤ flags.precision ∧ flags.precision < str.length then flags.precision.toNat else str.length
  kputsPadded (str.take len) flags 32

/-- `format_char`. -/
def formatChar (arg : Arg) (flags : FmtFlags) : List UInt8 :=
  kputsPadded [UInt8.ofBitVec (arg.word.setWidth 8)] flags 32

/-- `format_pointer`. -/
def formatPointer (arg : Arg) (flags : FmtFlags) (buf : NumBuf) : List UInt8 × NumBuf :=
  formatNumber arg.word.toNat 0 16 { flags with
    alt := true, uppercase := false, precision := if flags.precision < 0 then 16 else flags.precision } buf

/-- The conversion of a number that a character stands for. -/
def numConv (spec : UInt8) : Option NumConv :=
  if spec = 100 ∨ spec = 105 then some .d
  else if spec = 117 then some .u
  else if spec = 120 then some .x
  else if spec = 88 then some .upperX
  else if spec = 111 then some .o
  else none

/-- The `switch` of `kvprintf`: what is printed, the buffer, and how many arguments are taken. -/
def convert (spec : UInt8) (flags : FmtFlags) (args : VaList) (buf : NumBuf) : List UInt8 × NumBuf × Nat :=
  match numConv spec with
  | some c =>
    let word := if c = .d then signedArg flags.length (args 0).word else unsignedArg flags.length (args 0).word
    ((c.format word flags buf).1, (c.format word flags buf).2, 1)
  | none =>
    if spec = 99 then (formatChar (args 0) flags, buf, 1)
    else if spec = 115 then (formatString (args 0) flags, buf, 1)
    else if spec = 112 then ((formatPointer (args 0) flags buf).1, (formatPointer (args 0) flags buf).2, 1)
    else
      ([37] ++ (if flags.left then [45] else []) ++ (if flags.zeroPad then [48] else []) ++
        (if flags.alt then [35] else []) ++ [spec], buf, 0)

variable {args : VaList} {s fmt : List UInt8} {buf buf' : NumBuf} {flags : FmtFlags} {spec : UInt8}

/-! ### Every field goes on in the format -/

theorem parseDigits_length : ∀ (value : Int) (fmt : List UInt8), (parseDigits value fmt).2.length ≤ fmt.length
  | _, [] => le_rfl
  | value, c :: fmt => by
    rw [parseDigits]
    split
    · exact (parseDigits_length _ fmt).trans (Nat.le_succ _)
    · exact le_rfl

theorem parseFlags_length : ∀ (flags : FmtFlags) (fmt : List UInt8), (parseFlags flags fmt).2.length ≤ fmt.length
  | _, [] => le_rfl
  | flags, c :: fmt => by
    rw [parseFlags]
    split_ifs
    · exact (parseFlags_length _ fmt).trans (Nat.le_succ _)
    · exact (parseFlags_length _ fmt).trans (Nat.le_succ _)
    · exact (parseFlags_length _ fmt).trans (Nat.le_succ _)
    · exact le_rfl

theorem parseCount_length (absent : Int) (args : VaList) (fmt : List UInt8) :
    (parseCount absent args fmt).2.2.length ≤ fmt.length := by
  cases fmt with
  | nil => exact le_rfl
  | cons c fmt =>
    rw [parseCount]
    split_ifs
    · exact Nat.le_succ _
    · exact parseDigits_length 0 (c :: fmt)
    · exact le_rfl

theorem parsePrecision_length (args : VaList) (fmt : List UInt8) :
    (parsePrecision args fmt).2.2.length ≤ fmt.length := by
  cases fmt with
  | nil => exact le_rfl
  | cons c fmt =>
    rw [parsePrecision]
    split_ifs
    · exact (parseCount_length 0 args fmt).trans (Nat.le_succ _)
    · exact le_rfl

theorem parseTwice_length (once twice : UInt8) (fmt : List UInt8) :
    (parseTwice once twice fmt).2.length ≤ fmt.length := by
  cases fmt with
  | nil => exact le_rfl
  | cons c fmt =>
    rw [parseTwice]
    split
    · exact Nat.le_succ _
    · exact le_rfl

theorem parseLength_length (fmt : List UInt8) : (parseLength fmt).2.length ≤ fmt.length := by
  cases fmt with
  | nil => exact le_rfl
  | cons c fmt =>
    rw [parseLength]
    split_ifs
    · exact (parseTwice_length _ _ fmt).trans (Nat.le_succ _)
    · exact (parseTwice_length _ _ fmt).trans (Nat.le_succ _)
    · exact Nat.le_succ _
    · exact le_rfl

theorem parseFields_length (args : VaList) (fmt : List UInt8) :
    (parseFields args fmt).2.2.length ≤ fmt.length :=
  ((parseLength_length _).trans (parsePrecision_length _ _)).trans
    ((parseCount_length 0 args _).trans (parseFlags_length _ fmt))

/-- `kvprintf`: what is printed, and the buffer; a read behind the NUL is no answer. -/
def kvprintf (fmt : List UInt8) (args : VaList) (buf : NumBuf) : Option (List UInt8 × NumBuf) :=
  match fmt with
  | [] => none
  | c :: fmt =>
    if c = 0 then some ([], buf)
    else if c ≠ 37 then (kvprintf fmt args buf).map fun r => (c :: r.1, r.2)
    else if fmt.head? = some 37 then (kvprintf fmt.tail args buf).map fun r => (37 :: r.1, r.2)
    else
      match _h : (parseFields args fmt).2.2 with
      | [] => none
      | spec :: rest =>
        let r := convert spec (parseFields args fmt).1 (parseFields args fmt).2.1 buf
        (kvprintf rest ((parseFields args fmt).2.1.skip r.2.2) r.2.1).map fun t => (r.1 ++ t.1, t.2)
termination_by fmt.length
decreasing_by
  · exact Nat.lt_succ_self _
  · exact (List.length_tail ▸ Nat.sub_le ..).trans_lt (Nat.lt_succ_self _)
  · have hle := parseFields_length args fmt
    rw [_h] at hle
    exact Nat.lt_succ_of_lt hle

/-! ### What the format says -/

/-- The format behind a width, or behind the number after the point. -/
def afterCount : List UInt8 → List UInt8
  | [] => []
  | c :: s => if c = 42 then s else (c :: s).dropWhile isDigit

/-- How many arguments it takes. -/
def countArgs (s : List UInt8) : Nat := if s.head? = some 42 then 1 else 0

/-- The format behind the precision. -/
def afterPrecision : List UInt8 → List UInt8
  | [] => []
  | c :: s => if c = 46 then afterCount s else c :: s

/-- How many arguments it takes. -/
def precisionArgs (s : List UInt8) : Nat := if s.head? = some 46 then countArgs s.tail else 0

/-- The format behind the length modifier. -/
def afterLength : List UInt8 → List UInt8
  | [] => []
  | c :: s =>
    if c = 104 ∨ c = 108 then if s.head? = some c then s.tail else s
    else if c = 122 then s
    else c :: s

/-- The number that digits denote, with the number so far. -/
def decimal (n : Nat) (digits : List UInt8) : Nat := digits.foldl (fun n c => n * 10 + (c.toNat - 48)) n

/-- The precision: -1 if there is no point, else an argument or the number behind it as an `int`. -/
def precisionOf (args : VaList) (s : List UInt8) : Int :=
  if s.head? = some 46 then
    if s.tail.head? = some 42 then (args 0).int else i32 (decimal 0 (s.tail.takeWhile isDigit))
  else -1

/-- A flag. -/
def isFlag (c : UInt8) : Bool := c = 45 || c = 48 || c = 35

/-- The format behind the flags and the width of a conversion. -/
def afterWidth (s : List UInt8) : List UInt8 := afterCount (s.dropWhile isFlag)

/-- How many arguments the width takes. -/
def widthArgs (s : List UInt8) : Nat := countArgs (s.dropWhile isFlag)

/-- A conversion of a number: its digits are in the buffer. -/
def IsNumber (spec : UInt8) : Prop := (numConv spec).isSome ∨ spec = 112

/-- How many arguments the conversion itself takes. -/
def specArgs (spec : UInt8) : Nat := if (numConv spec).isSome ∨ spec ∈ [99, 115, 112] then 1 else 0

/-- No conversion of a format is cut off by its end, and none of a number has a precision above the length of
    the buffer. -/
inductive Formats : List UInt8 → VaList → Prop
  | nil {args : VaList} : Formats [] args
  | char {c : UInt8} {s : List UInt8} {args : VaList} (hc : c ≠ 37) (hs : Formats s args) : Formats (c :: s) args
  | percent {s : List UInt8} {args : VaList} (hs : Formats s args) : Formats (37 :: 37 :: s) args
  | conversion {s rest : List UInt8} {spec : UInt8} {args : VaList} (hs : s.head? ≠ some 37)
      (hspec : afterLength (afterPrecision (afterWidth s)) = spec :: rest)
      (hprecision : IsNumber spec → precisionOf (args.skip (widthArgs s)) (afterWidth s) ≤ kprintfNumBuf)
      (hrest : Formats rest (args.skip (widthArgs s + precisionArgs (afterWidth s) + specArgs spec))) :
      Formats (37 :: s) args

/-! ### The fields before the NUL -/

theorem parseFlags_nul : ∀ (s : List UInt8) (flags : FmtFlags),
    (parseFlags flags (s ++ [0])).2 = s.dropWhile isFlag ++ [0]
  | [], _ => rfl
  | c :: s, flags => by
    rw [List.cons_append, parseFlags, List.dropWhile_cons, isFlag]
    by_cases h45 : c = 45
    · rw [if_pos h45, parseFlags_nul s, if_pos (by simp [h45])]
    · by_cases h48 : c = 48
      · rw [if_neg h45, if_pos h48, parseFlags_nul s, if_pos (by simp [h48])]
      · by_cases h35 : c = 35
        · rw [if_neg h45, if_neg h48, if_pos h35, parseFlags_nul s, if_pos (by simp [h35])]
        · rw [if_neg h45, if_neg h48, if_neg h35, if_neg (by simp [h45, h48, h35])]
          rfl

/-- Wrapping at every step or at the end is the same. -/
theorem bmod_step (m : Nat) (z r : Int) : (z.bmod m * 10 + r).bmod m = (z * 10 + r).bmod m := by
  rw [← Int.bmod_add_bmod, Int.bmod_mul_bmod, Int.bmod_add_bmod]

theorem parseDigits_nul : ∀ (s : List UInt8) (n : Nat), parseDigits (i32 n) (s ++ [0]) =
    (i32 (decimal n (s.takeWhile isDigit)), s.dropWhile isDigit ++ [0])
  | [], _ => rfl
  | c :: s, n => by
    rw [List.cons_append, parseDigits, List.takeWhile_cons, List.dropWhile_cons]
    by_cases hc : isDigit c = true
    · have hge : 48 ≤ c.toNat := by
        rw [isDigit, Bool.and_eq_true, decide_eq_true_eq] at hc
        exact UInt8.le_iff_toNat_le.mp hc.1
      have hstep : i32 (i32 n * 10 + (c.toNat - 48 : Int)) = i32 ((n * 10 + (c.toNat - 48) : Nat) : Int) := by
        rw [i32, i32, bmod_step, i32]
        congr 1
        omega
      rw [if_pos hc, if_pos hc, if_pos hc, hstep, parseDigits_nul s]
      rfl
    · rw [if_neg hc, if_neg hc, if_neg hc]
      rfl

theorem parseDigits_zero (s : List UInt8) : parseDigits 0 (s ++ [0]) =
    (i32 (decimal 0 (s.takeWhile isDigit)), s.dropWhile isDigit ++ [0]) := parseDigits_nul s 0

theorem parseCount_nul (absent : Int) (args : VaList) (s : List UInt8) :
    (parseCount absent args (s ++ [0])).2 = (args.skip (countArgs s), afterCount s ++ [0]) := by
  cases s with
  | nil => rfl
  | cons c s =>
    rw [List.cons_append, parseCount, afterCount, countArgs]
    simp only [List.head?_cons, Option.some_inj]
    by_cases h42 : c = 42
    · rw [if_pos h42, if_pos h42, if_pos h42]
    · rw [if_neg h42, if_neg h42, if_neg h42]
      by_cases hc : isDigit c = true
      · rw [if_pos hc, ← List.cons_append, parseDigits_zero]
        rfl
      · rw [if_neg hc, List.dropWhile_cons, if_neg hc]
        rfl

/-- The number behind the point is 0 if there is none. -/
theorem parseCount_number (args : VaList) (s : List UInt8) : (parseCount 0 args (s ++ [0])).1 =
    if s.head? = some 42 then (args 0).int else i32 (decimal 0 (s.takeWhile isDigit)) := by
  cases s with
  | nil => rfl
  | cons c s =>
    rw [List.cons_append, parseCount]
    simp only [List.head?_cons, Option.some_inj]
    by_cases h42 : c = 42
    · rw [if_pos h42, if_pos h42]
    · rw [if_neg h42, if_neg h42]
      by_cases hc : isDigit c = true
      · rw [if_pos hc, ← List.cons_append, parseDigits_zero]
      · rw [if_neg hc, List.takeWhile_cons, if_neg hc]
        rfl

theorem parsePrecision_nul (args : VaList) (s : List UInt8) : parsePrecision args (s ++ [0]) =
    (precisionOf args s, args.skip (precisionArgs s), afterPrecision s ++ [0]) := by
  cases s with
  | nil => rfl
  | cons c s =>
    rw [List.cons_append, parsePrecision, precisionOf, precisionArgs, afterPrecision]
    simp only [List.head?_cons, List.tail_cons, Option.some_inj]
    by_cases h46 : c = 46
    · rw [if_pos h46, if_pos h46, if_pos h46, if_pos h46]
      exact Prod.ext (parseCount_number args s) (parseCount_nul 0 args s)
    · rw [if_neg h46, if_neg h46, if_neg h46, if_neg h46]
      rfl

theorem parseTwice_nul {once : UInt8} (twice : UInt8) (honce : once ≠ 0) (s : List UInt8) :
    (parseTwice once twice (s ++ [0])).2 = (if s.head? = some once then s.tail else s) ++ [0] := by
  cases s with
  | nil =>
    rw [List.nil_append, parseTwice, if_neg honce.symm]
    rfl
  | cons c s =>
    rw [List.cons_append, parseTwice]
    simp only [List.head?_cons, Option.some_inj]
    split <;> rfl

theorem parseLength_nul (s : List UInt8) : (parseLength (s ++ [0])).2 = afterLength s ++ [0] := by
  cases s with
  | nil => rfl
  | cons c s =>
    rw [List.cons_append, parseLength, afterLength]
    by_cases h104 : c = 104
    · rw [if_pos h104, if_pos (Or.inl h104), h104, parseTwice_nul 72 (by decide)]
    · by_cases h108 : c = 108
      · rw [if_neg h104, if_pos h108, if_pos (Or.inr h108), h108, parseTwice_nul 76 (by decide)]
      · rw [if_neg h104, if_neg h108, if_neg (not_or.mpr ⟨h104, h108⟩)]
        by_cases h122 : c = 122
        · rw [if_pos h122, if_pos h122]
        · rw [if_neg h122, if_neg h122]
          rfl

theorem skip_skip (args : VaList) (m n : Nat) : (args.skip m).skip n = args.skip (m + n) := by
  funext i
  rw [VaList.skip, VaList.skip, VaList.skip, Nat.add_assoc, Nat.add_comm n m]

/-- The fields are parsed as the format says. -/
theorem parseFields_nul (args : VaList) (s : List UInt8) :
    (parseFields args (s ++ [0])).1.precision = precisionOf (args.skip (widthArgs s)) (afterWidth s) ∧
    (parseFields args (s ++ [0])).2 = (args.skip (widthArgs s + precisionArgs (afterWidth s)),
      afterLength (afterPrecision (afterWidth s)) ++ [0]) := by
  have hcount := parseCount_nul 0 args (s.dropWhile isFlag)
  rw [parseFields]
  simp only [parseFlags_nul, hcount, parsePrecision_nul, parseLength_nul, skip_skip]
  exact ⟨rfl, rfl⟩

/-! ### Where a conversion stores -/

/-- A number is stored up to its precision. -/
theorem formatNumber_stored {value base : Nat} (hbase : 8 ≤ base) (hv : value < 2 ^ 64) (sign : UInt8)
    (flags : FmtFlags) (buf : NumBuf) :
    StoredBelow buf (formatNumber value sign base flags buf).2 (max 22 flags.precision.toNat) ∧
    (22 < flags.precision → flags.precision.toNat - 1 ∈ (formatNumber value sign base flags buf).2.stores) := by
  obtain ⟨len, buf', hrun, -, hbelow, hlast⟩ := numberDigits_spec (by omega : 1 < base) hv flags buf
  have hshort := numeral_short hbase hv flags.uppercase
  rw [formatNumber, hrun]
  exact ⟨hbelow.mono (max_le_max_right _ hshort), fun h => hlast (by omega)⟩

theorem NumConv.format_stored (c : NumConv) (value : BitVec 64) (flags : FmtFlags) (buf : NumBuf) :
    StoredBelow buf (c.format value flags buf).2 (max 22 flags.precision.toNat) ∧
    (22 < flags.precision → flags.precision.toNat - 1 ∈ (c.format value flags buf).2.stores) := by
  rw [c.format_eq]
  exact formatNumber_stored c.eight_le_base (c.magnitude_lt value) _ _ buf

theorem formatPointer_stored (arg : Arg) (flags : FmtFlags) (buf : NumBuf) :
    StoredBelow buf (formatPointer arg flags buf).2 (max 22 flags.precision.toNat) ∧
    (22 < flags.precision → flags.precision.toNat - 1 ∈ (formatPointer arg flags buf).2.stores) := by
  rw [formatPointer]
  by_cases hneg : flags.precision < 0
  · rw [if_pos hneg]
    have hstored := formatNumber_stored (by decide : 8 ≤ 16) arg.word.isLt 0
      { flags with alt := true, uppercase := false, precision := 16 } buf
    exact ⟨hstored.1.mono (le_max_left 22 _), fun h => by omega⟩
  · rw [if_neg hneg]
    exact formatNumber_stored (by decide) arg.word.isLt 0 { flags with alt := true, uppercase := false } buf

/-- A conversion of a number stores up to the precision, and no other stores. -/
theorem convert_stored (spec : UInt8) (flags : FmtFlags) (args : VaList) (buf : NumBuf) :
    (IsNumber spec → StoredBelow buf (convert spec flags args buf).2.1 (max 22 flags.precision.toNat) ∧
      (22 < flags.precision → flags.precision.toNat - 1 ∈ (convert spec flags args buf).2.1.stores)) ∧
    (¬ IsNumber spec → (convert spec flags args buf).2.1 = buf) := by
  rw [convert, IsNumber]
  cases hc : numConv spec with
  | some c =>
    exact ⟨fun _ => c.format_stored _ flags buf, fun h => absurd (Or.inl rfl) h⟩
  | none =>
    by_cases hp : spec = 112
    · rw [hp]
      exact ⟨fun _ => formatPointer_stored (args 0) flags buf, fun h => absurd (Or.inr rfl) h⟩
    · refine ⟨fun h => h.elim (fun h => by cases h) fun h => absurd h hp, fun _ => ?_⟩
      dsimp only
      rw [if_neg hp]
      split_ifs <;> rfl

theorem convert_args (spec : UInt8) (flags : FmtFlags) (args : VaList) (buf : NumBuf) :
    (convert spec flags args buf).2.2 = specArgs spec := by
  rw [convert, specArgs]
  cases numConv spec with
  | some c => rfl
  | none =>
    simp only [Option.isSome_none, Bool.false_eq_true, false_or, List.mem_cons, List.not_mem_nil, or_false]
    split_ifs <;> first | rfl | (exfalso; tauto)

/-- Everything was stored inside the buffer. -/
def InBuf (buf : NumBuf) : Prop := ∀ i ∈ buf.stores, i < kprintfNumBuf

theorem convert_grows (spec : UInt8) (flags : FmtFlags) (args : VaList) (buf : NumBuf) :
    ∀ i ∈ buf.stores, i ∈ (convert spec flags args buf).2.1.stores := by
  obtain ⟨hnumber, hother⟩ := convert_stored spec flags args buf
  by_cases h : IsNumber spec
  · exact (hnumber h).1.2
  · rw [hother h]
    exact fun _ => id

/-- A conversion stays in the buffer if and only if its precision is at most the length. -/
theorem convert_inBuf_iff (hbuf : InBuf buf) (spec : UInt8) (flags : FmtFlags) (args : VaList) :
    InBuf (convert spec flags args buf).2.1 ↔ (IsNumber spec → flags.precision ≤ kprintfNumBuf) := by
  obtain ⟨hnumber, hother⟩ := convert_stored spec flags args buf
  by_cases h : IsNumber spec
  · obtain ⟨hbelow, hlast⟩ := hnumber h
    rw [forall_prop_of_true h]
    constructor
    · intro hin
      by_contra hlong
      have h66 : (66 : Int) < flags.precision := not_le.mp hlong
      have := hin _ (hlast (by omega))
      simp only [kprintfNumBuf] at this
      omega
    · intro hp i hi
      have h66 : flags.precision ≤ 66 := hp
      refine (hbelow.1 i hi).elim (hbuf i) fun hlt => hlt.trans_le (max_le (by decide) ?_)
      simp only [kprintfNumBuf]
      omega
  · rw [hother h]
    exact iff_of_true hbuf fun hn => absurd hn h

/-! ### The whole format -/

theorem kvprintf_char {c : UInt8} (h0 : c ≠ 0) (h37 : c ≠ 37) (fmt : List UInt8) (args : VaList)
    (buf : NumBuf) : kvprintf (c :: fmt) args buf = (kvprintf fmt args buf).map fun r => (c :: r.1, r.2) := by
  rw [kvprintf, if_neg h0, if_pos h37]

theorem kvprintf_percent (fmt : List UInt8) (args : VaList) (buf : NumBuf) :
    kvprintf (37 :: 37 :: fmt) args buf = (kvprintf fmt args buf).map fun r => (37 :: r.1, r.2) := by
  rw [kvprintf, if_neg (by decide), if_neg (by decide), if_pos List.head?_cons, List.tail_cons]

theorem kvprintf_conversion (hs : fmt.head? ≠ some 37) {rest : List UInt8}
    (h : (parseFields args fmt).2.2 = spec :: rest) (buf : NumBuf) :
    kvprintf (37 :: fmt) args buf =
      let r := convert spec (parseFields args fmt).1 (parseFields args fmt).2.1 buf
      (kvprintf rest ((parseFields args fmt).2.1.skip r.2.2) r.2.1).map fun t => (r.1 ++ t.1, t.2) := by
  rw [kvprintf, if_neg (by decide), if_neg (by decide), if_neg hs]
  split
  · next h' => rw [h] at h'; cases h'
  · next h' =>
    rw [h] at h'
    cases h'
    rfl

/-- What was stored to stays in the list. -/
theorem kvprintf_grows (fmt : List UInt8) (args : VaList) (buf : NumBuf) :
    ∀ r, kvprintf fmt args buf = some r → ∀ i ∈ buf.stores, i ∈ r.2.stores := by
  induction fmt, args, buf using kvprintf.induct with
  | case1 args buf =>
    intro r h
    rw [kvprintf] at h
    cases h
  | case2 args buf fmt =>
    intro r h
    rw [kvprintf, if_pos rfl] at h
    cases h
    exact fun _ => id
  | case3 args buf c fmt h0 h37 ih =>
    intro r h
    rw [kvprintf_char h0 h37, Option.map_eq_some_iff] at h
    obtain ⟨t, ht, rfl⟩ := h
    exact ih t ht
  | case4 args buf c fmt h0 h37 hs ih =>
    intro r h
    rw [kvprintf, if_neg h0, if_neg h37, if_pos hs, Option.map_eq_some_iff] at h
    obtain ⟨t, ht, rfl⟩ := h
    exact ih t ht
  | case5 args buf c fmt h0 h37 hs hcut =>
    intro r h
    rw [kvprintf, if_neg h0, if_neg h37, if_neg hs] at h
    split at h
    · cases h
    · next h' => rw [hcut] at h'; cases h'
  | case6 args buf c fmt h0 h37 hs spec rest hspec r' ih =>
    intro r h
    obtain rfl : c = 37 := not_not.mp h37
    rw [kvprintf_conversion hs hspec, Option.map_eq_some_iff] at h
    obtain ⟨t, ht, rfl⟩ := h
    exact fun i hi => ih t ht i (convert_grows spec _ _ buf i hi)

/-! ### The rest of a format -/

theorem afterCount_suffix (s : List UInt8) : afterCount s <:+ s := by
  cases s with
  | nil => exact List.suffix_rfl
  | cons c s =>
    rw [afterCount]
    split
    · exact List.suffix_cons c s
    · exact List.dropWhile_suffix _

theorem afterPrecision_suffix (s : List UInt8) : afterPrecision s <:+ s := by
  cases s with
  | nil => exact List.suffix_rfl
  | cons c s =>
    rw [afterPrecision]
    split
    · exact (afterCount_suffix s).trans (List.suffix_cons c s)
    · exact List.suffix_rfl

theorem afterLength_suffix (s : List UInt8) : afterLength s <:+ s := by
  cases s with
  | nil => exact List.suffix_rfl
  | cons c s =>
    rw [afterLength]
    split_ifs
    · exact (List.tail_suffix s).trans (List.suffix_cons c s)
    · exact List.suffix_cons c s
    · exact List.suffix_cons c s
    · exact List.suffix_rfl

theorem afterFields_suffix (s : List UInt8) : afterLength (afterPrecision (afterWidth s)) <:+ s :=
  ((afterLength_suffix _).trans (afterPrecision_suffix _)).trans
    ((afterCount_suffix _).trans (List.dropWhile_suffix _))

/-- The call ends without a fault, and everything was stored inside the buffer. -/
def Safe (r : Option (List UInt8 × NumBuf)) : Prop := ∃ t, r = some t ∧ InBuf t.2

theorem safe_map {r : Option (List UInt8 × NumBuf)} (f : List UInt8 → List UInt8) :
    Safe (r.map fun t => (f t.1, t.2)) ↔ Safe r := by
  constructor
  · rintro ⟨_, ht, h⟩
    obtain ⟨t, hr, rfl⟩ := Option.map_eq_some_iff.mp ht
    exact ⟨t, hr, h⟩
  · rintro ⟨t, rfl, h⟩
    exact ⟨_, rfl, h⟩

theorem formats_char_iff {c : UInt8} (hc : c ≠ 37) : Formats (c :: s) args ↔ Formats s args := by
  constructor
  · intro h
    cases h with
    | char _ h => exact h
    | percent => exact absurd rfl hc
    | conversion => exact absurd rfl hc
  · exact .char hc

theorem formats_percent_iff : Formats (37 :: 37 :: s) args ↔ Formats s args := by
  constructor
  · intro h
    cases h with
    | char hc => exact absurd rfl hc
    | percent h => exact h
    | conversion hs => exact absurd rfl hs
  · exact .percent

theorem formats_cut (hs : s.head? ≠ some 37) (hcut : afterLength (afterPrecision (afterWidth s)) = []) :
    ¬ Formats (37 :: s) args := by
  intro h
  cases h with
  | char hc => exact hc rfl
  | percent => exact hs rfl
  | conversion _ h =>
    rw [hcut] at h
    cases h

theorem formats_conversion_iff {rest : List UInt8} (hs : s.head? ≠ some 37)
    (hspec : afterLength (afterPrecision (afterWidth s)) = spec :: rest) : Formats (37 :: s) args ↔
      (IsNumber spec → precisionOf (args.skip (widthArgs s)) (afterWidth s) ≤ kprintfNumBuf) ∧
      Formats rest (args.skip (widthArgs s + precisionArgs (afterWidth s) + specArgs spec)) := by
  constructor
  · intro h
    cases h with
    | char hc => exact absurd rfl hc
    | percent => exact absurd rfl hs
    | conversion _ h hprecision hrest =>
      rw [hspec] at h
      cases h
      exact ⟨hprecision, hrest⟩
  · exact fun ⟨hprecision, hrest⟩ => .conversion hs hspec hprecision hrest

/-- After a store outside the buffer the call is not safe. -/
theorem Safe.inBuf {args : VaList} (h : Safe (kvprintf fmt args buf)) : InBuf buf := by
  obtain ⟨t, ht, hin⟩ := h
  exact fun i hi => hin i (kvprintf_grows fmt args buf t ht i hi)

theorem kvprintf_safe (n : Nat) : ∀ {s : List UInt8} {args : VaList} {buf : NumBuf}, s.length ≤ n → 0 ∉ s →
    InBuf buf → (Safe (kvprintf (s ++ [0]) args buf) ↔ Formats s args) := by
  induction n with
  | zero =>
    intro s args buf hlen _ hbuf
    obtain rfl : s = [] := List.length_eq_zero_iff.mp (Nat.le_zero.mp hlen)
    rw [List.nil_append, kvprintf, if_pos rfl]
    exact iff_of_true ⟨_, rfl, hbuf⟩ .nil
  | succ n ih =>
    intro s args buf hlen hnul hbuf
    rcases s with - | ⟨c, s⟩
    · rw [List.nil_append, kvprintf, if_pos rfl]
      exact iff_of_true ⟨_, rfl, hbuf⟩ .nil
    obtain ⟨h0, hnul'⟩ := not_or.mp (List.mem_cons.not.mp hnul)
    have hlen' : s.length ≤ n := Nat.le_of_succ_le_succ hlen
    by_cases h37 : c = 37
    swap
    · rw [List.cons_append, kvprintf_char (Ne.symm h0) h37, safe_map (List.cons c), ih hlen' hnul' hbuf,
        formats_char_iff h37]
    subst h37
    by_cases hs : s.head? = some 37
    · obtain ⟨s, rfl⟩ := List.head?_eq_some_iff.mp hs
      rw [List.cons_append, List.cons_append, kvprintf_percent, safe_map (List.cons 37),
        ih ((Nat.le_succ _).trans hlen') (fun h => hnul' (List.mem_cons_of_mem _ h)) hbuf, formats_percent_iff]
    obtain ⟨hprecision, hfields⟩ := parseFields_nul args s
    have hs0 : (s ++ [0]).head? ≠ some 37 := by
      cases s with
      | nil => decide
      | cons d s => exact hs
    cases hspec : afterLength (afterPrecision (afterWidth s)) with
    | nil =>
      -- the conversion is cut off: it takes the NUL
      rw [hspec] at hfields
      rw [List.cons_append, kvprintf_conversion hs0 (congrArg Prod.snd hfields)]
      dsimp only
      rw [safe_map, kvprintf]
      exact iff_of_false (fun ⟨_, h, _⟩ => by cases h) (formats_cut hs hspec)
    | cons spec rest =>
      have hsuffix := hspec ▸ afterFields_suffix s
      have hrest : rest.length ≤ n := by
        have := hsuffix.length_le
        rw [List.length_cons] at this
        omega
      have hnul_rest : 0 ∉ rest := fun h => hnul' (hsuffix.subset (List.mem_cons_of_mem _ h))
      rw [hspec] at hfields
      rw [List.cons_append, kvprintf_conversion hs0 (congrArg Prod.snd hfields), formats_conversion_iff hs hspec]
      dsimp only
      rw [safe_map, convert_args, hfields, skip_skip]
      have hin := convert_inBuf_iff hbuf spec (parseFields args (s ++ [0])).1
        (args.skip (widthArgs s + precisionArgs (afterWidth s)))
      rw [hprecision] at hin
      constructor
      · exact fun h => ⟨hin.mp h.inBuf, (ih hrest hnul_rest h.inBuf).mp h⟩
      · exact fun ⟨h, hf⟩ => (ih hrest hnul_rest (hin.mpr h)).mpr hf

/-- `kvprintf` ends, reads nothing behind the NUL and stays in its buffer if and only if no conversion is cut
    off and none of a number has a precision above the length of the buffer. -/
theorem kvprintf_safe_iff (s : List UInt8) (hnul : 0 ∉ s) (args : VaList) (bytes : Nat → UInt8) :
    Safe (kvprintf (s ++ [0]) args ⟨bytes, []⟩) ↔ Formats s args :=
  kvprintf_safe s.length le_rfl hnul fun _ hi => absurd hi List.not_mem_nil

/-- `%d` and an argument. -/
theorem decimal_safe : Safe (kvprintf ([37, 100] ++ [0]) (fun _ => ⟨7, []⟩) ⟨fun _ => 0, []⟩) :=
  (kvprintf_safe_iff [37, 100] (by decide) _ _).mpr
    (.conversion (by decide) rfl (fun _ => (by decide : (-1 : Int) ≤ 66)) .nil)

/-- A format that ends with `%`. -/
theorem percent_unsafe : ¬ ∀ (s : List UInt8) (args : VaList) (bytes : Nat → UInt8), 0 ∉ s →
    Safe (kvprintf (s ++ [0]) args ⟨bytes, []⟩) := by
  intro h
  have hsafe := h [37] (fun _ => ⟨0, []⟩) (fun _ => 0) (by decide)
  rw [kvprintf_safe 1 le_rfl (by decide) fun _ hi => absurd hi List.not_mem_nil] at hsafe
  exact formats_cut (by decide) rfl hsafe

end TypeOS.Console
