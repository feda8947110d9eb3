import TypeOS.Console.Printf
import TypeOS.Console.Cursor

/-! What a format prints (`vga.c`).

    A format is written from pieces: characters, `%%`, and conversions with their flags, width, precision
    and length. `kvprintf` reads the text of the pieces back and prints what each of them says of the
    arguments that are left when its turn comes. The digits go through one buffer that all conversions of
    numbers share; nothing of an earlier number is printed with a later one. -/

namespace TypeOS.Console

/-! ### Conversions as they are written -/

/-- A width, or what stands behind the point. -/
inductive Count
  | absent
  | star
  | digits (ds : List UInt8)

namespace Count

def text : Count → List UInt8
  | absent => []
  | star => [42]
  | digits ds => ds

/-- How many arguments it takes. -/
def takes : Count → Nat
  | absent => 0
  | star => 1
  | digits _ => 0

/-- Its value; the digits are an `int`. -/
def value (args : VaList) : Count → Int
  | absent => 0
  | star => (args 0).int
  | digits ds => i32 (decimal 0 ds)

/-- The digits are digits. -/
def Valid : Count → Prop
  | digits ds => ds ≠ [] ∧ ∀ c ∈ ds, isDigit c = true
  | _ => True

end Count

/-- A length modifier. -/
inductive Modifier
  | none
  | h
  | hh
  | l
  | ll
  | z

namespace Modifier

def text : Modifier → List UInt8
  | none => []
  | h => [104]
  | hh => [104, 104]
  | l => [108]
  | ll => [108, 108]
  | z => [122]

/-- `flags.length`. -/
def code : Modifier → UInt8
  | none => 0
  | h => 104
  | hh => 72
  | l => 108
  | ll => 76
  | z => 122

end Modifier

/-- No field goes on with this character, nor is it the character of another field. -/
def ends (c : UInt8) : Bool := !isFlag c && !isDigit c && c ≠ 37 && c ≠ 42

/-- Nothing but the character of a conversion. -/
def plain (c : UInt8) : Bool := ends c && c ≠ 0 && c ≠ 46 && c ≠ 104 && c ≠ 108 && c ≠ 122

/-- A conversion: its flags in any order, a width that does not begin with a 0 (that would be a flag), the
    precision if there is a point, the length, and its character. -/
structure Conversion where
  flags : List UInt8
  width : Count
  precision : Option Count
  length : Modifier
  spec : UInt8
  flags_valid : ∀ c ∈ flags, isFlag c = true
  width_valid : width.Valid
  width_head : width.text.head? ≠ some 48
  precision_valid : ∀ p ∈ precision, p.Valid
  spec_plain : plain spec = true

namespace Conversion

/-- The text of a precision, with its point. -/
def precisionText (c : Conversion) : List UInt8 :=
  match c.precision with
  | none => []
  | some p => 46 :: p.text

/-- How it is written behind the `%`. -/
def text (c : Conversion) : List UInt8 :=
  c.flags ++ (c.width.text ++ (c.precisionText ++ (c.length.text ++ [c.spec])))

/-- How many arguments the width and the precision take. -/
def countTakes (c : Conversion) : Nat :=
  c.width.takes + match c.precision with
    | none => 0
    | some p => p.takes

/-- What the fields say. -/
def fields (c : Conversion) (args : VaList) : FmtFlags where
  width := c.width.value args
  precision :=
    match c.precision with
    | none => -1
    | some p => p.value (args.skip c.width.takes)
  left := c.flags.contains 45
  zeroPad := c.flags.contains 48
  alt := c.flags.contains 35
  uppercase := false
  length := c.length.code

end Conversion

variable {args : VaList} {s rest fs ds : List UInt8} {buf buf' : NumBuf} {flags : FmtFlags} {spec : UInt8}

/-! ### Reading the fields back -/

/-- The text begins with a character of this kind. -/
def Begins (p : UInt8 → Bool) (s : List UInt8) : Prop := ∃ c t, s = c :: t ∧ p c = true

theorem Begins.mono {p q : UInt8 → Bool} (h : Begins p s) (hpq : ∀ c, p c = true → q c = true) :
    Begins q s := by
  obtain ⟨c, t, rfl, hc⟩ := h
  exact ⟨c, t, rfl, hpq c hc⟩

theorem Begins.append {p : UInt8 → Bool} (h : Begins p s) (t : List UInt8) : Begins p (s ++ t) := by
  obtain ⟨c, u, rfl, hc⟩ := h
  exact ⟨c, u ++ t, rfl, hc⟩

theorem parseFlags_text (flags : FmtFlags) (hfs : ∀ c ∈ fs, isFlag c = true) (hs : Begins (fun c => !isFlag c) s) :
    parseFlags flags (fs ++ s) = ({ flags with
      left := flags.left || fs.contains 45
      zeroPad := flags.zeroPad || fs.contains 48
      alt := flags.alt || fs.contains 35 }, s) := by
  induction fs generalizing flags with
  | nil =>
    obtain ⟨c, t, rfl, hc⟩ := hs
    simp only [isFlag, Bool.not_eq_true', Bool.or_eq_false_iff, decide_eq_false_iff_not] at hc
    rw [List.nil_append, parseFlags, if_neg hc.1.1, if_neg hc.1.2, if_neg hc.2]
    simp
  | cons c fs ih =>
    have hc := hfs c (List.mem_cons_self ..)
    simp only [isFlag, Bool.or_eq_true, decide_eq_true_eq] at hc
    rw [List.cons_append, parseFlags]
    rcases hc with (rfl | rfl) | rfl
    · rw [if_pos rfl, ih _ fun x hx => hfs x (List.mem_cons_of_mem _ hx)]
      simp
    · rw [if_neg (by decide), if_pos rfl, ih _ fun x hx => hfs x (List.mem_cons_of_mem _ hx)]
      simp
    · rw [if_neg (by decide), if_neg (by decide), if_pos rfl,
        ih _ fun x hx => hfs x (List.mem_cons_of_mem _ hx)]
      simp

theorem skip_zero (args : VaList) : args.skip 0 = args := rfl

theorem parseCount_text (args : VaList) {count : Count} (hcount : count.Valid)
    (hs : Begins (fun c => !isDigit c && c ≠ 42) s) :
    parseCount 0 args (count.text ++ (s ++ [0])) = (count.value args, args.skip count.takes, s ++ [0]) := by
  obtain ⟨c, t, rfl, hc⟩ := hs
  simp only [Bool.and_eq_true, Bool.not_eq_true', decide_eq_true_eq] at hc
  cases count with
  | absent =>
    rw [Count.text, List.nil_append, List.cons_append, parseCount, if_neg hc.2, if_neg (by simp [hc.1])]
    rfl
  | star => rfl
  | digits ds =>
    obtain ⟨hne, hall⟩ := hcount
    obtain ⟨d, ds, rfl⟩ := List.exists_cons_of_ne_nil hne
    have hd := hall d (List.mem_cons_self ..)
    have hstar : d ≠ 42 := by
      rintro rfl
      exact absurd hd (by decide)
    have htake : (c :: t).takeWhile isDigit = [] := by rw [List.takeWhile_cons, if_neg (by simp [hc.1])]
    have hdrop : (c :: t).dropWhile isDigit = c :: t := by rw [List.dropWhile_cons, if_neg (by simp [hc.1])]
    have hparse := parseDigits_zero (d :: ds ++ c :: t)
    rw [List.takeWhile_append_of_pos hall, List.dropWhile_append_of_pos hall, htake, hdrop,
      List.append_nil, List.append_assoc] at hparse
    rw [Count.text, List.cons_append, parseCount, if_neg hstar, if_pos hd, ← List.cons_append, hparse,
      Count.value, Count.takes, skip_zero]

theorem parsePrecision_text (args : VaList) (c : Conversion)
    (hs : Begins (fun x => !isDigit x && x ≠ 42 && x ≠ 46) s) :
    parsePrecision args (c.precisionText ++ (s ++ [0])) =
      (match c.precision with | none => -1 | some p => p.value args,
        args.skip (match c.precision with | none => 0 | some p => p.takes), s ++ [0]) := by
  rw [Conversion.precisionText]
  cases hprec : c.precision with
  | none =>
    obtain ⟨x, t, rfl, hx⟩ := hs
    simp only [Bool.and_eq_true, decide_eq_true_eq] at hx
    dsimp only
    rw [List.nil_append, List.cons_append, parsePrecision, if_neg hx.2, skip_zero]
  | some p =>
    have hp := parseCount_text args (c.precision_valid p hprec)
      (hs.mono fun x hx => (Bool.and_eq_true_iff.mp hx).1)
    dsimp only
    rw [List.cons_append, parsePrecision, if_pos rfl, hp]

theorem parseLength_text (m : Modifier) (hs : Begins (fun x => x ≠ 104 && x ≠ 108 && x ≠ 122) s) :
    parseLength (m.text ++ (s ++ [0])) = (m.code, s ++ [0]) := by
  obtain ⟨x, t, rfl, hx⟩ := hs
  simp only [Bool.and_eq_true, decide_eq_true_eq] at hx
  obtain ⟨⟨h104, h108⟩, h122⟩ := hx
  cases m with
  | none => rw [Modifier.text, List.nil_append, List.cons_append, parseLength, if_neg h104, if_neg h108,
      if_neg h122]; rfl
  | h => simp [Modifier.text, parseLength, parseTwice, h104, Modifier.code]
  | hh => rfl
  | l => simp [Modifier.text, parseLength, parseTwice, h108, Modifier.code]
  | ll => rfl
  | z => rfl

namespace Conversion

variable (c : Conversion)

theorem spec_ends : c.spec ≠ 0 ∧ isFlag c.spec = false ∧ isDigit c.spec = false ∧ c.spec ≠ 37 ∧
    c.spec ≠ 42 ∧ c.spec ≠ 46 ∧ c.spec ≠ 104 ∧ c.spec ≠ 108 ∧ c.spec ≠ 122 := by
  have h := c.spec_plain
  simp only [plain, ends, Bool.and_eq_true, Bool.not_eq_true', decide_eq_true_eq] at h
  tauto

/-- Behind the precision comes no more of it. -/
theorem length_begins (rest : List UInt8) : Begins (fun x => ends x && x ≠ 46) (c.length.text ++ (c.spec :: rest)) := by
  cases hl : c.length with
  | none =>
    have h := c.spec_ends
    exact ⟨c.spec, rest, rfl, by simp [ends, h]⟩
  | h => exact ⟨104, _, rfl, by decide⟩
  | hh => exact ⟨104, _, rfl, by decide⟩
  | l => exact ⟨108, _, rfl, by decide⟩
  | ll => exact ⟨108, _, rfl, by decide⟩
  | z => exact ⟨122, _, rfl, by decide⟩

/-- Behind the width comes no more of it. -/
theorem precision_begins (hs : Begins (fun x => ends x && x ≠ 46) s) :
    Begins ends (c.precisionText ++ s) := by
  rw [precisionText]
  cases c.precision with
  | none => exact hs.mono fun x hx => (Bool.and_eq_true_iff.mp hx).1
  | some p => exact ⟨46, _, rfl, by decide⟩

/-- Behind the flags come no more of them, nor a `%`. -/
theorem width_begins (hs : Begins ends s) :
    Begins (fun x => !isFlag x && x ≠ 37) (c.width.text ++ s) := by
  have hvalid := c.width_valid
  have hhead := c.width_head
  cases hw : c.width with
  | absent =>
    refine hs.mono fun x hx => ?_
    simp only [ends, Bool.and_eq_true] at hx ⊢
    exact ⟨hx.1.1.1, hx.1.2⟩
  | star => exact ⟨42, _, rfl, by decide⟩
  | digits ds =>
    rw [hw] at hvalid hhead
    obtain ⟨d, ds, rfl⟩ := List.exists_cons_of_ne_nil hvalid.1
    have hd := hvalid.2 d (List.mem_cons_self ..)
    have hzero : d ≠ 48 := by simpa [Count.text] using hhead
    have hother : d ≠ 45 ∧ d ≠ 35 ∧ d ≠ 37 := by
      refine ⟨?_, ?_, ?_⟩ <;>
      · rintro rfl
        exact absurd hd (by decide)
    exact ⟨d, _, rfl, by simp [isFlag, hzero, hother]⟩

/-- It is no `%%`. -/
theorem text_head (s : List UInt8) : (c.text ++ s).head? ≠ some 37 := by
  have hl := c.length_begins []
  have hw := (c.width_begins (c.precision_begins hl)).mono fun x hx => (Bool.and_eq_true_iff.mp hx).2
  have hvalid := c.flags_valid
  rw [text]
  cases hf : c.flags with
  | nil =>
    obtain ⟨x, t, ht, hx⟩ := hw
    rw [List.nil_append, ht]
    simpa using hx
  | cons f fs =>
    have hflag := hvalid f (hf ▸ List.mem_cons_self ..)
    rw [List.cons_append, List.cons_append, List.head?_cons]
    intro h
    obtain rfl := Option.some.inj h
    exact absurd hflag (by decide)

/-- The parser gets the fields back. -/
theorem parse_text (args : VaList) (rest : List UInt8) :
    parseFields args (c.text ++ (rest ++ [0])) =
      (c.fields args, args.skip c.countTakes, c.spec :: (rest ++ [0])) := by
  have htext : c.text ++ (rest ++ [0]) =
      c.flags ++ (c.width.text ++ (c.precisionText ++ (c.length.text ++ c.spec :: rest) ++ [0])) := by
    simp [text]
  obtain ⟨-, -, -, -, -, -, h104, h108, h122⟩ := c.spec_ends
  have hl := c.length_begins rest
  have hp := c.precision_begins hl
  have hflags := parseFlags_text .start c.flags_valid
    (((c.width_begins hp).mono fun x hx => (Bool.and_eq_true_iff.mp hx).1).append [0])
  have hcount := parseCount_text args c.width_valid
    (hp.mono fun x hx => by simp only [ends, Bool.and_eq_true] at hx ⊢; tauto)
  have hprec := parsePrecision_text (args.skip c.width.takes) c
    (hl.mono fun x hx => by simp only [ends, Bool.and_eq_true] at hx ⊢; tauto)
  have hlen := parseLength_text c.length (s := c.spec :: rest)
    ⟨c.spec, rest, rfl, by simp [h104, h108, h122]⟩
  simp only [List.append_assoc] at hflags hcount hprec hlen
  rw [htext, parseFields]
  simp only [List.append_assoc, hflags, hcount, hprec, hlen, skip_skip]
  rfl

end Conversion

/-! ### What is printed -/

/-- A number with its sign, its prefix and its padding. -/
def numberText (value : Nat) (sign : UInt8) (base : Nat) (flags : FmtFlags) : List UInt8 :=
  putNumber (precisionDigits base flags.uppercase value flags.precision) sign
    (numberPrefix value base flags) flags

/-- What a conversion prints of the arguments that are left. -/
def Conversion.out (c : Conversion) (args : VaList) : List UInt8 :=
  let flags := c.fields args
  let arg := args c.countTakes
  match numConv c.spec with
  | some n =>
    let word := if n = .d then signedArg flags.length arg.word else unsignedArg flags.length arg.word
    numberText (n.magnitude word) (if n.signed word then 45 else 0) n.base
      { flags with uppercase := n = .upperX }
  | none =>
    if c.spec = 99 then formatChar arg flags
    else if c.spec = 115 then formatString arg flags
    else if c.spec = 112 then
      numberText arg.word.toNat 0 16 { flags with
        alt := true, uppercase := false, precision := if flags.precision < 0 then 16 else flags.precision }
    else
      [37] ++ (if flags.left then [45] else []) ++ (if flags.zeroPad then [48] else []) ++
        (if flags.alt then [35] else []) ++ [c.spec]

/-- A piece of a format. -/
inductive Piece
  | char (c : UInt8) (h : c ≠ 0 ∧ c ≠ 37)
  | percent
  | conversion (c : Conversion)

namespace Piece

def text : Piece → List UInt8
  | char c _ => [c]
  | percent => [37, 37]
  | conversion c => 37 :: c.text

/-- How many arguments it takes. -/
def takes : Piece → Nat
  | char .. => 0
  | percent => 0
  | conversion c => c.countTakes + specArgs c.spec

/-- What it prints of the arguments that are left. -/
def out (args : VaList) : Piece → List UInt8
  | char c _ => [c]
  | percent => [37]
  | conversion c => c.out args

/-- The buffer has room for its digits. -/
def Fits (args : VaList) : Piece → Prop
  | conversion c => IsNumber c.spec → (c.fields args).precision ≤ kprintfNumBuf
  | _ => True

end Piece

/-- What pieces print, one after the other. -/
def printed : List Piece → VaList → List UInt8
  | [], _ => []
  | p :: ps, args => p.out args ++ printed ps (args.skip p.takes)

/-- The buffer has room for the digits of each. -/
def AllFit : List Piece → VaList → Prop
  | [], _ => True
  | p :: ps, args => p.Fits args ∧ AllFit ps (args.skip p.takes)

/-- Nothing that was in the buffer before is printed. -/
theorem formatNumber_text {value base : Nat} (hbase : 1 < base) (hv : value < 2 ^ 64) (sign : UInt8)
    (flags : FmtFlags) (buf : NumBuf) :
    (formatNumber value sign base flags buf).1 = numberText value sign base flags := by
  obtain ⟨len, buf', hrun, htext, -, -⟩ := numberDigits_spec hbase hv flags buf
  rw [formatNumber, hrun, numberText]
  dsimp only
  rw [htext]

theorem Conversion.convert_out (c : Conversion) (args : VaList) (buf : NumBuf) :
    (convert c.spec (c.fields args) (args.skip c.countTakes) buf).1 = c.out args := by
  have harg : (args.skip c.countTakes) 0 = args c.countTakes := by
    rw [VaList.skip, Nat.zero_add]
  rw [convert, Conversion.out, harg]
  cases numConv c.spec with
  | some n =>
    dsimp only
    rw [n.format_eq]
    exact formatNumber_text n.one_lt_base (n.magnitude_lt _) ..
  | none =>
    dsimp only
    by_cases hc : c.spec = 99
    · rw [if_pos hc, if_pos hc]
    by_cases hs : c.spec = 115
    · rw [if_neg hc, if_neg hc, if_pos hs, if_pos hs]
    by_cases hp : c.spec = 112
    · rw [if_neg hc, if_neg hc, if_neg hs, if_neg hs, if_pos hp, if_pos hp]
      exact formatNumber_text (by decide : 1 < 16) (BitVec.isLt _) ..
    · rw [if_neg hc, if_neg hc, if_neg hs, if_neg hs, if_neg hp, if_neg hp]

/-- A piece is read back, and prints what it says. -/
theorem Piece.printed (p : Piece) (hfit : p.Fits args) (buf : NumBuf) :
    ∃ buf', (InBuf buf → InBuf buf') ∧ ∀ rest, kvprintf (p.text ++ (rest ++ [0])) args buf =
      (kvprintf (rest ++ [0]) (args.skip p.takes) buf').map fun r => (p.out args ++ r.1, r.2) := by
  cases p with
  | char c h => exact ⟨buf, id, fun rest => kvprintf_char h.1 h.2 ..⟩
  | percent => exact ⟨buf, id, fun rest => kvprintf_percent ..⟩
  | conversion c =>
    refine ⟨_, fun hbuf => (convert_inBuf_iff hbuf c.spec (c.fields args) (args.skip c.countTakes)).mpr
      hfit, fun rest => ?_⟩
    have hparse := c.parse_text args rest
    rw [Piece.text, List.cons_append, kvprintf_conversion (c.text_head _) (by rw [hparse]), hparse]
    simp only [c.convert_out, convert_args, skip_skip]
    rfl

/-- So are pieces one after the other. -/
theorem kvprintf_printed (ps : List Piece) : ∀ {args : VaList} (_ : AllFit ps args) (buf : NumBuf),
    ∃ buf', (InBuf buf → InBuf buf') ∧
      kvprintf (ps.flatMap Piece.text ++ [0]) args buf = some (Console.printed ps args, buf') := by
  induction ps with
  | nil =>
    intro args _ buf
    refine ⟨buf, id, ?_⟩
    rw [List.flatMap_nil, List.nil_append, kvprintf, if_pos rfl]
    rfl
  | cons p ps ih =>
    intro args h buf
    obtain ⟨buf₁, hin₁, hpiece⟩ := p.printed h.1 buf
    obtain ⟨buf₂, hin₂, hrest⟩ := ih h.2 buf₁
    refine ⟨buf₂, hin₂ ∘ hin₁, ?_⟩
    rw [List.flatMap_cons, List.append_assoc, hpiece, hrest]
    rfl

/-! ### On the screen -/

/-- Characters given to `vga_putchar`. -/
def putAll (str : List UInt8) (v : Vga) : Vga := str.foldl (fun v c => vgaPutchar c v) v

/-- `kprintf`. -/
def kprintf (fmt : List UInt8) (args : VaList) (v : Vga) (buf : NumBuf) : Option (Vga × NumBuf) :=
  (kvprintf fmt args buf).map fun r => (putAll r.1 v, r.2)

variable {v : Vga} {ps : List Piece}

theorem Kept.putAll (str : List UInt8) : ∀ {v : Vga}, Kept v → Kept (Console.putAll str v) := by
  induction str with
  | nil => exact fun h => h
  | cons c str ih => exact fun h => ih (h.putchar c)

theorem Shows.putAll (str : List UInt8) : ∀ {v : Vga} {s : Terminal.Screen Cell}, Shows v s →
    s.Inside (codeLook v.currentColor) →
    Shows (Console.putAll str v) (Terminal.run (codeLook v.currentColor) s str) := by
  induction str with
  | nil => exact fun h _ => h
  | cons c str ih =>
    intro v s h hin
    have hput := h.putchar hin c
    have hrest := ih hput.shows (by rw [hput.color]; exact Terminal.put_inside hin c)
    rwa [hput.color] at hrest

/-- A call of `kprintf` with a format of such pieces returns; the screen then shows, from where the cursor
    was, what the pieces print one after the other, whatever earlier calls left in the buffer. Nothing was
    stored to outside the buffer and the screen. -/
theorem kprintf_shows (hv : Kept v) (hbuf : InBuf buf) (hfit : AllFit ps args) :
    ∃ v' buf', kprintf (ps.flatMap Piece.text ++ [0]) args v buf = some (v', buf') ∧
      Shows v' (Terminal.run (codeLook v.currentColor) (vgaScreen v) (printed ps args)) ∧
      Kept v' ∧ InBuf buf' := by
  obtain ⟨buf', hin, hrun⟩ := kvprintf_printed ps hfit buf
  refine ⟨putAll (printed ps args) v, buf', ?_, hv.shows.putAll _ (hv.inside _), hv.putAll _, hin hbuf⟩
  rw [kprintf, hrun]
  rfl

/-- `%-4u` -/
def leftFour : Conversion :=
  ⟨[45], .digits [52], none, .none, 117, by simp [isFlag], ⟨by simp, by simp [isDigit]⟩, by decide, by simp,
    by decide⟩

/-- Two numbers and a newline. -/
theorem kprintf_shows_numbers :
    let args : VaList := fun i => ⟨if i = 0 then 107 else 5, []⟩
    ∃ v' buf', kprintf ([37, 45, 52, 117, 37, 45, 52, 117, 10] ++ [0]) args blankVga ⟨fun _ => 0, []⟩ =
        some (v', buf') ∧
      Shows v' (Terminal.run (codeLook 0x8f) (vgaScreen blankVga) [49, 48, 55, 32, 53, 32, 32, 32, 10]) := by
  intro args
  have hkept : Kept blankVga := ⟨by decide, by decide, by simp [blankVga]⟩
  have hbuf : InBuf ⟨fun _ => 0, []⟩ := fun i hi => absurd hi (by simp)
  have hfit : AllFit [.conversion leftFour, .conversion leftFour, .char 10 (by decide)] args :=
    ⟨fun _ => by decide, fun _ => by decide, trivial, trivial⟩
  obtain ⟨v', buf', hrun, hshows, -⟩ := kprintf_shows hkept hbuf hfit
  have hprinted : printed [.conversion leftFour, .conversion leftFour, .char 10 (by decide)] args =
      [49, 48, 55, 32, 53, 32, 32, 32, 10] := by decide
  rw [hprinted] at hshows
  exact ⟨v', buf', hrun, hshows⟩

end TypeOS.Console
