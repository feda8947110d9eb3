import Mathlib.Data.Nat.Bitwise
import TypeOS.Sched.Keyboard

/-! Which keys the scancodes push (`keyboard.c`).

    The driver knows of the keys that are held only one bit: whether the last thing that happened to a
    shift key was that it was pressed. That is not whether one is held: when both were and one is
    released, the other still is. Between two events the ring may become any other one. -/

namespace TypeOS.Sched

/-- The code of a key that is pressed; one whose release would look like a prefix is no key. -/
structure Key where
  code : Nat
  small : code < 0x80
  plain : code ≠ 0x60 ∧ code ≠ 0x61

/-- What happens to the keys: those with their own code, those with the prefix `0xE0`, and the key that sends
    both its codes with `0xE1`. -/
inductive KeyEvent
  | press (k : Key)
  | release (k : Key)
  | pressExtended (k : Key)
  | releaseExtended (k : Key)
  | pause

/-- The scancodes of an event. -/
def KeyEvent.scancodes : KeyEvent → List Nat
  | press k => [k.code]
  | release k => [k.code + 0x80]
  | pressExtended k => [0xE0, k.code]
  | releaseExtended k => [0xE0, k.code + 0x80]
  | pause => [0xE1, 0x1D, 0x45, 0xE1, 0x9D, 0xC5]

/-- A shift key. -/
def Key.IsShift (k : Key) : Prop := k.code = 0x2A ∨ k.code = 0x36

instance (k : Key) : Decidable k.IsShift := inferInstanceAs (Decidable (_ ∨ _))

/-- The codes of the keys that are held, after what happened. -/
def held (past : List KeyEvent) : Finset Nat :=
  past.foldl (fun held e =>
    match e with
    | .press k => insert k.code held
    | .release k => held.erase k.code
    | _ => held) ∅

/-- At least one shift key is held. -/
def ShiftHeld (past : List KeyEvent) : Prop := 0x2A ∈ held past ∨ 0x36 ∈ held past

instance (past : List KeyEvent) : Decidable (ShiftHeld past) := inferInstanceAs (Decidable (_ ∨ _))

/-- The last thing that happened to a shift key was a release. -/
def shiftReleased (past : List KeyEvent) : Bool :=
  past.foldl (fun released e =>
    match e with
    | .press k => if k.IsShift then false else released
    | .release k => if k.IsShift then true else released
    | _ => released) false

/-- The key code of an arrow. -/
def arrowKey (code : Nat) : Option Nat :=
  if code = 0x4B then some 0x100
  else if code = 0x4D then some 0x101
  else if code = 0x48 then some 0x102
  else if code = 0x50 then some 0x103
  else none

/-- The character of a key, if it has one. -/
def keyChar (shift : Bool) (code : Nat) : Option Nat :=
  if keyAscii shift code = 0 then none else some (keyAscii shift code)

/-- What an event pushes where the shift keys are as `shift` says. -/
def KeyEvent.pushes (shift : Bool) : KeyEvent → Option Nat
  | press k => keyChar shift k.code
  | pressExtended k => arrowKey k.code
  | _ => none

/-- The ring of keys. -/
def Keyboard.ring (kb : Keyboard) : (Nat → Nat) × Nat × Nat := (kb.buffer, kb.head, kb.tail)

/-- A key is pushed, or none. -/
def pushKey (key : Option Nat) (kb : Keyboard) : Keyboard :=
  match key with
  | none => kb
  | some key => (keyboardPush key kb).2

/-- The driver after the scancodes of an event. -/
def KeyEvent.handle (e : KeyEvent) (kb : Keyboard) : Keyboard := (pollAll e.scancodes kb).2

/-- Every event does to the ring, whatever is in it, what pushing the key does that the keys held call for;
    the flags of the driver are given, and what happened before. -/
def Decodes : List KeyEvent → Bool → Bool → List KeyEvent → Prop
  | _, _, _, [] => True
  | past, shift, extended, e :: events => ∀ kb : Keyboard, kb.shiftPressed = shift →
      kb.extendedScancode = extended →
      (e.handle kb).ring = (pushKey (e.pushes (ShiftHeld past)) kb).ring ∧
      Decodes (past ++ [e]) (e.handle kb).shiftPressed (e.handle kb).extendedScancode events

/-- No key with two characters is pressed when a shift key is held but the last thing that happened to one was
    a release. -/
def Undisturbed : List KeyEvent → List KeyEvent → Prop
  | _, [] => True
  | past, e :: events =>
    (∀ k, e = .press k → keyAscii true k.code ≠ keyAscii false k.code →
      ShiftHeld past → shiftReleased past = false) ∧
    Undisturbed (past ++ [e]) events

variable {kb : Keyboard} {past : List KeyEvent} {e : KeyEvent} {b shift : Bool}

/-! ### One event -/

theorem and_0x80_of_lt {n : Nat} (h : n < 0x80) : n &&& 0x80 = 0 := by
  have hand := Nat.and_two_pow n 7
  rwa [Nat.testBit_lt_two_pow h, Bool.toNat_false, zero_mul] at hand

theorem and_0x80_of_ge {n : Nat} (h : n < 0x80) : n + 0x80 &&& 0x80 ≠ 0 := by
  have hand := Nat.and_two_pow (2 ^ 7 + n) 7
  rw [Nat.testBit_two_pow_add_eq, Nat.testBit_lt_two_pow h, Bool.not_false, Bool.toNat_true, one_mul] at hand
  rw [Nat.add_comm]
  exact hand.trans_ne (by decide)

/-- The flag of the driver after an event. -/
def KeyEvent.shiftAfter (shift : Bool) : KeyEvent → Bool
  | press k => shift || k.IsShift
  | release k => shift && !k.IsShift
  | _ => shift

/-- What an event does to the driver: it pushes by its own flag. -/
structure Handled (e : KeyEvent) (kb kb' : Keyboard) : Prop where
  ring : kb'.ring = (pushKey (e.pushes kb.shiftPressed) kb).ring
  shift : kb'.shiftPressed = e.shiftAfter kb.shiftPressed
  extended : kb'.extendedScancode = false

theorem keyboardPush_flags (key : Nat) (kb : Keyboard) :
    (keyboardPush key kb).2.shiftPressed = kb.shiftPressed ∧
    (keyboardPush key kb).2.extendedScancode = kb.extendedScancode := by
  simp only [keyboardPush]
  split <;> exact ⟨rfl, rfl⟩

theorem pushKey_flags (key : Option Nat) (kb : Keyboard) :
    (pushKey key kb).shiftPressed = kb.shiftPressed ∧
    (pushKey key kb).extendedScancode = kb.extendedScancode := by
  cases key with
  | none => exact ⟨rfl, rfl⟩
  | some key => exact keyboardPush_flags key kb

theorem keyboardHandleExtended_eq (scancode : Nat) (kb : Keyboard) :
    (keyboardHandleExtended scancode kb).2 = pushKey (arrowKey scancode) kb := by
  unfold keyboardHandleExtended
  split
  · rfl
  · rfl
  · rfl
  · rfl
  · next h1 h2 h3 h4 => rw [arrowKey, if_neg h1, if_neg h2, if_neg h3, if_neg h4, pushKey]

/-- A shift key has no character. -/
theorem keyChar_shift {k : Key} (h : k.IsShift) (shift : Bool) : keyChar shift k.code = none := by
  rcases h with h | h <;> rw [h] <;> cases shift <;> rfl

theorem handle_press (h : kb.extendedScancode = false) (k : Key) :
    Handled (.press k) kb (KeyEvent.handle (.press k) kb) := by
  have hk := k.small
  change Handled _ _ (keyboardHandleScancode k.code kb).2
  rw [keyboardHandleScancode, if_neg (by omega), if_neg (by omega), if_neg (by rw [h]; decide)]
  by_cases hs : k.IsShift
  · rw [if_pos (show k.code = 0x2A ∨ k.code = 0x36 from hs)]
    refine ⟨?_, by simp [KeyEvent.shiftAfter, hs], h⟩
    rw [KeyEvent.pushes, keyChar_shift hs]
    rfl
  · rw [if_neg (show ¬ (k.code = 0x2A ∨ k.code = 0x36) from hs), if_neg (by omega),
      if_neg (by rw [and_0x80_of_lt hk]; decide)]
    have hshift : KeyEvent.shiftAfter kb.shiftPressed (.press k) = kb.shiftPressed := by
      simp [KeyEvent.shiftAfter, hs]
    have hkey : (if keyAscii kb.shiftPressed k.code = 0 then (false, kb)
        else keyboardPush (keyAscii kb.shiftPressed k.code) kb).2 =
        pushKey (keyChar kb.shiftPressed k.code) kb := by
      rw [keyChar]
      split <;> rfl
    obtain ⟨hs', he'⟩ := pushKey_flags (keyChar kb.shiftPressed k.code) kb
    rw [hkey]
    exact ⟨rfl, hs'.trans hshift.symm, he'.trans h⟩

theorem handle_release (h : kb.extendedScancode = false) (k : Key) :
    Handled (.release k) kb (KeyEvent.handle (.release k) kb) := by
  have hk := k.small
  have hplain := k.plain
  change Handled _ _ (keyboardHandleScancode (k.code + 0x80) kb).2
  rw [keyboardHandleScancode, if_neg (by omega), if_neg (by omega), if_neg (by rw [h]; decide),
    if_neg (by omega)]
  by_cases hs : k.IsShift
  · rw [if_pos (by rcases hs with hs | hs <;> rw [hs] <;> decide)]
    exact ⟨rfl, by simp [KeyEvent.shiftAfter, hs], h⟩
  · have hno : ¬ (k.code + 0x80 = 0xAA ∨ k.code + 0x80 = 0xB6) := fun hor => hs (by
      rw [Key.IsShift]
      omega)
    rw [if_neg hno, if_pos (and_0x80_of_ge hk)]
    exact ⟨rfl, by simp [KeyEvent.shiftAfter, hs], h⟩

/-- Behind the prefix only an arrow that is pressed pushes something. -/
theorem handle_prefixed {scancode : Nat} (h0 : scancode ≠ 0xE0) (h1 : scancode ≠ 0xE1) (kb : Keyboard)
    (h : kb.extendedScancode = false) :
    (pollAll [0xE0, scancode] kb).2 = pushKey (arrowKey scancode) kb := by
  have hkb : { kb with extendedScancode := false } = kb := by rw [← h]
  change (keyboardHandleScancode scancode { kb with extendedScancode := true }).2 = _
  rw [keyboardHandleScancode, if_neg h0, if_neg h1, if_pos rfl, keyboardHandleExtended_eq]
  exact congrArg (pushKey (arrowKey scancode)) hkb

theorem handle_pressExtended (h : kb.extendedScancode = false) (k : Key) :
    Handled (.pressExtended k) kb (KeyEvent.handle (.pressExtended k) kb) := by
  have hk := k.small
  obtain ⟨hs', he'⟩ := pushKey_flags (arrowKey k.code) kb
  rw [KeyEvent.handle, KeyEvent.scancodes, handle_prefixed (by omega) (by omega) kb h]
  exact ⟨rfl, hs', he'.trans h⟩

theorem handle_releaseExtended (h : kb.extendedScancode = false) (k : Key) :
    Handled (.releaseExtended k) kb (KeyEvent.handle (.releaseExtended k) kb) := by
  have hplain := k.plain
  have hnone : arrowKey (k.code + 0x80) = none := by
    rw [arrowKey, if_neg (by omega), if_neg (by omega), if_neg (by omega), if_neg (by omega)]
  rw [KeyEvent.handle, KeyEvent.scancodes, handle_prefixed (by omega) (by omega) kb h, hnone]
  exact ⟨rfl, rfl, h⟩

theorem handle_pause (h : kb.extendedScancode = false) :
    Handled .pause kb (KeyEvent.handle .pause kb) := by
  obtain ⟨shift, extended, buffer, head, tail, controller⟩ := kb
  cases shift <;> cases h <;> exact ⟨rfl, rfl, rfl⟩

theorem handle_spec (h : kb.extendedScancode = false) (e : KeyEvent) : Handled e kb (e.handle kb) := by
  cases e with
  | press k => exact handle_press h k
  | release k => exact handle_release h k
  | pressExtended k => exact handle_pressExtended h k
  | releaseExtended k => exact handle_releaseExtended h k
  | pause => exact handle_pause h

/-! ### The flag and the keys -/

theorem held_concat (past : List KeyEvent) (e : KeyEvent) : held (past ++ [e]) =
    match e with
    | .press k => insert k.code (held past)
    | .release k => (held past).erase k.code
    | _ => held past := by
  rw [held, List.foldl_append, List.foldl_cons, List.foldl_nil, ← held]

theorem shiftReleased_concat (past : List KeyEvent) (e : KeyEvent) : shiftReleased (past ++ [e]) =
    match e with
    | .press k => if k.IsShift then false else shiftReleased past
    | .release k => if k.IsShift then true else shiftReleased past
    | _ => shiftReleased past := by
  rw [shiftReleased, List.foldl_append, List.foldl_cons, List.foldl_nil, ← shiftReleased]

/-- A key that is no shift key does not matter for whether one is held. -/
theorem shiftHeld_press {k : Key} (h : ¬ k.IsShift) : ShiftHeld (past ++ [.press k]) ↔ ShiftHeld past := by
  obtain ⟨h1, h2⟩ := not_or.mp h
  rw [ShiftHeld, held_concat, ShiftHeld]
  simp only [Finset.mem_insert, Ne.symm h1, Ne.symm h2, false_or]

theorem shiftHeld_release {k : Key} (h : ¬ k.IsShift) : ShiftHeld (past ++ [.release k]) ↔ ShiftHeld past := by
  obtain ⟨h1, h2⟩ := not_or.mp h
  rw [ShiftHeld, held_concat, ShiftHeld]
  simp only [Finset.mem_erase, ne_eq, Ne.symm h1, Ne.symm h2, not_false_eq_true, true_and]

/-- What the flag of the driver is: a shift key is held, and the last thing that happened to one was no
    release. -/
def flag (past : List KeyEvent) : Bool := ShiftHeld past && !shiftReleased past

theorem flag_concat (past : List KeyEvent) (e : KeyEvent) :
    flag (past ++ [e]) = e.shiftAfter (flag past) := by
  cases e with
  | press k =>
    rw [flag, shiftReleased_concat, KeyEvent.shiftAfter]
    by_cases hs : k.IsShift
    · have hheld : ShiftHeld (past ++ [.press k]) := by
        rw [ShiftHeld, held_concat]
        exact hs.imp (fun h => Finset.mem_insert.mpr (Or.inl h.symm))
          fun h => Finset.mem_insert.mpr (Or.inl h.symm)
      simp [hs, hheld]
    · simp [hs, shiftHeld_press hs, flag]
  | release k =>
    rw [flag, shiftReleased_concat, KeyEvent.shiftAfter]
    by_cases hs : k.IsShift
    · simp [hs]
    · simp [hs, shiftHeld_release hs, flag]
  | pressExtended k =>
    have hheld : ShiftHeld (past ++ [.pressExtended k]) ↔ ShiftHeld past := by
      rw [ShiftHeld, held_concat, ShiftHeld]
    simp [flag, hheld, shiftReleased_concat, KeyEvent.shiftAfter]
  | releaseExtended k =>
    have hheld : ShiftHeld (past ++ [.releaseExtended k]) ↔ ShiftHeld past := by
      rw [ShiftHeld, held_concat, ShiftHeld]
    simp [flag, hheld, shiftReleased_concat, KeyEvent.shiftAfter]
  | pause =>
    have hheld : ShiftHeld (past ++ [.pause]) ↔ ShiftHeld past := by rw [ShiftHeld, held_concat, ShiftHeld]
    simp [flag, hheld, shiftReleased_concat, KeyEvent.shiftAfter]

/-- The flag differs from whether a shift key is held just where the last thing was a release. -/
theorem flag_eq_iff (past : List KeyEvent) :
    flag past = (ShiftHeld past : Bool) ↔ (ShiftHeld past → shiftReleased past = false) := by
  rw [flag]
  by_cases hs : ShiftHeld past <;> simp [hs]

/-- What is pushed shows in a ring with room. -/
theorem pushKey_injective {key key' : Option Nat} (hroom : (kb.head + 1) % bufferSize ≠ kb.tail)
    (h : (pushKey key kb).ring = (pushKey key' kb).ring) (hhead : (kb.head + 1) % bufferSize ≠ kb.head) :
    key = key' := by
  cases key with
  | none =>
    cases key' with
    | none => rfl
    | some b =>
      simp only [pushKey, keyboardPush, if_neg hroom, Keyboard.ring, Prod.mk.injEq] at h
      exact absurd h.2.1.symm hhead
  | some a =>
    cases key' with
    | none =>
      simp only [pushKey, keyboardPush, if_neg hroom, Keyboard.ring, Prod.mk.injEq] at h
      exact absurd h.2.1 hhead
    | some b =>
      simp only [pushKey, keyboardPush, if_neg hroom, Keyboard.ring, Prod.mk.injEq] at h
      have hat := congrFun h.1 kb.head
      rw [Function.update_self, Function.update_self] at hat
      rw [hat]

/-- The characters agree if and only if the key has one character or the flag is right. -/
theorem pushes_eq_iff (past : List KeyEvent) (e : KeyEvent) :
    e.pushes (flag past) = e.pushes (ShiftHeld past) ↔
      ∀ k, e = .press k → keyAscii true k.code ≠ keyAscii false k.code →
        ShiftHeld past → shiftReleased past = false := by
  have hascii : ∀ (b : Bool) (c : Nat), (keyChar b c).getD 0 = keyAscii b c := by
    intro b c
    rw [keyChar]
    split
    · next h => exact h.symm
    · rfl
  have hchar : ∀ (b b' : Bool) (c : Nat), keyChar b c = keyChar b' c ↔ keyAscii b c = keyAscii b' c :=
    fun b b' c => ⟨fun h => by rw [← hascii, h, hascii], fun h => by rw [keyChar, keyChar, h]⟩
  have htable : ∀ (b b' : Bool) (c : Nat), keyAscii b c = keyAscii b' c ↔
      (keyAscii true c ≠ keyAscii false c → b = b') := by
    intro b b' c
    cases b <;> cases b' <;> simp [eq_comm]
  cases e with
  | press k =>
    rw [KeyEvent.pushes, KeyEvent.pushes, hchar, htable, flag_eq_iff]
    constructor
    · intro h k' hk hdiff
      cases hk
      exact h hdiff
    · exact fun h => h k rfl
  | release k => exact iff_of_true rfl nofun
  | pressExtended k => exact iff_of_true rfl nofun
  | releaseExtended k => exact iff_of_true rfl nofun
  | pause => exact iff_of_true rfl nofun

/-! ### Every sequence -/

theorem decodes_iff (events : List KeyEvent) : ∀ past,
    Decodes past (flag past) false events ↔ Undisturbed past events := by
  induction events with
  | nil => exact fun _ => Iff.rfl
  | cons e events ih =>
    intro past
    rw [Decodes, Undisturbed, ← pushes_eq_iff]
    constructor
    · intro h
      -- a ring with room shows what is pushed
      obtain ⟨hring, hrest⟩ := h { Keyboard.init with shiftPressed := flag past } rfl rfl
      have hplain : ({ Keyboard.init with shiftPressed := flag past } : Keyboard).extendedScancode = false :=
        rfl
      have hspec := handle_spec hplain e
      rw [hspec.shift, hspec.extended, ← flag_concat] at hrest
      have hroom : (0 + 1) % bufferSize ≠ 0 := by decide
      exact ⟨pushKey_injective hroom (hspec.ring.symm.trans hring) hroom, (ih _).mp hrest⟩
    · rintro ⟨hpushes, hrest⟩ kb hshift hextended
      have hspec := handle_spec hextended e
      rw [hspec.ring, hspec.shift, hspec.extended, hshift, hpushes, ← flag_concat]
      exact ⟨rfl, (ih _).mpr hrest⟩

/-- From the start on every event pushes what the keys held call for if and only if no key with two characters
    is pressed when a shift key is held after another one was released. -/
theorem keys_decoded_iff (events : List KeyEvent) : Decodes [] false false events ↔ Undisturbed [] events :=
  decodes_iff events []

/-- Both shift keys are pressed, one is released, and `a` is pressed. -/
theorem shift_forgotten : ¬ ∀ events, Decodes [] false false events := by
  intro h
  have hall := (decodes_iff [.press ⟨0x2A, by decide, by decide⟩, .press ⟨0x36, by decide, by decide⟩,
    .release ⟨0x36, by decide, by decide⟩, .press ⟨0x1E, by decide, by decide⟩] []).mp (h _)
  exact absurd (hall.2.2.2.1 _ rfl (by decide) (by decide)) (by decide)

end TypeOS.Sched
