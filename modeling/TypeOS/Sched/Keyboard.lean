import Mathlib.Tactic

/-! The keyboard: scancodes that wait in the controller, their decoding, and the ring of keys.

    `pic_remap_asm` leaves the line of the keyboard masked, so a key that is pressed stays in the
    controller until `keyboard_poll` fetches it. -/

namespace TypeOS.Sched

/-- `BUFFER_SIZE`. -/
abbrev bufferSize : Nat := 256

/-- The mask that `pic_remap_asm` writes last to the first interrupt controller. -/
def picMask : Nat := 0xFE

/-- A line of the first interrupt controller is delivered when its bit is clear. -/
def irqEnabled (line : Nat) : Bool := !picMask.testBit line

/-- `kbd_us_map`, up to its last key. -/
def kbdUsMap : List Nat :=
  [0, 27, 49, 50, 51, 52, 53, 54, 55, 56, 57, 48, 45, 61, 8, 9, 113, 119, 101, 114, 116, 121, 117, 105,
    111, 112, 91, 93, 10, 0, 97, 115, 100, 102, 103, 104, 106, 107, 108, 59, 39, 96, 0, 92, 122, 120, 99,
    118, 98, 110, 109, 44, 46, 47, 0, 42, 0, 32, 0, 0, 0, 0, 0, 0, 0, 0, 0, 0, 0, 0, 0, 0, 0, 0, 0, 45, 0,
    0, 0, 43]

/-- `kbd_us_shift_map`, up to its last key. -/
def kbdUsShiftMap : List Nat :=
  [0, 27, 33, 64, 35, 36, 37, 94, 38, 42, 40, 41, 95, 43, 8, 9, 81, 87, 69, 82, 84, 89, 85, 73, 79, 80,
    123, 125, 10, 0, 65, 83, 68, 70, 71, 72, 74, 75, 76, 58, 34, 126, 0, 124, 90, 88, 67, 86, 66, 78, 77,
    60, 62, 63, 0, 42, 0, 32, 0, 0, 0, 0, 0, 0, 0, 0, 0, 0, 0, 0, 0, 0, 0, 0, 0, 45, 0, 0, 0, 43]

/-- The statics of the driver and the scancodes that the controller holds. -/
structure Keyboard where
  shiftPressed : Bool
  extendedScancode : Bool
  buffer : Nat → Nat
  head : Nat
  tail : Nat
  controller : List Nat

/-- After `keyboard_init`. -/
def Keyboard.init : Keyboard :=
  { shiftPressed := false, extendedScancode := false, buffer := fun _ => 0, head := 0, tail := 0,
    controller := [] }

/-- `keyboard_push`: the key is dropped when the ring is full, else every blocked task is woken, which
    the first component says. -/
def keyboardPush (key : Nat) (kb : Keyboard) : Bool × Keyboard :=
  let next := (kb.head + 1) % bufferSize
  if next = kb.tail then (false, kb)
  else (true, { kb with buffer := Function.update kb.buffer kb.head key, head := next })

/-- `keyboard_handle_extended`. -/
def keyboardHandleExtended (scancode : Nat) (kb : Keyboard) : Bool × Keyboard :=
  match scancode with
  | 0x4B => keyboardPush 0x100 kb
  | 0x4D => keyboardPush 0x101 kb
  | 0x48 => keyboardPush 0x102 kb
  | 0x50 => keyboardPush 0x103 kb
  | _ => (false, kb)

/-- The character of a key, 0 if it has none. -/
def keyAscii (shift : Bool) (scancode : Nat) : Nat :=
  (if shift then kbdUsShiftMap else kbdUsMap).getD scancode 0

/-- `keyboard_handle_scancode`. -/
def keyboardHandleScancode (scancode : Nat) (kb : Keyboard) : Bool × Keyboard :=
  if scancode = 0xE0 then (false, { kb with extendedScancode := true })
  else if scancode = 0xE1 then (false, { kb with extendedScancode := false })
  else if kb.extendedScancode then
    keyboardHandleExtended scancode { kb with extendedScancode := false }
  else if scancode = 0x2A ∨ scancode = 0x36 then (false, { kb with shiftPressed := true })
  else if scancode = 0xAA ∨ scancode = 0xB6 then (false, { kb with shiftPressed := false })
  else if scancode &&& 0x80 ≠ 0 then (false, kb)
  else if keyAscii kb.shiftPressed scancode = 0 then (false, kb)
  else keyboardPush (keyAscii kb.shiftPressed scancode) kb

/-- The loop of `keyboard_poll` over what the controller holds. -/
def pollAll : List Nat → Keyboard → Bool × Keyboard
  | [], kb => (false, kb)
  | scancode :: l, kb =>
    let r := keyboardHandleScancode scancode kb
    let r' := pollAll l r.2
    (r.1 || r'.1, r'.2)

/-- `keyboard_poll`: the first component says whether it woke every blocked task. -/
def keyboardPoll (kb : Keyboard) : Bool × Keyboard :=
  pollAll kb.controller { kb with controller := [] }

/-- A key is available: the ring holds one, or what the controller holds completes one. -/
def Keyboard.available (kb : Keyboard) : Bool := (keyboardPoll kb).2.head ≠ (keyboardPoll kb).2.tail

/-- What `keyboard_getchar` takes once the ring holds a key. -/
def keyboardTake (kb : Keyboard) : Nat × Keyboard :=
  (kb.buffer kb.tail, { kb with tail := (kb.tail + 1) % bufferSize })

/-- A key that is pressed: the scancode stays in the controller when its line is masked. -/
def keyArrives (scancode : Nat) (kb : Keyboard) : Bool × Keyboard :=
  let kb := { kb with controller := kb.controller ++ [scancode] }
  if irqEnabled 1 then keyboardPoll kb else (false, kb)

theorem irq_masked : irqEnabled 1 = false := by decide

theorem keyboardPush_controller (key : Nat) (kb : Keyboard) :
    (keyboardPush key kb).2.controller = kb.controller := by
  simp only [keyboardPush]
  split <;> rfl

/-- A scancode changes the flags only, and may push a key then. -/
theorem keyboardHandleScancode_cases (scancode : Nat) (kb : Keyboard) : ∃ shift extended,
    keyboardHandleScancode scancode kb =
      (false, { kb with shiftPressed := shift, extendedScancode := extended }) ∨
    ∃ key, keyboardHandleScancode scancode kb =
      keyboardPush key { kb with shiftPressed := shift, extendedScancode := extended } := by
  unfold keyboardHandleScancode
  split
  · exact ⟨_, true, Or.inl rfl⟩
  split
  · exact ⟨_, false, Or.inl rfl⟩
  split
  · refine ⟨kb.shiftPressed, false, ?_⟩
    unfold keyboardHandleExtended
    split
    · exact Or.inr ⟨_, rfl⟩
    · exact Or.inr ⟨_, rfl⟩
    · exact Or.inr ⟨_, rfl⟩
    · exact Or.inr ⟨_, rfl⟩
    · exact Or.inl rfl
  split
  · exact ⟨true, _, Or.inl rfl⟩
  split
  · exact ⟨false, _, Or.inl rfl⟩
  refine ⟨kb.shiftPressed, kb.extendedScancode, ?_⟩
  split
  · exact Or.inl rfl
  split
  · exact Or.inl rfl
  · exact Or.inr ⟨_, rfl⟩

theorem keyboardHandleScancode_controller (scancode : Nat) (kb : Keyboard) :
    (keyboardHandleScancode scancode kb).2.controller = kb.controller := by
  obtain ⟨shift, extended, h | ⟨key, h⟩⟩ := keyboardHandleScancode_cases scancode kb
  · rw [h]
  · rw [h, keyboardPush_controller]

/-- Decoding takes nothing out of the controller. -/
theorem pollAll_controller (l : List Nat) : ∀ kb : Keyboard,
    (pollAll l kb).2.controller = kb.controller := by
  induction l with
  | nil => exact fun _ => rfl
  | cons scancode l ih =>
    intro kb
    rw [pollAll, ih, keyboardHandleScancode_controller]

end TypeOS.Sched
