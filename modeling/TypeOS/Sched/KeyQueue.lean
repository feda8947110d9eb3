import TypeOS.Lib.Ring
import TypeOS.Sched.Steps

/-! The ring of keys is a queue (`keyboard.c`).

    There is no counter: the keys lie from `buffer_tail` up to `buffer_head`, and one cell stays empty so
    that a full ring is not taken for an empty one. `Keyboard.pending` lists them, first in first;
    `keyboard_push` appends to the list while it has room for one more, and `keyboard_getchar` takes its
    head. -/

namespace TypeOS.Sched

/-- `keyboard_init`, which also throws away what the controller holds. -/
def keyboardInit (kb : Keyboard) : Keyboard :=
  { kb with head := 0, tail := 0, shiftPressed := false, extendedScancode := false, controller := [] }

namespace Keyboard

/-- The cells from `buffer_tail` up to `buffer_head`. -/
def count (kb : Keyboard) : Nat := (kb.head + bufferSize - kb.tail) % bufferSize

/-- The keys in the ring, in the order they came. -/
def pending (kb : Keyboard) : List Nat := Ring.items bufferSize kb.buffer kb.tail kb.count

/-- The two indices lie in the buffer. -/
structure InRing (kb : Keyboard) : Prop where
  head : kb.head < bufferSize
  tail : kb.tail < bufferSize

/-- The states of the driver along any calls of `keyboard_push` and any keys that `keyboard_getchar` takes,
    from `keyboard_init` on, with the keys that were accepted and those that were taken. The flags and the
    controller may change in between. -/
inductive Used : Keyboard → List Nat → List Nat → Prop
  | init (kb : Keyboard) : Used (keyboardInit kb) [] []
  | push {kb : Keyboard} {accepted taken : List Nat} (key : Nat) : Used kb accepted taken →
      Used (keyboardPush key kb).2 (if (keyboardPush key kb).1 then accepted ++ [key] else accepted) taken
  | take {kb : Keyboard} {accepted taken : List Nat} : Used kb accepted taken → kb.head ≠ kb.tail →
      Used (keyboardTake kb).2 accepted (taken ++ [(keyboardTake kb).1])
  | other {kb : Keyboard} {accepted taken : List Nat} (shift extended : Bool) (controller : List Nat) :
      Used kb accepted taken →
      Used { kb with shiftPressed := shift, extendedScancode := extended, controller := controller }
        accepted taken

variable {kb : Keyboard} {accepted taken : List Nat}

theorem length_pending (kb : Keyboard) : kb.pending.length = kb.count := Ring.length_items ..

theorem count_lt (kb : Keyboard) : kb.count < bufferSize := Nat.mod_lt _ (by decide)

theorem pending_init (kb : Keyboard) : (keyboardInit kb).pending = [] := by
  have hcount : (keyboardInit kb).count = 0 := Nat.mod_self bufferSize
  rw [pending, hcount, Ring.items_zero]

/-! ### One call -/

namespace InRing

theorem head_eq (r : kb.InRing) : kb.head = (kb.tail + kb.count) % bufferSize := by
  have hh := r.head
  have ht := r.tail
  simp only [count, bufferSize] at hh ht ⊢
  omega

/-- The one cell that stays empty is where both indices would meet. -/
theorem full_iff (r : kb.InRing) : (kb.head + 1) % bufferSize = kb.tail ↔ kb.count = 255 := by
  have hh := r.head
  have ht := r.tail
  simp only [count, bufferSize] at hh ht ⊢
  omega

theorem empty_iff (r : kb.InRing) : kb.head = kb.tail ↔ kb.count = 0 := by
  have hh := r.head
  have ht := r.tail
  simp only [count, bufferSize] at hh ht ⊢
  omega

/-- A key that has room is the last one then. -/
theorem push (r : kb.InRing) (h : kb.count ≠ 255) (key : Nat) :
    (keyboardPush key kb).1 = true ∧ (keyboardPush key kb).2.InRing ∧
      (keyboardPush key kb).2.pending = kb.pending ++ [key] := by
  have hroom : (kb.head + 1) % bufferSize ≠ kb.tail := fun hfull => h (r.full_iff.mp hfull)
  have hcount : ((kb.head + 1) % bufferSize + bufferSize - kb.tail) % bufferSize = kb.count + 1 := by
    have hh := r.head
    have ht := r.tail
    simp only [count, bufferSize] at h hh ht ⊢
    omega
  have hpush : keyboardPush key kb = (true, { kb with
      buffer := Function.update kb.buffer kb.head key, head := (kb.head + 1) % bufferSize }) := if_neg hroom
  rw [hpush]
  refine ⟨rfl, ⟨Nat.mod_lt _ (by decide), r.tail⟩, ?_⟩
  rw [pending, count, hcount, r.head_eq]
  exact Ring.items_push kb.buffer kb.tail kb.count_lt key

/-- The first key is taken. -/
theorem take (r : kb.InRing) (h : kb.head ≠ kb.tail) : (keyboardTake kb).2.InRing ∧
    kb.pending = (keyboardTake kb).1 :: (keyboardTake kb).2.pending := by
  have hpos : kb.count ≠ 0 := fun h0 => h (r.empty_iff.mpr h0)
  have hcount : kb.count = (kb.head + bufferSize - (kb.tail + 1) % bufferSize) % bufferSize + 1 := by
    have hh := r.head
    have ht := r.tail
    simp only [count, bufferSize] at hpos hh ht ⊢
    omega
  refine ⟨⟨r.head, Nat.mod_lt _ (by decide)⟩, ?_⟩
  rw [pending, hcount, Ring.items_succ kb.buffer r.tail]
  rfl

/-- A key is dropped just where 255 are pending. -/
theorem dropped_iff (r : kb.InRing) (key : Nat) :
    keyboardPush key kb = (false, kb) ↔ kb.pending.length = 255 := by
  rw [length_pending, ← r.full_iff]
  simp only [keyboardPush]
  split
  · next hfull => exact iff_of_true rfl hfull
  · next hroom => exact iff_of_false (fun h => Bool.noConfusion (congrArg Prod.fst h)) hroom

end InRing

/-! ### Any calls -/

/-- What the calls keep. -/
theorem Used.queue (h : Used kb accepted taken) : kb.InRing ∧ accepted = taken ++ kb.pending := by
  induction h with
  | init kb =>
    rw [pending_init]
    exact ⟨⟨bufferSize.pos_of_neZero, bufferSize.pos_of_neZero⟩, rfl⟩
  | @push kb _ _ key _ ih =>
    obtain ⟨r, hkeys⟩ := ih
    by_cases hfull : kb.pending.length = 255
    · rw [(r.dropped_iff key).mpr hfull]
      exact ⟨r, hkeys⟩
    · rw [length_pending] at hfull
      obtain ⟨haccepted, r', hpending⟩ := r.push hfull key
      rw [if_pos haccepted, hpending, hkeys, List.append_assoc]
      exact ⟨r', rfl⟩
  | take _ hne ih =>
    obtain ⟨r, hkeys⟩ := ih
    obtain ⟨r', hpending⟩ := r.take hne
    exact ⟨r', by rw [hkeys, hpending, List.append_assoc, List.singleton_append]⟩
  | other shift extended controller _ ih => exact ⟨⟨ih.1.head, ih.1.tail⟩, ih.2⟩

/-- A scancode pushes one key at most. -/
theorem Used.scancode (h : Used kb accepted taken) (scancode : Nat) :
    ∃ accepted', Used (keyboardHandleScancode scancode kb).2 accepted' taken := by
  obtain ⟨shift, extended, heq | ⟨key, heq⟩⟩ := keyboardHandleScancode_cases scancode kb
  · rw [heq]
    exact ⟨accepted, h.other shift extended kb.controller⟩
  · rw [heq]
    exact ⟨_, (h.other shift extended kb.controller).push key⟩

theorem Used.pollAll (codes : List Nat) : ∀ {kb : Keyboard} {accepted : List Nat}, Used kb accepted taken →
    ∃ accepted', Used (Sched.pollAll codes kb).2 accepted' taken := by
  induction codes with
  | nil => exact fun h => ⟨_, h⟩
  | cons scancode codes ih =>
    intro kb accepted h
    obtain ⟨accepted', h'⟩ := h.scancode scancode
    exact ih h'

theorem Used.poll (h : Used kb accepted taken) : ∃ accepted', Used (keyboardPoll kb).2 accepted' taken :=
  (h.other kb.shiftPressed kb.extendedScancode []).pollAll kb.controller

end Keyboard

/-- The ring is a FIFO that drops a key only when it is full, however often the two indices wrap. -/
theorem keys_fifo {kb : Keyboard} {accepted taken : List Nat} (h : kb.Used accepted taken) :
    (∃ pending, accepted = taken ++ pending ∧
      (∀ key, keyboardPush key kb = (false, kb) ↔ pending.length = 255) ∧
      (kb.head ≠ kb.tail ↔ pending ≠ [])) ∧
    kb.head < 256 ∧ kb.tail < 256 := by
  obtain ⟨r, hkeys⟩ := h.queue
  refine ⟨⟨kb.pending, hkeys, r.dropped_iff, ?_⟩, r.head, r.tail⟩
  rw [ne_eq, r.empty_iff, ← kb.length_pending, List.length_eq_zero_iff]

/-- Two keys are pushed and one is taken. -/
theorem keys_fifo_two : ∃ kb pending, Keyboard.Used kb [97, 98] [97] ∧ [97, 98] = [97] ++ pending ∧
    (kb.head ≠ kb.tail ↔ pending ≠ []) := by
  have h := (((Keyboard.Used.init Keyboard.init).push 97).push 98).take (by decide)
  obtain ⟨pending, hkeys, -, hne⟩ := (keys_fifo h).1
  exact ⟨_, pending, h, hkeys, hne⟩

/-! ### In the machine -/

open Proc Kernel

variable {m m' : Machine} {f : Frame}

/-- What a step may do to the driver: a turn of `keyboard_getchar` polls, and takes a key if there is one. -/
inductive KeyStep (kb : Keyboard) : Keyboard → Prop
  | none : KeyStep kb kb
  | arrives (controller : List Nat) : KeyStep kb { kb with controller := controller }
  | poll : KeyStep kb (keyboardPoll kb).2
  | take : (keyboardPoll kb).2.head ≠ (keyboardPoll kb).2.tail →
      KeyStep kb (keyboardTake (keyboardPoll kb).2).2

theorem KeyStep.used {kb kb' : Keyboard} (h : KeyStep kb kb') {accepted taken : List Nat}
    (hused : kb.Used accepted taken) : ∃ accepted' taken', kb'.Used accepted' taken' := by
  cases h with
  | none => exact ⟨_, _, hused⟩
  | arrives controller => exact ⟨_, _, hused.other kb.shiftPressed kb.extendedScancode controller⟩
  | poll =>
    obtain ⟨_, hpoll⟩ := hused.poll
    exact ⟨_, _, hpoll⟩
  | take hne =>
    obtain ⟨_, hpoll⟩ := hused.poll
    exact ⟨_, _, hpoll.take hne⟩

theorem gdtSetRsp0_keyboard (t : Tid) (m : Machine) : (gdtSetRsp0 t m).keyboard = m.keyboard := by
  obtain ⟨n, heq⟩ := gdtSetRsp0_eq t m
  rw [heq]

theorem procActivate_keyboard (t : Tid) (m : Machine) : (procActivate t m).keyboard = m.keyboard :=
  gdtSetRsp0_keyboard t m

theorem procRunRunnable_keyboard (h : procRunRunnable f m = some m') : m'.keyboard = m.keyboard := by
  unfold procRunRunnable at h
  split at h
  · cases h
  · obtain rfl := Option.some.inj h
    exact procActivate_keyboard _ m

theorem longjmp_keyboard (m : Machine) : (longjmp m).keyboard = m.keyboard := by
  unfold longjmp
  split
  · rfl
  split
  · rfl
  split
  · exact procActivate_keyboard _ m
  · rfl

theorem schedBlockCurrent_keyboard (f : Frame) (m : Machine) :
    (schedBlockCurrent f m).keyboard = m.keyboard := by
  rcases schedBlockCurrent_cases f m with ⟨m', hrun, heq⟩ | ⟨-, ⟨rr, heq⟩ | ⟨next, rr, n, -, -, -, heq⟩⟩
  · rw [heq, procRunRunnable_keyboard hrun]
  · rw [heq, markBlocked]
  · rw [heq, markBlocked]

theorem waitInKernel_keyboard (f : Frame) (m : Machine) : (waitInKernel f m).keyboard = m.keyboard := by
  unfold waitInKernel
  split
  · split
    · next hrun => exact procRunRunnable_keyboard hrun
    · rfl
  · exact schedBlockCurrent_keyboard f m

theorem callTurn_keyboard (f : Frame) (m : Machine) : KeyStep m.keyboard (callTurn f m).2.keyboard := by
  unfold callTurn
  split
  · exact .none
  · exact .none
  · unfold consoleTurn
    dsimp only
    split
    · next hne => exact .take hne
    · exact .poll
  · exact .none
  · exact .none

theorem turn_keyboard (f : Frame) (m : Machine) : KeyStep m.keyboard (turn f m).keyboard := by
  have hcall := callTurn_keyboard f m
  unfold turn
  split
  · next heq => rwa [heq] at hcall
  · next heq => rwa [heq] at hcall
  · next heq =>
    rw [heq] at hcall
    rwa [waitInKernel_keyboard]

theorem sysExit_keyboard (status : Int) (m : Machine) : (sysExit status m).keyboard = m.keyboard := by
  unfold sysExit
  dsimp only
  split
  · rw [longjmp_keyboard]
  · rfl

theorem sysDispatch_keyboard {ans : Answers} {sys : Sys} (h : sysDispatch ans sys m = some m') :
    m'.keyboard = m.keyboard := by
  unfold sysDispatch at h
  cases sys with
  | plain c =>
    dsimp only at h
    split at h
    · obtain rfl := Option.some.inj h
      rfl
    · cases h
  | other r =>
    obtain rfl := Option.some.inj h
    rfl
  | exec found =>
    dsimp only at h
    split at h <;>
    · obtain rfl := Option.some.inj h
      rfl
  | exit status =>
    obtain rfl := Option.some.inj h
    exact sysExit_keyboard status m
  | wait pid statusOk =>
    obtain rfl := Option.some.inj h
    rfl
  | read fd count buf r =>
    dsimp only at h
    split at h
    · obtain rfl := Option.some.inj h
      rfl
    · split at h <;>
      · obtain rfl := Option.some.inj h
        rfl
  | write fd buf r =>
    dsimp only at h
    split at h <;>
    · obtain rfl := Option.some.inj h
      rfl

theorem step_keyboard {i : Input} (h : step i m = some m') : KeyStep m.keyboard m'.keyboard := by
  rcases step_cases h with ⟨ctx, ans, sys, -, -, hcall⟩ | ⟨f, -, -, rfl⟩ |
    ⟨f, -, -, ⟨-, hrun | ⟨-, rfl⟩⟩ | ⟨-, rfl⟩⟩ | ⟨scancode, -, rfl⟩
  · rw [sysDispatch_keyboard hcall]
    exact .none
  · exact turn_keyboard f m
  · rw [procRunRunnable_keyboard hrun]
    exact .none
  · exact .none
  · exact .none
  · exact .arrives _

/-- In every run of the machine the ring of keys is a queue. -/
theorem Reaches.keys {Meets : Input → Machine → Prop} (h : Reaches Meets m) :
    ∃ accepted taken, m.keyboard.Used accepted taken := by
  induction h with
  | boot ans live files pml4 =>
    rw [gdtSetRsp0_keyboard]
    exact ⟨[], [], .init Keyboard.init⟩
  | step i _ _ hstep ih =>
    obtain ⟨accepted, taken, hused⟩ := ih
    exact (step_keyboard hstep).used hused

end TypeOS.Sched
