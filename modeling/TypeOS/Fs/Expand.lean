import Mathlib.Data.Set.Finite.List
import TypeOS.Lib.Iterate
import TypeOS.Fs.Lookup

/-! A lookup as a chain of texts: each symlink that is followed replaces `curpath` by another text.

    The counter of `vfs_lookup_path` is set back to 0 with each of them, so what ends a lookup is the
    chain itself: it is finite, or it comes back to a text. The texts have a length that the buffers
    bound, so there is no third way. What does not fit is cut without notice in three of the five
    places where the buffers are written. -/

namespace TypeOS.Fs

open Iterate

variable {s : Vfs} {r p current : Ptr} {heap : Heap} {follow : Bool} {l : List (Text × Text)}
  {path target cursor t t' w : Text} {n k : Nat}

/-! ### The chain -/

/-- The text that the loop starts again with, if it meets a symlink and there is one. -/
def nextText (s : Vfs) (follow : Bool) (r : Ptr) (t : Text) : Option Text :=
  match scan s follow (splitPath t) r with
  | .link target cursor => expand t target cursor
  | _ => none

/-- The answer at the last text of the chain. -/
def lastAnswer (s : Vfs) (follow : Bool) (r : Ptr) (t : Text) : Option Ptr :=
  match scan s follow (splitPath t) r with
  | .done p => some p
  | _ => none

/-- The loop does not end at a symlink that it has to follow. -/
theorem scan_done (hc : ∀ target, (s.inodes current).node ≠ .symlink target)
    (h : scan s true l current = .done p) : ∀ target, (s.inodes p).node ≠ .symlink target := by
  induction l generalizing current with
  | nil =>
    injection h with h
    exact h ▸ hc
  | cons x l ih =>
    obtain ⟨component, cursor⟩ := x
    rw [scan_cons] at h
    split at h
    · simp at h
    · split at h
      · simp at h
      · next q hq =>
        cases hn : (s.inodes q).node with
        | symlink target => simp [hn] at h
        | dir children =>
          rw [hn] at h
          exact ih (by simp [hn]) h
        | file data =>
          rw [hn] at h
          exact ih (by simp [hn]) h

/-- A round of the lookup. -/
theorem restart_succ (h : Shape s r) (n : Nat) (t : Text) :
    restart s follow r (n + 1) 0 t =
      match nextText s follow r t with
      | some t' => restart s follow r n 0 t'
      | none => some (lastAnswer s follow r t) := by
  rw [restart, nextText, lastAnswer]
  cases hs : scan s follow (splitPath t) r with
  | null => rfl
  | link target cursor =>
    dsimp only
    rw [if_neg (by omega)]
    cases expand t target cursor <;> rfl
  | done p =>
    dsimp only
    cases follow with
    | false => cases (s.inodes p).node <;> rfl
    | true =>
      have hroot : ∀ target, (s.inodes r).node ≠ .symlink target := by
        intro target ht
        have := h.rootDir
        rw [Vfs.type, ht] at this
        cases this
      have hp := scan_done hroot hs
      cases hn : (s.inodes p).node with
      | symlink target => exact absurd hn (hp target)
      | dir children => rfl
      | file data => rfl

/-- So many rounds later. -/
theorem restart_iterates (h : Shape s r) (hk : iterates (nextText s follow r) k t = some t') (n : Nat) :
    restart s follow r (k + n) 0 t = restart s follow r n 0 t' := by
  induction k generalizing t with
  | zero =>
    obtain rfl := Option.some.inj hk
    rw [Nat.zero_add]
  | succ k ih =>
    obtain ⟨u, hu, hk⟩ := Option.bind_eq_some_iff.mp hk
    rw [Nat.succ_add, restart_succ h, hu]
    exact ih hk

/-- The chain from `t` ends, with this answer. -/
def Answers (s : Vfs) (follow : Bool) (r : Ptr) (t : Text) (answer : Option Ptr) : Prop :=
  ∃ k t', iterates (nextText s follow r) k t = some t' ∧ nextText s follow r t' = none ∧
    lastAnswer s follow r t' = answer

/-- A lookup answers at the last text of its chain. -/
theorem restart_some (h : Shape s r) {answer : Option Ptr} :
    (∃ n, restart s follow r n 0 t = some answer) ↔ Answers s follow r t answer := by
  constructor
  · rintro ⟨n, hn⟩
    induction n generalizing t with
    | zero => simp [restart] at hn
    | succ n ih =>
      rw [restart_succ h] at hn
      cases hnext : nextText s follow r t with
      | none =>
        rw [hnext] at hn
        exact ⟨0, t, rfl, hnext, Option.some.inj hn⟩
      | some u =>
        rw [hnext] at hn
        obtain ⟨k, t', hk, hlast⟩ := ih hn
        exact ⟨k + 1, t', by rw [iterates, hnext]; exact hk, hlast⟩
  · rintro ⟨k, t', hk, hnext, rfl⟩
    exact ⟨k + 1, by rw [restart_iterates h hk, restart_succ h, hnext]⟩

/-- The answer from a text is the answer from a later text of its chain. -/
theorem answers_iterates {answer : Option Ptr} (hk : iterates (nextText s follow r) k t = some t') :
    Answers s follow r t answer ↔ Answers s follow r t' answer := by
  constructor
  · rintro ⟨m, u, hm, hu, hl⟩
    -- the last text is not before the later one
    rcases Nat.lt_or_ge m k with hlt | hge
    · obtain ⟨d, rfl⟩ := Nat.exists_eq_add_of_lt hlt
      rw [Nat.add_assoc, iterates_add, hm, Option.bind_some, iterates, hu] at hk
      cases hk
    · obtain ⟨d, rfl⟩ := Nat.exists_eq_add_of_le hge
      rw [iterates_add, hk, Option.bind_some] at hm
      exact ⟨d, u, hm, hu, hl⟩
  · rintro ⟨m, u, hm, hu, hl⟩
    exact ⟨k + m, u, by rw [iterates_add, hk]; exact hm, hu, hl⟩

theorem answers_last {answer : Option Ptr} (h : nextText s follow r t = none) :
    Answers s follow r t answer ↔ lastAnswer s follow r t = answer := by
  constructor
  · rintro ⟨k, u, hk, -, hl⟩
    cases k with
    | zero => exact Option.some.inj hk ▸ hl
    | succ k =>
      rw [iterates, h] at hk
      cases hk
  · exact fun hl => ⟨0, t, rfl, h, hl⟩

theorem vfsLookupPath_absolute (hr : s.root = some r) (ha : vfsIsAbsolute path = true) (n : Nat) :
    vfsLookupPath n s path follow = restart s follow r n 0 (path.take 511) := by
  rw [vfsLookupPath, hr, ha]

end TypeOS.Fs
