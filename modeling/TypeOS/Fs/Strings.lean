import TypeOS.Lib.Bytes
import TypeOS.Fs.Text

/-! `string.c`: the routines as loops over memory, and what they do to the strings that lie there.

    The models elsewhere compare and copy texts as lists. Here the loops run on bytes at addresses. A
    loop without a bound is given a number of turns and returns nothing when they do not suffice; the
    results hold for every number that is large enough. A copy onto itself is part of it: the loops go
    upward, so a copy downward is as good as one without overlap, and `strcpy` upward into its own
    string never ends. -/

namespace TypeOS.Str

open Bytes Fs

/-- `strcmp`. -/
def strcmp : Nat → Memory → Nat → Nat → Option Int
  | 0, _, _, _ => none
  | fuel + 1, mem, s1, s2 =>
    if mem s1 ≠ 0 ∧ mem s1 = mem s2 then strcmp fuel mem (s1 + 1) (s2 + 1)
    else some ((mem s1).toNat - (mem s2).toNat)

/-- `strncmp`. -/
def strncmp : Nat → Memory → Nat → Nat → Int
  | 0, _, _, _ => 0
  | n + 1, mem, s1, s2 =>
    if mem s1 ≠ mem s2 then (mem s1).toNat - (mem s2).toNat
    else if mem s1 = 0 then 0
    else strncmp n mem (s1 + 1) (s2 + 1)

/-- `strcpy`. -/
def strcpy : Nat → Memory → Nat → Nat → Option Memory
  | 0, _, _, _ => none
  | fuel + 1, mem, d, src =>
    let c := mem src
    let mem := Function.update mem d c
    if c ≠ 0 then strcpy fuel mem (d + 1) (src + 1) else some mem

/-- The loop of `memcpy`, with `n` turns left. -/
def memcpy : Nat → Memory → Nat → Nat → Memory
  | 0, mem, _, _ => mem
  | n + 1, mem, d, s => memcpy n (Function.update mem d (mem s)) (d + 1) (s + 1)

/-- `memset`. -/
def memset : Nat → Memory → Nat → UInt8 → Memory
  | 0, mem, _, _ => mem
  | n + 1, mem, p, c => memset n (Function.update mem p c) (p + 1) c

/-- The loops of `strncpy`: the second fills what the first has left of `n`. -/
def strncpy : Nat → Memory → Nat → Nat → Memory
  | 0, mem, _, _ => mem
  | n + 1, mem, d, src =>
    if mem src ≠ 0 then strncpy n (Function.update mem d (mem src)) (d + 1) (src + 1)
    else memset (n + 1) mem d 0

/-- `memcmp`. -/
def memcmp : Nat → Memory → Nat → Nat → Int
  | 0, _, _, _ => 0
  | n + 1, mem, a, b =>
    if mem a ≠ mem b then (mem a).toNat - (mem b).toNat else memcmp n mem (a + 1) (b + 1)

/-! ### Comparisons -/

/-- A text lies at an address, with its NUL. -/
def CString (mem : Memory) (a : Nat) : Text → Prop
  | [] => mem a = 0
  | c :: t => mem a = c.val ∧ CString mem (a + 1) t

variable {mem mem' : Memory} {a b d n : Nat} {s t : Text}

/-- The bytes of a text and its NUL decide. -/
theorem CString.congr (h : CString mem a t) (hm : ∀ x, a ≤ x → x ≤ a + t.length → mem' x = mem x) :
    CString mem' a t := by
  induction t generalizing a with
  | nil => exact (hm a le_rfl (by simp)).trans h
  | cons c t ih =>
    rw [List.length_cons] at hm
    exact ⟨(hm a le_rfl (by omega)).trans h.1, ih h.2 fun x h₁ h₂ => hm x (by omega) (by omega)⟩

theorem CString.nonzero {c : Ch} (h : CString mem a (c :: t)) : mem a ≠ 0 := h.1 ▸ c.2

theorem CString.nul (h : CString mem a t) : mem (a + t.length) = 0 := by
  induction t generalizing a with
  | nil => exact h
  | cons c t ih =>
    rw [List.length_cons, ← Nat.add_assoc, Nat.add_right_comm]
    exact ih h.2

theorem CString.load (h : CString mem a t) : Bytes.load mem a t.length = t.bytes := by
  induction t generalizing a with
  | nil => rfl
  | cons c t ih =>
    rw [List.length_cons, Nat.add_comm, load_add, ih h.2]
    simp [Bytes.load, h.1, Text.bytes]

/-- How two runs of bytes compare at the first difference. -/
def firstDifference : List UInt8 → List UInt8 → Int
  | [], [] => 0
  | [], y :: _ => -y.toNat
  | x :: _, [] => x.toNat
  | x :: xs, y :: ys => if x = y then firstDifference xs ys else x.toNat - y.toNat

theorem toNat_pos {x : UInt8} (h : x ≠ 0) : 0 < x.toNat :=
  Nat.pos_of_ne_zero fun h0 => h (UInt8.toNat_inj.mp h0)

/-- Bytes that differ: the sign of the difference says which is smaller. -/
theorem toNat_sub {x y : UInt8} (h : x ≠ y) :
    ((x.toNat : Int) - y.toNat ≠ 0) ∧ ((x.toNat : Int) - y.toNat < 0 ↔ x < y) := by
  have hne : x.toNat ≠ y.toNat := fun he => h (UInt8.toNat_inj.mp he)
  rw [UInt8.lt_iff_toNat_lt]
  omega

/-- The sign says which comes first in the order of the bytes. -/
theorem firstDifference_sign : ∀ xs ys : List UInt8, (∀ x ∈ xs, x ≠ 0) → (∀ y ∈ ys, y ≠ 0) →
    (firstDifference xs ys = 0 ↔ xs = ys) ∧ (firstDifference xs ys < 0 ↔ xs < ys)
  | [], [], _, _ => by simp [firstDifference]
  | [], y :: ys, _, hy => by
    have hpos := toNat_pos (hy y (List.mem_cons_self ..))
    simp only [firstDifference, List.nil_lt_cons, iff_true]
    exact ⟨⟨fun h => absurd h (by omega), fun h => (by cases h)⟩, by omega⟩
  | x :: xs, [], hx, _ => by
    have hpos := toNat_pos (hx x (List.mem_cons_self ..))
    simp only [firstDifference, List.not_lt_nil, iff_false]
    exact ⟨⟨fun h => absurd h (by omega), fun h => (by cases h)⟩, by omega⟩
  | x :: xs, y :: ys, hx, hy => by
    obtain ⟨hzero, hneg⟩ := firstDifference_sign xs ys (fun z hz => hx z (List.mem_cons_of_mem _ hz))
      fun z hz => hy z (List.mem_cons_of_mem _ hz)
    rw [firstDifference, List.cons_lt_cons_iff]
    split
    · next heq =>
      subst heq
      simp [hzero, hneg]
    · next hne =>
      obtain ⟨hz, hn⟩ := toNat_sub hne
      simp [hz, hn, hne]

theorem bytes_nonzero (t : Text) : ∀ x ∈ t.bytes, x ≠ 0 := by
  intro x hx
  obtain ⟨c, -, rfl⟩ := List.mem_map.mp hx
  exact c.2

theorem bytes_injective : s.bytes = t.bytes ↔ s = t :=
  ⟨fun h => List.map_injective_iff.mpr Subtype.val_injective h, fun h => h ▸ rfl⟩

/-- `strcmp` of two strings. -/
theorem strcmp_eq (hs : CString mem a s) (ht : CString mem b t) {fuel : Nat} (hf : s.length < fuel) :
    strcmp fuel mem a b = some (firstDifference s.bytes t.bytes) := by
  induction s generalizing a b t fuel with
  | nil =>
    obtain ⟨fuel, rfl⟩ := Nat.exists_eq_succ_of_ne_zero (Nat.ne_of_gt hf)
    have ha : mem a = 0 := hs
    cases t with
    | nil =>
      have hb : mem b = 0 := ht
      simp [strcmp, ha, hb, Text.bytes, firstDifference]
    | cons d t => simp [strcmp, ha, ht.1, Text.bytes, firstDifference]
  | cons c s ih =>
    obtain ⟨fuel, rfl⟩ := Nat.exists_eq_succ_of_ne_zero (Nat.ne_of_gt (Nat.zero_lt_of_lt hf))
    rw [List.length_cons] at hf
    cases t with
    | nil =>
      have hb : mem b = 0 := ht
      simp [strcmp, hb, Text.bytes, firstDifference, hs.1]
    | cons d t =>
      have hbytes : Text.bytes (c :: s) = c.val :: Text.bytes s ∧
          Text.bytes (d :: t) = d.val :: Text.bytes t := ⟨rfl, rfl⟩
      rw [strcmp, hbytes.1, hbytes.2, firstDifference]
      by_cases heq : c.val = d.val
      · rw [if_pos ⟨hs.nonzero, hs.1.trans (heq.trans ht.1.symm)⟩, if_pos heq]
        exact ih hs.2 ht.2 (by omega)
      · rw [if_neg fun h => heq (hs.1.symm.trans (h.2.trans ht.1)), if_neg heq, hs.1, ht.1]

/-- `strncmp` compares as the models do. -/
theorem strncmp_eq (hs : CString mem a s) (ht : CString mem b t) :
    strncmp n mem a b = Fs.strncmp n s.bytes t.bytes := by
  induction n generalizing a b s t with
  | zero => rfl
  | succ n ih =>
    have hhead : ∀ {a : Nat} {t : Text}, CString mem a t → mem a = t.bytes.headD 0 := by
      intro a t h
      cases t with
      | nil => exact h
      | cons c t => exact h.1
    rw [strncmp, Fs.strncmp, hhead hs, hhead ht]
    split
    · rfl
    · next heq =>
      split
      · rfl
      · next hzero =>
        have hlast : mem a ≠ 0 := by rw [hhead hs]; exact hzero
        cases s with
        | nil => exact absurd hs hlast
        | cons c s =>
          cases t with
          | nil =>
            rw [ne_eq, not_not] at heq
            exact absurd (heq.trans rfl) hzero
          | cons d t => exact ih hs.2 ht.2

/-- `memcmp` of two runs of bytes. -/
theorem memcmp_sign (n : Nat) (mem : Memory) (a b : Nat) :
    (memcmp n mem a b = 0 ↔ Bytes.load mem a n = Bytes.load mem b n) ∧
    (memcmp n mem a b < 0 ↔ Bytes.load mem a n < Bytes.load mem b n) := by
  induction n generalizing a b with
  | zero => simp [memcmp, Bytes.load]
  | succ n ih =>
    have hcons : ∀ a, Bytes.load mem a (n + 1) = mem a :: Bytes.load mem (a + 1) n := by
      intro a
      rw [Nat.add_comm, load_add]
      simp [Bytes.load]
    obtain ⟨hzero, hneg⟩ := ih (a + 1) (b + 1)
    rw [hcons, hcons, memcmp, List.cons_lt_cons_iff, List.cons.injEq]
    split
    · next hne =>
      obtain ⟨hz, hn⟩ := toNat_sub hne
      simp [hz, hn, hne]
    · next heq =>
      rw [ne_eq, not_not] at heq
      simp [hzero, hneg, heq]

/-- Every comparison of `string.c` decides equality, and its sign is the order of the unsigned bytes: of
    two whole strings, of their first `n` bytes as the path functions compare them, and of two runs of
    bytes. -/
theorem comparisons_decide (hs : CString mem a s) (ht : CString mem b t) (n : Nat) :
    (∃ r, (∀ fuel, s.length < fuel → strcmp fuel mem a b = some r) ∧
      (r = 0 ↔ s = t) ∧ (r < 0 ↔ s.bytes < t.bytes)) ∧
    strncmp n mem a b = Fs.strncmp n s.bytes t.bytes ∧
    (memcmp n mem a b = 0 ↔ Bytes.load mem a n = Bytes.load mem b n) ∧
    (memcmp n mem a b < 0 ↔ Bytes.load mem a n < Bytes.load mem b n) := by
  obtain ⟨hzero, hneg⟩ := firstDifference_sign _ _ (bytes_nonzero s) (bytes_nonzero t)
  obtain ⟨hcmp, hcmp'⟩ := memcmp_sign n mem a b
  exact ⟨⟨_, fun _ hf => strcmp_eq hs ht hf, hzero.trans bytes_injective, hneg⟩, strncmp_eq hs ht, hcmp,
    hcmp'⟩

/-- The texts `a` at address 0 and `b` at address 2. -/
def twoLetters : Memory := fun x => if x = 0 then 97 else if x = 2 then 98 else 0

theorem comparisons_decide_twoLetters : CString twoLetters 0 [⟨97, by decide⟩] ∧
    CString twoLetters 2 [⟨98, by decide⟩] ∧ ∃ r, strcmp 2 twoLetters 0 2 = some r ∧ r ≠ 0 := by
  have hs : CString twoLetters 0 [⟨97, by decide⟩] := ⟨rfl, rfl⟩
  have ht : CString twoLetters 2 [⟨98, by decide⟩] := ⟨rfl, rfl⟩
  obtain ⟨⟨r, hr, hzero, -⟩, -⟩ := comparisons_decide hs ht 0
  exact ⟨hs, ht, r, hr 2 (by decide), fun h => absurd (hzero.mp h) (by decide)⟩

/-! ### Copies -/

theorem update_eq_store (mem : Memory) (d : Nat) (v : UInt8) :
    Function.update mem d v = Bytes.store mem d [v] := by
  funext x
  by_cases hx : x = d
  · subst hx
    have hget : Bytes.store mem x [v] (x + 0) = v := store_get (by simp)
    rw [Function.update_self]
    exact hget.symm
  · rw [Function.update_of_ne hx]
    rcases Nat.lt_or_gt_of_ne hx with h | h
    · rw [store_of_lt h]
    · rw [store_of_ge (by simpa using h)]

/-- A byte stored, and then more behind it. -/
theorem store_update (mem : Memory) (d : Nat) (v : UInt8) (vs : List UInt8) :
    Bytes.store (Function.update mem d v) (d + 1) vs = Bytes.store mem d (v :: vs) := by
  rw [update_eq_store]
  exact store_append mem d [v] vs

theorem load_succ (mem : Memory) (a n : Nat) :
    Bytes.load mem a (n + 1) = mem a :: Bytes.load mem (a + 1) n := by
  rw [Nat.add_comm, load_add]
  simp [Bytes.load]

theorem memset_eq (n : Nat) (mem : Memory) (d : Nat) (c : UInt8) :
    memset n mem d c = Bytes.store mem d (List.replicate n c) := by
  induction n generalizing mem d with
  | zero => simp [memset]
  | succ n ih => rw [memset, ih, store_update, List.replicate_succ]

/-- A copy downward, or one that does not reach its destination. -/
theorem memcpy_eq (h : d ≤ a ∨ a + n ≤ d) :
    memcpy n mem d a = Bytes.store mem d (Bytes.load mem a n) := by
  induction n generalizing mem d a with
  | zero => simp [memcpy, Bytes.load]
  | succ n ih =>
    have hsrc : Bytes.load (Function.update mem d (mem a)) (a + 1) n = Bytes.load mem (a + 1) n :=
      load_congr fun i hi => Function.update_of_ne (by omega) ..
    rw [memcpy, ih (by omega), hsrc, store_update, load_succ]

theorem memcpy_below {x : Nat} (h : x < d) : memcpy n mem d a x = mem x := by
  induction n generalizing mem d a with
  | zero => rfl
  | succ n ih => rw [memcpy, ih (by omega), Function.update_of_ne (by omega)]

theorem memcpy_above {x : Nat} (h : d + n ≤ x) : memcpy n mem d a x = mem x := by
  induction n generalizing mem d a with
  | zero => rfl
  | succ n ih => rw [memcpy, ih (by omega), Function.update_of_ne (by omega)]

/-- A copy upward into its own source repeats the bytes before the destination. -/
theorem memcpy_repeats (h : a < d) {i : Nat} (hi : i < n) :
    memcpy n mem d a (d + i) = mem (a + i % (d - a)) := by
  induction n generalizing mem a d i with
  | zero => exact absurd hi (Nat.not_lt_zero i)
  | succ n ih =>
    rw [memcpy]
    cases i with
    | zero =>
      rw [Nat.zero_mod, memcpy_below (by omega)]
      exact Function.update_self ..
    | succ j =>
      have hstep := @ih (Function.update mem d (mem a)) (a + 1) (d + 1) (Nat.succ_lt_succ h) j
        (Nat.lt_of_succ_lt_succ hi)
      rw [Nat.add_sub_add_right, Nat.add_assoc d 1 j, Nat.add_comm 1 j] at hstep
      rw [hstep]
      have hlt := Nat.mod_lt j (Nat.sub_pos_of_lt h)
      by_cases hlast : j % (d - a) + 1 = d - a
      · have hzero : (j + 1) % (d - a) = 0 := by
          rw [Nat.add_mod, ← Nat.mod_add_mod, Nat.mod_mod, Nat.add_mod_mod, hlast, Nat.mod_self]
        rw [hzero, show a + 1 + j % (d - a) = d by omega, Function.update_self, Nat.add_zero]
      · have hnext : (j + 1) % (d - a) = j % (d - a) + 1 := by
          rw [← Nat.mod_add_mod]
          exact Nat.mod_eq_of_lt (by omega)
        rw [hnext, Function.update_of_ne (by omega)]
        congr 1
        omega

/-- `strcpy` of a string that it does not overtake. -/
theorem strcpy_eq (hs : CString mem a t) (h : d ≤ a ∨ a + t.length < d) {fuel : Nat}
    (hf : t.length < fuel) : strcpy fuel mem d a = some (Bytes.store mem d (t.bytes ++ [0])) := by
  induction t generalizing mem a d fuel with
  | nil =>
    obtain ⟨fuel, rfl⟩ := Nat.exists_eq_succ_of_ne_zero (Nat.ne_of_gt hf)
    have hnul : mem a = 0 := hs
    simp [strcpy, hnul, update_eq_store, Text.bytes]
  | cons c t ih =>
    obtain ⟨fuel, rfl⟩ := Nat.exists_eq_succ_of_ne_zero (Nat.ne_of_gt (Nat.zero_lt_of_lt hf))
    rw [List.length_cons] at hf h
    have hrest : CString (Function.update mem d (mem a)) (a + 1) t :=
      hs.2.congr fun x h₁ h₂ => Function.update_of_ne (by omega) ..
    rw [strcpy, if_pos hs.nonzero, ih hrest (by omega) (by omega), store_update, hs.1]
    rfl

/-- Where nothing but bytes other than NUL lie between the source and the destination above it, the
    loop copies them before it gets to them. -/
theorem strcpy_never (h : a < d) (hm : ∀ x, a ≤ x → x < d → mem x ≠ 0) (fuel : Nat) :
    strcpy fuel mem d a = none := by
  induction fuel generalizing mem a d with
  | zero => rfl
  | succ fuel ih =>
    have hfirst := hm a le_rfl h
    rw [strcpy, if_pos hfirst]
    refine ih (by omega) fun x h₁ h₂ => ?_
    by_cases hx : x = d
    · rw [hx, Function.update_self]
      exact hfirst
    · rw [Function.update_of_ne hx]
      exact hm x (by omega) (by omega)

theorem CString.inside (h : CString mem a t) {x : Nat} (h₁ : a ≤ x) (h₂ : x < a + t.length) :
    mem x ≠ 0 := by
  induction t generalizing a with
  | nil => exact absurd h₂ (by simpa using h₁)
  | cons c t ih =>
    rw [List.length_cons] at h₂
    by_cases hx : x = a
    · rw [hx]
      exact h.nonzero
    · exact ih h.2 (by omega) (by omega)

/-- `strncpy` writes exactly `n` bytes: the string as far as it fits, and NULs. -/
theorem strncpy_eq (hs : CString mem a t) (h : d ≤ a ∨ a + t.length < d) :
    strncpy n mem d a = Bytes.store mem d ((t.bytes ++ List.replicate n 0).take n) := by
  induction n generalizing mem a d t with
  | zero => simp [strncpy]
  | succ n ih =>
    rw [strncpy]
    cases t with
    | nil =>
      have hnul : mem a = 0 := hs
      rw [if_neg (by simpa using hnul), memset_eq]
      simp [Text.bytes]
    | cons c t =>
      rw [List.length_cons] at h
      have hrest : CString (Function.update mem d (mem a)) (a + 1) t :=
        hs.2.congr fun x h₁ h₂ => Function.update_of_ne (by omega) ..
      rw [if_pos hs.nonzero, ih hrest (by omega), store_update, hs.1]
      congr 1
      simp only [Text.bytes, List.map_cons, List.cons_append, List.take_succ_cons, List.cons.injEq,
        true_and]
      rw [List.take_append, List.take_append, List.take_replicate, List.take_replicate]
      congr 2
      omega

/-- What the copies of `string.c` leave in memory. `strcpy` ends exactly when it does not go up into its own
    string, and then the destination holds the string; `strncpy` fills exactly its `n` bytes; `memcpy`
    reads its source as it was unless it goes up into it, and then repeats what lies before the
    destination. Nothing else changes. -/
theorem copies_exact (hs : CString mem a t) (d n : Nat) :
    ((∃ fuel, (strcpy fuel mem d a).isSome) ↔ d ≤ a ∨ a + t.length < d) ∧
    (d ≤ a ∨ a + t.length < d →
      (∀ fuel, t.length < fuel → strcpy fuel mem d a = some (Bytes.store mem d (t.bytes ++ [0]))) ∧
      strncpy n mem d a = Bytes.store mem d ((t.bytes ++ List.replicate n 0).take n)) ∧
    (d ≤ a ∨ a + n ≤ d → memcpy n mem d a = Bytes.store mem d (Bytes.load mem a n)) ∧
    (a < d → ∀ i < n, memcpy n mem d a (d + i) = mem (a + i % (d - a))) ∧
    ∀ x, x < d ∨ d + n ≤ x → memcpy n mem d a x = mem x := by
  refine ⟨⟨fun ⟨fuel, hsome⟩ => ?_, fun h => ⟨t.length + 1, ?_⟩⟩, fun h => ⟨fun _ hf => strcpy_eq hs h hf,
    strncpy_eq hs h⟩, memcpy_eq, fun h _ hi => memcpy_repeats h hi, fun x hx => ?_⟩
  · by_contra hinto
    rw [not_or, Nat.not_le, Nat.not_lt] at hinto
    rw [strcpy_never hinto.1 (fun x h₁ h₂ => hs.inside h₁ (by omega))] at hsome
    cases hsome
  · rw [strcpy_eq hs h (Nat.lt_succ_self _)]
    rfl
  · rcases hx with hx | hx
    · exact memcpy_below hx
    · exact memcpy_above hx

/-- The text `ab` at address 10. -/
def adjacentLetters : Memory := fun x => if x = 10 then 97 else if x = 11 then 98 else 0

/-- Copied one byte up it never ends, or repeats its first byte; copied out of itself it is there. -/
theorem copies_exact_adjacent : (¬ ∃ fuel, (strcpy fuel adjacentLetters 11 10).isSome) ∧
    strcpy 3 adjacentLetters 14 10 = some (Bytes.store adjacentLetters 14 [97, 98, 0]) ∧
    strncpy 4 adjacentLetters 14 10 = Bytes.store adjacentLetters 14 [97, 98, 0, 0] ∧
    memcpy 4 adjacentLetters 14 10 = Bytes.store adjacentLetters 14 [97, 98, 0, 0] ∧
    memcpy 4 adjacentLetters 11 10 14 = 97 ∧ memcpy 4 adjacentLetters 11 10 15 = 0 := by
  have hs : CString adjacentLetters 10 [⟨97, by decide⟩, ⟨98, by decide⟩] := ⟨rfl, rfl, rfl⟩
  obtain ⟨-, hcopy, hmemcpy, -, -⟩ := copies_exact hs 14 4
  obtain ⟨hends, -, -, hrepeats, hrest⟩ := copies_exact hs 11 4
  obtain ⟨hstrcpy, hstrncpy⟩ := hcopy (Or.inr (by decide))
  exact ⟨fun h => absurd (hends.mp h) (by decide), hstrcpy 3 (by decide), hstrncpy,
    hmemcpy (Or.inr le_rfl), hrepeats (by decide) 3 (by decide), hrest 15 (by decide)⟩

end TypeOS.Str
