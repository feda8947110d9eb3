import TypeOS.Sys.User

/-! `copy_str_from_user` with its buffer (`syscall.c`).

    The buffer lies in the memory that is read: kernel stacks are on the heap, which `user_ptr_ok`
    takes for addresses of the user. The loop leaves room for a NUL of its own and returns -1 behind
    it, so that a string is refused that fills the buffer; and one that the buffer begins in is stored
    over before its NUL is read. -/

namespace TypeOS.Sys

open Fs Bytes

/-- What a call leaves: its result, the memory, and the addresses that were stored to, the last one first. -/
structure Copied where
  result : Int
  mem : Memory
  stores : List Nat

/-- The loop of `copy_str_from_user` from turn `i` on, with so many turns left. -/
def copyTurns (kbuf uaddr : Nat) : Nat → Nat → Memory → List Nat → Copied
  | 0, i, mem, stores => ⟨-1, Function.update mem (kbuf + i) 0, (kbuf + i) :: stores⟩
  | n + 1, i, mem, stores =>
    if userPtrOk (u64 (uaddr + i)) 1 then
      let c := mem (u64 (uaddr + i))
      let mem := Function.update mem (kbuf + i) c
      if c = 0 then ⟨0, mem, (kbuf + i) :: stores⟩
      else copyTurns kbuf uaddr n (i + 1) mem ((kbuf + i) :: stores)
    else ⟨-1, mem, stores⟩

/-- `copy_str_from_user`. -/
def copyStrInto (mem : Memory) (kbuf uaddr kbufLen : Nat) : Copied :=
  if kbuf = 0 ∨ kbufLen = 0 then ⟨-1, mem, []⟩ else copyTurns kbuf uaddr (kbufLen - 1) 0 mem []

/-- The string at `uaddr` has `len` bytes; it fits in `n` with its NUL, and `user_ptr_ok` accepts each. -/
structure StrFits (mem : Memory) (uaddr n len : Nat) : Prop where
  chars : ∀ i < len, mem (u64 (uaddr + i)) ≠ 0
  nul : mem (u64 (uaddr + len)) = 0
  user : ∀ i ≤ len, userPtrOk (u64 (uaddr + i)) 1 = true
  room : len + 1 ≤ n

/-- The call accepts the strings that fit and no others, `kbuf` holds the string that is accepted, and
    nothing is stored outside. -/
structure Copies (mem : Memory) (kbuf uaddr n : Nat) : Prop where
  accepted : (copyStrInto mem kbuf uaddr n).result = 0 ↔ ∃ len, StrFits mem uaddr n len
  string : ∀ len, (copyStrInto mem kbuf uaddr n).result = 0 → StrFits mem uaddr n len →
    load (copyStrInto mem kbuf uaddr n).mem kbuf (len + 1) = load mem uaddr (len + 1)
  inside : ∀ a ∈ (copyStrInto mem kbuf uaddr n).stores, kbuf ≤ a ∧ a < kbuf + n

variable {mem m : Memory} {kbuf uaddr n i j len len' : Nat} {stores : List Nat}

/-! ### The string -/

/-- Addresses that are accepted one after the other do not wrap. -/
theorem user_range (hu : uaddr < 2 ^ 64) : ∀ {i}, (∀ j ≤ i, userPtrOk (u64 (uaddr + j)) 1 = true) →
    userAddrMin ≤ uaddr ∧ uaddr + i + 1 ≤ userAddrMax := by
  intro i
  induction i with
  | zero =>
    intro h
    have h0 := (userPtrOk_iff _ _).mp (h 0 le_rfl)
    rwa [Nat.add_zero, u64_of_lt hu] at h0
  | succ i ih =>
    intro h
    obtain ⟨hlow, hhigh⟩ := ih fun j hj => h j (hj.trans (Nat.le_succ i))
    have hi := (userPtrOk_iff _ _).mp (h (i + 1) le_rfl)
    rw [u64_of_lt (by simp only [userAddrMax] at hhigh; omega)] at hi
    exact ⟨hlow, hi.2⟩

/-- There is one string at an address. -/
theorem StrFits.unique {n' : Nat} (h : StrFits mem uaddr n len) (h' : StrFits mem uaddr n' len') :
    len = len' := by
  rcases Nat.lt_trichotomy len len' with hlt | heq | hgt
  · exact absurd h.nul (h'.chars len hlt)
  · exact heq
  · exact absurd h'.nul (h.chars len' hgt)

/-! ### The loop -/

theorem copyTurns_refused (hok : userPtrOk (u64 (uaddr + i)) 1 ≠ true) :
    copyTurns kbuf uaddr (n + 1) i m stores = ⟨-1, m, stores⟩ :=
  if_neg hok

theorem copyTurns_nul (hok : userPtrOk (u64 (uaddr + i)) 1 = true) (haddr : u64 (uaddr + i) = uaddr + i)
    (hc : m (uaddr + i) = 0) : copyTurns kbuf uaddr (n + 1) i m stores =
      ⟨0, Function.update m (kbuf + i) 0, (kbuf + i) :: stores⟩ := by
  rw [copyTurns, if_pos hok, haddr]
  dsimp only
  rw [if_pos hc, hc]

theorem copyTurns_char (hok : userPtrOk (u64 (uaddr + i)) 1 = true) (haddr : u64 (uaddr + i) = uaddr + i)
    (hc : m (uaddr + i) ≠ 0) :
    copyTurns kbuf uaddr (n + 1) i m stores = copyTurns kbuf uaddr n (i + 1)
      (Function.update m (kbuf + i) (m (uaddr + i))) ((kbuf + i) :: stores) := by
  rw [copyTurns, if_pos hok, haddr]
  exact if_neg hc

/-- After `i` turns: the bytes that were copied are no NULs, and where the buffer was not ahead of them
    they are those that were there first. -/
structure Copying (mem : Memory) (kbuf uaddr i : Nat) (m : Memory) : Prop where
  same : ∀ a, a < kbuf ∨ kbuf + i ≤ a → m a = mem a
  filled : ∀ j < i, m (kbuf + j) ≠ 0
  user : ∀ j < i, userPtrOk (u64 (uaddr + j)) 1 = true
  chars : ∀ j < i, kbuf ≤ uaddr ∨ uaddr + j < kbuf → m (kbuf + j) = mem (uaddr + j)

theorem Copying.start (mem : Memory) (kbuf uaddr : Nat) : Copying mem kbuf uaddr 0 mem :=
  ⟨fun _ _ => rfl, nofun, nofun, nofun⟩

/-- The byte that a turn reads, where the buffer is not ahead. -/
theorem Copying.read (h : Copying mem kbuf uaddr i m) (hfar : kbuf ≤ uaddr ∨ uaddr + i < kbuf) :
    m (uaddr + i) = mem (uaddr + i) :=
  h.same _ (by omega)

theorem Copying.turn (h : Copying mem kbuf uaddr i m) (hok : userPtrOk (u64 (uaddr + i)) 1 = true)
    (hc : m (uaddr + i) ≠ 0) :
    Copying mem kbuf uaddr (i + 1) (Function.update m (kbuf + i) (m (uaddr + i))) := by
  have hold : ∀ j < i, Function.update m (kbuf + i) (m (uaddr + i)) (kbuf + j) = m (kbuf + j) :=
    fun j hj => Function.update_of_ne (by omega) ..
  refine ⟨fun a ha => ?_, fun j hj => ?_, fun j hj => ?_, fun j hj hfar => ?_⟩
  · rw [Function.update_of_ne (by omega)]
    exact h.same a (by omega)
  · rcases Nat.lt_succ_iff_lt_or_eq.mp hj with hlt | rfl
    · rw [hold j hlt]
      exact h.filled j hlt
    · rwa [Function.update_self]
  · rcases Nat.lt_succ_iff_lt_or_eq.mp hj with hlt | rfl
    · exact h.user j hlt
    · exact hok
  · rcases Nat.lt_succ_iff_lt_or_eq.mp hj with hlt | rfl
    · rw [hold j hlt]
      exact h.chars j hlt hfar
    · rw [Function.update_self]
      exact h.read hfar

/-- The address of the byte that a turn reads. -/
theorem Copying.address (h : Copying mem kbuf uaddr i m) (hu : uaddr < 2 ^ 64)
    (hok : userPtrOk (u64 (uaddr + i)) 1 = true) : u64 (uaddr + i) = uaddr + i := by
  have hrange := user_range hu (i := i) fun j hj => by
    rcases Nat.lt_or_eq_of_le hj with hlt | rfl
    · exact h.user j hlt
    · exact hok
  simp only [userAddrMax] at hrange
  exact u64_of_lt (by omega)

/-- A NUL is not read from where the buffer has been filled. -/
theorem Copying.far (h : Copying mem kbuf uaddr i m) (hc : m (uaddr + i) = 0) :
    kbuf ≤ uaddr ∨ uaddr + i < kbuf := by
  by_contra hnot
  have hfilled := h.filled (uaddr + i - kbuf) (by omega)
  rw [Nat.add_sub_cancel' (by omega)] at hfilled
  exact hfilled hc

/-- The turn that reads the NUL leaves the string in the buffer. -/
theorem Copying.finish (h : Copying mem kbuf uaddr i m) (hu : uaddr < 2 ^ 64)
    (hok : userPtrOk (u64 (uaddr + i)) 1 = true) (hc : m (uaddr + i) = 0) (hn : i + 1 ≤ n) :
    StrFits mem uaddr n i ∧ (kbuf ≤ uaddr ∨ uaddr + i < kbuf) ∧
      load (Function.update m (kbuf + i) 0) kbuf (i + 1) = load mem uaddr (i + 1) := by
  have hfar := h.far hc
  have hread := h.read hfar
  have hchars : ∀ j < i, m (kbuf + j) = mem (uaddr + j) := fun j hj => h.chars j hj (by omega)
  have haddr := h.address hu hok
  have hlt : uaddr + i < 2 ^ 64 := by rw [← haddr]; exact Nat.mod_lt _ (by decide)
  refine ⟨⟨fun j hj => ?_, ?_, fun j hj => ?_, hn⟩, hfar, ?_⟩
  · rw [u64_of_lt (by omega), ← hchars j hj]
    exact h.filled j hj
  · rw [haddr, ← hread, hc]
  · rcases Nat.lt_or_eq_of_le hj with hlt | rfl
    · exact h.user j hlt
    · exact hok
  · refine List.map_congr_left fun j hj => ?_
    rcases Nat.lt_succ_iff_lt_or_eq.mp (List.mem_range.mp hj) with hlt | rfl
    · rw [Function.update_of_ne (by omega)]
      exact hchars j hlt
    · rw [Function.update_self, ← hread, hc]

/-- What is accepted is the string, and the buffer does not begin in it. -/
theorem copyTurns_zero (hu : uaddr < 2 ^ 64) : ∀ {n i m stores}, Copying mem kbuf uaddr i m →
    (copyTurns kbuf uaddr n i m stores).result = 0 →
    ∃ len, StrFits mem uaddr (i + n) len ∧ (kbuf ≤ uaddr ∨ uaddr + len < kbuf) ∧
      load (copyTurns kbuf uaddr n i m stores).mem kbuf (len + 1) = load mem uaddr (len + 1) := by
  intro n
  induction n with
  | zero =>
    intro i m stores _ hres
    exact absurd (show (-1 : Int) = 0 from hres) (by decide)
  | succ n ih =>
    intro i m stores h hres
    by_cases hok : userPtrOk (u64 (uaddr + i)) 1 = true
    · have haddr := h.address hu hok
      by_cases hc : m (uaddr + i) = 0
      · rw [copyTurns_nul hok haddr hc]
        exact ⟨i, h.finish hu hok hc (Nat.add_le_add_left (Nat.le_add_left 1 n) i)⟩
      · rw [copyTurns_char hok haddr hc] at hres ⊢
        obtain ⟨len, hfits, hrest⟩ := ih (h.turn hok hc) hres
        rw [Nat.add_assoc, Nat.add_comm 1 n] at hfits
        exact ⟨len, hfits, hrest⟩
    · rw [copyTurns_refused hok] at hres
      exact absurd (show (-1 : Int) = 0 from hres) (by decide)

/-- A string that ends in time is accepted, if the buffer does not begin in it. -/
theorem copyTurns_accepts (hu : uaddr < 2 ^ 64) {size : Nat} (hs : StrFits mem uaddr size len)
    (hfar : kbuf ≤ uaddr ∨ uaddr + len < kbuf) : ∀ {n i m stores}, Copying mem kbuf uaddr i m → i ≤ len →
    len < i + n → (copyTurns kbuf uaddr n i m stores).result = 0 := by
  intro n
  induction n with
  | zero => exact fun _ hi hn => absurd hn (by omega)
  | succ n ih =>
    intro i m stores h hi hn
    have hok := hs.user i hi
    have haddr := h.address hu hok
    have hread := h.read (by omega)
    rcases Nat.lt_or_eq_of_le hi with hlt | rfl
    · have hc : m (uaddr + i) ≠ 0 := by
        rw [hread, ← haddr]
        exact hs.chars i hlt
      rw [copyTurns_char hok haddr hc]
      exact ih (h.turn hok hc) hlt (by omega)
    · have hc : m (uaddr + i) = 0 := by
        rw [hread, ← haddr]
        exact hs.nul
      rw [copyTurns_nul hok haddr hc]

theorem copyTurns_inside : ∀ {n i m stores}, ∀ a ∈ (copyTurns kbuf uaddr n i m stores).stores,
    a ∈ stores ∨ kbuf + i ≤ a ∧ a ≤ kbuf + i + n := by
  intro n
  induction n with
  | zero =>
    intro i m stores a ha
    rcases List.mem_cons.mp ha with rfl | hold
    · exact Or.inr ⟨le_rfl, le_rfl⟩
    · exact Or.inl hold
  | succ n ih =>
    intro i m stores a ha
    rw [copyTurns] at ha
    split at ha
    · dsimp only at ha
      split at ha
      · rcases List.mem_cons.mp ha with rfl | hold
        · exact Or.inr ⟨le_rfl, by omega⟩
        · exact Or.inl hold
      · rcases ih a ha with hmem | hin
        · rcases List.mem_cons.mp hmem with rfl | hold
          · exact Or.inr ⟨le_rfl, by omega⟩
          · exact Or.inl hold
        · exact Or.inr (by omega)
    · exact Or.inl ha

/-! ### The call -/

theorem copyStrInto_eq (hk : kbuf ≠ 0) (hn : 0 < n) :
    copyStrInto mem kbuf uaddr n = copyTurns kbuf uaddr (n - 1) 0 mem [] :=
  if_neg (by omega)

/-- Where the call does what it should, a string that fits leaves a byte of the buffer over, and lies
    clear of it. -/
theorem Copies.clear (h : Copies mem kbuf uaddr n) (hk : kbuf ≠ 0) (hu : uaddr < 2 ^ 64)
    (hfits : StrFits mem uaddr n len) : len + 1 < n ∧ (kbuf ≤ uaddr ∨ uaddr + len < kbuf) := by
  have hn : 0 < n := (Nat.succ_pos len).trans_le hfits.room
  have hres := h.accepted.mpr ⟨len, hfits⟩
  rw [copyStrInto_eq hk hn] at hres
  obtain ⟨len', hfits', hfar, -⟩ := copyTurns_zero hu (.start mem kbuf uaddr) hres
  obtain rfl := hfits.unique hfits'
  have hroom := hfits'.room
  exact ⟨by omega, hfar⟩

/-- The call does what it should if and only if no string that fits fills the buffer, and the buffer does
    not begin in one. -/
theorem copies_iff (hk : kbuf ≠ 0) (hn : 0 < n) (hu : uaddr < 2 ^ 64) : Copies mem kbuf uaddr n ↔
    ∀ len, StrFits mem uaddr n len → len + 1 < n ∧ (kbuf ≤ uaddr ∨ uaddr + len < kbuf) := by
  refine ⟨fun h len => h.clear hk hu, fun h => ?_⟩
  have heq : copyStrInto mem kbuf uaddr n = _ := copyStrInto_eq hk hn
  have hstart := Copying.start mem kbuf uaddr
  have hmore : ∀ {len}, StrFits mem uaddr (0 + (n - 1)) len → StrFits mem uaddr n len :=
    fun hfits => { hfits with room := by have := hfits.room; omega }
  refine ⟨⟨fun hres => ?_, ?_⟩, fun len hres hfits => ?_, fun a ha => ?_⟩
  · rw [heq] at hres
    obtain ⟨len, hfits, -⟩ := copyTurns_zero hu hstart hres
    exact ⟨len, hmore hfits⟩
  · rintro ⟨len, hfits⟩
    obtain ⟨hlen, hfar⟩ := h len hfits
    rw [heq]
    exact copyTurns_accepts hu hfits hfar hstart (Nat.zero_le _) (by omega)
  · rw [heq] at hres ⊢
    obtain ⟨len', hfits', -, hload⟩ := copyTurns_zero hu hstart hres
    obtain rfl := hfits.unique hfits'
    exact hload
  · rw [heq] at ha
    rcases copyTurns_inside a ha with hnil | hin
    · exact absurd hnil List.not_mem_nil
    · omega

/-- `sh` and its NUL at the start of the user memory. -/
def shName : Memory := fun a => if a = userAddrMin then 115 else if a = userAddrMin + 1 then 104 else 0

theorem shName_copies : Copies shName 0x20000000 userAddrMin 256 ∧
    (copyStrInto shName 0x20000000 userAddrMin 256).result = 0 ∧
    load (copyStrInto shName 0x20000000 userAddrMin 256).mem 0x20000000 3 = [115, 104, 0] := by
  have haddr : ∀ i ≤ 2, u64 (userAddrMin + i) = userAddrMin + i :=
    fun i hi => u64_of_lt (by simp only [userAddrMin]; omega)
  have hcopies : Copies shName 0x20000000 userAddrMin 256 :=
    (copies_iff (by decide) (by decide) (by decide)).mpr fun len hfits => by
      have hlen : len ≤ 2 := by
        by_contra hlt
        refine hfits.chars 2 (by omega) ?_
        rw [haddr 2 le_rfl]
        decide
      simp only [userAddrMin]
      omega
  have hfits : StrFits shName userAddrMin 256 2 := by
    refine ⟨fun i hi => ?_, by rw [haddr 2 le_rfl]; decide, fun i hi => ?_, by decide⟩
    · rw [haddr i hi.le]
      obtain rfl | rfl : i = 0 ∨ i = 1 := by omega
      · decide
      · decide
    · rw [haddr i hi, userPtrOk_iff]
      simp only [userAddrMin, userAddrMax]
      omega
  have haccepted := hcopies.accepted.mpr ⟨2, hfits⟩
  refine ⟨hcopies, haccepted, (hcopies.string 2 haccepted hfits).trans ?_⟩
  decide

/-- 255 bytes and their NUL are refused in a buffer of 256. -/
theorem full_refused : ¬ ∀ mem kbuf uaddr n, kbuf ≠ 0 → 0 < n → uaddr < 2 ^ 64 → Copies mem kbuf uaddr n := by
  intro h
  have haddr : ∀ i ≤ 255, u64 (userAddrMin + i) = userAddrMin + i :=
    fun i hi => u64_of_lt (by simp only [userAddrMin]; omega)
  have hfits : StrFits (fun a => if a = userAddrMin + 255 then 0 else 97) userAddrMin 256 255 := by
    refine ⟨fun i hi => ?_, ?_, fun i hi => ?_, le_rfl⟩
    · rw [haddr i hi.le, if_neg (by omega)]
      decide
    · rw [haddr 255 le_rfl, if_pos rfl]
    · rw [haddr i hi, userPtrOk_iff]
      simp only [userAddrMin, userAddrMax]
      omega
  have hclear := (h _ 0x20000000 _ _ (by decide) (by decide) (by decide)).clear (by decide) (by decide) hfits
  exact absurd hclear.1 (by decide)

/-! ### What the callers get -/

/-- Where the buffer lies clear of what is read, the call accepts what `copyStrFromUser` says. -/
theorem copyTurns_loop (hu : uaddr < 2 ^ 64) : ∀ {n i m stores}, Copying mem kbuf uaddr i m →
    (kbuf ≤ uaddr ∨ uaddr + (i + n) ≤ kbuf) →
    ((copyTurns kbuf uaddr n i m stores).result = 0 ↔ (copyStrLoop mem n (u64 (uaddr + i))).isSome) := by
  intro n
  induction n with
  | zero =>
    intro i m stores _ _
    exact iff_of_false (show ¬ (-1 : Int) = 0 by decide) Bool.false_ne_true
  | succ n ih =>
    intro i m stores h hfar
    rw [copyStrLoop]
    by_cases hok : userPtrOk (u64 (uaddr + i)) 1 = true
    · have haddr := h.address hu hok
      have hread := h.read (by omega)
      rw [if_pos hok, haddr]
      by_cases hc : m (uaddr + i) = 0
      · rw [copyTurns_nul hok haddr hc, dif_neg (by rw [← hread, hc]; exact fun h => h rfl)]
        exact iff_of_true rfl rfl
      · rw [copyTurns_char hok haddr hc, dif_pos (by rwa [← hread]), Option.isSome_map]
        exact ih (h.turn hok hc) (by omega)
    · rw [copyTurns_refused hok, if_neg hok]
      exact iff_of_false (show ¬ (-1 : Int) = 0 by decide) Bool.false_ne_true

theorem StrAt.fits {t : Text} (h : StrAt mem uaddr t) (hroom : t.length + 1 ≤ n) :
    StrFits mem uaddr n t.length := by
  have hhigh := h.high
  simp only [userAddrMax] at hhigh
  have haddr : ∀ i ≤ t.length, u64 (uaddr + i) = uaddr + i := fun i hi => u64_of_lt (by omega)
  refine ⟨fun i hi => ?_, ?_, fun i hi => ?_, hroom⟩
  · rw [haddr i hi.le, h.chars i hi]
    exact t[i].2
  · rw [haddr _ le_rfl, h.nul]
  · rw [haddr i hi, userPtrOk_iff]
    have := h.high
    exact ⟨h.low.trans (Nat.le_add_right ..), by omega⟩

/-- The callers' buffers hold what `copyStrFromUser` gives. -/
theorem copyStrInto_refines (hk : kbuf ≠ 0) (hn : 0 < n) (hu : uaddr < 2 ^ 64)
    (hfar : kbuf ≤ uaddr ∨ uaddr + n ≤ kbuf) :
    ((copyStrInto mem kbuf uaddr n).result = 0 ↔ (copyStrFromUser mem uaddr n).isSome) ∧
    ∀ t, copyStrFromUser mem uaddr n = some t →
      load (copyStrInto mem kbuf uaddr n).mem kbuf (t.length + 1) = t.bytes ++ [0] := by
  have hstart := Copying.start mem kbuf uaddr
  have hloop : (copyTurns kbuf uaddr (n - 1) 0 mem []).result = 0 ↔ _ :=
    copyTurns_loop hu hstart (by omega)
  rw [Nat.add_zero, u64_of_lt hu] at hloop
  rw [copyStrInto_eq hk hn, copyStrFromUser]
  refine ⟨hloop, fun t ht => ?_⟩
  have hstr := copyStrLoop_strAt _ ht
  obtain ⟨len, hfits, -, hload⟩ := copyTurns_zero hu hstart (hloop.mpr (by rw [ht]; rfl))
  obtain rfl := (hstr.fits le_rfl).unique hfits
  rw [hload, hstr.load]

end TypeOS.Sys
