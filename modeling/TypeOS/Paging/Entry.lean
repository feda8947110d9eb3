import TypeOS.Layout

/-! The words of a page table: flag bits around a frame number.

    An entry is a 64 bit word. `entryFrame` is the frame `table_entry_virt` points at, and `has`
    tests a flag the way the source does. The lemmas say what each expression of the source that
    builds an entry leaves in these two. -/

namespace TypeOS.Paging

/-- A `uint64_t` of a page table. -/
abbrev Word := BitVec 64

/-- `PTE_ADDR_MASK`. -/
def pteAddrMask : Word := 0x000FFFFFFFFFF000#64

/-- `PAGE_PRESENT`. -/
def pagePresent : Word := 1#64 <<< 0

/-- `PAGE_WRITABLE`. -/
def pageWritable : Word := 1#64 <<< 1

/-- `PAGE_USER`. -/
def pageUser : Word := 1#64 <<< 2

/-- `PAGE_HUGE`. -/
def pageHuge : Word := 1#64 <<< 7

/-- `entry & flag`, as a condition. -/
def has (e flag : Word) : Bool := e &&& flag != 0#64

/-- The frame of `table_entry_virt (entry)`. -/
def entryFrame (e : Word) : Nat := (e &&& pteAddrMask).toNat / pageSize

/-- The address of a frame, as an entry stores it. -/
def frameWord (f : Nat) : Word := BitVec.ofNat 64 (f * pageSize)

/-- Entry `i` of the page table `split_huge_page` makes of a huge entry. -/
def splitEntry (huge : Word) (i : Fin 512) : Word :=
  (huge &&& pteAddrMask) + BitVec.ofNat 64 i * BitVec.ofNat 64 pageSize +
    (huge &&& ~~~pteAddrMask &&& ~~~pageHuge)

/-! ### Flags -/

theorem has_shift (e : Word) {k : Nat} (hk : k < 64) : has e (1#64 <<< k) = e.getLsbD k := by
  have htwo : (1#64 <<< k) = BitVec.twoPow 64 k := by
    rw [BitVec.twoPow_eq]
  rw [has, htwo, BitVec.and_twoPow]
  cases h : e.getLsbD k with
  | false => simp
  | true =>
    have : BitVec.twoPow 64 k ≠ 0#64 := by
      intro h0
      have := congrArg (fun b => b.getLsbD k) h0
      simp [hk] at this
    simpa using this

@[simp] theorem has_present (e : Word) : has e pagePresent = e.getLsbD 0 := has_shift e (by decide)
@[simp] theorem has_writable (e : Word) : has e pageWritable = e.getLsbD 1 := has_shift e (by decide)
@[simp] theorem has_user (e : Word) : has e pageUser = e.getLsbD 2 := has_shift e (by decide)
@[simp] theorem has_huge (e : Word) : has e pageHuge = e.getLsbD 7 := has_shift e (by decide)

/-! ### Frame numbers -/

theorem entryFrame_eq (e : Word) : entryFrame e = e.toNat / 4096 % 2 ^ 40 := by
  have hmask : pteAddrMask.toNat = (2 ^ 40 - 1) <<< 12 := by decide
  rw [entryFrame, BitVec.toNat_and, hmask, show pageSize = 2 ^ 12 from rfl,
    ← Nat.shiftRight_eq_div_pow, Nat.shiftRight_and_distrib, Nat.shiftLeft_shiftRight,
    Nat.and_two_pow_sub_one_eq_mod, Nat.shiftRight_eq_div_pow]

theorem entryFrame_lt (e : Word) : entryFrame e < 2 ^ 40 := by
  rw [entryFrame_eq]; exact Nat.mod_lt _ (by decide)

/-- Bits outside the address field do not matter to the frame. -/
theorem entryFrame_congr {a b : Word} (h : a &&& pteAddrMask = b &&& pteAddrMask) :
    entryFrame a = entryFrame b := by
  rw [entryFrame, entryFrame, h]

theorem frameWord_toNat {f : Nat} (hf : f < 2 ^ 40) : (frameWord f).toNat = f * 4096 := by
  rw [frameWord, BitVec.toNat_ofNat]
  exact Nat.mod_eq_of_lt (by simp only [pageSize]; omega)

theorem entryFrame_frameWord {f : Nat} (hf : f < 2 ^ 40) : entryFrame (frameWord f) = f := by
  rw [entryFrame_eq, frameWord_toNat hf]
  omega

/-- A word without address bits leaves the frame of what it is or'ed into. -/
theorem entryFrame_or {a b : Word} (hb : b &&& pteAddrMask = 0#64) :
    entryFrame (a ||| b) = entryFrame a := by
  refine entryFrame_congr ?_
  rw [BitVec.and_or_distrib_right, hb, BitVec.or_zero]

theorem entryFrame_and_mask (a : Word) : entryFrame (a &&& pteAddrMask) = entryFrame a :=
  entryFrame_congr (by rw [BitVec.and_assoc, BitVec.and_self])

/-- The low bits of a frame's address are clear. -/
theorem frameWord_getLsbD (f : Nat) {k : Nat} (hk : k < 12) : (frameWord f).getLsbD k = false := by
  rw [frameWord, BitVec.getLsbD_ofNat, show pageSize = 2 ^ 12 from rfl, ← Nat.shiftLeft_eq,
    Nat.testBit_shiftLeft]
  simp [show ¬ k ≥ 12 by omega]

theorem pteAddrMask_getLsbD {k : Nat} (hk : k < 12) : pteAddrMask.getLsbD k = false := by
  interval_cases k <;> rfl

theorem ofNat_frame {p : Nat} (hp : p % pageSize = 0) : BitVec.ofNat 64 p = frameWord (p / pageSize) := by
  rw [frameWord, Nat.div_mul_cancel (Nat.dvd_of_mod_eq_zero hp)]

/-! ### Splitting -/

theorem pteFlags_toNat (e : Word) :
    (e &&& ~~~pteAddrMask &&& ~~~pageHuge).toNat / 4096 % 2 ^ 40 = 0 := by
  rw [← entryFrame_eq, entryFrame, BitVec.and_assoc, BitVec.and_assoc,
    BitVec.and_comm (~~~pageHuge), ← BitVec.and_assoc (~~~pteAddrMask)]
  simp

theorem and_mask_toNat (e : Word) : (e &&& pteAddrMask).toNat = entryFrame e * 4096 := by
  have hmod : (e &&& pteAddrMask).toNat % 4096 = 0 := by
    rw [show (4096 : Nat) = 2 ^ 12 from rfl, ← BitVec.toNat_setWidth]
    have : (e &&& pteAddrMask).setWidth 12 = 0#12 := by
      refine BitVec.eq_of_getLsbD_eq fun k hk => ?_
      simp [pteAddrMask_getLsbD hk]
    rw [this]; rfl
  rw [entryFrame, show pageSize = 4096 from rfl]
  omega

/-- The split entries of a huge page that lies at a whole number of them map its frames in turn
    and keep its flags. -/
theorem splitEntry_spec {huge : Word} (hal : entryFrame huge % 512 = 0) (i : Fin 512) :
    entryFrame (splitEntry huge i) = entryFrame huge + i ∧
      (∀ k < 7, (splitEntry huge i).getLsbD k = huge.getLsbD k) := by
  set fl := huge &&& ~~~pteAddrMask &&& ~~~pageHuge with hfl
  have hlt := entryFrame_lt huge
  have hflags := pteFlags_toNat huge
  rw [← hfl] at hflags
  have hbase : ((huge &&& pteAddrMask) + BitVec.ofNat 64 i * BitVec.ofNat 64 pageSize).toNat =
      (entryFrame huge + i) * 4096 := by
    have hi := i.isLt
    simp only [BitVec.toNat_add, BitVec.toNat_mul, BitVec.toNat_ofNat, and_mask_toNat, pageSize]
    omega
  have hsum : (splitEntry huge i).toNat = ((entryFrame huge + i) * 4096 + fl.toNat) % 2 ^ 64 := by
    rw [splitEntry, BitVec.toNat_add, hbase]
  refine ⟨?_, fun k hk => ?_⟩
  · rw [entryFrame_eq, hsum]
    have hi := i.isLt
    omega
  · have hlow : (splitEntry huge i).toNat % 2 ^ 12 = fl.toNat % 2 ^ 12 := by
      rw [hsum]; omega
    have hbit : (splitEntry huge i).getLsbD k = fl.getLsbD k := by
      have := congrArg (fun x => x.testBit k) hlow
      simp only [Nat.testBit_mod_two_pow, show k < 12 by omega, decide_true, Bool.true_and] at this
      exact this
    have hmask := pteAddrMask_getLsbD (k := k) (by omega)
    have hhuge : pageHuge.getLsbD k = false := by interval_cases k <;> rfl
    have hk' : k < 64 := by omega
    simp only [hbit, hfl, BitVec.getLsbD_and, BitVec.getLsbD_not, hmask, hhuge, hk', decide_true,
      Bool.not_false, Bool.and_true]

end TypeOS.Paging
