import TypeOS.Paging.User

/-! Memory for user programs: `sys_brk` and `sys_mmap` of `syscall.c`.

    Both take the addresses they are asked for as they come. `sys_brk` maps a page at `p->brk` and
    moves it on until it has passed the address; `sys_mmap` hands its range to
    `paging_map_user_range`. So all a call does to the tables is to grant pages that its arguments
    name. -/

namespace TypeOS.Sys
open Paging

/-- `E_NOMEM`. -/
abbrev eNomem : Int := -12

/-- `E_INVAL`. -/
abbrev eInval : Int := -22

/-- `p->brk += PAGE_SIZE`. -/
@[irreducible] def brkStep (brk : Nat) : Nat := u64 (brk + pageSize)

variable (im : Image)

/-- The loop of `sys_brk`, with so many turns left, and `p->brk`: whether it passed `addr`, and
    `none` where the turns run out. -/
def brkLoop (addr : Nat) : Nat → Nat → Vm → Option (Bool × Nat × Vm)
  | 0, _, _ => none
  | n + 1, brk, s =>
    if brk < addr then
      match pagingAllocPage s with
      | (none, s) => some (false, brk, s)
      | (some frame, s) =>
        match pagingClearPhys im s frame with
        | (false, s) => some (false, brk, pagingFreePage s frame)
        | (true, s) =>
          match pagingMapUserPage im s brk frame (pagePresent ||| pageWritable) with
          | (false, s) => some (false, brk, pagingFreePage s frame)
          | (true, s) => brkLoop addr n (brkStep brk) s
    else some (true, brk, s)

/-- `sys_brk`: what it returns, `p->brk` and the tables. A turn of the loop keeps a frame, so there
    are turns enough. -/
def sysBrk (s : Vm) (brk addr : Nat) : Option (Nat × Nat × Vm) :=
  if addr = 0 then some (brk, brk, s)
  else if addr < userBrkStart then some (brk, brk, s)
  else
    match brkLoop im addr (maxFrames + 1) brk s with
    | none => none
    | some (false, brk', s) => some (brk, brk', s)
    | some (true, _, s) =>
      let brk' := u64 (addr + pageSize - 1) / pageSize * pageSize
      some (addr, if brk' < addr then addr else brk', s)

/-- Where `sys_mmap` puts its range. -/
def mmapAddr (addr : Nat) : Nat :=
  u64 ((if addr ≠ 0 then addr else userBrkStart + 0x1000000) + pageSize - 1) / pageSize * pageSize

/-- `PROT_WRITE` makes the pages writable. -/
def mmapFlags (prot : Nat) : Word :=
  if prot.testBit 1 then pagePresent ||| pageUser ||| pageWritable else pagePresent ||| pageUser

/-- `sys_mmap`, an address or an error; `MAP_ANONYMOUS` is bit 5 of the flags. -/
def sysMmap (s : Vm) (addr len prot flags : Nat) : Except Int Nat × Vm :=
  if len = 0 ∨ flags.testBit 5 = false then (.error eInval, s)
  else
    match pagingMapUserRange im s (mmapAddr addr) len (mmapFlags prot) with
    | (false, s) => (.error eNomem, s)
    | (true, s) => (.ok (mmapAddr addr), s)

variable {im} {s s' : Vm} {tag tag' : Nat → Option Path} {brk brk' addr len prot flags n r : Nat}
  {ok : Bool} {π : Path}

/-! ### The pages a call names -/

/-- Where `p->brk` is after so many turns. -/
def brkAfter : Nat → Nat → Nat
  | brk, 0 => brk
  | brk, j + 1 => brkAfter (brkStep brk) j

theorem brkAfter_succ (brk j : Nat) : brkAfter brk (j + 1) = brkAfter (brkStep brk) j :=
  rfl

theorem brkStep_eq (brk : Nat) : brkStep brk = u64 (brk + pageSize) := by
  unfold brkStep
  rfl

theorem brkAfter_eq (j : Nat) : ∀ {brk : Nat}, brk + j * pageSize < 2 ^ 64 →
    brkAfter brk j = brk + j * pageSize := by
  induction j with
  | zero =>
    intro brk _
    rw [brkAfter, Nat.zero_mul, Nat.add_zero]
  | succ j ih =>
    intro brk hlt
    have hsum : brk + pageSize + j * pageSize = brk + (j + 1) * pageSize := by ring
    rw [← hsum] at hlt
    have hstep : brkStep brk = brk + pageSize := (brkStep_eq brk).trans (u64_of_lt (by omega))
    rw [brkAfter_succ, hstep, ih hlt, hsum]

/-- The pages of the first `m` turns of `sys_brk`. -/
def BrkPages (brk m : Nat) (π : Path) : Prop := ∃ j < m, π = pathOf (brkAfter brk j)

theorem BrkPages.zero (hm : 0 < n) : BrkPages brk n (pathOf brk) := ⟨0, hm, rfl⟩

theorem BrkPages.succ (h : BrkPages (brkStep brk) n π) : BrkPages brk (n + 1) π := by
  obtain ⟨j, hj, rfl⟩ := h
  exact ⟨j + 1, by omega, by rw [brkAfter_succ]⟩

/-- One turn of `sys_brk`. -/
theorem brkLoop_turn (h : Forest s tag) (hlt : brk < addr) :
    (∃ s', (∀ n, brkLoop im addr (n + 1) brk s = some (false, brk, s')) ∧
      ∃ tag', Granted (fun _ => False) s tag s' tag') ∨
    ∃ s', (∀ n, brkLoop im addr (n + 1) brk s = brkLoop im addr n (brkStep brk) s') ∧
      (∃ f, bitmapTest s f = false ∧ bitmapTest s' f = true) ∧
      ∃ tag', Granted (· = pathOf brk) s tag s' tag' ∧
        (walk s'.mem s'.pml4 brk).isSome = true := by
  rcases ha : pagingAllocPage s with ⟨_ | a, s₁⟩
  · refine Or.inl ⟨s₁, fun n => by rw [brkLoop, if_pos hlt, ha], ?_⟩
    rw [pagingAllocPage_none h.null ha]
    exact ⟨tag, Granted.refl h⟩
  · obtain ⟨hback, hmap⟩ :=
      @grant_spec im s s₁ tag brk a (pagePresent ||| pageWritable) h ha
    rcases hc : pagingClearPhys im s₁ a with ⟨okc, s₂⟩
    rw [hc] at hback hmap
    cases okc with
    | false =>
      exact Or.inl ⟨_, fun n => by rw [brkLoop, if_pos hlt, ha]; simp only [hc], hback⟩
    | true =>
      rcases hm : pagingMapUserPage im s₂ brk a (pagePresent ||| pageWritable) with ⟨okm, s₃⟩
      obtain ⟨hfail, hdone⟩ := hmap okm s₃ hm
      cases okm with
      | false =>
        exact Or.inl ⟨_, fun n => by rw [brkLoop, if_pos hlt, ha]; simp only [hc, hm], hfail rfl⟩
      | true =>
        obtain ⟨htake, tag', g, hpage⟩ := hdone rfl
        exact Or.inr ⟨s₃, fun n => by rw [brkLoop, if_pos hlt, ha]; simp only [hc, hm], htake,
          tag', g, hpage (by decide)⟩

/-- The loop grants the pages of the turns it made and stands behind them; it has passed `addr`
    exactly if it says so. -/
theorem brkLoop_spec (n : Nat) : ∀ {brk : Nat} {s : Vm} {tag : Nat → Option Path},
    Forest s tag → brkLoop im addr n brk s = some (ok, brk', s') →
    ∃ m tag', Granted (BrkPages brk m) s tag s' tag' ∧ m ≤ (freeFrames s).card ∧
      brk' = brkAfter brk m ∧
      (∀ j < m, brkAfter brk j < addr) ∧ (ok = true ↔ addr ≤ brk') ∧
      ((∀ j < m, pathOf (brkAfter brk j) ≠ pathOf kernelKmapWindow) →
        (∀ j < m, ∀ k < m, pathOf (brkAfter brk j) = pathOf (brkAfter brk k) → j = k) →
        ∀ j < m, (walk s'.mem s'.pml4 (brkAfter brk j)).isSome = true) := by
  induction n with
  | zero =>
    intro brk s tag _ hrun
    simp [brkLoop] at hrun
  | succ n ih =>
    intro brk s tag h hrun
    rcases Nat.lt_or_ge brk addr with hlt | hge
    · rcases brkLoop_turn h hlt with
        ⟨s₁, hturn, tag₁, g⟩ | ⟨s₁, hturn, ⟨f, hfree, htaken⟩, tag₁, g, hpage⟩
      · rw [hturn] at hrun
        obtain ⟨rfl, rfl, rfl⟩ : ok = false ∧ brk' = brk ∧ s' = s₁ := by
          simpa [eq_comm] using hrun
        refine ⟨0, tag₁, g.mono fun _ hc => hc.elim, Nat.zero_le _, rfl,
          fun j hj => absurd hj (Nat.not_lt_zero j), ?_, fun _ _ j hj => absurd hj (Nat.not_lt_zero j)⟩
        simp only [Bool.false_eq_true, false_iff]
        omega
      · rw [hturn] at hrun
        obtain ⟨m, tag', g', hm, hbrk, hlow, hok, hrest⟩ := ih g.forest hrun
        have hcard := card_freeFrames_lt g.bits hfree htaken
        rw [← brkAfter_succ] at hbrk
        simp only [← brkAfter_succ] at hlow hrest
        refine ⟨m + 1, tag', (g.mono ?_).trans h (g'.mono fun π => BrkPages.succ), by omega, hbrk,
          ?_, hok, ?_⟩
        · rintro π rfl
          exact BrkPages.zero (Nat.succ_pos m)
        · intro j hj
          cases j with
          | zero => exact hlt
          | succ j => exact hlow j (by omega)
        · intro hwin hinj j hj
          cases j with
          | zero =>
            -- the later turns leave the first page alone
            have hfirst : pathOf brk ≠ pathOf kernelKmapWindow := hwin 0 (Nat.succ_pos m)
            rw [brkAfter, g'.walk g.forest hfirst]
            · exact hpage
            · rintro ⟨k, hk, heq⟩
              rw [← brkAfter_succ] at heq
              have := hinj 0 (Nat.succ_pos m) (k + 1) (by omega) heq
              omega
          | succ j =>
            refine hrest (fun k hk => hwin (k + 1) (by omega)) ?_ j (by omega)
            intro k hk l hl heq
            have := hinj (k + 1) (by omega) (l + 1) (by omega) heq
            omega
    · rw [brkLoop, if_neg (by omega)] at hrun
      obtain ⟨rfl, rfl, rfl⟩ : ok = true ∧ brk' = brk ∧ s' = s := by
        simpa [eq_comm] using hrun
      exact ⟨0, tag, Granted.refl h, Nat.zero_le _, rfl, fun j hj => absurd hj (Nat.not_lt_zero j),
        by simpa using hge, fun _ _ j hj => absurd hj (Nat.not_lt_zero j)⟩

/-! ### The loop ends -/

/-- With a turn for each free frame and one more the loop ends. -/
theorem brkLoop_ends (n : Nat) : ∀ {brk : Nat} {s : Vm} {tag : Nat → Option Path}, Forest s tag →
    (freeFrames s).card < n → (brkLoop im addr n brk s).isSome = true := by
  induction n with
  | zero =>
    intro brk s tag _ hcard
    exact absurd hcard (Nat.not_lt_zero _)
  | succ n ih =>
    intro brk s tag h hcard
    rcases Nat.lt_or_ge brk addr with hlt | hge
    · rcases brkLoop_turn h hlt with ⟨s₁, hturn, -⟩ | ⟨s₁, hturn, ⟨f, hfree, htaken⟩, tag₁, g, -⟩
      · rw [hturn]
        rfl
      · rw [hturn]
        refine ih g.forest ?_
        have := card_freeFrames_lt g.bits hfree htaken
        omega
    · rw [brkLoop, if_neg (by omega)]
      rfl

/-- `sys_brk` returns. -/
theorem sysBrk_returns (im : Image) (h : Forest s tag) (brk addr : Nat) :
    (sysBrk im s brk addr).isSome = true := by
  rw [sysBrk]
  split
  · rfl
  split
  · rfl
  have hends := @brkLoop_ends im addr (maxFrames + 1) brk s tag h
    (Nat.lt_succ_of_le (card_freeFrames s))
  rcases hrun : brkLoop im addr (maxFrames + 1) brk s with _ | ⟨ok, brk', s'⟩
  · rw [hrun] at hends
    simp at hends
  · cases ok <;> rfl

/-! ### What a call does -/

/-- `p->brk` once `sys_brk` has passed `addr`. -/
def brkEnd (addr : Nat) : Nat :=
  if u64 (addr + pageSize - 1) / pageSize * pageSize < addr then addr
  else u64 (addr + pageSize - 1) / pageSize * pageSize

/-- What a call of `sys_brk` has done after `m` turns: it granted the pages it passed, all of them
    below `addr`, and returns `addr` if it passed that, and else the old `p->brk`. -/
structure BrkRun (brk addr m : Nat) (s : Vm) (tag : Nat → Option Path) (r brk' : Nat) (s' : Vm)
    (tag' : Nat → Option Path) : Prop where
  granted : Granted (BrkPages brk m) s tag s' tag'
  frames : m ≤ (freeFrames s).card
  below : ∀ j < m, brkAfter brk j < addr
  user : userBrkStart ≤ addr ∨ m = 0
  result : r = brk ∧ brk' = brkAfter brk m ∨
    r = addr ∧ addr ≤ brkAfter brk m ∧ brk' = brkEnd addr
  mapped : (∀ j < m, pathOf (brkAfter brk j) ≠ pathOf kernelKmapWindow) →
    (∀ j < m, ∀ k < m, pathOf (brkAfter brk j) = pathOf (brkAfter brk k) → j = k) →
    ∀ j < m, (walk s'.mem s'.pml4 (brkAfter brk j)).isSome = true

theorem BrkRun.nothing (h : Forest s tag) : BrkRun brk addr 0 s tag brk brk s tag :=
  ⟨Granted.refl h, Nat.zero_le _, fun j hj => absurd hj (Nat.not_lt_zero j), Or.inr rfl,
    Or.inl ⟨rfl, rfl⟩,
    fun _ _ j hj => absurd hj (Nat.not_lt_zero j)⟩

theorem sysBrk_spec (h : Forest s tag) (hcall : sysBrk im s brk addr = some (r, brk', s')) :
    ∃ m tag', BrkRun brk addr m s tag r brk' s' tag' := by
  rw [sysBrk] at hcall
  split at hcall
  · obtain ⟨rfl, rfl, rfl⟩ : brk = r ∧ brk = brk' ∧ s = s' := by simpa using hcall
    exact ⟨0, tag, BrkRun.nothing h⟩
  split at hcall
  · obtain ⟨rfl, rfl, rfl⟩ : brk = r ∧ brk = brk' ∧ s = s' := by simpa using hcall
    exact ⟨0, tag, BrkRun.nothing h⟩
  next hlow =>
  rcases hrun : brkLoop im addr (maxFrames + 1) brk s with _ | ⟨ok, b, s₁⟩
  · rw [hrun] at hcall
    simp at hcall
  · obtain ⟨m, tag', g, hm, hb, hbelow, hok, hmapped⟩ := brkLoop_spec _ h hrun
    rw [hrun] at hcall
    cases ok with
    | false =>
      obtain ⟨rfl, rfl, rfl⟩ : brk = r ∧ b = brk' ∧ s₁ = s' := by simpa using hcall
      exact ⟨m, tag', g, hm, hbelow, Or.inl (by omega), Or.inl ⟨rfl, hb⟩, hmapped⟩
    | true =>
      obtain ⟨rfl, rfl, rfl⟩ : addr = r ∧ brkEnd addr = brk' ∧ s₁ = s' := by
        simpa [brkEnd] using hcall
      exact ⟨m, tag', g, hm, hbelow, Or.inl (by omega), Or.inr ⟨rfl, hb ▸ hok.mp rfl, rfl⟩,
        hmapped⟩

/-- How many pages `sys_mmap` asks for. -/
def mmapPages (addr len flags : Nat) : Nat :=
  if len = 0 ∨ flags.testBit 5 = false then 0 else userRangePages (mmapAddr addr) len

theorem pageOf_mmapAddr (addr : Nat) : pageOf (mmapAddr addr) = mmapAddr addr := by
  rw [mmapAddr, pageOf, frame_div _]

/-- `sys_mmap` grants pages of the range it asks for, no more than there are frames, and all of
    them if it returns the address. -/
theorem sysMmap_spec (h : Forest s tag) (addr len prot flags : Nat) :
    ∃ tag', Granted (Pages (mmapAddr addr) (min (mmapPages addr len flags) (freeFrames s).card))
        s tag (sysMmap im s addr len prot flags).2 tag' ∧
      ∀ a, (sysMmap im s addr len prot flags).1 = .ok a → a = mmapAddr addr ∧
        ((∀ j < mmapPages addr len flags,
          pathOf (mmapAddr addr + j * pageSize) ≠ pathOf kernelKmapWindow) →
        (∀ j < mmapPages addr len flags, ∀ k < mmapPages addr len flags,
          pathOf (mmapAddr addr + j * pageSize) = pathOf (mmapAddr addr + k * pageSize) → j = k) →
        ∀ j < mmapPages addr len flags, (walk (sysMmap im s addr len prot flags).2.mem
          (sysMmap im s addr len prot flags).2.pml4
          (mmapAddr addr + j * pageSize)).isSome = true) := by
  have hpr : has (mmapFlags prot) pagePresent = true := by
    rw [mmapFlags]
    split <;> decide
  rw [sysMmap, mmapPages]
  split
  · refine ⟨tag, Granted.refl h, fun a ha => ?_⟩
    simp at ha
  · rcases hm : pagingMapUserRange im s (mmapAddr addr) len (mmapFlags prot) with ⟨ok, s'⟩
    rw [pagingMapUserRange, pageOf_mmapAddr] at hm
    obtain ⟨tag', g, hdone⟩ := @mapUserLoop_spec im (mmapFlags prot)
      (userRangePages (mmapAddr addr) len) (mmapAddr addr) s tag h
    rw [hm] at g hdone
    cases ok with
    | false =>
      refine ⟨tag', g, fun a ha => ?_⟩
      simp at ha
    | true =>
      refine ⟨tag', g, fun a ha => ⟨?_, hdone hpr rfl⟩⟩
      simpa [eq_comm] using ha

end TypeOS.Sys
