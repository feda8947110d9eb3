import TypeOS.Sys.KernelKept

/-! Whether the memory `sys_brk` and `sys_mmap` hand out is fresh.

    Neither looks at what is mapped where its range goes: a page that is there already is mapped
    again. Memory is fresh while each request keeps away from what was mapped when the process
    started, from what `p->brk` has passed and from the ranges asked of `sys_mmap` before. -/

namespace TypeOS.Sys
open Paging Radix

/-- The addresses a request asks memory for. -/
def Request.Covers (brk : Nat) : Request → Nat → Prop
  | .brk addr, v => userBrkStart ≤ addr ∧ brk ≤ v ∧ v < brkEnd addr
  | .mmap addr len _ flags, v => flags.testBit 5 = true ∧ mmapAddr addr ≤ v ∧
    v < mmapAddr addr + (len + pageSize - 1) / pageSize * pageSize

/-- A request within the addresses there are; one of `sys_brk` does not go back. -/
def Request.Fits (brk : Nat) : Request → Prop
  | .brk addr => addr < userBrkStart ∨ brk % pageSize = 0 ∧ brk ≤ addr ∧ addr ≤ 2 ^ 48
  | .mmap addr len _ _ => mmapAddr addr + len ≤ 2 ^ 48

/-- What a request asks for was not mapped in `s₀`, was not asked for before, and is not the
    temporary window's first page. -/
def Request.Clear (s₀ : Vm) (asked : Nat → Prop) (brk : Nat) (req : Request) : Prop :=
  req.Fits brk ∧ ∀ v, req.Covers brk v →
    walk s₀.mem s₀.pml4 v = none ∧ ¬ asked v ∧ pathOf v ≠ pathOf kernelKmapWindow

/-- Requests of one process from the tables `s₀` on, all of them clear, with its `p->brk` and what
    it asked for so far: what `p->brk` passed, and every range of `sys_mmap`. -/
inductive ClearRun (im : Image) (s₀ : Vm) (brk₀ : Nat) : Vm → Nat → (Nat → Prop) → Prop
  | start : ClearRun im s₀ brk₀ s₀ brk₀ fun _ => False
  | brk {s s' : Vm} {brk brk' addr r : Nat} {asked : Nat → Prop}
    (h : ClearRun im s₀ brk₀ s brk asked) (hclear : (Request.brk addr).Clear s₀ asked brk)
    (hcall : sysBrk im s brk addr = some (r, brk', s')) :
    ClearRun im s₀ brk₀ s' brk' fun v => asked v ∨ brk ≤ v ∧ v < brk'
  | mmap {s : Vm} {brk addr len prot flags : Nat} {asked : Nat → Prop}
    (h : ClearRun im s₀ brk₀ s brk asked)
    (hclear : (Request.mmap addr len prot flags).Clear s₀ asked brk) :
    ClearRun im s₀ brk₀ (sysMmap im s addr len prot flags).2 brk fun v =>
      asked v ∨ (Request.mmap addr len prot flags).Covers brk v

/-- If the request returns success, what it newly grants is mapped, and was not before. -/
def GrantsFresh (im : Image) (s : Vm) (brk : Nat) : Request → Prop
  | .brk addr => ∀ brk' s', userBrkStart ≤ addr → sysBrk im s brk addr = some (addr, brk', s') →
    ∀ v, brk ≤ v → v < brk' →
      (walk s'.mem s'.pml4 v).isSome = true ∧ walk s.mem s.pml4 v = none
  | .mmap addr len prot flags => ∀ a s', sysMmap im s addr len prot flags = (.ok a, s') →
    ∀ v, a ≤ v → v < a + len →
      (walk s'.mem s'.pml4 v).isSome = true ∧ walk s.mem s.pml4 v = none

variable {im : Image} {s s' s₀ : Vm} {roots : List Nat} {tag tag' : Nat → Option Path}
  {brk brk' brk₀ addr len prot flags m r u v : Nat} {asked : Nat → Prop} {req : Request}
  {G : Path → Prop}

/-! ### Pages and addresses -/

/-- A page of a range that fits holds the address. -/
theorem pages_iff {a n : Nat} (ha : a % pageSize = 0) (hend : a + n * pageSize ≤ 2 ^ 48)
    (hv : v < 2 ^ 48) : Pages a n (pathOf v) ↔ a ≤ v ∧ v < a + n * pageSize := by
  simp only [pageSize] at *
  constructor
  · rintro ⟨j, hj, heq⟩
    have hpage := pathOf_inj hv (by simp only [pageSize]; omega) heq
    simp only [pageSize] at hpage
    omega
  · rintro ⟨hlo, hhi⟩
    refine ⟨(v - a) / 4096, by omega, pathOf_same ?_⟩
    simp only [pageSize]
    omega

/-- The pages of a range that fits are different ones. -/
theorem pages_injective {a n : Nat} (hend : a + n * pageSize ≤ 2 ^ 48) :
    ∀ j < n, ∀ k < n, pathOf (a + j * pageSize) = pathOf (a + k * pageSize) → j = k := by
  intro j hj k hk heq
  simp only [pageSize] at *
  have hpage := pathOf_inj (by omega) (by omega) heq
  simp only [pageSize] at hpage
  omega

theorem walk_page {w : Vm} (h : pathOf u = pathOf v) :
    walk w.mem w.pml4 u = walk w.mem w.pml4 v := by
  rw [walk, walk, h]

/-- What is mapped after pages were granted was mapped before, or is one of them. -/
theorem Granted.was_mapped (h : Granted G s tag s' tag') (hs : Forest s tag)
    (hwin : ¬ G (pathOf kernelKmapWindow)) (hv : (walk s'.mem s'.pml4 v).isSome = true) :
    (walk s.mem s.pml4 v).isSome = true ∨ G (pathOf v) := by
  by_cases hG : G (pathOf v)
  · exact Or.inr hG
  · left
    by_cases hfirst : pathOf v = pathOf kernelKmapWindow
    · rw [walk_page hfirst] at hv ⊢
      rw [Option.isSome_iff_ne_none] at hv ⊢
      exact fun hnone => hv (h.window hwin hnone)
    · rwa [h.walk hs hfirst hG] at hv

/-! ### `sys_brk` within the addresses -/

theorem sysBrk_low (hlow : addr < userBrkStart) (hcall : sysBrk im s brk addr = some (r, brk', s')) :
    brk' = brk ∧ s' = s := by
  rw [sysBrk, if_pos hlow, ite_self] at hcall
  obtain ⟨-, rfl, rfl⟩ : brk = r ∧ brk = brk' ∧ s = s' := by simpa using hcall
  exact ⟨rfl, rfl⟩

theorem brkEnd_eq (h : addr ≤ 2 ^ 48) :
    brkEnd addr = (addr + pageSize - 1) / pageSize * pageSize := by
  have hround : u64 (addr + pageSize - 1) = addr + pageSize - 1 :=
    u64_of_lt (by simp only [pageSize]; omega)
  rw [brkEnd, hround, if_neg]
  simp only [pageSize]
  omega

/-- A call that fits moves `p->brk` on by the pages it granted. -/
theorem BrkRun.range (h : BrkRun brk addr m s tag r brk' s' tag') (hal : brk % pageSize = 0)
    (hle : brk ≤ addr) (hend : addr ≤ 2 ^ 48) : brk' = brk + m * pageSize ∧ brk' ≤ brkEnd addr ∧
      brk' ≤ 2 ^ 48 ∧ ∀ j ≤ m, brkAfter brk j = brk + j * pageSize := by
  have hcard := le_trans h.frames (card_freeFrames s)
  simp only [maxFrames, maxPhysMem, pageSize] at hcard
  have hafter : ∀ j ≤ m, brkAfter brk j = brk + j * pageSize := fun j hj =>
    brkAfter_eq j (by simp only [pageSize]; omega)
  have hlast : m = 0 ∨ brk + (m - 1) * pageSize < addr := by
    rcases Nat.eq_zero_or_pos m with h0 | hpos
    · exact Or.inl h0
    · right
      rw [← hafter (m - 1) (by omega)]
      exact h.below (m - 1) (by omega)
  have hres := h.result
  rw [hafter m le_rfl] at hres
  rw [brkEnd_eq hend] at hres ⊢
  simp only [pageSize] at *
  exact ⟨by omega, by omega, by omega, hafter⟩

/-- What such a call does to the tables. -/
theorem sysBrk_grants (h : Forest s tag) (hal : brk % pageSize = 0) (hle : brk ≤ addr)
    (hend : addr ≤ 2 ^ 48) (hcall : sysBrk im s brk addr = some (r, brk', s')) :
    ∃ m tag', Granted (Pages brk m) s tag s' tag' ∧ brk' = brk + m * pageSize ∧
      brk' ≤ brkEnd addr ∧ brk' ≤ 2 ^ 48 ∧
      ((∀ j < m, pathOf (brk + j * pageSize) ≠ pathOf kernelKmapWindow) →
        ∀ j < m, (walk s'.mem s'.pml4 (brk + j * pageSize)).isSome = true) := by
  obtain ⟨m, tag', g⟩ := sysBrk_spec h hcall
  obtain ⟨hbrk, hle', hend', hafter⟩ := g.range hal hle hend
  refine ⟨m, tag', g.granted.mono ?_, hbrk, hle', hend', fun hwin j hj => ?_⟩
  · rintro π ⟨j, hj, rfl⟩
    exact ⟨j, hj, by rw [hafter j (by omega)]⟩
  · rw [← hafter j (by omega)]
    refine g.mapped (fun k hk => ?_) (fun k hk l hl heq => ?_) j hj
    · rw [hafter k (by omega)]
      exact hwin k hk
    · rw [hafter k (by omega), hafter l (by omega)] at heq
      exact pages_injective (by omega) k hk l hl heq

/-! ### `sys_mmap` within the addresses -/

theorem mmapAddr_aligned (addr : Nat) : mmapAddr addr % pageSize = 0 := by
  rw [mmapAddr]
  exact Nat.mul_mod_left ..

/-- A range that fits is gone over in whole. -/
theorem mmapPages_eq (hlen : len ≠ 0) (hanon : flags.testBit 5 = true)
    (hend : mmapAddr addr + len ≤ 2 ^ 48) :
    mmapPages addr len flags = (len + pageSize - 1) / pageSize := by
  have hal := mmapAddr_aligned addr
  have hround : u64 (mmapAddr addr + len + pageSize - 1) = mmapAddr addr + len + pageSize - 1 :=
    u64_of_lt (by simp only [pageSize]; omega)
  rw [mmapPages, if_neg (by simp [hlen, hanon]), userRangePages, hround, pageOf_mmapAddr]
  simp only [pageSize] at *
  omega

/-- The pages of a request that fits lie in what it covers. -/
theorem mmap_covers (hend : mmapAddr addr + len ≤ 2 ^ 48) (hv : v < 2 ^ 48)
    (hp : Pages (mmapAddr addr) (mmapPages addr len flags) (pathOf v)) :
    (Request.mmap addr len prot flags).Covers brk v := by
  have hcall : ¬ (len = 0 ∨ flags.testBit 5 = false) := by
    intro hc
    obtain ⟨j, hj, -⟩ := hp
    rw [mmapPages, if_pos hc] at hj
    exact absurd hj (Nat.not_lt_zero j)
  rw [not_or, Bool.not_eq_false] at hcall
  have hal := mmapAddr_aligned addr
  rw [mmapPages_eq hcall.1 hcall.2 hend, pages_iff hal _ hv] at hp
  · exact ⟨hcall.2, hp⟩
  · simp only [pageSize] at *
    omega

/-! ### Every run -/

/-- What is mapped in the course of a run was mapped when it started, or was asked for. -/
theorem ClearRun.mapped (h : VmReach im s₀ roots) (hrun : ClearRun im s₀ brk₀ s brk asked) :
    VmReach im s roots ∧ ∀ v < 2 ^ 48, (walk s.mem s.pml4 v).isSome = true →
      (walk s₀.mem s₀.pml4 v).isSome = true ∨ asked v := by
  induction hrun with
  | start => exact ⟨h, fun v _ hv => Or.inl hv⟩
  | @brk s s' brk brk' addr r asked _ hclear hcall ih =>
    obtain ⟨hreach, hmap⟩ := ih
    refine ⟨hreach.brk hcall, fun v hv hw => ?_⟩
    have hold : (walk s.mem s.pml4 v).isSome = true →
        (walk s₀.mem s₀.pml4 v).isSome = true ∨ asked v ∨ brk ≤ v ∧ v < brk' := fun hs =>
      (hmap v hv hs).imp_right Or.inl
    obtain ⟨hfits, hfree⟩ := hclear
    rcases Nat.lt_or_ge addr userBrkStart with hlow | huser
    · obtain ⟨-, rfl⟩ := sysBrk_low hlow hcall
      exact hold hw
    · obtain ⟨hal, hle, hend⟩ := hfits.resolve_left (not_lt.mpr huser)
      obtain ⟨tag, hf, -⟩ := hreach.sound
      obtain ⟨m, tag', g, rfl, hlast, hend', -⟩ := sysBrk_grants hf hal hle hend hcall
      have hwin : ¬ Pages brk m (pathOf kernelKmapWindow) := by
        intro hp
        obtain ⟨hlo, hhi⟩ := (pages_iff hal hend' (by decide)).mp hp
        obtain ⟨-, -, hne⟩ := hfree kernelKmapWindow ⟨huser, hlo, lt_of_lt_of_le hhi hlast⟩
        exact hne rfl
      rcases Granted.was_mapped g hf hwin hw with hs | hp
      · exact hold hs
      · exact Or.inr (Or.inr ((pages_iff hal hend' hv).mp hp))
  | @mmap s brk addr len prot flags asked _ hclear ih =>
    obtain ⟨hreach, hmap⟩ := ih
    refine ⟨hreach.mmap addr len prot flags, fun v hv hw => ?_⟩
    obtain ⟨hfits, hfree⟩ := hclear
    obtain ⟨tag, hf, -⟩ := hreach.sound
    obtain ⟨tag', g, -⟩ := sysMmap_spec hf addr len prot flags
    have g' := g.mono fun π hπ => hπ.mono (Nat.min_le_left ..)
    have hwin : ¬ Pages (mmapAddr addr) (mmapPages addr len flags) (pathOf kernelKmapWindow) := by
      intro hp
      obtain ⟨-, -, hne⟩ := hfree kernelKmapWindow (mmap_covers hfits (by decide) hp)
      exact hne rfl
    rcases Granted.was_mapped g' hf hwin hw with hs | hp
    · exact (hmap v hv hs).imp_right Or.inl
    · exact Or.inr (Or.inr (mmap_covers hfits hv hp))

/-- In every run of clear requests, memory that a clear request gets is fresh. -/
theorem grants_fresh (h : VmReach im s₀ roots) (hrun : ClearRun im s₀ brk₀ s brk asked)
    (hclear : req.Clear s₀ asked brk) : GrantsFresh im s brk req := by
  obtain ⟨hreach, hmap⟩ := hrun.mapped h
  obtain ⟨tag, hf, -⟩ := hreach.sound
  obtain ⟨hfits, hfree⟩ := hclear
  have hnew : ∀ v < 2 ^ 48, req.Covers brk v → walk s.mem s.pml4 v = none := by
    intro v hv hcov
    obtain ⟨hnone, hasked, -⟩ := hfree v hcov
    by_contra hsome
    rcases hmap v hv (Option.isSome_iff_ne_none.mpr hsome) with hs | hs
    · rw [hnone] at hs
      simp at hs
    · exact hasked hs
  cases req with
  | brk addr =>
    intro brk' s' huser hcall v hlo hhi
    obtain ⟨hal, hle, hend⟩ := hfits.resolve_left (not_lt.mpr huser)
    obtain ⟨m, tag', g, rfl, hlast, hend', hpages⟩ := sysBrk_grants hf hal hle hend hcall
    obtain ⟨j, hj, heq⟩ := (pages_iff hal hend' (by omega)).mpr ⟨hlo, hhi⟩
    refine ⟨?_, hnew v (by omega) ⟨huser, hlo, by omega⟩⟩
    rw [walk_page heq]
    refine hpages (fun k hk => ?_) j hj
    have hin : brk ≤ brk + k * pageSize ∧ brk + k * pageSize < brk + m * pageSize := by
      simp only [pageSize]
      omega
    exact (hfree _ ⟨huser, hin.1, by omega⟩).2.2
  | mmap addr len prot flags =>
    intro a s' hcall v hlo hhi
    obtain ⟨tag', g, hdone⟩ := sysMmap_spec hf addr len prot flags
    rw [hcall] at hdone
    obtain ⟨rfl, hpages⟩ := hdone a rfl
    have hanon : flags.testBit 5 = true := by
      by_contra hno
      rw [sysMmap, if_pos (Or.inr (by simpa using hno))] at hcall
      simp at hcall
    have hal := mmapAddr_aligned addr
    have hfits' : mmapAddr addr + len ≤ 2 ^ 48 := hfits
    have hlen : len ≠ 0 := by omega
    have hcount := mmapPages_eq hlen hanon hfits'
    have hend : mmapAddr addr + mmapPages addr len flags * pageSize ≤ 2 ^ 48 := by
      rw [hcount]
      simp only [pageSize] at *
      omega
    have hin : Pages (mmapAddr addr) (mmapPages addr len flags) (pathOf v) := by
      rw [pages_iff hal hend (by omega), hcount]
      simp only [pageSize]
      omega
    refine ⟨?_, hnew v (by omega) (mmap_covers hfits (by omega) hin)⟩
    obtain ⟨j, hj, heq⟩ := hin
    rw [walk_page heq]
    refine hpages (fun k hk => ?_) (pages_injective hend) j hj
    refine (hfree _ (mmap_covers hfits ?_ ⟨k, hk, rfl⟩)).2.2
    simp only [pageSize] at *
    omega

theorem mmapAddr_page (hpos : 0 < addr) (hhi : addr < 2 ^ 30) (hal : addr % pageSize = 0) : mmapAddr addr = addr := by
  rw [mmapAddr, if_pos (by omega), u64_of_lt (by simp only [pageSize]; omega)]
  simp only [pageSize] at *
  omega

/-- A page between 512 MiB and 1 GiB, where `paging_init` left nothing. -/
theorem clear_page (v : Nat) (hlo : 0x20000000 ≤ v) (hhi : v < 2 ^ 30) (hal : v % pageSize = 0)
    (hasked : ∀ u, v ≤ u → u < v + 4096 → ¬ asked u) : (Request.mmap v 4096 3 0x20).Clear mostVm asked brk := by
  have haddr := mmapAddr_page (by omega) hhi hal
  refine ⟨by rw [Request.Fits, haddr]; omega, ?_⟩
  rintro u ⟨-, hlo', hhi'⟩
  rw [haddr] at hlo' hhi'
  have hlt : u < v + 4096 := hhi'
  obtain ⟨pt, he, ht⟩ := early_init smallImage (fun _ _ => 0#64) mostMemory
  simp only [pageSize] at hal
  obtain ⟨-, -, hi⟩ := @low_index u (by omega)
  refine ⟨he.walk_absent (by omega) (by omega) ?_, hasked u hlo' hlt, fun heq => ?_⟩
  · rw [← Option.not_isSome_iff_eq_none, ht, initTables_most]
    omega
  · have hpage := pathOf_inj (by omega) (by decide) heq
    simp only [kernelKmapWindow, pageSize] at hpage
    omega

/-- A request for a page below 1 GiB is met while tables are left. -/
theorem Early.mmap_page {mem : Memory} {mb : MultibootInfo} {n : Nat} {pt : Fin 512 → Option Nat}
    (h : Early im mem mb n pt s) (v : Nat) (hn : n + 2 < spareTables im mb) (hlo : 0x20000000 ≤ v)
    (hhi : v < 2 ^ 30) (hal : v % pageSize = 0) :
    ∃ m pt' s', sysMmap im s v 4096 3 0x20 = (.ok v, s') ∧ m ≤ n + 3 ∧ Early im mem mb m pt' s' := by
  obtain ⟨m, pt', s', hcall, hm, h'⟩ := h.grants hn hhi hal (by
    rw [(low_index hhi).2.2]
    omega) (mmapFlags 3)
  have hpages : userRangePages v 4096 = 1 := by
    rw [userRangePages, pageOf, u64_of_lt (by simp only [pageSize]; omega)]
    simp only [pageSize] at *
    omega
  have hpage : pageOf v = v := by
    simp only [pageOf, pageSize] at *
    omega
  refine ⟨m, pt', s', ?_, hm, h'⟩
  rw [sysMmap, if_neg (by decide), mmapAddr_page (by omega) hhi hal, pagingMapUserRange, hpages, hpage, hcall]

/-- The third of three pages that are asked for one after the other, right behind the first. -/
theorem grants_fresh_third : ∃ s₂ s₃, ClearRun smallImage mostVm userBrkStart s₂ userBrkStart
      (fun v => (False ∨ (Request.mmap 0x20000000 4096 3 0x20).Covers userBrkStart v) ∨
        (Request.mmap 0x21000000 4096 3 0x20).Covers userBrkStart v) ∧
    sysMmap smallImage s₂ 0x20001000 4096 3 0x20 = (.ok 0x20001000, s₃) ∧
    ∀ v, 0x20001000 ≤ v → v < 0x20001000 + 4096 →
      (walk s₃.mem s₃.pml4 v).isSome = true ∧ walk s₂.mem s₂.pml4 v = none := by
  obtain ⟨pt, he, -⟩ := early_init smallImage (fun _ _ => 0#64) mostMemory
  have hmany := spareTables_most
  rw [initTables_most] at he
  obtain ⟨n₁, pt₁, s₁, hcall₁, hn₁, he₁⟩ := Early.mmap_page he 0x20000000 (by omega) (by decide) (by decide)
    (by decide)
  obtain ⟨n₂, pt₂, s₂, hcall₂, hn₂, he₂⟩ := Early.mmap_page he₁ 0x21000000 (by omega) (by decide) (by decide)
    (by decide)
  obtain ⟨n₃, pt₃, s₃, hcall₃, -, -⟩ := Early.mmap_page he₂ 0x20001000 (by omega) (by decide) (by decide)
    (by decide)
  have haddr₁ : mmapAddr 0x20000000 = 0x20000000 := by decide
  have haddr₂ : mmapAddr 0x21000000 = 0x21000000 := by decide
  -- no page is asked for twice
  have hrun₁ := ClearRun.mmap (.start : ClearRun smallImage mostVm userBrkStart mostVm userBrkStart _)
    (clear_page 0x20000000 (by decide) (by decide) (by decide) fun _ _ _ hc => hc)
  rw [hcall₁] at hrun₁
  have hrun₂ := hrun₁.mmap (clear_page 0x21000000 (by decide) (by decide) (by decide) (by
    rintro v hlo hhi (hc | ⟨-, -, hc⟩)
    · exact hc
    · rw [haddr₁] at hc
      simp only [pageSize] at *
      omega))
  rw [hcall₂] at hrun₂
  refine ⟨s₂, s₃, hrun₂, hcall₃, grants_fresh (TableReach.init _ _) hrun₂
    (clear_page 0x20001000 (by decide) (by decide) (by decide) ?_) _ _ hcall₃⟩
  rintro v hlo hhi ((hc | ⟨-, -, hc⟩) | ⟨-, hc, -⟩)
  · exact hc
  · rw [haddr₁] at hc
    simp only [pageSize] at *
    omega
  · rw [haddr₂] at hc
    omega

/-- Asked twice for one place, `sys_mmap` hands out the same page twice. -/
theorem not_fresh : ¬ GrantsFresh smallImage (sysMmap smallImage mostVm 0x1000000 4096 3 0x20).2
    userBrkStart (.mmap 0x1000000 4096 3 0x20) := by
  intro h
  obtain ⟨s₁, s₂, k₁, k₂, hcall₁, hcall₂, -⟩ := sysMmap_twice
  obtain ⟨tag, hf, -⟩ := @VmReach.sound smallImage mostVm [smallImage.pmlTable]
    (TableReach.init (fun _ _ => 0#64) mostMemory)
  obtain ⟨-, -, hdone⟩ := @sysMmap_spec smallImage mostVm tag hf 0x1000000 4096 3 0x20
  rw [hcall₁] at h hdone
  obtain ⟨-, hpages⟩ := hdone 0x1000000 rfl
  rw [hint_pages.1, hint_pages.2] at hpages
  have hmapped := hpages (by decide) (by omega) 0 Nat.one_pos
  obtain ⟨-, hnone⟩ := h 0x1000000 s₂ hcall₂ 0x1000000 le_rfl (by decide)
  rw [Nat.zero_mul, Nat.add_zero, hnone] at hmapped
  simp at hmapped

end TypeOS.Sys
