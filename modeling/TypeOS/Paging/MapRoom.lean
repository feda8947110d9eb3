import TypeOS.Paging.CloneRoom
import TypeOS.Paging.Lacking

/-! When pages can be mapped.

    A mapping takes at most three frames for tables. A page that is granted takes a frame, and two mappings:
    its own and the window's. So where seven are left for each page, a range is granted as a whole. -/

namespace TypeOS.Paging
open Radix

variable {im : Image} {s s' : Vm} {tag : Nat → Option Path} {t pd n v f phys : Nat} {i : Fin 512} {p : Path}
  {fl flags : Word}

/-- Which frames are left depends on the bitmap only. -/
theorem tableFrames_congr (hb : s'.frameBitmap = s.frameBitmap) (ht : s'.totalFrames = s.totalFrames) :
    tableFrames im s' = tableFrames im s := by
  ext f
  simp only [mem_tableFrames, tableFrame, bitmapTest, hb, ht]

theorem allocTable_works (hnull : bitmapTest s 0 = true) (h : n + 1 ≤ (tableFrames im s).card) :
    ∃ c s', pagingAllocTable im s = (some c, s') ∧ n ≤ (tableFrames im s').card := by
  obtain ⟨c, s', ha, -, hleft⟩ := (Left.begin h).allocTable hnull
  exact ⟨c, s', ha, hleft.room⟩

/-- A table on the way down is there or made. -/
theorem getOrCreateTable_works (h : Forest s tag) (ht : tag t = some p) (hp : p.length < 2)
    (hr : n + 1 ≤ (tableFrames im s).card) :
    ∃ c s', getOrCreateTable im s t i fl = (some c, s') ∧ n ≤ (tableFrames im s').card := by
  rcases hn : nextTable (s.mem t i) with _ | c
  · have hno := h.absent ht hp hn
    obtain ⟨c, s', ha, hleft⟩ := allocTable_works h.null hr
    refine ⟨c, writeEntry s' t i (frameWord c ||| fl), ?_, hleft⟩
    simp [getOrCreateTable, hno, ha]
  · exact ⟨c, _, getOrCreateTable_next hn (h.used _ _ (h.tagged _ _ _ _ ht (by omega) hn)).1,
      (Nat.le_succ n).trans hr⟩

theorem mapInDir_works (h : Forest s tag) (ht : tag pd = some p) (hp : p.length = 2)
    (hr : n + 1 ≤ (tableFrames im s).card) :
    ∃ s', mapInDir im s pd v phys flags fl = (true, s') ∧ n ≤ (tableFrames im s').card := by
  obtain ⟨c, s₁, ha, hleft⟩ := allocTable_works h.null hr
  obtain ⟨s', hmap, ⟨hb, htotal⟩ | ⟨hb, htotal⟩⟩ := mapInDir_takes h ht hp ha
  · refine ⟨s', hmap, ?_⟩
    rw [tableFrames_congr hb htotal]
    omega
  · refine ⟨s', hmap, ?_⟩
    rwa [tableFrames_congr hb htotal]

/-- A page can be mapped where three frames are left. -/
theorem pagingMapPageFlags_works (h : Forest s tag) (hv : v % pageSize = 0) (hp : phys % pageSize = 0)
    (hfl : TableFlags fl) (hr : n + 3 ≤ (tableFrames im s).card) :
    ∃ s', pagingMapPageFlags im s v phys flags fl = (true, s') ∧ n ≤ (tableFrames im s').card := by
  rw [pagingMapPageFlags_eq hv hp]
  obtain ⟨pdpt, s₁, h4, hr₁⟩ := @getOrCreateTable_works im s tag s.pml4 (n + 2) (pml4Index v) [] fl h h.root
    (by simp) hr
  obtain ⟨tag₁, g₁, ht₁, hn₁⟩ := getOrCreateTable_some (tablePath v) h h.root rfl (by simp) ⟨_, rfl⟩ hfl h4
  obtain ⟨pd, s₂, h3, hr₂⟩ := @getOrCreateTable_works im s₁ tag₁ pdpt (n + 1) (pdpIndex v) _ fl g₁.forest ht₁
    (by simp) hr₁
  obtain ⟨tag₂, g₂, ht₂, -⟩ := getOrCreateTable_some (tablePath v) g₁.forest ht₁
    (by rw [g₁.pml4, List.nil_append, descend, hn₁]; rfl) (by simp) ⟨_, rfl⟩ hfl h3
  obtain ⟨s₃, hdir, hr₃⟩ := @mapInDir_works im s₂ tag₂ pd n v phys _ fl flags g₂.forest ht₂ (by simp) hr₂
  refine ⟨s₃, ?_, hr₃⟩
  rw [h4]
  dsimp only
  rw [mapInPdpt, h3]
  exact hdir

/-- Clearing a frame takes what mapping the window takes. -/
theorem clearPhys_room (h : Forest s tag) (hr : n + 3 ≤ (tableFrames im s).card) :
    n ≤ (tableFrames im (pagingClearPhys im s (f * pageSize)).2).card := by
  obtain ⟨s', hm, hr'⟩ := @pagingMapPageFlags_works im s tag n kernelKmapWindow (f * pageSize)
    (pagePresent ||| pageWritable) (pagePresent ||| pageWritable) h (by decide) (Nat.mul_mod_left ..)
    tableFlags_kernel hr
  have hm : pagingMapPage im s kernelKmapWindow (f * pageSize) (pagePresent ||| pageWritable) = (true, s') := hm
  rw [pagingClearPhys, hm]
  have hsame : ∀ s v, (pagingUnmapPage s v).frameBitmap = s.frameBitmap ∧
      (pagingUnmapPage s v).totalFrames = s.totalFrames := by
    intro s v
    unfold pagingUnmapPage
    dsimp only
    split_ifs <;> exact ⟨rfl, rfl⟩
  dsimp only
  rw [tableFrames_congr (hsame ..).1 (hsame ..).2]
  exact hr'

/-- A range is granted where seven frames are left for each of its pages. -/
theorem mapUserLoop_works (fl : Word) (n : Nat) : ∀ {v : Nat} {s : Vm} {tag : Nat → Option Path},
    Forest s tag → v % pageSize = 0 → 7 * n ≤ (tableFrames im s).card →
    ∃ s', mapUserLoop im fl n v s = (true, s') := by
  induction n with
  | zero => exact fun {v s tag} _ _ _ => ⟨s, rfl⟩
  | succ n ih =>
    intro v s tag h hv hr
    obtain ⟨f, s₁, ha, -, -, hleft⟩ := (Left.begin (n := 7 * n + 6 + 1) hr).allocPage h.null
    obtain ⟨g, hg, hlt, hfree, hf, hs₁, hb⟩ := allocPage_fresh h ha
    obtain rfl : f = g := Nat.eq_of_mul_eq_mul_right pageSize_pos hg
    have htake : Mapped (fun _ => True) (fun _ => True) s tag s₁ tag := hs₁ ▸ Mapped.take h f
    have hclear := @clearPhys_room im s₁ tag (7 * n + 3) f htake.forest hleft.room
    rcases hc : pagingClearPhys im s₁ (f * pageSize) with ⟨okc, s₂⟩
    rw [hc] at hclear
    obtain ⟨tag₂, h₂, -⟩ := pagingClearPhys_mapped trivial h htake hfree hf hb hlt hc
    obtain ⟨s₃, hm, hr₃⟩ := @pagingMapPageFlags_works im s₂ tag₂ (7 * n) v (f * pageSize)
      (pagePresent ||| pageWritable ||| pageUser) (fl ||| pageUser) h₂.forest hv (Nat.mul_mod_left ..)
      tableFlags_user hclear
    obtain ⟨tag₃, g₃⟩ := pagingMapUserPage_mapped h₂.forest hm
    obtain ⟨s', hrest⟩ := @ih (v + pageSize) s₃ tag₃ g₃.forest (by rw [Nat.add_mod_right, hv]) hr₃
    refine ⟨s', ?_⟩
    rw [mapUserLoop, ha]
    dsimp only
    rw [pagingZeroFrame_eq, hc, pagingMapUserPage, hm]
    exact hrest

end TypeOS.Paging
