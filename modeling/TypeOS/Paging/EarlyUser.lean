import TypeOS.Paging.Early
import TypeOS.Paging.User

/-! Pages granted while all frames taken so far are the lowest spare ones.

    A page takes a frame for itself, and clearing it one for the window's table, the first time. So
    which frames the first requests after boot get can be told. -/

namespace TypeOS.Paging
open FirstFit Radix

variable {im : Image} {mem : Memory} {mb : MultibootInfo} {s s' : Vm} {n m k t v : Nat}
  {pt : Fin 512 → Option Nat} {flags : Word}

/-- Once the frame is in the window, it is cleared and the window unmapped. -/
theorem Early.clear (h : Early im mem mb n pt s) (hk : Spare im mb k)
    (hrank : spareRank im mb k < n) (ht : pt (pdIndex kernelKmapWindow) = some t)
    (hentry : s.mem t (ptIndex kernelKmapWindow) =
      (BitVec.ofNat 64 (k * pageSize) &&& pteAddrMask) ||| (pagePresent ||| pageWritable)) :
    Early im mem mb n pt
      (pagingUnmapPage (clearThrough s kernelKmapWindow) kernelKmapWindow) := by
  obtain ⟨hpr, hframe⟩ := @pageEntry_spec k (pagePresent ||| pageWritable) hk.lt (by decide)
    (by decide)
  rw [← hentry] at hpr hframe
  have hphys : pagingVirtToPhys s kernelKmapWindow / pageSize = k := by
    rw [h.virtToPhys (by decide) ht hpr, hframe, Nat.add_div_of_dvd_right ⟨k, Nat.mul_comm ..⟩,
      frame_div _]
    rfl
  rw [clearThrough, hphys]
  exact ((h.fill hk hrank).unmap (by decide) ht).1

/-- Clearing a frame through the window takes one table at most. -/
theorem Early.zeroFrame (h : Early im mem mb n pt s) (hk : Spare im mb k)
    (hrank : spareRank im mb k < n) : ∃ m pt', n ≤ m ∧ m ≤ n + 1 ∧
      (∀ i t, pt i = some t → pt' i = some t) ∧
      Early im mem mb m pt' (pagingZeroFrame im s (k * pageSize)) := by
  obtain ⟨h0, h1, hi⟩ := @low_index kernelKmapWindow (by decide)
  have hphys : k * pageSize % pageSize = 0 := Nat.mul_mod_left ..
  rw [pagingZeroFrame, pagingMapPage]
  rcases ht : pt (pdIndex kernelKmapWindow) with _ | t
  · rcases h.mapPage_absent (pagePresent ||| pageWritable) (by decide) hphys h0 h1
      (by rw [hi]; decide) ht tableFlags_kernel with
      ⟨k', s', hmap, -, -, -, h', hentry⟩ | ⟨s', hmap, h', -⟩
    · simp only [hmap]
      refine ⟨n + 1, _, Nat.le_succ n, le_rfl, fun i t hit => ?_,
        h'.clear hk (by omega) (Function.update_self ..) hentry⟩
      rw [Function.update_of_ne]
      · exact hit
      · rintro rfl
        rw [ht] at hit
        simp at hit
    · simp only [hmap]
      exact ⟨n, pt, le_rfl, Nat.le_succ n, fun _ _ hit => hit, h'⟩
  · obtain ⟨s', hmap, h', hmem⟩ := h.mapPage_present (pagePresent ||| pageWritable)
      (pagePresent ||| pageWritable) (by decide) hphys h0 h1 ht
    simp only [hmap]
    refine ⟨n, pt, le_rfl, Nat.le_succ n, fun _ _ hit => hit, h'.clear hk hrank ht ?_⟩
    rw [hmem, writeEntry_self]

/-- The page table of an address below 1 GiB. -/
theorem Early.ptOf (h : Early im mem mb n pt s) (hv : v < 2 ^ 30) (ht : pt (pdIndex v) = some t) :
    Paging.ptOf s.mem s.pml4 v = some t := by
  obtain ⟨h0, h1, -⟩ := low_index hv
  rw [Paging.ptOf, tablePath, h0, h1, h.pml4, descend, h.root_next, Option.bind_some, descend, h.dir,
    Option.bind_some, descend, (h.table _ t ht).1]
  rfl

/-- One page of a user range below 1 GiB, whose table is there: it is mapped to the lowest spare
    frame that is left. -/
theorem Early.grant (h : Early im mem mb n pt s) (hn : n < spareTables im mb) (hv : v < 2 ^ 30)
    (hal : v % pageSize = 0) (ht : pt (pdIndex v) = some t) (flags : Word) :
    ∃ k m pt' s', mapUserLoop im flags 1 v s = (true, s') ∧ Spare im mb k ∧
      spareRank im mb k = n ∧ n < m ∧ m ≤ n + 2 ∧ (∀ i t, pt i = some t → pt' i = some t) ∧
      Early im mem mb m pt' s' ∧ s'.mem t (ptIndex v) =
        (BitVec.ofNat 64 (k * pageSize) &&& pteAddrMask) ||| (flags ||| pageUser) := by
  obtain ⟨h0, h1, -⟩ := low_index hv
  rcases h.allocPage with ⟨k, halloc, hk, hrank, h'⟩ | ⟨-, hgone⟩
  · obtain ⟨m, pt', hlo, hhi, hkeep, hzero⟩ := h'.zeroFrame hk (by omega)
    obtain ⟨s', hmap, hmapped, hmem⟩ := hzero.mapPage_present (flags ||| pageUser)
      (pagePresent ||| pageWritable ||| pageUser) hal (Nat.mul_mod_left k pageSize) h0 h1
      (hkeep _ _ ht)
    refine ⟨k, m, pt', s', ?_, hk, hrank, by omega, by omega, hkeep, hmapped, ?_⟩
    · simp only [mapUserLoop, halloc, pagingMapUserPage, hmap]
    · rw [hmem, writeEntry_self]
  · obtain ⟨f, -, hfree, hrank⟩ := exists_rank hn
    have := hgone f (spare_eq_true.mp hfree)
    rw [spareRank, hrank] at this
    exact absurd this (lt_irrefl n)

/-- One page of a user range below 1 GiB and above the huge pages, whether its table is there or not. -/
theorem Early.grants (h : Early im mem mb n pt s) (hn : n + 2 < spareTables im mb) (hv : v < 2 ^ 30)
    (hal : v % pageSize = 0) (hpd : 2 ≤ (pdIndex v).val) (flags : Word) :
    ∃ m pt' s', mapUserLoop im flags 1 v s = (true, s') ∧ m ≤ n + 3 ∧ Early im mem mb m pt' s' := by
  obtain ⟨h0, h1, -⟩ := low_index hv
  rcases h.allocPage with ⟨k, halloc, hk, hrank, h'⟩ | ⟨-, hgone⟩
  · obtain ⟨m, pt', hlo, hhi, -, hzero⟩ := h'.zeroFrame hk (by omega)
    have hphys : k * pageSize % pageSize = 0 := Nat.mul_mod_left ..
    rcases ht : pt' (pdIndex v) with _ | t
    · rcases hzero.mapPage_absent (flags ||| pageUser) hal hphys h0 h1 hpd ht tableFlags_user with
        ⟨k', s', hmap, -, -, -, hmapped, -⟩ | ⟨-, -, -, hfew⟩
      · refine ⟨m + 1, _, s', ?_, by omega, hmapped⟩
        simp only [mapUserLoop, halloc, pagingMapUserPage]
        rw [show pagePresent ||| pageWritable ||| pageUser = cloneFlags from rfl, hmap]
      · omega
    · obtain ⟨s', hmap, hmapped, -⟩ := hzero.mapPage_present (flags ||| pageUser)
        (pagePresent ||| pageWritable ||| pageUser) hal hphys h0 h1 ht
      refine ⟨m, pt', s', ?_, by omega, hmapped⟩
      simp only [mapUserLoop, halloc, pagingMapUserPage, hmap]
  · obtain ⟨f, -, hfree, hrank⟩ := exists_rank (show n < spareRank im mb tableLimit by
      rw [spareTables] at hn; omega)
    have := hgone f (spare_eq_true.mp hfree)
    rw [spareRank, hrank] at this
    exact absurd this (lt_irrefl n)

/-! ### A machine with enough memory -/

/-- Memory from 1 MiB to 128 MiB. -/
def mostMemory : MultibootInfo := ⟨some [⟨0x100000, 0x7f00000, 1⟩], []⟩

/-- There is no shortage of tables below a small image on it. -/
theorem spareTables_most : 304 ≤ spareTables smallImage mostMemory := by
  have hrank : spareRank smallImage mostMemory 0x340 = 304 := by decide +kernel
  rw [spareTables, ← hrank]
  exact FirstFit.rank_le (by decide)

theorem initTables_most : initTables smallImage mostMemory = 30 := by
  have := spareTables_most
  rw [initTables]
  omega

/-- The tables `paging_init` leaves on it. -/
abbrev mostVm : Vm := pagingInit smallImage (fun _ _ => 0#64) mostMemory

end TypeOS.Paging
