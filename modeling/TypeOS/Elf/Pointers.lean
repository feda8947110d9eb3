import TypeOS.Elf.Isolation
import TypeOS.Sys.Getcwd

/-! Whether a pointer that `user_ptr_ok` accepts is the user's.

    The check looks at the numbers alone: it accepts whatever lies from 4 MiB up to 32 GiB, and so the
    kernel's heap and most of the identity map. No run of the kernel makes all of that the user's: a page
    gets a frame of its own, or the frame at its own address if it belongs to a fixed image, and the bitmap
    has 2 GiB of them. So in every reachable state, some pointer that is accepted leads off the user's pages. -/

namespace TypeOS.Elf

open Paging Sys FirstFit
open Finset (range Ico)

/-- Each byte of a range that `user_ptr_ok` accepts is on a page that the user reaches. -/
def PointersUsers (s : Vm) (r : Nat) : Prop :=
  ∀ uaddr len, userPtrOk uaddr len = true → ∀ v, uaddr ≤ v → v < uaddr + len →
    ∃ e, walk s.mem r v = some (e, true)

variable {im : Image} {s : Vm} {tag : Nat → Option Path} {roots : List Nat} {kernel : Set Nat}
  {r v v' : Nat} {e e' : Word}

/-! ### How many pages are the user's -/

/-- Two pages of one address space have one frame only if they are the same page. -/
theorem UserSound.page_unique (h : UserSound im s roots kernel tag) (hr : r ∈ roots)
    (he : UserEntry s r v e) (he' : UserEntry s r v' e') (hf : entryFrame e = entryFrame e') :
    pathOf v = pathOf v' := by
  by_cases himg : ImageFrame (entryFrame e)
  · have hown := (h.places r hr v e he).2 himg
    have hown' := (h.places r hr v' e' he').2 (hf ▸ himg)
    rw [hown, hown', hf]
  · exact (h.once r hr v e he r hr v' e' he' hf himg).1

/-- The pages behind the temporary window that `user_ptr_ok` accepts are more than there are frames. -/
abbrev acceptedPages : Finset Nat := Ico 0x6000 0x7fffff

theorem accepted_many : (range maxFrames).card < acceptedPages.card := by
  rw [Finset.card_range, Nat.card_Ico]
  decide

theorem accepted_page {p : Nat} (hp : p ∈ acceptedPages) :
    userPtrOk (p * pageSize) 1 = true ∧ p * pageSize < 2 ^ 48 ∧ ¬ Window (pathOf (p * pageSize)) := by
  obtain ⟨hlo, hhi⟩ := Finset.mem_Ico.mp hp
  have hlt : p * pageSize < 2 ^ 48 := by
    simp only [pageSize]
    omega
  refine ⟨?_, hlt, ?_⟩
  · rw [userPtrOk_iff]
    simp only [userAddrMin, userAddrMax, pageSize]
    omega
  · rintro (hc | hc) <;>
    · have hsame := pathOf_inj hlt (by decide) hc
      simp only [kernelKmapWindow, pageSize] at hsame
      omega

/-- So one of them is not the user's. -/
theorem UserSound.not_users (h : UserSound im s roots kernel tag) (hr : r ∈ roots) :
    ∃ p ∈ acceptedPages, ∀ e, ¬ UserEntry s r (p * pageSize) e := by
  by_contra hall
  push Not at hall
  set frame : Nat → Nat := fun p => ((walk s.mem r (p * pageSize)).map fun w => entryFrame w.1).getD 0
  have hframe : ∀ p e, UserEntry s r (p * pageSize) e → frame p = entryFrame e := by
    intro p e he
    obtain ⟨b, hw⟩ := he.maps
    simp only [frame, hw, Option.map_some, Option.getD_some]
  have hmaps : ∀ p ∈ acceptedPages, frame p ∈ range maxFrames := by
    intro p hp
    obtain ⟨e, he⟩ := hall p hp
    rw [hframe p e he]
    exact Finset.mem_range.mpr (h.places r hr _ e he).1
  obtain ⟨p, hp, q, hq, hne, hsame⟩ := Finset.exists_ne_map_eq_of_card_lt_of_maps_to accepted_many hmaps
  obtain ⟨e, he⟩ := hall p hp
  obtain ⟨e', he'⟩ := hall q hq
  rw [hframe p e he, hframe q e' he'] at hsame
  have hpage := pathOf_inj (accepted_page hp).2.1 (accepted_page hq).2.1 (h.page_unique hr he he' hsame)
  rw [frame_div, frame_div] at hpage
  exact hne hpage

/-! ### Every state -/

/-- In every reachable state and every address space, the current one among them, `user_ptr_ok` accepts a
    pointer to a byte that is on no page of the user's. -/
theorem pointers_not_users (him : im.kernelEnd ≤ userImagePhysStart) (h : UserReach im s roots kernel) :
    s.pml4 ∈ roots ∧ ∀ r ∈ roots, ¬ PointersUsers s r := by
  obtain ⟨tag, hs⟩ := h.sound him
  refine ⟨hs.root, fun r hr hall => ?_⟩
  obtain ⟨p, hp, hno⟩ := hs.not_users hr
  obtain ⟨hok, -, hout⟩ := accepted_page hp
  obtain ⟨e, hw⟩ := hall _ 1 hok (p * pageSize) le_rfl (Nat.lt_succ_self _)
  exact hno e (userEntry_of_walk hs.forest (hs.spaces r hr) hout hw)

/-- A program that was loaded has its page, and still not all that is accepted. -/
theorem pointers_not_users_loaded : ∃ s e, UserReach smallImage s [smallImage.pmlTable] ∅ ∧
    walk s.mem s.pml4 0x400000 = some (e, true) ∧ ¬ PointersUsers s s.pml4 := by
  obtain ⟨s, e, hreach, hroot, hw⟩ := loaded_page
  rw [← hroot] at hw
  exact ⟨s, e, hreach, hw, (pointers_not_users (by decide) hreach).2 _ (hroot ▸ List.mem_singleton_self _)⟩

/-! ### The kernel's heap -/

/-- The first page of the kernel's heap, with the frame that was taken for it. -/
theorem heap_page : ∃ s kernel e, UserReach smallImage s [smallImage.pmlTable] kernel ∧
    walk s.mem s.pml4 kernelHeapStart = some (e, false) ∧ has e pageWritable = true := by
  obtain ⟨pt, he, ht⟩ := early_init smallImage (fun _ _ => 0#64) mostMemory
  have hmany := spareTables_most
  rw [initTables_most] at he ht
  obtain ⟨h0, h1, h2⟩ := @low_index kernelHeapStart (by decide)
  have hno : pt (pdIndex kernelHeapStart) = none := by
    rw [← Option.not_isSome_iff_eq_none, ht, h2]
    decide
  rcases he.allocPage with ⟨k, halloc, hk, -, he₁⟩ | ⟨-, hgone⟩
  · rcases he₁.mapPage_absent (pagePresent ||| pageWritable) (by decide) (Nat.mul_mod_left k pageSize) h0 h1
      (by rw [h2]; decide) hno tableFlags_kernel with ⟨t, s', hmap, -, -, -, he₂, hentry⟩ | ⟨-, -, -, hfew⟩
    · have hreach := ((TableReach.init (fun _ _ => 0#64) mostMemory :
        UserReach smallImage mostVm _ _).step .allocPage).map kernelHeapStart (k * pageSize) _ rfl
      rw [halloc, pagingMapPage, hmap] at hreach
      have hflag : ∀ i < 12, (s'.mem t (ptIndex kernelHeapStart)).getLsbD i =
          (pagePresent ||| pageWritable).getLsbD i := by
        intro i hi
        rw [hentry, BitVec.getLsbD_or, BitVec.getLsbD_and, pteAddrMask_getLsbD (by omega), Bool.and_false,
          Bool.false_or]
      have hwalk := walk_ptOf (he₂.ptOf (v := kernelHeapStart) (by decide) (Function.update_self ..))
      rw [has_present, has_user, hflag 0 (by decide), hflag 2 (by decide), if_pos (by decide),
        show (pagePresent ||| pageWritable).getLsbD 2 = false from by decide, Bool.and_false] at hwalk
      refine ⟨s', _, _, hreach, hwalk, ?_⟩
      rw [has_writable, hflag 1 (by decide)]
      decide
    · omega
  · obtain ⟨f, -, hfree, hrank⟩ := exists_rank (show 30 < spareRank smallImage mostMemory tableLimit by
      rw [spareTables] at hmany; omega)
    have := hgone f (spare_eq_true.mp hfree)
    rw [spareRank, hrank] at this
    exact absurd this (lt_irrefl 30)

/-- `getcwd` with a buffer there: the path goes over the heap's first block. -/
theorem getcwd_on_heap : ∃ s kernel e mem', UserReach smallImage s [smallImage.pmlTable] kernel ∧
    walk s.mem s.pml4 kernelHeapStart = some (e, false) ∧ has e pageWritable = true ∧
    sysGetcwd (fun _ => 0) kernelHeapStart 256 nestedSystem = (3, mem') ∧
    mem' kernelHeapStart = 47 ∧ ¬ PointersUsers s s.pml4 := by
  obtain ⟨s, kernel, e, hreach, hw, hwr⟩ := heap_page
  refine ⟨s, kernel, e, (sysGetcwd (fun _ => 0) kernelHeapStart 256 nestedSystem).2, hreach, hw, hwr,
    Prod.ext ?_ rfl, ?_, fun hall => ?_⟩
  · rw [sysGetcwd, nestedSystem_cwd]
    decide
  · rw [sysGetcwd, nestedSystem_cwd]
    decide
  · obtain ⟨e', hw'⟩ := hall kernelHeapStart 3 (by decide) kernelHeapStart le_rfl (by decide)
    rw [hw] at hw'
    cases hw'

end TypeOS.Elf
