import TypeOS.Paging.Early
import TypeOS.Paging.Exact
import TypeOS.Paging.Frames

/-! Is free memory memory?

    The memory map speaks of bytes, the bitmap of frames. `paging_init` rounds both ends of an
    available region outwards: a frame is freed as a whole when the loop steps on any byte of it,
    and no entry of another type takes a frame back. So what is free is memory exactly where the
    frames at the two ends of each region are made up by other available regions and no other
    entry reaches in. -/

namespace TypeOS.Paging

variable {im : Image} {mem : Memory} {mb : MultibootInfo} {entries : List MmapEntry}
  {e : MmapEntry} {a f : Nat}

/-- The byte lies inside the entry. -/
def MmapEntry.Holds (e : MmapEntry) (a : Nat) : Prop :=
  e.baseAddr ≤ a ∧ a < e.baseAddr + e.length

/-- The bytes of `[start, stop)` lie inside available entries. -/
def Covered (entries : List MmapEntry) (start stop : Nat) : Prop :=
  ∀ a, start ≤ a → a < stop → ∃ e ∈ entries, e.type = 1 ∧ e.Holds a

/-- All bytes of the frame lie inside available entries, and none inside another entry. -/
structure Whole (entries : List MmapEntry) (f : Nat) : Prop where
  inside : Covered entries (f * pageSize) ((f + 1) * pageSize)
  apart : ∀ e ∈ entries, e.type ≠ 1 → ¬ Meets f e.baseAddr (e.baseAddr + e.length)

/-- Where the frame sticks out of the entry it lies inside other available ones, and no entry of
    another type reaches into it. -/
structure MadeUp (entries : List MmapEntry) (e : MmapEntry) (f : Nat) : Prop where
  low : Covered entries (f * pageSize) e.baseAddr
  high : Covered entries (e.baseAddr + e.length) ((f + 1) * pageSize)
  apart : ∀ e' ∈ entries, e'.type ≠ 1 → ¬ Meets f e'.baseAddr (e'.baseAddr + e'.length)

/-- A byte of a frame the loop steps on that lies before the region lies in the region's first
    frame, and one that lies behind it in its last. -/
theorem Stepped.ends (h : Stepped e f) :
    e.baseAddr < (f + 1) * pageSize ∧ f * pageSize < e.baseAddr + e.length := by
  obtain ⟨-, hle, hlt⟩ := h
  have hend : e.regionEnd ≤ e.baseAddr + e.length := by
    simp only [MmapEntry.regionEnd, u64]
    omega
  simp only [pageSize] at *
  omega

/-- For a frame the loop over an entry steps on, only the ends of the entry matter. -/
theorem Stepped.whole_iff (he : e ∈ entries) (h : Stepped e f) :
    Whole entries f ↔ MadeUp entries e f := by
  obtain ⟨hlow, hhigh⟩ := h.ends
  constructor
  · intro hw
    refine ⟨?_, ?_, hw.apart⟩
    · intro a h1 h2
      exact hw.inside a h1 (by omega)
    · intro a h1 h2
      exact hw.inside a (by omega) h2
  · intro hm
    refine ⟨?_, hm.apart⟩
    intro a h1 h2
    rcases Nat.lt_or_ge a e.baseAddr with hlt | hge
    · exact hm.low a h1 hlt
    rcases Nat.lt_or_ge a (e.baseAddr + e.length) with hlt' | hge'
    · exact ⟨e, he, h.1, hge, hlt'⟩
    · exact hm.high a hge' h2

/-- What is free after `paging_init` is memory if and only if each left over frame is made up to a
    whole one around every region the loop entered it from; where no region makes a step, and all
    frames are freed, each of them has to be memory. -/
theorem free_is_memory_iff (im : Image) (mem : Memory) (mb : MultibootInfo) :
    (∀ f, bitmapTest (pagingInit im mem mb) f = false → Whole (mb.mmap.getD []) f) ↔
      ∀ f, LeftOver im mb f →
        (∀ e ∈ mb.mmap.getD [], Stepped e f → MadeUp (mb.mmap.getD []) e f) ∧
        ((∀ e ∈ mb.mmap.getD [], ¬ Steps e) → Whole (mb.mmap.getD []) f) := by
  constructor
  · intro h f hleft
    have hw := h f ((pagingInit_free im mem mb f).mpr hleft)
    exact ⟨fun e he hs => (hs.whole_iff he).mp hw, fun _ => hw⟩
  · intro h f hfree
    have hleft := (pagingInit_free im mem mb f).mp hfree
    obtain ⟨hends, hnone⟩ := h f hleft
    rcases hleft.1.1 with ⟨e, he, hs⟩ | ⟨hno, -⟩
    · exact (hs.whole_iff he).mpr (hends e he hs)
    · exact hnone hno

/-- Two available regions, the second of which starts in the middle of a frame. -/
def unalignedMap : MultibootInfo where
  mmap := some [⟨0x100000, 0x0ff00000, 1⟩, ⟨0x10000800, 0x00fff800, 1⟩]
  modules := []

/-- The frame it starts in is free, and its first half is not memory. -/
theorem free_not_memory :
    (∃ e ∈ unalignedMap.mmap.getD [], e.type = 1 ∧ e.baseAddr < maxPhysMem) ∧
    bitmapTest (pagingInit smallImage (fun _ _ => 0#64) unalignedMap) 0x10000 = false ∧
    ¬ Whole (unalignedMap.mmap.getD []) 0x10000 := by
  refine ⟨⟨_, List.mem_cons_self .., by decide, by decide⟩, ?_, ?_⟩
  · rw [pagingInit_free]
    exact ⟨by decide, by decide⟩
  · intro hw
    obtain ⟨e, he, -, hholds⟩ := hw.inside 0x10000000 (by decide) (by decide)
    have hno : ∀ e ∈ unalignedMap.mmap.getD [], ¬ e.Holds 0x10000000 := by
      simp [unalignedMap, MmapEntry.Holds]
    exact hno e he hholds

end TypeOS.Paging
