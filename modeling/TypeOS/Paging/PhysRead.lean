import TypeOS.Fs.Cpio
import TypeOS.Paging.PhysCopy

/-! What an unpacker reads is what is in physical memory.

    `cpio_populate_vfs_phys` copies headers, names and data out of an archive. A copy returns 0, leaves the
    bytes of the archive as they were, and leaves them in a state from which they can be copied again. So a
    run of copies finds what the bytes at its start say, and that is how `Fs.pagingCopyFromPhys` has it. -/

namespace TypeOS.Paging
open Radix Bytes

variable {im : Image} {s s₁ : Vm} {tag : Nat → Option Path} {f phys len off limit dst base size a n : Nat}
  {dest : Bytes.Memory}

/-! ### A copy succeeds -/

/-- Below the limit a copy only reads. -/
theorem copyFromPhys_below (hlim : phys + len ≤ limit) :
    ∃ dest' d, copyFromPhys im limit s dest dst phys len = (true, dest', { s with direct := d }) := by
  induction hn : len using Nat.strong_induction_on generalizing s phys dest dst len with
  | _ n ih =>
    subst hn
    rw [copyFromPhys]
    split
    · exact ⟨dest, s.direct, rfl⟩
    next h0 =>
    obtain ⟨hphys, -, hk, -⟩ := chunk_fits phys len (by omega)
    have hpage : pageOf phys + phys % pageSize = phys := hphys.symm
    dsimp only
    rw [if_pos (by omega)]
    exact ih _ (by omega) (by omega) rfl

/-- Where the window can be used, a copy succeeds, and the window can be used again. -/
theorem copyFromPhys_opens (h : Forest s tag) (hw : walk s.mem s.pml4 kernelKmapWindow = none)
    (hown : OwnedRange s tag phys len) (hd : WindowDir s s.pml4) (ho : WindowOpens im s) :
    ∃ dest' s', copyFromPhys im limit s dest dst phys len = (true, dest', s') ∧
      WindowDir s' s'.pml4 ∧ WindowOpens im s' := by
  induction hn : len using Nat.strong_induction_on generalizing s tag phys dest dst len with
  | _ n ih =>
    subst hn
    rw [copyFromPhys]
    split
    · exact ⟨dest, s, rfl, hd, ho⟩
    next h0 =>
    obtain ⟨hphys, hoff, hk, -⟩ := chunk_fits phys len (by omega)
    obtain ⟨hlt, hf, hb⟩ := hown phys (Nat.le_refl _) (by omega)
    dsimp only
    split
    · -- the page is read where it is mapped to itself, and the tables are the same
      have g : Rewritten phys [] s tag (touch s (pageOf phys + phys % pageSize)) tag :=
        .of_same _ h ⟨rfl, rfl, rfl, rfl⟩
      have ho' : WindowOpens im (touch s (pageOf phys + phys % pageSize)) := by
        rw [WindowOpens, pagingAllocTable_touch]
        exact ho
      exact ih _ (by omega) g.forest (g.window h hw) (hown.next g (by omega)) hd ho' rfl
    · have hflt : phys / pageSize < 2 ^ 40 := by
        simp only [pageSize]
        omega
      obtain ⟨s₁, hm⟩ := window_room h (phys / pageSize) hd ho
      obtain ⟨⟨tag₁, g⟩, hkeep⟩ := read_turn (phys % pageSize) h hw hf hb hflt hoff.le hm
      obtain ⟨hd₁, ho₁⟩ := hkeep hd
      rw [← hphys] at g
      rw [pageOf, hm]
      exact ih _ (by omega) g.forest (g.window h hw) (hown.next g (by omega)) hd₁ ho₁ rfl

/-! ### Many copies -/

/-- An archive in frames that are in use and are no tables: below the limit its addresses translate to
    themselves, and where it goes beyond that the window can be used. -/
structure Readable (im : Image) (s : Vm) (tag : Nat → Option Path) (base size : Nat) : Prop where
  forest : Forest s tag
  window : walk s.mem s.pml4 kernelKmapWindow = none
  owned : OwnedRange s tag base size
  direct : ∀ a, base ≤ a → a < base + size → a < identityMapLimit → pagingVirtToPhys s a = a
  room : base + size ≤ identityMapLimit ∨ WindowDir s s.pml4 ∧ WindowOpens im s

/-- A copy of a part of the archive gets its bytes, and leaves the archive to be read again. -/
theorem Readable.copy (h : Readable im s tag base size) (hlo : base ≤ a) (hhi : a + n ≤ base + size)
    (dest : Bytes.Memory) (dst : Nat) : ∃ s' tag',
      pagingCopyFromPhys im s dest dst a n = (true, store dest dst (load (physByte s) a n), s') ∧
      Readable im s' tag' base size ∧ ∀ x, base ≤ x → x < base + size → physByte s' x = physByte s x := by
  have hown : OwnedRange s tag a n := fun x hx hx' => h.owned x (by omega) (by omega)
  obtain ⟨dest', s', hc, hroom⟩ : ∃ dest' s', pagingCopyFromPhys im s dest dst a n = (true, dest', s') ∧
      (base + size ≤ identityMapLimit ∨ WindowDir s' s'.pml4 ∧ WindowOpens im s') := by
    rcases h.room with hlim | ⟨hd, ho⟩
    · obtain ⟨dest', d, hc⟩ := @copyFromPhys_below im s a n identityMapLimit dst dest (by omega)
      exact ⟨dest', _, hc, Or.inl hlim⟩
    · obtain ⟨dest', s', hc, hkeep⟩ := @copyFromPhys_opens im s tag a n identityMapLimit dst dest h.forest h.window
        hown hd ho
      exact ⟨dest', s', hc, Or.inr hkeep⟩
  obtain ⟨rfl, tag', g⟩ := copyFromPhys_rewritten h.forest h.window (by decide) hown
    (fun x hx hx' => h.direct x (by omega) (by omega)) hc
  refine ⟨s', tag', hc, ⟨g.forest, g.window h.forest h.window, ?_, fun x hx hx' hlim => ?_, hroom⟩,
    fun x hx hx' => ?_⟩
  · intro x hx hx'
    obtain ⟨hlt, ht, hb⟩ := h.owned x hx hx'
    exact ⟨hlt, g.untagged _ ht hb, g.bits _ hb⟩
  · rw [g.virtToPhys h.forest]
    exact h.direct x hx hx' hlim
  · obtain ⟨-, ht, hb⟩ := h.owned x hx hx'
    rw [g.owned ht hb, store_nil]

/-- A call of `paging_copy_from_phys`: the memory that the buffer is in, the buffer, and the range. -/
structure Copy where
  dest : Bytes.Memory
  dst : Nat
  src : Nat
  len : Nat

/-- Copies one after the other: what each that returns 0 leaves in its buffer. -/
def copyEach (im : Image) : Vm → List Copy → List (Option (List UInt8))
  | _, [] => []
  | s, c :: cs =>
    match pagingCopyFromPhys im s c.dest c.dst c.src c.len with
    | (ok, dest, s) => (if ok then some (load dest c.dst c.len) else none) :: copyEach im s cs

/-- The archive as the unpacker sees it. -/
def archivePhys (s : Vm) (base size : Nat) : Fs.Phys :=
  ⟨physByte s, fun a n => decide (base ≤ a ∧ a + n ≤ base + size)⟩

theorem archivePhys_copies (s : Vm) (base size : Nat) : (archivePhys s base size).Copies base size :=
  fun _ _ hlo hhi => decide_eq_true ⟨hlo, hhi⟩

/-- A run of copies from the archive gets what the unpacker is given. -/
theorem Readable.copyEach (h : Readable im s tag base size) {cs : List Copy}
    (hcs : ∀ c ∈ cs, base ≤ c.src ∧ c.src + c.len ≤ base + size) : copyEach im s cs =
      cs.map fun c => Fs.pagingCopyFromPhys (archivePhys s base size) c.src c.len := by
  induction cs generalizing s tag with
  | nil => rfl
  | cons c cs ih =>
    obtain ⟨hlo, hhi⟩ := hcs c (List.mem_cons_self ..)
    obtain ⟨s', tag', hc, h', hsame⟩ := h.copy hlo hhi c.dest c.dst
    have hrest := ih h' fun c' hc' => hcs c' (List.mem_cons_of_mem _ hc')
    have hbytes := load_store c.dest c.dst (load (physByte s) c.src c.len)
    rw [length_load] at hbytes
    rw [Paging.copyEach, hc, List.map_cons]
    dsimp only
    rw [if_pos rfl, hbytes, hrest]
    refine congr (congrArg _ ?_) (List.map_congr_left fun c' hc' => ?_)
    · rw [Fs.pagingCopyFromPhys, archivePhys_copies s base size _ _ hlo hhi, if_pos rfl]
      rfl
    · obtain ⟨hlo', hhi'⟩ := hcs c' (List.mem_cons_of_mem _ hc')
      rw [Fs.pagingCopyFromPhys, archivePhys_copies s' base size _ _ hlo' hhi', Fs.pagingCopyFromPhys,
        archivePhys_copies s base size _ _ hlo' hhi', if_pos rfl, if_pos rfl]
      exact congrArg some (load_congr fun i hi => hsame _ (by omega) (by omega))

/-- What lies in the first MiB can be read right after the boot code. -/
theorem bootVm_readable (hhi : base + size ≤ 0x100000) :
    Readable smallImage bootVm (bootTag smallImage) base size where
  forest := forest_initFrames smallImage (fun _ _ => 0#64) mostMemory
  window := bootVm_window
  owned := bootVm_low hhi
  direct := fun a _ ha _ => initFrames_direct _ _ _ (by simp only [identity4kStart]; omega)
  room := Or.inl (by simp only [identityMapLimit]; omega)

end TypeOS.Paging
