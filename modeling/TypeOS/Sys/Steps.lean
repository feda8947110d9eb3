import TypeOS.Sys.Memory
import TypeOS.Paging.Contents

/-! Steps on the page tables.

    After `paging_init` the kernel maps and unmaps pages, takes and gives back frames, and clones and
    switches address spaces, and user programs ask for memory. The results differ in which of it they
    need to keep out and in what else they let in: they have the same step relation with rules of their
    own, and a record of what the kernel holds where they need one. -/

namespace TypeOS.Sys
open Paging Radix

/-- The frame is a table of an address space, or one below the boot directory. -/
def IsTable (im : Image) (s : Vm) (roots : List Nat) (f : Nat) : Prop :=
  (∃ r ∈ roots, ∃ p : Path, p.length ≤ 3 ∧ descend nextTable s.mem r p = some f) ∨
    ∃ p : Path, p.length ≤ 1 ∧ descend nextTable s.mem im.pdTable p = some f

/-- With which flags the kernel maps pages, which frames it gives back, and what else is done to the
    current address space; and a record that starts empty and has the frames that the kernel takes and
    gives back. -/
structure Rules (G : Type) where
  maps : Word → Prop
  frees : Vm → List Nat → G → Nat → Prop
  also : Vm → Vm → Prop
  start : G
  takes : G → Option Nat → G
  gives : G → Nat → G

variable {G : Type}

/-- One step, from a state with the roots of the address spaces that there are. -/
inductive TableStep (im : Image) (R : Rules G) (s : Vm) (roots : List Nat) (g : G) :
    Vm → List Nat → G → Prop
  | map (virt phys : Nat) (flags : Word) (hf : R.maps flags) :
    TableStep im R s roots g (pagingMapPage im s virt phys flags).2 roots g
  | unmap (virt : Nat) : TableStep im R s roots g (pagingUnmapPage s virt) roots g
  | clone (copyUser : Bool) : TableStep im R s roots g (pagingCloneCurrentAddressSpace im s copyUser).2
      ((pagingCloneCurrentAddressSpace im s copyUser).1.toList ++ roots) g
  | switch (cr3 : Nat) (hr : cr3 ∈ roots) : TableStep im R s roots g (pagingSwitchCr3 s cr3) roots g
  | allocPage : TableStep im R s roots g (pagingAllocPage s).2 roots (R.takes g (pagingAllocPage s).1)
  | freePage (frame : Nat) (hf : R.frees s roots g frame) :
    TableStep im R s roots g (pagingFreePage s (frame * pageSize)) roots (R.gives g frame)
  | data (frame : Nat) (words : Fin 512 → Word) (hno : ¬ IsTable im s roots frame) :
    TableStep im R s roots g (writeFrame s frame words) roots g
  | brk {s' : Vm} {brk addr r brk' : Nat} (hcall : sysBrk im s brk addr = some (r, brk', s')) :
    TableStep im R s roots g s' roots g
  | mmap (addr len prot flags : Nat) :
    TableStep im R s roots g (sysMmap im s addr len prot flags).2 roots g
  | also {s' : Vm} (h : R.also s s') : TableStep im R s roots g s' roots g

/-- Any number of steps. -/
inductive TableRun (im : Image) (R : Rules G) (s : Vm) (roots : List Nat) (g : G) :
    Vm → List Nat → G → Prop
  | refl : TableRun im R s roots g s roots g
  | step {s' s'' : Vm} {roots' roots'' : List Nat} {g' g'' : G} (h : TableRun im R s roots g s' roots' g')
    (hs : TableStep im R s' roots' g' s'' roots'' g'') : TableRun im R s roots g s'' roots'' g''

/-- The states that are reached from `paging_init`. -/
inductive TableReach (im : Image) (R : Rules G) : Vm → List Nat → G → Prop
  | init (mem : Paging.Memory) (mb : MultibootInfo) :
    TableReach im R (pagingInit im mem mb) [im.pmlTable] R.start
  | step {s s' : Vm} {roots roots' : List Nat} {g g' : G} (h : TableReach im R s roots g)
    (hs : TableStep im R s roots g s' roots' g') : TableReach im R s' roots' g'

namespace TableReach

variable {im : Image} {R : Rules G} {s s' : Vm} {roots roots' : List Nat} {g g' : G}

/-- What `paging_init` establishes and each step keeps holds in every state. -/
theorem invariant {I : Vm → List Nat → G → Prop}
    (hinit : ∀ mem mb, I (pagingInit im mem mb) [im.pmlTable] R.start)
    (hstep : ∀ {s s' roots roots' g g'}, I s roots g → TableStep im R s roots g s' roots' g' →
      I s' roots' g') (h : TableReach im R s roots g) : I s roots g := by
  induction h with
  | init mem mb => exact hinit mem mb
  | step _ hs ih => exact hstep ih hs

theorem run (h : TableReach im R s roots g) (hrun : TableRun im R s roots g s' roots' g') :
    TableReach im R s' roots' g' := by
  induction hrun with
  | refl => exact h
  | step _ hs ih => exact ih.step hs

theorem map (virt phys : Nat) (flags : Word) (h : TableReach im R s roots g) (hf : R.maps flags) :
    TableReach im R (pagingMapPage im s virt phys flags).2 roots g :=
  h.step (.map virt phys flags hf)

theorem clone (copyUser : Bool) (h : TableReach im R s roots g) :
    TableReach im R (pagingCloneCurrentAddressSpace im s copyUser).2
      ((pagingCloneCurrentAddressSpace im s copyUser).1.toList ++ roots) g :=
  h.step (.clone copyUser)

theorem brk {brk addr r brk' : Nat} (h : TableReach im R s roots g)
    (hcall : sysBrk im s brk addr = some (r, brk', s')) : TableReach im R s' roots g :=
  h.step (.brk hcall)

theorem mmap (addr len prot flags : Nat) (h : TableReach im R s roots g) :
    TableReach im R (sysMmap im s addr len prot flags).2 roots g :=
  h.step (.mmap addr len prot flags)

end TableReach

end TypeOS.Sys
