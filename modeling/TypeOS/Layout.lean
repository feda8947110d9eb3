import Mathlib.Tactic

/-! The constants of the headers: page size, the fixed address ranges and the table sizes.

    Addresses and sizes are naturals here; a computation that the source makes in `uint64_t` or
    `size_t` wraps through `u64`. -/

namespace TypeOS

/-- The value a 64 bit unsigned computation leaves. -/
def u64 (x : Nat) : Nat := x % 2 ^ 64

theorem u64_of_lt {x : Nat} (h : x < 2 ^ 64) : u64 x = x := Nat.mod_eq_of_lt h

/-- The difference that a 64 bit unsigned subtraction leaves. -/
def u64Sub (a b : Nat) : Nat := u64 (a + 2 ^ 64 - b)

theorem u64Sub_of_le {a b : Nat} (h : b ≤ a) (ha : a < 2 ^ 64) : u64Sub a b = a - b := by
  rw [u64Sub, u64]
  omega

/-- `PAGE_SIZE`. -/
abbrev pageSize : Nat := 4096

theorem pageSize_pos : 0 < pageSize := by decide

/-- The frame at a frame's address. -/
theorem frame_div (f : Nat) : f * pageSize / pageSize = f := Nat.mul_div_cancel f pageSize_pos

/-- `IDENTITY_MAP_LIMIT`: below it physical memory is taken to be directly accessible. -/
abbrev identityMapLimit : Nat := 0x10000000

/-- `USER_IMAGE_PHYS_START`. -/
abbrev userImagePhysStart : Nat := 0x00400000

/-- `USER_IMAGE_PHYS_END`. -/
abbrev userImagePhysEnd : Nat := 0x00800000

/-- `IDENTITY_4K_START`. -/
abbrev identity4kStart : Nat := 0x00400000

/-- `IDENTITY_4K_END`. -/
abbrev identity4kEnd : Nat := 0x04000000

/-- `KERNEL_HEAP_START`. -/
abbrev kernelHeapStart : Nat := 0x10000000

/-- `KERNEL_HEAP_LIMIT`. -/
abbrev kernelHeapLimit : Nat := 0x50000000

/-- `MAX_PHYS_MEM`. -/
abbrev maxPhysMem : Nat := 0x80000000

/-- `MAX_FRAMES`. -/
abbrev maxFrames : Nat := maxPhysMem / pageSize

/-- `KERNEL_KMAP_WINDOW`. -/
abbrev kernelKmapWindow : Nat := 0x05000000

/-- `USER_STACK_TOP`. -/
abbrev userStackTop : Nat := 0x7FF00000

/-- `USER_STACK_SIZE`. -/
abbrev userStackSize : Nat := 128 * 1024

/-- `USER_BRK_START`. -/
abbrev userBrkStart : Nat := 0x80000000

/-- `USER_ADDR_MIN`. -/
abbrev userAddrMin : Nat := 0x400000

/-- `USER_ADDR_MAX`. -/
abbrev userAddrMax : Nat := 0x7FFFFFFFF

/-- `PROC_MAX_FD`. -/
abbrev procMaxFd : Nat := 32

/-- `PROC_MAX_PIPE`. -/
abbrev procMaxPipe : Nat := 8

/-- `PROC_MAX_TASKS`. -/
abbrev procMaxTasks : Nat := 16

/-- `TASK_KERNEL_STACK_SIZE`. -/
abbrev taskKernelStackSize : Nat := 64 * 1024

end TypeOS
