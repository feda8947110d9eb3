import TypeOS.Entry.Syscall

/-! What a system call leaves in the caller's registers, and the two ways its result takes.

    `syscall_entry` restores the registers from the frame and then calls three more C functions. What
    these leave in the registers that the ABI does not preserve is what user mode gets. -/

namespace TypeOS.Entry

open Proc Amd64

variable {c : CCode} {σ : State}

/-- The registers that a caller may count on, with the address and the flags that the processor has put
    into `rcx` and `r11`. -/
def Preserved (σ : State) (u : User) : Prop :=
  (∀ r : Reg, r ≠ .rax → r ≠ .rcx → r ≠ .r11 → u.regs r = σ.regs r) ∧
    u.rip = σ.regs .rcx ∧ u.rflags = σ.regs .r11

/-- A function leaves these registers as they were at its call, whatever the ABI asks of it. -/
def CCode.Leaves (c : CCode) (f : CFun) (rs : List Reg) : Prop :=
  ∀ τ, ∀ r ∈ rs, (c.scratch f τ).regs r = τ.regs r

/-- The registers that are popped before the last three calls and not restored after them. -/
def argumentRegs : List Reg := [.rdi, .rsi, .rdx, .r8, .r9, .r10]

/-- The functions called where nothing saves a register leave it: one before `r8`, `r9` and `r10` are pushed,
    and three after the pops, of which the last two find `rcx` and the last `r11` loaded for `sysret`. -/
structure Gentle (c : CCode) : Prop where
  save : c.Leaves .procSaveUserContext [.r8, .r9, .r10]
  rip : c.Leaves .schedCurrentUserRip argumentRegs
  rflags : c.Leaves .schedCurrentUserRflags (.rcx :: argumentRegs)
  rsp : c.Leaves .schedCurrentUserRsp (.rcx :: .r11 :: argumentRegs)

/-- The kernel when `syscall_dispatch` is called by a task with these registers. -/
def entered (σ : State) : Kernel :=
  procSaveSyscallFrame (fun i => (frame σ σ).getD i 0) (σ.regs .rcx) (σ.regs .r11)
    (procSaveUserContext (σ.regs .rcx) (σ.regs .rsp) (σ.regs .r11) σ.world)

/-- The system call of a task with these registers. -/
def dispatched (c : CCode) (σ : State) : Word × Kernel :=
  c.dispatch (σ.regs .rax)
    ![σ.regs .rdi, σ.regs .rsi, σ.regs .rdx, σ.regs .r10, σ.regs .r8, σ.regs .r9] (entered σ)

/-- It returns to the task that issued it: the current task is the same, with the context it was saved with. -/
structure ComesBack (c : CCode) (σ : State) : Prop where
  current : (dispatched c σ).2.currentTask = (entered σ).currentTask
  rip : ((dispatched c σ).2.tasks (entered σ).currentTask).userRip =
    ((entered σ).tasks (entered σ).currentTask).userRip
  rsp : ((dispatched c σ).2.tasks (entered σ).currentTask).userRsp =
    ((entered σ).tasks (entered σ).currentTask).userRsp
  rflags : ((dispatched c σ).2.tasks (entered σ).currentTask).userRflags =
    ((entered σ).tasks (entered σ).currentTask).userRflags

theorem entered_context (σ : State) :
    ((entered σ).tasks (entered σ).currentTask).userRip = σ.regs .rcx ∧
      ((entered σ).tasks (entered σ).currentTask).userRsp = σ.regs .rsp ∧
      ((entered σ).tasks (entered σ).currentTask).userRflags = σ.regs .r11 := by
  simp [entered, procSaveSyscallFrame, procSaveUserContext, Kernel.onTask]

/-- What is pushed after the first call is what the registers held at entry, but for `r11`. -/
theorem saveContext_leaves (hc : c.Leaves .procSaveUserContext [.r8, .r9, .r10]) (σ : State) :
    let τ := run (call c) saveContext σ
    τ.regs .r8 = σ.regs .r8 ∧ τ.regs .r9 = σ.regs .r9 ∧ τ.regs .r10 = σ.regs .r10 :=
  ⟨hc _ .r8 (by decide), hc _ .r9 (by decide), hc _ .r10 (by decide)⟩

/-- So `syscall_dispatch` is called in the state that the registers at entry give. -/
theorem toDispatch_entered (hc : c.Leaves .procSaveUserContext [.r8, .r9, .r10]) (σ : State) :
    (run (call c) toDispatch σ).world = entered σ := by
  obtain ⟨h8, h9, h10⟩ := saveContext_leaves hc σ
  obtain ⟨-, hworld, -⟩ := toDispatch_spec c σ
  rw [hworld, entered, procSaveSyscallFrame, procSaveSyscallFrame]
  simp [frame, h8, h9, h10]

/-- The last calls leave what was popped, and load what `sysret` takes. -/
theorem loadRip_leaves (hc : Gentle c) (β : State) :
    let γ := run (call c) loadRip β
    (∀ r ∈ argumentRegs, γ.regs r = β.regs r) ∧
      γ.regs .rcx = (β.world.tasks β.world.currentTask).userRip ∧
      γ.regs .r11 = (β.world.tasks β.world.currentTask).userRflags := by
  intro γ
  refine ⟨fun r hr => ?_, ?_, rfl⟩
  · have hrip := fun τ => hc.rip τ r hr
    have hrflags := fun τ => hc.rflags τ r (List.mem_cons_of_mem _ hr)
    simp only [argumentRegs, List.mem_cons, List.not_mem_nil, or_false] at hr
    rcases hr with rfl | rfl | rfl | rfl | rfl | rfl <;> exact (hrflags _).trans (hrip _)
  · exact hc.rflags _ .rcx (by decide)

/-- A system call preserves the registers of the task that it returns to, if the functions called where
    nothing saves them do. -/
theorem gentle_preserves (hc : Gentle c) (hb : ComesBack c σ) : Preserved σ (userAfter c σ) := by
  obtain ⟨hkept, hlost, -, hrsp, hrip, hrflags, -⟩ := userAfter_spec c σ
  obtain ⟨β, hback, hpopped, -, hworld⟩ := popped_spec c σ
  obtain ⟨hleft, hrcx, hr11⟩ := loadRip_leaves hc β
  rw [← hback] at hleft hrcx hr11
  obtain ⟨-, hdispatch⟩ := afterDispatch_spec c σ
  rw [toDispatch_entered hc.save] at hdispatch
  change (afterDispatch c σ).world = (dispatched c σ).2 at hdispatch
  obtain ⟨hctx, hctx', hctx''⟩ := entered_context σ
  obtain ⟨h8, h9, h10⟩ := saveContext_leaves hc.save σ
  simp only [frame, frameRegs, List.map_cons, List.map_nil, List.tail_cons, List.cons.injEq, and_true,
    h8, h9, h10] at hpopped
  obtain ⟨-, hrdi, hrsi, hrdx, -, -, hr8, hr9, hr10, -⟩ := hpopped
  -- the context that the last functions read is the one that was saved
  have hsaved : (β.world.tasks β.world.currentTask).userRip = σ.regs .rcx ∧
      (β.world.tasks β.world.currentTask).userRflags = σ.regs .r11 := by
    rw [hworld, hdispatch]
    constructor
    · rw [← hctx, ← hb.rip, ← hb.current]
      simp [schedAfterSyscall, Kernel.onTask]
    · rw [← hctx'', ← hb.rflags, ← hb.current]
      simp [schedAfterSyscall, Kernel.onTask]
  have hlast : ∀ r ∈ Reg.rcx :: .r11 :: argumentRegs,
      (userAfter c σ).regs r = (beforeRsp c σ).regs r := by
    intro r hr
    rw [← hc.rsp _ r hr]
    refine hlost r ?_ ?_ <;> revert r <;> decide
  have hargument : ∀ r ∈ argumentRegs, (userAfter c σ).regs r = β.regs r := fun r hr =>
    (hlast r (List.mem_cons_of_mem _ (List.mem_cons_of_mem _ hr))).trans (hleft r hr)
  refine ⟨fun r hne hne' hne'' => ?_, ?_, ?_⟩
  · cases r with
    | rax => exact absurd rfl hne
    | rcx => exact absurd rfl hne'
    | r11 => exact absurd rfl hne''
    | rsp => rw [hrsp, hdispatch, hb.current, hb.rsp, hctx']
    | rdi => exact (hargument .rdi (by decide)).trans hrdi
    | rsi => exact (hargument .rsi (by decide)).trans hrsi
    | rdx => exact (hargument .rdx (by decide)).trans hrdx
    | r8 => exact (hargument .r8 (by decide)).trans hr8
    | r9 => exact (hargument .r9 (by decide)).trans hr9
    | r10 => exact (hargument .r10 (by decide)).trans hr10
    | _ => exact hkept _ rfl (by decide)
  · rw [hrip, hlast .rcx (by decide), hrcx, hsaved.1]
  · rw [hrflags, hlast .r11 (by decide), hr11, hsaved.2]

/-- C code whose functions leave zeros in some registers and in the memory that is theirs. -/
def zeroing (lost : CFun → List Reg) (dispatch : Word → (Fin 6 → Word) → Kernel → Word × Kernel) :
    CCode where
  scratch f σ := { σ with regs := fun r => if r ∈ lost f then 0 else σ.regs r, mem := fun _ => 0 }
  dispatch := dispatch

/-- User mode with a value of its own in every register, in the first task. -/
def userState : State where
  regs
    | .rax => 39 | .rbx => 1 | .rcx => 0x400000 | .rdx => 2 | .rsi => 3 | .rdi => 7 | .rbp => 4
    | .rsp => 0x7FE000 | .r8 => 5 | .r9 => 6 | .r10 => 8 | .r11 => 0x202 | .r12 => 9 | .r13 => 10
    | .r14 => 11 | .r15 => 12
  data _ := 0x10000
  mem _ := 0
  world := Kernel.zero ∅ (fun _ => VfsFile.fresh) 0

/-- A call that returns a number and does nothing else. -/
def answering (v : Word) : Word → (Fin 6 → Word) → Kernel → Word × Kernel := fun _ _ k => (v, k)

/-- Functions that use the registers they may, but not the ones that the way back needs. -/
def sparing : CFun → List Reg
  | .procSaveUserContext => [.rax, .rcx, .rdx, .rsi, .rdi, .r11]
  | .schedCurrentUserRip => [.rax, .rcx, .r11]
  | .schedCurrentUserRflags => [.rax, .r11]
  | .schedCurrentUserRsp => [.rax]
  | _ => [.rax, .rcx, .rdx, .rsi, .rdi, .r8, .r9, .r10, .r11]

theorem comesBack_answering (lost : CFun → List Reg) (v : Word) (σ : State) :
    ComesBack (zeroing lost (answering v)) σ := ⟨rfl, rfl, rfl, rfl⟩

theorem gentle_preserves_sparing :
    Preserved userState (userAfter (zeroing sparing (answering 1)) userState) := by
  have hleaves : ∀ f rs, (∀ r ∈ rs, r ∉ sparing f) → (zeroing sparing (answering 1)).Leaves f rs :=
    fun f rs hno τ r hr => if_neg (hno r hr)
  exact gentle_preserves ⟨hleaves _ _ (by decide), hleaves _ _ (by decide), hleaves _ _ (by decide),
    hleaves _ _ (by decide)⟩ (comesBack_answering ..)

/-- A system call that does nothing loses `rdi`, where the function called last uses it. -/
theorem rdi_lost : ¬ ∀ c σ, ComesBack c σ → Preserved σ (userAfter c σ) := by
  intro h
  have hpreserved := h (zeroing (fun f => .rdi :: sparing f) (answering 1)) userState
    (comesBack_answering ..)
  have hrdi := hpreserved.1 .rdi (by decide) (by decide) (by decide)
  rw [(userAfter_spec _ _).2.1 .rdi rfl (by decide)] at hrdi
  exact absurd hrdi (by decide)

/-! ### The result -/

theorem intResult_eq (left ret : Word) :
    intResult left ret = ret ↔ left.extractLsb' 32 32 = ret.extractLsb' 32 32 := by
  constructor
  · intro h
    refine BitVec.eq_of_getLsbD_eq fun i hi => ?_
    have := congrArg (BitVec.getLsbD · (32 + i)) h
    rw [intResult, BitVec.getLsbD_append] at this
    simpa [hi] using this
  · intro h
    refine BitVec.eq_of_getLsbD_eq fun i hi => ?_
    rw [intResult, BitVec.getLsbD_append]
    by_cases hlow : i < 32
    · simp [hlow]
    · rw [h]
      have : i - 32 < 32 := by omega
      simp [hlow, this, show 32 + (i - 32) = i by omega]

/-- Both ways back to user mode deliver `r` in `rax`: the one through `sysret`, and the one that resumes
    the task from its slot. -/
def Delivers (c : CCode) (σ : State) (r : Word) : Prop :=
  (userAfter c σ).regs .rax = r ∧
    ∀ k, k = (run (call c) syscallEntry σ).world → ∀ τ, ResumesAt (k.tasks k.currentTask) τ →
      (resumed c τ).regs .rax = r

/-- `sched_after_syscall` leaves this above the `int` that it returns. -/
def CCode.LeavesAbove (c : CCode) (left : BitVec 32) : Prop :=
  ∀ τ, ((c.scratch .schedAfterSyscall τ).regs .rax).extractLsb' 32 32 = left

/-- Both deliver the result of `syscall_dispatch` just when its upper half is what `sched_after_syscall`
    leaves above the `int` it returns: for code that leaves zeros there, the results below 2^32. -/
theorem delivers_iff (c : CCode) (σ : State) :
    (Delivers c σ ((afterDispatch c σ).regs .rax) ↔
      ((c.scratch .schedAfterSyscall (beforeAfter c σ)).regs .rax).extractLsb' 32 32 =
        ((afterDispatch c σ).regs .rax).extractLsb' 32 32) ∧
    ∀ left, c.LeavesAbove left → (Delivers c σ ((afterDispatch c σ).regs .rax) ↔
      ((afterDispatch c σ).regs .rax).extractLsb' 32 32 = left) := by
  obtain ⟨-, -, hrax, -, -, -, hworld⟩ := userAfter_spec c σ
  have hresume : ∀ k, k = (run (call c) syscallEntry σ).world → ∀ τ,
      ResumesAt (k.tasks k.currentTask) τ →
        (resumed c τ).regs .rax = (afterDispatch c σ).regs .rax := by
    rintro k rfl τ hτ
    obtain ⟨hregs, -⟩ := resumed_spec (c := c) hτ
    rw [List.map_cons, List.cons.injEq] at hregs
    rw [hregs.1, hworld]
    simp [schedAfterSyscall, Kernel.onTask]
  have hdelivers : Delivers c σ ((afterDispatch c σ).regs .rax) ↔
      ((c.scratch .schedAfterSyscall (beforeAfter c σ)).regs .rax).extractLsb' 32 32 =
        ((afterDispatch c σ).regs .rax).extractLsb' 32 32 := by
    rw [Delivers, hrax, returnRax]
    exact ⟨fun h => (intResult_eq ..).mp h.1, fun h => ⟨(intResult_eq ..).mpr h, hresume⟩⟩
  refine ⟨hdelivers, fun left hleft => ?_⟩
  rw [hdelivers, hleft, eq_comm]

/-- The number 1 is delivered by code that leaves zeros. -/
theorem delivers_iff_one :
    Delivers (zeroing (fun f => .rax :: sparing f) (answering 1)) userState 1 := by
  obtain ⟨hrax, -⟩ := afterDispatch_spec (zeroing (fun f => .rax :: sparing f) (answering 1)) userState
  have hone : (afterDispatch (zeroing (fun f => .rax :: sparing f) (answering 1)) userState).regs .rax = 1 :=
    hrax
  have hzero : (zeroing (fun f => .rax :: sparing f) (answering 1)).LeavesAbove 0#32 := fun _ =>
    congrArg (BitVec.extractLsb' 32 32) (if_pos (List.mem_cons_self ..))
  have h := (delivers_iff (zeroing (fun f => .rax :: sparing f) (answering 1)) userState).2 0#32 hzero
  rw [hone] at h
  exact h.mpr (by decide)

/-- An error: the upper half of -14 is lost when the `int` is extended by zeros. -/
theorem error_truncated : ¬ ∀ c σ, Delivers c σ ((afterDispatch c σ).regs .rax) := by
  intro h
  obtain ⟨hrax, -⟩ := afterDispatch_spec (zeroing (fun f => .rax :: sparing f) (answering (-14))) userState
  have hlost := (intResult_eq ..).mp ((userAfter_spec _ _).2.2.1.symm.trans
    (h (zeroing (fun f => .rax :: sparing f) (answering (-14))) userState).1)
  rw [hrax] at hlost
  exact absurd hlost (by decide)

end TypeOS.Entry
