import TypeOS.Lib.Amd64
import TypeOS.Proc.Calls

/-! The way of a system call through `gdtasm.asm`, and of a task back to user mode.

    The registers go partly to labels and partly to the kernel stack, and from there to the slot of
    the current task. Seven C functions are called on the way. Of their code only what they do to the
    slot of the current task matters, and what `syscall_dispatch` does is left open. -/

namespace TypeOS.Entry

open Proc Amd64

/-- The labels in `.bss` that `syscall_entry` uses, and `tss_rsp0`. -/
inductive Label
  | sysSaveRax | sysSaveRdi | sysSaveRsi | sysSaveRdx | sysSaveR10 | sysSaveR8 | sysSaveR9
  | sysSaveR11 | sysSaveRcx | sysSaveRsp | sysReturnRax | tssRsp0
  deriving DecidableEq

/-- The C functions that `syscall_entry` calls. -/
inductive CFun
  | procSaveUserContext | procSaveSyscallFrame | syscallDispatch | schedAfterSyscall
  | schedCurrentUserRip | schedCurrentUserRflags | schedCurrentUserRsp

abbrev State : Type := Cpu Label Kernel

abbrev Code : Type := List (Instr Label CFun)

/-! ### The C functions -/

/-- `proc_save_user_context`. -/
def procSaveUserContext (rip rsp rflags : Word) (k : Kernel) : Kernel :=
  k.onTask k.currentTask fun p => { p with userRip := rip, userRsp := rsp, userRflags := rflags }

/-- `proc_save_syscall_frame`. -/
def procSaveSyscallFrame (kframe : Nat → Word) (rcx r11 : Word) (k : Kernel) : Kernel :=
  k.onTask k.currentTask fun p => { p with
    userRegs := ![kframe 0, kframe 4, rcx, kframe 3, kframe 2, kframe 1, kframe 5, kframe 6, kframe 7,
      kframe 8, r11, kframe 10, kframe 11, kframe 12, kframe 13]
    userRax := kframe 0 }

/-- What `sched_after_syscall` stores. -/
def schedAfterSyscall (ret : Word) (k : Kernel) : Kernel :=
  k.onTask k.currentTask fun p => { p with userRax := ret }

/-- An `int` in `rax`: the upper half is whatever is left there. -/
def intResult (left ret : Word) : Word := left.extractLsb' 32 32 ++ ret.setWidth 32

/-- What the C code does beside: what its functions leave in the registers and the memory that are not
    the caller's, and what a system call does to the kernel. -/
structure CCode where
  scratch : CFun → State → State
  dispatch : Word → (Fin 6 → Word) → Kernel → Word × Kernel

/-- The quadwords of the frame, which the caller has on the stack at each call. -/
abbrev frameSlots : Nat := 14

/-- A call of a C function. Tasks that run during `syscall_dispatch` enter system calls too, and use
    the same labels. -/
def call (c : CCode) (f : CFun) (σ : State) : State :=
  let k := σ.world
  let back := returned frameSlots (c.scratch f σ) σ
  match f with
  | .procSaveUserContext => back (procSaveUserContext (σ.regs .rdi) (σ.regs .rsi) (σ.regs .rdx) k)
  | .procSaveSyscallFrame =>
    back (procSaveSyscallFrame (fun i => σ.mem (σ.regs .rdi + BitVec.ofNat 64 (8 * i)))
      (σ.regs .rsi) (σ.regs .rdx) k)
  | .syscallDispatch =>
    let r := c.dispatch (σ.regs .rdi)
      ![σ.regs .rsi, σ.regs .rdx, σ.regs .rcx, σ.regs .r8, σ.regs .r9, σ.mem (σ.regs .rsp)] k
    { (back r.2).setReg .rax r.1 with data := (c.scratch f σ).data }
  | .schedAfterSyscall =>
    (back (schedAfterSyscall (σ.regs .rdi) k)).setReg .rax
      (intResult ((c.scratch f σ).regs .rax) (σ.regs .rdi))
  | .schedCurrentUserRip => (back k).setReg .rax (k.tasks k.currentTask).userRip
  | .schedCurrentUserRflags => (back k).setReg .rax (k.tasks k.currentTask).userRflags
  | .schedCurrentUserRsp => (back k).setReg .rax (k.tasks k.currentTask).userRsp

/-! ### `syscall_entry` -/

/-- The registers go to the labels, and `rip`, `rsp` and `rflags` to the task. -/
def saveContext : Code :=
  [.store .sysSaveRax .rax, .store .sysSaveRdi .rdi, .store .sysSaveRsi .rsi,
    .store .sysSaveRdx .rdx, .store .sysSaveR10 .r10, .store .sysSaveR8 .r8, .store .sysSaveR9 .r9,
    .store .sysSaveR11 .r11, .store .sysSaveRcx .rcx, .store .sysSaveRsp .rsp, .mov .rdi .rcx,
    .mov .rsi .rsp, .mov .rdx .r11, .load .rsp .tssRsp0, .and .rsp (~~~0xF#64), .sub .rsp 8,
    .call .procSaveUserContext, .add .rsp 8, .load .rsp .tssRsp0]

/-- What is pushed, in the order of the pushes. -/
def frameSources : List (Source Label) :=
  [.reg .r15, .reg .r14, .reg .r13, .reg .r12, .reg .r11, .reg .r10, .reg .r9, .reg .r8, .reg .rbp,
    .reg .rbx, .label .sysSaveRdx, .label .sysSaveRsi, .label .sysSaveRdi, .label .sysSaveRax]

def pushFrame : Code := frameSources.map .push

/-- The frame goes to the task. -/
def saveFrame : Code :=
  [.mov .rdi .rsp, .load .rsi .sysSaveRcx, .load .rdx .sysSaveR11, .sub .rsp 8,
    .call .procSaveSyscallFrame, .add .rsp 8]

def callDispatch : Code :=
  [.loadAt .rdi .rsp 0, .loadAt .rsi .rsp 8, .loadAt .rdx .rsp 16, .loadAt .rcx .rsp 24,
    .load .r8 .sysSaveR10, .load .r9 .sysSaveR8, .push (.label .sysSaveR9),
    .call .syscallDispatch, .add .rsp 8]

def callAfter : Code :=
  [.mov .rdi .rax, .sub .rsp 8, .call .schedAfterSyscall, .add .rsp 8, .storeAt .rsp 0 .rax,
    .store .sysReturnRax .rax]

/-- What is popped, in the order of the pops. -/
def frameRegs : List Reg :=
  [.rax, .rdi, .rsi, .rdx, .rbx, .rbp, .r8, .r9, .r10, .r11, .r12, .r13, .r14, .r15]

def popFrame : Code := frameRegs.map .pop

/-- The task's `rip` and `rflags` go to the registers that `sysret` takes them from. -/
def loadRip : Code :=
  [.sub .rsp 8, .call .schedCurrentUserRip, .add .rsp 8, .mov .rcx .rax,
    .sub .rsp 8, .call .schedCurrentUserRflags, .add .rsp 8, .mov .r11 .rax, .sub .rsp 8]

def loadRsp : Code :=
  [.call .schedCurrentUserRsp, .add .rsp 8, .mov .rsp .rax, .load .rax .sysReturnRax]

/-- `syscall_entry` up to the call of `syscall_dispatch`. -/
def toDispatch : Code := saveContext ++ pushFrame ++ saveFrame

/-- From there to the call of `sched_current_user_rsp`, the last one. -/
def fromDispatch : Code := callDispatch ++ callAfter ++ popFrame ++ loadRip

/-- `syscall_entry`, up to `o64 sysret`. -/
def syscallEntry : Code := toDispatch ++ fromDispatch ++ loadRsp

/-- The registers in user mode. -/
structure User where
  regs : Reg → Word
  rip : Word
  rflags : Word

/-- `o64 sysret`. -/
def sysret (σ : State) : User := ⟨σ.regs, σ.regs .rcx, σ.regs .r11⟩

/-- `iretq`. -/
def iretq (σ : State) : User where
  regs := Function.update σ.regs .rsp (σ.mem (σ.regs .rsp + 24#64))
  rip := σ.mem (σ.regs .rsp)
  rflags := σ.mem (σ.regs .rsp + 16#64)

/-- The first part of `usermode_resume_task`; `rdi` is the address of the task. -/
def pushInterrupt : Code :=
  [.mov .r14 .rdi, .loadAt .rax .r14 32, .loadAt .rcx .r14 24, .loadAt .rdx .r14 40,
    .load .rsp .tssRsp0, .and .rsp (~~~0xF#64), .sub .rsp 40, .storeAt .rsp 0 .rax,
    .setAt .rsp 8 0x23, .storeAt .rsp 16 .rdx, .storeAt .rsp 24 .rcx, .setAt .rsp 32 0x1B]

def loadRegs : Code :=
  [.loadAt .rax .r14 48, .loadAt .rbx .r14 64, .loadAt .rdx .r14 80, .loadAt .rsi .r14 88,
    .loadAt .rdi .r14 96, .loadAt .rbp .r14 104, .loadAt .r8 .r14 112, .loadAt .r9 .r14 120,
    .loadAt .r10 .r14 128, .loadAt .r12 .r14 144, .loadAt .r13 .r14 152, .loadAt .r15 .r14 168,
    .loadAt .r14 .r14 160]

/-- `usermode_resume_task`, up to `iretq`. -/
def usermodeResumeTask : Code := pushInterrupt ++ loadRegs

variable {c : CCode} {σ : State}

/-- What is on the stack above the top quadword is there after a call. -/
theorem top_call {v : Word} {vs : List Word} (h : σ.Top (v :: vs)) (hn : vs.length ≤ frameSlots)
    (f : CFun) : ∃ v', (call c f σ).Top (v' :: vs) := by
  cases f with
  | procSaveUserContext => exact h.returned hn (by norm_num) _ _
  | procSaveSyscallFrame => exact h.returned hn (by norm_num) _ _
  | syscallDispatch =>
    obtain ⟨v', h'⟩ := h.returned hn (by norm_num) (c.scratch .syscallDispatch σ) _
    exact ⟨v', h'.setReg (by decide) _⟩
  | schedAfterSyscall | schedCurrentUserRip | schedCurrentUserRflags | schedCurrentUserRsp =>
    obtain ⟨v', h'⟩ := h.returned hn (by norm_num) (c.scratch _ σ) _
    exact ⟨v', h'.setReg (by decide) _⟩

/-- A call with the stack aligned before it. -/
theorem top_aligned {vs : List Word} (h : σ.Top vs) (hn : vs.length ≤ frameSlots) (f : CFun) :
    (run (call c) [.sub .rsp 8, .call f, .add .rsp 8] σ).Top vs := by
  obtain ⟨v, h₁⟩ := Cpu.Top.sub (call c) h
  obtain ⟨v', h₂⟩ := top_call h₁ hn f
  exact Cpu.Top.add (call c) h₂

/-! ### What the entry saves -/

theorem saveContext_spec (c : CCode) (σ : State) :
    let τ := run (call c) saveContext σ
    (∀ r : Reg, r.preserved → r ≠ .rsp → τ.regs r = σ.regs r) ∧
      τ.data = Function.update (Function.update (Function.update (Function.update (Function.update
        (Function.update (Function.update (Function.update (Function.update (Function.update σ.data
          .sysSaveRax (σ.regs .rax)) .sysSaveRdi (σ.regs .rdi)) .sysSaveRsi (σ.regs .rsi))
          .sysSaveRdx (σ.regs .rdx)) .sysSaveR10 (σ.regs .r10)) .sysSaveR8 (σ.regs .r8))
          .sysSaveR9 (σ.regs .r9)) .sysSaveR11 (σ.regs .r11)) .sysSaveRcx (σ.regs .rcx))
          .sysSaveRsp (σ.regs .rsp) ∧
      τ.world = procSaveUserContext (σ.regs .rcx) (σ.regs .rsp) (σ.regs .r11) σ.world := by
  refine ⟨fun r hr hne => ?_, rfl, rfl⟩
  cases r <;> first | rfl | exact absurd hr Bool.false_ne_true | exact absurd rfl hne

/-- The frame on the kernel stack, from its top on; four registers are lost before they are pushed. -/
def frame (σ τ : State) : List Word :=
  [σ.regs .rax, σ.regs .rdi, σ.regs .rsi, σ.regs .rdx, σ.regs .rbx, σ.regs .rbp, τ.regs .r8,
    τ.regs .r9, τ.regs .r10, τ.regs .r11, σ.regs .r12, σ.regs .r13, σ.regs .r14, σ.regs .r15]

theorem pushFrame_spec (c : CCode) (σ : State) :
    let σ₁ := run (call c) saveContext σ
    let τ := run (call c) (saveContext ++ pushFrame) σ
    τ.Top (frame σ σ₁) ∧ τ.data = σ₁.data ∧ τ.world = σ₁.world := by
  intro σ₁ τ
  obtain ⟨hregs, hdata, -⟩ := saveContext_spec c σ
  have hempty : σ₁.Top [] := trivial
  obtain ⟨htop, hd, hw, -⟩ := Cpu.Top.pushes (call c) frameSources hempty (by simp [frameSources])
    (by simp [frameSources])
  have hτ : τ = run (call c) (frameSources.map .push) σ₁ := run_append ..
  rw [← hτ] at htop hd hw
  refine ⟨?_, hd, hw⟩
  have hvalues : (frameSources.map σ₁.value).reverse ++ [] = frame σ σ₁ := by
    simp only [frameSources, List.map_cons, List.map_nil, List.reverse_cons, List.reverse_nil,
      List.nil_append, List.cons_append, List.append_nil, Cpu.value, frame, σ₁, hdata,
      hregs _ rfl (by decide : Reg.rbx ≠ .rsp), hregs _ rfl (by decide : Reg.rbp ≠ .rsp),
      hregs _ rfl (by decide : Reg.r12 ≠ .rsp), hregs _ rfl (by decide : Reg.r13 ≠ .rsp),
      hregs _ rfl (by decide : Reg.r14 ≠ .rsp), hregs _ rfl (by decide : Reg.r15 ≠ .rsp)]
    rfl
  rwa [hvalues] at htop

/-- At the call of `syscall_dispatch` the frame is on the stack, and the task has it too. -/
theorem toDispatch_spec (c : CCode) (σ : State) :
    let σ₁ := run (call c) saveContext σ
    let τ := run (call c) toDispatch σ
    τ.Top (frame σ σ₁) ∧
      τ.world = procSaveSyscallFrame (fun i => (frame σ σ₁).getD i 0) (σ.regs .rcx) (σ.regs .r11)
        (procSaveUserContext (σ.regs .rcx) (σ.regs .rsp) (σ.regs .r11) σ.world) ∧
      τ.data = σ₁.data := by
  intro σ₁ τ
  obtain ⟨-, hdata₁, hworld₁⟩ := saveContext_spec c σ
  obtain ⟨htop, hdata, hworld⟩ := pushFrame_spec c σ
  have hτ : τ = run (call c) saveFrame (run (call c) (saveContext ++ pushFrame) σ) := run_append ..
  generalize run (call c) (saveContext ++ pushFrame) σ = σ₂ at htop hdata hworld hτ
  have hworld₂ : τ.world = procSaveSyscallFrame
      (fun i => σ₂.mem (σ₂.regs .rsp + BitVec.ofNat 64 (8 * i))) (σ₂.data .sysSaveRcx)
      (σ₂.data .sysSaveR11) σ₂.world := by
    rw [hτ]
    rfl
  have hframe : ∀ i < 14, σ₂.mem (σ₂.regs .rsp + BitVec.ofNat 64 (8 * i)) =
      (frame σ σ₁).getD i 0 := by
    intro i hi
    rw [htop.get hi, List.getD_eq_getElem?_getD, List.getElem?_eq_getElem hi, Option.getD_some]
  refine ⟨?_, ?_, ?_⟩
  · rw [hτ]
    have hargs : (run (call c) [.mov .rdi .rsp, .load .rsi .sysSaveRcx, .load .rdx .sysSaveR11]
        σ₂).Top (frame σ σ₁) := ((htop.setReg (by decide) _).setReg (by decide) _).setReg (by decide) _
    exact top_aligned hargs le_rfl .procSaveSyscallFrame
  · rw [hworld₂, hworld, hdata, hdata₁, hworld₁]
    simp only [procSaveSyscallFrame, hframe 0 (by norm_num), hframe 1 (by norm_num),
      hframe 2 (by norm_num), hframe 3 (by norm_num), hframe 4 (by norm_num), hframe 5 (by norm_num),
      hframe 6 (by norm_num), hframe 7 (by norm_num), hframe 8 (by norm_num), hframe 10 (by norm_num),
      hframe 11 (by norm_num), hframe 12 (by norm_num), hframe 13 (by norm_num)]
    rfl
  · rw [hτ, ← hdata]
    rfl

/-! ### What the way back delivers -/

/-- The state after `syscall_dispatch`. -/
def afterDispatch (c : CCode) (σ : State) : State := run (call c) (toDispatch ++ callDispatch) σ

/-- The state in which `sched_after_syscall` is called. -/
def beforeAfter (c : CCode) (σ : State) : State :=
  run (call c) [.mov .rdi .rax, .sub .rsp 8] (afterDispatch c σ)

/-- The state in which `sched_current_user_rsp` is called. -/
def beforeRsp (c : CCode) (σ : State) : State := run (call c) (toDispatch ++ fromDispatch) σ

/-- The registers in user mode after a system call. -/
def userAfter (c : CCode) (σ : State) : User := sysret (run (call c) syscallEntry σ)

/-- The `rax` of the way back: what `sched_after_syscall` returns. -/
def returnRax (c : CCode) (σ : State) : Word :=
  intResult ((c.scratch .schedAfterSyscall (beforeAfter c σ)).regs .rax) ((afterDispatch c σ).regs .rax)

theorem afterDispatch_top (c : CCode) (σ : State) :
    (afterDispatch c σ).Top (frame σ (run (call c) saveContext σ)) := by
  obtain ⟨htop, -⟩ := toDispatch_spec c σ
  rw [afterDispatch, run_append]
  generalize run (call c) toDispatch σ = τ at htop
  have hargs : (run (call c) [.loadAt .rdi .rsp 0, .loadAt .rsi .rsp 8, .loadAt .rdx .rsp 16,
      .loadAt .rcx .rsp 24, .load .r8 .sysSaveR10, .load .r9 .sysSaveR8] τ).Top
      (frame σ (run (call c) saveContext σ)) :=
    (((((htop.setReg (by decide) _).setReg (by decide) _).setReg (by decide) _).setReg
      (by decide) _).setReg (by decide) _).setReg (by decide) _
  have hpush := Cpu.Top.push (call c) hargs (by simp [frame]) (.label .sysSaveR9)
  obtain ⟨v, hcall⟩ := top_call (c := c) hpush le_rfl .syscallDispatch
  exact Cpu.Top.add (call c) hcall

/-- `syscall_dispatch` gets the number and the six arguments of the call. -/
theorem afterDispatch_spec (c : CCode) (σ : State) :
    let r := c.dispatch (σ.regs .rax)
      ![σ.regs .rdi, σ.regs .rsi, σ.regs .rdx, σ.regs .r10, σ.regs .r8, σ.regs .r9]
      (run (call c) toDispatch σ).world
    (afterDispatch c σ).regs .rax = r.1 ∧ (afterDispatch c σ).world = r.2 := by
  obtain ⟨-, hdata₁, -⟩ := saveContext_spec c σ
  obtain ⟨htop, -, hdata⟩ := toDispatch_spec c σ
  rw [afterDispatch, run_append]
  generalize run (call c) toDispatch σ = τ at htop hdata
  have hword : ∀ i, i < 4 → τ.mem (τ.regs .rsp + BitVec.ofNat 64 (8 * i)) =
      (frame σ (run (call c) saveContext σ)).getD i 0 := by
    intro i hi
    have hi' : i < (frame σ (run (call c) saveContext σ)).length := by
      simp only [frame, List.length_cons, List.length_nil]
      omega
    rw [htop.get hi', List.getD_eq_getElem?_getD, List.getElem?_eq_getElem hi', Option.getD_some]
  have hargs : (run (call c) callDispatch τ).regs .rax =
        (c.dispatch (τ.mem (τ.regs .rsp + BitVec.ofNat 64 (8 * 0)))
          ![τ.mem (τ.regs .rsp + BitVec.ofNat 64 (8 * 1)),
            τ.mem (τ.regs .rsp + BitVec.ofNat 64 (8 * 2)),
            τ.mem (τ.regs .rsp + BitVec.ofNat 64 (8 * 3)), τ.data .sysSaveR10, τ.data .sysSaveR8,
            Function.update τ.mem (τ.regs .rsp - 8#64) (τ.data .sysSaveR9) (τ.regs .rsp - 8#64)]
          τ.world).1 ∧
      (run (call c) callDispatch τ).world =
        (c.dispatch (τ.mem (τ.regs .rsp + BitVec.ofNat 64 (8 * 0)))
          ![τ.mem (τ.regs .rsp + BitVec.ofNat 64 (8 * 1)),
            τ.mem (τ.regs .rsp + BitVec.ofNat 64 (8 * 2)),
            τ.mem (τ.regs .rsp + BitVec.ofNat 64 (8 * 3)), τ.data .sysSaveR10, τ.data .sysSaveR8,
            Function.update τ.mem (τ.regs .rsp - 8#64) (τ.data .sysSaveR9) (τ.regs .rsp - 8#64)]
          τ.world).2 := ⟨rfl, rfl⟩
  rw [hword 0 (by norm_num), hword 1 (by norm_num), hword 2 (by norm_num), hword 3 (by norm_num),
    Function.update_self, hdata, hdata₁] at hargs
  exact hargs

theorem callAfter_spec {δ : State} {v : Word} {vs : List Word} (h : δ.Top (v :: vs))
    (hn : (v :: vs).length ≤ frameSlots) :
    let τ := run (call c) [.mov .rdi .rax, .sub .rsp 8] δ
    let rax := intResult ((c.scratch .schedAfterSyscall τ).regs .rax) (δ.regs .rax)
    let α := run (call c) callAfter δ
    α.Top (rax :: vs) ∧ α.data .sysReturnRax = rax ∧
      α.world = schedAfterSyscall (δ.regs .rax) δ.world := by
  have hargs : (run (call c) [.mov .rdi .rax] δ).Top (v :: vs) := h.setReg (by decide) _
  have hcall := top_aligned (c := c) hargs hn .schedAfterSyscall
  have hlen : vs.length < 2 ^ 60 := (Nat.lt_of_succ_le hn).trans (by norm_num)
  exact ⟨Cpu.Top.storeAt (call c) hcall hlen .rax, rfl, rfl⟩

theorem loadRip_spec (c : CCode) (β : State) :
    let γ := run (call c) loadRip β
    (∀ r : Reg, r.preserved → r ≠ .rsp → γ.regs r = β.regs r) ∧ γ.data = β.data ∧
      γ.world = β.world := by
  refine ⟨fun r hr hne => ?_, rfl, rfl⟩
  cases r <;> first | rfl | exact absurd hr Bool.false_ne_true | exact absurd rfl hne

theorem loadRsp_world (c : CCode) (γ : State) : (run (call c) loadRsp γ).world = γ.world := rfl

theorem loadRsp_spec (c : CCode) (γ : State) :
    let u := sysret (run (call c) loadRsp γ)
    (∀ r : Reg, r.preserved → r ≠ .rsp → u.regs r = γ.regs r) ∧
      (∀ r : Reg, r.preserved = false → r ≠ .rax →
        u.regs r = (c.scratch .schedCurrentUserRsp γ).regs r) ∧
      u.regs .rax = γ.data .sysReturnRax ∧
      u.regs .rsp = (γ.world.tasks γ.world.currentTask).userRsp := by
  refine ⟨fun r hr hne => ?_, fun r hr hne => ?_, rfl, rfl⟩
  · cases r <;> first | rfl | exact absurd hr Bool.false_ne_true | exact absurd rfl hne
  · cases r <;> first | rfl | exact absurd hr.symm Bool.false_ne_true | exact absurd rfl hne

/-- The registers after the pops: the frame's, but for the result in `rax`. -/
theorem popped_spec (c : CCode) (σ : State) : ∃ β, beforeRsp c σ = run (call c) loadRip β ∧
    frameRegs.map β.regs = returnRax c σ :: (frame σ (run (call c) saveContext σ)).tail ∧
    β.data .sysReturnRax = returnRax c σ ∧
    β.world = schedAfterSyscall ((afterDispatch c σ).regs .rax) (afterDispatch c σ).world := by
  have hback : beforeRsp c σ = run (call c) loadRip (run (call c) popFrame
      (run (call c) callAfter (afterDispatch c σ))) := by
    rw [beforeRsp, afterDispatch, fromDispatch, ← run_append, ← run_append, ← run_append]
    simp only [List.append_assoc]
  obtain ⟨htop, hdata, hworld⟩ :=
    callAfter_spec (c := c) (afterDispatch_top c σ) (show _ ≤ frameSlots from le_rfl)
  generalize run (call c) callAfter (afterDispatch c σ) = α at htop hdata hworld hback
  have hnil : ∀ l, α.Top l → α.Top (l ++ []) := fun l h => by rwa [List.append_nil]
  obtain ⟨-, hdata', hworld', hpopped, -⟩ :=
    Cpu.Top.pops (call c) frameRegs (hnil _ htop) rfl (by decide) (by decide)
  exact ⟨run (call c) popFrame α, hback, hpopped, hdata' ▸ hdata, hworld'.trans hworld⟩

/-- The registers in user mode after a system call. The functions called last may leave anything in
    the registers that are not preserved, `rcx` and `r11` among them. -/
theorem userAfter_spec (c : CCode) (σ : State) :
    let u := userAfter c σ
    (∀ r : Reg, r.preserved → r ≠ .rsp → u.regs r = σ.regs r) ∧
      (∀ r : Reg, r.preserved = false → r ≠ .rax →
        u.regs r = (c.scratch .schedCurrentUserRsp (beforeRsp c σ)).regs r) ∧
      u.regs .rax = returnRax c σ ∧
      u.regs .rsp = ((afterDispatch c σ).world.tasks (afterDispatch c σ).world.currentTask).userRsp ∧
      u.rip = u.regs .rcx ∧ u.rflags = u.regs .r11 ∧
      (run (call c) syscallEntry σ).world =
        schedAfterSyscall ((afterDispatch c σ).regs .rax) (afterDispatch c σ).world := by
  intro u
  have hu : u = sysret (run (call c) loadRsp (beforeRsp c σ)) := congrArg sysret (run_append ..)
  obtain ⟨hkept, hlost, hrax, hrsp⟩ := loadRsp_spec c (beforeRsp c σ)
  rw [← hu] at hkept hlost hrax hrsp
  obtain ⟨β, hback, hpopped, hdata, hworld⟩ := popped_spec c σ
  obtain ⟨hregs, hdata', hworld'⟩ := loadRip_spec c β
  rw [← hback] at hregs hdata' hworld'
  simp only [frame, frameRegs, List.map_cons, List.map_nil, List.tail_cons, List.cons.injEq,
    and_true] at hpopped
  obtain ⟨-, -, -, -, hrbx, hrbp, -, -, -, -, hr12, hr13, hr14, hr15⟩ := hpopped
  have hlast : (run (call c) syscallEntry σ).world = (beforeRsp c σ).world := by
    rw [syscallEntry, run_append]
    exact loadRsp_world c (beforeRsp c σ)
  refine ⟨fun r hr hne => ?_, hlost, ?_, ?_, by rw [hu]; rfl, by rw [hu]; rfl, ?_⟩
  · rw [hkept r hr hne, hregs r hr hne]
    cases r with
    | rbx => exact hrbx
    | rbp => exact hrbp
    | r12 => exact hr12
    | r13 => exact hr13
    | r14 => exact hr14
    | r15 => exact hr15
    | rsp => exact absurd rfl hne
    | _ => exact absurd hr Bool.false_ne_true
  · rw [hrax, hdata', hdata]
  · rw [hrsp, hworld', hworld]
    simp [schedAfterSyscall, Kernel.onTask]
  · rw [hlast, hworld', hworld]

/-! ### A task that is resumed -/

/-- The quadwords of `struct process` up to the end of `user_regs`; `kernel_rsp` is the third. -/
def quadwords (kernelRsp : Word) (p : Process) : List Word :=
  [BitVec.ofNat 64 p.brk, BitVec.ofNat 64 p.cr3, kernelRsp, p.userRsp, p.userRip, p.userRflags,
    p.userRax] ++ List.ofFn p.userRegs

/-- Where `usermode_resume_task` puts the five quadwords that `iretq` takes. -/
def interruptFrame (τ : State) : Word := (τ.data .tssRsp0 &&& ~~~0xF#64) - 40#64

/-- The task `p` is at the address in `rdi`, and the kernel stack is elsewhere. -/
structure ResumesAt (p : Process) (τ : State) : Prop where
  laid : ∃ kernelRsp, Quads τ.mem (τ.regs .rdi) (quadwords kernelRsp p)
  apart : ∀ i < 22, ∀ j < 5,
    τ.regs .rdi + BitVec.ofNat 64 (8 * i) ≠ interruptFrame τ + BitVec.ofNat 64 (8 * j)

/-- The registers of a task that is resumed. -/
def resumed (c : CCode) (τ : State) : User := iretq (run (call c) usermodeResumeTask τ)

theorem pushInterrupt_spec {p : Process} {τ : State} (h : ResumesAt p τ) :
    let ρ := run (call c) pushInterrupt τ
    (∃ kernelRsp, Quads ρ.mem (ρ.regs .r14) (quadwords kernelRsp p)) ∧
      ρ.mem (ρ.regs .rsp) = p.userRip ∧ ρ.mem (ρ.regs .rsp + 16#64) = p.userRflags ∧
      ρ.mem (ρ.regs .rsp + 24#64) = p.userRsp := by
  intro ρ
  obtain ⟨kernelRsp, hlaid⟩ := h.laid
  have hmem : ρ.mem = Function.update (Function.update (Function.update (Function.update
      (Function.update τ.mem (interruptFrame τ + 0#64) (τ.mem (τ.regs .rdi + 32#64)))
        (interruptFrame τ + 8#64) 0x23#64) (interruptFrame τ + 16#64)
        (τ.mem (τ.regs .rdi + 40#64))) (interruptFrame τ + 24#64)
        (τ.mem (τ.regs .rdi + 24#64))) (interruptFrame τ + 32#64) 0x1B#64 := rfl
  have hrsp : ρ.regs .rsp = interruptFrame τ := rfl
  have hr14 : ρ.regs .r14 = τ.regs .rdi := rfl
  have hlen : (quadwords kernelRsp p).length = 22 := by simp [quadwords]
  refine ⟨⟨kernelRsp, ?_⟩, ?_, ?_, ?_⟩
  · rw [hr14]
    refine hlaid.congr fun i hi => ?_
    have hne := h.apart i (hlen ▸ hi)
    rw [hmem, Function.update_of_ne (hne 4 (by norm_num)), Function.update_of_ne (hne 3 (by norm_num)),
      Function.update_of_ne (hne 2 (by norm_num)), Function.update_of_ne (hne 1 (by norm_num)),
      Function.update_of_ne (hne 0 (by norm_num))]
  · have hword := hlaid.get (hlen ▸ (by norm_num : 4 < 22))
    rw [hmem, hrsp]
    simpa [quadwords] using hword
  · have hword := hlaid.get (hlen ▸ (by norm_num : 5 < 22))
    rw [hmem, hrsp]
    simpa [quadwords] using hword
  · have hword := hlaid.get (hlen ▸ (by norm_num : 3 < 22))
    rw [hmem, hrsp]
    simpa [quadwords] using hword

/-- A resumed task has the registers of its slot, but for `rcx` and `r11`. -/
theorem resumed_spec {p : Process} {τ : State} (h : ResumesAt p τ) :
    let u := resumed c τ
    [Reg.rax, .rbx, .rdx, .rsi, .rdi, .rbp, .r8, .r9, .r10, .r12, .r13, .r14, .r15].map u.regs =
      [p.userRax, p.userRegs 1, p.userRegs 3, p.userRegs 4, p.userRegs 5, p.userRegs 6, p.userRegs 7,
        p.userRegs 8, p.userRegs 9, p.userRegs 11, p.userRegs 12, p.userRegs 13, p.userRegs 14] ∧
      u.regs .rsp = p.userRsp ∧ u.rip = p.userRip ∧ u.rflags = p.userRflags := by
  intro u
  obtain ⟨⟨kernelRsp, hlaid⟩, hrip, hrflags, hrsp⟩ := pushInterrupt_spec (c := c) h
  have hu : u = iretq (run (call c) loadRegs (run (call c) pushInterrupt τ)) :=
    congrArg iretq (run_append ..)
  generalize run (call c) pushInterrupt τ = ρ at hlaid hrip hrflags hrsp hu
  have hmem : ∀ i (hi : i < 22), ρ.mem (ρ.regs .r14 + BitVec.ofNat 64 (8 * i)) =
      (quadwords kernelRsp p).getD i 0 := by
    intro i hi
    have hi' : i < (quadwords kernelRsp p).length := by simpa [quadwords] using hi
    rw [hlaid.get hi', List.getD_eq_getElem?_getD, List.getElem?_eq_getElem hi', Option.getD_some]
  refine ⟨?_, ?_, ?_, ?_⟩
  · have hregs : [Reg.rax, .rbx, .rdx, .rsi, .rdi, .rbp, .r8, .r9, .r10, .r12, .r13, .r14, .r15].map
        u.regs = [6, 8, 10, 11, 12, 13, 14, 15, 16, 18, 19, 20, 21].map fun i =>
          ρ.mem (ρ.regs .r14 + BitVec.ofNat 64 (8 * i)) := by
      rw [hu]
      rfl
    rw [hregs]
    simp only [List.map_cons, List.map_nil, hmem 6 (by norm_num), hmem 8 (by norm_num),
      hmem 10 (by norm_num), hmem 11 (by norm_num), hmem 12 (by norm_num), hmem 13 (by norm_num),
      hmem 14 (by norm_num), hmem 15 (by norm_num), hmem 16 (by norm_num), hmem 18 (by norm_num),
      hmem 19 (by norm_num), hmem 20 (by norm_num), hmem 21 (by norm_num)]
    rfl
  · rw [hu]
    exact hrsp
  · rw [hu]
    exact hrip
  · rw [hu]
    exact hrflags

end TypeOS.Entry
