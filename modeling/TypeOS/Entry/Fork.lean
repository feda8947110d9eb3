import TypeOS.Entry.Registers
import TypeOS.Sched.FirstRun

/-! The registers that a child starts with.

    The push order of `syscall_entry`, the indices in `proc_save_syscall_frame` and the offsets in
    `usermode_resume_task` are three accounts of the same fifteen registers. They agree, and nobody
    writes to the slot of a child before it runs. -/

namespace TypeOS.Entry

open Proc Amd64 Sched

variable {c : CCode} {σ τ : State} {m m₁ m₂ m₃ : Machine}

/-- The registers of a system call, as its task is to have them; `r8`, `r9` and `r10` are those that
    `proc_save_user_context` leaves. -/
def userContext (c : CCode) (σ : State) : UserContext :=
  let ρ := (run (call c) saveContext σ).regs
  { rip := σ.regs .rcx, rsp := σ.regs .rsp, rflags := σ.regs .r11, rax := σ.regs .rax
    regs := ![σ.regs .rax, σ.regs .rbx, σ.regs .rcx, σ.regs .rdx, σ.regs .rsi, σ.regs .rdi,
      σ.regs .rbp, ρ .r8, ρ .r9, ρ .r10, σ.regs .r11, σ.regs .r12, σ.regs .r13, σ.regs .r14,
      σ.regs .r15] }

/-- At the call of `syscall_dispatch` the slot of the current task holds them. -/
theorem toDispatch_enters (h : σ.world = m.kernel) :
    (run (call c) toDispatch σ).world = (enter (userContext c σ) m).kernel := by
  obtain ⟨-, hworld, -⟩ := toDispatch_spec c σ
  rw [hworld, h]
  simp only [procSaveSyscallFrame, procSaveUserContext, enter, Kernel.onTask, userContext, frame]
  congr 1
  funext t
  by_cases ht : t = m.kernel.currentTask
  · subst ht
    simp
  · simp [ht]

/-- A task that is resumed has the registers of a context. -/
structure Resumed (ctx : UserContext) (u : User) : Prop where
  regs : [Reg.rax, .rbx, .rdx, .rsi, .rdi, .rbp, .r8, .r9, .r10, .r12, .r13, .r14, .r15].map u.regs =
    [ctx.rax, ctx.regs 1, ctx.regs 3, ctx.regs 4, ctx.regs 5, ctx.regs 6, ctx.regs 7, ctx.regs 8,
      ctx.regs 9, ctx.regs 11, ctx.regs 12, ctx.regs 13, ctx.regs 14]
  rsp : u.regs .rsp = ctx.rsp
  rip : u.rip = ctx.rip
  rflags : u.rflags = ctx.rflags

theorem resumed_context {p : Process} (h : ResumesAt p τ) : Resumed p.context (resumed c τ) := by
  obtain ⟨hregs, hrsp, hrip, hrflags⟩ := resumed_spec (c := c) h
  exact ⟨hregs, hrsp, hrip, hrflags⟩

/-! ### fork, vfork and clone -/

/-- `CLONE_VM`. -/
def cloneVm : Word := 0x100#64

/-- `SYS_fork`, `SYS_vfork` and `SYS_clone` in `syscall_dispatch`. -/
def taskCall (num a0 : Word) (k : Kernel) : Option Sys :=
  if num = 57#64 ∨ num = 58#64 then some (.plain .fork)
  else if num = 56#64 then
    if a0 &&& cloneVm = 0 then some (.plain .fork)
    else some (.other (k.tasks k.currentTask).pid)
  else none

theorem taskCall_fork {num a0 : Word} {k : Kernel} {sys : Sys} (h : taskCall num a0 k = some sys)
    (hvm : num = 56#64 → a0 &&& cloneVm = 0) : sys = .plain .fork := by
  unfold taskCall at h
  split_ifs at h with h₁ h₂ h₃
  · exact (Option.some.inj h).symm
  · exact (Option.some.inj h).symm
  · exact absurd (hvm h₂) h₃

/-- What a child starts with: 0 in `rax` and else the registers of its parent at the call, but for
    those that a system call may lose. -/
structure ParentsRegisters (σ : State) (u : User) : Prop where
  rax : u.regs .rax = 0
  regs : ∀ r ∈ [Reg.rbx, .rbp, .rdi, .rsi, .rdx, .r12, .r13, .r14, .r15, .rsp], u.regs r = σ.regs r
  rip : u.rip = σ.regs .rcx
  rflags : u.rflags = σ.regs .r11

theorem Resumed.parents {u : User} (h : Resumed { userContext c σ with rax := 0 } u) :
    ParentsRegisters σ u := by
  have hregs := h.regs
  simp only [List.map_cons, List.map_nil, List.cons.injEq, and_true] at hregs
  obtain ⟨hrax, hrbx, hrdx, hrsi, hrdi, hrbp, -, -, -, hr12, hr13, hr14, hr15⟩ := hregs
  refine ⟨hrax, fun r hr => ?_, h.rip, h.rflags⟩
  simp only [List.mem_cons, List.not_mem_nil, or_false] at hr
  rcases hr with rfl | rfl | rfl | rfl | rfl | rfl | rfl | rfl | rfl | rfl
  · exact hrbx
  · exact hrbp
  · exact hrdi
  · exact hrsi
  · exact hrdx
  · exact hr12
  · exact hr13
  · exact hr14
  · exact hr15
  · exact h.rsp

/-- A fork that succeeds makes a child, and whatever the tasks do then, the child has the registers of
    its parent when it is resumed first. -/
theorem fork_child_registers {ans : Answers} {sys : Sys} {r : Int}
    (hr : Reaches (fun _ _ => True) m) (hu : m.mode = .user) (hw : σ.world = m.kernel)
    (hsys : taskCall (σ.regs .rax) (σ.regs .rdi) m.kernel = some sys)
    (hvm : σ.regs .rax = 56#64 → σ.regs .rdi &&& cloneVm = 0)
    (hs : step (.syscall (userContext c σ) ans sys) m = some m₁)
    (hret : m₁.lastCall m.cur = .returned r) (hok : 0 ≤ r) :
    (run (call c) toDispatch σ).world = (enter (userContext c σ) m).kernel ∧
      ∃ t, m.state t = .unused ∧ m₁.state t = .runnable ∧ (m₁.kernel.tasks t).pid = r ∧
        ∀ m₂ m₃ i, Meanwhile t m₁ m₂ → step i m₂ = some m₃ → Resumes t m₂ m₃ →
          ∀ τ, ResumesAt (m₃.kernel.tasks t) τ → ParentsRegisters σ (resumed c τ) := by
  obtain rfl := taskCall_fork hsys hvm
  obtain ⟨t, hun, hpid, hready⟩ := Ready.forked hr hu hs hret hok
  refine ⟨toDispatch_enters hw, t, hun, hready.runnable, hpid, fun m₂ m₃ i hrun hstep hres τ hτ => ?_⟩
  have hctx := hready.resumed (hr.step _ trivial hs) hrun hstep hres
  have h := resumed_context (c := c) hτ
  rw [hctx] at h
  exact h.parents

/-! ### A child of the shell -/

/-- The shell calls `SYS_fork`, with another number in every register. -/
def shellForks : State where
  regs r := if r = .rax then 57#64 else BitVec.ofNat 64 (r.ctorIdx + 1)
  data _ := 0x10000
  mem _ := 0
  world := booted.kernel

/-- C code that leaves zeros. -/
def zeros : CCode := zeroing sparing (answering 0)

def forked : Machine :=
  afterInputs [.syscall (userContext zeros shellForks) (memory 10) (.plain .fork)] booted

/-- The shell waits for its child. -/
def shellWaits : Machine := afterInputs [waits] forked

def childStarts : Machine := afterInputs [.turn] shellWaits

/-- A slot at address 0. -/
def inSlot (p : Process) : State where
  regs _ := 0#64
  data _ := 0x10000
  mem a := (quadwords 0 p).getD (a.toNat / 8) 0
  world := booted.kernel

theorem inSlot_resumes (p : Process) : ResumesAt p (inSlot p) := by
  have hquads : ∀ (l : List Word) (n : Nat) (m : Word → Word), n + l.length ≤ 22 →
      (∀ i (hi : i < l.length), m (BitVec.ofNat 64 (8 * (n + i))) = l[i]) →
      Quads m (BitVec.ofNat 64 (8 * n)) l := by
    intro l
    induction l with
    | nil => intros; trivial
    | cons v l ih =>
      intro n m hn hm
      refine ⟨hm 0 (Nat.zero_lt_succ _), ?_⟩
      have hnext : BitVec.ofNat 64 (8 * n) + 8#64 = BitVec.ofNat 64 (8 * (n + 1)) := by
        rw [← BitVec.ofNat_add, Nat.mul_add]
      rw [hnext]
      simp only [List.length_cons] at hn
      refine ih (n + 1) m (by omega) fun i hi => ?_
      have := hm (i + 1) (Nat.succ_lt_succ hi)
      rwa [show n + (i + 1) = n + 1 + i by omega] at this
  refine ⟨⟨0, hquads (quadwords 0 p) 0 _ (by simp [quadwords]) fun i hi => ?_⟩, fun i hi j hj => ?_⟩
  · have hlen : (quadwords 0 p).length = 22 := by simp [quadwords]
    have hoff : (BitVec.ofNat 64 (8 * (0 + i))).toNat / 8 = i := by
      rw [BitVec.toNat_ofNat]
      omega
    rw [inSlot]
    dsimp only
    rw [hoff, List.getD_eq_getElem?_getD, List.getElem?_eq_getElem hi, Option.getD_some]
  · intro h
    have := congrArg BitVec.toNat h
    have hframe : interruptFrame (inSlot p) = 65496#64 := by
      simp only [interruptFrame, inSlot]
      decide
    rw [hframe] at this
    simp only [inSlot, BitVec.toNat_add, BitVec.toNat_ofNat] at this
    omega

theorem fork_child_of_shell : ∃ τ, ResumesAt (childStarts.kernel.tasks 1) τ ∧
    ParentsRegisters shellForks (resumed zeros τ) := by
  have hresult : (procFork (memory 10) (enter (userContext zeros shellForks) booted).kernel).1 = 2 := by
    decide
  obtain ⟨-, t, -, hrun, -, hchild⟩ := @fork_child_registers zeros shellForks booted forked
    (memory 10) (.plain .fork) 2 booted_reaches rfl rfl rfl
    (fun h => absurd h (by decide)) rfl (congrArg LastCall.returned hresult) (by decide)
  have ht : t = 1 := by
    have hone : ∀ u, forked.state u = .runnable → u = 1 := by decide
    exact hone t hrun
  subst ht
  have hlen : shellWaits.returns.length = forked.returns.length := by decide
  have hwaits : Meanwhile 1 forked shellWaits := by
    refine (Meanwhile.refl forked).step waits rfl ?_
    rintro ⟨last, rax, h⟩
    rw [h, List.length_cons] at hlen
    omega
  exact ⟨_, inSlot_resumes _, hchild shellWaits childStarts .turn hwaits rfl
    ⟨shellWaits.lastCall 1, (shellWaits.kernel.tasks 1).userRax, rfl⟩ _ (inSlot_resumes _)⟩

end TypeOS.Entry
