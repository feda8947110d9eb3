import TypeOS.Entry.Syscall

/-! The interrupt handlers of `idtasm.asm`: the code that an interrupt breaks into does not notice it.

    The processor pushes `ss`, `rsp`, `rflags`, `cs` and `rip`, the handler the other registers, and
    all of it is taken back in the opposite order. In between a C function runs, of which only the
    calling convention is known. The timer's handler has a branch that would rewrite `cs` and `ss`; it
    is taken when `rax` is not zero after `sched_irq_frame`, which returns an `int`. -/

namespace TypeOS.Entry

open Amd64

/-- What an interrupt breaks into: the registers, and the segments that are pushed. -/
structure Context where
  regs : Reg → Word
  rip : Word
  cs : Word
  rflags : Word
  ss : Word

/-- The C functions that the handlers call. -/
inductive Handler
  | schedIrqFrame | keyboardHandler | pageFaultHandler

/-- The ticks counted, the bytes written to ports, and what else the C code works on. -/
structure Surroundings (W : Type) where
  ticks : Word
  ports : List (Nat × Nat)
  rest : W

variable {W : Type}

/-- The handlers use no label. -/
abbrev IrqState (W : Type) : Type := Cpu Empty (Surroundings W)

abbrev IrqCode : Type := List (Instr Empty Handler)

/-- What the C code does beside: the registers and the memory that its functions leave, and what
    `keyboard_handler` does. -/
structure IrqC (W : Type) where
  scratch : Handler → IrqState W → IrqState W
  keyboard : W → W

/-- The quadwords that a handler has on the stack when it calls: the registers and what the processor
    pushed. -/
abbrev irqSlots : Nat := 20

/-- A call of a C function. `sched_irq_frame` counts a tick and returns 0. -/
def irqCall (c : IrqC W) (f : Handler) (σ : IrqState W) : IrqState W :=
  let back := returned irqSlots (c.scratch f σ) σ
  match f with
  | .schedIrqFrame =>
    (back { σ.world with ticks := σ.world.ticks + 1 }).setReg .rax
      (intResult ((c.scratch f σ).regs .rax) 0)
  | .keyboardHandler => back { σ.world with rest := c.keyboard σ.world.rest }
  | .pageFaultHandler => back σ.world

/-- A quadword that the processor pushes. -/
def pushWord (σ : IrqState W) (v : Word) : IrqState W :=
  (σ.setReg .rsp (σ.regs .rsp - 8#64)).setMem (σ.regs .rsp - 8#64) v

/-- The delivery of an interrupt on the stack that ends at `stack`. -/
def deliver (stack : Word) (x : Context) (σ : IrqState W) : IrqState W :=
  [x.ss, x.regs .rsp, x.rflags, x.cs, x.rip].foldl pushWord
    { σ with regs := Function.update x.regs .rsp stack }

/-- `iretq`. -/
def iretqContext {L : Type} (σ : Cpu L W) : Context where
  regs := Function.update σ.regs .rsp (σ.mem (σ.regs .rsp + 24#64))
  rip := σ.mem (σ.regs .rsp)
  cs := σ.mem (σ.regs .rsp + 8#64)
  rflags := σ.mem (σ.regs .rsp + 16#64)
  ss := σ.mem (σ.regs .rsp + 32#64)

/-- The registers in the order of the pushes. -/
def allRegs : List Reg :=
  [.rax, .rbx, .rcx, .rdx, .rsi, .rdi, .rbp, .r8, .r9, .r10, .r11, .r12, .r13, .r14, .r15]

/-- `PUSH_ALL`. -/
def pushAll : IrqCode := allRegs.map fun r => .push (.reg r)

/-- `POP_ALL`. -/
def popAll : IrqCode :=
  [Reg.r15, .r14, .r13, .r12, .r11, .r10, .r9, .r8, .rbp, .rdi, .rsi, .rdx, .rcx, .rbx, .rax].map .pop

/-- `mov al, 0x20` and `out 0x20, al`. -/
def endOfInterrupt (σ : IrqState W) : IrqState W :=
  { σ.setReg .rax ((σ.regs .rax &&& ~~~0xFF#64) ||| 0x20#64) with
    world := { σ.world with ports := (0x20, 0x20) :: σ.world.ports } }

/-- The part of `irq0_handler_asm` for interrupted user code. -/
def irq0User (c : IrqC W) (σ : IrqState W) : IrqState W :=
  let σ := run (irqCall c) [.mov .rdi .rsp, .sub .rsp 8, .call .schedIrqFrame, .add .rsp 8] σ
  if σ.regs .rax = 0 then σ
  else run (irqCall c) [.setAt .rsp 128 0x23, .setAt .rsp 152 0x1B] σ

/-- `irq0_handler_asm`, up to `iretq`. -/
def irq0Handler (c : IrqC W) (σ : IrqState W) : IrqState W :=
  let σ := run (irqCall c) (pushAll ++ [.loadAt .rax .rsp 128, .and .rax 3#64]) σ
  let σ := if σ.regs .rax = 3#64 then irq0User c σ else σ
  run (irqCall c) popAll (endOfInterrupt σ)

/-- `irq1_handler_asm`, up to `iretq`. -/
def irq1Handler (c : IrqC W) (σ : IrqState W) : IrqState W :=
  run (irqCall c) popAll (endOfInterrupt
    (run (irqCall c) (pushAll ++ [.sub .rsp 8, .call .keyboardHandler, .add .rsp 8]) σ))

/-! ### The stack of a handler -/

variable {c : IrqC W} {σ : IrqState W} {v : Word} {vs : List Word}

/-- What an interrupt leaves on the stack, from its top on. -/
def Context.frame (x : Context) : List Word := [x.rip, x.cs, x.rflags, x.regs .rsp, x.ss]

theorem pushWord_top (h : σ.Top vs) (hn : vs.length < 2 ^ 60) (v : Word) :
    (pushWord σ v).Top (v :: vs) := by
  have hrsp : (pushWord σ v).regs .rsp = σ.regs .rsp - 8#64 := by
    simp [pushWord, Cpu.setReg, Cpu.setMem]
  rw [Cpu.Top, hrsp]
  refine ⟨Function.update_self .., ?_⟩
  rw [BitVec.sub_add_cancel]
  refine Quads.congr h fun i hi => Function.update_of_ne (fun hc => ?_) ..
  have := congrArg BitVec.toNat hc
  bv_omega

theorem pushWord_rest (σ : IrqState W) (v : Word) : (pushWord σ v).world = σ.world ∧
    ∀ r, r ≠ .rsp → (pushWord σ v).regs r = σ.regs r :=
  ⟨rfl, fun _ hr => Function.update_of_ne hr ..⟩

theorem pushWords_top : ∀ (us : List Word) {σ : IrqState W} {vs : List Word}, σ.Top vs →
    vs.length + us.length < 2 ^ 60 → (us.foldl pushWord σ).Top (us.reverse ++ vs) ∧
      (us.foldl pushWord σ).world = σ.world ∧
      ∀ r, r ≠ .rsp → (us.foldl pushWord σ).regs r = σ.regs r
  | [], _, _, h, _ => ⟨h, rfl, fun _ _ => rfl⟩
  | u :: us, σ, vs, h, hn => by
    rw [List.length_cons] at hn
    obtain ⟨htop, hworld, hregs⟩ := pushWords_top us (pushWord_top h (by omega) u)
      (by rw [List.length_cons]; omega)
    refine ⟨?_, hworld, fun r hr => (hregs r hr).trans ((pushWord_rest σ u).2 r hr)⟩
    rw [List.reverse_cons, List.append_assoc]
    exact htop

/-- A delivered interrupt: its frame is on the stack and the other registers are as they were. -/
theorem deliver_spec (stack : Word) (x : Context) (σ : IrqState W) :
    (deliver stack x σ).Top x.frame ∧ (deliver stack x σ).world = σ.world ∧
      ∀ r, r ≠ .rsp → (deliver stack x σ).regs r = x.regs r := by
  have hempty : ({ σ with regs := Function.update x.regs .rsp stack } : IrqState W).Top [] := trivial
  obtain ⟨htop, hworld, hregs⟩ := pushWords_top [x.ss, x.regs .rsp, x.rflags, x.cs, x.rip] hempty
    (by simp)
  exact ⟨htop, hworld, fun r hr => (hregs r hr).trans (Function.update_of_ne hr ..)⟩

theorem pushAll_spec {x : Context} (h : σ.Top x.frame) (hregs : ∀ r, r ≠ .rsp → σ.regs r = x.regs r) :
    let τ := run (irqCall c) pushAll σ
    τ.Top ((allRegs.map x.regs).reverse ++ x.frame) ∧ τ.world = σ.world := by
  obtain ⟨htop, -, hworld, -⟩ := Cpu.Top.pushes (irqCall c) (allRegs.map .reg) h
    (by simp [allRegs]) (by simp [allRegs, Context.frame])
  have hcode : pushAll = (allRegs.map Source.reg).map .push := by simp [pushAll]
  refine ⟨?_, by rw [hcode]; exact hworld⟩
  rw [hcode]
  have hvals : (allRegs.map Source.reg).map σ.value = allRegs.map x.regs := by
    rw [List.map_map]
    refine List.map_congr_left fun r hr => hregs r ?_
    rintro rfl
    exact absurd hr (by decide)
  rwa [hvals] at htop

/-- `POP_ALL` takes back what `PUSH_ALL` has put there, and `iretq` the rest. -/
theorem popAll_spec {x : Context} (h : σ.Top ((allRegs.map x.regs).reverse ++ x.frame)) :
    iretqContext (run (irqCall c) popAll σ) = x ∧ (run (irqCall c) popAll σ).world = σ.world := by
  obtain ⟨htop, -, hworld, hvals, -⟩ := Cpu.Top.pops (irqCall c)
    [Reg.r15, .r14, .r13, .r12, .r11, .r10, .r9, .r8, .rbp, .rdi, .rsi, .rdx, .rcx, .rbx, .rax] h
    (by simp [allRegs]) (by decide) (by decide)
  refine ⟨?_, hworld⟩
  change (run (irqCall c) popAll σ).Top x.frame at htop
  change List.map (run (irqCall c) popAll σ).regs _ = _ at hvals
  generalize run (irqCall c) popAll σ = τ at htop hvals
  simp only [allRegs, List.map_cons, List.map_nil, List.reverse_cons, List.reverse_nil, List.nil_append,
    List.cons_append, List.cons.injEq, and_true] at hvals
  obtain ⟨h15, h14, h13, h12, h11, h10, h9, h8, hbp, hdi, hsi, hdx, hcx, hbx, hax⟩ := hvals
  obtain ⟨hrip, hcs, hrflags, hrsp, hss, -⟩ := htop
  simp only [BitVec.add_assoc] at hrflags hrsp hss
  have hregs : Function.update τ.regs .rsp (τ.mem (τ.regs .rsp + 24#64)) = x.regs := by
    funext r
    cases r with
    | rsp => exact (Function.update_self ..).trans hrsp
    | rax => exact hax
    | rbx => exact hbx
    | rcx => exact hcx
    | rdx => exact hdx
    | rsi => exact hsi
    | rdi => exact hdi
    | rbp => exact hbp
    | r8 => exact h8
    | r9 => exact h9
    | r10 => exact h10
    | r11 => exact h11
    | r12 => exact h12
    | r13 => exact h13
    | r14 => exact h14
    | r15 => exact h15
  simp only [iretqContext, hregs]
  cases x
  congr

/-- What is on the stack above the top quadword is there after a call. -/
theorem irqCall_top (h : σ.Top (v :: vs)) (hn : vs.length ≤ irqSlots) (f : Handler) :
    ∃ v', (irqCall c f σ).Top (v' :: vs) := by
  cases f with
  | schedIrqFrame =>
    obtain ⟨v', h'⟩ := h.returned hn (by norm_num) (c.scratch .schedIrqFrame σ) _
    exact ⟨v', h'.setReg (by decide) _⟩
  | keyboardHandler | pageFaultHandler => exact h.returned hn (by norm_num) _ _

theorem irqCall_aligned (h : σ.Top vs) (hn : vs.length ≤ irqSlots) (f : Handler) :
    (run (irqCall c) [.sub .rsp 8, .call f, .add .rsp 8] σ).Top vs := by
  obtain ⟨v, h₁⟩ := Cpu.Top.sub (irqCall c) h
  obtain ⟨v', h₂⟩ := irqCall_top h₁ hn f
  exact Cpu.Top.add (irqCall c) h₂

theorem endOfInterrupt_top (h : σ.Top vs) : (endOfInterrupt σ).Top vs := by
  have hset := Cpu.Top.setReg h (r := .rax) (by decide) ((σ.regs .rax &&& ~~~0xFF#64) ||| 0x20#64)
  exact hset

/-- A store into the stack, of what is there already. -/
theorem setAt_same (h : σ.Top vs) {i : Nat} (imm : Nat) (hi : i < vs.length)
    (hv : vs[i] = BitVec.ofNat 64 imm) :
    (exec (irqCall c) (.setAt .rsp (8 * i) imm) σ).Top vs := by
  have hmem : (exec (irqCall c) (.setAt .rsp (8 * i) imm) σ).mem = σ.mem := by
    funext a
    simp only [exec, Cpu.setMem]
    by_cases ha : a = σ.regs .rsp + BitVec.ofNat 64 (8 * i)
    · rw [ha, Function.update_self, h.get hi, hv]
    · rw [Function.update_of_ne ha]
  have hrsp : (exec (irqCall c) (.setAt .rsp (8 * i) imm) σ).regs .rsp = σ.regs .rsp := rfl
  rw [Cpu.Top, hmem, hrsp]
  exact h

/-! ### What a handler leaves -/

/-- The user segments, in a context that is user code. -/
def Context.Segments (x : Context) : Prop := x.cs &&& 3#64 = 3#64 → x.cs = 0x23#64 ∧ x.ss = 0x1B#64

/-- The stack of a handler after `PUSH_ALL`. -/
abbrev Context.saved (x : Context) : List Word := (allRegs.map x.regs).reverse ++ x.frame

theorem Context.saved_length (x : Context) : x.saved.length = irqSlots := by
  simp [Context.saved, allRegs, Context.frame]

theorem irq0User_spec {x : Context} (h : σ.Top x.saved) (hcs : x.cs = 0x23#64) (hss : x.ss = 0x1B#64) :
    (irq0User c σ).Top x.saved ∧
      (irq0User c σ).world = { σ.world with ticks := σ.world.ticks + 1 } := by
  have hargs : (exec (irqCall c) (.mov .rdi .rsp) σ).Top x.saved := h.setReg (by decide) _
  have hcall := irqCall_aligned (c := c) hargs x.saved_length.le .schedIrqFrame
  rw [irq0User]
  refine ⟨?_, ?_⟩
  · split
    · exact hcall
    · have hfirst := setAt_same (c := c) hcall (i := 16) 0x23
        (by rw [x.saved_length]; norm_num) (by simpa [Context.saved, allRegs, Context.frame] using hcs)
      exact setAt_same (c := c) hfirst (i := 19) 0x1B
        (by rw [x.saved_length]; norm_num) (by simpa [Context.saved, allRegs, Context.frame] using hss)
  · split <;> rfl

/-- The timer: whatever it breaks into goes on with all its registers, a tick is counted if it was user
    code, and the interrupt controller gets its end of interrupt. -/
theorem irq0_transparent (c : IrqC W) (stack : Word) (x : Context) (σ : IrqState W) (hx : x.Segments) :
    let τ := irq0Handler c (deliver stack x σ)
    iretqContext τ = x ∧ τ.world =
      { σ.world with
        ticks := if x.cs &&& 3#64 = 3#64 then σ.world.ticks + 1 else σ.world.ticks
        ports := (0x20, 0x20) :: σ.world.ports } := by
  obtain ⟨hframe, hworld, hregs⟩ := deliver_spec stack x σ
  obtain ⟨hsaved, hworld₁⟩ := pushAll_spec (c := c) hframe hregs
  rw [hworld] at hworld₁
  intro τ
  have hτ : τ = irq0Handler c (deliver stack x σ) := rfl
  rw [irq0Handler, run_append] at hτ
  generalize run (irqCall c) pushAll (deliver stack x σ) = σ₁ at hsaved hworld₁ hτ
  have hcs : σ₁.mem (σ₁.regs .rsp + 128#64) = x.cs := by
    have := hsaved.get (i := 16) (by rw [x.saved_length]; norm_num)
    simpa [Context.saved, allRegs, Context.frame] using this
  generalize hσ₂ : run (irqCall c) [.loadAt .rax .rsp 128, .and .rax 3#64] σ₁ = σ₂ at hτ
  have hsaved₂ : σ₂.Top x.saved := by
    rw [← hσ₂]
    exact (hsaved.setReg (by decide) _).setReg (by decide) _
  have hrax : σ₂.regs .rax = x.cs &&& 3#64 := by
    rw [← hσ₂, ← hcs]
    rfl
  have hworld₂ : σ₂.world = σ.world := by rw [← hσ₂, ← hworld₁]; rfl
  rw [hrax] at hτ
  by_cases huser : x.cs &&& 3#64 = 3#64
  · obtain ⟨hcs, hss⟩ := hx huser
    obtain ⟨htop, hticks⟩ := irq0User_spec (c := c) hsaved₂ hcs hss
    rw [if_pos huser] at hτ ⊢
    obtain ⟨hback, hlast⟩ := popAll_spec (c := c) (endOfInterrupt_top htop)
    rw [← hτ] at hback hlast
    refine ⟨hback, hlast.trans ?_⟩
    simp only [endOfInterrupt, hticks, hworld₂]
  · rw [if_neg huser] at hτ ⊢
    obtain ⟨hback, hlast⟩ := popAll_spec (c := c) (endOfInterrupt_top hsaved₂)
    rw [← hτ] at hback hlast
    refine ⟨hback, hlast.trans ?_⟩
    simp only [endOfInterrupt, hworld₂]

/-- The keyboard: whatever it breaks into goes on with all its registers and segments. -/
theorem irq1_transparent (c : IrqC W) (stack : Word) (x : Context) (σ : IrqState W) :
    let τ := irq1Handler c (deliver stack x σ)
    iretqContext τ = x ∧ τ.world =
      { σ.world with ports := (0x20, 0x20) :: σ.world.ports, rest := c.keyboard σ.world.rest } := by
  obtain ⟨hframe, hworld, hregs⟩ := deliver_spec stack x σ
  obtain ⟨hsaved, hworld₁⟩ := pushAll_spec (c := c) hframe hregs
  rw [hworld] at hworld₁
  intro τ
  have hτ : τ = irq1Handler c (deliver stack x σ) := rfl
  rw [irq1Handler, run_append] at hτ
  generalize run (irqCall c) pushAll (deliver stack x σ) = σ₁ at hsaved hworld₁ hτ
  have htop := irqCall_aligned (c := c) hsaved x.saved_length.le .keyboardHandler
  obtain ⟨hback, hlast⟩ := popAll_spec (c := c) (endOfInterrupt_top htop)
  rw [← hτ] at hback hlast
  refine ⟨hback, hlast.trans ?_⟩
  rw [← hworld₁]
  rfl

/-! ### Any interrupts one after the other

    The gates clear the interrupt flag, so a handler is not interrupted itself. -/

/-- The two lines that have a handler. -/
inductive Irq
  | timer
  | keyboard
  deriving DecidableEq

/-- The handler of a line. -/
def irqHandler (c : IrqC W) : Irq → IrqState W → IrqState W
  | .timer => irq0Handler c
  | .keyboard => irq1Handler c

/-- Interrupts that break into a context one after the other, each with its line and the stack it is
    delivered on. -/
def interrupts (c : IrqC W) : List (Irq × Word) → Context → IrqState W → Context × IrqState W
  | [], x, σ => (x, σ)
  | (irq, stack) :: l, x, σ =>
    let τ := irqHandler c irq (deliver stack x σ)
    interrupts c l (iretqContext τ) τ

/-- What an interrupt does to the surroundings. -/
def irqEffect (c : IrqC W) (x : Context) (irq : Irq) (s : Surroundings W) : Surroundings W :=
  match irq with
  | .timer =>
    { s with
      ticks := if x.cs &&& 3#64 = 3#64 then s.ticks + 1 else s.ticks
      ports := (0x20, 0x20) :: s.ports }
  | .keyboard => { s with ports := (0x20, 0x20) :: s.ports, rest := c.keyboard s.rest }

/-- However often and on whatever stacks a context is interrupted, it goes on with the registers, flags
    and segments it had, and the interrupts have done to the surroundings what they should, in order. -/
theorem interrupts_transparent (c : IrqC W) (x : Context) (hx : x.Segments) (l : List (Irq × Word))
    (σ : IrqState W) :
    (interrupts c l x σ).1 = x ∧
      (interrupts c l x σ).2.world = l.foldl (fun s i => irqEffect c x i.1 s) σ.world := by
  induction l generalizing σ with
  | nil => exact ⟨rfl, rfl⟩
  | cons i l ih =>
    obtain ⟨irq, stack⟩ := i
    have hone : iretqContext (irqHandler c irq (deliver stack x σ)) = x ∧
        (irqHandler c irq (deliver stack x σ)).world = irqEffect c x irq σ.world := by
      cases irq with
      | timer => exact irq0_transparent c stack x σ hx
      | keyboard => exact irq1_transparent c stack x σ
    obtain ⟨hsame, hworld⟩ := hone
    simp only [interrupts, hsame, List.foldl_cons]
    rw [← hworld]
    exact ih _

/-- User code at address 0x400000, with nothing in its registers. -/
def shellContext : Context :=
  { regs := fun _ => 0, rip := 0x400000, cs := 0x23, rflags := 0x202, ss := 0x1B }

/-- A processor before the first tick, whose other C state is the number of keys that were pressed. -/
def firstTick : IrqState Nat :=
  { regs := fun _ => 0, data := fun l => l.elim, mem := fun _ => 0, world := ⟨0, [], 0⟩ }

/-- C functions that leave a 1 in every register. -/
def countKeys : IrqC Nat where
  scratch := fun _ σ => { σ with regs := fun _ => 1 }
  keyboard := Nat.succ

theorem interrupts_transparent_user : shellContext.Segments ∧
    (interrupts countKeys [(.timer, 0x9000), (.keyboard, 0x9000)] shellContext firstTick).1 = shellContext ∧
    (interrupts countKeys [(.timer, 0x9000), (.keyboard, 0x9000)] shellContext firstTick).2.world =
      ⟨1, [(0x20, 0x20), (0x20, 0x20)], 1⟩ := by
  have hx : shellContext.Segments := fun _ => ⟨rfl, rfl⟩
  obtain ⟨hsame, hworld⟩ := interrupts_transparent countKeys shellContext hx
    [(.timer, 0x9000), (.keyboard, 0x9000)] firstTick
  refine ⟨hx, hsame, hworld.trans ?_⟩
  rfl

end TypeOS.Entry
