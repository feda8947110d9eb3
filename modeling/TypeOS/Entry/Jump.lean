import TypeOS.Entry.Interrupt

/-! Leaving the straight line: `setjmp_asm` and `longjmp_asm`, and the way into a new program.

    `setjmp_asm` saves the stack pointer it is entered with, which points to its return address, and
    the address of its own `ret`. So a later jump does not come back with the return address that was
    there then: it pops whatever the quadword holds by now. A caller that goes on to call other
    functions at the same depth of its stack writes their return addresses to this very quadword, and
    the jump comes back behind the last of these calls. `proc_run_runnable` does so: it is resumed
    behind its call of `usermode_resume_task`. -/

namespace TypeOS.Entry

open Amd64

variable {W : Type}

/-- Code that uses no labels and calls nothing. -/
abbrev PlainCode : Type := List (Instr Empty Empty)

/-- A run of such code. -/
def runPlain (code : PlainCode) (σ : Cpu Empty W) : Cpu Empty W := run (fun f _ => f.elim) code σ

/-- `ret`: the state, and where it goes on. -/
def ret (σ : Cpu Empty W) : Cpu Empty W × Word :=
  (σ.setReg .rsp (σ.regs .rsp + 8#64), σ.mem (σ.regs .rsp))

/-- `call`, up to the first instruction of the function, from the instruction before `back`. -/
def callFrom (back : Word) (σ : Cpu Empty W) : Cpu Empty W :=
  (σ.setReg .rsp (σ.regs .rsp - 8#64)).setMem (σ.regs .rsp - 8#64) back

/-- The registers that `setjmp_asm` puts into its buffer. -/
def saveBuffer : PlainCode :=
  [.storeAt .rdi 0 .rbx, .storeAt .rdi 8 .rbp, .storeAt .rdi 16 .r12, .storeAt .rdi 24 .r13,
    .storeAt .rdi 32 .r14, .storeAt .rdi 40 .r15, .storeAt .rdi 48 .rsp]

/-- The registers that `longjmp_asm` takes from its buffer, and the value. -/
def loadBuffer : PlainCode :=
  [.loadAt .rbx .rdi 0, .loadAt .rbp .rdi 8, .loadAt .r12 .rdi 16, .loadAt .r13 .rdi 24,
    .loadAt .r14 .rdi 32, .loadAt .r15 .rdi 40, .loadAt .rsp .rdi 48, .mov .rax .rsi]

/-- `setjmp_asm`, whose `ret` is at the address `retAt`. -/
def setjmpAsm (retAt : Word) (σ : Cpu Empty W) : Cpu Empty W × Word :=
  let σ := (runPlain saveBuffer σ).setReg .rax retAt
  ret ((runPlain [.storeAt .rdi 56 .rax] σ).setReg .rax 0#64)

/-- `longjmp_asm`; the jump goes to the `ret` of `setjmp_asm` when the buffer says so. -/
def longjmpAsm (retAt : Word) (σ : Cpu Empty W) : Cpu Empty W × Word :=
  let σ := runPlain loadBuffer σ
  let σ := if σ.regs .rax = 0#64 then runPlain [.add .rax 1] σ else σ
  let target := σ.mem (σ.regs .rdi + 56#64)
  if target = retAt then ret σ else (σ, target)

/-- What `setjmp_asm` puts into the buffer. -/
def jumpBuffer (retAt : Word) (σ : Cpu Empty W) : List Word :=
  [σ.regs .rbx, σ.regs .rbp, σ.regs .r12, σ.regs .r13, σ.regs .r14, σ.regs .r15, σ.regs .rsp, retAt]

/-- The buffer does not lie over the return address, and both lie at multiples of 8, so that no quadword is
    partly over another. -/
structure Apart (σ : Cpu Empty W) : Prop where
  buffer : (σ.regs .rdi).toNat % 8 = 0
  stack : (σ.regs .rsp).toNat % 8 = 0
  apart : ∀ i < 8, σ.regs .rdi + BitVec.ofNat 64 (8 * i) ≠ σ.regs .rsp

variable {σ τ : Cpu Empty W} {retAt : Word}

theorem setjmpAsm_mem (retAt : Word) (σ : Cpu Empty W) :
    (setjmpAsm retAt σ).1.mem = storeQuads (jumpBuffer retAt σ) (σ.regs .rdi) σ.mem := by
  have hmem : (setjmpAsm retAt σ).1.mem =
      Function.update (Function.update (Function.update (Function.update (Function.update
        (Function.update (Function.update (Function.update σ.mem
          (σ.regs .rdi + 0#64) (σ.regs .rbx)) (σ.regs .rdi + 8#64) (σ.regs .rbp))
          (σ.regs .rdi + 16#64) (σ.regs .r12)) (σ.regs .rdi + 24#64) (σ.regs .r13))
          (σ.regs .rdi + 32#64) (σ.regs .r14)) (σ.regs .rdi + 40#64) (σ.regs .r15))
          (σ.regs .rdi + 48#64) (σ.regs .rsp)) (σ.regs .rdi + 56#64) retAt := rfl
  rw [hmem]
  simp only [jumpBuffer, storeQuads, BitVec.add_assoc, BitVec.add_zero]
  rfl

/-- The first return of `setjmp_asm`: to its caller, with 0, and the buffer is filled. -/
theorem setjmpAsm_spec (retAt : Word) (σ : Cpu Empty W) (ha : Apart σ) :
    let r := setjmpAsm retAt σ
    r.2 = σ.mem (σ.regs .rsp) ∧ r.1.regs .rax = 0#64 ∧ r.1.regs .rsp = σ.regs .rsp + 8#64 ∧
      (∀ reg : Reg, reg ≠ .rax → reg ≠ .rsp → r.1.regs reg = σ.regs reg) ∧
      Quads r.1.mem (σ.regs .rdi) (jumpBuffer retAt σ) := by
  intro r
  have hrip : r.2 = r.1.mem (σ.regs .rsp) := rfl
  refine ⟨?_, rfl, rfl, fun reg hrax hrsp => ?_, ?_⟩
  · rw [hrip, setjmpAsm_mem, storeQuads_other]
    intro i hi
    exact ha.apart i hi
  · cases reg <;> first | rfl | exact absurd rfl hrax | exact absurd rfl hrsp
  · rw [setjmpAsm_mem]
    exact quads_storeQuads (by simp [jumpBuffer])

theorem loadBuffer_spec (hb : Quads τ.mem (τ.regs .rdi) (jumpBuffer retAt σ)) :
    let ρ := runPlain loadBuffer τ
    (∀ r : Reg, r.preserved → ρ.regs r = σ.regs r) ∧ ρ.regs .rax = τ.regs .rsi ∧
      ρ.regs .rdi = τ.regs .rdi ∧ ρ.mem = τ.mem ∧ τ.mem (τ.regs .rdi + 56#64) = retAt := by
  obtain ⟨hbx, hbp, h12, h13, h14, h15, hsp, hret, -⟩ := hb
  simp only [BitVec.add_assoc] at h12 h13 h14 h15 hsp hret
  have hzero : τ.mem (τ.regs .rdi + 0#64) = σ.regs .rbx := by rw [BitVec.add_zero]; exact hbx
  refine ⟨fun r hr => ?_, rfl, rfl, rfl, hret⟩
  cases r with
  | rbx => exact hzero
  | rbp => exact hbp
  | rsp => exact hsp
  | r12 => exact h12
  | r13 => exact h13
  | r14 => exact h14
  | r15 => exact h15
  | _ => exact absurd hr Bool.false_ne_true

/-- `longjmp_asm` with a buffer that `setjmp_asm` has filled: the registers that a function preserves are
    those of then, and the `ret` pops what its return address has become. -/
theorem longjmpAsm_spec (hb : Quads τ.mem (τ.regs .rdi) (jumpBuffer retAt σ)) :
    let r := longjmpAsm retAt τ
    r.2 = τ.mem (σ.regs .rsp) ∧
      r.1.regs .rax = (if τ.regs .rsi = 0#64 then 1#64 else τ.regs .rsi) ∧
      r.1.regs .rsp = σ.regs .rsp + 8#64 ∧
      ∀ reg : Reg, reg.preserved → reg ≠ .rsp → r.1.regs reg = σ.regs reg := by
  intro r
  obtain ⟨hregs, hrax, hrdi, hmem, htarget⟩ := loadBuffer_spec hb
  have hr : r = longjmpAsm retAt τ := rfl
  rw [longjmpAsm] at hr
  generalize runPlain loadBuffer τ = ρ at hregs hrax hrdi hmem hr
  -- the value is made 1 when it is 0, and nothing else changes
  obtain ⟨ρ', hρ', hrax', hother, hmem'⟩ : ∃ ρ',
      (if ρ.regs .rax = 0#64 then runPlain [.add .rax 1] ρ else ρ) = ρ' ∧
      ρ'.regs .rax = (if τ.regs .rsi = 0#64 then 1#64 else τ.regs .rsi) ∧
      (∀ reg, reg ≠ Reg.rax → ρ'.regs reg = ρ.regs reg) ∧ ρ'.mem = ρ.mem := by
    refine ⟨_, rfl, ?_⟩
    rw [hrax]
    split
    · next h0 =>
      refine ⟨?_, fun reg hreg => Function.update_of_ne hreg .., rfl⟩
      change ρ.regs .rax + 1#64 = 1#64
      rw [hrax, h0]
      rfl
    · exact ⟨hrax, fun _ _ => rfl, rfl⟩
  rw [hρ', hmem', hmem, hother .rdi (by decide), hrdi, if_pos htarget] at hr
  rw [hr]
  refine ⟨?_, ?_, ?_, fun reg hreg hsp => ?_⟩
  · change ρ'.mem (ρ'.regs .rsp) = _
    rw [hmem', hmem, hother .rsp (by decide), hregs .rsp rfl]
  · exact hrax'
  · change ρ'.regs .rsp + 8#64 = _
    rw [hother .rsp (by decide), hregs .rsp rfl]
  · have hne : reg ≠ .rax := by
      rintro rfl
      cases hreg
    change Function.update ρ'.regs .rsp _ reg = _
    rw [Function.update_of_ne hsp, hother reg hne, hregs reg hreg]

/-- The second return of `setjmp_asm`: as long as the buffer is as it was filled, a jump arrives with the
    stack pointer and the preserved registers of the first return, with the value that is passed, and
    with 1 for 0. It arrives behind the last call that was made from the stack pointer of the first
    return, and where the first return did if there was none. -/
theorem setjmp_returns_twice (retAt : Word) (σ : Cpu Empty W) (ha : Apart σ) (τ : Cpu Empty W)
    (hdi : τ.regs .rdi = σ.regs .rdi)
    (hbuf : ∀ i < 8, τ.mem (σ.regs .rdi + BitVec.ofNat 64 (8 * i)) =
      (setjmpAsm retAt σ).1.mem (σ.regs .rdi + BitVec.ofNat 64 (8 * i))) :
    let first := setjmpAsm retAt σ
    let second := longjmpAsm retAt τ
    first.2 = σ.mem (σ.regs .rsp) ∧ first.1.regs .rax = 0#64 ∧
      second.1.regs .rax = (if τ.regs .rsi = 0#64 then 1#64 else τ.regs .rsi) ∧
      (∀ reg : Reg, reg.preserved → second.1.regs reg = first.1.regs reg) ∧
      (τ.mem (σ.regs .rsp) = σ.mem (σ.regs .rsp) → second.2 = first.2) ∧
      ∀ (ρ : Cpu Empty W) (back : Word), ρ.regs .rsp = first.1.regs .rsp →
        τ.mem (σ.regs .rsp) = (callFrom back ρ).mem (σ.regs .rsp) → second.2 = back := by
  intro first second
  obtain ⟨hrip, hrax, hrsp, hregs, hquads⟩ := setjmpAsm_spec retAt σ ha
  have hb : Quads τ.mem (τ.regs .rdi) (jumpBuffer retAt σ) := by
    rw [hdi]
    exact hquads.congr hbuf
  obtain ⟨hrip', hrax', hrsp', hregs'⟩ := longjmpAsm_spec hb
  refine ⟨hrip, hrax, hrax', fun reg hreg => ?_, fun hslot => ?_, fun ρ back hdepth hslot => ?_⟩
  · by_cases hsp : reg = .rsp
    · rw [hsp]
      exact hrsp'.trans hrsp.symm
    · have hne : reg ≠ .rax := by
        rintro rfl
        cases hreg
      exact (hregs' reg hreg hsp).trans (hregs reg hne hsp).symm
  · exact hrip'.trans (hslot.trans hrip.symm)
  · have hpushed : (callFrom back ρ).mem (σ.regs .rsp) = back := by
      have hat : σ.regs .rsp = ρ.regs .rsp - 8#64 := by
        rw [hdepth]
        exact (congrArg (· - 8#64) hrsp).trans (BitVec.add_sub_cancel ..) |>.symm
      rw [hat]
      exact Function.update_self ..
    exact hrip'.trans (hslot.trans hpushed)

/-- A processor with its stack at 0x1000 and a buffer at 0x2000. -/
def jumper : Cpu Empty Unit :=
  { regs := fun r => if r = .rdi then 0x2000 else if r = .rsp then 0x1000 else 0
    data := fun l => l.elim, mem := fun _ => 7, world := () }

theorem setjmp_returns_twice_jumper : Apart jumper ∧
    (longjmpAsm 0x400 (setjmpAsm 0x400 jumper).1).2 = (setjmpAsm 0x400 jumper).2 := by
  have ha : Apart jumper := by
    refine ⟨rfl, rfl, fun i hi => ?_⟩
    interval_cases i <;> decide
  have hslot : (setjmpAsm 0x400 jumper).1.mem (jumper.regs .rsp) = jumper.mem (jumper.regs .rsp) := by
    decide
  exact ⟨ha, (setjmp_returns_twice 0x400 jumper ha (setjmpAsm 0x400 jumper).1 rfl
    fun _ _ => rfl).2.2.2.2.1 hslot⟩

/-! ### Into a new program -/

/-- The labels that `enter_usermode` uses. -/
inductive SaveLabel
  | saveRip | saveRsp | saveArgc | saveArgv | saveEnvp | saveRflags | tssRsp0
  deriving DecidableEq

abbrev SaveCode : Type := List (Instr SaveLabel Empty)

def runSave (code : SaveCode) (σ : Cpu SaveLabel W) : Cpu SaveLabel W := run (fun f _ => f.elim) code σ

/-- The arguments go to the labels, and three of them on to the registers of `main`. -/
def saveArguments : SaveCode :=
  [.store .saveRip .rdi, .store .saveRsp .rsi, .store .saveArgc .rdx, .store .saveArgv .rcx,
    .store .saveEnvp .r8, .load .rdi .saveArgc, .load .rsi .saveArgv, .load .rdx .saveEnvp]

/-- The frame for `iretq`. -/
def pushEntry : SaveCode :=
  [.load .rsp .tssRsp0, .and .rsp (~~~0xF#64), .sub .rsp 40, .load .rax .saveRip, .storeAt .rsp 0 .rax,
    .setAt .rsp 8 0x23, .load .rax .saveRflags, .storeAt .rsp 16 .rax, .load .rax .saveRsp,
    .storeAt .rsp 24 .rax, .setAt .rsp 32 0x1B]

/-- `pushfq`, `pop rax` and the two bits that are set: what the flags must hold, and interrupts on. -/
def readFlags (flags : Word) (σ : Cpu SaveLabel W) : Cpu SaveLabel W :=
  let σ := σ.setMem (σ.regs .rsp - 8#64) flags
  σ.setReg .rax (σ.mem (σ.regs .rsp - 8#64) ||| 2#64 ||| 0x200#64)

/-- `enter_usermode` up to its `invlpg`. -/
def prepareEntry (flags : Word) (σ : Cpu SaveLabel W) : Cpu SaveLabel W :=
  let σ := runSave saveArguments σ
  let σ := readFlags flags (σ.setReg .rax ((σ.regs .rax &&& ~~~0xFFFF#64) ||| 0x1B#64))
  runSave [.store .saveRflags .rax, .load .rax .saveRip, .and .rax (~~~0xFFF#64)] σ

/-- `enter_usermode`, with the flags that `pushfq` pushes and the root that `cr3` holds: it is loaded
    again, which empties the translation caches. -/
def enterUsermode (flags cr3 : Word) (σ : Cpu SaveLabel W) : Context :=
  iretqContext ((runSave pushEntry (prepareEntry flags σ)).setReg .rax cr3)

theorem readFlags_spec (flags : Word) (σ : Cpu SaveLabel W) :
    (readFlags flags σ).regs .rax = flags ||| 0x202#64 ∧ (readFlags flags σ).data = σ.data ∧
      ∀ r, r ≠ .rax → (readFlags flags σ).regs r = σ.regs r := by
  refine ⟨?_, rfl, fun r hr => Function.update_of_ne hr ..⟩
  have hrax : (readFlags flags σ).regs .rax =
      Function.update σ.mem (σ.regs .rsp - 8#64) flags (σ.regs .rsp - 8#64) ||| 2#64 ||| 0x200#64 := rfl
  rw [hrax, Function.update_self, BitVec.or_assoc]
  rfl

theorem prepareEntry_spec (flags : Word) (σ : Cpu SaveLabel W) :
    let ρ := prepareEntry flags σ
    ρ.data .saveRip = σ.regs .rdi ∧ ρ.data .saveRsp = σ.regs .rsi ∧
      ρ.data .saveRflags = flags ||| 0x202#64 ∧
      ∀ r, r ≠ .rax → ρ.regs r = (runSave saveArguments σ).regs r := by
  intro ρ
  obtain ⟨hrax, hdata, hregs⟩ := readFlags_spec flags ((runSave saveArguments σ).setReg .rax
    (((runSave saveArguments σ).regs .rax &&& ~~~0xFFFF#64) ||| 0x1B#64))
  have hρ : ρ = runSave [.store .saveRflags .rax, .load .rax .saveRip, .and .rax (~~~0xFFF#64)]
    (readFlags flags ((runSave saveArguments σ).setReg .rax
      (((runSave saveArguments σ).regs .rax &&& ~~~0xFFFF#64) ||| 0x1B#64))) := rfl
  generalize readFlags flags _ = ν at hρ hrax hdata hregs
  have hρdata : ρ.data = Function.update ν.data .saveRflags (ν.regs .rax) := by
    rw [hρ]
    rfl
  have hargs : (runSave saveArguments σ).data .saveRip = σ.regs .rdi ∧
      (runSave saveArguments σ).data .saveRsp = σ.regs .rsi := ⟨rfl, rfl⟩
  refine ⟨?_, ?_, ?_, fun r hr => ?_⟩
  · rw [hρdata, Function.update_of_ne (by decide), hdata]
    exact hargs.1
  · rw [hρdata, Function.update_of_ne (by decide), hdata]
    exact hargs.2
  · rw [hρdata, Function.update_self, hrax]
  · have hone : ρ.regs r = ν.regs r := by
      rw [hρ]
      exact (Function.update_of_ne hr ..).trans (Function.update_of_ne hr ..)
    rw [hone, hregs r hr]
    exact Function.update_of_ne hr ..

/-- The five quadwords that `pushEntry` leaves at the top of the kernel stack. -/
theorem pushEntry_spec (σ : Cpu SaveLabel W) :
    let τ := runSave pushEntry σ
    Quads τ.mem (τ.regs .rsp)
      [σ.data .saveRip, 0x23#64, σ.data .saveRflags, σ.data .saveRsp, 0x1B#64] ∧
      ∀ r, r ≠ .rsp → r ≠ .rax → τ.regs r = σ.regs r := by
  intro τ
  refine ⟨?_, fun r hsp hax => ?_⟩
  · have hmem : τ.mem = storeQuads
        [σ.data .saveRip, 0x23#64, σ.data .saveRflags, σ.data .saveRsp, 0x1B#64] (τ.regs .rsp)
        σ.mem := by
      have hτ : τ.mem = Function.update (Function.update (Function.update (Function.update
          (Function.update σ.mem (τ.regs .rsp + 0#64) (σ.data .saveRip)) (τ.regs .rsp + 8#64) 0x23#64)
          (τ.regs .rsp + 16#64) (σ.data .saveRflags)) (τ.regs .rsp + 24#64) (σ.data .saveRsp))
          (τ.regs .rsp + 32#64) 0x1B#64 := rfl
      rw [hτ]
      simp only [storeQuads, BitVec.add_assoc, BitVec.add_zero]
      rfl
    rw [hmem]
    exact quads_storeQuads (by simp)
  · cases r <;> first | rfl | exact absurd rfl hsp | exact absurd rfl hax

/-- A new program starts at its entry point, on its stack, with interrupts on, the segments of user code,
    and `argc`, `argv` and `envp` in the registers of the first three arguments. In `rax` it finds the
    address of its page tables, and in the other registers what the kernel has there. -/
theorem enterUsermode_spec (flags cr3 : Word) (σ : Cpu SaveLabel W) :
    let x := enterUsermode flags cr3 σ
    x.rip = σ.regs .rdi ∧ x.regs .rsp = σ.regs .rsi ∧ x.regs .rdi = σ.regs .rdx ∧
      x.regs .rsi = σ.regs .rcx ∧ x.regs .rdx = σ.regs .r8 ∧ x.regs .rax = cr3 ∧
      (∀ r ∈ [Reg.rbx, .rcx, .rbp, .r8, .r9, .r10, .r11, .r12, .r13, .r14, .r15],
        x.regs r = σ.regs r) ∧
      x.rflags = flags ||| 0x202#64 ∧ x.cs = 0x23#64 ∧ x.ss = 0x1B#64 := by
  intro x
  obtain ⟨hrip, hrsp, hrflags, hregs⟩ := prepareEntry_spec flags σ
  have hρ : x = iretqContext ((runSave pushEntry (prepareEntry flags σ)).setReg .rax cr3) := rfl
  generalize prepareEntry flags σ = ρ at hρ hrip hrsp hrflags hregs
  obtain ⟨hframe, hother⟩ := pushEntry_spec ρ
  generalize runSave pushEntry ρ = τ at hρ hframe hother
  obtain ⟨hrip', hcs, hrflags', hrsp', hss, -⟩ := hframe
  simp only [BitVec.add_assoc] at hrflags' hrsp' hss
  have hkept : ∀ r, r ≠ .rsp → r ≠ .rax → x.regs r = (runSave saveArguments σ).regs r := by
    intro r hsp hax
    rw [hρ]
    change Function.update (Function.update τ.regs .rax cr3) .rsp _ r = _
    rw [Function.update_of_ne hsp, Function.update_of_ne hax, hother r hsp hax, hregs r hax]
  refine ⟨?_, ?_, hkept .rdi (by decide) (by decide), hkept .rsi (by decide) (by decide),
    hkept .rdx (by decide) (by decide), ?_, fun r hr => ?_, ?_, ?_, ?_⟩
  · rw [hρ]
    exact hrip'.trans hrip
  · rw [hρ]
    exact hrsp'.trans hrsp
  · rw [hρ]
    rfl
  · have hne : r ≠ .rsp ∧ r ≠ .rax ∧ r ≠ .rdi ∧ r ≠ .rsi ∧ r ≠ .rdx := by
      refine ⟨?_, ?_, ?_, ?_, ?_⟩ <;> rintro rfl <;> exact absurd hr (by decide)
    rw [hkept r hne.1 hne.2.1]
    cases r <;> first | rfl | simp at hne
  · rw [hρ]
    exact hrflags'.trans hrflags
  · rw [hρ]
    exact hcs
  · rw [hρ]
    exact hss

end TypeOS.Entry
