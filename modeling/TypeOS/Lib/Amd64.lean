import Mathlib.Tactic

/-! Straight-line amd64 code that calls functions of the System V ABI.

    Only whole quadwords are moved, so memory is a map from addresses to quadwords. Two of them at
    addresses that are no multiples of 8 may overlap in part, which such a map does not show: results
    about code that stores ask for such addresses, or take them from a stack that is. What a called
    function leaves in the registers and the memory that are not the caller's is taken from a machine
    that nothing is known about (`returned`). -/

namespace TypeOS.Amd64

abbrev Word : Type := BitVec 64

inductive Reg
  | rax | rbx | rcx | rdx | rsi | rdi | rbp | rsp
  | r8 | r9 | r10 | r11 | r12 | r13 | r14 | r15
  deriving DecidableEq, Repr

/-- The registers that a function leaves as they were. -/
def Reg.preserved : Reg → Bool
  | .rbx | .rbp | .rsp | .r12 | .r13 | .r14 | .r15 => true
  | _ => false

/-- What is pushed: a register or the quadword at a label. -/
inductive Source (L : Type)
  | reg (r : Reg)
  | label (l : L)

/-- Instructions, with the labels `L` of the data and the functions `F` that are called. -/
inductive Instr (L F : Type)
  | mov (dst src : Reg)
  | load (dst : Reg) (l : L)
  | store (l : L) (src : Reg)
  | loadAt (dst base : Reg) (offset : Nat)
  | storeAt (base : Reg) (offset : Nat) (src : Reg)
  | setAt (base : Reg) (offset imm : Nat)
  | push (src : Source L)
  | pop (dst : Reg)
  | add (dst : Reg) (imm : Nat)
  | sub (dst : Reg) (imm : Nat)
  | and (dst : Reg) (mask : Word)
  | call (f : F)

/-- The processor, and the world that the called functions work on. -/
structure Cpu (L W : Type) where
  regs : Reg → Word
  data : L → Word
  mem : Word → Word
  world : W

variable {L F W : Type} [DecidableEq L] {σ : Cpu L W} {m m' : Word → Word} {a : Word}
  {vs : List Word}

namespace Cpu

def setReg (σ : Cpu L W) (r : Reg) (v : Word) : Cpu L W := { σ with regs := Function.update σ.regs r v }

def setMem (σ : Cpu L W) (a v : Word) : Cpu L W := { σ with mem := Function.update σ.mem a v }

def value (σ : Cpu L W) : Source L → Word
  | .reg r => σ.regs r
  | .label l => σ.data l

end Cpu

/-- One instruction. -/
def exec (call : F → Cpu L W → Cpu L W) (i : Instr L F) (σ : Cpu L W) : Cpu L W :=
  match i with
  | .mov dst src => σ.setReg dst (σ.regs src)
  | .load dst l => σ.setReg dst (σ.data l)
  | .store l src => { σ with data := Function.update σ.data l (σ.regs src) }
  | .loadAt dst base offset => σ.setReg dst (σ.mem (σ.regs base + BitVec.ofNat 64 offset))
  | .storeAt base offset src => σ.setMem (σ.regs base + BitVec.ofNat 64 offset) (σ.regs src)
  | .setAt base offset imm =>
    σ.setMem (σ.regs base + BitVec.ofNat 64 offset) (BitVec.ofNat 64 imm)
  | .push src => (σ.setReg .rsp (σ.regs .rsp - 8#64)).setMem (σ.regs .rsp - 8#64) (σ.value src)
  | .pop dst => (σ.setReg .rsp (σ.regs .rsp + 8#64)).setReg dst (σ.mem (σ.regs .rsp))
  | .add dst imm => σ.setReg dst (σ.regs dst + BitVec.ofNat 64 imm)
  | .sub dst imm => σ.setReg dst (σ.regs dst - BitVec.ofNat 64 imm)
  | .and dst mask => σ.setReg dst (σ.regs dst &&& mask)
  | .call f => call f σ

def run (call : F → Cpu L W → Cpu L W) (code : List (Instr L F)) (σ : Cpu L W) : Cpu L W :=
  code.foldl (fun σ i => exec call i σ) σ

/-- The `n` quadwords above the top of the stack. -/
def InFrame (n : Nat) (rsp a : Word) : Prop := 8 ≤ (a - rsp).toNat ∧ (a - rsp).toNat ≤ 8 * n

instance (n : Nat) (rsp a : Word) : Decidable (InFrame n rsp a) :=
  inferInstanceAs (Decidable (_ ∧ _))

/-- The return of a function: the preserved registers and the `n` quadwords that the caller has on
    the stack, above its argument, are as before; the rest is as in `scratch`. -/
def returned (n : Nat) (scratch σ : Cpu L W) (world : W) : Cpu L W where
  regs r := if r.preserved then σ.regs r else scratch.regs r
  data := σ.data
  mem a := if InFrame n (σ.regs .rsp) a then σ.mem a else scratch.mem a
  world := world

variable (call : F → Cpu L W → Cpu L W)

@[simp] theorem run_nil : run call [] σ = σ := rfl

@[simp] theorem run_cons (i : Instr L F) (code : List (Instr L F)) :
    run call (i :: code) σ = run call code (exec call i σ) := rfl

theorem run_append (code code' : List (Instr L F)) :
    run call (code ++ code') σ = run call code' (run call code σ) := List.foldl_append ..

/-! ### Quadwords on the stack -/

/-- The quadwords from an address on. -/
def Quads (m : Word → Word) : Word → List Word → Prop
  | _, [] => True
  | a, v :: vs => m a = v ∧ Quads m (a + 8#64) vs

theorem Quads.congr (h : Quads m a vs)
    (hm : ∀ i < vs.length, m' (a + BitVec.ofNat 64 (8 * i)) = m (a + BitVec.ofNat 64 (8 * i))) :
    Quads m' a vs := by
  induction vs generalizing a with
  | nil => trivial
  | cons v vs ih =>
    refine ⟨?_, ih h.2 fun i hi => ?_⟩
    · have := hm 0 (Nat.zero_lt_succ _)
      simp only [Nat.mul_zero, BitVec.add_zero] at this
      exact this.trans h.1
    · have := hm (i + 1) (Nat.succ_lt_succ hi)
      rwa [Nat.mul_succ, Nat.add_comm, BitVec.ofNat_add, ← BitVec.add_assoc] at this

theorem Quads.get (h : Quads m a vs) {i : Nat} (hi : i < vs.length) :
    m (a + BitVec.ofNat 64 (8 * i)) = vs[i] := by
  induction vs generalizing a i with
  | nil => exact absurd hi (Nat.not_lt_zero i)
  | cons v vs ih =>
    cases i with
    | zero => simpa using h.1
    | succ i =>
      have := ih h.2 (Nat.lt_of_succ_lt_succ hi)
      rw [Nat.mul_succ, Nat.add_comm, BitVec.ofNat_add, ← BitVec.add_assoc]
      simpa using this

/-- The quadwords on the stack. -/
abbrev Cpu.Top (σ : Cpu L W) (vs : List Word) : Prop := Quads σ.mem (σ.regs .rsp) vs

theorem Cpu.Top.push (h : σ.Top vs) (hn : vs.length < 2 ^ 60) (s : Source L) :
    (exec call (.push s) σ).Top (σ.value s :: vs) := by
  have hrsp : (exec call (.push s) σ).regs .rsp = σ.regs .rsp - 8#64 := by
    simp [exec, Cpu.setReg, Cpu.setMem]
  rw [Cpu.Top, hrsp]
  refine ⟨Function.update_self .., ?_⟩
  rw [BitVec.sub_add_cancel]
  refine Quads.congr h fun i hi => Function.update_of_ne (fun hc => ?_) ..
  -- an address of the stack is not the one below it
  have := congrArg BitVec.toNat hc
  bv_omega

/-- Registers pushed one after the other lie on the stack in the opposite order. -/
theorem Cpu.Top.pushes : ∀ (ss : List (Source L)) {σ : Cpu L W} {vs : List Word}, σ.Top vs →
    (∀ s ∈ ss, s ≠ .reg .rsp) → vs.length + ss.length < 2 ^ 60 →
    let σ' := run call (ss.map .push) σ
    σ'.Top ((ss.map σ.value).reverse ++ vs) ∧ σ'.data = σ.data ∧ σ'.world = σ.world ∧
      ∀ r, r ≠ .rsp → σ'.regs r = σ.regs r
  | [], _, _, h, _, _ => ⟨h, rfl, rfl, fun _ _ => rfl⟩
  | s :: ss, σ, vs, h, hs, hn => by
    rw [List.length_cons] at hn
    obtain ⟨htop, hdata, hworld, hregs⟩ := pushes ss (Cpu.Top.push call h (by omega) s)
      (fun s' hs' => hs s' (List.mem_cons_of_mem _ hs')) (by rw [List.length_cons]; omega)
    have hregs₁ : ∀ r, r ≠ .rsp → (exec call (.push s) σ).regs r = σ.regs r :=
      fun r hr => Function.update_of_ne hr ..
    have hvalue : ∀ s' ∈ ss, (exec call (.push s) σ).value s' = σ.value s' := by
      intro s' hs'
      cases s' with
      | reg r =>
        refine hregs₁ r fun hr => hs (.reg r) (List.mem_cons_of_mem _ hs') ?_
        rw [hr]
      | label l => rfl
    refine ⟨?_, hdata, hworld, fun r hr => (hregs r hr).trans (hregs₁ r hr)⟩
    rw [List.map_congr_left hvalue] at htop
    simpa using htop

theorem Cpu.Top.pop {v : Word} (h : σ.Top (v :: vs)) {r : Reg} (hr : r ≠ .rsp) :
    (exec call (.pop r) σ).Top vs ∧ (exec call (.pop r) σ).regs r = v ∧
      ∀ r', r' ≠ r → r' ≠ .rsp → (exec call (.pop r) σ).regs r' = σ.regs r' := by
  have hrsp : (exec call (.pop r) σ).regs .rsp = σ.regs .rsp + 8#64 := by
    simp [exec, Cpu.setReg, Function.update_of_ne (Ne.symm hr)]
  refine ⟨?_, (Function.update_self ..).trans h.1, fun r' hr' hsp => ?_⟩
  · rw [Cpu.Top, hrsp]
    exact h.2
  · exact (Function.update_of_ne hr' ..).trans (Function.update_of_ne hsp ..)

/-- What is popped into different registers. -/
theorem Cpu.Top.pops : ∀ (rs : List Reg) {σ : Cpu L W} {us vs : List Word}, σ.Top (us ++ vs) →
    rs.length = us.length → rs.Nodup → .rsp ∉ rs →
    let σ' := run call (rs.map .pop) σ
    σ'.Top vs ∧ σ'.data = σ.data ∧ σ'.world = σ.world ∧ rs.map σ'.regs = us ∧
      ∀ r, r ∉ rs → r ≠ .rsp → σ'.regs r = σ.regs r
  | [], σ, us, vs, h, hlen, _, _ => by
    obtain rfl : us = [] := List.length_eq_zero_iff.mp hlen.symm
    exact ⟨h, rfl, rfl, rfl, fun _ _ _ => rfl⟩
  | r :: rs, σ, [], vs, h, hlen, _, _ => by simp at hlen
  | r :: rs, σ, u :: us, vs, h, hlen, hnd, hsp => by
    obtain ⟨hr, hnd⟩ := List.nodup_cons.mp hnd
    rw [List.mem_cons, not_or] at hsp
    obtain ⟨htop, hval, hother⟩ := Cpu.Top.pop call h (Ne.symm hsp.1)
    obtain ⟨htop', hdata, hworld, hvals, hother'⟩ := pops rs htop (by simpa using hlen) hnd hsp.2
    refine ⟨htop', hdata, hworld, ?_, fun r' hr' hne => ?_⟩
    · rw [List.map_cons, List.cons.injEq]
      exact ⟨(hother' r hr (Ne.symm hsp.1)).trans hval, hvals⟩
    · rw [List.mem_cons, not_or] at hr'
      exact (hother' r' hr'.2 hne).trans (hother r' hr'.1 hne)

omit [DecidableEq L] in
theorem Cpu.Top.setReg (h : σ.Top vs) {r : Reg} (hr : r ≠ .rsp) (v : Word) : (σ.setReg r v).Top vs := by
  have hrsp : (σ.setReg r v).regs .rsp = σ.regs .rsp := Function.update_of_ne (Ne.symm hr) ..
  rw [Cpu.Top, hrsp]
  exact h

/-- A quadword of room on the stack. -/
theorem Cpu.Top.sub (h : σ.Top vs) : ∃ v, (exec call (.sub .rsp 8) σ).Top (v :: vs) := by
  have hrsp : (exec call (.sub .rsp 8) σ).regs .rsp = σ.regs .rsp - 8#64 := by
    simp [exec, Cpu.setReg]
  refine ⟨σ.mem (σ.regs .rsp - 8#64), ?_⟩
  rw [Cpu.Top, hrsp]
  refine ⟨rfl, ?_⟩
  rw [BitVec.sub_add_cancel]
  exact h

theorem Cpu.Top.add {v : Word} (h : σ.Top (v :: vs)) : (exec call (.add .rsp 8) σ).Top vs := by
  have hrsp : (exec call (.add .rsp 8) σ).regs .rsp = σ.regs .rsp + 8#64 := by
    simp [exec, Cpu.setReg]
  rw [Cpu.Top, hrsp]
  exact h.2

/-- A store to the top of the stack. -/
theorem Cpu.Top.storeAt {v : Word} (h : σ.Top (v :: vs)) (hn : vs.length < 2 ^ 60) (r : Reg) :
    (exec call (.storeAt .rsp 0 r) σ).Top (σ.regs r :: vs) := by
  have hmem : (exec call (.storeAt .rsp 0 r) σ).mem =
      Function.update σ.mem (σ.regs .rsp) (σ.regs r) := by
    simp [exec, Cpu.setMem]
  refine ⟨by rw [hmem]; exact Function.update_self .., ?_⟩
  rw [hmem]
  refine Quads.congr h.2 fun i hi => Function.update_of_ne (fun hc => ?_) ..
  have hc : σ.regs .rsp + 8#64 + BitVec.ofNat 64 (8 * i) = σ.regs .rsp := hc
  have hoff : 8#64 + BitVec.ofNat 64 (8 * i) = 0#64 := by
    rw [BitVec.add_assoc, BitVec.add_comm] at hc
    have := congrArg (· - σ.regs .rsp) hc
    simpa only [BitVec.add_sub_cancel, BitVec.sub_self] using this
  have := congrArg BitVec.toNat hoff
  simp only [BitVec.toNat_add, BitVec.toNat_ofNat] at this
  omega

omit [DecidableEq L] in
/-- A call leaves what the caller has on the stack, above the quadword at its top. -/
theorem Cpu.Top.returned {n : Nat} {v : Word} (h : σ.Top (v :: vs)) (hn : vs.length ≤ n)
    (hn' : n < 2 ^ 60) (scratch : Cpu L W) (world : W) :
    ∃ v', (returned n scratch σ world).Top (v' :: vs) := by
  refine ⟨_, rfl, Quads.congr h.2 fun i hi => if_pos ?_⟩
  have hoff : (σ.regs .rsp + 8#64 + BitVec.ofNat 64 (8 * i) - σ.regs .rsp).toNat = 8 + 8 * i := by
    rw [BitVec.add_assoc, BitVec.add_comm (σ.regs .rsp), BitVec.add_sub_cancel]
    simp only [BitVec.toNat_add, BitVec.toNat_ofNat]
    omega
  change 8 ≤ (σ.regs .rsp + 8#64 + BitVec.ofNat 64 (8 * i) - σ.regs .rsp).toNat ∧
    (σ.regs .rsp + 8#64 + BitVec.ofNat 64 (8 * i) - σ.regs .rsp).toNat ≤ 8 * n
  rw [hoff]
  omega

/-! ### Quadwords stored one after the other -/

/-- A memory with quadwords stored from an address on. -/
def storeQuads : List Word → Word → (Word → Word) → Word → Word
  | [], _, m => m
  | v :: vs, a, m => storeQuads vs (a + 8#64) (Function.update m a v)

/-- Other addresses are left alone. -/
theorem storeQuads_other {x : Word} (h : ∀ i < vs.length, a + BitVec.ofNat 64 (8 * i) ≠ x) :
    storeQuads vs a m x = m x := by
  induction vs generalizing a m with
  | nil => rfl
  | cons v vs ih =>
    have hfirst : x ≠ a := by
      have := h 0 (Nat.zero_lt_succ _)
      simp only [Nat.mul_zero, BitVec.add_zero] at this
      exact Ne.symm this
    rw [storeQuads, ih, Function.update_of_ne hfirst]
    intro i hi
    have := h (i + 1) (Nat.succ_lt_succ hi)
    rwa [Nat.mul_succ, Nat.add_comm, BitVec.ofNat_add, ← BitVec.add_assoc] at this

theorem quads_storeQuads (h : vs.length < 2 ^ 60) : Quads (storeQuads vs a m) a vs := by
  induction vs generalizing a m with
  | nil => trivial
  | cons v vs ih =>
    rw [List.length_cons] at h
    refine ⟨?_, ih (by omega)⟩
    rw [storeQuads, storeQuads_other, Function.update_self]
    intro i hi hc
    have := congrArg BitVec.toNat hc
    bv_omega

end TypeOS.Amd64
