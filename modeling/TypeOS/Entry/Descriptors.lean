import TypeOS.Sched.Keyboard

/-! The tables that the processor and the interrupt controllers work from: what `gdt_init` and
    `idt_init` put into them, and what is read out of them again.

    A descriptor is scattered over packed fields; the processor sees a quadword. So each table has two
    sides here: the structs as the C code fills them, and the meaning that the processor gives the
    quadwords. -/

namespace TypeOS.Entry

/-! ### Segments -/

/-- `struct gdt_entry`. -/
structure GdtEntry where
  limitLow : BitVec 16
  baseLow : BitVec 16
  baseMid : BitVec 8
  access : BitVec 8
  granularity : BitVec 8
  baseHigh : BitVec 8
  deriving DecidableEq

/-- `gdt`, of `GDT_ENTRIES` entries. -/
abbrev Gdt : Type := Fin 7 → GdtEntry

/-- `gdt_set_entry`. -/
def gdtSetEntry (index : Fin 7) (base limit : BitVec 32) (access gran : BitVec 8) (gdt : Gdt) : Gdt :=
  Function.update gdt index
    { limitLow := (limit &&& 0xFFFF#32).setWidth 16
      baseLow := (base &&& 0xFFFF#32).setWidth 16
      baseMid := ((base >>> 16) &&& 0xFF#32).setWidth 8
      access := access
      granularity := ((limit >>> 16) &&& 0x0F#32).setWidth 8 ||| gran
      baseHigh := ((base >>> 24) &&& 0xFF#32).setWidth 8 }

/-- `gdt_set_tss`: the descriptor lies over two entries, and its last two fields over the second. -/
def gdtSetTss (index : Fin 6) (base : BitVec 64) (limit : BitVec 32) (gdt : Gdt) : Gdt :=
  let baseUpper : BitVec 32 := (base >>> 32).setWidth 32
  Function.update (Function.update gdt index.castSucc
    { limitLow := (limit &&& 0xFFFF#32).setWidth 16
      baseLow := (base &&& 0xFFFF#64).setWidth 16
      baseMid := ((base >>> 16) &&& 0xFF#64).setWidth 8
      access := 0x89
      granularity := ((limit >>> 16) &&& 0x0F#32).setWidth 8
      baseHigh := ((base >>> 24) &&& 0xFF#64).setWidth 8 }) index.succ
    { limitLow := baseUpper.extractLsb' 0 16, baseLow := baseUpper.extractLsb' 16 16
      baseMid := 0, access := 0, granularity := 0, baseHigh := 0 }

/-- An entry as the processor reads it, the lowest byte first. -/
def GdtEntry.quad (e : GdtEntry) : BitVec 64 :=
  e.baseHigh ++ e.granularity ++ e.access ++ e.baseMid ++ e.baseLow ++ e.limitLow

/-- What the processor takes a descriptor for. -/
structure Segment where
  base : BitVec 32
  limit : BitVec 20
  access : BitVec 8
  flags : BitVec 4
  deriving DecidableEq

/-- The fields of a descriptor. -/
def segment (q : BitVec 64) : Segment where
  base := q.extractLsb' 56 8 ++ q.extractLsb' 16 24
  limit := q.extractLsb' 48 4 ++ q.extractLsb' 0 16
  access := q.extractLsb' 40 8
  flags := q.extractLsb' 52 4

/-- The base of a system descriptor, which takes two entries. -/
def systemBase (q q' : BitVec 64) : BitVec 64 := q'.extractLsb' 0 32 ++ (segment q).base

/-- The fields of an entry come out of its quadword. -/
theorem segment_quad (e : GdtEntry) : segment e.quad =
    { base := e.baseHigh ++ (e.baseMid ++ e.baseLow)
      limit := e.granularity.extractLsb' 0 4 ++ e.limitLow
      access := e.access
      flags := e.granularity.extractLsb' 4 4 } := by
  simp only [segment, Segment.mk.injEq]
  refine ⟨?_, ?_, ?_, ?_⟩ <;>
    · ext i hi
      simp only [GdtEntry.quad, BitVec.getElem_append, BitVec.getElem_extractLsb',
        BitVec.getLsbD_append]
      grind

/-- The low bits that a mask keeps. -/
theorem low_masked {n m : Nat} (x mask : BitVec n) (h : mask.setWidth m = BitVec.allOnes m) :
    (x &&& mask).setWidth m = x.setWidth m := by
  rw [BitVec.setWidth_and, h, BitVec.and_allOnes]

/-- The parts of a base, put together again. -/
theorem base_parts {n : Nat} (base : BitVec n) :
    ((base >>> 24).setWidth 8 : BitVec 8) ++ ((base >>> 16).setWidth 8 ++ base.setWidth 16) =
      base.setWidth 32 := by
  ext i hi
  simp only [BitVec.getElem_append, BitVec.getElem_setWidth, BitVec.getLsbD_ushiftRight]
  grind

/-- The upper and the lower part of a limit. -/
theorem limit_parts (limit : BitVec 32) (gran : BitVec 8) (hgran : gran &&& 0x0F#8 = 0#8) :
    (((limit >>> 16) &&& 0x0F#32).setWidth 8 ||| gran).extractLsb' 0 4 ++ limit.setWidth 16 =
      limit.setWidth 20 ∧
    (((limit >>> 16) &&& 0x0F#32).setWidth 8 ||| gran).extractLsb' 4 4 = gran.extractLsb' 4 4 := by
  have hlow : gran.extractLsb' 0 4 = 0#4 := by
    have := congrArg (BitVec.extractLsb' 0 4) hgran
    rw [BitVec.extractLsb'_and, show (0x0F#8).extractLsb' 0 4 = BitVec.allOnes 4 from rfl,
      BitVec.and_allOnes] at this
    exact this
  have hhigh : (((limit >>> 16) &&& 0x0F#32).setWidth 8 : BitVec 8).extractLsb' 4 4 = 0#4 := by
    rw [BitVec.setWidth_and, BitVec.extractLsb'_and,
      show ((0x0F#32).setWidth 8 : BitVec 8).extractLsb' 4 4 = 0#4 from rfl, BitVec.and_zero]
  refine ⟨?_, ?_⟩
  · rw [BitVec.extractLsb'_or, hlow, BitVec.or_zero, BitVec.setWidth_and, BitVec.extractLsb'_and,
      show ((0x0F#32).setWidth 8 : BitVec 8).extractLsb' 0 4 = BitVec.allOnes 4 from rfl,
      BitVec.and_allOnes]
    ext i hi
    simp only [BitVec.getElem_append, BitVec.getElem_setWidth, BitVec.getElem_extractLsb',
      BitVec.getLsbD_setWidth, BitVec.getLsbD_ushiftRight]
    grind
  · rw [BitVec.extractLsb'_or, hhigh, BitVec.zero_or]

/-- What `gdt_set_entry` puts in is what the processor reads out; the limit has 20 bits. -/
theorem gdtSetEntry_segment (index : Fin 7) (base limit : BitVec 32) (access gran : BitVec 8)
    (gdt : Gdt) (hgran : gran &&& 0x0F#8 = 0#8) :
    segment (gdtSetEntry index base limit access gran gdt index).quad =
      { base := base, limit := limit.setWidth 20, access := access, flags := gran.extractLsb' 4 4 } := by
  obtain ⟨hlimit, hflags⟩ := limit_parts limit gran hgran
  rw [gdtSetEntry, Function.update_self, segment_quad]
  simp only [Segment.mk.injEq, true_and]
  refine ⟨?_, ?_, hflags⟩
  · rw [low_masked _ _ rfl, low_masked _ _ rfl, low_masked _ _ rfl, base_parts]
    exact BitVec.setWidth_eq base
  · rw [low_masked limit _ rfl]
    exact hlimit

/-- The two entries of a task state segment give back its base, all 64 bits of it. -/
theorem gdtSetTss_segment (index : Fin 6) (base : BitVec 64) (limit : BitVec 32) (gdt : Gdt) :
    let g := gdtSetTss index base limit gdt
    segment (g index.castSucc).quad =
      { base := base.setWidth 32, limit := limit.setWidth 20, access := 0x89, flags := 0 } ∧
    systemBase (g index.castSucc).quad (g index.succ).quad = base := by
  intro g
  have hne : index.castSucc ≠ index.succ := (Fin.castSucc_lt_succ).ne
  obtain ⟨hlimit, hflags⟩ := limit_parts limit 0#8 rfl
  rw [BitVec.or_zero] at hlimit hflags
  have hfirst : segment (g index.castSucc).quad =
      { base := base.setWidth 32, limit := limit.setWidth 20, access := 0x89, flags := 0 } := by
    have hg : g index.castSucc = _ := Function.update_of_ne hne ..
    rw [hg, Function.update_self, segment_quad]
    simp only [Segment.mk.injEq, true_and]
    refine ⟨?_, ?_, ?_⟩
    · rw [low_masked _ _ rfl, low_masked _ _ rfl, low_masked _ _ rfl, base_parts]
    · rw [low_masked limit _ rfl]
      exact hlimit
    · exact hflags
  refine ⟨hfirst, ?_⟩
  rw [systemBase, hfirst]
  have hg : g index.succ = _ := Function.update_self ..
  rw [hg]
  ext i hi
  simp only [GdtEntry.quad, BitVec.getElem_append, BitVec.getElem_extractLsb', BitVec.getLsbD_append,
    BitVec.getLsbD_extractLsb', BitVec.getElem_setWidth, BitVec.getLsbD_setWidth,
    BitVec.getLsbD_ushiftRight]
  grind

/-- `gdt_init`, as far as `gdt_load`; `tss` is the address of the task state segment. -/
def gdtInit (tss : BitVec 64) (gdt : Gdt) : Gdt :=
  let gdt := gdtSetEntry 0 0 0 0 0 gdt
  let gdt := gdtSetEntry 1 0 0 0x9A 0xA0 gdt
  let gdt := gdtSetEntry 2 0 0 0x92 0xC0 gdt
  let gdt := gdtSetEntry 3 0 0 0xF2 0xC0 gdt
  let gdt := gdtSetEntry 4 0 0 0xFA 0xA0 gdt
  gdtSetTss 5 tss (104 - 1) gdt

/-- `GDT_KERNEL_CS`. -/
abbrev gdtKernelCs : BitVec 16 := 0x08
/-- `GDT_KERNEL_DS`. -/
abbrev gdtKernelDs : BitVec 16 := 0x10
/-- `GDT_USER_DS`. -/
abbrev gdtUserDs : BitVec 16 := 0x1B
/-- `GDT_USER_CS`. -/
abbrev gdtUserCs : BitVec 16 := 0x23
/-- The selector that `ltr` loads. -/
abbrev gdtTss : BitVec 16 := 0x28

/-- The descriptor that a selector selects, within the limit that `gdt_load` sets. -/
def selected (gdt : Gdt) (selector : BitVec 16) : Option Segment :=
  if h : (selector >>> 3).toNat < 7 then some (segment (gdt ⟨(selector >>> 3).toNat, h⟩).quad) else none

/-- The privilege level of a selector. -/
def requested (selector : BitVec 16) : Nat := (selector &&& 3).toNat

/-- The privilege level of a descriptor. -/
def Segment.dpl (s : Segment) : Nat := (s.access.extractLsb' 5 2).toNat

/-- A present code segment of 64-bit code. -/
def Segment.Code64 (s : Segment) : Prop :=
  s.access.extractLsb' 7 1 = 1 ∧ s.access.extractLsb' 3 2 = 3 ∧ s.flags.extractLsb' 1 2 = 1

/-- A present data segment that can be written. -/
def Segment.Data (s : Segment) : Prop :=
  s.access.extractLsb' 7 1 = 1 ∧ s.access.extractLsb' 3 2 = 2 ∧ s.access.extractLsb' 1 1 = 1

instance (s : Segment) : Decidable s.Code64 := inferInstanceAs (Decidable (_ ∧ _))
instance (s : Segment) : Decidable s.Data := inferInstanceAs (Decidable (_ ∧ _))

/-- `wrmsr`: the value goes through two halves. -/
def wrmsr (value : BitVec 64) : BitVec 64 :=
  let low : BitVec 32 := value.setWidth 32
  let high : BitVec 32 := (value >>> 32).setWidth 32
  high ++ low

/-- The value that `gdt_init` writes to the register STAR. -/
def star : BitVec 64 :=
  wrmsr ((gdtUserCs.setWidth 64 - 16#64) <<< 48 ||| gdtKernelCs.setWidth 64 <<< 32)

/-- The segments that `syscall` loads. -/
def syscallCs (star : BitVec 64) : BitVec 16 := star.extractLsb' 32 16 &&& 0xFFFC
def syscallSs (star : BitVec 64) : BitVec 16 := star.extractLsb' 32 16 + 8

/-- The segments that a 64-bit `sysret` loads. -/
def sysretCs (star : BitVec 64) : BitVec 16 := (star.extractLsb' 48 16 + 16) ||| 3
def sysretSs (star : BitVec 64) : BitVec 16 := (star.extractLsb' 48 16 + 8) ||| 3

/-- The entries before the task state segment after `gdt_init`. -/
theorem gdtInit_segments (tss : BitVec 64) (gdt : Gdt) :
    segment (gdtInit tss gdt 1).quad = ⟨0, 0, 0x9A, 0xA⟩ ∧
    segment (gdtInit tss gdt 2).quad = ⟨0, 0, 0x92, 0xC⟩ ∧
    segment (gdtInit tss gdt 3).quad = ⟨0, 0, 0xF2, 0xC⟩ ∧
    segment (gdtInit tss gdt 4).quad = ⟨0, 0, 0xFA, 0xA⟩ := by
  refine ⟨?_, ?_, ?_, ?_⟩
  · exact gdtSetEntry_segment 1 0 0 0x9A 0xA0 gdt rfl
  · exact gdtSetEntry_segment 2 0 0 0x92 0xC0 gdt rfl
  · exact gdtSetEntry_segment 3 0 0 0xF2 0xC0 gdt rfl
  · exact gdtSetEntry_segment 4 0 0 0xFA 0xA0 gdt rfl

/-- The task state segment after `gdt_init`. -/
theorem gdtInit_tss (tss : BitVec 64) (gdt : Gdt) :
    segment (gdtInit tss gdt 5).quad = ⟨tss.setWidth 32, 103, 0x89, 0⟩ ∧
      systemBase (gdtInit tss gdt 5).quad (gdtInit tss gdt 6).quad = tss :=
  gdtSetTss_segment 5 tss (104 - 1) _

/-- Whatever is in the table before and wherever the task state segment lies: each selector of the kernel
    finds the segment it is meant to name, with the privilege it asks for, the task register gets the
    address of the segment, and `syscall` and `sysret` load the segments of the kernel and of user
    code. -/
theorem gdt_selectors (tss : BitVec 64) (gdt : Gdt) :
    let g := gdtInit tss gdt
    (∃ s, selected g gdtKernelCs = some s ∧ s.Code64 ∧ s.dpl = 0 ∧ requested gdtKernelCs = 0) ∧
    (∃ s, selected g gdtKernelDs = some s ∧ s.Data ∧ s.dpl = 0 ∧ requested gdtKernelDs = 0) ∧
    (∃ s, selected g gdtUserDs = some s ∧ s.Data ∧ s.dpl = 3 ∧ requested gdtUserDs = 3) ∧
    (∃ s, selected g gdtUserCs = some s ∧ s.Code64 ∧ s.dpl = 3 ∧ requested gdtUserCs = 3) ∧
    (∃ s, selected g gdtTss = some s ∧ s.access = 0x89 ∧ s.limit = 103 ∧
      systemBase (g 5).quad (g 6).quad = tss) ∧
    syscallCs star = gdtKernelCs ∧ syscallSs star = gdtKernelDs ∧
    sysretCs star = gdtUserCs ∧ sysretSs star = gdtUserDs := by
  intro g
  obtain ⟨h₁, h₂, h₃, h₄⟩ := gdtInit_segments tss gdt
  obtain ⟨h₅, hbase⟩ := gdtInit_tss tss gdt
  have hselected : selected g gdtKernelCs = some (segment (g 1).quad) ∧
      selected g gdtKernelDs = some (segment (g 2).quad) ∧
      selected g gdtUserDs = some (segment (g 3).quad) ∧
      selected g gdtUserCs = some (segment (g 4).quad) ∧
      selected g gdtTss = some (segment (g 5).quad) := ⟨rfl, rfl, rfl, rfl, rfl⟩
  obtain ⟨hkcs, hkds, huds, hucs, htss⟩ := hselected
  rw [h₁] at hkcs
  rw [h₂] at hkds
  rw [h₃] at huds
  rw [h₄] at hucs
  rw [h₅] at htss
  exact ⟨⟨_, hkcs, by decide, rfl, rfl⟩, ⟨_, hkds, by decide, rfl, rfl⟩, ⟨_, huds, by decide, rfl, rfl⟩,
    ⟨_, hucs, by decide, rfl, rfl⟩, ⟨_, htss, rfl, rfl, hbase⟩, by decide, by decide, by decide,
    by decide⟩

/-! ### Interrupts -/

/-- `struct idt_entry`. -/
structure IdtEntry where
  isrLow : BitVec 16
  kernelCs : BitVec 16
  ist : BitVec 8
  attributes : BitVec 8
  isrMid : BitVec 16
  isrHigh : BitVec 32
  reserved : BitVec 32
  deriving DecidableEq

/-- `idt`. -/
abbrev Idt : Type := BitVec 8 → IdtEntry

/-- `idt` as the loader leaves it. -/
def Idt.zero : Idt := fun _ => ⟨0, 0, 0, 0, 0, 0, 0⟩

/-- `idt_set_descriptor`. -/
def idtSetDescriptor (vector : BitVec 8) (isr : BitVec 64) (flags : BitVec 8) (idt : Idt) : Idt :=
  Function.update idt vector
    { isrLow := (isr &&& 0xFFFF#64).setWidth 16
      kernelCs := 0x08
      ist := 0
      attributes := flags
      isrMid := ((isr >>> 16) &&& 0xFFFF#64).setWidth 16
      isrHigh := ((isr >>> 32) &&& 0xFFFFFFFF#64).setWidth 32
      reserved := 0 }

/-- `idt_set_handler`. -/
def idtSetHandler (num : BitVec 8) (handler : BitVec 64) : Idt → Idt :=
  idtSetDescriptor num handler 0x8E

/-- What the processor takes an entry for. -/
structure Gate where
  present : Bool
  dpl : BitVec 2
  kind : BitVec 4
  selector : BitVec 16
  stack : BitVec 3
  offset : BitVec 64
  deriving DecidableEq

/-- The fields of a gate. -/
def IdtEntry.gate (e : IdtEntry) : Gate where
  present := e.attributes.getLsbD 7
  dpl := e.attributes.extractLsb' 5 2
  kind := e.attributes.extractLsb' 0 4
  selector := e.kernelCs
  stack := e.ist.extractLsb' 0 3
  offset := e.isrHigh ++ (e.isrMid ++ e.isrLow)

/-- An interrupt gate of the kernel: it clears the interrupt flag, and user code cannot call it. -/
def interruptGate (offset : BitVec 64) : Gate :=
  { present := true, dpl := 0, kind := 0xE, selector := gdtKernelCs, stack := 0, offset := offset }

/-- The parts of a handler's address, put together again. -/
theorem isr_parts (isr : BitVec 64) :
    ((isr >>> 32).setWidth 32 : BitVec 32) ++ ((isr >>> 16).setWidth 16 ++ isr.setWidth 16) = isr := by
  ext i hi
  simp only [BitVec.getElem_append, BitVec.getElem_setWidth, BitVec.getLsbD_ushiftRight]
  grind

/-- A handler that is set is the one that the processor calls. -/
theorem idtSetHandler_gate (num : BitVec 8) (handler : BitVec 64) (idt : Idt) :
    (idtSetHandler num handler idt num).gate = interruptGate handler := by
  rw [idtSetHandler, idtSetDescriptor, Function.update_self]
  have hoffset : ((handler >>> 32) &&& 0xFFFFFFFF#64).setWidth 32 ++
      ((((handler >>> 16) &&& 0xFFFF#64).setWidth 16 : BitVec 16) ++
        ((handler &&& 0xFFFF#64).setWidth 16 : BitVec 16)) = handler := by
    rw [low_masked _ _ rfl, low_masked _ _ rfl, low_masked _ _ rfl, isr_parts]
  simp only [IdtEntry.gate, interruptGate, Gate.mk.injEq]
  exact ⟨by decide, by decide, by decide, trivial, by decide, hoffset⟩

theorem idtSetHandler_other {num v : BitVec 8} (h : v ≠ num) (handler : BitVec 64) (idt : Idt) :
    idtSetHandler num handler idt v = idt v := Function.update_of_ne h ..

/-- The registers of an interrupt controller that matter: the first vector, the mask, and how many
    bytes of its initialisation it still waits for, counted from the command. -/
structure Pic where
  offset : BitVec 8
  mask : BitVec 8
  awaits : Nat

/-- A byte written to the command port: one with bit 4 starts the initialisation. -/
def Pic.command (b : BitVec 8) (p : Pic) : Pic :=
  if b.getLsbD 4 then { p with mask := 0, awaits := 3 } else p

/-- A byte written to the data port: the first of the three is the first vector, and outside the
    initialisation it is the mask. -/
def Pic.data (b : BitVec 8) (p : Pic) : Pic :=
  match p.awaits with
  | 0 => { p with mask := b }
  | 3 => { p with offset := b &&& 0xF8, awaits := 2 }
  | n + 1 => { p with awaits := n }

/-- The two controllers. -/
structure Pics where
  first : Pic
  second : Pic

/-- `out` to a port. -/
def Pics.out (port b : BitVec 8) (p : Pics) : Pics :=
  if port = 0x20 then { p with first := p.first.command b }
  else if port = 0x21 then { p with first := p.first.data b }
  else if port = 0xA0 then { p with second := p.second.command b }
  else if port = 0xA1 then { p with second := p.second.data b }
  else p

/-- The writes of `pic_remap_asm`, with the ones of `.io_wait` to port 0x80. -/
def picRemap : List (BitVec 8 × BitVec 8) :=
  [(0x21, 0xFF), (0xA1, 0xFF), (0x20, 0x11), (0x80, 0), (0x80, 0), (0xA0, 0x11), (0x80, 0), (0x80, 0),
    (0x21, 0x20), (0x80, 0), (0xA1, 0x28), (0x80, 0), (0x21, 0x04), (0x80, 0), (0xA1, 0x02), (0x80, 0),
    (0x21, 0x01), (0x80, 0), (0xA1, 0x01), (0x80, 0), (0x20, 0x20), (0x80, 0), (0xA0, 0x20), (0x80, 0),
    (0x21, 0xFE), (0xA1, 0xFF)]

/-- `pic_remap_asm`. -/
def picRemapAsm (p : Pics) : Pics := picRemap.foldl (fun p w => p.out w.1 w.2) p

/-- The vector that an interrupt line is delivered to, if it is not masked. -/
def Pics.vector (p : Pics) (line : Fin 16) : Option (BitVec 8) :=
  if line.val < 8 then
    if p.first.mask.getLsbD line.val then none else some (p.first.offset + BitVec.ofNat 8 line.val)
  else if p.second.mask.getLsbD (line.val - 8) then none
  else some (p.second.offset + BitVec.ofNat 8 (line.val - 8))

/-- The handlers in `idtasm.asm`. -/
structure Handlers where
  pf : BitVec 64
  irq0 : BitVec 64
  irq1 : BitVec 64

/-- `idt_init`: the table, and what becomes of the controllers. -/
def idtInit (h : Handlers) (idt : Idt) (p : Pics) : Idt × Pics :=
  (idtSetHandler 0x09#8 h.irq1 (idtSetHandler 0x21#8 h.irq1 (idtSetHandler 0x20#8 h.irq0
    (idtSetHandler 0x0E#8 h.pf idt))), picRemapAsm p)

/-- After the command that starts the initialisation, the four bytes decide. -/
theorem Pic.initialised (p : Pic) (vector cascade mode mask : BitVec 8) :
    ((((((p.command 0x11).data vector).data cascade).data mode).command 0x20).data mask) =
      ⟨vector &&& 0xF8, mask, 0⟩ := rfl

/-- The two controllers after `pic_remap_asm`, whatever they were at before. -/
theorem picRemapAsm_eq (p : Pics) :
    picRemapAsm p = { first := ⟨0x20, BitVec.ofNat 8 Sched.picMask, 0⟩, second := ⟨0x28, 0xFF, 0⟩ } := by
  have hfirst : (picRemapAsm p).first = _ := Pic.initialised (p.first.data 0xFF) 0x20 0x04 0x01 0xFE
  have hsecond : (picRemapAsm p).second = _ := Pic.initialised (p.second.data 0xFF) 0x28 0x02 0x01 0xFF
  rw [show picRemapAsm p = ⟨(picRemapAsm p).first, (picRemapAsm p).second⟩ from rfl, hfirst, hsecond]
  rfl

/-- A line is delivered after `pic_remap_asm` only if it is the timer's, to vector 0x20. -/
theorem picRemapAsm_vector (p : Pics) (line : Fin 16) :
    (picRemapAsm p).vector line = if line.val = 0 then some 0x20 else none := by
  rw [picRemapAsm_eq]
  revert line
  decide

/-- After `idt_init` the timer is the only line that interrupts, and it calls its handler; the four
    vectors that have a handler lead to it through gates that clear the interrupt flag and that user
    code cannot call, and no other vector leads anywhere. The controllers may have been in any state,
    and the mask is the one that the keyboard driver finds. -/
theorem idt_init_delivers (h : Handlers) (p : Pics) :
    let r := idtInit h Idt.zero p
    (∀ line vector, r.2.vector line = some vector ↔ line.val = 0 ∧ vector = 0x20) ∧
    (∀ line : Fin 8, r.2.first.mask.getLsbD line = !Sched.irqEnabled line) ∧
    (r.1 0x0E#8).gate = interruptGate h.pf ∧ (r.1 0x20#8).gate = interruptGate h.irq0 ∧
    (r.1 0x21#8).gate = interruptGate h.irq1 ∧ (r.1 0x09#8).gate = interruptGate h.irq1 ∧
    ∀ v, (r.1 v).gate.present = true ↔ v ∈ [0x0E#8, 0x20#8, 0x21#8, 0x09#8] := by
  intro r
  have hpics : r.2 = picRemapAsm p := rfl
  have hother : ∀ v, v ∉ [0x0E#8, 0x20#8, 0x21#8, 0x09#8] → r.1 v = Idt.zero v := by
    intro v hv
    simp only [List.mem_cons, List.not_mem_nil, or_false, not_or] at hv
    obtain ⟨h1, h2, h3, h4⟩ := hv
    have hr : r.1 v = idtSetHandler 0x09#8 h.irq1 (idtSetHandler 0x21#8 h.irq1
      (idtSetHandler 0x20#8 h.irq0 (idtSetHandler 0x0E#8 h.pf Idt.zero))) v := rfl
    rw [hr, idtSetHandler_other h4, idtSetHandler_other h3, idtSetHandler_other h2,
      idtSetHandler_other h1]
  have hpf : (r.1 0x0E#8).gate = interruptGate h.pf := idtSetHandler_gate 0x0E#8 h.pf Idt.zero
  have hirq0 : (r.1 0x20#8).gate = interruptGate h.irq0 := idtSetHandler_gate 0x20#8 h.irq0 Idt.zero
  have hirq1 : (r.1 0x21#8).gate = interruptGate h.irq1 := idtSetHandler_gate 0x21#8 h.irq1 Idt.zero
  have hirq9 : (r.1 0x09#8).gate = interruptGate h.irq1 := idtSetHandler_gate 0x09#8 h.irq1 Idt.zero
  refine ⟨fun line vector => ?_, fun line => ?_, hpf, hirq0, hirq1, hirq9, fun v => ?_⟩
  · rw [hpics, picRemapAsm_vector]
    split
    · next hline =>
      rw [Option.some.injEq]
      exact ⟨fun h => ⟨hline, h.symm⟩, fun h => h.2.symm⟩
    · next hline => exact ⟨fun h => (by cases h), fun h => absurd h.1 hline⟩
  · rw [hpics, picRemapAsm_eq]
    revert line
    decide
  · refine ⟨fun hp => ?_, fun hv => ?_⟩
    · by_contra hv
      rw [hother v hv] at hp
      simp [Idt.zero, IdtEntry.gate] at hp
    · simp only [List.mem_cons, List.not_mem_nil, or_false] at hv
      rcases hv with rfl | rfl | rfl | rfl
      · rw [hpf]; rfl
      · rw [hirq0]; rfl
      · rw [hirq1]; rfl
      · rw [hirq9]; rfl

end TypeOS.Entry
