import TypeOS.Sys.User

/-! The stack of a new program (`elf_build_stack`).

    The strings of the environment and of the arguments go down from `USER_STACK_TOP`, each at the next
    multiple of 16, then the auxiliary vector, then the two tables of pointers and the number of
    arguments, eight bytes each. Every step writes below what is there already, so what it wrote stays.
    The strings that `proc_exec` is given are rows of 256 bytes, and there is room for all of them. -/

namespace TypeOS.Elf

open Fs (Text Ch)
open Sys Bytes

/-- `sp`, and the memory of the new program. -/
structure Stack where
  sp : Nat
  mem : Memory

/-- A string is copied to the next multiple of 16. -/
def pushStr (t : Text) (st : Stack) : Stack :=
  let sp := (st.sp - (t.length + 1)) / 16 * 16
  ⟨sp, store st.mem sp (t.bytes ++ [0])⟩

/-- The loops over `envp` and `argv`: where the strings are. -/
def pushStrs : List Text → Stack → List Nat × Stack
  | [], st => ([], st)
  | t :: ts, st =>
    let r := pushStrs ts (pushStr t st)
    ((pushStr t st).sp :: r.1, r.2)

/-- `sp -= 8; *sp = w`. -/
def pushWord (w : Nat) (st : Stack) : Stack := ⟨st.sp - 8, store st.mem (st.sp - 8) (leBytes 8 w)⟩

/-- A table of words, the last one first. -/
def pushWords (ws : List Nat) (st : Stack) : Stack := ws.foldr pushWord st

/-- `sp -= 16; sp &= ~0xF` and two words there. -/
def pushPair (lo hi : Nat) (st : Stack) : Stack :=
  let sp := (st.sp - 16) / 16 * 16
  ⟨sp, store (store st.mem (sp + 8) (leBytes 8 hi)) sp (leBytes 8 lo)⟩

/-- `random_seed`. -/
def randomSeed : List UInt8 :=
  [0x11, 0x22, 0x33, 0x44, 0x55, 0x66, 0x77, 0x88, 0x99, 0xaa, 0xbb, 0xcc, 0xdd, 0xee, 0xff, 0x00]

/-- The random bytes and the auxiliary vector: `AT_PAGESZ`, `AT_RANDOM`, and its end. -/
def pushAux (st : Stack) : Stack :=
  let sp := (st.sp - 16) / 16 * 16
  pushPair 6 4096 (pushPair 25 sp (pushPair 0 0 ⟨sp, store st.mem sp randomSeed⟩))

/-- What `elf_build_stack` returns and hands out. -/
structure Built where
  sp : Nat
  argc : Nat
  argv : Nat
  envp : Nat
  mem : Memory

/-- `elf_build_stack` on the strings before the NULL of each array, when the pages of the stack are
    mapped. -/
def elfBuildStack (argv envp : List Text) (mem : Memory) : Built :=
  let argv := argv.take 15
  let envp := envp.take 15
  let env := pushStrs envp ⟨userStackTop, mem⟩
  let arg := pushStrs argv env.2
  let envTable := pushWords (env.1 ++ [0]) (pushAux arg.2)
  let argTable := pushWords (arg.1 ++ [0]) envTable
  let st := pushWord argv.length argTable
  { sp := st.sp, argc := argv.length, argv := argTable.sp, envp := envTable.sp, mem := st.mem }

/-! ### What is below what -/

variable {st st' st'' : Stack} {t : Text} {ts : List Text} {p w : Nat} {ws : List Nat} {mem : Memory}

/-- From one state to the other everything was written below. -/
structure Below (st st' : Stack) : Prop where
  sp : st'.sp ≤ st.sp
  mem : ∀ a, st.sp ≤ a → st'.mem a = st.mem a

/-- There are so many bytes left for the stack. -/
structure Room (n : Nat) (st : Stack) : Prop where
  low : userAddrMin + n ≤ st.sp
  high : st.sp ≤ userStackTop

/-- The string is on the stack. -/
structure Held (st : Stack) (p : Nat) (t : Text) : Prop where
  above : st.sp ≤ p
  str : StrAt st.mem p t

/-- The words are at an address, one behind the other. -/
def WordsAt (mem : Memory) : Nat → List Nat → Prop
  | _, [] => True
  | a, w :: ws => word mem a = w ∧ WordsAt mem (a + 8) ws

theorem Room.of_le {n m : Nat} (h : Room n st) (hm : m ≤ n) : Room m st :=
  ⟨(Nat.add_le_add_left hm _).trans h.low, h.high⟩

theorem Below.refl (st : Stack) : Below st st := ⟨le_rfl, fun _ _ => rfl⟩

theorem Below.trans (h : Below st st') (h' : Below st' st'') : Below st st'' :=
  ⟨h'.sp.trans h.sp, fun a ha => (h'.mem a (h.sp.trans ha)).trans (h.mem a ha)⟩

theorem Held.below (h : Held st p t) (hb : Below st st') : Held st' p t where
  above := hb.sp.trans h.above
  str :=
    { low := h.str.low
      high := h.str.high
      chars := fun i hi => (hb.mem _ (h.above.trans (Nat.le_add_right ..))).trans (h.str.chars i hi)
      nul := (hb.mem _ (h.above.trans (Nat.le_add_right ..))).trans h.str.nul }

theorem WordsAt.congr {mem' : Memory} {a : Nat} (hmem : ∀ i < 8 * ws.length, mem' (a + i) = mem (a + i))
    (h : WordsAt mem a ws) : WordsAt mem' a ws := by
  induction ws generalizing a with
  | nil => trivial
  | cons w ws ih =>
    obtain ⟨hw, hws⟩ := h
    rw [List.length_cons] at hmem
    refine ⟨?_, ih (fun i hi => ?_) hws⟩
    · rw [word_congr fun i hi => hmem i (by omega)]
      exact hw
    · rw [Nat.add_assoc]
      exact hmem (8 + i) (by omega)

theorem WordsAt.below {a : Nat} (ha : st.sp ≤ a) (hb : Below st st') (h : WordsAt st.mem a ws) :
    WordsAt st'.mem a ws :=
  h.congr fun _ _ => hb.mem _ (ha.trans (Nat.le_add_right ..))

/-- A store below the pointer. -/
theorem below_store {sp : Nat} {bytes : List UInt8} (h : sp + bytes.length ≤ st.sp) :
    Below st ⟨sp, store st.mem sp bytes⟩ :=
  ⟨by simp only; omega, fun _ ha => store_of_ge (h.trans ha)⟩

theorem pushStr_spec {n : Nat} (hr : Room (272 + n) st) (ht : t.length ≤ 255) :
    Below st (pushStr t st) ∧ Room n (pushStr t st) ∧ (pushStr t st).sp % 16 = 0 ∧
      Held (pushStr t st) (pushStr t st).sp t := by
  obtain ⟨hlow, hhigh⟩ := hr
  simp only [userAddrMin, userStackTop] at hlow hhigh
  have hlen : (t.bytes ++ [0]).length = t.length + 1 := by simp [Text.bytes]
  refine ⟨below_store (by rw [hlen]; omega), ⟨?_, ?_⟩, Nat.mul_mod_left .., le_rfl, strAt_store ?_ ?_⟩
  all_goals simp only [pushStr, userAddrMin, userAddrMax, userStackTop]; omega

theorem pushStrs_spec {n : Nat} (hr : Room (272 * ts.length + n) st) (ht : ∀ t ∈ ts, t.length ≤ 255) :
    Below st (pushStrs ts st).2 ∧ Room n (pushStrs ts st).2 ∧
      List.Forall₂ (Held (pushStrs ts st).2) (pushStrs ts st).1 ts := by
  induction ts generalizing st with
  | nil => exact ⟨.refl st, hr.of_le (Nat.le_add_left ..), .nil⟩
  | cons t ts ih =>
    have hr' : Room (272 + (272 * ts.length + n)) st :=
      hr.of_le (by rw [List.length_cons]; omega)
    obtain ⟨hb, hr₁, -, hheld⟩ := pushStr_spec hr' (ht t (List.mem_cons_self ..))
    obtain ⟨hb', hr₂, hall⟩ := ih hr₁ fun u hu => ht u (List.mem_cons_of_mem _ hu)
    exact ⟨hb.trans hb', hr₂, .cons (hheld.below hb') hall⟩

theorem pushWord_spec {n : Nat} (hr : Room (8 + n) st) (hw : w < 2 ^ 64) :
    Below st (pushWord w st) ∧ Room n (pushWord w st) ∧ (pushWord w st).sp + 8 = st.sp ∧
      word (pushWord w st).mem (pushWord w st).sp = w := by
  obtain ⟨hlow, hhigh⟩ := hr
  refine ⟨below_store (by rw [length_leBytes]; omega), ⟨?_, ?_⟩, ?_, word_store hw⟩
  all_goals simp only [pushWord]; omega

theorem pushWords_spec {n : Nat} (hr : Room (8 * ws.length + n) st) (hw : ∀ w ∈ ws, w < 2 ^ 64) :
    Below st (pushWords ws st) ∧ Room n (pushWords ws st) ∧
      (pushWords ws st).sp + 8 * ws.length = st.sp ∧
      WordsAt (pushWords ws st).mem (pushWords ws st).sp ws := by
  induction ws generalizing n with
  | nil => exact ⟨.refl st, hr.of_le (Nat.le_add_left ..), rfl, trivial⟩
  | cons w ws ih =>
    have hr' : Room (8 * ws.length + (8 + n)) st :=
      hr.of_le (by rw [List.length_cons]; omega)
    obtain ⟨hb, hr₁, hsp, hws⟩ := ih hr' fun v hv => hw v (List.mem_cons_of_mem _ hv)
    obtain ⟨hb', hr₂, hsp', hword⟩ := pushWord_spec hr₁ (hw w (List.mem_cons_self ..))
    change Below st (pushWord w (pushWords ws st)) ∧ Room n (pushWord w (pushWords ws st)) ∧
      (pushWord w (pushWords ws st)).sp + 8 * (ws.length + 1) = st.sp ∧
      word (pushWord w (pushWords ws st)).mem (pushWord w (pushWords ws st)).sp = w ∧
      WordsAt (pushWord w (pushWords ws st)).mem ((pushWord w (pushWords ws st)).sp + 8) ws
    refine ⟨hb.trans hb', hr₂, by omega, hword, ?_⟩
    rw [hsp']
    exact hws.below le_rfl hb'

theorem pushPair_spec {n : Nat} (lo hi : Nat) (hr : Room (32 + n) st) : Below st (pushPair lo hi st) ∧
    Room n (pushPair lo hi st) ∧ (pushPair lo hi st).sp % 16 = 0 := by
  obtain ⟨hlow, hhigh⟩ := hr
  refine ⟨⟨?_, fun a ha => ?_⟩, ⟨?_, ?_⟩, Nat.mul_mod_left ..⟩
  · simp only [pushPair]
    omega
  · simp only [pushPair]
    rw [store_of_ge (by rw [length_leBytes]; omega), store_of_ge (by rw [length_leBytes]; omega)]
  all_goals simp only [pushPair]; omega

theorem pushAux_spec {n : Nat} (hr : Room (128 + n) st) : Below st (pushAux st) ∧ Room n (pushAux st) ∧
    (pushAux st).sp % 16 = 0 := by
  obtain ⟨hlow, hhigh⟩ := hr
  have hb : Below st ⟨(st.sp - 16) / 16 * 16, store st.mem ((st.sp - 16) / 16 * 16) randomSeed⟩ :=
    below_store (by have : randomSeed.length = 16 := rfl; omega)
  have hr₁ : Room (32 + (32 + (32 + n)))
      ⟨(st.sp - 16) / 16 * 16, store st.mem ((st.sp - 16) / 16 * 16) randomSeed⟩ :=
    ⟨by simp only; omega, by simp only; omega⟩
  obtain ⟨hb₂, hr₂, -⟩ := pushPair_spec 0 0 hr₁
  obtain ⟨hb₃, hr₃, -⟩ := pushPair_spec 25 ((st.sp - 16) / 16 * 16) hr₂
  obtain ⟨hb₄, hr₄, hal⟩ := pushPair_spec 6 4096 hr₃
  exact ⟨((hb.trans hb₂).trans hb₃).trans hb₄, hr₄, hal⟩

/-! ### The whole stack -/

/-- A table of pointers to strings that are on the stack. -/
theorem listAt_table {ptrs : List Nat} {a : Nat} (hs : List.Forall₂ (Held st) ptrs ts)
    (hw : WordsAt st.mem a (ptrs ++ [0])) (hlow : userAddrMin ≤ a)
    (hhigh : a + 8 * (ts.length + 1) ≤ userAddrMax) : ListAt st.mem a ts := by
  induction hs generalizing a with
  | nil => exact ⟨(userPtrOk_iff ..).mpr ⟨hlow, by simpa using hhigh⟩, hw.1⟩
  | @cons p t ptrs ts hp _ ih =>
    obtain ⟨hword, hws⟩ := hw
    rw [List.length_cons] at hhigh
    refine ⟨(userPtrOk_iff ..).mpr ⟨hlow, by omega⟩, ?_, ?_, ih hws (by omega) (by omega)⟩
    · have := hp.str.low
      simp only [userAddrMin] at this
      omega
    · rw [hword]
      exact hp.str

/-- The block that a program finds at its stack pointer. -/
structure ArgBlock (mem : Memory) (sp : Nat) (argv envp : List Text) : Prop where
  aligned : sp % 16 = 0
  argc : word mem sp = argv.length
  args : ListAt mem (sp + 8) argv
  env : ListAt mem (sp + 8 + 8 * (argv.length + 1)) envp

theorem held_lt {ptrs : List Nat} (hs : List.Forall₂ (Held st) ptrs ts) :
    ∀ w ∈ ptrs ++ [0], w < 2 ^ 64 := by
  induction hs with
  | nil => simp
  | @cons p t ptrs ts hp _ ih =>
    intro w hw
    rcases List.mem_cons.mp hw with rfl | hw
    · have := hp.str.high
      simp only [userAddrMax] at this
      omega
    · exact ih w hw

/-- The stack holds the strings; its pointer is aligned if and only if their number is odd. -/
theorem elfBuildStack_spec {argv envp : List Text} (hla : argv.length ≤ 15) (hle : envp.length ≤ 15)
    (hsa : ∀ t ∈ argv, t.length ≤ 255) (hse : ∀ t ∈ envp, t.length ≤ 255) (mem : Memory) :
    ((elfBuildStack argv envp mem).sp % 16 = 0 ↔ (argv.length + envp.length) % 2 = 1) ∧
    word (elfBuildStack argv envp mem).mem (elfBuildStack argv envp mem).sp = argv.length ∧
    ListAt (elfBuildStack argv envp mem).mem ((elfBuildStack argv envp mem).sp + 8) argv ∧
    ListAt (elfBuildStack argv envp mem).mem
      ((elfBuildStack argv envp mem).sp + 8 + 8 * (argv.length + 1)) envp := by
  have hta : argv.take 15 = argv := List.take_of_length_le hla
  have hte : envp.take 15 = envp := List.take_of_length_le hle
  have hr₀ : Room (272 * envp.length + (272 * argv.length + (128 + (8 * (envp.length + 1) +
      (8 * (argv.length + 1) + (8 + 0)))))) ⟨userStackTop, mem⟩ :=
    ⟨by simp only [userAddrMin, userStackTop]; omega, le_rfl⟩
  obtain ⟨-, hr₁, hheldE⟩ := pushStrs_spec hr₀ hse
  rw [elfBuildStack, hta, hte]
  generalize pushStrs envp ⟨userStackTop, mem⟩ = env at hr₁ hheldE ⊢
  obtain ⟨hb₂, hr₂, hheldA⟩ := pushStrs_spec hr₁ hsa
  generalize pushStrs argv env.2 = arg at hb₂ hr₂ hheldA ⊢
  obtain ⟨hb₃, hr₃, hal⟩ := pushAux_spec hr₂
  generalize pushAux arg.2 = aux at hb₃ hr₃ hal ⊢
  have hlenE : (env.1 ++ [0]).length = envp.length + 1 := by
    rw [List.length_append, hheldE.length_eq, List.length_singleton]
  have hlenA : (arg.1 ++ [0]).length = argv.length + 1 := by
    rw [List.length_append, hheldA.length_eq, List.length_singleton]
  obtain ⟨hb₄, hr₄, hsp₄, hws₄⟩ := pushWords_spec (hlenE ▸ hr₃) (held_lt hheldE)
  generalize pushWords (env.1 ++ [0]) aux = envTable at hb₄ hr₄ hsp₄ hws₄ ⊢
  obtain ⟨hb₅, hr₅, hsp₅, hws₅⟩ := pushWords_spec (hlenA ▸ hr₄) (held_lt hheldA)
  generalize pushWords (arg.1 ++ [0]) envTable = argTable at hb₅ hr₅ hsp₅ hws₅ ⊢
  obtain ⟨hb₆, hr₆, hsp₆, hword⟩ := pushWord_spec hr₅ (w := argv.length) (by omega)
  dsimp only
  generalize pushWord argv.length argTable = st at hb₆ hr₆ hsp₆ hword ⊢
  rw [hlenE] at hsp₄
  rw [hlenA] at hsp₅
  have hlow := hr₆.low
  have hhigh := hr₃.high
  simp only [userAddrMin, userStackTop] at hlow hhigh
  refine ⟨by omega, hword, ?_, ?_⟩
  · have hheld : List.Forall₂ (Held st) arg.1 argv :=
      hheldA.imp fun _ _ h => h.below (((hb₃.trans hb₄).trans hb₅).trans hb₆)
    rw [hsp₆]
    exact listAt_table hheld (hws₅.below le_rfl hb₆) (by simp only [userAddrMin]; omega)
      (by simp only [userAddrMax]; omega)
  · have hheld : List.Forall₂ (Held st) env.1 envp :=
      hheldE.imp fun _ _ h => h.below ((((hb₂.trans hb₃).trans hb₄).trans hb₅).trans hb₆)
    rw [hsp₆, hsp₅]
    exact listAt_table hheld (hws₄.below le_rfl (hb₅.trans hb₆)) (by simp only [userAddrMin]; omega)
      (by simp only [userAddrMax]; omega)

end TypeOS.Elf
