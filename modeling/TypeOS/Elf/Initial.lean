import TypeOS.Elf.Clean

/-! What a new program reads from its stack pointer up.

    The words there are the number of arguments, the two tables of pointers and the auxiliary vector, one
    behind the other. The pointers lead to the strings and to the random bytes, which lie above, each on
    its own. -/

namespace TypeOS.Elf

open Fs (Text)
open Sys Bytes

/-- The bytes of the strings, each with its NUL. -/
def textSize (ts : List Text) : Nat := (ts.map fun t => t.length + 1).sum

/-- A copy of the string, with its NUL. -/
def CopyAt (mem : Memory) (p : Nat) (t : Text) : Prop := load mem p (t.length + 1) = t.bytes ++ [0]

/-- Where the strings lie, and how many bytes they take. -/
def extents (ptrs : List Nat) (ts : List Text) : List (Nat × Nat) :=
  List.zipWith (fun p t => (p, t.length + 1)) ptrs ts

/-- The words from the stack pointer up. -/
def vector (argc : Nat) (args envs : List Nat) (random : Nat) : List Nat :=
  argc :: (args ++ 0 :: (envs ++ 0 :: [6, 4096, 25, random, 0, 0]))

/-- The stack of a program with these arguments and this environment. -/
structure InitialStack (b : Built) (argv envp : List Text) (args envs : List Nat) (random : Nat) : Prop where
  argc : b.argc = argv.length
  words : WordsAt b.mem b.sp (vector argv.length args envs random)
  arguments : List.Forall₂ (CopyAt b.mem) args argv
  environment : List.Forall₂ (CopyAt b.mem) envs envp
  seed : load b.mem random 16 = randomSeed
  apart : (extents envs envp ++ extents args argv ++ [(random, 16),
    (b.sp, 8 * (vector argv.length args envs random).length)]).Pairwise fun x y => y.1 + y.2 ≤ x.1
  inside : ∀ x ∈ extents envs envp ++ extents args argv ++ [(random, 16),
    (b.sp, 8 * (vector argv.length args envs random).length)],
    userStackTop - userStackSize ≤ x.1 ∧ x.1 + x.2 ≤ userStackTop + pageSize
  argvOut : b.argv = b.sp + 8
  envpOut : b.envp = b.sp + 8 + 8 * (argv.length + 1)

variable {st st' : Stack} {t : Text} {ts : List Text} {ws vs : List Nat} {mem : Memory} {a p : Nat}

/-! ### Words -/

theorem wordsAt_append (ws vs : List Nat) : WordsAt mem a (ws ++ vs) ↔
    WordsAt mem a ws ∧ WordsAt mem (a + 8 * ws.length) vs := by
  induction ws generalizing a with
  | nil => simp [WordsAt]
  | cons w ws ih =>
    have hlen : a + 8 * (w :: ws).length = a + 8 + 8 * ws.length := by
      rw [List.length_cons]
      omega
    rw [List.cons_append, WordsAt, WordsAt, ih, hlen, and_assoc]

/-- A pair below an aligned pointer. -/
theorem pushPair_words (st : Stack) (lo hi : Nat) (hlo : lo < 2 ^ 64) (hhi : hi < 2 ^ 64) (hsp : 16 ≤ st.sp)
    (hal : st.sp % 16 = 0) : Below st (pushPair lo hi st) ∧ (pushPair lo hi st).sp + 16 = st.sp ∧
      WordsAt (pushPair lo hi st).mem (pushPair lo hi st).sp [lo, hi] := by
  have hdown : (st.sp - 16) / 16 * 16 = st.sp - 16 := by omega
  simp only [pushPair, hdown]
  refine ⟨⟨Nat.sub_le .., fun x hx => ?_⟩, by omega, word_store hlo, ?_, trivial⟩
  · dsimp only
    rw [store_of_ge (by rw [length_leBytes]; omega), store_of_ge (by rw [length_leBytes]; omega)]
  · rw [word_congr fun i _ => store_of_ge (by rw [length_leBytes]; omega)]
    exact word_store hhi

/-- The random bytes and the auxiliary vector below them. -/
theorem pushAux_words (hsp : 80 ≤ st.sp) (htop : st.sp < 2 ^ 64) : ∃ random,
    Below st (pushAux st) ∧ random + 16 ≤ st.sp ∧ st.sp ≤ random + 31 ∧ (pushAux st).sp + 48 = random ∧
      load (pushAux st).mem random 16 = randomSeed ∧
      WordsAt (pushAux st).mem (pushAux st).sp [6, 4096, 25, random, 0, 0] := by
  have hseed : randomSeed.length = 16 := rfl
  set random := (st.sp - 16) / 16 * 16 with hrandom
  set st₁ : Stack := ⟨random, store st.mem random randomSeed⟩ with hst₁
  have hb₁ : Below st st₁ := below_store (by rw [hseed]; omega)
  have hl₁ : load st₁.mem random 16 = randomSeed := load_store st.mem random randomSeed
  have hsp₁ : st₁.sp = random := rfl
  have haux : pushAux st = pushPair 6 4096 (pushPair 25 random (pushPair 0 0 st₁)) := rfl
  rw [haux]
  obtain ⟨hb₂, hsp₂, hw₂⟩ := pushPair_words st₁ 0 0 (by decide) (by decide)
    (by omega) (by omega)
  generalize pushPair 0 0 st₁ = st₂ at *
  obtain ⟨hb₃, hsp₃, hw₃⟩ := pushPair_words st₂ 25 random (by decide) (by omega)
    (by omega) (by omega)
  generalize pushPair 25 random st₂ = st₃ at *
  obtain ⟨hb₄, hsp₄, hw₄⟩ := pushPair_words st₃ 6 4096 (by decide) (by decide)
    (by omega) (by omega)
  generalize pushPair 6 4096 st₃ = st₄ at *
  refine ⟨random, ((hb₁.trans hb₂).trans hb₃).trans hb₄, by omega, by omega, by omega, ?_, ?_⟩
  · have hb := (hb₂.trans hb₃).trans hb₄
    rw [← hl₁]
    exact load_congr fun i _ => hb.mem _ (by omega)
  · have hmid : st₄.sp + 8 * [6, 4096].length = st₃.sp := hsp₄
    have hend : st₃.sp + 8 * [25, random].length = st₂.sp := hsp₃
    refine (wordsAt_append [6, 4096] [25, random, 0, 0]).mpr ⟨hw₄, ?_⟩
    rw [hmid]
    refine (wordsAt_append [25, random] [0, 0]).mpr ⟨hw₃.below le_rfl hb₄, ?_⟩
    rw [hend]
    exact hw₂.below le_rfl (hb₃.trans hb₄)

/-! ### Strings -/

/-- The copy of a string below the pointer. -/
theorem pushStr_copy (t : Text) (st : Stack) (hroom : t.length + 16 ≤ st.sp) :
    Below st (pushStr t st) ∧ (pushStr t st).sp + (t.length + 1) ≤ st.sp ∧
      st.sp ≤ (pushStr t st).sp + (t.length + 16) ∧ CopyAt (pushStr t st).mem (pushStr t st).sp t := by
  have hlen : (t.bytes ++ [0]).length = t.length + 1 := by simp [Text.bytes]
  refine ⟨below_store (by rw [hlen]; omega), ?_, ?_, ?_⟩
  · simp only [pushStr]
    omega
  · simp only [pushStr]
    omega
  · have hst := load_store st.mem ((st.sp - (t.length + 1)) / 16 * 16) (t.bytes ++ [0])
    rwa [hlen] at hst

theorem CopyAt.below (h : CopyAt st.mem p t) (hp : st.sp ≤ p) (hb : Below st st') : CopyAt st'.mem p t := by
  rw [CopyAt, ← h]
  exact load_congr fun i _ => hb.mem _ (hp.trans (Nat.le_add_right ..))

/-- What a loop over strings leaves: the copies, between the two pointers, one below the other. -/
structure Copied (st st' : Stack) (ptrs : List Nat) (ts : List Text) : Prop where
  below : Below st st'
  room : st.sp ≤ st'.sp + textSize ts + 15 * ts.length
  copies : List.Forall₂ (fun p t => st'.sp ≤ p ∧ CopyAt st'.mem p t) ptrs ts
  order : (extents ptrs ts).Pairwise fun x y => y.1 + y.2 ≤ x.1
  inside : ∀ x ∈ extents ptrs ts, st'.sp ≤ x.1 ∧ x.1 + x.2 ≤ st.sp

theorem textSize_cons (t : Text) (ts : List Text) : textSize (t :: ts) = t.length + 1 + textSize ts := by
  rw [textSize, List.map_cons, List.sum_cons, ← textSize]

theorem pushStrs_copied (hroom : textSize ts + 15 * ts.length ≤ st.sp) :
    Copied st (pushStrs ts st).2 (pushStrs ts st).1 ts := by
  induction ts generalizing st with
  | nil => exact ⟨.refl st, Nat.le_add_right .., .nil, .nil, nofun⟩
  | cons t ts ih =>
    rw [textSize_cons, List.length_cons] at hroom
    obtain ⟨hb, hlow, hhigh, hcopy⟩ := pushStr_copy t st (by omega)
    have h := @ih (pushStr t st) (by omega)
    rw [pushStrs]
    have hsp := h.below.sp
    refine ⟨hb.trans h.below, ?_, .cons ⟨hsp, hcopy.below le_rfl h.below⟩ h.copies,
      .cons (fun x hx => (h.inside x hx).2) h.order, fun x hx => ?_⟩
    · have := h.room
      rw [textSize_cons, List.length_cons]
      dsimp only
      omega
    · rcases List.mem_cons.mp hx with rfl | hx
      · exact ⟨hsp, hlow⟩
      · exact ⟨(h.inside x hx).1, (h.inside x hx).2.trans hb.sp⟩

theorem Copied.lt {ptrs : List Nat} (h : Copied st st' ptrs ts) (hst : st.sp < 2 ^ 64) :
    ∀ w ∈ ptrs ++ [0], w < 2 ^ 64 := by
  intro w hw
  rcases List.mem_append.mp hw with hw | hw
  · obtain ⟨i, hi, rfl⟩ := List.getElem_of_mem hw
    have hlen := h.copies.length_eq
    have hx : (ptrs[i], ts[i].length + 1) ∈ extents ptrs ts := by
      refine List.mem_of_getElem? (i := i) ?_
      rw [extents, List.getElem?_zipWith, List.getElem?_eq_getElem hi, List.getElem?_eq_getElem]
    have := (h.inside _ hx).2
    dsimp only at this
    omega
  · obtain rfl := List.mem_singleton.mp hw
    decide

/-- The copies stay. -/
theorem Copied.copyAt {ptrs : List Nat} {st'' : Stack} (h : Copied st st' ptrs ts) (hb : Below st' st'') :
    List.Forall₂ (CopyAt st''.mem) ptrs ts :=
  h.copies.imp fun _ _ hp => hp.2.below hp.1 hb

/-! ### The whole stack -/

variable {argv envp : List Text}

/-- The strings, the random bytes and the words, each below the ones before it. -/
theorem extents_apart {st₁ st₂ : Stack} {envs args : List Nat} {random size : Nat}
    (he : Copied st st₁ envs envp) (ha : Copied st₁ st₂ args argv) (hr : random + 16 ≤ st₂.sp)
    (hw : p + size ≤ random) (htop : st.sp ≤ userStackTop + pageSize)
    (hlow : userStackTop - userStackSize ≤ p) :
    (extents envs envp ++ extents args argv ++ [(random, 16), (p, size)]).Pairwise
      (fun x y => y.1 + y.2 ≤ x.1) ∧
    ∀ x ∈ extents envs envp ++ extents args argv ++ [(random, 16), (p, size)],
      userStackTop - userStackSize ≤ x.1 ∧ x.1 + x.2 ≤ userStackTop + pageSize := by
  have h1 := he.below.sp
  have h2 := ha.below.sp
  have hlast : [(random, 16), (p, size)].Pairwise fun x y => y.1 + y.2 ≤ x.1 := by simpa using hw
  refine ⟨List.pairwise_append.mpr ⟨List.pairwise_append.mpr ⟨he.order, ha.order, ?_⟩, hlast, ?_⟩, ?_⟩
  · exact fun x hx y hy => (ha.inside y hy).2.trans (he.inside x hx).1
  · intro x hx y hy
    have hx' : st₂.sp ≤ x.1 := by
      rcases List.mem_append.mp hx with hx | hx
      · exact h2.trans (he.inside x hx).1
      · exact (ha.inside x hx).1
    simp only [List.mem_cons, List.not_mem_nil, or_false] at hy
    rcases hy with rfl | rfl <;> dsimp only <;> omega
  · intro x hx
    rcases List.mem_append.mp hx with hx | hx
    · rcases List.mem_append.mp hx with hx | hx
      · have := he.inside x hx
        omega
      · have := ha.inside x hx
        omega
    · simp only [List.mem_cons, List.not_mem_nil, or_false] at hx
      rcases hx with rfl | rfl <;> dsimp only <;> omega

/-- With room for the strings the stack is built as a program expects it. -/
theorem elfBuildStack_initial (hla : argv.length ≤ 15) (hle : envp.length ≤ 15)
    (hsize : textSize argv + textSize envp < 127 * 1024) (mem : Bytes.Memory) :
    ∃ args envs random, InitialStack (elfBuildStack argv envp mem) argv envp args envs random := by
  have hta : argv.take 15 = argv := List.take_of_length_le hla
  have hte : envp.take 15 = envp := List.take_of_length_le hle
  have htop : userStackTop = 0x7FF00000 := rfl
  have hstack : userStackSize = 128 * 1024 := rfl
  have hsp₀ : (⟨userStackTop, mem⟩ : Stack).sp = 0x7FF00000 := rfl
  have he := @pushStrs_copied ⟨userStackTop, mem⟩ envp (by omega)
  rw [elfBuildStack, hta, hte]
  generalize pushStrs envp ⟨userStackTop, mem⟩ = env at he ⊢
  have hroomE := he.room
  have ha := @pushStrs_copied env.2 argv (by omega)
  have hbelowE := he.below.sp
  generalize pushStrs argv env.2 = arg at ha ⊢
  have hroomA := ha.room
  have hbelowA := ha.below.sp
  obtain ⟨random, hb₃, hr1, hr2, hsp₃, hseed, hw₃⟩ := @pushAux_words arg.2 (by omega) (by omega)
  generalize pushAux arg.2 = aux at hb₃ hsp₃ hseed hw₃ ⊢
  have hlenE : (env.1 ++ [0]).length = envp.length + 1 := by
    rw [List.length_append, he.copies.length_eq, List.length_singleton]
  have hlenA : (arg.1 ++ [0]).length = argv.length + 1 := by
    rw [List.length_append, ha.copies.length_eq, List.length_singleton]
  have hr₃ : Room (8 * (envp.length + 1) + (8 * (argv.length + 1) + (8 + 0))) aux :=
    ⟨by simp only [userAddrMin]; omega, by omega⟩
  obtain ⟨hb₄, hr₄, hsp₄, hw₄⟩ := pushWords_spec (hlenE ▸ hr₃) (he.lt (by omega))
  generalize pushWords (env.1 ++ [0]) aux = envTable at hb₄ hr₄ hsp₄ hw₄ ⊢
  obtain ⟨hb₅, hr₅, hsp₅, hw₅⟩ := pushWords_spec (hlenA ▸ hr₄) (ha.lt (by omega))
  generalize pushWords (arg.1 ++ [0]) envTable = argTable at hb₅ hr₅ hsp₅ hw₅ ⊢
  obtain ⟨hb₆, hr₆, hsp₆, hword⟩ := @pushWord_spec argTable argv.length _ hr₅ (by omega)
  generalize pushWord argv.length argTable = st at hb₆ hr₆ hsp₆ hword ⊢
  have hlen : (vector argv.length arg.1 env.1 random).length = argv.length + envp.length + 9 := by
    simp only [vector, List.length_cons, List.length_append, List.length_nil, he.copies.length_eq,
      ha.copies.length_eq]
    omega
  have hend : st.sp + 8 * (vector argv.length arg.1 env.1 random).length = random := by omega
  have hb₇ := (hb₄.trans hb₅).trans hb₆
  obtain ⟨hapart, hinside⟩ := extents_apart he ha hr1 hend.le (by dsimp only; omega) (by omega)
  refine ⟨arg.1, env.1, random, rfl, ⟨hword, ?_⟩, ?_, ?_, ?_, hapart, hinside, hsp₆.symm, by dsimp only; omega⟩
  · -- the tables and the auxiliary vector, from below
    have hvector : arg.1 ++ 0 :: (env.1 ++ 0 :: [6, 4096, 25, random, 0, 0]) =
        (arg.1 ++ [0]) ++ ((env.1 ++ [0]) ++ [6, 4096, 25, random, 0, 0]) := by
      simp only [List.append_assoc, List.singleton_append]
    dsimp only
    rw [hvector, hsp₆]
    refine (wordsAt_append _ _).mpr ⟨hw₅.below le_rfl hb₆, ?_⟩
    rw [hsp₅]
    refine (wordsAt_append _ _).mpr ⟨hw₄.below le_rfl (hb₅.trans hb₆), ?_⟩
    rw [hsp₄]
    exact hw₃.below le_rfl hb₇
  · exact ha.copyAt (hb₃.trans hb₇)
  · exact he.copyAt ((ha.below.trans hb₃).trans hb₇)
  · dsimp only
    rw [← hseed]
    exact load_congr fun i _ => hb₇.mem _ (by omega)

/-- The copies in a memory that is the same there. -/
theorem copies_congr {ptrs : List Nat} {ts : List Text} {lo hi : Nat} {mem' : Memory}
    (h : List.Forall₂ (CopyAt mem) ptrs ts) (hin : ∀ x ∈ extents ptrs ts, lo ≤ x.1 ∧ x.1 + x.2 ≤ hi)
    (hmem : ∀ v, lo ≤ v → v < hi → mem' v = mem v) : List.Forall₂ (CopyAt mem') ptrs ts := by
  induction h with
  | nil => exact .nil
  | @cons p t ptrs ts hp _ ih =>
    obtain ⟨⟨hlo, hhi⟩, hrest⟩ := List.forall_mem_cons.mp hin
    dsimp only at hlo hhi
    refine .cons ?_ (ih hrest)
    rw [CopyAt, ← hp]
    exact load_congr fun i hi => hmem _ (by omega) (by omega)

/-- The stack is that of any memory that is the same on its pages. -/
theorem InitialStack.congr {b : Built} {args envs : List Nat} {random : Nat} {mem' : Memory}
    (h : InitialStack b argv envp args envs random)
    (hmem : ∀ v, userStackTop - userStackSize ≤ v → v < userStackTop + pageSize → mem' v = b.mem v) :
    InitialStack { b with mem := mem' } argv envp args envs random := by
  have hwords := h.inside (b.sp, 8 * (vector argv.length args envs random).length) (by simp)
  have hrandom := h.inside (random, 16) (by simp)
  refine { h with words := h.words.congr fun i hi => ?_, arguments := ?_, environment := ?_, seed := ?_ }
  · exact hmem (b.sp + i) (hwords.1.trans (Nat.le_add_right ..)) (by dsimp only at hwords; omega)
  · exact copies_congr h.arguments (fun x hx => h.inside x (by simp [hx])) hmem
  · exact copies_congr h.environment (fun x hx => h.inside x (by simp [hx])) hmem
  · rw [← h.seed]
    exact load_congr fun i hi =>
      hmem (random + i) (hrandom.1.trans (Nat.le_add_right ..)) (by dsimp only at hrandom; omega)

/-- What a program reads from the stack pointer up: with at most 15 arguments and 15 strings of environment
    of less than 127 KiB in all, whatever the pages of the stack held. So it is in every call that
    succeeds. -/
theorem elfUserStackInit_initial (hla : argv.length ≤ 15) (hle : envp.length ≤ 15)
    (hsize : textSize argv + textSize envp < 127 * 1024) :
    (∀ mem, ∃ args envs random, InitialStack (elfBuildStack argv envp mem) argv envp args envs random) ∧
      ∀ im s b s', elfUserStackInit im s argv envp = some (b, s') →
        ∃ args envs random, InitialStack b argv envp args envs random := by
  have hbuild := elfBuildStack_initial hla hle hsize
  refine ⟨hbuild, fun im s b s' hcall => ?_⟩
  rw [(elfUserStackInit_some hcall).2]
  exact hbuild _

/-- Two arguments and one string of environment. -/
theorem elfUserStackInit_initial_two : ∃ args envs random,
    InitialStack (elfBuildStack [[Fs.slash], [Fs.slash, Fs.slash]] [[]] fun _ => 0xaa)
      [[Fs.slash], [Fs.slash, Fs.slash]] [[]] args envs random :=
  (elfUserStackInit_initial (by decide) (by decide) (by decide)).1 fun _ => 0xaa

end TypeOS.Elf
