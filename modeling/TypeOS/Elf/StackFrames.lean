import TypeOS.Elf.Initial
import TypeOS.Elf.Isolation
import TypeOS.Paging.MapRoom

/-! The new stack in the frames of its pages.

    `elf_build_stack` stores through the page tables, so what it builds is in the frames of the pages that
    it has just mapped. They were free, and there is one for each page: after the stores a program finds in
    its pages what was built, the tables are the same, and so is what is in the other pages. -/

namespace TypeOS.Elf

open Paging Sys Radix
open Fs (Text)
open Bytes (store leBytes withBytes)

/-- A byte is stored into the frame of its page. -/
def storeByte (s : Vm) (v : Nat) (b : UInt8) : Vm :=
  match pageAt s v with
  | none => s
  | some f => writeFrame s f (withBytes (s.mem f) (v % pageSize) [b])

/-- `memcpy` to an address. -/
def storeBytes : Vm → Nat → List UInt8 → Vm
  | s, _, [] => s
  | s, v, b :: bytes => storeBytes (storeByte s v b) (v + 1) bytes

/-- Stores one after the other, each an address and bytes. -/
def storeAll (s : Vm) (ws : List (Nat × List UInt8)) : Vm := ws.foldl (fun s w => storeBytes s w.1 w.2) s

/-- The stores that lead from one stack to another lie between their pointers. -/
structure Stores (st st' : Stack) (ws : List (Nat × List UInt8)) : Prop where
  sp : st'.sp ≤ st.sp
  mem : st'.mem = ws.foldl (fun mem w => store mem w.1 w.2) st.mem
  inside : ∀ w ∈ ws, st'.sp ≤ w.1 ∧ w.1 + w.2.length ≤ st.sp

/-- Stores have come in since `s₀`: the pages from `lo` to `hi` are the user's, each with a frame that is
    in no fixed image, `mem` is found in them, and only their frames were written. -/
structure Holds (im : Image) (roots : List Nat) (kernel : Set Nat) (tag : Nat → Option Path) (lo hi : Nat)
    (s₀ s : Vm) (mem : Bytes.Memory) : Prop where
  sound : UserSound im s roots kernel tag
  run : TableRun im (userRules im) s₀ roots kernel s roots kernel
  edited : Edited (fun f => ∃ v, lo ≤ v ∧ v < hi ∧ pageAt s₀ v = some f) (fun _ => False) s₀ tag s tag
  entries : ∀ v, lo ≤ v → v < hi → ∃ e, UserEntry s s.pml4 v e ∧ ¬ ImageFrame (entryFrame e)
  bytes : ∀ v, lo ≤ v → v < hi → userByte s v = some (mem v)

variable {im : Image} {s s' s₀ s₁ : Vm} {tag tag' : Nat → Option Path} {roots : List Nat} {kernel : Set Nat}
  {st st' st'' : Stack} {ws ws' : List (Nat × List UInt8)} {mem : Bytes.Memory} {argv envp : List Text} {b : Built}
  {v u r a f lo hi : Nat} {e fl : Word}

/-! ### The stores of a stack -/

theorem Stores.refl (st : Stack) : Stores st st [] := ⟨le_rfl, rfl, nofun⟩

theorem Stores.trans (h : Stores st st' ws) (h' : Stores st' st'' ws') : Stores st st'' (ws ++ ws') where
  sp := h'.sp.trans h.sp
  mem := by rw [List.foldl_append, ← h.mem, h'.mem]
  inside := fun w hw => by
    rcases List.mem_append.mp hw with hw | hw
    · exact ⟨h'.sp.trans (h.inside w hw).1, (h.inside w hw).2⟩
    · exact ⟨(h'.inside w hw).1, (h'.inside w hw).2.trans h.sp⟩

/-- One store, with the pointer at its beginning. -/
theorem stores_one {sp : Nat} {bytes : List UInt8} (h : sp + bytes.length ≤ st.sp) :
    Stores st ⟨sp, store st.mem sp bytes⟩ [(sp, bytes)] :=
  ⟨by simp only; omega, rfl, by simpa using h⟩

/-- A pointer that goes down goes down from where there is room. -/
theorem pushStr_stores (t : Text) (st : Stack) (h : 0 < (pushStr t st).sp) :
    ∃ ws, Stores st (pushStr t st) ws := by
  have hlen : (t.bytes ++ [0]).length = t.length + 1 := by simp [Text.bytes]
  simp only [pushStr] at h
  exact ⟨_, stores_one (by rw [hlen]; omega)⟩

theorem pushWord_stores (w : Nat) (st : Stack) (h : 0 < (pushWord w st).sp) :
    ∃ ws, Stores st (pushWord w st) ws := by
  simp only [pushWord] at h
  exact ⟨_, stores_one (by rw [Bytes.length_leBytes]; omega)⟩

theorem pushPair_stores (w w' : Nat) (st : Stack) (h : 0 < (pushPair w w' st).sp) :
    ∃ ws, Stores st (pushPair w w' st) ws := by
  simp only [pushPair] at h
  refine ⟨[((st.sp - 16) / 16 * 16 + 8, leBytes 8 w'), ((st.sp - 16) / 16 * 16, leBytes 8 w)], ?_, rfl, ?_⟩
  · simp only [pushPair]
    omega
  · simp only [pushPair, List.mem_cons, List.not_mem_nil, or_false, forall_eq_or_imp, forall_eq,
      Bytes.length_leBytes]
    omega

/-- Two pushes, where the last pointer is not null. -/
theorem stores_trans (h : 0 < st''.sp) (h₁ : 0 < st'.sp → ∃ ws, Stores st st' ws)
    (h₂ : 0 < st''.sp → ∃ ws, Stores st' st'' ws) : ∃ ws, Stores st st'' ws := by
  obtain ⟨ws', hw'⟩ := h₂ h
  obtain ⟨ws, hw⟩ := h₁ (h.trans_le hw'.sp)
  exact ⟨ws ++ ws', hw.trans hw'⟩

theorem pushStrs_stores (ts : List Text) (st : Stack) (h : 0 < (pushStrs ts st).2.sp) :
    ∃ ws, Stores st (pushStrs ts st).2 ws := by
  induction ts generalizing st with
  | nil => exact ⟨[], .refl st⟩
  | cons t ts ih => exact stores_trans h (pushStr_stores t st) (ih (pushStr t st))

theorem pushWords_stores (words : List Nat) (st : Stack) (h : 0 < (pushWords words st).sp) :
    ∃ ws, Stores st (pushWords words st) ws := by
  induction words with
  | nil => exact ⟨[], .refl st⟩
  | cons w words ih => exact stores_trans h ih (pushWord_stores w _)

theorem pushAux_stores (st : Stack) (h : 0 < (pushAux st).sp) : ∃ ws, Stores st (pushAux st) ws := by
  have hseed : 0 < (st.sp - 16) / 16 * 16 →
      ∃ ws, Stores st ⟨(st.sp - 16) / 16 * 16, store st.mem ((st.sp - 16) / 16 * 16) randomSeed⟩ ws :=
    fun hpos => ⟨_, stores_one (by rw [show randomSeed.length = 16 from rfl]; omega)⟩
  have hpair := fun w w' st => @pushPair_stores w w' st
  exact stores_trans h (fun h => stores_trans h (fun h => stores_trans h hseed (hpair _ _ _)) (hpair _ _ _))
    (hpair _ _ _)

/-- The whole stack is built by stores between its pointer and the top. -/
theorem elfBuildStack_stores (argv envp : List Text) (mem : Bytes.Memory) (h : 0 < (elfBuildStack argv envp mem).sp) :
    ∃ ws, Stores ⟨userStackTop, mem⟩ ⟨(elfBuildStack argv envp mem).sp, (elfBuildStack argv envp mem).mem⟩ ws := by
  refine stores_trans h (fun h => stores_trans h (fun h => stores_trans h (fun h => stores_trans h
    (fun h => stores_trans h ?_ (pushStrs_stores (argv.take 15) _)) (pushAux_stores _))
    (pushWords_stores _ _)) (pushWords_stores _ _)) (pushWord_stores _ _)
  exact pushStrs_stores (envp.take 15) _

/-! ### Stores into frames -/

theorem UserEntry.pageAt (h : UserEntry s s.pml4 v e) : pageAt s v = some (entryFrame e) := by
  obtain ⟨b, hw⟩ := h.maps
  rw [Paging.pageAt, hw, Option.map_some]

namespace Holds

/-- Two addresses of the range whose pages have the same frame are on the same page. -/
theorem apart (h : Holds im roots kernel tag lo hi s₀ s mem) (hend : hi ≤ 2 ^ 48) (hu : lo ≤ u) (hu' : u < hi)
    (hv : lo ≤ v) (hv' : v < hi) (hf : pageAt s u = pageAt s v) : u / pageSize = v / pageSize := by
  obtain ⟨e, he, himg⟩ := h.entries u hu hu'
  obtain ⟨e', he', -⟩ := h.entries v hv hv'
  rw [he.pageAt, he'.pageAt, Option.some.injEq] at hf
  exact pathOf_inj (by omega) (by omega)
    (h.sound.once _ h.sound.root u e he _ h.sound.root v e' he' hf himg).1

/-- A byte that is stored is found there, and the others of the range are as they were. -/
theorem storeByte (h : Holds im roots kernel tag lo hi s₀ s mem) (hend : hi ≤ 2 ^ 48) (hlo : lo ≤ v)
    (hhi : v < hi) (b : UInt8) :
    Holds im roots kernel tag lo hi s₀ (Elf.storeByte s v b) (store mem v [b]) := by
  obtain ⟨e, he, -⟩ := h.entries v hlo hhi
  have hf := he.pageAt
  have hnone := (h.sound.frames _ h.sound.root v e he).untagged
  generalize entryFrame e = f at hf hnone
  obtain ⟨w, hw⟩ : ∃ w, w = withBytes (s.mem f) (v % pageSize) [b] := ⟨_, rfl⟩
  have hstore : Elf.storeByte s v b = writeFrame s f w := by
    rw [Elf.storeByte, hf, hw]
  have hmem : (writeFrame s f w).mem = Function.update s.mem f w := rfl
  have g : Edited (· = f) (fun _ => False) s tag (writeFrame s f w) tag := .fill h.sound.forest hnone w
  have hsame : ∀ u, pageAt (writeFrame s f w) u = pageAt s u := fun u => g.pages u fun hc => hc
  have htable : ¬ IsTable im s roots f := by
    intro hc
    obtain ⟨p, hp⟩ := isTable_tagged h.sound.toLoadSound hc
    rw [hnone] at hp
    cases hp
  rw [hstore]
  refine ⟨h.sound.fill hnone w, h.run.step (.data f w htable), h.edited.trans (g.mono ?_ fun _ hc => hc),
    fun u hu hu' => ?_, fun u hu hu' => ?_⟩
  · rintro _ rfl
    exact ⟨v, hlo, hhi, (h.edited.pages v fun hc => hc).symm.trans hf⟩
  · obtain ⟨e, he, himg⟩ := h.entries u hu hu'
    refine ⟨e, he.congr (h.sound.forest.walk_congr (fun t p ht => ?_) h.sound.forest.root).symm, himg⟩
    refine Function.update_of_ne ?_ ..
    rintro rfl
    rw [hnone] at ht
    cases ht
  · obtain ⟨e, he, -⟩ := h.entries u hu hu'
    have hk := he.pageAt
    generalize entryFrame e = k at hk
    have hold := h.bytes u hu hu'
    rw [userByte, hk, Option.map_some, Option.some.injEq] at hold
    rw [userByte, hsame, hk, Option.map_some, Option.some.injEq, hmem]
    rcases eq_or_ne k f with rfl | hkf
    · -- the page that the byte is in: no other has its frame
      have hpage := h.apart hend hu hu' hlo hhi (hk.trans hf.symm)
      have hplace : v % pageSize ≤ u % pageSize ∧ u % pageSize < v % pageSize + [b].length ↔
          v ≤ u ∧ u < v + [b].length := by
        simp only [pageSize, List.length_singleton] at *
        omega
      have hoff : u % pageSize < 8 * 512 := Nat.mod_lt u pageSize_pos
      rw [Function.update_self, hw, Bytes.byteOf_withBytes hoff, store, store, hold]
      by_cases hin : v ≤ u ∧ u < v + [b].length
      · rw [if_pos (hplace.mpr hin), if_pos hin]
        obtain rfl : u = v := by
          rw [List.length_singleton] at hin
          omega
        rw [Nat.sub_self, Nat.sub_self]
      · rw [if_neg fun hc => hin (hplace.mp hc), if_neg hin]
    · have hne : u ≠ v := by
        rintro rfl
        exact hkf (Option.some.inj (hk.symm.trans hf))
      have hout : ¬ (v ≤ u ∧ u < v + [b].length) := by
        rw [List.length_singleton]
        omega
      rw [Function.update_of_ne hkf, hold, store, if_neg hout]

/-- Bytes that are stored in the range. -/
theorem storeBytes (hend : hi ≤ 2 ^ 48) (bytes : List UInt8) : ∀ {s : Vm} {mem : Bytes.Memory} {v : Nat},
    Holds im roots kernel tag lo hi s₀ s mem → lo ≤ v → v + bytes.length ≤ hi →
    Holds im roots kernel tag lo hi s₀ (Elf.storeBytes s v bytes) (store mem v bytes) := by
  induction bytes with
  | nil =>
    intro s mem v h _ _
    rwa [Bytes.store_nil]
  | cons b bytes ih =>
    intro s mem v h hlo hhi
    rw [List.length_cons] at hhi
    have hone := ih (h.storeByte hend hlo (by omega) b) (by omega : lo ≤ v + 1) (by omega)
    rwa [show v + 1 = v + [b].length from rfl, Bytes.store_append] at hone

/-- Any number of stores. -/
theorem storeAll (hend : hi ≤ 2 ^ 48) (ws : List (Nat × List UInt8)) : ∀ {s : Vm} {mem : Bytes.Memory},
    Holds im roots kernel tag lo hi s₀ s mem → (∀ w ∈ ws, lo ≤ w.1 ∧ w.1 + w.2.length ≤ hi) →
    Holds im roots kernel tag lo hi s₀ (Elf.storeAll s ws)
      (ws.foldl (fun mem w => store mem w.1 w.2) mem) := by
  induction ws with
  | nil => exact fun h _ => h
  | cons w ws ih =>
    intro s mem h hin
    obtain ⟨⟨hlo, hhi⟩, hrest⟩ := List.forall_mem_cons.mp hin
    exact ih (h.storeBytes hend w.2 hlo hhi) hrest

/-- What any program has on pages elsewhere stays. -/
theorem others (h : Holds im roots kernel tag lo hi s₀ s mem) (hs : UserSound im s₀ roots kernel tag)
    (hstart : ∀ v, lo ≤ v → v < hi → ∃ e, UserEntry s₀ s₀.pml4 v e ∧ ¬ ImageFrame (entryFrame e))
    (hr : r ∈ roots) (he : UserEntry s₀ r v e)
    (hout : ∀ u, lo ≤ u → u < hi → pathOf v ≠ pathOf u) :
    s.mem (entryFrame e) = s₀.mem (entryFrame e) := by
  obtain ⟨hnone, hused⟩ := hs.frames r hr v e he
  refine h.edited.frames _ ?_ hnone hused
  rintro ⟨u, hlo, hhi, hu⟩
  obtain ⟨e', he', himg⟩ := hstart u hlo hhi
  rw [he'.pageAt, Option.some.injEq] at hu
  exact hout u hlo hhi (hs.once r hr v e he _ hs.root u e' he' hu.symm (hu ▸ himg)).1

end Holds

/-! ### The pages of the stack -/

/-- Each page of a range that is granted has a frame that was free and is the user's. -/
theorem mapUserLoop_entries (hpr : has (fl ||| pageUser) pagePresent = true)
    (haddr : (fl ||| pageUser) &&& pteAddrMask = 0#64) (n : Nat) : ∀ {v : Nat} {s : Vm}
    {tag : Nat → Option Path}, Forest s tag → mapUserLoop im fl n v s = (true, s') →
    v + n * pageSize ≤ 2 ^ 48 → (∀ j < n, pathOf (v + j * pageSize) ≠ pathOf kernelKmapWindow) →
    ∀ j < n, ∃ e b, walk s'.mem s'.pml4 (v + j * pageSize) = some (e, b) ∧ has e pageUser = true ∧
      bitmapTest s (entryFrame e) = false := by
  induction n with
  | zero => exact fun _ _ _ _ j hj => absurd hj (Nat.not_lt_zero j)
  | succ n ih =>
    intro v s tag h hrun hend hwin j hj
    rw [mapUserLoop] at hrun
    rcases ha : pagingAllocPage s with ⟨_ | a, s₁⟩
    · simp [ha] at hrun
    rcases hm : pagingMapUserPage im (pagingZeroFrame im s₁ a) v a fl with ⟨_ | _, s₃⟩
    · simp [ha, hm] at hrun
    simp only [ha, hm] at hrun
    rw [pagingZeroFrame_eq] at hm
    obtain ⟨tag₃, e, b, g, hw, huser, hfree, -⟩ := grant_entry h ha hpr haddr hm
    have hinj := @pages_injective v (n + 1) hend
    cases j with
    | zero =>
      -- the later turns leave the first page alone
      obtain ⟨tag', g', -⟩ := @mapUserLoop_spec im fl n (v + pageSize) s₃ tag₃ g.forest
      rw [hrun] at g'
      refine ⟨e, b, ?_, huser, hfree⟩
      rw [Nat.zero_mul, Nat.add_zero, g'.walk g.forest ?_ ?_, hw]
      · have := hwin 0 (Nat.succ_pos n)
        rwa [Nat.zero_mul, Nat.add_zero] at this
      · rintro ⟨k, hk, hpath⟩
        have := hinj 0 (Nat.succ_pos n) (k + 1) (by omega) (by
          rw [Nat.zero_mul, Nat.add_zero, hpath]
          congr 1
          ring)
        omega
    | succ j =>
      have hshift : ∀ k, v + pageSize + k * pageSize = v + (k + 1) * pageSize := fun k => by ring
      obtain ⟨e', b', hw', huser', hfree'⟩ := ih g.forest hrun (by rw [hshift]; exact hend)
        (fun k hk => by rw [hshift]; exact hwin (k + 1) (by omega)) j (by omega)
      rw [hshift] at hw'
      refine ⟨e', b', hw', huser', ?_⟩
      by_contra hc
      rw [g.bits _ (by simpa using hc)] at hfree'
      cases hfree'

/-- The range that is mapped is 33 pages. -/
theorem stack_range : pageOf (userStackTop - userStackSize) = userStackTop - userStackSize ∧
    userRangePages (userStackTop - userStackSize) (userStackSize + pageSize) = 33 := by
  decide

/-- The stack is built in pages of its own. -/
theorem elfUserStackInit_pages (him : im.kernelEnd ≤ userImagePhysStart) (h : UserReach im s roots kernel)
    (hcall : elfUserStackInit im s argv envp = some (b, s')) :
    UserReach im s' roots kernel ∧ ∃ tag, Holds im roots kernel tag (userStackTop - userStackSize)
      (userStackTop + pageSize) s' s' (userMemory s') := by
  obtain ⟨hm, -⟩ := elfUserStackInit_some hcall
  have hreach : UserReach im s' roots kernel := by
    have := TableReach.step h (.also .stack)
    rwa [hm] at this
  obtain ⟨tag₀, h₀⟩ := h.sound him
  obtain ⟨tag, hs⟩ := hreach.sound him
  rw [pagingMapUserRange, stack_range.1, stack_range.2] at hm
  have hwindow : ∀ v, userStackTop - userStackSize ≤ v → v < userStackTop + pageSize → ¬ Window (pathOf v) := by
    rintro v hlo hhi (hc | hc) <;>
    · have := pathOf_inj (by simp only [userStackTop, pageSize] at hhi; omega) (by decide) hc
      simp only [kernelKmapWindow, userStackTop, userStackSize, pageSize] at *
      omega
  have hpages := mapUserLoop_entries (by decide) (by decide) 33 h₀.forest hm (by decide) fun j hj hc =>
    hwindow _ (Nat.le_add_right ..) (by simp only [userStackTop, userStackSize, pageSize]; omega) (Or.inl hc)
  have hentries : ∀ v, userStackTop - userStackSize ≤ v → v < userStackTop + pageSize →
      ∃ e, UserEntry s' s'.pml4 v e ∧ ¬ ImageFrame (entryFrame e) := by
    intro v hlo hhi
    obtain ⟨j, hj, hpage⟩ := (pages_iff (n := 33) (by decide) (by decide) (hhi.trans (by decide))).mpr
      ⟨hlo, hhi.trans_eq (by decide)⟩
    obtain ⟨e, b, hw, huser, hfree⟩ := hpages j hj
    rw [← walk_page hpage] at hw
    refine ⟨e, ⟨hwindow v hlo hhi, ⟨b, hw⟩, huser⟩, fun hc => ?_⟩
    rw [(h₀.image _ hc).2] at hfree
    cases hfree
  refine ⟨hreach, tag, hs, .refl, .refl hs.forest, hentries, fun v hlo hhi => ?_⟩
  obtain ⟨e, he, -⟩ := hentries v hlo hhi
  rw [userMemory, userByte, he.pageAt]
  rfl

/-- The stack of a new program is in the frames of its pages. The stores of `elf_build_stack` lead to a state
    that is reached, in which the program reads there what was built; and what programs have on other pages
    is as it was. -/
theorem stack_in_frames (him : im.kernelEnd ≤ userImagePhysStart) (h : UserReach im s roots kernel)
    (hla : argv.length ≤ 15) (hle : envp.length ≤ 15) (hsize : textSize argv + textSize envp < 127 * 1024)
    (hcall : elfUserStackInit im s argv envp = some (b, s')) : ∃ ws,
      Stores ⟨userStackTop, userMemory s'⟩ ⟨b.sp, b.mem⟩ ws ∧ UserReach im (storeAll s' ws) roots kernel ∧
      (∃ args envs random, InitialStack { b with mem := userMemory (storeAll s' ws) } argv envp args envs random) ∧
      ∀ r ∈ roots, ∀ v e, UserEntry s' r v e →
        (∀ u, userStackTop - userStackSize ≤ u → u < userStackTop + pageSize → pathOf v ≠ pathOf u) →
        (storeAll s' ws).mem (entryFrame e) = s'.mem (entryFrame e) := by
  obtain ⟨hreach, tag, hholds⟩ := elfUserStackInit_pages him h hcall
  obtain ⟨-, hb⟩ := elfUserStackInit_some hcall
  obtain ⟨args, envs, random, hinit⟩ := elfBuildStack_initial hla hle hsize (userMemory s')
  rw [← hb] at hinit
  have hsp : userStackTop - userStackSize ≤ b.sp := (hinit.inside _ (List.mem_append_right _
    (List.mem_cons_of_mem _ (List.mem_singleton_self _)))).1
  obtain ⟨ws, hws⟩ := elfBuildStack_stores argv envp (userMemory s') (by
    rw [← hb]
    exact lt_of_lt_of_le (by decide) hsp)
  rw [← hb] at hws
  have hend : userStackTop + pageSize ≤ 2 ^ 48 := by decide
  have hdone := hholds.storeAll hend ws fun w hw =>
    ⟨hsp.trans (hws.inside w hw).1, (hws.inside w hw).2.trans (Nat.le_add_right ..)⟩
  rw [← hws.mem] at hdone
  refine ⟨ws, hws, hreach.run hdone.run, ⟨args, envs, random, hinit.congr fun v hlo hhi => ?_⟩,
    fun r hr v e he hout => hdone.others hholds.sound hholds.entries hr he hout⟩
  rw [userMemory, hdone.bytes v hlo hhi, Option.getD_some]

/-! ### A stack that is built -/

/-- The stack can be mapped where seven frames are left for each of its pages. -/
theorem elfUserStackInit_works (h : Forest s tag) (hr : 231 ≤ (tableFrames im s).card) (argv envp : List Text) :
    ∃ b s', elfUserStackInit im s argv envp = some (b, s') := by
  obtain ⟨s', hloop⟩ := @mapUserLoop_works im (pagePresent ||| pageWritable) 33
    (userStackTop - userStackSize) s tag h (by decide) hr
  rw [elfUserStackInit, pagingMapUserRange, stack_range.1, stack_range.2, hloop]
  exact ⟨_, s', rfl⟩

/-- Nothing else is mapped. -/
theorem elfUserStackInit_granted (h : Forest s tag) (hcall : elfUserStackInit im s argv envp = some (b, s')) :
    ∃ tag', Granted (Pages (userStackTop - userStackSize) 33) s tag s' tag' := by
  obtain ⟨hm, -⟩ := elfUserStackInit_some hcall
  obtain ⟨tag', g, -⟩ := @mapUserLoop_spec im (pagePresent ||| pageWritable) 33
    (userStackTop - userStackSize) s tag h
  rw [pagingMapUserRange, stack_range.1, stack_range.2] at hm
  rw [hm] at g
  exact ⟨tag', g.mono fun π hπ => hπ.mono (Nat.min_le_left ..)⟩

/-- Two arguments and one string of environment, for a program that has asked for a page before. -/
theorem stack_in_frames_two : ∃ s e b s' ws args envs random,
    UserReach smallImage s [smallImage.pmlTable] ∅ ∧
      elfUserStackInit smallImage s [[Fs.slash], [Fs.slash, Fs.slash]] [[]] = some (b, s') ∧
      UserReach smallImage (storeAll s' ws) [smallImage.pmlTable] ∅ ∧
      InitialStack { b with mem := userMemory (storeAll s' ws) } [[Fs.slash], [Fs.slash, Fs.slash]] [[]]
        args envs random ∧
      UserEntry s' smallImage.pmlTable 0x1000000 e ∧
      (storeAll s' ws).mem (entryFrame e) = s'.mem (entryFrame e) := by
  obtain ⟨pt, he, ht⟩ := early_init smallImage (fun _ _ => 0#64) mostMemory
  have hmany := spareTables_most
  rw [initTables_most] at he ht
  obtain ⟨t, htab⟩ := Option.isSome_iff_exists.mp <| (ht (pdIndex 0x1000000)).mpr <| by
    rw [(low_index (by decide)).2.2]
    decide
  obtain ⟨n, pt₁, s, a, e, hmmap, hn, -, he₁, hw, hu, -⟩ :=
    @sysMmap_page _ _ 0x1000000 _ _ _ _ _ he (by omega) (by decide) (by decide) (by decide) htab
  have hreach : UserReach smallImage s [smallImage.pmlTable] ∅ := by
    have := TableReach.mmap 0x1000000 4096 3 0x20
      (TableReach.init (fun _ _ => 0#64) mostMemory : UserReach smallImage mostVm _ _)
    rwa [hmmap] at this
  obtain ⟨tag, hs⟩ := hreach.sound (by decide)
  obtain ⟨b, s', hcall⟩ := elfUserStackInit_works hs.forest ((by omega : 231 ≤ _).trans he₁.left)
    [[Fs.slash], [Fs.slash, Fs.slash]] [[]]
  obtain ⟨ws, -, hdone, ⟨args, envs, random, hinit⟩, hothers⟩ :=
    stack_in_frames (by decide) hreach (by decide) (by decide) (by decide) hcall
  have hout : ∀ u, userStackTop - userStackSize ≤ u → u < userStackTop + pageSize →
      pathOf 0x1000000 ≠ pathOf u := by
    intro u hlo hhi hc
    have := pathOf_inj (by decide) (hhi.trans (by decide)) hc
    simp only [userStackTop, userStackSize, pageSize] at *
    omega
  have hwin : ¬ Window (pathOf 0x1000000) := by
    rintro (hc | hc) <;> exact absurd hc (by decide)
  -- the page that the program asked for is where it was
  obtain ⟨tag', g⟩ := elfUserStackInit_granted hs.forest hcall
  have hsame := g.walk hs.forest (v := 0x1000000) (fun hc => hwin (Or.inl hc)) <| by
    rintro ⟨j, hj, hc⟩
    exact hout _ (Nat.le_add_right ..) (by simp only [userStackTop, userStackSize, pageSize]; omega) hc
  have hentry : UserEntry s' smallImage.pmlTable 0x1000000 e := by
    refine ⟨hwin, ⟨a, ?_⟩, hu⟩
    rw [← he₁.pml4, ← g.pml4, hsame, hw]
  exact ⟨s, e, b, s', ws, args, envs, random, hreach, hcall, hdone, hinit, hentry,
    hothers _ (List.mem_singleton_self _) _ _ hentry hout⟩

end TypeOS.Elf
