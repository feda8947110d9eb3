import TypeOS.Paging.EarlyUser
import TypeOS.Paging.Exact

/-! When a clone works.

    A clone takes a frame for each table of the program's and one for each of its pages, and nothing
    else: where so many are left, it does not fail. A page above the first 512 GiB has tables of its own,
    so that a program that has one is a small case of it. -/

namespace TypeOS.Paging
open FirstFit Radix

variable {im : Image} {s s' s₀ s₁ : Vm} {tag tag' : Nat → Option Path} {t f d n m v phys : Nat}
  {i : Fin 512} {p : Path} {e fl tfl : Word}

/-! ### Frames that are left -/

/-- The frames that `paging_alloc_table` may take. -/
def tableFrames (im : Image) (s : Vm) : Finset Nat :=
  (Finset.range (min s.totalFrames tableLimit)).filter fun f => tableFrame im s f = true

theorem mem_tableFrames :
    f ∈ tableFrames im s ↔ f < s.totalFrames ∧ f < tableLimit ∧ tableFrame im s f = true := by
  rw [tableFrames, Finset.mem_filter, Finset.mem_range, lt_min_iff, and_assoc]

/-- While `s₀` is cloned: what was in use is as it was, and `n` frames are left for tables. -/
structure Left (im : Image) (s₀ : Vm) (n : Nat) (s : Vm) : Prop where
  used : ∀ f, bitmapTest s₀ f = true → bitmapTest s f = true
  same : ∀ f, bitmapTest s₀ f = true → s.mem f = s₀.mem f
  room : n ≤ (tableFrames im s).card

theorem Left.begin (h : n ≤ (tableFrames im s).card) : Left im s n s :=
  ⟨fun _ hf => hf, fun _ _ => rfl, h⟩

theorem Left.fewer (h : Left im s₀ n s) (hm : m ≤ n) : Left im s₀ m s :=
  ⟨h.used, h.same, hm.trans h.room⟩

theorem Left.touch (h : Left im s₀ n s) (a : Nat) : Left im s₀ n (touch s a) :=
  ⟨h.used, h.same, h.room⟩

/-- A frame that was free when the clone began may be written. -/
theorem Left.fill (h : Left im s₀ n s) (hf : bitmapTest s₀ f = false) (w : Fin 512 → Word) :
    Left im s₀ n (writeFrame s f w) := by
  refine ⟨h.used, fun g hg => ?_, h.room⟩
  have hne : g ≠ f := by
    rintro rfl
    rw [hf] at hg
    cases hg
  exact (Function.update_of_ne hne ..).trans (h.same g hg)

theorem Left.write (h : Left im s₀ n s) (hf : bitmapTest s₀ f = false) : Left im s₀ n (writeEntry s f i e) :=
  h.fill hf _

/-- It was free if it is free now. -/
theorem Left.free (h : Left im s₀ n s) (hf : bitmapTest s f = false) : bitmapTest s₀ f = false := by
  by_contra hc
  rw [h.used f (by simpa using hc)] at hf
  cases hf

/-- Each frame taken is one less. -/
theorem Left.take (h : Left im s₀ (n + 1) s) (hf : bitmapTest s f = false)
    (hbits : ∀ g, bitmapTest s' g = (decide (g = f) || bitmapTest s g)) (htotal : s'.totalFrames = s.totalFrames)
    (hmem : ∀ g, g ≠ f → s'.mem g = s.mem g) : Left im s₀ n s' := by
  have hnew := h.free hf
  have hsub : tableFrames im s ⊆ insert f (tableFrames im s') := by
    intro g hg
    obtain ⟨h1, h2, h3⟩ := mem_tableFrames.mp hg
    rcases eq_or_ne g f with rfl | hne
    · exact Finset.mem_insert_self ..
    · refine Finset.mem_insert_of_mem (mem_tableFrames.mpr ⟨htotal.symm ▸ h1, h2, ?_⟩)
      rw [tableFrame, hbits, decide_eq_false hne, Bool.false_or]
      exact h3
  have hcard := (Finset.card_le_card hsub).trans (Finset.card_insert_le ..)
  have hroom := h.room
  refine ⟨fun g hg => ?_, fun g hg => ?_, by omega⟩
  · rw [hbits, h.used g hg, Bool.or_true]
  · rw [hmem g, h.same g hg]
    rintro rfl
    rw [hnew] at hg
    cases hg

theorem Left.null (h : Left im s₀ n s) (hnull : bitmapTest s₀ 0 = true) : bitmapTest s 0 = true :=
  h.used 0 hnull

theorem Left.exists_frame (h : Left im s₀ (n + 1) s) :
    ∃ f, f < s.totalFrames ∧ f < tableLimit ∧ tableFrame im s f = true := by
  obtain ⟨f, hf⟩ := Finset.card_pos.mp (Nat.lt_of_lt_of_le n.succ_pos h.room)
  exact ⟨f, mem_tableFrames.mp hf⟩

theorem Left.allocTable (h : Left im s₀ (n + 1) s) (hnull : bitmapTest s₀ 0 = true) :
    ∃ f s', pagingAllocTable im s = (some f, s') ∧ bitmapTest s₀ f = false ∧ Left im s₀ n s' := by
  rcases ha : pagingAllocTable im s with ⟨_ | f, s'⟩
  · obtain ⟨f, h1, h2, h3⟩ := h.exists_frame
    rcases pagingAllocTable_cases im (h.null hnull) with ⟨-, hgone⟩ | ⟨g, hg, -⟩
    · rw [hgone f (lt_min h1 h2)] at h3
      cases h3
    · rw [hg] at ha
      cases ha
  · have hf := pagingAllocTable_some (h.null hnull) ha
    exact ⟨f, s', rfl, h.free hf.free, h.take hf.free hf.bits hf.total hf.other⟩

theorem Left.allocPage (h : Left im s₀ (n + 1) s) (hnull : bitmapTest s₀ 0 = true) :
    ∃ f s', pagingAllocPage s = (some (f * pageSize), s') ∧ f < tableLimit ∧ bitmapTest s₀ f = false ∧
      Left im s₀ n s' := by
  obtain ⟨g, h1, h2, h3⟩ := h.exists_frame
  have hg : (!bitmapTest s g) = true := (Bool.and_eq_true_iff.mp h3).2
  rw [pagingAllocPage]
  rcases hs : firstFrom (fun i => !bitmapTest s i) s.totalFrames 0 with _ | f
  · have := firstFrom_none hs g (Nat.zero_le g) (by omega)
    rw [hg] at this
    cases this
  · obtain ⟨-, -, hfree, hleast⟩ := firstFrom_some hs
    have hfree : bitmapTest s f = false := by simpa using hfree
    have hle : f ≤ g := by
      by_contra hlt
      rw [hleast g (Nat.zero_le g) (by omega)] at hg
      cases hg
    have hne : f * pageSize ≠ 0 := by
      rintro h0
      obtain rfl : f = 0 := by simpa [pageSize] using h0
      rw [h.null hnull] at hfree
      cases hfree
    refine ⟨f, bitmapSet s f, ?_, by omega, h.free hfree, h.take hfree (fun g => ?_) bitmapSet_total
      fun g _ => by rw [bitmapSet_mem]⟩
    · simp only [framePtr, if_neg hne]
    · rw [bitmapTest_bitmapSet]

/-! ### The loops -/

/-- What the entries of a table take to clone: a frame for each page of the program's, and one for each
    table besides what that takes. -/
def cloneCost (mem : Memory) : Nat → Nat → Nat
  | 0, t => ((List.finRange 512).map fun i =>
      if has (mem t i) pagePresent && has (mem t i) pageUser then 1 else 0).sum
  | k + 1, t => ((List.finRange 512).map fun i =>
      if has (mem t i) pagePresent && has (mem t i) pageUser then 1 + cloneCost mem k (entryFrame (mem t i))
      else 0).sum

/-- The program's pages below a table are below `IDENTITY_MAP_LIMIT`, where they are copied directly. -/
def LowPages (mem : Memory) : Nat → Nat → Prop
  | 0, t => ∀ i, has (mem t i) pagePresent = true → has (mem t i) pageUser = true →
      entryFrame (mem t i) < tableLimit
  | k + 1, t => ∀ i, has (mem t i) pagePresent = true → has (mem t i) pageUser = true →
      LowPages mem k (entryFrame (mem t i))

/-- A loop works that has the frames its turns take. -/
theorem Left.loop {body : Fin 512 → Vm → Bool × Vm} {cost : Fin 512 → Nat}
    (hbody : ∀ i n s, Left im s₀ (cost i + n) s → ∃ s', body i s = (true, s') ∧ Left im s₀ n s') :
    ∀ (l : List (Fin 512)) {s : Vm}, Left im s₀ ((l.map cost).sum + n) s →
      ∃ s', forEach body l s = (true, s') ∧ Left im s₀ n s'
  | [], s, h => ⟨s, rfl, h.fewer (by simp)⟩
  | i :: l, s, h => by
    obtain ⟨s₁, hone, h₁⟩ := hbody i _ s (h.fewer (m := cost i + ((l.map cost).sum + n)) (by simp; omega))
    obtain ⟨s₂, hrest, h₂⟩ := Left.loop hbody l h₁
    exact ⟨s₂, by rw [forEach, hone]; exact hrest, h₂⟩

/-- A clone of a table takes one frame more than its entries. -/
theorem Left.table {body : Nat → Nat → Fin 512 → Vm → Bool × Vm} {run : Vm → Nat → Nat → Fin 512 → Bool × Vm}
    {cost : Fin 512 → Nat} {u : Nat} (hnull : bitmapTest s₀ 0 = true)
    (hrun : ∀ s t u i, run s t u i = match pagingAllocTable im s with
      | (none, s) => (false, s)
      | (some c, s) => forEach (body c u) (List.finRange 512) (writeEntry s t i (frameWord c ||| cloneFlags)))
    (hbody : ∀ c, bitmapTest s₀ c = false → ∀ i n s, Left im s₀ (cost i + n) s →
      ∃ s', body c u i s = (true, s') ∧ Left im s₀ n s')
    (ht : bitmapTest s₀ t = false) (h : Left im s₀ (1 + ((List.finRange 512).map cost).sum + n) s) :
    ∃ s', run s t u i = (true, s') ∧ Left im s₀ n s' := by
  obtain ⟨c, s₁, halloc, hc, h₁⟩ :=
    (h.fewer (m := ((List.finRange 512).map cost).sum + n + 1) (by omega)).allocTable hnull
  rw [hrun, halloc]
  exact Left.loop (hbody c hc) (List.finRange 512) (h₁.write ht)

/-- One turn on the way down: an entry is copied, or the table it points at is cloned. -/
theorem Left.turn {c k : Nat} {r : Bool × Vm} (hsrc : s.mem t i = s₀.mem t i) (hc : bitmapTest s₀ c = false)
    (h : Left im s₀ ((if has (s₀.mem t i) pagePresent && has (s₀.mem t i) pageUser then 1 + k else 0) + n) s)
    (habsent : has (s.mem t i) pagePresent = false → r = (true, s))
    (hkernel : has (s.mem t i) pagePresent = true → has (s.mem t i) pageUser = false →
      r = (true, writeEntry s c i (s.mem t i)))
    (huser : has (s₀.mem t i) pagePresent = true → has (s₀.mem t i) pageUser = true →
      Left im s₀ (1 + k + n) s → ∃ s', r = (true, s') ∧ Left im s₀ n s') :
    ∃ s', r = (true, s') ∧ Left im s₀ n s' := by
  rw [hsrc] at habsent hkernel
  cases hp : has (s₀.mem t i) pagePresent with
  | false => exact ⟨s, habsent hp, h.fewer (by omega)⟩
  | true =>
    cases hu : has (s₀.mem t i) pageUser with
    | false => exact ⟨_, hkernel hp hu, (h.write hc).fewer (by omega)⟩
    | true =>
      rw [hp, hu, Bool.and_self, if_pos rfl] at h
      exact huser hp hu h

theorem Left.copyFrame (h : Left im s₀ n s) (hd : bitmapTest s₀ d = false) (hlow : d < tableLimit)
    (hf : f < tableLimit) : ∃ s', pagingCopyFrame im s (d * pageSize) (f * pageSize) = (true, s') ∧
      Left im s₀ n s' := by
  have hlim : ∀ g, g < tableLimit → g * pageSize < identityMapLimit := by
    intro g hg
    simp only [tableLimit, identityMapLimit, pageSize] at *
    omega
  rw [pagingCopyFrame, if_pos ⟨hlim f hf, hlim d hlow⟩]
  refine ⟨_, rfl, ?_⟩
  rw [frame_div d]
  exact ((h.touch _).touch _).fill hd _

theorem clonePte_works (hnull : bitmapTest s₀ 0 = true) (ht : bitmapTest s₀ t = true)
    (hlow : LowPages s₀.mem 0 t) {c : Nat} (hc : bitmapTest s₀ c = false)
    (h : Left im s₀ ((if has (s₀.mem t i) pagePresent && has (s₀.mem t i) pageUser then 1 else 0) + n) s) :
    ∃ s', clonePte im c t i s = (true, s') ∧ Left im s₀ n s' := by
  have hsrc : s.mem t i = s₀.mem t i := congrFun (h.same t ht) i
  refine Left.turn (k := 0) hsrc hc h (fun hp => by simp [clonePte, hp])
    (fun hp hu => by simp [clonePte, hp, hu]) fun hp hu h => ?_
  obtain ⟨f, s₁, halloc, hlim, hf, h₁⟩ := (h.fewer (m := n + 1) (by omega)).allocPage hnull
  obtain ⟨s₂, hcopy, h₂⟩ := h₁.copyFrame hf hlim (hlow i hp hu)
  rw [← hsrc] at hp hu hcopy
  refine ⟨writeEntry s₂ c i (BitVec.ofNat 64 (f * pageSize) ||| (s.mem t i &&& ~~~pteAddrMask)), ?_,
    h₂.write hc⟩
  simp only [clonePte, hp, hu, Bool.not_true, Bool.false_eq_true, if_false, halloc, hcopy]

/-- A level on the way down works if the one below does. -/
theorem clone_level (body : Nat → Nat → Fin 512 → Vm → Bool × Vm) (run : Vm → Nat → Nat → Fin 512 → Bool × Vm)
    {k : Nat} (hf : Forest s₀ tag) (ht : tag t = some p) (hp : p.length + k = 2) (hlow : LowPages s₀.mem (k + 1) t)
    (habsent : ∀ c i s, has (s.mem t i) pagePresent = false → body c t i s = (true, s))
    (hkernel : ∀ c i s, has (s.mem t i) pagePresent = true → has (s.mem t i) pageUser = false →
      body c t i s = (true, writeEntry s c i (s.mem t i)))
    (huser : ∀ c i s, has (s.mem t i) pagePresent = true → has (s.mem t i) pageUser = true →
      has (s.mem t i) pageHuge = false →
      body c t i s = run (touch s (entryFrame (s.mem t i) * pageSize)) c (entryFrame (s.mem t i)) i)
    (hrun : ∀ {u q c i n s}, tag u = some q → q.length + k = 3 → LowPages s₀.mem k u → bitmapTest s₀ c = false →
      Left im s₀ (1 + cloneCost s₀.mem k u + n) s → ∃ s', run s c u i = (true, s') ∧ Left im s₀ n s')
    {c : Nat} (hc : bitmapTest s₀ c = false) (i : Fin 512) (n : Nat) (s : Vm)
    (h : Left im s₀ ((if has (s₀.mem t i) pagePresent && has (s₀.mem t i) pageUser then
      1 + cloneCost s₀.mem k (entryFrame (s₀.mem t i)) else 0) + n) s) :
    ∃ s', body c t i s = (true, s') ∧ Left im s₀ n s' := by
  have hsrc : s.mem t i = s₀.mem t i := congrFun (h.same t (hf.used t p ht).2.2) i
  refine Left.turn hsrc hc h (habsent c i s) (hkernel c i s) fun hpr hus h => ?_
  have hhuge : has (s₀.mem t i) pageHuge = false := by
    rcases Nat.lt_or_ge p.length 2 with hlt | hge
    · exact hf.upper t p i ht hlt hpr
    · by_contra hh
      rw [(hf.huge t p i ht (by omega) hpr (by simpa using hh)).2] at hus
      cases hus
  have hnext : tag (entryFrame (s₀.mem t i)) = some (p ++ [i]) := (hf.child ht (by omega) hpr fun _ => hhuge).2
  rw [huser c i s (hsrc ▸ hpr) (hsrc ▸ hus) (hsrc ▸ hhuge), hsrc]
  exact hrun hnext (by rw [List.length_append, List.length_singleton]; omega) (hlow i hpr hus) hc (h.touch _)

theorem pagingCloneUserPt_works (hf : Forest s₀ tag) {u c : Nat} (hu : tag u = some p)
    (hlow : LowPages s₀.mem 0 u) (hc : bitmapTest s₀ c = false)
    (h : Left im s₀ (1 + cloneCost s₀.mem 0 u + n) s) :
    ∃ s', pagingCloneUserPt im s c u i = (true, s') ∧ Left im s₀ n s' :=
  Left.table hf.null (fun _ _ _ _ => rfl)
    (fun _ hd _ _ _ h => clonePte_works hf.null (hf.used u p hu).2.2 hlow hd h) hc h

theorem pagingCloneUserPd_works (hf : Forest s₀ tag) {u c : Nat} (hu : tag u = some p) (hp : p.length = 2)
    (hlow : LowPages s₀.mem 1 u) (hc : bitmapTest s₀ c = false)
    (h : Left im s₀ (1 + cloneCost s₀.mem 1 u + n) s) :
    ∃ s', pagingCloneUserPd im s c u i = (true, s') ∧ Left im s₀ n s' :=
  Left.table hf.null (fun _ _ _ _ => rfl) (fun _ hd => clone_level (clonePde im)
    (pagingCloneUserPt im) hf hu (by omega) hlow
    (fun _ _ _ hpr => by simp [clonePde, hpr]) (fun _ _ _ hpr hus => by simp [clonePde, hpr, hus])
    (fun _ _ _ hpr hus hh => by simp [clonePde, hpr, hus, hh])
    (fun hq _ hl hc h => pagingCloneUserPt_works hf hq hl hc h) hd) hc h

theorem pagingCloneUserPdpt_works (hf : Forest s₀ tag) {u c : Nat} (hu : tag u = some p) (hp : p.length = 1)
    (hlow : LowPages s₀.mem 2 u) (hc : bitmapTest s₀ c = false)
    (h : Left im s₀ (1 + cloneCost s₀.mem 2 u + n) s) :
    ∃ s', pagingCloneUserPdpt im s c u i = (true, s') ∧ Left im s₀ n s' :=
  Left.table hf.null (fun _ _ _ _ => rfl) (fun _ hd => clone_level (clonePdpte im)
    (pagingCloneUserPd im) hf hu (by omega) hlow
    (fun _ _ _ hpr => by simp [clonePdpte, hpr]) (fun _ _ _ hpr hus => by simp [clonePdpte, hpr, hus])
    (fun _ _ _ hpr hus _ => by simp [clonePdpte, hpr, hus])
    (fun hq hlen hl hc h => pagingCloneUserPd_works hf hq (by omega) hl hc h) hd) hc h

/-- A clone works where as many frames are left as the program has tables and pages, and one for the
    new root. -/
theorem cloneUser_works (hf : Forest s tag) (hlow : LowPages s.mem 3 s.pml4)
    (hroom : 1 + cloneCost s.mem 3 s.pml4 ≤ (tableFrames im s).card) :
    ∃ c s', pagingCloneCurrentAddressSpace im s true = (some c, s') := by
  obtain ⟨c, s₁, halloc, hc, h₁⟩ :=
    ((Left.begin hroom).fewer (m := cloneCost s.mem 3 s.pml4 + 0 + 1) (by omega)).allocTable hf.null
  obtain ⟨s₂, hloop, -⟩ := Left.loop (clone_level (clonePml4e im true)
    (pagingCloneUserPdpt im) hf hf.root rfl hlow
    (fun _ _ _ hpr => by simp [clonePml4e, hpr]) (fun _ _ _ hpr hus => by simp [clonePml4e, hpr, hus])
    (fun _ _ _ hpr hus _ => by simp [clonePml4e, hpr, hus])
    (fun hq hlen hl hc h => pagingCloneUserPdpt_works hf hq (by omega) hl hc h) hc) (List.finRange 512) h₁
  exact ⟨c, s₂, by simp only [pagingCloneCurrentAddressSpace, halloc, hloop]⟩

/-! ### Pages above the first 512 GiB -/

theorem writeEntry_table : (writeEntry s t i e).mem t = Function.update (s.mem t) i e := Function.update_self ..

section
variable {mem : Memory} {mb : MultibootInfo} {pt : Fin 512 → Option Nat} {k : Nat} {w : Fin 512 → Word}

theorem Early.take (h : Early im mem mb n pt s) (hk : Spare im mb k) (hrank : spareRank im mb k = n)
    (hf : Fresh s s' k w) : Early im mem mb (n + 1) pt s' := by
  have hlt := hk.image_lt
  have hpml : im.pmlTable ≠ k := by
    simp only [Image.pdTable] at hlt
    omega
  have hpdp : im.pdpTable ≠ k := by
    simp only [Image.pdTable, Image.pdpTable] at *
    omega
  have hpd : im.pdTable ≠ k := by omega
  refine ⟨fun f => ?_, hf.total.trans h.total, hf.pml4.trans h.pml4, ?_, ?_, fun i t ht => ?_,
    fun i hi hnone => ?_, fun f h0 h1 h2 hrest => ?_⟩
  · rw [hf.bits, h.bits, left_succ (spare_eq_true.mpr hk) hrank, Bool.not_and, Bool.not_not, Bool.or_comm]
  · rw [hf.other _ hpml]
    exact h.root
  · rw [hf.other _ hpdp]
    exact h.dir
  · obtain ⟨h1, h2, h3⟩ := h.table i t ht
    rw [hf.other _ hpd]
    exact ⟨h1, h2, by omega⟩
  · rw [hf.other _ hpd]
    exact h.absent i hi hnone
  · have hne : f ≠ k := by
      rintro rfl
      have := hrest hk
      omega
    rw [hf.other f hne]
    refine h.rest f h0 h1 h2 fun hsp => ?_
    have := hrest hsp
    omega

/-- Entries of the root other than the first may be written. -/
theorem Early.top (h : Early im mem mb n pt s) (hi : i ≠ 0) :
    Early im mem mb n pt (writeEntry s im.pmlTable i e) := by
  have hpdp : im.pdpTable ≠ im.pmlTable := by simp [Image.pdpTable]
  have hpd : im.pdTable ≠ im.pmlTable := by simp [Image.pdTable]
  refine ⟨h.bits, h.total, h.pml4, ?_, ?_, ?_, ?_, fun f h0 h1 h2 hrest => ?_⟩
  · rw [writeEntry_other fun hc => hi (Prod.mk.inj hc).2.symm]
    exact h.root
  · rw [writeEntry_frame hpdp]
    exact h.dir
  · rw [writeEntry_frame hpd]
    exact h.table
  · rw [writeEntry_frame hpd]
    exact h.absent
  · rw [writeEntry_frame h0]
    exact h.rest f h0 h1 h2 hrest

/-- The table of an entry that is not there is the lowest spare frame that is left. -/
theorem Early.makeTable (h : Early im mem mb n pt s) (hn : n < spareTables im mb) (tfl : Word)
    (habs : has (s.mem t i) pagePresent = false) :
    ∃ k s₁, getOrCreateTable im s t i tfl = (some k, writeEntry s₁ t i (frameWord k ||| tfl)) ∧
      Spare im mb k ∧ spareRank im mb k = n ∧ k < tableLimit ∧ Fresh s s₁ k (fun _ => 0#64) ∧
      Early im mem mb (n + 1) pt s₁ := by
  rcases h.allocTable with ⟨k, s₁, hall, hk, hrank, hlim, hf⟩ | ⟨-, hfew⟩
  · refine ⟨k, s₁, ?_, hk, hrank, hlim, hf, h.take hk hrank hf⟩
    rw [getOrCreateTable]
    simp only [habs, hall, Bool.false_eq_true, if_false]
  · omega

/-- The identity map leaves the first table as it was, but for its first entry. -/
theorem extendIdentityFrom_root (im : Image) (n : Nat) : ∀ {addr : Nat} {s : Vm} {tag : Nat → Option Path},
    Forest s tag → addr + n * pageSize ≤ 2 ^ 30 → ∀ i : Fin 512, 0 < i.val →
    (extendIdentityFrom im n addr s).pml4 = s.pml4 ∧
      (extendIdentityFrom im n addr s).mem s.pml4 i = s.mem s.pml4 i := by
  induction n with
  | zero => exact fun _ _ _ _ => ⟨rfl, rfl⟩
  | succ n ih =>
    intro addr s tag h hend i hi
    rw [Nat.succ_mul] at hend
    rcases hm : pagingMapPage im s addr addr (pagePresent ||| pageWritable) with ⟨ok, s₁⟩
    obtain ⟨tag₁, g⟩ := pagingMapPage_mapped h hm
    have hfirst : s₁.mem s.pml4 i = s.mem s.pml4 i := by
      rcases g.off _ [] i h.root with hsame | ⟨⟨π, rfl, hpre⟩, -⟩
      · exact hsame
      · obtain ⟨h0, -⟩ := @low_index addr (by simp only [pageSize] at hend; omega)
        have hzero := (List.cons_prefix_cons.mp hpre).1
        rw [hzero, h0] at hi
        cases hi
    rw [extendIdentityFrom, hm]
    cases ok with
    | false => exact ⟨g.pml4, hfirst⟩
    | true =>
      obtain ⟨hroot, hmem⟩ := ih g.forest (by linarith : addr + pageSize + n * pageSize ≤ 2 ^ 30) i hi
      rw [g.pml4] at hroot hmem
      exact ⟨hroot, hmem.trans hfirst⟩

theorem pagingInit_root (im : Image) (mem : Memory) (mb : MultibootInfo) (i : Fin 512) (hi : 0 < i.val) :
    (pagingInit im mem mb).mem im.pmlTable i = 0#64 := by
  obtain ⟨hmem, hpml4, -⟩ := pagingInitFrames_spec im mem mb
  have hroot := (extendIdentityFrom_root im ((identity4kEnd - identity4kStart) / pageSize)
    (forest_initFrames im mem mb)
    (by decide : identity4kStart + (identity4kEnd - identity4kStart) / pageSize * pageSize ≤ 2 ^ 30) i hi).2
  rw [hpml4] at hroot
  rw [pagingInit, pagingExtendIdentityMap, hroot, hmem, bootMemory_pml, if_neg]
  rintro rfl
  cases hi

/-- An operation along the path of `v` writes one entry of the root at most. -/
theorem Changed.root_entry {W : Path → Prop} (g : Changed (· = pathOf v) W s tag s' tag') (h : Forest s tag)
    (hi : i ≠ pml4Index v) : s'.mem s.pml4 i = s.mem s.pml4 i := by
  rcases g.off _ [] i h.root with hsame | ⟨⟨π, rfl, hpre⟩, -⟩
  · exact hsame
  · exact absurd (List.cons_prefix_cons.mp hpre).1 hi

/-- Clearing a frame through the window leaves all entries of the root but the first as they are. -/
theorem zeroFrame_root (h : Forest s tag) (hf : tag f = none) (hb : bitmapTest s f = true) (hlt : f < 2 ^ 40)
    (hi : i ≠ 0) : (pagingZeroFrame im s (f * pageSize)).mem s.pml4 i = s.mem s.pml4 i := by
  have hwindow : i ≠ pml4Index kernelKmapWindow := by
    rwa [(low_index (by decide : kernelKmapWindow < 2 ^ 30)).1]
  rcases hm : pagingMapPage im s kernelKmapWindow (f * pageSize) (pagePresent ||| pageWritable) with ⟨ok, s₁⟩
  obtain ⟨tag₁, g₁⟩ := pagingMapPage_mapped h hm
  have h₁ := g₁.root_entry h hwindow
  rw [pagingZeroFrame, hm]
  cases ok with
  | false => exact h₁
  | true =>
    have hf₁ := g₁.untagged hf hb
    have hfill : Forest (writeFrame s₁ f fun _ => 0#64) tag₁ := g₁.forest.congr (fun u q hu =>
      Function.update_of_ne (by rintro rfl; rw [hf₁] at hu; cases hu) ..) (fun _ hg => hg) rfl
    have hne : s.pml4 ≠ f := by
      rintro rfl
      rw [h.root] at hf
      cases hf
    have h₂ := (pagingUnmapPage_mapped hfill kernelKmapWindow).root_entry hfill hwindow
    rw [show (writeFrame s₁ f fun _ => 0#64).pml4 = s.pml4 from g₁.pml4] at h₂
    simp only [clearThrough, mapped_frame h hlt (by decide) hm]
    exact h₂.trans ((congrFun (Function.update_of_ne hne ..) i).trans h₁)

/-- A page whose entry of the root is not there gets three tables of its own. -/
theorem Early.mapPage_above (h : Early im mem mb n pt s) (hn : n + 2 < spareTables im mb) (fl tfl : Word)
    (hv : v % pageSize = 0) (hphys : phys % pageSize = 0) (h0 : pml4Index v ≠ 0)
    (habs : has (s.mem im.pmlTable (pml4Index v)) pagePresent = false) :
    ∃ k₁ k₂ k₃ s', pagingMapPageFlags im s v phys fl tfl = (true, s') ∧ Early im mem mb (n + 3) pt s' ∧
      k₁ < tableLimit ∧ k₂ < tableLimit ∧ k₃ < tableLimit ∧
      (∀ j, j ≠ pml4Index v → s'.mem im.pmlTable j = s.mem im.pmlTable j) ∧
      s'.mem im.pmlTable (pml4Index v) = frameWord k₁ ||| tfl ∧
      s'.mem k₁ = Function.update (fun _ => 0#64) (pdpIndex v) (frameWord k₂ ||| tfl) ∧
      s'.mem k₂ = Function.update (fun _ => 0#64) (pdIndex v) (frameWord k₃ ||| tfl) ∧
      s'.mem k₃ = Function.update (fun _ => 0#64) (ptIndex v) ((BitVec.ofNat 64 phys &&& pteAddrMask) ||| fl) := by
  obtain ⟨k₁, s₁, hget₁, hk₁, hr₁, hl₁, hf₁, he₁⟩ := h.makeTable (by omega) tfl habs
  have hzero : has 0#64 pagePresent = false := by decide
  have he₁' := he₁.top (e := frameWord k₁ ||| tfl) h0
  have hpml : ∀ {k}, Spare im mb k → im.pmlTable ≠ k := fun {k} hk => by
    have := hk.image_lt
    simp only [Image.pdTable] at this
    omega
  have hmem₁ : (writeEntry s₁ im.pmlTable (pml4Index v) (frameWord k₁ ||| tfl)).mem k₁ = fun _ => 0#64 := by
    rw [writeEntry_frame (hpml hk₁).symm, hf₁.self]
  obtain ⟨k₂, s₂, hget₂, hk₂, hr₂, hl₂, hf₂, he₂⟩ := he₁'.makeTable (t := k₁) (i := pdpIndex v) (by omega) tfl
    (by rw [hmem₁]; exact hzero)
  have he₂' := he₂.write (i := pdpIndex v) (e := frameWord k₂ ||| tfl) hk₁ (by omega)
  have h12 : k₂ ≠ k₁ := by
    rintro rfl
    omega
  have hmem₂ : (writeEntry s₂ k₁ (pdpIndex v) (frameWord k₂ ||| tfl)).mem k₂ = fun _ => 0#64 := by
    rw [writeEntry_frame h12, hf₂.self]
  obtain ⟨k₃, s₃, hget₃, hk₃, hr₃, hl₃, hf₃, he₃⟩ := he₂'.makeTable (t := k₂) (i := pdIndex v) (by omega) tfl
    (by rw [hmem₂]; exact hzero)
  have he₃' := he₃.write (i := pdIndex v) (e := frameWord k₃ ||| tfl) hk₂ (by omega)
  have h13 : k₃ ≠ k₁ := by
    rintro rfl
    omega
  have h23 : k₃ ≠ k₂ := by
    rintro rfl
    omega
  have hsplit : splitHugePage im _ _ _ = (true, _) := splitHugePage_absent
    (show has ((writeEntry s₂ k₁ (pdpIndex v) (frameWord k₂ ||| tfl)).mem k₂ (pdIndex v)) pagePresent = false by
      rw [hmem₂]; exact hzero)
  refine ⟨k₁, k₂, k₃, _, ?_, he₃'.write (i := ptIndex v)
    (e := (BitVec.ofNat 64 phys &&& pteAddrMask) ||| fl) hk₃ (by omega), hl₁, hl₂, hl₃, fun j hj => ?_, ?_, ?_,
    ?_, ?_⟩
  · rw [pagingMapPageFlags, if_neg (by omega), h.pml4]
    simp only [hget₁, hget₂, hsplit, hget₃]
  · rw [writeEntry_frame (hpml hk₃), writeEntry_frame (hpml hk₂), hf₃.other _ (hpml hk₃),
      writeEntry_frame (hpml hk₁), hf₂.other _ (hpml hk₂), writeEntry_other fun hc => hj (Prod.mk.inj hc).2,
      hf₁.other _ (hpml hk₁)]
  · rw [writeEntry_frame (hpml hk₃), writeEntry_frame (hpml hk₂), hf₃.other _ (hpml hk₃),
      writeEntry_frame (hpml hk₁), hf₂.other _ (hpml hk₂), writeEntry_self]
  · rw [writeEntry_frame h13.symm, writeEntry_frame h12.symm, hf₃.other _ h13.symm, writeEntry_table,
      hf₂.other _ h12.symm, hmem₁]
  · rw [writeEntry_frame h23.symm, writeEntry_table, hf₃.other _ h23.symm, hmem₂]
  · rw [writeEntry_table, writeEntry_frame h23, hf₃.self]

/-- The frames that are left for tables. -/
theorem Early.left (h : Early im mem mb n pt s) : spareTables im mb - n ≤ (tableFrames im s).card := by
  have hsub : Finset.Ico n (spareTables im mb) ⊆ (tableFrames im s).image (spareRank im mb) := by
    intro j hj
    obtain ⟨hlo, hhi⟩ := Finset.mem_Ico.mp hj
    obtain ⟨f, hf, hfree, hrank⟩ := exists_rank hhi
    refine Finset.mem_image.mpr ⟨f, mem_tableFrames.mpr ⟨?_, hf, ?_⟩, hrank⟩
    · rw [h.total]
      exact (spare_eq_true.mp hfree).lt_total
    · rw [h.tableFrame, left_eq_true]
      exact ⟨hfree, by rw [hrank]; exact hlo⟩
  calc spareTables im mb - n = (Finset.Ico n (spareTables im mb)).card := (Nat.card_Ico ..).symm
    _ ≤ _ := (Finset.card_le_card hsub).trans Finset.card_image_le

/-- A user page above the first 512 GiB. -/
theorem Early.grant_above (h : Early im mem mb n pt s) (hf : Forest s tag) (hn : n + 4 < spareTables im mb)
    (flags : Word) (hv : v % pageSize = 0) (h0 : pml4Index v ≠ 0)
    (habs : has (s.mem im.pmlTable (pml4Index v)) pagePresent = false) :
    ∃ k k₁ k₂ k₃ m pt' s', mapUserLoop im flags 1 v s = (true, s') ∧ m ≤ n + 5 ∧ Early im mem mb m pt' s' ∧
      k < tableLimit ∧ k₁ < tableLimit ∧ k₂ < tableLimit ∧ k₃ < tableLimit ∧
      (∀ j, j ≠ 0 → j ≠ pml4Index v → s'.mem im.pmlTable j = s.mem im.pmlTable j) ∧
      s'.mem im.pmlTable (pml4Index v) = frameWord k₁ ||| cloneFlags ∧
      s'.mem k₁ = Function.update (fun _ => 0#64) (pdpIndex v) (frameWord k₂ ||| cloneFlags) ∧
      s'.mem k₂ = Function.update (fun _ => 0#64) (pdIndex v) (frameWord k₃ ||| cloneFlags) ∧
      s'.mem k₃ = Function.update (fun _ => 0#64) (ptIndex v)
        ((BitVec.ofNat 64 (k * pageSize) &&& pteAddrMask) ||| (flags ||| pageUser)) := by
  rcases h.allocPage with ⟨k, halloc, hk, hrank, h'⟩ | ⟨-, hgone⟩
  · have hlim : k < tableLimit := by
      by_contra hge
      have hle : spareTables im mb ≤ spareRank im mb k := rank_le (not_lt.mp hge)
      omega
    have hfree : bitmapTest s k = false := by
      rw [h.bits, Bool.not_eq_false', left_eq_true]
      exact ⟨spare_eq_true.mpr hk, hrank.ge⟩
    have g := Mapped.take (E := fun _ => True) (W := fun _ => False) hf k
    have hroot : ∀ j, j ≠ 0 → (pagingZeroFrame im (bitmapSet s k) (k * pageSize)).mem im.pmlTable j =
        s.mem im.pmlTable j := by
      intro j hj
      have : (pagingZeroFrame im _ _).mem _ _ = _ :=
        zeroFrame_root g.forest (hf.untagged hfree) (by rw [bitmapTest_bitmapSet]; simp) hk.lt hj
      rwa [bitmapSet_pml4, bitmapSet_mem, h.pml4] at this
    obtain ⟨m, pt', hlo, hhi, -, hzero⟩ := h'.zeroFrame hk (by omega)
    obtain ⟨k₁, k₂, k₃, s', hmap, he, hk₁, hk₂, hk₃, hrest, hmem⟩ := hzero.mapPage_above (by omega) (flags ||| pageUser)
      cloneFlags hv (Nat.mul_mod_left k pageSize) h0 (hroot _ h0 ▸ habs)
    refine ⟨k, k₁, k₂, k₃, m + 3, pt', s', ?_, by omega, he, hlim, hk₁, hk₂, hk₃,
      fun j h0 hj => (hrest j hj).trans (hroot j h0), hmem⟩
    simp only [mapUserLoop, halloc, pagingMapUserPage]
    rw [show pagePresent ||| pageWritable ||| pageUser = cloneFlags from rfl, hmap]
  · obtain ⟨f, -, hfree, hrank⟩ := exists_rank (show n < spareRank im mb tableLimit by
      rw [spareTables] at hn; omega)
    have := hgone f (spare_eq_true.mp hfree)
    rw [spareRank, hrank] at this
    exact absurd this (lt_irrefl n)

end

/-! ### A program of one page -/

/-- A table with one entry of the program's costs what that entry does. -/
theorem cloneCost_single {mem : Memory} {k : Nat} (hno : ∀ j, j ≠ i → has (mem t j) pageUser = false) :
    cloneCost mem 0 t ≤ 1 ∧ cloneCost mem (k + 1) t ≤ 1 + cloneCost mem k (entryFrame (mem t i)) := by
  have hone : ∀ cost : Fin 512 → Nat, (∀ j, j ≠ i → cost j = 0) → ((List.finRange 512).map cost).sum = cost i := by
    intro cost hcost
    rw [List.sum_map_eq_nsmul_single i cost fun j hj _ => hcost j hj,
      List.count_eq_one_of_mem (List.nodup_finRange 512) (List.mem_finRange i), one_smul]
  constructor
  · rw [cloneCost, hone _ fun j hj => by simp [hno j hj]]
    split <;> omega
  · rw [cloneCost, hone _ fun j hj => by simp [hno j hj]]
    split <;> omega

theorem lowPages_single {mem : Memory} {k : Nat} (hno : ∀ j, j ≠ i → has (mem t j) pageUser = false)
    (h : LowPages mem k (entryFrame (mem t i))) : LowPages mem (k + 1) t := by
  intro j _ hu
  by_cases hj : j = i
  · rwa [hj]
  · rw [hno j hj] at hu
    cases hu

/-- A program of one page costs one frame for each of its tables and one for the page. -/
theorem clone_one_page {m : Memory} {t k₁ k₂ k₃ : Nat} {e : Word} {i₀ : Fin 512}
    (hroot : ∀ j, j ≠ i₀ → has (m t j) pageUser = false) (hm₁ : m t i₀ = frameWord k₁ ||| cloneFlags)
    (hm₂ : m k₁ = Function.update (fun _ => 0#64) 0 (frameWord k₂ ||| cloneFlags))
    (hm₃ : m k₂ = Function.update (fun _ => 0#64) 0 (frameWord k₃ ||| cloneFlags))
    (hm₄ : m k₃ = Function.update (fun _ => 0#64) 0 e) (hk₁ : k₁ < 2 ^ 40) (hk₂ : k₂ < 2 ^ 40)
    (hk₃ : k₃ < 2 ^ 40) (hlow : entryFrame e < tableLimit) : cloneCost m 3 t ≤ 4 ∧ LowPages m 3 t := by
  have hother : ∀ {e : Word} (j : Fin 512), j ≠ 0 →
      has (Function.update (fun _ => 0#64) (0 : Fin 512) e j) pageUser = false := by
    intro e j hj
    rw [Function.update_of_ne hj]
    decide
  have hnext : ∀ {k}, k < 2 ^ 40 → entryFrame (frameWord k ||| cloneFlags) = k := fun {k} hk =>
    (nextTable_some (tableFlags_user.next hk)).2.2
  have hc₁ : cloneCost m 3 t ≤ 1 + cloneCost m 2 k₁ := by
    have h := (@cloneCost_single _ _ m 2 hroot).2
    rwa [hm₁, hnext hk₁] at h
  have hc₂ : cloneCost m 2 k₁ ≤ 1 + cloneCost m 1 k₂ := by
    have h := (@cloneCost_single k₁ 0 m 1 (by rw [hm₂]; exact hother)).2
    rwa [hm₂, Function.update_self, hnext hk₂] at h
  have hc₃ : cloneCost m 1 k₂ ≤ 1 + cloneCost m 0 k₃ := by
    have h := (@cloneCost_single k₂ 0 m 0 (by rw [hm₃]; exact hother)).2
    rwa [hm₃, Function.update_self, hnext hk₃] at h
  have hc₄ : cloneCost m 0 k₃ ≤ 1 := (@cloneCost_single k₃ 0 m 0 (by rw [hm₄]; exact hother)).1
  have hlow₄ : LowPages m 0 k₃ := by
    intro j _ hj
    rw [hm₄] at hj ⊢
    by_cases h0 : j = 0
    · rw [h0, Function.update_self]
      exact hlow
    · rw [hother j h0] at hj
      cases hj
  have hlow₃ : LowPages m 1 k₂ := lowPages_single (i := 0) (by rw [hm₃]; exact hother)
    (by rw [hm₃, Function.update_self, hnext hk₃]; exact hlow₄)
  have hlow₂ : LowPages m 2 k₁ := lowPages_single (i := 0) (by rw [hm₂]; exact hother)
    (by rw [hm₂, Function.update_self, hnext hk₂]; exact hlow₃)
  exact ⟨by omega, lowPages_single hroot (by rw [hm₁, hnext hk₁]; exact hlow₂)⟩

/-- Right after the start of a machine with ten frames for tables left, with a page of the program's at
    512 GiB, a clone works, whatever a free frame holds. -/
theorem clone_above {mb : MultibootInfo} {flags : Word}
    (hroom : initTables smallImage mb + 10 ≤ spareTables smallImage mb)
    (haddr : (flags ||| pageUser) &&& pteAddrMask = 0#64)
    (hpr : has (flags ||| pageUser) pagePresent = true) :
    ∃ s' e, mapUserLoop smallImage flags 1 0x8000000000 (pagingInit smallImage (fun _ _ => 0#64) mb) =
        (true, s') ∧
      walk s'.mem s'.pml4 0x8000000000 = some (e, true) ∧ (∃ f, bitmapTest s' f = false) ∧
      ∀ f words, bitmapTest s' f = false →
        ∃ c s'', pagingCloneCurrentAddressSpace smallImage (writeFrame s' f words) true = (some c, s'') := by
  obtain ⟨pt, he, -⟩ := early_init smallImage (fun _ _ => 0#64) mb
  obtain ⟨tag, hf, -⟩ := pagingInit_forest smallImage (fun _ _ => 0#64) mb
  obtain ⟨h1, h2, h3, h4⟩ : pml4Index 0x8000000000 = 1 ∧ pdpIndex 0x8000000000 = 0 ∧
      pdIndex 0x8000000000 = 0 ∧ ptIndex 0x8000000000 = 0 := by decide
  obtain ⟨k, k₁, k₂, k₃, m, pt', s', hcall, hm, he', hk, hk₁, hk₂, hk₃, hrest, hm₁, hm₂, hm₃, hm₄⟩ :=
    he.grant_above (v := 0x8000000000) hf (by omega) flags (by decide) (by rw [h1]; decide)
      (by rw [h1, pagingInit_root _ _ _ 1 (by decide)]; decide)
  rw [h1] at hm₁ hrest
  rw [h2] at hm₂
  rw [h3] at hm₃
  rw [h4] at hm₄
  have hlim : ∀ {k}, k < tableLimit → k < 2 ^ 40 := fun {k} hk => by
    simp only [tableLimit, identityMapLimit, pageSize] at hk
    omega
  obtain ⟨hleaf, hframe⟩ := @pageEntry_spec k (flags ||| pageUser) (hlim hk) haddr hpr
  set e := (BitVec.ofNat 64 (k * pageSize) &&& pteAddrMask) ||| (flags ||| pageUser)
  have huser : has e pageUser = true := by
    rw [has_user, BitVec.getLsbD_or, BitVec.getLsbD_or, show pageUser.getLsbD 2 = true from rfl, Bool.or_true,
      Bool.or_true]
  -- the root has one entry of the program's, and each table below it one entry at all
  have hroot : ∀ j, j ≠ 1 → has (s'.mem smallImage.pmlTable j) pageUser = false := by
    intro j hj
    by_cases h0 : j = 0
    · rw [h0, he'.root, TableFlags.user]
      decide
    · rw [hrest j h0 hj, pagingInit_root _ _ _ j (Nat.pos_of_ne_zero fun h => h0 (Fin.ext h))]
      decide
  obtain ⟨tag', g, -⟩ := @mapUserLoop_spec smallImage flags 1 0x8000000000 _ tag hf
  rw [hcall] at g
  have hn₁ := tableFlags_user.next (hlim hk₁)
  have hn₂ := tableFlags_user.next (hlim hk₂)
  have hn₃ := tableFlags_user.next (hlim hk₃)
  have ht := he'.pml4 ▸ g.forest.root
  have ht₁ := g.forest.tagged _ _ 1 k₁ ht (by simp) (by rw [hm₁, hn₁])
  have ht₂ := g.forest.tagged _ _ 0 k₂ ht₁ (by simp) (by rw [hm₂, Function.update_self, hn₂])
  have ht₃ := g.forest.tagged _ _ 0 k₃ ht₂ (by simp) (by rw [hm₃, Function.update_self, hn₃])
  have hpt : ptOf s'.mem s'.pml4 0x8000000000 = some k₃ := by
    rw [ptOf, tablePath, h1, h2, h3, he'.pml4, descend, hm₁, hn₁, Option.bind_some, descend, hm₂,
      Function.update_self, hn₂, Option.bind_some, descend, hm₃, Function.update_self, hn₃]
    rfl
  have hpath : userPath s'.mem s'.pml4 (tablePath 0x8000000000) = true := by
    have hu : ∀ c, has (frameWord c ||| cloneFlags) pageUser = true := fun c => by
      rw [TableFlags.user]
      decide
    rw [tablePath, h1, h2, h3, he'.pml4, userPath, hm₁, hu, hn₁, Option.map_some, Option.getD_some, userPath, hm₂,
      Function.update_self, hu, hn₂, Option.map_some, Option.getD_some, userPath, hm₃, Function.update_self, hu, hn₃]
    rfl
  have hleft := he'.left
  refine ⟨s', e, hcall, ?_, ?_, fun f words hfree => ?_⟩
  · rw [walk_ptOf hpt, hpath, h4, hm₄, Function.update_self, if_pos hleaf, huser]
    rfl
  · obtain ⟨f, hf⟩ := Finset.card_pos.mp (by omega : 0 < (tableFrames smallImage s').card)
    obtain ⟨-, -, htable⟩ := mem_tableFrames.mp hf
    exact ⟨f, tableFrame_free htable⟩
  · -- no table of the program's is the free frame
    have hmem : ∀ t p, tag' t = some p → (writeFrame s' f words).mem t = s'.mem t :=
      fun t p ht => Function.update_of_ne (g.forest.ne_free ht hfree) ..
    obtain ⟨hcost, hlow⟩ := @clone_one_page (writeFrame s' f words).mem smallImage.pmlTable k₁ k₂ k₃ e 1
      (by rwa [hmem _ _ ht]) (by rw [hmem _ _ ht, hm₁]) (by rw [hmem _ _ ht₁, hm₂]) (by rw [hmem _ _ ht₂, hm₃])
      (by rw [hmem _ _ ht₃, hm₄]) (hlim hk₁) (hlim hk₂) (hlim hk₃) (by rwa [hframe])
    have hroot : (writeFrame s' f words).pml4 = smallImage.pmlTable := he'.pml4
    have hframes : tableFrames smallImage (writeFrame s' f words) = tableFrames smallImage s' := rfl
    refine cloneUser_works (g.forest.congr hmem (fun _ hb => hb) rfl) ?_ ?_
    · rwa [hroot]
    · rw [hroot, hframes]
      omega

end TypeOS.Paging
