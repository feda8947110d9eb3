import TypeOS.Lib.Radix
import TypeOS.Paging.Tables

/-! The page tables as a forest of shared radix tables.

    Every address space the kernel knows is a root, and tables below the roots are shared freely
    between them. A tag gives each table the indices it is reached by; `Forest` says that the
    tables reached from any root are tagged frames, in use, and that huge pages occur in page
    directories only. The edits of `paging.c` write one entry of a tagged table, or put a zeroed
    frame to use as a new table. -/

namespace TypeOS.Paging
open Radix

/-- The indices of a table or an entry below a root. -/
abbrev Path := List (Fin 512)

/-- The indices that translate an address. -/
def pathOf (v : Nat) : Path := [pml4Index v, pdpIndex v, pdIndex v, ptIndex v]

/-- The indices of the page table of an address. -/
def tablePath (v : Nat) : Path := [pml4Index v, pdpIndex v, pdIndex v]

theorem pathOf_same {u v : Nat} (hu : u / pageSize = v / pageSize) : pathOf u = pathOf v := by
  have h12 : u / 2 ^ 12 = v / 2 ^ 12 := hu
  have hshift : ∀ k, u / 2 ^ (12 + k) = v / 2 ^ (12 + k) := fun k => by
    rw [Nat.pow_add, ← Nat.div_div_eq_div_mul, ← Nat.div_div_eq_div_mul, h12]
  simp only [pathOf, pml4Index, pdpIndex, pdIndex, ptIndex, h12, hshift 9, hshift 18, hshift 27]

/-- The table an entry points at. -/
def nextTable (e : Word) : Option Nat :=
  if has e pagePresent && !has e pageHuge then some (entryFrame e) else none

/-- What an entry that points at no table gives: a page of its own, or one of a huge page. -/
def leafEntry (e : Word) : Path → Option (Word × Bool)
  | [] => if has e pagePresent then some (e, has e pageUser) else none
  | [j] =>
    if has e pagePresent && has e pageHuge then some (splitEntry e j, has e pageUser) else none
  | _ => none

/-- Translation gives the entry of a page and whether every level allows user access. -/
def translator : Reader Nat (Fin 512) Word (Word × Bool) where
  next := nextTable
  via e r := (r.1, has e pageUser && r.2)
  stop := leafEntry

/-- What the tables under `root` make of the page of `v`. -/
def walk (mem : Memory) (root v : Nat) : Option (Word × Bool) :=
  look translator mem root (pathOf v)

/-- The page table of `v` under `root`. -/
def ptOf (mem : Memory) (root v : Nat) : Option Nat := descend nextTable mem root (tablePath v)

/-- Each table has the indices it is reached by, and is a frame in use; no entry above the last ones keeps
    a program from writing. -/
structure Forest (s : Vm) (tag : Nat → Option Path) : Prop where
  tagged : Tagged nextTable 3 s.mem tag
  depth : ∀ t p, tag t = some p → p.length ≤ 3
  upper : ∀ t p i, tag t = some p → p.length < 2 → has (s.mem t i) pagePresent = true →
    has (s.mem t i) pageHuge = false
  huge : ∀ t p i, tag t = some p → p.length = 2 → has (s.mem t i) pagePresent = true →
    has (s.mem t i) pageHuge = true →
    entryFrame (s.mem t i) % 512 = 0 ∧ has (s.mem t i) pageUser = false
  writable : ∀ t p i c, tag t = some p → p.length < 3 → nextTable (s.mem t i) = some c →
    has (s.mem t i) pageWritable = true
  used : ∀ t p, tag t = some p → 0 < t ∧ t < 2 ^ 40 ∧ bitmapTest s t = true
  null : bitmapTest s 0 = true
  root : tag s.pml4 = some []

variable {s s' : Vm} {tag : Nat → Option Path} {t f r v : Nat} {p q : Path} {i : Fin 512} {e : Word}

theorem Forest.untagged (h : Forest s tag) (hf : bitmapTest s f = false) : tag f = none := by
  rcases hp : tag f with _ | p
  · rfl
  · have := (h.used f p hp).2.2
    rw [hf] at this
    simp at this

theorem Forest.ne_free (h : Forest s tag) (ht : tag t = some p) (hf : bitmapTest s f = false) :
    t ≠ f := by
  rintro rfl
  rw [h.untagged hf] at ht
  cases ht

theorem Forest.keep_tag (h : Forest s tag) (hf : bitmapTest s f = false) (ht : tag t = some p) :
    Function.update tag f (some q) t = some p := by
  rw [Function.update_of_ne (h.ne_free ht hf)]
  exact ht

/-- The forest only depends on the frames of its tables and on their being in use. -/
theorem Forest.congr (h : Forest s tag) (hmem : ∀ t p, tag t = some p → s'.mem t = s.mem t)
    (hbits : ∀ f, bitmapTest s f = true → bitmapTest s' f = true) (hroot : s'.pml4 = s.pml4) :
    Forest s' tag := by
  refine ⟨?_, h.depth, ?_, ?_, ?_, ?_, hbits 0 h.null, hroot ▸ h.root⟩
  · intro t p i f ht hp hf
    rw [hmem t p ht] at hf
    exact h.tagged t p i f ht hp hf
  · intro t p i ht
    rw [hmem t p ht]; exact h.upper t p i ht
  · intro t p i ht
    rw [hmem t p ht]; exact h.huge t p i ht
  · intro t p i c ht
    rw [hmem t p ht]; exact h.writable t p i c ht
  · intro t p ht
    obtain ⟨h1, h2, h3⟩ := h.used t p ht
    exact ⟨h1, h2, hbits t h3⟩

/-- Another root of the forest becomes the current one. -/
theorem Forest.switch (h : Forest s tag) (hr : tag r = some []) :
    Forest (pagingSwitchCr3 s r) tag :=
  ⟨h.tagged, h.depth, h.upper, h.huge, h.writable, h.used, h.null, hr⟩

/-- Walks only depend on the frames of the tables. -/
theorem Forest.walk_congr (h : Forest s tag) (hmem : ∀ t p, tag t = some p → s'.mem t = s.mem t)
    (hr : tag r = some []) : walk s'.mem r v = walk s.mem r v :=
  h.tagged.look_congr hr (by simp [pathOf]) fun u w i hu _ => by rw [hmem u w hu]

/-- A huge page is none of the user's. -/
theorem Forest.huge_closed {j : Fin 512} (h : Forest s tag) (ht : tag t = some p)
    (hlen : p.length + (i :: j :: q).length = 4) :
    leafEntry (s.mem t i) (j :: q) ≠ some (e, true) := by
  intro hl
  simp only [List.length_cons] at hlen
  cases q with
  | cons => cases hl
  | nil =>
    rw [leafEntry] at hl
    split at hl
    · next hc =>
      rw [Bool.and_eq_true] at hc
      have hno := (h.huge t p i ht (by simpa using hlen) hc.1 hc.2).2
      rw [hno] at hl
      cases hl
    · cases hl

/-- What a user reaches he still reaches, if the entries that point at tables still do and are closed to
    nobody, and the last entries stay. -/
theorem Forest.look_users {m : Memory} (h : Forest s tag)
    (hup : ∀ u w k g, tag u = some w → w.length < 3 → nextTable (s.mem u k) = some g →
      nextTable (m u k) = some g ∧ (has (s.mem u k) pageUser = true → has (m u k) pageUser = true))
    (hlast : ∀ u w k, tag u = some w → w.length = 3 → m u k = s.mem u k) :
    ∀ {q : Path} {t : Nat} {p : Path}, tag t = some p → p.length + q.length = 4 →
      look translator s.mem t q = some (e, true) → look translator m t q = some (e, true)
  | [], _, _, _, _, hl => by simp [look] at hl
  | [k], t, p, ht, hlen, hl => by
    rw [look, hlast t p k ht (by simpa using hlen)]
    exact hl
  | k :: j :: q, t, p, ht, hlen, hl => by
    rw [look] at hl
    cases hn : translator.next (s.mem t k) with
    | none =>
      rw [hn] at hl
      exact absurd hl (h.huge_closed ht hlen)
    | some g =>
      rw [hn] at hl
      simp only [List.length_cons] at hlen
      obtain ⟨⟨e', u⟩, hl', hvia⟩ := Option.map_eq_some_iff.mp hl
      obtain ⟨he, hu⟩ := Prod.mk.inj hvia
      rw [Bool.and_eq_true] at hu
      obtain ⟨hk, hu⟩ := hu
      change e' = e at he
      change u = true at hu
      rw [he, hu] at hl'
      obtain ⟨hn', hk'⟩ := hup t p k g ht (by omega) hn
      have hnext : translator.next (m t k) = some g := hn'
      have hrest := h.look_users hup hlast (h.tagged t p k g ht (by omega) hn)
        (by simp only [List.length_append, List.length_cons, List.length_nil]; omega) hl'
      rw [look, hnext]
      dsimp only
      rw [hrest, Option.map_some]
      simp only [translator, hk' hk, Bool.true_and]

/-! ### What the source reads -/

theorem nextTable_eq (hp : has e pagePresent = true) (hh : has e pageHuge = false) :
    nextTable e = some (entryFrame e) := by
  rw [nextTable, hp, hh]; rfl

theorem nextTable_none (hp : has e pagePresent = false) : nextTable e = none := by
  rw [nextTable, hp]; rfl

theorem nextTable_some (h : nextTable e = some f) :
    has e pagePresent = true ∧ has e pageHuge = false ∧ entryFrame e = f := by
  rw [nextTable] at h
  split at h
  · next hc =>
    rw [Bool.and_eq_true, Bool.not_eq_true'] at hc
    exact ⟨hc.1, hc.2, Option.some.inj h⟩
  · simp at h

/-- The table an entry of an upper table points at. -/
theorem Forest.child (h : Forest s tag) (ht : tag t = some p) (hp : p.length < 3)
    (he : has (s.mem t i) pagePresent = true)
    (hh : p.length = 2 → has (s.mem t i) pageHuge = false) :
    nextTable (s.mem t i) = some (entryFrame (s.mem t i)) ∧
      tag (entryFrame (s.mem t i)) = some (p ++ [i]) := by
  have hhuge : has (s.mem t i) pageHuge = false := by
    rcases Nat.lt_or_ge p.length 2 with hlt | hge
    · exact h.upper t p i ht hlt he
    · exact hh (by omega)
  have hn := nextTable_eq he hhuge
  exact ⟨hn, h.tagged t p i _ ht hp hn⟩

/-- `paging_virt_to_phys` reads the frame of the walk, and `0` where it ends nowhere. -/
theorem Forest.virtToPhys_eq (h : Forest s tag) (hr : tag r = some []) :
    virtToPhys s.mem r v =
      ((walk s.mem r v).map fun e => entryFrame e.1 * pageSize + v % pageSize).getD 0 := by
  rw [virtToPhys, walk, pathOf]
  cases h4 : has (s.mem r (pml4Index v)) pagePresent with
  | false => simp [look, translator, nextTable_none h4, leafEntry]
  | true =>
    obtain ⟨hn4, ht3⟩ := h.child hr (by simp) h4 (by simp)
    set pdpt := entryFrame (s.mem r (pml4Index v))
    rw [look, show translator.next = nextTable from rfl, hn4]
    cases h3 : has (s.mem pdpt (pdpIndex v)) pagePresent with
    | false => simp [look, translator, nextTable_none h3, leafEntry, h3]
    | true =>
      obtain ⟨hn3, ht2⟩ := h.child ht3 (by simp) h3 (by simp)
      simp only [h3, Bool.not_true, Bool.false_eq_true, if_false]
      set pd := entryFrame (s.mem pdpt (pdpIndex v))
      rw [look, show translator.next = nextTable from rfl, hn3]
      cases h2 : has (s.mem pd (pdIndex v)) pagePresent with
      | false => simp [look, translator, nextTable_none h2, leafEntry, h2]
      | true =>
        simp only [Bool.not_true, Bool.false_eq_true, if_false]
        cases hh : has (s.mem pd (pdIndex v)) pageHuge with
        | true =>
          have hal := (h.huge pd _ (pdIndex v) ht2 rfl h2 hh).1
          have hn2 : nextTable (s.mem pd (pdIndex v)) = none := by rw [nextTable, h2, hh]; rfl
          simp only [look, hn2, leafEntry, h2, hh, Bool.and_self, if_true, Option.map_some,
            Option.getD_some, translator, (splitEntry_spec hal _).1]
          simp only [ptIndex, Fin.val_ofNat, pageSize]
          omega
        | false =>
          obtain ⟨hn2, -⟩ := h.child ht2 (by simp) h2 fun _ => hh
          cases h1 : has (s.mem (entryFrame (s.mem pd (pdIndex v))) (ptIndex v)) pagePresent with
          | false => simp [look, translator, hn2, leafEntry, h1]
          | true =>
            simp only [look, hn2, leafEntry, h1, if_true, Option.map_some, Option.getD_some,
              translator, Bool.false_eq_true, if_false, Bool.not_true]

/-! ### Edits -/

@[simp] theorem writeEntry_self : (writeEntry s t i e).mem t i = e := by
  simp [writeEntry]

theorem writeEntry_other {u : Nat} {k : Fin 512} (h : (u, k) ≠ (t, i)) :
    (writeEntry s t i e).mem u k = s.mem u k := by
  rcases eq_or_ne u t with rfl | hu
  · have hk : k ≠ i := fun hk => h (by rw [hk])
    simp [writeEntry, hk]
  · simp [writeEntry, hu]

theorem writeEntry_frame {u : Nat} (h : u ≠ t) : (writeEntry s t i e).mem u = s.mem u := by
  simp [writeEntry, h]

@[simp] theorem bitmapTest_writeEntry : bitmapTest (writeEntry s t i e) f = bitmapTest s f := rfl

@[simp] theorem bitmapTest_writeFrame {w : Fin 512 → Word} :
    bitmapTest (writeFrame s t w) f = bitmapTest s f := rfl

@[simp] theorem bitmapTest_touch {a : Nat} : bitmapTest (touch s a) f = bitmapTest s f := rfl

theorem bitmapTest_bitmapSet : bitmapTest (bitmapSet s t) f = (decide (f = t) || bitmapTest s f) := by
  unfold bitmapTest
  split
  · simp
  · rw [bitmapSet]
    split
    · rw [decide_eq_false (by omega), Bool.false_or]
    · rcases eq_or_ne f t with rfl | hne
      · simp
      · simp [hne]

/-- An entry that points at a table of the right indices, or at none, may be written. -/
theorem Forest.write (h : Forest s tag) (ht : tag t = some p)
    (hn : p.length < 3 → ∀ g, nextTable e = some g →
      tag g = some (p ++ [i]) ∧ has e pageWritable = true)
    (hup : p.length < 2 → has e pagePresent = true → has e pageHuge = false)
    (hh : p.length = 2 → has e pagePresent = true → has e pageHuge = true →
      entryFrame e % 512 = 0 ∧ has e pageUser = false) :
    Forest (writeEntry s t i e) tag := by
  refine ⟨?_, h.depth, ?_, ?_, ?_, h.used, h.null, h.root⟩
  · intro u w k g hu hw hg
    by_cases hc : (u, k) = (t, i)
    · obtain ⟨rfl, rfl⟩ := Prod.mk.inj hc
      rw [ht, Option.some.injEq] at hu
      rw [writeEntry_self] at hg
      rw [← hu]; exact (hn (hu ▸ hw) g hg).1
    · rw [writeEntry_other hc] at hg
      exact h.tagged u w k g hu hw hg
  · intro u w k hu hw
    by_cases hc : (u, k) = (t, i)
    · obtain ⟨rfl, rfl⟩ := Prod.mk.inj hc
      rw [ht, Option.some.injEq] at hu
      rw [writeEntry_self]; exact hup (hu ▸ hw)
    · rw [writeEntry_other hc]; exact h.upper u w k hu hw
  · intro u w k hu hw
    by_cases hc : (u, k) = (t, i)
    · obtain ⟨rfl, rfl⟩ := Prod.mk.inj hc
      rw [ht, Option.some.injEq] at hu
      rw [writeEntry_self]; exact hh (hu ▸ hw)
    · rw [writeEntry_other hc]; exact h.huge u w k hu hw
  · intro u w k g hu hw hg
    by_cases hc : (u, k) = (t, i)
    · obtain ⟨rfl, rfl⟩ := Prod.mk.inj hc
      rw [ht, Option.some.injEq] at hu
      rw [writeEntry_self] at hg ⊢
      exact (hn (hu ▸ hw) g hg).2
    · rw [writeEntry_other hc] at hg ⊢
      exact h.writable u w k g hu hw hg

/-- Entries of a page table are free to be written. -/
theorem Forest.write_leaf (h : Forest s tag) (ht : tag t = some p) (hp : p.length = 3) :
    Forest (writeEntry s t i e) tag :=
  h.write ht (fun hc => by omega) (fun hc => by omega) (fun hc => by omega)

/-- A frame in use that is no table yet becomes one: a page table, or a table whose entries are
    absent or those of a table with the same indices. -/
theorem Forest.adopt (h : Forest s tag) (hf : tag f = none) (hp : p.length ≤ 3) (hpos : 0 < f)
    (hlt : f < 2 ^ 40) (hbit : bitmapTest s f = true)
    (hentry : p.length < 3 → ∀ i, has (s.mem f i) pagePresent = false ∨
      ∃ u, tag u = some p ∧ s.mem f i = s.mem u i) :
    Forest s (Function.update tag f (some p)) := by
  have hcase : ∀ u w, Function.update tag f (some p) u = some w →
      (u = f ∧ w = p) ∨ (u ≠ f ∧ tag u = some w) := by
    intro u w hu
    rcases eq_or_ne u f with rfl | hne
    · rw [Function.update_self, Option.some.injEq] at hu
      exact Or.inl ⟨rfl, hu.symm⟩
    · rw [Function.update_of_ne hne] at hu
      exact Or.inr ⟨hne, hu⟩
  have hold : ∀ u w, tag u = some w → Function.update tag f (some p) u = some w := by
    intro u w hu
    rw [Function.update_of_ne (by rintro rfl; rw [hf] at hu; simp at hu)]
    exact hu
  refine ⟨?_, ?_, ?_, ?_, ?_, ?_, h.null, hold _ _ h.root⟩
  · intro u w k g hu hw hg
    rcases hcase u w hu with ⟨rfl, rfl⟩ | ⟨-, hu⟩
    · rcases hentry hw k with hc | ⟨u', hu', hc⟩
      · rw [nextTable_none hc] at hg
        simp at hg
      · rw [hc] at hg
        exact hold _ _ (h.tagged u' w k g hu' hw hg)
    · exact hold _ _ (h.tagged u w k g hu hw hg)
  · intro u w hu
    rcases hcase u w hu with ⟨-, rfl⟩ | ⟨-, hu⟩
    · exact hp
    · exact h.depth u w hu
  · intro u w k hu hw hpr
    rcases hcase u w hu with ⟨rfl, rfl⟩ | ⟨-, hu⟩
    · rcases hentry (by omega) k with hc | ⟨u', hu', hc⟩
      · rw [hc] at hpr
        simp at hpr
      · rw [hc] at hpr ⊢
        exact h.upper u' w k hu' hw hpr
    · exact h.upper u w k hu hw hpr
  · intro u w k hu hw hpr
    rcases hcase u w hu with ⟨rfl, rfl⟩ | ⟨-, hu⟩
    · rcases hentry (by omega) k with hc | ⟨u', hu', hc⟩
      · rw [hc] at hpr
        simp at hpr
      · rw [hc] at hpr ⊢
        exact h.huge u' w k hu' hw hpr
    · exact h.huge u w k hu hw hpr
  · intro u w k g hu hw hg
    rcases hcase u w hu with ⟨rfl, rfl⟩ | ⟨-, hu⟩
    · rcases hentry hw k with hc | ⟨u', hu', hc⟩
      · rw [nextTable_none hc] at hg
        simp at hg
      · rw [hc] at hg ⊢
        exact h.writable u' w k g hu' hw hg
    · exact h.writable u w k g hu hw hg
  · intro u w hu
    rcases hcase u w hu with ⟨rfl, rfl⟩ | ⟨-, hu⟩
    · exact ⟨hpos, hlt, hbit⟩
    · exact h.used u w hu

end TypeOS.Paging
