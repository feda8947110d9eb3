import TypeOS.Proc.Counted

/-! What holds of the descriptor tables however calls fail.

    A `dup2`, an `exec`, an exit and a fork that fails leave counters that are too high, never one
    that is too low; and each of them leaves every descriptor an object of its own. The objects are
    looked after whatever they contain; the counters only while no call reads an object that is
    freed. -/

namespace TypeOS.Proc

open Kernel

/-- Every descriptor of a live task has an allocated object of its own, and what is set `apart` is
    allocated and no descriptor's. If `counted`, each pipe end that one is open on is an end of a pipe
    in use, and the counters are at least the number of descriptors. -/
structure Sound (counted : Prop) (apart : Set Handle) (k : Kernel) : Prop where
  live : ∀ x h, held k x = some h → h ∈ k.live
  own : ∀ x y h, held k x = some h → held k y = some h → x = y
  apart : ∀ h ∈ apart, h ∈ k.live ∧ ∀ x, held k x ≠ some h
  ends : counted → ∀ x p e, openEnd k x = some (p, e) →
    (e = 0 ∨ e = 1) ∧ (k.pipes p).inUse = true
  readers : counted → ∀ p, readEnds k p ≤ (k.pipes p).readers
  writers : counted → ∀ p, writeEnds k p ≤ (k.pipes p).writers

variable {counted : Prop} {apart : Set Handle} {k k' : Kernel} {t : Tid} {fd : Fd} {h src dst : Handle}
  {file : VfsFile} {x : Tid × Fd}

/-- Two descriptors of the current task have no object in common. -/
theorem Sound.fds_injective (b : Sound counted apart k) (hl : (k.tasks k.currentTask).Live) :
    ∀ g g' h, k.fds g = some h → k.fds g' = some h → g = g' := fun _ _ h hg hg' =>
  (Prod.mk.inj (b.own _ _ h (held_fds hl hg) (held_fds hl hg'))).2

/-- Slots are kept or forgotten, the objects keep their ends, and no counter falls. -/
theorem Sound.keep (b : Sound counted apart k) (hh : ∀ x, held k' x = held k x ∨ held k' x = none)
    (hl : k.live ⊆ k'.live)
    (hf : counted → ∀ x h, held k x = some h → (k'.files h).end = (k.files h).end)
    (hp : counted → ∀ p, (k'.pipes p).inUse = (k.pipes p).inUse ∧
      (k.pipes p).readers ≤ (k'.pipes p).readers ∧ (k.pipes p).writers ≤ (k'.pipes p).writers) :
    Sound counted apart k' := by
  have hold : ∀ x h, held k' x = some h → held k x = some h := by
    intro x h hx
    rcases hh x with heq | hnone
    · rwa [heq] at hx
    · rw [hnone] at hx
      simp at hx
  have hends : counted → ∀ x, openEnd k' x = openEnd k x ∨ openEnd k' x = none := by
    intro hc x
    cases hx : held k' x with
    | none => exact Or.inr (by rw [openEnd, hx, Option.bind_none])
    | some h =>
      left
      rw [openEnd, openEnd, hx, hold x h hx, Option.bind_some, Option.bind_some,
        hf hc x h (hold x h hx)]
  refine ⟨fun x h hx => hl (b.live x h (hold x h hx)),
    fun x y h hx hy => b.own x y h (hold x h hx) (hold y h hy),
    fun h hh => ⟨hl (b.apart h hh).1, fun x hx => (b.apart h hh).2 x (hold x h hx)⟩,
    fun hc x p e hx => ?_, fun hc p => ?_, fun hc p => ?_⟩
  · rw [(hp hc p).1]
    rcases hends hc x with heq | hnone
    · rw [heq] at hx
      exact b.ends hc x p e hx
    · rw [hnone] at hx
      simp at hx
  · exact (count_le (hends hc) _).trans ((b.readers hc p).trans (hp hc p).2.1)
  · exact (count_le (hends hc) _).trans ((b.writers hc p).trans (hp hc p).2.2)

/-- Nothing changes that is spoken of. -/
theorem Sound.same (b : Sound counted apart k) (hh : held k' = held k) (hl : k'.live = k.live)
    (hf : k'.files = k.files) (hp : ∀ p, (k'.pipes p).inUse = (k.pipes p).inUse ∧
      (k'.pipes p).readers = (k.pipes p).readers ∧ (k'.pipes p).writers = (k.pipes p).writers) :
    Sound counted apart k' :=
  b.keep (fun x => Or.inl (congrFun hh x)) hl.ge (fun _ _ _ _ => by rw [hf])
    fun _ p => ⟨(hp p).1, (hp p).2.1.ge, (hp p).2.2.ge⟩

/-- An empty slot gets an object that was not allocated, with its end counted. -/
theorem Sound.put (b : Sound counted apart k) (hn : held k x = none) (hd : dst ∉ k.live)
    (hh : held k' = Function.update (held k) x (some dst)) (hl : insert dst k.live ⊆ k'.live)
    (hf : counted → ∀ g, g ≠ dst → k'.files g = k.files g)
    (he : counted → ∀ p e, (k'.files dst).end = some (p, e) →
      (e = 0 ∨ e = 1) ∧ (k.pipes p).inUse = true)
    (hp : counted → ∀ p, (k'.pipes p).inUse = (k.pipes p).inUse ∧
      (k.pipes p).readers + unit (k'.files dst) p 0 ≤ (k'.pipes p).readers ∧
      (k.pipes p).writers + unit (k'.files dst) p 1 ≤ (k'.pipes p).writers) :
    Sound counted apart k' := by
  have hcases : ∀ y g, held k' y = some g → (y = x ∧ g = dst) ∨ (y ≠ x ∧ held k y = some g) := by
    intro y g hy
    rw [hh] at hy
    by_cases hyx : y = x
    · subst hyx
      rw [Function.update_self, Option.some.injEq] at hy
      exact Or.inl ⟨rfl, hy.symm⟩
    · rw [Function.update_of_ne hyx] at hy
      exact Or.inr ⟨hyx, hy⟩
  have hends : counted →
      openEnd k' = Function.update (openEnd k) x (k'.files dst).end := by
    intro hc
    funext y
    rw [openEnd, hh]
    by_cases hyx : y = x
    · subst hyx
      rw [Function.update_self, Function.update_self, Option.bind_some]
    · rw [Function.update_of_ne hyx, Function.update_of_ne hyx, openEnd]
      cases hy : held k y with
      | none => rfl
      | some g =>
        have hne : g ≠ dst := fun heq => hd (heq ▸ b.live y g hy)
        rw [Option.bind_some, Option.bind_some, hf hc g hne]
  have hnone : openEnd k x = none := by rw [openEnd, hn, Option.bind_none]
  refine ⟨fun y g hy => ?_, fun y z g hy hz => ?_, fun g hg => ⟨?_, fun y hy => ?_⟩,
    fun hc y p e hy => ?_, fun hc p => ?_, fun hc p => ?_⟩
  · rcases hcases y g hy with ⟨-, rfl⟩ | ⟨-, hy⟩
    · exact hl (Finset.mem_insert_self ..)
    · exact hl (Finset.mem_insert_of_mem (b.live y g hy))
  · rcases hcases y g hy with ⟨rfl, rfl⟩ | ⟨-, hy⟩ <;>
      rcases hcases z _ hz with ⟨rfl, hg⟩ | ⟨-, hz⟩
    · rfl
    · exact absurd (b.live z _ hz) hd
    · exact absurd (b.live y _ (hg ▸ hy)) hd
    · exact b.own y z g hy hz
  · exact hl (Finset.mem_insert_of_mem (b.apart g hg).1)
  · rcases hcases y g hy with ⟨-, rfl⟩ | ⟨-, hy⟩
    · exact hd (b.apart g hg).1
    · exact (b.apart g hg).2 y hy
  · rw [(hp hc p).1]
    rw [hends hc] at hy
    by_cases hyx : y = x
    · subst hyx
      rw [Function.update_self] at hy
      exact he hc p e hy
    · rw [Function.update_of_ne hyx] at hy
      exact b.ends hc y p e hy
  · have := b.readers hc p
    rw [readEnds] at this
    rw [readEnds, hends hc, count_fill hnone]
    exact le_trans (Nat.add_le_add_right this _) (hp hc p).2.1
  · have := b.writers hc p
    rw [writeEnds] at this
    rw [writeEnds, hends hc, count_fill hnone]
    exact le_trans (Nat.add_le_add_right this _) (hp hc p).2.2

/-- A slot is emptied and its object freed. A counter falls by the end of it at most, and a pipe that
    is freed has no end counted. -/
theorem Sound.drop (b : Sound counted apart k) (hx : held k x = some h)
    (hh : held k' = Function.update (held k) x none) (hl : k.live.erase h ⊆ k'.live)
    (hf : counted → ∀ g, g ≠ h → k'.files g = k.files g)
    (hp : counted → ∀ p, (k.pipes p).readers ≤ (k'.pipes p).readers + unit (k.files h) p 0 ∧
      (k.pipes p).writers ≤ (k'.pipes p).writers + unit (k.files h) p 1 ∧
      ((k'.pipes p).inUse = (k.pipes p).inUse ∨
        (k'.pipes p).readers = 0 ∧ (k'.pipes p).writers = 0)) :
    Sound counted apart k' := by
  have hcases : ∀ y g, held k' y = some g → y ≠ x ∧ held k y = some g := by
    intro y g hy
    rw [hh] at hy
    by_cases hyx : y = x
    · subst hyx
      simp at hy
    · rw [Function.update_of_ne hyx] at hy
      exact ⟨hyx, hy⟩
  have hother : ∀ y g, y ≠ x → held k y = some g → g ≠ h := fun y g hne hy heq =>
    hne (b.own y x h (heq ▸ hy) hx)
  have hends : counted → openEnd k' = Function.update (openEnd k) x none := by
    intro hc
    funext y
    rw [openEnd, hh]
    by_cases hyx : y = x
    · subst hyx
      simp
    · rw [Function.update_of_ne hyx, Function.update_of_ne hyx, openEnd]
      cases hy : held k y with
      | none => rfl
      | some g => rw [Option.bind_some, Option.bind_some, hf hc g (hother y g hyx hy)]
  have hend : openEnd k x = (k.files h).end := by rw [openEnd, hx, Option.bind_some]
  have hreaders : counted → ∀ p, readEnds k' p ≤ (k'.pipes p).readers := by
    intro hc p
    have hcount := b.readers hc p
    rw [readEnds, count_clear (openEnd k) x, ← hends hc, hend] at hcount
    exact Nat.le_of_add_le_add_right (hcount.trans (hp hc p).1)
  have hwriters : counted → ∀ p, writeEnds k' p ≤ (k'.pipes p).writers := by
    intro hc p
    have hcount := b.writers hc p
    rw [writeEnds, count_clear (openEnd k) x, ← hends hc, hend] at hcount
    exact Nat.le_of_add_le_add_right (hcount.trans (hp hc p).2.1)
  refine ⟨fun y g hy => ?_, fun y z g hy hz => ?_, fun g hg => ⟨?_, fun y hy => ?_⟩,
    fun hc y p e hy => ?_, hreaders, hwriters⟩
  · obtain ⟨hne, hy⟩ := hcases y g hy
    exact hl (Finset.mem_erase.mpr ⟨hother y g hne hy, b.live y g hy⟩)
  · exact b.own y z g (hcases y g hy).2 (hcases z g hz).2
  · exact hl (Finset.mem_erase.mpr ⟨fun heq => (b.apart g hg).2 x (heq ▸ hx), (b.apart g hg).1⟩)
  · exact (b.apart g hg).2 y (hcases y g hy).2
  · have hold : openEnd k y = some (p, e) := by
      rw [hends hc] at hy
      by_cases hyx : y = x
      · subst hyx
        simp at hy
      · rwa [Function.update_of_ne hyx] at hy
    obtain ⟨hside, hin⟩ := b.ends hc y p e hold
    refine ⟨hside, ?_⟩
    rcases (hp hc p).2.2 with hsame | ⟨hr, hw⟩
    · rw [hsame, hin]
    · -- the end that is still open is counted
      rcases hside with rfl | rfl
      · have := hreaders hc p
        rw [hr, Nat.le_zero] at this
        exact absurd hy (count_eq_zero.mp this y)
      · have := hwriters hc p
        rw [hw, Nat.le_zero] at this
        exact absurd hy (count_eq_zero.mp this y)

/-- A pipe that no descriptor is open on may become anything. -/
theorem Sound.onPipe (b : Sound counted apart k) {p : PipeId} (hh : held k' = held k)
    (hl : k.live ⊆ k'.live) (hf : ∀ x h, held k x = some h → k'.files h = k.files h)
    (hno : counted → ∀ x e, openEnd k x ≠ some (p, e))
    (hp : counted → ∀ q, q ≠ p → k'.pipes q = k.pipes q) : Sound counted apart k' := by
  have hends : counted → openEnd k' = openEnd k := fun _ => openEnd_congr hh hf
  refine ⟨fun x h hx => hl (b.live x h (hh ▸ hx)),
    fun x y h hx hy => b.own x y h (hh ▸ hx) (hh ▸ hy),
    fun h hg => ⟨hl (b.apart h hg).1, fun x hx => (b.apart h hg).2 x (hh ▸ hx)⟩,
    fun hc x q e hx => ?_, fun hc q => ?_, fun hc q => ?_⟩
  · rw [hends hc] at hx
    have hne : q ≠ p := by
      rintro rfl
      exact hno hc x e hx
    rw [hp hc q hne]
    exact b.ends hc x q e hx
  · rw [readEnds, hends hc]
    by_cases hne : q = p
    · subst hne
      rw [count_eq_zero.mpr fun x => hno hc x 0]
      exact Nat.zero_le _
    · rw [hp hc q hne]
      exact b.readers hc q
  · rw [writeEnds, hends hc]
    by_cases hne : q = p
    · subst hne
      rw [count_eq_zero.mpr fun x => hno hc x 1]
      exact Nat.zero_le _
    · rw [hp hc q hne]
      exact b.writers hc q

/-- A pipe that is not in use has no descriptor open on it. -/
theorem Sound.free (b : Sound counted apart k) (hc : counted) {p : PipeId}
    (hu : (k.pipes p).inUse = false) (x : Tid × Fd) (e : Int) : openEnd k x ≠ some (p, e) := by
  intro hx
  rw [(b.ends hc x p e hx).2] at hu
  simp at hu

/-! ### Files that come and go in the slots of live tasks -/

/-- A fresh file in an empty slot. -/
theorem Sound.install (b : Sound counted apart k) (hl : (k.tasks t).Live)
    (hn : (k.tasks t).fds fd = none) (hh : h ∉ k.live) (hfile : file.pipe = none) :
    Sound counted apart (Proc.install t fd h file k) := by
  have hself : (Proc.install t fd h file k).files h = file := Function.update_self ..
  have hplain : file.end = none := by rw [VfsFile.end, hfile, Option.map_none]
  refine b.put (x := (t, fd)) ?_ hh (held_install hl) subset_rfl
    (fun _ _ hg => Function.update_of_ne hg ..) (fun _ p e he => ?_) fun _ p => ⟨rfl, ?_, ?_⟩
  · simp [held, hn]
  · rw [hself, hplain] at he
    simp at he
  · rw [hself, unit, hplain, if_neg (by simp)]
    exact le_rfl
  · rw [hself, unit, hplain, if_neg (by simp)]
    exact le_rfl

/-- A copy of a descriptor in an empty slot. -/
theorem Sound.copy (b : Sound counted apart k) (hs : held k x = some src) (hl : (k.tasks t).Live)
    (hn : (k.tasks t).fds fd = none) (hd : dst ∉ k.live) {k₁ : Kernel}
    (ht : k₁.tasks = (k.setFd t fd (some dst)).tasks)
    (hf : ∀ g, g ≠ dst → k₁.files g = k.files g)
    (hv : k₁.live = insert dst k.live) (hp : k₁.pipes = k.pipes) :
    Sound counted apart (copyFile src dst k₁) := by
  obtain ⟨pipes, heq, hpipes⟩ := countEnd_eq (k₁.files src) (k₁.setFile dst (k₁.files src))
  have hsrc : k₁.files src = k.files src := hf src fun hc => hd (hc ▸ b.live x src hs)
  rw [hsrc] at hpipes heq
  have hself : (copyFile src dst k₁).files dst = k.files src := by
    rw [copyFile, hsrc, heq]
    exact Function.update_self ..
  have hpipes' : (copyFile src dst k₁).pipes = pipes := by rw [copyFile, hsrc, heq]
  have hk : (k₁.setFile dst (k.files src)).pipes = k.pipes := hp
  rw [hk] at hpipes
  refine b.put (x := (t, fd)) ?_ hd ?_ ?_ (fun _ g hg => ?_) (fun hc p e he => ?_) fun _ p => ?_
  · simp [held, hn]
  · rw [← held_setFd hl]
    exact held_congr (by rw [copyFile, hsrc, heq, ← ht]; rfl)
  · rw [← hv, copyFile, hsrc, heq]
    exact subset_rfl
  · rw [copyFile, hsrc, heq, ← hf g hg]
    exact Function.update_of_ne hg ..
  · rw [hself] at he
    refine b.ends hc x p e ?_
    rw [openEnd, hs, Option.bind_some, he]
  · rw [hself, hpipes']
    exact ⟨(hpipes p).1, (hpipes p).2.2.1.ge, (hpipes p).2.2.2.ge⟩

/-- A slot is emptied without a count being taken off. -/
theorem Sound.release (b : Sound counted apart k) (hx : held k (t, fd) = some h) (freed : VfsFile) :
    Sound counted apart (Proc.release t fd h freed k) :=
  b.drop hx (held_release (held_some.mp hx).1) subset_rfl
    (fun _ _ hg => Function.update_of_ne hg ..)
    fun _ _ => ⟨Nat.le_add_right .., Nat.le_add_right .., Or.inl rfl⟩

end TypeOS.Proc
