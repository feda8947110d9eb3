import TypeOS.Paging.Contents
import TypeOS.Sys.FreshPages

/-! The pages that are granted hold zeros.

    The frame of a page is cleared before it is mapped, if the temporary window can be used; then it is
    in use and no table, so what follows leaves it alone. `sys_brk` gives up where clearing fails;
    `paging_map_user_range` goes on, and the page is handed out as it is. -/

namespace TypeOS.Sys
open Paging Radix

variable {im : Image} {s s' s'' s₁ s₂ s₃ : Vm} {tag tag' tag'' : Nat → Option Path}
  {brk brk' addr len prot flags a n v : Nat} {fl : Word} {E W : Path → Prop}

/-- The page translates, and not as it did. -/
def Opened (s s' : Vm) (v : Nat) : Prop :=
  walk s'.mem s'.pml4 v ≠ none ∧ walk s'.mem s'.pml4 v ≠ walk s.mem s.pml4 v

/-- A frame in use that is no table and holds zeros. -/
structure ZeroFrame (s : Vm) (tag : Nat → Option Path) (f : Nat) : Prop where
  untagged : tag f = none
  used : bitmapTest s f = true
  zero : s.mem f = fun _ => 0#64

/-- A page translates as before or to zeros. -/
def Zeroed (s s' : Vm) (tag' : Nat → Option Path) : Prop :=
  ∀ v r, walk s'.mem s'.pml4 v = some r →
    walk s.mem s.pml4 v = some r ∨ ZeroFrame s' tag' (entryFrame r.1)

theorem ZeroFrame.changed {f : Nat} (h : ZeroFrame s tag f) (g : Changed E W s tag s' tag') :
    ZeroFrame s' tag' f :=
  ⟨g.untagged h.untagged h.used, g.bits f h.used, (g.frames f h.untagged h.used).trans h.zero⟩

theorem Zeroed.trans (h : Zeroed s s' tag') (g : Changed E W s' tag' s'' tag'')
    (h' : Zeroed s' s'' tag'') : Zeroed s s'' tag'' := by
  intro v r hw
  rcases h' v r hw with hold | hzero
  · rcases h v r hold with hold | hzero
    · exact Or.inl hold
    · exact Or.inr (hzero.changed g)
  · exact Or.inr hzero

theorem Zeroed.byte (h : Zeroed s s' tag') (hv : Opened s s' v) : userByte s' v = some 0 := by
  obtain ⟨hmapped, hnew⟩ := hv
  obtain ⟨r, hr⟩ := Option.ne_none_iff_exists'.mp hmapped
  rcases h v r hr with hold | hzero
  · exact absurd (hr.trans hold.symm) hnew
  · rw [userByte, pageAt, hr, Option.map_some, Option.map_some, hzero.zero, Bytes.byteOf_zero]

/-- One page that is cleared and mapped. -/
theorem grant_zeroed (h : Forest s tag) (ha : pagingAllocPage s = (some a, s₁))
    (hc : pagingClearPhys im s₁ a = (true, s₂)) (hm : pagingMapUserPage im s₂ v a fl = (true, s₃))
    (hpr : has (fl ||| pageUser) pagePresent = true)
    (haddr : (fl ||| pageUser) &&& pteAddrMask = 0#64) :
    ∃ tag', Mapped (fun _ => True) (fun _ => True) s tag s₃ tag' ∧ Zeroed s s₃ tag' ∧
      ptOf s₃.mem s₃.pml4 kernelKmapWindow ≠ none := by
  obtain ⟨f, rfl, hlt, hfree, hf, rfl, hb⟩ := allocPage_fresh h ha
  have htake : Mapped (fun _ => True) (Grant (· = pathOf v)) s tag (bitmapSet s f) tag :=
    Mapped.take h f
  obtain ⟨tag₂, h₂, hf₂, hb₂, -⟩ := pagingClearPhys_mapped (Or.inl rfl) h htake hfree hf hb hlt hc
  obtain ⟨-, -, hdone⟩ := pagingClearPhys_edited htake.forest hf hb hlt hc
  obtain ⟨hmem, hpt, hwin⟩ := hdone rfl
  obtain ⟨tag₃, g⟩ := pagingMapUserPage_mapped h₂.forest hm
  have hzero : ZeroFrame s₃ tag₃ f :=
    ⟨g.untagged hf₂ hb₂, g.bits f hb₂, (g.frames f hf₂ hb₂).trans hmem⟩
  refine ⟨tag₃, (h₂.mono (fun π _ => ⟨π, trivial, List.prefix_rfl⟩) fun _ _ => trivial).trans h
    (g.mono (fun π _ => ⟨π, trivial, List.prefix_rfl⟩) fun _ _ => trivial), fun u r hw => ?_, ?_⟩
  · have hkeep : pathOf u ≠ pathOf v → walk s₃.mem s₃.pml4 u = walk s₂.mem s₂.pml4 u := by
      intro hne
      rw [g.pml4]
      exact g.walks _ _ h₂.forest.root fun hc => hne hc.1
    by_cases huv : pathOf u = pathOf v
    · -- the page itself is the frame
      obtain ⟨b, hpage⟩ := pagingMapPageFlags_walk h₂.forest tableFlags_user hpr hm
      rw [walk_page huv, hpage] at hw
      obtain rfl := Option.some.inj hw
      rw [(pageEntry_spec hlt haddr hpr).2]
      exact Or.inr hzero
    · rw [hkeep huv] at hw
      by_cases huw : pathOf u = pathOf kernelKmapWindow
      · rw [walk_page huw, hwin] at hw
        cases hw
      · rw [h₂.pml4, h₂.walks _ _ h.root fun hc => hc.1.elim huw huv] at hw
        exact Or.inl hw
  · obtain ⟨k, hk⟩ := Option.ne_none_iff_exists'.mp hpt
    rw [g.pml4, g.ptOf h₂.forest h₂.forest.root hk]
    exact Option.some_ne_none k

/-! ### The loops -/

theorem brkLoop_zeroed (n : Nat) : ∀ {brk : Nat} {s : Vm} {tag : Nat → Option Path}, Forest s tag →
    brkLoop im addr n brk s = some (true, brk', s') →
    ∃ tag', Mapped (fun _ => True) (fun _ => True) s tag s' tag' ∧ Zeroed s s' tag' := by
  induction n with
  | zero =>
    intro brk s tag _ hrun
    simp [brkLoop] at hrun
  | succ n ih =>
    intro brk s tag h hrun
    rw [brkLoop] at hrun
    split at hrun
    · rcases ha : pagingAllocPage s with ⟨_ | a, s₁⟩
      · simp [ha] at hrun
      rcases hc : pagingClearPhys im s₁ a with ⟨_ | _, s₂⟩
      · simp [ha, hc] at hrun
      rcases hm : pagingMapUserPage im s₂ brk a (pagePresent ||| pageWritable) with ⟨_ | _, s₃⟩
      · simp [ha, hc, hm] at hrun
      simp only [ha, hc, hm] at hrun
      obtain ⟨tag₃, g, hz, -⟩ := grant_zeroed h ha hc hm (by decide) (by decide)
      obtain ⟨tag', g', hz'⟩ := ih g.forest hrun
      exact ⟨tag', g.trans h g', hz.trans g'.toChanged hz'⟩
    · obtain ⟨-, -, rfl⟩ : true = true ∧ brk = brk' ∧ s = s' := by simpa using hrun
      exact ⟨tag, Mapped.refl h, fun _ _ hw => Or.inl hw⟩

/-- `paging_map_user_range`, if the window can be used when the first frame is taken. -/
theorem mapUserLoop_zeroed (hpr : has (fl ||| pageUser) pagePresent = true)
    (haddr : (fl ||| pageUser) &&& pteAddrMask = 0#64) (n : Nat) :
    ∀ {addr : Nat} {s : Vm} {tag : Nat → Option Path}, Forest s tag → WindowDir s s.pml4 →
    WindowOpens im (pagingAllocPage s).2 → mapUserLoop im fl n addr s = (true, s') →
    ∃ tag', Mapped (fun _ => True) (fun _ => True) s tag s' tag' ∧ Zeroed s s' tag' := by
  induction n with
  | zero =>
    intro addr s tag h _ _ hrun
    rw [mapUserLoop] at hrun
    obtain ⟨-, rfl⟩ := Prod.mk.inj hrun
    exact ⟨tag, Mapped.refl h, fun _ _ hw => Or.inl hw⟩
  | succ n ih =>
    intro addr s tag h hd ho hrun
    rw [mapUserLoop] at hrun
    rcases ha : pagingAllocPage s with ⟨_ | a, s₁⟩
    · simp [ha] at hrun
    obtain ⟨f, rfl, hlt, -, hf, hs₁, hb⟩ := allocPage_fresh h ha
    have h₁ : Forest s₁ tag := by
      rw [hs₁]
      exact (Mapped.take (E := fun _ => True) (W := fun _ => True) h f).forest
    have hclear : (pagingClearPhys im s₁ (f * pageSize)).1 = true := by
      rw [ha] at ho
      refine pagingClearPhys_room h₁ ?_ ho
      rw [hs₁, WindowDir, bitmapSet_mem, bitmapSet_pml4]
      exact hd
    rcases hc : pagingClearPhys im s₁ (f * pageSize) with ⟨_ | _, s₂⟩
    · rw [hc] at hclear
      cases hclear
    rcases hm : pagingMapUserPage im s₂ addr (f * pageSize) fl with ⟨_ | _, s₃⟩
    · simp [ha, pagingZeroFrame_eq, hc, hm] at hrun
    simp only [ha, pagingZeroFrame_eq, hc, hm] at hrun
    obtain ⟨tag₃, g, hz, hpt⟩ := grant_zeroed h ha hc hm hpr haddr
    have hd₃ : WindowDir s₃ s₃.pml4 := by
      rw [g.pml4]
      exact (Edited.of_mapped (F := fun _ => False) h g).windowDir h.root hd
    have ho₃ : WindowOpens im (pagingAllocPage s₃).2 := by
      refine Or.inl ?_
      rcases ha₃ : pagingAllocPage s₃ with ⟨_ | a₃, s₄⟩
      · rwa [pagingAllocPage_none g.forest.null ha₃]
      · obtain ⟨f₃, -, -, -, -, rfl, -⟩ := allocPage_fresh g.forest ha₃
        rwa [bitmapSet_mem, bitmapSet_pml4]
    obtain ⟨tag', g', hz'⟩ := ih g.forest hd₃ ho₃ hrun
    exact ⟨tag', g.trans h g', hz.trans g'.toChanged hz'⟩

/-! ### The calls -/

/-- What `sys_brk` grants when it returns `addr` holds zeros. -/
theorem sysBrk_zeroed (h : Forest s tag) (hcall : sysBrk im s brk addr = some (addr, brk', s'))
    (hv : Opened s s' v) : userByte s' v = some 0 := by
  have hsame : s' ≠ s := by
    rintro rfl
    exact hv.2 rfl
  rw [sysBrk] at hcall
  split at hcall
  · obtain ⟨-, -, rfl⟩ : brk = addr ∧ brk = brk' ∧ s = s' := by simpa using hcall
    exact absurd rfl hsame
  split at hcall
  · obtain ⟨-, -, rfl⟩ : brk = addr ∧ brk = brk' ∧ s = s' := by simpa using hcall
    exact absurd rfl hsame
  next h0 hlow =>
  rcases hrun : brkLoop im addr (maxFrames + 1) brk s with _ | ⟨ok, b, s₁⟩
  · rw [hrun] at hcall
    simp at hcall
  rw [hrun] at hcall
  cases ok with
  | true =>
    simp only [Option.some.injEq, Prod.mk.injEq] at hcall
    obtain ⟨-, -, rfl⟩ := hcall
    obtain ⟨tag', -, hz⟩ := brkLoop_zeroed _ h hrun
    exact hz.byte hv
  | false =>
    -- then `p->brk` was `addr` from the start, so there was no turn to fail
    obtain ⟨rfl, -, -⟩ : brk = addr ∧ b = brk' ∧ s₁ = s' := by simpa using hcall
    rw [brkLoop, if_neg (lt_irrefl _)] at hrun
    simp at hrun

theorem pagingMapUserRange_zeroed (h : Forest s tag) (hd : WindowDir s s.pml4)
    (ho : WindowOpens im (pagingAllocPage s).2) (hpr : has (fl ||| pageUser) pagePresent = true)
    (haddr : (fl ||| pageUser) &&& pteAddrMask = 0#64)
    (hcall : pagingMapUserRange im s addr len fl = (true, s')) (hv : Opened s s' v) :
    userByte s' v = some 0 := by
  obtain ⟨tag', -, hz⟩ := mapUserLoop_zeroed hpr haddr _ h hd ho hcall
  exact hz.byte hv

/-- What `sys_mmap` grants when it returns an address holds zeros, if the window can be used. -/
theorem sysMmap_zeroed (h : Forest s tag) (hd : WindowDir s s.pml4)
    (ho : WindowOpens im (pagingAllocPage s).2)
    (hcall : sysMmap im s addr len prot flags = (.ok a, s')) (hv : Opened s s' v) :
    userByte s' v = some 0 := by
  have hfl : has (mmapFlags prot ||| pageUser) pagePresent = true ∧
      (mmapFlags prot ||| pageUser) &&& pteAddrMask = 0#64 := by
    rw [mmapFlags]
    split <;> exact ⟨by decide, by decide⟩
  rw [sysMmap] at hcall
  split at hcall
  · cases hcall
  · rcases hm : pagingMapUserRange im s (mmapAddr addr) len (mmapFlags prot) with ⟨_ | _, s₁⟩
    · rw [hm] at hcall
      cases hcall
    · rw [hm] at hcall
      obtain ⟨-, rfl⟩ := Prod.mk.inj hcall
      exact pagingMapUserRange_zeroed h hd ho hfl.1 hfl.2 hm hv

end TypeOS.Sys
