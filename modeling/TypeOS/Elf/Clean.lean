import TypeOS.Elf.Load
import TypeOS.Fs.Lookup

/-! What a user finds in the pages that are handed out.

    In every reachable state the memory for fixed images is in use and holds no tables, and every address
    space has the directory that the temporary window is in. So `sys_brk` hands out zeros; a range is
    handed out with zeros if the window can be used; and a segment is its part of the file and zeros if,
    besides, the file is as long as the program header says. -/

namespace TypeOS.Elf

open Fs (Text)
open Paging Sys Radix
open Fs (Vfs Ptr vfsReadAt vfsReadAt_spec sIfreg)

/-- What a program sees of its memory. -/
def userMemory (s : Vm) : Bytes.Memory := fun v => (userByte s v).getD 0

/-- `elf_user_stack_init`: the pages are mapped, and the stack is built there. -/
def elfUserStackInit (im : Image) (s : Vm) (argv envp : List Text) : Option (Built × Vm) :=
  match pagingMapUserRange im s (userStackTop - userStackSize) (userStackSize + pageSize)
    (pagePresent ||| pageWritable) with
  | (false, _) => none
  | (true, s) => some (elfBuildStack argv envp (userMemory s), s)

variable {im : Image} {fs : Vfs} {file : Option Ptr} {kbuf : Nat → Bytes.Memory} {ph : ProgramHeader}
  {s s' : Vm} {tag tag' : Nat → Option Path} {roots : List Nat} {f v : Nat} {ok : Bool}
  {F : Nat → Prop} {W E : Path → Prop} {mem mem' : Bytes.Memory} {x : Nat}

/-! ### The stack -/

theorem pushStr_congr {st st' : Stack} {t : Text} (hsp : st.sp = st'.sp) (h : st.mem x = st'.mem x) :
    (pushStr t st).sp = (pushStr t st').sp ∧ (pushStr t st).mem x = (pushStr t st').mem x := by
  simp only [pushStr, hsp]
  exact ⟨trivial, Bytes.store_at h⟩

theorem pushStrs_congr (ts : List Text) : ∀ {st st' : Stack}, st.sp = st'.sp → st.mem x = st'.mem x →
    (pushStrs ts st).1 = (pushStrs ts st').1 ∧ (pushStrs ts st).2.sp = (pushStrs ts st').2.sp ∧
      (pushStrs ts st).2.mem x = (pushStrs ts st').2.mem x := by
  induction ts with
  | nil => exact fun hsp h => ⟨rfl, hsp, h⟩
  | cons t ts ih =>
    intro st st' hsp h
    obtain ⟨hsp₁, h₁⟩ := @pushStr_congr x st st' t hsp h
    obtain ⟨hptrs, hsp₂, h₂⟩ := ih hsp₁ h₁
    exact ⟨by rw [pushStrs, pushStrs, hptrs, hsp₁], hsp₂, h₂⟩

theorem pushWords_congr (ws : List Nat) {st st' : Stack} (hsp : st.sp = st'.sp)
    (h : st.mem x = st'.mem x) : (pushWords ws st).sp = (pushWords ws st').sp ∧
      (pushWords ws st).mem x = (pushWords ws st').mem x := by
  induction ws with
  | nil => exact ⟨hsp, h⟩
  | cons w ws ih =>
    obtain ⟨hsp₁, h₁⟩ := ih
    change (pushWord w (pushWords ws st)).sp = (pushWord w (pushWords ws st')).sp ∧
      (pushWord w (pushWords ws st)).mem x = (pushWord w (pushWords ws st')).mem x
    simp only [pushWord, hsp₁]
    exact ⟨trivial, Bytes.store_at h₁⟩

theorem pushAux_congr {st st' : Stack} (hsp : st.sp = st'.sp) (h : st.mem x = st'.mem x) :
    (pushAux st).sp = (pushAux st').sp ∧ (pushAux st).mem x = (pushAux st').mem x := by
  simp only [pushAux, pushPair, hsp]
  refine ⟨trivial, ?_⟩
  exact Bytes.store_at (Bytes.store_at (Bytes.store_at (Bytes.store_at (Bytes.store_at
    (Bytes.store_at (Bytes.store_at h))))))

/-- A byte of the stack is what was put there, or the byte that was there. -/
theorem elfBuildStack_congr (argv envp : List Text) (h : mem x = mem' x) :
    (elfBuildStack argv envp mem).mem x = (elfBuildStack argv envp mem').mem x := by
  obtain ⟨he, hsp₁, h₁⟩ := @pushStrs_congr x (envp.take 15) ⟨userStackTop, mem⟩ ⟨userStackTop, mem'⟩ rfl h
  obtain ⟨ha, hsp₂, h₂⟩ := pushStrs_congr (argv.take 15) hsp₁ h₁
  obtain ⟨hsp₃, h₃⟩ := pushAux_congr hsp₂ h₂
  rw [elfBuildStack, elfBuildStack]
  dsimp only
  rw [he, ha]
  obtain ⟨hsp₄, h₄⟩ := pushWords_congr
    ((pushStrs (envp.take 15) ⟨userStackTop, mem'⟩).1 ++ [0]) hsp₃ h₃
  obtain ⟨hsp₅, h₅⟩ := pushWords_congr ((pushStrs (argv.take 15)
    (pushStrs (envp.take 15) ⟨userStackTop, mem'⟩).2).1 ++ [0]) hsp₄ h₄
  exact (pushWords_congr [(argv.take 15).length] hsp₅ h₅).2

theorem elfUserStackInit_some {argv envp : List Text} {b : Built}
    (hcall : elfUserStackInit im s argv envp = some (b, s')) :
    pagingMapUserRange im s (userStackTop - userStackSize) (userStackSize + pageSize)
        (pagePresent ||| pageWritable) = (true, s') ∧ b = elfBuildStack argv envp (userMemory s') := by
  rw [elfUserStackInit] at hcall
  split at hcall
  · cases hcall
  · next s₁ hm =>
    obtain ⟨rfl, rfl⟩ := Prod.mk.inj (Option.some.inj hcall)
    exact ⟨hm, rfl⟩

/-- The new stack holds what was put there and zeros, if the window can be used. -/
theorem elfUserStackInit_zeroed {argv envp : List Text} {b : Built} (h : Forest s tag)
    (hd : WindowDir s s.pml4) (ho : WindowOpens im (pagingAllocPage s).2)
    (hcall : elfUserStackInit im s argv envp = some (b, s')) (hv : Opened s s' v) :
    b.mem v = (elfBuildStack argv envp fun _ => 0).mem v := by
  obtain ⟨hm, rfl⟩ := elfUserStackInit_some hcall
  have hzero := pagingMapUserRange_zeroed h hd ho (by decide) (by decide) hm hv
  refine elfBuildStack_congr argv envp ?_
  rw [userMemory, hzero]
  rfl

/-! ### The segment -/

theorem elfMapSegment_edited (h : Forest s tag) (hk : ImageKept s tag)
    (hpd : tag im.pdTable = some [0, 0]) (hc : elfMapSegment im fs file kbuf ph s = (ok, s')) :
    ∃ tag', Edited ImageFrame (PageIn ph.segStart ((ph.segEnd - ph.segStart) / pageSize)) s tag s' tag' ∧
      (ok = true → ∀ v, ph.segStart ≤ v → v < ph.segEnd → UserWritable s' v) ∧
      (ok = true → WindowDir s s.pml4 →
        WindowOpens im (pagingSplitHugeRange im s ph.segStart ph.segEnd) →
        ∀ v, ph.segStart ≤ v → v < ph.segEnd →
          userByte s' v = some (loadedByte fs file kbuf ph v)) := by
  rw [elfMapSegment] at hc
  split at hc
  · obtain ⟨rfl, rfl⟩ := Prod.mk.inj hc
    exact ⟨tag, .refl h, fun hok => absurd hok Bool.false_ne_true, fun hok => by cases hok⟩
  next hin =>
  rw [not_or, not_lt, not_lt] at hin
  obtain ⟨tag₁, g₁⟩ := pagingSplitHugeRange_edited h hpd ph.segStart ph.segEnd
  have hsame : Edited ImageFrame (PageIn ph.segStart ((ph.segEnd - ph.segStart) / pageSize)) s tag
      (pagingSplitHugeRange im s ph.segStart ph.segEnd) tag₁ :=
    g₁.mono (fun _ hc => hc.elim) fun _ hc => hc.elim
  rcases Nat.lt_or_ge ph.segStart ph.segEnd with hlt | hge
  · obtain ⟨hlo, hhi⟩ := hin
    have hend : ph.segStart + (ph.segEnd - ph.segStart) / pageSize * pageSize = ph.segEnd := by
      rw [ProgramHeader.segStart, ProgramHeader.segEnd, pageOf, pageOf] at hlt ⊢
      have hle := Nat.le_of_mul_le_mul_right hlt.le pageSize_pos
      rw [← Nat.sub_mul, frame_div _, ← Nat.add_mul, Nat.add_sub_cancel' hle]
    have hstart : ph.segStart = ph.pVaddr / pageSize * pageSize := rfl
    rw [hstart] at hc hend
    obtain ⟨tag₂, g₂, hopened, hbytes⟩ := segmentLoop_edited _ g₁.forest (hk.edited g₁) hstart.le
      (hlo.trans_eq hstart) (hend.le.trans hhi) hc
    rw [hend] at hbytes hopened
    refine ⟨tag₂, hsame.trans (g₂.mono (fun g hg => ?_) fun _ hπ => hπ), hopened,
      fun hok hd ho v hge hlt => ?_⟩
    · rw [FrameIn, hend, ← hstart] at hg
      exact ⟨hlo.trans hg.1, hg.2.trans_le hhi⟩
    · refine hbytes hok ?_ ho v (hstart.ge.trans hge) hlt
      rw [g₁.pml4]
      exact g₁.windowDir h.root hd
  · rw [Nat.sub_eq_zero_of_le hge, Nat.zero_div, segmentLoop] at hc
    obtain ⟨-, rfl⟩ := Prod.mk.inj hc
    exact ⟨tag₁, hsame, fun _ v hlo hhi => by omega, fun _ _ _ v hlo hhi => by omega⟩

/-! ### The states reached -/

/-- What else is done to the current address space: pages and ranges of them are mapped for the user, and
    segments are loaded. -/
inductive LoadAlso (im : Image) (s : Vm) : Vm → Prop
  | mapUser (virt phys : Nat) (flags : Word) : LoadAlso im s (pagingMapUserPage im s virt phys flags).2
  | range (virt size : Nat) (flags : Word) : LoadAlso im s (pagingMapUserRange im s virt size flags).2
  | segment (fs : Vfs) (file : Option Ptr) (kbuf : Nat → Bytes.Memory) (ph : ProgramHeader) :
    LoadAlso im s (elfMapSegment im fs file kbuf ph s).2

/-- Pages are mapped with any flags. A page that is given back was handed out before, so it is none of a
    fixed image (`allocPage_not_image`). -/
def loadRules (im : Image) : Rules Unit where
  maps _ := True
  frees s roots _ frame := ¬ IsTable im s roots frame ∧ ¬ ImageFrame frame
  also := LoadAlso im
  start := ()
  takes _ _ := ()
  gives _ _ := ()

/-- The states that the operations on the tables reach from `paging_init`, with the roots of the address
    spaces there are. -/
abbrev LoadReach (im : Image) (s : Vm) (roots : List Nat) : Prop := TableReach im (loadRules im) s roots ()

/-- What every one of them keeps. -/
structure LoadSound (im : Image) (s : Vm) (roots : List Nat) (tag : Nat → Option Path) : Prop where
  forest : Forest s tag
  spaces : ∀ r ∈ roots, tag r = some []
  dirs : ∀ r ∈ roots, WindowDir s r
  root : s.pml4 ∈ roots
  boot : tag im.pdTable = some [0, 0]
  image : ImageKept s tag

theorem LoadSound.edited (h : LoadSound im s roots tag) (g : Edited F W s tag s' tag') :
    LoadSound im s' roots tag' where
  forest := g.forest
  spaces := fun r hr => g.tags r _ (h.spaces r hr)
  dirs := fun r hr => g.windowDir (h.spaces r hr) (h.dirs r hr)
  root := by
    rw [g.pml4]
    exact h.root
  boot := g.tags _ _ h.boot
  image := h.image.edited g

theorem LoadSound.mapped (h : LoadSound im s roots tag) (g : Mapped E W s tag s' tag') :
    LoadSound im s' roots tag' :=
  h.edited (.of_mapped (F := fun _ => False) h.forest g)

theorem LoadSound.granted {G : Path → Prop} (h : LoadSound im s roots tag)
    (g : Granted G s tag s' tag') : LoadSound im s' roots tag' :=
  h.mapped g.toMapped

/-! ### The start -/

theorem extendIdentityFrom_edited (im : Image) (n : Nat) : ∀ (addr : Nat) {s : Vm}
    {tag : Nat → Option Path}, Forest s tag →
    ∃ tag', Edited (fun _ => False) (fun _ => True) s tag (extendIdentityFrom im n addr s) tag' := by
  induction n with
  | zero => exact fun _ _ _ h => ⟨_, .refl h⟩
  | succ n ih =>
    intro addr s tag h
    rcases hm : pagingMapPage im s addr addr (pagePresent ||| pageWritable) with ⟨ok, s₁⟩
    obtain ⟨tag₁, g⟩ := pagingMapPage_mapped h hm
    have g₁ := Edited.of_mapped (F := fun _ => False) (W := fun _ => True) h
      (g.mono (fun π hπ => ⟨π, hπ, List.prefix_rfl⟩) fun _ _ => trivial)
    rw [extendIdentityFrom, hm]
    cases ok with
    | false => exact ⟨tag₁, g₁⟩
    | true =>
      obtain ⟨tag', g'⟩ := ih (addr + pageSize) g.forest
      exact ⟨tag', g₁.trans g'⟩

/-- Before its identity map `paging_init` has the tables of the boot code, and reserved frames. -/
theorem initFrames_sound (him : im.kernelEnd ≤ userImagePhysStart) (mem : Paging.Memory)
    (mb : MultibootInfo) :
    LoadSound im (pagingInitFrames im mem mb) [im.pmlTable] (bootTag im) := by
  have he := early_initFrames im mem mb
  have hpml : (pagingInitFrames im mem mb).pml4 = im.pmlTable := he.pml4
  obtain ⟨h0, h1, -⟩ := @low_index kernelKmapWindow (by decide)
  refine ⟨forest_initFrames im mem mb, fun r hr => ?_, fun r hr => ?_, ?_, ?_, fun f hf => ⟨?_, ?_⟩⟩
  · rw [List.mem_singleton.mp hr]
    simp [bootTag]
  · rw [List.mem_singleton.mp hr, WindowDir, h0, h1, descend, he.root_next, Option.bind_some, descend,
      he.dir]
    exact Option.some_ne_none _
  · rw [hpml]
    exact List.mem_singleton_self _
  · simp [bootTag, Image.pdTable, Image.pdpTable]
  · -- the boot tables are part of the kernel, which ends below
    obtain ⟨hlo, -⟩ := hf
    have htables := im.tables_le
    simp only [userImagePhysStart, pageSize] at hlo him htables
    have hlt : im.pmlTable + 3 ≤ f := by omega
    rw [bootTag, Image.pdTable, Image.pdpTable, if_neg (by omega), if_neg (by omega),
      if_neg (by omega)]
  · rw [bitmapTest_initFrames, Bool.not_eq_true', decide_eq_false_iff_not]
    rintro ⟨-, -, -, hno, -⟩
    refine hno ?_
    obtain ⟨hlo, hhi⟩ := hf
    simp only [reserves, userImagePhysStart, userImagePhysEnd, pageSize, u64] at *
    omega

/-! ### A new address space -/

/-- A copy of an address space has the window's directory if the space has it. -/
theorem copied_windowDir {D : Nat → Prop} {r : Nat} (h : Forest s tag)
    (g : Changed E W s tag s' tag') (hc : Copied s s' tag' D 3 [] s.pml4 r)
    (hd : WindowDir s s.pml4) : WindowDir s' r := by
  obtain ⟨pd, hd⟩ := Option.ne_none_iff_exists'.mp hd
  rw [descend, Option.bind_eq_some_iff] at hd
  obtain ⟨pdpt, hn, hd⟩ := hd
  have ht := h.tagged _ _ _ _ h.root (by simp) hn
  rw [descend, Option.bind_eq_some_iff] at hd
  obtain ⟨pd', hn', -⟩ := hd
  rw [WindowDir, descend]
  obtain ⟨hkernel, huser⟩ := hc _ _ hn
  cases hu : has (s.mem s.pml4 (pml4Index kernelKmapWindow)) pageUser with
  | false =>
    rw [hkernel hu, hn, Option.bind_some, descend, g.keep _ _ _ _ ht (by simp) hn', hn']
    exact Option.some_ne_none _
  | true =>
    obtain ⟨c, -, -, hnext, -, hc⟩ := huser hu
    obtain ⟨hkernel, huser⟩ := hc _ _ hn'
    rw [hnext, Option.bind_some, descend]
    cases hu' : has (s.mem pdpt (pdpIndex kernelKmapWindow)) pageUser with
    | false =>
      rw [hkernel hu', hn']
      exact Option.some_ne_none _
    | true =>
      obtain ⟨c', -, -, hnext', -⟩ := huser hu'
      rw [hnext']
      exact Option.some_ne_none _

theorem LoadSound.clone (h : LoadSound im s roots tag) (copyUser : Bool) : ∃ tag',
    LoadSound im (pagingCloneCurrentAddressSpace im s copyUser).2
      ((pagingCloneCurrentAddressSpace im s copyUser).1.toList ++ roots) tag' := by
  rcases hc : pagingCloneCurrentAddressSpace im s copyUser with ⟨res, s'⟩
  -- the old spaces are as before; the new one is a root and has the directory
  have hnew : ∀ {tag' : Nat → Option Path}, Changed Window Window s tag s' tag' →
      (∀ r, res = some r → tag' r = some [] ∧ WindowDir s' r) →
      LoadSound im s' (res.toList ++ roots) tag' := by
    intro tag' g hres
    have hold := h.edited (Edited.of_changed (F := fun _ => False) h.forest g)
    refine ⟨hold.forest, fun r hr => ?_, fun r hr => ?_, List.mem_append_right _ hold.root, hold.boot,
      hold.image⟩
    all_goals rcases List.mem_append.mp hr with hr | hr
    · exact (hres r (Option.mem_toList.mp hr)).1
    · exact hold.spaces r hr
    · exact (hres r (Option.mem_toList.mp hr)).2
    · exact hold.dirs r hr
  cases copyUser with
  | true =>
    obtain ⟨tag', D, hcl, hres⟩ := cloneUser_spec h.forest hc
    refine ⟨tag', hnew hcl.changed fun r hr => ?_⟩
    obtain ⟨-, hroot, hcopy⟩ := hres r hr
    exact ⟨hroot, copied_windowDir h.forest hcl.changed hcopy (h.dirs _ h.root)⟩
  | false =>
    rcases cloneShared_spec h.forest hc with ⟨rfl, rfl⟩ | ⟨r', s₁, rfl, hfr, hs⟩
    · exact ⟨tag, h⟩
    · have g := (cloneShared_forest h.forest hfr hs).1
      refine ⟨_, hnew g fun r hr => ?_⟩
      obtain rfl := Option.some.inj hr
      refine ⟨Function.update_self .., ?_⟩
      obtain ⟨pd, hd⟩ := Option.ne_none_iff_exists'.mp (h.dirs _ h.root)
      rw [descend, Option.bind_eq_some_iff] at hd
      obtain ⟨pdpt, hn, hd⟩ := hd
      have ht := h.forest.tagged _ _ _ _ h.forest.root (by simp) hn
      have hentry : s'.mem r' (pml4Index kernelKmapWindow) =
          s.mem s.pml4 (pml4Index kernelKmapWindow) := by
        rw [hs]
        simp only [writeFrame, Function.update_self]
        exact if_pos (nextTable_some hn).1
      rw [WindowDir, descend, hentry, hn, Option.bind_some,
        g.descend h.forest ht (by simp) hd]
      exact Option.some_ne_none _

/-! ### Every state -/

theorem LoadSound.step {roots' : List Nat} {g g' : Unit} (ih : LoadSound im s roots tag)
    (hs : TableStep im (loadRules im) s roots g s' roots' g') : ∃ tag', LoadSound im s' roots' tag' := by
  cases hs with
  | map virt phys flags =>
    obtain ⟨tag', g⟩ := pagingMapPage_mapped ih.forest rfl
    exact ⟨tag', ih.mapped g⟩
  | unmap virt => exact ⟨tag, ih.mapped (pagingUnmapPage_mapped ih.forest virt)⟩
  | clone copyUser => exact ih.clone copyUser
  | switch cr3 hr =>
    exact ⟨tag, ih.forest.switch (ih.spaces cr3 hr), ih.spaces, ih.dirs, hr, ih.boot, ih.image⟩
  | allocPage =>
    rcases ha : pagingAllocPage s with ⟨_ | a, s₁⟩
    · rw [pagingAllocPage_none ih.forest.null ha]
      exact ⟨tag, ih⟩
    · obtain ⟨f, -, -, -, -, rfl, -⟩ := allocPage_fresh ih.forest ha
      exact ⟨tag, ih.mapped (Mapped.take (E := fun _ => True) (W := fun _ => True) ih.forest f)⟩
  | freePage frame hf =>
    obtain ⟨hno, himg⟩ := hf
    obtain ⟨tag', hf', hroots', hpd', hnone, hless⟩ :=
      forest_without ih.forest ih.spaces ih.root ih.boot hno
    have hdiv : frame * pageSize / pageSize = frame := frame_div frame
    obtain ⟨hm, hr, -, hb⟩ := pagingFreePage_eq s (frame * pageSize)
    rw [hdiv] at hb
    refine ⟨tag', freePage_forest hf' (Nat.mul_mod_left ..) (by rwa [hdiv]), hroots', fun r hr => ?_,
      hr ▸ ih.root, hpd', fun f hf => ⟨hless f (ih.image f hf).1, ?_⟩⟩
    · rw [WindowDir, hm]
      exact ih.dirs r hr
    · rw [hb f fun hc => himg (hc ▸ hf)]
      exact (ih.image f hf).2
  | data frame words hno =>
    obtain ⟨tag', hf', hroots', hpd', hnone, hless⟩ :=
      forest_without ih.forest ih.spaces ih.root ih.boot hno
    have ih' : LoadSound im s _ tag' := ⟨hf', hroots', ih.dirs, ih.root, hpd',
      fun f hf => ⟨hless f (ih.image f hf).1, (ih.image f hf).2⟩⟩
    exact ⟨tag', ih'.edited (Edited.fill (W := fun _ => True) hf' hnone words)⟩
  | brk hcall =>
    obtain ⟨m, tag', g⟩ := sysBrk_spec ih.forest hcall
    exact ⟨tag', ih.granted g.granted⟩
  | mmap addr len prot flags =>
    obtain ⟨tag', g, -⟩ := sysMmap_spec ih.forest addr len prot flags
    exact ⟨tag', ih.granted g⟩
  | also h =>
    cases h with
    | mapUser virt phys flags =>
      obtain ⟨tag', g⟩ := pagingMapUserPage_mapped ih.forest rfl
      exact ⟨tag', ih.mapped g⟩
    | range virt size flags =>
      obtain ⟨tag', g, -⟩ := @mapUserLoop_spec im flags (userRangePages virt size) (pageOf virt) _ tag
        ih.forest
      exact ⟨tag', ih.granted g⟩
    | segment fs file kbuf ph =>
      rcases hc : elfMapSegment im fs file kbuf ph s with ⟨ok, s'⟩
      obtain ⟨tag', g, -⟩ := elfMapSegment_edited ih.forest ih.image ih.boot hc
      exact ⟨tag', ih.edited g⟩

theorem LoadReach.sound (him : im.kernelEnd ≤ userImagePhysStart) (h : LoadReach im s roots) :
    ∃ tag, LoadSound im s roots tag := by
  refine TableReach.invariant (I := fun s roots _ => ∃ tag, LoadSound im s roots tag) (fun mem mb => ?_)
    (fun ⟨tag, ih⟩ hs => ih.step hs) h
  have h := initFrames_sound him mem mb
  obtain ⟨tag', g⟩ := extendIdentityFrom_edited im ((identity4kEnd - identity4kStart) / pageSize)
    identity4kStart h.forest
  exact ⟨tag', h.edited g⟩

/-- No page that is handed out is one of a fixed image. -/
theorem allocPage_not_image (him : im.kernelEnd ≤ userImagePhysStart) (h : LoadReach im s roots) {a : Nat}
    (ha : pagingAllocPage s = (some a, s')) : ∃ f, a = f * pageSize ∧ ¬ ImageFrame f := by
  obtain ⟨tag, hs⟩ := h.sound him
  obtain ⟨f, rfl, -, hfree, -⟩ := allocPage_fresh hs.forest ha
  refine ⟨f, rfl, fun hf => ?_⟩
  rw [(hs.image f hf).2] at hfree
  cases hfree

/-- In every reachable state: what `sys_brk` hands out holds zeros. So does what `sys_mmap` hands out, and
    the new stack but for what is put there, if the window can be used once the first frame was taken.
    And a segment holds its part of the file and zeros, if the window can be used and the file is as long
    as the program header says. -/
theorem no_stale_data (him : im.kernelEnd ≤ userImagePhysStart) (h : LoadReach im s roots) :
    (∀ brk addr brk' s' v, sysBrk im s brk addr = some (addr, brk', s') → Opened s s' v →
      userByte s' v = some 0) ∧
    (∀ addr len prot flags a s' v, WindowOpens im (pagingAllocPage s).2 →
      sysMmap im s addr len prot flags = (.ok a, s') → Opened s s' v → userByte s' v = some 0) ∧
    (∀ argv envp b s' v, WindowOpens im (pagingAllocPage s).2 →
      elfUserStackInit im s argv envp = some (b, s') → Opened s s' v →
      b.mem v = (elfBuildStack argv envp fun _ => 0).mem v) ∧
    ∀ fs file kbuf ph s' v, WindowOpens im (pagingSplitHugeRange im s ph.segStart ph.segEnd) →
      ReadsWhole fs file ph → elfMapSegment im fs file kbuf ph s = (true, s') → ph.segStart ≤ v →
      v < ph.segEnd → userByte s' v = some (segmentByte fs file ph v) := by
  obtain ⟨tag, hs⟩ := h.sound him
  have hd := hs.dirs _ hs.root
  refine ⟨fun _ _ _ _ _ hcall hv => sysBrk_zeroed hs.forest hcall hv,
    fun _ _ _ _ _ _ _ ho hcall hv => sysMmap_zeroed hs.forest hd ho hcall hv,
    fun _ _ _ _ _ ho hcall hv => elfUserStackInit_zeroed hs.forest hd ho hcall hv,
    fun fs file kbuf ph s' v ho hwhole hcall hlo hhi => ?_⟩
  obtain ⟨tag', -, -, hbytes⟩ := elfMapSegment_edited hs.forest hs.image hs.boot hcall
  rw [hbytes rfl hd ho v hlo hhi, loadedByte_whole]
  refine hwhole (pageOf v) (Nat.mul_mod_left ..) ?_ ?_
  · rw [ProgramHeader.segStart, pageOf, pageOf] at *
    exact Nat.mul_le_mul_right _ (Nat.le_div_iff_mul_le pageSize_pos |>.mpr hlo)
  · exact (Nat.div_mul_le_self v pageSize).trans_lt hhi

/-! ### A file that is too short -/

/-- A file system with one file. -/
def oneFile (data : List UInt8) : Vfs := ⟨none, fun _ => ⟨sIfreg, data.length, .file data⟩, ∅, 0⟩

/-- A segment of one page at 4 MiB, two bytes of which are to come from the file. -/
def shortSegment (pOffset : Nat) : ProgramHeader := ⟨6, pOffset, 0x400000, 2, 0x1000⟩

theorem readPage_short (data : List UInt8) {off : Nat} (hoff : off < 2 ^ 64) :
    readPage (oneFile data) (some 1) (shortSegment off) 0x400000 =
      ((((data.drop off).take 2).length : Int), (data.drop off).take 2) := by
  have hcopy : (shortSegment off).copyStart 0x400000 = 0x400000 ∧
      (shortSegment off).copyEnd 0x400000 = 0x400002 := ⟨rfl, rfl⟩
  rw [readPage, hcopy.1, hcopy.2, show (shortSegment off).pVaddr = 0x400000 from rfl, Nat.sub_self,
    Nat.add_zero, show (shortSegment off).pOffset = off from rfl, u64_of_lt hoff]
  exact vfsReadAt_spec off 2 rfl

/-- A segment of that page loads in the tables that `paging_init` made. -/
theorem Early.segment_loads (kbuf : Nat → Bytes.Memory) {mem : Paging.Memory} {mb : MultibootInfo} {n t : Nat}
    {pt : Fin 512 → Option Nat} (he : Early im mem mb n pt s) (hs : LoadSound im s roots tag)
    (hn : n < spareTables im mb) (ht : pt (pdIndex 0x400000) = some t)
    (hstart : ph.segStart = 0x400000) (hend : ph.segEnd = 0x401000)
    (hread : 0 ≤ (readPage fs file ph 0x400000).1) :
    WindowOpens im (pagingSplitHugeRange im s ph.segStart ph.segEnd) ∧
      ∃ s', elfMapSegment im fs file kbuf ph s = (true, s') := by
  obtain ⟨h0, h1, -⟩ := @low_index 0x400000 (by decide)
  obtain ⟨hnext, -, -⟩ := he.table _ t ht
  have hsplit : pagingSplitHugeRange im s ph.segStart ph.segEnd = s := by
    obtain ⟨-, hh, -⟩ := nextTable_some hnext
    have hone : (0x401000 - 1) / 2 ^ 21 + 1 - 0x400000 / 2 ^ 21 = 1 := by decide
    rw [hstart, hend, pagingSplitHugeRange, if_neg (by decide)]
    dsimp only
    rw [hone, splitHugeLoop]
    rw [show Fin.ofNat 512 (0x400000 / 2 ^ 21) = pdIndex 0x400000 from rfl, hh, Bool.and_false,
      if_neg Bool.false_ne_true, splitHugeLoop]
  have hopens : WindowOpens im s := by
    rcases he.allocTable with ⟨k, s', ha, -⟩ | ⟨-, hfew⟩
    · rw [WindowOpens, ha]
      exact Or.inr (Option.some_ne_none k)
    · omega
  have hpt : ptOf s.mem s.pml4 (1024 * pageSize) ≠ none := by
    rw [show 1024 * pageSize = 0x400000 from rfl, ptOf, tablePath, h0, h1, he.pml4, descend,
      he.root_next, Option.bind_some, descend, he.dir, Option.bind_some, descend, hnext]
    exact Option.some_ne_none t
  have hok := @segmentLoop_ok im fs file kbuf ph 1 1024 s tag hs.forest hs.image
    (hstart.le.trans (by decide)) (by decide) (by decide) (hs.dirs _ hs.root) hopens fun k hk => by
      obtain rfl : k = 0 := by omega
      exact ⟨hpt, hread⟩
  rw [hsplit]
  refine ⟨hopens, _, Prod.ext ?_ rfl⟩
  rw [elfMapSegment, hsplit, hstart, hend, if_neg (by decide)]
  exact hok

/-- It loads right after the start of a machine with enough memory, and holds what is put there. -/
theorem segment_loads_most (kbuf : Nat → Bytes.Memory) (hstart : ph.segStart = 0x400000)
    (hend : ph.segEnd = 0x401000)
    (hread : 0 ≤ (readPage fs file ph 0x400000).1) :
    WindowOpens smallImage (pagingSplitHugeRange smallImage mostVm ph.segStart ph.segEnd) ∧
      ∃ s', elfMapSegment smallImage fs file kbuf ph mostVm = (true, s') ∧
        userByte s' 0x400000 = some (loadedByte fs file kbuf ph 0x400000) := by
  have hreach : LoadReach smallImage mostVm [smallImage.pmlTable] := TableReach.init _ _
  obtain ⟨tag, hs⟩ := hreach.sound (by decide)
  obtain ⟨pt, he, ht⟩ := early_init smallImage (fun _ _ => 0#64) mostMemory
  have hmany := spareTables_most
  rw [initTables_most] at he ht
  obtain ⟨t, htab⟩ := Option.isSome_iff_exists.mp <| (ht (pdIndex 0x400000)).mpr <| by
    rw [(low_index (by decide)).2.2]
    decide
  obtain ⟨hopens, s', hcall⟩ :=
    Early.segment_loads kbuf he hs (by omega) htab hstart hend hread
  obtain ⟨tag', -, -, hbytes⟩ := elfMapSegment_edited hs.forest hs.image hs.boot hcall
  exact ⟨hopens, s', hcall, hbytes rfl (hs.dirs _ hs.root) hopens 0x400000 hstart.le
    (hend.symm ▸ by decide)⟩

/-- A truncated file is loaded all the same, and what was in the buffer is in the page. -/
theorem stale_byte : LoadReach smallImage mostVm [smallImage.pmlTable] ∧ ∃ s',
    elfMapSegment smallImage (oneFile (List.replicate 120 0)) (some 1) (fun _ _ => 0xaa)
      (shortSegment 0x1000) mostVm = (true, s') ∧ userByte s' 0x400000 = some 0xaa := by
  have hread := readPage_short (List.replicate 120 0) (by decide : 0x1000 < 2 ^ 64)
  rw [List.drop_eq_nil_of_le (by simp), List.take_nil] at hread
  obtain ⟨-, s', hcall, hbyte⟩ := @segment_loads_most _ _ (shortSegment 0x1000) (fun _ _ => 0xaa) rfl rfl
    (by rw [hread]; exact le_rfl)
  have hin : (shortSegment 0x1000).copyStart 0x400000 ≤ 0x400000 ∧
      0x400000 < (shortSegment 0x1000).copyEnd 0x400000 := ⟨le_rfl, by decide⟩
  refine ⟨TableReach.init _ _, s', hcall, ?_⟩
  rw [hbyte, loadedByte, show pageOf 0x400000 = 0x400000 from rfl, if_pos hin, hread,
    Bytes.store_nil]

/-- A file that is long enough leaves its bytes in the page. -/
theorem loaded_byte : ∃ s', elfMapSegment smallImage (oneFile [0x7f, 0x45]) (some 1)
      (fun _ _ => 0xaa) (shortSegment 0) mostVm = (true, s') ∧
    userByte s' 0x400000 =
      some (segmentByte (oneFile [0x7f, 0x45]) (some 1) (shortSegment 0) 0x400000) := by
  have hread := readPage_short [0x7f, 0x45] (by decide : 0 < 2 ^ 64)
  obtain ⟨hopens, s', hcall, -⟩ := @segment_loads_most _ _ (shortSegment 0) (fun _ _ => 0xaa) rfl rfl
    (by rw [hread]; decide)
  refine ⟨s', hcall, ?_⟩
  obtain ⟨-, -, -, hsegment⟩ :=
    no_stale_data (by decide) (TableReach.init (fun _ _ => 0#64) mostMemory : LoadReach smallImage _ _)
  refine hsegment _ _ _ _ s' 0x400000 hopens (fun addr hal hlo hhi => ?_) hcall (by decide) (by decide)
  have haddr : addr = 0x400000 := by
    have hlo : 0x400000 ≤ addr := hlo
    have hhi : addr < 0x401000 := hhi
    simp only [pageSize] at hal
    omega
  rw [haddr, hread]
  decide

end TypeOS.Elf
