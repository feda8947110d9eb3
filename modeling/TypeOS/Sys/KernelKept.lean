import TypeOS.Sys.Usable

/-! What user requests leave of the kernel's translations.

    `sys_brk` and `sys_mmap` check no address against the kernel's own regions. A request names the
    pages it goes over, and what it grants is among them; so the kernel's translations stay as they
    are while no request names a page of theirs. `sys_brk` never does, for its pages lie above
    `USER_BRK_START`; `sys_mmap` takes any hint. -/

namespace TypeOS.Sys
open Paging Radix

/-- The addresses the kernel relies on: the identity map but for the fixed image's pages, and the
    heap as far as it is mapped. -/
def KernelVirt (heapEnd v : Nat) : Prop :=
  v < identity4kEnd ∧ ¬ (userImagePhysStart ≤ v ∧ v < userImagePhysEnd) ∨
    kernelHeapStart ≤ v ∧ v < heapEnd

/-- The two pages of the temporary window. -/
def WindowVirt (v : Nat) : Prop := kernelKmapWindow ≤ v ∧ v < kernelKmapWindow + 2 * pageSize

/-- A page of either. -/
def KernelPage (heapEnd : Nat) (π : Path) : Prop :=
  ∃ v, (KernelVirt heapEnd v ∨ WindowVirt v) ∧ π = pathOf v

/-- What a process asks for. -/
inductive Request
  | brk (addr : Nat)
  | mmap (addr len prot flags : Nat)

/-- A request of a process with this `p->brk`: the new one, and the tables. -/
def serve (im : Image) (s : Vm) (brk : Nat) : Request → Option (Nat × Vm)
  | .brk addr => (sysBrk im s brk addr).map fun r => (r.2.1, r.2.2)
  | .mmap addr len prot flags => some (brk, (sysMmap im s addr len prot flags).2)

/-- The pages a request goes over, as far as there are free frames for them. -/
def Request.Names (s : Vm) (brk : Nat) : Request → Path → Prop
  | .brk addr, π => userBrkStart ≤ addr ∧ ∃ j < (freeFrames s).card,
    (∀ k ≤ j, brkAfter brk k < addr) ∧ π = pathOf (brkAfter brk j)
  | .mmap addr len _ flags, π =>
    Pages (mmapAddr addr) (min (mmapPages addr len flags) (freeFrames s).card) π

/-- A request that names no page of the kernel's. -/
def Spares (heapEnd : Nat) (s : Vm) (brk : Nat) (req : Request) : Prop :=
  ∀ π, req.Names s brk π → ¬ KernelPage heapEnd π

/-- Such a request is served. -/
inductive Served (im : Image) (heapEnd : Nat) : Vm → Vm → Prop
  | intro {s s' : Vm} {brk brk' : Nat} {req : Request} (hno : Spares heapEnd s brk req)
    (hcall : serve im s brk req = some (brk', s')) : Served im heapEnd s s'

variable {im : Image} {s s' : Vm} {roots : List Nat} {tag : Nat → Option Path}
  {heapEnd brk brk' v u : Nat} {req : Request}

/-! ### One request -/

theorem serve_reach (h : VmReach im s roots) (hcall : serve im s brk req = some (brk', s')) :
    VmReach im s' roots := by
  cases req with
  | brk addr =>
    rw [serve, Option.map_eq_some_iff] at hcall
    obtain ⟨⟨r, b, s₁⟩, hrun, heq⟩ := hcall
    obtain ⟨rfl, rfl⟩ := Prod.mk.inj heq
    exact h.brk hrun
  | mmap addr len prot flags =>
    rw [serve, Option.some.injEq] at hcall
    obtain ⟨-, rfl⟩ := Prod.mk.inj hcall
    exact h.mmap addr len prot flags

/-- A request grants pages that it names. -/
theorem serve_granted (h : Forest s tag) (hcall : serve im s brk req = some (brk', s')) :
    ∃ tag', Granted (req.Names s brk) s tag s' tag' := by
  cases req with
  | brk addr =>
    rw [serve, Option.map_eq_some_iff] at hcall
    obtain ⟨⟨r, b, s₁⟩, hrun, heq⟩ := hcall
    obtain ⟨rfl, rfl⟩ := Prod.mk.inj heq
    obtain ⟨m, tag', g⟩ := sysBrk_spec h hrun
    refine ⟨tag', g.granted.mono ?_⟩
    rintro π ⟨j, hj, rfl⟩
    have huser : userBrkStart ≤ addr := g.user.resolve_right (by omega)
    exact ⟨huser, j, lt_of_lt_of_le hj g.frames, fun k hk => g.below k (by omega), rfl⟩
  | mmap addr len prot flags =>
    rw [serve, Option.some.injEq] at hcall
    obtain ⟨-, rfl⟩ := Prod.mk.inj hcall
    obtain ⟨tag', g, -⟩ := sysMmap_spec h addr len prot flags
    exact ⟨tag', g⟩

/-- The window lies apart from what the kernel relies on, up to the limit of the heap. -/
theorem KernelVirt.not_window (h : KernelVirt heapEnd v) (hend : heapEnd < kernelHeapLimit + pageSize) :
    pathOf v ≠ pathOf kernelKmapWindow := by
  intro heq
  have hv : v < 2 ^ 48 := by
    simp only [KernelVirt, identity4kEnd, kernelHeapLimit, pageSize] at *
    omega
  have hpage := pathOf_inj hv (by decide) heq
  simp only [KernelVirt, identity4kEnd, kernelHeapStart, kernelKmapWindow, pageSize] at *
  omega

/-- A served request keeps the kernel's translations. -/
theorem Served.keeps (h : VmReach im s roots) (hend : heapEnd < kernelHeapLimit + pageSize)
    (hs : Served im heapEnd s s') :
    VmReach im s' roots ∧
      (∀ v, KernelVirt heapEnd v → pagingVirtToPhys s' v = pagingVirtToPhys s v) ∧
      ∀ v, WindowVirt v → walk s.mem s.pml4 v = none → walk s'.mem s'.pml4 v = none := by
  obtain ⟨hno, hcall⟩ := hs
  obtain ⟨tag, hf, -⟩ := h.sound
  obtain ⟨tag', g⟩ := serve_granted hf hcall
  have hout : ∀ v, KernelVirt heapEnd v ∨ WindowVirt v → ¬ Request.Names s _ _ (pathOf v) :=
    fun v hv hn => hno _ hn ⟨v, hv, rfl⟩
  refine ⟨serve_reach h hcall, fun v hv => ?_, fun v hv hw => ?_⟩
  · exact hf.phys_congr g.forest (g.walk hf (hv.not_window hend) (hout v (Or.inl hv)))
  · by_cases hfirst : pathOf v = pathOf kernelKmapWindow
    · have hwalk : ∀ t : Vm, Paging.walk t.mem t.pml4 v = Paging.walk t.mem t.pml4 kernelKmapWindow :=
        fun t => by rw [Paging.walk, Paging.walk, hfirst]
      rw [hwalk] at hw ⊢
      refine g.window ?_ hw
      rw [← hfirst]
      exact hout v (Or.inr hv)
    · rw [g.walk hf hfirst (hout v (Or.inr hv))]
      exact hw

/-! ### Every run -/

/-- However often processes ask for memory, the kernel's translations stay as they are and the
    temporary window stays unmapped, while no request names a page of theirs. -/
theorem kernel_kept (h : VmReach im s roots) (hend : heapEnd < kernelHeapLimit + pageSize)
    (hrun : Relation.ReflTransGen (Served im heapEnd) s s') :
    (∀ v, KernelVirt heapEnd v → pagingVirtToPhys s' v = pagingVirtToPhys s v) ∧
      ∀ v, WindowVirt v → walk s.mem s.pml4 v = none → walk s'.mem s'.pml4 v = none := by
  suffices hall : VmReach im s' roots ∧
      (∀ v, KernelVirt heapEnd v → pagingVirtToPhys s' v = pagingVirtToPhys s v) ∧
      ∀ v, WindowVirt v → walk s.mem s.pml4 v = none → walk s'.mem s'.pml4 v = none from hall.2
  induction hrun with
  | refl => exact ⟨h, fun _ _ => rfl, fun _ _ hw => hw⟩
  | tail _ hstep ih =>
    obtain ⟨hr, hphys, hwin⟩ := ih
    obtain ⟨hr', hphys', hwin'⟩ := hstep.keeps hr hend
    exact ⟨hr', fun v hv => (hphys' v hv).trans (hphys v hv),
      fun v hv hw => hwin' v hv (hwin v hv hw)⟩

/-! ### Requests that name no page of the kernel's -/

/-- Pages from `USER_BRK_START` on are none of the kernel's. -/
theorem high_not_kernel (hend : heapEnd < kernelHeapLimit + pageSize) (hlo : userBrkStart ≤ v)
    (hhi : v < 2 ^ 48) : ¬ KernelPage heapEnd (pathOf v) := by
  rintro ⟨u, hu, heq⟩
  have hlow : u < 0x50001000 := by
    simp only [KernelVirt, WindowVirt, identity4kEnd, kernelKmapWindow, kernelHeapLimit,
      pageSize] at *
    omega
  have hpage := pathOf_inj hhi (by omega) heq
  simp only [userBrkStart, pageSize] at *
  omega

/-- `sys_brk` names none, wherever it is asked to go: `p->brk` starts at `USER_BRK_START`, and it
    gets no further from where it is than there are frames. -/
theorem brk_spares (hend : heapEnd < kernelHeapLimit + pageSize) (hlo : userBrkStart ≤ brk)
    (hhi : brk ≤ 2 ^ 47) (addr : Nat) : Spares heapEnd s brk (.brk addr) := by
  rintro π ⟨-, j, hj, -, rfl⟩
  have hcard := card_freeFrames s
  simp only [maxFrames, maxPhysMem, pageSize] at hcard
  have hcursor : brkAfter brk j = brk + j * pageSize :=
    brkAfter_eq j (by simp only [pageSize]; omega)
  rw [hcursor]
  refine high_not_kernel hend (by omega) ?_
  simp only [pageSize]
  omega

/-- `sys_mmap` names none where its range lies above. -/
theorem mmap_spares (hend : heapEnd < kernelHeapLimit + pageSize) {addr len prot flags : Nat}
    (hlo : userBrkStart ≤ mmapAddr addr)
    (hhi : mmapAddr addr + mmapPages addr len flags * pageSize ≤ 2 ^ 48) :
    Spares heapEnd s brk (.mmap addr len prot flags) := by
  rintro π ⟨j, hj, rfl⟩
  refine high_not_kernel hend (by omega) ?_
  simp only [pageSize] at *
  omega

/-- A page where the program did not ask for a place, with the heap's first 64 KiB mapped. -/
theorem kernel_kept_first :
    (∀ v, KernelVirt (kernelHeapStart + 0x10000) v →
      pagingVirtToPhys (sysMmap smallImage mostVm 0 4096 3 0x20).2 v =
        pagingVirtToPhys mostVm v) ∧
    ∀ v, WindowVirt v → walk mostVm.mem mostVm.pml4 v = none →
      walk (sysMmap smallImage mostVm 0 4096 3 0x20).2.mem
        (sysMmap smallImage mostVm 0 4096 3 0x20).2.pml4 v = none :=
  kernel_kept (TableReach.init _ _) (by decide) <| .single <|
    @Served.intro _ _ _ _ userBrkStart userBrkStart (.mmap 0 4096 3 0x20)
      (mmap_spares (by decide) (by decide) (by decide)) rfl

/-! ### A hint in the identity map -/

/-- The pages of `sys_mmap (0x1000000, PAGE_SIZE, PROT_READ | PROT_WRITE, MAP_ANONYMOUS)`. -/
theorem hint_pages : mmapAddr 0x1000000 = 0x1000000 ∧ mmapPages 0x1000000 4096 0x20 = 1 := by
  decide

/-- Asked for a page of the identity map, `sys_mmap` maps it to a fresh frame. -/
theorem sysMmap_hint {mem : Paging.Memory} {mb : MultibootInfo} {n t : Nat}
    {pt : Fin 512 → Option Nat} (h : Early im mem mb n pt s) (hn : n < spareTables im mb)
    (ht : pt (pdIndex 0x1000000) = some t) :
    ∃ k m pt' s', sysMmap im s 0x1000000 4096 3 0x20 = (.ok 0x1000000, s') ∧
      spareRank im mb k = n ∧ n < m ∧ m ≤ n + 2 ∧ pt' (pdIndex 0x1000000) = some t ∧
      Early im mem mb m pt' s' ∧ pagingVirtToPhys s' 0x1000000 = k * pageSize := by
  obtain ⟨k, m, pt', s', hloop, hk, hrank, hlo, hhi, hkeep, h', hentry⟩ :=
    h.grant hn (by decide) (by decide) ht (mmapFlags 3)
  obtain ⟨hpr, hframe⟩ := @pageEntry_spec k (mmapFlags 3 ||| pageUser) hk.lt (by decide) (by decide)
  rw [← hentry] at hpr hframe
  refine ⟨k, m, pt', s', ?_, hrank, hlo, hhi, hkeep _ _ ht, h', ?_⟩
  · have hpages : userRangePages 0x1000000 4096 = 1 := by decide
    have hpage : pageOf 0x1000000 = 0x1000000 := by decide
    rw [sysMmap, if_neg (by decide), hint_pages.1, pagingMapUserRange, hpages, hpage, hloop]
  · rw [h'.virtToPhys (by decide) (hkeep _ _ ht) hpr, hframe,
      show 0x1000000 % pageSize = 0 from by decide, Nat.add_zero]

/-- Two such requests, one after the other, from the tables `paging_init` leaves. -/
theorem sysMmap_twice : ∃ s₁ s₂ k₁ k₂,
    sysMmap smallImage mostVm 0x1000000 4096 3 0x20 = (.ok 0x1000000, s₁) ∧
    sysMmap smallImage s₁ 0x1000000 4096 3 0x20 = (.ok 0x1000000, s₂) ∧
    pagingVirtToPhys s₁ 0x1000000 = k₁ * pageSize ∧
    pagingVirtToPhys s₂ 0x1000000 = k₂ * pageSize ∧ k₁ ≠ k₂ := by
  obtain ⟨pt, he, ht⟩ := early_init smallImage (fun _ _ => 0#64) mostMemory
  have hmany := spareTables_most
  rw [initTables_most] at he ht
  obtain ⟨t, htab⟩ := Option.isSome_iff_exists.mp <| (ht (pdIndex 0x1000000)).mpr <| by
    rw [(low_index (by decide)).2.2]
    decide
  obtain ⟨k₁, m₁, pt₁, s₁, hcall₁, hrank₁, hlo₁, hhi₁, htab₁, he₁, hphys₁⟩ :=
    sysMmap_hint he (by omega) htab
  obtain ⟨k₂, m₂, pt₂, s₂, hcall₂, hrank₂, -, -, -, -, hphys₂⟩ :=
    sysMmap_hint he₁ (by omega) htab₁
  refine ⟨s₁, s₂, k₁, k₂, hcall₁, hcall₂, hphys₁, hphys₂, ?_⟩
  rintro rfl
  omega

/-- So the identity map does not keep: the second call moves the page to another frame. -/
theorem kernel_remapped : ∃ s₁ s₂, VmReach smallImage s₁ [smallImage.pmlTable] ∧
    sysMmap smallImage s₁ 0x1000000 4096 3 0x20 = (.ok 0x1000000, s₂) ∧
    KernelVirt kernelHeapStart 0x1000000 ∧
    pagingVirtToPhys s₂ 0x1000000 ≠ pagingVirtToPhys s₁ 0x1000000 := by
  obtain ⟨s₁, s₂, k₁, k₂, hcall₁, hcall₂, hphys₁, hphys₂, hne⟩ := sysMmap_twice
  have hreach : VmReach smallImage (sysMmap smallImage mostVm 0x1000000 4096 3 0x20).2
      [smallImage.pmlTable] := (TableReach.init _ _).mmap 0x1000000 4096 3 0x20
  refine ⟨s₁, s₂, ?_, hcall₂, Or.inl ⟨by decide, by decide⟩, ?_⟩
  · rw [hcall₁] at hreach
    exact hreach
  · rw [hphys₁, hphys₂]
    intro hc
    exact hne (Nat.eq_of_mul_eq_mul_right pageSize_pos hc.symm)

end TypeOS.Sys
