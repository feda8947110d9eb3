import TypeOS.Sched.Parents

/-! How an exit is reported by `wait4`.

    A run is kept with the log of its exits and of the waits that delivered one. Every exit is still
    in the table as a zombie that its parent finds, or was delivered once, by a wait of its parent. This
    needs waits that are through with what they take: the slot is given up before the status reaches
    the user, and the status is the argument of `exit` as it is, not a status word made of it. -/

namespace TypeOS.Sched

open Proc Kernel

variable {m m' : Machine} {k k' : Kernel} {f : Frame} {i : Input} {t s : Tid} {z : Option Tid} {status : Int}

/-- What a step has to report: a task with a parent exits, given with the pid of that, its own and
    its code; or a `wait4` of a task for `asked` returns `pid`, with the status word. -/
inductive Report
  | exited (parent pid : Nat) (code : Int)
  | delivered (waiter : Nat) (asked : Int) (pid : Nat) (status : BitVec 32)

/-- The pid that a report is about. -/
def Report.about : Report → Nat
  | .exited _ pid _ => pid
  | .delivered _ _ pid _ => pid

/-- The report of an exit of the current task. -/
def exitReport (status : Int) (m : Machine) : List Report :=
  if (m.kernel.tasks m.cur).parent.isSome then
    [.exited (m.kernel.tasks m.cur).ppid (m.kernel.tasks m.cur).pid status]
  else []

/-- The reports of a step. -/
def reports (i : Input) (m : Machine) : List Report :=
  match i, m.mode with
  | .syscall _ _ (.exit status), .user => exitReport status m
  | .turn, .kernel f =>
    match f.call with
    | .wait pid statusOk =>
      match (procForkTakeStatus pid m.kernel).1, statusOk with
      | some (reaped, status), true =>
        [.delivered (m.kernel.tasks f.owner).pid pid reaped (BitVec.ofInt 32 status)]
      | _, _ => []
    | _ => []
  | _, _ => []

/-- The runs with steps that satisfy `Meets`, with their reports, the last one first. -/
inductive Runs (Meets : Input → Machine → Prop) : List Report → Machine → Prop
  | boot (ans : Answers) (live : Finset Handle) (files : Handle → VfsFile) (pml4 : Nat) :
      Runs Meets [] (gdtSetRsp0 0 (Machine.boot ans live files pml4))
  | step {log : List Report} {m m' : Machine} (i : Input) : Runs Meets log m → Meets i m →
      step i m = some m' → Runs Meets (reports i m ++ log) m'

/-- A status word says, as `WIFEXITED` and `WEXITSTATUS` read it, that a task exited with `code`. -/
def SaysExited (status : BitVec 32) (code : Int) : Prop :=
  status &&& 0x7f#32 = 0#32 ∧ (((status >>> 8) &&& 0xff#32).toNat : Int) = code % 256

/-- The delivery of the exit of a task. -/
def Report.delivers (pid : Nat) : Report → Bool
  | .exited .. => false
  | .delivered _ _ p _ => p = pid

/-- The deliveries of the exit of a task. -/
def deliveries (pid : Nat) (log : List Report) : List Report := log.filter (Report.delivers pid)

/-- A zombie is there for a wait of its parent, which is the slot it points to. -/
def Awaited (k : Kernel) (parent pid : Nat) (code : Int) : Prop :=
  ∃ t s, (k.tasks t).state = .zombie ∧ (k.tasks t).pid = pid ∧ (k.tasks t).exitStatus = code ∧
    (k.tasks t).parent = some s ∧ (k.tasks s).state ≠ .unused ∧ (k.tasks s).pid = parent

/-- Every exit waits for its parent, or was delivered to it, once. -/
def Reported (log : List Report) (m : Machine) : Prop :=
  ∀ parent pid code, .exited parent pid code ∈ log →
    deliveries pid log = [] ∧ Awaited m.kernel parent pid code ∨
    ∃ asked status, deliveries pid log = [.delivered parent asked pid status] ∧
      (asked = -1 ∨ asked = pid) ∧ SaysExited status code

/-- A pid is that of a child of the current task. -/
def ChildPid (k : Kernel) (pid : Int) : Prop := ∃ t, (k.tasks t).state ≠ .unused ∧
  (k.tasks t).parent = some k.currentTask ∧ pid = (k.tasks t).pid

/-- An argument of `exit` that is the status word of an exit with this code. -/
def PlainCode (code : Int) : Prop := code % 65536 = 0 ∨ code % 65536 = 0x8080

/-- A turn of a wait is on behalf of the task that called, asks for a child if there is any, and can
    deliver what it takes. -/
def WaitsWell (i : Input) (m : Machine) : Prop :=
  ∀ f pid statusOk, i = .turn → m.mode = .kernel f → f.call = .wait pid statusOk →
    f.owner = m.cur ∧ (pid = -1 ∨ ChildPid m.kernel pid ∨ procHasChildren m.kernel = false) ∧
    ∀ z, zombieChild pid m.kernel = some z →
      statusOk = true ∧ PlainCode (m.kernel.tasks z).exitStatus

/-- No exit jumps back to the task that exits, or to one that is dead. -/
def ReturnsAlive (i : Input) (m : Machine) : Prop :=
  ∀ ctx ans status, i = .syscall ctx ans (.exit status) → m.mode = .user → m.forkJmpActive = true →
    ∀ st n saved, m.forkJmpBuf = some (st, n) → (enter ctx m).kstacks st = some saved →
      saved.self ≠ m.cur ∧ m.state saved.self ≠ .zombie

/-- What the steps must meet for every exit to be reported. -/
structure ReportsWell (i : Input) (m : Machine) : Prop where
  parents : TakesNoParent i m
  waits : WaitsWell i m
  returns : ReturnsAlive i m

/-! ### Status words -/

theorem saysExited_iff (code : Int) : SaysExited (BitVec.ofInt 32 code) code ↔ PlainCode code := by
  generalize hw : BitVec.ofInt 32 code = w
  have hn : (w.toNat : Int) = code % 4294967296 := by
    rw [← hw, BitVec.toNat_ofInt, Int.toNat_of_nonneg (Int.emod_nonneg _ (by decide))]
    rfl
  have hsig : w &&& 0x7f#32 = 0#32 ↔ w.toNat % 128 = 0 := by
    have hmask : w.toNat &&& 0x7f = w.toNat % 128 := Nat.and_two_pow_sub_one_eq_mod w.toNat 7
    rw [← BitVec.toNat_inj, BitVec.toNat_and]
    change w.toNat &&& 0x7f = 0 ↔ _
    rw [hmask]
  have hcode : ((w >>> 8) &&& 0xff#32).toNat = w.toNat / 256 % 256 := by
    have hmask : (w >>> 8).toNat &&& 0xff = (w >>> 8).toNat % 256 :=
      Nat.and_two_pow_sub_one_eq_mod (w >>> 8).toNat 8
    rw [BitVec.toNat_and]
    change (w >>> 8).toNat &&& 0xff = _
    rw [hmask, BitVec.toNat_ushiftRight, Nat.shiftRight_eq_div_pow]
  have hlow : code % 65536 = (w.toNat % 65536 : Nat) := by omega
  have hbyte : code % 256 = (w.toNat % 65536 % 256 : Nat) := by omega
  have hsig' : w.toNat % 128 = w.toNat % 65536 % 128 := by omega
  have hcode' : w.toNat / 256 % 256 = w.toNat % 65536 / 256 := by omega
  rw [SaysExited, hsig, hcode, PlainCode, hlow, hbyte, hsig', hcode']
  -- the two low bytes are the same, and 0 or 0x80
  generalize w.toNat % 65536 = r
  omega

/-! ### Runs and their reports -/

theorem Runs.reaches {Meets : Input → Machine → Prop} {log : List Report} (hr : Runs Meets log m) :
    Reaches Meets m := by
  induction hr with
  | boot ans live files pml4 => exact .boot ans live files pml4
  | step i _ hm hs ih => exact ih.step i hm hs

theorem Reaches.mono {P Q : Input → Machine → Prop} (h : ∀ i m, P i m → Q i m) (hr : Reaches P m) :
    Reaches Q m := by
  induction hr with
  | boot ans live files pml4 => exact .boot ans live files pml4
  | step i _ hm hs ih => exact ih.step i (h i _ hm) hs

theorem deliveries_exited (pid parent p : Nat) (code : Int) (log : List Report) :
    deliveries pid (.exited parent p code :: log) = deliveries pid log := by
  rw [deliveries, List.filter_cons_of_neg (by simp [Report.delivers])]
  rfl

theorem deliveries_self (waiter : Nat) (asked : Int) (pid : Nat) (status : BitVec 32)
    (log : List Report) : deliveries pid (.delivered waiter asked pid status :: log) =
      .delivered waiter asked pid status :: deliveries pid log := by
  rw [deliveries, List.filter_cons_of_pos (by simp [Report.delivers])]
  rfl

theorem deliveries_ne {pid p : Nat} (h : p ≠ pid) (waiter : Nat) (asked : Int) (status : BitVec 32)
    (log : List Report) :
    deliveries pid (.delivered waiter asked p status :: log) = deliveries pid log := by
  rw [deliveries, List.filter_cons_of_neg (by simp [Report.delivers, h])]
  rfl

theorem deliveries_nil {pid : Nat} {log : List Report} (h : ∀ r ∈ log, r.about ≠ pid) :
    deliveries pid log = [] := by
  refine List.filter_eq_nil_iff.mpr fun r hr => ?_
  cases r with
  | exited parent p code => simp [Report.delivers]
  | delivered waiter asked p status =>
    have := h _ hr
    simpa [Report.delivers, Report.about] using this

/-! ### Pids -/

/-- No two tasks have the same pid, and none has one that is still to be given out. -/
structure Pids (m : Machine) : Prop where
  below : ∀ t, m.state t ≠ .unused → (m.kernel.tasks t).pid < m.kernel.nextPid
  unique : ∀ t u, m.state t ≠ .unused → m.state u ≠ .unused →
    (m.kernel.tasks t).pid = (m.kernel.tasks u).pid → t = u

/-- A task that is there was there before, or has just been made. -/
theorem Works.origin (w : Works z m m') (ht : m'.state t ≠ .unused) :
    (m.state t ≠ .unused ∧ (m'.kernel.tasks t).kin = (m.kernel.tasks t).kin) ∨
    (m.state t = .unused ∧ (m'.kernel.tasks t).pid = m.kernel.nextPid ∧ m'.state t = .runnable) := by
  cases w.slot t with
  | same state kin => exact Or.inl ⟨by rwa [Machine.state, ← state], kin⟩
  | woken was _ kin => exact Or.inl ⟨by simp [Machine.state, was], kin⟩
  | reaped _ _ _ state => exact absurd state ht
  | forked was born =>
    rcases born.2 with ⟨hu, -⟩ | hchild
    · exact absurd hu ht
    · exact Or.inr ⟨was, hchild.pid, born.1.resolve_left ht⟩

theorem Pids.works (h : Pids m) (w : Works z m m') : Pids m' := by
  have hpid : ∀ {t}, (m'.kernel.tasks t).kin = (m.kernel.tasks t).kin →
      (m'.kernel.tasks t).pid = (m.kernel.tasks t).pid := fun hk => Process.kin_pid hk
  refine ⟨fun t ht => ?_, fun t u ht hu heq => ?_⟩
  · rcases w.origin ht with ⟨hold, hkin⟩ | ⟨hnew, hp, -⟩
    · rw [hpid hkin]
      exact Nat.lt_of_lt_of_le (h.below t hold) w.pids
    · rw [hp]
      exact (w.born t hnew ht).1
  · rcases w.origin ht with ⟨hold, hkin⟩ | ⟨hnew, hp, -⟩ <;>
      rcases w.origin hu with ⟨hold', hkin'⟩ | ⟨hnew', hp', -⟩
    · rw [hpid hkin, hpid hkin'] at heq
      exact h.unique t u hold hold' heq
    · rw [hpid hkin, hp'] at heq
      exact absurd heq (h.below t hold).ne
    · rw [hp, hpid hkin'] at heq
      exact absurd heq.symm (h.below u hold').ne
    · exact (w.born u hnew' hu).2 t hnew ht

/-! ### The log and the table -/

/-- The table bears out the log. -/
structure Ledger (log : List Report) (m : Machine) : Prop where
  pids : Pids m
  past : ∀ r ∈ log, r.about < m.kernel.nextPid ∧
    ∀ t, (m.kernel.tasks t).Live → (m.kernel.tasks t).pid ≠ r.about
  fresh : ∀ t, m.state t = .zombie → deliveries (m.kernel.tasks t).pid log = []
  told : Reported log m
  suspended : m.forkJmpActive = true → ∀ st n saved, m.forkJmpBuf = some (st, n) →
    m.kstacks st = some saved → saved.frame.call ≠ .exiting → (m.kernel.tasks saved.self).Live

theorem Awaited.keep {parent pid : Nat} {code : Int} (h : Awaited k parent pid code)
    (hz : ∀ t, (k.tasks t).state = .zombie → (k.tasks t).pid = pid →
      (k'.tasks t).state = .zombie ∧ (k'.tasks t).kin = (k.tasks t).kin)
    (hs : ∀ t s, (k.tasks t).state = .zombie → (k.tasks t).parent = some s →
      (k.tasks s).state ≠ .unused →
      (k'.tasks s).state ≠ .unused ∧ (k'.tasks s).pid = (k.tasks s).pid) :
    Awaited k' parent pid code := by
  obtain ⟨t, s, hzom, hp, hcode, hpar, hthere, hps⟩ := h
  obtain ⟨hzom', hkin⟩ := hz t hzom hp
  obtain ⟨hthere', hps'⟩ := hs t s hzom hpar hthere
  exact ⟨t, s, hzom', (Process.kin_pid hkin).trans hp, (Process.kin_exitStatus hkin).trans hcode,
    (Process.kin_parent hkin).trans hpar, hthere', hps'.trans hps⟩

/-- A zombie that is not taken stays. -/
theorem SlotStep.zombie {p p' : Process} (h : SlotStep z k t p p') (hp : p.state = .zombie)
    (hz : z ≠ some t) : p'.state = .zombie ∧ p'.kin = p.kin := by
  cases h with
  | same state kin => exact ⟨state.trans hp, kin⟩
  | woken was => exact absurd (hp.symm.trans was) (by decide)
  | reaped taken => exact absurd taken hz
  | forked was => exact absurd (hp.symm.trans was) (by decide)

/-- The parent of a zombie is not taken. -/
theorem Works.parent_stays (w : Works z m m')
    (hz : ∀ c, z = some c → ∀ t, m.state t ≠ .unused → (m.kernel.tasks t).parent ≠ some c)
    (ht : m.state t = .zombie) (hp : (m.kernel.tasks t).parent = some s) (hs : m.state s ≠ .unused) :
    m'.state s ≠ .unused ∧ (m'.kernel.tasks s).pid = (m.kernel.tasks s).pid := by
  have hthere : m.state t ≠ .unused := by simp [ht]
  obtain ⟨hs', hkin⟩ := (w.slot s).stays hs fun hzs => hz s hzs t hthere hp
  exact ⟨hs', Process.kin_pid hkin⟩

theorem Ledger.past_works {log : List Report} (h : Ledger log m) (w : Works z m m') :
    ∀ r ∈ log, r.about < m'.kernel.nextPid ∧
      ∀ t, (m'.kernel.tasks t).Live → (m'.kernel.tasks t).pid ≠ r.about := by
  intro r hr
  obtain ⟨hlt, hdead⟩ := h.past r hr
  refine ⟨Nat.lt_of_lt_of_le hlt w.pids, fun t ht => ?_⟩
  rcases w.origin ht.1 with ⟨hold, hkin⟩ | ⟨-, hp, -⟩
  · rw [Process.kin_pid hkin]
    refine hdead t ⟨hold, fun hzom => ?_⟩
    cases w.slot t with
    | same state => exact ht.2 (state.trans hzom)
    | woken was => exact absurd (hzom.symm.trans was) (by decide)
    | reaped _ _ _ state => exact ht.1 state
    | forked was => exact hold was
  · rw [hp]
    exact hlt.ne'

theorem Ledger.suspended_works {log : List Report} (h : Ledger log m) (w : Works z m m') :
    m'.forkJmpActive = true → ∀ st n saved, m'.forkJmpBuf = some (st, n) →
      m'.kstacks st = some saved → saved.frame.call ≠ .exiting →
        (m'.kernel.tasks saved.self).Live := by
  intro hact st n saved hbuf hk hne
  rw [w.active] at hact
  rw [w.buf] at hbuf
  refine ((w.slot saved.self).live (h.suspended hact st n saved hbuf ?_ hne)).1
  rcases w.stack st with heq | ⟨-, hnone⟩
  · rw [← heq, hk]
  · rw [hnone] at hk
    cases hk

/-- A zombie that is there was there before. -/
theorem Works.zombie_old (w : Works z m m') (ht : m'.state t = .zombie) :
    m.state t = .zombie ∧ (m'.kernel.tasks t).pid = (m.kernel.tasks t).pid := by
  cases w.slot t with
  | same state kin => exact ⟨state.symm.trans ht, Process.kin_pid kin⟩
  | woken _ state => exact absurd (state.symm.trans ht) (by decide)
  | reaped _ _ _ state => exact absurd (state.symm.trans ht) (by decide)
  | forked _ born =>
    rcases born.1 with hu | hr
    · exact absurd (hu.symm.trans ht) (by decide)
    · exact absurd (hr.symm.trans ht) (by decide)

/-- The current task works on, and takes nobody. -/
theorem Ledger.works {log : List Report} (h : Ledger log m) (w : Works none m m') :
    Ledger log m' := by
  have hnone : ∀ c, (none : Option Tid) = some c → ∀ t, m.state t ≠ .unused →
      (m.kernel.tasks t).parent ≠ some c := fun c hc => absurd hc (by simp)
  refine ⟨h.pids.works w, h.past_works w, fun t ht => ?_, fun parent pid code hmem => ?_,
    h.suspended_works w⟩
  · obtain ⟨hold, hp⟩ := w.zombie_old ht
    rw [hp]
    exact h.fresh t hold
  · refine (h.told parent pid code hmem).imp_left fun ⟨hd, ha⟩ => ⟨hd, ?_⟩
    exact ha.keep (fun t ht _ => (w.slot t).zombie ht (by simp))
      fun t s ht hp hs => w.parent_stays hnone ht hp hs

/-- The current task takes a zombie. -/
theorem Ledger.take {log : List Report} {c : Tid} {asked : Int} (h : Ledger log m)
    (w : Works (some c) m m') (hgone : m'.state c = .unused) (hzom : m.state c = .zombie)
    (hpar : (m.kernel.tasks c).parent = some m.cur)
    (hz : ∀ t, m.state t ≠ .unused → (m.kernel.tasks t).parent ≠ some c)
    (hasked : asked = -1 ∨ asked = (m.kernel.tasks c).pid)
    (hcode : PlainCode (m.kernel.tasks c).exitStatus) :
    Ledger (.delivered (m.kernel.tasks m.cur).pid asked (m.kernel.tasks c).pid
      (BitVec.ofInt 32 (m.kernel.tasks c).exitStatus) :: log) m' := by
  have hthere : m.state c ≠ .unused := by simp [hzom]
  have hparent : ∀ d, some c = some d → ∀ t, m.state t ≠ .unused →
      (m.kernel.tasks t).parent ≠ some d := by
    intro d hd
    rw [Option.some.injEq] at hd
    exact hd ▸ hz
  have hother : ∀ t, m.state t = .zombie → t ≠ c → (m.kernel.tasks c).pid ≠ (m.kernel.tasks t).pid := by
    intro t ht hne heq
    exact hne (h.pids.unique t c (by simp [ht]) hthere heq.symm)
  refine ⟨h.pids.works w, ?_, fun t ht => ?_, fun parent pid code hmem => ?_, h.suspended_works w⟩
  · intro r hr
    rcases List.mem_cons.mp hr with rfl | hr
    · refine ⟨Nat.lt_of_lt_of_le (h.pids.below c hthere) w.pids, fun t ht heq => ?_⟩
      simp only [Report.about] at heq
      rcases w.origin ht.1 with ⟨hold, hkin⟩ | ⟨-, hp, -⟩
      · rw [Process.kin_pid hkin] at heq
        rw [h.pids.unique t c hold hthere heq] at ht
        exact ht.1 hgone
      · rw [hp] at heq
        exact (h.pids.below c hthere).ne heq.symm
    · exact h.past_works w r hr
  · obtain ⟨hold, hp⟩ := w.zombie_old ht
    have hne : t ≠ c := by
      rintro rfl
      rw [hgone] at ht
      cases ht
    rw [hp, deliveries_ne (hother t hold hne)]
    exact h.fresh t hold
  · have hmem : .exited parent pid code ∈ log := (List.mem_cons.mp hmem).resolve_left (by simp)
    rcases h.told parent pid code hmem with ⟨hd, ha⟩ | ⟨asked', status, hd, hrest⟩
    · by_cases hpid : (m.kernel.tasks c).pid = pid
      · -- the zombie that is taken is the one that was to be reported
        obtain ⟨t, s, ht, hp, hexit, htpar, -, hps⟩ := ha
        have htc : t = c := by
          by_contra hne
          exact hother t ht hne (hpid.trans hp.symm)
        subst htc
        rw [hpar, Option.some.injEq] at htpar
        refine Or.inr ⟨asked, _, ?_, hpid ▸ hasked, hexit ▸ (saysExited_iff _).mpr hcode⟩
        rw [hpid, deliveries_self, hd, htpar, hps, hexit]
      · refine Or.inl ⟨by rw [deliveries_ne hpid, hd], ha.keep (fun t ht hp => ?_) fun t s ht hp hs => ?_⟩
        · refine (w.slot t).zombie ht fun heq => hpid ?_
          rw [Option.some.injEq] at heq
          rw [heq, hp]
        · exact w.parent_stays hparent ht hp hs
    · have hne : (m.kernel.tasks c).pid ≠ pid := by
        rintro rfl
        rw [h.fresh c hzom] at hd
        cases hd
      exact Or.inr ⟨asked', status, by rw [deliveries_ne hne, hd], hrest⟩

/-! ### Another task goes on -/

/-- Tasks that are alive are marked otherwise. -/
structure Marks (k k' : Kernel) : Prop where
  pids : k'.nextPid = k.nextPid
  kin : ∀ t, (k'.tasks t).kin = (k.tasks t).kin
  state : ∀ t, (k'.tasks t).state = (k.tasks t).state ∨ (k.tasks t).Live ∧ (k'.tasks t).Live

theorem Marks.setState (state : TaskState) (ht : (k.tasks t).Live) (hu : state ≠ .unused)
    (hz : state ≠ .zombie) : Marks k (k.setState t state) := by
  refine ⟨rfl, onTask_kin (by intro; rfl) t, fun u => ?_⟩
  rcases eq_or_ne u t with rfl | hne
  · refine Or.inr ⟨ht, ?_⟩
    rw [Kernel.setState, onTask_tasks_self]
    exact ⟨hu, hz⟩
  · rw [Kernel.setState, onTask_tasks_ne hne]
    exact Or.inl rfl

theorem Marks.live (h : Marks k k') : (k'.tasks t).Live ↔ (k.tasks t).Live := by
  rcases h.state t with heq | ⟨hl, hl'⟩
  · rw [Process.Live, Process.Live, heq]
  · exact ⟨fun _ => hl, fun _ => hl'⟩

theorem Marks.unused (h : Marks k k') :
    (k'.tasks t).state = .unused ↔ (k.tasks t).state = .unused := by
  rcases h.state t with heq | ⟨hl, hl'⟩
  · rw [heq]
  · exact ⟨fun hu => absurd hu hl'.1, fun hu => absurd hu hl.1⟩

theorem Marks.zombie (h : Marks k k') :
    (k'.tasks t).state = .zombie ↔ (k.tasks t).state = .zombie := by
  rcases h.state t with heq | ⟨hl, hl'⟩
  · rw [heq]
  · exact ⟨fun hz => absurd hz hl'.2, fun hz => absurd hz hl.2⟩

theorem Marks.trans {k'' : Kernel} (h : Marks k k') (h' : Marks k' k'') : Marks k k'' := by
  refine ⟨h'.pids.trans h.pids, fun t => (h'.kin t).trans (h.kin t), fun t => ?_⟩
  rcases h'.state t with heq | ⟨hl, hl'⟩
  · rw [heq, Process.Live, Process.Live, heq]
    exact h.state t
  · exact Or.inr ⟨h.live.mp hl, hl'⟩

theorem Marks.pid (h : Marks k k') : (k'.tasks t).pid = (k.tasks t).pid := Process.kin_pid (h.kin t)

/-- Everything that the log needs but for what is suspended. -/
theorem Ledger.marks {log : List Report} (h : Ledger log m) (hm : Marks m.kernel m'.kernel)
    (hs : m'.forkJmpActive = true → ∀ st n saved, m'.forkJmpBuf = some (st, n) →
      m'.kstacks st = some saved → saved.frame.call ≠ .exiting → (m'.kernel.tasks saved.self).Live) :
    Ledger log m' := by
  refine ⟨⟨fun t ht => ?_, fun t u ht hu heq => ?_⟩, fun r hr => ?_, fun t ht => ?_,
    fun parent pid code hmem => ?_, hs⟩
  · rw [hm.pid, hm.pids]
    exact h.pids.below t (hm.unused.not.mp ht)
  · rw [hm.pid, hm.pid] at heq
    exact h.pids.unique t u (hm.unused.not.mp ht) (hm.unused.not.mp hu) heq
  · rw [hm.pids]
    refine ⟨(h.past r hr).1, fun t ht => ?_⟩
    rw [hm.pid]
    exact (h.past r hr).2 t (hm.live.mp ht)
  · rw [hm.pid]
    exact h.fresh t (hm.zombie.mp ht)
  · refine (h.told parent pid code hmem).imp_left fun ⟨hd, ha⟩ => ⟨hd, ?_⟩
    exact ha.keep (fun t ht _ => ⟨hm.zombie.mpr ht, hm.kin t⟩)
      fun t s _ _ hs => ⟨hm.unused.not.mpr hs, hm.pid⟩

theorem procRunRunnable_marks (hp : procRunRunnable f m = some m') : Marks m.kernel m'.kernel := by
  unfold procRunRunnable at hp
  split at hp
  · cases hp
  · next t ht =>
    have hrun := firstSlot_some ht
    simp only [decide_eq_true_eq, Machine.state] at hrun
    rw [Option.some.injEq] at hp
    subst hp
    obtain ⟨n, hn⟩ := gdtSetRsp0_eq t m
    simp only [procActivate, hn]
    have hlive : (m.kernel.tasks t).Live := ⟨by simp [hrun.1], by simp [hrun.1]⟩
    exact { Marks.setState .running hlive (by decide) (by decide) with }

theorem Ledger.activate {log : List Report} (h : Ledger log m) (hp : procRunRunnable f m = some m')
    (hc : f.call ≠ .exiting → (m.kernel.tasks m.cur).Live) : Ledger log m' := by
  have hm := procRunRunnable_marks hp
  refine h.marks hm fun _ st n saved hbuf hk hne => ?_
  rcases procRunRunnable_cases f m with ⟨hn, -⟩ | ⟨t, m₁, hs, -, -, -, -, -, -, -, -, hb, -, hstacks, -⟩
  · rw [hn] at hp
    cases hp
  rw [hs, Option.some.injEq] at hp
  subst hp
  rw [hb, Option.some.injEq, Prod.mk.injEq] at hbuf
  obtain ⟨rfl, -⟩ := hbuf
  rw [hstacks, Function.update_self, Option.some.injEq] at hk
  subst hk
  exact hm.live.mpr (hc hne)

theorem Ledger.block {log : List Report} (h : Ledger log m) (hc : (m.kernel.tasks m.cur).Live) :
    Ledger log (schedBlockCurrent f m) := by
  have hmark : Marks m.kernel (markBlocked f m).kernel := Marks.setState .blocked hc (by decide) (by decide)
  rcases schedBlockCurrent_cases f m with ⟨m', hp, heq⟩ | ⟨-, ⟨rr, heq⟩ | ⟨next, rr, n, hne, hst, -, heq⟩⟩ <;>
    rw [heq]
  · exact h.activate hp fun _ => hc
  · refine h.marks { hmark with } fun hact st n saved hb hk hne => ?_
    exact hmark.live.mpr (h.suspended hact st n saved hb hk hne)
  · have hnext : ((markBlocked f m).kernel.tasks next).Live := by
      have heq : (markBlocked f m).kernel.tasks next = m.kernel.tasks next :=
        Function.update_of_ne hne ..
      rw [Machine.state] at hst
      rw [heq]
      exact ⟨by simp [hst], by simp [hst]⟩
    have hswitch := hmark.trans (Marks.setState .running hnext (by decide) (by decide))
    refine h.marks { hswitch with } fun hact st n saved hb hk hne => ?_
    have hlive := hswitch.live.mpr (h.suspended hact st _ saved hb hk hne)
    exact hlive

/-! ### Exits -/

/-- The slots after an exit. -/
theorem exited_slot (hm : m'.kernel = exitCurrent status m.kernel) (t : Tid) :
    t = m.cur ∧ m'.kernel.tasks t = { m.kernel.tasks t with exitStatus := status, state := .zombie } ∨
    t ≠ m.cur ∧ (m'.kernel.tasks t).kin = (m.kernel.tasks t).kin ∧
      (m'.state t = m.state t ∨ (m.kernel.tasks t).Live ∧ (m'.kernel.tasks t).Live) := by
  obtain ⟨-, hself, hother⟩ := exitCurrent_slots status m.kernel
  rcases eq_or_ne t m.cur with rfl | hne
  · exact Or.inl ⟨rfl, by rw [hm, hself]⟩
  · refine Or.inr ⟨hne, ?_⟩
    rw [Machine.state, hm]
    rcases hother t hne with heq | ⟨hb, -, heq⟩
    · rw [heq]
      exact ⟨rfl, Or.inl rfl⟩
    · rw [heq]
      exact ⟨rfl, Or.inr ⟨⟨by simp [hb], by simp [hb]⟩, by simp [Process.Live]⟩⟩

theorem mem_exitReport {r : Report} (h : r ∈ exitReport status m) :
    (∃ s, (m.kernel.tasks m.cur).parent = some s) ∧
      r = .exited (m.kernel.tasks m.cur).ppid (m.kernel.tasks m.cur).pid status := by
  rw [exitReport] at h
  split at h
  · next hpar => exact ⟨Option.isSome_iff_exists.mp hpar, List.mem_singleton.mp h⟩
  · simp at h

theorem deliveries_exitReport (status : Int) (m : Machine) (log : List Report) (pid : Nat) :
    deliveries pid (exitReport status m ++ log) = deliveries pid log := by
  rw [exitReport]
  split
  · exact deliveries_exited ..
  · rfl

/-- What waits for its parent still does after another exit. -/
theorem Awaited.exit {parent pid : Nat} {code : Int} (h : Awaited m.kernel parent pid code)
    (hc : (m.kernel.tasks m.cur).Live) (hm : m'.kernel = exitCurrent status m.kernel) :
    Awaited m'.kernel parent pid code := by
  have hl : SameLinks m.kernel m'.kernel := hm ▸ .exitCurrent status m.kernel
  refine h.keep (fun t ht _ => ?_) fun t s _ _ hs => ⟨hl.present s hs, hl.pid s⟩
  rcases exited_slot hm t with ⟨rfl, -⟩ | ⟨-, hkin, hs | ⟨hlive, -⟩⟩
  · exact absurd ht hc.2
  · exact ⟨hs.trans ht, hkin⟩
  · exact absurd ht hlive.2

/-- A task that exits waits for its parent. -/
theorem exit_awaited (hg : Genuine m.kernel) (hc : (m.kernel.tasks m.cur).Live)
    (hm : m'.kernel = exitCurrent status m.kernel) (hs : (m.kernel.tasks m.cur).parent = some s) :
    Awaited m'.kernel (m.kernel.tasks m.cur).ppid (m.kernel.tasks m.cur).pid status := by
  have hl : SameLinks m.kernel m'.kernel := hm ▸ .exitCurrent status m.kernel
  obtain ⟨hthere, hps⟩ := hg m.cur hc.1 s hs
  have hself : m'.kernel.tasks m.cur =
      { m.kernel.tasks m.cur with exitStatus := status, state := .zombie } := by
    rcases exited_slot hm m.cur with ⟨-, heq⟩ | ⟨hne, -⟩
    · exact heq
    · exact absurd rfl hne
  refine ⟨m.cur, s, by rw [hself], by rw [hself], by rw [hself], ?_, hl.present s hthere, ?_⟩
  · rw [hself]
    exact hs
  · rw [hl.pid, hps]

/-- A task has died, and nothing is suspended. -/
theorem Ledger.dies {log : List Report} (h : Ledger log m) (hg : Genuine m.kernel)
    (hc : (m.kernel.tasks m.cur).Live) (hm : m'.kernel = exitCurrent status m.kernel)
    (hact : m'.forkJmpActive = false) : Ledger (exitReport status m ++ log) m' := by
  have hl : SameLinks m.kernel m'.kernel := hm ▸ .exitCurrent status m.kernel
  have hpids : m'.kernel.nextPid = m.kernel.nextPid := hm ▸ exitCurrent_pids status m.kernel
  have hold : ∀ t, m'.state t ≠ .unused → m.state t ≠ .unused := by
    intro t ht
    rcases exited_slot hm t with ⟨rfl, -⟩ | ⟨-, -, hs | ⟨hlive, -⟩⟩
    · exact hc.1
    · rwa [← hs]
    · exact hlive.1
  have hlive : ∀ t, (m'.kernel.tasks t).Live → t ≠ m.cur ∧ (m.kernel.tasks t).Live := by
    intro t ht
    rcases exited_slot hm t with ⟨-, heq⟩ | ⟨hne, -, hs | ⟨hlive, -⟩⟩
    · rw [heq] at ht
      exact absurd rfl ht.2
    · refine ⟨hne, ?_⟩
      rw [Machine.state, Machine.state] at hs
      rwa [Process.Live, ← hs]
    · exact ⟨hne, hlive⟩
  -- its pid has not been reported yet
  have hnew : deliveries (m.kernel.tasks m.cur).pid log = [] :=
    deliveries_nil fun r hr heq => (h.past r hr).2 m.cur hc heq.symm
  refine ⟨⟨fun t ht => ?_, fun t u ht hu heq => ?_⟩, fun r hr => ?_, fun t ht => ?_,
    fun parent pid code hmem => ?_, fun hact' => ?_⟩
  · rw [hl.pid, hpids]
    exact h.pids.below t (hold t ht)
  · rw [hl.pid, hl.pid] at heq
    exact h.pids.unique t u (hold t ht) (hold u hu) heq
  · rw [hpids]
    rcases List.mem_append.mp hr with hr | hr
    · obtain ⟨-, rfl⟩ := mem_exitReport hr
      refine ⟨h.pids.below m.cur hc.1, fun t ht heq => ?_⟩
      rw [hl.pid] at heq
      exact (hlive t ht).1 (h.pids.unique t m.cur (hlive t ht).2.1 hc.1 heq)
    · refine ⟨(h.past r hr).1, fun t ht => ?_⟩
      rw [hl.pid]
      exact (h.past r hr).2 t (hlive t ht).2
  · rw [hl.pid, deliveries_exitReport]
    rcases exited_slot hm t with ⟨rfl, -⟩ | ⟨-, -, hs | ⟨-, hlive'⟩⟩
    · exact hnew
    · exact h.fresh t (hs.symm.trans ht)
    · exact absurd ht hlive'.2
  · rw [deliveries_exitReport]
    rcases List.mem_append.mp hmem with hmem | hmem
    · obtain ⟨⟨s, hs⟩, heq⟩ := mem_exitReport hmem
      simp only [Report.exited.injEq] at heq
      obtain ⟨rfl, rfl, rfl⟩ := heq
      exact Or.inl ⟨hnew, exit_awaited hg hc hm hs⟩
    · exact (h.told parent pid code hmem).imp_left (And.imp_right fun ha => ha.exit hc hm)
  · rw [hact] at hact'
    cases hact'

theorem resume_marks (saved : Saved) (m : Machine) (hs : (m.kernel.tasks saved.self).Live) :
    Marks m.kernel (resume saved m).kernel := by
  obtain ⟨n, hn⟩ := gdtSetRsp0_eq saved.self m
  simp only [resume, procActivate, hn]
  exact { Marks.setState .running hs (by decide) (by decide) with }

/-- An exit with what it jumps back to. -/
theorem Ledger.exit {log : List Report} (h : Ledger log m) (hg : Genuine m.kernel) (hn : Nest m)
    (hc : (m.kernel.tasks m.cur).Live) (hret : m.forkJmpActive = true → ∀ st n saved,
      m.forkJmpBuf = some (st, n) → m.kstacks st = some saved →
        saved.self ≠ m.cur ∧ m.state saved.self ≠ .zombie) :
    Reported (exitReport status m ++ log) (sysExit status m) ∧
      ((sysExit status m).mode = .wild ∨ (sysExit status m).mode = .halted ∨
        Ledger (exitReport status m ++ log) (sysExit status m)) := by
  have hd : Ledger (exitReport status m ++ log) { exited status m with forkJmpActive := false } :=
    h.dies hg hc rfl rfl
  rcases sysExit_cases status m with ⟨hact, -, heq⟩ | ⟨hoff, heq⟩
  · rcases longjmp_cases (exited status m) with hw | ⟨st, n, saved, hb, hk, -, hj⟩
    · rw [heq, hw]
      exact ⟨fun parent pid code hmem => hd.told parent pid code hmem, Or.inl rfl⟩
    · rw [heq, hj]
      obtain ⟨-, hrun, hother, hoff, -, -, hmode⟩ := resume_eq saved (exited status m)
      obtain ⟨hne, hnz⟩ := hret hact st n saved hb hk
      by_cases hf : saved.frame.call = .exiting
      · have hz : (exited status m).state saved.self ≠ .zombie := by
          rcases @exited_slot m (exited status m) status rfl saved.self with
            ⟨heq, -⟩ | ⟨-, -, hs | ⟨-, hlive⟩⟩
          · exact absurd heq hne
          · rw [hs]
            exact hnz
          · exact hlive.2
        refine ⟨fun parent pid code hmem => ?_, Or.inr (Or.inl ?_)⟩
        · refine (hd.told parent pid code hmem).imp_left fun ⟨hdel, ha⟩ => ⟨hdel, ha.keep
            (fun t ht _ => ?_) fun t s _ _ hs => ?_⟩
          · have ht' : t ≠ saved.self := by
              rintro rfl
              exact hz ht
            rw [hother t ht']
            exact ⟨ht, rfl⟩
          · have hl := resume_links saved (exited status m)
            exact ⟨hl.present s hs, hl.pid s⟩
        · rw [hmode, Frame.goesOn, hf]
      · have hlive : ((exited status m).kernel.tasks saved.self).Live := by
          have hl := h.suspended hact st n saved hb hk hf
          rcases @exited_slot m (exited status m) status rfl saved.self with
            ⟨heq, -⟩ | ⟨-, -, hs | ⟨-, hlive⟩⟩
          · exact absurd heq hne
          · rw [Machine.state, Machine.state] at hs
            rwa [Process.Live, hs]
          · exact hlive
        have hled := hd.marks (resume_marks saved (exited status m) hlive) fun hact' => by
          rw [hoff] at hact'
          cases hact'
        exact ⟨hled.told, Or.inr (Or.inr hled)⟩
  · have hact : m.forkJmpActive = false := by
      rcases hn.jump with ⟨-, _, _, _, _, -, hpar, -⟩ | ⟨hf, -⟩
      · rw [hpar] at hoff
        exact hoff.resolve_right (by simp)
      · exact hf
    have hled : Ledger (exitReport status m ++ log) (sysExit status m) := by
      rw [heq]
      exact h.dies hg hc rfl hact
    exact ⟨hled.told, Or.inr (Or.inr hled)⟩

/-! ### Runs -/

theorem reports_none (hm : m.mode = .kernel f) (ht : takes f m.kernel = none) : reports .turn m = [] := by
  simp only [reports, hm]
  cases hc : f.call with
  | wait pid statusOk =>
    simp only [takes, hc] at ht
    rcases procForkTakeStatus_cases pid m.kernel with ⟨-, heq⟩ | ⟨z, hz, -⟩
    · simp only [heq]
    · rw [ht] at hz
      cases hz
  | read p count buf | write p buf n | console bufOk | exiting => rfl

theorem reports_some {pid : Int} {c : Tid} (hm : m.mode = .kernel f) (hf : f.call = .wait pid true)
    (hc : zombieChild pid m.kernel = some c) : reports .turn m =
      [.delivered (m.kernel.tasks f.owner).pid pid (m.kernel.tasks c).pid
        (BitVec.ofInt 32 (m.kernel.tasks c).exitStatus)] := by
  rcases procForkTakeStatus_cases pid m.kernel with ⟨hn, -⟩ | ⟨z, hz, heq⟩
  · rw [hc] at hn
    cases hn
  · rw [hc, Option.some.injEq] at hz
    subst hz
    simp only [reports, hm, hf, heq]

/-- One turn of a call. -/
theorem Ledger.turn {log : List Report} (h : Ledger log m) (hn : Nest m) (hm : m.mode = .kernel f)
    (hw : ReportsWell .turn m) : Ledger (reports .turn m ++ log) (turn f m) := by
  rcases eq_or_ne f.call .exiting with hf | hf
  · rw [reports_none hm (by simp only [takes, hf]), List.nil_append]
    have ht : Sched.turn f m = waitInKernel f m := by
      simp only [Sched.turn, callTurn_exiting m hf]
    rw [ht]
    simp only [waitInKernel, hf]
    split
    · next hp => exact h.activate hp fun hne => absurd hf hne
    · exact ⟨⟨h.pids.below, h.pids.unique⟩, h.past, h.fresh, h.told, h.suspended⟩
  have hrun := hn.running (Or.inr ⟨f, hm, hf⟩)
  have hlive : (m.kernel.tasks m.cur).Live := by
    rw [Machine.state] at hrun
    exact ⟨by simp [hrun], by simp [hrun]⟩
  have hworks := callTurn_works f m
  cases hc : takes f m.kernel with
  | some c =>
    rw [hc] at hworks
    obtain ⟨hzom, hpar, r, hturn, hgone⟩ := takes_some hc
    cases hcall : f.call with
    | wait pid statusOk =>
      have hz : zombieChild pid m.kernel = some c := by simpa only [takes, hcall] using hc
      obtain ⟨howner, -, hok⟩ := hw.waits f pid statusOk rfl hm hcall
      obtain ⟨rfl, hplain⟩ := hok c hz
      rw [reports_some hm hcall hz, hturn, howner]
      exact h.take (hworks.after _ r) ((schedAfterSyscall_state ..).trans hgone) hzom hpar
        (hw.parents f rfl hm c hc) (zombieChild_some hz).2.2 hplain
    | read p count buf => simp [takes, hcall] at hc
    | write p buf n => simp [takes, hcall] at hc
    | console bufOk => simp [takes, hcall] at hc
    | exiting => exact absurd hcall hf
  | none =>
    rw [hc] at hworks
    rw [reports_none hm hc, List.nil_append]
    rcases turn_cases f m with ⟨r, -, ht⟩ | ⟨n, -, ht⟩ | ⟨-, ht⟩ <;> rw [ht]
    · exact h.works (hworks.after _ r)
    · exact h.works { hworks with }
    · have hblock : waitInKernel f (callTurn f m).2 = schedBlockCurrent f (callTurn f m).2 := by
        unfold waitInKernel
        split
        · next he => exact absurd he hf
        · rfl
      rw [hblock]
      refine (h.works hworks).block ?_
      rw [hworks.cur]
      exact ((hworks.slot m.cur).live hlive).1

theorem reports_syscall {ctx : UserContext} {ans : Answers} {sys : Sys}
    (hx : ∀ status, sys ≠ .exit status) : reports (.syscall ctx ans sys) m = [] := by
  cases sys with
  | exit status => exact absurd rfl (hx status)
  | plain _ | other _ | exec _ | wait _ _ | read _ _ _ _ | write _ _ _ => rfl

theorem exitReport_enter (ctx : UserContext) (status : Int) (m : Machine) :
    exitReport status (enter ctx m) = exitReport status m := by
  have hk := enter_kin ctx m m.cur
  have hcur : (enter ctx m).cur = m.cur := rfl
  rw [exitReport, exitReport, hcur, Process.kin_parent hk, Process.kin_ppid hk, Process.kin_pid hk]

/-- What a step leaves. -/
theorem Ledger.step {log : List Report} (h : Ledger log m) (hn : Nest m) (hk : Kinship m)
    (hw : ReportsWell i m) (hs : step i m = some m') : Reported (reports i m ++ log) m' ∧
      (m'.mode = .wild ∨ m'.mode = .halted ∨ Ledger (reports i m ++ log) m') := by
  have hall : ∀ {log : List Report} {m' : Machine}, Ledger log m' →
      Reported log m' ∧ (m'.mode = .wild ∨ m'.mode = .halted ∨ Ledger log m') :=
    fun h => ⟨h.told, Or.inr (Or.inr h)⟩
  have hlive : m.state m.cur = .running → (m.kernel.tasks m.cur).Live := by
    intro hr
    rw [Machine.state] at hr
    exact ⟨by simp [hr], by simp [hr]⟩
  rcases step_cases hs with ⟨ctx, ans, sys, rfl, hu, hd⟩ | ⟨f, rfl, hm, rfl⟩ |
    ⟨f, rfl, hi, ⟨hb, hp | ⟨-, rfl⟩⟩ | ⟨hb, -⟩⟩ | ⟨scancode, rfl, rfl⟩
  · have hrun := hn.running (Or.inl hu)
    by_cases hx : ∃ status, sys = .exit status
    · obtain ⟨status, rfl⟩ := hx
      simp only [sysDispatch, Option.some.injEq] at hd
      subst hd
      have hworks := Works.of_enter (Works.refl none (enter ctx m))
      have hnone : ∀ c, (none : Option Tid) = some c → ∀ t, m.state t ≠ .unused →
          (m.kernel.tasks t).parent ≠ some c := fun c hc => absurd hc (by simp)
      have hr : reports (.syscall ctx ans (.exit status)) m = exitReport status (enter ctx m) := by
        rw [exitReport_enter]
        simp only [reports, hu]
      rw [hr]
      refine (h.works hworks).exit (hk.works hrun hworks hnone).genuine
        (hn.works hworks hrun (by simp [enter, hu])) ((hworks.slot m.cur).live (hlive hrun)).1 ?_
      intro hact st n saved hbuf hstack
      obtain ⟨hne, hz⟩ := hw.returns ctx ans status rfl hu hact st n saved hbuf hstack
      exact ⟨hne, by rwa [enter_state]⟩
    · have hx : ∀ status, sys ≠ .exit status := fun status hst => hx ⟨status, hst⟩
      rw [reports_syscall hx]
      exact hall (h.works (sysDispatch_works hd hx).1)
  · exact hall (h.turn hn hm hw)
  · refine hall (h.activate hp fun _ => ?_)
    rw [Machine.state] at hb
    exact ⟨by simp [hb], by simp [hb]⟩
  · exact hall h
  · exact absurd (hn.idle f hi).1 hb
  · exact hall ⟨⟨h.pids.below, h.pids.unique⟩, h.past, h.fresh, h.told, h.suspended⟩

theorem Ledger.boot (ans : Answers) (live : Finset Handle) (files : Handle → VfsFile) (pml4 : Nat) :
    Ledger [] (gdtSetRsp0 0 (Machine.boot ans live files pml4)) := by
  obtain ⟨n, hn, hfirst, hrun⟩ := boot_spec ans live files pml4
  have hzero : ∀ t, (Machine.boot ans live files pml4).state t ≠ .unused → t = 0 := by
    intro t ht
    by_contra hne
    exact ht (Process.core_state (hfirst.other t hne))
  rw [hn]
  refine ⟨⟨fun t ht => ?_, fun t u ht hu _ => (hzero t ht).trans (hzero u hu).symm⟩, by simp,
    fun _ _ => rfl, fun _ _ _ h => absurd h (by simp), fun hact => absurd hact (by simp [Machine.boot])⟩
  rw [hzero t ht]
  exact hfirst.pid.trans_lt (by rw [hfirst.pids]; decide)

/-- The waits of a state: one that fails has taken nobody, and one for a pid that is not a child's
    fails. -/
def WaitsTell (m : Machine) : Prop :=
  ∀ f pid statusOk, m.mode = .kernel f → f.call = .wait pid statusOk →
    (∀ r, (callTurn f m).1 = .done r → r < 0 → (callTurn f m).2.kernel = m.kernel) ∧
    (pid ≠ -1 → ¬ ChildPid m.kernel pid → (callTurn f m).1 = .done eChld)

theorem Runs.ledger {log : List Report} (hr : Runs ReportsWell log m) :
    Reported log m ∧ (m.mode = .wild ∨ m.mode = .halted ∨ Ledger log m) := by
  induction hr with
  | boot ans live files pml4 =>
    have h := Ledger.boot ans live files pml4
    exact ⟨h.told, Or.inr (Or.inr h)⟩
  | @step log m m' i hr hm hs ih =>
    have hstopped : m.mode = .wild ∨ m.mode = .halted → Reported (reports i m ++ log) m' ∧
        (m'.mode = .wild ∨ m'.mode = .halted ∨ Ledger (reports i m ++ log) m') := by
      intro hw
      obtain ⟨scancode, kb, rfl, rfl⟩ := step_stopped hw hs
      exact ⟨ih.1, hw.imp_right Or.inl⟩
    rcases ih.2 with hw | hw | h
    · exact hstopped (Or.inl hw)
    · exact hstopped (Or.inr hw)
    rcases hr.reaches.nest with hw | hn
    · exact hstopped (Or.inl hw)
    rcases (hr.reaches.mono fun _ _ h => h.parents).kinship.2 with hw | hk
    · exact hstopped (Or.inl hw)
    · exact h.step hn hk hm hs

theorem waitsTell (hw : WaitsWell .turn m) : WaitsTell m := by
  intro f pid statusOk hm hf
  obtain ⟨-, hpid, hok⟩ := hw f pid statusOk rfl hm hf
  simp only [callTurn, hf, waitTurn]
  rcases procForkTakeStatus_cases pid m.kernel with ⟨hn, heq⟩ | ⟨z, hz, heq⟩ <;> simp only [heq]
  · refine ⟨fun r _ _ => by split <;> rfl, fun hne hnot => ?_⟩
    rw [(hpid.resolve_left hne).resolve_left hnot]
    rfl
  · obtain ⟨rfl, -⟩ := hok z hz
    obtain ⟨hzom, hpar, hp⟩ := zombieChild_some hz
    refine ⟨fun r hr hneg => ?_, fun hne hnot => ?_⟩
    · simp only [if_true, Turn.done.injEq] at hr
      omega
    · exact absurd ⟨z, by simp [hzom], hpar, hp.resolve_left hne⟩ hnot

/-- In every run whose waits are made well, whose jumps come back to tasks that are alive and which
    gives up no slot of a parent, every exit waits for the parent or was delivered to it, once and
    as it was; a wait that fails takes nobody; and a wait for a stranger fails. -/
theorem exits_reported {log : List Report} (hr : Runs ReportsWell log m) :
    Reported log m ∧ (ReportsWell .turn m → WaitsTell m) :=
  ⟨hr.ledger.1, fun hw => waitsTell hw.waits⟩

theorem reportsWell_of_ne (hi : i ≠ .turn) (hx : ∀ ctx ans status, i ≠ .syscall ctx ans (.exit status)) :
    ReportsWell i m :=
  ⟨takesNoParent_of_ne hi, fun _ _ _ h => absurd h hi, fun ctx ans status h => absurd h (hx ctx ans status)⟩

theorem Runs.next {Meets : Input → Machine → Prop} {log : List Report} (hr : Runs Meets log m) (i : Input)
    (hm : Meets i m) (hs : (Sched.step i m).isSome) :
    Runs Meets (reports i m ++ log) (afterInputs [i] m) := by
  obtain ⟨m', hm'⟩ := Option.isSome_iff_exists.mp hs
  rw [afterInputs, afterInputs, hm']
  exact hr.step i hm hm'

/-- The shell waits for a child that has exited, with 0. -/
def childDead : Machine := afterInputs [exits] childRuns

/-- The frame of that wait. -/
def shellWaits : Frame := ⟨0, 1, .wait (-1) true⟩

theorem childRuns_runs : Runs ReportsWell [] childRuns := by
  have hr₁ : Runs ReportsWell [] childMade := (Runs.boot ..).next (forks 10)
    (reportsWell_of_ne (by simp [forks, calls]) (by simp [forks, calls])) (by decide)
  have hr₂ : Runs ReportsWell [] (afterInputs [waits] childMade) := hr₁.next waits
    (reportsWell_of_ne (by simp [waits, calls]) (by simp [waits, calls])) (by decide)
  have hmode : (afterInputs [waits] childMade).mode = .kernel shellWaits := rfl
  have htakes : takes shellWaits (afterInputs [waits] childMade).kernel = none := by decide
  have hr₃ := hr₂.next .turn ⟨fun f _ hf z hz => ?_, fun f pid statusOk _ hf hc => ?_, by
    intro ctx ans status hi
    cases hi⟩ rfl
  · rwa [reports_none hmode htakes] at hr₃
  · rw [hmode, Mode.kernel.injEq] at hf
    rw [← hf, htakes] at hz
    cases hz
  · rw [hmode, Mode.kernel.injEq] at hf
    subst hf
    cases hc
    exact ⟨rfl, Or.inl rfl, fun z hz => absurd (htakes.symm.trans hz) (by simp)⟩

theorem childDead_runs : Runs ReportsWell [.exited 1 2 0] childDead := by
  refine childRuns_runs.next exits ⟨takesNoParent_of_ne (by simp [exits, calls]),
    fun _ _ _ hi => absurd hi (by simp [exits, calls]), ?_⟩ (by decide)
  intro ctx ans status hi _ _ st n saved hb hk
  have hbuf : childRuns.forkJmpBuf = some (1, 0) := by decide
  have hstack : childRuns.kstacks 1 = some ⟨shellWaits, 0, 0⟩ := rfl
  have hrsp : childRuns.tssRsp0 = 2 := by decide
  rw [hbuf, Option.some.injEq, Prod.mk.injEq] at hb
  obtain ⟨rfl, -⟩ := hb
  rw [enter_kstacks (by rw [hrsp]; decide), hstack, Option.some.injEq] at hk
  rw [← hk]
  exact ⟨by decide, by decide⟩

/-- The shell forks and waits, its child exits with 0, and the wait takes it. -/
theorem exits_reported_childDead :
    Reported [.delivered 1 (-1) 2 0, .exited 1 2 0] (afterInputs [.turn] childDead) := by
  have hmode : childDead.mode = .kernel shellWaits := rfl
  have htakes : takes shellWaits childDead.kernel = some 1 := by decide
  have hr := childDead_runs.next .turn ⟨fun f _ hf z hz => ?_, fun f pid statusOk _ hf hc => ?_, by
    intro ctx ans status hi
    cases hi⟩ rfl
  · exact (exits_reported hr).1
  · rw [hmode, Mode.kernel.injEq] at hf
    rw [← hf, htakes, Option.some.injEq] at hz
    subst hz
    decide
  · rw [hmode, Mode.kernel.injEq] at hf
    subst hf
    cases hc
    refine ⟨by decide, Or.inl rfl, fun z hz => ⟨rfl, ?_⟩⟩
    rw [Option.some.inj (htakes.symm.trans hz).symm]
    exact Or.inl (by decide)

/-- A child exits with 1: its status word is 1, which says that signal 1 has killed it. -/
theorem exit_one_unreported : ¬ ∀ log m, Runs (fun _ _ => True) log m → Reported log m := by
  intro h
  have hall : ∀ {log m}, Runs (fun _ _ => True) log m → ∀ i, (step i m).isSome →
      Runs (fun _ _ => True) (reports i m ++ log) (afterInputs [i] m) :=
    fun hr i => hr.next i trivial
  have hr := hall (hall (hall (hall (hall (Runs.boot (memory 1) ∅ (fun _ => VfsFile.fresh) 1)
    (forks 10) rfl) waits rfl) .turn rfl) (calls 0 (.exit 1)) rfl) .turn rfl
  rcases h _ _ hr 1 2 1 (List.mem_cons_of_mem _ (List.mem_singleton_self _)) with ⟨hd, -⟩ |
    ⟨asked, status, hd, -, hsays, -⟩
  · cases hd
  · injection hd with hd
    injection hd with _ _ _ hstatus
    rw [← hstatus] at hsays
    exact absurd hsays (by decide)

end TypeOS.Sched
