import TypeOS.Sys.Read

/-! What a write hands over, and what it says it did.

    `sys_write` takes its buffer in chunks of 512 bytes: each is copied from user space and then goes to
    the screen, or into a pipe as far as there is room. A pipe that is full makes the call wait. A
    chunk that fails ends the call with an error, whatever the chunks before have handed over.
    `sys_writev` calls `sys_write` for each buffer of a table. -/

namespace TypeOS.Sys

open Bytes Proc

/-- The pipes and the characters that `vga_putchar` was given. The indices of a pipe lie in its ring. -/
structure Output where
  kernel : Kernel
  screen : List UInt8
  rings : ∀ p, (kernel.pipes p).Ring

/-- Where `sys_write` puts its bytes. -/
inductive Stream
  | pipe (p : PipeId)
  | console
  deriving DecidableEq

/-- The branches of `sys_write`: `/dev/null` and files that are no stream take everything and do
    nothing. -/
inductive Sink
  | null
  | stream (s : Stream)
  | bad
  deriving DecidableEq

/-- `fd_is_tty_out`. -/
def fdIsTtyOut (fd : Int) (k : Kernel) : Bool :=
  fd = 1 || fd = 2 || match fdGet fd k with
    | none => false
    | some h => isConsolePath (k.files h).path

/-- The branch that `sys_write` takes for a descriptor. -/
def writeSink (fd : Int) (k : Kernel) : Sink :=
  if (fdGet fd k).any fun h => isNullPath (k.files h).path then .null
  else match writePipe fd k with
    | some p => .stream (.pipe p)
    | none =>
      if fdIsTtyOut fd k then .stream .console
      else if (fdGet fd k).isNone then .bad
      else .null

/-- A buffer of the caller. -/
def userBuf (mem : Memory) (buf count : Nat) : UserBuf where
  bytes := load mem buf count
  ok offset len := userPtrOk (u64 (buf + offset)) len

theorem pipeWriteTurn_rings (p : PipeId) (buf : UserBuf) (done : Nat) (o : Output) :
    ∀ q, ((pipeWriteTurn p buf done o.kernel).2.pipes q).Ring := by
  intro q
  have hwrite : ((o.kernel.onPipe p fun _ =>
      ((o.kernel.pipes p).write (chunk buf done)).2).pipes q).Ring := by
    by_cases hq : q = p
    · rw [hq, Kernel.onPipe_pipes_self]
      exact ((o.rings p).write _).1
    · rw [Kernel.onPipe_pipes_ne hq]
      exact o.rings q
  unfold pipeWriteTurn
  dsimp only
  split_ifs
  · exact hwrite
  · exact hwrite
  · exact hwrite
  · exact o.rings q
  · exact o.rings q

/-- A turn of the pipe loops in `sys_write`. -/
def writePipeTurn (p : PipeId) (buf : UserBuf) (done : Nat) (o : Output) : Turn × Output :=
  ((pipeWriteTurn p buf done o.kernel).1,
    ⟨(pipeWriteTurn p buf done o.kernel).2, o.screen, pipeWriteTurn_rings p buf done o⟩)

/-- A turn of the console loop in `sys_write`. -/
def writeConsoleTurn (buf : UserBuf) (done : Nat) (o : Output) : Turn × Output :=
  if done < buf.bytes.length then
    if buf.ok done (chunk buf done).length then
      (.again (done + (chunk buf done).length), { o with screen := o.screen ++ chunk buf done })
    else (.done eFault, o)
  else (.done done, o)

/-- A turn of `sys_write` on a stream. -/
def Stream.turn (s : Stream) (buf : UserBuf) (done : Nat) (o : Output) : Turn × Output :=
  match s with
  | .pipe p => writePipeTurn p buf done o
  | .console => writeConsoleTurn buf done o

/-- A turn with what it found and left, and what earlier buffers of `sys_writev` have added up to. -/
structure WriteTurn where
  total : Int
  buf : UserBuf
  done : Nat
  found : Output
  left : Output

/-- How a call of `sys_write` ends: its result, what it leaves, and what is found after later waits. -/
structure Written where
  result : Int
  left : Output
  later : List Output

/-- So many turns of `sys_write` on a stream, from `done` bytes on; `later` is what the call finds each
    time that it has waited. -/
def writeTurns (s : Stream) (buf : UserBuf) (total : Int) :
    Nat → Nat → Output → List Output → List WriteTurn × Option Written
  | 0, _, _, _ => ([], none)
  | n + 1, done, o, later =>
    let (turn, o') := s.turn buf done o
    let t : WriteTurn := ⟨total, buf, done, o, o'⟩
    match turn, later with
    | .done r, _ => ([t], some ⟨r, o', later⟩)
    | .again done, _ =>
      let (ts, w) := writeTurns s buf total n done o' later
      (t :: ts, w)
    | .block, [] => ([t], none)
    | .block, o'' :: later =>
      let (ts, w) := writeTurns s buf total n done o'' later
      (t :: ts, w)

/-- `(int64_t)`. -/
def i64 (x : Int) : Int := x.bmod (2 ^ 64)

/-- `sys_write` in one of its branches, as far as so many turns. -/
def Sink.write (sink : Sink) (mem : Memory) (buf count : Nat) (total : Int) (n : Nat) (o : Output)
    (later : List Output) : List WriteTurn × Option Written :=
  match sink with
  | .null => ([], some ⟨i64 count, o, later⟩)
  | .stream s => writeTurns s (userBuf mem buf count) total n 0 o later
  | .bad => ([], some ⟨eBadf, o, later⟩)

/-- `sys_write`. -/
def sysWrite (fd : Int) (mem : Memory) (buf count n : Nat) (o : Output) (later : List Output) :
    List WriteTurn × Option Written :=
  (writeSink fd o.kernel).write mem buf count 0 n o later

/-- `struct linux_iovec`. -/
structure LinuxIovec where
  iovBase : Nat
  iovLen : Nat

/-- The address of an entry of the table. -/
def iovAddr (iovp i : Nat) : Nat := u64 (iovp + i * 16)

/-- An entry of the table. -/
def iovAt (mem : Memory) (iovp i : Nat) : LinuxIovec :=
  ⟨word mem (iovAddr iovp i), word mem (iovAddr iovp i + 8)⟩

/-- The loop of `sys_writev` from the i-th entry on, with so many entries left. The descriptor of a task
    stays what it is while the task waits, so every `sys_write` takes the same branch. -/
def writevTurns (sink : Sink) (mem : Memory) (iovp n : Nat) :
    Nat → Nat → Int → Output → List Output → List WriteTurn × Option Int
  | 0, _, total, _, _ => ([], some total)
  | left + 1, i, total, o, later =>
    if userPtrOk (iovAddr iovp i) 16 then
      let iov := iovAt mem iovp i
      match sink.write mem iov.iovBase iov.iovLen total n o later with
      | (ts, none) => (ts, none)
      | (ts, some w) =>
        if w.result < 0 then (ts, some (if 0 < total then total else w.result))
        else if w.result < iov.iovLen then (ts, some (i64 (total + w.result)))
        else
          let (ts', r) := writevTurns sink mem iovp n left (i + 1) (i64 (total + w.result)) w.left w.later
          (ts ++ ts', r)
    else ([], some (if 0 < total then total else eFault))

/-- `sys_writev`. -/
def sysWritev (fd : Int) (mem : Memory) (iovp iovcnt n : Nat) (o : Output) (later : List Output) :
    List WriteTurn × Option Int :=
  writevTurns (writeSink fd o.kernel) mem iovp n iovcnt 0 0 o later

/-- The bytes of the buffers in a table. -/
def iovBytes (mem : Memory) (iovp i left : Nat) : List UInt8 :=
  (List.range' i left).flatMap fun i =>
    load mem (iovAt mem iovp i).iovBase (iovAt mem iovp i).iovLen

/-! ### What a call has handed over -/

/-- What a stream has taken and still shows. -/
def Stream.bytes (s : Stream) (o : Output) : List UInt8 :=
  match s with
  | .pipe p => (o.kernel.pipes p).held
  | .console => o.screen

/-- What a turn appended to the stream. -/
def WriteTurn.appended (s : Stream) (t : WriteTurn) : List UInt8 :=
  (s.bytes t.left).drop (s.bytes t.found).length

/-- A result that accounts for what the turns of a call appended. -/
structure Accounts (s : Stream) (bytes : List UInt8) (ts : List WriteTurn) (r : Int) : Prop where
  appends : ∀ t ∈ ts, s.bytes t.found <+: s.bytes t.left
  done : 0 ≤ r → r ≤ bytes.length ∧ ts.flatMap (WriteTurn.appended s) = bytes.take r.toNat
  failed : r < 0 → ts.flatMap (WriteTurn.appended s) = []

/-- A turn with bytes left to write whose chunk is refused, or which finds its pipe full and without a
    reader. -/
def WriteTurn.Fails (s : Stream) (t : WriteTurn) : Prop :=
  t.done < t.buf.bytes.length ∧
    (t.buf.ok t.done (chunk t.buf t.done).length = false ∨
      ∃ p, s = .pipe p ∧ pipeSize ≤ (t.found.kernel.pipes p).count ∧
        (t.found.kernel.pipes p).readers = 0)

/-- A turn that fails when bytes of its buffer are written. -/
def WriteTurn.FailsLate (s : Stream) (t : WriteTurn) : Prop := 0 < t.done ∧ t.Fails s

/-- The last turn for a buffer with which the bytes come to more than an `int64_t` holds. What `user_ptr_ok`
    accepts does not exclude it, but no machine has the memory for so long a table. -/
def WriteTurn.Overflows (t : WriteTurn) : Prop :=
  t.done = t.buf.bytes.length ∧ 2 ^ 63 ≤ t.total + t.buf.bytes.length

variable {s : Stream} {buf : UserBuf} {done : Nat} {o o' : Output} {turn : Turn} {total : Int}
  {later : List Output} {ts : List WriteTurn} {w : Written}

/-- What one turn does, with less than the buffer written. -/
inductive TurnDoes (s : Stream) (buf : UserBuf) (done : Nat) (o : Output) : Turn → Output → Prop
  | ended : done = buf.bytes.length → TurnDoes s buf done o (.done done) o
  | wrote (o' : Output) (m : Nat) : 0 < m → done + m ≤ buf.bytes.length →
      s.bytes o' = s.bytes o ++ (buf.bytes.drop done).take m →
      (∀ total o', ¬ WriteTurn.Fails s ⟨total, buf, done, o, o'⟩) →
      TurnDoes s buf done o (.again (done + m)) o'
  | failed (o' : Output) (r : Int) : r < 0 → s.bytes o' = s.bytes o →
      (∀ total o', WriteTurn.Fails s ⟨total, buf, done, o, o'⟩) → TurnDoes s buf done o (.done r) o'
  | waits (o' : Output) : s.bytes o' = s.bytes o →
      (∀ total o', ¬ WriteTurn.Fails s ⟨total, buf, done, o, o'⟩) → TurnDoes s buf done o .block o'

theorem length_chunk (buf : UserBuf) (done : Nat) :
    (chunk buf done).length = min 512 (buf.bytes.length - done) := by
  simp [chunk]

/-- A prefix of a chunk is one of what is left to write. -/
theorem take_chunk {m : Nat} (hm : m ≤ (chunk buf done).length) :
    (chunk buf done).take m = (buf.bytes.drop done).take m := by
  rw [length_chunk] at hm
  rw [chunk, List.take_take]
  congr 1
  omega

theorem writeConsoleTurn_does (hd : done ≤ buf.bytes.length) :
    TurnDoes .console buf done o (writeConsoleTurn buf done o).1 (writeConsoleTurn buf done o).2 := by
  rw [writeConsoleTurn]
  split
  · next hlt =>
    have hlen := length_chunk buf done
    split
    · next hok =>
      refine .wrote _ _ (by omega) (by omega) ?_ ?_
      · rw [← take_chunk le_rfl, List.take_length]
        rfl
      · rintro total o' ⟨-, hno | ⟨p, hp, -⟩⟩
        · rw [hok] at hno
          cases hno
        · cases hp
    · next hno => exact .failed _ _ (by decide) rfl fun total o' => ⟨hlt, Or.inl (by simpa using hno)⟩
  · have hend : done = buf.bytes.length := by omega
    exact .ended hend

theorem writePipeTurn_does (p : PipeId) (hd : done ≤ buf.bytes.length) :
    TurnDoes (.pipe p) buf done o (writePipeTurn p buf done o).1 (writePipeTurn p buf done o).2 := by
  obtain ⟨-, hn, hheld⟩ := (o.rings p).write (chunk buf done)
  have hlen := length_chunk buf done
  have hpipe := Kernel.onPipe_pipes_self p
    (fun _ => ((o.kernel.pipes p).write (chunk buf done)).2) o.kernel
  rw [writePipeTurn]
  by_cases hlt : done < buf.bytes.length
  · by_cases hok : buf.ok done (chunk buf done).length = true
    · by_cases hroom : 0 < ((o.kernel.pipes p).write (chunk buf done)).1
      · -- the pipe takes a part of the chunk
        have hturn : pipeWriteTurn p buf done o.kernel =
            (.again (done + ((o.kernel.pipes p).write (chunk buf done)).1), schedWakeAll
              (o.kernel.onPipe p fun _ => ((o.kernel.pipes p).write (chunk buf done)).2)) := by
          rw [pipeWriteTurn, if_pos hlt, if_pos hok, if_pos hroom]
        simp only [hturn]
        refine .wrote _ _ hroom (by omega) ?_ ?_
        · rw [← take_chunk (by omega)]
          exact (congrArg Pipe.held hpipe).trans hheld
        · rintro total o' ⟨-, hno | ⟨q, hq, hfull, -⟩⟩
          · rw [hok] at hno
            cases hno
          · cases hq
            simp only at hfull
            omega
      · -- the pipe is full
        have hnone : ((o.kernel.pipes p).write (chunk buf done)).1 = 0 := by omega
        have hfull : pipeSize ≤ (o.kernel.pipes p).count := by omega
        have hsame : (o.kernel.onPipe p fun _ => ((o.kernel.pipes p).write (chunk buf done)).2) =
            o.kernel := by
          rw [Pipe.write_nothing hnone, onPipe_self]
        by_cases hreaders : (o.kernel.pipes p).readers = 0
        · have hturn : pipeWriteTurn p buf done o.kernel = (.done ePipe, o.kernel) := by
            rw [pipeWriteTurn, if_pos hlt, if_pos hok, if_neg hroom, hsame, if_pos hreaders]
          simp only [hturn]
          exact .failed _ _ (by decide) rfl fun total o' => ⟨hlt, Or.inr ⟨p, rfl, hfull, hreaders⟩⟩
        · have hturn : pipeWriteTurn p buf done o.kernel = (.block, o.kernel) := by
            rw [pipeWriteTurn, if_pos hlt, if_pos hok, if_neg hroom, hsame, if_neg hreaders]
          simp only [hturn]
          refine .waits _ rfl ?_
          rintro total o' ⟨-, hno | ⟨q, hq, -, hnone⟩⟩
          · rw [hok] at hno
            cases hno
          · cases hq
            exact hreaders hnone
    · have hturn : pipeWriteTurn p buf done o.kernel = (.done eFault, o.kernel) := by
        rw [pipeWriteTurn, if_pos hlt, if_neg hok]
      simp only [hturn]
      exact .failed _ _ (by decide) rfl fun total o' => ⟨hlt, Or.inl (by simpa using hok)⟩
  · have hturn : pipeWriteTurn p buf done o.kernel = (.done done, o.kernel) := by
      rw [pipeWriteTurn, if_neg hlt]
    have hend : done = buf.bytes.length := by omega
    simp only [hturn]
    exact .ended hend

theorem Stream.turn_does (s : Stream) (hd : done ≤ buf.bytes.length) :
    TurnDoes s buf done o (s.turn buf done o).1 (s.turn buf done o).2 := by
  cases s with
  | pipe p => exact writePipeTurn_does p hd
  | console => exact writeConsoleTurn_does hd

/-! ### One buffer -/

/-- What the turns of a call did, from `done` bytes on: they appended the next `m` bytes, which are all
    the rest if the call returns the length of the buffer, and else the last turn failed. -/
structure Wrote (s : Stream) (buf : UserBuf) (total : Int) (done : Nat) (ts : List WriteTurn)
    (r : Int) (m : Nat) : Prop where
  bound : done + m ≤ buf.bytes.length
  appends : ∀ t ∈ ts, s.bytes t.found <+: s.bytes t.left
  out : ts.flatMap (WriteTurn.appended s) = (buf.bytes.drop done).take m
  call : ∀ t ∈ ts, t.total = total ∧ t.buf = buf
  ended : r = buf.bytes.length ∧ done + m = buf.bytes.length ∧
      (∀ t ∈ ts, ¬ t.Fails s) ∧ (∃ t ∈ ts, t.done = buf.bytes.length) ∨
    r < 0 ∧ (∃ t ∈ ts, t.Fails s ∧ t.done = done + m) ∧ (∀ t ∈ ts, t.done ≤ done + m) ∧
      ∀ t ∈ ts, t.done < buf.bytes.length

/-- A turn that did not fail, and then the others. -/
theorem Wrote.cons {k m : Nat} {r : Int} (hk : done + k ≤ buf.bytes.length)
    (hbytes : s.bytes o' = s.bytes o ++ (buf.bytes.drop done).take k)
    (hok : ∀ total o', ¬ WriteTurn.Fails s ⟨total, buf, done, o, o'⟩)
    (h : Wrote s buf total (done + k) ts r m) :
    Wrote s buf total done (⟨total, buf, done, o, o'⟩ :: ts) r (k + m) where
  bound := by have := h.bound; omega
  appends t ht := by
    rcases List.mem_cons.mp ht with rfl | ht
    · exact ⟨_, hbytes.symm⟩
    · exact h.appends t ht
  out := by
    rw [List.flatMap_cons, h.out, WriteTurn.appended, hbytes, List.drop_left, List.take_add,
      List.drop_drop]
  call t ht := by
    rcases List.mem_cons.mp ht with rfl | ht
    · exact ⟨rfl, rfl⟩
    · exact h.call t ht
  ended := by
    rw [← Nat.add_assoc]
    rcases h.ended with ⟨hr, hm, hnone, t, ht, hdone⟩ | ⟨hr, ⟨t, ht, hfail, hdone⟩, hle, hlt⟩
    · refine Or.inl ⟨hr, hm, fun u hu => ?_, t, List.mem_cons_of_mem _ ht, hdone⟩
      rcases List.mem_cons.mp hu with rfl | hu
      · exact hok _ _
      · exact hnone u hu
    · have hlast := hlt t ht
      refine Or.inr ⟨hr, ⟨t, List.mem_cons_of_mem _ ht, hfail, hdone⟩, fun u hu => ?_, fun u hu => ?_⟩
      · rcases List.mem_cons.mp hu with rfl | hu
        · simp only
          omega
        · exact hle u hu
      · rcases List.mem_cons.mp hu with rfl | hu
        · simp only
          omega
        · exact hlt u hu

theorem writeTurns_wrote : ∀ {n done : Nat} {o : Output} {later : List Output} {ts : List WriteTurn}
    {w : Written}, done ≤ buf.bytes.length →
    writeTurns s buf total n done o later = (ts, some w) → ∃ m, Wrote s buf total done ts w.result m := by
  intro n
  induction n with
  | zero =>
    intro done o later ts w _ hrun
    rw [writeTurns] at hrun
    cases hrun
  | succ n ih =>
    intro done o later ts w hd hrun
    have hturn := s.turn_does (o := o) hd
    rw [writeTurns] at hrun
    rcases h : s.turn buf done o with ⟨turn, o'⟩
    rw [h] at hturn hrun
    simp only at hturn hrun
    cases hturn with
    | ended hend =>
      obtain ⟨rfl, rfl⟩ : [⟨total, buf, done, o, o⟩] = ts ∧ ⟨done, o, later⟩ = w := by
        simpa using hrun
      refine ⟨0, hd, ?_, ?_, ?_, Or.inl ⟨?_, hend, ?_, ?_⟩⟩
      · simp
      · simp [WriteTurn.appended]
      · simp
      · simp [hend]
      · simp [WriteTurn.Fails, hend]
      · simp [hend]
    | wrote _ m hm hle hbytes hok =>
      rcases hrest : writeTurns s buf total n (done + m) o' later with ⟨ts', w'⟩
      simp only [hrest] at hrun
      obtain ⟨rfl, rfl⟩ := Prod.mk.inj hrun
      obtain ⟨m', hw⟩ := ih hle hrest
      exact ⟨m + m', hw.cons hle hbytes hok⟩
    | failed _ r hr hbytes hfail =>
      obtain ⟨rfl, rfl⟩ : [⟨total, buf, done, o, o'⟩] = ts ∧ ⟨r, o', later⟩ = w := by
        simpa using hrun
      refine ⟨0, hd, ?_, ?_, ?_, Or.inr ⟨hr, ⟨_, List.mem_singleton.mpr rfl, hfail _ _, rfl⟩, ?_, ?_⟩⟩
      · simp [hbytes]
      · simp [WriteTurn.appended, hbytes]
      · simp
      · simp
      · simpa using (hfail total o').1
    | waits _ hbytes hok =>
      cases later with
      | nil => cases hrun
      | cons o'' later =>
        rcases hrest : writeTurns s buf total n done o'' later with ⟨ts', w'⟩
        simp only [hrest] at hrun
        obtain ⟨rfl, rfl⟩ := Prod.mk.inj hrun
        obtain ⟨m', hw⟩ := ih hd hrest
        refine ⟨0 + m', Wrote.cons hd ?_ hok hw⟩
        rw [hbytes, List.take_zero, List.append_nil]

/-- `sys_write` accounts for what it appended if and only if it does not fail late. -/
theorem Wrote.accounts_iff {r : Int} {m : Nat} (h : Wrote s buf total 0 ts r m) :
    Accounts s buf.bytes ts r ↔ ∀ t ∈ ts, ¬ t.FailsLate s := by
  have hout := h.out
  have hbound := h.bound
  rw [List.drop_zero] at hout
  rcases h.ended with ⟨hr, hm, hnone, -⟩ | ⟨hr, ⟨t, ht, hfail, hdone⟩, hle, -⟩
  · refine ⟨fun _ t ht hlate => hnone t ht hlate.2, fun _ => ⟨h.appends, fun _ => ⟨hr.le, ?_⟩, ?_⟩⟩
    · rw [hout, hr]
      congr 1
      omega
    · intro hneg
      omega
  · constructor
    · rintro hacc u hu ⟨hpos, -⟩
      have hnil := hacc.failed hr
      rw [hout] at hnil
      have hlen := congrArg List.length hnil
      rw [List.length_take, List.length_nil] at hlen
      have := hle u hu
      omega
    · intro hall
      have hzero : m = 0 := by
        by_contra hne
        exact hall t ht ⟨by omega, hfail⟩
      exact ⟨h.appends, fun hge => by omega, fun _ => by rw [hout, hzero, List.take_zero]⟩

/-! ### A table of buffers -/

theorem i64_lt (x : Int) : i64 x < 2 ^ 63 := Int.bmod_lt (by decide)

theorem i64_of_lt {x : Int} (h0 : 0 ≤ x) (h : x < 2 ^ 63) : i64 x = x :=
  Int.bmod_eq_of_le (by omega) (by omega)

/-- What the entries of a table did, when the ones before had come to `total`. -/
structure Vectored (s : Stream) (bytes : List UInt8) (total : Int) (ts : List WriteTurn) (r : Int)
    (m : Nat) : Prop where
  bound : m ≤ bytes.length
  appends : ∀ t ∈ ts, s.bytes t.found <+: s.bytes t.left
  out : ts.flatMap (WriteTurn.appended s) = bytes.take m
  small : r < 2 ^ 63
  meets : 0 ≤ total → (∀ t ∈ ts, ¬ t.FailsLate s ∧ ¬ t.Overflows) →
    r = total + m ∨ r < 0 ∧ total = 0 ∧ m = 0
  fails : 0 ≤ total → (∃ t ∈ ts, t.FailsLate s ∨ t.Overflows) → 0 < m ∧ r < total + m

theorem Vectored.accounts_iff {bytes : List UInt8} {r : Int} {m : Nat}
    (h : Vectored s bytes 0 ts r m) :
    Accounts s bytes ts r ↔ ∀ t ∈ ts, ¬ t.FailsLate s ∧ ¬ t.Overflows := by
  have hbound := h.bound
  constructor
  · intro hacc t ht
    rw [← not_or]
    intro hbad
    obtain ⟨hpos, hr⟩ := h.fails le_rfl ⟨t, ht, hbad⟩
    have hlen := congrArg List.length h.out
    rw [List.length_take] at hlen
    rcases lt_or_ge r 0 with hneg | hge
    · rw [hacc.failed hneg, List.length_nil] at hlen
      omega
    · rw [(hacc.done hge).2, List.length_take] at hlen
      omega
  · intro hall
    rcases h.meets le_rfl hall with hr | ⟨hr, -, hm⟩
    · refine ⟨h.appends, fun _ => ⟨by omega, ?_⟩, fun hneg => by omega⟩
      rw [h.out]
      congr 1
      omega
    · exact ⟨h.appends, fun hge => by omega, fun _ => by rw [h.out, hm, List.take_zero]⟩

/-- The turns of a buffer that was written do not fail, and one of them has it all. -/
theorem Wrote.complete {r : Int} {m : Nat} (hr : r = buf.bytes.length)
    (h : Wrote s buf total 0 ts r m) : m = buf.bytes.length ∧ (∀ t ∈ ts, ¬ t.FailsLate s) ∧
      (2 ^ 63 ≤ total + buf.bytes.length ↔ ∃ t ∈ ts, t.Overflows) := by
  rcases h.ended with ⟨-, hm, hnone, t, ht, hdone⟩ | ⟨hneg, -⟩
  · refine ⟨by omega, fun t ht hlate => hnone t ht hlate.2, fun hbig => ⟨t, ht, ?_⟩, ?_⟩
    · obtain ⟨htotal, hbuf⟩ := h.call t ht
      rw [WriteTurn.Overflows, htotal, hbuf]
      exact ⟨hdone, hbig⟩
    · rintro ⟨u, hu, hover⟩
      obtain ⟨htotal, hbuf⟩ := h.call u hu
      rw [WriteTurn.Overflows, htotal, hbuf] at hover
      exact hover.2
  · omega

/-- The entries after a buffer that was written. -/
theorem Vectored.cons {bytes : List UInt8} {ts' : List WriteTurn} {r r' : Int} {m m' : Nat}
    (hr : r = buf.bytes.length) (htotal : total < 2 ^ 63) (h : Wrote s buf total 0 ts r m)
    (h' : Vectored s bytes (i64 (total + r)) ts' r' m') :
    Vectored s (buf.bytes ++ bytes) total (ts ++ ts') r' (buf.bytes.length + m') := by
  obtain ⟨hm, hlate, hover⟩ := h.complete hr
  refine ⟨?_, fun t ht => ?_, ?_, h'.small, fun hge hall => ?_, fun hge hbad => ?_⟩
  · have := h'.bound
    rw [List.length_append]
    omega
  · rcases List.mem_append.mp ht with ht | ht
    · exact h.appends t ht
    · exact h'.appends t ht
  · rw [List.flatMap_append, h.out, h'.out, hm, List.drop_zero, List.take_length,
      List.take_length_add_append]
  · have hsum : total + r < 2 ^ 63 := by
      by_contra hbig
      obtain ⟨t, ht, hov⟩ := hover.mp (by omega)
      exact (hall t (List.mem_append_left _ ht)).2 hov
    have hi := i64_of_lt (by omega : 0 ≤ total + r) hsum
    rcases h'.meets (by omega) fun t ht => hall t (List.mem_append_right _ ht) with hr' | hr'
    · exact Or.inl (by omega)
    · exact Or.inr (by omega)
  · by_cases hsum : total + r < 2 ^ 63
    · have hi := i64_of_lt (by omega : 0 ≤ total + r) hsum
      obtain ⟨t, ht, hbad⟩ := hbad
      rcases List.mem_append.mp ht with ht | ht
      · rcases hbad with hbad | hbad
        · exact absurd hbad (hlate t ht)
        · have := hover.mpr ⟨t, ht, hbad⟩
          omega
      · have := h'.fails (by omega) ⟨t, ht, hbad⟩
        omega
    · -- whatever comes after, the result is smaller than what was written
      have := h'.small
      omega

/-- A call that ends without a further buffer. -/
theorem Vectored.stop (bytes : List UInt8) {r : Int} (hr : r = total ∨ r < 0 ∧ total ≤ 0)
    (htotal : total < 2 ^ 63) : Vectored s bytes total [] r 0 where
  bound := Nat.zero_le _
  appends := by simp
  out := by simp
  small := by omega
  meets hge _ := by omega
  fails _ := by simp

/-- The buffer at which a call fails. -/
theorem Vectored.fail {bytes : List UInt8} {r r' : Int} {m : Nat} (hr : r < 0)
    (hr' : r' = if 0 < total then total else r) (htotal : total < 2 ^ 63)
    (h : Wrote s buf total 0 ts r m) : Vectored s (buf.bytes ++ bytes) total ts r' m := by
  have hbound := h.bound
  have hout := h.out
  rw [List.drop_zero] at hout
  rcases h.ended with ⟨hcount, -⟩ | ⟨-, ⟨t, ht, hfail, hdone⟩, hle, hlt⟩
  · omega
  refine ⟨?_, h.appends, ?_, ?_, fun hge hall => ?_, ?_⟩
  · rw [List.length_append]
    omega
  · rw [hout, List.take_append_of_le_length (by omega)]
  · split at hr' <;> omega
  · have hzero : m = 0 := by
      by_contra hne
      exact (hall t ht).1 ⟨by omega, hfail⟩
    split at hr' <;> omega
  · rintro hge ⟨u, hu, ⟨hpos, -⟩ | ⟨hover, -⟩⟩
    · have := hle u hu
      split at hr' <;> omega
    · have := hlt u hu
      rw [(h.call u hu).2] at hover
      omega

theorem writevTurns_vectored {mem : Memory} {iovp n : Nat} : ∀ {left i : Nat} {total : Int}
    {o : Output} {later : List Output} {ts : List WriteTurn} {r : Int}, total < 2 ^ 63 →
    writevTurns (.stream s) mem iovp n left i total o later = (ts, some r) →
    ∃ m, Vectored s (iovBytes mem iovp i left) total ts r m := by
  intro left
  induction left with
  | zero =>
    intro i total o later ts r htotal hrun
    rw [writevTurns] at hrun
    obtain ⟨rfl, rfl⟩ : [] = ts ∧ total = r := by simpa using hrun
    exact ⟨0, Vectored.stop _ (Or.inl rfl) htotal⟩
  | succ left ih =>
    intro i total o later ts r htotal hrun
    have hbytes : iovBytes mem iovp i (left + 1) =
        (userBuf mem (iovAt mem iovp i).iovBase (iovAt mem iovp i).iovLen).bytes ++
          iovBytes mem iovp (i + 1) left := by
      simp only [iovBytes, List.range'_succ, List.flatMap_cons, userBuf]
    rw [hbytes]
    rw [writevTurns] at hrun
    by_cases hok : userPtrOk (iovAddr iovp i) 16 = true
    · rw [if_pos hok] at hrun
      rcases hw : (Sink.stream s).write mem (iovAt mem iovp i).iovBase (iovAt mem iovp i).iovLen total
        n o later with ⟨ts₁, _ | w⟩
      · simp only [hw] at hrun
        cases hrun
      · obtain ⟨m, h⟩ := writeTurns_wrote (Nat.zero_le _) hw
        simp only [hw] at hrun
        by_cases hneg : w.result < 0
        · rw [if_pos hneg] at hrun
          obtain ⟨rfl, hr⟩ := Prod.mk.inj hrun
          exact ⟨m, Vectored.fail hneg (Option.some.inj hr).symm htotal h⟩
        · rw [if_neg hneg] at hrun
          have hlen : (userBuf mem (iovAt mem iovp i).iovBase (iovAt mem iovp i).iovLen).bytes.length =
              (iovAt mem iovp i).iovLen := by
            simp [userBuf, load]
          have hres : w.result = (userBuf mem (iovAt mem iovp i).iovBase
              (iovAt mem iovp i).iovLen).bytes.length := by
            rcases h.ended with ⟨hres, -⟩ | ⟨hneg', -⟩
            · exact hres
            · exact absurd hneg' hneg
          rw [if_neg (by omega)] at hrun
          rcases hrest : writevTurns (.stream s) mem iovp n left (i + 1) (i64 (total + w.result))
            w.left w.later with ⟨ts', r'⟩
          simp only [hrest] at hrun
          obtain ⟨rfl, rfl⟩ := Prod.mk.inj hrun
          obtain ⟨m', h'⟩ := ih (i64_lt _) hrest
          exact ⟨_, Vectored.cons hres htotal h h'⟩
    · rw [if_neg hok] at hrun
      obtain ⟨rfl, hr⟩ := Prod.mk.inj hrun
      refine ⟨0, Vectored.stop _ ?_ htotal⟩
      rw [← Option.some.inj hr]
      split
      · exact Or.inl rfl
      · exact Or.inr ⟨by decide, by omega⟩

/-- A call on a stream accounts for what it appended if and only if it does not fail after it wrote a part
    of a buffer, and, for a table of buffers, does not write more than an `int64_t` can say. -/
theorem write_accounts_iff {fd : Int} {o : Output} {s : Stream}
    (hs : writeSink fd o.kernel = .stream s) (mem : Memory) (n : Nat) (later : List Output) :
    (∀ buf count ts w, sysWrite fd mem buf count n o later = (ts, some w) →
      (Accounts s (load mem buf count) ts w.result ↔ ∀ t ∈ ts, ¬ t.FailsLate s)) ∧
    (∀ iovp iovcnt ts r, sysWritev fd mem iovp iovcnt n o later = (ts, some r) →
      (Accounts s (iovBytes mem iovp 0 iovcnt) ts r ↔
        ∀ t ∈ ts, ¬ t.FailsLate s ∧ ¬ t.Overflows)) := by
  refine ⟨fun buf count ts w hrun => ?_, fun iovp iovcnt ts r hrun => ?_⟩
  · rw [sysWrite, hs] at hrun
    obtain ⟨m, h⟩ := writeTurns_wrote (Nat.zero_le _) hrun
    exact h.accounts_iff
  · rw [sysWritev, hs] at hrun
    obtain ⟨m, h⟩ := writevTurns_vectored (by decide) hrun
    exact h.accounts_iff

/-- A task without descriptors, for which 1 and 2 are the console. -/
def consoleOutput : Output where
  kernel := Kernel.zero ∅ (fun _ => VfsFile.fresh) 0
  screen := []
  rings _ := ⟨(by decide : 0 < pipeSize), Nat.zero_le _, rfl⟩

/-- A table of two buffers: 600 bytes at 0x401000, and one byte at 0x402000. -/
def twoBuffers : Memory := fun a =>
  if a = userAddrMin + 1 then 0x10 else if a = userAddrMin + 2 then 0x40
  else if a = userAddrMin + 8 then 0x58 else if a = userAddrMin + 9 then 2
  else if a = userAddrMin + 17 then 0x20 else if a = userAddrMin + 18 then 0x40
  else if a = userAddrMin + 24 then 1 else 0

/-- Turns on the console whose chunks are all accepted do not fail, and none that are this short overflow. -/
theorem accepted_turns {ts : List WriteTurn} (h : (ts.all fun t => t.buf.ok t.done (chunk t.buf t.done).length &&
    decide (t.total + t.buf.bytes.length < 2 ^ 63)) = true) :
    ∀ t ∈ ts, ¬ t.FailsLate .console ∧ ¬ t.Overflows := by
  intro t ht
  have hboth := List.all_eq_true.mp h t ht
  rw [Bool.and_eq_true, decide_eq_true_eq] at hboth
  refine ⟨?_, fun hover => not_le.mpr hboth.2 hover.2⟩
  rintro ⟨-, -, hno | ⟨p, hp, -⟩⟩
  · rw [hboth.1] at hno
    cases hno
  · cases hp

/-- The first buffer by itself, in two chunks, and the table, in three. -/
theorem write_accounts_console :
    (∃ ts w, sysWrite 1 twoBuffers 0x401000 600 4 consoleOutput [] = (ts, some w) ∧ w.result = 600 ∧
      Accounts .console (load twoBuffers 0x401000 600) ts 600) ∧
    ∃ ts, sysWritev 1 twoBuffers userAddrMin 2 4 consoleOutput [] = (ts, some 601) ∧
      Accounts .console (iovBytes twoBuffers userAddrMin 0 2) ts 601 := by
  have hsink : writeSink 1 consoleOutput.kernel = .stream .console := by decide
  obtain ⟨hwrite, hwritev⟩ := write_accounts_iff hsink twoBuffers 4 []
  constructor
  · rcases hrun : sysWrite 1 twoBuffers 0x401000 600 4 consoleOutput [] with ⟨ts, w⟩
    have hres : (sysWrite 1 twoBuffers 0x401000 600 4 consoleOutput []).2.map Written.result = some 600 := by
      decide +kernel
    have hall : ((sysWrite 1 twoBuffers 0x401000 600 4 consoleOutput []).1.all fun t =>
        t.buf.ok t.done (chunk t.buf t.done).length && decide (t.total + t.buf.bytes.length < 2 ^ 63)) = true := by
      decide +kernel
    rw [hrun] at hres hall
    obtain ⟨w, rfl, hresult⟩ := Option.map_eq_some_iff.mp hres
    exact ⟨ts, w, rfl, hresult,
      hresult ▸ (hwrite _ _ ts w hrun).mpr fun t ht => (accepted_turns hall t ht).1⟩
  · rcases hrun : sysWritev 1 twoBuffers userAddrMin 2 4 consoleOutput [] with ⟨ts, r⟩
    have hres : (sysWritev 1 twoBuffers userAddrMin 2 4 consoleOutput []).2 = some 601 := by decide +kernel
    have hall : ((sysWritev 1 twoBuffers userAddrMin 2 4 consoleOutput []).1.all fun t =>
        t.buf.ok t.done (chunk t.buf t.done).length && decide (t.total + t.buf.bytes.length < 2 ^ 63)) = true := by
      decide +kernel
    rw [hrun] at hres hall
    obtain rfl : r = some 601 := hres
    exact ⟨ts, rfl, (hwritev _ _ ts 601 hrun).mpr (accepted_turns hall)⟩

/-- A task with the write end of a pipe at descriptor 3, so many bytes in the pipe and so many readers. -/
def writerOutput (n readers : Nat) (hn : n ≤ pipeSize) : Output where
  kernel := { Kernel.zero ∅ (fun _ => { VfsFile.fresh with pipe := some 0, pipeEnd := 1 }) 0 with
    tasks := fun _ => { Process.zero with fds := fun _ => some 0 }
    pipes := fun _ => { Pipe.zero with
      head := n % pipeSize, count := n, readers := readers, writers := 1, inUse := true } }
  screen := []
  rings _ := ⟨(by decide : 0 < pipeSize), hn, congrArg (· % pipeSize) (Nat.zero_add n).symm⟩

/-- Two bytes to a pipe with room for one and without a reader: one is written, and the call fails. -/
theorem write_fails_late : ¬ ∀ fd o s mem buf count n later ts w, writeSink fd o.kernel = .stream s →
    sysWrite fd mem buf count n o later = (ts, some w) →
      Accounts s (load mem buf count) ts w.result := by
  intro hall
  obtain ⟨ts, w, hrun, hlate⟩ : ∃ ts w, sysWrite 3 (fun _ => 0) userAddrMin 2 2
      (writerOutput 4095 0 (by decide)) [] = (ts, some w) ∧
      ∃ t ∈ ts, WriteTurn.FailsLate (.pipe 0) t := by
    refine ⟨_, _, rfl, _, .tail _ (.head _), ?_, ?_, Or.inr ⟨0, rfl, ?_, ?_⟩⟩
    all_goals decide
  obtain ⟨t, ht, hfails⟩ := hlate
  obtain ⟨m, h⟩ := writeTurns_wrote (Nat.zero_le _) hrun
  exact h.accounts_iff.mp (hall _ _ _ _ _ _ _ _ _ _ rfl hrun) t ht hfails

end TypeOS.Sys
