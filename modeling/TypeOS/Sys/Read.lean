import TypeOS.Sched.Machine
import TypeOS.Proc.Fifo
import TypeOS.Fs.Lookup
import TypeOS.Proc.PipeEnds
import TypeOS.Sys.User

/-! What a read takes, and where it puts it.

    `sys_read` drains its source before it looks at the buffer of its caller. The bytes of a pipe or a
    file go through `kbuf` on the kernel stack: the file branch cuts the count to the size of `kbuf`,
    the pipe branch does not. A call that finds nothing waits, and other tasks run before its next
    turn. -/

namespace TypeOS.Sys

open Bytes Proc Sched
open Fs (Vfs vfsRead)

/-- `sizeof (kbuf)` in `sys_read`. -/
abbrev kbufSize : Nat := 256

/-- `copy_to_user`: the memory afterwards, if the address is accepted. -/
def copyToUser (mem : Memory) (uaddr : Nat) (bytes : List UInt8) : Option Memory :=
  if userPtrOk uaddr bytes.length then some (store mem uaddr bytes) else none

/-- What a turn of a call finds: the tables of the kernel, the keyboard, the files and the memory of
    the caller. -/
structure World where
  kernel : Kernel
  keyboard : Keyboard
  vfs : Vfs
  mem : Memory

/-- The branches of `sys_read`. -/
inductive Source
  | pipe (p : PipeId)
  | console
  | null
  | file (h : Handle)
  | bad
  deriving DecidableEq

/-- The branch that `sys_read` takes for a descriptor. -/
def readSource (fd : Int) (k : Kernel) : Source :=
  match readPipe fd k with
  | some p => .pipe p
  | none =>
    if readsConsole fd k then .console
    else match fdGet fd k with
      | none => .bad
      | some h => if isNullPath (k.files h).path then .null else .file h

/-- The buffer of a read, which goes to its start. -/
def readBuf (buf : Nat) : UserBuf := ⟨[], fun _ len => userPtrOk buf len⟩

/-- A turn of a read: how it ends, the bytes that it stored on the kernel stack with their indices from
    `kbuf` on, and what it left. -/
structure ReadTurn where
  turn : Turn
  stores : List (UInt8 × Nat)
  left : World

/-- What a turn returns, if it is the last one. -/
def ReadTurn.result (t : ReadTurn) : Option Int :=
  match t.turn with
  | .done r => some r
  | _ => none

/-- The pipe branch. -/
def readPipeTurn (p : PipeId) (buf count : Nat) (w : World) : ReadTurn :=
  let bytes := ((w.kernel.pipes p).read count).1
  let r := pipeReadTurn p count (readBuf buf) w.kernel
  { turn := r.1, stores := bytes.zipIdx
    left := { w with kernel := r.2, mem := (copyToUser w.mem buf bytes).getD w.mem } }

/-- `keyboard_poll`. -/
def World.poll (w : World) : World :=
  { w with
    keyboard := (keyboardPoll w.keyboard).2
    kernel := if (keyboardPoll w.keyboard).1 then Proc.schedWakeAll w.kernel else w.kernel }

/-- The console branch: the key goes through a `char` of its own. -/
def readConsoleTurn (buf count : Nat) (w : World) : ReadTurn :=
  if count = 0 then ⟨.done 0, [], w⟩
  else
    let w := w.poll
    if w.keyboard.head ≠ w.keyboard.tail then
      let (key, keyboard) := keyboardTake w.keyboard
      match copyToUser w.mem buf [UInt8.ofNat key] with
      | none => ⟨.done eFault, [], { w with keyboard := keyboard }⟩
      | some mem => ⟨.done 1, [], { w with keyboard := keyboard, mem := mem }⟩
    else ⟨.block, [], w⟩

/-- `vfs_read` for a descriptor. -/
def readFile (h : Handle) (count : Nat) (w : World) : Int × List UInt8 × Fs.VfsFile :=
  vfsRead ⟨(w.kernel.files h).inode, (w.kernel.files h).pos, []⟩ (min count kbufSize) w.vfs

/-- The file branch; `kbuf` is what lies on the stack before. -/
def readFileTurn (h : Handle) (buf count : Nat) (kbuf : Memory) (w : World) : ReadTurn :=
  let (n, bytes, file) := readFile h count w
  let w' := { w with kernel := w.kernel.setFile h { w.kernel.files h with pos := file.pos } }
  if n < 0 then ⟨.done eFault, bytes.zipIdx, w'⟩
  else if 0 < n then
    match copyToUser w.mem buf (load (store kbuf 0 bytes) 0 n.toNat) with
    | none => ⟨.done eFault, bytes.zipIdx, w'⟩
    | some mem => ⟨.done n, bytes.zipIdx, { w' with mem := mem }⟩
  else ⟨.done n, bytes.zipIdx, w'⟩

/-- A turn of `sys_read`. -/
def readTurn (src : Source) (buf count : Nat) (kbuf : Memory) (w : World) : ReadTurn :=
  match src with
  | .pipe p => readPipeTurn p buf count w
  | .console => readConsoleTurn buf count w
  | .null => ⟨.done 0, [], w⟩
  | .file h => readFileTurn h buf count kbuf w
  | .bad => ⟨.done eBadf, [], w⟩

/-- The turns from `w` on, each with what it found, and the result if there is one by then; `later` is
    what the call finds each time that it has waited. -/
def readTurns (src : Source) (buf count : Nat) (kbuf : Memory) :
    World → List World → List (World × ReadTurn) × Option Int
  | w, [] => ([(w, readTurn src buf count kbuf w)], (readTurn src buf count kbuf w).result)
  | w, w' :: later =>
    if (readTurn src buf count kbuf w).result = none then
      ((w, readTurn src buf count kbuf w) :: (readTurns src buf count kbuf w' later).1,
        (readTurns src buf count kbuf w' later).2)
    else ([(w, readTurn src buf count kbuf w)], (readTurn src buf count kbuf w).result)

/-- `sys_read`. -/
def sysRead (fd : Int) (buf count : Nat) (kbuf : Memory) (w : World) (later : List World) :
    List (World × ReadTurn) × Option Int :=
  readTurns (readSource fd w.kernel) buf count kbuf w later

variable {src : Source} {fd : Int} {buf count : Nat} {kbuf : Memory} {w : World} {later : List World}
  {x : World × ReadTurn}

/-- A call takes turns of its loop. -/
theorem turn_of_mem (hx : x ∈ (readTurns src buf count kbuf w later).1) :
    x.2 = readTurn src buf count kbuf x.1 := by
  induction later generalizing w with
  | nil =>
    rw [readTurns, List.mem_singleton] at hx
    rw [hx]
  | cons w' later ih =>
    rw [readTurns] at hx
    split at hx
    · rcases List.mem_cons.mp hx with rfl | hx
      · rfl
      · exact ih hx
    · rw [List.mem_singleton] at hx
      rw [hx]

/-- A turn that returns is the last one, and its result is that of the call. -/
theorem result_of_mem {r : Int} (hx : x ∈ (readTurns src buf count kbuf w later).1)
    (hr : x.2.result = some r) : (readTurns src buf count kbuf w later).2 = some r := by
  induction later generalizing w with
  | nil =>
    rw [readTurns, List.mem_singleton] at hx
    rw [hx] at hr
    exact hr
  | cons w' later ih =>
    rw [readTurns] at hx ⊢
    split at hx
    · next hnone =>
      rw [if_pos hnone]
      rcases List.mem_cons.mp hx with rfl | hx
      · rw [hnone] at hr
        cases hr
      · exact ih hx
    · next hsome =>
      rw [List.mem_singleton] at hx
      rw [if_neg hsome]
      rw [hx] at hr
      exact hr

/-! ### Where the bytes are stored -/

theorem zipIdx_below (bytes : List UInt8) (m : Nat) :
    (∀ e ∈ bytes.zipIdx, e.2 < m) ↔ bytes.length ≤ m := by
  constructor
  · intro h
    by_contra hlong
    have hm : m < bytes.length := by omega
    have hmem : (bytes[m], m) ∈ bytes.zipIdx := by
      rw [List.mem_zipIdx_iff_getElem?]
      exact List.getElem?_eq_getElem hm
    exact absurd (h _ hmem) (lt_irrefl m)
  · rintro hle ⟨b, i⟩ he
    rw [List.mem_zipIdx_iff_getElem?] at he
    obtain ⟨hi, -⟩ := List.getElem?_eq_some_iff.mp he
    exact lt_of_lt_of_le hi hle

/-- A pipe that holds more than `kbuf` takes, read with a count that does not stop before. -/
def Overruns (src : Source) (count : Nat) (w : World) : Prop :=
  ∃ p, src = .pipe p ∧ kbufSize < min count (w.kernel.pipes p).count

theorem length_vfsRead (file : Fs.VfsFile) (count : Nat) (s : Vfs) :
    (vfsRead file count s).2.1.length ≤ count := by
  unfold vfsRead
  split
  · exact Nat.zero_le _
  · split
    · split_ifs
      · exact Nat.zero_le _
      · dsimp only
        split_ifs
        · rw [List.length_take]
          omega
        · exact Nat.zero_le _
    · exact Nat.zero_le _

theorem readFileTurn_stores (h : Handle) : (readFileTurn h buf count kbuf w).stores =
    (readFile h count w).2.1.zipIdx := by
  unfold readFileTurn
  dsimp only
  split_ifs
  · rfl
  · split <;> rfl
  · rfl

theorem readConsoleTurn_stores : (readConsoleTurn buf count w).stores = [] := by
  unfold readConsoleTurn
  dsimp only
  split_ifs
  · rfl
  · split <;> rfl
  · rfl

/-- A turn stores past the end of `kbuf` just when it takes too much from a pipe. -/
theorem readTurn_inside_iff : (∀ e ∈ (readTurn src buf count kbuf w).stores, e.2 < kbufSize) ↔
    ¬ Overruns src count w := by
  cases src with
  | pipe p =>
    simp only [readTurn, readPipeTurn, zipIdx_below, Pipe.length_read, Overruns, Source.pipe.injEq,
      exists_eq_left', not_lt]
  | console =>
    rw [readTurn, readConsoleTurn_stores]
    simp [Overruns]
  | null => simp [readTurn, Overruns]
  | bad => simp [readTurn, Overruns]
  | file h =>
    have hlen : (readFile h count w).2.1.length ≤ kbufSize :=
      (length_vfsRead ..).trans (Nat.min_le_right ..)
    rw [readTurn, readFileTurn_stores, zipIdx_below]
    simp [hlen, Overruns]

/-- A call of `sys_read` stays inside `kbuf` if and only if none of its turns finds a pipe with more bytes
    than `kbuf` takes and is asked for more. -/
theorem sysRead_inside_iff (fd : Int) (buf count : Nat) (kbuf : Memory) (w : World)
    (later : List World) :
    (∀ x ∈ (sysRead fd buf count kbuf w later).1, ∀ e ∈ x.2.stores, e.2 < kbufSize) ↔
      ∀ x ∈ (sysRead fd buf count kbuf w later).1, ¬ Overruns (readSource fd w.kernel) count x.1 := by
  refine forall₂_congr fun x hx => ?_
  rw [turn_of_mem hx, readTurn_inside_iff]

/-- A task with the read end of a pipe at descriptor 3, and so many bytes in the pipe. -/
def pipeWorld (n : Nat) : World where
  kernel := { Kernel.zero ∅ (fun _ => { VfsFile.fresh with pipe := some 0, pipeEnd := 0 }) 0 with
    tasks := fun _ => { Process.zero with fds := fun _ => some 0 }
    pipes := fun _ => { Pipe.zero with
      head := n % pipeSize, count := n, readers := 1, writers := 1, inUse := true } }
  keyboard := Keyboard.init
  vfs := Fs.emptyVfs
  mem := fun _ => 0

theorem pipeWorld_source (n : Nat) : readSource 3 (pipeWorld n).kernel = .pipe 0 := rfl

/-- A read of 257 bytes from a pipe that holds them. -/
theorem kbuf_overrun : ¬ ∀ fd buf count kbuf w later,
    ∀ x ∈ (sysRead fd buf count kbuf w later).1, ∀ e ∈ x.2.stores, e.2 < kbufSize := by
  intro h
  have hx : (pipeWorld 257, readTurn (.pipe 0) userAddrMin 257 (fun _ => 0) (pipeWorld 257)) ∈
      (sysRead 3 userAddrMin 257 (fun _ => 0) (pipeWorld 257) []).1 := List.mem_singleton.mpr rfl
  have hin := h 3 userAddrMin 257 (fun _ => 0) (pipeWorld 257) [] _ hx
  rw [readTurn_inside_iff] at hin
  exact hin ⟨0, rfl, by decide⟩

/-! ### What a failed read has taken -/

/-- The keys in the ring, oldest first. -/
def Keyboard.queued (kb : Keyboard) : List Nat :=
  Ring.items bufferSize kb.buffer kb.tail (((kb.head : Int) - kb.tail) % bufferSize).toNat

/-- The keys that a read can find: those in the ring, after what waits in the controller has arrived. -/
def Keyboard.waiting (kb : Keyboard) : List Nat := Keyboard.queued (keyboardPoll kb).2

/-- The sources hold what they held. -/
structure Unconsumed (w w' : World) : Prop where
  pipes : ∀ p, (w'.kernel.pipes p).held = (w.kernel.pipes p).held
  files : ∀ h, (w'.kernel.files h).pos = (w.kernel.files h).pos
  keys : Keyboard.waiting w'.keyboard = Keyboard.waiting w.keyboard

/-- How many bytes `vfs_read` copies. -/
def fileOffers (h : Handle) (count : Nat) (w : World) : Nat :=
  match (w.kernel.files h).inode with
  | none => 0
  | some p =>
    match (w.vfs.inodes p).node with
    | .file data =>
      if data = [] then 0
      else min (min count kbufSize) ((w.vfs.inodes p).size - (w.kernel.files h).pos)
    | _ => 0

/-- How many bytes the source has for a call. -/
def Source.offers (src : Source) (count : Nat) (w : World) : Nat :=
  match src with
  | .pipe p => min count (w.kernel.pipes p).count
  | .console => if 0 < count ∧ w.keyboard.available then 1 else 0
  | .file h => fileOffers h count w
  | .null => 0
  | .bad => 0

/-- The source has something for the call, and the address of the buffer is refused for it. -/
def Refused (src : Source) (buf count : Nat) (w : World) : Prop :=
  0 < src.offers count w ∧ userPtrOk buf (src.offers count w) = false

/-- What a turn does: it leaves the sources alone as long as there is nothing to take, and else takes it
    and says so if the buffer is accepted. -/
structure Drains (src : Source) (buf count : Nat) (w : World) (t : ReadTurn) : Prop where
  none : src.offers count w = 0 → Unconsumed w t.left
  some : 0 < src.offers count w → ¬ Unconsumed w t.left ∧ t.result =
    some (if userPtrOk buf (src.offers count w) then (src.offers count w : Int) else eFault)

theorem Unconsumed.refl (w : World) : Unconsumed w w := ⟨fun _ => rfl, fun _ => rfl, rfl⟩

/-- The pipe branch takes bytes as soon as there are any. -/
theorem readPipeTurn_drains (p : PipeId) :
    Drains (.pipe p) buf count w (readPipeTurn p buf count w) := by
  have hlen := Pipe.length_read count (w.kernel.pipes p)
  refine ⟨fun h0 => ?_, fun hpos => ?_⟩
  · have hnone := Pipe.read_nothing h0
    have hleft : (pipeReadTurn p count (readBuf buf) w.kernel).2 = w.kernel := by
      rw [pipeReadTurn, hnone, if_neg (by simp), onPipe_self]
      split <;> rfl
    have hmem : (copyToUser w.mem buf []).getD w.mem = w.mem := by
      rw [copyToUser, store_nil]
      split <;> rfl
    have hsame : (readPipeTurn p buf count w).left = w := by
      simp only [readPipeTurn, hnone, hleft, hmem]
    rw [hsame]
    exact Unconsumed.refl w
  · have hread : 0 < ((w.kernel.pipes p).read count).1.length := hlen ▸ hpos
    refine ⟨fun hsame => ?_, ?_⟩
    · have hheld := congrArg List.length (hsame.pipes p)
      have hleft : (readPipeTurn p buf count w).left.kernel.pipes p =
          ((w.kernel.pipes p).read count).2 := by
        simp only [readPipeTurn, pipeReadTurn, if_pos hread, Kernel.onPipe_pipes_self]
      rw [Pipe.length_held, Pipe.length_held, hleft, Pipe.count_read] at hheld
      omega
    · simp only [ReadTurn.result, readPipeTurn, pipeReadTurn, readBuf, Source.offers]
      rw [if_pos hread, hlen]
      by_cases hok : userPtrOk buf (min count (w.kernel.pipes p).count) = true
      · simp [hok]
      · simp [hok]

/-- Taking a key changes what is queued. -/
theorem queued_take (kb : Keyboard) :
    Keyboard.queued (keyboardTake kb).2 ≠ Keyboard.queued kb := by
  intro h
  have hlen := congrArg List.length h
  simp only [Keyboard.queued, Ring.length_items, keyboardTake, bufferSize] at hlen
  omega

/-- What is left in the ring is all there is when the controller is empty. -/
theorem waiting_of_empty (kb : Keyboard) (h : kb.controller = []) :
    Keyboard.waiting kb = Keyboard.queued kb := by
  have hself : (keyboardPoll kb).2 = kb := by
    rw [keyboardPoll, h, pollAll, ← h]
  rw [Keyboard.waiting, hself]

theorem World.poll_waiting (w : World) :
    w.poll.keyboard.controller = [] ∧
      Keyboard.waiting w.keyboard = Keyboard.queued w.poll.keyboard := by
  have hc : w.poll.keyboard.controller = [] := by
    rw [World.poll, keyboardPoll, pollAll_controller]
  exact ⟨hc, rfl⟩

theorem World.available_iff (w : World) :
    w.keyboard.available = true ↔ w.poll.keyboard.head ≠ w.poll.keyboard.tail := decide_eq_true_iff

/-- A poll only brings keys. -/
theorem Unconsumed.poll (w : World) : Unconsumed w w.poll where
  pipes p := by
    rw [World.poll]
    split <;> rfl
  files h := by
    rw [World.poll]
    split <;> rfl
  keys := by
    obtain ⟨hc, hw⟩ := w.poll_waiting
    rw [waiting_of_empty _ hc, hw]

/-- The console branch takes a key as soon as there is one. -/
theorem readConsoleTurn_drains : Drains .console buf count w (readConsoleTurn buf count w) := by
  refine ⟨fun h0 => ?_, fun hpos => ?_⟩
  · by_cases hc : count = 0
    · rw [readConsoleTurn, if_pos hc]
      exact Unconsumed.refl w
    · have hkey : ¬ w.poll.keyboard.head ≠ w.poll.keyboard.tail := by
        rw [← w.available_iff]
        intro hav
        rw [Source.offers, if_pos ⟨by omega, hav⟩] at h0
        cases h0
      rw [readConsoleTurn, if_neg hc, if_neg hkey]
      exact Unconsumed.poll w
  · obtain ⟨hc, hav⟩ : 0 < count ∧ w.keyboard.available = true := by
      by_contra hnone
      rw [Source.offers, if_neg hnone] at hpos
      exact lt_irrefl 0 hpos
    have hkey := w.available_iff.mp hav
    have hturn : readConsoleTurn buf count w =
        match copyToUser w.mem buf [UInt8.ofNat (keyboardTake w.poll.keyboard).1] with
        | none => ⟨.done eFault, [], { w.poll with keyboard := (keyboardTake w.poll.keyboard).2 }⟩
        | some mem => ⟨.done 1, [],
            { w.poll with keyboard := (keyboardTake w.poll.keyboard).2, mem := mem }⟩ := by
      rw [readConsoleTurn, if_neg (by omega), if_pos hkey]
      rfl
    have hleft : (readConsoleTurn buf count w).left.keyboard = (keyboardTake w.poll.keyboard).2 := by
      rw [hturn]
      split <;> rfl
    refine ⟨fun hsame => ?_, ?_⟩
    · obtain ⟨hempty, hw⟩ := w.poll_waiting
      have hkeys := hsame.keys
      rw [hleft, hw, waiting_of_empty (keyboardTake w.poll.keyboard).2 hempty] at hkeys
      exact queued_take _ hkeys
    · have hone : Source.console.offers count w = 1 := if_pos ⟨hc, hav⟩
      rw [hone, hturn, copyToUser, List.length_singleton]
      by_cases hok : userPtrOk buf 1 = true
      · simp [hok, ReadTurn.result]
      · simp [hok, ReadTurn.result]

/-- `vfs_read` moves the position by what it copies. -/
theorem readFile_spec (h : Handle) (count : Nat) (w : World) :
    (readFile h count w).2.2.pos = (w.kernel.files h).pos + fileOffers h count w ∧
      (0 < fileOffers h count w → (readFile h count w).1 = fileOffers h count w) := by
  rcases hi : (w.kernel.files h).inode with _ | p
  · simp [readFile, vfsRead, fileOffers, hi]
  rcases hnode : (w.vfs.inodes p).node with children | data | target
  · simp [readFile, vfsRead, fileOffers, hi, hnode]
  · simp only [readFile, vfsRead, fileOffers, hi, hnode]
    by_cases hnull : data = []
    · rw [if_pos hnull]
      split_ifs with hend hcopy
      · simp
      · exact absurd hnull hcopy.2
      · simp
    · rw [if_neg hnull]
      split_ifs with hend hcopy
      · refine ⟨?_, ?_⟩
        · dsimp only
          omega
        · omega
      · exact ⟨rfl, fun _ => rfl⟩
      · refine ⟨?_, fun _ => rfl⟩
        have hzero : min (min count kbufSize) ((w.vfs.inodes p).size - (w.kernel.files h).pos) = 0 := by
          by_contra hne
          exact hcopy ⟨Nat.pos_of_ne_zero hne, hnull⟩
        rw [hzero]
        rfl
  · simp [readFile, vfsRead, fileOffers, hi, hnode]

theorem readFileTurn_left (h : Handle) (buf count : Nat) (kbuf : Memory) (w : World) :
    (readFileTurn h buf count kbuf w).left.kernel =
    w.kernel.setFile h { w.kernel.files h with pos := (readFile h count w).2.2.pos } ∧
    (readFileTurn h buf count kbuf w).left.keyboard = w.keyboard := by
  unfold readFileTurn
  dsimp only
  split_ifs
  · exact ⟨rfl, rfl⟩
  · split <;> exact ⟨rfl, rfl⟩
  · exact ⟨rfl, rfl⟩

/-- The file branch moves on as soon as there is data. -/
theorem readFileTurn_drains (h : Handle) :
    Drains (.file h) buf count w (readFileTurn h buf count kbuf w) := by
  obtain ⟨hk, hkb⟩ := readFileTurn_left h buf count kbuf w
  obtain ⟨hpos', hret⟩ := readFile_spec h count w
  refine ⟨fun h0 => ⟨fun p => ?_, fun g => ?_, ?_⟩, fun hpos => ⟨fun hsame => ?_, ?_⟩⟩
  · rw [hk]
    rfl
  · rw [Source.offers] at h0
    rw [hk, hpos', h0]
    by_cases hg : g = h
    · simp [Kernel.setFile, hg]
    · simp [Kernel.setFile]
  · rw [hkb]
  · have hfile := hsame.files h
    rw [hk, hpos'] at hfile
    simp only [Kernel.setFile, Function.update_self] at hfile
    rw [Source.offers] at hpos
    omega
  · rw [Source.offers] at hpos ⊢
    have hn := hret hpos
    have hlen : (load (store kbuf 0 (readFile h count w).2.1) 0
        (fileOffers h count w : Int).toNat).length = fileOffers h count w := by
      simp [load]
    simp only [readFileTurn, hn]
    rw [if_neg (by omega), if_pos (by omega), copyToUser, hlen]
    by_cases hok : userPtrOk buf (fileOffers h count w) = true
    · simp [hok, ReadTurn.result]
    · simp [hok, ReadTurn.result]

/-- One turn of a read. -/
theorem readTurn_drains (src : Source) (buf count : Nat) (kbuf : Memory) (w : World) :
    Drains src buf count w (readTurn src buf count kbuf w) := by
  cases src with
  | pipe p => exact readPipeTurn_drains p
  | console => exact readConsoleTurn_drains
  | file h => exact readFileTurn_drains h
  | null => exact ⟨fun _ => Unconsumed.refl w, fun h => absurd h (lt_irrefl 0)⟩
  | bad => exact ⟨fun _ => Unconsumed.refl w, fun h => absurd h (lt_irrefl 0)⟩

/-- A call that a turn refused failed in it, and took what it was offered. -/
theorem refused_takes {x : World × ReadTurn} (hx : x ∈ (sysRead fd buf count kbuf w later).1)
    (hrefused : Refused (readSource fd w.kernel) buf count x.1) :
    (sysRead fd buf count kbuf w later).2 = some eFault ∧ ¬ Unconsumed x.1 x.2.left := by
  have hd := readTurn_drains (readSource fd w.kernel) buf count kbuf x.1
  rw [← turn_of_mem hx] at hd
  obtain ⟨hlost, hret⟩ := hd.some hrefused.1
  rw [if_neg (by simp [hrefused.2])] at hret
  exact ⟨result_of_mem hx hret, hlost⟩

/-- A failed call took nothing if and only if in none of its turns the buffer was refused for what the
    source had. -/
theorem failed_read_keeps_iff (fd : Int) (buf count : Nat) (kbuf : Memory) (w : World)
    (later : List World) :
    (∀ r, (sysRead fd buf count kbuf w later).2 = some r → r < 0 →
      ∀ x ∈ (sysRead fd buf count kbuf w later).1, Unconsumed x.1 x.2.left) ↔
      ∀ x ∈ (sysRead fd buf count kbuf w later).1, ¬ Refused (readSource fd w.kernel) buf count x.1 := by
  constructor
  · intro hkeep x hx hrefused
    obtain ⟨hres, hlost⟩ := refused_takes hx hrefused
    exact hlost (hkeep eFault hres (by decide) x hx)
  · intro hall r hr hneg x hx
    have hd := readTurn_drains (readSource fd w.kernel) buf count kbuf x.1
    rw [← turn_of_mem hx] at hd
    rcases Nat.eq_zero_or_pos ((readSource fd w.kernel).offers count x.1) with h0 | hpos
    · exact hd.none h0
    · -- the source had something, so the buffer was accepted and the call did not fail
      exfalso
      obtain ⟨-, hret⟩ := hd.some hpos
      have hok : userPtrOk buf ((readSource fd w.kernel).offers count x.1) = true := by
        by_contra hno
        exact hall x hx ⟨hpos, by simpa using hno⟩
      rw [if_pos hok] at hret
      have := Option.some.inj ((result_of_mem hx hret).symm.trans hr)
      omega

/-- A read of one byte from a pipe into a buffer below the memory of the task. -/
theorem failed_read_takes : ¬ ∀ fd buf count kbuf w later r,
    (sysRead fd buf count kbuf w later).2 = some r → r < 0 →
      ∀ x ∈ (sysRead fd buf count kbuf w later).1, Unconsumed x.1 x.2.left := by
  intro h
  have hx : (pipeWorld 1, readTurn (.pipe 0) 0 1 (fun _ => 0) (pipeWorld 1)) ∈
      (sysRead 3 0 1 (fun _ => 0) (pipeWorld 1) []).1 := List.mem_singleton.mpr rfl
  have hrefused : Refused (readSource 3 (pipeWorld 1).kernel) 0 1 (pipeWorld 1) := by
    rw [pipeWorld_source]
    exact ⟨by decide, by decide⟩
  obtain ⟨hres, hlost⟩ := refused_takes hx hrefused
  exact hlost (h 3 0 1 (fun _ => 0) (pipeWorld 1) [] eFault hres (by decide) _ hx)

end TypeOS.Sys
