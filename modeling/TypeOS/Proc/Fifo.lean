import TypeOS.Proc.Calls
import TypeOS.Lib.Ring

/-! A pipe is a queue of bytes.

    `Pipe.held` lists the bytes in the ring, first in first. The loop of `pipe_read` takes a prefix of
    that list and the loop of `pipe_write` appends to it, as long as `head` is `count` cells after
    `tail`; so along any calls, what was accepted is what was returned and then what is still held. -/

namespace TypeOS.Proc

open Kernel

/-- The bytes in a pipe, in the order they came. -/
def Pipe.held (q : Pipe) : List UInt8 := Ring.items pipeSize q.buf q.tail q.count

/-- The two indices lie in the buffer, `count` cells apart. -/
structure Pipe.Ring (q : Pipe) : Prop where
  tail : q.tail < pipeSize
  count : q.count ≤ pipeSize
  head : q.head = (q.tail + q.count) % pipeSize

@[simp] theorem Pipe.length_held (q : Pipe) : q.held.length = q.count := Ring.length_items ..

/-- One byte out of a pipe. -/
def Pipe.pop (q : Pipe) : Pipe := { q with tail := (q.tail + 1) % pipeSize, count := q.count - 1 }

/-- One byte into a pipe. -/
def Pipe.push (b : UInt8) (q : Pipe) : Pipe :=
  { q with
    buf := Function.update q.buf q.head b, head := (q.head + 1) % pipeSize, count := q.count + 1 }

variable {q : Pipe}

theorem Pipe.read_succ (n : Nat) (q : Pipe) : q.read (n + 1) =
    if 0 < q.count then (q.buf q.tail :: (q.pop.read n).1, (q.pop.read n).2) else ([], q) := rfl

theorem Pipe.write_cons (b : UInt8) (bytes : List UInt8) (q : Pipe) : q.write (b :: bytes) =
    if q.count < pipeSize then (((q.push b).write bytes).1 + 1, ((q.push b).write bytes).2)
    else (0, q) := rfl

theorem Pipe.Ring.pop (r : q.Ring) (h : 0 < q.count) : q.pop.Ring where
  tail := Nat.mod_lt _ (by decide)
  count := by have := r.count; simp only [Pipe.pop]; omega
  head := by
    have : q.tail + q.count = q.tail + 1 + (q.count - 1) := by omega
    simp only [Pipe.pop, r.head, Nat.mod_add_mod, this]

theorem Pipe.Ring.push (r : q.Ring) (h : q.count < pipeSize) (b : UInt8) : (q.push b).Ring where
  tail := r.tail
  count := h
  head := by simp only [Pipe.push, r.head, Nat.mod_add_mod, Nat.add_assoc]

theorem Pipe.Ring.held_pop (r : q.Ring) (h : 0 < q.count) :
    q.held = q.buf q.tail :: q.pop.held := by
  have hc : q.count = (q.count - 1) + 1 := by omega
  rw [Pipe.held, hc, Ring.items_succ q.buf r.tail]
  rfl

theorem Pipe.Ring.held_push (r : q.Ring) (h : q.count < pipeSize) (b : UInt8) :
    (q.push b).held = q.held ++ [b] := by
  simp only [Pipe.held, Pipe.push, r.head]
  exact Ring.items_push q.buf q.tail h b

theorem Pipe.length_read (n : Nat) (q : Pipe) : (q.read n).1.length = min n q.count := by
  induction n generalizing q with
  | zero => simp [Pipe.read]
  | succ n ih =>
    rw [Pipe.read_succ]
    split
    · rw [List.length_cons, ih]
      simp only [Pipe.pop]
      omega
    · rw [List.length_nil]
      omega

theorem Pipe.count_read (n : Nat) (q : Pipe) : (q.read n).2.count = q.count - min n q.count := by
  induction n generalizing q with
  | zero => simp [Pipe.read]
  | succ n ih =>
    rw [Pipe.read_succ]
    split
    · rw [ih]
      simp only [Pipe.pop]
      omega
    · dsimp only
      omega

/-- A read that takes nothing changes nothing. -/
theorem Pipe.read_nothing {n : Nat} (h : min n q.count = 0) : q.read n = ([], q) := by
  cases n with
  | zero => rfl
  | succ n =>
    rw [Pipe.read_succ, if_neg]
    omega

/-- `pipe_read` takes as many bytes as there are, from the front. -/
theorem Pipe.Ring.read (r : q.Ring) (n : Nat) :
    (q.read n).2.Ring ∧ (q.read n).1.length = min n q.count ∧
      q.held = (q.read n).1 ++ (q.read n).2.held := by
  induction n generalizing q with
  | zero => exact ⟨r, by simp [Pipe.read], rfl⟩
  | succ n ih =>
    rw [Pipe.read_succ]
    split
    · next h =>
      obtain ⟨r', hl, hh⟩ := ih (r.pop h)
      refine ⟨r', ?_, ?_⟩
      · rw [List.length_cons, hl]
        simp only [Pipe.pop]
        omega
      · rw [r.held_pop h, hh, List.cons_append]
    · next h =>
      refine ⟨r, ?_, rfl⟩
      rw [List.length_nil]
      omega

/-- A write that puts nothing changes nothing. -/
theorem Pipe.write_nothing {bytes : List UInt8} (h : (q.write bytes).1 = 0) : (q.write bytes).2 = q := by
  cases bytes with
  | nil => rfl
  | cons b bytes =>
    rw [Pipe.write_cons] at h ⊢
    split at h
    · exact absurd h (Nat.succ_ne_zero _)
    · next hfull => rw [if_neg hfull]

/-- `pipe_write` accepts as many bytes as there is room for, at the back. -/
theorem Pipe.Ring.write (r : q.Ring) (bytes : List UInt8) :
    (q.write bytes).2.Ring ∧ (q.write bytes).1 = min bytes.length (pipeSize - q.count) ∧
      (q.write bytes).2.held = q.held ++ bytes.take (q.write bytes).1 := by
  induction bytes generalizing q with
  | nil => exact ⟨r, by simp [Pipe.write], by simp [Pipe.write]⟩
  | cons b bytes ih =>
    rw [Pipe.write_cons]
    split
    · next h =>
      obtain ⟨r', hl, hh⟩ := ih (r.push h b)
      refine ⟨r', ?_, ?_⟩
      · rw [hl, List.length_cons]
        simp only [Pipe.push]
        omega
      · rw [hh, r.held_push h, List.append_assoc, List.take_succ_cons, List.singleton_append]
    · next h =>
      refine ⟨r, ?_, by simp⟩
      have := r.count
      omega

/-- The states of a pipe along any `pipe_write` and `pipe_read` calls from the state `fresh`, with the
    bytes that writes accepted and the bytes that reads returned. The counters of its ends may change
    in between. -/
inductive Pipe.Used (fresh : Pipe) : Pipe → List UInt8 → List UInt8 → Prop
  | start : Used fresh fresh [] []
  | write {q : Pipe} {accepted returned : List UInt8} (bytes : List UInt8) :
      Used fresh q accepted returned →
      Used fresh (q.write bytes).2 (accepted ++ bytes.take (q.write bytes).1) returned
  | read {q : Pipe} {accepted returned : List UInt8} (n : Nat) : Used fresh q accepted returned →
      Used fresh (q.read n).2 accepted (returned ++ (q.read n).1)
  | ends {q : Pipe} {accepted returned : List UInt8} (readers writers : Nat) :
      Used fresh q accepted returned →
      Used fresh { q with readers := readers, writers := writers } accepted returned

/-- What the calls keep. -/
theorem Pipe.Used.queue {fresh : Pipe} {accepted returned : List UInt8} (hr : fresh.Ring)
    (he : fresh.held = []) (h : Pipe.Used fresh q accepted returned) :
    q.Ring ∧ accepted = returned ++ q.held := by
  induction h with
  | start => exact ⟨hr, by rw [he]; rfl⟩
  | write bytes _ ih =>
    obtain ⟨r, hb⟩ := ih
    obtain ⟨r', -, hh⟩ := r.write bytes
    exact ⟨r', by rw [hh, ← List.append_assoc, ← hb]⟩
  | read n _ ih =>
    obtain ⟨r, hb⟩ := ih
    obtain ⟨r', -, hh⟩ := r.read n
    exact ⟨r', by rw [List.append_assoc, ← hh, hb]⟩
  | ends readers writers _ ih =>
    obtain ⟨r, hb⟩ := ih
    exact ⟨⟨r.tail, r.count, r.head⟩, hb⟩

/-- The pipe that `proc_pipe_alloc` gives is empty. -/
theorem procPipeAlloc_fresh {k k' : Kernel} {p : PipeId} (h : procPipeAlloc k = (some p, k')) :
    (k'.pipes p).Ring ∧ (k'.pipes p).held = [] := by
  unfold procPipeAlloc at h
  split at h
  · exact absurd (congrArg Prod.fst h) (by simp)
  · next p' _ =>
    obtain ⟨hp, rfl⟩ := Prod.mk.inj h
    obtain rfl := Option.some.inj hp
    rw [onPipe_pipes_self]
    exact ⟨⟨by decide, by decide, by decide⟩, rfl⟩

/-- Pipe data is a FIFO, however often the two indices wrap. -/
theorem pipe_fifo {k k' : Kernel} {p : PipeId} (hp : procPipeAlloc k = (some p, k')) {q : Pipe}
    {accepted returned : List UInt8} (h : Pipe.Used (k'.pipes p) q accepted returned) :
    (∃ held, accepted = returned ++ held ∧ held.length = q.count) ∧ q.count ≤ pipeSize ∧
    (∀ bytes, (q.write bytes).1 = min bytes.length (pipeSize - q.count)) ∧
    (∀ n, (q.read n).1.length = min n q.count) := by
  obtain ⟨hr, he⟩ := procPipeAlloc_fresh hp
  obtain ⟨r, hb⟩ := h.queue hr he
  exact ⟨⟨q.held, hb, q.length_held⟩, r.count, fun bytes => (r.write bytes).2.1,
    fun n => (r.read n).2.1⟩

/-- Two bytes in, one byte out. -/
theorem pipe_fifo_two : ∃ q held,
    Pipe.Used ((procPipeAlloc (Kernel.zero ∅ (fun _ => VfsFile.fresh) 0)).2.pipes 0) q [7, 8] [7] ∧
      [7, 8] = [(7 : UInt8)] ++ held ∧ held.length = q.count := by
  have hp : procPipeAlloc (Kernel.zero ∅ (fun _ => VfsFile.fresh) 0) =
      (some 0, (procPipeAlloc (Kernel.zero ∅ (fun _ => VfsFile.fresh) 0)).2) := Prod.ext rfl rfl
  have h := (Pipe.Used.start.write [7, 8]).read (q := (((procPipeAlloc
    (Kernel.zero ∅ (fun _ => VfsFile.fresh) 0)).2.pipes 0).write [7, 8]).2) 1
  obtain ⟨held, hh, hl⟩ := (pipe_fifo hp h).1
  exact ⟨_, held, h, hh, hl⟩

end TypeOS.Proc
