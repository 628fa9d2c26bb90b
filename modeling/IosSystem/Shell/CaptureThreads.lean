import IosSystem.Lib.Transition
import IosSystem.Pid.Table
import IosSystem.Shell.Capture

/-!
# The threads of a substitution

`capture_command_output` and the thread of the command that it captures, with a kernel pipe between
them. The capturing thread is in `pthread_join` until the command's thread has ended, then in
`ios_waitpid`, and only after that it reads.

The output reaches the pipe by `write` at the latest in the `fflush` of `cleanup_function`. A
`write` copies what fits, and blocks while the pipe is full. The allocations succeed.
-/

namespace IosSystem.Shell.CaptureThreads

open List Transition
open Pid

/-- Where `capture_command_output` is. -/
inductive Capturer (α : Type) where
  /-- the pipe is there and `ios_fork` has returned -/
  | forked
  /-- `ios_system` is in `pthread_join` -/
  | joining
  /-- in `ios_waitpid` -/
  | waiting
  /-- the loop around `read`, with what is in `buffer` -/
  | reading (buffer : List α) (capacity : Nat)
  | returned (buffer : List α)

inductive Command (α : Type) where
  | absent
  | created
  /-- `run_function` has stored the thread id; what is left to write -/
  | writing (left : List α)
  /-- `cleanup_function` has closed the stream -/
  | closed
  /-- `ios_releaseThread` has freed the process id -/
  | released
  | ended

/-- The capturing thread, the command and the pipe between them. -/
structure State (α : Type) where
  capturer : Capturer α
  command : Command α
  pipe : List α
  writable : Bool
  /-- `thread_ids` of the process id -/
  slot : Slot

variable {α : Type}

def State.initial : State α :=
  { capturer := .forked, command := .absent, pipe := [], writable := true, slot := .pending }

inductive Label where
  /-- `pthread_create` -/
  | create
  | start
  /-- `write` copies `n` bytes -/
  | write (n : Nat)
  /-- the command returns, and `cleanup_function` closes its stream -/
  | close
  | release
  | exit
  /-- `pthread_join` returns -/
  | join
  /-- `ios_waitpid` returns, and the capturing thread closes the stream -/
  | waitpid
  /-- `read` returns `n` bytes -/
  | read (n : Nat)
  /-- `read` returns 0 -/
  | eof

def grow (buffer : List α) (capacity : Nat) : Nat :=
  if capacity - 1 ≤ buffer.length then capacity * 2 else capacity

/-- A command that writes `output`, and a pipe that holds `size` bytes. -/
def step (output : List α) (size : Nat) (s : State α) : Label → Option (State α)
  | .create =>
    match s.capturer, s.command with
    | .forked, .absent => some { s with capturer := .joining, command := .created }
    | _, _ => none
  | .start =>
    match s.command with
    | .created => some { s with command := .writing output, slot := .running }
    | _ => none
  | .write n =>
    match s.command with
    | .writing left =>
      if 0 < n ∧ n ≤ left.length ∧ s.pipe.length + n ≤ size then
        some { s with command := .writing (left.drop n), pipe := s.pipe ++ left.take n }
      else none
    | _ => none
  | .close =>
    match s.command with
    | .writing [] => some { s with command := .closed, writable := false }
    | _ => none
  | .release =>
    match s.command with
    | .closed => some { s with command := .released, slot := .free }
    | _ => none
  | .exit =>
    match s.command with
    | .released => some { s with command := .ended }
    | _ => none
  | .join =>
    match s.capturer, s.command with
    | .joining, .ended => some { s with capturer := .waiting }
    | _, _ => none
  | .waitpid =>
    match s.capturer with
    | .waiting =>
      if s.slot = .free then some { s with capturer := .reading [] 4096, writable := false }
      else none
    | _ => none
  | .read n =>
    match s.capturer with
    | .reading buffer capacity =>
      if 0 < n ∧ n ≤ s.pipe.length ∧ n ≤ capacity - buffer.length - 1 then
        some { s with
          capturer := .reading (buffer ++ s.pipe.take n) (grow (buffer ++ s.pipe.take n) capacity)
          pipe := s.pipe.drop n }
      else none
    | _ => none
  | .eof =>
    match s.capturer with
    | .reading buffer _ =>
      if s.pipe = [] ∧ s.writable = false then some { s with capturer := .returned buffer }
      else none
    | _ => none

/-- The command is blocked in `write`, and the capturing thread waits for the command. -/
def State.Deadlock (size : Nat) (s : State α) : Prop :=
  (s.capturer = .joining ∨ s.capturer = .waiting) ∧
    ∃ left, s.command = .writing left ∧ left ≠ [] ∧ s.pipe.length = size

/-- Every run ends, and returns the output. -/
def Completes (output : List α) (size : Nat) : Prop :=
  (∀ labels s, Transition.run (step output size) State.initial labels = some s →
      ¬ s.Deadlock size) ∧
    Transition.Ends (step output size) (State.initial : State α)
      fun s => s.capturer = .returned output

section

variable {output : List α} {size : Nat}

def Capturer.rank (n : Nat) : Capturer α → Nat
  | .forked => n + 4
  | .joining => n + 3
  | .waiting => n + 2
  | .reading buffer _ => (n - buffer.length) + 1
  | .returned _ => 0

def Command.rank (n : Nat) : Command α → Nat
  | .absent => n + 5
  | .created => n + 4
  | .writing left => left.length + 3
  | .closed => 2
  | .released => 1
  | .ended => 0

/-- The states that a capture goes through. -/
inductive Inv (output : List α) : State α → Prop
  | forked : Inv output State.initial
  | created : Inv output ⟨.joining, .created, [], true, .pending⟩
  | writing {pipe left : List α} : pipe ++ left = output →
      Inv output ⟨.joining, .writing left, pipe, true, .running⟩
  | closed : Inv output ⟨.joining, .closed, output, false, .running⟩
  | released : Inv output ⟨.joining, .released, output, false, .free⟩
  | ended : Inv output ⟨.joining, .ended, output, false, .free⟩
  | waiting : Inv output ⟨.waiting, .ended, output, false, .free⟩
  | reading {buffer pipe : List α} {capacity : Nat} : buffer ++ pipe = output →
      buffer.length + 1 < capacity →
        Inv output ⟨.reading buffer capacity, .ended, pipe, false, .free⟩
  | returned : Inv output ⟨.returned output, .ended, [], false, .free⟩

theorem lt_grow {buffer : List α} {capacity : Nat} (hpos : 1 < capacity)
    (h : buffer.length ≤ capacity - 1) : buffer.length + 1 < grow buffer capacity := by
  unfold grow
  split <;> omega

open CaptureThreads.Command

theorem Inv.step {s s' : State α} {l : Label} (h : Inv output s)
    (hs : step output size s l = some s') :
    Inv output s' ∧ s'.capturer.rank output.length + s'.command.rank output.length
      < s.capturer.rank output.length + s.command.rank output.length := by
  cases h with
  | forked =>
    cases l <;> cases hs
    refine ⟨.created, ?_⟩
    simp only [Capturer.rank, rank, State.initial]
    omega
  | created =>
    cases l <;> cases hs
    exact ⟨.writing (nil_append _), by simp [rank]⟩
  | @writing pipe left hsplit =>
    cases l with
    | write n =>
      simp only [CaptureThreads.step] at hs
      split at hs <;> cases hs
      next hn =>
      refine ⟨.writing ?_, ?_⟩
      · rw [append_assoc, take_append_drop, hsplit]
      · simp only [rank, length_drop]
        omega
    | close =>
      cases left with
      | cons b left => cases hs
      | nil =>
        cases hs
        rw [append_nil] at hsplit
        subst hsplit
        exact ⟨.closed, by simp [rank]⟩
    | _ => cases hs
  | closed =>
    cases l <;> cases hs
    exact ⟨.released, by simp [rank]⟩
  | released =>
    cases l <;> cases hs
    exact ⟨.ended, by simp [rank]⟩
  | ended =>
    cases l <;> cases hs
    exact ⟨.waiting, by simp [Capturer.rank]⟩
  | waiting =>
    cases l <;> cases hs
    exact ⟨.reading (nil_append _) (by simp), by simp [Capturer.rank]⟩
  | @reading buffer pipe capacity hsplit hcap =>
    cases l with
    | read n =>
      simp only [CaptureThreads.step] at hs
      split at hs <;> cases hs
      next hn =>
      have hlen : (buffer ++ pipe.take n).length = buffer.length + n := by
        rw [length_append, length_take]
        omega
      have hout := congrArg length hsplit
      rw [length_append] at hout
      refine ⟨.reading ?_ (lt_grow (by omega) (by omega)), ?_⟩
      · rw [append_assoc, take_append_drop, hsplit]
      · simp only [Capturer.rank]
        omega
    | eof =>
      simp only [CaptureThreads.step] at hs
      split at hs <;> cases hs
      next hempty =>
      rw [hempty.1, append_nil] at hsplit
      subst hsplit
      rw [hempty.1]
      exact ⟨.returned, by simp [Capturer.rank]⟩
    | _ => cases hs
  | returned => cases l <;> cases hs

variable {s : State α}

theorem Inv.of_run {labels : List Label}
    (hr : Transition.run (CaptureThreads.step output size) State.initial labels = some s) :
    Inv output s :=
  run_induction (fun _ => Inv output) .forked (fun _ _ _ _ h hs => (h.step hs).1) hr

theorem Inv.not_deadlock (h : Inv output s) (hfits : output.length ≤ size) : ¬ s.Deadlock size := by
  rintro ⟨-, left, hcommand, hleft, hfull⟩
  cases h with
  | writing hsplit =>
    cases hcommand
    have hlen := congrArg length hsplit
    rw [length_append, hfull] at hlen
    have hpos := length_pos_of_ne_nil hleft
    omega
  | _ => cases hcommand

theorem Inv.progress (h : Inv output s) (hfits : output.length ≤ size)
    (hnot : s.capturer ≠ .returned output) :
    ∃ l s', CaptureThreads.step output size s l = some s' := by
  cases h with
  | forked => exact ⟨.create, _, rfl⟩
  | created => exact ⟨.start, _, rfl⟩
  | @writing pipe left hsplit =>
    cases left with
    | nil => exact ⟨.close, _, rfl⟩
    | cons b left =>
      have hlen := congrArg length hsplit
      rw [length_append, length_cons] at hlen
      refine ⟨.write 1, _, if_pos ⟨Nat.one_pos, ?_, ?_⟩⟩
      · rw [length_cons]
        omega
      · show pipe.length + 1 ≤ size
        omega
  | closed => exact ⟨.release, _, rfl⟩
  | released => exact ⟨.exit, _, rfl⟩
  | ended => exact ⟨.join, _, rfl⟩
  | waiting => exact ⟨.waitpid, _, rfl⟩
  | @reading buffer pipe capacity hsplit hcap =>
    cases pipe with
    | nil => exact ⟨.eof, _, rfl⟩
    | cons b pipe =>
      refine ⟨.read 1, _, if_pos ⟨Nat.one_pos, ?_, ?_⟩⟩
      · rw [length_cons]
        omega
      · omega
  | returned => exact absurd rfl hnot

theorem exists_deadlock (hmore : size < output.length) :
    ∃ labels s, Transition.run (CaptureThreads.step output size) State.initial labels = some s ∧
      s.Deadlock size := by
  have hne : output.drop size ≠ [] := by
    rw [Ne, drop_eq_nil_iff]
    omega
  cases size with
  | zero => exact ⟨[.create, .start], _, rfl, Or.inl rfl, _, rfl, hne, rfl⟩
  | succ n =>
    have hwrite : CaptureThreads.step output (n + 1)
        ⟨.joining, .writing output, [], true, .running⟩ (.write (n + 1))
        = some ⟨.joining, .writing (output.drop (n + 1)), output.take (n + 1), true, .running⟩ := by
      refine if_pos ⟨Nat.succ_pos n, by omega, ?_⟩
      simp
    refine ⟨[.create, .start, .write (n + 1)],
      ⟨.joining, .writing (output.drop (n + 1)), output.take (n + 1), true, .running⟩, ?_,
      Or.inl rfl, _, rfl, hne, ?_⟩
    · show run (CaptureThreads.step output (n + 1))
        ⟨.joining, .writing output, [], true, .running⟩ [.write (n + 1)] = _
      rw [run, hwrite]
      rfl
    · rw [length_take]
      omega

theorem Completes.fits (h : Completes output size) : output.length ≤ size := by
  by_contra hmore
  obtain ⟨labels, s, hr, hdead⟩ := exists_deadlock (Nat.lt_of_not_le hmore)
  exact h.1 labels s hr hdead

theorem Completes.of_fits (hfits : output.length ≤ size) : Completes output size := by
  refine ⟨fun labels s hr => (Inv.of_run hr).not_deadlock hfits, ?_⟩
  exact Transition.Ends.of_rank
    (fun s => s.capturer.rank output.length + s.command.rank output.length) Inv.forked
    (fun _ _ _ h hs => h.step hs) (fun _ h hnot => h.progress hfits hnot)

end

/--
A substitution does not deadlock if and only if all that the command writes fits into the pipe.

Then every run ends with `capture_command_output` having read the whole output. Otherwise some run
ends with the command blocked in `write` and the capturing thread in `pthread_join`.
-/
theorem capture_completes_iff (output : List α) (size : Nat) :
    Completes output size ↔ output.length ≤ size :=
  ⟨Completes.fits, Completes.of_fits⟩

/-- Two bytes into a pipe that holds one. -/
theorem capture_deadlock :
    ∃ s : State Char, Transition.run (step ['a', 'b'] 1) State.initial [.create, .start, .write 1]
        = some s ∧ s.Deadlock 1 ∧ ∀ l, step ['a', 'b'] 1 s l = none := by
  refine ⟨_, rfl, ⟨Or.inl rfl, _, rfl, by simp, rfl⟩, ?_⟩
  intro l
  cases l with
  | write n =>
    refine if_neg ?_
    rintro ⟨hpos, -, hroom⟩
    change 1 + n ≤ 1 at hroom
    omega
  | _ => rfl

end IosSystem.Shell.CaptureThreads
