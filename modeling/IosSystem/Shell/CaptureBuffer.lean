import IosSystem.Lib.Ring
import IosSystem.Lib.Transition
import IosSystem.Shell.CaptureThreads
import Mathlib.Data.List.DropRight

/-!
# The buffer of `capture_command_output`

The loop that reads the output of a command from the pipe, and the removal of the newlines at its
end. `realloc` succeeds. A label is the number of bytes that `read` returns.
-/

namespace IosSystem.Shell.CaptureBuffer

open List Function Ring

/-- `buffer`, `capacity` and `total`. -/
structure Buffer where
  buffer : Nat → UInt8
  capacity : Nat
  total : Nat

/-- The block that `malloc` has returned. -/
def Buffer.start (buffer : Nat → UInt8) : Buffer := ⟨buffer, 4096, 0⟩

/-- The number of bytes that `read` is asked for. -/
def Buffer.request (b : Buffer) : Nat := b.capacity - b.total - 1

/-- `read` has stored the chunk: the body of the loop. -/
def Buffer.receive (b : Buffer) (chunk : List UInt8) : Buffer :=
  let total := b.total + chunk.length
  { buffer := memcpy b.buffer b.total chunk
    capacity := if b.capacity - 1 ≤ total then b.capacity * 2 else b.capacity
    total := total }

def Buffer.bytes (b : Buffer) : List UInt8 := (range b.total).map b.buffer

structure State where
  out : Buffer
  rest : List UInt8

/-- `read` returns `n` bytes. -/
def step (s : State) (n : Nat) : Option State :=
  if 1 ≤ n ∧ n ≤ s.out.request ∧ n ≤ s.rest.length then
    some ⟨s.out.receive (s.rest.take n), s.rest.drop n⟩
  else none

def Reachable (buffer : Nat → UInt8) (stream : List UInt8) (s : State) : Prop :=
  Transition.Reachable step (fun _ _ => True) (· = ⟨.start buffer, stream⟩) s

/-- `read` returns 0: there is nothing left, or nothing was asked for. -/
def State.AtEnd (s : State) : Prop := s.rest = [] ∨ s.out.request = 0

def isNewline (c : UInt8) : Bool := c = 10 ∨ c = 13

/-- The loop that strips newlines, from `total` down. -/
def strip (buffer : Nat → UInt8) : Nat → (Nat → UInt8) × Nat
  | 0 => (buffer, 0)
  | total + 1 =>
    if isNewline (buffer total) then strip (update buffer total 0) total else (buffer, total + 1)

/-- The 0 is stored, and the newlines before it are removed. -/
def Buffer.finish (b : Buffer) : (Nat → UInt8) × Nat := strip (update b.buffer b.total 0) b.total

theorem bytes_receive (b : Buffer) (chunk : List UInt8) :
    (b.receive chunk).bytes = b.bytes ++ chunk := by
  simp only [Buffer.bytes, Buffer.receive, range_add, map_append, map_map]
  congr 1
  · refine map_congr_left fun i hi => ?_
    rw [memcpy_of_lt (mem_range.mp hi)]
  · refine ext_getElem (by simp) fun i hi _ => ?_
    rw [length_map, length_range] at hi
    simp [memcpy_inside hi]

theorem length_bytes (b : Buffer) : b.bytes.length = b.total := by simp [Buffer.bytes]

/-- The loop in the model with the threads is the same one, without the block in memory. -/
theorem read_eq_step (output : List UInt8) (size n : Nat) (s : State)
    {t : CaptureThreads.State UInt8} (hloop : t.capturer = .reading s.out.bytes s.out.capacity)
    (hpipe : t.pipe = s.rest) :
    CaptureThreads.step output size t (.read n) = (step s n).map fun s' =>
      { t with capturer := .reading s'.out.bytes s'.out.capacity, pipe := s'.rest } := by
  simp only [CaptureThreads.step, hloop, hpipe, step, length_bytes]
  by_cases hn : 1 ≤ n ∧ n ≤ s.out.request ∧ n ≤ s.rest.length
  · rw [if_pos ⟨hn.1, hn.2.2, hn.2.1⟩, if_pos hn, Option.map_some, bytes_receive]
    simp [CaptureThreads.grow, Buffer.receive, length_bytes]
  · rw [if_neg hn, if_neg fun h => hn ⟨h.1, h.2.2, h.2.1⟩, Option.map_none]

/-- There is room for the 0, and no byte is lost. -/
structure Inv (stream : List UInt8) (s : State) : Prop where
  room : s.out.total + 1 < s.out.capacity
  bytes : s.out.bytes ++ s.rest = stream

variable {stream : List UInt8}

theorem Inv.step {s s' : State} {n : Nat} (h : Inv stream s) (hs : step s n = some s') :
    Inv stream s' ∧ s'.rest.length < s.rest.length := by
  unfold CaptureBuffer.step at hs
  split at hs
  · next hn =>
    cases hs
    obtain ⟨hpos, hrequest, hleft⟩ := hn
    have hroom := h.room
    have hlen : (s.rest.take n).length = n := length_take_of_le hleft
    rw [Buffer.request] at hrequest
    refine ⟨⟨?_, ?_⟩, ?_⟩
    · simp only [Buffer.receive, hlen]
      split <;> omega
    · rw [bytes_receive, append_assoc, take_append_drop]
      exact h.bytes
    · rw [length_drop]
      omega
  · cases hs

variable {buffer : Nat → UInt8}

theorem inv_reachable {s : State} (h : Reachable buffer stream s) : Inv stream s := by
  refine Transition.Reachable.invariant ?_ (fun _ _ _ hinv _ hs => (hinv.step hs).1) h
  rintro s rfl
  exact ⟨show 0 + 1 < 4096 by decide, rfl⟩

theorem strip_spec {total : Nat} (h : buffer total = 0) :
    (range (strip buffer total).2).map (strip buffer total).1
        = ((range total).map buffer).rdropWhile isNewline ∧
      (strip buffer total).1 (strip buffer total).2 = 0 ∧ (strip buffer total).2 ≤ total := by
  induction total generalizing buffer with
  | zero => exact ⟨rfl, h, Nat.le_refl 0⟩
  | succ total ih =>
    rw [strip, range_succ, map_append, map_singleton]
    split
    · next hnewline =>
      obtain ⟨hbytes, hzero, hle⟩ := ih (update_self total 0 buffer)
      rw [rdropWhile_concat_pos _ _ _ hnewline]
      refine ⟨hbytes.trans ?_, hzero, Nat.le_succ_of_le hle⟩
      congr 1
      exact map_congr_left fun i hi => update_of_ne (Nat.ne_of_lt (mem_range.mp hi)) ..
    · next hother =>
      rw [rdropWhile_concat_neg _ _ _ hother, range_succ, map_append]
      exact ⟨rfl, h, Nat.le_refl _⟩

theorem finish_spec (b : Buffer) :
    (range b.finish.2).map b.finish.1 = b.bytes.rdropWhile isNewline ∧
      b.finish.1 b.finish.2 = 0 ∧ b.finish.2 ≤ b.total := by
  have h := strip_spec (update_self b.total 0 b.buffer)
  have hbytes : (range b.total).map (update b.buffer b.total 0) = b.bytes :=
    map_congr_left fun i hi => update_of_ne (Nat.ne_of_lt (mem_range.mp hi)) ..
  rw [hbytes] at h
  exact h

/-- Whatever sizes `read` chooses: every request is for at least one byte and stays below the
capacity, and the loop ends with the whole stream in the buffer, of which the newlines at the end
are stripped. -/
theorem captures_everything (buffer : Nat → UInt8) (stream : List UInt8) {s : State}
    (h : Reachable buffer stream s) :
    1 ≤ s.out.request ∧ s.out.total + s.out.request < s.out.capacity ∧
      (∀ n s', step s n = some s' → s'.rest.length < s.rest.length) ∧
      (s.AtEnd → s.out.total = stream.length ∧ s.out.bytes = stream ∧
        (range s.out.finish.2).map s.out.finish.1 = stream.rdropWhile isNewline ∧
        s.out.finish.1 s.out.finish.2 = 0 ∧ s.out.finish.2 < s.out.capacity) := by
  have hinv := inv_reachable h
  have hroom := hinv.room
  have hrequest : s.out.request = s.out.capacity - s.out.total - 1 := rfl
  refine ⟨by omega, by omega, fun n s' hs => (hinv.step hs).2, fun hend => ?_⟩
  have hempty : s.rest = [] := hend.resolve_right (by omega)
  have hbytes := hinv.bytes
  rw [hempty, append_nil] at hbytes
  obtain ⟨hstrip, hzero, hle⟩ := finish_spec s.out
  refine ⟨?_, hbytes, by rw [hstrip, hbytes], hzero, by omega⟩
  rw [← hbytes, Buffer.bytes, length_map, length_range]

/-- The output of `echo a`, in two reads. -/
theorem captures_line : ∃ s, Reachable (fun _ => 0) [97, 10] s ∧
    (range s.out.finish.2).map s.out.finish.1 = [97] := by
  have hstart : Reachable (fun _ => 0) [97, 10] ⟨.start fun _ => 0, [97, 10]⟩ := .start rfl
  have hlast := (hstart.next (a := 1) trivial rfl).next (a := 1) trivial rfl
  exact ⟨_, hlast, ((captures_everything _ _ hlast).2.2.2 (.inl rfl)).2.2.1⟩

end IosSystem.Shell.CaptureBuffer
