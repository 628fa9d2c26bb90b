import IosSystem.Pipe.RingBuffer

/-!
# The ring buffer is a bounded queue

Any sequence of `ring_buffer_write` and `ring_buffer_read`, beside a list of at most
`capacity - 1` bytes.
-/

namespace IosSystem.Pipe.Queue

inductive Call where
  | write (data : List UInt8)
  | read (size : Nat)

inductive Answer where
  | written (n : Nat)
  | bytes (data : List UInt8)
  deriving DecidableEq

/-- A call of the ring buffer. -/
def ringCall (r : RingBuffer) : Call → Answer × RingBuffer
  | .write data => (.written (ringBufferWrite r data).1, (ringBufferWrite r data).2)
  | .read size => (.bytes (ringBufferRead r size).1, (ringBufferRead r size).2)

/-- The same call of a bounded queue. -/
def queueCall (capacity : Nat) (q : List UInt8) : Call → Answer × List UInt8
  | .write data =>
    let n := min data.length (capacity - 1 - q.length)
    (.written n, q ++ data.take n)
  | .read size =>
    let n := min size q.length
    (.bytes (q.take n), q.drop n)

def run {σ : Type} (call : σ → Call → Answer × σ) : σ → List Call → List Answer × σ
  | s, [] => ([], s)
  | s, c :: calls =>
    let rest := run call (call s c).2 calls
    ((call s c).1 :: rest.1, rest.2)

@[simp] theorem ringCall_capacity (r : RingBuffer) (c : Call) :
    (ringCall r c).2.capacity = r.capacity := by
  cases c with
  | write data => exact write_capacity r data
  | read size =>
    show (ringBufferRead r size).2.capacity = _
    rw [read_eq r size rfl]
    split <;> rfl

theorem ringCall_queueCall (r : RingBuffer) (c : Call) :
    queueCall r.capacity (contents r) c = ((ringCall r c).1, contents (ringCall r c).2) := by
  have hspace := available_add_space r
  have hfree : r.capacity - 1 - ringBufferAvailable r = ringBufferSpace r := by omega
  cases c with
  | write data =>
    simp only [queueCall, ringCall, length_contents, hfree, contents_write, write_count]
  | read size => simp only [queueCall, ringCall, length_contents, read_bytes, contents_read]

theorem run_ringCall (r : RingBuffer) (calls : List Call) :
    run (queueCall r.capacity) (contents r) calls
        = ((run ringCall r calls).1, contents (run ringCall r calls).2) ∧
      (run ringCall r calls).2.capacity = r.capacity := by
  induction calls generalizing r with
  | nil => exact ⟨rfl, rfl⟩
  | cons c calls ih =>
    have h := ih (ringCall r c).2
    rw [ringCall_capacity] at h
    refine ⟨?_, h.2⟩
    simp only [run, ringCall_queueCall, h.1]

/-- The positions, and the sums that `size_t` has to hold. -/
structure InRange (r : RingBuffer) (c : Nat) : Prop where
  head : r.head < c
  tail : r.tail < c
  /-- `ring_buffer_space` does not underflow -/
  space : ringBufferAvailable r + 1 ≤ c
  write : ∀ data, r.tail + (ringBufferWrite r data).1 < 2 * c
  read : ∀ size, r.head + (ringBufferRead r size).1.length < 2 * c

theorem inRange (r : RingBuffer) : InRange r r.capacity := by
  have hspace := available_add_space r
  have hhead := r.head_lt
  have htail := r.tail_lt
  refine ⟨hhead, htail, by omega, fun data => ?_, fun size => ?_⟩
  · rw [write_count]
    omega
  · rw [read_bytes, List.length_take]
    omega

/-- The ring buffer answers every sequence of calls like a queue of at most `c - 1` bytes, and holds
the bytes of that queue. -/
theorem ring_refines_queue (buffer : Nat → UInt8) (c : Nat) (hc : 0 < c) (calls : List Call) :
    (run ringCall (.create buffer c hc) calls).1 = (run (queueCall c) [] calls).1 ∧
      contents (run ringCall (.create buffer c hc) calls).2 = (run (queueCall c) [] calls).2 ∧
      (run (queueCall c) [] calls).2.length ≤ c - 1 ∧
      ringBufferAvailable (run ringCall (.create buffer c hc) calls).2
        = (run (queueCall c) [] calls).2.length ∧
      InRange (run ringCall (.create buffer c hc) calls).2 c := by
  obtain ⟨hrun, hcapacity⟩ := run_ringCall (.create buffer c hc) calls
  rw [contents_create] at hrun
  have hrange := inRange (run ringCall (.create buffer c hc) calls).2
  rw [hcapacity] at hrange
  have hlength := hrange.space
  change run (queueCall c) [] calls = _ at hrun
  rw [hrun, length_contents]
  exact ⟨rfl, rfl, Nat.le_sub_one_of_lt hlength, rfl, hrange⟩

/-- A buffer of two bytes, written beyond its end. -/
theorem ring_refines_queue_wrapped :
    (run ringCall (.create (fun _ => 0) 3 (by decide))
        [.write [1, 2, 3], .read 1, .write [4], .read 5]).1
      = [.written 2, .bytes [1], .written 1, .bytes [2, 4]] :=
  (ring_refines_queue _ 3 (by decide) _).1

end IosSystem.Pipe.Queue
