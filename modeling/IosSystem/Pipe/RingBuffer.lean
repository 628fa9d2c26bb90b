import IosSystem.Lib.Ring

/-!
# The ring buffer of a buffered pipe

`ring_buffer_available`, `ring_buffer_space`, `ring_buffer_write` and `ring_buffer_read` of
`ios_buffered_pipe.c`. The caller holds the pipe's mutex, so each of them runs alone. One cell
always stays free, since `head = tail` means empty.
-/

namespace IosSystem.Pipe

open Ring List

/-- The buffer part of `struct _ios_buffered_pipe`. -/
structure RingBuffer where
  buffer : Nat → UInt8
  capacity : Nat
  head : Nat
  tail : Nat
  head_lt : head < capacity
  tail_lt : tail < capacity

namespace RingBuffer

/-- The buffer that `ios_pipe_create` sets up over the block `buffer` that `malloc` returned. -/
def create (buffer : Nat → UInt8) (capacity : Nat) (h : 0 < capacity) : RingBuffer :=
  { buffer := buffer, capacity := capacity, head := 0, tail := 0, head_lt := h, tail_lt := h }

theorem capacity_pos (r : RingBuffer) : 0 < r.capacity :=
  Nat.lt_of_le_of_lt (Nat.zero_le _) r.head_lt

/-- Store the new block and move the write position on by `n`. -/
def advanceTail (r : RingBuffer) (buffer : Nat → UInt8) (n : Nat) : RingBuffer :=
  { r with
    buffer := buffer
    tail := (r.tail + n) % r.capacity
    tail_lt := Nat.mod_lt _ r.capacity_pos }

/-- Move the read position on by `n`. -/
def advanceHead (r : RingBuffer) (n : Nat) : RingBuffer :=
  { r with
    head := (r.head + n) % r.capacity
    head_lt := Nat.mod_lt _ r.capacity_pos }

end RingBuffer

/-- `ring_buffer_available` -/
def ringBufferAvailable (r : RingBuffer) : Nat :=
  if r.head ≤ r.tail then r.tail - r.head else (r.capacity - r.head) + r.tail

/-- `ring_buffer_space` -/
def ringBufferSpace (r : RingBuffer) : Nat :=
  r.capacity - ringBufferAvailable r - 1

/-- Write as much of `data` as fits, in two parts if it wraps around. -/
def ringBufferWrite (r : RingBuffer) (data : List UInt8) : Nat × RingBuffer :=
  let space := ringBufferSpace r
  let toWrite := if data.length < space then data.length else space
  if toWrite = 0 then (0, r)
  else
    let firstPart := if r.capacity - r.tail > toWrite then toWrite else r.capacity - r.tail
    let buffer := memcpy r.buffer r.tail (data.take firstPart)
    let buffer :=
      if toWrite > firstPart then memcpy buffer 0 ((data.drop firstPart).take (toWrite - firstPart))
      else buffer
    (toWrite, r.advanceTail buffer toWrite)

/-- The straight run of `n` cells that one `memcpy` out of the buffer reads. -/
def cells (buffer : Nat → UInt8) (start n : Nat) : List UInt8 :=
  (List.range n).map fun i => buffer (start + i)

/-- Read at most `size` bytes, in two parts if the data wraps around. -/
def ringBufferRead (r : RingBuffer) (size : Nat) : List UInt8 × RingBuffer :=
  let available := ringBufferAvailable r
  let toRead := if size < available then size else available
  if toRead = 0 then ([], r)
  else
    let firstPart := if r.capacity - r.head > toRead then toRead else r.capacity - r.head
    let dest := cells r.buffer r.head firstPart
    let dest := if toRead > firstPart then dest ++ cells r.buffer 0 (toRead - firstPart) else dest
    (dest, r.advanceHead toRead)

/-- The bytes from `head` to `tail`. -/
def contents (r : RingBuffer) : List UInt8 :=
  window r.buffer r.capacity r.head (ringBufferAvailable r)

@[simp] theorem length_contents (r : RingBuffer) : (contents r).length = ringBufferAvailable r :=
  length_window ..

@[simp] theorem contents_create (buffer : Nat → UInt8) (c : Nat) (h : 0 < c) :
    contents (RingBuffer.create buffer c h) = [] := by
  simp [contents, ringBufferAvailable, RingBuffer.create]

theorem available_add_space (r : RingBuffer) :
    ringBufferAvailable r + ringBufferSpace r + 1 = r.capacity := by
  have h2 := r.tail_lt
  unfold ringBufferSpace ringBufferAvailable
  split <;> omega

theorem tail_eq (r : RingBuffer) : r.tail = (r.head + ringBufferAvailable r) % r.capacity := by
  have h1 := r.head_lt
  have h2 := r.tail_lt
  have h3 := available_add_space r
  rw [wrap_eq h1 (by omega)]
  unfold ringBufferAvailable
  split
  · rw [if_pos (by omega)]; omega
  · rw [if_neg (by omega)]; omega

variable {r : RingBuffer} {n : Nat}

theorem available_of_tail (hn : n < r.capacity)
    (h : r.tail = (r.head + n) % r.capacity) : ringBufferAvailable r = n := by
  have h1 := r.head_lt
  rw [wrap_eq h1 (by omega)] at h
  unfold ringBufferAvailable
  split at h <;> split <;> omega

section

variable (r : RingBuffer) (data : List UInt8)

/--
`ringBufferWrite` without its branches: `n` bytes are written, the first `k` of them before the
end of the block. The second copy may be made unconditionally, since it is empty when nothing
wraps around.
-/
theorem write_eq {k : Nat} (hn : n = min data.length (ringBufferSpace r))
    (hk : k = min (r.capacity - r.tail) n) :
    ringBufferWrite r data = if n = 0 then (0, r) else (n, r.advanceTail
        (memcpy (memcpy r.buffer r.tail ((data.take n).take k)) 0 ((data.take n).drop k)) n) := by
  have hto : (if data.length < ringBufferSpace r then data.length else ringBufferSpace r) = n := by
    split <;> omega
  have hfirst : (if r.capacity - r.tail > n then n else r.capacity - r.tail) = k := by
    split <;> omega
  unfold ringBufferWrite
  dsimp only
  rw [hto, hfirst, take_take, drop_take, show min k n = k by omega]
  congr 3
  split
  · rfl
  · rw [show n - k = 0 by omega]
    funext i
    simp [memcpy]

theorem write_count : (ringBufferWrite r data).1 = min data.length (ringBufferSpace r) := by
  rw [write_eq r data rfl rfl]
  split
  · omega
  · rfl

theorem contents_write :
    contents (ringBufferWrite r data).2
      = contents r ++ data.take (ringBufferWrite r data).1 := by
  have hspace := available_add_space r
  obtain ⟨n, hn⟩ : ∃ n, n = min data.length (ringBufferSpace r) := ⟨_, rfl⟩
  have hlen : (data.take n).length = n := by rw [length_take]; omega
  rw [write_eq r data hn rfl]
  by_cases hz : n = 0
  · simp [hz]
  · rw [if_neg hz]
    have havail : ∀ buf, ringBufferAvailable (r.advanceTail buf n) = ringBufferAvailable r + n := by
      intro buf
      apply available_of_tail
      · show ringBufferAvailable r + n < r.capacity
        omega
      · show (r.tail + n) % r.capacity = (r.head + (ringBufferAvailable r + n)) % r.capacity
        rw [tail_eq r, Nat.mod_add_mod, Nat.add_assoc]
    have hstore := @window_store _ r.capacity r.head (ringBufferAvailable r) r.buffer _
      (data.take n)
      r.head_lt (by omega) rfl
    rw [hlen, ← tail_eq r] at hstore
    show window _ r.capacity r.head (ringBufferAvailable (r.advanceTail _ n)) = _
    rw [havail]
    exact hstore

@[simp] theorem write_capacity : (ringBufferWrite r data).2.capacity = r.capacity := by
  rw [write_eq r data rfl rfl]
  split <;> rfl

theorem space_write :
    ringBufferSpace (ringBufferWrite r data).2 = ringBufferSpace r -
    (ringBufferWrite r data).1 := by
  have hlen := congrArg length (contents_write r data)
  rw [length_append, length_take, length_contents, length_contents] at hlen
  have hcount := write_count r data
  have h := available_add_space r
  have h' := available_add_space (ringBufferWrite r data).2
  rw [write_capacity] at h'
  omega

end

theorem cells_eq_window {start : Nat} (h : start + n ≤ r.capacity) :
    cells r.buffer start n = window r.buffer r.capacity start n :=
  (window_straight h).symm

theorem read_eq (r : RingBuffer) (size : Nat) (hn : n = min size (ringBufferAvailable r)) :
    ringBufferRead r size = if n = 0 then ([], r) else
      (window r.buffer r.capacity r.head n, r.advanceHead n) := by
  have hh := r.head_lt
  have hspace := available_add_space r
  have hto : (if size < ringBufferAvailable r then size else ringBufferAvailable r) = n := by
    split <;> omega
  unfold ringBufferRead
  dsimp only
  rw [hto]
  congr 2
  by_cases hw : r.capacity - r.head > n
  · rw [if_pos hw, if_neg (by omega)]
    exact cells_eq_window (by omega)
  · rw [if_neg hw]
    rw [cells_eq_window (show r.head + (r.capacity - r.head) ≤ r.capacity by omega),
      cells_eq_window (show 0 + (n - (r.capacity - r.head)) ≤ r.capacity by omega)]
    have hsum : n = (r.capacity - r.head) + (n - (r.capacity - r.head)) := by omega
    have hz : (r.head + (r.capacity - r.head)) % r.capacity = 0 := by
      rw [show r.head + (r.capacity - r.head) = r.capacity by omega, Nat.mod_self]
    conv_rhs => rw [hsum, window_add, hz]
    split
    · rfl
    · rw [show n - (r.capacity - r.head) = 0 by omega]
      simp

theorem contents_split (h : n ≤ ringBufferAvailable r) :
    contents r = window r.buffer r.capacity r.head n
      ++ window r.buffer r.capacity ((r.head + n) % r.capacity) (ringBufferAvailable r - n) := by
  unfold contents
  rw [← window_add, show n + (ringBufferAvailable r - n) = ringBufferAvailable r by omega]

section

variable (r : RingBuffer) (size : Nat)

theorem read_bytes :
    (ringBufferRead r size).1 = (contents r).take (min size (ringBufferAvailable r)) := by
  rw [read_eq r size rfl, contents_split (Nat.min_le_right size _), take_left' (by simp)]
  split
  · next hz => rw [hz]; rfl
  · rfl

theorem contents_read :
    contents (ringBufferRead r size).2 = (contents r).drop (min size (ringBufferAvailable r)) := by
  have hspace := available_add_space r
  obtain ⟨n, hn⟩ : ∃ n, n = min size (ringBufferAvailable r) := ⟨_, rfl⟩
  rw [← hn, read_eq r size hn]
  by_cases hz : n = 0
  · simp [hz]
  · rw [if_neg hz]
    have havail : ringBufferAvailable (r.advanceHead n) = ringBufferAvailable r - n := by
      apply available_of_tail
      · show ringBufferAvailable r - n < r.capacity
        omega
      · show r.tail = ((r.head + n) % r.capacity + (ringBufferAvailable r - n)) % r.capacity
        rw [Nat.mod_add_mod, tail_eq r]
        congr 1
        omega
    rw [contents_split (show n ≤ ringBufferAvailable r by omega), drop_left' (by simp)]
    unfold contents
    rw [havail]
    rfl

theorem contents_eq_read :
    contents r = (ringBufferRead r size).1 ++ contents (ringBufferRead r size).2 := by
  rw [read_bytes, contents_read, take_append_drop]

end

theorem read_eq_nil_iff {size : Nat} (hs : 0 < size) :
    (ringBufferRead r size).1 = [] ↔ contents r = [] := by
  have hlen := length_contents r
  rw [read_bytes, take_eq_nil_iff]
  constructor
  · rintro (h | h)
    · exact eq_nil_of_length_eq_zero (by omega)
    · exact h
  · exact Or.inr

theorem read_of_empty {size : Nat} (h : contents r = []) : ringBufferRead r size = ([], r) := by
  have hlen := length_contents r
  rw [h, length_nil] at hlen
  rw [read_eq r size rfl, if_pos (by omega)]

end IosSystem.Pipe
