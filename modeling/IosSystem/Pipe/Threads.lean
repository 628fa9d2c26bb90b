import IosSystem.Lib.Transition
import IosSystem.Pipe.RingBuffer

/-!
# One writer, one reader and the closers of a buffered pipe

`ios_pipe_write_timeout`, `ios_pipe_read_timeout`, `ios_pipe_close_write` and
`ios_pipe_close_read` of `ios_buffered_pipe.c`, cut where another thread can run in between.

* The tests of `write_closed` and `read_closed` at the entry of a call are single atomic loads
  outside the mutex.
* From the moment a call has the mutex until it returns or sleeps it runs one iteration of its loop.
  With `timeout_ms == 0` the wait returns `ETIMEDOUT` at once, in the same section.
* A sleeping call goes on after a signal, after a spurious wake-up or, with a positive time-out,
  by timing out.
* A close is an atomic store and, later, a broadcast under the mutex.

`appended` and `delivered` are ghost fields: every byte that entered the ring, and every byte that a
read returned.
-/

namespace IosSystem.Pipe

/-- `struct _ios_buffered_pipe`, without the mutex and the condition variables. -/
structure BufferedPipe where
  ring : RingBuffer
  writeClosed : Bool
  readClosed : Bool
  totalWritten : Nat
  totalRead : Nat
  writerWaits : Nat
  readerWaits : Nat

/-- `ios_pipe_create` with `buffer_size = capacity`. -/
def create (buffer : Nat → UInt8) (capacity : Nat) (h : 0 < capacity) : BufferedPipe :=
  { ring := RingBuffer.create buffer capacity h
    writeClosed := false, readClosed := false
    totalWritten := 0, totalRead := 0, writerWaits := 0, readerWaits := 0 }

inductive Outcome where
  | returns (ret : Int)
  | waits
  deriving DecidableEq

/-- The value of `total > 0 ? (ssize_t)total : -1`. -/
def progressOr (total : Nat) : Int := if total > 0 then total else -1

/-- What a section of `ios_pipe_write_timeout` leaves behind. -/
structure WriteResult where
  pipe : BufferedPipe
  total : Nat
  signals : Bool
  outcome : Outcome

/-- The body of the `while (total_written < size)` loop, with the test in front of it. -/
def writeIteration (p : BufferedPipe) (data : List UInt8) (timeoutMs : Int) (total : Nat) :
    WriteResult :=
  if data.length ≤ total then
    { pipe := p, total := total, signals := false, outcome := .returns total }
  else if p.readClosed then
    { pipe := p, total := total, signals := false, outcome := .returns (progressOr total) }
  else
    let w := ringBufferWrite p.ring (data.drop total)
    let p1 := { p with ring := w.2, totalWritten := p.totalWritten + w.1 }
    if 0 < w.1 ∧ data.length ≤ total + w.1 then
      { pipe := p1, total := total + w.1, signals := true
        outcome := .returns ((total + w.1 : Nat) : Int) }
    else
      { pipe := { p1 with writerWaits := p1.writerWaits + 1 }
        total := total + w.1
        signals := decide (0 < w.1)
        outcome := if timeoutMs = 0 then .returns (progressOr (total + w.1)) else .waits }

/-- What a section of `ios_pipe_read_timeout` leaves behind. -/
structure ReadResult where
  pipe : BufferedPipe
  bytes : List UInt8
  signals : Bool
  outcome : Outcome

/--
The body of the `while (total_read < size)` loop, with the test in front of it.

`total_read` is 0 at the start of every iteration: an iteration that reads something leaves the
loop.
-/
def readIteration (p : BufferedPipe) (size : Nat) (timeoutMs : Int) : ReadResult :=
  if size = 0 then { pipe := p, bytes := [], signals := false, outcome := .returns 0 }
  else
    let r := ringBufferRead p.ring size
    let p1 := { p with ring := r.2, totalRead := p.totalRead + r.1.length }
    if 0 < r.1.length then
      { pipe := p1, bytes := r.1, signals := true, outcome := .returns r.1.length }
    else if p.writeClosed then
      { pipe := p1, bytes := r.1, signals := false, outcome := .returns 0 }
    else
      { pipe := { p1 with readerWaits := p1.readerWaits + 1 }
        bytes := r.1
        signals := false
        outcome := if timeoutMs = 0 then .returns (progressOr 0) else .waits }

/-- The arguments of a write call. `before` is what had been appended when it started (ghost). -/
structure WriteCall where
  data : List UInt8
  timeoutMs : Int
  before : List UInt8

structure ReadCall where
  size : Nat
  timeoutMs : Int

/-- Where the writer is in `ios_pipe_write_timeout`. -/
inductive Writer where
  | idle
  /-- past the test of `write_closed` -/
  | checkRead (call : WriteCall)
  | enter (call : WriteCall)
  /-- asleep on `space_available` -/
  | waiting (call : WriteCall) (total : Nat) (signalled : Bool)

/-- Where the reader is in `ios_pipe_read_timeout`. -/
inductive Reader where
  | idle
  | enter (call : ReadCall)
  /-- asleep on `data_available` -/
  | waiting (call : ReadCall) (signalled : Bool)

/-- A write call that has returned. `after` is what had been appended by then. -/
structure WriteDone where
  data : List UInt8
  ret : Int
  before : List UInt8
  after : List UInt8

/-- A read that has returned. -/
structure ReadDone where
  size : Nat
  ret : Int
  bytes : List UInt8
  readClosed : Bool
  appended : List UInt8
  delivered : List UInt8

/-- The pipe, its two threads, and what they have written and read. -/
structure State where
  pipe : BufferedPipe
  writer : Writer
  reader : Reader
  /-- calls of `ios_pipe_close_write` between their store and their broadcast -/
  closingWrite : Nat
  closingRead : Nat
  appended : List UInt8
  delivered : List UInt8
  writes : List WriteDone
  reads : List ReadDone

def State.initial (buffer : Nat → UInt8) (capacity : Nat) (h : 0 < capacity) : State :=
  { pipe := create buffer capacity h
    writer := .idle, reader := .idle, closingWrite := 0, closingRead := 0
    appended := [], delivered := [], writes := [], reads := [] }

/-- `pthread_cond_signal` or `pthread_cond_broadcast` on `data_available`. -/
def Reader.signal : Reader → Reader
  | .waiting call _ => .waiting call true
  | r => r

/-- `pthread_cond_signal` or `pthread_cond_broadcast` on `space_available`. -/
def Writer.signal : Writer → Writer
  | .waiting call total _ => .waiting call total true
  | w => w

/-- The write call returns `ret`. -/
def State.finishWrite (s : State) (data before : List UInt8) (ret : Int) : State :=
  { s with
    writer := .idle
    writes := s.writes ++ [{ data := data, ret := ret, before := before, after := s.appended }] }

/-- The read call returns `ret` and hands over `bytes`. -/
def State.finishRead (s : State) (size : Nat) (bytes : List UInt8) (ret : Int) : State :=
  { s with
    reader := .idle
    delivered := s.delivered ++ bytes
    reads := s.reads ++ [{
      size := size, ret := ret, bytes := bytes, readClosed := s.pipe.readClosed
      appended := s.appended, delivered := s.delivered ++ bytes }] }

/-- One iteration of `ios_pipe_write_timeout`, under the lock. -/
def State.writeSection (s : State) (call : WriteCall) (total : Nat) : State :=
  let r := writeIteration s.pipe call.data call.timeoutMs total
  let s1 := { s with
    pipe := r.pipe
    reader := if r.signals then s.reader.signal else s.reader
    appended := s.appended ++ (call.data.take r.total).drop total }
  match r.outcome with
  | .returns ret => s1.finishWrite call.data call.before ret
  | .waits => { s1 with writer := .waiting call r.total false }

/-- One iteration of `ios_pipe_read_timeout`, under the lock. -/
def State.readSection (s : State) (call : ReadCall) : State :=
  let r := readIteration s.pipe call.size call.timeoutMs
  let s1 := { s with
    pipe := r.pipe
    writer := if r.signals then s.writer.signal else s.writer }
  match r.outcome with
  | .returns ret => s1.finishRead call.size r.bytes ret
  | .waits => { s1 with reader := .waiting call false }

inductive Label where
  /-- call of `ios_pipe_write_timeout`; `none` is a null `data` -/
  | write (data : Option (List UInt8)) (timeoutMs : Int)
  | writeCheck
  | writeSection
  | writeTimeout
  /-- call of `ios_pipe_read_timeout`; `buffer = false` is a null `buffer` -/
  | read (buffer : Bool) (size : Nat) (timeoutMs : Int)
  | readSection
  | readTimeout
  | closeWrite
  | wakeReaders
  | closeRead
  | wakeWriters

def step (s : State) : Label → Option State
  | .write data timeoutMs =>
    match s.writer, data with
    | .idle, none => some (s.finishWrite [] s.appended (-1))
    | .idle, some data =>
      if s.pipe.writeClosed then some (s.finishWrite data s.appended (-1))
      else some { s with writer := .checkRead ⟨data, timeoutMs, s.appended⟩ }
    | _, _ => none
  | .writeCheck =>
    match s.writer with
    | .checkRead call =>
      -- the reader is gone: pretend success
      if s.pipe.readClosed then some (s.finishWrite call.data call.before 0)
      else some { s with writer := .enter call }
    | _ => none
  | .writeSection =>
    match s.writer with
    | .enter call => some (s.writeSection call 0)
    | .waiting call total _ => some (s.writeSection call total)
    | _ => none
  | .writeTimeout =>
    match s.writer with
    | .waiting call total _ =>
      if 0 < call.timeoutMs then some (s.finishWrite call.data call.before (progressOr total))
      else none
    | _ => none
  | .read buffer size timeoutMs =>
    match s.reader with
    | .idle =>
      if buffer = false then some (s.finishRead size [] (-1))
      else if s.pipe.readClosed then some (s.finishRead size [] 0)
      else some { s with reader := .enter ⟨size, timeoutMs⟩ }
    | _ => none
  | .readSection =>
    match s.reader with
    | .enter call => some (s.readSection call)
    | .waiting call _ => some (s.readSection call)
    | _ => none
  | .readTimeout =>
    match s.reader with
    | .waiting call _ =>
      if 0 < call.timeoutMs then some (s.finishRead call.size [] (progressOr 0)) else none
    | _ => none
  | .closeWrite =>
    some { s with
      pipe := { s.pipe with writeClosed := true }, closingWrite := s.closingWrite + 1 }
  | .wakeReaders =>
    if 0 < s.closingWrite then
      some { s with closingWrite := s.closingWrite - 1, reader := s.reader.signal }
    else none
  | .closeRead =>
    some { s with
      pipe := { s.pipe with readClosed := true }, closingRead := s.closingRead + 1 }
  | .wakeWriters =>
    if 0 < s.closingRead then
      some { s with closingRead := s.closingRead - 1, writer := s.writer.signal }
    else none

def Reachable (s : State) : Prop :=
  Transition.Reachable step (fun _ _ => True)
    (fun s => ∃ buffer capacity h, s = State.initial buffer capacity h) s

end IosSystem.Pipe
