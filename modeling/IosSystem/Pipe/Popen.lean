import IosSystem.Pipe.EndOfFile

/-!
# `ios_popen` and its command

`ios_popen` gives one end of a new buffered pipe to a command, calls `ios_system`, and returns the
other end. With `joinMainThread` set, `ios_system` is in `pthread_join` until the command has ended,
and until then nobody has the other end. With type `r` the command writes, and ends if the ring has
space for all of it. With type `w` it reads up to the end of the file, which does not come.
-/

namespace IosSystem.Pipe.Popen

open List

def defaultBufferSize : Nat := 64 * 1024

def defaultTimeoutMs : Int := -1

/-- What the command does with its end of the pipe. -/
inductive Job where
  /-- type `r`: it writes, in these pieces -/
  | writes (chunks : List (List UInt8))
  /-- type `w`: it reads until `ios_pipe_read` returns 0 -/
  | readsToEof

/-- How far the command has come. -/
inductive Command where
  | absent
  | writing (chunks : List (List UInt8))
  | reading
  | returned
  /-- `cleanup_function` is about to broadcast, in the `fclose` of the stream -/
  | closing
  | ended

/-- Where `ios_popen` is. -/
inductive Caller where
  | starting
  /-- `ios_system` is in `pthread_join` -/
  | joining
  /-- the caller has got a stream, or `NULL` -/
  | returned (opened : Bool)

structure State where
  pipe : Pipe.State
  command : Command
  caller : Caller

inductive Label where
  /-- `ios_system` creates the thread of the command -/
  | create
  | pipe (l : Pipe.Label)
  | leave
  /-- `pthread_join` returns, and then `ios_popen` -/
  | join

def State.initial (buffer : Nat → UInt8) : State :=
  { pipe := Pipe.State.initial buffer defaultBufferSize (by decide)
    command := .absent
    caller := .starting }

def Job.start : Job → Command
  | .writes chunks => .writing chunks
  | .readsToEof => .reading

def atEof (p : Pipe.State) : Bool := (p.reads.getLast?.map ReadDone.ret) == some 0

def nextWrite (chunks : List (List UInt8)) : Pipe.Label → Option Command
  | .write data timeoutMs =>
    match chunks with
    | [] => none
    | chunk :: rest =>
      if data = some chunk ∧ timeoutMs = defaultTimeoutMs then some (.writing rest) else none
  | .writeCheck => some (.writing chunks)
  | .writeSection => some (.writing chunks)
  | _ => none

def nextRead (p : Pipe.State) : Pipe.Label → Option Command
  | .read buffer size timeoutMs =>
    if buffer = true ∧ 0 < size ∧ timeoutMs = defaultTimeoutMs ∧ atEof p = false then some .reading
    else none
  | .readSection => some .reading
  | _ => none

def Command.next (p : Pipe.State) (command : Command) (l : Pipe.Label) : Option Command :=
  match command with
  | .writing chunks => nextWrite chunks l
  | .reading => nextRead p l
  | _ => none

/-- The end of the pipe that the `fclose` of `cleanup_function` closes. -/
def Job.close : Job → Pipe.Label
  | .writes _ => .closeWrite
  | .readsToEof => .closeRead

def Job.wake : Job → Pipe.Label
  | .writes _ => .wakeReaders
  | .readsToEof => .wakeWriters

def State.withPipe (s : State) (command : Command) (p : Option Pipe.State) : Option State :=
  p.map fun p => { s with pipe := p, command := command }

/-- A command that returns `status`. -/
def step (job : Job) (status : Int) (s : State) : Label → Option State
  | .create =>
    match s.caller, s.command with
    | .starting, .absent => some { s with caller := .joining, command := job.start }
    | _, _ => none
  | .pipe l =>
    (s.command.next s.pipe l).bind fun command => s.withPipe command (Pipe.step s.pipe l)
  | .leave =>
    match s.command with
    | .writing [] =>
      match s.pipe.writer with
      | .idle => some { s with command := .returned }
      | _ => none
    | .reading =>
      match s.pipe.reader with
      | .idle => if atEof s.pipe then some { s with command := .returned } else none
      | _ => none
    | .returned => s.withPipe .closing (Pipe.step s.pipe job.close)
    | .closing => s.withPipe .ended (Pipe.step s.pipe job.wake)
    | _ => none
  | .join =>
    match s.caller, s.command with
    -- without success the pipe is destroyed, and the result is `NULL`
    | .joining, .ended => some { s with caller := .returned (status == 0) }
    | _, _ => none

/-- `ios_popen` waits for the command, and the command sleeps in the pipe. -/
def State.Deadlock (s : State) : Prop :=
  s.caller = .joining ∧ (s.pipe.writer.asleep = true ∨ s.pipe.reader.asleep = true)

/-- No run gets into a deadlock, and every run ends with the return of `ios_popen`. -/
def Returns (buffer : Nat → UInt8) (job : Job) (status : Int) : Prop :=
  (∀ s, Transition.Reachable (step job status) (fun _ _ => True)
    (fun s => s = State.initial buffer) s →
      ¬ s.Deadlock) ∧
    Transition.Ends (step job status) (State.initial buffer) fun s =>
      s.caller = .returned (status == 0)

/-! ## A command that writes -/

variable {data : List UInt8} {p : Pipe.State}

theorem writeIteration_open {p : BufferedPipe} {timeoutMs : Int} {total : Nat}
    (hopen : p.readClosed = false) (htime : timeoutMs ≠ 0) {r : WriteResult}
    (hr : r = writeIteration p data timeoutMs total) :
    (∃ ret, r.outcome = .returns ret ∧ data.length ≤ r.total) ∨
      (r.outcome = .waits ∧ r.total < data.length) := by
  subst hr
  unfold writeIteration
  split
  · next hle => exact Or.inl ⟨_, rfl, hle⟩
  · rw [if_neg (show ¬ p.readClosed = true by rw [hopen]; simp)]
    dsimp only
    split
    · next hdone => exact Or.inl ⟨_, rfl, hdone.2⟩
    · next hmore =>
      refine Or.inr ⟨rfl, ?_⟩
      show total + (ringBufferWrite p.ring (data.drop total)).1 < data.length
      omega

/-- The command writes, and the caller has no call open. -/
structure Writing (p : Pipe.State) : Prop where
  reader : p.reader = .idle
  capacity : p.pipe.ring.capacity = defaultBufferSize
  write_open : p.pipe.writeClosed = false
  read_open : p.pipe.readClosed = false
  /-- the calls have the default time-out, and one that sleeps has filled the ring -/
  checkRead : ∀ call, p.writer = .checkRead call → call.timeoutMs = defaultTimeoutMs
  enter : ∀ call, p.writer = .enter call → call.timeoutMs = defaultTimeoutMs
  waiting : ∀ call total signalled, p.writer = .waiting call total signalled →
    call.timeoutMs = defaultTimeoutMs ∧ signalled = false ∧ total < call.data.length ∧
      ringBufferSpace p.pipe.ring = 0

def pending (p : Pipe.State) : List UInt8 := contents p.pipe.ring ++ p.writer.left

theorem Writing.section {call : WriteCall} {total : Nat} (h : Writing p)
    (htime : call.timeoutMs = defaultTimeoutMs) (ht : total ≤ call.data.length)
    (hleft : p.writer.left = call.data.drop total) :
    Writing (p.writeSection call total) ∧ pending (p.writeSection call total) = pending p ∧
      ((p.writeSection call total).writer = .idle ∨
        (p.writeSection call total).writer.asleep = true) := by
  obtain ⟨r, hr⟩ : ∃ r, r = writeIteration p.pipe call.data call.timeoutMs total := ⟨_, rfl⟩
  obtain ⟨hle, -, hcont, -⟩ := writeIteration_spec ht hr
  obtain ⟨hwc, hrc, -, hfull⟩ := writeIteration_wakes hr
  have hcap : r.pipe.ring.capacity = p.pipe.ring.capacity := by rw [hr, writeIteration_capacity]
  have hreader : (if r.signals then p.reader.signal else p.reader) = .idle := by
    rw [h.reader]
    split <;> rfl
  have hmove : (call.data.take r.total).drop total ++ call.data.drop r.total
      = call.data.drop total := by
    rw [← drop_append_of_le_length (by rw [length_take]; omega), take_append_drop]
  unfold State.writeSection
  rw [← hr]
  dsimp only
  rcases writeIteration_open h.read_open (by rw [htime]; decide) hr with ⟨ret, ho,
    hdone⟩ | ⟨ho, hmore⟩
  · rw [ho]
    refine ⟨⟨hreader, hcap.trans h.capacity, hwc.trans h.write_open, hrc.trans h.read_open,
      by rintro _ ⟨⟩, by rintro _ ⟨⟩, by rintro _ _ _ ⟨⟩⟩, ?_, Or.inl rfl⟩
    · show contents r.pipe.ring ++ [] = contents p.pipe.ring ++ p.writer.left
      rw [drop_eq_nil_of_le hdone, append_nil] at hmove
      rw [append_nil, hcont, hleft, hmove]
  · rw [ho]
    refine ⟨⟨hreader, hcap.trans h.capacity, hwc.trans h.write_open, hrc.trans h.read_open,
      by rintro _ ⟨⟩, by rintro _ ⟨⟩, ?_⟩, ?_, Or.inr rfl⟩
    · rintro c t sig ⟨⟩
      exact ⟨htime, rfl, hmore, (hfull ho).1⟩
    · show contents r.pipe.ring ++ call.data.drop r.total = contents p.pipe.ring ++ p.writer.left
      rw [hcont, hleft, append_assoc, hmove]

/-- The states of `ios_popen` with a command that writes `data`. -/
inductive Inv (buffer : Nat → UInt8) (status : Int) (data : List UInt8) : State → Prop
  | starting : Inv buffer status data (State.initial buffer)
  | writing {p : Pipe.State} {chunks : List (List UInt8)} : Writing p →
      pending p ++ chunks.flatten = data → Inv buffer status data ⟨p, .writing chunks, .joining⟩
  | returned {p : Pipe.State} : p.writer = .idle → p.reader = .idle →
      Inv buffer status data ⟨p, .returned, .joining⟩
  | closing {p : Pipe.State} : p.writer = .idle → p.reader = .idle → 0 < p.closingWrite →
      Inv buffer status data ⟨p, .closing, .joining⟩
  | ended {p : Pipe.State} : p.writer = .idle → p.reader = .idle →
      Inv buffer status data ⟨p, .ended, .joining⟩
  | done {p : Pipe.State} : p.writer = .idle → p.reader = .idle →
      Inv buffer status data ⟨p, .ended, .returned (status == 0)⟩

def Writer.rank : Writer → Nat
  | .idle => 0
  | .checkRead _ => 2
  | .enter _ => 1
  | .waiting .. => 0

/-- Goes down with every step of the command. -/
def State.rank (n : Nat) (s : State) : Nat :=
  match s.command with
  | .absent => 3 * n + 6
  | .writing chunks => 3 * chunks.length + Writer.rank s.pipe.writer + 4
  | .reading => 0
  | .returned => 3
  | .closing => 2
  | .ended =>
    match s.caller with
    | .returned _ => 0
    | _ => 1

section

variable {buffer : Nat → UInt8} {chunks : List (List UInt8)} {status : Int} {s s' : State}

theorem Writing.step {p' : Pipe.State} {l : Pipe.Label} {command : Command} (h : Writing p)
    (hc : Command.next p (.writing chunks) l = some command) (hs : Pipe.step p l = some p') :
    ∃ rest, command = .writing rest ∧ Writing p' ∧
      pending p' ++ rest.flatten = pending p ++ chunks.flatten ∧ (p.writer.asleep = false →
        3 * rest.length + Writer.rank p'.writer < 3 * chunks.length + Writer.rank p.writer) := by
  cases l with
  | write data timeoutMs =>
    cases chunks with
    | nil => cases hc
    | cons chunk rest =>
      simp only [Command.next, nextWrite] at hc
      split at hc <;> cases hc
      next heq =>
      obtain ⟨rfl, rfl⟩ := heq
      cases hpc : p.writer <;> simp only [Pipe.step, hpc, h.write_open] at hs <;> cases hs
      refine ⟨rest, rfl, { h with
        checkRead := by rintro _ ⟨⟩; rfl
        enter := by rintro _ ⟨⟩
        waiting := by rintro _ _ _ ⟨⟩ }, ?_, ?_⟩
      · simp [pending, hpc, Writer.left]
      · simp only [Writer.rank, length_cons]
        omega
  | writeCheck =>
    cases hc
    cases hpc : p.writer <;> simp only [Pipe.step, hpc, h.read_open] at hs <;> cases hs
    next call =>
    refine ⟨chunks, rfl, { h with
      checkRead := by rintro _ ⟨⟩
      enter := by rintro _ ⟨⟩; exact h.checkRead call hpc
      waiting := by rintro _ _ _ ⟨⟩ }, ?_, ?_⟩
    · simp [pending, hpc, Writer.left]
    · simp only [Writer.rank]
      omega
  | writeSection =>
    cases hc
    cases hpc : p.writer <;> simp only [Pipe.step, hpc] at hs <;> cases hs
    · next call =>
      obtain ⟨hw, hpending, hend⟩ := h.section (h.enter call hpc) (Nat.zero_le _)
        (by rw [hpc, drop_zero]; rfl)
      refine ⟨chunks, rfl, hw, by rw [hpending], fun _ => ?_⟩
      have hrank : Writer.rank (p.writeSection call 0).writer = 0 := by
        rcases hend with hend | hend
        · rw [hend]
          rfl
        · cases hw' : (p.writeSection call 0).writer with
          | waiting => rfl
          | _ => rw [hw'] at hend; cases hend
      rw [hrank]
      simp only [Writer.rank]
      omega
    · next call total signalled =>
      obtain ⟨htime, rfl, hlt, -⟩ := h.waiting call total signalled hpc
      obtain ⟨hw, hpending, -⟩ := h.section htime (Nat.le_of_lt hlt) (by rw [hpc]; rfl)
      refine ⟨chunks, rfl, hw, by rw [hpending], fun hawake => ?_⟩
      cases hawake
  | _ => cases hc

theorem Inv.step {l : Label} (h : Inv buffer status data s)
    (hdata : data = chunks.flatten) (hs : step (.writes chunks) status s l = some s') :
    Inv buffer status data s' ∧
      (s.pipe.writer.asleep = false → s'.rank chunks.length < s.rank chunks.length) := by
  cases h with
  | starting =>
    cases l <;> cases hs
    refine ⟨.writing ⟨rfl, rfl, rfl, rfl, by rintro _ ⟨⟩, by rintro _ ⟨⟩, by rintro _ _ _ ⟨⟩⟩ ?_,
      fun _ => ?_⟩
    · show contents (RingBuffer.create buffer defaultBufferSize (by decide)) ++ [] ++ _ = _
      rw [contents_create, hdata]
      rfl
    · simp only [State.rank, State.initial, Job.start, Pipe.State.initial, Writer.rank]
      omega
  | @writing p rest hw hsplit =>
    cases l with
    | pipe l =>
      obtain ⟨command, hc, hs⟩ := Option.bind_eq_some_iff.mp hs
      obtain ⟨p', hp, rfl⟩ := Option.map_eq_some_iff.mp hs
      obtain ⟨rest', rfl, hw', hpending, hrank⟩ := hw.step hc hp
      refine ⟨.writing hw' (hpending.trans hsplit), fun hawake => ?_⟩
      have := hrank hawake
      simp only [State.rank]
      omega
    | leave =>
      cases rest with
      | cons chunk rest => cases hs
      | nil =>
        simp only [Popen.step] at hs
        split at hs <;> cases hs
        next hidle =>
        refine ⟨.returned hidle hw.reader, fun _ => ?_⟩
        simp only [State.rank]
        omega
    | _ => cases hs
  | @returned p hwriter hreader =>
    cases l <;> cases hs
    exact ⟨.closing hwriter hreader (Nat.succ_pos _), fun _ => by simp [State.rank]⟩
  | @closing p hwriter hreader hclosing =>
    cases l with
    | leave =>
      simp only [Popen.step, Pipe.step, if_pos hclosing] at hs
      cases hs
      refine ⟨.ended hwriter ?_, fun _ => by simp [State.rank]⟩
      rw [hreader]
      rfl
    | _ => cases hs
  | @ended p hwriter hreader =>
    cases l <;> cases hs
    exact ⟨.done hwriter hreader, fun _ => by simp [State.rank]⟩
  | done => cases l <;> cases hs

theorem Inv.of_reachable
    (h : Transition.Reachable (Popen.step (.writes chunks) status) (fun _ _ => True)
      (fun s => s = State.initial buffer) s) : Inv buffer status chunks.flatten s :=
  h.invariant (fun _ hs => hs ▸ .starting) fun _ _ _ hi _ hs => (hi.step rfl hs).1

theorem Inv.awake (h : Inv buffer status data s) (hfits : data.length < defaultBufferSize) :
    s.pipe.writer.asleep = false ∧ s.pipe.reader.asleep = false := by
  cases h with
  | starting => exact ⟨rfl, rfl⟩
  | @writing p rest hw hsplit =>
    rw [hw.reader]
    refine ⟨?_, rfl⟩
    cases hpc : p.writer with
    | waiting call total signalled =>
      obtain ⟨-, -, hmore, hfull⟩ := hw.waiting call total signalled hpc
      have hlen := congrArg length hsplit
      have hcap := available_add_space p.pipe.ring
      rw [hw.capacity] at hcap
      rw [pending, hpc, Writer.left, length_append, length_append, length_contents,
        length_drop] at hlen
      omega
    | _ => rfl
  | returned hwriter hreader => rw [hwriter, hreader]; exact ⟨rfl, rfl⟩
  | closing hwriter hreader => rw [hwriter, hreader]; exact ⟨rfl, rfl⟩
  | ended hwriter hreader => rw [hwriter, hreader]; exact ⟨rfl, rfl⟩
  | done hwriter hreader => rw [hwriter, hreader]; exact ⟨rfl, rfl⟩

theorem Writing.progress (h : Writing p) (hawake : p.writer.asleep = false)
    (rest : List (List UInt8)) (hmore : p.writer ≠ .idle ∨ rest ≠ []) :
    ∃ l p' command, Command.next p (.writing rest) l = some command ∧ Pipe.step p l = some p' := by
  cases hpc : p.writer with
  | idle =>
    cases rest with
    | nil => simp [hpc] at hmore
    | cons chunk rest =>
      obtain ⟨p', hp⟩ : ∃ p', Pipe.step p (.write (some chunk) defaultTimeoutMs) = some p' := by
        simp [Pipe.step, hpc, h.write_open]
      exact ⟨.write (some chunk) defaultTimeoutMs, p', _, if_pos ⟨rfl, rfl⟩, hp⟩
  | checkRead call =>
    obtain ⟨p', hp⟩ : ∃ p', Pipe.step p .writeCheck = some p' := by
      simp [Pipe.step, hpc, h.read_open]
    exact ⟨_, p', _, rfl, hp⟩
  | enter call =>
    obtain ⟨p', hp⟩ : ∃ p', Pipe.step p .writeSection = some p' := by
      simp [Pipe.step, hpc]
    exact ⟨_, p', _, rfl, hp⟩
  | waiting call total signalled =>
    obtain ⟨-, rfl, -⟩ := h.waiting call total signalled hpc
    rw [hpc] at hawake
    cases hawake

theorem step_pipe (job : Job) (status : Int) {l : Pipe.Label} {command : Command}
    (hc : s.command.next s.pipe l = some command) (hp : Pipe.step s.pipe l = some p) :
    Popen.step job status s (.pipe l) = some { s with pipe := p, command := command } := by
  simp only [Popen.step, hc, hp]
  rfl

theorem Inv.progress (h : Inv buffer status data s)
    (hfits : data.length < defaultBufferSize) (hnot : s.caller ≠ .returned (status == 0)) :
    ∃ l s', Popen.step (.writes chunks) status s l = some s' := by
  have hawake := (h.awake hfits).1
  cases h with
  | starting => exact ⟨.create, _, rfl⟩
  | @writing p rest hw hsplit =>
    by_cases hmore : p.writer ≠ .idle ∨ rest ≠ []
    · obtain ⟨l, p', command, hc, hp⟩ := hw.progress hawake rest hmore
      exact ⟨.pipe l, _, step_pipe _ _ hc hp⟩
    · rw [not_or, not_not, not_not] at hmore
      obtain ⟨hidle, rfl⟩ := hmore
      refine ⟨.leave, ⟨p, .returned, .joining⟩, ?_⟩
      simp [Popen.step, hidle]
  | returned hwriter hreader => exact ⟨.leave, _, rfl⟩
  | closing hwriter hreader hclosing =>
    refine ⟨.leave, ?_⟩
    simp [Popen.step, Job.wake, Pipe.step, hclosing, State.withPipe]
  | ended hwriter hreader => exact ⟨.join, _, rfl⟩
  | done => exact absurd rfl hnot

theorem returns_of_fits (hfits : chunks.flatten.length < defaultBufferSize) :
    Returns buffer (.writes chunks) status := by
  constructor
  · rintro s h ⟨-, hasleep⟩
    obtain ⟨hwriter, hreader⟩ := (Inv.of_reachable h).awake hfits
    rw [hwriter, hreader] at hasleep
    simp at hasleep
  · refine Transition.Ends.of_rank (State.rank chunks.length) Inv.starting ?_
      (fun _ hi hnot => hi.progress hfits hnot)
    intro t t' l hi hs
    obtain ⟨hi', hrank⟩ := hi.step rfl hs
    exact ⟨hi', hrank (hi.awake hfits).1⟩

def State.Unfinished (s : State) : Prop := s.command = .absent ∨ ∃ rest, s.command = .writing rest

theorem exists_deadlock_of_writes (hmore : defaultBufferSize ≤ chunks.flatten.length) :
    ∃ s, Transition.Reachable (Popen.step (.writes chunks) status) (fun _ _ => True)
      (fun s => s = State.initial buffer) s ∧ s.Deadlock := by
  have hstep : ∀ s, (Inv buffer status chunks.flatten s ∧ s.Unfinished) → ¬ s.Deadlock →
      ∃ l s', True ∧ Popen.step (.writes chunks) status s l = some s' ∧
        (Inv buffer status chunks.flatten s' ∧ s'.Unfinished) ∧
        s'.rank chunks.length < s.rank chunks.length := by
    rintro s ⟨h, hunfinished⟩ hawake
    cases h with
    | starting =>
      have hi : Inv buffer status chunks.flatten (State.initial buffer) := .starting
      obtain ⟨hi', hrank⟩ := hi.step (l := .create) rfl rfl
      exact ⟨.create, _, trivial, rfl, ⟨hi', Or.inr ⟨chunks, rfl⟩⟩, hrank rfl⟩
    | @writing p rest hw hsplit =>
      have hw' : p.writer.asleep = false := by
        by_contra hasleep
        exact hawake ⟨rfl, Or.inl (by simpa using hasleep)⟩
      have hrest : p.writer ≠ .idle ∨ rest ≠ [] := by
        -- otherwise everything would be in the ring
        by_contra hnot
        rw [not_or, not_not, not_not] at hnot
        have hlen := congrArg length hsplit
        have hcap := available_add_space p.pipe.ring
        rw [hw.capacity] at hcap
        rw [hnot.2, pending, hnot.1, Writer.left, append_nil, flatten_nil, append_nil,
          length_contents] at hlen
        omega
      obtain ⟨l, p', command, hc, hp⟩ := hw.progress hw' rest hrest
      have hs := step_pipe (.writes chunks) status (s := ⟨p, .writing rest, .joining⟩) hc hp
      obtain ⟨hi', hrank⟩ := (Inv.writing hw hsplit).step rfl hs
      obtain ⟨rest', hcommand, -⟩ := hw.step hc hp
      exact ⟨.pipe l, _, trivial, hs, ⟨hi', Or.inr ⟨rest', hcommand⟩⟩, hrank hw'⟩
    | _ =>
      rcases hunfinished with hcommand | ⟨rest, hcommand⟩ <;> cases hcommand
  exact Transition.Reachable.of_rank (State.rank chunks.length) hstep (.start rfl)
    ⟨.starting, Or.inl rfl⟩

theorem exists_deadlock_of_reads :
    ∃ s, Transition.Reachable (Popen.step .readsToEof status) (fun _ _ => True)
      (fun s => s = State.initial buffer) s ∧ s.Deadlock := by
  have hrun : Transition.run (Popen.step .readsToEof status) (State.initial buffer)
      [.create, .pipe (.read true 1 defaultTimeoutMs), .pipe .readSection] = some _ := rfl
  exact ⟨_, Transition.Reachable.of_run (.start rfl) hrun, rfl, Or.inr rfl⟩

end

/--
`ios_popen` returns if and only if its type is `r` and the command writes less than the capacity of
the buffered pipe.
-/
theorem popen_returns_iff (buffer : Nat → UInt8) (job : Job) (status : Int) :
    Returns buffer job status ↔
      ∃ chunks, job = .writes chunks ∧ chunks.flatten.length < defaultBufferSize := by
  constructor
  · intro h
    cases job with
    | writes chunks =>
      refine ⟨chunks, rfl, ?_⟩
      by_contra hmore
      obtain ⟨s, hs, hdead⟩ := exists_deadlock_of_writes (Nat.le_of_not_lt hmore)
      exact h.1 s hs hdead
    | readsToEof =>
      obtain ⟨s, hs, hdead⟩ := exists_deadlock_of_reads
      exact absurd hdead (h.1 s hs)
  · rintro ⟨chunks, rfl, hfits⟩
    exact returns_of_fits hfits

/-- Type `w`: the command reads, nothing has been written, and no thread can wake it. -/
theorem popen_deadlock :
    ∃ s, Transition.run (step .readsToEof 0) (State.initial fun _ => 0)
        [.create, .pipe (.read true 1 defaultTimeoutMs), .pipe .readSection] = some s ∧
      s.Deadlock ∧ contents s.pipe.pipe.ring = [] ∧ s.pipe.pipe.writeClosed = false :=
  ⟨_, rfl, ⟨rfl, Or.inr rfl⟩, by decide, rfl⟩

end IosSystem.Pipe.Popen
