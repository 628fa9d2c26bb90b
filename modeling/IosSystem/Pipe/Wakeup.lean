import IosSystem.Pipe.Threads

/-!
# No lost wake-up in the buffered pipe

A section of a call signals the other side whenever it moves bytes, and goes to sleep only after it
has seen that there is nothing to move and, for a reader, that `write_closed` is not set. A close
may store its flag between that test and the sleep, but its broadcast needs the mutex, so it comes
after.
-/

namespace IosSystem.Pipe

/-- On `data_available`, and not signalled. -/
def Reader.asleep : Reader → Bool
  | .waiting _ signalled => !signalled
  | _ => false

/-- On `space_available`, and not signalled. -/
def Writer.asleep : Writer → Bool
  | .waiting _ _ signalled => !signalled
  | _ => false

@[simp] theorem Reader.asleep_signal (r : Reader) : r.signal.asleep = false := by
  cases r <;> rfl

@[simp] theorem Writer.asleep_signal (w : Writer) : w.signal.asleep = false := by
  cases w <;> rfl

theorem writeIteration_wakes {p : BufferedPipe} {data : List UInt8} {timeoutMs : Int} {total : Nat}
    {r : WriteResult} (hr : r = writeIteration p data timeoutMs total) :
    r.pipe.writeClosed = p.writeClosed ∧ r.pipe.readClosed = p.readClosed ∧
      (r.signals = false → contents r.pipe.ring = contents p.ring) ∧
      (r.outcome = .waits → ringBufferSpace r.pipe.ring = 0 ∧ p.readClosed = false) := by
  subst hr
  unfold writeIteration
  split
  · exact ⟨rfl, rfl, fun _ => rfl, (by intro h; cases h)⟩
  · next hmore =>
    split
    · exact ⟨rfl, rfl, fun _ => rfl, (by intro h; cases h)⟩
    · next hopen =>
      have hcount := write_count p.ring (data.drop total)
      have hcont := contents_write p.ring (data.drop total)
      dsimp only
      split
      · exact ⟨rfl, rfl, (by intro h; cases h), (by intro h; cases h)⟩
      · next hrest =>
        refine ⟨rfl, rfl, ?_, fun _ => ⟨?_, by simpa using hopen⟩⟩
        · intro hsig
          have hz : (ringBufferWrite p.ring (data.drop total)).1 = 0 := by simpa using hsig
          rw [hcont, hz, List.take_zero, List.append_nil]
        · -- not everything fitted, so that the write has taken all the space there was
          rw [List.length_drop] at hcount
          rw [space_write]
          omega

theorem readIteration_wakes {p : BufferedPipe} {size : Nat} {timeoutMs : Int} {r : ReadResult}
    (hr : r = readIteration p size timeoutMs) :
    r.pipe.writeClosed = p.writeClosed ∧ r.pipe.readClosed = p.readClosed ∧
      (r.signals = false → ringBufferSpace r.pipe.ring = ringBufferSpace p.ring) ∧
      (r.outcome = .waits → contents r.pipe.ring = [] ∧ p.writeClosed = false) := by
  subst hr
  unfold readIteration
  split
  · exact ⟨rfl, rfl, fun _ => rfl, (by intro h; cases h)⟩
  · next hsize =>
    dsimp only
    split
    · exact ⟨rfl, rfl, (by intro h; cases h), (by intro h; cases h)⟩
    · next hnone =>
      have hnil : (ringBufferRead p.ring size).1 = [] := List.eq_nil_of_length_eq_zero (by omega)
      have hempty := (read_eq_nil_iff (by omega)).mp hnil
      have hring : (ringBufferRead p.ring size).2 = p.ring := by rw [read_of_empty hempty]
      split
      · exact ⟨rfl, rfl, fun _ => by rw [hring], (by intro h; cases h)⟩
      · next hopen =>
        refine ⟨rfl, rfl, fun _ => by rw [hring], fun _ => ⟨?_, by simpa using hopen⟩⟩
        rw [hring, hempty]

/--
What the calls of a schedule leave behind. The broadcast is the last thing that a close does, so
that `wakeReaders` in the schedule says that a call of `ios_pipe_close_write` has completed.
-/
structure Sleepers (labels : List Label) (s : State) : Prop where
  closing_write : 0 < s.closingWrite ∨ .wakeReaders ∈ labels → s.pipe.writeClosed = true
  closing_read : 0 < s.closingRead ∨ .wakeWriters ∈ labels → s.pipe.readClosed = true
  reader : s.reader.asleep = true → contents s.pipe.ring = [] ∧ .wakeReaders ∉ labels
  writer : s.writer.asleep = true → ringBufferSpace s.pipe.ring = 0 ∧ .wakeWriters ∉ labels

theorem Sleepers.initial (buffer : Nat → UInt8) (capacity : Nat) (h : 0 < capacity) :
    Sleepers [] (State.initial buffer capacity h) := by
  refine ⟨?_, ?_, ?_, ?_⟩ <;> simp [State.initial, Reader.asleep, Writer.asleep]

variable {labels : List Label} {s : State}

section

variable (h : Sleepers labels s)
include h

theorem Sleepers.of_calls {l : Label} {s' : State} (hl : l ≠ .wakeReaders ∧ l ≠ .wakeWriters)
    (hcw : s'.closingWrite = s.closingWrite) (hcr : s'.closingRead = s.closingRead)
    (hw : s'.pipe.writeClosed = s.pipe.writeClosed) (hr : s'.pipe.readClosed = s.pipe.readClosed)
    (hreader : s'.reader.asleep = true → contents s'.pipe.ring = [] ∧ .wakeReaders ∉ labels)
    (hwriter : s'.writer.asleep = true →
      ringBufferSpace s'.pipe.ring = 0 ∧ .wakeWriters ∉ labels) : Sleepers (labels ++ [l]) s' := by
  have hmem : ∀ k : Label, l ≠ k → (k ∈ labels ++ [l] ↔ k ∈ labels) := by
    intro k hk
    simp [Ne.symm hk]
  refine ⟨?_, ?_, ?_, ?_⟩
  · rw [hmem _ hl.1, hcw, hw]
    exact h.closing_write
  · rw [hmem _ hl.2, hcr, hr]
    exact h.closing_read
  · rw [hmem _ hl.1]
    exact hreader
  · rw [hmem _ hl.2]
    exact hwriter

theorem Sleepers.writeSection {call : WriteCall} {total : Nat} :
    Sleepers (labels ++ [.writeSection]) (s.writeSection call total) := by
  obtain ⟨r, hr⟩ : ∃ r, r = writeIteration s.pipe call.data call.timeoutMs total := ⟨_, rfl⟩
  obtain ⟨hwc, hrc, hquiet, hwaits⟩ := writeIteration_wakes hr
  have hreader : (if r.signals then s.reader.signal else s.reader).asleep = true →
      contents r.pipe.ring = [] ∧ .wakeReaders ∉ labels := by
    intro hasleep
    split at hasleep
    · rw [Reader.asleep_signal] at hasleep
      cases hasleep
    · next hsig =>
      rw [hquiet (by simpa using hsig)]
      exact h.reader hasleep
  unfold State.writeSection
  rw [← hr]
  dsimp only
  cases ho : r.outcome with
  | returns ret =>
    refine h.of_calls (by simp) rfl rfl hwc hrc hreader ?_
    intro hasleep
    cases hasleep
  | waits =>
    refine h.of_calls (by simp) rfl rfl hwc hrc hreader ?_
    intro _
    obtain ⟨hfull, hopen⟩ := hwaits ho
    refine ⟨hfull, fun hmem => ?_⟩
    have := h.closing_read (Or.inr hmem)
    rw [hopen] at this
    cases this

theorem Sleepers.readSection {call : ReadCall} :
    Sleepers (labels ++ [.readSection]) (s.readSection call) := by
  obtain ⟨r, hr⟩ : ∃ r, r = readIteration s.pipe call.size call.timeoutMs := ⟨_, rfl⟩
  obtain ⟨hwc, hrc, hquiet, hwaits⟩ := readIteration_wakes hr
  have hwriter : (if r.signals then s.writer.signal else s.writer).asleep = true →
      ringBufferSpace r.pipe.ring = 0 ∧ .wakeWriters ∉ labels := by
    intro hasleep
    split at hasleep
    · rw [Writer.asleep_signal] at hasleep
      cases hasleep
    · next hsig =>
      rw [hquiet (by simpa using hsig)]
      exact h.writer hasleep
  unfold State.readSection
  rw [← hr]
  dsimp only
  cases ho : r.outcome with
  | returns ret =>
    refine h.of_calls (by simp) rfl rfl hwc hrc ?_ hwriter
    intro hasleep
    cases hasleep
  | waits =>
    refine h.of_calls (by simp) rfl rfl hwc hrc ?_ hwriter
    intro _
    obtain ⟨hempty, hopen⟩ := hwaits ho
    refine ⟨hempty, fun hmem => ?_⟩
    have := h.closing_write (Or.inr hmem)
    rw [hopen] at this
    cases this

theorem Sleepers.step {s' : State} {l : Label} (hs : step s l = some s') :
    Sleepers (labels ++ [l]) s' := by
  cases l <;> simp only [Pipe.step] at hs
  case writeSection => split at hs <;> cases hs <;> exact h.writeSection
  case readSection => split at hs <;> cases hs <;> exact h.readSection
  case closeWrite =>
    cases hs
    refine ⟨fun _ => rfl, ?_, ?_, ?_⟩
    · simpa using h.closing_read
    · simpa using h.reader
    · simpa using h.writer
  case closeRead =>
    cases hs
    refine ⟨?_, fun _ => rfl, ?_, ?_⟩
    · simpa using h.closing_write
    · simpa using h.reader
    · simpa using h.writer
  case wakeReaders =>
    split at hs <;> cases hs
    next hclosing =>
    refine ⟨fun _ => h.closing_write (Or.inl hclosing), ?_, ?_, ?_⟩
    · simpa using h.closing_read
    · simp
    · simpa using h.writer
  case wakeWriters =>
    split at hs <;> cases hs
    next hclosing =>
    refine ⟨?_, fun _ => h.closing_read (Or.inl hclosing), ?_, ?_⟩
    · simpa using h.closing_write
    · simpa using h.reader
    · simp
  -- a call that begins or ends without a section leaves nobody asleep on its own side
  all_goals repeat' split at hs
  all_goals cases hs
  all_goals first
    | exact h.of_calls (by simp) rfl rfl rfl rfl h.reader (fun hasleep => by cases hasleep)
    | exact h.of_calls (by simp) rfl rfl rfl rfl (fun hasleep => by cases hasleep) h.writer

end

/--
No lost wake-up.

At the end of every schedule of a fresh pipe: if the reader sleeps and is not signalled, the ring is
empty and no call of `ios_pipe_close_write` has completed; if the writer sleeps and is not
signalled, the ring has no space and no call of `ios_pipe_close_read` has completed.
-/
theorem no_lost_wakeup {buffer : Nat → UInt8} {capacity : Nat} {hcap : 0 < capacity}
    {labels : List Label} {s : State}
    (hrun : Transition.run step (State.initial buffer capacity hcap) labels = some s) :
    (s.reader.asleep = true → contents s.pipe.ring = [] ∧ .wakeReaders ∉ labels) ∧
      (s.writer.asleep = true → ringBufferSpace s.pipe.ring = 0 ∧ .wakeWriters ∉ labels) := by
  have h : Sleepers labels s :=
    Transition.run_induction Sleepers (Sleepers.initial buffer capacity hcap)
      (fun _ _ _ _ hi hs => hi.step hs) hrun
  exact ⟨h.reader, h.writer⟩

/-- The reader sleeps while `ios_pipe_close_write` has stored its flag and not yet broadcast. -/
theorem no_lost_wakeup_closing :
    ∃ s, Transition.run step (State.initial (fun _ => 0) 2 (by decide))
        [.read true 8 (-1), .readSection, .closeWrite] = some s ∧
      s.reader.asleep = true ∧ s.pipe.writeClosed = true ∧ contents s.pipe.ring = [] := by
  have hrun : Transition.run step (State.initial (fun _ => 0) 2 (by decide))
      [.read true 8 (-1), .readSection, .closeWrite] = some _ := rfl
  exact ⟨_, hrun, rfl, rfl, ((no_lost_wakeup hrun).1 rfl).1⟩

/--
Reader and writer never sleep at once, unless the ring has a single cell. One cell always stays
free, so that such a ring is empty and full.
-/
theorem asleep_together {buffer : Nat → UInt8} {capacity : Nat} {hcap : 0 < capacity}
    {labels : List Label} {s : State}
    (hrun : Transition.run step (State.initial buffer capacity hcap) labels = some s)
    (hr : s.reader.asleep = true) (hw : s.writer.asleep = true) : s.pipe.ring.capacity = 1 := by
  have h : Sleepers labels s :=
    Transition.run_induction Sleepers (Sleepers.initial buffer capacity hcap)
      (fun _ _ _ _ hi hs => hi.step hs) hrun
  have hempty := congrArg List.length (h.reader hr).1
  rw [length_contents, List.length_nil] at hempty
  have hfull := (h.writer hw).1
  have hroom := available_add_space s.pipe.ring
  omega

/-- With `buffer_size = 1` a write and a read without time-outs wait for each other. -/
theorem asleep_together_one : ∃ labels s,
    Transition.run step (State.initial (fun _ => 0) 1 (by decide)) labels = some s ∧
      s.reader.asleep = true ∧ s.writer.asleep = true ∧ s.pipe.ring.capacity = 1 := by
  have hrun : Transition.run step (State.initial (fun _ => 0) 1 (by decide))
      [.write (some [7]) (-1), .writeCheck, .writeSection, .read true 1 (-1), .readSection]
        = some _ := rfl
  exact ⟨_, _, hrun, rfl, rfl, asleep_together hrun rfl rfl⟩

end IosSystem.Pipe
