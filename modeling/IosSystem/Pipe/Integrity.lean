import IosSystem.Pipe.Threads

/-!
# Stream integrity of the buffered pipe

What the reads return is a prefix of what the writes append, and the rest is in the ring, in
every state that any interleaving reaches.
-/

namespace IosSystem.Pipe

open List

/-! ## What a section does -/

theorem progressOr_cases (n : Nat) : progressOr n = n ∨ (progressOr n = -1 ∧ n = 0) := by
  unfold progressOr
  split
  · exact Or.inl rfl
  · exact Or.inr ⟨rfl, by omega⟩

theorem writeIteration_spec {p : BufferedPipe} {data : List UInt8} {timeoutMs : Int} {total : Nat}
    (ht : total ≤ data.length) {r : WriteResult} (hr : r = writeIteration p data timeoutMs total) :
    total ≤ r.total ∧ r.total ≤ data.length ∧
      contents r.pipe.ring = contents p.ring ++ (data.take r.total).drop total ∧
      (∀ ret, r.outcome = .returns ret → ret = r.total ∨ (ret = -1 ∧ r.total = 0)) := by
  subst hr
  unfold writeIteration
  split
  · exact ⟨Nat.le_refl _, ht, by simp, fun ret h => by injection h with h; exact Or.inl h.symm⟩
  · split
    · exact ⟨Nat.le_refl _, ht, by simp, fun ret h => by
        injection h with h
        exact h ▸ progressOr_cases total⟩
    · have hcount := write_count p.ring (data.drop total)
      have hcont := contents_write p.ring (data.drop total)
      rw [length_drop] at hcount
      rw [take_drop] at hcont
      dsimp only
      split
      · exact ⟨by simp, by simp only []; omega, hcont, fun ret h => by
          injection h with h
          exact Or.inl h.symm⟩
      · refine ⟨by simp, by simp only []; omega, hcont, fun ret h => ?_⟩
        split at h
        · injection h with h
          exact h ▸ progressOr_cases _
        · cases h

theorem readIteration_spec {p : BufferedPipe} {size : Nat} {timeoutMs : Int} {r : ReadResult}
    (hr : r = readIteration p size timeoutMs) :
    contents p.ring = r.bytes ++ contents r.pipe.ring ∧ r.pipe.readClosed = p.readClosed ∧
      (r.outcome = .waits → r.bytes = []) ∧
      (∀ ret, r.outcome = .returns ret →
        (ret = r.bytes.length ∨ (ret = -1 ∧ r.bytes = [])) ∧
        (0 < size → ret = 0 → contents p.ring = [])) := by
  subst hr
  unfold readIteration
  split
  · next hz =>
    refine ⟨by simp, rfl, fun _ => rfl, fun ret h => ?_⟩
    injection h with h
    exact ⟨Or.inl h.symm, fun hs => absurd hz (by omega)⟩
  · next hz =>
    have hsplit := contents_eq_read p.ring size
    dsimp only
    split
    · next hlen =>
      refine ⟨hsplit, rfl, (by intro h; cases h), fun ret h => ?_⟩
      injection h with h
      exact ⟨Or.inl h.symm, fun _ h0 => by omega⟩
    · next hlen =>
      have hnil : (ringBufferRead p.ring size).1 = [] :=
        eq_nil_of_length_eq_zero (by omega)
      have hempty := (read_eq_nil_iff (by omega)).mp hnil
      split
      · refine ⟨hsplit, rfl, fun _ => hnil, fun ret h => ?_⟩
        injection h with h
        rw [hnil]
        exact ⟨Or.inl (by simp [← h]), fun _ _ => hempty⟩
      · refine ⟨hsplit, rfl, fun _ => hnil, fun ret h => ?_⟩
        split at h
        · injection h with h
          exact ⟨Or.inr ⟨by rw [← h]; rfl, hnil⟩, fun _ _ => hempty⟩
        · cases h

/-! ## The invariant -/

/-- The bytes that a write call that returned `ret` claims to have appended. -/
def WriteDone.accepted (w : WriteDone) : List UInt8 := w.data.take w.ret.toNat

/-- A finished write: `ret` bytes of its data were appended, or nothing and the result is -1. -/
def WriteDone.Ok (w : WriteDone) : Prop :=
  (0 ≤ w.ret → w.ret ≤ w.data.length ∧ w.after = w.before ++ w.data.take w.ret.toNat) ∧
    (w.ret < 0 → w.ret = -1 ∧ w.after = w.before)

def ReadDone.Ok (r : ReadDone) : Prop :=
  (0 ≤ r.ret → r.ret = r.bytes.length) ∧ (r.ret < 0 → r.ret = -1 ∧ r.bytes = []) ∧
    (0 < r.size → r.ret = 0 → r.readClosed = false → r.delivered = r.appended)

/-- What a call has written so far. -/
def Writer.progress : Writer → List UInt8
  | .waiting call total _ => call.data.take total
  | _ => []

def Writer.Ok (appended : List UInt8) : Writer → Prop
  | .idle => True
  | .checkRead call => appended = call.before
  | .enter call => appended = call.before
  | .waiting call total _ => total ≤ call.data.length ∧
      appended = call.before ++ call.data.take total

/-- What was appended is what was delivered and what is in the buffer. -/
structure Inv (s : State) : Prop where
  stream : s.appended = s.delivered ++ contents s.pipe.ring
  writer_ok : s.writer.Ok s.appended
  writes_ok : ∀ w ∈ s.writes, w.Ok
  writes_eq : s.appended = s.writes.flatMap WriteDone.accepted ++ s.writer.progress
  reads_ok : ∀ r ∈ s.reads, r.Ok
  reads_eq : s.delivered = s.reads.flatMap ReadDone.bytes

@[simp] theorem Writer.signal_progress (w : Writer) : w.signal.progress = w.progress := by
  cases w <;> rfl

@[simp] theorem Writer.signal_ok (w : Writer) (a : List UInt8) : w.signal.Ok a ↔ w.Ok a := by
  cases w <;> rfl

variable {s : State}

theorem Inv.finishWrite {data before : List UInt8} {ret : Int} {n : Nat} (h : Inv s)
    (hret : ret = n ∨ (ret = -1 ∧ n = 0)) (hn : n ≤ data.length)
    (happ : s.appended = before ++ data.take n) (hprog : s.writer.progress = data.take n) :
    Inv (s.finishWrite data before ret) := by
  have hnat : ret.toNat = n := by omega
  have htake : data.take ret.toNat = data.take n := by rw [hnat]
  refine { h with writer_ok := trivial, writes_ok := ?_, writes_eq := ?_ }
  · intro w hw
    rcases mem_append.mp hw with hw | hw
    · exact h.writes_ok w hw
    · rw [mem_singleton] at hw
      subst hw
      refine ⟨fun _ => ⟨?_, ?_⟩, fun hneg => ?_⟩
      · show ret ≤ data.length
        omega
      · rw [htake, happ]
      · change ret < 0 at hneg
        have hz : n = 0 := by omega
        refine ⟨show ret = -1 by omega, ?_⟩
        rw [happ, hz]
        simp
  · show s.appended = (s.writes ++ [_]).flatMap WriteDone.accepted ++ []
    rw [flatMap_append, append_nil, h.writes_eq, hprog]
    simp [WriteDone.accepted, htake]

theorem Inv.finishRead {size : Nat} {bytes : List UInt8} {ret : Int}
    (hstream : s.appended = s.delivered ++ bytes ++ contents s.pipe.ring)
    (hw : s.writer.Ok s.appended) (hws : ∀ w ∈ s.writes, w.Ok)
    (hwe : s.appended = s.writes.flatMap WriteDone.accepted ++ s.writer.progress)
    (hrs : ∀ r ∈ s.reads, r.Ok) (hre : s.delivered = s.reads.flatMap ReadDone.bytes)
    (hret : ret = bytes.length ∨ (ret = -1 ∧ bytes = []))
    (hzero : 0 < size → ret = 0 → s.pipe.readClosed = false → s.delivered ++ bytes = s.appended) :
    Inv (s.finishRead size bytes ret) := by
  refine ⟨hstream, hw, hws, hwe, ?_, ?_⟩
  · intro r hr
    rcases mem_append.mp hr with hr | hr
    · exact hrs r hr
    · rw [mem_singleton] at hr
      subst hr
      refine ⟨fun h0 => ?_, fun hneg => ?_, hzero⟩
      · rcases hret with h | ⟨h, _⟩
        · exact h
        · change 0 ≤ ret at h0
          omega
      · rcases hret with h | h
        · exact absurd hneg (by rw [h]; show ¬ ((bytes.length : Int) < 0); omega)
        · exact h
  · show s.delivered ++ bytes = (s.reads ++ [_]).flatMap ReadDone.bytes
    rw [flatMap_append, ← hre]
    simp

theorem Inv.writeSection {call : WriteCall} {total : Nat} (h : Inv s)
    (ht : total ≤ call.data.length) (happ : s.appended = call.before ++ call.data.take total)
    (hprog : s.writer.progress = call.data.take total) : Inv (s.writeSection call total) := by
  obtain ⟨r, hr⟩ : ∃ r, r = writeIteration s.pipe call.data call.timeoutMs total := ⟨_, rfl⟩
  obtain ⟨hle, hmax, hcont, hret⟩ := writeIteration_spec ht hr
  have hmore : call.data.take total ++ (call.data.take r.total).drop total
      = call.data.take r.total := by
    rw [show call.data.take total = (call.data.take r.total).take total by
      rw [take_take, Nat.min_eq_left hle], take_append_drop]
  have happ' : s.appended ++ (call.data.take r.total).drop total
      = call.before ++ call.data.take r.total := by
    rw [happ, append_assoc, hmore]
  -- the state in which the section ends, with the call asleep; a return only changes the record
  have hwait : Inv { s with
      pipe := r.pipe
      reader := if r.signals then s.reader.signal else s.reader
      appended := s.appended ++ (call.data.take r.total).drop total
      writer := .waiting call r.total false } := by
    refine { h with stream := ?_, writer_ok := ⟨hmax, happ'⟩, writes_eq := ?_ }
    · rw [hcont, h.stream, append_assoc]
    · show s.appended ++ _ = s.writes.flatMap WriteDone.accepted ++ call.data.take r.total
      rw [h.writes_eq, append_assoc, hprog, hmore]
  unfold State.writeSection
  rw [← hr]
  dsimp only
  cases ho : r.outcome with
  | returns ret => exact hwait.finishWrite (hret ret ho) hmax happ' rfl
  | waits => exact hwait

theorem Inv.readSection {call : ReadCall} (h : Inv s) : Inv (s.readSection call) := by
  obtain ⟨r, hr⟩ : ∃ r, r = readIteration s.pipe call.size call.timeoutMs := ⟨_, rfl⟩
  obtain ⟨hsplit, hclosed, hnone, hret⟩ := readIteration_spec hr
  have hw : (if r.signals then s.writer.signal else s.writer).Ok s.appended := by
    split
    · exact (Writer.signal_ok _ _).mpr h.writer_ok
    · exact h.writer_ok
  have hp : (if r.signals then s.writer.signal else s.writer).progress = s.writer.progress := by
    split <;> simp
  have hstream : s.appended = s.delivered ++ r.bytes ++ contents r.pipe.ring := by
    rw [h.stream, hsplit, append_assoc]
  unfold State.readSection
  rw [← hr]
  dsimp only
  cases ho : r.outcome with
  | returns ret =>
    obtain ⟨hbytes, hzero⟩ := hret ret ho
    refine Inv.finishRead hstream hw h.writes_ok ?_ h.reads_ok h.reads_eq hbytes ?_
    · rw [hp]
      exact h.writes_eq
    · intro hs h0 _
      have hempty := hzero hs h0
      rw [hsplit, append_eq_nil_iff] at hempty
      rw [hstream, hempty.2, append_nil]
  | waits =>
    refine { h with stream := ?_, writer_ok := hw, writes_eq := ?_ }
    · rw [hnone ho, append_nil] at hstream
      exact hstream
    · rw [hp]
      exact h.writes_eq

/-! ## Every interleaving -/

theorem Inv.initial (buffer : Nat → UInt8) (capacity : Nat) (h : 0 < capacity) :
    Inv (State.initial buffer capacity h) := by
  refine ⟨?_, trivial, ?_, rfl, ?_, rfl⟩
  · show [] = [] ++ contents (RingBuffer.create buffer capacity h)
    simp
  · intro w hw; cases hw
  · intro r hr; cases hr

/-- No step loses or doubles a byte. -/
theorem Inv.step {s' : State} {l : Label} (h : Inv s) (hs : step s l = some s') : Inv s' := by
  have hw := h.writer_ok
  have hstream : s.appended = s.delivered ++ [] ++ contents s.pipe.ring := by simpa using h.stream
  -- a call that returns without a section has moved nothing
  have hwrite : ∀ {data before : List UInt8} {ret : Int}, ret = 0 ∨ ret = -1 → s.appended = before →
      s.writer.progress = [] → Inv (s.finishWrite data before ret) := by
    intro data before ret hret hbefore hprogress
    exact h.finishWrite (n := 0) (by omega) (Nat.zero_le _) (by simpa using hbefore) hprogress
  have hread : ∀ {size : Nat} {ret : Int}, ret = -1 ∨ ret = 0 ∧ s.pipe.readClosed = true →
      Inv (s.finishRead size [] ret) := by
    intro size ret hret
    refine Inv.finishRead hstream hw h.writes_ok h.writes_eq h.reads_ok h.reads_eq ?_ ?_
    · rcases hret with hret | ⟨hret, -⟩
      · exact Or.inr ⟨hret, rfl⟩
      · exact Or.inl hret
    · intro _ h0 hopen
      rcases hret with hret | ⟨-, hclosed⟩
      · omega
      · exact absurd hclosed (by rw [hopen]; decide)
  cases l <;> simp only [Pipe.step] at hs
  case write =>
    split at hs <;> try cases hs
    · next hpc => exact hwrite (Or.inr rfl) rfl (by rw [hpc]; rfl)
    · next hpc =>
      split at hs <;> cases hs
      · exact hwrite (Or.inr rfl) rfl (by rw [hpc]; rfl)
      · refine { h with writer_ok := rfl, writes_eq := ?_ }
        rw [h.writes_eq, hpc]; rfl
  case writeCheck =>
    split at hs <;> try cases hs
    next hpc =>
    rw [hpc] at hw
    split at hs <;> cases hs
    · exact hwrite (Or.inl rfl) hw (by rw [hpc]; rfl)
    · refine { h with writer_ok := hw, writes_eq := ?_ }
      rw [h.writes_eq, hpc]; rfl
  case writeSection =>
    split at hs <;> cases hs
    · next hpc =>
      rw [hpc] at hw
      refine h.writeSection (Nat.zero_le _) ?_ (by rw [hpc]; rfl)
      rw [take_zero, append_nil]; exact hw
    · next hpc =>
      rw [hpc] at hw
      exact h.writeSection hw.1 hw.2 (by rw [hpc]; rfl)
  case writeTimeout =>
    split at hs <;> try cases hs
    next hpc =>
    rw [hpc] at hw
    split at hs <;> cases hs
    exact h.finishWrite (progressOr_cases _) hw.1 hw.2 (by rw [hpc]; rfl)
  case read =>
    split at hs <;> try cases hs
    split at hs
    · cases hs
      exact hread (Or.inl rfl)
    · split at hs <;> cases hs
      · next hclosed => exact hread (Or.inr ⟨rfl, hclosed⟩)
      · exact { h with }
  case readSection => split at hs <;> cases hs <;> exact h.readSection
  case readTimeout =>
    split at hs <;> try cases hs
    split at hs <;> cases hs
    exact hread (Or.inl rfl)
  case wakeWriters =>
    split at hs <;> cases hs
    refine { h with writer_ok := (Writer.signal_ok _ _).mpr hw, writes_eq := ?_ }
    rw [h.writes_eq, Writer.signal_progress]
  all_goals repeat' split at hs
  all_goals cases hs <;> exact { h with }

theorem Reachable.inv (h : Reachable s) : Inv s := by
  refine Transition.Reachable.invariant ?_ (fun s s' a hi _ hs => hi.step hs) h
  rintro s ⟨buffer, capacity, hc, rfl⟩
  exact Inv.initial buffer capacity hc

/--
Stream integrity.

In every reachable state: each write that returned `r ≥ 0` appended the first `r` bytes of its
data and each write that returned -1 appended nothing; what was appended is what those writes
accepted plus the progress of the one under way; the bytes that the reads returned are a prefix
of it and the remainder is the contents of the ring; and a read of a positive size that returned
0 while `read_closed` was false had delivered everything appended by then.
-/
theorem stream_integrity {s : State} (h : Reachable s) :
    (∀ w ∈ s.writes,
      (0 ≤ w.ret ∧ w.ret ≤ w.data.length ∧ w.after = w.before ++ w.data.take w.ret.toNat) ∨
        (w.ret = -1 ∧ w.after = w.before)) ∧
    s.appended = s.writes.flatMap (fun w => w.data.take w.ret.toNat) ++ s.writer.progress ∧
    (∀ r ∈ s.reads, r.ret = r.bytes.length ∨ (r.ret = -1 ∧ r.bytes = [])) ∧
    s.reads.flatMap ReadDone.bytes <+: s.appended ∧
    s.appended = s.reads.flatMap ReadDone.bytes ++ contents s.pipe.ring ∧
    (∀ r ∈ s.reads, 0 < r.size → r.ret = 0 → r.readClosed = false → r.delivered = r.appended) := by
  have hi := h.inv
  have hstream : s.appended = s.reads.flatMap ReadDone.bytes ++ contents s.pipe.ring := by
    rw [← hi.reads_eq]
    exact hi.stream
  refine ⟨?_, hi.writes_eq, ?_, ⟨_, hstream.symm⟩, hstream, fun r hr => (hi.reads_ok r hr).2.2⟩
  · intro w hw
    obtain ⟨hpos, hneg⟩ := hi.writes_ok w hw
    by_cases h0 : 0 ≤ w.ret
    · exact Or.inl ⟨h0, hpos h0⟩
    · exact Or.inr (hneg (by omega))
  · intro r hr
    obtain ⟨hpos, hneg, _⟩ := hi.reads_ok r hr
    by_cases h0 : 0 ≤ r.ret
    · exact Or.inl (hpos h0)
    · exact Or.inr (hneg (by omega))

/-- Three bytes through a ring that holds two: the writer sleeps, and the reader wakes it. -/
theorem stream_integrity_full_ring :
    ∃ s, Transition.run step (State.initial (fun _ => 0) 3 (by decide))
        [.write (some [1, 2, 3]) (-1), .writeCheck, .writeSection, .read true 1 (-1), .readSection,
          .writeSection, .read true 8 (-1), .readSection] = some s ∧
      s.reads.map ReadDone.bytes = [[1], [2, 3]] ∧
      s.appended = s.reads.flatMap ReadDone.bytes ++ contents s.pipe.ring := by
  have hrun : Transition.run step (State.initial (fun _ => 0) 3 (by decide))
      [.write (some [1, 2, 3]) (-1), .writeCheck, .writeSection, .read true 1 (-1), .readSection,
        .writeSection, .read true 8 (-1), .readSection] = some _ := rfl
  refine ⟨_, hrun, rfl, ?_⟩
  exact (stream_integrity (Transition.Reachable.of_run (.start ⟨_, _, _, rfl⟩) hrun)).2.2.2.2.1

end IosSystem.Pipe
