import IosSystem.Pipe.Integrity
import IosSystem.Pipe.Wakeup

/-!
# The end of file of a buffered pipe

A read that finds `write_closed` set and the ring empty returns 0, and nothing should come after it.
`ios_pipe_write_timeout` tests `write_closed` once, at its entry. A call that is past this test
appends what it has left (`Writer.left`) whenever it gets the mutex, also behind a read that has
returned 0.
-/

namespace IosSystem.Pipe

open List Transition

/-- What a call has not written yet. -/
def Writer.left : Writer → List UInt8
  | .idle => []
  | .checkRead call => call.data
  | .enter call => call.data
  | .waiting call total _ => call.data.drop total

@[simp] theorem Writer.left_signal (w : Writer) : w.signal.left = w.left := by
  cases w <;> rfl

/-- The step ends a read with 0. -/
def ReturnsEof (s s' : State) : Prop :=
  step s .readSection = some s' ∧ ∃ r, s'.reads = s.reads ++ [r] ∧ 0 < r.size ∧ r.ret = 0

/--
What comes after a read that has left the state `s`: no byte enters the ring, and no read returns a
positive count.
-/
def EofFinal (s : State) : Prop :=
  ∀ labels s', Transition.run step s labels = some s' → .closeRead ∉ labels →
    s'.appended = s.appended ∧ ∀ r ∈ s'.reads.drop s.reads.length, r.ret ≤ 0

/-! ## The read that returns 0 -/

variable {p : BufferedPipe} {timeoutMs : Int}

theorem readIteration_eof {size : Nat} (hsize : 0 < size)
    (hret : (readIteration p size timeoutMs).outcome = .returns 0) :
    p.writeClosed = true ∧ contents p.ring = [] ∧
      (readIteration p size timeoutMs).signals = false ∧
      (readIteration p size timeoutMs).bytes = [] ∧
      (readIteration p size timeoutMs).pipe = p := by
  unfold readIteration at hret ⊢
  rw [if_neg (by omega)] at hret ⊢
  dsimp only at hret ⊢
  split at hret
  · next hpos =>
    injection hret with hret
    omega
  · next hnone =>
    rw [if_neg hnone]
    have hnil : (ringBufferRead p.ring size).1 = [] := eq_nil_of_length_eq_zero (by omega)
    have hempty := (read_eq_nil_iff hsize).mp hnil
    split at hret
    · next hclosed =>
      rw [if_pos hclosed]
      refine ⟨hclosed, hempty, rfl, hnil, ?_⟩
      simp [read_of_empty hempty]
    · split at hret <;> cases hret

variable {s s0 : State} {total : Nat} {s' : State}

theorem ReturnsEof.spec (h : ReturnsEof s s') :
    s'.pipe = s.pipe ∧ s'.writer = s.writer ∧ s'.appended = s.appended ∧
      s.pipe.writeClosed = true ∧ contents s.pipe.ring = [] := by
  obtain ⟨hs, r, hreads, hsize, hret⟩ := h
  have hsection : ∀ call, s.readSection call = s' → s'.pipe = s.pipe ∧ s'.writer = s.writer ∧
      s'.appended = s.appended ∧ s.pipe.writeClosed = true ∧ contents s.pipe.ring = [] := by
    intro call hs'
    unfold State.readSection at hs'
    dsimp only at hs'
    cases ho : (readIteration s.pipe call.size call.timeoutMs).outcome with
    | waits =>
      rw [ho] at hs'
      rw [← hs'] at hreads
      exact absurd hreads (by simp)
    | returns ret =>
      rw [ho] at hs'
      rw [← hs'] at hreads
      have hr := singleton_inj.mp (append_cancel_left hreads)
      rw [← hr] at hsize hret
      change ret = 0 at hret
      rw [hret] at ho
      obtain ⟨hclosed, hempty, hsig, -, hpipe⟩ := readIteration_eof hsize ho
      rw [hsig, hpipe] at hs'
      rw [← hs']
      exact ⟨rfl, rfl, rfl, hclosed, hempty⟩
  cases hpc : s.reader <;> simp only [step, hpc] at hs <;> cases hs <;> exact hsection _ rfl

/-! ## Nothing left to append -/

theorem writeIteration_total {data : List UInt8} :
    (writeIteration p data timeoutMs total).total
      = if p.readClosed then total
        else total + min (data.drop total).length (ringBufferSpace p.ring) := by
  unfold writeIteration
  split
  · next hle =>
    rw [drop_eq_nil_of_le hle]
    simp
  · split
    · rfl
    · dsimp only
      split <;> rw [← write_count]

theorem writeIteration_capacity {data : List UInt8} :
    (writeIteration p data timeoutMs total).pipe.ring.capacity = p.ring.capacity := by
  unfold writeIteration
  split
  · rfl
  · split
    · rfl
    · dsimp only
      split <;> exact write_capacity _ _

/-- The write end is closed, and all is read. -/
structure Drained (s : State) : Prop where
  closed : s.pipe.writeClosed = true
  empty : contents s.pipe.ring = []
  left : s.writer.left = [] ∨ s.pipe.ring.capacity = 1

theorem Drained.space (h : Drained s) :
    min s.writer.left.length (ringBufferSpace s.pipe.ring) = 0 := by
  have hcap := available_add_space s.pipe.ring
  rcases h.left with hl | hl
  · rw [hl]
    exact Nat.zero_min _
  · omega

structure SameRecord (s0 s : State) : Prop where
  drained : Drained s
  appended : s.appended = s0.appended
  reads : ∃ more, s.reads = s0.reads ++ more ∧ ∀ r ∈ more, r.ret ≤ 0

theorem SameRecord.refl (h : Drained s) : SameRecord s s :=
  ⟨h, rfl, [], by simp, by simp⟩

section

variable (h : SameRecord s0 s)
include h

theorem SameRecord.writeSection {call : WriteCall} (hleft : s.writer.left = call.data.drop total) :
    SameRecord s0 (s.writeSection call total) := by
  obtain ⟨r, hr⟩ : ∃ r, r = writeIteration s.pipe call.data call.timeoutMs total := ⟨_, rfl⟩
  have hspace := h.drained.space
  rw [hleft] at hspace
  have htotal : r.total = total := by
    rw [hr, writeIteration_total, hspace]
    exact ite_self _
  have hcap : r.pipe.ring.capacity = s.pipe.ring.capacity := by rw [hr, writeIteration_capacity]
  have happ : s.appended ++ (call.data.take r.total).drop total = s.appended := by
    rw [htotal, drop_eq_nil_of_le (length_take_le _ _), append_nil]
  have hring : contents r.pipe.ring = [] := by
    by_cases ht : total ≤ call.data.length
    · obtain ⟨-, -, hcont, -⟩ := writeIteration_spec ht hr
      rw [hcont, h.drained.empty, htotal, nil_append]
      exact drop_eq_nil_of_le (length_take_le _ _)
    · rw [hr, writeIteration, if_pos (by omega)]
      exact h.drained.empty
  have hclosed : r.pipe.writeClosed = true := by
    rw [(writeIteration_wakes hr).1]
    exact h.drained.closed
  have hrest : call.data.drop r.total = [] ∨ r.pipe.ring.capacity = 1 := by
    rw [htotal, hcap, ← hleft]
    exact h.drained.left
  unfold State.writeSection
  rw [← hr]
  dsimp only
  rw [happ]
  cases ho : r.outcome with
  | returns ret => exact ⟨⟨hclosed, hring, Or.inl rfl⟩, h.appended, h.reads⟩
  | waits => exact ⟨⟨hclosed, hring, hrest⟩, h.appended, h.reads⟩

theorem SameRecord.finishRead {size : Nat} {ret : Int} {bytes : List UInt8} (hret : ret ≤ 0) :
    SameRecord s0 (s.finishRead size bytes ret) := by
  obtain ⟨more, hmore, hneg⟩ := h.reads
  refine ⟨⟨h.drained.closed, h.drained.empty, h.drained.left⟩, h.appended, ?_⟩
  refine ⟨_, by rw [State.finishRead, hmore, append_assoc], ?_⟩
  intro r hr
  rcases mem_append.mp hr with hr | hr
  · exact hneg r hr
  · rw [mem_singleton] at hr
    rw [hr]
    exact hret

theorem SameRecord.readSection {call : ReadCall} : SameRecord s0 (s.readSection call) := by
  obtain ⟨r, hr⟩ : ∃ r, r = readIteration s.pipe call.size call.timeoutMs := ⟨_, rfl⟩
  have hspec : r.pipe = s.pipe ∧ r.signals = false ∧ r.outcome = .returns 0 := by
    rw [hr, readIteration]
    split
    · exact ⟨rfl, rfl, rfl⟩
    · rw [read_of_empty h.drained.empty]
      rw [if_neg (by simp), if_pos h.drained.closed]
      exact ⟨rfl, rfl, rfl⟩
  obtain ⟨hpipe, hsig, ho⟩ := hspec
  unfold State.readSection
  rw [← hr]
  dsimp only
  rw [ho, hpipe, hsig]
  exact h.finishRead (Int.le_refl _)

theorem SameRecord.step {l : Label} (hs : step s l = some s') : SameRecord s0 s' := by
  have hidle : ∀ s1 : State, s1.pipe = s.pipe → s1.appended = s.appended → s1.reads = s.reads →
      s1.writer.left = [] ∨ s1.writer.left = s.writer.left → SameRecord s0 s1 := by
    intro s1 hp ha hr hw
    refine ⟨⟨by rw [hp, h.drained.closed], by rw [hp, h.drained.empty], ?_⟩, by rw [ha, h.appended],
      by rw [hr]; exact h.reads⟩
    rcases hw with hw | hw
    · exact Or.inl hw
    · rw [hw, hp]
      exact h.drained.left
  cases l <;> simp only [Pipe.step, h.drained.closed, ↓reduceIte] at hs
  case closeWrite | closeRead =>
    cases hs
    exact ⟨⟨rfl, h.drained.empty, h.drained.left⟩, h.appended, h.reads⟩
  case wakeWriters =>
    split at hs <;> cases hs
    exact hidle _ rfl rfl rfl (Or.inr (Writer.left_signal _))
  case writeCheck =>
    split at hs <;> try cases hs
    next hpc =>
    split at hs <;> cases hs
    · exact hidle _ rfl rfl rfl (Or.inl rfl)
    · exact hidle _ rfl rfl rfl (Or.inr (by rw [hpc]; rfl))
  case writeSection =>
    split at hs <;> cases hs
    · next hpc => exact h.writeSection (by rw [hpc, drop_zero]; rfl)
    · next hpc => exact h.writeSection (by rw [hpc]; rfl)
  -- a call that begins or returns appends nothing, and a read that returns has read nothing
  all_goals repeat' split at hs
  all_goals cases hs
  all_goals first
    | exact hidle _ rfl rfl rfl (Or.inl rfl)
    | exact hidle _ rfl rfl rfl (Or.inr rfl)
    | exact h.readSection
    | refine h.finishRead ?_; decide

end

theorem Drained.eofFinal (h : Drained s) : EofFinal s := by
  intro labels s' hrun _
  have hsame : SameRecord s s' :=
    run_induction (fun _ => SameRecord s) (SameRecord.refl h)
      (fun _ _ _ _ hi hs => hi.step hs) hrun
  obtain ⟨more, hmore, hneg⟩ := hsame.reads
  refine ⟨hsame.appended, ?_⟩
  rw [hmore, drop_left]
  exact hneg

/-! ## Something left to append -/

theorem writeSection_appended (s : State) (call : WriteCall) (total : Nat) :
    (s.writeSection call total).appended = s.appended ++
      (call.data.take (writeIteration s.pipe call.data call.timeoutMs total).total).drop total := by
  unfold State.writeSection
  dsimp only
  cases (writeIteration s.pipe call.data call.timeoutMs total).outcome <;> rfl

theorem writeSection_grows {call : WriteCall} (hopen : s.pipe.readClosed = false)
    (hleft : call.data.drop total ≠ []) (hspace : 0 < ringBufferSpace s.pipe.ring) :
    s.appended.length < (s.writeSection call total).appended.length := by
  have hlen : 0 < (call.data.drop total).length := length_pos_of_ne_nil hleft
  rw [length_drop] at hlen
  rw [writeSection_appended, length_append, writeIteration_total, hopen, length_drop,
    length_take, length_drop]
  simp only [Bool.false_eq_true, ↓reduceIte]
  omega

theorem exists_grows (hopen : s.pipe.readClosed = false) (hleft : s.writer.left ≠ [])
    (hspace : 0 < ringBufferSpace s.pipe.ring) :
    ∃ labels s', Transition.run step s labels = some s' ∧ .closeRead ∉ labels ∧
      s.appended.length < s'.appended.length := by
  cases hpc : s.writer with
  | idle =>
    rw [hpc] at hleft
    exact absurd rfl hleft
  | checkRead call =>
    rw [hpc] at hleft
    refine ⟨[.writeCheck, .writeSection],
      State.writeSection { s with writer := .enter call } call 0, ?_, by simp, ?_⟩
    · simp only [run, step, hpc, hopen]
      rfl
    · exact writeSection_grows (s := { s with writer := .enter call }) hopen
        (by rwa [drop_zero]) hspace
  | enter call =>
    rw [hpc] at hleft
    refine ⟨[.writeSection], s.writeSection call 0, ?_, by simp, ?_⟩
    · simp [run, step, hpc]
    · exact writeSection_grows hopen (by rwa [drop_zero]) hspace
  | waiting call total signalled =>
    rw [hpc] at hleft
    refine ⟨[.writeSection], s.writeSection call total, ?_, by simp, ?_⟩
    · simp [run, step, hpc]
    · exact writeSection_grows hopen hleft hspace

theorem step_readClosed {l : Label} (hl : l ≠ .closeRead) (hs : step s l = some s') :
    s'.pipe.readClosed = s.pipe.readClosed := by
  have hwrite : ∀ call total, (s.writeSection call total).pipe.readClosed = s.pipe.readClosed := by
    intro call total
    unfold State.writeSection
    dsimp only
    rw [← (writeIteration_wakes
      (r := writeIteration s.pipe call.data call.timeoutMs total) rfl).2.1]
    split <;> rfl
  have hread : ∀ call, (s.readSection call).pipe.readClosed = s.pipe.readClosed := by
    intro call
    unfold State.readSection
    dsimp only
    rw [← (readIteration_wakes (r := readIteration s.pipe call.size call.timeoutMs) rfl).2.1]
    split <;> rfl
  -- the other steps do not write to the field
  cases l <;> simp only [step] at hs
  case closeRead => exact absurd rfl hl
  all_goals repeat' split at hs
  all_goals cases hs
  all_goals first | rfl | exact hwrite _ _ | exact hread _

theorem readClosed_of_reachable (h : Transition.Reachable step (fun _ l => l ≠ .closeRead)
      (fun s => ∃ buffer capacity h, s = State.initial buffer capacity h) s) :
    s.pipe.readClosed = false := by
  induction h with
  | start hi =>
    obtain ⟨buffer, capacity, hc, rfl⟩ := hi
    rfl
  | next _ hl hs ih =>
    rw [step_readClosed hl hs]
    exact ih

/--
The end of file.

A writer, a reader and threads that may close the write end: after a read of positive size has
returned 0 because `write_closed` is set and the ring is empty, no byte enters the ring and no read
returns a positive count in any continuation, if and only if at this read no write call that is past
its test of `write_closed` has bytes left to append, or the ring has a single cell and holds
nothing.
-/
theorem eof_final_iff {s s' : State}
    (h : Transition.Reachable step (fun _ l => l ≠ .closeRead)
      (fun s => ∃ buffer capacity h, s = State.initial buffer capacity h) s)
    (heof : ReturnsEof s s') :
    EofFinal s' ↔ s.writer.left = [] ∨ s.pipe.ring.capacity = 1 := by
  obtain ⟨hpipe, hwriter, -, hclosed, hempty⟩ := heof.spec
  constructor
  · intro hfinal
    by_contra hnot
    rw [not_or] at hnot
    have hlen := length_contents s.pipe.ring
    have hcap := available_add_space s.pipe.ring
    rw [hempty, length_nil] at hlen
    obtain ⟨labels, s'', hrun, hl, hgrows⟩ := exists_grows (s := s')
      (by rw [hpipe]; exact readClosed_of_reachable h) (by rw [hwriter]; exact hnot.1)
      (by rw [hpipe]; omega)
    rw [(hfinal labels s'' hrun hl).1] at hgrows
    exact Nat.lt_irrefl _ hgrows
  · intro hleft
    refine Drained.eofFinal ⟨?_, ?_, ?_⟩
    · rw [hpipe]
      exact hclosed
    · rw [hpipe]
      exact hempty
    · rw [hwriter, hpipe]
      exact hleft

/-- The writer is done, the write end is closed and the ring is empty. -/
theorem eof_final_after_write :
    ∃ s s', Transition.run step (State.initial (fun _ => 0) 3 (by decide))
        [.write (some [1]) (-1), .writeCheck, .writeSection, .read true 8 (-1), .readSection,
          .closeWrite, .read true 8 (-1)] = some s ∧
      ReturnsEof s s' ∧ s.writer.left = [] ∧ EofFinal s' := by
  have hrun : run step (State.initial (fun _ => 0) 3 (by decide))
      [.write (some [1]) (-1), .writeCheck, .writeSection, .read true 8 (-1), .readSection,
        .closeWrite, .read true 8 (-1)] = some _ := rfl
  refine ⟨_, _, hrun, ⟨rfl, _, rfl, by decide, rfl⟩, rfl,
    (eof_final_iff ?_ ⟨rfl, _, rfl, by decide, rfl⟩).mpr (Or.inl rfl)⟩
  exact Transition.Reachable.of_run_of_forall (.start ⟨_, _, _, rfl⟩) hrun (by simp)

/--
The writer is past its test of `write_closed` when another thread closes the write end. The read
returns 0, and the next one returns the byte.
-/
theorem eof_not_final :
    ∃ s s' s'', Transition.run step (State.initial (fun _ => 0) 3 (by decide))
        [.write (some [1]) (-1), .writeCheck, .closeWrite, .read true 8 (-1)] = some s ∧
      ReturnsEof s s' ∧
      Transition.run step s' [.writeSection, .read true 8 (-1), .readSection] = some s'' ∧
      s''.reads.map ReadDone.ret = [0, 1] ∧ ¬ EofFinal s' := by
  refine ⟨_, _, _, rfl, ⟨rfl, _, rfl, by decide, rfl⟩, rfl, rfl, fun h => ?_⟩
  have happ := (h [.writeSection] _ rfl (by simp)).1
  exact absurd happ (by decide)

end IosSystem.Pipe
