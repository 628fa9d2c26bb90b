import IosSystem.Pipeline.ClosedOnce
import IosSystem.Pipeline.Creation

/-!
# Pipelines in which calls have failed

Whether a pipeline comes to its end when `pipe`, `fdopen`, `strdup` or `pthread_create` fail. A
command may wait for the end of its input, and may write more than a pipe holds (`Commands`);
`Blocked` says when it cannot end yet. An end of a pipe is closed by the stage thread that has a
stream on it, and otherwise not before `ios_pipeline_destroy`.
-/

namespace IosSystem.Pipeline.Streams

open List Function Transition Execution

/-! ## `ios_pipeline_execute` -/

/--
The calls of `strdup` in `parse_pipeline` that get their memory: that for the copy of the command,
and that for the text of each stage.
-/
structure Strdup where
  copy : Bool
  stage : Nat → Bool

inductive Outcome where
  /-- `parse_pipeline` reads through a null pointer -/
  | crashed
  /-- null is returned, because `pipe` has failed for stage `k` -/
  | failed (k : Nat) (stages : Nat → Stage)
  | ready (stages : Nat → Stage)

section

variable (p : Execution) (d : Strdup)

/-- `ios_pipeline_create` and the setup of the stages. -/
def Execution.execute : Outcome :=
  if d.copy = false then .crashed
  else if p.numStages = 0 then .failed 0 fun _ => .blank
  else
    match p.create p.numStages with
    | .ok stages => .ready stages
    | .error (k, stages) => .failed k stages

/-! ## What commands wait for -/

/-- How the commands deal with their streams. -/
structure Commands where
  /-- the command does not end before the end of its input -/
  reads : Nat → Bool
  /-- the command writes more than a pipe holds -/
  fills : Nat → Bool

/-- A stage without a text has no command: `ios_system(NULL)` returns. -/
def Strdup.commands (c : Commands) : Commands :=
  { reads := fun i => d.stage i && c.reads i
    fills := fun i => d.stage i && c.fills i }

variable (c : Commands) (s : State)

instance (e : PipeEnd) : Decidable (p.Released s e) := inferInstanceAs (Decidable (_ ∨ _))

/-- The command waits for the end of an input that nobody will close. -/
def Execution.WaitsForInput (i : Nat) : Prop :=
  c.reads i = true ∧ (s.stages i).stdinStream = some (.pipe (.read (i - 1))) ∧
    ¬ p.Released s (.write (i - 1))

instance (i : Nat) : Decidable (p.WaitsForInput c s i) := inferInstanceAs (Decidable (_ ∧ _ ∧ _))

def Execution.Free (j : Nat) : Prop :=
  c.fills j = false ∨ (s.stages j).stdoutStream ≠ some (.pipe (.write j)) ∨ p.Released s (.read j)

instance (j : Nat) : Decidable (p.Free c s j) := inferInstanceAs (Decidable (_ ∨ _ ∨ _))

/-- The command of stage `m` reads what its predecessor writes. -/
def Drains (m : Nat) : Prop :=
  (s.stages m).pc = .system ∧ c.reads m = true ∧
    (s.stages m).stdinStream = some (.pipe (.read (m - 1)))

instance (m : Nat) : Decidable (Drains c s m) := inferInstanceAs (Decidable (_ ∧ _ ∧ _))

/-- What stage `i` writes is taken by the stages behind it, up to one that does not wait. -/
def Execution.Flows (i : Nat) : Prop :=
  ∃ j < p.numStages, i ≤ j ∧ p.Free c s j ∧ ∀ m < j + 1, i < m → Drains c s m

instance (i : Nat) : Decidable (p.Flows c s i) :=
  inferInstanceAs (Decidable (∃ j < p.numStages, i ≤ j ∧ p.Free c s j ∧ ∀ m < j + 1, i < m → _))

/-- The command of stage `i` cannot end. -/
def Execution.Blocked (i : Nat) : Prop := p.WaitsForInput c s i ∨ ¬ p.Flows c s i

instance (i : Nat) : Decidable (p.Blocked c s i) := inferInstanceAs (Decidable (_ ∨ _))

/-- The steps up to the return of `ios_pipeline_wait`, with commands that end when they can. -/
def Execution.waitStep : Label → Option State
  | .main => if s.main = .destroy 0 then none else p.step s .main
  | .stage i =>
    if (s.stages i).pc = .system ∧ p.Blocked c s i then none else p.step s (.stage i)

/-! ## The contract -/

/-- `completed_count`: one for each thread that `ios_pipeline_wait` has joined. -/
def Execution.completedCount : Nat :=
  ((range (s.main.joined p.numStages)).filter fun i => (s.stages i).pc ≠ .unstarted).length

def Execution.isComplete : Bool := p.completedCount s == p.numStages

/-- The stage behind one that was not started finds the end of its input. -/
def Execution.EndsInput : Prop :=
  ∀ i, i + 1 < p.numStages → (s.stages i).pc = .unstarted → (s.stages (i + 1)).pc ≠ .unstarted →
    p.calls.fdopenRead (i + 1) = true → p.Released s (.write i)

/-- `ios_pipeline_execute` returns null and leaves nothing open, or it returns a pipeline for which
`ios_pipeline_wait` returns, and which is complete then. -/
def Execution.Completes : Prop :=
  match p.execute d with
  | .crashed => False
  | .failed k stages => Cleaned k stages
  | .ready stages =>
    Transition.Ends (p.waitStep (d.commands c)) ⟨stages, .launch 0, []⟩ fun s =>
      s.main = .destroy 0 ∧ p.isComplete s = true ∧ p.EndsInput s

/--
No thread is missing, and for each pipe both streams are there or neither is. One stream alone does
no harm if the command that would wait for the other end was not copied.
-/
structure Execution.Connected : Prop where
  launched : ∀ i < p.numStages, p.calls.pthreadCreate i = true
  read : ∀ i, i + 1 < p.numStages → p.calls.fdopenRead (i + 1) = true → d.stage (i + 1) = true →
    p.calls.fdopenWrite i = true
  write : ∀ i, i + 1 < p.numStages → p.calls.fdopenWrite i = true → d.stage i = true →
    p.calls.fdopenRead (i + 1) = true

/--
The command is copied; and either a `pipe` fails when no stream has been made, or no `pipe` fails
and the pipeline is connected.
-/
def Execution.Survives : Prop :=
  d.copy = true ∧
  ((∃ k, k + 1 < p.numStages ∧ (∀ j < k, p.calls.pipe j = true) ∧ p.calls.pipe k = false ∧
      ∀ j < k, p.calls.fdopenRead (j + 1) = false ∧ p.calls.fdopenWrite j = false) ∨
    ((∀ j, j + 1 < p.numStages → p.calls.pipe j = true) ∧ p.Connected d))

end

/-! ## A stage thread -/

/-- What a stage that was set up as `st₀` has come to when its thread is at `pc`. -/
structure StageRan (st₀ st : Stage) (pc : StagePC) : Prop where
  streams : ∀ x f, st.stream x = some f → st₀.stream x = some f
  stdinExternal : st.stdinIsExternal = st₀.stdinIsExternal
  stdoutExternal : st.stdoutIsExternal = st₀.stdoutIsExternal
  stdin : pc ≠ .done → st.stdinStream = st₀.stdinStream
  stdout : 3 ≤ pc.rank → st.stdoutStream = st₀.stdoutStream
  stdinClosed : pc = .done → ∀ e, st₀.stdinStream = some (.pipe e) → st₀.stdinIsExternal = false →
    .pipe e ∈ st.closed
  stdoutClosed : pc.rank ≤ 2 → ∀ e, st₀.stdoutStream = some (.pipe e) →
    st₀.stdoutIsExternal = false → .pipe e ∈ st.closed
  closes : ∀ f ∈ st.closed, ∃ x, st₀.stream x = some f

attribute [grind cases] StageRan
attribute [grind =] Stage.stream StagePC.rank

variable {st₀ st : Stage} {i : Nat}

theorem StageRan.start (hclosed : st₀.closed = [])
    (readEnd : Bool) : StageRan st₀ { st₀ with readEnd := readEnd } .unstarted := by
  constructor <;> grind [cases Stream]

theorem StageRan.launch (h : StageRan st₀ st .unstarted) (b : Bool) :
    StageRan st₀ { st with pc := if b then .system else .unstarted }
      (if b then .system else .unstarted) := by
  cases b <;> constructor <;> grind [cases Stream]

theorem StageRan.system (h : StageRan st₀ st .system) (commandCloses : List Stream) :
    StageRan st₀ { st with
      closed := st.closed ++ commandCloses.filterMap st.stream
      pc := .closeStdout } .closeStdout := by
  constructor <;> grind [cases Stream]

theorem StageRan.closeStdout (h : StageRan st₀ st .closeStdout) :
    StageRan st₀ { st.closeStdout with pc := .closeStderr } .closeStderr := by
  -- what is closed was a stream of the stage
  have hown := h.streams .stdout
  unfold Stage.closeStdout
  constructor <;> grind [cases Stream]

theorem StageRan.closeStderr (h : StageRan st₀ st .closeStderr) :
    StageRan st₀ { st.closeStderr with pc := .closeStdin } .closeStdin := by
  -- what is closed was a stream of the stage
  have hown := h.streams .stderr
  unfold Stage.closeStderr
  constructor <;> grind [cases Stream]

theorem StageRan.closeStdin (h : StageRan st₀ st .closeStdin) :
    StageRan st₀ { st.closeStdin with pc := .done } .done := by
  -- what is closed was a stream of the stage
  have hown := h.streams .stdin
  unfold Stage.closeStdin
  constructor <;> grind [cases Stream]

theorem StageRan.step {st' : Stage} {pc : StagePC} (h : StageRan st₀ st pc)
    {commandCloses : List Stream} (hs : st.step commandCloses pc = some st') :
    StageRan st₀ st' pc.next ∧ st'.pc = pc.next ∧ pc ≠ .unstarted ∧ pc ≠ .done := by
  cases pc with
  | unstarted | done => cases hs
  | system =>
    cases hs
    exact ⟨h.system commandCloses, rfl, by decide, by decide⟩
  | closeStdout =>
    cases hs
    exact ⟨h.closeStdout, rfl, by decide, by decide⟩
  | closeStderr =>
    cases hs
    exact ⟨h.closeStderr, rfl, by decide, by decide⟩
  | closeStdin =>
    cases hs
    exact ⟨h.closeStdin, rfl, by decide, by decide⟩

/-! ## All threads -/

section

variable {p : Execution} {d : Strdup} {c : Commands} {s s' : State}

/-- What holds in every state after the setup, whichever calls failed. -/
structure Running (p : Execution) (s : State) : Prop where
  stage : ∀ i < p.numStages, StageRan (p.made i) (s.stages i) (s.stages i).pc
  bound : s.main.index ≤ p.numStages
  launched : ∀ i < s.main.launched p.numStages, i < p.numStages →
    ((s.stages i).pc = .unstarted ↔ p.calls.pthreadCreate i = false)
  unlaunched : ∀ i, s.main.launched p.numStages ≤ i → i < p.numStages → (s.stages i).pc = .unstarted
  joined : ∀ i < s.main.joined p.numStages, (s.stages i).pc = .unstarted ∨ (s.stages i).pc = .done
  waiting : ∀ i, s.main = .destroy i → i = 0
  destroyed : s.main ≠ .destroyed
  raw : s.rawClosed = []

attribute [grind cases] Running

theorem Running.initial : Running p ⟨p.madeAt p.numStages, .launch 0, []⟩ := by
  have hpc : ∀ i, (p.madeAt p.numStages i).pc = .unstarted := by
    intro i
    unfold madeAt
    split
    · exact (setupStderr_streams i _).2.2.2.2.2.1
    · rfl
  refine ⟨fun i hi => ?_, Nat.zero_le _, fun i hi => absurd hi (Nat.not_lt_zero i),
    fun i _ _ => hpc i,
    fun i hi => absurd hi (Nat.not_lt_zero i), fun i hi => (by cases hi), by simp, rfl⟩
  show StageRan (p.made i) (p.madeAt p.numStages i) (p.madeAt p.numStages i).pc
  rw [hpc, madeAt, if_pos hi]
  exact .start (setupStderr_streams i _).2.2.2.2.2.2.1 _

section

variable (h : Running p s)
include h

theorem Running.launch (hm : s.main = .launch i) (hs : p.mainStep s (.launch i) = some s') :
    Running p s' := by
  simp only [mainStep] at hs
  split at hs <;> cases hs
  · next hi =>
    have hpc : (s.stages i).pc = .unstarted := h.unlaunched i (by simp [hm, Main.launched]) hi
    have hst := h.stage i hi
    rw [hpc] at hst
    have hlaunch := hst.launch (p.calls.pthreadCreate i)
    constructor <;> grind
  · constructor <;> grind

theorem Running.join (hm : s.main = .wait i) (hs : p.mainStep s (.wait i) = some s') :
    Running p s' := by
  simp only [mainStep] at hs
  split at hs
  · split at hs <;> cases hs
    constructor <;> grind [Main.launched, Main.joined]
  · cases hs
    constructor <;> grind [Main.launched, Main.joined]

theorem Running.mainStep (hmain : s.main ≠ .destroy 0) (hs : p.mainStep s s.main = some s') :
    Running p s' := by
  cases hm : s.main with
  | launch i => exact h.launch hm (hm ▸ hs)
  | wait i => exact h.join hm (hm ▸ hs)
  | destroy i => exact absurd (hm.trans (by rw [h.waiting i hm])) hmain
  | destroyed => exact absurd hm h.destroyed

theorem Running.stageStep (hi : i < p.numStages)
    (hs : (s.stages i).step (p.commandCloses i) (s.stages i).pc = some st) :
    Running p { s with stages := update s.stages i st } ∧ st.pc = (s.stages i).pc.next ∧
      (s.stages i).pc ≠ .unstarted ∧ (s.stages i).pc ≠ .done := by
  obtain ⟨hran, hpc, hstarted, hdone⟩ := (h.stage i hi).step hs
  have hst : st.pc ≠ .unstarted := by
    cases hp : (s.stages i).pc <;> simp_all [StagePC.next]
  refine ⟨?_, hpc, hstarted, hdone⟩
  constructor <;> grind

end

variable {l : Label}

theorem waitStep_cases (hs : p.waitStep c s l = some s') :
    (l = .main ∧ s.main ≠ .destroy 0 ∧ p.mainStep s s.main = some s') ∨
      ∃ i st, l = .stage i ∧ i < p.numStages ∧ ¬((s.stages i).pc = .system ∧ p.Blocked c s i) ∧
        (s.stages i).step (p.commandCloses i) (s.stages i).pc = some st ∧
        s' = { s with stages := update s.stages i st } := by
  cases l with
  | main =>
    simp only [Execution.waitStep] at hs
    split at hs
    · cases hs
    · next hmain => exact .inl ⟨rfl, hmain, hs⟩
  | stage i =>
    simp only [Execution.waitStep, Execution.step] at hs
    split at hs
    · cases hs
    · next hfree =>
      split at hs
      · next hi =>
        obtain ⟨st, hst, heq⟩ := Option.map_eq_some_iff.1 hs
        exact .inr ⟨i, st, rfl, hi, hfree, hst, heq.symm⟩
      · cases hs

theorem waitStep_of_ge (hi : p.numStages ≤ i) : p.waitStep c s (.stage i) = none := by
  cases hs : p.waitStep c s (.stage i) with
  | none => rfl
  | some s' =>
    rcases waitStep_cases hs with ⟨hl, -⟩ | ⟨j, -, hl, hj, -⟩ <;> cases hl
    omega

theorem Running.step (h : Running p s) (hs : p.waitStep c s l = some s') : Running p s' := by
  rcases waitStep_cases hs with ⟨-, hmain, hs⟩ | ⟨i, st, -, hi, -, hst, rfl⟩
  · exact h.mainStep hmain hs
  · exact (h.stageStep hi hst).1

/-! ## Every step gets closer to the end -/

def Execution.remaining (p : Execution) (s : State) : Nat :=
  s.main.rank p.numStages + ∑ i ∈ Finset.range p.numStages, (s.stages i).pc.rank

theorem Running.mainStep_stages (h : Running p s) (hmain : s.main ≠ .destroy 0)
    (hs : p.mainStep s s.main = some s') (i : Nat) : (s'.stages i).pc = (s.stages i).pc ∨
      (s.stages i).pc = .unstarted ∧ (s'.stages i).pc = .system := by
  cases hm : s.main with
  | launch j =>
    rw [hm] at hs
    simp only [Execution.mainStep] at hs
    split at hs <;> cases hs
    · next hj =>
      grind
    · exact .inl rfl
  | wait j =>
    rw [hm] at hs
    simp only [Execution.mainStep] at hs
    split at hs
    · split at hs <;> cases hs
      exact .inl rfl
    · cases hs
      exact .inl rfl
  | destroy j => exact absurd (hm.trans (by rw [h.waiting j hm])) hmain
  | destroyed => exact absurd hm h.destroyed

theorem Running.remaining_lt (h : Running p s) (hs : p.waitStep c s l = some s') :
    p.remaining s' < p.remaining s := by
  rcases waitStep_cases hs with ⟨-, hmain, hs⟩ | ⟨i, st, -, hi, -, hst, rfl⟩
  · have hrank := mainStep_rank h.bound hs
    have hle : ∀ i, (s'.stages i).pc.rank ≤ (s.stages i).pc.rank := by
      grind [h.mainStep_stages hmain hs]
    have hsum := Finset.sum_le_sum fun i (_ : i ∈ Finset.range p.numStages) => hle i
    unfold remaining
    omega
  · obtain ⟨-, hpc, hstarted, hdone⟩ := h.stageStep hi hst
    have hlt : st.pc.rank < (s.stages i).pc.rank := by
      cases hp : (s.stages i).pc <;> simp_all [StagePC.next, StagePC.rank]
    refine Nat.add_lt_add_left (Finset.sum_lt_sum (fun j _ => ?_) ⟨i, Finset.mem_range.2 hi, ?_⟩) _
    · grind
    · simpa using hlt

/-! ## Ends of pipes -/

theorem closings_pos_iff (f : File) : 0 < p.closings s f ↔
    ∃ i < p.numStages, f ∈ (s.stages i).closed := by
  rw [Nat.pos_iff_ne_zero, closings, Ne, Finset.sum_eq_zero_iff]
  simp [count_eq_zero]

theorem Running.released (h : Running p s) {e : PipeEnd} (he : p.Released s e) :
    ∃ i < p.numStages, ∃ x, (p.made i).stream x = some (.pipe e) := by
  rcases he with he | he
  · obtain ⟨i, hi, hmem⟩ := (closings_pos_iff _).1 he
    exact ⟨i, hi, (h.stage i hi).closes _ hmem⟩
  · rw [h.raw] at he
    cases he

theorem made_stdin (h0 : i ≠ 0) (hr : p.calls.fdopenRead i = true) :
    (p.made i).stdinStream = some (.pipe (.read (i - 1))) ∧ (p.made i).stdinIsExternal = false := by
  rw [made, (setupStderr_streams i _).1, (setupStderr_streams i _).2.2.1]
  simp [bare, madeStdin, h0, hr]

theorem made_stdout (hlast : i + 1 ≠ p.numStages) (hw : p.calls.fdopenWrite i = true) :
    (p.made i).stdoutStream = some (.pipe (.write i)) ∧ (p.made i).stdoutIsExternal = false := by
  rw [made, (setupStderr_streams i _).2.1, (setupStderr_streams i _).2.2.2.1]
  simp [bare, madeStdout, hlast, hw]

theorem Running.released_write (h : Running p s) (hi : i + 1 < p.numStages)
    (hw : p.calls.fdopenWrite i = true) (hdone : (s.stages i).pc = .done) :
    p.Released s (.write i) := by
  obtain ⟨hout, hext⟩ := made_stdout (p := p) (i := i) (by omega) hw
  refine .inl ((closings_pos_iff _).2 ⟨i, by omega, ?_⟩)
  exact (h.stage i (by omega)).stdoutClosed (by rw [hdone]; decide) _ hout hext

theorem Running.released_read (h : Running p s) (hi : i + 1 < p.numStages)
    (hr : p.calls.fdopenRead (i + 1) = true) (hdone : (s.stages (i + 1)).pc = .done) :
    p.Released s (.read i) := by
  obtain ⟨hin, hext⟩ := made_stdin (p := p) (i := i + 1) (by omega) hr
  refine .inl ((closings_pos_iff _).2 ⟨i + 1, hi, ?_⟩)
  exact (h.stage (i + 1) hi).stdinClosed hdone _ hin hext

/-! ## A connected pipeline does not stop -/

theorem flows_of_drains (hd : Drains c s (i + 1)) (h : p.Flows c s (i + 1)) : p.Flows c s i := by
  obtain ⟨j, hj, hij, hfree, hdrains⟩ := h
  refine ⟨j, hj, by omega, hfree, fun m hm him => ?_⟩
  by_cases heq : m = i + 1
  · rw [heq]
    exact hd
  · exact hdrains m hm (by omega)

section

variable (h : Running p s) (hc : p.Connected d)
include h hc

theorem Running.not_flows_succ (hstuck : ∀ j < p.numStages, (s.stages j).pc = .done ∨
      ((s.stages j).pc = .system ∧ p.Blocked (d.commands c) s j)) (hi : i < p.numStages)
    (hnot : ¬ p.Flows (d.commands c) s i) :
    i + 1 < p.numStages ∧ (s.stages (i + 1)).pc = .system ∧ ¬ p.Flows (d.commands c) s (i + 1) := by
  have hbusy : ¬ p.Free (d.commands c) s i :=
    fun hfree => hnot ⟨i, hi, Nat.le_refl i, hfree, fun m hm him => by omega⟩
  simp only [Execution.Free, not_or, not_not, Bool.not_eq_false] at hbusy
  obtain ⟨hfills, hstdout, hopen⟩ := hbusy
  have hmade := (h.stage i hi).streams .stdout _ hstdout
  rcases made_stream hmade with ⟨-, -, he⟩ | ⟨hlast, hw, -⟩
  · cases he
  have hsucc : i + 1 < p.numStages := by omega
  have hcopied : d.stage i = true := (Bool.and_eq_true_iff.1 hfills).1
  have hr := hc.write i hsucc hw hcopied
  rcases hstuck (i + 1) hsucc with hdone | ⟨hnext, hblocked⟩
  · exact absurd (h.released_read hsucc hr hdone) hopen
  refine ⟨hsucc, hnext, fun hflows => ?_⟩
  rcases hblocked with ⟨hreads, hstdin, -⟩ | hnotnext
  · exact hnot (flows_of_drains ⟨hnext, hreads, hstdin⟩ hflows)
  · exact hnotnext hflows

theorem Running.not_waitsForInput (hi : i < p.numStages)
    (hbefore : ∀ j < i, (s.stages j).pc = .done) : ¬ p.WaitsForInput (d.commands c) s i := by
  rintro ⟨hreads, hstdin, hopen⟩
  have hmade := (h.stage i hi).streams .stdin _ hstdin
  rcases made_stream hmade with ⟨h0, hr, -⟩ | ⟨-, -, he⟩
  · obtain ⟨k, rfl⟩ := Nat.exists_eq_succ_of_ne_zero h0
    have hcopied : d.stage (k + 1) = true := (Bool.and_eq_true_iff.1 hreads).1
    exact hopen (h.released_write hi (hc.read k hi hr hcopied) (hbefore k (Nat.lt_succ_self k)))
  · cases he

theorem Running.all_done (hstuck : ∀ j < p.numStages, (s.stages j).pc = .done ∨
      ((s.stages j).pc = .system ∧ p.Blocked (d.commands c) s j)) :
    ∀ j < p.numStages, (s.stages j).pc = .done := by
  -- no stage is blocked as a writer: the next one would be, up to the last, which has no pipe
  have hflows : ∀ k i, i + k = p.numStages → i < p.numStages → (s.stages i).pc = .system →
      p.Flows (d.commands c) s i := by
    intro k
    induction k with
    | zero =>
      omega
    | succ k ih =>
      intro i hk hi _
      by_contra hnot
      obtain ⟨hsucc, hnext, hnotnext⟩ := h.not_flows_succ hc hstuck hi hnot
      exact hnotnext (ih (i + 1) (by omega) hsucc hnext)
  intro j
  induction j using Nat.strongRecOn with
  | ind j ih =>
    intro hj
    rcases hstuck j hj with hdone | ⟨hpc, hwaits | hnot⟩
    · exact hdone
    · exact absurd hwaits (h.not_waitsForInput hc hj fun i hij => ih i hij (by omega))
    · exact absurd (hflows (p.numStages - j) j (by omega) hj hpc) hnot

end

theorem stuck_stage (hi : i < p.numStages) (hstarted : (s.stages i).pc ≠ .unstarted)
    (hnone : p.waitStep c s (.stage i) = none) :
    (s.stages i).pc = .done ∨ ((s.stages i).pc = .system ∧ p.Blocked c s i) := by
  simp only [Execution.waitStep, Execution.step] at hnone
  split at hnone
  · next hb => exact .inr hb
  · cases hpc : (s.stages i).pc with
    | unstarted => exact absurd hpc hstarted
    | done => exact .inl rfl
    | system | closeStdout | closeStderr | closeStdin =>
      rw [hpc] at hnone
      cases hnone

theorem Running.exists_step (h : Running p s) (hc : p.Connected d) (hmain : s.main ≠ .destroy 0) :
    ∃ l s', p.waitStep (d.commands c) s l = some s' := by
  by_contra hnot
  simp only [not_exists, ← Option.ne_none_iff_exists', not_not] at hnot
  have hnone : p.mainStep s s.main = none := by
    have hstep := hnot .main
    rwa [waitStep, if_neg hmain] at hstep
  obtain ⟨i, hi, hwait, hpc⟩ := waiting_of_mainStep_none h.destroyed hnone
  have hstarted : ∀ j < p.numStages, (s.stages j).pc ≠ .unstarted := by
    intro j hj hu
    have hfalse := (h.launched j (by rw [hwait]; exact hj) hj).1 hu
    rw [hc.launched j hj] at hfalse
    cases hfalse
  exact hpc (h.all_done hc (fun j hj => stuck_stage hj (hstarted j hj) (hnot (.stage j))) i hi)

/-! ## When `ios_pipeline_wait` has returned -/

theorem Running.isComplete_iff (h : Running p s) (hmain : s.main = .destroy 0) :
    p.isComplete s = true ↔ ∀ i < p.numStages, p.calls.pthreadCreate i = true := by
  have hcount : p.completedCount s
      = ((range p.numStages).filter fun i => (s.stages i).pc ≠ .unstarted).length := by
    rw [completedCount, hmain]
    rfl
  have hlen : (range p.numStages).length = p.numStages := length_range
  rw [isComplete, beq_iff_eq, hcount]
  nth_rewrite 2 [← hlen]
  rw [length_filter_eq_length_iff]
  refine forall_congr' fun i => ?_
  rw [mem_range, decide_eq_true_iff]
  refine forall_congr' fun hi => ?_
  rw [Ne, h.launched i (by rw [hmain]; exact hi) hi, Bool.not_eq_false]

theorem ends_of_connected (hc : p.Connected d) (c : Commands) :
    Transition.Ends (p.waitStep (d.commands c)) ⟨p.madeAt p.numStages, .launch 0, []⟩ fun s =>
      s.main = .destroy 0 ∧ p.isComplete s = true ∧ p.EndsInput s := by
  refine Transition.Ends.of_rank p.remaining Running.initial
    (fun t t' l ht hs => ⟨ht.step hs, ht.remaining_lt hs⟩) fun t ht hnot => ?_
  refine ht.exists_step hc fun hmain => hnot ⟨hmain, (ht.isComplete_iff hmain).2 hc.launched, ?_⟩
  -- every stage was launched
  intro i hi hu
  have hfalse :=
    (ht.launched i (by rw [hmain]; exact Nat.lt_of_succ_lt hi) (Nat.lt_of_succ_lt hi)).1 hu
  rw [hc.launched i (by omega)] at hfalse
  cases hfalse

/-! ## What makes it stop -/

theorem Running.of_run {labels : List Label}
    (hr : run (p.waitStep c) ⟨p.madeAt p.numStages, .launch 0, []⟩ labels = some s) : Running p s :=
  run_induction (fun _ t => Running p t) .initial (fun _ _ _ _ ht hs => ht.step hs) hr

theorem held_of_run {m : Nat}
    (hblocked : ∀ t, Running p t → (t.stages m).pc = .system → p.Blocked c t m)
    {labels : List Label}
    (hr : run (p.waitStep c) ⟨p.madeAt p.numStages, .launch 0, []⟩ labels = some s) :
    (s.stages m).pc = .unstarted ∨ (s.stages m).pc = .system := by
  refine (run_induction (fun _ t => Running p t ∧
    ((t.stages m).pc = .unstarted ∨ (t.stages m).pc = .system)) ⟨.initial, .inl ?_⟩ ?_ hr).2
  · show (p.madeAt p.numStages m).pc = .unstarted
    unfold madeAt
    split
    · exact (setupStderr_streams m _).2.2.2.2.2.1
    · rfl
  · rintro - t l t' ⟨ht, hpc⟩ hs
    refine ⟨ht.step hs, ?_⟩
    rcases waitStep_cases hs with ⟨-, hmain, hs⟩ | ⟨i, st, -, hi, hfree, hst, rfl⟩
    · grind [ht.mainStep_stages hmain hs m]
    · obtain ⟨-, -, hstarted, -⟩ := ht.stageStep hi hst
      by_cases him : i = m
      · subst him
        have hsystem := hpc.resolve_left hstarted
        exact absurd ⟨hsystem, hblocked t ht hsystem⟩ hfree
      · simpa [update_of_ne (Ne.symm him)] using hpc

theorem not_blocked_of_ends {m : Nat} (hm : m < p.numStages)
    (h : Transition.Ends (p.waitStep c) ⟨p.madeAt p.numStages, .launch 0, []⟩ fun s =>
      s.main = .destroy 0 ∧ p.isComplete s = true ∧ p.EndsInput s) :
    ¬∀ t, Running p t → (t.stages m).pc = .system → p.Blocked c t m := by
  intro hblocked
  obtain ⟨labels, s, hr, hmain, hcomplete, -⟩ := h.exists_final
  have hrun := Running.of_run hr
  have hlaunched := (hrun.isComplete_iff hmain).1 hcomplete m hm
  have hstarted : (s.stages m).pc ≠ .unstarted := by
    intro hu
    have hfalse := (hrun.launched m (by rw [hmain]; exact hm) hm).1 hu
    rw [hlaunched] at hfalse
    cases hfalse
  have hsystem := (held_of_run hblocked hr).resolve_left hstarted
  rcases hrun.joined m (by rw [hmain]; exact hm) with hu | hdone
  · exact hstarted hu
  · rw [hsystem] at hdone
    cases hdone

theorem connected_of_ends
    (h : ∀ c, Transition.Ends (p.waitStep (d.commands c)) ⟨p.madeAt p.numStages, .launch 0, []⟩
      fun s =>
      s.main = .destroy 0 ∧ p.isComplete s = true ∧ p.EndsInput s) : p.Connected d := by
  refine ⟨?_, fun i hi hr hcopied => ?_, fun i hi hw hcopied => ?_⟩
  · obtain ⟨labels, s, hr, hmain, hcomplete, -⟩ :=
      (h ⟨fun _ => false, fun _ => false⟩).exists_final
    exact ((Running.of_run hr).isComplete_iff hmain).1 hcomplete
  · -- the next stage waits for the end of its input
    by_contra hw
    refine not_blocked_of_ends hi (h ⟨fun _ => true, fun _ => false⟩) fun t ht hpc =>
      .inl ⟨?_, ?_, ?_⟩
    · simp [Strdup.commands, hcopied]
    · rw [(ht.stage (i + 1) hi).stdin (by rw [hpc]; decide)]
      exact (made_stdin (by omega) hr).1
    · intro hreleased
      obtain ⟨j, -, x, hx⟩ := ht.released hreleased
      rcases made_stream hx with ⟨-, -, he⟩ | ⟨-, hwj, he⟩
      · cases he
      · cases he
        exact hw hwj
  · -- the stage waits for a reader
    by_contra hr
    refine not_blocked_of_ends (Nat.lt_of_succ_lt hi) (h ⟨fun _ => false, fun _ => true⟩)
      fun t ht hpc => .inr ?_
    rintro ⟨j, -, hij, hfree, hdrains⟩
    by_cases heq : j = i
    · subst heq
      rcases hfree with hfills | hstdout | hreleased
      · simp [Strdup.commands, hcopied] at hfills
      · refine hstdout ?_
        rw [(ht.stage j (by omega)).stdout (by rw [hpc]; decide)]
        exact (made_stdout (by omega) hw).1
      · obtain ⟨k, -, x, hx⟩ := ht.released hreleased
        rcases made_stream hx with ⟨h0, hrk, he⟩ | ⟨-, -, he⟩
        · obtain ⟨k, rfl⟩ := Nat.exists_eq_succ_of_ne_zero h0
          cases he
          exact hr hrk
        · cases he
    · have hreads := (hdrains (i + 1) (by omega) (Nat.lt_succ_self i)).2.1
      simp [Strdup.commands] at hreads

end

/-! ## The theorem -/

theorem execute_of_pipes {p : Execution} {d : Strdup} (hcopy : d.copy = true) (hn : p.numStages ≠ 0)
    (hpipe : ∀ j, j + 1 < p.numStages → p.calls.pipe j = true) :
    p.execute d = .ready (p.madeAt p.numStages) := by
  have hcreate : p.create p.numStages = .ok (p.madeAt p.numStages) :=
    create_eq (Nat.le_refl _) fun j hj hlast => hpipe j (by omega)
  simp [execute, hcopy, hn, hcreate]

theorem execute_of_not_pipe {p : Execution} {d : Strdup} (hcopy : d.copy = true) {k : Nat}
    (hk : k + 1 < p.numStages) (hbefore : ∀ j < k, p.calls.pipe j = true)
    (hfail : p.calls.pipe k = false) : p.execute d = .failed k (p.madeIn k) := by
  have hn : p.numStages ≠ 0 := by omega
  have hcreate := create_error (show k < p.numStages by omega) hk hbefore hfail
  simp [execute, hcopy, hn, hcreate]

/--
Whatever the commands do, the call keeps its contract exactly if the failures are among those that a
pipeline survives.
-/
theorem pipeline_completes_iff (p : Execution) (d : Strdup) :
    (∀ c, p.Completes d c) ↔ p.Survives d := by
  have hany : Nonempty Commands := ⟨⟨fun _ => false, fun _ => false⟩⟩
  cases hcopy : d.copy with
  | false => simp [Execution.Completes, Execution.Survives, Execution.execute, hcopy]
  | true =>
    by_cases hn : p.numStages = 0
    · have hcleaned : Cleaned 0 fun _ => Stage.blank :=
        ⟨fun j hj => absurd hj (Nat.not_lt_zero j), fun i x e => by cases x <;>
          simp [Stage.stream, Stage.blank]⟩
      refine iff_of_true (fun c => ?_) ⟨hcopy, .inr ⟨fun j hj => by omega, ?_⟩⟩
      · simpa [Execution.Completes, Execution.execute, hcopy, hn] using hcleaned
      · exact ⟨fun i hi => by omega, fun i hi => by omega, fun i hi => by omega⟩
    · rcases pipe_cases p.calls p.numStages with hpipe | ⟨k, hk, hbefore, hfail⟩
      · have hexec := execute_of_pipes hcopy hn hpipe
        simp only [Execution.Completes, hexec]
        refine ⟨fun h => ⟨hcopy, .inr ⟨hpipe, connected_of_ends h⟩⟩, ?_⟩
        rintro ⟨-, ⟨k, hk, -, hfail, -⟩ | ⟨-, hc⟩⟩
        · rw [hpipe k hk] at hfail
          cases hfail
        · exact ends_of_connected hc
      · have hexec := execute_of_not_pipe hcopy hk hbefore hfail
        simp only [Execution.Completes, hexec, forall_const, cleaned_iff hk]
        refine ⟨fun h => ⟨hcopy, .inl ⟨k, hk, hbefore, hfail, h⟩⟩, ?_⟩
        rintro ⟨-, ⟨k', hk', hbefore', hfail', h⟩ | ⟨hpipe, -⟩⟩
        · rcases Nat.lt_trichotomy k k' with hlt | rfl | hgt
          · rw [hbefore' k hlt] at hfail
            cases hfail
          · exact h
          · rw [hbefore k' hgt] at hfail'
            cases hfail'
        · rw [hpipe k hk] at hfail
          cases hfail

/-- A pipeline of `n` stages without options, whose commands close no streams. -/
def plain (n : Nat) (calls : Calls) : Execution :=
  ⟨⟨none, none, none⟩, n, false, calls, fun _ => []⟩

/-- The first thread is not created: the second stage waits for the end of its input, and
`ios_pipeline_wait` for the second stage. The second `pipe` fails: both ends of the first pipe stay
open, with their streams. -/
theorem pipeline_hangs :
    (∃ stages s,
      (plain 2 { Calls.succeed with pthreadCreate := fun i => i ≠ 0 }).execute ⟨true, fun _ => true⟩
        = .ready stages ∧
      Transition.run ((plain 2 { Calls.succeed with pthreadCreate := fun i => i ≠ 0 }).waitStep
          ⟨fun _ => true, fun _ => false⟩)
        ⟨stages, .launch 0, []⟩ (List.replicate 4 .main) = some s ∧
      s.main = .wait 1 ∧
      ∀ l, (plain 2 { Calls.succeed with pthreadCreate := fun i => i ≠ 0 }).waitStep
        ⟨fun _ => true, fun _ => false⟩ s l = none) ∧
    ∃ stages,
      (plain 3 { Calls.succeed with pipe := fun i => i ≠ 1 }).execute ⟨true, fun _ => true⟩
        = .failed 1 stages ∧
      cleanup 1 stages = [] ∧ (stages 0).stdoutStream = some (.pipe (.write 0)) ∧
      (stages 1).stdinStream = some (.pipe (.read 0)) := by
  refine ⟨⟨_, _, rfl, rfl, rfl, fun l => ?_⟩, _, rfl, rfl, rfl, rfl⟩
  match l with
  | .main | .stage 0 | .stage 1 => rfl
  | .stage (i + 2) => exact waitStep_of_ge (Nat.le_add_left 2 i)

end IosSystem.Pipeline.Streams
