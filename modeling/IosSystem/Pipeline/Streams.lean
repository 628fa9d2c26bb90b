import IosSystem.Lib.Transition
import IosSystem.Shell.Dispatch
import Mathlib.Algebra.BigOperators.Group.Finset.Basic

/-!
# The streams of a pipeline

`ios_pipeline_execute` makes a pipe between two stages and a stream for each of its ends. The stage
thread closes the streams of its stage when its command has ended, and `ios_pipeline_destroy` closes
the descriptors for which there is no stream.

`ios_system` may close streams that it was given: for `> file` it closes the stream that the file
replaces, and `cleanup_function` closes those of `sh`. `commandCloses` stands for any such
behaviour.
-/

namespace IosSystem.Pipeline.Streams

open Function
open IosSystem.Shell

inductive Outside where
  | stdin
  | stdout
  | stderr
  | caller (n : Nat)
  deriving DecidableEq

/-- The descriptors of the pipe behind stage `i`. -/
inductive PipeEnd where
  | read (i : Nat)
  | write (i : Nat)
  deriving DecidableEq

/-- `FILE*`; a stream on a pipe is named by its descriptor. -/
inductive File where
  | outside (o : Outside)
  | pipe (e : PipeEnd)
  deriving DecidableEq

/-- `ios_pipeline_options_t` -/
structure Options where
  input : Option Outside
  output : Option Outside
  error : Option Outside

inductive Stream where
  | stdin
  | stdout
  | stderr
  deriving DecidableEq

/-- Where the thread of a stage is. -/
inductive StagePC where
  | unstarted
  /-- in `ios_system` -/
  | system
  /-- about to close `stdout_stream` -/
  | closeStdout
  | closeStderr
  | closeStdin
  | done
  deriving DecidableEq

/-- `ios_pipeline_stage_t` -/
structure Stage where
  stdinStream : Option File
  stdoutStream : Option File
  stderrStream : Option File
  stdinIsExternal : Bool
  stdoutIsExternal : Bool
  stderrIsExternal : Bool
  /-- `pipe_to_next[0] >= 0` -/
  readEnd : Bool
  /-- `pipe_to_next[1] >= 0` -/
  writeEnd : Bool
  pc : StagePC
  /-- the streams that were closed in this stage, in order -/
  closed : List File
  deriving DecidableEq

/-- A stage as `calloc` leaves it, with `pipe_to_next` set to -1. -/
def Stage.blank : Stage := ⟨none, none, none, false, false, false, false, false, .unstarted, []⟩

/-- Which system calls succeed. -/
structure Calls where
  pipe : Nat → Bool
  fdopenRead : Nat → Bool
  fdopenWrite : Nat → Bool
  pthreadCreate : Nat → Bool

def Calls.Succeed (c : Calls) : Prop :=
  ∀ i, c.pipe i = true ∧ c.fdopenRead i = true ∧ c.fdopenWrite i = true ∧ c.pthreadCreate i = true

/-- One call of `ios_pipeline_execute`, behind `parse_pipeline`. -/
structure Execution where
  options : Options
  numStages : Nat
  shareStderr : Bool
  calls : Calls
  /-- the streams that the command of a stage closes itself -/
  commandCloses : Nat → List Stream

def Execution.ofCommand (command : CStr) (options : Options) (calls : Calls)
    (commandCloses : Nat → List Stream) : Execution :=
  { options, calls, commandCloses
    numStages := (parsePipeline command).1.length
    shareStderr := (parsePipeline command).2 }

section

variable (p : Execution)

def Execution.setupStdin (i : Nat) (stages : Nat → Stage) : Nat → Stage :=
  if i = 0 then
    update stages i { stages i with
      stdinStream := some (.outside (p.options.input.getD .stdin)), stdinIsExternal := true }
  else if p.calls.fdopenRead i then
    update
      (update stages (i - 1) { stages (i - 1) with readEnd := false }) i { stages i with
        stdinStream := some (.pipe (.read (i - 1))), stdinIsExternal := false }
  else stages

/-- Set up stdout; `none` when `pipe` fails. -/
def Execution.setupStdout (i : Nat) (stages : Nat → Stage) : Option (Nat → Stage) :=
  if i + 1 = p.numStages then
    some (update stages i { stages i with
      stdoutStream := some (.outside (p.options.output.getD .stdout)), stdoutIsExternal := true })
  else if p.calls.pipe i then
    if p.calls.fdopenWrite i then
      some (update stages i { stages i with
        readEnd := true, stdoutStream := some (.pipe (.write i)), stdoutIsExternal := false })
    else some (update stages i { stages i with readEnd := true, writeEnd := true })
  else none

def Execution.setupStderr (i : Nat) (st : Stage) : Stage :=
  if p.shareStderr ∨ i + 1 = p.numStages then
    if i + 1 = p.numStages ∧ p.options.error.isSome then
      { st with stderrStream := p.options.error.map .outside, stderrIsExternal := true }
    else { st with stderrStream := st.stdoutStream, stderrIsExternal := st.stdoutIsExternal }
  else
    { st with
      stderrStream := some (.outside (p.options.error.getD .stderr))
      stderrIsExternal := p.options.error.isSome }

/-- The first `i` rounds of the loop that sets up the stages. -/
def Execution.setup : Nat → Option (Nat → Stage)
  | 0 => some fun _ => .blank
  | i + 1 => (Execution.setup i).bind fun stages =>
    (p.setupStdout i (p.setupStdin i stages)).map fun stages =>
      update stages i (p.setupStderr i (stages i))

end

def Stage.closeStdout (st : Stage) : Stage :=
  match st.stdoutStream with
  | some f =>
    if st.stdoutIsExternal = false ∧ f ≠ .outside .stdout then
      { st with stdoutStream := none, closed := st.closed ++ [f] }
    else st
  | none => st

/-- Close `stderr_stream`, unless it is `stdout_stream`. -/
def Stage.closeStderr (st : Stage) : Stage :=
  match st.stderrStream with
  | some f =>
    if st.stderrIsExternal = false ∧ f ≠ .outside .stderr ∧ st.stderrStream ≠ st.stdoutStream then
      { st with stderrStream := none, closed := st.closed ++ [f] }
    else st
  | none => st

def Stage.closeStdin (st : Stage) : Stage :=
  match st.stdinStream with
  | some f =>
    if st.stdinIsExternal = false ∧ f ≠ .outside .stdin then
      { st with stdinStream := none, closed := st.closed ++ [f] }
    else st
  | none => st

def Stage.stream (st : Stage) : Stream → Option File
  | .stdin => st.stdinStream
  | .stdout => st.stdoutStream
  | .stderr => st.stderrStream

/-- The end of `pipeline_stage_thread`: the streams are closed one by one. -/
def Stage.step (st : Stage) (commandCloses : List Stream) : StagePC → Option Stage
  | .unstarted | .done => none
  | .system => some { st with
      closed := st.closed ++ commandCloses.filterMap st.stream
      pc := .closeStdout }
  | .closeStdout => some { st.closeStdout with pc := .closeStderr }
  | .closeStderr => some { st.closeStderr with pc := .closeStdin }
  | .closeStdin => some { st.closeStdin with pc := .done }

/-- Where the thread is that has called `ios_pipeline_execute`. -/
inductive Main where
  /-- in `ios_pipeline_execute`, about to create the thread of stage `i` -/
  | launch (i : Nat)
  /-- in `ios_pipeline_wait`, about to join it -/
  | wait (i : Nat)
  /-- in `ios_pipeline_destroy`, about to close what is left of its pipe -/
  | destroy (i : Nat)
  | destroyed
  deriving DecidableEq

structure State where
  stages : Nat → Stage
  main : Main
  /-- the descriptors that `close` was called for -/
  rawClosed : List PipeEnd

def Stage.rawEnds (st : Stage) (i : Nat) : List PipeEnd :=
  (if st.readEnd then [.read i] else []) ++ (if st.writeEnd then [.write i] else [])

section

variable (p : Execution)

/-- Launch, wait, and destroy. -/
def Execution.mainStep (s : State) : Main → Option State
  | .launch i =>
    if i < p.numStages then
      let st := s.stages i
      some { s with
        stages := update s.stages i
          { st with pc := if p.calls.pthreadCreate i then .system else .unstarted }
        main := .launch (i + 1) }
    else some { s with main := .wait 0 }
  | .wait i =>
    if i < p.numStages then
      -- a stage that was not started has no thread to join
      if (s.stages i).pc = .unstarted ∨ (s.stages i).pc = .done then
        some { s with main := .wait (i + 1) }
      else none
    else some { s with main := .destroy 0 }
  | .destroy i =>
    if i < p.numStages then
      some { s with
        stages := update s.stages i { s.stages i with readEnd := false, writeEnd := false }
        main := .destroy (i + 1)
        rawClosed := s.rawClosed ++ (s.stages i).rawEnds i }
    else some { s with main := .destroyed }
  | .destroyed => none

inductive Label where
  | main
  | stage (i : Nat)

def Execution.step (s : State) : Label → Option State
  | .main => p.mainStep s s.main
  | .stage i =>
    if i < p.numStages then
      ((s.stages i).step (p.commandCloses i) (s.stages i).pc).map fun st =>
        { s with stages := update s.stages i st }
    else none

def Execution.Initial (s : State) : Prop :=
  ∃ stages, p.setup p.numStages = some stages ∧ s = ⟨stages, .launch 0, []⟩

def Execution.Reachable (s : State) : Prop :=
  Transition.Reachable p.step (fun _ _ => True) p.Initial s

/-- How often `fclose` was called for a stream. -/
def Execution.closings (s : State) (f : File) : Nat :=
  ∑ i ∈ Finset.range p.numStages, (s.stages i).closed.count f

/-- The descriptor was closed, by `fclose` or by `close`. -/
def Execution.Released (s : State) (e : PipeEnd) : Prop :=
  0 < p.closings s (.pipe e) ∨ e ∈ s.rawClosed

def Execution.HasEnd : PipeEnd → Prop
  | .read i | .write i => i + 1 < p.numStages

/--
No stream of the caller is closed. After `ios_pipeline_destroy`, each stream on a pipe has been
closed once, and the descriptor of each end is closed.
-/
def Execution.ClosedOnce (s : State) : Prop :=
  (∀ o, p.closings s (.outside o) = 0) ∧
  (s.main = .destroyed → ∀ e, p.HasEnd e → p.closings s (.pipe e) = 1 ∧ p.Released s e)

end

end IosSystem.Pipeline.Streams
