import IosSystem.Shell.Exec
import IosSystem.Shell.Redirect

/-!
# The stream that is left for the next command

`capture_command_output` and `ios_popen` leave a stream in `child_stdout` and call `ios_system`. The
first command that the calling thread starts itself takes the stream and closes it, on most of the
ways that it can end. `capture_command_output` closes it too.

* `iosSystem` — `ios_system` with its loops, as far as this stream is concerned. A substitution
  clears `child_stdout`, and the threads of a pipeline have one of their own.
* `Taken.uses` — what the command that has taken the stream does to it. Whether it is closed is
  decided in several places, by comparing file numbers and pointers.
* `ownCalls` — the commands that the calling thread starts, without any stream. `taken` is the first
  of them that counts, and `iosSystem_eq` says that this is the one that gets the stream.
-/

namespace IosSystem.Shell.Child

/-! ## The stream -/

/-- A `FILE*` and its `fileno`. -/
structure FileStream where
  pointer : Nat
  fileno : Int
  deriving DecidableEq

/-- The streams that are not to be closed. -/
structure Others where
  /-- `stdout` -/
  process : FileStream
  /-- `currentSession->stdout` -/
  session : FileStream
  /-- `thread_stdout` of the thread that calls `ios_system` -/
  thread : FileStream
  /-- `params->stdin` -/
  input : FileStream

def Others.all (o : Others) : List FileStream := [o.process, o.session, o.thread, o.input]

/-- `mustCloseStdout` of `cleanup_function` -/
def mustCloseStdout (o : Others) (w : FileStream) (isSh : Bool) : Bool :=
  let isPipeOut := w.pointer ≠ o.thread.pointer
  w.fileno ≠ o.process.fileno ∧ w.fileno ≠ o.input.fileno ∧
    (isSh ∨ isPipeOut ∧ w.fileno ≠ o.session.fileno)

/-- A use of the stream of the capture. -/
inductive Use where
  | write
  | flush
  | close
  deriving DecidableEq

/-- How far a command gets. One that is not found is dispatched too, as `command_not_found`. -/
inductive Fate where
  /-- no argument is left -/
  | empty
  /-- `pthread_create` fails -/
  | notCreated
  | dispatched (isSh : Bool)
  deriving DecidableEq

/-- The command that has taken the child streams. -/
structure Taken where
  /-- its input file has been opened, and takes the place of `child_stdin` -/
  input : Bool
  /-- its output file has been opened, and takes the place of `child_stdout` -/
  output : Bool
  fate : Fate
  deriving DecidableEq

def closeIf (b : Bool) : List Use := if b then [.close] else []

/-- What `ios_system` and the thread of the command do to the stream in `child_stdout`. -/
def Taken.uses (o : Others) (w : FileStream) (t : Taken) : List Use :=
  if t.output then closeIf (w.fileno ≠ o.session.fileno)
  else
    match t.fate with
    | .empty | .notCreated => []
    | .dispatched isSh => .write :: closeIf (mustCloseStdout o w isSh)

/-! ## `ios_system` -/

/-- What happens in one call of `ios_system` for a command. -/
structure Outcome where
  /-- there is memory for `params` -/
  params : Bool
  /-- the input file, if there is one, can be opened -/
  input : Bool
  /-- the output file, if there is one, can be opened -/
  output : Bool
  fate : Fate
  status : Int

def Outcome.taken (text : CStr) (o : Outcome) : Taken :=
  { input := (redirections text).input.isSome && o.input
    output := (redirections text).output.isSome && o.output
    fate := o.fate }

def Outcome.result (o : Outcome) : Int := if o.params then o.status else -1

/-- What the commands do, and whether the captures get a pipe. -/
structure World where
  /-- `capture_command_output` gets a pipe and a stream -/
  piped : CStr → Bool
  outcome : Nat → CStr → Outcome

structure State where
  /-- the stream is in `child_stdin` or `child_stdout` -/
  child : Bool
  takers : List Taken
  commands : Nat
  deriving DecidableEq

/-- `capture_command_output` clears the child streams, unless it returns before. -/
def State.substitute (w : World) (captured : List CStr) (s : State) : State :=
  if captured.any fun inner => inner ≠ [] ∧ w.piped inner then { s with child := false } else s

/-- A command takes the child streams as soon as it has its `params`. -/
def State.take (text : CStr) (o : Outcome) (s : State) : State :=
  if o.params then
    { s with child := false, takers := s.takers ++ if s.child then [o.taken text] else [] }
  else s

/-- One command. -/
def State.command (w : World) (text : CStr) (s : State) : State × Int :=
  let o := w.outcome s.commands text
  ({ s.take text o with commands := s.commands + 1 }, o.result)

section loops

variable (run : CStr → State → Option (State × Int))

/-- The loop of `ios_execute_sequential`. -/
def executeSequential : List CStr → State → Int → Option (State × Int)
  | [], s, result => some (s, result)
  | text :: texts, s, _ => (run text s).bind fun r => executeSequential texts r.1 r.2

/-- The loop of `ios_execute_conditional`; the last node does not stop the chain. -/
def executeConditional : List (CStr × CondOp) → State → Int → Option (State × Int)
  | [], s, result => some (s, result)
  | (text, op) :: nodes, s, _ =>
    (run text s).bind fun r =>
      if nodes.isEmpty = false ∧ (op = .and ∧ r.2 ≠ 0 ∨ op = .or ∧ r.2 = 0) then some r
      else executeConditional nodes r.1 r.2

/-- The stages of a pipeline. -/
def executeStages : List CStr → State → Int → Option (State × Int)
  | [], s, result => some (s, result)
  | text :: texts, s, _ =>
    (run text { s with child := false }).bind fun r =>
      executeStages texts { r.1 with child := s.child } r.2

end loops

/-- `ios_system`, as far as the stream is concerned. -/
def iosSystem (env : Env) (w : World) : Nat → CStr → State → Option (State × Int)
  | 0, _, _ => none
  | fuel + 1, inputCmd, s =>
    match expandSubstitutions env.capture fuel (env.front inputCmd) with
    | none => none
    | some (captured, command) =>
      let s := s.substitute w captured
      match env.action command with
      | .sequential _ segments => executeSequential (iosSystem env w fuel) segments s 0
      | .conditional _ nodes => executeConditional (iosSystem env w fuel) nodes s 0
      | .pipeline _ _ stages =>
        if stages.length ≤ maxPipelineStages then executeStages (iosSystem env w fuel) stages s (-1)
        else none
      | .command text => some (s.command w text)

/-- The stream is left in `child_stdout`, and no command has been started. -/
def State.initial : State := ⟨true, [], 0⟩

/-! ## The plan of a line -/

/-- The same steps, for `Machine.exec`. -/
def machine (w : World) : Machine State where
  release s := s
  fork s := some s
  command text s := some (s.command w text)
  spawn _ s := { s with child := false }
  join s s' := { s' with child := s.child }

section plan

variable {w : World} {run : CStr → State → Option (State × Int)} {plan : CStr → Plan}
  (h : ∀ text s, run text s = (machine w).exec (plan text) s)

include h

theorem executeSequential_eq (texts : List CStr) (s : State) (result : Int) :
    executeSequential run texts s result = (machine w).execAll (texts.map plan) s result := by
  induction texts generalizing s result with
  | nil => rfl
  | cons text texts ih =>
    simp only [executeSequential]
    rw [h]
    simp only [ih]
    rfl

theorem executeConditional_eq (nodes : List (CStr × CondOp)) (s : State) (result : Int) :
    executeConditional run nodes s result
      = (machine w).execChain (nodes.map Prod.snd) (nodes.map fun node => plan node.1) s
        result := by
  induction nodes generalizing s result with
  | nil => rfl
  | cons node nodes ih =>
    simp only [executeConditional, List.map_cons, Machine.execChain]
    rw [h]
    simp only [ih, CondOp.stops, List.isEmpty_map, decide_eq_true_eq]
    rfl

theorem executeStages_eq (texts : List CStr) (s : State) :
    executeStages run texts s (-1) = (machine w).execStages (texts.map plan) s := by
  cases texts with
  | nil => rfl
  | cons text texts =>
    -- the initial result does not matter when there is a stage
    generalize (-1 : Int) = result
    induction texts generalizing text s result with
    | nil => simp [executeStages, Machine.execStages, machine, h]
    | cons next texts ih =>
      rw [executeStages, List.map_cons, Machine.execStages, h]
      simp only [ih]
      rfl

end plan

/-- Without captures this is the execution of the plan. -/
theorem iosSystem_eq_exec {w : World} (hpiped : ∀ inner, w.piped inner = false) (env : Env)
    (fuel : Nat) (inputCmd : CStr) (s : State) :
    iosSystem env w fuel inputCmd s = (machine w).exec (env.plan fuel inputCmd) s := by
  induction fuel generalizing inputCmd s with
  | zero => rfl
  | succ fuel ih =>
    rw [iosSystem, Env.plan]
    cases expandSubstitutions env.capture fuel (env.front inputCmd) with
    | none => rfl
    | some r =>
      have hsub : s.substitute w r.1 = s := by simp [State.substitute, hpiped]
      dsimp only
      rw [hsub]
      cases env.action r.2 with
      | sequential text segments => exact executeSequential_eq ih segments s 0
      | conditional text nodes => exact executeConditional_eq ih nodes s 0
      | pipeline text shareStderr stages =>
        dsimp only [Action.plan]
        split
        · exact executeStages_eq ih stages s
        · rfl
      | command text => rfl

/-! ## `capture_command_output` -/

/-- What is done to the stream from the call of `ios_system` on. -/
def captureUses (env : Env) (w : World) (o : Others) (stream : FileStream) (fuel : Nat)
    (inner : CStr) : Option (List Use) :=
  (iosSystem env w fuel inner State.initial).map fun r =>
    r.1.takers.flatMap (Taken.uses o stream) ++ [.flush, .close]

/-! ## The commands of the calling thread -/

/-- What matters for the child streams of the calling thread. -/
inductive Event where
  | substituted
  | command (text : CStr) (o : Outcome)

/-- The events of a call, the number of commands behind it, and its result. -/
structure Calls where
  events : List Event
  commands : Nat
  status : Int

def substitutions (w : World) (captured : List CStr) : List Event :=
  if captured.any fun inner => inner ≠ [] ∧ w.piped inner then [.substituted] else []

def Calls.behind (events : List Event) (c : Calls) : Calls :=
  { c with events := events ++ c.events }

section loops

variable (run : CStr → Nat → Option Calls)

def ownSequential : List CStr → Nat → Int → Option Calls
  | [], n, result => some ⟨[], n, result⟩
  | text :: texts, n, _ =>
    (run text n).bind fun c => (ownSequential texts c.commands c.status).map (.behind c.events)

def ownConditional : List (CStr × CondOp) → Nat → Int → Option Calls
  | [], n, result => some ⟨[], n, result⟩
  | (text, op) :: nodes, n, _ =>
    (run text n).bind fun c =>
      if nodes.isEmpty = false ∧ (op = .and ∧ c.status ≠ 0 ∨ op = .or ∧ c.status = 0) then some c
      else (ownConditional nodes c.commands c.status).map (.behind c.events)

/-- The commands of a pipeline are started by the threads of its stages. -/
def ownStages : List CStr → Nat → Int → Option Calls
  | [], n, result => some ⟨[], n, result⟩
  | text :: texts, n, _ => (run text n).bind fun c => ownStages texts c.commands c.status

end loops

/-- The substitutions and the commands that the calling thread makes itself, in their order. -/
def ownCalls (env : Env) (w : World) : Nat → CStr → Nat → Option Calls
  | 0, _, _ => none
  | fuel + 1, inputCmd, n =>
    match expandSubstitutions env.capture fuel (env.front inputCmd) with
    | none => none
    | some (captured, command) =>
      (match env.action command with
        | .sequential _ segments => ownSequential (ownCalls env w fuel) segments n 0
        | .conditional _ nodes => ownConditional (ownCalls env w fuel) nodes n 0
        | .pipeline _ _ stages =>
          if stages.length ≤ maxPipelineStages then ownStages (ownCalls env w fuel) stages n (-1)
          else none
        | .command text =>
          some ⟨[.command text (w.outcome n text)], n + 1, (w.outcome n text).result⟩).map
        (.behind (substitutions w captured))

/-- The first command that has its `params`, unless there is a substitution before it. -/
def taken : List Event → Option Taken
  | [] => none
  | .substituted :: _ => none
  | .command text o :: events => if o.params then some (o.taken text) else taken events

def State.apply (s : State) : Event → State
  | .substituted => { s with child := false }
  | .command text o => s.take text o

def State.after (s : State) (c : Calls) : State :=
  { c.events.foldl State.apply s with commands := c.commands }

theorem State.apply_commands (s : State) (e : Event) (n : Nat) :
    { s.apply e with commands := n } = { s with commands := n }.apply e := by
  cases e with
  | substituted => rfl
  | command text o =>
    simp only [apply, take]
    split <;> rfl

theorem State.foldl_apply_commands (s : State) (events : List Event) (n : Nat) :
    { events.foldl State.apply s with commands := n }
      = events.foldl State.apply { s with commands := n } := by
  induction events generalizing s with
  | nil => rfl
  | cons e events ih => rw [List.foldl_cons, List.foldl_cons, ih, apply_commands]

theorem State.after_commands (s : State) (n : Nat) (c : Calls) :
    { s with commands := n }.after c = s.after c := by
  rw [after, after, ← foldl_apply_commands]

theorem takers_foldl_apply {s : State} (h : s.child = false) (events : List Event) :
    (events.foldl State.apply s).takers = s.takers := by
  induction events generalizing s with
  | nil => rfl
  | cons e events ih =>
    cases e with
    | substituted => exact ih rfl
    | command text o =>
      rw [List.foldl_cons, State.apply, State.take]
      split
      · rw [ih rfl, h]
        exact List.append_nil _
      · exact ih h

/-- The stage of a pipeline leaves the streams of the calling thread alone. -/
theorem State.after_stage (s : State) (c : Calls) :
    { { s with child := false }.after c with child := s.child }
      = { s with commands := c.commands } := by
  have htakers : ({ s with child := false }.after c).takers = s.takers :=
    takers_foldl_apply rfl c.events
  rw [State.mk.injEq]
  exact ⟨rfl, htakers, rfl⟩

/-- What `iosSystem` does, seen from the events. -/
def State.result (s : State) (c : Calls) : State × Int := (s.after c, c.status)

theorem State.result_behind (s : State) (events : List Event) (n : Nat) (c : Calls) :
    s.result (.behind events c) = { events.foldl State.apply s with commands := n }.result c := by
  have hafter : s.after (.behind events c) = (events.foldl State.apply s).after c := by
    rw [after, after, Calls.behind, List.foldl_append]
  rw [result, hafter, ← after_commands _ n]
  rfl

theorem State.substitute_eq (w : World) (captured : List CStr) (s : State) :
    s.substitute w captured = (substitutions w captured).foldl State.apply s := by
  unfold substitute substitutions
  split <;> rfl

theorem State.commands_substitute (w : World) (captured : List CStr) (s : State) :
    (s.substitute w captured).commands = s.commands := by
  unfold substitute
  split <;> rfl

/-- A call that goes on behind the events of another one. -/
theorem State.map_result_behind (s : State) (c : Calls) (next : Option Calls) :
    (next.map (.behind c.events)).map s.result = next.map (s.after c).result := by
  rw [Option.map_map]
  exact congrArg (Option.map · next) (funext fun c' => s.result_behind c.events c.commands c')

section loops

variable {run : CStr → State → Option (State × Int)} {own : CStr → Nat → Option Calls}
  (h : ∀ text s, run text s = (own text s.commands).map s.result)

include h

theorem executeSequential_eq_own (texts : List CStr) (s : State) (result : Int) :
    executeSequential run texts s result
      = (ownSequential own texts s.commands result).map s.result := by
  induction texts generalizing s result with
  | nil => rfl
  | cons text texts ih =>
    rw [executeSequential, ownSequential, h]
    cases own text s.commands with
    | none => rfl
    | some c =>
      rw [Option.map_some, Option.bind_some, Option.bind_some, State.map_result_behind]
      exact ih _ _

theorem executeConditional_eq_own (nodes : List (CStr × CondOp)) (s : State) (result : Int) :
    executeConditional run nodes s result
      = (ownConditional own nodes s.commands result).map s.result := by
  induction nodes generalizing s result with
  | nil => rfl
  | cons node nodes ih =>
    rw [executeConditional, ownConditional, h]
    cases own node.1 s.commands with
    | none => rfl
    | some c =>
      simp only [Option.map_some, Option.bind_some, State.result]
      split
      · rfl
      · rw [State.map_result_behind]
        exact ih _ _

theorem executeStages_eq_own (texts : List CStr) (s : State) (result : Int) :
    executeStages run texts s result = (ownStages own texts s.commands result).map s.result := by
  induction texts generalizing s result with
  | nil => rfl
  | cons text texts ih =>
    rw [executeStages, ownStages, h]
    cases own text s.commands with
    | none => rfl
    | some c =>
      simp only [Option.map_some, Option.bind_some, State.result, State.after_stage, ih]
      refine congrArg (Option.map · _) (funext fun c' => ?_)
      exact congrArg (·, c'.status) (s.after_commands c.commands c')

end loops

/-- `ios_system` does to the child streams what the events of the calling thread say. -/
theorem iosSystem_eq (env : Env) (w : World) (fuel : Nat) (inputCmd : CStr) (s : State) :
    iosSystem env w fuel inputCmd s = (ownCalls env w fuel inputCmd s.commands).map s.result := by
  induction fuel generalizing inputCmd s with
  | zero => rfl
  | succ fuel ih =>
    rw [iosSystem, ownCalls]
    cases expandSubstitutions env.capture fuel (env.front inputCmd) with
    | none => rfl
    | some r =>
      have hfold : s.result ∘ Calls.behind (substitutions w r.1) = (s.substitute w r.1).result := by
        refine funext fun c => ?_
        rw [Function.comp, s.result_behind _ s.commands, ← State.substitute_eq,
          ← s.commands_substitute w r.1]
      dsimp only
      rw [Option.map_map, hfold, ← s.commands_substitute w r.1]
      cases env.action r.2 with
      | sequential text segments => exact executeSequential_eq_own ih segments _ 0
      | conditional text nodes => exact executeConditional_eq_own ih nodes _ 0
      | pipeline text shareStderr stages =>
        dsimp only
        split
        · exact executeStages_eq_own ih stages _ (-1)
        · rfl
      | command text => rfl

theorem takers_foldl_initial (events : List Event) (n : Nat) :
    (events.foldl State.apply ⟨true, [], n⟩).takers = (taken events).toList := by
  induction events with
  | nil => rfl
  | cons e events ih =>
    cases e with
    | substituted => exact takers_foldl_apply rfl events
    | command text o =>
      rw [List.foldl_cons, State.apply, State.take, taken]
      split
      · exact takers_foldl_apply rfl events
      · exact ih

/-- The stream goes to the first command of the calling thread that counts, and to no other. -/
theorem takers_iosSystem (env : Env) (w : World) (fuel : Nat) (inputCmd : CStr) :
    (iosSystem env w fuel inputCmd State.initial).map (fun r => (r.1.takers, r.2))
      = (ownCalls env w fuel inputCmd 0).map fun c => ((taken c.events).toList, c.status) := by
  rw [iosSystem_eq, Option.map_map]
  refine congrArg (Option.map · _) (funext fun c => ?_)
  exact congrArg (·, c.status) (takers_foldl_initial c.events 0)

/-! ## The closes -/

/-- The last use closes the stream, and no other one does. -/
def ClosedOnce (uses : List Use) : Prop := ∃ before, uses = before ++ [.close] ∧ .close ∉ before

/-- The stream is none of the others. -/
def Fresh (stream : FileStream) (o : Others) : Prop :=
  ∀ other ∈ o.all, stream.pointer ≠ other.pointer ∧ stream.fileno ≠ other.fileno

/-- The commands that do not close the stream: they end before they have a thread, and have no
output file. -/
def Taken.Leaves (t : Taken) : Prop := t.output = false ∧ (t.fate = .empty ∨ t.fate = .notCreated)

theorem close_mem_uses_iff {stream : FileStream} {o : Others} (h : Fresh stream o) (t : Taken) :
    .close ∈ t.uses o stream ↔ ¬t.Leaves := by
  obtain ⟨hprocess, hsession, hthread, hinput⟩ : _ ∧ _ ∧ _ ∧ _ := by
    simpa [Fresh, Others.all] using h
  obtain ⟨input, output, fate⟩ := t
  cases output with
  | true => simp [Taken.uses, Taken.Leaves, closeIf, hsession.2]
  | false =>
    cases fate with
    | empty => simp [Taken.uses, Taken.Leaves]
    | notCreated => simp [Taken.uses, Taken.Leaves]
    | dispatched isSh =>
      simp [Taken.uses, Taken.Leaves, closeIf, mustCloseStdout, hprocess, hsession, hthread, hinput]

theorem closedOnce_append_iff (uses : List Use) :
    ClosedOnce (uses ++ [.flush, .close]) ↔ .close ∉ uses := by
  constructor
  · rintro ⟨before, heq, hbefore⟩ hclose
    have heq : uses ++ [.flush] ++ [.close] = before ++ [.close] := by simpa using heq
    rw [← (List.append_left_inj _).mp heq] at hbefore
    exact hbefore (List.mem_append_left _ hclose)
  · intro hclose
    exact ⟨uses ++ [.flush], by simp, by simpa using hclose⟩

/--
The stream is closed exactly once, and not used behind that, in these cases and no others: the
calling thread starts no command itself, or a substitution comes before the first one, or the first
one that has its `params` has no output file and ends before it has a thread.
-/
theorem capture_closedOnce_iff {env : Env} {w : World} {o : Others} {stream : FileStream}
    {fuel : Nat} {inner : CStr} {calls : Calls} (hfresh : Fresh stream o)
    (h : ownCalls env w fuel inner 0 = some calls) :
    ∃ uses, captureUses env w o stream fuel inner = some uses ∧
      (ClosedOnce uses ↔ ∀ t ∈ taken calls.events, t.Leaves) := by
  refine ⟨(taken calls.events).toList.flatMap (Taken.uses o stream) ++ [.flush, .close], ?_, ?_⟩
  · have htakers := takers_iosSystem env w fuel inner
    rw [h, Option.map_some] at htakers
    obtain ⟨r, hr, heq⟩ := Option.map_eq_some_iff.mp htakers
    rw [captureUses, hr, Option.map_some, (Prod.mk.inj heq).1]
  · rw [closedOnce_append_iff, List.mem_flatMap]
    simp [close_mem_uses_iff hfresh]

def someOthers : Others := ⟨⟨1, 1⟩, ⟨2, 4⟩, ⟨2, 4⟩, ⟨3, 3⟩⟩

def World.same (fate : Fate) (status : Int) : World :=
  ⟨fun _ => true, fun _ _ => ⟨true, true, true, fate, status⟩⟩

/-- `$(a|b;c)`, and no thread can be created for `c`. -/
theorem capture_closedOnce_notCreated : ∃ uses,
    captureUses (plainEnv (fun _ _ => none) id) (.same .notCreated 0) someOthers ⟨7, 7⟩ 5
      "a|b;c".toList = some uses ∧ ClosedOnce uses := by
  have h : ownCalls (plainEnv (fun _ _ => none) id) (.same .notCreated 0) 5 "a|b;c".toList 0
      = some ⟨[.command "c".toList ⟨true, true, true, .notCreated, 0⟩], 3, 0⟩ := rfl
  have hfresh : Fresh ⟨7, 7⟩ someOthers := by simp [Fresh, Others.all, someOthers]
  obtain ⟨uses, huses, hiff⟩ := capture_closedOnce_iff hfresh h
  refine ⟨uses, huses, hiff.mpr fun t ht => ?_⟩
  cases ht
  exact ⟨rfl, .inr rfl⟩

/-- `$(date)`: the command closes the stream when it ends, and it is flushed and closed again. -/
theorem capture_date_closed_twice :
    captureUses (plainEnv (fun _ _ => none) id) (.same (.dispatched false) 0) someOthers ⟨7, 7⟩ 3
        "date".toList
      = some [.write, .close, .flush, .close] := by
  rfl

end IosSystem.Shell.Child
