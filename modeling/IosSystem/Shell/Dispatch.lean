import IosSystem.Shell.Substitution

/-!
# How `ios_system` takes a command line apart

The first half of `ios_system`, up to the point where a command line is either handed to
`ios_execute_sequential`, to `ios_execute_conditional` or to the pipeline scheduler, or is a command
to be started. `plan` is the tree of all the calls of `ios_system` for one line. The steps of one
call:

1. a leading `"` or `(` is taken off (`stripQuote`, `stripParen`);
2. leading words with a `=` are assignments (`stripAssignments`);
3. a command `$NAME` is replaced by the value of the variable;
4. substitutions are expanded;
5. `;`, then `&&` and `||`, then aliases, then `|` (`action`).

Out of fuel, a call is `unfinished`.
-/

namespace IosSystem.Shell

/-- A leading `"` is dropped, and the next one becomes a blank. -/
def stripQuote : CStr → CStr
  | [] => []
  | c :: rest =>
    if c = '"' ∧ '"' ∈ rest then
      rest.takeWhile (· ≠ '"') ++ ' ' :: (rest.dropWhile (· ≠ '"')).tail
    else c :: rest

/-- The same with the parentheses around a line. -/
def stripParen : CStr → CStr
  | [] => []
  | c :: rest =>
    if c = '(' then
      match strstrquoted rest [')'] with
      | some i => rest.set i ' '
      | none => rest
    else c :: rest

/-- The loop over the leading words with a `=`: the assignments, and what is left of the command. -/
def assignmentLoop : Nat → CStr → List (CStr × CStr) × CStr
  | 0, command => ([], command)
  | fuel + 1, command =>
    match strstrquoted command [' '] with
    | none => ([], command)
    | some firstSpace =>
      let token := command.take firstSpace
      if '=' ∈ token then
        let r := assignmentLoop fuel (command.drop (firstSpace + 1))
        ((token.takeWhile (· ≠ '='), (token.dropWhile (· ≠ '=')).tail) :: r.1, r.2)
      else ([], command)

def stripAssignments (command : CStr) : List (CStr × CStr) × CStr :=
  assignmentLoop (command.length + 1) command

/-- Where an alias puts the arguments: `aliasedCommand[2]`. -/
inductive AliasPlace where
  | empty
  | afterLast
  | afterFirst
  | other
  deriving DecidableEq

/-- An entry of `aliasDictionary`. -/
structure Alias where
  before : CStr
  after : CStr
  place : AliasPlace

/-- What `ios_system` consults besides the command line. -/
structure Env where
  /-- `ios_getenv`, after the given assignments -/
  getenv : List (CStr × CStr) → CStr → Option CStr
  /-- `capture_command_output` -/
  capture : CStr → CStr
  /-- `aliasDictionary` -/
  aliases : CStr → Option Alias

/-- A command `$NAME` is replaced by the value of the variable. -/
def Env.variableCommand (env : Env) (assignments : List (CStr × CStr)) : CStr → CStr
  | [] => []
  | c :: name => if c = '$' then (env.getenv assignments name).getD (c :: name) else c :: name

/-- The steps of `ios_system` before the substitutions. -/
def Env.front (env : Env) (inputCmd : CStr) : CStr :=
  let r := stripAssignments (stripParen (stripQuote inputCmd))
  env.variableCommand r.1 r.2

/-- The alias of the first word, with the arguments in their place. -/
def Env.expandAlias (env : Env) (command : CStr) : CStr :=
  if command.head? = some '\\' then command
  else
    let firstSpace := strstrquoted command [' ']
    match env.aliases (command.take (firstSpace.getD command.length)) with
    | none => command
    | some a =>
      match a.place, firstSpace with
      | .empty, none => a.before
      | .empty, some i => a.before ++ ' ' :: command.drop (i + 1)
      | .afterLast, none => a.before ++ ' ' :: a.after
      | .afterLast, some i => a.before ++ ' ' :: command.drop (i + 1) ++ ' ' :: a.after
      | .afterFirst, none => a.before ++ ' ' :: a.after
      | .afterFirst, some i =>
        let arguments := command.drop (i + 1)
        match strstrquoted arguments [' '] with
        | none => a.before ++ ' ' :: arguments ++ ' ' :: a.after
        | some k =>
          a.before ++ ' ' :: arguments.take k ++ ' ' :: a.after ++ ' ' :: arguments.drop (k + 1)
      | .other, _ => command

def isBlank (c : Char) : Bool := c = ' ' ∨ c = '\t'

/-- `trim_whitespace` -/
def trimWhitespace (str : CStr) : CStr :=
  ((str.dropWhile isBlank).reverse.dropWhile isBlank).reverse

/-- A segment that is only blanks is dropped. -/
def keep (segment : CStr) : List CStr :=
  if trimWhitespace segment = [] then [] else [trimWhitespace segment]

def semicolonLoop : Nat → CStr → List CStr
  | 0, _ => []
  | fuel + 1, segmentStart =>
    match strstrquoted segmentStart [';'] with
    | none => keep segmentStart
    | some i => keep (segmentStart.take i) ++ semicolonLoop fuel (segmentStart.drop (i + 1))

/-- `parse_semicolons` -/
def parseSemicolons (input : CStr) : List CStr := semicolonLoop (input.length + 1) input

/-- `ios_shell_operator_t`: what stands behind a node of a conditional. -/
inductive CondOp where
  | none
  | and
  | or
  deriving DecidableEq

/-- The next `&&` or `||`, with its position. -/
def nextConditional (segmentStart : CStr) : Option (Nat × CondOp) :=
  match strstrquoted segmentStart ['&', '&'], strstrquoted segmentStart ['|', '|'] with
  | some a, none => some (a, .and)
  | some a, some o => if a < o then some (a, .and) else some (o, .or)
  | none, some o => some (o, .or)
  | none, none => none

def conditionalLoop : Nat → CStr → List (CStr × CondOp)
  | 0, _ => []
  | fuel + 1, segmentStart =>
    match nextConditional segmentStart with
    | none => (keep segmentStart).map (·, .none)
    | some (i, op) =>
      (keep (segmentStart.take i)).map (·, op) ++ conditionalLoop fuel (segmentStart.drop (i + 2))

/-- `parse_conditionals` -/
def parseConditionals (input : CStr) : List (CStr × CondOp) :=
  conditionalLoop (input.length + 1) input

/-- `MAX_PIPELINE_STAGES` -/
def maxPipelineStages : Nat := 32

def dropSpaces (str : CStr) : CStr := str.dropWhile (· = ' ')

def trimSpaces (str : CStr) : CStr := (dropSpaces (dropSpaces str).reverse).reverse

def keepStage (stage : CStr) : List CStr := if stage = [] then [] else [stage]

/--
The loop of `parse_pipeline`: `numStages` stages are stored, `stage` is the text between
`stage_start` and `ptr`, and `replaced` says that the next character has been replaced by a blank.
The result is the stages still to come and `share_stderr`.

When the array is full the loop ends, but the rest of the text is stored all the same.
-/
def pipelineLoop (numStages : Nat) (stage : CStr) (replaced : Bool) : CStr → List CStr × Bool
  | [] => (keepStage (trimSpaces stage), false)
  | ch :: rest =>
    let c := if replaced then ' ' else ch
    if maxPipelineStages ≤ numStages then (keepStage (trimSpaces (stage ++ c :: rest)), false)
    else if c = '|' then
      if stage.getLast? = some '&' then
        -- `&|` ends the stage at the `&`, and the blanks before it stay
        let s := keepStage (dropSpaces stage.dropLast)
        (s ++ (pipelineLoop (numStages + s.length) [] false rest).1, true)
      else
        let s := keepStage (trimSpaces stage)
        let r := pipelineLoop (numStages + s.length) [] (rest.head? = some '&') rest
        (s ++ r.1, rest.head? = some '&' || r.2)
    else pipelineLoop numStages (stage ++ [c]) false rest

/-- `parse_pipeline` -/
def parsePipeline (command : CStr) : List CStr × Bool := pipelineLoop 0 [] false command

/-- The test for `&&` and `||`. -/
def isConditional (command : CStr) : Bool :=
  match strstrquoted command ['&', '&'], strstrquoted command ['|', '|'] with
  | none, none => false
  | some _, none => true
  | _, some orPos =>
    match strstrquoted command ['|'] with
    | some pipeCheck => !(pipeCheck = orPos ∨ pipeCheck + 1 = orPos)
    | none => true

/-- What `ios_system` does with a line. -/
inductive Action where
  | sequential (text : CStr) (segments : List CStr)
  | conditional (text : CStr) (nodes : List (CStr × CondOp))
  | pipeline (text : CStr) (shareStderr : Bool) (stages : List CStr)
  | command (text : CStr)
  deriving DecidableEq

/-- The choice between them, in the order of the source. -/
def Env.action (env : Env) (command : CStr) : Action :=
  if (strstrquoted command [';']).isSome then .sequential command (parseSemicolons command)
  else if isConditional command then .conditional command (parseConditionals command)
  else
    let command := env.expandAlias command
    if (strstrquoted command ['|']).isSome then
      .pipeline command (parsePipeline command).2 (parsePipeline command).1
    else .command command

/-- The calls of `ios_system` that one call leads to. -/
inductive Plan where
  | unfinished
  | sequential (text : CStr) (segments : List Plan)
  | conditional (text : CStr) (ops : List CondOp) (nodes : List Plan)
  | pipeline (text : CStr) (shareStderr : Bool) (stages : List Plan)
  /-- more stages than `parse_pipeline` has room for -/
  | overflow (text : CStr)
  | command (text : CStr)

/-- The calls that `ios_execute_sequential`, `ios_execute_conditional` or the pipeline makes. -/
def Action.plan (run : CStr → Plan) : Action → Plan
  | .sequential text segments => .sequential text (segments.map run)
  | .conditional text nodes =>
    .conditional text (nodes.map Prod.snd) (nodes.map fun node => run node.1)
  | .pipeline text shareStderr stages =>
    if stages.length ≤ maxPipelineStages then .pipeline text shareStderr (stages.map run)
    else .overflow text
  | .command text => .command text

/-- `ios_system` -/
def Env.plan (env : Env) : Nat → CStr → Plan
  | 0, _ => .unfinished
  | fuel + 1, inputCmd =>
    match expandSubstitutions env.capture fuel (env.front inputCmd) with
    | none => .unfinished
    | some (_, command) => (env.action command).plan (env.plan fuel)

def plainEnv (getenv : List (CStr × CStr) → CStr → Option CStr) (capture : CStr → CStr) : Env :=
  { getenv, capture, aliases := fun _ => none }

end IosSystem.Shell
