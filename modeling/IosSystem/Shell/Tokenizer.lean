import IosSystem.Shell.Redirect

/-!
# From a command to its arguments

The text of a command is cut into arguments, and quotes and backslashes are removed. A pointer into
the text is a position, and a character that is overwritten by 0 is the end of an argument.

`nextUnescapedCharacter` does not count a backslash at the very beginning of the text that it is
given, unless the character that is searched for is right behind it.
-/

namespace IosSystem.Shell

/-- `numBackslash` for the occurrence at position `i`. -/
def backslashesBefore (str : CStr) (i : Nat) : Nat :=
  (((str.take i).drop 1).reverse.takeWhile (· = '\\')).length

/-- The loop of `nextUnescapedCharacter`, from position `i` on. -/
def nextUnescapedFrom (str : CStr) (c : Char) (i : Nat) : CStr → Option Nat
  | [] => none
  | ch :: rest =>
    if ch = c ∧ backslashesBefore str i % 2 = 0 then some i
    else nextUnescapedFrom str c (i + 1) rest

/-- `nextUnescapedCharacter` -/
def nextUnescapedCharacter (str : CStr) (c : Char) : Option Nat :=
  if str.take 2 = ['\\', c] then nextUnescapedFrom str c 2 (str.drop 2)
  else nextUnescapedFrom str c 0 str

/--
`getLastCharacterOfArgument`: the position behind the argument, and the text, which is rewritten if
a quote is written as `"\""` or `'\''`. The search goes on behind the first, and at the second.
-/
def getLastCharacterOfArgument : Nat → CStr → Option Nat × CStr
  | 0, argument => (none, argument)
  | _ + 1, [] => (none, [])
  | fuel + 1, q :: text =>
    if q = '"' ∨ q = '\'' then
      match nextUnescapedCharacter text q with
      | none => (none, q :: text)
      | some endquote =>
        let behind := text.drop (endquote + 1)
        if behind = [] ∨ behind.head? = some ' ' then (some (endquote + 2), q :: text)
        else if behind.take 2 = ['\\', q] then
          let rewritten := q :: (text.take endquote ++ behind.drop 2)
          let start := if q = '"' then endquote + 2 else endquote + 1
          let r := getLastCharacterOfArgument fuel (rewritten.drop start)
          (r.1.map (start + ·), rewritten.take start ++ r.2)
        else ((nextUnescapedCharacter behind ' ').map (endquote + 2 + ·), q :: text)
    else if q = recordSeparator then
      ((text.findIdx? (· = recordSeparator)).map (· + 2), q :: text)
    else ((nextUnescapedCharacter text ' ').map (· + 1), q :: text)

/-- Behind a backslash the next character is kept as it is. A backslash at the end of the text goes
away (the source looks for the next one behind the end of the text then). -/
def removeBackslashes : CStr → CStr
  | [] => []
  | [c] => if c = '\\' then [] else [c]
  | c :: d :: rest =>
    if c = '\\' then d :: removeBackslashes rest else c :: removeBackslashes (d :: rest)

def isQuote (c : Char) : Bool := c = '"' ∨ c = '\'' ∨ c = recordSeparator

/-- `unquoteArgument` -/
def unquoteArgument : CStr → CStr
  | [] => []
  | q :: rest =>
    if isQuote q ∧ (q :: rest).getLast? = some q then rest.dropLast
    else removeBackslashes (q :: rest)

/-- An entry of `argv` and of `dontExpand`. -/
structure Token where
  text : CStr
  dontExpand : Bool
  deriving DecidableEq

/-- `alias name=...`: the `=` becomes a blank when there is a blank behind it. -/
def splitAlias (str : CStr) : CStr :=
  if '=' ∈ str ∧ ' ' ∈ str ∧ str.idxOf '=' < str.idxOf ' ' then str.set (str.idxOf '=') ' ' else str

def onlyCommand (argv : List Token) (command : CStr) : Bool := argv.map Token.text = [command]

/-- The loop over the arguments; `argv` has been read. -/
def argumentLoop : Nat → List Token → CStr → List Token
  | 0, argv, _ => argv
  | fuel + 1, argv, str =>
    if str = [] then argv
    else if onlyCommand argv "export".toList then argv ++ [⟨str, false⟩]
    else
      let str := if onlyCommand argv "alias".toList then splitAlias str else str
      let r := getLastCharacterOfArgument (str.length + 1) str
      let dontExpand := str.head?.any isQuote
      match r.1 with
      | none => argv ++ [⟨unquoteArgument r.2, dontExpand⟩]
      | some last =>
        if r.2.length ≤ last then argv ++ [⟨unquoteArgument r.2, dontExpand⟩]
        else
          argumentLoop fuel (argv ++ [⟨unquoteArgument (r.2.take last), dontExpand⟩])
            (dropSpaces (r.2.drop (last + 1)))

/-- The arguments of a command, `argv`. -/
def arguments (command : CStr) : List Token := argumentLoop (command.length + 1) [] command

/--
What is left of a command without redirections: a `<` or `>` that was found is overwritten by 0 even
if it was not taken for a redirection.
-/
def commandText (command : CStr) : CStr :=
  if recordSeparator ∈ command then command
  else command.take (min ((strstrquoted command ['<']).getD command.length)
    ((strstrquoted command ['>']).getD command.length))

def Redirections.none : Redirections := ⟨.none, .none, .none, false⟩

/-- A line that is one command without redirections: the commands that `ios_system` runs for its
substitutions, and the arguments. -/
def Env.read (env : Env) (fuel : Nat) (inputCmd : CStr) : Option (List CStr × List Token) :=
  match expandSubstitutions env.capture fuel (env.front inputCmd) with
  | none => none
  | some (captured, command) =>
    match env.action command with
    | .command text =>
      if redirections text = Redirections.none then some (captured, arguments (commandText text))
      else none
    | _ => none

end IosSystem.Shell
