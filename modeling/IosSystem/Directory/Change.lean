import IosSystem.Interp.Instances

/-!
# Changes of the working directory

`chdir`, `ios_fchdir`, their variants without a lock, and `cd` change the directory first. Then they
ask `__allowed_cd_to_path` about the place where they are, and go back if it says no.
`ios_switchSession` goes to the directory of the session, and does not ask.

The calls run one after the other. What the system says to each request, and the file system that
the call finds, are part of the label (`Outcome`). A mini-root is set.
-/

namespace IosSystem.Directory

open IosSystem.Shell
open IosSystem.Interp.Instances (startsWith)

/-- `componentsSeparatedByString:@"/"` -/
def components : CStr → List CStr
  | [] => [[]]
  | c :: rest =>
    if c = '/' then [] :: components rest
    else
      match components rest with
      | [] => [[c]]
      | part :: parts => (c :: part) :: parts

/-- One round of the loop in `pathNormalizeArray`; the last part comes first. -/
def normalizePart (allowAboveRoot : Bool) (res : List CStr) (p : CStr) : List CStr :=
  if p = [] ∨ p = ".".toList then res
  else if p = "..".toList then
    match res with
    | last :: before => if last = "..".toList then
        if allowAboveRoot then p :: res else res
      else before
    | [] => if allowAboveRoot then [p] else []
  else p :: res

/-- `pathNormalizeArray` -/
def pathNormalizeArray (parts : List CStr) (allowAboveRoot : Bool) : List CStr :=
  (parts.foldl (normalizePart allowAboveRoot) []).reverse

/-- `pathNormalize` -/
def pathNormalize (path : CStr) : CStr :=
  let isAbsolute := startsWith path ['/']
  let result := ['/'].intercalate (pathNormalizeArray (components path) !isAbsolute)
  let result := if result = [] ∧ !isAbsolute then ['.'] else result
  let result := if result ≠ [] ∧ path.getLast? = some '/' then result ++ ['/'] else result
  if isAbsolute then '/' :: result else result

/-- `pathJoin` -/
def pathJoin (a b : CStr) : CStr :=
  if startsWith b ['/'] then pathNormalize b
  else if a = [] then pathNormalize b
  else if b = [] then pathNormalize a
  else pathNormalize (a ++ '/' :: b)

def inside (path dir : CStr) : Bool :=
  path = dir || startsWith path (if dir.getLast? = some '/' then dir else dir ++ ['/'])

/-- The roots that hold for all sessions. -/
structure Config where
  miniRoot : CStr
  allowedPaths : List CStr

/-- The directories of a session. -/
structure Session where
  currentDir : CStr
  previousDirectory : CStr
  localMiniRoot : CStr
  deriving DecidableEq

/-- The directory of the process, and the sessions. -/
structure State where
  cwd : CStr
  sessions : Nat → Session
  /-- `currentSession` of each thread -/
  current : Nat → Option Nat

def State.session (s : State) (t : Nat) : Option Session := (s.current t).map s.sessions

def State.setSession (s : State) (i : Nat) (f : Session → Session) : State :=
  { s with sessions := Function.update s.sessions i (f (s.sessions i)) }

/-- `errno` -/
inductive Error where
  /-- `ENOENT` -/
  | noSuchFile
  /-- `ENOTDIR` -/
  | notADirectory
  /-- `EACCES` -/
  | permissionDenied
  /-- the error of `fchdir` itself -/
  | system
  deriving DecidableEq

/-- A call returns a status. It may set `errno`, or print a message. -/
structure Result where
  status : Int
  error : Option Error
  state : State

/-- The name that `currentDirectoryPath` returns behind a change from `cwd` to `path`. -/
abbrev Names := (cwd path : CStr) → CStr

/-- What the file system answers to a call. -/
structure Outcome where
  real : Names
  /-- `fileExistsAtPath` -/
  fileExists : Bool
  isDirectory : Bool
  isReadable : Bool
  changed : Bool
  back : Bool

section

variable (config : Config)

/-- The test against all roots of a thread. -/
def State.permits (s : State) (test : CStr → CStr → Bool) (t : Nat) (path : CStr) : Bool :=
  test path config.miniRoot ||
    (match s.session t with
      | some x => x.localMiniRoot ≠ [] && test path x.localMiniRoot
      | none => false) ||
    config.allowedPaths.any (test path)

/-- `__allowed_cd_to_path` -/
def State.allowedCdToPath (s : State) (t : Nat) (path : CStr) : Bool :=
  s.permits config startsWith t path

def State.allowed (s : State) (t : Nat) (path : CStr) : Bool := s.permits config inside t path

/-- `changeCurrentDirectoryPath` -/
def State.change (s : State) (real : Names) (ok : Bool) (path : CStr) : State :=
  if ok then { s with cwd := real s.cwd path } else s

/-- The end of the functions, when the directory has been changed; `store` is for a session. -/
def State.settle (s : State) (t : Nat) (store : Session → Session) (real : Names) (back : Bool) :
    Result :=
  if s.allowedCdToPath config t s.cwd then
    match s.current t with
    | some i => ⟨0, none, s.setSession i store⟩
    | none => ⟨0, none, s⟩
  else
    match s.current t with
    | none => ⟨-1, some .permissionDenied, s⟩
    | some i =>
      if startsWith config.miniRoot s.cwd then
        -- the user tried to go above the mini-root
        ⟨-1, some .permissionDenied, (s.change real back config.miniRoot).setSession i fun x =>
          { x with currentDir := config.miniRoot, previousDirectory := config.miniRoot }⟩
      else ⟨-1, some .permissionDenied, s.change real back (s.sessions i).currentDir⟩

/-- The checks in their order. -/
def Outcome.error (o : Outcome) : Option Error :=
  if !o.fileExists then some .noSuchFile
  else if !o.isDirectory then some .notADirectory
  else if !o.isReadable || !o.changed then some .permissionDenied
  else none

/-- `chdir` -/
def State.chdir (s : State) (t : Nat) (path : CStr) (o : Outcome) : Result :=
  match o.error with
  | some e => ⟨-1, some e, s⟩
  | none =>
    { s with cwd := o.real s.cwd path }.settle config t
      (fun x => { x with currentDir := o.real s.cwd path }) o.real o.back

def State.chdirNolock (s : State) (t : Nat) (path : CStr) (o : Outcome) : Result :=
  s.chdir config t path o

/-- `ios_fchdir`, with the directory of the descriptor -/
def State.fchdir (s : State) (t : Nat) (dir : CStr) (o : Outcome) : Result :=
  if o.changed then
    { s with cwd := dir }.settle config t
      (fun x => { x with previousDirectory := x.currentDir, currentDir := dir }) o.real o.back
  else ⟨-1, some .system, s⟩

def State.fchdirNolock (s : State) (t : Nat) (dir : CStr) (o : Outcome) : Result :=
  s.fchdir config t dir o

/-- `__cd_to_dir`, which returns nothing -/
def State.cdToDir (s : State) (t : Nat) (newDir : CStr) (o : Outcome) : Result :=
  match o.error with
  | some e => ⟨0, some e, s⟩
  | none =>
    { { s with cwd := o.real s.cwd newDir }.settle config t
      (fun x => { x with previousDirectory := x.currentDir, currentDir := newDir })
      o.real o.back with
      status := 0 }

/-- `cd_main` -/
def State.cdMain (s : State) (t : Nat) (arg : Option CStr) (o : Outcome) : Result :=
  match s.current t with
  | none => ⟨1, none, s⟩
  | some i =>
    match arg with
    | some dir =>
      let dir := if dir = "-".toList then (s.sessions i).previousDirectory else dir
      s.cdToDir config t (pathJoin (s.sessions i).currentDir dir) o
    | none =>
      let s := s.change o.real o.changed config.miniRoot
      ⟨0, none, s.setSession i fun x =>
        { x with previousDirectory := x.currentDir, currentDir := s.cwd }⟩

/-- The directory part of `ios_switchSession`. -/
def State.switchSession (s : State) (t i : Nat) (o : Outcome) : Result :=
  if s.current t = some i then ⟨0, none, s⟩
  else
    let s := { s with current := Function.update s.current t (some i) }
    if (s.sessions i).currentDir = s.cwd then ⟨0, none, s⟩
    else ⟨0, none, s.change o.real o.changed (s.sessions i).currentDir⟩

/-- The calls that change a directory. -/
inductive Call where
  | chdir (t : Nat) (path : CStr) (o : Outcome)
  | chdirNolock (t : Nat) (path : CStr) (o : Outcome)
  | fchdir (t : Nat) (dir : CStr) (o : Outcome)
  | fchdirNolock (t : Nat) (dir : CStr) (o : Outcome)
  | cd (t : Nat) (arg : Option CStr) (o : Outcome)
  | switchSession (t i : Nat) (o : Outcome)

def Call.thread : Call → Nat
  | .chdir t _ _ | .chdirNolock t _ _ | .fchdir t _ _ | .fchdirNolock t _ _ | .cd t _ _
  | .switchSession t _ _ => t

def State.call (s : State) : Call → Result
  | .chdir t path o => s.chdir config t path o
  | .chdirNolock t path o => s.chdirNolock config t path o
  | .fchdir t dir o => s.fchdir config t dir o
  | .fchdirNolock t dir o => s.fchdirNolock config t dir o
  | .cd t arg o => s.cdMain config t arg o
  | .switchSession t i o => s.switchSession t i o

def step (s : State) (c : Call) : Option State := some (s.call config c).state

end

end IosSystem.Directory
