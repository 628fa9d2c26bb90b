import IosSystem.Interp.Instances

/-!
# From the name of a command to its function

`ios_system` looks for the name in `commandResolutionCache`, then in `commandList`. For a listed
name it takes the function that was registered for it, or loads the one that the list names and
stores it in the cache. `replaceCommand`, `addCommandList` and `registerCommandFunction` do not look
at the cache.

`ios_system_mutex` is held meanwhile, so a call is one step. The model begins behind the aliases and
the search along the path, with `commandList` loaded, and the dynamic linker always finds the same
functions.
-/

namespace IosSystem.Command

open IosSystem.Shell
open IosSystem.Interp.Instances
  (startsWith hasName family lookupExcluded storeExcluded instanceName)

abbrev Address := Nat

/-- The first two fields of a value of `commandList`. -/
structure Entry where
  library : CStr
  function : CStr
  deriving DecidableEq

/-- A handle of `dlopen`, or one of the constants. -/
inductive Handle where
  /-- `NULL` -/
  | null
  /-- `RTLD_SELF` -/
  | self
  /-- `RTLD_MAIN_ONLY` -/
  | main
  | library (name : CStr)
  deriving DecidableEq

/-- What `dlsym` and `dlopen` find. -/
structure Linker where
  self : CStr → Option Address
  main : CStr → Option Address
  /-- `RTLD_DEFAULT` -/
  default : CStr → Option Address
  /-- `none` if `dlopen` fails -/
  library : CStr → Option (CStr → Option Address)

/-- The library of an entry. -/
def Linker.handle (L : Linker) (name : CStr) : Handle :=
  if name = "SELF".toList then .self
  else if name = "MAIN".toList then .main
  else if (L.library name).isSome then .library name
  else .null

/-- `dlsym`, with the second attempt for `RTLD_MAIN_ONLY` -/
def Linker.dlsym (L : Linker) (handle : Handle) (function : CStr) : Option Address :=
  match handle with
  | .null => none
  | .self => L.self function
  | .main => (L.main function).or (L.default function)
  | .library name => (L.library name).bind (· function)

/-- The library that `dlopen` has opened. -/
def Handle.opened : Handle → Option CStr
  | .library name => some name
  | _ => none

/-- A value of `commandResolutionCache`. -/
structure CacheEntry where
  library : CStr
  function : CStr
  handle : Handle
  funcPtr : Address
  deriving DecidableEq

/-- The function that `ios_system` calls. -/
inductive Function where
  | command (address : Address)
  | tooManyScripts
  | commandNotFound
  deriving DecidableEq

/-- A command that was started and for which `cleanup_function` has not run. -/
structure Started where
  function : Function
  /-- `dlHandle` -/
  handle : Handle
  /-- the library that `ios_system` has opened for it -/
  opened : Option CStr
  deriving DecidableEq

/-- The tables, and the commands at work. -/
structure State where
  /-- `commandList` -/
  table : CStr → Option Entry
  /-- `registeredCommandFunctions` -/
  registered : CStr → Option Address
  /-- `commandResolutionCache`; `none` is `nil` -/
  cache : Option (CStr → Option CacheEntry)
  count : CStr → Nat
  commands : List Started

/--
After `initializeCommandList`, which returns before it creates the cache when the dictionary of the
extra commands cannot be read.
-/
def State.initial (table : CStr → Option Entry) (count : CStr → Nat) (created : Bool) : State :=
  { table := table, registered := fun _ => none
    cache := if created then some fun _ => none else none
    count := count, commands := [] }

/-- What has been found for a command, and what is to be stored. -/
structure Resolution where
  function : Function
  handle : Handle
  opened : Option CStr
  stored : Option (CStr × CacheEntry)

/-- The copy of a multi-instance command: its number, and `libraryName` with its letter. -/
structure Copy where
  number : Nat
  library : CStr

/-- Commands with a branch of their own in `ios_system`. -/
def multiInstance (name : CStr) : Bool :=
  startsWith name "python".toList || (family name).isSome || name = "curl".toList

/-- `commandName` when the copy is chosen. -/
def copyName (name : CStr) (number : Nat) : CStr :=
  if startsWith name "python".toList then
    if 0 < number then "python".toList ++ [Char.ofNat ('A'.toNat + (number - 1))] else name
  else
    match family name with
    | some f => instanceName name number f
    | none => name

/-- All calls of `sh` go to `dash`. -/
def commandName (name : CStr) : CStr := if name = "sh".toList then "dash".toList else name

/-- The look into `functionCache`. -/
def State.hit (s : State) (name : CStr) : Option CacheEntry :=
  if lookupExcluded name then none else s.cache.bind (· name)

section

variable (L : Linker)

/-- The function of an entry of `commandList`. -/
def State.load (s : State) (name : CStr) (e : Entry) : Resolution :=
  match s.registered name with
  | some address => ⟨.command address, .null, none, none⟩
  | none =>
    let handle := L.handle e.library
    match L.dlsym handle e.function with
    | none => ⟨.commandNotFound, handle, handle.opened, none⟩
    | some address =>
      ⟨.command address, handle, handle.opened, if storeExcluded name then none
        else some (name, ⟨e.library, e.function, handle, address⟩)⟩

/-- Without the cache; `none` is a command of which all copies are in use. -/
def State.resolveFresh (s : State) (name : CStr) (copy : Option Copy) : Resolution :=
  match s.table name with
  | none => ⟨.commandNotFound, .null, none, none⟩
  | some e =>
    if multiInstance name then
      match copy with
      | none => ⟨.tooManyScripts, .null, none, none⟩
      | some c => s.load L (copyName name c.number) { e with library := c.library }
    else s.load L name e

/-- The cache first, then the table. -/
def State.resolve (s : State) (name : CStr) (copy : Option Copy) : Resolution :=
  match s.hit name with
  | some e => ⟨.command e.funcPtr, e.handle, none, none⟩
  | none => s.resolveFresh L name copy

/-- The result is cached, and the thread of the command is created. -/
def State.start (s : State) (r : Resolution) (created : Bool) : State :=
  { s with
    cache := s.cache.map fun cache =>
      match r.stored with
      | some (name, e) => Function.update cache name (some e)
      | none => cache
    count := match r.opened with
      | some l => Function.update s.count l (s.count l + 1)
      | none => s.count
    commands := if created then s.commands ++ [⟨r.function, r.handle, r.opened⟩] else s.commands }

/-- `dlclose` in `cleanup_function` -/
def State.close (s : State) : Handle → State
  | .library l => { s with count := Function.update s.count l (s.count l - 1) }
  | _ => s

/-- `["MAIN", functionName, "", "file"]` -/
def mainEntry (function : CStr) : Entry := ⟨"MAIN".toList, function⟩

/-- `replaceCommand` -/
def State.replaceCommand (s : State) (name function : CStr) (allOccurences : Bool) : State :=
  if ((L.main function).or (L.default function)).isNone then s
  else
    { s with table := fun n =>
        if n = name then some (mainEntry function)
        else
          match s.table name, s.table n with
          | some old, some e =>
            if allOccurences ∧ e.function = old.function then some (mainEntry function) else some e
          | _, e => e }

/-- `addCommandList`; `none` is a file that cannot be read -/
def State.addCommandList (s : State) : Option (CStr → Option Entry) → State
  | none => s
  | some list => { s with table := fun n => (list n).or (s.table n) }

/-- `registerCommandFunction`; `none` is a null pointer -/
def State.registerCommandFunction (s : State) (name : CStr) : Option Address → State
  | none => s
  | some address => { s with registered := Function.update s.registered name (some address) }

inductive Label where
  /-- `ios_system`; `created` is the success of `pthread_create` -/
  | system (name : CStr) (copy : Option Copy) (created : Bool)
  /-- `cleanup_function` -/
  | cleanup (k : Nat)
  | replaceCommand (name function : CStr) (allOccurences : Bool)
  | addCommandList (list : Option (CStr → Option Entry))
  | registerCommandFunction (name : CStr) (address : Option Address)

def step (s : State) : Label → Option State
  | .system name copy created => some (s.start (s.resolve L (commandName name) copy) created)
  | .cleanup k => s.commands[k]?.map fun c =>
    { s with commands := s.commands.eraseIdx k }.close c.handle
  | .replaceCommand name function allOccurences =>
    some (s.replaceCommand L name function allOccurences)
  | .addCommandList list => some (s.addCommandList list)
  | .registerCommandFunction name address => some (s.registerCommandFunction name address)

end

section

variable {L : Linker} {s : State} {copy : Option Copy}

theorem resolve_of_hit {name : CStr} {e : CacheEntry} (h : s.hit name = some e) :
    s.resolve L name copy = ⟨.command e.funcPtr, e.handle, none, none⟩ := by
  rw [State.resolve, h]

theorem resolve_of_not_hit {name : CStr} (h : s.hit name = none) :
    s.resolve L name copy = s.resolveFresh L name copy := by
  rw [State.resolve, h]

theorem load_opened (name : CStr) (e : Entry) :
    (s.load L name e).opened = (s.load L name e).handle.opened := by
  unfold State.load
  cases s.registered name with
  | some address => rfl
  | none =>
    cases hsym : L.dlsym (L.handle e.library) e.function with
    | none => simp only [hsym]
    | some address => simp only [hsym]

theorem resolveFresh_opened (name : CStr) (copy : Option Copy) :
    (s.resolveFresh L name copy).opened = (s.resolveFresh L name copy).handle.opened := by
  unfold State.resolveFresh
  cases s.table name with
  | none => rfl
  | some e =>
    by_cases hmulti : multiInstance name = true
    · simp only [hmulti]
      cases copy with
      | none => rfl
      | some c => exact load_opened ..
    · simp only [hmulti]
      exact load_opened ..

end

end IosSystem.Command
