import IosSystem.Lib.Transition
import IosSystem.Shell.Text
import Mathlib.Data.List.Nodup
import Mathlib.Data.List.Perm.Basic
import Mathlib.Logic.Function.Basic

/-!
# Commands that run in several instances

`perl`, the TeX programs and the ssh commands exist in several copies of their library. `ios_system`
looks for a copy that is not in use, sets its flag and stores its number in
`params->numInterpreter`. `cleanup_function` clears the flag again, by the name of the command in
`argv[0]`.

`ios_system_mutex` allows one call at a time, while commands can end at any moment. The cache of
resolved commands leaves some names out, by their first letters, and not all of those that look for
a copy (`Guard`).
-/

namespace IosSystem.Interp.Instances

open List Option Function
open IosSystem.Shell

/-- The programs of which there are several copies. -/
inductive Family where
  | perl
  | tex
  | ssh
  deriving DecidableEq

/-- `MaxPerlInterpreters`, `MaxTeXInterpreters`, `MaxSshCommands` -/
def Family.max : Family → Nat
  | .perl => 4
  | .tex => 2
  | .ssh => 2

/-! ## Names -/

/-- `hasPrefix:`, or `strncmp` with the length of the second string -/
def startsWith (name start : CStr) : Bool := start.isPrefixOf name

def texPrograms : List CStr :=
  ["amstex", "cslatex", "csplain", "eplain", "etex", "jadetex", "latex", "mex", "mllatex", "mltex",
    "pdfsclatex", "pdfcsplain", "pdfetex", "pdfjadetex", "pdflatex", "pdfmex", "pdftex",
    "pdfxmltex", "tex", "texsis", "utf8mex", "xmltex", "texlua", "texluac", "dvilualatex",
    "dviluatex", "lualatex", "luatex", "luahbtex", "mptopdf", "optex", "xetex", "xelatex",
    "dvipdfmx", "xdvipdfmx"].map String.toList

def texCommands : List CStr := texPrograms ++ texPrograms.map (· ++ ['A'])

/-- `containsObject:` -/
def hasName (names : List CStr) (name : CStr) : Bool := names.any (· = name)

/-- The tests on the name, the same in `ios_system` and in `cleanup_function`. -/
def family (name : CStr) : Option Family :=
  if startsWith name "python".toList then none
  else if startsWith name "perl".toList then some .perl
  else if hasName texCommands name then some .tex
  else if name = "ssh".toList ∨ name = "scp".toList ∨ name = "sftp".toList then some .ssh
  else none

/-- The names that are not looked up in `functionCache`. -/
def lookupExcluded (name : CStr) : Bool :=
  startsWith name "python".toList || startsWith name "perl".toList ||
    startsWith name "tex".toList ||
    startsWith name "latex".toList || startsWith name "ssh".toList || name = "curl".toList

/-- The names that are not stored there. -/
def storeExcluded (name : CStr) : Bool :=
  startsWith name "python".toList || startsWith name "perl".toList ||
    startsWith name "tex".toList ||
    startsWith name "latex".toList || name = "dash".toList || name = "sh".toList ||
    startsWith name "ssh".toList || name = "curl".toList

/-- `commandName` when the copy is chosen. The TeX programs only change `libraryName`. -/
def instanceName (name : CStr) (numInterpreter : Nat) : Family → CStr
  | .perl =>
    if 0 < numInterpreter then "perl".toList ++ [Char.ofNat ('A'.toNat + (numInterpreter - 1))]
    else name
  | .tex => name
  | .ssh =>
    if 0 < numInterpreter then "ssh_cmd".toList ++ [Char.ofNat ('A'.toNat + (numInterpreter - 1))]
    else name

/-- `argv[0][0] = 'x'` -/
def crossed : CStr → CStr
  | [] => []
  | _ :: rest => 'x' :: rest

/-! ## `ios_system` and `cleanup_function` -/

structure Config where
  /-- `commandList` has the name -/
  listed : CStr → Bool
  /-- `numPerlInterpreters`, `numTeXInterpreters`, `numSshCommands` -/
  num : Family → Nat
  num_le : ∀ f, num f ≤ f.max

inductive Function where
  | command
  | tooManyScripts
  | commandNotFound
  deriving DecidableEq

/-- A command that was started and for which `cleanup_function` has not run. -/
structure Command where
  argv0 : CStr
  numInterpreter : Nat
  function : Function
  slot : Option Nat
  /-- `interp_handle` reads as null; nobody has set it -/
  handleNull : Bool
  deriving DecidableEq

/-- Where the call of `ios_system` is. -/
inductive Place where
  /-- about to test the flag of copy `i` -/
  | scan (i : Nat)
  /-- about to set the flag of copy `i` -/
  | chosen (i : Nat)
  | full
  | timedOut
  | cached
  /-- the name is not in `commandList` -/
  | unlisted
  deriving DecidableEq

/-- A call of `ios_system` that holds the mutex. -/
structure Call where
  name : CStr
  family : Family
  place : Place
  deriving DecidableEq

/-- The flags of all families, and the commands at work. -/
structure State where
  isRunning : Family → Nat → Bool
  /-- `currentPerlInterpreter`, `currentTeXInterpreter`, `currentSshCommand` -/
  current : Family → Nat
  /-- the names in `commandResolutionCache` -/
  cache : List CStr
  commands : List Command
  /-- the call that holds `ios_system_mutex` -/
  call : Option Call

def State.initial : State := ⟨fun _ _ => false, fun _ => 0, [], [], none⟩

/-- What the calls of the system return, and what `malloc` leaves in `params`. -/
structure Outcome where
  /-- `registeredCommandFunctions` has the name -/
  registered : Bool
  /-- `dlopen` and `dlsym` -/
  loaded : Bool
  /-- `pthread_create` -/
  created : Bool
  handleNull : Bool

def State.setRunning (s : State) (f : Family) (i : Nat) (b : Bool) : State :=
  { s with isRunning := update s.isRunning f (update (s.isRunning f) i b) }

def State.start (s : State) (o : Outcome) (c : Command) : State :=
  { s with commands := if o.created then s.commands ++ [c] else s.commands, call := none }

section

variable (config : Config)

def State.hit (s : State) (name : CStr) : Bool :=
  hasName s.cache name && !lookupExcluded name

/-- `ios_system` up to the search for a copy. -/
def State.begin (s : State) (name : CStr) (f : Family) : State :=
  if s.hit name then { s with call := some ⟨name, f, .cached⟩ }
  else if config.listed name then
    if s.current f < config.num f then
      { s with
        current := update s.current f (s.current f + 1)
        call := some ⟨name, f, .chosen (s.current f)⟩ }
    else { s with call := some ⟨name, f, .scan 0⟩ }
  else { s with call := some ⟨name, f, .unlisted⟩ }

/-- What the loop does when no copy is free: `ssh` begins again until its time is up. -/
def giveUp (timeUp : Bool) : Family → Place
  | .perl | .tex => .full
  | .ssh => if timeUp then .timedOut else .scan 0

/-- One iteration of the search for a free copy. -/
def State.scan (s : State) (c : Call) (i : Nat) (timeUp : Bool) : State :=
  { s with call := some { c with
      place :=
        if i < config.num c.family then
          if s.isRunning c.family i then .scan (i + 1) else .chosen i
        else giveUp timeUp c.family } }

/-- `dlsym`, and the function stored in the cache. -/
def State.resolve (s : State) (o : Outcome) (commandName : CStr) : State × Function :=
  if o.registered then (s, .command)
  else if o.loaded then
    (if storeExcluded commandName then s else { s with cache := commandName :: s.cache }, .command)
  else (s, .commandNotFound)

/-- `ios_system` behind the search. -/
def State.launch (s : State) (c : Call) (o : Outcome) : Place → Option State
  | .scan _ => none
  | .chosen i =>
    let r := (s.setRunning c.family i true).resolve o (instanceName c.name i c.family)
    some (r.1.start o ⟨c.name, i, r.2, some i, o.handleNull⟩)
  | .full => some (s.start o ⟨crossed c.name, 0, .tooManyScripts, none, o.handleNull⟩)
  | .timedOut =>
    -- `numInterpreter` is 0 after the search, and the flag is set as if it had been chosen
    let s := if 0 < config.num c.family then s.setRunning c.family 0 true else s
    some (s.start o ⟨crossed c.name, 0, .tooManyScripts, none, o.handleNull⟩)
  | .cached => some (s.start o ⟨c.name, 0, .command, none, o.handleNull⟩)
  | .unlisted => some (s.start o ⟨c.name, 0, .commandNotFound, none, o.handleNull⟩)

/-- The flag that `cleanup_function` clears. -/
def Command.releases (c : Command) : Option Family := if c.handleNull then family c.argv0 else none

/-- `cleanup_function` of command `k`. -/
def State.cleanup (s : State) (k : Nat) (c : Command) : State :=
  let s := { s with commands := s.commands.eraseIdx k }
  match c.releases with
  | some f => s.setRunning f c.numInterpreter false
  | none => s

inductive Label where
  /-- `ios_system` takes the mutex -/
  | begin (name : CStr)
  | scan (timeUp : Bool)
  | launch (o : Outcome)
  | cleanup (k : Nat)

def step (s : State) : Label → Option State
  | .begin name => if s.call = none then (family name).map (s.begin config name) else none
  | .scan timeUp => s.call.bind fun c =>
    match c.place with
    | .scan i => some (s.scan config c i timeUp)
    | _ => none
  | .launch o => s.call.bind fun c => s.launch config c o c.place
  | .cleanup k => s.commands[k]?.map (s.cleanup k)

def Reachable (s : State) : Prop :=
  Transition.Reachable (step config) (fun _ _ => True) (· = State.initial) s

end

/-! ## Ownership -/

/-- The flag that `cleanup_function` will clear. -/
def Command.owned (c : Command) : Option (Family × Nat) :=
  (family c.argv0).bind fun f => c.slot.map (f, ·)

def State.owners (s : State) : List (Family × Nat) := s.commands.filterMap Command.owned

/--
A flag is set exactly when a command owns the copy, no two commands own the same copy, and every
command that was started owns one.
-/
structure SlotsOwned (s : State) : Prop where
  running_iff : ∀ f i, s.isRunning f i = true ↔ (f, i) ∈ s.owners
  unique : s.owners.Nodup
  owns : ∀ c ∈ s.commands, c.function = .command → c.owned.isSome = true

/--
The steps that keep the flags right.

* The name is listed, and the function does not come from the cache.
* When a copy was chosen, the thread is created, and `malloc` has left a null pointer in
  `interp_handle`.
* When there is no free copy, the first letter of the name can be changed to an `x`: it is not one
  already. An ssh command that runs out of time finds the flag of the first copy still set.
-/
def Guard (config : Config) (s : State) : Label → Prop
  | .begin name => config.listed name = true ∧ s.hit name = false
  | .launch o => ∀ c ∈ s.call, (∀ i, c.place = .chosen i → o.created = true ∧ o.handleNull = true) ∧
    (c.place = .full → c.name.head? ≠ some 'x') ∧
    (c.place = .timedOut → 0 < config.num c.family → s.isRunning c.family 0 = true)
  | _ => True

/-! ## Names with an `x` -/

theorem hasName_iff (names : List CStr) (name : CStr) : hasName names name = true ↔
    name ∈ names := by
  simp [hasName]

variable {name : CStr} {f : Family} {i : Nat} {s : State} {c : Call}

theorem family_crossed (hf : family name = some f)
    (hx : name.head? ≠ some 'x') : family (crossed name) = none := by
  have htex : ∀ n ∈ texCommands, n.head? ≠ some 'x' → family (crossed n) = none := by
    decide +kernel
  unfold family at hf
  split at hf
  · cases hf
  · split at hf
    · next hperl =>
      -- `xerl` and so on
      obtain ⟨rest, rfl⟩ : ∃ rest, name = 'p' :: 'e' :: 'r' :: 'l' :: rest := by
        obtain ⟨rest, hrest⟩ := isPrefixOf_iff_prefix.mp hperl
        exact ⟨rest, hrest.symm⟩
      have hnone : ∀ n ∈ texCommands, startsWith n "xerl".toList = false := by decide +kernel
      have hmem : hasName texCommands ('x' :: 'e' :: 'r' :: 'l' :: rest) = false := by
        rw [Bool.eq_false_iff, ne_eq, hasName_iff]
        intro hmem
        have := hnone _ hmem
        simp [startsWith] at this
      simp [family, crossed, startsWith, hmem]
    · split at hf
      · next hmem => exact htex name ((hasName_iff _ _).mp hmem) hx
      · split at hf
        · next hssh => rcases hssh with rfl | rfl | rfl <;> decide +kernel
        · cases hf

/-! ## The flags -/

open Instances.State Instances.Command

theorem isRunning_setRunning (s : State) (f f' : Family) (i i' : Nat) (b : Bool) :
    (s.setRunning f i b).isRunning f' i' = if (f', i') = (f, i) then b else s.isRunning f' i' := by
  simp only [setRunning, update_apply]
  grind

theorem setRunning_of_eq {b : Bool} (h : s.isRunning f i = b) : s.setRunning f i b = s := by
  subst h
  simp [setRunning]

/-! ## The invariant -/

/-- A command owns the copy whose flag it will clear, or its name is unknown to `cleanup_function`.
-/
structure Command.Ok (c : Command) : Prop where
  owner : ∀ i, c.slot = some i →
    c.numInterpreter = i ∧ c.handleNull = true ∧ (family c.argv0).isSome = true
  other : c.slot = none → c.function ≠ .command ∧ family c.argv0 = none

structure Call.Ok (config : Config) (s : State) (c : Call) : Prop where
  family : Instances.family c.name = some c.family
  scan : ∀ i, c.place = .scan i → config.num c.family ≤ s.current c.family
  chosen : ∀ i, c.place = .chosen i → i < s.current c.family ∧ s.isRunning c.family i = false
  timedOut : c.place = .timedOut → c.family = .ssh
  fresh : c.place ≠ .cached ∧ c.place ≠ .unlisted

/-- The flags that are set belong to the commands at work, one each. -/
structure Inv (config : Config) (s : State) : Prop where
  running_iff : ∀ f i, s.isRunning f i = true ↔ (f, i) ∈ s.owners
  unique : s.owners.Nodup
  commands : ∀ c ∈ s.commands, c.Ok
  unused : ∀ f i, s.current f ≤ i → s.isRunning f i = false
  call : ∀ c ∈ s.call, c.Ok config s

attribute [grind cases] Call.Ok Inv

section

variable {config : Config} {s' : State}

theorem Call.Ok.mono (h : c.Ok config s) (hcurrent : s'.current = s.current)
    (hrunning : ∀ f i, s.isRunning f i = false → s'.isRunning f i = false) : c.Ok config s' := by
  constructor <;> grind

theorem Inv.initial : Inv config State.initial := by
  refine ⟨fun f i => ?_, nodup_nil, fun c hc => ?_, fun f i _ => rfl, fun c hc => ?_⟩
  · simp [State.initial, State.owners]
  · cases hc
  · cases hc

section

variable (h : Inv config s)
include h

theorem Inv.slotsOwned : SlotsOwned s := by
  refine ⟨h.running_iff, h.unique, fun c hc hcommand => ?_⟩
  cases hslot : c.slot with
  | none => exact absurd hcommand ((h.commands c hc).other hslot).1
  | some i =>
    obtain ⟨f, hf⟩ := isSome_iff_exists.mp ((h.commands c hc).owner i hslot).2.2
    simp [owned, hf, hslot]

theorem Inv.goto {current : Family → Nat} {call : Option Call}
    (hcurrent : ∀ f, s.current f ≤ current f)
    (hcall : ∀ c ∈ call, c.Ok config { s with current := current, call := call }) :
    Inv config { s with current := current, call := call } :=
  ⟨h.running_iff, h.unique, h.commands, fun f i hi => h.unused f i (Nat.le_trans (hcurrent f) hi),
    hcall⟩

theorem Inv.begin (hf : family name = some f) (hlisted : config.listed name = true)
    (hhit : s.hit name = false) : Inv config (s.begin config name f) := by
  unfold State.begin
  rw [hhit, hlisted]
  simp only [Bool.false_eq_true, if_false, if_true]
  split
  · -- the next copy that was never used
    refine h.goto (fun f' => by grind) ?_
    rintro _ ⟨⟩
    constructor <;> simp only <;> grind
  · refine h.goto (fun _ => Nat.le_refl _) ?_
    rintro _ ⟨⟩
    constructor <;> simp only <;> grind

theorem Inv.scan (hc : s.call = some c) (hi : c.place = .scan i) (timeUp : Bool) :
    Inv config (s.scan config c i timeUp) := by
  have hok := h.call c hc
  refine h.goto (fun _ => Nat.le_refl _) ?_
  rintro _ ⟨⟩
  have hgive : giveUp timeUp c.family = .full ∨ giveUp timeUp c.family = .scan 0 ∨
      giveUp timeUp c.family = .timedOut ∧ c.family = .ssh := by
    cases c.family <;> cases timeUp <;> simp [giveUp]
  constructor <;> simp only <;> grind

theorem Inv.start_other (o : Outcome) {c : Command} (hc : c.Ok) (hslot : c.slot = none) :
    Inv config (s.start o c) := by
  have howners : (s.start o c).owners = s.owners := by
    unfold owners start
    split
    · simp [owned, hslot]
    · rfl
  refine ⟨fun f i => ?_, ?_, ?_, h.unused, fun _ hcall => (by cases hcall)⟩
  · rw [howners]
    exact h.running_iff f i
  · rw [howners]
    exact h.unique
  · simp only [start]
    grind

theorem Inv.own (hfree : s.isRunning f i = false) (hi : i < s.current f) {cache : List CStr}
    {c : Command} (hc : c.Ok) (hf : family c.argv0 = some f) (hslot : c.slot = some i) :
    Inv config { s.setRunning f i true with
      cache := cache, commands := s.commands ++ [c], call := none } := by
  have hnot : (f, i) ∉ s.owners := fun hmem => by
    rw [(h.running_iff f i).mpr hmem] at hfree
    cases hfree
  have howners : ({ s.setRunning f i true with
      cache := cache, commands := s.commands ++ [c], call := none } : State).owners
        = s.owners ++ [(f, i)] := by
    unfold owners
    simp [owned, hf, hslot]
  refine ⟨fun f' i' => ?_, ?_, ?_, fun f' i' hle => ?_, fun _ hcall => (by cases hcall)⟩
  · simp only [isRunning_setRunning]
    grind
  · rw [howners]
    exact nodup_append.mpr ⟨h.unique, nodup_singleton _, fun x hx y hy hxy =>
      hnot (by rw [← mem_singleton.mp hy, ← hxy]; exact hx)⟩
  · grind
  · have hle' : s.current f' ≤ i' := hle
    simp only [isRunning_setRunning]
    grind

end

theorem resolve_eq (s : State) (o : Outcome) (commandName : CStr) :
    ∃ cache, (s.resolve o commandName).1 = { s with cache := cache } := by
  unfold resolve
  split
  · exact ⟨s.cache, rfl⟩
  · split
    · split
      · exact ⟨s.cache, rfl⟩
      · exact ⟨commandName :: s.cache, rfl⟩
    · exact ⟨s.cache, rfl⟩

theorem tooManyScripts_ok (hf : family name = some f) (hx : name.head? ≠ some 'x')
    (handleNull : Bool) : Command.Ok ⟨crossed name, 0, .tooManyScripts, none, handleNull⟩ :=
  ⟨fun _ hi => (by cases hi), fun _ => ⟨by simp, family_crossed hf hx⟩⟩

theorem family_ssh (hf : family name = some .ssh) : name.head? ≠ some 'x' := by
  unfold family at hf
  split at hf
  · cases hf
  · split at hf
    · cases hf
    · split at hf
      · cases hf
      · split at hf
        · next hssh => rcases hssh with rfl | rfl | rfl <;> decide
        · cases hf

theorem Inv.launch (h : Inv config s) {o : Outcome} (hc : s.call = some c)
    (hg : Guard config s (.launch o)) (hs : s.launch config c o c.place = some s') :
    Inv config s' := by
  have hok := h.call c hc
  obtain ⟨hchosen, hfull, htimedOut⟩ := hg c hc
  cases hplace : c.place with
  | scan i =>
    rw [hplace] at hs
    cases hs
  | chosen i =>
    rw [hplace] at hs
    obtain ⟨hcreated, hnull⟩ := hchosen i hplace
    obtain ⟨hlt, hfree⟩ := hok.chosen i hplace
    obtain ⟨cache, hcache⟩ :=
      resolve_eq (s.setRunning c.family i true) o (instanceName c.name i c.family)
    simp only [State.launch, hcache, State.start, hcreated, some.injEq] at hs
    subst hs
    exact h.own hfree hlt ⟨fun _ hi => ⟨some.inj hi, hnull, by rw [hok.family]; rfl⟩,
      fun hnone => (by cases hnone)⟩ hok.family rfl
  | full =>
    rw [hplace] at hs
    cases hs
    exact h.start_other o (tooManyScripts_ok hok.family (hfull hplace) _) rfl
  | timedOut =>
    rw [hplace] at hs
    cases hs
    have hssh : family c.name = some .ssh := hok.timedOut hplace ▸ hok.family
    have hsame : (if 0 < config.num c.family then s.setRunning c.family 0 true else s) = s := by
      split
      · next hnum => exact setRunning_of_eq (htimedOut hplace hnum)
      · rfl
    rw [hsame]
    exact h.start_other o (tooManyScripts_ok hssh (family_ssh hssh) _) rfl
  | cached => exact absurd hplace hok.fresh.1
  | unlisted => exact absurd hplace hok.fresh.2

theorem Inv.cleanup (h : Inv config s) {k : Nat} {c : Command}
    (hk : s.commands[k]? = some c) : Inv config (s.cleanup k c) := by
  obtain ⟨hlt, hget⟩ := List.getElem?_eq_some_iff.mp hk
  have hperm : (c :: s.commands.eraseIdx k).Perm s.commands := by
    have := List.getElem_cons_eraseIdx_perm hlt
    rwa [hget] at this
  have howners := (hperm.filterMap Command.owned).symm
  have hcommands : ∀ c' ∈ s.commands.eraseIdx k, c'.Ok := fun c' hc' =>
    h.commands c' (List.mem_of_mem_eraseIdx hc')
  have hok := h.commands c (List.mem_of_getElem? hk)
  unfold State.cleanup
  cases hslot : c.slot with
  | none =>
    have hreleases : c.releases = none := by simp [Command.releases, (hok.other hslot).2]
    have howned : c.owned = none := by simp [Command.owned, hslot]
    rw [List.filterMap_cons_none howned] at howners
    rw [hreleases]
    exact ⟨fun f i => (h.running_iff f i).trans howners.mem_iff, howners.nodup_iff.mp h.unique,
      hcommands, h.unused, fun call hcall => (h.call call hcall).mono rfl fun _ _ hr => hr⟩
  | some i =>
    obtain ⟨hnum, hnull, hsome⟩ := hok.owner i hslot
    obtain ⟨f, hf⟩ := Option.isSome_iff_exists.mp hsome
    have hreleases : c.releases = some f := by simp [Command.releases, hnull, hf]
    have howned : c.owned = some (f, i) := by simp [Command.owned, hf, hslot]
    rw [List.filterMap_cons_some howned] at howners
    obtain ⟨hnot, hnodup⟩ := List.nodup_cons.mp (howners.nodup_iff.mp h.unique)
    simp only [hreleases, hnum]
    have hclear : ∀ f' i', s.isRunning f' i' = false →
        (State.setRunning { s with commands := s.commands.eraseIdx k } f i false).isRunning f' i'
          = false := by
      intro f' i' hr
      rw [isRunning_setRunning, hr, ite_self]
    refine ⟨fun f' i' => ?_, hnodup, hcommands, fun f' i' hle => hclear f' i' (h.unused f' i' hle),
      fun call hcall => (h.call call hcall).mono rfl hclear⟩
    have hmem : (f', i') ∈ s.owners ↔ _ := howners.mem_iff
    rw [isRunning_setRunning]
    show _ ↔ (f', i') ∈ (s.commands.eraseIdx k).filterMap Command.owned
    grind

theorem Inv.step {l : Label} (h : Inv config s) (hg : Guard config s l)
    (hs : Instances.step config s l = some s') : Inv config s' := by
  cases l with
  | begin name =>
    simp only [Instances.step] at hs
    split at hs
    · obtain ⟨f, hf, rfl⟩ := map_eq_some_iff.mp hs
      exact h.begin hf hg.1 hg.2
    · cases hs
  | scan timeUp =>
    obtain ⟨c, hc, hs⟩ := bind_eq_some_iff.mp hs
    split at hs <;> cases hs
    next i hi =>
      exact h.scan hc hi timeUp
  | launch o =>
    obtain ⟨c, hc, hs⟩ := bind_eq_some_iff.mp hs
    exact h.launch hc hg hs
  | cleanup k =>
    obtain ⟨c, hk, rfl⟩ := map_eq_some_iff.mp hs
    exact h.cleanup hk

/-! ## The result -/

/-- The states of the histories whose steps all meet `Guard`. -/
def GuardedReachable (config : Config) (s : State) : Prop :=
  Transition.Reachable (step config) (Guard config) (· = State.initial) s

/-- In a history whose steps all meet `Guard`, the flags say who owns which copy. -/
theorem slots_owned {s : State} (h : GuardedReachable config s) : SlotsOwned s := by
  have hinv : Inv config s := by
    refine Transition.Reachable.invariant ?_ (fun _ _ _ hi hg hs => hi.step hg hs) h
    rintro _ rfl
    exact Inv.initial
  exact hinv.slotsOwned

end

def Config.all : Config := ⟨fun _ => true, Family.max, fun _ => Nat.le_refl _⟩

/-- The function is found with `dlsym`, and the thread is created. -/
def Outcome.success : Outcome := ⟨false, true, true, true⟩

theorem guard_success {config : Config} (hc : s.call = some c)
    (hplace : c.place = .chosen i) : Guard config s (.launch .success) := by
  intro c' hc'
  cases hc.symm.trans hc'
  exact ⟨fun _ _ => ⟨rfl, rfl⟩, fun hp => by simp [hplace] at hp, fun hp => by simp [hplace] at hp⟩

/-- Three ssh commands at a time: the third one has to wait until the first one has ended. -/
theorem slots_owned_waiting :
    ∃ s, GuardedReachable .all s ∧ s.owners = [(.ssh, 1), (.ssh, 0)] ∧ SlotsOwned s := by
  have hboth : GuardedReachable .all _ :=
    .next (a := .launch .success) (.next (a := .begin "ssh".toList)
      (.next (a := .launch .success) (.next (a := .begin "ssh".toList) (.start rfl)
        ⟨rfl, rfl⟩ rfl) (guard_success rfl rfl) rfl) ⟨rfl, rfl⟩ rfl) (guard_success rfl rfl) rfl
  have hround : GuardedReachable .all _ :=
    .next (a := .scan false) (.next (a := .scan false) (.next (a := .scan false)
      (.next (a := .begin "ssh".toList) hboth ⟨rfl, rfl⟩ rfl) trivial rfl) trivial rfl) trivial rfl
  have hreach : GuardedReachable .all _ :=
    .next (a := .launch .success)
      (.next (a := .scan false) (.next (a := .cleanup 0) hround trivial rfl)
      trivial rfl) (guard_success rfl rfl) rfl
  exact ⟨_, hreach, by decide +kernel, slots_owned hreach⟩

/--
A second `scp` finds its function in the cache, and is started without a copy. When it ends, it
clears the flag of the first one.
-/
theorem slot_cleared_by_cached_command :
    ∃ s, Reachable .all s ∧ s.isRunning .ssh 0 = false ∧ (.ssh, 0) ∈ s.owners ∧ ¬ SlotsOwned s := by
  have hrun : Transition.run (step .all) State.initial
      [.begin "scp".toList, .launch .success, .begin "scp".toList, .launch .success, .cleanup 1]
        = some _ := rfl
  have hreach : Reachable .all _ := Transition.Reachable.of_run (.start rfl) hrun
  refine ⟨_, hreach, by decide +kernel, by decide +kernel, ?_⟩
  intro howned
  exact absurd ((howned.running_iff .ssh 0).mpr (by decide +kernel)) (by decide +kernel)

end IosSystem.Interp.Instances
