import IosSystem.Lib.Encoding
import IosSystem.Lib.Transition
import IosSystem.Shell.Dispatch

/-!
# Texts that are copied into buffers

`ios_system` copies texts into buffers of its own in three places: the command behind the alias
expansion, the location of the file that is executed, and the entry in `commandName` of the session.
The first two sizes count units of UTF-16 (`NSString.length`), and what is copied is UTF-8. The
third is a constant.
-/

namespace IosSystem.Command

open List Option
open Encoding
open IosSystem.Shell

/-- A text that is copied into a buffer of `size` bytes. -/
structure TextCopy where
  size : Nat
  text : CStr
  deriving DecidableEq

/-- The text and its 0 fit. -/
def TextCopy.Fits (c : TextCopy) : Prop := utf8Length c.text + 1 ≤ c.size

instance (c : TextCopy) : Decidable c.Fits := inferInstanceAs (Decidable (_ ≤ _))

/-- The alias of the first word, unless a backslash is in front of it. -/
def aliasedCommand (env : Env) (command : CStr) : Option Alias :=
  if command.head? = some '\\' then none
  else env.aliases (command.take ((strstrquoted command [' ']).getD command.length))

/-- `newCommand`, with the size of its allocation. -/
def Alias.newCommand (a : Alias) (command : CStr) : Option TextCopy :=
  match a.place, strstrquoted command [' '] with
  | .empty, none => some ⟨utf8Length a.before + 1, a.before⟩
  | .empty, some i =>
    let arguments := command.drop (i + 1)
    some ⟨utf16Length a.before + 2 + utf8Length arguments, a.before ++ ' ' :: arguments⟩
  | .afterLast, none =>
    some ⟨utf16Length a.before + 2 + utf16Length a.after, a.before ++ ' ' :: a.after⟩
  | .afterLast, some i =>
    let arguments := command.drop (i + 1)
    some ⟨utf16Length a.before + 2 + utf16Length a.after + (utf8Length arguments + 1),
      a.before ++ ' ' :: arguments ++ ' ' :: a.after⟩
  | .afterFirst, none =>
    some ⟨utf16Length a.before + 2 + utf16Length a.after, a.before ++ ' ' :: a.after⟩
  | .afterFirst, some i =>
    let arguments := command.drop (i + 1)
    match strstrquoted arguments [' '] with
    | none =>
      some ⟨utf16Length a.before + 2 + utf16Length a.after + (utf8Length arguments + 1),
        a.before ++ ' ' :: arguments ++ ' ' :: a.after⟩
    | some k =>
      let otherArguments := arguments.drop (k + 1)
      some ⟨utf16Length a.before + 2 + utf16Length a.after
          + (utf8Length (arguments.take k) + utf8Length otherArguments + 2),
        a.before ++ ' ' :: arguments.take k ++ ' ' :: a.after ++ ' ' :: otherArguments⟩
  | .other, _ => none

/-- The text whose length `malloc` is given. -/
def Alias.counted (a : Alias) (command : CStr) : CStr :=
  match a.place, strstrquoted command [' '] with
  | .empty, none => []
  | .empty, some _ => a.before
  | .afterLast, _ | .afterFirst, _ => a.before ++ a.after
  | .other, _ => []

theorem expandAlias_eq (env : Env) (command : CStr) :
    env.expandAlias command
      = (((aliasedCommand env command).bind (Alias.newCommand · command)).map TextCopy.text).getD
          command := by
  unfold Env.expandAlias aliasedCommand Alias.newCommand
  split
  · rfl
  · dsimp only
    generalize strstrquoted command [' '] = firstSpace
    cases env.aliases (command.take (firstSpace.getD command.length)) with
    | none => rfl
    | some a =>
      obtain ⟨before, after, place⟩ := a
      cases place with
      | empty => cases firstSpace <;> rfl
      | afterLast => cases firstSpace <;> rfl
      | afterFirst =>
        cases firstSpace with
        | none => rfl
        | some i =>
          dsimp only [bind_some]
          cases strstrquoted (command.drop (i + 1)) [' '] <;> rfl
      | other => rfl

theorem newCommand_size {a : Alias} {command : CStr} {c : TextCopy}
    (h : Alias.newCommand a command = some c) :
    c.size + utf8Length (Alias.counted a command)
      = utf8Length c.text + 1 + utf16Length (Alias.counted a command) := by
  have hblank : Char.utf8Size ' ' = 1 := rfl
  obtain ⟨before, after, place⟩ := a
  unfold Alias.newCommand at h
  unfold Alias.counted
  generalize strstrquoted command [' '] = firstSpace at h ⊢
  cases place <;> cases firstSpace <;> dsimp only at h
  case afterFirst.some i =>
    split at h <;> cases h <;>
      simp only [utf8Length_append, utf8Length_cons, utf16Length_append] <;> omega
  all_goals
    cases h
    try simp only [utf8Length_append, utf8Length_cons, utf8Length_nil, utf16Length_append,
      utf16Length_nil]
    try omega

theorem newCommand_eq_none {a : Alias} {command : CStr} (h : Alias.newCommand a command = none) :
    Alias.counted a command = [] := by
  obtain ⟨before, after, place⟩ := a
  unfold Alias.newCommand at h
  dsimp only at h
  split at h <;> try cases h
  · split at h <;> cases h
  · rfl

theorem newCommand_fits_iff (a : Alias) (command : CStr) :
    (∀ c, Alias.newCommand a command = some c → c.Fits) ↔ IsAscii (Alias.counted a command) := by
  rw [← utf8Length_le_utf16Length_iff]
  cases hc : Alias.newCommand a command with
  | none =>
    rw [newCommand_eq_none hc]
    simp
  | some c =>
    have hsize := newCommand_size hc
    simp only [some.injEq, forall_eq', TextCopy.Fits]
    omega

/-- The location of the file, in the place of the name of the command: all branches copy it alike.
-/
def locationCopy (location : CStr) : TextCopy := ⟨utf16Length location + 1, location⟩

theorem locationCopy_fits_iff (location : CStr) : (locationCopy location).Fits ↔
    IsAscii location := by
  rw [← utf8Length_le_utf16Length_iff, TextCopy.Fits, locationCopy]
  exact Nat.succ_le_succ_iff

/-- `NAME_MAX` -/
def nameMax : Nat := 255

/--
`commandName` of a session, with the sizes of its entries. The text of an entry is only read at 0.
-/
structure Names where
  numCommand : Nat
  sizes : List Nat
  first : CStr
  deriving DecidableEq

def Names.init : Names := ⟨0, replicate 10 nameMax, []⟩

/-- The slots are increased by ten when all are used. -/
def Names.grow (s : Names) : Names :=
  if s.numCommand = 0 ∧ s.first = [] then s
  else if s.sizes.length ≤ s.numCommand then
    { s with sizes := s.sizes ++ replicate 10 nameMax }
  else s

/-- The `strcpy` of a name into its slot. -/
def Names.copy (s : Names) (name : CStr) : Option TextCopy :=
  (s.grow.sizes[s.numCommand]?).map (⟨·, name⟩)

inductive NamesOp where
  | push (name : CStr)
  | pop

def Names.step (s : Names) : NamesOp → Option Names
  | .push name => do
    let c ← s.copy name
    if c.Fits then
      some { s.grow with
        numCommand := s.numCommand + 1
        first := if s.numCommand = 0 then name else s.first }
    else none
  | .pop =>
    some (if 0 < s.numCommand then { s with numCommand := s.numCommand - 1 }
      else { s with first := [] })

/-- All slots have the same size, and there is one for the next name. -/
structure Names.Sized (s : Names) : Prop where
  size : ∀ n ∈ s.sizes, n = nameMax
  room : s.numCommand ≤ s.sizes.length
  pos : 0 < s.sizes.length

variable {s : Names}

theorem Names.Sized.grow (h : s.Sized) : s.grow.Sized ∧ s.numCommand < s.grow.sizes.length := by
  have hroom := h.room
  have hpos := h.pos
  unfold Names.grow
  split
  · exact ⟨h, by omega⟩
  · split
    · refine ⟨⟨?_, ?_, ?_⟩, ?_⟩
      · intro n hn
        rcases mem_append.mp hn with hn | hn
        · exact h.size n hn
        · exact eq_of_mem_replicate hn
      all_goals simp only [length_append, length_replicate]; omega
    · exact ⟨h, by omega⟩

theorem Names.Sized.copy (h : s.Sized) (name : CStr) : s.copy name = some ⟨nameMax, name⟩ := by
  obtain ⟨hgrow, hlt⟩ := h.grow
  rw [Names.copy, getElem?_eq_getElem hlt, map_some, hgrow.size _ (getElem_mem hlt)]

theorem Names.Sized.step {s' : Names} {op : NamesOp} (h : s.Sized) (hs : s.step op = some s') :
    s'.Sized := by
  cases op with
  | push name =>
    obtain ⟨hgrow, hlt⟩ := h.grow
    simp only [Names.step, h.copy, bind_eq_bind, bind_some] at hs
    split at hs <;> cases hs
    exact ⟨hgrow.size, hlt, hgrow.pos⟩
  | pop =>
    simp only [Names.step, some.injEq] at hs
    subst hs
    have hroom := h.room
    split
    · exact ⟨h.size, by dsimp only; omega, h.pos⟩
    · exact ⟨h.size, hroom, h.pos⟩

/-- The states of `commandName` as long as every name fits. -/
def Names.Reached : Names → Prop :=
  Transition.Reachable Names.step (fun _ _ => True) (· = Names.init)

theorem Names.Reached.sized (h : s.Reached) : s.Sized := by
  refine Transition.Reachable.invariant ?_ ?_ h
  · rintro s rfl
    exact ⟨fun n hn => eq_of_mem_replicate hn, by decide, by decide⟩
  · intro s s' op h _ hs
    exact h.step hs

/--
Exactly the texts in ASCII fit into the buffers for the alias and for the location, and exactly the
names with fewer than `NAME_MAX` bytes into the entry of the session.
-/
theorem copies_fit_iff (env : Env) (command location name : CStr) {s : Names} (hs : s.Reached) :
    (∀ a c, aliasedCommand env command = some a → Alias.newCommand a command = some c → c.Fits) ∧
        (locationCopy location).Fits ∧ (∃ c, s.copy name = some c ∧ c.Fits)
      ↔ (∀ a, aliasedCommand env command = some a → IsAscii (Alias.counted a command)) ∧
        IsAscii location ∧ utf8Length name < nameMax := by
  have halias : (∀ a c, aliasedCommand env command = some a →
      Alias.newCommand a command = some c → c.Fits)
        ↔ ∀ a, aliasedCommand env command = some a → IsAscii (Alias.counted a command) := by
    simp only [← newCommand_fits_iff]
    exact forall_congr' fun a => forall_comm
  have hname : (∃ c, s.copy name = some c ∧ c.Fits) ↔ utf8Length name < nameMax := by
    simp only [hs.sized.copy name, some.injEq, exists_eq_left']
    exact Nat.succ_le_iff
  rw [halias, locationCopy_fits_iff, hname]

/-- `l` stands for `ls -l`. -/
def listingEnv : Env :=
  { getenv := fun _ _ => none
    capture := id
    aliases := fun name => if name = ['l'] then some ⟨"ls -l".toList, [], .empty⟩ else none }

/--
An alias with an argument that is not ASCII, in a session with ten commands in flight: there is no
entry left for the name, and the array grows.
-/
theorem copies_fit_nested :
    ∃ s : Names, s.Reached ∧ s.numCommand = 10 ∧ s.sizes.length = 10 ∧
      (∃ a c, aliasedCommand listingEnv "l é".toList = some a ∧
        Alias.newCommand a "l é".toList = some c ∧ c.Fits) ∧
      (locationCopy "/bin/ls".toList).Fits ∧ ∃ c, s.copy "ls".toList = some c ∧ c.Fits := by
  have hrun : (Transition.run Names.step Names.init (replicate 10 (.push "sh".toList))).map
      (fun s => (s.numCommand, s.sizes.length)) = some (10, 10) := by decide
  obtain ⟨s, hrun, hs⟩ := map_eq_some_iff.mp hrun
  simp only [Prod.mk.injEq] at hs
  have hreached : s.Reached := .of_run (.start rfl) hrun
  obtain ⟨halias, hlocation, hname⟩ := (copies_fit_iff listingEnv "l é".toList "/bin/ls".toList
    "ls".toList hreached).mpr ⟨by rintro a ⟨⟩; decide, by decide, by decide⟩
  exact ⟨s, hreached, hs.1, hs.2, ⟨_, _, rfl, rfl, halias _ _ rfl rfl⟩, hlocation, hname⟩

/-- `e` stands for `écho`. -/
def accentEnv : Env :=
  { getenv := fun _ _ => none
    capture := id
    aliases := fun name => if name = ['e'] then some ⟨"écho".toList, [], .empty⟩ else none }

/--
Each of the three copies can be too long: `e x` is expanded into 8 bytes and 7 are allocated, a
location has a letter with two bytes, and a name has 255 bytes.
-/
theorem copies_overflow :
    (∃ a, aliasedCommand accentEnv "e x".toList = some a ∧
        Alias.newCommand a "e x".toList = some ⟨7, "écho x".toList⟩ ∧
        utf8Length "écho x".toList + 1 = 8) ∧
      ¬(locationCopy "/bin/é".toList).Fits ∧
      ∃ c, Names.init.copy (List.replicate 255 'a') = some c ∧ ¬c.Fits := by
  refine ⟨⟨⟨"écho".toList, [], .empty⟩, rfl, by decide, by decide⟩, by decide,
    ⟨nameMax, replicate 255 'a'⟩, rfl, ?_⟩
  have hsize : Char.utf8Size 'a' = 1 := rfl
  simp only [TextCopy.Fits, utf8Length, map_replicate, sum_replicate_nat, hsize]
  decide

end IosSystem.Command
