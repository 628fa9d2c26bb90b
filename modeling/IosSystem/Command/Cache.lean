import IosSystem.Command.Resolve

/-!
# The cache and the command table

An entry of the cache stays when the table or the registered functions change, so that a name that
has been run before goes on with its old function. An update does no harm if each name that it gives
a function to is not in the cache, or is there with this function (`UpdateGuard`). A call of `sh`
runs `dash`, so that the two have to designate the same function.
-/

namespace IosSystem.Command

open State
open IosSystem.Shell
open IosSystem.Interp.Instances (startsWith family lookupExcluded storeExcluded instanceName)

/-- A name without a branch of its own in `ios_system`, and not `sh`. -/
def plain (name : CStr) : Bool := !multiInstance name && name ≠ "sh".toList

section

variable (L : Linker)

/-- The function that a call of `ios_system` runs now. -/
def State.runs (s : State) (name : CStr) : Function :=
  (s.resolve L (commandName name) none).function

/-- The function that `dlsym` finds for an entry of the table. -/
def Linker.function (e : Entry) : Function :=
  (L.dlsym (L.handle e.library) e.function).elim .commandNotFound .command

/-- The function that is registered for the name, or else the one of its entry in the table. -/
def State.designated (s : State) (name : CStr) : Function :=
  match s.registered name with
  | some address => .command address
  | none => (s.table name).elim .commandNotFound L.function

/-- `replaceCommand` changes the entry of the name, and with `allOccurences` those of the names with
the same function. -/
def State.replaces (s : State) (name : CStr) (allOccurences : Bool) (n : CStr) : Prop :=
  n = name ∨ allOccurences = true ∧
    ∃ old e, s.table name = some old ∧ s.table n = some e ∧ e.function = old.function

/-- The function that an update gives to the name `n`. A registered function hides the table. -/
def Gives (s : State) : Label → CStr → Function → Prop
  | .replaceCommand name function allOccurences, n, f =>
    s.registered n = none ∧ s.replaces name allOccurences n ∧
      ∃ address, (L.main function).or (L.default function) = some address ∧ f = .command address
  | .addCommandList list, n, f =>
    s.registered n = none ∧
      ∃ entries, list = some entries ∧ ∃ e, entries n = some e ∧ f = L.function e
  | .registerCommandFunction name address, n, f =>
    n = name ∧ ∃ a, address = some a ∧ f = .command a
  | _, _, _ => False

/-- The function of `n` after an update. -/
def After (s : State) (a : Label) (n : CStr) (f : Function) : Prop :=
  Gives L s a n f ∨ (∀ g, ¬Gives L s a n g) ∧ f = s.designated L n

/-- The names in the cache have the designated functions, the registered names are in the table, and
`sh` and `dash` designate the same function. -/
structure Harmless (s : State) : Prop where
  cached : ∀ n, plain n = true →
    ∀ e, s.hit n = some e → s.designated L n = .command e.funcPtr
  listed : ∀ n, plain n = true → (s.registered n).isSome = true → (s.table n).isSome = true
  shell : s.designated L "sh".toList = s.designated L "dash".toList

end

variable {L : Linker} {s : State} {name : CStr}

variable {copy : Option Copy}

variable {e : CacheEntry}

section

variable (hplain : plain name = true)
include hplain

end

variable {s' : State}

variable {n : CStr} {f g : Function}

theorem Gives.unique {a : Label} (h : Gives L s a n f) (h' : Gives L s a n g) : f = g := by
  cases a with
  | system | cleanup => exact h.elim
  | replaceCommand =>
    obtain ⟨-, -, a, ha, rfl⟩ := h
    obtain ⟨-, -, b, hb, rfl⟩ := h'
    rw [Option.some.inj (ha.symm.trans hb)]
  | addCommandList =>
    obtain ⟨-, _, rfl, e, he, rfl⟩ := h
    obtain ⟨-, _, ⟨⟩, e', he', rfl⟩ := h'
    rw [Option.some.inj (he.symm.trans he')]
  | registerCommandFunction =>
    obtain ⟨-, _, rfl, rfl⟩ := h
    obtain ⟨-, _, ⟨⟩, rfl⟩ := h'
    rfl

theorem After.unique {a : Label} (h : After L s a n f) (h' : After L s a n g) : f = g := by
  rcases h with h | ⟨hno, rfl⟩ <;> rcases h' with h' | ⟨hno', rfl⟩
  · exact h.unique h'
  · exact absurd h (hno' f)
  · exact absurd h' (hno g)
  · rfl

end IosSystem.Command
