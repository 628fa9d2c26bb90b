import IosSystem.Lib.Replace
import IosSystem.Shell.Text

/-!
# The expansion of variables

`parseArgument` and `ios_expandFilename` expand the variables of a text in a loop. A turn of the
loop takes the first `$` and the name behind it, up to the next separator, and replaces every
occurrence of `$name` in the whole text by the value. The loop ends at a text without `$`, and at a
name that is not set. `parseArgument` ends it too when the value has the same `$name` in it.

Values can refer to each other in a circle, and then the loop does not end
(`expandVariables_circle`).
-/

namespace IosSystem.Shell

open List
open Replace

/-- What the two loops over variables differ in. -/
structure Expander where
  separator : Char → Bool
  /-- a value with its own name in it ends the loop -/
  guarded : Bool

/-- The loop of `parseArgument`. -/
def Expander.argument : Expander := ⟨fun c => c = '/' ∨ c = ':', true⟩

/-- The loop of `ios_expandFilename`. -/
def Expander.filename : Expander := ⟨fun c => c = '/', false⟩

/-- The name behind a `$`. -/
def Expander.name (e : Expander) (behind : CStr) : CStr := behind.takeWhile fun c => !e.separator c

/-- The name behind the first `$`. -/
def Expander.firstName (e : Expander) (text : CStr) : Option CStr :=
  match text.dropWhile (· ≠ '$') with
  | [] => none
  | _ :: behind => some (e.name behind)

def Expander.expandVariables (e : Expander) (getenv : CStr → Option CStr) : Nat → CStr → Option CStr
  | 0, _ => none
  | fuel + 1, text =>
    match e.firstName text with
    | none => some text
    | some name =>
      match getenv name with
      | none => some text
      | some value =>
        let text := replaceAll ('$' :: name) value text
        if e.guarded ∧ contains value ('$' :: name) then some text
        else e.expandVariables getenv fuel text

/-! ## Circles -/

/-- `A` is `$B`, and `B` is `$A`. -/
def circleEnv (name : CStr) : Option CStr :=
  if name = ['A'] then some ['$', 'B'] else if name = ['B'] then some ['$', 'A'] else none

/-- `A` is `$A`. -/
def selfEnv (name : CStr) : Option CStr := if name = ['A'] then some ['$', 'A'] else none

/--
Neither of the loops ends for `$A`: the one of `parseArgument` when `A` and `B` refer to each other,
and the one of `ios_expandFilename` already when `A` refers to itself.
-/
theorem expandVariables_circle :
    (∀ fuel, Expander.argument.expandVariables circleEnv fuel "$A".toList = none) ∧
      ∀ fuel, Expander.filename.expandVariables selfEnv fuel "$A".toList = none := by
  have hcircle : ∀ fuel, Expander.argument.expandVariables circleEnv fuel ['$', 'A'] = none ∧
      Expander.argument.expandVariables circleEnv fuel ['$', 'B'] = none := by
    intro fuel
    induction fuel with
    | zero => exact ⟨rfl, rfl⟩
    | succ fuel ih => exact ⟨ih.2, ih.1⟩
  refine ⟨fun fuel => (hcircle fuel).1, fun fuel => ?_⟩
  induction fuel with
  | zero => rfl
  | succ fuel ih => exact ih

end IosSystem.Shell
