import IosSystem.Lib.Blocks
import IosSystem.Shell.Dispatch

/-!
# The buffers of a command line

`ios_system` works on a copy of the command line and keeps three pointers into it: `originalCommand`
to its start, `cmd` behind a leading quote, and `command` behind a parenthesis and the assignments.
A variable, a substitution and an alias replace the text by a new block, and the old one is released
through one of the pointers. When substitutions are made behind a parenthesis or assignments, this
is `command`, which then points into the block (`buffers_misused_iff`).
-/

namespace IosSystem.Shell

open Blocks

/-- The memory of a call of `ios_system`: its blocks are numbered in the order of their allocation.
-/
structure Buffers where
  heap : Heap Nat
  allocated : Nat
  command : Ptr Nat
  cmd : Ptr Nat
  originalCommand : Ptr Nat

/-- `p + n` -/
def advance (p : Ptr Nat) (n : Nat) : Ptr Nat := { p with offset := p.offset + n }

/-- `cmd = strdup(inputCmd)` -/
def Buffers.strdup : Buffers := ⟨.empty, 1, ⟨0, 0⟩, ⟨0, 0⟩, ⟨0, 0⟩⟩

def Buffers.free (b : Buffers) (p : Ptr Nat) : Buffers := { b with heap := b.heap.free p }

def Buffers.replace (b : Buffers) : Buffers :=
  { b with
    allocated := b.allocated + 1
    command := ⟨b.allocated, 0⟩
    cmd := ⟨b.allocated, 0⟩
    originalCommand := ⟨b.allocated, 0⟩ }

/-- The line begins with a quote that is closed later. -/
def isEnclosed : CStr → Bool
  | [] => false
  | c :: rest => c = '"' ∧ '"' ∈ rest

def Env.isVariable (env : Env) (assignments : List (CStr × CStr)) : CStr → Bool
  | [] => false
  | c :: name => c = '$' ∧ (env.getenv assignments name).isSome

/-- The copy of the line, and the pointer that is moved on in it. -/
def lineBuffers (inputCmd : CStr) : Buffers :=
  let b := Buffers.strdup
  let b := if isEnclosed inputCmd then { b with cmd := advance b.cmd 1 } else b
  let text := stripQuote inputCmd
  let b := { b with command := if text.head? = some '(' then advance b.cmd 1 else b.cmd }
  let text := stripParen text
  { b with command := advance b.command (text.length - (stripAssignments text).2.length) }

def Env.frontBuffers (env : Env) (inputCmd : CStr) : Buffers :=
  let b := lineBuffers inputCmd
  let r := stripAssignments (stripParen (stripQuote inputCmd))
  if env.isVariable r.1 r.2 then (b.free b.originalCommand).replace else b

/-- `ios_expand_substitutions` has returned a new block. -/
def Buffers.substitute (b : Buffers) : Buffers :=
  let b := if b.command ≠ b.originalCommand ∧ b.command ≠ b.cmd then b.free b.command else b
  let b := if b.originalCommand ≠ b.cmd then b.free b.originalCommand else b
  b.replace

/-- The first word has an alias that `ios_system` applies. -/
def Env.isAliased (env : Env) (command : CStr) : Bool :=
  command.head? ≠ some '\\' &&
    match env.aliases (command.take ((strstrquoted command [' ']).getD command.length)) with
    | some a => a.place ≠ .other
    | none => false

def Env.backBuffers (env : Env) (command : CStr) (dispatched : Bool) (b : Buffers) : Buffers :=
  if (strstrquoted command [';']).isSome ∨ isConditional command then b.free b.originalCommand
  else
    let b := if env.isAliased command then (b.free b.originalCommand).replace else b
    if (strstrquoted (env.expandAlias command) ['|']).isSome then b.free b.originalCommand
    else if dispatched then b
    else b.free b.originalCommand

/-- The memory at the end of `ios_system`, or when a command is dispatched. -/
def Env.buffers (env : Env) (fuel : Nat) (inputCmd : CStr) (dispatched : Bool) : Option Buffers :=
  match expandSubstitutions env.capture fuel (env.front inputCmd) with
  | none => none
  | some (captured, command) =>
    let b := env.frontBuffers inputCmd
    let b := if captured = [] then b else b.substitute
    some (env.backBuffers command dispatched b)

/--
A parenthesis or assignments stand in front of the command, and it is not replaced by the value of a
variable.
-/
def Env.IsPrefixed (env : Env) (inputCmd : CStr) : Prop :=
  ((stripQuote inputCmd).head? = some '(' ∨
    (stripAssignments (stripParen (stripQuote inputCmd))).1 ≠ []) ∧
  env.isVariable (stripAssignments (stripParen (stripQuote inputCmd))).1
    (stripAssignments (stripParen (stripQuote inputCmd))).2 = false

instance (env : Env) (inputCmd : CStr) : Decidable (env.IsPrefixed inputCmd) :=
  inferInstanceAs (Decidable (_ ∧ _))

theorem length_assignmentLoop (fuel : Nat) (command : CStr) :
    (assignmentLoop fuel command).2.length + (assignmentLoop fuel command).1.length
      ≤ command.length := by
  induction fuel generalizing command with
  | zero => simp [assignmentLoop]
  | succ fuel ih =>
    unfold assignmentLoop
    split
    · simp
    · next i hi =>
      dsimp only
      split
      · next heq =>
        have hle := ih (command.drop (i + 1))
        rw [List.length_drop] at hle
        have hpos : 0 < (command.take i).length := List.length_pos_of_mem heq
        rw [List.length_take] at hpos
        simp only [List.length_cons]
        omega
      · simp

theorem assignmentLoop_nil {fuel : Nat} {command : CStr}
    (h : (assignmentLoop fuel command).1 = []) :
    (assignmentLoop fuel command).2 = command := by
  cases fuel with
  | zero => rfl
  | succ fuel =>
    unfold assignmentLoop at h ⊢
    split
    · rfl
    · next i hi =>
      simp only [hi] at h
      dsimp only
      split
      · next heq =>
        rw [if_pos heq] at h
        cases h
      · rfl

theorem length_stripAssignments (text : CStr) :
    text.length - (stripAssignments text).2.length = 0 ↔ (stripAssignments text).1 = [] := by
  constructor
  · intro h
    have hle := length_assignmentLoop (text.length + 1) text
    unfold stripAssignments at h ⊢
    exact List.length_eq_zero_iff.mp (by omega)
  · intro h
    have heq : (stripAssignments text).2 = text := assignmentLoop_nil h
    rw [heq, Nat.sub_self]

/-- `originalCommand` is the start of a block that was not released, and new blocks were not either.
-/
structure Buffers.Sound (b : Buffers) : Prop where
  misused : b.heap.misused = false
  start : b.originalCommand.offset = 0
  live : b.heap.freed b.originalCommand.block = 0
  old : b.originalCommand.block < b.allocated
  fresh : ∀ n, b.allocated ≤ n → b.heap.freed n = 0

variable {b : Buffers}

section

variable (h : b.Sound)
include h

theorem Buffers.Sound.free : (b.free b.originalCommand).heap.misused = false :=
  (Heap.misused_free _ _).mpr ⟨h.misused, h.start, h.live⟩

theorem Buffers.Sound.replace : b.replace.Sound :=
  ⟨h.misused, rfl, h.fresh _ (Nat.le_refl _), Nat.lt_succ_self _,
    fun n hn => h.fresh n (Nat.le_of_succ_le hn)⟩

theorem Buffers.Sound.freeReplace : (b.free b.originalCommand).replace.Sound := by
  have hfreed : ∀ n, b.allocated ≤ n → (b.heap.free b.originalCommand).freed n = 0 := by
    intro n hn
    have hne : n ≠ b.originalCommand.block := by
      have := h.old
      omega
    show Function.update b.heap.freed b.originalCommand.block _ n = 0
    rw [Function.update_of_ne hne]
    exact h.fresh n hn
  exact ⟨h.free, rfl, hfreed _ (Nat.le_refl _), Nat.lt_succ_self _,
    fun n hn => hfreed n (Nat.le_of_succ_le hn)⟩

theorem Buffers.Sound.substitute (heq : b.command = b.cmd) : b.substitute.Sound := by
  unfold Buffers.substitute
  rw [if_neg fun hne => hne.2 heq]
  dsimp only
  split
  · exact h.freeReplace
  · exact h.replace

theorem Buffers.Sound.back (env : Env) (command : CStr) (dispatched : Bool) :
    (env.backBuffers command dispatched b).heap.misused = false := by
  unfold Env.backBuffers
  split
  · exact h.free
  · have halias : (if env.isAliased command then (b.free b.originalCommand).replace
      else b).Sound := by
      split
      · exact h.freeReplace
      · exact h
    dsimp only
    split
    · exact halias.free
    · split
      · exact halias.misused
      · exact halias.free

end

theorem misused_back (h : b.heap.misused = true) (env : Env) (command : CStr)
    (dispatched : Bool) : (env.backBuffers command dispatched b).heap.misused = true := by
  unfold Env.backBuffers
  split
  · exact Heap.misused_free_of_misused h _
  · have halias : (if env.isAliased command then (b.free b.originalCommand).replace
      else b).heap.misused
        = true := by
      split
      · exact Heap.misused_free_of_misused h _
      · exact h
    dsimp only
    split
    · exact Heap.misused_free_of_misused halias _
    · split
      · exact halias
      · exact Heap.misused_free_of_misused halias _

/-- How far `command` is behind `cmd`. -/
def skipped (inputCmd : CStr) : Nat :=
  (if (stripQuote inputCmd).head? = some '(' then 1 else 0) +
    ((stripParen (stripQuote inputCmd)).length
      - (stripAssignments (stripParen (stripQuote inputCmd))).2.length)

theorem lineBuffers_eq (inputCmd : CStr) : ∃ q, lineBuffers inputCmd
    = ⟨.empty, 1, ⟨0, q + skipped inputCmd⟩, ⟨0, q⟩, ⟨0, 0⟩⟩ := by
  refine ⟨if isEnclosed inputCmd then 1 else 0, ?_⟩
  unfold lineBuffers skipped advance Buffers.strdup
  by_cases hq : isEnclosed inputCmd <;> by_cases hp : (stripQuote inputCmd).head? = some '(' <;>
    simp only [hq, hp, if_true, if_false, Nat.zero_add, Bool.false_eq_true, Nat.add_assoc]

theorem skipped_eq_zero_iff (inputCmd : CStr) : skipped inputCmd = 0 ↔
    ¬((stripQuote inputCmd).head? = some '(' ∨
      (stripAssignments (stripParen (stripQuote inputCmd))).1 ≠ []) := by
  rw [not_or, not_not, ← length_stripAssignments]
  unfold skipped
  split <;> simp_all

theorem sound_lineBuffers (inputCmd : CStr) : (lineBuffers inputCmd).Sound := by
  obtain ⟨q, heq⟩ := lineBuffers_eq inputCmd
  rw [heq]
  exact ⟨rfl, rfl, rfl, Nat.zero_lt_one, fun _ _ => rfl⟩

theorem Env.sound_frontBuffers (env : Env) (inputCmd : CStr) :
    (env.frontBuffers inputCmd).Sound := by
  unfold Env.frontBuffers
  dsimp only
  split
  · exact (sound_lineBuffers inputCmd).freeReplace
  · exact sound_lineBuffers inputCmd

theorem Env.frontBuffers_of_isPrefixed {env : Env} {inputCmd : CStr} (h : env.IsPrefixed inputCmd) :
    (env.frontBuffers inputCmd).command.offset ≠ 0 ∧
      (env.frontBuffers inputCmd).command ≠ (env.frontBuffers inputCmd).cmd := by
  obtain ⟨q, heq⟩ := lineBuffers_eq inputCmd
  have hskipped : skipped inputCmd ≠ 0 := fun h0 => (skipped_eq_zero_iff inputCmd).mp h0 h.1
  have hfront : env.frontBuffers inputCmd = lineBuffers inputCmd := by
    unfold Env.frontBuffers
    dsimp only
    rw [h.2]
    rfl
  rw [hfront, heq]
  refine ⟨?_, fun hptr => ?_⟩
  · show q + skipped inputCmd ≠ 0
    omega
  · have hoffset : q + skipped inputCmd = q := congrArg Ptr.offset hptr
    omega

theorem Env.frontBuffers_of_not_isPrefixed {env : Env} {inputCmd : CStr}
    (h : ¬env.IsPrefixed inputCmd) :
    (env.frontBuffers inputCmd).command = (env.frontBuffers inputCmd).cmd := by
  unfold Env.frontBuffers
  dsimp only
  split
  · rfl
  · next hvar =>
    obtain ⟨q, heq⟩ := lineBuffers_eq inputCmd
    have hskipped : skipped inputCmd = 0 := by
      refine (skipped_eq_zero_iff inputCmd).mpr fun hor => h ⟨hor, ?_⟩
      simpa using hvar
    rw [heq, hskipped]
    rfl

theorem misused_substitute (hb : b.Sound) (hcommand : b.command.offset ≠ 0)
    (hne : b.command ≠ b.cmd) : b.substitute.heap.misused = true := by
  have horiginal : b.command ≠ b.originalCommand := by
    intro heq
    rw [heq] at hcommand
    exact hcommand hb.start
  have hfree : (b.free b.command).heap.misused = true := by
    rw [← Bool.not_eq_false]
    exact fun hfalse => hcommand ((Heap.misused_free _ _).mp hfalse).2.1
  unfold Buffers.substitute
  rw [if_pos ⟨horiginal, hne⟩]
  dsimp only
  split
  · exact Heap.misused_free_of_misused hfree _
  · exact hfree

/-- The line has a substitution. -/
def Env.Substitutes (env : Env) (fuel : Nat) (inputCmd : CStr) : Prop :=
  ∃ captured command,
    expandSubstitutions env.capture fuel (env.front inputCmd) = some (captured, command) ∧
      captured ≠ []

theorem buffers_misused_iff (env : Env) (fuel : Nat) (inputCmd : CStr) (dispatched : Bool) :
    (∀ b, env.buffers fuel inputCmd dispatched = some b → b.heap.misused = false) ↔
      (env.Substitutes fuel inputCmd → ¬env.IsPrefixed inputCmd) := by
  unfold Env.buffers Env.Substitutes
  have hsound := env.sound_frontBuffers inputCmd
  rcases hexpand : expandSubstitutions env.capture fuel (env.front inputCmd) with
    _ | ⟨captured, command⟩
  · simp
  · simp only [Option.some.injEq, forall_eq', Prod.mk.injEq, and_assoc, exists_and_left,
      exists_eq_left']
    by_cases hnil : captured = []
    · rw [if_pos hnil]
      exact iff_of_true (hsound.back env command dispatched) fun hne => absurd hnil hne
    · rw [if_neg hnil]
      by_cases hprefixed : env.IsPrefixed inputCmd
      · obtain ⟨hoffset, hne⟩ := Env.frontBuffers_of_isPrefixed hprefixed
        have hmisused := misused_back (misused_substitute hsound hoffset hne) env command dispatched
        exact iff_of_false (by simp [hmisused]) fun hall => hall hnil hprefixed
      · have hcmd := Env.frontBuffers_of_not_isPrefixed hprefixed
        exact iff_of_true ((hsound.substitute hcmd).back env command dispatched) fun _ => hprefixed

end IosSystem.Shell
