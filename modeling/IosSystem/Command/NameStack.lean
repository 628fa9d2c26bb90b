import IosSystem.Command.Copies
import IosSystem.Shell.Tokenizer

/-!
# The names of the running commands

`ios_system` enters the name of a command in `commandName` of the session, `cleanup_function` takes
one away, and `ios_progname` and the pagers take the last name for the running command.

A name that begins with a backslash is not entered, and is taken away all the same. The backslash
must have survived `unquoteArgument`: `\ls` is entered as `ls`, and `\\ls` is not entered. The
commands are nested: the one that ends is the last one that was started.
-/

namespace IosSystem.Command

open List Option
open IosSystem.Shell

/-- `numCommand` and `commandName` of a session; `numCommandsAllocated` is the length of the list.
-/
structure NameStack where
  numCommand : Nat
  commandName : List CStr
  deriving DecidableEq

def NameStack.init : NameStack := ⟨0, replicate 10 []⟩

/-- The array after the `realloc`, if one is due. -/
def NameStack.grow (s : NameStack) : List CStr :=
  if s.commandName.length ≤ s.numCommand then s.commandName ++ replicate 10 [] else s.commandName

/-- The name of a command is stored behind the others. -/
def NameStack.push (s : NameStack) (argv0 : CStr) : NameStack :=
  if s.numCommand = 0 ∧ s.commandName.head? = some [] then ⟨1, s.commandName.set 0 argv0⟩
  else ⟨s.numCommand + 1, s.grow.set s.numCommand argv0⟩

/-- A command with a backslash in front is not entered. -/
def NameStack.enter (s : NameStack) (argv0 : CStr) : NameStack :=
  if argv0.head? = some '\\' then s else s.push argv0

/-- The end of a command, in `cleanup_function`. -/
def NameStack.leave (s : NameStack) : NameStack :=
  if 0 < s.numCommand then { s with numCommand := s.numCommand - 1 }
  else { s with commandName := s.commandName.set 0 [] }

/-- `argv[0]`; `none` if there are no arguments. -/
def argv0 (command : CStr) : Option CStr := (arguments command).head?.map Token.text

/-- The name without the backslash of `\ls`. -/
def plainName (argv0 : CStr) : CStr := if argv0.head? = some '\\' then argv0.tail else argv0

/-- A command that was started, with the value of `numCommand` before. -/
structure Running where
  name : CStr
  before : Nat
  deriving DecidableEq

/-- The stack of names, and the commands that run. -/
structure Nest where
  stack : NameStack
  /-- the last one that was started comes first -/
  running : List Running
  deriving DecidableEq

def Nest.init : Nest := ⟨.init, []⟩

inductive NestEvent where
  /-- `ios_system`; `created` is the success of `pthread_create` -/
  | system (command : CStr) (created : Bool)
  /-- `cleanup_function` of the last command that was started -/
  | cleanup

/-- `ios_system` enters a name, and `cleanup_function` leaves it. -/
def Nest.step (s : Nest) : NestEvent → Option Nest
  | .system command created =>
    match argv0 command with
    | none => some s
    | some argv0 =>
      some ⟨s.stack.enter argv0,
        if created then ⟨plainName argv0, s.stack.numCommand⟩ :: s.running else s.running⟩
  | .cleanup =>
    match s.running with
    | [] => none
    | _ :: running => some ⟨s.stack.leave, running⟩

/--
The last name is that of the last command that was started, and when this command ends, there are as
many names as before it was started. There are no more names than entries.
-/
structure Nest.Balanced (s : Nest) : Prop where
  innermost : ∀ r ∈ s.running.head?, 0 < s.stack.numCommand ∧
    s.stack.commandName[s.stack.numCommand - 1]? = some r.name
  restored : ∀ r ∈ s.running.head?, s.stack.leave.numCommand = r.before
  room : s.stack.numCommand ≤ s.stack.commandName.length

/--
A command that is started has entered its name, and one that could not be started inside another has
not.
-/
def Nest.Guard (s : Nest) : NestEvent → Prop
  | .system command created => ∀ a ∈ argv0 command,
    if created then a.head? ≠ some '\\' else a.head? = some '\\' ∨ s.running = []
  | .cleanup => True

variable {s : NameStack}

theorem NameStack.enter_of_backslash {argv0 : CStr} (h : argv0.head? = some '\\') :
    s.enter argv0 = s :=
  if_pos h

theorem NameStack.enter_of_plain {argv0 : CStr} (h : argv0.head? ≠ some '\\') :
    s.enter argv0 = s.push argv0 :=
  if_neg h

open NameStack Nest

theorem NameStack.leave_numCommand (s : NameStack) : s.leave.numCommand = s.numCommand - 1 := by
  unfold leave
  split
  · rfl
  · dsimp only
    omega

theorem NameStack.leave_length (s : NameStack) :
    s.leave.commandName.length = s.commandName.length := by
  unfold leave
  split
  · rfl
  · exact length_set

/-- The same entries, with their sizes and without their texts. -/
structure NameStack.Matches (s : NameStack) (names : Names) : Prop where
  numCommand : names.numCommand = s.numCommand
  length : names.sizes.length = s.commandName.length
  first : s.commandName.head? = some names.first

section

variable {names names' : Names}

theorem matches_init : NameStack.init.Matches Names.init := ⟨rfl, rfl, rfl⟩

/-- As long as the names fit, `Names` goes through the same entries. -/
theorem NameStack.Matches.push (h : s.Matches names) {argv0 : CStr}
    (hs : names.step (.push argv0) = some names') : (s.push argv0).Matches names' := by
  obtain ⟨c, -, hs⟩ := bind_eq_some_iff.mp hs
  split at hs <;> cases hs
  obtain ⟨n, commandName⟩ := s
  obtain ⟨hn, hlength, hfirst⟩ := h
  obtain ⟨first, rest, rfl⟩ : ∃ first rest, commandName = first :: rest := by
    cases commandName with
    | nil => cases hfirst
    | cons first rest => exact ⟨first, rest, rfl⟩
  obtain rfl : first = names.first := Option.some.inj hfirst
  dsimp only at hn hlength
  unfold NameStack.push Names.grow NameStack.grow
  rw [hn, hlength]
  simp only [head?_cons, some.injEq]
  by_cases hempty : n = 0 ∧ names.first = []
  · rw [if_pos hempty, if_pos hempty, hempty.1]
    exact ⟨rfl, by simpa using hlength, rfl⟩
  · rw [if_neg hempty, if_neg hempty]
    by_cases hfull : (names.first :: rest).length ≤ n
    · rw [if_pos hfull, if_pos hfull]
      refine ⟨rfl, by simpa using hlength, ?_⟩
      cases n with
      | zero => simp at hfull
      | succ n => simp
    · rw [if_neg hfull, if_neg hfull]
      refine ⟨rfl, by simpa using hlength, ?_⟩
      cases n with
      | zero => simp
      | succ n => simp

theorem NameStack.Matches.leave (h : s.Matches names) (hs : names.step .pop = some names') :
    s.leave.Matches names' := by
  cases hs
  unfold NameStack.leave
  rw [h.numCommand]
  split
  · exact ⟨rfl, h.length, h.first⟩
  · refine ⟨rfl, by rw [length_set]; exact h.length, ?_⟩
    cases hc : s.commandName with
    | nil =>
      have := h.first
      rw [hc] at this
      cases this
    | cons first rest => rfl

end

/-- The array is not empty, and `numCommand` is within it. -/
structure NameStack.Room (s : NameStack) : Prop where
  pos : 0 < s.commandName.length
  le : s.numCommand ≤ s.commandName.length

theorem NameStack.Room.grow (h : s.Room) :
    s.numCommand < s.grow.length ∧ ∀ i < s.numCommand, s.grow[i]? = s.commandName[i]? := by
  have hle := h.le
  unfold NameStack.grow
  split
  · refine ⟨?_, fun i hi => getElem?_append_left (Nat.lt_of_lt_of_le hi hle)⟩
    rw [length_append, length_replicate]
    omega
  · exact ⟨by omega, fun _ _ => rfl⟩

theorem NameStack.Room.push (h : s.Room) (argv0 : CStr) :
    (s.push argv0).numCommand = s.numCommand + 1 ∧ (s.push argv0).Room ∧
      (s.push argv0).commandName[s.numCommand]? = some argv0 ∧
      ∀ i < s.numCommand, (s.push argv0).commandName[i]? = s.commandName[i]? := by
  unfold NameStack.push
  split
  · next hfirst =>
    rw [hfirst.1]
    refine ⟨rfl, ⟨?_, ?_⟩, getElem?_set_self h.pos, fun i hi => absurd hi (Nat.not_lt_zero i)⟩
    · rw [length_set]
      exact h.pos
    · rw [length_set]
      exact h.pos
  · obtain ⟨hlt, hsame⟩ := h.grow
    refine ⟨rfl, ⟨?_, ?_⟩, getElem?_set_self hlt, fun i hi => ?_⟩
    · rw [length_set]
      exact Nat.zero_lt_of_lt hlt
    · rw [length_set]
      exact hlt
    · rw [getElem?_set_ne (Nat.ne_of_gt hi)]
      exact hsame i hi

theorem NameStack.Room.enter (h : s.Room) (argv0 : CStr) : (s.enter argv0).Room := by
  unfold NameStack.enter
  split
  · exact h
  · exact (h.push argv0).2.1

theorem NameStack.Room.leave (h : s.Room) : s.leave.Room := by
  refine ⟨?_, ?_⟩
  · rw [s.leave_length]
    exact h.pos
  · rw [s.leave_length, s.leave_numCommand]
    exact Nat.le_trans (Nat.sub_le _ _) h.le

/-- The names of the commands are the last ones of the `n` names. -/
def Stacked (commandName : List CStr) : Nat → List Running → Prop
  | _, [] => True
  | n, r :: running =>
    n = r.before + 1 ∧ commandName[r.before]? = some r.name ∧ Stacked commandName r.before running

variable {running : List Running}

theorem Stacked.congr {names names' : List CStr} {n : Nat} (h : Stacked names n running)
    (heq : ∀ i < n, names'[i]? = names[i]?) : Stacked names' n running := by
  induction running generalizing n with
  | nil => trivial
  | cons r running ih =>
    obtain ⟨hn, hname, hrest⟩ := h
    refine ⟨hn, ?_, ih hrest fun i hi => heq i (by omega)⟩
    rw [heq r.before (by omega)]
    exact hname

/-- Every running command that has entered its name finds it in its place. -/
structure Nest.Inv (s : Nest) : Prop where
  room : s.stack.Room
  stacked : Stacked s.stack.commandName s.stack.numCommand s.running

theorem Nest.inv_init : Nest.init.Inv := ⟨⟨by decide, by decide⟩, trivial⟩

variable {s s' : Nest}

theorem Nest.Inv.balanced (h : s.Inv) : s.Balanced := by
  have hstacked := h.stacked
  refine ⟨fun r hr => ?_, fun r hr => ?_, h.room.le⟩
  all_goals
    obtain ⟨running, hrunning⟩ := head?_eq_some_iff.mp hr
    rw [hrunning] at hstacked
    obtain ⟨hn, hname, -⟩ := hstacked
  · rw [hn]
    exact ⟨Nat.succ_pos _, hname⟩
  · rw [leave_numCommand, hn]
    rfl

theorem Nest.step_system {command : CStr} {created : Bool}
    (hs : s.step (.system command created) = some s') :
    (argv0 command = none ∧ s' = s) ∨ ∃ a, argv0 command = some a ∧ s' = ⟨s.stack.enter a,
      if created then ⟨plainName a, s.stack.numCommand⟩ :: s.running else s.running⟩ := by
  rw [step] at hs
  cases ha : argv0 command with
  | none =>
    simp only [ha, some.injEq] at hs
    exact .inl ⟨rfl, hs.symm⟩
  | some a =>
    simp only [ha, some.injEq] at hs
    exact .inr ⟨a, rfl, hs.symm⟩

theorem Nest.step_cleanup (hs : s.step .cleanup = some s') :
    ∃ r running, s.running = r :: running ∧ s' = ⟨s.stack.leave, running⟩ := by
  rw [step] at hs
  cases hr : s.running with
  | nil => simp [hr] at hs
  | cons r running =>
    simp only [hr, some.injEq] at hs
    exact ⟨r, running, rfl, hs.symm⟩

theorem Nest.Inv.system (h : s.Inv) {a : CStr} {created : Bool}
    (hg : if created then a.head? ≠ some '\\' else a.head? = some '\\' ∨ s.running = []) :
    Nest.Inv ⟨s.stack.enter a,
      if created then ⟨plainName a, s.stack.numCommand⟩ :: s.running else s.running⟩ := by
  refine ⟨h.room.enter a, ?_⟩
  cases created with
  | true =>
    have hplain : a.head? ≠ some '\\' := hg
    obtain ⟨hnum, -, hself, hothers⟩ := h.room.push a
    rw [enter_of_plain hplain, if_pos rfl, plainName, if_neg hplain]
    exact ⟨hnum, hself, h.stacked.congr hothers⟩
  | false =>
    rcases hg with hback | hnone
    · rw [enter_of_backslash hback]
      exact h.stacked
    · rw [if_neg (by decide), hnone]
      trivial

theorem Nest.Inv.cleanup (h : s.Inv) {r : Running} (hr : s.running = r :: running) :
    Nest.Inv ⟨s.stack.leave, running⟩ := by
  refine ⟨h.room.leave, ?_⟩
  have hstacked := h.stacked
  rw [hr] at hstacked
  obtain ⟨hn, -, hrest⟩ := hstacked
  have hpos : 0 < s.stack.numCommand := by omega
  have hnames : s.stack.leave.commandName = s.stack.commandName := by
    rw [leave, if_pos hpos]
  have hnum : s.stack.leave.numCommand = r.before := by
    rw [leave_numCommand, hn]
    rfl
  rw [hnames, hnum]
  exact hrest

variable {e : NestEvent}

theorem Nest.Inv.step (h : s.Inv) (hs : s.step e = some s') (hg : s.Guard e) : s'.Inv := by
  cases e with
  | system command created =>
    rcases step_system hs with ⟨-, rfl⟩ | ⟨a, ha, rfl⟩
    · exact h
    · exact h.system (hg a ha)
  | cleanup =>
    obtain ⟨r, running, hr, rfl⟩ := step_cleanup hs
    exact h.cleanup hr

theorem Nest.Inv.lose (h : s.Inv) (hs : s.step e = some s') (hg : ¬s.Guard e) : ¬s'.Balanced := by
  cases e with
  | cleanup => exact absurd trivial hg
  | system command created =>
    simp only [Nest.Guard, not_forall] at hg
    obtain ⟨a, ha, hg⟩ := hg
    rcases step_system hs with ⟨hnone, -⟩ | ⟨a', ha', rfl⟩
    · rw [hnone] at ha
      cases ha
    obtain rfl : a' = a := some.inj (ha'.symm.trans ha)
    intro hbal
    cases created with
    | true =>
      have hback : a'.head? = some '\\' := not_not.mp hg
      have hinner := (hbal.innermost _ rfl).1
      have hrestored := hbal.restored _ rfl
      dsimp only at hinner hrestored
      rw [leave_numCommand, enter_of_backslash hback] at hrestored
      rw [enter_of_backslash hback] at hinner
      omega
    | false =>
      obtain ⟨hplain, hrunning⟩ := not_or.mp hg
      obtain ⟨r, running, hr⟩ := exists_cons_of_ne_nil hrunning
      have hrestored := hbal.restored r (by simp [hr])
      have hbefore := h.balanced.restored r (by simp [hr])
      have hpos := (h.balanced.innermost r (by simp [hr])).1
      rw [leave_numCommand, enter_of_plain hplain, (h.room.push a').1] at hrestored
      rw [leave_numCommand] at hbefore
      omega

theorem Nest.room_step (h : s.stack.Room) (hs : s.step e = some s') : s'.stack.Room := by
  cases e with
  | system command created =>
    rcases step_system hs with ⟨-, rfl⟩ | ⟨a, -, rfl⟩
    · exact h
    · exact h.enter a
  | cleanup =>
    obtain ⟨r, running, -, rfl⟩ := step_cleanup hs
    exact h.leave

/--
For all histories of nested commands in a new session: the stack is balanced all along just if every
command that is started has entered its name, and every command inside another that could not be
started has not. There is an entry for each of the names in any case.
-/
theorem names_balanced_iff (events : List NestEvent) :
    (Transition.Always Nest.step Nest.Balanced Nest.init events ↔
        Transition.Meets Nest.step Nest.Guard Nest.init events) ∧
      Transition.Always Nest.step
      (fun s => s.stack.numCommand ≤ s.stack.commandName.length) Nest.init
        events := by
  constructor
  · exact Transition.always_iff_meets (fun _ h => h.balanced) (fun _ _ _ h hs hg => h.step hs hg)
      (fun _ _ _ h hs hg => h.lose hs hg) Nest.inv_init events
  · exact @Transition.Always.of_invariant _ _ Nest.step (fun s => s.stack.Room) _ (fun _ h => h.le)
      (fun _ _ _ h hs => Nest.room_step h hs) _ Nest.inv_init.room events

/--
`dash` starts `\\ls`, and `ls` ends: while it runs, the last name is `dash`, and afterwards there is
no name left for `dash`, which is still running. With one backslash the name is entered.
-/
theorem backslash_unbalanced :
    argv0 "\\\\ls".toList = some "\\ls".toList ∧ argv0 "\\ls".toList = some "ls".toList ∧
      (∃ s, Transition.run Nest.step Nest.init
          [.system "dash".toList true, .system "\\\\ls".toList true] = some s ∧
        s.running.head? = some ⟨"ls".toList, 1⟩ ∧ s.stack.numCommand = 1 ∧
        s.stack.commandName[0]? = some "dash".toList) ∧
      ∃ s, Transition.run Nest.step Nest.init
          [.system "dash".toList true, .system "\\\\ls".toList true, .cleanup] = some s ∧
        s.running.head? = some ⟨"dash".toList, 0⟩ ∧ s.stack.numCommand = 0 ∧ ¬s.Balanced := by
  refine ⟨by decide, by decide, ⟨_, rfl, by decide, by decide, by decide⟩,
    _, rfl, by decide, by decide, fun h => ?_⟩
  exact absurd (h.innermost _ rfl).1 (by decide)

end IosSystem.Command
