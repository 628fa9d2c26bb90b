import IosSystem.Env.Stores
import IosSystem.Lib.Transition
import IosSystem.Shell.Dispatch
import Mathlib.Logic.Function.Basic

/-!
# The environment of a new command

A command runs on a thread whose environment is set up by `ios_env_init_thread`: a copy of that of
the thread `mainThreadId` of the session, or of the `environ` of the process when `mainThreadId` is
0.

It is always 0 (`Process.Reachable.noMainThread`), so every command starts with the environment of
the process.
-/

namespace IosSystem.Env

open Option Function
open Shell (CStr)
open Environ

/-! ## Threads and sessions -/

/-- The process: all environments, and who uses which. -/
structure Process where
  environ : List CStr
  /-- the arrays in the hash table of `ios_env_manager` -/
  tables : Nat → Option (List CStr)
  initialised : Nat → Bool
  /-- `currentSession` of a thread -/
  session : Nat → Option Nat
  /-- `mainThreadId` of a session -/
  mainThreadId : Nat → Nat
  /-- `current_pid` of a thread -/
  currentPid : Nat → Nat
  environment : Nat → Option (List CStr)

/-- What one thread sees. -/
def Process.stores (P : Process) (thread : Nat) : Stores :=
  { table := if P.initialised thread then P.tables thread else none
    environment := P.environment (P.currentPid thread)
    environ := P.environ }

def Process.update (P : Process) (thread : Nat) (s : Stores) : Process :=
  { P with
    environ := s.environ
    tables := if P.initialised thread then Function.update P.tables thread s.table else P.tables
    environment := Function.update P.environment (P.currentPid thread) s.environment }

/-- `ios_env_init_thread` -/
def Process.initThread (P : Process) (thread parent : Nat) : Process :=
  if P.initialised thread then P
  else
    { P with
      tables := Function.update P.tables thread
        (some (if parent = 0 then P.environ else (P.tables parent).getD []))
      initialised := Function.update P.initialised thread true }

/-- `ios_env_cleanup_thread`: the array stays in the hash table. -/
def Process.cleanupThread (P : Process) (thread : Nat) : Process :=
  { P with initialised := Function.update P.initialised thread false }

/-! ## Starting a command -/

def quoteArgument (arg : CStr) : CStr :=
  if '"' ∉ arg then '"' :: arg ++ ['"']
  else if '\'' ∉ arg then '\'' :: arg ++ ['\'']
  else if '\x1e' ∉ arg then '\x1e' :: arg ++ ['\x1e']
  else arg

/-- `concatenateArgv` of the arguments `name :: args` -/
def concatenateArgv (name : CStr) (args : List CStr) : CStr :=
  name ++ args.flatMap fun arg => ' ' :: quoteArgument arg

def assignmentsOf (command : CStr) : List (CStr × CStr) :=
  (Shell.stripAssignments (Shell.stripParen (Shell.stripQuote command))).1

/-- The ways to start a command. -/
inductive Start where
  /-- `ios_system`, with assignments before the command or without -/
  | system (command : CStr)
  /-- `ios_fork`, which gives this process id, and `ios_execv` -/
  | forkExecv (pid : Nat) (name : CStr) (args : List CStr)
  /-- `ios_execve` -/
  | execve (name : CStr) (args : List CStr) (envp : List CStr)

/-- `ios_fork` copies the environment of the process id. -/
def Process.fork (P : Process) (thread pid : Nat) : Process :=
  { P with
    currentPid := Function.update P.currentPid thread pid
    environment :=
      Function.update P.environment pid (some (P.stores thread).environmentVariables) }

def Process.storeEnvironment (P : Process) (thread : Nat) (envp : List CStr) : Process :=
  { P with environment := Function.update P.environment (P.currentPid thread) (some envp) }

/-- `ios_setenv` for each assignment. -/
def Process.assign (P : Process) (thread : Nat) : List (CStr × CStr) → Process
  | [] => P
  | a :: assignments =>
    (P.update thread ((P.stores thread).setenv (some a.1) (some a.2) true).1).assign thread
      assignments

/-- `run_function` on the new thread `worker`. -/
def Process.runFunction (P : Process) (thread worker : Nat) : Process :=
  let P := { P with
    session := Function.update P.session worker (P.session thread)
    currentPid := Function.update P.currentPid worker (P.currentPid thread) }
  P.initThread worker ((P.session worker).elim 0 P.mainThreadId)

/-- `ios_system` for a command. -/
def Process.system (P : Process) (thread worker : Nat) (command : CStr) : Process :=
  (P.assign thread (assignmentsOf command)).runFunction thread worker

def Process.start (P : Process) (thread worker : Nat) : Start → Process
  | .system command => P.system thread worker command
  | .forkExecv pid name args =>
    (P.fork thread pid).system thread worker (concatenateArgv name args)
  | .execve name args envp =>
    (P.storeEnvironment thread envp).system thread worker (concatenateArgv name args)

/-! ## `mainThreadId` -/

/-- What may happen between two commands. -/
inductive Event where
  /-- `initSessionParameters`, `ios_session_init_params` -/
  | initSession (session : Nat)
  /-- `ios_switchSession` -/
  | switchSession (thread session : Nat)
  /-- `sh_main` -/
  | shSession (session parent : Nat)
  | call (thread : Nat) (c : Call)
  | fork (thread pid : Nat)
  | start (thread worker : Nat) (how : Start)
  /-- `cleanup_function` -/
  | cleanup (thread : Nat)

def Process.step (P : Process) : Event → Option Process
  | .initSession session => some { P with mainThreadId := Function.update P.mainThreadId session 0 }
  | .switchSession thread session =>
    some { P with session := Function.update P.session thread (some session) }
  | .shSession session parent =>
    some { P with
      mainThreadId := Function.update P.mainThreadId session (P.mainThreadId parent) }
  | .call thread c => ((P.stores thread).call c).map fun r => P.update thread r.1
  | .fork thread pid => some (P.fork thread pid)
  | .start thread worker how =>
    -- the worker is a new thread
    if worker ≠ thread ∧ P.initialised worker = false then some (P.start thread worker how)
    else none
  | .cleanup thread =>
    let mainThreadId := match P.session thread with
      | some session =>
        if P.mainThreadId session = thread then Function.update P.mainThreadId session 0
        else P.mainThreadId
      | none => P.mainThreadId
    some ({ P with mainThreadId }.cleanupThread thread)

/-- `mainThreadId` is 0 in every session. -/
def Process.NoMainThread (P : Process) : Prop := ∀ session, P.mainThreadId session = 0

def Process.Initial (P : Process) : Prop :=
  P.NoMainThread ∧ ∀ thread, P.initialised thread = false

def Process.Reachable : Process → Prop :=
  Transition.Reachable Process.step (fun _ _ => True) Process.Initial

theorem update_zero {f : Nat → Nat} (h : ∀ i, f i = 0) (j : Nat) : ∀ i, update f j 0 i = 0 := by
  intro i
  by_cases hi : i = j
  · rw [hi, update_self]
  · rw [update_of_ne hi, h]

section

variable (P : Process)

theorem assign_mainThreadId (thread : Nat) (assignments : List (CStr × CStr)) :
    (P.assign thread assignments).mainThreadId = P.mainThreadId := by
  induction assignments generalizing P with
  | nil => rfl
  | cons a assignments ih => exact ih _

theorem initThread_mainThreadId (thread parent : Nat) :
    (P.initThread thread parent).mainThreadId = P.mainThreadId := by
  rw [Process.initThread]
  split <;> rfl

theorem system_mainThreadId (thread worker : Nat) (command : CStr) :
    (P.system thread worker command).mainThreadId = P.mainThreadId :=
  (initThread_mainThreadId _ _ _).trans (assign_mainThreadId P thread _)

theorem start_mainThreadId (thread worker : Nat) (how : Start) :
    (P.start thread worker how).mainThreadId = P.mainThreadId := by
  cases how <;> exact system_mainThreadId _ _ _ _

end

theorem step_noMainThread {P P' : Process} {e : Event} (h : P.NoMainThread)
    (hstep : P.step e = some P') : P'.NoMainThread := by
  cases e with
  | initSession session =>
    cases hstep
    exact update_zero h session
  | switchSession thread session =>
    cases hstep
    exact h
  | shSession session parent =>
    cases hstep
    rw [h parent]
    exact update_zero h session
  | call thread c =>
    obtain ⟨r, -, rfl⟩ := map_eq_some_iff.mp hstep
    exact h
  | fork thread pid =>
    cases hstep
    exact h
  | start thread worker how =>
    rw [Process.step] at hstep
    split at hstep <;> cases hstep
    rw [Process.NoMainThread, start_mainThreadId]
    exact h
  | cleanup thread =>
    cases hstep
    split
    · split
      · exact update_zero h _
      · exact h
    · exact h

theorem Process.Reachable.noMainThread {P : Process} (h : P.Reachable) : P.NoMainThread := by
  refine Transition.Reachable.invariant ?_ ?_ h
  · exact fun _ hinit => hinit.1
  · exact fun _ _ _ h _ hstep => step_noMainThread h hstep

/-! ## Inheritance -/

/-- The values after the assignments before a command. -/
def assigned (values : CStr → Option CStr) : List (CStr × CStr) → CStr → Option CStr
  | [] => values
  | a :: assignments => assigned (update values a.1 (some a.2)) assignments

/-- What a command should find when it is started by a thread with the variables `E`. -/
def Start.inherited (E : List CStr) : Start → CStr → Option CStr
  | .system command => assigned (lookup E) (assignmentsOf command)
  | .forkExecv _ _ _ => lookup E
  | .execve _ _ envp => lookup envp

theorem assigned_congr {f g : CStr → Option CStr} {n : CStr} (h : f n = g n)
    (assignments : List (CStr × CStr)) : assigned f assignments n = assigned g assignments n := by
  induction assignments generalizing f g with
  | nil => exact h
  | cons a assignments ih =>
    refine ih ?_
    by_cases hn : n = a.1
    · rw [hn, update_self, update_self]
    · rw [update_of_ne hn, update_of_ne hn, h]

theorem stores_table {P : Process} {thread : Nat} {E : List CStr} :
    (P.stores thread).table = some E ↔ P.initialised thread = true ∧ P.tables thread = some E := by
  rw [Process.stores]
  split
  · next h => simp [h]
  · next h => simp [h]

section

variable {P : Process} {thread worker : Nat} {E : List CStr}

section

variable (hE : (P.stores thread).table = some E)
include hE

theorem setenv_table (a : CStr × CStr) :
    ∃ E', (P.stores thread).setenv (some a.1) (some a.2) true
        = ({ P.stores thread with table := some E' }, if badName (some a.1) then -1 else 0) ∧
      ∀ n, IsName n → lookup E' n = update (lookup E) a.1 (some a.2) n := by
  rw [Stores.setenv, hE]
  cases hbad : badName (some a.1) with
  | true =>
    refine ⟨E, by rw [← hE]; rfl, fun n hn => ?_⟩
    have hne : n ≠ a.1 := fun e => not_isName hbad (e ▸ hn)
    rw [update_of_ne hne]
  | false =>
    obtain ⟨name, hname, heq⟩ := badName_eq_false hbad
    cases hname
    refine ⟨_, rfl, fun n hn => ?_⟩
    rw [Env.assign, if_neg (by simp), getD_some, getD_some, lookup_insert hn.2.1 heq, update_apply]

theorem assign_table (assignments : List (CStr × CStr)) :
    (P.assign thread assignments).environ = P.environ ∧
      (P.assign thread assignments).initialised = P.initialised ∧
      (P.assign thread assignments).session = P.session ∧
      ∃ E', (P.assign thread assignments).tables thread = some E' ∧
        ∀ n, IsName n → lookup E' n = assigned (lookup E) assignments n := by
  induction assignments generalizing P E with
  | nil => exact ⟨rfl, rfl, rfl, E, (stores_table.mp hE).2, fun _ _ => rfl⟩
  | cons a assignments ih =>
    obtain ⟨E₁, hset, hvalues⟩ := setenv_table hE a
    have hinit := (stores_table.mp hE).1
    have hE₁ : ((P.update thread { P.stores thread with table := some E₁ }).stores thread).table
        = some E₁ := by
      rw [stores_table]
      refine ⟨hinit, ?_⟩
      dsimp only [Process.update]
      rw [if_pos hinit, Function.update_self]
    obtain ⟨henviron, hinitialised, hsession, E', hE', hvalues'⟩ := ih hE₁
    rw [Process.assign, hset]
    refine ⟨henviron, hinitialised, hsession, E', hE', fun n hn => ?_⟩
    rw [hvalues' n hn, assigned]
    exact assigned_congr (hvalues n hn) assignments

theorem system_table (hworker : P.initialised worker = false) (command : CStr) :
    ((P.system thread worker command).stores worker).table
      = some (if (P.session thread).elim 0 P.mainThreadId = 0 then P.environ
          else (((P.assign thread (assignmentsOf command)).tables
            ((P.session thread).elim 0 P.mainThreadId)).getD [])) := by
  obtain ⟨henviron, hinitialised, hsession, -⟩ := assign_table hE (assignmentsOf command)
  have hmain := assign_mainThreadId P thread (assignmentsOf command)
  rw [Process.system, Process.runFunction]
  generalize P.assign thread (assignmentsOf command) = P' at *
  rw [stores_table]
  have hfresh : P'.initialised worker = false := by rw [hinitialised, hworker]
  simp only [Process.initThread, hfresh, Function.update_self, hsession, hmain, henviron,
    Bool.false_eq_true, if_false, and_self]

end

/--
A command started with `ios_system` gets the environment of the thread and the assignments, if that
thread is the main thread of the session.
-/
theorem system_inherits (values : CStr → CStr) (hE : (P.stores thread).table = some E)
    (hworker : P.initialised worker = false) (command : CStr) {session : Nat}
    (hsession : P.session thread = some session) (hmain : P.mainThreadId session = thread)
    (hthread : thread ≠ 0) {n : CStr} (hn : IsName n) :
    ((P.system thread worker command).stores worker).getenv values n
      = (Start.system command).inherited E n := by
  obtain ⟨-, -, -, E', hE', hvalues⟩ := assign_table hE (assignmentsOf command)
  rw [getenv_of_isName values hn, system_table hE hworker, hsession, elim_some, hmain,
    if_neg hthread, hE']
  exact hvalues n hn

theorem start_table (hmain : P.NoMainThread) (hE : (P.stores thread).table = some E)
    (hworker : P.initialised worker = false) (how : Start) :
    ((P.start thread worker how).stores worker).table = some P.environ := by
  have hzero : ∀ s : Option Nat, s.elim 0 P.mainThreadId = 0 := by
    intro s
    cases s with
    | none => rfl
    | some session => exact hmain session
  cases how with
  | system command =>
    rw [Process.start, system_table hE hworker, hzero, if_pos rfl]
  | forkExecv pid name args =>
    have hE' : ((P.fork thread pid).stores thread).table = some E := hE
    rw [Process.start, system_table hE' hworker]
    exact congrArg some (if_pos (hzero _))
  | execve name args envp =>
    have hE' : ((P.storeEnvironment thread envp).stores thread).table = some E := hE
    rw [Process.start, system_table hE' hworker]
    exact congrArg some (if_pos (hzero _))

/--
A command finds the variables of the thread that starts it, with the assignments before the command,
or those given to `ios_execve`, exactly when they are those of the process.
-/
theorem inheritance_iff (values : CStr → CStr) (hP : P.Reachable)
    (hE : (P.stores thread).table = some E) (hworker : P.initialised worker = false) (how : Start) :
    (∀ n, IsName n →
        ((P.start thread worker how).stores worker).getenv values n = how.inherited E n) ↔
      ∀ n, IsName n → lookup P.environ n = how.inherited E n := by
  have htable := start_table hP.noMainThread hE hworker how
  refine forall_congr' fun n => imp_congr_right fun hn => ?_
  rw [getenv_of_isName values hn, htable, getD_some]

end

/-- A process with `A=1`, before the first command. -/
def freshProcess : Process :=
  { environ := ["A=1".toList]
    tables := fun _ => none
    initialised := fun _ => false
    session := fun _ => some 0
    mainThreadId := fun _ => 0
    currentPid := fun _ => 0
    environment := fun _ => none }

def oneCommand : Process := freshProcess.start 1 2 (.system ['a'])

theorem oneCommand_reachable : oneCommand.Reachable := by
  have hfresh : freshProcess.Reachable := .start ⟨fun _ => rfl, fun _ => rfl⟩
  exact hfresh.next (a := .start 1 2 (.system ['a'])) trivial rfl

/-- A command that is started with `ios_system` when nothing has been set. -/
theorem inheritance_nothing_set :
    oneCommand.Reachable ∧ (oneCommand.stores 2).table = some ["A=1".toList] ∧
      ∀ n, IsName n → ((oneCommand.start 2 3 (.system ['b'])).stores 3).getenv id n
        = (Start.system ['b']).inherited ["A=1".toList] n :=
  ⟨oneCommand_reachable, rfl,
    (inheritance_iff id oneCommand_reachable rfl rfl (.system ['b'])).mpr fun _ _ => rfl⟩

/-- `B=2 c`, and `ios_execve` with `B=2`: the command does not find `B`. -/
theorem assignment_not_inherited :
    let assigned : Start := .system "B=2 c".toList
    let given : Start := .execve ['c'] [] ["B=2".toList]
    oneCommand.Reachable ∧ (oneCommand.stores 2).table = some ["A=1".toList] ∧
      oneCommand.initialised 3 = false ∧
      assigned.inherited ["A=1".toList] ['B'] = some ['2'] ∧
      ((oneCommand.start 2 3 assigned).stores 3).getenv id ['B'] = none ∧
      given.inherited ["A=1".toList] ['B'] = some ['2'] ∧
      ((oneCommand.start 2 3 given).stores 3).getenv id ['B'] = none := by
  refine ⟨oneCommand_reachable, rfl, rfl, ?_, ?_, ?_, ?_⟩ <;> decide

end IosSystem.Env
