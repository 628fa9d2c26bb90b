import IosSystem.Async.Handle
import IosSystem.Lib.Mutex
import Mathlib.Logic.Function.Basic

/-!
# A handle in the hands of many threads

`Async.Handle` is about the life of the handle. Here it is kept alive, and any number of callers use
it beside the worker, which is the first of the threads: they wait, ask for status and exit code,
kill the command, and set its callback.

The cuts are finer. `ios_command_set_callback` makes two stores, and a thread that invokes the
callback loads the function and its data, in either order, when it has unlocked the mutex. A call of
`NULL` has no step.
-/

namespace IosSystem.Async.Shared

/-! ## State -/

/-- A function and its data; `none` is `NULL`. -/
structure Registration where
  callback : Option Nat
  data : Nat
  deriving DecidableEq

/-- A call of the callback. -/
structure Invocation where
  callback : Nat
  exitCode : Int
  data : Nat
  deriving DecidableEq

/-- What a call has told its caller. -/
structure Report where
  /-- how many calls had returned when this one began -/
  since : Nat
  /-- whether the command is said to be finished; `none` if nothing is said -/
  finished : Option Bool
  status : Option Status
  exitCode : Option Int
  deriving DecidableEq

/-- Where a thread is: the worker or a caller. -/
inductive Place where
  /-- `command_thread_func`, about to store `IOS_CMD_RUNNING` -/
  | start
  | runCommand
  | doneLock (result : Int)
  | storeExit (result : Int)
  | publish (result : Int)
  | doneUnlock (result : Int)
  | done
  /-- `invoke_callback_if_set` -/
  | cbLock (exitCode : Int)
  | cbTest (exitCode : Int)
  /-- `callback_invoked` is set, and neither the function nor the data is loaded -/
  | claimed (exitCode : Int)
  | gotCallback (exitCode : Int) (callback : Option Nat)
  | gotData (exitCode : Int) (data : Nat)
  | call (exitCode : Int) (callback : Option Nat) (data : Nat)
  | idle
  /-- `ios_command_set_callback` -/
  | setLock (callback : Option Nat) (data : Nat)
  | setCallback (callback : Option Nat) (data : Nat)
  | setData (callback : Option Nat) (data : Nat)
  | setTest (callback : Option Nat)
  | setExit
  /-- `ios_command_wait` -/
  | waitLock
  | waitPending
  | waitRunning
  | waitTimeout
  | waitBlocked
  | waitExit
  /-- `ios_command_try_wait`; `wanted` if the exit code is asked for -/
  | tryStatus (wanted : Bool)
  | tryExit
  /-- `ios_command_get_status` -/
  | getStatus
  /-- `ios_command_get_exit_code` -/
  | exitStatus
  | exitLoad
  /-- `ios_command_kill` -/
  | killLock
  | killTest
  | killRequest
  | killSession
  deriving DecidableEq

/-- The fields of `struct ios_command` that the threads share, and what has happened. -/
structure State where
  status : Status
  exitCode : Int
  killRequested : Bool
  /-- the thread that holds `mutex` -/
  owner : Option Nat
  callback : Option Nat
  callbackData : Nat
  callbackInvoked : Bool
  timeoutMs : Int
  threads : List Place
  /-- what `ios_system` has returned -/
  result : Option Int
  registered : List Registration
  invocations : List Invocation
  reports : List Report
  /-- how many calls had returned when the thread began its last call -/
  since : Nat → Nat

/--
`ios_system_async` with a callback and a time-out has returned, and `n` callers may use the handle.
-/
def State.initial (r : Registration) (timeoutMs : Int) (n : Nat) : State :=
  { status := .pending
    exitCode := -1
    killRequested := false
    owner := none
    callback := r.callback
    callbackData := r.data
    callbackInvoked := false
    timeoutMs := timeoutMs
    threads := .start :: List.replicate n .idle
    result := none
    registered := [r]
    invocations := []
    reports := []
    since := fun _ => 0 }

/-- The fields that `Async.Handle` knows. -/
def State.view (s : State) : Command :=
  { systemAsync none none with
    status := s.status
    exitCode := s.exitCode
    killRequested := s.killRequested
    callback := s.callback.isSome
    callbackInvoked := s.callbackInvoked
    timeoutMs := s.timeoutMs }

theorem mem_initial {r : Registration} {timeoutMs : Int} {n : Nat} {p : Place}
    (hp : p ∈ (State.initial r timeoutMs n).threads) : p = .start ∨ p = .idle := by
  rcases List.mem_cons.1 hp with rfl | hp
  · exact .inl rfl
  · exact .inr (List.eq_of_mem_replicate hp)

def State.goto (s : State) (i : Nat) (p : Place) : State := { s with threads := s.threads.set i p }

def State.lock (s : State) (i : Nat) (p : Place) : Option State :=
  if s.owner = none then some ({ s with owner := some i }.goto i p) else none

/-- A call returns, and what it has told is recorded. -/
def State.report (s : State) (i : Nat) (finished : Option Bool) (status : Option Status)
    (exitCode : Option Int) : State :=
  { s with reports := s.reports ++ [Report.mk (s.since i) finished status exitCode] }.goto i .idle

/-! ## Steps -/

/-- Where a thread goes on after `invoke_callback_if_set`: only the worker does not come back. -/
def afterCallback (i : Nat) : Place := if i = 0 then .done else .idle

/--
What the surroundings decide: the time since the start, what `ios_system` returns, and which of the
two fields is loaded first.
-/
structure Outcome where
  elapsedMs : Int
  value : Int
  dataFirst : Bool

/-- The next step of thread `i`, which is at the given place. -/
def advance (s : State) (i : Nat) (o : Outcome) : Place → Option State
  | .start => some ({ s with status := .running }.goto i .runCommand)
  | .runCommand => some ({ s with result := some o.value }.goto i (.doneLock o.value))
  | .doneLock result => s.lock i (.storeExit result)
  | .storeExit result => some ({ s with exitCode := result }.goto i (.publish result))
  | .publish result =>
    some ({ s with status := finalStatus s.view o.elapsedMs result }.goto i (.doneUnlock result))
  | .doneUnlock result => some ({ s with owner := none }.goto i (.cbLock result))
  | .done | .idle => none
  | .cbLock exitCode => s.lock i (.cbTest exitCode)
  | .cbTest exitCode =>
    if s.callback.isSome ∧ s.callbackInvoked = false then
      some ({ s with callbackInvoked := true, owner := none }.goto i (.claimed exitCode))
    else some ({ s with owner := none }.goto i (afterCallback i))
  | .claimed exitCode =>
    some (s.goto i (if o.dataFirst then .gotData exitCode s.callbackData
      else .gotCallback exitCode s.callback))
  | .gotCallback exitCode callback => some (s.goto i (.call exitCode callback s.callbackData))
  | .gotData exitCode data => some (s.goto i (.call exitCode s.callback data))
  | .call exitCode callback data => callback.map fun f =>
    { s with invocations := s.invocations ++ [Invocation.mk f exitCode data] }.goto i
    (afterCallback i)
  | .setLock callback data => s.lock i (.setCallback callback data)
  | .setCallback callback data =>
    some ({ s with
      callback := callback
      registered := s.registered ++ [Registration.mk callback data] }.goto i
        (.setData callback data))
  | .setData callback data => some ({ s with callbackData := data }.goto i (.setTest callback))
  | .setTest callback =>
    some ({ s with owner := none }.goto i
      (if s.status.final ∧ s.callbackInvoked = false ∧ callback.isSome then .setExit else .idle))
  | .setExit => some (s.goto i (.cbLock s.exitCode))
  | .waitLock => s.lock i .waitPending
  | .waitPending => some (s.goto i (if s.status = .pending then .waitTimeout else .waitRunning))
  | .waitRunning => some (s.goto i (if s.status = .running then .waitTimeout else .waitExit))
  | .waitTimeout =>
    if 0 ≤ s.timeoutMs ∧ checkTimeout s.view o.elapsedMs = true then
      some ({ s with status := .timeout }.goto i .waitExit)
    else some ({ s with owner := none }.goto i .waitBlocked)
  | .waitBlocked => s.lock i .waitPending
  | .waitExit => some ({ s with owner := none }.report i (some true) none (some s.exitCode))
  | .tryStatus wanted =>
    if s.status.final then
      some (if wanted then s.goto i .tryExit else s.report i (some true) none none)
    else some (s.report i (some false) none none)
  | .tryExit => some (s.report i (some true) none (some s.exitCode))
  | .getStatus => some (s.report i (some s.status.final) (some s.status) none)
  | .exitStatus =>
    if s.status.final then some (s.goto i .exitLoad) else some (s.report i none none (some (-1)))
  | .exitLoad => some (s.report i none none (some s.exitCode))
  | .killLock => s.lock i .killTest
  | .killTest =>
    if s.status = .running then some (s.goto i .killRequest)
    else some ({ s with owner := none }.goto i .idle)
  | .killRequest => some ({ s with killRequested := true }.goto i .killSession)
  | .killSession => some ({ s with owner := none }.goto i .idle)

/-- The calls of the API that do not end the handle. -/
inductive Call where
  | setCallback (callback : Option Nat) (data : Nat)
  | wait
  | tryWait (wanted : Bool)
  | getStatus
  | getExitCode
  | kill

/-- The first place of a call. -/
def Call.entry : Call → Place
  | .setCallback callback data => .setLock callback data
  | .wait => .waitLock
  | .tryWait wanted => .tryStatus wanted
  | .getStatus => .getStatus
  | .getExitCode => .exitStatus
  | .kill => .killLock

inductive Label where
  | call (i : Nat) (c : Call)
  | advance (i : Nat) (o : Outcome)

def step (s : State) : Label → Option State
  | .call i c =>
    if s.threads[i]? = some .idle then
      some ({ s with since := Function.update s.since i s.reports.length }.goto i c.entry)
    else none
  | .advance i o => s.threads[i]?.bind (advance s i o)

/-! ## Places -/

/-- The places of the worker besides those in `invoke_callback_if_set`. -/
def Place.ofWorker : Place → Bool
  | .start | .runCommand | .doneLock _ | .storeExit _ | .publish _ | .doneUnlock _ | .done => true
  | _ => false

/-- In `invoke_callback_if_set`. -/
def Place.invokes : Place → Bool
  | .cbLock _ | .cbTest _ | .claimed _ | .gotCallback _ _ | .gotData _ _ | .call _ _ _ => true
  | _ => false

/-- The worker has stored the exit code. -/
def Place.stored : Place → Bool
  | .start | .runCommand | .doneLock _ | .storeExit _ => false
  | _ => true

/-- The worker has stored the final status. -/
def Place.published : Place → Bool
  | .start | .runCommand | .doneLock _ | .storeExit _ | .publish _ => false
  | _ => true

/-- The thread holds `mutex`. -/
def Place.holds : Place → Bool
  | .storeExit _ | .publish _ | .doneUnlock _ | .cbTest _ | .setCallback _ _ | .setData _ _
    | .setTest _
  | .waitPending | .waitRunning | .waitTimeout | .waitExit | .killTest | .killRequest
      | .killSession => true
  | _ => false

/-- The first thread is the worker, and the others are callers. -/
def Place.inRole (p : Place) (i : Nat) : Prop :=
  if i = 0 then (p.ofWorker || p.invokes) = true else p.ofWorker = false

/-! ## Moves -/

/-- What every step has in common. -/
structure Moves (s s' : State) (i : Nat) (p q : Place) : Prop where
  threads : s'.threads = s.threads.set i q
  owner : Mutex.Change Place.holds i p q s.owner s'.owner
  role : p.inRole i → q.inRole i
  timeoutMs : s'.timeoutMs = s.timeoutMs

variable {p : Place} {s s' : State} {i : Nat}

theorem inRole_of_invokes (h1 : p.invokes = true) (h2 : p.ofWorker = false) (i : Nat) :
    p.inRole i := by
  unfold Place.inRole
  split
  · rw [h1, Bool.or_true]
  · exact h2

theorem inRole_afterCallback (i : Nat) : (afterCallback i).inRole i := by
  unfold Place.inRole afterCallback
  split <;> rfl

theorem holds_afterCallback (i : Nat) : (afterCallback i).holds = false := by
  unfold afterCallback
  split <;> rfl

variable {q : Place}

theorem lock_eq_some (h : s.lock i q = some s') :
    s.owner = none ∧ s' = { s with owner := some i }.goto i q := by
  unfold State.lock at h
  split at h
  · next hfree => exact ⟨hfree, (Option.some.inj h).symm⟩
  · cases h

theorem moves_lock (h : s.lock i q = some s') (hp : p.holds = false) (hq : q.holds = true)
    (hrole : p.inRole i → q.inRole i) : Moves s s' i p q := by
  obtain ⟨hfree, rfl⟩ := lock_eq_some h
  refine ⟨rfl, ?_, hrole, rfl⟩
  rw [hfree]
  exact .lock hp hq

theorem advance_moves {o : Outcome} (h : advance s i o p = some s') : ∃ q, Moves s s' i p q := by
  cases p <;> simp only [advance] at h
  case doneLock | cbLock | setLock | waitLock | waitBlocked | killLock =>
    exact ⟨_, moves_lock h rfl rfl id⟩
  case cbTest =>
    split at h <;> cases h
    · exact ⟨_, rfl, .unlock rfl rfl, id, rfl⟩
    · exact ⟨_, rfl, .unlock rfl (holds_afterCallback i), fun _ => inRole_afterCallback i, rfl⟩
  case call =>
    obtain ⟨f, -, rfl⟩ := Option.map_eq_some_iff.1 h
    exact ⟨_, rfl, .keep (holds_afterCallback i), fun _ => inRole_afterCallback i, rfl⟩
  -- the mutex is kept or given up, and only the worker goes on in `invoke_callback_if_set`
  all_goals repeat' split at h
  all_goals cases h
  all_goals refine ⟨_, rfl, by first | exact .keep rfl | exact .unlock rfl rfl, ?_, rfl⟩
  all_goals first | exact id | exact fun _ => inRole_of_invokes rfl rfl i

theorem step_moves {l : Label} (h : step s l = some s') :
    ∃ i p q, s.threads[i]? = some p ∧ Moves s s' i p q := by
  cases l with
  | call i c =>
    simp only [step] at h
    split at h <;> cases h
    next hi =>
      refine ⟨i, .idle, c.entry, hi, rfl, .keep ?_, ?_, rfl⟩
      · cases c <;> rfl
      · cases c <;> exact id
  | advance i o =>
    obtain ⟨p, hi, h⟩ := Option.bind_eq_some_iff.1 h
    obtain ⟨q, hm⟩ := advance_moves h
    exact ⟨i, p, q, hi, hm⟩

/-! ## Roles and the mutex -/

/-- Each thread is in its role, and the mutex belongs to the thread that holds it. -/
structure Orderly (s : State) : Prop where
  role : ∀ (i : Nat) (p : Place), s.threads[i]? = some p → p.inRole i
  owned : Mutex.Owned Place.holds s.owner s.threads

theorem Orderly.initial (r : Registration) (timeoutMs : Int) (n : Nat) :
    Orderly (.initial r timeoutMs n) := by
  have hplace : ∀ (i : Nat) (p : Place), (State.initial r timeoutMs n).threads[i]? = some p →
      p.inRole i ∧ p.holds = false := by
    intro i p hp
    cases i with
    | zero =>
      cases hp
      exact ⟨rfl, rfl⟩
    | succ i =>
      rw [List.eq_of_mem_replicate (List.mem_of_getElem? hp)]
      exact ⟨rfl, rfl⟩
  refine ⟨fun i p hp => (hplace i p hp).1, fun j => ⟨fun h => (by cases h), ?_⟩⟩
  rintro ⟨p, hp, hholds⟩
  rw [(hplace j p hp).2] at hholds
  cases hholds

theorem Orderly.step {l : Label} (h : Orderly s) (hs : step s l = some s') : Orderly s' := by
  obtain ⟨i, p, q, hi, hm⟩ := step_moves hs
  refine ⟨fun j r hj => ?_, ?_⟩ <;> rw [hm.threads] at *
  · rcases Threads.getElem?_set_cases hj with ⟨rfl, rfl⟩ | ⟨-, hj⟩
    · exact hm.role (h.role j p hi)
    · exact h.role j r hj
  · exact h.owned.step hi hm.owner

section

variable (h : Orderly s) (hi : s.threads[i]? = some p)
include h hi

theorem Orderly.eq_zero (hp : p.ofWorker = true) : i = 0 := by
  by_contra hne
  have hrole := h.role i p hi
  rw [Place.inRole, if_neg hne, hp] at hrole
  cases hrole

theorem Orderly.ne_zero (hp : (p.ofWorker || p.invokes) = false) : i ≠ 0 := by
  rintro rfl
  have hrole := h.role 0 p hi
  rw [Place.inRole, if_pos rfl, hp] at hrole
  cases hrole

theorem Orderly.eq_of_holds {j : Nat} (hj : s.threads[j]? = some q) (hp : p.holds = true)
    (hq : q.holds = true) : i = j :=
  h.owned.index_eq hi hj hp hq

end

end IosSystem.Async.Shared
