import IosSystem.Lib.Transition

/-!
# The handle of an asynchronous command

`ios_system_async` allocates a handle and starts a worker thread on it. The worker
(`command_thread_func`) and the caller use the handle until the caller releases it. The model cuts
both at every operation on an atomic field, at every lock and unlock of `mutex`, and at every plain
access without the lock.

* `pthread_cond_wait` gives the mutex back and may return at any time, so a broadcast needs no step.
* A step on a freed handle is executed as if the memory were still there. That no such step is taken
  is what `Async.Lifetime` is about.
-/

namespace IosSystem.Async

/-- `ios_command_status_t` -/
inductive Status where
  | pending
  | running
  | completed
  | failed
  | killed
  | timeout
  deriving DecidableEq, Repr

/-- Neither `IOS_CMD_PENDING` nor `IOS_CMD_RUNNING`. -/
def Status.final : Status → Bool
  | .pending | .running => false
  | _ => true

/-- The thread of the command, and the one that has started it. -/
inductive Thread where
  | worker
  | caller
  deriving DecidableEq, Repr

def Thread.other : Thread → Thread
  | .worker => .caller
  | .caller => .worker

/-- `session_id`: the caller's context, or an id of its own. -/
inductive SessionId where
  | context (id : Nat)
  | own
  deriving DecidableEq, Repr

/-- `struct ios_command`. Of the callback only matters whether there is one. -/
structure Command where
  session : SessionId
  ownsSession : Bool
  status : Status
  exitCode : Int
  killRequested : Bool
  mutex : Option Thread
  callback : Bool
  callbackInvoked : Bool
  timeoutMs : Int
  refCount : Int
  deriving DecidableEq, Repr

/-- `ios_async_options_t` -/
structure Options where
  session : Option Nat
  callback : Bool
  timeoutMs : Int

/-- `ios_async_default_options` -/
def defaultOptions : Options := ⟨none, false, -1⟩

/-- The handle that `ios_system_async` returns; `context` is what `ios_getContext` returned. -/
def systemAsync (options : Option Options) (context : Option Nat) : Command :=
  let opts := options.getD defaultOptions
  let session := (opts.session <|> context).elim .own .context
  { session
    ownsSession := session = .own
    status := .pending
    exitCode := -1
    killRequested := false
    mutex := none
    callback := opts.callback
    callbackInvoked := false
    timeoutMs := opts.timeoutMs
    refCount := 1 }

/-- `check_timeout` -/
def checkTimeout (cmd : Command) (elapsedMs : Int) : Bool :=
  if cmd.timeoutMs < 0 then false else decide (cmd.timeoutMs ≤ elapsedMs)

/-- The status that the worker publishes when the command has returned `result`. -/
def finalStatus (cmd : Command) (elapsedMs result : Int) : Status :=
  if checkTimeout cmd elapsedMs then .timeout
  else if cmd.killRequested then .killed
  else if result = 0 then .completed
  else .failed

theorem finalStatus_final (cmd : Command) (elapsedMs result : Int) :
    (finalStatus cmd elapsedMs result).final = true := by
  unfold finalStatus
  split
  · rfl
  · split
    · rfl
    · split <;> rfl

/-- Where a thread is. -/
inductive PC where
  /-- `command_thread_func` before it has done anything -/
  | start
  | setRunning
  | runCommand
  | doneLock (result : Int)
  | storeExit (result : Int)
  | publish (result : Int)
  /-- `pthread_cond_broadcast`, then `pthread_mutex_unlock` -/
  | doneUnlock (result : Int)
  | closeSession
  /-- `invoke_callback_if_set` -/
  | cbLock (exitCode : Int)
  | cbTest (exitCode : Int)
  | cbCall (exitCode : Int)
  /-- `ios_command_wait`, called by `ios_command_release` or not -/
  | waitLock (inRelease : Bool)
  | waitPending (inRelease : Bool)
  | waitRunning (inRelease : Bool)
  | waitTimeout (inRelease : Bool)
  | waitBlocked (inRelease : Bool)
  | waitExit (inRelease : Bool)
  /-- `ios_command_try_wait` -/
  | tryStatus
  | tryExit
  /-- `ios_command_kill` -/
  | killLock
  | killTest
  | killRequest
  | killSession
  /-- `ios_command_set_callback` -/
  | setLock (callback : Bool)
  | setStore (callback : Bool)
  | setExit
  /-- `ios_command_release` -/
  | relDec
  | relLoad
  | relFree
  /-- the caller between two calls, with what the last one returned -/
  | idle (returned : Option Int)
  /-- the worker has returned, or the caller has released the handle -/
  | done
  deriving DecidableEq, Repr

/-- The thread may still use the handle. -/
def PC.touches : PC → Bool
  | .done => false
  | _ => true

/-- The handle, and the places of the two threads. -/
structure State where
  cmd : Command
  freed : Nat
  worker : PC
  caller : PC
  deriving DecidableEq, Repr

/-- `ios_system_async` has returned, the worker has not run yet. -/
def State.initial (options : Option Options) (context : Option Nat) : State :=
  ⟨systemAsync options context, 0, .start, .idle none⟩

def State.pc (s : State) : Thread → PC
  | .worker => s.worker
  | .caller => s.caller

def State.goto (s : State) (t : Thread) (pc : PC) : State :=
  match t with
  | .worker => { s with worker := pc }
  | .caller => { s with caller := pc }

/-- `pthread_mutex_lock`: blocks while the mutex is held. -/
def State.lock (s : State) (t : Thread) (pc : PC) : Option State :=
  if s.cmd.mutex = none then some ({ s with cmd.mutex := some t }.goto t pc) else none

/-- `pthread_mutex_unlock` -/
def State.unlock (s : State) (t : Thread) (pc : PC) : State :=
  { s with cmd.mutex := none }.goto t pc

/-- Where `invoke_callback_if_set` returns to. -/
def afterCallback : Thread → PC
  | .worker => .closeSession
  | .caller => .idle (some 0)

/-- What the step's surroundings decide: the time since the start, and the value that `ios_system`
or `ios_kill_session` returns. -/
structure Outcome where
  elapsedMs : Int
  value : Int

/-- The next step of thread `t`, which is at the given place. -/
def advance (s : State) (t : Thread) (o : Outcome) : PC → Option State
  | .start => some ({ s with cmd.refCount := s.cmd.refCount + 1 }.goto t .setRunning)
  | .setRunning => some ({ s with cmd.status := .running }.goto t .runCommand)
  | .runCommand => some (s.goto t (.doneLock o.value))
  | .doneLock result => s.lock t (.storeExit result)
  | .storeExit result => some ({ s with cmd.exitCode := result }.goto t (.publish result))
  | .publish result =>
    some ({ s with cmd.status := finalStatus s.cmd o.elapsedMs result }.goto t (.doneUnlock result))
  | .doneUnlock result => some (s.unlock t (.cbLock result))
  | .closeSession => some (s.goto t .relDec)
  | .cbLock exitCode => s.lock t (.cbTest exitCode)
  | .cbTest exitCode =>
    if s.cmd.callback && !s.cmd.callbackInvoked then
      some ({ s with cmd.callbackInvoked := true }.unlock t (.cbCall exitCode))
    else some (s.unlock t (afterCallback t))
  | .cbCall _ => some (s.goto t (afterCallback t))
  | .waitLock inRelease => s.lock t (.waitPending inRelease)
  | .waitPending inRelease =>
    -- the status is loaded once for each of the two comparisons of the loop condition
    if s.cmd.status = .pending then some (s.goto t (.waitTimeout inRelease))
    else some (s.goto t (.waitRunning inRelease))
  | .waitRunning inRelease =>
    if s.cmd.status = .running then some (s.goto t (.waitTimeout inRelease))
    else some (s.goto t (.waitExit inRelease))
  | .waitTimeout inRelease =>
    if 0 ≤ s.cmd.timeoutMs ∧ checkTimeout s.cmd o.elapsedMs = true then
      some ({ s with cmd.status := .timeout }.goto t (.waitExit inRelease))
    else some (s.unlock t (.waitBlocked inRelease))
  | .waitBlocked inRelease => s.lock t (.waitPending inRelease)
  | .waitExit inRelease =>
    some (s.unlock t (if inRelease then .relFree else .idle (some s.cmd.exitCode)))
  | .tryStatus => some (s.goto t (if s.cmd.status.final then .tryExit else .idle none))
  | .tryExit => some (s.goto t (.idle (some s.cmd.exitCode)))
  | .killLock => s.lock t .killTest
  | .killTest =>
    if s.cmd.status = .running then some (s.goto t .killRequest)
    else some (s.unlock t (.idle (some 0)))
  | .killRequest => some ({ s with cmd.killRequested := true }.goto t .killSession)
  | .killSession => some (s.unlock t (.idle (some o.value)))
  | .setLock callback => s.lock t (.setStore callback)
  | .setStore callback =>
    let invoke := s.cmd.status.final && !s.cmd.callbackInvoked && callback
    some ({ s with cmd.callback := callback }.unlock t
      (if invoke then .setExit else .idle (some 0)))
  | .setExit => some (s.goto t (.cbLock s.cmd.exitCode))
  | .relDec =>
    some ({ s with cmd.refCount := s.cmd.refCount - 1 }.goto t
      (if 1 < s.cmd.refCount then .done else .relLoad))
  | .relLoad => some (s.goto t (if s.cmd.status.final then .relFree else .waitLock true))
  | .relFree => some ({ s with freed := s.freed + 1 }.goto t .done)
  | .idle _ | .done => none

/-- A call of the caller, or a step of a thread. -/
inductive Label where
  | wait
  | tryWait
  | kill
  | setCallback (callback : Bool)
  | release
  /-- the next step of the worker or of the caller's call -/
  | advance (t : Thread) (o : Outcome)

/-- The caller is outside of the API, and begins a call. -/
def State.call (s : State) (pc : PC) : Option State :=
  match s.caller with
  | .idle _ => some (s.goto .caller pc)
  | _ => none

def step (s : State) : Label → Option State
  | .wait => s.call (.waitLock false)
  | .tryWait => s.call .tryStatus
  | .kill => s.call .killLock
  | .setCallback callback => s.call (.setLock callback)
  | .release => s.call .relDec
  | .advance t o => advance s t o (s.pc t)

/-- Neither thread will use the handle again. -/
def State.Finished (s : State) : Prop := s.worker = .done ∧ s.caller = .done

end IosSystem.Async
