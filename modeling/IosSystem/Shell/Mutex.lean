import IosSystem.Shell.Redirect

/-!
# `ios_system_mutex`

The operations of `ios_system` on its mutex, in the order of its control flow, with the calls that
may take the mutex again on the same thread. The mutex is not recursive, so it must not be held at
such a call.

Under the mutex there are two calls of `ios_popen`, for a `|` that the search for redirections
finds. It finds none, since such a command has gone to the pipeline scheduler before
(`no_pipe_left`).
-/

namespace IosSystem.Shell.Mutex

/-- The calls that lead to `ios_system` again, or that wait for a thread that does. -/
inductive Nested where
  | expandSubstitutions
  | executeSequential
  | executeConditional
  | pipelineExecute
  /-- with `ios_pipeline_destroy` -/
  | pipelineWait
  | popen
  | join
  deriving DecidableEq

inductive Event where
  | lock
  | unlock
  | call (nested : Nested)
  | returns
  deriving DecidableEq

/-- `function`: what the thread of the command is to run. -/
inductive Function where
  | command
  | tooManyScripts
  | commandNotFound
  deriving DecidableEq

structure World where
  env : Env
  /-- what `ios_expand_substitutions` returns -/
  expanded : CStr → CStr
  /-- `ios_pipeline_execute` returns a pipeline -/
  pipelineCreated : Bool
  /-- `malloc` for `params` -/
  paramsAllocated : Bool
  /-- `ios_popen` returns a stream -/
  popenSucceeds : Bool
  /-- after the expansion of variables and wildcards -/
  argc : Nat
  /-- from the cache, the interpreter slots or `dlsym` -/
  function : Option Function
  isMainThread : Bool
  /-- `pthread_create` -/
  threadCreated : Bool
  joinMainThread : Bool
  /-- `lastThreadId > 0` -/
  auxiliary : Bool

section

variable (w : World)

/-- The thread of the command is created, with the mutex unlocked. -/
def World.startThread : List Event :=
  .unlock ::
    (if w.threadCreated then
      (if w.joinMainThread then
        .call .join :: (if w.isMainThread ∧ w.auxiliary then [.call .join] else [])
      else []) ++ [.returns]
    else [.returns])

/-- `ios_system` behind the redirections. -/
def World.dispatch : List Event :=
  if w.argc ≠ 0 then
    -- a command that is not found is a function, too
    match w.function.or (some .commandNotFound) with
    | some _ => w.startThread
    | none => [.unlock, .returns]
  else [.unlock, .returns]

/-- The branch for a `|`: the command behind it is started first. -/
def World.openPipe : List Event :=
  .call .popen :: (if w.popenSucceeds then w.dispatch else [.unlock, .returns])

/-- The redirections, and then the command. -/
def World.redirect (command : CStr) : List Event :=
  if recordSeparator ∈ command then w.dispatch
  else
    match (strstrquoted command ['&', '|']).or (strstrquoted command ['|', '&']) with
    | some _ => w.openPipe
    | none =>
      match strstrquoted command ['|'] with
      | some _ => w.openPipe
      | none => w.dispatch

/-- `ios_system` behind the aliases. -/
def World.pipeline (command : CStr) : List Event :=
  if (strstrquoted command ['|']).isSome then
    [.unlock, .call .pipelineExecute] ++
      (if w.pipelineCreated then [.call .pipelineWait] else []) ++ [.returns]
  else if w.paramsAllocated then w.redirect command
  else [.unlock, .returns]

/-- `ios_system` behind the substitutions. -/
def World.operators (command : CStr) : List Event :=
  if (strstrquoted command [';']).isSome then [.unlock, .call .executeSequential, .returns]
  else if isConditional command then [.unlock, .call .executeConditional, .returns]
  else w.pipeline (w.env.expandAlias command)

/-- `ios_system`; `none` is a null command -/
def World.system : Option CStr → List Event
  | none => [.lock, .unlock, .returns]
  | some inputCmd =>
    [.lock, .unlock, .call .expandSubstitutions, .lock] ++
      w.operators (w.expanded (w.env.front inputCmd))

end

/-- The mutex is locked and unlocked in turn. -/
def disciplined : Bool → List Event → Bool
  | false, .lock :: events => disciplined true events
  | true, .unlock :: events => disciplined false events
  | false, .call _ :: events => disciplined false events
  | false, [.returns] => true
  | _, _ => false

section

variable (w : World)

theorem disciplined_startThread : disciplined true w.startThread = true := by
  unfold World.startThread
  split
  · split
    · split <;> rfl
    · rfl
  · rfl

theorem disciplined_dispatch : disciplined true w.dispatch = true := by
  unfold World.dispatch
  split
  · split
    · exact disciplined_startThread w
    · rfl
  · rfl

theorem redirect_eq_dispatch {command : CStr} (h : strstrquoted command ['|'] = none) :
    w.redirect command = w.dispatch := by
  obtain ⟨hbefore, hbehind⟩ := no_pipe_left h
  unfold World.redirect
  split
  · rfl
  · rw [hbefore, hbehind, h]
    rfl

theorem disciplined_pipeline (command : CStr) : disciplined true (w.pipeline command) = true := by
  unfold World.pipeline
  split
  · split <;> rfl
  · next hbar =>
    split
    · rw [redirect_eq_dispatch w (by simpa using hbar)]
      exact disciplined_dispatch w
    · rfl

theorem disciplined_operators (command : CStr) : disciplined true (w.operators command) = true := by
  unfold World.operators
  split
  · rfl
  · split
    · rfl
    · exact disciplined_pipeline w _

theorem disciplined_system (inputCmd : Option CStr) :
    disciplined false (w.system inputCmd) = true := by
  cases inputCmd with
  | none => rfl
  | some inputCmd => exact disciplined_operators w _

end

inductive Op where
  | lock
  | unlock
  deriving DecidableEq

/--
A thread that does or does not hold the mutex takes and releases it in turn, and ends without it.
-/
def alternates : Bool → List Op → Bool
  | held, [] => !held
  | false, .lock :: ops => alternates true ops
  | true, .unlock :: ops => alternates false ops
  | _, _ => false

/--
The operations of the thread, with those of the calls of `ios_system` that the nested calls make.
-/
inductive Thread : List Event → List Op → Prop
  | returns : Thread [.returns] []
  | lock {events : List Event} {ops : List Op} :
      Thread events ops → Thread (.lock :: events) (.lock :: ops)
  | unlock {events : List Event} {ops : List Op} :
      Thread events ops → Thread (.unlock :: events) (.unlock :: ops)
  /-- the nested call comes to `ios_system` -/
  | enter {nested : Nested} {w : World} {inputCmd : Option CStr} {events : List Event}
      {ops ops' : List Op} :
      Thread (w.system inputCmd) ops → Thread (.call nested :: events) ops' →
        Thread (.call nested :: events) (ops ++ ops')
  | leave {nested : Nested} {events : List Event} {ops : List Op} :
      Thread events ops → Thread (.call nested :: events) ops

theorem alternates_append {held : Bool} {ops ops' : List Op} (h : alternates held ops = true)
    (h' : alternates false ops' = true) : alternates held (ops ++ ops') = true := by
  induction ops generalizing held with
  | nil =>
    cases held with
    | false => exact h'
    | true => cases h
  | cons op ops ih =>
    cases held with
    | false =>
      cases op with
      | lock => exact ih h
      | unlock => cases h
    | true =>
      cases op with
      | lock => cases h
      | unlock => exact ih h

theorem Thread.alternates {events : List Event} {ops : List Op} (h : Thread events ops)
    (held : Bool)
    (hd : disciplined held events = true) : alternates held ops = true := by
  induction h generalizing held with
  | returns =>
    cases held with
    | false => rfl
    | true => cases hd
  | lock _ ih =>
    cases held with
    | false => exact ih true hd
    | true => cases hd
  | unlock _ ih =>
    cases held with
    | false => cases hd
    | true => exact ih false hd
  | enter _ _ ihnested ih =>
    -- `disciplined` has the mutex free at a nested call, as `ios_system` finds it
    cases held with
    | false => exact alternates_append (ihnested false (disciplined_system _ _)) (ih false hd)
    | true => cases hd
  | leave _ ih =>
    cases held with
    | false => exact ih false hd
    | true => cases hd

theorem exists_thread {events : List Event} {held : Bool} (hd : disciplined held events = true) :
    ∃ ops, Thread events ops := by
  induction events generalizing held with
  | nil => cases held <;> cases hd
  | cons event events ih =>
    cases event with
    | lock =>
      cases held with
      | false =>
        obtain ⟨ops, hops⟩ := ih hd
        exact ⟨_, .lock hops⟩
      | true => cases hd
    | unlock =>
      cases held with
      | false => cases hd
      | true =>
        obtain ⟨ops, hops⟩ := ih hd
        exact ⟨_, .unlock hops⟩
    | call nested =>
      cases held with
      | false =>
        obtain ⟨ops, hops⟩ := ih hd
        exact ⟨_, .leave hops⟩
      | true => cases hd
    | returns =>
      cases events with
      | nil => exact ⟨_, .returns⟩
      | cons event events => cases held <;> cases hd

/--
`ios_system` takes the mutex at its entry, releases it on every path, does not hold it at a nested
call, and its thread, however deep the calls nest, never takes it twice.
-/
theorem system_mutex_discipline (w : World) (inputCmd : Option CStr) :
    (w.system inputCmd).head? = some .lock ∧
      disciplined false (w.system inputCmd) = true ∧
      (∃ ops, Thread (w.system inputCmd) ops) ∧
      ∀ ops, Thread (w.system inputCmd) ops → alternates false ops = true := by
  have hd := disciplined_system w inputCmd
  refine ⟨?_, hd, exists_thread hd, fun ops h => h.alternates false hd⟩
  cases inputCmd with
  | none => rfl
  | some inputCmd => rfl

end IosSystem.Shell.Mutex
