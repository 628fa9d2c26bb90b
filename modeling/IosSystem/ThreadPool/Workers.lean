import IosSystem.Lib.Transition
import IosSystem.ThreadPool.Queue

/-!
# The workers of the thread pool and its callers

`worker_thread_main`, `ios_thread_pool_submit`, `ios_thread_pool_try_submit`, `ios_work_wait`,
`ios_work_cancel`, `ios_work_complete` and `ios_thread_pool_shutdown` of `ios_thread_pool.c`, cut at
every load and store of the flag `shutdown` and at the locking of `queue_mutex`.

* A section under the mutex of an item is one step.
* A thread that sleeps on a condition may wake up at any time, so a signal needs no step of its own;
  a broadcast wakes all sleepers.
* A work function is one step that returns. It may call `ios_work_complete` before.
-/

namespace IosSystem.ThreadPool

/-- The states of a work item. -/
inductive WorkState where
  | pending
  | executing
  | completed
  | cancelled
  deriving DecidableEq

/-- `struct _ios_work_item`, with what has happened to it. -/
structure Item where
  state : WorkState
  executed : Nat
  /-- a call of `ios_work_cancel` has returned true, or is about to -/
  wasCancelled : Bool

def Item.ran (x : Item) : Item := { x with executed := x.executed + 1 }

def Item.complete (x : Item) : Item := { x with state := .completed }

/-- Where a worker is. -/
inductive Worker where
  /-- about to lock `queue_mutex`, at the top of the loop or after a wait -/
  | lock
  /-- about to load `shutdown` in the condition of the wait loop -/
  | test
  | dequeue
  | asleep
  | leave
  | unlock (item : Nat)
  | execute (item : Nat)
  | run (item : Nat)
  | complete (item : Nat)
  | finish (item : Nat)
  | exited
  deriving DecidableEq

/-- Where a caller is. -/
inductive Caller where
  | idle
  /-- `ios_thread_pool_submit` (`blocking`) and `ios_thread_pool_try_submit` -/
  | submit (priority : Priority) (blocking : Bool)
  | create (priority : Priority) (blocking : Bool)
  | submitLock (item : Nat) (priority : Priority) (blocking : Bool)
  | submitWait (item : Nat) (priority : Priority)
  | submitAsleep (item : Nat) (priority : Priority)
  | submitTest (item : Nat) (priority : Priority)
  | enqueue (item : Nat) (priority : Priority)
  /-- `ios_work_cancel` -/
  | cancel (item : Nat)
  | cancelNotify (item : Nat)
  /-- `ios_work_wait` -/
  | wait (item : Nat)
  | waitAsleep (item : Nat)
  /-- `ios_thread_pool_shutdown` -/
  | shutdown
  | shutdownNotify
  | join (worker : Nat)
  deriving DecidableEq

structure State where
  queues : Queues
  /-- `queue_mutex` is held -/
  locked : Bool
  /-- the flag `shutdown` -/
  stopping : Bool
  items : Nat → Item
  created : Nat
  workers : List Worker
  callers : List Caller
  accepted : List Nat
  /-- the items that were accepted when `ios_thread_pool_shutdown` was called -/
  due : Option (List Nat)
  /-- `ios_thread_pool_shutdown` has returned -/
  returned : Bool

/-- `ios_thread_pool_create`, and `n` callers. -/
def State.initial (numThreads maxQueueSize n : Nat) : State :=
  { queues := fun p => .empty (capacity maxQueueSize p)
    locked := false
    stopping := false
    items := fun _ => ⟨.pending, 0, false⟩
    created := 0
    workers := List.replicate numThreads .lock
    callers := List.replicate n .idle
    accepted := []
    due := none
    returned := false }

def State.work (s : State) (i : Nat) (w : Worker) : State := { s with workers := s.workers.set i w }

def State.call (s : State) (i : Nat) (c : Caller) : State := { s with callers := s.callers.set i c }

def State.setItem (s : State) (item : Nat) (f : Item → Item) : State :=
  { s with items := Function.update s.items item (f (s.items item)) }

/-- `pthread_cond_broadcast(&item->cond)`, for one caller. -/
def Caller.wakeItem (item : Nat) : Caller → Caller
  | .waitAsleep c => if c = item then .wait c else .waitAsleep c
  | c => c

/-- `pthread_cond_broadcast(&pool->queue_not_full)`, for one caller. -/
def Caller.wakeSubmit : Caller → Caller
  | .submitAsleep item p => .submitLock item p true
  | c => c

/-- `pthread_cond_broadcast(&pool->work_available)`, for one worker. -/
def Worker.wake : Worker → Worker
  | .asleep => .lock
  | w => w

/-- A change of an item, with the broadcast to those who wait for it. -/
def State.publish (s : State) (item : Nat) (f : Item → Item) : State :=
  { s.setItem item f with callers := s.callers.map (Caller.wakeItem item) }

theorem items_setItem (s : State) (item : Nat) (f : Item → Item) :
    (s.setItem item f).items item = f (s.items item) :=
  Function.update_self ..

/-- The next step of worker `i` in `worker_thread_main`. -/
def workerStep (s : State) (i : Nat) : Worker → Option State
  | .lock => if s.locked then none else some ({ s with locked := true }.work i .test)
  | .test => some (s.work i (if s.stopping then .leave else .dequeue))
  | .dequeue =>
    match (dequeueWork s.queues).1 with
    | some item => some ({ s with queues := (dequeueWork s.queues).2 }.work i (.unlock item))
    | none => some ({ s with queues := (dequeueWork s.queues).2, locked := false }.work i .asleep)
  | .asleep => some (s.work i .lock)
  | .leave => some ({ s with locked := false }.work i (if s.stopping then .exited else .lock))
  | .unlock item => some ({ s with locked := false }.work i (.execute item))
  | .execute item =>
      some ((s.setItem item fun x => { x with state := .executing }).work i (.run item))
  | .run item => some ((s.setItem item Item.ran).work i (.complete item))
  | .complete item => some ((s.publish item Item.complete).work i (.finish item))
  | .finish _ => some (s.work i .lock)
  | .exited => none

/-- The next step of caller `i`. `calloc` says whether `work_item_create` gets its memory. -/
def callerStep (s : State) (i : Nat) (calloc : Bool) : Caller → Option State
  | .idle => none
  | .submit p blocking => some (s.call i (if s.stopping then .idle else .create p blocking))
  | .create p blocking =>
    if calloc then some ({ s with created := s.created + 1 }.call i
      (.submitLock s.created p blocking))
    else some (s.call i .idle)
  | .submitLock item p blocking =>
    if s.locked then none
    else some ({ s with locked := true }.call i
      (if blocking then .submitWait item p else .enqueue item p))
  | .submitWait item p =>
    if (s.queues p).capacity ≤ (s.queues p).count ∧ s.stopping = false then
      some ({ s with locked := false }.call i (.submitAsleep item p))
    else some (s.call i (.submitTest item p))
  | .submitAsleep item p => some (s.call i (.submitLock item p true))
  | .submitTest item p =>
    if s.stopping then some ({ s with locked := false }.call i .idle)
    else some (s.call i (.enqueue item p))
  | .enqueue item p =>
    match enqueueWork s.queues item p with
    | some queues =>
      some ({ s with
        queues := queues
        locked := false
        accepted := item :: s.accepted }.call i .idle)
    | none => some ({ s with locked := false }.call i .idle)
  | .cancel item =>
    if (s.items item).state = .pending then
      some ((s.setItem item fun x => { x with state := .cancelled, wasCancelled := true }).call i
        (.cancelNotify item))
    else some (s.call i .idle)
  | .cancelNotify item => some ((s.publish item id).call i .idle)
  | .wait item =>
    if (s.items item).state = .completed ∨ (s.items item).state = .cancelled then
      some (s.call i .idle)
    else some (s.call i (.waitAsleep item))
  | .waitAsleep item => some (s.call i (.wait item))
  | .shutdown => some ({ s with stopping := true }.call i .shutdownNotify)
  | .shutdownNotify =>
    if s.locked then none
    else some ({ s with
      workers := s.workers.map Worker.wake
      callers := s.callers.map Caller.wakeSubmit }.call i (.join 0))
  | .join worker =>
    match s.workers[worker]? with
    | some .exited => some (s.call i (.join (worker + 1)))
    | some _ => none
    | none => some ({ s with returned := true }.call i .idle)

inductive Label where
  | submit (i : Nat) (priority : Priority) (blocking : Bool)
  | cancel (i item : Nat)
  | wait (i item : Nat)
  | shutdown (i : Nat)
  | caller (i : Nat) (calloc : Bool)
  | worker (i : Nat)
  /-- the work function that worker `i` runs calls `ios_work_complete` for its item -/
  | workComplete (i : Nat)

/--
One step of a worker or of a caller, or the start of a call. `ios_thread_pool_shutdown` is called
once.
-/
def step (s : State) : Label → Option State
  | .submit i p blocking =>
    if s.callers[i]? = some .idle then some (s.call i (.submit p blocking)) else none
  | .cancel i item =>
    if s.callers[i]? = some .idle ∧ item ∈ s.accepted then some (s.call i (.cancel item)) else none
  | .wait i item =>
    if s.callers[i]? = some .idle ∧ item ∈ s.accepted then some (s.call i (.wait item)) else none
  | .shutdown i =>
    if s.callers[i]? = some .idle ∧ s.due = none then
      some ({ s with due := some s.accepted }.call i .shutdown)
    else none
  | .caller i calloc => (s.callers[i]?).bind (callerStep s i calloc)
  | .worker i => (s.workers[i]?).bind (workerStep s i)
  | .workComplete i =>
    match s.workers[i]? with
    | some (.run item) =>
      if (s.items item).state = .executing then
        some (s.publish item Item.complete)
      else some s
    | _ => none

end IosSystem.ThreadPool
