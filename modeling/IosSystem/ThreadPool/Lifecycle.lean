import IosSystem.Lib.Threads
import IosSystem.ThreadPool.Workers

/-!
# The life of a work item

The functions of `ThreadPool.Workers`, cut at what they do with an item: its reference count, its
callback and the counter `active_workers`. `ios_work_is_complete`, `ios_work_release`,
`ios_thread_pool_submit_with_callback` and `ios_thread_pool_drain` come in.

* A section under `queue_mutex` is one step. One load of the flag `shutdown` decides how it ends.
* A thread that sleeps on a condition stands where it tests it again: POSIX lets it wake up at any
  time.
* A client may use an item in any number of threads, and releases it once, when no thread is in a
  call with it. Pools are not destroyed.
-/

namespace IosSystem.ThreadPool.Lifecycle

/-- The fields `callback` and `user_data`; `none` is `NULL`. -/
structure Completion where
  callback : Option Nat
  userData : Option Nat
  deriving DecidableEq

structure Invocation where
  callback : Nat
  result : Nat
  userData : Option Nat
  deriving DecidableEq

/-- `struct _ios_work_item`, with what has happened to it. -/
structure Item where
  state : WorkState
  refCount : Nat
  callback : Option Nat
  userData : Option Nat
  freed : Bool
  wanted : Completion
  outcome : Option Nat
  invocations : List Invocation
  /-- how often a worker has been through with it, up to the release -/
  served : Nat

/-- `work_item_create` -/
def Item.create (wanted : Completion) : Item :=
  { state := .pending
    refCount := 1
    callback := none
    userData := none
    freed := false
    wanted := wanted
    outcome := none
    invocations := []
    served := 0 }

/-- The three ways to submit. -/
inductive Submission where
  | submit
  | trySubmit
  | withCallback (c : Completion)
  deriving DecidableEq

def Submission.completion : Submission → Completion
  | .submit | .trySubmit => ⟨none, none⟩
  | .withCallback c => c

def Submission.blocking : Submission → Bool
  | .submit | .withCallback _ => true
  | .trySubmit => false

/-- Where a thread is: a worker or a caller. -/
inductive Place where
  /-- a worker about to take `queue_mutex`, or asleep on `work_available` -/
  | lock
  /-- the item is dequeued, and `active_workers` not yet incremented -/
  | claimed (item : Nat)
  | execute (item : Nat)
  | run (item : Nat)
  | ran (item result : Nat)
  /-- `active_workers` is decremented -/
  | complete (item result : Nat)
  | test (item result : Nat)
  | load (item result : Nat)
  | invoke (item : Nat) (call : Invocation)
  | exited
  | idle
  | submit (priority : Priority) (k : Submission)
  | create (priority : Priority) (k : Submission)
  /-- about to take `queue_mutex`, or asleep on `queue_not_full` -/
  | enqueue (item : Nat) (priority : Priority) (k : Submission)
  | storeCallback (item : Nat) (c : Completion)
  | storeUserData (item : Nat) (c : Completion)
  | wait (item : Nat)
  | isComplete (item : Nat)
  | cancel (item : Nat)
  | cancelNotify (item : Nat)
  /-- `work_item_release_internal`, of a worker or of a caller -/
  | release (item : Nat) (worker : Bool)
  | free (item : Nat) (worker : Bool)
  /-- `ios_thread_pool_drain`, with the items that were handed out when it was called -/
  | drainCount (due : List Nat)
  | drainActive (due : List Nat) (totalQueued : Nat)
  | drained (due : List Nat)
  deriving DecidableEq

structure State where
  queues : Queues
  /-- the flag `shutdown` -/
  stopping : Bool
  activeWorkers : Nat
  items : Nat → Item
  created : Nat
  threads : List Place
  /-- the items that a submitting call has returned -/
  handed : List Nat
  /-- those of them that the client has not released -/
  held : List Nat

/-- `ios_thread_pool_create`, and `n` callers. -/
def State.initial (numThreads maxQueueSize n : Nat) : State :=
  { queues := fun p => .empty (capacity maxQueueSize p)
    stopping := false
    activeWorkers := 0
    items := fun _ => { Item.create ⟨none, none⟩ with refCount := 0 }
    created := 0
    threads := List.replicate numThreads .lock ++ List.replicate n .idle
    handed := []
    held := [] }

def State.goto (s : State) (i : Nat) (p : Place) : State := { s with threads := s.threads.set i p }

def State.setItem (s : State) (item : Nat) (x : Item) : State :=
  { s with items := Function.update s.items item x }

def State.hand (s : State) (i item : Nat) : State :=
  { s with handed := item :: s.handed, held := item :: s.held }.goto i .idle

/-- The sum of the `queue_count`s. -/
def totalQueued (qs : Queues) : Nat :=
  (qs .low).count + (qs .normal).count + (qs .high).count + (qs .urgent).count

/--
What the surroundings decide: whether `work_item_create` gets its memory, and what a work function
returns.
-/
structure Outcome where
  calloc : Bool
  result : Nat

@[simp] def afterRelease : Bool → Place
  | true => .lock
  | false => .idle

/-- The next step of thread `i`, which is at the given place. -/
def advance (s : State) (i : Nat) (o : Outcome) : Place → Option State
  | .lock =>
    if s.stopping then some (s.goto i .exited)
    else
      match (dequeueWork s.queues).1 with
      | some item => some ({ s with queues := (dequeueWork s.queues).2 }.goto i (.claimed item))
      | none => some ({ s with queues := (dequeueWork s.queues).2 }.goto i .lock)
  | .claimed item => some ({ s with activeWorkers := s.activeWorkers + 1 }.goto i (.execute item))
  | .execute item =>
    some ((s.setItem item { s.items item with state := .executing }).goto i (.run item))
  | .run item =>
    some ((s.setItem item { s.items item with outcome := some o.result }).goto i
      (.ran item o.result))
  | .ran item result =>
      some ({ s with activeWorkers := s.activeWorkers - 1 }.goto i (.complete item result))
  | .complete item result =>
    some ((s.setItem item { s.items item with state := .completed }).goto i (.test item result))
  | .test item result =>
    if (s.items item).callback.isSome then some (s.goto i (.load item result))
    else
      some ((s.setItem item { s.items item with served := (s.items item).served + 1 }).goto i
        (.release item true))
  | .load item result => (s.items item).callback.map fun f =>
    s.goto i (.invoke item (Invocation.mk f result (s.items item).userData))
  | .invoke item call =>
    some ((s.setItem item { s.items item with
      invocations := (s.items item).invocations ++ [call]
      served := (s.items item).served + 1 }).goto i (.release item true))
  | .exited | .idle => none
  | .submit p k => some (s.goto i (if s.stopping then .idle else .create p k))
  | .create p k =>
    if o.calloc then
      some ({ s.setItem s.created (Item.create k.completion) with created := s.created + 1 }.goto i
        (.enqueue s.created p k))
    else some (s.goto i .idle)
  | .enqueue item p k =>
    if k.blocking = true ∧ s.stopping = true then some (s.goto i (.release item false))
    else
      match enqueueWork s.queues item p with
      | none => some (s.goto i (if k.blocking then .enqueue item p k else .release item false))
      | some queues =>
        let s' :=
          { s.setItem item { s.items item with refCount := (s.items item).refCount + 1 } with
          queues := queues }
        match k with
        | .withCallback c => some (s'.goto i (.storeCallback item c))
        | .submit | .trySubmit => some (s'.hand i item)
  | .storeCallback item c =>
    some ((s.setItem item { s.items item with callback := c.callback }).goto i
      (.storeUserData item c))
  | .storeUserData item c =>
      some ((s.setItem item { s.items item with userData := c.userData }).hand i item)
  | .wait item =>
    some (s.goto i
      (if (s.items item).state = .completed ∨ (s.items item).state = .cancelled then .idle
      else .wait item))
  | .isComplete _ => some (s.goto i .idle)
  | .cancel item =>
    if (s.items item).state = .pending then
      some ((s.setItem item { s.items item with state := .cancelled }).goto i (.cancelNotify item))
    else some (s.goto i .idle)
  | .cancelNotify _ => some (s.goto i .idle)
  | .release item worker =>
    some ((s.setItem item { s.items item with refCount := (s.items item).refCount - 1 }).goto i
      (if (s.items item).refCount = 1 then .free item worker else afterRelease worker))
  | .free item worker =>
    some ((s.setItem item { s.items item with freed := true }).goto i (afterRelease worker))
  | .drainCount due => some (s.goto i (.drainActive due (totalQueued s.queues)))
  | .drainActive due queued =>
    some (s.goto i (if queued = 0 ∧ s.activeWorkers = 0 then .drained due else .drainCount due))
  | .drained _ => some (s.goto i .idle)

@[simp] def Place.uses : Place → Option Nat
  | .wait item | .isComplete item | .cancel item | .cancelNotify item => some item
  | _ => none

inductive Call where
  | submit (priority : Priority) (k : Submission)
  | wait (item : Nat)
  | isComplete (item : Nat)
  | cancel (item : Nat)
  | release (item : Nat)
  | drain

def start (s : State) (i : Nat) : Call → Option State
  | .submit p k => some (s.goto i (.submit p k))
  | .wait item => if item ∈ s.held then some (s.goto i (.wait item)) else none
  | .isComplete item => if item ∈ s.held then some (s.goto i (.isComplete item)) else none
  | .cancel item => if item ∈ s.held then some (s.goto i (.cancel item)) else none
  | .release item =>
    if item ∈ s.held ∧ ∀ p ∈ s.threads, p.uses ≠ some item then
      some ({ s with held := s.held.erase item }.goto i (.release item false))
    else none
  | .drain => some (s.goto i (.drainCount s.handed))

inductive Label where
  | call (i : Nat) (c : Call)
  | advance (i : Nat) (o : Outcome)
  /-- the work function that thread `i` runs calls `ios_work_complete` for its item -/
  | workComplete (i : Nat)
  /-- `ios_thread_pool_shutdown` stores the flag -/
  | shutdown

def step (s : State) : Label → Option State
  | .call i c => if s.threads[i]? = some .idle then start s i c else none
  | .advance i o => s.threads[i]?.bind (advance s i o)
  | .workComplete i =>
    match s.threads[i]? with
    | some (.run item) =>
      if (s.items item).state = .executing then
        some ((s.setItem item { s.items item with state := .completed }).goto i (.run item))
      else some (s.goto i (.run item))
    | _ => none
  | .shutdown => some { s with stopping := true }

/-- The item that a worker has taken from a queue. -/
@[simp] def Place.carries : Place → Option Nat
  | .claimed item | .execute item | .run item | .ran item _ | .complete item _ | .test item _
    | .load item _
  | .invoke item _ => some item
  | _ => none

@[simp] def Place.submits : Place → Option Nat
  | .enqueue item _ _ => some item
  | _ => none

@[simp] def Place.stores : Place → Option Nat
  | .storeCallback item _ | .storeUserData item _ => some item
  | _ => none

@[simp] def Place.releases : Place → Option Nat
  | .release item _ => some item
  | _ => none

@[simp] def Place.frees : Place → Option Nat
  | .free item _ => some item
  | _ => none

end IosSystem.ThreadPool.Lifecycle
