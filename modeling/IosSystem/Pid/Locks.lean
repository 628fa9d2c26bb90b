import IosSystem.Lib.Mutex
import IosSystem.Lib.Transition
import IosSystem.Pid.Calls

/-!
# The locks around process ids and the working directory

`pid_mtx` protects the tables of the process ids, and `chdir_mtx` the working directory. Between
`cleanup_counter++` and `cleanup_counter--`, `cleanup_function` waits until each of the mutexes has
been free once, closes its streams and gives its process id back. `ios_fork`, `chdir` and
`ios_fchdir` wait for `cleanup_counter` to be zero before they take a mutex.

The functions are cut at every operation on a mutex and on the counter. `pthread_mutex_lock` has no
step while the mutex is taken, loops that wait make steps that change nothing, and the loop of
`ios_nextAvailablePid` makes one step per iteration.
-/

namespace IosSystem.Pid.Locks

/-- `pid_mtx` and `chdir_mtx` -/
inductive Mtx where
  | pid
  | chdir
  deriving DecidableEq

def Mtx.other : Mtx → Mtx
  | .pid => .chdir
  | .chdir => .pid

variable {m : Mtx}

theorem Mtx.eq_other {n : Mtx} (h : n ≠ m) : n = m.other := by
  cases m <;> cases n
  · exact absurd rfl h
  · rfl
  · rfl
  · exact absurd rfl h

/-- Where a thread is in a call that takes one of the mutexes. -/
inductive Place where
  | idle
  /-- `ios_nextAvailablePid`: `while (cleanup_counter > 0)` -/
  | forkSpin
  | forkLock
  /-- with `pid_mtx` -/
  | forkBody
  | forkScan (previous : Nat)
  | forkLockChdir (pid previous : Nat)
  /-- `getwd` -/
  | forkGetwd (pid previous : Nat)
  | forkUnlockChdir (pid previous : Nat)
  | forkUnlock (pid previous : Nat)
  /-- `ios_storeThreadId` -/
  | storeLock (thread : Option Nat)
  | storeBody (thread : Option Nat)
  | storeUnlock
  /-- `chdir` and `ios_fchdir`: `while (cleanup_counter > 0)` -/
  | chdirSpin
  | chdirLock
  /-- with `chdir_mtx` -/
  | chdirBody
  | chdirUnlock
  /-- `ios_releaseThreadId` -/
  | releaseLock (pid : Nat)
  | releaseTest (pid : Nat)
  | releaseLockChdir (pid : Nat)
  /-- `chdir_nolock` -/
  | releaseChdir (pid : Nat)
  | releaseUnlockChdir (pid : Nat)
  | releaseStore (pid : Nat)
  | releaseUnlock
  /-- `cleanup_function`: the loop around `pthread_mutex_trylock(&chdir_mtx)` -/
  | drainChdir (background : Bool)
  | drainedChdir (background : Bool)
  /-- the loop around `pthread_mutex_trylock(&pid_mtx)` -/
  | drainPid (background : Bool)
  | drainedPid (background : Bool)
  /-- behind the loops: the streams and the library are closed -/
  | tailClose (background : Bool)
  /-- `ios_releaseThread` or `ios_releaseBackgroundThread` -/
  | tailLock (background : Bool)
  | tailScan (background : Bool)
  | tailLockChdir
  /-- `chdir_nolock` -/
  | tailChdir
  | tailUnlockChdir
  | tailUnlock
  /-- the rest, up to `cleanup_counter--` -/
  | tailLeave
  deriving DecidableEq

structure State where
  table : ThreadTable
  /-- `current_pid` of each thread -/
  current : Nat → Nat
  threads : List Place
  owner : Mtx → Option Nat
  cleanupCounter : Int

namespace State

def initial (n : Nat) : State :=
  { table := .initial, current := fun _ => 0, threads := List.replicate n .idle
    owner := fun _ => none, cleanupCounter := 0 }

def goto (s : State) (i : Nat) (p : Place) : State := { s with threads := s.threads.set i p }

def lock (s : State) (m : Mtx) (i : Nat) (p : Place) : Option State :=
  if s.owner m = none then
    some ({ s with owner := Function.update s.owner m (some i) }.goto i p)
  else none

/-- `while (pthread_mutex_trylock(m) != 0) { }` -/
def trylock (s : State) (m : Mtx) (i : Nat) (p : Place) : State :=
  if s.owner m = none then { s with owner := Function.update s.owner m (some i) }.goto i p else s

def unlock (s : State) (m : Mtx) (i : Nat) (p : Place) : State :=
  { s with owner := Function.update s.owner m none }.goto i p

/-- `while (cleanup_counter > 0) { }` -/
def spin (s : State) (i : Nat) (p : Place) : State := if 0 < s.cleanupCounter then s else s.goto i p

def resume (s : State) (i : Nat) (r : Nat × ThreadTable) : State :=
  { s with table := r.2, current := Function.update s.current i r.1 }

/-- `ios_nextAvailablePid` up to its loop. -/
def forkBody (s : State) (i : Nat) : State :=
  match s.table.nextPid with
  | some pid =>
    (s.resume i (pid, { s.table with
      threadIds := Function.update s.table.threadIds pid .pending
      last := pid })).goto i (.forkLockChdir pid (s.current i))
  | none =>
    { s with
      table := { s.table with overflow := true }
      -- first time over the limit
      current := if s.table.overflow then s.current else Function.update s.current i 0 }.goto i
        (.forkScan (s.current i))

/-- One iteration of the loop of `ios_nextAvailablePid`. -/
def forkScan (s : State) (i previous : Nat) : State :=
  let pid := following s.table.last
  if s.table.threadIds pid = .free then
    (s.resume i (pid, { s.table with
      threadIds := Function.update s.table.threadIds pid .pending
      last := pid })).goto i (.forkLockChdir pid previous)
  else (s.resume i (pid, { s.table with last := pid })).goto i (.forkScan previous)

/-- The loop of `ios_releaseThread` and `ios_releaseBackgroundThread` over the table. -/
def tailScan (s : State) (i : Nat) (background : Bool) : State :=
  match s.table.slotOf i with
  | none => s.goto i .tailUnlock
  | some pid =>
    (s.resume i (s.table.previousPid pid, s.table.clear pid)).goto i
      (if background then .tailUnlock else .tailLockChdir)

end State

/-- The next step of thread `i`, which is at the given place. -/
def advance (s : State) (i : Nat) : Place → Option State
  | .idle => none
  | .forkSpin => some (s.spin i .forkLock)
  | .forkLock => s.lock .pid i .forkBody
  | .forkBody => some (s.forkBody i)
  | .forkScan previous => some (s.forkScan i previous)
  | .forkLockChdir pid previous => s.lock .chdir i (.forkGetwd pid previous)
  | .forkGetwd pid previous => some (s.goto i (.forkUnlockChdir pid previous))
  | .forkUnlockChdir pid previous => some (s.unlock .chdir i (.forkUnlock pid previous))
  | .forkUnlock pid previous =>
    some ({ s with
      table := { s.table with
        previousPid := Function.update s.table.previousPid pid previous } }.unlock .pid i .idle)
  | .storeLock thread => s.lock .pid i (.storeBody thread)
  | .storeBody thread =>
    some ((s.resume i (s.table.storeThreadId (s.current i) thread)).goto i .storeUnlock)
  | .storeUnlock => some (s.unlock .pid i .idle)
  | .chdirSpin => some (s.spin i .chdirLock)
  | .chdirLock => s.lock .chdir i .chdirBody
  | .chdirBody => some (s.goto i .chdirUnlock)
  | .chdirUnlock => some (s.unlock .chdir i .idle)
  | .releaseLock pid => s.lock .pid i (.releaseTest pid)
  | .releaseTest pid =>
    some (s.goto i (if s.table.threadIds pid = .free then .releaseUnlock
      else .releaseLockChdir pid))
  | .releaseLockChdir pid => s.lock .chdir i (.releaseChdir pid)
  | .releaseChdir pid => some (s.goto i (.releaseUnlockChdir pid))
  | .releaseUnlockChdir pid => some (s.unlock .chdir i (.releaseStore pid))
  | .releaseStore pid =>
    some ((s.resume i (s.table.previousPid pid, s.table.clear pid)).goto i .releaseUnlock)
  | .releaseUnlock => some (s.unlock .pid i .idle)
  | .drainChdir background => some (s.trylock .chdir i (.drainedChdir background))
  | .drainedChdir background => some (s.unlock .chdir i (.drainPid background))
  | .drainPid background => some (s.trylock .pid i (.drainedPid background))
  | .drainedPid background => some (s.unlock .pid i (.tailClose background))
  | .tailClose background => some (s.goto i (.tailLock background))
  | .tailLock background => s.lock .pid i (.tailScan background)
  | .tailScan background => some (s.tailScan i background)
  | .tailLockChdir => s.lock .chdir i .tailChdir
  | .tailChdir => some (s.goto i .tailUnlockChdir)
  | .tailUnlockChdir => some (s.unlock .chdir i .tailUnlock)
  | .tailUnlock => some (s.unlock .pid i .tailLeave)
  | .tailLeave => some ({ s with cleanupCounter := s.cleanupCounter - 1 }.goto i .idle)

inductive Label where
  | fork (i : Nat)
  | storeThreadId (i : Nat) (thread : Option Nat)
  | chdir (i : Nat)
  | fchdir (i : Nat)
  | releaseThreadId (i : Nat) (pid : Fin maxThreads)
  /-- `cleanup_counter++` -/
  | cleanup (i : Nat) (background : Bool)
  | advance (i : Nat)
  deriving DecidableEq

def State.call (s : State) (i : Nat) (p : Place) : Option State :=
  if s.threads[i]? = some .idle then some (s.goto i p) else none

def step (s : State) : Label → Option State
  | .fork i => s.call i .forkSpin
  | .storeThreadId i thread => s.call i (.storeLock thread)
  | .chdir i => s.call i .chdirSpin
  | .fchdir i => s.call i .chdirSpin
  | .releaseThreadId i pid => s.call i (.releaseLock pid)
  | .cleanup i background =>
    { s with cleanupCounter := s.cleanupCounter + 1 }.call i (.drainChdir background)
  | .advance i => s.threads[i]?.bind (advance s i)

def Reachable (s : State) : Prop :=
  Transition.Reachable step (fun _ _ => True) (fun s => ∃ n, s = .initial n) s

/-! ## Places -/

/-- The thread holds the mutex. -/
def Place.holds : Mtx → Place → Bool
  | .pid, .forkBody | .pid, .forkScan _ | .pid, .forkLockChdir _ _ | .pid, .forkGetwd _ _
  | .pid, .forkUnlockChdir _ _ | .pid, .forkUnlock _ _ | .pid, .storeBody _ | .pid, .storeUnlock
  | .pid, .releaseTest _ | .pid, .releaseLockChdir _ | .pid, .releaseChdir _
  | .pid, .releaseUnlockChdir _ | .pid, .releaseStore _ | .pid, .releaseUnlock
  | .pid, .drainedPid _ | .pid, .tailScan _ | .pid, .tailLockChdir | .pid, .tailChdir
  | .pid, .tailUnlockChdir | .pid, .tailUnlock => true
  | .chdir, .forkGetwd _ _ | .chdir, .forkUnlockChdir _ _ | .chdir, .chdirBody
  | .chdir, .chdirUnlock | .chdir, .releaseChdir _ | .chdir, .releaseUnlockChdir _
  | .chdir, .drainedChdir _ | .chdir, .tailChdir | .chdir, .tailUnlockChdir => true
  | _, _ => false

/-- The thread is in `pthread_mutex_lock`, or in the loop around `pthread_mutex_trylock`. -/
def Place.wants : Mtx → Place → Bool
  | .pid, .forkLock | .pid, .storeLock _ | .pid, .releaseLock _ | .pid, .drainPid _
  | .pid, .tailLock _ => true
  | .chdir, .forkLockChdir _ _ | .chdir, .chdirLock | .chdir, .releaseLockChdir _
  | .chdir, .drainChdir _ | .chdir, .tailLockChdir => true
  | _, _ => false

/-- The next step is `pthread_mutex_unlock`. -/
def Place.unlocks : Mtx → Place → Bool
  | .pid, .forkUnlock _ _ | .pid, .storeUnlock | .pid, .releaseUnlock | .pid, .drainedPid _
  | .pid, .tailUnlock => true
  | .chdir, .forkUnlockChdir _ _ | .chdir, .chdirUnlock | .chdir, .releaseUnlockChdir _
  | .chdir, .drainedChdir _ | .chdir, .tailUnlockChdir => true
  | _, _ => false

/-- The loop around the test of `cleanup_counter`. -/
def Place.spins : Place → Bool
  | .forkSpin | .chdirSpin => true
  | _ => false

/-- Between `cleanup_counter++` and `cleanup_counter--`. -/
def Place.inTail : Place → Bool
  | .drainChdir _ | .drainedChdir _ | .drainPid _ | .drainedPid _ | .tailClose _ | .tailLock _
  | .tailScan _ | .tailLockChdir | .tailChdir | .tailUnlockChdir | .tailUnlock | .tailLeave => true
  | _ => false

/-- Between the test of `cleanup_counter` and `pthread_mutex_lock`. -/
def Place.tested : Mtx → Place → Bool
  | .pid, .forkLock | .chdir, .chdirLock => true
  | _, _ => false

/-- In the part of `ios_nextAvailablePid`, or of `chdir` or `ios_fchdir`, that the mutex protects.
-/
def Place.inBody : Mtx → Place → Bool
  | .pid, .forkBody | .pid, .forkScan _ | .pid, .forkLockChdir _ _ | .pid, .forkGetwd _ _
  | .pid, .forkUnlockChdir _ _ | .pid, .forkUnlock _ _ => true
  | .chdir, .chdirBody | .chdir, .chdirUnlock => true
  | _, _ => false

/-- In the loop of `cleanup_function` around `pthread_mutex_trylock`. -/
def Place.drains : Mtx → Place → Bool
  | .chdir, .drainChdir _ | .pid, .drainPid _ => true
  | _, _ => false

/-- Behind the two loops of `cleanup_function`, and before `cleanup_counter--`. -/
def Place.inWindow : Place → Bool
  | .tailClose _ | .tailLock _ | .tailScan _ | .tailLockChdir | .tailChdir | .tailUnlockChdir
  | .tailUnlock | .tailLeave => true
  | _ => false

/-- Behind the loop for this mutex, and before `cleanup_counter--`. -/
def Place.drained : Mtx → Place → Bool
  | .chdir, .drainedChdir _ | .chdir, .drainPid _ | _, .drainedPid _ => true
  | _, p => p.inWindow

/-- What a thread at `q` has been through before, in the parts that concern this mutex. -/
def Place.flowsAt (p q : Place) (m : Mtx) : Bool :=
  (!q.inBody m || p.inBody m || p.tested m) && (!q.tested m || p.tested m || p.spins) &&
    (!q.drained m || p.drained m || p.drains m && q.holds m)

def Place.flows (p q : Place) : Bool := p.flowsAt q .pid && p.flowsAt q .chdir

theorem Place.flows_self (p : Place) : p.flows p = true := by
  simp [Place.flows, Place.flowsAt]

/-! ## What a step does -/

/-- A step of thread `i` from `p` to `q`. -/
structure Moves (s s' : State) (i : Nat) (p q : Place) : Prop where
  thread : s.threads[i]? = some p
  threads : s'.threads = s.threads.set i q
  owner : ∀ m, Mutex.Change (Place.holds m) i p q (s.owner m) (s'.owner m)
  counter : s'.cleanupCounter + (if p.inTail then 1 else 0 : Nat)
    = s.cleanupCounter + (if q.inTail then 1 else 0 : Nat)
  flows : p.flows q = true

section

variable {s s' : State} {i : Nat} {p q : Place}

section

variable (hi : s.threads[i]? = some p)
include hi

theorem Moves.goto (hthreads : s'.threads = s.threads.set i q) (howner : s'.owner = s.owner)
    (hpid : q.holds .pid = p.holds .pid) (hchdir : q.holds .chdir = p.holds .chdir)
    (hcounter : s'.cleanupCounter + (if p.inTail then 1 else 0 : Nat)
      = s.cleanupCounter + (if q.inTail then 1 else 0 : Nat)) (hflows : p.flows q = true) :
    Moves s s' i p q where
  thread := hi
  threads := hthreads
  owner m := by
    rw [howner]
    cases m with
    | pid => exact .keep hpid
    | chdir => exact .keep hchdir
  counter := hcounter
  flows := hflows

theorem Moves.stay : Moves s s i p p :=
  .goto hi (Threads.set_eq_self hi).symm rfl rfl rfl rfl p.flows_self

theorem Moves.spin (hpid : q.holds .pid = p.holds .pid) (hchdir : q.holds .chdir = p.holds .chdir)
    (htail : q.inTail = p.inTail) (hflows : p.flows q = true) :
    ∃ r, Moves s (s.spin i q) i p r := by
  rw [State.spin]
  split
  · exact ⟨p, .stay hi⟩
  · exact ⟨q, .goto hi rfl rfl hpid hchdir (by rw [htail]; rfl) hflows⟩

theorem Moves.update {owner : Option Nat} (hthreads : s'.threads = s.threads.set i q)
    (howner : s'.owner = Function.update s.owner m owner)
    (hcounter : s'.cleanupCounter = s.cleanupCounter)
    (hchange : Mutex.Change (Place.holds m) i p q (s.owner m) owner)
    (hother : q.holds m.other = p.holds m.other) (htail : q.inTail = p.inTail)
    (hflows : p.flows q = true) : Moves s s' i p q where
  thread := hi
  threads := hthreads
  owner n := by
    rw [howner]
    by_cases hn : n = m
    · subst hn
      rw [Function.update_self]
      exact hchange
    · rw [Function.update_of_ne hn]
      rw [Mtx.eq_other hn]
      exact .keep hother
  counter := by rw [hcounter, htail]
  flows := hflows

theorem Moves.locked (hfree : s.owner m = none) (hp : p.holds m = false) (hq : q.holds m = true)
    (hother : q.holds m.other = p.holds m.other) (htail : q.inTail = p.inTail)
    (hflows : p.flows q = true) :
    Moves s ({ s with owner := Function.update s.owner m (some i) }.goto i q) i p q := by
  refine .update hi rfl rfl rfl ?_ hother htail hflows
  rw [hfree]
  exact .lock hp hq

end

theorem lock_eq_some (h : s.lock m i q = some s') :
    s.owner m = none ∧
      s' = { s with owner := Function.update s.owner m (some i) }.goto i q := by
  rw [State.lock] at h
  by_cases hfree : s.owner m = none
  · rw [if_pos hfree] at h
    exact ⟨hfree, (Option.some.inj h).symm⟩
  · rw [if_neg hfree] at h
    cases h

theorem Moves.lock (hs : s.lock m i q = some s') (hi : s.threads[i]? = some p)
    (hp : p.holds m = false) (hq : q.holds m = true) (hother : q.holds m.other = p.holds m.other)
    (htail : q.inTail = p.inTail) (hflows : p.flows q = true) : Moves s s' i p q := by
  obtain ⟨hfree, rfl⟩ := lock_eq_some hs
  exact .locked hi hfree hp hq hother htail hflows

theorem Moves.trylock (hi : s.threads[i]? = some p) (hp : p.holds m = false) (hq : q.holds m = true)
    (hother : q.holds m.other = p.holds m.other) (htail : q.inTail = p.inTail)
    (hflows : p.flows q = true) : ∃ r, Moves s (s.trylock m i q) i p r := by
  rw [State.trylock]
  by_cases hfree : s.owner m = none
  · rw [if_pos hfree]
    exact ⟨q, .locked hi hfree hp hq hother htail hflows⟩
  · rw [if_neg hfree]
    exact ⟨p, .stay hi⟩

theorem Moves.unlock {T : ThreadTable} (hi : s.threads[i]? = some p)
    (hp : p.holds m = true) (hq : q.holds m = false)
    (hother : q.holds m.other = p.holds m.other) (htail : q.inTail = p.inTail)
    (hflows : p.flows q = true) : Moves s ({ s with table := T }.unlock m i q) i p q :=
  .update hi rfl rfl rfl (.unlock hp hq) hother htail hflows

theorem forkBody_moves (hi : s.threads[i]? = some .forkBody) :
    ∃ q, Moves s (s.forkBody i) i .forkBody q := by
  rw [State.forkBody]
  cases s.table.nextPid with
  | some pid => exact ⟨_, .goto hi rfl rfl rfl rfl rfl rfl⟩
  | none => exact ⟨_, .goto hi rfl rfl rfl rfl rfl rfl⟩

theorem forkScan_moves {previous : Nat} (hi : s.threads[i]? = some (.forkScan previous)) :
    ∃ q, Moves s (s.forkScan i previous) i (.forkScan previous) q := by
  rw [State.forkScan]
  by_cases hfree : s.table.threadIds (following s.table.last) = .free
  · rw [if_pos hfree]
    exact ⟨_, .goto hi rfl rfl rfl rfl rfl rfl⟩
  · rw [if_neg hfree]
    exact ⟨_, .goto hi rfl rfl rfl rfl rfl rfl⟩

theorem tailScan_moves {background : Bool} (hi : s.threads[i]? = some (.tailScan background)) :
    ∃ q, Moves s (s.tailScan i background) i (.tailScan background) q := by
  rw [State.tailScan]
  cases s.table.slotOf i with
  | none => exact ⟨_, .goto hi rfl rfl rfl rfl rfl rfl⟩
  | some pid => cases background <;> exact ⟨_, .goto hi rfl rfl rfl rfl rfl rfl⟩

theorem advance_moves (hi : s.threads[i]? = some p) (hs : advance s i p = some s') :
    ∃ q, Moves s s' i p q := by
  cases p with
  | idle => cases hs
  -- `pthread_mutex_lock`
  | forkLock | forkLockChdir | storeLock | chdirLock | releaseLock | releaseLockChdir | tailLock
  | tailLockChdir => exact ⟨_, .lock hs hi rfl rfl rfl rfl rfl⟩
  | forkSpin | chdirSpin =>
    cases hs
    exact Moves.spin hi rfl rfl rfl rfl
  | drainChdir | drainPid =>
    cases hs
    exact Moves.trylock hi rfl rfl rfl rfl rfl
  | forkUnlockChdir | forkUnlock | storeUnlock | chdirUnlock | releaseUnlockChdir | releaseUnlock
  | drainedChdir | drainedPid | tailUnlockChdir | tailUnlock =>
    cases hs
    exact ⟨_, .unlock hi rfl rfl rfl rfl rfl⟩
  | forkBody =>
    cases hs
    exact forkBody_moves hi
  | forkScan =>
    cases hs
    exact forkScan_moves hi
  | tailScan =>
    cases hs
    exact tailScan_moves hi
  | releaseTest pid =>
    cases hs
    by_cases hfree : s.table.threadIds pid = .free
    · rw [if_pos hfree]
      exact ⟨_, .goto hi rfl rfl rfl rfl rfl rfl⟩
    · rw [if_neg hfree]
      exact ⟨_, .goto hi rfl rfl rfl rfl rfl rfl⟩
  | tailLeave =>
    cases hs
    refine ⟨.idle, .goto hi rfl rfl rfl rfl ?_ rfl⟩
    show s.cleanupCounter - 1 + 1 = s.cleanupCounter + 0
    omega
  | forkGetwd | storeBody | chdirBody | releaseChdir | releaseStore | tailClose | tailChdir =>
    cases hs
    exact ⟨_, .goto hi rfl rfl rfl rfl rfl rfl⟩

end

variable {s s' : State} {i : Nat}

theorem call_eq_some {p : Place} (h : s.call i p = some s') :
    s.threads[i]? = some .idle ∧ s' = s.goto i p := by
  rw [State.call] at h
  by_cases hi : s.threads[i]? = some .idle
  · rw [if_pos hi] at h
    exact ⟨hi, (Option.some.inj h).symm⟩
  · rw [if_neg hi] at h
    cases h

theorem call_moves {p : Place} (h : s.call i p = some s') (hpid : p.holds .pid = false)
    (hchdir : p.holds .chdir = false) (htail : p.inTail = false)
    (hflows : Place.idle.flows p = true) : Moves s s' i .idle p := by
  obtain ⟨hi, rfl⟩ := call_eq_some h
  refine .goto hi rfl rfl hpid hchdir ?_ hflows
  rw [htail]
  rfl

theorem step_moves {a : Label} (h : step s a = some s') :
    ∃ i p q, Moves s s' i p q ∧ (p = .idle ∨ a = .advance i) := by
  cases a with
  | fork i | storeThreadId i | chdir i | fchdir i | releaseThreadId i =>
    exact ⟨i, .idle, _, call_moves h rfl rfl rfl rfl, .inl rfl⟩
  | cleanup i background =>
    obtain ⟨hi, rfl⟩ := call_eq_some h
    exact ⟨i, .idle, _, .goto hi rfl rfl rfl rfl (Int.add_zero _) rfl, .inl rfl⟩
  | advance i =>
    obtain ⟨p, hi, hs⟩ := Option.bind_eq_some_iff.mp h
    obtain ⟨q, hq⟩ := advance_moves hi hs
    exact ⟨i, p, q, hq, .inr rfl⟩

/-! ## A fork without other threads -/

open Transition List

/-- With `pid_mtx`, the loop of `ios_nextAvailablePid` finds what `search` does. -/
theorem run_forkScan {count pid previous : Nat} (hi : s.threads[i]? = some (.forkScan previous))
    (hfound : search (fun pid => (s.table.threadIds pid).slot) count s.table.last = some pid) :
    ∃ n, run step s (replicate n (.advance i)) = some ((s.resume i (pid, { s.table with
      threadIds := Function.update s.table.threadIds pid .pending
      last := pid })).goto i (.forkLockChdir pid previous)) := by
  induction count generalizing s with
  | zero => cases hfound
  | succ count ih =>
    have hs : step s (.advance i) = some (s.forkScan i previous) := by simp [step, hi, advance]
    rw [search] at hfound
    by_cases hfree : s.table.threadIds (following s.table.last) = .free
    · rw [if_pos (Entry.slot_eq_free.mpr hfree)] at hfound
      cases hfound
      refine ⟨1, ?_⟩
      rw [replicate_one, run, hs, State.forkScan, if_pos hfree]
      rfl
    · rw [if_neg (mt Entry.slot_eq_free.mp hfree)] at hfound
      rw [State.forkScan, if_neg hfree] at hs
      obtain ⟨n, hr⟩ := ih (s := (s.resume i (following s.table.last,
        { s.table with last := following s.table.last })).goto i (.forkScan previous))
        (getElem?_set_self (List.getElem?_eq_some_iff.mp hi).1) hfound
      refine ⟨n + 1, ?_⟩
      rw [replicate_succ, run, hs]
      dsimp only
      rw [hr]
      simp [State.resume, State.goto]

/-- `getwd`, and the rest of `ios_nextAvailablePid`. -/
theorem run_forkLockChdir {pid previous : Nat}
    (hi : s.threads[i]? = some (.forkLockChdir pid previous)) (hchdir : s.owner .chdir = none) :
    ∃ s', run step s (replicate 4 (.advance i)) = some s' ∧
      s'.table = { s.table with
        previousPid := Function.update s.table.previousPid pid previous } ∧
      s'.current = s.current ∧ s'.threads = s.threads.set i .idle := by
  have hlt : i < s.threads.length := (List.getElem?_eq_some_iff.mp hi).1
  have hset : ∀ q, (s.threads.set i q)[i]? = some q := fun q => getElem?_set_self hlt
  simp only [replicate, run, step, hi, hset, set_set, Option.bind_some, advance, State.lock, hchdir,
    State.goto, State.unlock, if_true]
  exact ⟨_, rfl, rfl, rfl, rfl⟩

/-- Up to `getwd` everything but `previousPid` is stored. -/
theorem run_forkBody {pid : Nat} {T : ThreadTable} (hi : s.threads[i]? = some .forkBody)
    (h : s.table.nextAvailablePid (s.current i) = some (pid, T)) :
    ∃ n s', run step s (replicate n (.advance i)) = some s' ∧
      { s'.table with previousPid := Function.update s'.table.previousPid pid (s.current i) } = T ∧
      s'.current = Function.update s.current i pid ∧
      s'.threads = s.threads.set i (.forkLockChdir pid (s.current i)) ∧ s'.owner = s.owner := by
  have hlt : i < s.threads.length := (List.getElem?_eq_some_iff.mp hi).1
  have hs : step s (.advance i) = some (s.forkBody i) := by simp [step, hi, advance]
  rcases ThreadTable.nextAvailablePid_cases h with ⟨hpid, rfl⟩ | ⟨hpid, rfl, hfound⟩
  · refine ⟨1, s.forkBody i, by rw [replicate_one, run, hs]; rfl, ?_⟩
    rw [State.forkBody, hpid]
    exact ⟨rfl, rfl, rfl, rfl⟩
  · obtain ⟨htable, hcurrent, hthreads, howner⟩ :
        (s.forkBody i).table = { s.table with overflow := true } ∧
        (s.forkBody i).current
          = (if s.table.overflow then s.current else Function.update s.current i 0) ∧
        (s.forkBody i).threads = s.threads.set i (.forkScan (s.current i)) ∧
        (s.forkBody i).owner = s.owner := by
      rw [State.forkBody, hpid]
      exact ⟨rfl, rfl, rfl, rfl⟩
    obtain ⟨n, hr⟩ := run_forkScan (s := s.forkBody i)
      (by rw [hthreads]; exact getElem?_set_self hlt) (by rw [htable]; exact hfound)
    have hrun : run step s (replicate (n + 1) (.advance i))
        = run step (s.forkBody i) (replicate n (.advance i)) := by
      rw [replicate_succ, run, hs]
    refine ⟨n + 1, _, hrun.trans hr, ?_, ?_, ?_, howner⟩
    · simp [State.goto, State.resume, htable, ThreadTable.take]
    · simp only [State.goto, State.resume, hcurrent]
      split
      · rfl
      · exact Function.update_idem _ _ _
    · simp [State.goto, State.resume, hthreads]

/-- A thread that forks while the mutexes are free gets what `nextAvailablePid` says. -/
theorem run_nextAvailablePid {pid : Nat} {T : ThreadTable} (hi : s.threads[i]? = some .forkBody)
    (hchdir : s.owner .chdir = none)
    (h : s.table.nextAvailablePid (s.current i) = some (pid, T)) :
    ∃ n s', run step s (replicate n (.advance i)) = some s' ∧ s'.table = T ∧
      s'.current = Function.update s.current i pid ∧ s'.threads = s.threads.set i .idle := by
  obtain ⟨n, s1, hr, htable, hcurrent, hthreads, howner⟩ := run_forkBody hi h
  have hi1 : s1.threads[i]? = some (.forkLockChdir pid (s.current i)) := by
    rw [hthreads]
    exact getElem?_set_self (List.getElem?_eq_some_iff.mp hi).1
  obtain ⟨s', hr', htable', hcurrent', hthreads'⟩ :=
    run_forkLockChdir hi1 (by rw [howner, hchdir])
  refine ⟨n + 4, s', ?_, htable'.trans htable, hcurrent'.trans hcurrent, ?_⟩
  · rw [replicate_add, run_append, hr]
    exact hr'
  · rw [hthreads', hthreads, set_set]

/-! ## Owners -/

def Owned (s : State) : Prop := ∀ m, Mutex.Owned (Place.holds m) (s.owner m) s.threads

theorem Owned.moves {p q : Place} (h : Owned s) (hm : Moves s s' i p q) : Owned s' := by
  intro m
  rw [hm.threads]
  exact (h m).step hm.thread (hm.owner m)

theorem Owned.initial (n : Nat) : Owned (.initial n) := by
  intro m
  cases m with
  | pid => exact Mutex.Owned.replicate n rfl
  | chdir => exact Mutex.Owned.replicate n rfl

end IosSystem.Pid.Locks
