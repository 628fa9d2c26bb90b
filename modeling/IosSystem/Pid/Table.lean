import Mathlib.Logic.Function.Iterate

/-!
# Process ids

A process id is an index into tables of 128 entries: `thread_ids` says whether the id is in use, and
`previousPid` from which id it was forked. `current_pid` is a variable of the thread.

`ios_fork` takes the next free id for the calling thread, and `ios_storeThreadId(0)` gives it back
when no thread is started for it. Otherwise `ios_releaseThread` frees it, which sets the
`current_pid` of the worker, and not that of the thread that has called `ios_fork`.
-/

namespace IosSystem.Pid

def maxThreads : Nat := 128

/-- An entry of `thread_ids`. -/
inductive Slot where
  /-- `0` -/
  | free
  /-- `-1`: forked, and not yet started -/
  | pending
  | running
  deriving DecidableEq

/-- The tables as one thread sees them. -/
structure PidTable where
  threadIds : Nat → Slot
  previousPid : Nat → Nat
  /-- `pid_overflow` -/
  overflow : Bool
  /-- `last_allocated_pid` -/
  last : Nat

/-- The id that the search looks at behind `last`. -/
def following (last : Nat) : Nat := if maxThreads ≤ last + 1 then 1 else last + 1

/--
The search for an id that is not in use, among the next `count` ones. The code goes on until it
finds one.
-/
def search (threadIds : Nat → Slot) : Nat → Nat → Option Nat
  | 0, _ => none
  | count + 1, last =>
    if threadIds (following last) = .free then some (following last)
    else search threadIds count (following last)

/-- The id that `ios_nextAvailablePid` takes, and `pid_overflow` after that. -/
def PidTable.available (T : PidTable) : Option (Nat × Bool) :=
  if T.overflow = false ∧ T.last < maxThreads - 1 ∧ T.threadIds (T.last + 1) = .free then
    some (T.last + 1, false)
  else (search T.threadIds (maxThreads - 1) T.last).map (·, true)

/-- `ios_nextAvailablePid`: the new `current_pid` of the calling thread, and the tables. -/
def PidTable.nextAvailablePid (T : PidTable) (current : Nat) : Option (Nat × PidTable) :=
  T.available.map fun x =>
    (x.1,
      { threadIds := Function.update T.threadIds x.1 .pending
        previousPid := Function.update T.previousPid x.1 current
        overflow := x.2
        last := x.1 })

/-- `ios_storeThreadId(0)` -/
def PidTable.storeNoThread (T : PidTable) (current : Nat) : Nat × PidTable :=
  if T.threadIds current = .pending then
    (T.previousPid current, { T with threadIds := Function.update T.threadIds current .free })
  else (current, T)

/--
The worker of a command: `ios_storeThreadId` at its start records the thread, and
`ios_releaseThread` at its end frees the entry of the thread, if it has one.
-/
def PidTable.worker (T : PidTable) (current : Nat) : PidTable :=
  if T.threadIds current = .pending then
    { T with threadIds := Function.update T.threadIds current .free }
  else T

/-- The environment that `ios_setenv_parent` and `ios_unsetenv_parent` change. -/
def PidTable.parent (T : PidTable) (current : Nat) : Nat := T.previousPid current

theorem following_pos (last : Nat) : 0 < following last := by
  rw [following]
  split <;> omega

theorem following_lt (last : Nat) : following last < maxThreads := by
  rw [following, maxThreads]
  split <;> omega

variable {last : Nat} {threadIds : Nat → Slot}

theorem search_eq_some {count pid : Nat} (h : search threadIds count last = some pid) :
    threadIds pid = .free ∧ 0 < pid ∧ pid < maxThreads := by
  induction count generalizing last with
  | zero => cases h
  | succ count ih =>
    rw [search] at h
    split at h
    · next hfree =>
      cases h
      exact ⟨hfree, following_pos last, following_lt last⟩
    · exact ih h

theorem search_eq_none {count : Nat} :
    search threadIds count last = none ↔
      ∀ k, k < count → threadIds (following^[k + 1] last) ≠ .free := by
  induction count generalizing last with
  | zero => simp [search]
  | succ count ih =>
    rw [search]
    constructor
    · intro h k hk
      split at h
      · cases h
      · next hused =>
        cases k with
        | zero => exact hused
        | succ k => exact ih.mp h k (Nat.lt_of_succ_lt_succ hk)
    · intro h
      have hused : threadIds (following last) ≠ .free := h 0 (Nat.succ_pos _)
      rw [if_neg hused]
      exact ih.mpr fun k hk => h (k + 1) (Nat.succ_lt_succ hk)

theorem following_eq : following last = min last 127 % 127 + 1 := by
  rw [following, maxThreads]
  split <;> omega

theorem following_iterate (last k : Nat) :
    following^[k + 1] last = (min last 127 + k) % 127 + 1 := by
  induction k with
  | zero => exact following_eq
  | succ k ih =>
    rw [Function.iterate_succ_apply', ih, following_eq]
    omega

theorem search_eq_none_iff :
    search threadIds (maxThreads - 1) last = none ↔
      ∀ pid, 0 < pid → pid < maxThreads → threadIds pid ≠ .free := by
  rw [search_eq_none]
  constructor
  · intro h pid hpos hlt
    rw [maxThreads] at hlt
    have := h ((pid - 1 + 127 - min last 127) % 127) (Nat.mod_lt _ (by decide))
    rw [following_iterate] at this
    have hpid : (min last 127 + (pid - 1 + 127 - min last 127) % 127) % 127 + 1 = pid := by omega
    rwa [hpid] at this
  · intro h k _
    rw [following_iterate]
    refine h _ (Nat.succ_pos _) ?_
    rw [maxThreads]
    omega

theorem available_eq_some {T : PidTable} {x : Nat × Bool} (h : T.available = some x) :
    T.threadIds x.1 = .free ∧ 0 < x.1 ∧ x.1 < maxThreads := by
  rw [PidTable.available] at h
  split at h
  · next hfree =>
    cases h
    exact ⟨hfree.2.2, Nat.succ_pos _, by omega⟩
  · obtain ⟨pid, hsearch, rfl⟩ := Option.map_eq_some_iff.mp h
    exact search_eq_some hsearch

theorem nextAvailablePid_eq_some {T T' : PidTable} {current pid : Nat}
    (h : T.nextAvailablePid current = some (pid, T')) :
    T.threadIds pid = .free ∧ 0 < pid ∧ pid < maxThreads ∧
      T'.threadIds = Function.update T.threadIds pid .pending ∧
      T'.previousPid = Function.update T.previousPid pid current := by
  rw [PidTable.nextAvailablePid, Option.map_eq_some_iff] at h
  obtain ⟨x, havail, h⟩ := h
  obtain ⟨rfl, rfl⟩ := Prod.mk.inj h
  obtain ⟨hfree, hpos, hlt⟩ := available_eq_some havail
  exact ⟨hfree, hpos, hlt, rfl, rfl⟩

end IosSystem.Pid
