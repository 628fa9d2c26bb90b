import IosSystem.Pid.Table

/-!
# The calls that change `thread_ids`

`ios_nextAvailablePid`, `ios_storeThreadId`, `ios_releaseThread`, `ios_releaseBackgroundThread` and
`ios_releaseThreadId`, with the ids of the threads. Each holds `pid_mtx` while it looks at the
tables. A call is given `current_pid` of the calling thread, and gives the new one back. `PidTable`
is the same table for one caller.
-/

namespace IosSystem.Pid

/-- An entry of `thread_ids`. -/
inductive Entry where
  /-- `0` -/
  | free
  /-- `-1`: forked, and not yet started -/
  | pending
  | thread (id : Nat)
  deriving DecidableEq

/-- The static variables of `libc_replacement.c`. -/
structure ThreadTable where
  threadIds : Nat → Entry
  previousPid : Nat → Nat
  /-- `pid_overflow` -/
  overflow : Bool
  /-- `last_allocated_pid` -/
  last : Nat

namespace ThreadTable

def initial : ThreadTable :=
  { threadIds := fun _ => .free, previousPid := fun _ => 0, overflow := false, last := 0 }

/-- `thread_ids[pid] = 0` -/
def clear (T : ThreadTable) (pid : Nat) : ThreadTable :=
  { T with threadIds := Function.update T.threadIds pid .free }

/-- What `ios_nextAvailablePid` stores for the id that it has found. -/
def take (T : ThreadTable) (pid previous : Nat) : ThreadTable :=
  { T with
    threadIds := Function.update T.threadIds pid .pending
    previousPid := Function.update T.previousPid pid previous
    last := pid }

def nextPid (T : ThreadTable) : Option Nat :=
  if T.overflow = false ∧ T.last < maxThreads - 1 ∧ T.threadIds (T.last + 1) = .free then
    some (T.last + 1)
  else none

/-- `ios_storeThreadId`; `none` is a null thread -/
def storeThreadId (T : ThreadTable) (current : Nat) : Option Nat → Nat × ThreadTable
  | none =>
    if T.threadIds current = .pending then (T.previousPid current, T.clear current)
    else (current, T)
  | some id =>
    if T.threadIds current = .pending then
      (current, { T with threadIds := Function.update T.threadIds current (.thread id) })
    else (current, T)

def slotOf (T : ThreadTable) (id : Nat) : Option Nat :=
  (List.range maxThreads).find? fun pid => T.threadIds pid = .thread id

/-- `ios_releaseThread` -/
def releaseThread (T : ThreadTable) (current id : Nat) : Nat × ThreadTable :=
  match T.slotOf id with
  | none => (current, T)
  | some pid => (T.previousPid pid, T.clear pid)

/-- `ios_releaseBackgroundThread`: only the working directory is treated differently. -/
def releaseBackgroundThread (T : ThreadTable) (current id : Nat) : Nat × ThreadTable :=
  T.releaseThread current id

/-- `ios_releaseThreadId` -/
def releaseThreadId (T : ThreadTable) (current pid : Nat) : Nat × ThreadTable :=
  if T.threadIds pid = .free then (current, T) else (T.previousPid pid, T.clear pid)

end ThreadTable

def Entry.slot : Entry → Slot
  | .free => .free
  | .pending => .pending
  | .thread _ => .running

@[simp] theorem Entry.slot_eq_free {e : Entry} : e.slot = .free ↔ e = .free := by
  cases e <;> simp [Entry.slot]

def ThreadTable.toPidTable (T : ThreadTable) : PidTable :=
  { threadIds := fun pid => (T.threadIds pid).slot
    previousPid := T.previousPid
    overflow := T.overflow
    last := T.last }

/-- `ios_nextAvailablePid`, when it returns -/
def ThreadTable.nextAvailablePid (T : ThreadTable) (current : Nat) : Option (Nat × ThreadTable) :=
  T.toPidTable.available.map fun x => (x.1, { T.take x.1 current with overflow := x.2 })

theorem ThreadTable.nextAvailablePid_eq_some {T T' : ThreadTable} {current pid : Nat}
    (h : T.nextAvailablePid current = some (pid, T')) :
    T.threadIds pid = .free ∧ 0 < pid ∧ pid < maxThreads ∧
      T'.threadIds = Function.update T.threadIds pid .pending ∧
      T'.previousPid = Function.update T.previousPid pid current := by
  rw [nextAvailablePid, Option.map_eq_some_iff] at h
  obtain ⟨x, havail, h⟩ := h
  obtain ⟨rfl, rfl⟩ := Prod.mk.inj h
  obtain ⟨hfree, hpos, hlt⟩ := available_eq_some havail
  exact ⟨Entry.slot_eq_free.mp hfree, hpos, hlt, rfl, rfl⟩

/-- The id behind the last one, or else the one that the loop finds. -/
theorem ThreadTable.nextAvailablePid_cases {T T' : ThreadTable} {current pid : Nat}
    (h : T.nextAvailablePid current = some (pid, T')) :
    (T.nextPid = some pid ∧ T' = T.take pid current) ∨
      (T.nextPid = none ∧ T' = { T with overflow := true }.take pid current ∧
        search (fun pid => (T.threadIds pid).slot) (maxThreads - 1) T.last = some pid) := by
  obtain ⟨x, havailable, hx⟩ := Option.map_eq_some_iff.mp h
  obtain ⟨rfl, rfl⟩ := Prod.mk.inj hx
  rw [PidTable.available] at havailable
  by_cases hnext : T.overflow = false ∧ T.last < maxThreads - 1 ∧ T.threadIds (T.last + 1) = .free
  · rw [if_pos ⟨hnext.1, hnext.2.1, Entry.slot_eq_free.mpr hnext.2.2⟩] at havailable
    cases havailable
    refine .inl ⟨if_pos hnext, ?_⟩
    rw [take, hnext.1]
  · rw [if_neg fun hfree => hnext ⟨hfree.1, hfree.2.1, Entry.slot_eq_free.mp hfree.2.2⟩]
      at havailable
    obtain ⟨pid, hfound, rfl⟩ := Option.map_eq_some_iff.mp havailable
    exact .inr ⟨if_neg hnext, rfl, hfound⟩

theorem ThreadTable.slotOf_eq_some {T : ThreadTable} {id pid : Nat} (h : T.slotOf id = some pid) :
    T.threadIds pid = .thread id := by
  simpa using List.find?_some h

end IosSystem.Pid
