import IosSystem.Lib.Transition
import IosSystem.Session.Serial

/-!
# Threads that share the session table

The four functions of `ios_session_manager.m` again, cut where another thread can run in between.

* A read lock is held over several steps: the search of the chain, then one step for each atomic
  operation on the session that was found.
* A section under the write lock is one step. It can run when no thread holds the read lock of the
  bucket.
* `ios_session_release` decrements `ref_count` and then loads `is_destroying` without any lock.

A step after the first use of a freed session says nothing about the C code any more; that first use
is what `Session.Safety` is about.
-/

namespace IosSystem.Session.Threads

open Transition

/-- Where a thread is in a call of the manager. -/
inductive PC where
  | idle
  /-- in `ios_session_get_or_create` (`create`) or `ios_session_get`: an entry was found -/
  | getTest (ref : Ref) (create : Bool)
  /-- `is_destroying` was loaded as false, `ref_count` is next -/
  | getInc (ref : Ref)
  /-- `ios_session_get_or_create` about to take the write lock -/
  | createLock (sessionId : SessionId)
  /-- `ios_session_release` about to decrement `ref_count` -/
  | relDec (ref : Ref)
  /-- `prev_count` was 1, `is_destroying` is next -/
  | relTest (ref : Ref)
  /-- `ios_session_release` about to take the write lock -/
  | relLock (ref : Ref)
  /-- `ios_session_delete` about to set `is_destroying` -/
  | delMark (ref : Ref)
  /-- `ios_session_delete` about to load `ref_count` -/
  | delLoad (ref : Ref)
  /-- `ios_session_delete` about to take the write lock -/
  | delLock (sessionId : SessionId)
  deriving DecidableEq

def PC.readLock : PC → Option SessionId
  | .getTest ref _ | .getInc ref | .delMark ref | .delLoad ref => some ref.sessionId
  | _ => none

/-- The reference that the thread works on. -/
def PC.uses : PC → Option Ref
  | .getTest ref _ | .getInc ref | .relDec ref | .relTest ref | .relLock ref | .delMark ref
  | .delLoad ref => some ref
  | _ => none

structure State where
  table : Table
  refs : List Ref
  threads : List PC

def State.initial (n : Nat) : State := ⟨Table.init, [], List.replicate n .idle⟩

def State.goto (s : State) (i : Nat) (pc : PC) : State := { s with threads := s.threads.set i pc }

/-- A reference to `o` is taken and returned. -/
def State.acquire (s : State) (ref : Ref) : State :=
  { s with table := s.table.acquire ref.session, refs := ref :: s.refs }

/-- Nobody has the bucket locked for reading. -/
def State.Writable (s : State) (sessionId : SessionId) : Prop :=
  ∀ pc ∈ s.threads, ∀ id ∈ pc.readLock, hashSessionId id ≠ hashSessionId sessionId

instance (s : State) (sessionId : SessionId) : Decidable (s.Writable sessionId) :=
  have : DecidablePred fun pc : PC =>
      ∀ id ∈ pc.readLock, hashSessionId id ≠ hashSessionId sessionId :=
    fun pc => Option.decidableForallMem pc.readLock
  List.decidableBAll _ s.threads

inductive Label where
  | getOrCreate (i : Nat) (sessionId : SessionId)
  | get (i : Nat) (sessionId : SessionId)
  | release (i : Nat) (ref : Ref)
  | delete (i : Nat) (sessionId : SessionId)
  /-- the next step of a call; `malloc` is what `malloc` returns in it -/
  | advance (i : Nat) (malloc : Option Nat)

/-- The section of `ios_session_get_or_create` under the write lock. -/
def createSection (s : State) (sessionId : SessionId) (malloc : Option Nat) : Option State :=
  match s.table.usable sessionId with
  | some o => some (s.acquire ⟨o, sessionId⟩)
  | none =>
    match malloc with
    | none => some s
    | some address =>
      if s.table.Free address then
        some ({ s with table := s.table.insertLocked sessionId address }.acquire
          ⟨s.table.created, sessionId⟩)
      else none

/-- The next step of thread `i`, which is at the given place. -/
def advance (s : State) (i : Nat) (malloc : Option Nat) : PC → Option State
  | .idle => none
  | .getTest ref create =>
    if (s.table.sessions ref.session).isDestroying = false then some (s.goto i (.getInc ref))
    else if create then some (s.goto i (.createLock ref.sessionId))
    else some (s.goto i .idle)
  | .getInc ref => some ((s.goto i .idle).acquire ref)
  | .createLock sessionId =>
    if s.Writable sessionId then createSection (s.goto i .idle) sessionId malloc else none
  | .relDec ref =>
    let s1 := { s with table := s.table.drop ref.session }
    if (s.table.sessions ref.session).refCount = 1 then some (s1.goto i (.relTest ref))
    else some (s1.goto i .idle)
  | .relTest ref =>
    if (s.table.sessions ref.session).isDestroying then some (s.goto i (.relLock ref))
    else some (s.goto i .idle)
  | .relLock ref =>
    if s.Writable ref.sessionId then
      some { s.goto i .idle with
        table := s.table.unlinkByAddress ref.sessionId (s.table.sessions ref.session).address }
    else none
  | .delMark ref =>
    some ({ s with table := s.table.markDestroying ref.session }.goto i (.delLoad ref))
  | .delLoad ref =>
    if 0 < (s.table.sessions ref.session).refCount then some (s.goto i .idle)
    else some (s.goto i (.delLock ref.sessionId))
  | .delLock sessionId =>
    if s.Writable sessionId then
      some { s.goto i .idle with table := s.table.unlinkById sessionId }
    else none

def step (s : State) : Label → Option State
  | .getOrCreate i sessionId =>
    if s.threads[i]? = some .idle then
      match s.table.lookupLocked sessionId with
      | some o => some (s.goto i (.getTest ⟨o, sessionId⟩ true))
      | none => some (s.goto i (.createLock sessionId))
    else none
  | .get i sessionId =>
    if s.threads[i]? = some .idle then
      match s.table.lookupLocked sessionId with
      | some o => some (s.goto i (.getTest ⟨o, sessionId⟩ false))
      | none => some s
    else none
  | .release i ref =>
    if s.threads[i]? = some .idle ∧ ref ∈ s.refs then
      some ({ s with refs := s.refs.erase ref }.goto i (.relDec ref))
    else none
  | .delete i sessionId =>
    if s.threads[i]? = some .idle then
      match s.table.lookupLocked sessionId with
      | some o => some (s.goto i (.delMark ⟨o, sessionId⟩))
      | none => some s
    else none
  | .advance i malloc =>
    match s.threads[i]? with
    | some pc => advance s i malloc pc
    | none => none

def Reachable (s : State) : Prop :=
  Transition.Reachable step (fun _ _ => True) (fun s => ∃ n, s = State.initial n) s

def solo (s : Session.State) : State := ⟨s.table, s.refs, [.idle]⟩

/-- One thread alone comes from the first state to the second. -/
def Leads (s s' : Session.State) : Prop := ∃ ls, run step (solo s) ls = some (solo s')

section

attribute [local simp] run step advance solo State.goto State.acquire State.Writable PC.readLock

variable (s : Session.State) (sessionId : SessionId)

theorem usable_of_found {t : Table} {o : Nat} (hl : t.lookupLocked sessionId = some o) :
    t.usable sessionId = if (t.sessions o).isDestroying then none else some o := by
  rw [Table.usable, hl]
  cases hd : (t.sessions o).isDestroying <;> simp [hd]

theorem leads_get :
    Leads s ⟨(get s.table sessionId).1, (get s.table sessionId).2.toList ++ s.refs⟩ := by
  cases hl : s.table.lookupLocked sessionId with
  | none => exact ⟨[.get 0 sessionId], by simp [Session.get, Table.usable, hl]⟩
  | some o =>
    have hu := usable_of_found sessionId hl
    cases hd : (s.table.sessions o).isDestroying with
    | true => exact ⟨[.get 0 sessionId, .advance 0 none], by simp [Session.get, hl, hd, hu]⟩
    | false =>
      exact ⟨[.get 0 sessionId, .advance 0 none, .advance 0 none],
        by simp [Session.get, hl, hd, hu]⟩

theorem leads_getOrCreate {malloc : Option Nat} (hm : mallocOk s.table malloc = true) :
    Leads s ⟨(getOrCreate s.table sessionId malloc).1,
      (getOrCreate s.table sessionId malloc).2.toList ++ s.refs⟩ := by
  -- the section under the write lock, when there is no usable entry
  have hcreate : s.table.usable sessionId = none →
      createSection ⟨s.table, s.refs, [.idle]⟩ sessionId malloc
        = some (solo ⟨(getOrCreate s.table sessionId malloc).1,
          (getOrCreate s.table sessionId malloc).2.toList ++ s.refs⟩) := by
    intro hu
    cases malloc with
    | none => simp [createSection, hu, getOrCreate]
    | some address =>
      have hf : s.table.Free address := by simpa [mallocOk] using hm
      simp [createSection, hu, getOrCreate, hf]
  cases hl : s.table.lookupLocked sessionId with
  | none =>
    refine ⟨[.getOrCreate 0 sessionId, .advance 0 malloc], ?_⟩
    simp [hl, hcreate, Table.usable]
  | some o =>
    have hu := usable_of_found sessionId hl
    cases hd : (s.table.sessions o).isDestroying with
    | true =>
      refine ⟨[.getOrCreate 0 sessionId, .advance 0 none, .advance 0 malloc], ?_⟩
      simp [hl, hd, hcreate, hu]
    | false =>
      refine ⟨[.getOrCreate 0 sessionId, .advance 0 none, .advance 0 none], ?_⟩
      simp [hl, hd, getOrCreate, hu]

theorem leads_release {ref : Ref} (hr : ref ∈ s.refs) :
    Leads s ⟨(release s.table ref).1, s.refs.erase ref⟩ := by
  by_cases hone : (s.table.sessions ref.session).refCount = 1
  · cases hd : ((s.table.drop ref.session).sessions ref.session).isDestroying with
    | true =>
      refine ⟨[.release 0 ref, .advance 0 none, .advance 0 none, .advance 0 none], ?_⟩
      simp [hr, hone, hd, release]
    | false =>
      refine ⟨[.release 0 ref, .advance 0 none, .advance 0 none], ?_⟩
      simp [hr, hone, hd, release]
  · refine ⟨[.release 0 ref, .advance 0 none], ?_⟩
    simp [hr, hone, release]

theorem leads_delete : Leads s { s with table := (delete s.table sessionId).1 } := by
  cases hl : s.table.lookupLocked sessionId with
  | none => exact ⟨[.delete 0 sessionId], by simp [hl, delete]⟩
  | some o =>
    by_cases hpos : 0 < ((s.table.markDestroying o).sessions o).refCount
    · refine ⟨[.delete 0 sessionId, .advance 0 none, .advance 0 none], ?_⟩
      simp [hl, hpos, delete]
    · refine ⟨[.delete 0 sessionId, .advance 0 none, .advance 0 none, .advance 0 none], ?_⟩
      simp [hl, hpos, delete]

end

/-- One thread alone does what the serial model says. -/
theorem solo_call {s s' : Session.State} {c : Call} (h : call s c = some s') :
    ∃ ls, Transition.run step (solo s) ls = some (solo s') := by
  cases c with
  | getOrCreate sessionId malloc =>
    simp only [call] at h
    split at h
    case isTrue hm => cases h; exact leads_getOrCreate s sessionId hm
    case isFalse => cases h
  | get sessionId => cases h; exact leads_get s sessionId
  | release ref =>
    cases ref with
    | none => cases h; exact ⟨[], rfl⟩
    | some ref =>
      simp only [call] at h
      split at h
      case isTrue hr => cases h; exact leads_release s hr
      case isFalse => cases h
  | delete sessionId => cases h; exact leads_delete s sessionId

theorem reachable_solo {s : Session.State} (h : Session.Reachable s) : Reachable (solo s) := by
  induction h with
  | start hi =>
    subst hi
    exact .start ⟨1, rfl⟩
  | next _ _ hs ih =>
    obtain ⟨ls, hrun⟩ := solo_call hs
    exact Transition.Reachable.of_run ih hrun

end IosSystem.Session.Threads
