import IosSystem.Session.Safety

/-!
# Commands and their sessions

`ios_system` gives the thread of a command a bare pointer to the session, `params->session`, and
`run_function` makes it the `currentSession` of that thread. References are counted for the threads
that called `ios_switchSession` only: `currentSessionRef` is theirs.

A step here is a step of the session manager (`Session.Threads`) or one of `ios_switchSession`,
`ios_closeSession`, the entry of `ios_system`, the start and the end of a command.
-/

namespace IosSystem.Session.Commands

/-- Where a thread is. -/
inductive Place where
  | unborn
  /-- created, `run_function` has not set `currentSession` -/
  | starting
  /-- in the application, or in the function of its command -/
  | free
  /-- about to call `ios_session_get_or_create` -/
  | obtaining (sessionId : SessionId)
  /-- in `ios_session_get_or_create` -/
  | opening
  /-- in `ios_closeSession`, about to call `ios_session_delete` -/
  | closing (sessionId : SessionId)
  /-- in `ios_system`, waiting for the thread of the command -/
  | joining (command : Nat)
  /-- behind `cleanup_function` -/
  | ended
  deriving DecidableEq

/-- A thread with its references to sessions. -/
structure Thread where
  place : Place
  currentSessionRef : Option Ref
  currentSession : Option Nat
  /-- `params->session` of the command that the thread runs -/
  params : Option Nat
  /-- the thread that called `ios_system` for this command -/
  dispatcher : Option Nat
  deriving DecidableEq

/-- A thread of the application, of `ios_system_async` or of a pipeline stage. -/
def Thread.application : Thread := ⟨.free, none, none, none, none⟩

def Thread.unborn : Thread := ⟨.unborn, none, none, none, none⟩

/-- The thread of a command in session `o`, as `pthread_create` makes it. -/
def Thread.command (o dispatcher : Nat) : Thread := ⟨.starting, none, none, some o, some dispatcher⟩

/-- The thread of a command for which `cleanup_function` has not finished. -/
def Thread.running (t : Thread) : Bool := t.params.isSome && t.place ≠ .ended

structure State where
  manager : Threads.State
  threads : List Thread
  parentSession : Option Nat
  /-- the address of `sh_session` -/
  shSession : SessionId
  defaultSessionId : SessionId

def State.goto (s : State) (i : Nat) (t : Thread) : State := { s with threads := s.threads.set i t }

/-- `context` of a session; `ios_switchSession` sets it to the id. -/
def State.context (s : State) (o : Nat) : SessionId := (s.manager.table.sessions o).sessionId

/-- Thread `i`, if it is in no call. -/
def State.ready (s : State) (i : Nat) : Option Thread :=
  if s.manager.threads[i]? = some .idle then s.threads[i]?.filter (·.place = .free) else none

/-- The two tests that let `ios_switchSession` return at once. -/
def State.inside (s : State) (t : Thread) (sessionId : SessionId) : Bool :=
  t.currentSession.any fun o =>
    (s.context o = s.shSession && s.parentSession.any fun p => s.context p = sessionId) ||
      (s.context o ≠ 0 && s.context o = sessionId)

/-- The reference that `ios_switchSession` gives back. -/
def State.leaves (s : State) (t : Thread) (sessionId : SessionId) : Option Ref :=
  if s.inside t sessionId then none else t.currentSessionRef

/-- The reference that `ios_closeSession` gives back. -/
def State.closes (s : State) (t : Thread) (sessionId : SessionId) : Option Ref :=
  if t.currentSession.any fun o => s.context o = sessionId then t.currentSessionRef else none

/-- Call `ios_session_release` if there is a reference, and go on at `place`. -/
def State.giveBack (s : State) (i : Nat) (t : Thread) (place : Place) : Option Ref → Option State
  | none => some (s.goto i { t with place := place })
  | some ref => (Threads.step s.manager (.release i ref)).map fun m =>
    { s.goto i { t with place := place, currentSessionRef := none, currentSession := none } with
      manager := m }

def acquired (m : Threads.State) (malloc : Option Nat) : Threads.PC → Option Ref
  | .getInc ref => some ref
  | .createLock sessionId =>
    match m.table.usable sessionId with
    | some o => some ⟨o, sessionId⟩
    | none => malloc.map fun _ => ⟨m.table.created, sessionId⟩
  | _ => none

/-- `ios_switchSession` or `ios_system` behind the call of `ios_session_get_or_create`. -/
def Thread.resume (t : Thread) : Option Ref → Thread
  | some ref =>
    { t with place := .free, currentSessionRef := some ref, currentSession := some ref.session }
  | none => { t with place := .free }

/-- A step of thread `i` in the session manager. -/
def State.advance (s : State) (i : Nat) (t : Thread) (malloc : Option Nat) (m : Threads.State) :
    State :=
  { s.goto i
      (if t.place = .opening ∧ m.threads[i]? = some .idle then
        t.resume ((s.manager.threads[i]?).bind (acquired s.manager malloc))
      else t) with
    manager := m }

inductive Label where
  /-- `ios_switchSession` -/
  | switch (i : Nat) (sessionId : SessionId)
  /-- `ios_system` without a session -/
  | enter (i : Nat)
  /-- `ios_closeSession` -/
  | close (i : Nat) (sessionId : SessionId)
  | advance (i : Nat) (malloc : Option Nat)
  /-- `ios_system` creates thread `k` for the command, and waits for it or not -/
  | dispatch (i k : Nat) (joinMainThread : Bool)
  /-- the only thing that a thread at a place other than `free` can do -/
  | proceed (i : Nat)
  /-- `cleanup_function` finishes -/
  | finish (i : Nat)

/-- `ios_system` at `pthread_create`. -/
def State.dispatch (s : State) (i k : Nat) (joinMainThread : Bool) (t : Thread) : Option State :=
  t.currentSession.bind fun o =>
    if s.threads[k]? = some .unborn then
      some ((s.goto k (.command o i)).goto i
        { t with place := if joinMainThread then .joining k else .free })
    else none

/--
`run_function` sets `currentSession`, `ios_session_get_or_create` or `ios_session_delete` is called,
or `pthread_join` returns.
-/
def State.proceed (s : State) (i : Nat) (t : Thread) : Place → Option State
  | .starting => some (s.goto i { t with place := .free, currentSession := t.params })
  | .obtaining sessionId => (Threads.step s.manager (.getOrCreate i sessionId)).map fun m =>
    { s.goto i { t with place := .opening } with manager := m }
  | .closing sessionId => (Threads.step s.manager (.delete i sessionId)).map fun m =>
    { s.goto i { t with place := .free } with manager := m }
  | .joining k =>
    if s.threads[k]?.any (·.place = .ended) then some (s.goto i { t with place := .free }) else none
  | _ => none

def step (s : State) : Label → Option State
  | .switch i sessionId => (s.ready i).bind fun t =>
    if s.inside t sessionId then some s
    else s.giveBack i t (.obtaining sessionId) (s.leaves t sessionId)
  | .enter i => (s.ready i).bind fun t =>
    if t.currentSession = none then
      some (s.goto i { t with place := .obtaining s.defaultSessionId })
    else none
  | .close i sessionId => (s.ready i).bind fun t =>
    s.giveBack i t (.closing sessionId) (s.closes t sessionId)
  | .advance i malloc => s.threads[i]?.bind fun t =>
    (Threads.step s.manager (.advance i malloc)).map (s.advance i t malloc)
  | .dispatch i k joinMainThread => (s.ready i).bind (s.dispatch i k joinMainThread)
  | .proceed i => s.threads[i]?.bind fun t => s.proceed i t t.place
  | .finish i => (s.ready i).bind fun t =>
    if t.running then some (s.goto i { t with place := .ended }) else none

def Initial (s : State) : Prop :=
  s.manager = Threads.State.initial s.threads.length ∧
    ∀ t ∈ s.threads, t = .application ∨ t = .unborn

def Reachable (s : State) : Prop := Transition.Reachable step (fun _ _ => True) Initial s

/-- The sessions of a running command are not freed. -/
def KeptAlive (s : State) : Prop :=
  ∀ t ∈ s.threads, t.running = true →
    (∀ o ∈ t.params, (s.manager.table.sessions o).frees = 0) ∧
    (∀ o ∈ t.currentSession, (s.manager.table.sessions o).frees = 0)

/-- No command that thread `i` has dispatched into session `o` is running. -/
def Settled (threads : List Thread) (i o : Nat) : Prop :=
  ∀ c ∈ threads, c.running = true → c.dispatcher = some i → c.params ≠ some o

/--
The steps that do not take a session away from a command: a thread gives a reference back, or ends
its own command, when the commands that it has dispatched into that session have ended, and the
steps of the session manager are the harmless ones.
-/
def Guard (s : State) : Label → Prop
  | .switch i sessionId =>
    ∀ t ∈ s.ready i, ∀ r ∈ s.leaves t sessionId, Settled s.threads i r.session
  | .close i sessionId =>
    ∀ t ∈ s.ready i, ∀ r ∈ s.closes t sessionId, Settled s.threads i r.session
  | .finish i => ∀ t ∈ s.ready i, ∀ o ∈ t.params, Settled s.threads i o
  | .advance i malloc => Threads.Guard s.manager (.advance i malloc)
  | _ => True

variable {m m' : Threads.State} {i : Nat}

theorem refs_of_release {r : Ref}
    (h : Threads.step m (.release i r) = some m') : r ∈ m.refs ∧ m'.refs = m.refs.erase r := by
  simp only [Threads.step] at h
  split at h <;> cases h
  next hr =>
    exact ⟨hr.2, rfl⟩

variable {sessionId : SessionId}

theorem refs_of_getOrCreate (h : Threads.step m (.getOrCreate i sessionId) = some m') :
    m'.refs = m.refs := by
  simp only [Threads.step] at h
  split at h
  · split at h <;> cases h <;> rfl
  · cases h

theorem refs_of_delete (h : Threads.step m (.delete i sessionId) = some m') : m'.refs = m.refs := by
  simp only [Threads.step] at h
  split at h
  · split at h <;> cases h <;> rfl
  · cases h

variable {malloc : Option Nat}

theorem refs_of_createSection (h : Threads.createSection m sessionId malloc = some m') :
    m'.refs = (acquired m malloc (.createLock sessionId)).toList ++ m.refs := by
  unfold Threads.createSection at h
  unfold acquired
  cases hu : m.table.usable sessionId with
  | some o =>
    simp only [hu] at h ⊢
    cases h
    rfl
  | none =>
    simp only [hu] at h ⊢
    cases malloc with
    | none =>
      cases h
      rfl
    | some address =>
      by_cases hfree : m.table.Free address
      · simp only [if_pos hfree] at h
        cases h
        rfl
      · simp only [if_neg hfree] at h
        cases h

theorem refs_of_advance (h : Threads.step m (.advance i malloc) = some m') :
    m'.refs = ((m.threads[i]?).bind (acquired m malloc)).toList ++ m.refs := by
  simp only [Threads.step] at h
  split at h
  · next pc hpc =>
    rw [hpc, Option.bind_some]
    cases pc with
    | idle => cases h
    | createLock sessionId =>
      simp only [Threads.advance] at h
      split at h
      · have hrefs := refs_of_createSection h
        exact hrefs
      · cases h
    | getInc ref =>
      cases h
      rfl
    | getTest ref create =>
      simp only [Threads.advance] at h
      split at h
      · cases h
        rfl
      · split at h <;> cases h <;> rfl
    | relDec ref | relTest ref | relLock ref | delLoad ref | delLock ref =>
      simp only [Threads.advance] at h
      split at h <;> cases h <;> rfl
    | delMark ref =>
      cases h
      rfl
  · cases h

end IosSystem.Session.Commands
