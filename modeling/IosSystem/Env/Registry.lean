import IosSystem.Env.Arrays
import IosSystem.Lib.Buckets
import IosSystem.Lib.Transition

/-!
# The environments of the threads

A thread finds its environment through a thread-specific key, and the others find it in a hash
table. `ios_env_init_thread` stores it in both places. The destructor of the key takes it out of the
table at the end of a thread whose value of the key is not null.

`ios_env_cleanup_thread` sets the value to null, so that the entry stays in the table, and later
belongs to another thread that gets the same id. Each call is one step. Thread ids and addresses can
be used again.
-/

namespace IosSystem.Env.Registry

open Option Function Buckets
open Shell (CStr)

def envHashSize : Nat := 128

/-- `hash_tid` -/
def hashTid (tid : Nat) : Nat := tid % envHashSize

theorem hashTid_lt (tid : Nat) : hashTid tid < envHashSize := Nat.mod_lt _ (by decide)

/-- `env_hash_entry_t` -/
structure HashEntry where
  threadId : Nat
  env : Nat
  deriving DecidableEq

/-- `thread_env_t` -/
structure Object where
  threadId : Nat
  vars : ThreadEnv
  deriving DecidableEq

/-- The environments, and the two ways to find them. -/
structure State where
  /-- the value of `env_key` in each thread that runs; `none` for an id without a thread -/
  specific : Nat → Option (Option Nat)
  /-- the objects that have been allocated and not freed -/
  heap : Nat → Option Object
  /-- `env_hash_table` -/
  hashTable : Nat → List HashEntry
  /-- `total_thread_envs` -/
  total : Int
  /-- `environ` of the process -/
  environ : List CStr

namespace State

def initial (environ : List CStr) : State :=
  { specific := fun _ => none, heap := fun _ => none, hashTable := fun _ => [],
    total := 0, environ }

def setSpecific (s : State) (tid : Nat) (value : Option (Option Nat)) : State :=
  { s with specific := update s.specific tid value }

/-- `env_hash_insert` -/
def hashInsert (s : State) (tid address : Nat) : State :=
  { s with hashTable := Buckets.insert HashEntry.threadId hashTid s.hashTable ⟨tid, address⟩ }

/-- `env_hash_remove` -/
def hashRemove (s : State) (tid : Nat) : State :=
  { s with hashTable := Buckets.remove HashEntry.threadId hashTid s.hashTable tid }

/-- `env_lookup_by_tid` -/
def lookupByTid (s : State) (tid : Nat) : Option Nat :=
  (Buckets.find HashEntry.threadId hashTid s.hashTable tid).map HashEntry.env

/-- `env_free` -/
def free (s : State) (address : Nat) : State :=
  { s with heap := update s.heap address none, total := s.total - 1 }

/--
The entries that `ios_env_init_thread` copies: those of the parent, none if the parent has no
environment, or those of the process.
-/
def inherited (s : State) (parent : Nat) : Option (List CStr) :=
  if parent ≠ 0 then
    match s.lookupByTid parent with
    | some address => (s.heap address).bind fun o => Cells.objects o.vars.entries
    | none => some []
  else some s.environ

/-- `ios_env_init_thread`; `address` is what `calloc` returns. -/
def initThread (s : State) (tid parent address : Nat) : Option State :=
  match s.specific tid with
  | none => none
  -- already initialized
  | some (some _) => some s
  | some none =>
    if s.heap address = none then do
      let vars ← ThreadEnv.initThread (← s.inherited parent)
      let s :=
        { s with heap := update s.heap address (some ⟨tid, vars⟩), total := s.total + 1 }
      return (s.setSpecific tid (some (some address))).hashInsert tid address
    else none

/-- `ios_env_setenv` and `ios_env_unsetenv`, on the environment of the thread or of the process. -/
def change (s : State) (tid : Nat) (c : Change) : Option State :=
  match s.specific tid with
  | none => none
  | some none => (Stores.call ⟨none, none, s.environ⟩ c.call).map fun r =>
    { s with environ := r.1.environ }
  | some (some address) => do
    let o ← s.heap address
    let (vars, _) ← o.vars.change c
    return { s with heap := update s.heap address (some { o with vars }) }

/-- `ios_env_cleanup_thread` -/
def cleanupThread (s : State) (tid : Nat) : Option State :=
  (s.specific tid).map fun _ => s.setSpecific tid (some none)

/-- The thread ends, and `env_thread_destructor` runs if the value of the key is not null. -/
def exit (s : State) (tid : Nat) : Option State :=
  (s.specific tid).map fun
    | none => s.setSpecific tid none
    | some address => ((s.setSpecific tid none).hashRemove tid).free address

end State

inductive Label where
  | create (tid : Nat)
  | initThread (tid parent address : Nat)
  | change (tid : Nat) (c : Change)
  | cleanupThread (tid : Nat)
  | exit (tid : Nat)

def step (s : State) : Label → Option State
  | .create tid => if s.specific tid = none then some (s.setSpecific tid (some none)) else none
  | .initThread tid parent address => s.initThread tid parent address
  | .change tid c => s.change tid c
  | .cleanupThread tid => s.cleanupThread tid
  | .exit tid => s.exit tid

/-! ## The two places -/

def State.env (s : State) (tid : Nat) : Option Nat := (s.specific tid).join

def State.entries (s : State) : List HashEntry := Buckets.entries s.hashTable envHashSize

/-- Every thread that has an environment is in the table with it, once. -/
structure Registered (s : State) : Prop where
  /-- one entry for each thread that has an environment, and none for other ids -/
  entry : ∀ tid, s.entries.countP (·.threadId = tid) = if (s.env tid).isSome then 1 else 0
  lookup : ∀ tid, s.lookupByTid tid = s.env tid
  total : s.total = s.entries.length

/-- A thread that calls `ios_env_cleanup_thread` has no environment. -/
def Guard (s : State) : Label → Prop
  | .cleanupThread tid => s.env tid = none
  | _ => True

def Reachable (s : State) : Prop :=
  Transition.Reachable step (fun _ _ => True) (fun s => ∃ environ, s = .initial environ) s

def State.ofTid (s : State) (tid : Nat) : List HashEntry :=
  Buckets.ofKey HashEntry.threadId hashTid s.hashTable tid

/-- The entries of each thread id are those of its environment. -/
structure Inv (s : State) : Prop where
  placed : Buckets.Placed HashEntry.threadId hashTid s.hashTable
  own : ∀ tid, s.ofTid tid = (s.env tid).toList.map (⟨tid, ·⟩)
  object : ∀ tid address, s.env tid = some address →
    ∃ vars entries, s.heap address = some ⟨tid, vars⟩ ∧ vars.Holds entries
  total : s.total = s.entries.length

variable {s s' : State} {tid : Nat}

theorem Inv.lookupByTid (h : Inv s) (tid : Nat) : s.lookupByTid tid = s.env tid := by
  have hown := h.own tid
  rw [State.lookupByTid, find_eq_head]
  rw [State.ofTid] at hown
  rw [hown]
  cases s.env tid <;> rfl

theorem Inv.registered (h : Inv s) : Registered s := by
  refine ⟨fun tid => ?_, h.lookupByTid, h.total⟩
  have hown := h.own tid
  rw [State.ofTid] at hown
  rw [State.entries, h.placed.countP_entries (hashTid_lt tid), hown]
  cases s.env tid <;> rfl

theorem Inv.initial (environ : List CStr) : Inv (State.initial environ) where
  placed := by rintro b e ⟨⟩
  own _ := rfl
  object := by rintro tid address ⟨⟩
  total := by simp [State.initial, State.entries, entries]

/-! ## Steps -/

theorem env_setSpecific (s : State) (tid : Nat) (value : Option (Option Nat)) :
    (s.setSpecific tid value).env = update s.env tid value.join := by
  funext tid'
  by_cases h : tid' = tid
  · subst h
    simp [State.env, State.setSpecific]
  · simp [State.env, State.setSpecific, h]

theorem Inv.setSpecific (h : Inv s) (hnone : s.env tid = none)
    {value : Option (Option Nat)} (hvalue : value.join = none) : Inv (s.setSpecific tid value) := by
  have henv : (s.setSpecific tid value).env = s.env := by
    rw [env_setSpecific, hvalue, ← hnone, update_eq_self]
  exact ⟨h.placed, fun tid' => henv ▸ h.own tid', fun tid' => henv ▸ h.object tid', h.total⟩

variable {parent address : Nat}

theorem initThread_eq_some (hs : s.initThread tid parent address = some s') :
    s' = s ∨ (s.env tid = none ∧ s.heap address = none ∧ ∃ vars entries, vars.Holds entries ∧
      s' = ({ s with
          heap := update s.heap address (some ⟨tid, vars⟩)
          total := s.total + 1 }.setSpecific tid
            (some (some address))).hashInsert tid address) := by
  rw [State.initThread] at hs
  split at hs
  · cases hs
  · exact .inl (some.inj hs).symm
  · next hspecific =>
    split at hs
    · next hfree =>
      simp only [bind_eq_bind, bind_eq_some_iff] at hs
      obtain ⟨entries, -, vars, hvars, hs⟩ := hs
      obtain ⟨vars', hvars', hholds⟩ := ThreadEnv.Holds.initThread entries
      obtain rfl := some.inj (hvars.symm.trans hvars')
      refine .inr ⟨by rw [State.env, hspecific]; rfl, hfree, vars, entries, hholds, ?_⟩
      exact (some.inj hs).symm
    · cases hs

theorem Inv.initThread (h : Inv s) (hs : s.initThread tid parent address = some s') : Inv s' := by
  obtain rfl | ⟨hnone, hfree, vars, entries, hholds, rfl⟩ := initThread_eq_some hs
  · exact h
  have henv := env_setSpecific s tid (some (some address))
  refine ⟨h.placed.insert _, fun tid' => ?_, fun tid' address' h' => ?_, ?_⟩
  · show Buckets.ofKey _ _ (Buckets.insert _ _ s.hashTable ⟨tid, address⟩) tid'
      = ((s.setSpecific tid (some (some address))).env tid').toList.map _
    rw [henv]
    by_cases htid : tid' = tid
    · subst htid
      have hown := h.own tid'
      rw [State.ofTid, hnone] at hown
      rw [Buckets.ofKey_insert_self (⟨tid', address⟩ : HashEntry), hown, update_self]
      rfl
    · rw [Buckets.ofKey_insert_of_ne htid, update_of_ne htid]
      exact h.own tid'
  · replace h' : (s.setSpecific tid (some (some address))).env tid' = some address' := h'
    show ∃ vars' entries', update s.heap address (some ⟨tid, vars⟩) address' = _ ∧ _
    -- the object is a new one
    have hobject := h.object tid' address'
    simp only [henv] at h' ⊢
    grind
  · show s.total + 1 = ((Buckets.entries (Buckets.insert HashEntry.threadId hashTid s.hashTable
      ⟨tid, address⟩) envHashSize).length : Int)
    have htotal := h.total
    rw [Buckets.length_entries_insert (hashTid_lt _), htotal]
    rfl

theorem change_eq_some {c : Change} (hs : s.change tid c = some s') :
    (s.env tid = none ∧ ∃ environ, s' = { s with environ }) ∨
      ∃ address o vars result, s.env tid = some address ∧ s.heap address = some o ∧
        o.vars.change c = some (vars, result) ∧
        s' = { s with heap := update s.heap address (some { o with vars }) } := by
  rw [State.change] at hs
  split at hs
  · cases hs
  · next hspecific =>
    obtain ⟨r, -, rfl⟩ := map_eq_some_iff.mp hs
    exact .inl ⟨by rw [State.env, hspecific]; rfl, _, rfl⟩
  · next address hspecific =>
    simp only [bind_eq_bind, bind_eq_some_iff] at hs
    obtain ⟨o, ho, ⟨vars, result⟩, hchange, hs⟩ := hs
    exact .inr ⟨address, o, vars, result, by rw [State.env, hspecific]; rfl, ho, hchange,
      (some.inj hs).symm⟩

theorem Inv.change (h : Inv s) {c : Change} (hs : s.change tid c = some s') : Inv s' := by
  obtain ⟨-, environ, rfl⟩ | ⟨address, o, vars, result, henv, ho, hchange, rfl⟩ := change_eq_some hs
  · exact ⟨h.placed, h.own, h.object, h.total⟩
  refine ⟨h.placed, h.own, fun tid' address' h' => ?_, h.total⟩
  obtain ⟨vars', entries', hheap, hholds⟩ := h.object tid' address' h'
  by_cases haddress : address' = address
  · subst haddress
    obtain rfl := some.inj (ho.symm.trans hheap)
    obtain ⟨vars'', hchange', hholds'⟩ := hholds.change c
    obtain ⟨rfl, -⟩ := Prod.mk.inj (some.inj (hchange.symm.trans hchange'))
    exact ⟨vars, _, update_self .., hholds'⟩
  · exact ⟨vars', entries', by
      rw [← hheap]; exact update_of_ne haddress _ _, hholds⟩

theorem Inv.exit (h : Inv s) (hs : s.exit tid = some s') : Inv s' := by
  obtain ⟨value, hspecific, hs'⟩ := map_eq_some_iff.mp hs
  have henv : s.env tid = value := by rw [State.env, hspecific]; rfl
  cases value with
  | none =>
    subst hs'
    exact h.setSpecific henv rfl
  | some address =>
    subst hs'
    have hnew := env_setSpecific s tid none
    have hown := h.own tid
    rw [henv, State.ofTid] at hown
    refine ⟨h.placed.remove tid, fun tid' => ?_, fun tid' address' h' => ?_, ?_⟩
    · show ofKey _ _ (remove _ _ s.hashTable tid) tid'
        = ((s.setSpecific tid none).env tid').toList.map _
      rw [hnew]
      by_cases htid : tid' = tid
      · subst htid
        rw [ofKey_remove_self, hown, update_self]
        rfl
      · rw [ofKey_remove_of_ne htid, update_of_ne htid]
        exact h.own tid'
    · replace h' : (s.setSpecific tid none).env tid' = some address' := h'
      show ∃ vars entries, update s.heap address none address' = _ ∧ _
      -- two threads never have the same object
      have hobject := h.object tid' address'
      obtain ⟨_, _, hheap, -⟩ := h.object tid address henv
      simp only [hnew] at h' ⊢
      grind
    · show s.total - 1 = ((entries (remove HashEntry.threadId hashTid s.hashTable tid)
        envHashSize).length : Int)
      have hfound : ofKey HashEntry.threadId hashTid s.hashTable tid ≠ [] := by
        rw [hown]
        exact List.cons_ne_nil _ _
      have hlength := length_entries_remove (hashTid_lt tid) hfound
      have htotal := h.total
      rw [State.entries, ← hlength] at htotal
      omega

theorem Inv.step {l : Label} (h : Inv s) (hg : Guard s l) (hs : step s l = some s') : Inv s' := by
  cases l with
  | create tid =>
    rw [Registry.step] at hs
    split at hs <;> cases hs
    next hfree =>
      exact h.setSpecific (by rw [State.env, hfree]; rfl) rfl
  | initThread tid parent address => exact h.initThread hs
  | change tid c => exact h.change hs
  | cleanupThread tid =>
    obtain ⟨value, -, rfl⟩ := map_eq_some_iff.mp hs
    exact h.setSpecific hg rfl
  | exit tid => exact h.exit hs

/-! ## What follows -/

theorem Inv.not_registered_cleanup (h : Inv s) (henv : s.env tid = some address)
    (hs : s.cleanupThread tid = some s') : ¬Registered s' := by
  obtain ⟨value, -, rfl⟩ := map_eq_some_iff.mp hs
  intro hreg
  have hlookup := hreg.lookup tid
  rw [env_setSpecific, update_self] at hlookup
  have hold : (s.setSpecific tid (some none)).lookupByTid tid = some address :=
    (h.lookupByTid tid).trans henv
  rw [hold] at hlookup
  cases hlookup

/--
Throughout a run the table has exactly the environments of the threads, if and only if no thread
calls `ios_env_cleanup_thread` while it has one.
-/
theorem registered_iff (environ : List CStr) (labels : List Label) :
    Transition.Always step Registered (.initial environ) labels ↔
      Transition.Meets step Guard (.initial environ) labels := by
  refine Transition.always_iff_meets (fun _ h => h.registered)
    (fun _ _ _ h hs hg => h.step hg hs) ?_
    (Inv.initial environ) labels
  intro s s' l h hs hg
  cases l with
  | cleanupThread tid =>
    obtain ⟨address, henv⟩ := ne_none_iff_exists'.mp hg
    exact h.not_registered_cleanup henv hs
  | _ => exact absurd trivial hg

/--
Thread 7 cleans up, as every command does, and ends. Another thread gets the id 7, and makes its own
environment: now the table has two entries for it, and one of them is not its own.
-/
theorem entry_of_ended_thread : ∃ s, Reachable s ∧ ¬Registered s ∧
    s.entries = [⟨7, 101⟩, ⟨7, 100⟩] ∧ s.env 7 = some 101 := by
  have hrun : Transition.run step (State.initial [])
      [.create 7, .initThread 7 0 100, .cleanupThread 7, .exit 7, .create 7, .initThread 7 0 101]
        = some _ := rfl
  refine ⟨_, Transition.Reachable.of_run (.start ⟨_, rfl⟩) hrun, fun hreg => ?_, rfl, rfl⟩
  have hentry : (2 : Nat) = 1 := hreg.entry 7
  cases hentry

end IosSystem.Env.Registry
