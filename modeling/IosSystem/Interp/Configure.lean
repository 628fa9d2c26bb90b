import IosSystem.Interp.Pool
import IosSystem.Lib.Threads

/-!
# The size of an interpreter pool

`ios_interp_pool_configure` and the first uses of a type, cut where another thread can run in
between. All of them test `initialized` without the mutex. Then `interp_pool_init_type` takes it and
tests again: it returns 0 for a pool that somebody else has initialised in the meantime, with
whatever size. And the size is written before the semaphore is created, so that it stays when this
fails.
-/

namespace IosSystem.Interp.Configure

open List

inductive InterpreterType where
  | python
  | perl
  | tex
  | dash
  | ssh
  | curl

/-- `get_default_pool_size` -/
def getDefaultPoolSize : InterpreterType → Int
  | .python => 6
  | .perl => 4
  | .tex => 2
  | .dash => 6
  | .ssh => 2
  | .curl => 1

/-- Where a thread is. -/
inductive PC where
  | idle
  /-- `ios_interp_pool_configure` about to test `initialized` -/
  | configure (maxSlots : Int)
  /-- `ios_interp_acquire` or `ios_interp_try_acquire_slot` about to test `initialized` -/
  | use
  /-- `interp_pool_init_type` about to take the mutex, for one or the other -/
  | init (maxSlots : Int) (configures : Bool)

/--
A call of `ios_interp_pool_configure` that has returned, with the size of the pool before and after
its last step.
-/
structure Configured where
  maxSlots : Int
  ret : Int
  before : Int
  after : Int

/-- `max_slots` and `initialized` of a type, and what the calls have returned. -/
structure State where
  maxSlots : Int
  initialized : Bool
  threads : List PC
  returned : List Configured

/-- `interp_pool_init_once` -/
def State.initial (n : Nat) : State := ⟨0, false, List.replicate n .idle, []⟩

def State.goto (s : State) (i : Nat) (pc : PC) : State := { s with threads := s.threads.set i pc }

/-- The call of thread `i` returns; a pool that is used has no use for the result. -/
def State.finish (s : State) (i : Nat) (configures : Bool) (maxSlots before ret : Int) : State :=
  { s.goto i .idle with
    returned := if configures then s.returned ++ [⟨maxSlots, ret, before, s.maxSlots⟩]
      else s.returned }

/-- The section under the mutex in `interp_pool_init_type`; `created` says whether
`dispatch_semaphore_create` succeeds. -/
def State.initType (s : State) (i : Nat) (maxSlots : Int) (configures created : Bool) : State :=
  if s.initialized then s.finish i configures maxSlots s.maxSlots 0
  else
    let s1 := { s with maxSlots := maxSlots }
    if created then { s1 with initialized := true }.finish i configures maxSlots s.maxSlots 0
    else s1.finish i configures maxSlots s.maxSlots (-1)

inductive Label where
  | configure (i : Nat) (maxSlots : Int)
  | use (i : Nat)
  | advance (i : Nat) (created : Bool)

def advance (type : InterpreterType) (s : State) (i : Nat) (created : Bool) : PC → Option State
  | .idle => none
  | .configure maxSlots =>
    if s.initialized ∨ maxSlots ≤ 0 ∨ (maxSlotsPerType : Int) < maxSlots then
      some (s.finish i true maxSlots s.maxSlots (-1))
    else some (s.goto i (.init maxSlots true))
  | .use =>
    if s.initialized then some (s.goto i .idle)
    else some (s.goto i (.init (getDefaultPoolSize type) false))
  | .init maxSlots configures => some (s.initType i maxSlots configures created)

def step (type : InterpreterType) (s : State) : Label → Option State
  | .configure i maxSlots =>
    match s.threads[i]? with
    | some .idle => some (s.goto i (.configure maxSlots))
    | _ => none
  | .use i =>
    match s.threads[i]? with
    | some .idle => some (s.goto i .use)
    | _ => none
  | .advance i created => s.threads[i]?.bind (advance type s i created)

/--
After a call that has returned 0 the pool has its size, and one that has returned -1 has not changed
the size.
-/
def Honoured (s : State) : Prop :=
  ∀ c ∈ s.returned, (c.ret = 0 → s.maxSlots = c.maxSlots) ∧ (c.ret = -1 → c.after = c.before)

/--
A call that configures finds a pool initialised with its own size only, or creates the semaphore, or
has nothing to change.
-/
def Guard (s : State) : Label → Prop
  | .advance i created =>
    ∀ maxSlots, s.threads[i]? = some (.init maxSlots true) →
      s.maxSlots = maxSlots ∨ s.initialized = false ∧ created = true
  | _ => True

/-- A call that has returned 0 has found the pool initialised or has initialised it. -/
structure Inv (s : State) : Prop where
  initialized : ∀ c ∈ s.returned, c.ret = 0 → s.initialized = true
  honoured : Honoured s

variable {type : InterpreterType} {s s' : State} {i : Nat} {l : Label}

theorem Inv.resize (h : Inv s) (hfalse : s.initialized = false) (maxSlots : Int) :
    Inv { s with maxSlots := maxSlots } := by
  refine ⟨h.initialized, fun c hc => ⟨fun h0 => ?_, (h.honoured c hc).2⟩⟩
  rw [h.initialized c hc h0] at hfalse
  cases hfalse

theorem Inv.finish (h : Inv s) {configures : Bool} {maxSlots before ret : Int}
    (hzero : configures = true → ret = 0 → s.initialized = true ∧ s.maxSlots = maxSlots)
    (hfail : configures = true → ret = -1 → s.maxSlots = before) :
    Inv (s.finish i configures maxSlots before ret) := by
  cases configures with
  | false => exact ⟨h.initialized, h.honoured⟩
  | true =>
    refine ⟨forall_mem_append.2 ⟨h.initialized, forall_mem_singleton.2 ?_⟩,
      forall_mem_append.2 ⟨h.honoured, forall_mem_singleton.2 ?_⟩⟩
    · exact fun h0 => (hzero rfl h0).1
    · exact ⟨fun h0 => (hzero rfl h0).2, hfail rfl⟩

theorem Inv.initType (h : Inv s) {maxSlots : Int} {configures created : Bool}
    (hg : configures = true → s.maxSlots = maxSlots ∨ s.initialized = false ∧ created = true) :
    Inv (s.initType i maxSlots configures created) := by
  unfold State.initType
  split
  · next hinit =>
    refine h.finish (fun hc _ => ⟨hinit, (hg hc).resolve_right fun h' => ?_⟩)
      (fun _ h0 => by cases h0)
    rw [hinit] at h'
    cases h'.1
  · next hinit =>
    have hresize := h.resize (by simpa using hinit) maxSlots
    cases created with
    | true =>
      have hinit : Inv { s with maxSlots := maxSlots, initialized := true } :=
        ⟨fun _ _ _ => rfl, hresize.honoured⟩
      exact hinit.finish (fun _ _ => ⟨rfl, rfl⟩) fun _ h0 => by cases h0
    | false =>
      refine hresize.finish (fun _ h0 => by cases h0) fun hc _ => ?_
      exact ((hg hc).resolve_right fun h' => Bool.false_ne_true h'.2).symm

theorem not_honoured_initType {maxSlots : Int} {created : Bool}
    (hg : ¬(s.maxSlots = maxSlots ∨ s.initialized = false ∧ created = true)) :
    ¬Honoured (s.initType i maxSlots true created) := by
  intro h
  unfold State.initType at h
  split at h
  · exact hg (.inl ((h _ (mem_append_right _ mem_cons_self)).1 rfl))
  · next hinit =>
    cases created with
    | true => exact hg (.inr ⟨by simpa using hinit, rfl⟩)
    | false => exact hg (.inl ((h _ (mem_append_right _ mem_cons_self)).2 rfl).symm)

theorem Inv.step (h : Inv s) (hs : step type s l = some s') (hg : Guard s l) : Inv s' := by
  cases l with
  | configure i maxSlots | use i =>
    simp only [Configure.step] at hs
    split at hs <;> cases hs
    exact ⟨h.initialized, h.honoured⟩
  | advance i created =>
    obtain ⟨pc, hi, hs⟩ := Option.bind_eq_some_iff.1 hs
    cases pc with
    | idle => cases hs
    | configure maxSlots =>
      simp only [advance] at hs
      split at hs <;> cases hs
      · exact h.finish (fun _ h0 => by cases h0) fun _ _ => rfl
      · exact ⟨h.initialized, h.honoured⟩
    | use =>
      simp only [advance] at hs
      split at hs <;> cases hs <;> exact ⟨h.initialized, h.honoured⟩
    | init maxSlots configures =>
      cases hs
      refine h.initType fun hc => hg maxSlots ?_
      rw [hi, hc]

theorem not_honoured_step (hs : step type s l = some s') (hg : ¬Guard s l) : ¬Honoured s' := by
  cases l with
  | configure | use => exact absurd trivial hg
  | advance i created =>
    simp only [Guard, not_forall] at hg
    obtain ⟨maxSlots, hi, hg⟩ := hg
    simp only [Configure.step, hi, Option.bind_some, advance, Option.some.injEq] at hs
    exact hs ▸ not_honoured_initType hg

/--
What `ios_interp_pool_configure` returns is honoured throughout a run if and only if the guard is
met at each step.
-/
theorem honoured_iff_meets (type : InterpreterType) (n : Nat) (labels : List Label) :
    Transition.Always (step type) Honoured (.initial n) labels ↔
      Transition.Meets (step type) Guard (.initial n) labels := by
  have hinit : Inv (.initial n) := ⟨by simp [State.initial], by simp [Honoured, State.initial]⟩
  exact Transition.always_iff_meets (fun _ h => h.honoured) (fun _ _ _ h hs hg => h.step hs hg)
    (fun _ _ _ _ hs hg => not_honoured_step hs hg) hinit labels

/--
Python is configured for 4 slots. Between the test and the mutex another thread uses it for the
first time; the call returns 0, and the pool has 6 slots.
-/
theorem configured_for_other : ∃ s, Transition.run (step .python) (.initial 2)
      [.configure 0 4, .advance 0 true, .use 1, .advance 1 true, .advance 1 true, .advance 0 true]
        = some s ∧ s.returned = [⟨4, 0, 6, 6⟩] ∧ s.maxSlots = 6 ∧ ¬Honoured s := by
  refine ⟨_, rfl, rfl, rfl, fun h => ?_⟩
  cases (h ⟨4, 0, 6, 6⟩ List.mem_cons_self).1 rfl

end IosSystem.Interp.Configure
