import IosSystem.Interp.Slots
import IosSystem.Shell.Text

/-!
# Two allocators for the Python interpreters

`ios_system` takes a slot for a Python command from the pool. A program that loads Python as a
library asks `ios_getPythonLibraryName`, which has flags of its own (`PythonIsRunning`) and takes no
lock. Both give out the same numbers, and neither looks at the other.

`cleanup_function` releases the handle of a command if there is one. Otherwise it clears the flag
with the number in `numInterpreter`, if the name begins with `python`.
-/

namespace IosSystem.Interp.Python

open List Function Threads
open IosSystem.Shell (CStr)
open Bitmap (bits)

def maxPythonInterpreters : Nat := 6

/-- An application may set `numPythonInterpreters`. -/
structure Config where
  num : Nat
  num_le : num ≤ maxPythonInterpreters

/-- `python3_ios`, `pythonA`, `pythonB`, … -/
def libraryName (number : Nat) : CStr :=
  if 0 < number then "python".toList ++ [Char.ofNat ('A'.toNat + (number - 1))]
  else "python3_ios".toList

/-- The flag that `ios_releasePythonLibraryName` clears. -/
def releasedNumber (name : CStr) : Option Nat :=
  match name[6]? with
  | none => none
  | some c =>
    if c = '3' then some 0
    else
      let libNumber := (c.toNat : Int) - ('A'.toNat - 1)
      if 0 < libNumber ∧ libNumber < maxPythonInterpreters then some libNumber.toNat else none

/-- Where a caller of `ios_getPythonLibraryName` is. -/
inductive Place where
  | idle
  | test
  | take
  /-- about to test flag `i` in the loop -/
  | scan (i : Nat)
  /-- about to make `i` the current number -/
  | found (i : Nat)
  | mark (i : Nat)
  deriving DecidableEq

/-- The pool, and the flags that `ios_system.m` keeps. -/
structure State where
  /-- the pool of `ios_interpreter_pool.c` for Python -/
  pool : Interp.State
  /-- `PythonIsRunning` -/
  isRunning : Nat → Bool
  /-- `currentPythonInterpreter` -/
  current : Nat
  callers : List Place
  /-- the numbers whose names were returned and have not been released -/
  loaded : List Nat

def State.goto (s : State) (i : Nat) (p : Place) : State := { s with callers := s.callers.set i p }

def State.setRunning (s : State) (number : Nat) (b : Bool) : State :=
  { s with isRunning := update s.isRunning number b }

/-- `ios_getPythonLibraryName` -/
def advance (config : Config) (s : State) (i : Nat) : Place → Option State
  | .idle => none
  | .test =>
    if s.current < config.num ∧ s.isRunning s.current = false then some (s.goto i .take)
    else some (s.goto i (.scan 0))
  | .take => some ({ s with current := s.current + 1 }.goto i (.mark s.current))
  | .scan k =>
    if k < config.num then
      if s.isRunning k then some (s.goto i (.scan (k + 1))) else some (s.goto i (.found k))
    else some (s.goto i .idle)
  | .found k => some ({ s with current := k }.goto i (.mark k))
  | .mark k =>
    if k < config.num then
      some { (s.setRunning k true).goto i .idle with loaded := k :: s.loaded }
    else some (s.goto i .idle)

inductive Label where
  /-- a step of the pool: Python commands take slots, and `cleanup_function` releases handles -/
  | pool (l : Interp.Label)
  | getLibraryName (i : Nat)
  | advance (i : Nat)
  /-- `ios_releasePythonLibraryName` with the name that was returned for the number -/
  | releaseLibraryName (number : Nat)
  /-- `cleanup_function` of a command without a handle whose name begins with `python` -/
  | cleanupWithoutHandle (numInterpreter : Nat)

def step (config : Config) (s : State) : Label → Option State
  | .pool l => (Interp.step s.pool l).map fun pool => { s with pool := pool }
  | .getLibraryName i => if s.callers[i]? = some .idle then some (s.goto i .test) else none
  | .advance i => s.callers[i]?.bind (advance config s i)
  | .releaseLibraryName number =>
    if s.loaded.contains number then
      let s := { s with loaded := s.loaded.erase number }
      match releasedNumber (libraryName number) with
      | some k => some (s.setRunning k false)
      | none => some s
    else none
  | .cleanupWithoutHandle numInterpreter => some (s.setRunning numInterpreter false)

def Initial (maxSlots : Int) (s : State) : Prop :=
  initType maxSlots = some s.pool.pool ∧ s.pool.handles = [] ∧
    (∃ n, s.pool.threads = replicate n .idle) ∧ s.isRunning = (fun _ => false) ∧
    s.current = 0 ∧ (∃ n, s.callers = replicate n .idle) ∧ s.loaded = []

/--
The steps that keep the two allocators apart.

* A slot that the pool gives out is not in use as a library.
* The calls of `ios_getPythonLibraryName` do not overlap, and the number that one of them marks is
  not given out by the pool.
* A command without a handle does not end with the number of a library in use.
-/
def Guard (config : Config) (s : State) : Label → Prop
  | .pool l => ∀ pool, Interp.step s.pool l = some pool →
    ∀ number ∈ s.loaded, number ∈ bits pool.pool.slotBitmap → number ∈ bits s.pool.pool.slotBitmap
  | .getLibraryName _ => ∀ p ∈ s.callers, p = .idle
  | .advance i => ∀ k, s.callers[i]? = some (.mark k) → k < config.num →
    k ∉ bits s.pool.pool.slotBitmap
  | .releaseLibraryName _ => True
  | .cleanupWithoutHandle numInterpreter => numInterpreter ∉ s.loaded

def GuardedReachable (config : Config) (maxSlots : Int) (s : State) : Prop :=
  Transition.Reachable (step config) (Guard config) (Initial maxSlots) s

/-! ## Names -/

variable {number : Nat}

theorem releasedNumber_libraryName (h : number < maxPythonInterpreters) :
    releasedNumber (libraryName number) = some number := by
  have hall : ∀ n < maxPythonInterpreters, releasedNumber (libraryName n) = some n := by
    decide +kernel
  exact hall number h

/-! ## Invariant -/

def Place.Ok (config : Config) (s : State) : Place → Prop
  | .take => s.current < config.num ∧ s.isRunning s.current = false
  | .found k | .mark k => k < config.num ∧ s.isRunning k = false
  | _ => True

/-- The libraries in use are marked, are no slots of the pool, and one caller searches at a time. -/
structure Inv (config : Config) (s : State) : Prop where
  pool : Interp.Inv s.pool
  running : ∀ n ∈ s.loaded, s.isRunning n = true
  nodup : s.loaded.Nodup
  disjoint : ∀ n ∈ s.loaded, n ∉ bits s.pool.pool.slotBitmap
  bound : ∀ n ∈ s.loaded, n < config.num
  ok : ∀ p ∈ s.callers, p.Ok config s
  alone : ∀ (i j : Nat) (p q : Place), s.callers[i]? = some p → s.callers[j]? = some q →
    p ≠ .idle → q ≠ .idle → i = j

attribute [grind cases] Inv
attribute [grind] Place.Ok

variable {p : Place} {i : Nat} {loaded : List Nat}

section

variable {config : Config} {s s' : State}

theorem Inv.initial {maxSlots : Int} (h : Initial maxSlots s) : Inv config s := by
  obtain ⟨hpool, hhandles, ⟨n, hthreads⟩, -, -, ⟨m, hcallers⟩, hloaded⟩ := h
  have hidle : ∀ p ∈ s.callers, p = .idle := by
    rw [hcallers]
    exact fun p hp => eq_of_mem_replicate hp
  refine ⟨.initial hpool hhandles hthreads, ?_, ?_, ?_, ?_, fun p hp => ?_, ?_⟩
  · simp [hloaded]
  · simp [hloaded]
  · simp [hloaded]
  · simp [hloaded]
  · rw [hidle p hp]
    trivial
  · intro i j p q hi _ hp _
    exact absurd (hidle p (mem_of_getElem? hi)) hp

theorem Place.Ok.clear (h : p.Ok config s) :
    p.Ok config ({ s with loaded := loaded }.setRunning number false) := by
  cases p <;> simp only [State.setRunning] at h ⊢ <;> grind

theorem alone_of_forall {callers : List Place} (i : Nat)
    (h : ∀ (j : Nat) (r : Place), callers[j]? = some r → r ≠ .idle → j = i) :
    ∀ (j k : Nat) (r t : Place), callers[j]? = some r → callers[k]? = some t →
      r ≠ .idle → t ≠ .idle → j = k :=
  fun j k r t hj hk hr ht => (h j r hj hr).trans (h k t hk ht).symm

section

variable (h : Inv config s) (hi : s.callers[i]? = some p) (hp : p ≠ .idle)
include h hi hp

variable {q : Place}

theorem alone_set :
    ∀ (j k : Nat) (r t : Place), (s.callers.set i q)[j]? = some r →
      (s.callers.set i q)[k]? = some t → r ≠ .idle → t ≠ .idle → j = k := by
  refine alone_of_forall i fun j r hj hr => ?_
  rcases getElem?_set_cases hj with ⟨rfl, -⟩ | ⟨-, hj'⟩
  · rfl
  · exact h.alone j i r p hj' hi hr hp

theorem ok_set (hq : q.Ok config s') : ∀ r ∈ s.callers.set i q, r.Ok config s' := by
  intro r hr
  obtain ⟨j, hj⟩ := mem_iff_getElem?.mp hr
  grind

theorem Inv.goto {current : Nat} (hq : q.Ok config ({ s with current := current }.goto i q)) :
    Inv config ({ s with current := current }.goto i q) := by
  have hok : ∀ r ∈ s.callers.set i q, r.Ok config ({ s with current := current }.goto i q) :=
    ok_set h hi hp hq
  have halone := alone_set (q := q) h hi hp
  exact ⟨h.pool, h.running, h.nodup, h.disjoint, h.bound, hok, halone⟩

end

section

variable (h : Inv config s)
include h

theorem Inv.mark {k : Nat} (hi : s.callers[i]? = some (.mark k))
    (hfree : k ∉ bits s.pool.pool.slotBitmap) :
    Inv config { (s.setRunning k true).goto i .idle with loaded := k :: s.loaded } := by
  obtain ⟨hk, hclear⟩ : k < config.num ∧ s.isRunning k = false := h.ok _ (mem_of_getElem? hi)
  have hnew : k ∉ s.loaded := by grind
  have hok : ∀ r ∈ s.callers.set i .idle, r.Ok config
      { (s.setRunning k true).goto i .idle with loaded := k :: s.loaded } :=
      ok_set h hi nofun trivial
  have halone := alone_set (q := .idle) h hi nofun
  refine ⟨h.pool, ?_, nodup_cons.mpr ⟨hnew, h.nodup⟩, ?_, ?_, hok, halone⟩ <;>
    simp only [State.goto, State.setRunning] <;> grind

theorem Inv.advance (hi : s.callers[i]? = some p) (hs : advance config s i p = some s')
    (hg : ∀ k, s.callers[i]? = some (.mark k) → k < config.num → k ∉ bits s.pool.pool.slotBitmap) :
    Inv config s' := by
  have hok : p.Ok config s := h.ok p (mem_of_getElem? hi)
  cases p with
  | idle => cases hs
  | test =>
    simp only [Python.advance] at hs
    by_cases htest : s.current < config.num ∧ s.isRunning s.current = false
    · rw [if_pos htest] at hs
      cases hs
      exact h.goto hi nofun htest
    · rw [if_neg htest] at hs
      cases hs
      exact h.goto hi nofun trivial
  | take =>
    cases hs
    exact h.goto hi nofun hok
  | scan k =>
    simp only [Python.advance] at hs
    by_cases hk : k < config.num
    · rw [if_pos hk] at hs
      cases hrunning : s.isRunning k with
      | true =>
        rw [hrunning] at hs
        cases hs
        exact h.goto hi nofun trivial
      | false =>
        rw [hrunning] at hs
        cases hs
        exact h.goto hi nofun ⟨hk, hrunning⟩
    · rw [if_neg hk] at hs
      cases hs
      exact h.goto hi nofun trivial
  | found k =>
    cases hs
    exact h.goto hi nofun hok
  | mark k =>
    simp only [Python.advance, if_pos hok.1] at hs
    cases hs
    exact h.mark hi (hg k hi hok.1)

theorem Inv.clear (hsub : loaded.Sublist s.loaded) (hnumber : number ∉ loaded) :
    Inv config ({ s with loaded := loaded }.setRunning number false) := by
  refine ⟨h.pool, fun n hn => ?_, h.nodup.sublist hsub, fun n hn => h.disjoint n (hsub.subset hn),
    fun n hn => h.bound n (hsub.subset hn), fun p hp => (h.ok p hp).clear, h.alone⟩
  show update s.isRunning number false n = true
  have hne : n ≠ number := by
    rintro rfl
    exact hnumber hn
  rw [update_of_ne hne]
  exact h.running n (hsub.subset hn)

theorem Inv.step {a : Label} (hs : step config s a = some s') (hg : Guard config s a) :
    Inv config s' := by
  cases a with
  | pool l =>
    obtain ⟨pool, hpool, rfl⟩ := Option.map_eq_some_iff.mp hs
    refine ⟨h.pool.step hpool, h.running, h.nodup, fun n hn hbit => ?_, h.bound, h.ok, h.alone⟩
    exact h.disjoint n hn (hg pool hpool n hn hbit)
  | getLibraryName i =>
    simp only [Python.step] at hs
    by_cases hi : s.callers[i]? = some .idle
    · rw [if_pos hi] at hs
      cases hs
      refine ⟨h.pool, h.running, h.nodup, h.disjoint, h.bound, ?_, ?_⟩
      · exact forall_mem_set h.ok trivial
      · refine alone_of_forall i fun j r hj hr => ?_
        rcases getElem?_set_cases hj with ⟨rfl, -⟩ | ⟨-, hj'⟩
        · rfl
        · exact absurd (hg r (mem_of_getElem? hj')) hr
    · rw [if_neg hi] at hs
      cases hs
  | advance i =>
    obtain ⟨p, hi, hadv⟩ := Option.bind_eq_some_iff.mp hs
    exact h.advance hi hadv hg
  | releaseLibraryName number =>
    simp only [Python.step] at hs
    by_cases hmem : s.loaded.contains number = true
    · rw [if_pos hmem] at hs
      have hnumber : number ∈ s.loaded := by simpa using hmem
      have hlt : number < maxPythonInterpreters :=
        Nat.lt_of_lt_of_le (h.bound number hnumber) config.num_le
      rw [releasedNumber_libraryName hlt] at hs
      cases hs
      exact h.clear erase_sublist (h.nodup.not_mem_erase)
    · rw [if_neg hmem] at hs
      cases hs
  | cleanupWithoutHandle numInterpreter =>
    cases hs
    exact h.clear (List.Sublist.refl s.loaded) hg

end

end

/-! ## Results -/

def State.idle (maxSlots : Nat) (pos : 0 < maxSlots) (le : maxSlots ≤ maxSlotsPerType) : State :=
  { pool := ⟨⟨maxSlots, pos, le, 0, maxSlots⟩, [], [.idle]⟩
    isRunning := fun _ => false, current := 0, callers := [.idle], loaded := [] }

end IosSystem.Interp.Python
