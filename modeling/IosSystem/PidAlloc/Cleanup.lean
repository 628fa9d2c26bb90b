import IosSystem.Lib.Threads
import IosSystem.PidAlloc.Threads
import Mathlib.Logic.Function.Basic

/-!
# Cleanups and the PID allocator

`ios_pid_wait_for_cleanup`, which `ios_pid_allocate` calls first, and the sections between
`ios_pid_begin_cleanup` and `ios_pid_end_cleanup`. What is done under `cleanup_mutex` is one step.

The counter is tested before a context is taken, and nothing keeps it at 0 in between.
-/

namespace IosSystem.PidAlloc.Cleanup

open Option Function

/-- Where a thread is in `ios_pid_wait_for_cleanup`. -/
inductive Gate where
  | outside
  /-- about to test `cleanup_counter` -/
  | test
  /-- in `pthread_cond_wait` -/
  | asleep
  deriving DecidableEq

structure State where
  threads : Threads.State
  cleanupCounter : Int
  gates : Nat → Gate
  /-- the counter at each moment at which a context was taken -/
  taken : List Int

def State.initial (n : Nat) : State := ⟨.initial n, 0, fun _ => .outside, []⟩

/-- The step hands out a context. -/
def takes (s : Threads.State) : Threads.Label → Bool
  | .advance i fail =>
    match s.threads[i]? with
    | some (.popCas head _) => s.alloc.head = some head ∧ fail = false
    | some (.create _) => !fail
    | _ => false
  | _ => false

/-- A thread that waits starts no other call, and `ios_pid_allocate` starts with its wait. -/
def starts (gates : Nat → Gate) : Threads.Label → Bool
  | .allocate _ => false
  | .lookup i _ | .lookupByThread i _ | .releaseAllocated i _ | .releaseLookedUp i _ =>
      gates i = .outside
  | .setThread _ _ | .advance _ _ => true

inductive Label where
  | beginCleanup
  | endCleanup
  | allocate (i : Nat)
  | test (i : Nat)
  /-- `pthread_cond_wait` returns without a reason -/
  | wake (i : Nat)
  | threads (l : Threads.Label)

def step (s : State) : Label → Option State
  | .beginCleanup => some { s with cleanupCounter := s.cleanupCounter + 1 }
  | .endCleanup =>
    if 0 < s.cleanupCounter then
      some { s with
        cleanupCounter := s.cleanupCounter - 1
        gates := fun i => if s.cleanupCounter = 1 ∧ s.gates i = .asleep then .test else s.gates i }
    else none
  | .allocate i =>
    if s.gates i = .outside ∧ s.threads.threads[i]? = some .idle then
      some { s with gates := update s.gates i .test }
    else none
  | .test i =>
    if s.gates i = .test then
      if 0 < s.cleanupCounter then some { s with gates := update s.gates i .asleep }
      else (Threads.step s.threads (.allocate i)).map fun t =>
        { s with threads := t, gates := update s.gates i .outside }
    else none
  | .wake i =>
    if s.gates i = .asleep then some { s with gates := update s.gates i .test } else none
  | .threads l =>
    if starts s.gates l then
      (Threads.step s.threads l).map fun t =>
        { s with threads := t, taken := if takes s.threads l then s.cleanupCounter :: s.taken
          else s.taken }
    else none

/-- Between the wait of `ios_pid_allocate` and the moment at which it has a context. -/
def between : Threads.PC → Bool
  | .popLoad | .popNext _ | .popCas _ _ | .newPid | .create _ => true
  | _ => false

/-- No cleanup begins while a thread is between the test and its allocation. -/
def Guard (s : State) : Label → Prop
  | .beginCleanup => ∀ pc ∈ s.threads.threads, between pc = false
  | _ => True

def Reachable (guard : State → Label → Prop) (n : Nat) (s : State) : Prop :=
  Transition.Reachable step guard (· = State.initial n) s

variable {s s' : State} {l : Label} {t t' : Threads.State} {a : Threads.Label} {n : Nat}

def Awake (s : State) : Prop := 0 ≤ s.cleanupCounter ∧
    (s.cleanupCounter = 0 → ∀ i, s.gates i ≠ .asleep)

theorem Awake.update (h : Awake s) {i : Nat} {g : Gate} (hg : g = .asleep → s.cleanupCounter ≠ 0)
    (t : Threads.State) : Awake { s with threads := t, gates := Function.update s.gates i g } := by
  refine ⟨h.1, fun h0 j => ?_⟩
  show Function.update s.gates i g j ≠ .asleep
  by_cases hj : j = i
  · subst hj
    rw [Function.update_self]
    exact fun hsleep => hg hsleep h0
  · rw [Function.update_of_ne hj]
    exact h.2 h0 j

theorem Awake.step (h : Awake s) (hs : step s l = some s') : Awake s' := by
  cases l <;> simp only [Cleanup.step] at hs
  case beginCleanup =>
    cases hs
    have := h.1
    refine ⟨?_, fun h0 => ?_⟩ <;> simp only at * <;> omega
  case endCleanup =>
    split at hs <;> cases hs
    have := h.1
    refine ⟨?_, fun h0 i => ?_⟩ <;> simp only at *
    · omega
    · split
      · simp
      · next hno => exact fun hi => hno ⟨by omega, hi⟩
  case test =>
    split at hs
    · split at hs
      · next hpos =>
        cases hs
        exact h.update (fun _ => by omega) s.threads
      · obtain ⟨t, -, rfl⟩ := map_eq_some_iff.1 hs
        exact h.update (fun hg => by cases hg) t
    · cases hs
  case threads =>
    split at hs
    · obtain ⟨t, -, rfl⟩ := map_eq_some_iff.1 hs
      exact h
    · cases hs
  all_goals
    split at hs <;> cases hs
    exact h.update (fun hg => by cases hg) s.threads

theorem between_step (h : ∀ pc ∈ t.threads, between pc = false) (ha : ∀ i, a ≠ .allocate i)
    (hs : Threads.step t a = some t') : ∀ pc ∈ t'.threads, between pc = false := by
  cases a with
  | allocate i => exact absurd rfl (ha i)
  | advance i fail =>
    simp only [Threads.step] at hs
    split at hs
    · next pc hi =>
      have hpc := h pc (List.mem_of_getElem? hi)
      cases pc <;> simp only [between, reduceCtorEq] at hpc <;>
        simp only [Threads.advance, Threads.nextBucket, reduceCtorEq] at hs
      all_goals repeat' split at hs
      all_goals cases hs
      all_goals exact Threads.forall_mem_set h rfl
    · cases hs
  | setThread c thread =>
    simp only [Threads.step] at hs
    split at hs <;> cases hs
    exact h
  | lookup | lookupByThread | releaseAllocated | releaseLookedUp =>
    simp only [Threads.step] at hs
    split at hs <;> cases hs
    exact Threads.forall_mem_set h rfl

theorem not_takes (h : ∀ pc ∈ t.threads, between pc = false) (a : Threads.Label) :
    takes t a = false := by
  cases a <;> try rfl
  case advance i fail =>
  simp only [takes]
  split <;> try rfl
  all_goals
    next hi => cases h _ (List.mem_of_getElem? hi)

/-- No context was handed out during a cleanup. -/
def Excluded (s : State) : Prop :=
  (s.cleanupCounter = 0 ∨ ∀ pc ∈ s.threads.threads, between pc = false) ∧ ∀ k ∈ s.taken, k = 0

theorem Excluded.step (h : Excluded s) (hawake : Awake s) (hg : Guard s l)
    (hs : step s l = some s') :
    Excluded s' := by
  cases l <;> simp only [Cleanup.step] at hs
  case beginCleanup =>
    cases hs
    exact ⟨.inr hg, h.2⟩
  case test =>
    split at hs
    · split at hs
      · cases hs
        exact h
      · obtain ⟨t, -, rfl⟩ := map_eq_some_iff.1 hs
        have := hawake.1
        exact ⟨.inl (by show s.cleanupCounter = 0; omega), h.2⟩
    · cases hs
  case threads a =>
    split at hs
    · next hstart =>
      obtain ⟨t, ht, rfl⟩ := map_eq_some_iff.1 hs
      rcases h with ⟨h0 | hno, htaken⟩
      · refine ⟨.inl h0, fun k hk => ?_⟩
        simp only at hk
        split at hk
        · rcases List.mem_cons.1 hk with rfl | hk
          · exact h0
          · exact htaken k hk
        · exact htaken k hk
      · refine ⟨.inr (between_step hno (fun i he => ?_) ht), ?_⟩
        · rw [he] at hstart
          cases hstart
        · simpa [not_takes hno] using htaken
    · cases hs
  case endCleanup =>
    split at hs <;> cases hs
    next hpos => exact ⟨.inr (h.1.resolve_left (by omega)), h.2⟩
  all_goals
    split at hs <;> cases hs
    exact h

/--
A context is taken only while the counter is 0, if no cleanup begins while a thread is between its
wait and the context. No thread is asleep while the counter is 0, whenever the cleanups begin.
-/
theorem cleanup_excludes (n : Nat) :
    (∀ s, Reachable Guard n s → ∀ k ∈ s.taken, k = 0) ∧
      ∀ s, Reachable (fun _ _ => True) n s → s.cleanupCounter = 0 → ∀ i, s.gates i ≠ .asleep := by
  have hinit : Awake (.initial n) := ⟨Int.le_refl 0, fun _ _ hi => by cases hi⟩
  refine ⟨fun s hs => ?_, fun s hs => ?_⟩
  · have hboth : Excluded s ∧ Awake s := by
      unfold Reachable at hs
      induction hs with
      | start h => exact h ▸ ⟨⟨.inl rfl, fun k hk => by cases hk⟩, hinit⟩
      | next _ hg hs ih => exact ⟨ih.1.step ih.2 hg hs, ih.2.step hs⟩
    exact hboth.1.2
  · have hawake : Awake s :=
      Transition.Reachable.invariant (fun _ h => h ▸ hinit) (fun _ _ _ h _ hs => h.step hs) hs
    exact hawake.2

instance : ∀ (s : State) (l : Label), Decidable (Guard s l)
  | s, .beginCleanup => inferInstanceAs (Decidable (∀ pc ∈ s.threads.threads, between pc = false))
  | _, .endCleanup | _, .allocate _ | _, .test _ | _, .wake _ | _, .threads _ => .isTrue trivial

/-- A cleanup begins when the context has been taken, and a second caller waits for its end. -/
def orderly : List Label :=
  [.allocate 0, .test 0, .threads (.advance 0 false), .threads (.advance 0 false),
    .threads (.advance 0 false), .beginCleanup, .allocate 1, .test 1]

/--
The run `orderly`: an id is taken before the cleanup, and the second caller is asleep during it.
-/
theorem cleanup_excludes_orderly :
    ∃ s, Reachable Guard 2 s ∧ s.taken = [0] ∧ s.cleanupCounter = 1 ∧ s.gates 1 = .asleep ∧
      ∀ k ∈ s.taken, k = 0 := by
  have hrun : (Transition.run (Transition.guarded step Guard) (.initial 2) orderly).map
      (fun s => (s.taken, s.cleanupCounter, s.gates 1)) = some ([0], 1, .asleep) := by decide
  obtain ⟨s, hrun, hs⟩ := map_eq_some_iff.mp hrun
  have hreach : Reachable Guard 2 s := .of_guarded_run (.start rfl) hrun
  simp only [Prod.mk.injEq] at hs
  exact ⟨s, hreach, hs.1, hs.2.1, hs.2.2, (cleanup_excludes 2).1 s hreach⟩

/--
A cleanup begins behind the wait of `ios_pid_allocate`, which creates a context with the counter at
1.
-/
theorem taken_in_cleanup :
    (Transition.run step (.initial 1) [.allocate 0, .test 0, .beginCleanup,
      .threads (.advance 0 false),
      .threads (.advance 0 false), .threads (.advance 0 false)]).map (·.taken) = some [1] := by
  rfl

end IosSystem.PidAlloc.Cleanup
