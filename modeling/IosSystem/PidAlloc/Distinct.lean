import IosSystem.PidAlloc.Handout
import Mathlib.Data.Nat.Count

/-!
# Every context has its own pid, and none is lost

`ios_pid_allocate` takes a pid with `atomic_fetch_add` and creates the context later. As long as the
counter does not overflow, no interleaving gives a pid to two contexts. Between the calls a
context without a reference is on the free list.
-/

namespace IosSystem

open Transition Threads

namespace PidAlloc.Threads

/-- How many contexts have the pid. -/
def bearers (a : Allocator) (pid : Int) : Nat :=
  Nat.count (fun c => (a.contexts c).pid = pid) a.created

/-- The pid that the thread has taken for the context it is about to create. -/
def PC.takes : PC → Option Int
  | .create pid => some pid
  | _ => none

/-- A pid below `next_pid` has one context or is about to get one, unless `calloc` has failed. -/
structure Numbered (s : State) : Prop where
  low : initialPid ≤ s.alloc.nextPid
  once : ∀ pid, bearers s.alloc pid + holders PC.takes s.threads pid
    ≤ if initialPid ≤ pid ∧ pid < s.alloc.nextPid then 1 else 0

theorem Keeps.count {a a' : Allocator} (h : Keeps a a') (pid : Int) :
    Nat.count (fun c => (a'.contexts c).pid = pid) a.created = bearers a pid := by
  unfold bearers
  rw [Nat.count_eq_card_filter_range, Nat.count_eq_card_filter_range]
  refine congrArg _ (Finset.filter_congr fun c hc => ?_)
  rw [h.pid c (Finset.mem_range.1 hc)]

theorem bearers_create (a : Allocator) (taken pid : Int) :
    bearers (a.createContext taken) pid = bearers a pid + if taken = pid then 1 else 0 := by
  have hnew : ((a.createContext taken).contexts a.created).pid = taken := by
    simp [Allocator.createContext]
  have hcount := Nat.count_succ (fun c => ((a.createContext taken).contexts c).pid = pid) a.created
  rwa [(Keeps.createContext a taken).count, hnew] at hcount

theorem popLoop_takes (head : Option Nat) : (popLoop head).takes = none := by
  cases head <;> rfl

theorem nextBucket_takes (thread bucket : Nat) : (nextBucket thread bucket).takes = none := by
  unfold nextBucket
  split <;> rfl

section

variable {s s' : State} (h : Numbered s) (hk : Keeps s.alloc s'.alloc)
include h hk

/-- A step that neither takes a pid nor creates a context. -/
theorem Numbered.keep (hc : s'.alloc.created = s.alloc.created)
    (hnext : s'.alloc.nextPid = s.alloc.nextPid)
    (ht : ∀ pid, holders PC.takes s'.threads pid ≤ holders PC.takes s.threads pid) :
    Numbered s' := by
  refine ⟨hnext ▸ h.low, fun pid => ?_⟩
  rw [hnext, bearers, hc, hk.count]
  exact Nat.le_trans (Nat.add_le_add_left (ht pid) _) (h.once pid)

theorem Numbered.advance (hlt : s.alloc.nextPid + 1 < 2 ^ 31) {i : Nat} {fail : Bool} {pc : PC}
    (hi : s.threads[i]? = some pc) (hs : advance s i fail pc = some s') : Numbered s' := by
  have hlow := h.low
  cases pc <;> simp only [Threads.advance] at hs
  case newPid =>
    cases hs
    have hnext : wrapPid (s.alloc.nextPid + 1) = s.alloc.nextPid + 1 :=
      wrapPid_of_lt (by unfold initialPid at hlow; omega) hlt
    refine ⟨?_, fun pid => ?_⟩ <;> simp only [State.goto, hnext]
    · omega
    · have honce := h.once pid
      have hset := holders_set hi PC.takes (.create s.alloc.nextPid) pid
      simp only [PC.takes, Option.some.injEq, reduceCtorEq, if_false] at hset
      simp only [bearers] at honce ⊢
      split_ifs at honce hset ⊢ <;> omega
  case create taken =>
    split at hs <;> cases hs
    · exact h.keep hk rfl rfl fun pid => holders_set_le hi fun ht => by cases ht
    · refine ⟨hlow, fun pid => ?_⟩
      have hset := holders_set hi PC.takes (.newCount s.alloc.created) pid
      simp only [PC.takes, Option.some.injEq, reduceCtorEq, if_false] at hset
      simp only [State.goto, bearers_create]
      exact Nat.le_trans (by omega) (h.once pid)
  all_goals repeat' split at hs
  all_goals cases hs
  all_goals
    refine h.keep hk rfl rfl fun pid => holders_set_le hi fun ht => ?_
    first | cases ht | simp only [popLoop_takes, nextBucket_takes, reduceCtorEq] at ht

end

theorem Numbered.step {s s' : State} {l : Label} (h : Numbered s)
    (hlt : s.alloc.nextPid + 1 < 2 ^ 31) (hs : step s l = some s') : Numbered s' := by
  have hk := (step_effect hs).keeps
  cases l <;> simp only [Threads.step] at hs <;> split at hs
  case h_1 hi => exact h.advance hk hlt hi hs
  all_goals cases hs
  case setThread => exact h.keep hk rfl rfl fun _ => Nat.le_refl _
  case allocate hi | lookup hi | lookupByThread hi =>
    exact h.keep hk rfl rfl fun pid => holders_set_le hi fun ht => by cases ht
  case releaseAllocated hi | releaseLookedUp hi =>
    exact h.keep hk rfl rfl fun pid => holders_set_le hi.1 fun ht => by cases ht

/-- The states that are reached before `next_pid` overflows. -/
def Unwrapped (s : State) : Prop :=
  Transition.Reachable step (fun s _ => s.alloc.nextPid + 1 < 2 ^ 31)
    (fun s => ∃ n, s = State.initial n) s

/-- As long as `next_pid` does not overflow, no two of the contexts ever created have the same pid.
-/
theorem pids_distinct {s : State} (h : Unwrapped s) {c d : Nat} (hcd : c < d)
    (hd : d < s.alloc.created) : (s.alloc.contexts c).pid ≠ (s.alloc.contexts d).pid := by
  have hnum : Numbered s := by
    refine Transition.Reachable.invariant ?_ (fun _ _ _ h hlt hs => h.step hlt hs) h
    rintro s ⟨n, rfl⟩
    refine ⟨Int.le_refl _, fun pid => ?_⟩
    rw [State.initial, holders_replicate rfl]
    exact Nat.zero_le _
  intro heq
  have hc : Nat.count (fun e => (s.alloc.contexts e).pid = (s.alloc.contexts d).pid) c < _ :=
    Nat.count_strict_mono heq hcd
  have hd : Nat.count (fun e => (s.alloc.contexts e).pid = (s.alloc.contexts d).pid) d < _ :=
    Nat.count_strict_mono rfl hd
  have honce := hnum.once (s.alloc.contexts d).pid
  unfold bearers at honce
  split at honce <;> omega

/-- Thread 1 takes its pid between the two steps of thread 0. -/
theorem pids_distinct_race : ∃ s, Unwrapped s ∧ s.alloc.created = 2 ∧
    (s.alloc.contexts 0).pid ≠ (s.alloc.contexts 1).pid := by
  have hrun : (run (guarded step fun s _ => s.alloc.nextPid + 1 < 2 ^ 31) (State.initial 2)
      (call (.allocate 0) 0 2 ++ call (.allocate 1) 1 3 ++ [.advance 0 false])).map
        (·.alloc.created) = some 2 := by decide
  obtain ⟨s, hs, hc⟩ := Option.map_eq_some_iff.1 hrun
  have hreach : Unwrapped s := .of_guarded_run (.start ⟨2, rfl⟩) hs
  exact ⟨s, hreach, hc, pids_distinct hreach Nat.one_pos (by omega)⟩

/--
When no call is under way, the free list holds exactly the contexts that nobody has a reference to.
-/
theorem released_free {s : State} (h : GuardedReachable s) (hidle : ∀ pc ∈ s.threads, pc = .idle)
    {c : Nat} (hc : c < s.alloc.created) :
    s.alloc.OnFreeList c ↔ c ∉ s.allocated ∧ c ∉ s.lookedUp := by
  obtain ⟨l, hinv⟩ := inv_guarded h
  have hnone : ∀ f : PC → Option Nat, f .idle = none → holders f s.threads c = 0 := fun f hf =>
    holders_eq_zero fun pc hpc => by simp [hidle pc hpc, hf]
  have hplace := hinv.place c
  rw [hnone _ rfl, if_pos hc, State.references, hnone _ rfl] at hplace
  rw [← List.count_eq_zero, ← List.count_eq_zero, Allocator.OnFreeList, hinv.chain.reaches_iff]
  split_ifs at hplace with hl
  · omega
  · exact iff_of_true hl (by omega)
  · exact iff_of_false hl (by omega)
  · omega

/-- Of two contexts that were allocated one is released. -/
theorem released_free_one : ∃ s, GuardedReachable s ∧ s.allocated = [0] ∧ s.alloc.OnFreeList 1 := by
  have hrun : run (guarded step Guard) (State.initial 1)
      (call (.allocate 0) 0 6 ++ call (.allocate 0) 0 6 ++ call (.releaseAllocated 0 1) 0 9)
        = some _ := rfl
  have hreach : GuardedReachable _ := .of_guarded_run (.start ⟨1, rfl⟩) hrun
  exact ⟨_, hreach, rfl, (released_free hreach (by decide) (by decide)).2 (by decide)⟩

end PidAlloc.Threads

end IosSystem
