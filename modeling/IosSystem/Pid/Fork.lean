import IosSystem.Lib.Transition
import IosSystem.Pid.Calls

/-!
# `ios_fork` with all process ids in use

`ios_nextAvailablePid` looks for a free id in a loop, and holds `pid_mtx` all the time. The other
calls wait for the mutex, so the loop ends within one round if an entry was free when it began. If
none was, it does not end, and the commands in flight cannot release their ids.

Here a call is one step, apart from the loop, which takes one step per iteration.
-/

namespace IosSystem.Pid.Fork

open List Transition Function

/-- A call of `ios_nextAvailablePid` that is in its loop. -/
structure Search where
  thread : Nat
  /-- `previousPidId` -/
  previous : Nat

/-- The tables, and the call of `ios_fork` that holds the mutex. -/
structure State where
  table : ThreadTable
  /-- `current_pid` of each thread -/
  current : Nat → Nat
  /-- the call that holds `pid_mtx` -/
  searching : Option Search
  /-- how many calls of `ios_nextAvailablePid` have returned -/
  returned : Nat

def State.initial : State :=
  { table := .initial, current := fun _ => 0, searching := none, returned := 0 }

inductive Label where
  /-- `ios_fork`: with the mutex, up to the loop -/
  | fork (thread : Nat)
  | iterate
  | storeThreadId (caller : Nat) (thread : Option Nat)
  | releaseThread (caller thread : Nat)
  | releaseBackgroundThread (caller thread : Nat)
  | releaseThreadId (caller : Nat) (pid : Fin maxThreads)
  deriving DecidableEq

def State.resume (s : State) (caller : Nat) (r : Nat × ThreadTable) : State :=
  { s with table := r.2, current := update s.current caller r.1 }

/-- `ios_nextAvailablePid` returns `pid`. -/
def State.returns (s : State) (thread pid previous : Nat) : State :=
  { table := s.table.take pid previous
    current := update s.current thread pid
    searching := none
    returned := s.returned + 1 }

def step (s : State) : Label → Option State
  | .fork thread =>
    match s.searching with
    | some _ => none
    | none =>
      match s.table.nextPid with
      | some pid => some (s.returns thread pid (s.current thread))
      | none =>
        some { s with
          table := { s.table with overflow := true }
          -- first time over the limit
          current :=
            if s.table.overflow then s.current else update s.current thread 0
          searching := some ⟨thread, s.current thread⟩ }
  | .iterate =>
    match s.searching with
    | none => none
    | some call =>
      let pid := following s.table.last
      if s.table.threadIds pid = .free then some (s.returns call.thread pid call.previous)
      else
        some { s with
          table := { s.table with last := pid }
          current := update s.current call.thread pid }
  | .storeThreadId caller thread =>
    match s.searching with
    | some _ => none
    | none => some (s.resume caller (s.table.storeThreadId (s.current caller) thread))
  | .releaseThread caller thread =>
    match s.searching with
    | some _ => none
    | none => some (s.resume caller (s.table.releaseThread (s.current caller) thread))
  | .releaseBackgroundThread caller thread =>
    match s.searching with
    | some _ => none
    | none => some (s.resume caller (s.table.releaseBackgroundThread (s.current caller) thread))
  | .releaseThreadId caller pid =>
    match s.searching with
    | some _ => none
    | none => some (s.resume caller (s.table.releaseThreadId (s.current caller) pid))

def Reachable (s : State) : Prop :=
  Transition.Reachable step (fun _ _ => True) (fun s => s = State.initial) s

/-- There is an id to give out. -/
def State.Free (s : State) : Prop := ∃ pid, 0 < pid ∧ pid < maxThreads ∧
    s.table.threadIds pid = .free

/--
The call that is under way in `s` returns: it needs a number of iterations, whatever the other
threads do meanwhile. `before` is the number of calls that had returned when it began.
-/
def Returns (before : Nat) (s : State) : Prop :=
  ∃ n, ∀ labels s', run step s labels = some s' → n ≤ labels.count .iterate →
    before < s'.returned

/-- Some continuation makes the call return. -/
def CanReturn (before : Nat) (s : State) : Prop :=
  ∃ labels s', run step s labels = some s' ∧ before < s'.returned

/-! ## The loop -/

def State.slots (s : State) (pid : Nat) : Slot := (s.table.threadIds pid).slot

variable {s s' : State} {call : Search}

@[simp] theorem State.slots_eq_free {pid : Nat} :
    s.slots pid = .free ↔ s.table.threadIds pid = .free := Entry.slot_eq_free

open State

theorem State.free_iff {last : Nat} : s.Free ↔ search s.slots (maxThreads - 1) last ≠ none := by
  rw [Ne, search_eq_none_iff]
  constructor
  · rintro ⟨pid, hpos, hlt, hfree⟩ hused
    exact hused pid hpos hlt (slots_eq_free.mpr hfree)
  · intro h
    by_contra hnot
    exact h fun pid hpos hlt hfree => hnot ⟨pid, hpos, hlt, slots_eq_free.mp hfree⟩

variable {l : Label}

theorem step_searching (hcall : s.searching = some call) (hs : step s l = some s') :
    l = .iterate ∧
      if s.table.threadIds (following s.table.last) = .free then
        s' = s.returns call.thread (following s.table.last) call.previous
      else
        s'.searching = some call ∧ s'.table.threadIds = s.table.threadIds ∧
          s'.table.last = following s.table.last ∧ s'.returned = s.returned := by
  cases l <;> simp only [step, hcall] at hs <;> try cases hs
  refine ⟨rfl, ?_⟩
  split at hs <;> cases hs
  · next hfree => rw [if_pos hfree]
  · next hused =>
    rw [if_neg hused]
    exact ⟨rfl, rfl, rfl, rfl⟩

theorem step_returned (hs : step s l = some s') : s.returned ≤ s'.returned := by
  cases l with
  | fork thread =>
    simp only [step] at hs
    split at hs
    · cases hs
    · split at hs <;> cases hs
      · exact Nat.le_succ _
      · exact Nat.le_refl _
  | iterate =>
    simp only [step] at hs
    split at hs
    · cases hs
    · split at hs <;> cases hs
      · exact Nat.le_succ _
      · exact Nat.le_refl _
  | _ =>
    simp only [step] at hs
    split at hs <;> cases hs
    exact Nat.le_refl _

variable {labels : List Label}

theorem run_returned (hr : run step s labels = some s') : s.returned ≤ s'.returned :=
  run_induction (fun _ t => s.returned ≤ t.returned) (Nat.le_refl _)
    (fun _ _ _ _ hle hs => Nat.le_trans hle (step_returned hs)) hr

section

variable (hcall : s.searching = some call)
include hcall

theorem returned_of_search {count : Nat} (hfound : search s.slots count s.table.last ≠ none)
    (hr : run step s labels = some s') (hcount : count ≤ labels.count .iterate) :
    s.returned < s'.returned := by
  induction labels generalizing s count with
  | nil =>
    rw [count_nil, Nat.le_zero] at hcount
    rw [hcount] at hfound
    exact absurd rfl hfound
  | cons l labels ih =>
    rw [run] at hr
    cases hs : step s l with
    | none => rw [hs] at hr; cases hr
    | some s1 =>
      rw [hs] at hr
      obtain ⟨rfl, hnext⟩ := step_searching hcall hs
      rw [count_cons_self] at hcount
      split at hnext
      · next hfree =>
        have hle := run_returned hr
        rw [hnext] at hle
        exact hle
      · next hused =>
        obtain ⟨hcall', hids, hlast, hreturned⟩ := hnext
        cases count with
        | zero => exact absurd rfl hfound
        | succ count =>
          rw [search, if_neg (mt slots_eq_free.mp hused)] at hfound
          rw [← hreturned]
          refine ih hcall' ?_ hr (Nat.le_of_succ_le_succ hcount)
          rwa [hlast, show s1.slots = s.slots from funext fun pid => by rw [slots, hids]; rfl]

theorem step_full (hfull : ¬ s.Free) (hs : step s l = some s') :
    s'.searching = some call ∧ ¬ s'.Free ∧ s'.returned = s.returned := by
  obtain ⟨-, hnext⟩ := step_searching hcall hs
  split at hnext
  · next hfree =>
    exact absurd ⟨_, following_pos _, following_lt _, hfree⟩ hfull
  · obtain ⟨hcall', hids, -, hreturned⟩ := hnext
    refine ⟨hcall', ?_, hreturned⟩
    rw [State.Free, hids]
    exact hfull

theorem run_full (hfull : ¬ s.Free) (hr : run step s labels = some s') :
    s'.returned = s.returned := by
  have hstuck := run_induction
    (fun _ t => t.searching = some call ∧ ¬ t.Free ∧ t.returned = s.returned)
    ⟨hcall, hfull, rfl⟩ (fun _ t l t' ht hs => by
      obtain ⟨hcall', hfull', hreturned⟩ := step_full ht.1 ht.2.1 hs
      exact ⟨hcall', hfull', hreturned.trans ht.2.2⟩) hr
  exact hstuck.2.2

theorem exists_iterate : ∃ s', step s .iterate = some s' := by
  simp only [step, hcall]
  split <;> exact ⟨_, rfl⟩

theorem exists_iterations (hfull : ¬ s.Free) (n : Nat) :
    ∃ s', run step s (replicate n .iterate) = some s' := by
  induction n generalizing s with
  | zero => exact ⟨s, rfl⟩
  | succ n ih =>
    obtain ⟨s1, hs⟩ := exists_iterate hcall
    obtain ⟨hcall', hfull', -⟩ := step_full hcall hfull hs
    obtain ⟨s', hr⟩ := ih hcall' hfull'
    exact ⟨s', by rw [replicate_succ, run, hs]; exact hr⟩

theorem run_search {count pid : Nat} (hfound : search s.slots count s.table.last = some pid) :
    ∃ n, run step s (replicate n .iterate)
      = some (s.returns call.thread pid call.previous) := by
  induction count generalizing s with
  | zero => cases hfound
  | succ count ih =>
    rw [search] at hfound
    by_cases hfree : s.table.threadIds (following s.table.last) = .free
    · rw [if_pos (slots_eq_free.mpr hfree)] at hfound
      cases hfound
      refine ⟨1, ?_⟩
      simp [run, step, hcall, if_pos hfree]
    · rw [if_neg (mt slots_eq_free.mp hfree)] at hfound
      have hs : step s .iterate = some { s with
          table := { s.table with last := following s.table.last }
          current := update s.current call.thread (following s.table.last) } := by
        simp [step, hcall, if_neg hfree]
      obtain ⟨n, hr⟩ := ih (s := { s with
          table := { s.table with last := following s.table.last }
          current := update s.current call.thread (following s.table.last) }) hcall hfound
      refine ⟨n + 1, ?_⟩
      rw [replicate_succ, run, hs]
      dsimp only
      rw [hr]
      -- what the iterations before have stored is overwritten
      simp [returns, ThreadTable.take]

end

/-! ## A call of `ios_fork` -/

theorem step_fork {thread : Nat} (hs : step s (.fork thread) = some s') :
    (s.Free ∧ s'.returned = s.returned + 1) ∨
      (s'.searching = some ⟨thread, s.current thread⟩ ∧ s'.returned = s.returned ∧
        (s'.Free ↔ s.Free)) := by
  simp only [step] at hs
  split at hs
  · cases hs
  · split at hs <;> cases hs
    · next pid hpid =>
      rw [ThreadTable.nextPid] at hpid
      split at hpid <;> cases hpid
      next hnext =>
      refine Or.inl ⟨⟨_, Nat.succ_pos _, ?_, hnext.2.2⟩, rfl⟩
      omega
    · exact Or.inr ⟨rfl, rfl, Iff.rfl⟩

/-- Undisturbed, the loop computes what `nextAvailablePid` says in one step. -/
theorem run_nextAvailablePid {thread pid : Nat} {T : ThreadTable} (hmutex : s.searching = none)
    (h : s.table.nextAvailablePid (s.current thread) = some (pid, T)) :
    ∃ n s', run step s (.fork thread :: replicate n .iterate) = some s' ∧ s'.table = T ∧
      s'.current = update s.current thread pid ∧ s'.searching = none := by
  rcases ThreadTable.nextAvailablePid_cases h with ⟨hpid, rfl⟩ | ⟨hpid, rfl, hfound⟩
  · refine ⟨0, s.returns thread pid (s.current thread), ?_, rfl, rfl, rfl⟩
    simp [run, step, hmutex, hpid]
  · let s1 : State := { s with
      table := { s.table with overflow := true }
      current := if s.table.overflow then s.current else update s.current thread 0
      searching := some ⟨thread, s.current thread⟩ }
    have hs : step s (.fork thread) = some s1 := by simp [step, hmutex, hpid, s1]
    have hcall : s1.searching = some ⟨thread, s.current thread⟩ := rfl
    obtain ⟨n, hr⟩ := run_search hcall hfound
    refine ⟨n, s1.returns thread pid (s.current thread), ?_, rfl, ?_, rfl⟩
    · rw [run, hs]
      exact hr
    · show update s1.current thread pid = _
      dsimp only [s1]
      split
      · rfl
      · exact update_idem _ _ _

/--
`ios_fork` returns if and only if one of the ids 1 to 127 is free when it has the mutex.

If one is, the call needs a bounded number of iterations. If none is, no continuation makes it
return: the calls that could release an id need the mutex that it holds.
-/
theorem fork_returns_iff {s s' : State} {thread : Nat} (hs : step s (.fork thread) = some s') :
    (Returns s.returned s' ↔ s.Free) ∧ (CanReturn s.returned s' ↔ s.Free) := by
  rcases step_fork hs with ⟨hfree, hreturned⟩ | ⟨hcall, hreturned, hfree⟩
  · -- the id behind the last one was free
    have hlt : s.returned < s'.returned := by omega
    refine ⟨⟨fun _ => hfree, fun _ => ⟨0, fun labels t hr _ => ?_⟩⟩, ⟨fun _ => hfree, fun _ => ?_⟩⟩
    · exact Nat.lt_of_lt_of_le hlt (run_returned hr)
    · exact ⟨[], s', rfl, hlt⟩
  · have hreturns : s'.Free → Returns s'.returned s' := by
      intro hf
      exact ⟨_, fun labels t hr hcount =>
        returned_of_search hcall (State.free_iff.mp hf) hr hcount⟩
    have hcan : s'.Free → CanReturn s'.returned s' := by
      intro hf
      obtain ⟨pid, hfound⟩ := Option.ne_none_iff_exists'.mp (State.free_iff.mp hf)
      obtain ⟨n, hr⟩ := run_search hcall hfound
      exact ⟨_, _, hr, Nat.lt_succ_self _⟩
    have hstuck : ¬ s'.Free → ¬ CanReturn s'.returned s' := by
      rintro hfull ⟨labels, t, hr, hlt⟩
      rw [run_full hcall hfull hr] at hlt
      exact Nat.lt_irrefl _ hlt
    have hloops : ¬ s'.Free → ¬ Returns s'.returned s' := by
      rintro hfull ⟨n, hn⟩
      obtain ⟨t, hr⟩ := exists_iterations hcall hfull n
      have := hn _ t hr (Nat.le_of_eq count_replicate_self.symm)
      rw [run_full hcall hfull hr] at this
      exact Nat.lt_irrefl _ this
    rw [← hreturned, ← hfree]
    exact ⟨⟨fun h => by_contra fun hf => hloops hf h, hreturns⟩,
      ⟨fun h => by_contra fun hf => hstuck hf h, hcan⟩⟩

/-- 127 threads have called `ios_fork`. -/
def allForked : List Label := (range 127).map .fork

/-- When one of them gives its id back, the next call goes round the table and returns. -/
theorem fork_returns_wrapped :
    ∃ s s', Reachable s ∧ s.table.last = 127 ∧ s.table.threadIds 1 = .pending ∧
      step s (.fork 127) = some s' ∧ s'.searching.isSome = true ∧ Returns s.returned s' := by
  have hrun :
    ((run step State.initial (allForked ++ [.releaseThreadId 4 ⟨5, by decide⟩])).bind fun s =>
      (step s (.fork 127)).map fun s' => (s.table.last, s.table.threadIds 1, s.table.threadIds 5,
        s'.searching.isSome)) = some (127, .pending, .free, true) := by decide +kernel
  obtain ⟨s, hrun, hs⟩ := Option.bind_eq_some_iff.mp hrun
  obtain ⟨s', hs', hfacts⟩ := Option.map_eq_some_iff.mp hs
  simp only [Prod.mk.injEq] at hfacts
  have hfree : s.Free := ⟨5, by decide, by decide, hfacts.2.2.1⟩
  exact ⟨s, s', .of_run (.start rfl) hrun, hfacts.1, hfacts.2.1, hs', hfacts.2.2.2,
    (fork_returns_iff hs').1.mpr hfree⟩

/-- Their commands are in flight, and the next call of `ios_fork` does not return. -/
theorem fork_stuck :
    ∃ s s', Reachable s ∧ s.returned = 127 ∧ step s (.fork 127) = some s' ∧
      ¬ CanReturn s.returned s' := by
  have hall : (run step State.initial allForked).map (fun s =>
      (s.returned, s.searching.isNone, s.table.nextPid,
        (range 127).all fun p => s.table.threadIds (p + 1) = .pending))
      = some (127, true, none, true) := by decide +kernel
  obtain ⟨s, hrun, hfacts⟩ := Option.map_eq_some_iff.mp hall
  simp only [Prod.mk.injEq] at hfacts
  obtain ⟨hreturned, hmutex, hnext, hpending⟩ := hfacts
  have hfull : ¬ s.Free := by
    rintro ⟨pid, hpos, hlt, hfree⟩
    rw [maxThreads] at hlt
    have := all_eq_true.mp hpending (pid - 1) (mem_range.mpr (by omega))
    rw [Nat.sub_add_cancel hpos, hfree] at this
    simp at this
  rw [Option.isNone_iff_eq_none] at hmutex
  obtain ⟨s', hs⟩ : ∃ s', step s (.fork 127) = some s' := by
    simp only [step, hmutex, hnext]
    exact ⟨_, rfl⟩
  refine ⟨s, s', Transition.Reachable.of_run (.start rfl) hrun, hreturned, hs, ?_⟩
  rcases step_fork hs with ⟨hfree, -⟩ | ⟨hcall, hsame, hfree⟩
  · exact absurd hfree hfull
  · rintro ⟨labels, t, hr, hlt⟩
    rw [run_full hcall (mt hfree.mp hfull) hr, hsame] at hlt
    exact Nat.lt_irrefl _ hlt

end IosSystem.Pid.Fork
