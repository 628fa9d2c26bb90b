import IosSystem.Pid.Calls
import IosSystem.Lib.Transition

/-!
# Process ids are handed out when they are free

Complete calls that any number of threads make one after the other; each runs under `pid_mtx`. A
thread id that is passed to a call may be any value of an entry, 0 and -1 included.
-/

namespace IosSystem.Pid.Handed

open Function

/-- The tables, and `current_pid` of each thread. -/
structure State where
  table : ThreadTable
  current : Nat → Nat

inductive Call where
  | nextAvailablePid
  | storeThreadId (thread : Entry)
  | releaseThread (thread : Entry)
  | releaseBackgroundThread (thread : Entry)
  | releaseThreadId (pid : Nat)

def release (T : ThreadTable) (current : Nat) (thread : Entry) : Nat × ThreadTable :=
  match (List.range maxThreads).find? fun pid => T.threadIds pid = thread with
  | none => (current, T)
  | some pid => (T.previousPid pid, T.clear pid)

/--
A call by a thread with the given `current_pid`. There is no result when the search does not end.
-/
def perform (T : ThreadTable) (current : Nat) : Call → Option (Nat × ThreadTable)
  | .nextAvailablePid => T.nextAvailablePid current
  | .storeThreadId .free => some (T.storeThreadId current none)
  -- -1 is stored where -1 is
  | .storeThreadId .pending => some (current, T)
  | .storeThreadId (.thread id) => some (T.storeThreadId current (some id))
  | .releaseThread .free => some (current, T)
  | .releaseThread thread => some (release T current thread)
  -- the source does not test for a null thread here
  | .releaseBackgroundThread thread => some (release T current thread)
  | .releaseThreadId pid => some (T.releaseThreadId current pid)

/-- Thread `l.1` makes the call `l.2`. -/
def step (s : State) (l : Nat × Call) : Option State :=
  (perform s.table (s.current l.1) l.2).map fun x => ⟨x.2, update s.current l.1 x.1⟩

def Reachable (s : State) : Prop :=
  Transition.Reachable step (fun _ _ => True) (fun s => s.table = .initial) s

/-- `pid` is the first free id behind `last`, in cyclic order. -/
def FirstFree (threadIds : Nat → Entry) (last pid : Nat) : Prop :=
  ∃ k < 127, pid = following^[k + 1] last ∧ ∀ j < k, threadIds (following^[j + 1] last) ≠ .free

/-- What `ios_nextAvailablePid` returns to thread `t`, and what it does to the tables. -/
structure HandsOut (s : State) (t : Nat) (s' : State) : Prop where
  range : 1 ≤ s'.current t ∧ s'.current t ≤ 127
  free : s.table.threadIds (s'.current t) = .free
  pending : s'.table.threadIds (s'.current t) = .pending
  others : ∀ pid, pid ≠ s'.current t → s'.table.threadIds pid = s.table.threadIds pid
  previous : s'.table.previousPid (s'.current t) = s.current t
  last : s'.table.last = s'.current t
  first : FirstFree s.table.threadIds s.table.last (s'.current t)

theorem search_first {threadIds : Nat → Slot} {count last pid : Nat}
    (h : search threadIds count last = some pid) :
    ∃ k < count, pid = following^[k + 1] last ∧
      ∀ j < k, threadIds (following^[j + 1] last) ≠ .free := by
  induction count generalizing last with
  | zero => cases h
  | succ count ih =>
    rw [search] at h
    split at h
    · cases h
      exact ⟨0, Nat.succ_pos _, rfl, fun j hj => absurd hj (Nat.not_lt_zero j)⟩
    · next hused =>
      obtain ⟨k, hk, rfl, hbefore⟩ := ih h
      refine ⟨k + 1, Nat.succ_lt_succ hk, rfl, fun j hj => ?_⟩
      cases j with
      | zero => exact hused
      | succ j => exact hbefore j (Nat.lt_of_succ_lt_succ hj)

theorem available_first {T : ThreadTable} {x : Nat × Bool} (h : T.toPidTable.available = some x) :
    FirstFree T.threadIds T.last x.1 := by
  rw [PidTable.available] at h
  split at h
  · next hfast =>
    cases h
    have hlast : T.last < maxThreads - 1 := hfast.2.1
    refine ⟨0, by decide, ?_, fun j hj => absurd hj (Nat.not_lt_zero j)⟩
    exact (if_neg (by rw [maxThreads] at hlast ⊢; omega)).symm
  · obtain ⟨pid, hsearch, rfl⟩ := Option.map_eq_some_iff.mp h
    obtain ⟨k, hk, hpid, hbefore⟩ := search_first hsearch
    exact ⟨k, hk, hpid, fun j hj hfree => hbefore j hj (Entry.slot_eq_free.mpr hfree)⟩

/-- The range of the last id, and that 0 is never taken. -/
structure Inv (s : State) : Prop where
  last : s.table.last ≤ 127
  zero : s.table.threadIds 0 = .free

variable {T : ThreadTable} {s s' : State} {t : Nat}

theorem handsOut (h : step s (t, .nextAvailablePid) = some s') : HandsOut s t s' := by
  obtain ⟨⟨pid, T'⟩, hnext, rfl⟩ := Option.map_eq_some_iff.mp h
  obtain ⟨hfree, hpos, hlt, hthreads, hprevious⟩ := ThreadTable.nextAvailablePid_eq_some hnext
  obtain ⟨x, havail, hx⟩ := Option.map_eq_some_iff.mp hnext
  obtain ⟨rfl, rfl⟩ := Prod.mk.inj hx
  have hself : update s.current t x.1 t = x.1 := update_self ..
  constructor <;> simp only [hself]
  · exact ⟨hpos, Nat.le_of_lt_succ hlt⟩
  · exact hfree
  · exact update_self ..
  · exact fun pid hne => update_of_ne hne ..
  · exact update_self ..
  · rfl
  · exact available_first havail

theorem clear_zero (h : T.threadIds 0 = .free) (pid : Nat) : (T.clear pid).threadIds 0 = .free := by
  simp only [ThreadTable.clear, update_apply]
  split
  · rfl
  · exact h

theorem perform_inv {current : Nat} {c : Call} {x : Nat × ThreadTable} (hc : c ≠ .nextAvailablePid)
    (h0 : T.threadIds 0 = .free) (h : perform T current c = some x) :
    x.2.last = T.last ∧ x.2.threadIds 0 = .free := by
  have hrelease : ∀ thread, (release T current thread).2.last = T.last ∧
      (release T current thread).2.threadIds 0 = .free := by
    intro thread
    unfold release
    split
    · exact ⟨rfl, h0⟩
    · next pid _ => exact ⟨rfl, clear_zero h0 pid⟩
  have hstore : ∀ thread, (T.storeThreadId current thread).2.last = T.last ∧
      (T.storeThreadId current thread).2.threadIds 0 = .free := by
    rintro (_ | id) <;> rw [ThreadTable.storeThreadId] <;> split
    · exact ⟨rfl, clear_zero h0 current⟩
    · exact ⟨rfl, h0⟩
    · next hpending =>
      have hne : (0 : Nat) ≠ current := fun e => by cases h0.symm.trans (e ▸ hpending)
      exact ⟨rfl, (update_of_ne hne ..).trans h0⟩
    · exact ⟨rfl, h0⟩
  cases c with
  | nextAvailablePid => exact absurd rfl hc
  | storeThreadId thread =>
    cases thread <;> cases h
    · exact hstore none
    · exact ⟨rfl, h0⟩
    · exact hstore (some _)
  | releaseThread thread =>
    cases thread <;> cases h
    · exact ⟨rfl, h0⟩
    · exact hrelease .pending
    · exact hrelease (.thread _)
  | releaseBackgroundThread thread =>
    cases h
    exact hrelease thread
  | releaseThreadId pid =>
    cases h
    rw [ThreadTable.releaseThreadId]
    split
    · exact ⟨rfl, h0⟩
    · exact ⟨rfl, clear_zero h0 pid⟩

theorem Inv.step {l : Nat × Call} (h : Inv s) (hs : step s l = some s') : Inv s' := by
  obtain ⟨t, c⟩ := l
  by_cases hc : c = .nextAvailablePid
  · subst hc
    have hout := handsOut hs
    refine ⟨hout.last ▸ hout.range.2, ?_⟩
    rw [hout.others 0 (by have := hout.range.1; omega)]
    exact h.zero
  · obtain ⟨x, hx, rfl⟩ := Option.map_eq_some_iff.mp hs
    obtain ⟨hlast, hzero⟩ := perform_inv hc h.zero hx
    exact ⟨hlast ▸ h.last, hzero⟩

/-- In every state of every interleaving of complete calls. -/
theorem handed_out_when_free {s : State} (h : Reachable s) :
    s.table.last ≤ 127 ∧ s.table.threadIds 0 = .free ∧
      ∀ t s', step s (t, .nextAvailablePid) = some s' → HandsOut s t s' := by
  have hinv : Inv s := by
    refine Transition.Reachable.invariant ?_ (fun _ _ _ hinv _ hs => hinv.step hs) h
    rintro ⟨_, current⟩ rfl
    exact ⟨Nat.zero_le _, rfl⟩
  exact ⟨hinv.last, hinv.zero, fun t s' => handsOut⟩

/-- One thread takes all the ids, and gives number 5 back. -/
def wrapped : List (Nat × Call) :=
  List.replicate 127 (0, .nextAvailablePid) ++ [(0, .releaseThreadId 5)]

/-- Behind the wrap-around, the search passes over the ids 1 to 4. -/
theorem handed_out_wrapped : ∃ s s', Reachable s ∧ s.table.last = 127 ∧
    s.table.threadIds 1 = .pending ∧ step s (1, .nextAvailablePid) = some s' ∧
      s'.current 1 = 5 ∧ HandsOut s 1 s' := by
  have hrun : ((Transition.run step ⟨.initial, fun _ => 0⟩ wrapped).bind fun s =>
      (step s (1, .nextAvailablePid)).map fun s' =>
        (s.table.last, s.table.threadIds 1, s'.current 1)) = some (127, .pending, 5) := by
    decide +kernel
  obtain ⟨s, hrun, hs⟩ := Option.bind_eq_some_iff.mp hrun
  obtain ⟨s', hs', hfacts⟩ := Option.map_eq_some_iff.mp hs
  simp only [Prod.mk.injEq] at hfacts
  have hreach : Reachable s := .of_run (.start rfl) hrun
  exact ⟨s, s', hreach, hfacts.1, hfacts.2.1, hs', hfacts.2.2,
    (handed_out_when_free hreach).2.2 1 s' hs'⟩

end IosSystem.Pid.Handed
