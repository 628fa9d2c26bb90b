import IosSystem.Session.Threads

/-!
# Sessions that can be found

`session_table_lookup_locked` returns the first entry of a chain that has the id, and it does not
look at `is_destroying`. A session in use is lost when another entry with its id stands before it.
No interleaving leads to that, although `ios_session_get_or_create` gives up its read lock before it
takes the write lock.
-/

namespace IosSystem.Session

open List Table

section

variable {t : Table} (h : Listed t)
include h

theorem Listed.acquire (o : Nat) : Listed (t.acquire o) :=
  h.of_sameShape (.acquire t o) fun o' hd => (isDestroying_acquire t o o').trans hd

theorem Listed.drop (o : Nat) : Listed (t.drop o) :=
  h.of_sameShape (.drop t o) fun o' hd => (isDestroying_drop t o o').trans hd

theorem Listed.markDestroying (o : Nat) : Listed (t.markDestroying o) :=
  h.of_sameShape (.markDestroying t o) fun o' hd => by
    rw [isDestroying_markDestroying, hd, ite_self]

theorem Listed.unlinkFirst (bucket : Nat) (p : Nat → Bool) : Listed (t.unlinkFirst bucket p) := by
  cases hfind : (t.buckets bucket).find? p with
  | none =>
    unfold Table.unlinkFirst
    rwa [hfind]
  | some o =>
    obtain ⟨hlive, rfl⟩ := (h.wf.mem_iff _ o).mp (mem_of_find?_eq_some hfind)
    rw [unlinkFirst_of_find hfind]
    exact h.unlink hlive

end

namespace Threads

variable {s s' : State} (h : Listed s.table)
include h

theorem listed_createSection {sessionId : SessionId} {malloc : Option Nat}
    (hs : createSection s sessionId malloc = some s') : Listed s'.table := by
  unfold createSection at hs
  split at hs
  · cases hs
    exact h.acquire _
  · next hnone =>
    split at hs
    · cases hs
      exact h
    · split_ifs at hs with hf
      cases hs
      refine (h.insertLocked hf fun o ho hid => ?_).acquire _
      -- an unmarked entry with the id would have been usable
      by_contra hd
      have hsome := (h.usable_iff sessionId o).mpr ⟨ho, hid, Bool.eq_false_of_not_eq_true hd⟩
      rw [hnone] at hsome
      cases hsome

theorem listed_advance {i : Nat} {malloc : Option Nat} {pc : PC}
    (hs : advance s i malloc pc = some s') : Listed s'.table := by
  cases pc <;> simp only [advance] at hs
  case createLock =>
    split_ifs at hs
    exact listed_createSection (s := s.goto i .idle) h hs
  all_goals repeat' split at hs
  all_goals cases hs
  case getInc => exact h.acquire _
  case delMark => exact h.markDestroying _
  all_goals first | exact h | exact h.drop _ | exact h.unlinkFirst _ _

theorem listed_step {l : Label} (hs : step s l = some s') : Listed s'.table := by
  cases l <;> simp only [step] at hs
  case advance =>
    split at hs
    · exact listed_advance h hs
    · cases hs
  -- a call that begins leaves the table as it is
  all_goals split_ifs at hs
  all_goals try split at hs
  all_goals cases hs; exact h

omit h

theorem listed_of_reachable (h : Reachable s) : Listed s.table := by
  have hinit : ∀ s, (∃ n, s = State.initial n) → Listed s.table := by
    rintro _ ⟨n, rfl⟩
    exact ⟨Wf.init, fun _ => .nil⟩
  exact Transition.Reachable.invariant hinit (fun _ _ _ hl _ hs => listed_step hl hs) h

/--
Whatever the threads have done, a search for an id finds a session to use exactly when there is one
that has the id, is not freed and is not marked: an id has at most one such session, and no other
entry hides it.
-/
theorem usable_iff_live (h : Reachable s) (sessionId : SessionId) (o : Nat) :
    s.table.usable sessionId = some o ↔ s.table.Live o ∧
      (s.table.sessions o).sessionId = sessionId ∧ (s.table.sessions o).isDestroying = false :=
  (listed_of_reachable h).usable_iff sessionId o

/-- Id 7 is created again while the session that was deleted still has a reference. -/
theorem usable_iff_live_recreated : ∃ s, Reachable s ∧ s.table.buckets 7 = [1, 0] ∧
    s.table.usable 7 = some 1 := by
  have hrun : Transition.run step (State.initial 1)
      [.getOrCreate 0 7, .advance 0 (some 100), .delete 0 7, .advance 0 none, .advance 0 none,
        .getOrCreate 0 7, .advance 0 none, .advance 0 (some 200)] = some _ := rfl
  have hreach : Reachable _ := Transition.Reachable.of_run (.start ⟨1, rfl⟩) hrun
  exact ⟨_, hreach, rfl, (usable_iff_live hreach 7 1).mpr ⟨⟨by decide, rfl⟩, rfl, rfl⟩⟩

/-- No interleaving frees a session twice: each free is that of an entry which leaves the table. -/
theorem freed_at_most_once (h : Reachable s) (o : Nat) : (s.table.sessions o).frees ≤ 1 :=
  (listed_of_reachable h).wf.frees_le o

/-- Two threads delete the session, and both get as far as the write lock. -/
theorem freed_at_most_once_race : ∃ s, Reachable s ∧ 0 < (s.table.sessions 0).frees ∧
    (s.table.sessions 0).frees ≤ 1 := by
  have hrun : Transition.run step (State.initial 2)
      [.getOrCreate 0 7, .advance 0 (some 100), .release 0 ⟨0, 7⟩, .advance 0 none, .advance 0 none,
        .delete 0 7, .delete 1 7, .advance 0 none, .advance 1 none, .advance 0 none,
          .advance 1 none,
        .advance 0 none, .advance 1 none] = some _ := rfl
  have hreach : Reachable _ := Transition.Reachable.of_run (.start ⟨2, rfl⟩) hrun
  exact ⟨_, hreach, by decide, freed_at_most_once hreach 0⟩

end Threads

end IosSystem.Session
