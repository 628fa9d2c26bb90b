import IosSystem.Pid.Locks

/-!
# The order of the locks

`pid_mtx` is taken before `chdir_mtx`, and the test of `cleanup_counter` is made with no mutex held.
A thread that waits therefore waits for one that is further in this order, and there is no cycle.
-/

namespace IosSystem.Pid.Locks

open Place

/--
Thread `i` cannot go on before thread `j` has: it waits for a mutex that `j` has locked, or for
`cleanup_counter` to be zero while `j` is in the tail of `cleanup_function`.
-/
def WaitsFor (s : State) (i j : Nat) : Prop :=
  ∃ p, s.threads[i]? = some p ∧
    ((∃ m, p.wants m = true ∧ s.owner m = some j) ∨
      (p.spins = true ∧ ∃ q, s.threads[j]? = some q ∧ q.inTail = true))

/-- A thread only waits for threads of a lower rank. -/
def Place.rank (p : Place) : Nat :=
  if p.spins then 3 else if p.wants .pid then 2 else if p.wants .chdir then 1 else 0

/-- How far thread `i` is from the end of the order. -/
def State.rank (s : State) (i : Nat) : Nat := (s.threads[i]?.map Place.rank).getD 0

variable {s : State} {p : Place}

theorem State.rank_eq {i : Nat} (h : s.threads[i]? = some p) : s.rank i = p.rank := by
  rw [State.rank, h]
  rfl

variable {q : Place} {m : Mtx}

theorem Place.rank_lt_of_holds (hp : p.wants m = true) (hq : q.holds m = true) :
    q.rank < p.rank := by
  cases m with
  | pid =>
    have hle : q.rank ≤ 1 := by
      cases q <;> first | exact Nat.le_refl 1 | exact Nat.zero_le 1 | cases hq
    have hlt : 2 ≤ p.rank := by
      cases p <;> first | exact Nat.le_refl 2 | cases hp
    exact Nat.lt_of_le_of_lt hle hlt
  | chdir =>
    have hzero : q.rank = 0 := by
      cases q <;> first | rfl | cases hq
    have hlt : 1 ≤ p.rank := by
      cases p <;> first | exact Nat.le_refl 1 | cases hp
    rw [hzero]
    exact hlt

theorem Place.rank_lt_of_inTail (hp : p.spins = true) (hq : q.inTail = true) : q.rank < p.rank := by
  have hspins : q.spins = false := by
    cases q <;> first | rfl | cases hq
  rw [rank, rank, hp, hspins]
  simp only [Bool.false_eq_true, if_false, if_true]
  split
  · decide
  · split <;> decide

theorem rank_lt_of_waitsFor (h : Owned s) {i j : Nat} (hw : WaitsFor s i j) :
    s.rank j < s.rank i := by
  obtain ⟨p, hi, ⟨m, hwants, howner⟩ | ⟨hspins, q, hj, htail⟩⟩ := hw
  · obtain ⟨q, hj, hholds⟩ := (h m j).mp howner
    rw [State.rank_eq hi, State.rank_eq hj]
    exact rank_lt_of_holds hwants hholds
  · rw [State.rank_eq hi, State.rank_eq hj]
    exact rank_lt_of_inTail hspins htail

/-- The mutexes are held by their owners, and the counter counts the cleanups. -/
structure Inv (s : State) : Prop where
  owned : Owned s
  counter : s.cleanupCounter = s.threads.countP Place.inTail

theorem Inv.initial (n : Nat) : Inv (.initial n) where
  owned := .initial n
  counter := by
    have hzero : (List.replicate n idle).countP inTail = 0 := by
      simp [inTail]
    exact (congrArg Int.ofNat hzero).symm

theorem Inv.moves {s' : State} {i : Nat} (h : Inv s) (hm : Moves s s' i p q) :
    Inv s' where
  owned := h.owned.moves hm
  counter := by
    have hcount := Threads.countP_set_add hm.thread q inTail
    have hcounter := hm.counter
    have heq := h.counter
    rw [hm.threads]
    omega

theorem Reachable.inv (h : Reachable s) : Inv s := by
  refine Transition.Reachable.invariant ?_ ?_ h
  · rintro s ⟨n, rfl⟩
    exact .initial n
  · intro s s' a hi _ hs
    obtain ⟨i, p, q, hm, -⟩ := step_moves hs
    exact hi.moves hm

theorem Place.holds_of_unlocks (h : p.unlocks m = true) : p.holds m = true := by
  cases m <;> cases p <;> first | rfl | cases h

theorem eq_advance_of_owner {s' : State} (h : Owned s) {a : Label} (hs : step s a = some s')
    {j : Nat} (hj : s.owner m = some j) (hj' : s'.owner m ≠ some j) : a = .advance j := by
  obtain ⟨i, p, q, hm, ha⟩ := step_moves hs
  have hchange := hm.owner m
  rw [hj] at hchange
  generalize s'.owner m = owner' at hchange hj'
  cases hchange with
  | keep => exact absurd rfl hj'
  | unlock hp =>
    obtain rfl : j = i := Option.some.inj (hj.symm.trans ((h m).owner_eq hm.thread hp))
    rcases ha with rfl | ha
    · cases m <;> cases hp
    · exact ha

/--
In every state of every interleaving, no threads wait for each other in a cycle, a thread that is
about to unlock a mutex is the one that has locked it, a mutex is unlocked by no other step, and
`cleanup_counter` is the number of threads in the tail of `cleanup_function`.
-/
theorem no_lock_cycle {s : State} (h : Reachable s) :
    (∀ i, ¬Relation.TransGen (WaitsFor s) i i) ∧
      (∀ i p m, s.threads[i]? = some p → p.unlocks m = true → s.owner m = some i) ∧
      (∀ a s' m j, step s a = some s' → s.owner m = some j → s'.owner m ≠ some j →
        a = .advance j) ∧
      s.cleanupCounter = s.threads.countP Place.inTail := by
  have hi := Reachable.inv h
  refine ⟨?_, ?_, ?_, hi.counter⟩
  · exact Mutex.acyclic_of_rank s.rank fun _ _ hw => rank_lt_of_waitsFor hi.owned hw
  · intro i p m hp hunlocks
    exact (hi.owned m).owner_eq hp (Place.holds_of_unlocks hunlocks)
  · intro a s' m j hs hj hj'
    exact eq_advance_of_owner hi.owned hs hj hj'

/--
Four threads: thread 0 is in `ios_fork` and has `pid_mtx`, thread 1 is in `chdir` and has
`chdir_mtx`, thread 2 is in `ios_releaseThreadId`, and thread 3 has a command that ends.
-/
theorem no_lock_cycle_of_four_threads :
    ∃ s, Reachable s ∧ WaitsFor s 2 0 ∧ WaitsFor s 0 1 ∧ WaitsFor s 3 1 ∧
      (∀ i, ¬Relation.TransGen (WaitsFor s) i i) ∧ s.cleanupCounter = 1 := by
  have hrun : Transition.run step (.initial 4) [.fork 0, .advance 0, .advance 0, .advance 0,
      .chdir 1, .advance 1, .advance 1, .releaseThreadId 2 ⟨3, by decide⟩,
        .cleanup 3 false] = some _ := rfl
  have hr : Reachable _ := Transition.Reachable.of_run (.start ⟨4, rfl⟩) hrun
  refine ⟨_, hr, ?_, ?_, ?_, (no_lock_cycle hr).1, rfl⟩
  · exact ⟨_, rfl, .inl ⟨.pid, rfl, rfl⟩⟩
  · exact ⟨_, rfl, .inl ⟨.chdir, rfl, rfl⟩⟩
  · exact ⟨_, rfl, .inl ⟨.chdir, rfl, rfl⟩⟩

end IosSystem.Pid.Locks
