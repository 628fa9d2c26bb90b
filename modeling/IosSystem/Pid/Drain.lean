import IosSystem.Pid.LockOrder

/-!
# What the two loops of `cleanup_function` keep out

`ios_fork`, `chdir` and `ios_fchdir` wait for `cleanup_counter` to be zero, and take their mutex in
a second step. The loops of `cleanup_function` wait until each mutex has been free once, and do not
keep it. A thread that has read the counter before it was raised can therefore take its mutex behind
the loops (`fork_behind_drain`). There is no other way: if no thread is between its test and a mutex
at the moment when a loop gets the mutex, the loops keep all callers out (`drained_excludes`).
-/

namespace IosSystem.Pid.Locks

open Place

/-- No thread is in a protected part while another one is behind the loops of `cleanup_function`. -/
def Excluded (s : State) : Prop :=
  ∀ (i j : Nat) (p q : Place) (m : Mtx), s.threads[i]? = some p → s.threads[j]? = some q → i ≠ j →
    p.inBody m = true → q.inWindow = false

/--
When a loop of `cleanup_function` gets its mutex, no thread has its test of the counter behind it
and this mutex before it.
-/
def Guard (s : State) : Label → Prop
  | .advance i => ∀ m, s.threads[i]?.any (drains m) = true → s.owner m = none →
    ∀ q ∈ s.threads, q.tested m = false
  | _ => True

variable {p q : Place} {s s' : State} {i : Nat} {m : Mtx} {a : Label}

/-! ## Places -/

/-- `Place.flows` for one mutex, as implications. -/
theorem Place.flows_at (h : p.flows q = true) (m : Mtx) :
    (q.inBody m = true → p.inBody m = true ∨ p.tested m = true) ∧
      (q.tested m = true → p.tested m = true ∨ p.spins = true) ∧
      (q.drained m = true → p.drained m = true ∨ p.drains m = true ∧ q.holds m = true) := by
  have hm : p.flowsAt q m = true := by
    obtain ⟨hpid, hchdir⟩ := Bool.and_eq_true_iff.mp h
    cases m with
    | pid => exact hpid
    | chdir => exact hchdir
  simp only [flowsAt] at hm
  grind

theorem Place.holds_of_inBody (h : p.inBody m = true) : p.holds m = true := by
  cases m <;> cases p <;> first | rfl | cases h

theorem Place.not_holds_of_drains (h : p.drains m = true) : p.holds m = false := by
  cases m <;> cases p <;> first | rfl | cases h

theorem Place.inTail_of_drained (h : p.drained m = true) : p.inTail = true := by
  cases m <;> cases p <;> first | rfl | cases h

theorem Place.drained_of_inWindow (h : p.inWindow = true) (m : Mtx) : p.drained m = true := by
  cases m <;> cases p <;> first | rfl | cases h

theorem Place.not_inTail_of_tested (h : p.tested m = true) : p.inTail = false := by
  cases m <;> cases p <;> first | rfl | cases h

/-! ## The counter -/

/-- A thread gets past its test only while the counter is not positive. -/
theorem counter_of_tested (hi : s.threads[i]? = some p) (hs : advance s i p = some s')
    (hthreads : s'.threads = s.threads.set i q) (hp : p.spins = true) (hq : q.tested m = true) :
    s.cleanupCounter ≤ 0 := by
  by_contra hpos
  -- the loop makes its step without leaving
  have hstay : s' = s := by
    cases p with
    | forkSpin | chdirSpin => exact (Option.some.inj hs).symm.trans (if_pos (by omega))
    | _ => cases hp
  have hsame : q = p := by
    have hself := Threads.getElem?_set_eq hi q
    rw [← hthreads, hstay, hi] at hself
    exact (Option.some.inj hself).symm
  subst hsame
  cases q with
  | forkSpin | chdirSpin => cases m <;> cases hq
  | _ => cases hp

/-! ## The invariant -/

/-- Nobody is in the protected part of this mutex, or on the way to it. -/
def Closed (s : State) (m : Mtx) : Prop := ∀ p ∈ s.threads, p.tested m = false ∧ p.inBody m = false

/-- From the end of a loop on, its mutex stays closed. -/
structure DrainInv (s : State) : Prop where
  inv : Inv s
  closed : ∀ m, ∀ q ∈ s.threads, q.drained m = true → Closed s m

theorem DrainInv.initial (n : Nat) : DrainInv (.initial n) where
  inv := .initial n
  closed m q hq hdrained := by
    obtain rfl := List.eq_of_mem_replicate hq
    cases m <;> cases hdrained

/-- A loop gets a mutex that is free: nobody is in its protected part. -/
theorem closed_of_drains (h : Inv s) (hg : Guard s a) (hm : Moves s s' i p q) (ha : a = .advance i)
    (hp : p.drains m = true) (hq : q.holds m = true) : Closed s m := by
  have hfree : s.owner m = none := by
    have hp' := not_holds_of_drains hp
    have hchange := hm.owner m
    generalize s.owner m = owner, s'.owner m = owner' at hchange
    cases hchange with
    | keep hkeep => simp_all
    | lock => rfl
    | unlock hholds => simp_all
  subst ha
  intro r hr
  refine ⟨hg m (by rw [hm.thread]; exact hp) hfree r hr, ?_⟩
  by_contra hbody
  obtain ⟨j, hj⟩ := List.mem_iff_getElem?.mp hr
  have howner := (h.owned m).owner_eq hj (holds_of_inBody ((Bool.not_eq_false _).mp hbody))
  rw [hfree] at howner
  cases howner

theorem DrainInv.step (h : DrainInv s) (hs : step s a = some s') (hg : Guard s a) :
    DrainInv s' := by
  obtain ⟨i, p, q, hm, ha⟩ := step_moves hs
  refine ⟨h.inv.moves hm, fun m t ht hdrained => ?_⟩
  obtain ⟨hbody, htested, hloop⟩ := flows_at hm.flows m
  have hp : p ∈ s.threads := List.mem_of_getElem? hm.thread
  rw [hm.threads] at ht
  have hclosed : Closed s m := by
    rcases List.mem_or_eq_of_mem_set ht with ht | rfl
    · exact h.closed m t ht hdrained
    · rcases hloop hdrained with hbefore | ⟨hdrains, hholds⟩
      · exact h.closed m p hp hbefore
      · refine closed_of_drains h.inv hg hm (ha.resolve_left ?_) hdrains hholds
        rintro rfl
        cases m <;> cases hdrains
  rw [Closed, hm.threads]
  refine Threads.forall_mem_set hclosed ⟨?_, ?_⟩
  · by_contra hq
    have hq := (Bool.not_eq_false _).mp hq
    rcases htested hq with hbefore | hspins
    · rw [(hclosed p hp).1] at hbefore
      cases hbefore
    · -- the counter counts the thread behind the loop
      have ht : t ∈ s.threads := by
        refine (List.mem_or_eq_of_mem_set ht).resolve_right ?_
        rintro rfl
        have := inTail_of_drained hdrained
        rw [not_inTail_of_tested hq] at this
        cases this
      have hpos := List.countP_pos_iff.mpr ⟨t, ht, inTail_of_drained hdrained⟩
      have hadv : advance s i p = some s' := by
        have hlabel := ha.resolve_left (by rintro rfl; cases hspins)
        rw [hlabel, Locks.step, hm.thread] at hs
        exact hs
      have hcounter := counter_of_tested hm.thread hadv hm.threads hspins hq
      have := h.inv.counter
      omega
  · by_contra hq
    rcases hbody ((Bool.not_eq_false _).mp hq) with hbefore | hbefore
    · rw [(hclosed p hp).2] at hbefore
      cases hbefore
    · rw [(hclosed p hp).1] at hbefore
      cases hbefore

theorem DrainInv.excluded (h : DrainInv s) : Excluded s := by
  intro i j p q m hi hj _ hbody
  by_contra hwindow
  have hdrained := drained_of_inWindow ((Bool.not_eq_false _).mp hwindow) m
  have hclosed := h.closed m q (List.mem_of_getElem? hj) hdrained p (List.mem_of_getElem? hi)
  rw [hclosed.2] at hbody
  cases hbody

/-- In every run in which no thread is between its test and a mutex when a loop gets that mutex, the
loops keep the protected parts empty until the counter is lowered. -/
theorem drained_excludes {n : Nat} {as : List Label}
    (h : Transition.Meets step Guard (.initial n) as) :
    Transition.Always step Excluded (.initial n) as :=
  Transition.Always.of_meets (fun _ => DrainInv.excluded) (fun _ _ _ h hs hg => h.step hs hg)
    (.initial n) h

/--
Thread 0 has passed its test in `ios_fork` when the counter is raised, but takes `pid_mtx` before
the loop does. Thread 2 calls `chdir` too late, and waits.
-/
theorem drained_excludes_fork :
    ∃ s, Transition.run step (.initial 3)
        ([.fork 0, .advance 0, .cleanup 1 false, .chdir 2, .advance 2]
          ++ List.replicate 6 (.advance 0) ++ List.replicate 4 (.advance 1) ++ [.advance 2])
        = some s ∧
      s.threads = [.idle, .tailClose false, .chdirSpin] ∧ Excluded s := by
  have hmeets : Transition.Meets step Guard (.initial 3)
      ([.fork 0, .advance 0, .cleanup 1 false, .chdir 2, .advance 2]
        ++ List.replicate 6 (.advance 0) ++ List.replicate 4 (.advance 1) ++ [.advance 2]) := by
    repeat
      rintro _ ⟨⟩
      refine ⟨by first | trivial | (rintro (_ | _) <;> decide), ?_⟩
    trivial
  exact ⟨_, rfl, rfl, (drained_excludes hmeets).last rfl⟩

/--
Thread 0 reads the counter in `ios_fork`, thread 1 raises it and goes through both loops, and then
thread 0 takes `pid_mtx`.
-/
theorem fork_behind_drain : ∃ s, Reachable s ∧ s.threads[0]? = some .forkBody ∧
    s.threads[1]? = some (.tailClose false) ∧ ¬Excluded s := by
  have hrun : Transition.run step (.initial 2) [.fork 0, .advance 0, .cleanup 1 false, .advance 1,
      .advance 1, .advance 1, .advance 1, .advance 0] = some _ := rfl
  refine ⟨_, Transition.Reachable.of_run (.start ⟨2, rfl⟩) hrun, rfl, rfl, fun h => ?_⟩
  cases h 0 1 _ _ .pid rfl rfl (by decide) rfl

end IosSystem.Pid.Locks
