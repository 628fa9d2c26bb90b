import IosSystem.ThreadPool.Completion

/-!
# Draining the thread pool

`ios_thread_pool_drain` looks at the queues and at `active_workers`, one after the other. A worker
that has dequeued an item and has not counted itself yet is in neither, and so is one that is no
longer counted and has not published its item or invoked the callback (`Place.unseen`).
-/

namespace IosSystem.ThreadPool.Lifecycle

open List Threads

/--
When `ios_thread_pool_drain` is about to return 0, the items that had been handed out are finished,
and their callbacks have been invoked.
-/
def Drained (s : State) : Prop :=
  ∀ due, .drained due ∈ s.threads → ∀ c ∈ due,
    ((s.items c).state = .completed ∨ (s.items c).state = .cancelled) ∧
      ((s.items c).wanted.callback.isSome = true → (s.items c).invocations ≠ [])

/-- The item of a worker that `active_workers` does not count. -/
def Place.unseen : Place → Option Nat
  | .claimed item | .complete item _ | .test item _ | .load item _ | .invoke item _ => some item
  | _ => none

/-- The drain looks when no worker is between the queue and the counter. -/
def Overseen (s : State) : Label → Prop
  | .advance i _ =>
    match s.threads[i]? with
    | some (.drainActive due 0) => s.activeWorkers = 0 →
        ∀ p ∈ s.threads, ∀ c ∈ due, p.unseen ≠ some c
    | _ => True
  | _ => True

/-- The items of a drain that takes its last look. -/
def lastLook (s : State) : Label → Option (List Nat)
  | .advance i _ =>
    match s.threads[i]? with
    | some (.drainActive due 0) => some due
    | _ => none
  | _ => none

theorem overseen_iff (s : State) (l : Label) :
    (∀ due ∈ (lastLook s l).toList,
      s.activeWorkers ≠ 0 ∨ ∀ p ∈ s.threads, ∀ c ∈ due, p.unseen ≠ some c) ↔ Overseen s l := by
  unfold Overseen lastLook
  split
  · split
    · simp only [Option.toList_some, forall_mem_singleton]
      exact imp_iff_not_or.symm
    · simp
  · simp

instance (s : State) (l : Label) : Decidable (Overseen s l) := decidable_of_iff _ (overseen_iff s l)

def Place.active : Place → Bool
  | .execute _ | .run _ | .ran _ _ => true
  | _ => false

/-- What a drain has established so far. -/
def Place.Waits (s : State) : Place → Prop
  | .drainCount due => due ⊆ s.handed
  | .drainActive due totalQueued => due ⊆ s.handed ∧
      (totalQueued = 0 → ∀ c ∈ due, queued s.queues c = 0)
  | .drained due => ∀ c ∈ due, 0 < (s.items c).served
  | _ => True

/-- The counter counts the active workers, and the drains are right so far. -/
structure Draining (s : State) : Prop where
  sound : Sound s
  active : s.activeWorkers = s.threads.countP Place.active
  waits : ∀ p ∈ s.threads, p.Waits s

theorem Draining.drained {s : State} (h : Draining s) : Drained s := by
  intro due hdue c hc
  obtain ⟨hstate, r, -, hcalls⟩ := (h.sound.items c).served (h.waits _ hdue c hc)
  refine ⟨.inl hstate, fun hcallback => ?_⟩
  obtain ⟨f, hf⟩ := Option.isSome_iff_exists.1 hcallback
  simp [hcalls, Completion.calls, hf]

/-- A thread goes from `p` to `q`. -/
structure Goes (s s' : State) (i : Nat) (p q : Place) : Prop where
  threads : s'.threads = s.threads.set i q
  handed : s.handed ⊆ s'.handed
  served : ∀ c, (s.items c).served ≤ (s'.items c).served
  queued : ∀ c, queued s'.queues c ≤ queued s.queues c ∨ p.submits = some c
  active : s'.activeWorkers + (if p.active then 1 else 0) =
    s.activeWorkers + if q.active then 1 else 0

variable {s s' : State} {i : Nat} {p q : Place}

theorem Place.Waits.mono {r : Place} (h : r.Waits s) (hhanded : s.handed ⊆ s'.handed)
    (hserved : ∀ c, (s.items c).served ≤ (s'.items c).served)
    (hqueued : ∀ c ∈ s.handed, queued s'.queues c ≤ queued s.queues c) : r.Waits s' := by
  cases r with
  | drainCount due => exact fun c hc => hhanded (h hc)
  | drainActive due n =>
    refine ⟨fun c hc => hhanded (h.1 hc), fun hn c hc => ?_⟩
    exact Nat.le_zero.1 (h.2 hn c hc ▸ hqueued c (h.1 hc))
  | drained due => exact fun c hc => Nat.lt_of_lt_of_le (h c hc) (hserved c)
  | _ => trivial

theorem Draining.move (h : Draining s) (hs : Sound s') (hi : s.threads[i]? = some p)
    (hgoes : Goes s s' i p q)
    (hq : q.Waits s') : Draining s' := by
  refine ⟨hs, ?_, ?_⟩
  · have hset := countP_set_add hi q Place.active
    have hactive := hgoes.active
    rw [hgoes.threads]
    have := h.active
    omega
  · rw [hgoes.threads]
    refine forall_mem_set (fun r hr => (h.waits r hr).mono hgoes.handed hgoes.served
      fun c hc => ?_) hq
    -- an item that was handed out is not enqueued again
    refine (hgoes.queued c).resolve_right fun hsub => ?_
    have := holders_pos hi hsub
    have := (h.sound.accounts.account c).once
    have := count_pos_iff.2 hc
    omega

/-! ## Steps -/

theorem le_served_setItem {item : Nat} {x : Item}
    (hx : (s.items item).served ≤ x.served) (c : Nat) :
    (s.items c).served ≤ ((s.setItem item x).items c).served := by
  unfold State.setItem
  by_cases hc : c = item
  · subst hc
    simpa using hx
  · simp [Function.update_of_ne hc]

theorem Draining.goto (h : Draining s) (hs : Sound s') (hi : s.threads[i]? = some p)
    (hthreads : s'.threads = s.threads.set i q) (hhanded : s.handed ⊆ s'.handed)
    (hserved : ∀ c, (s.items c).served ≤ (s'.items c).served) (hqueues : s'.queues = s.queues)
    (hworkers : s'.activeWorkers = s.activeWorkers) (hactive : q.active = p.active)
    (hq : q.Waits s') :
    Draining s' := by
  refine h.move hs hi ⟨hthreads, hhanded, hserved, fun c => .inl ?_, ?_⟩ hq
  · rw [hqueues]
  · rw [hworkers, hactive]

theorem Draining.leave (h : Draining s) (hs : Sound (s.goto i q)) (hi : s.threads[i]? = some p)
    (hactive : q.active = p.active) (hq : q.Waits (s.goto i q)) : Draining (s.goto i q) :=
  h.goto hs hi rfl (List.Subset.refl _) (fun _ => Nat.le_refl _) rfl rfl hactive hq

theorem Draining.set (h : Draining s) {item : Nat} {x : Item}
    (hs : Sound ((s.setItem item x).goto i q))
    (hi : s.threads[i]? = some p) (hx : (s.items item).served ≤ x.served)
    (hactive : q.active = p.active)
    (hq : q.Waits ((s.setItem item x).goto i q)) : Draining ((s.setItem item x).goto i q) :=
  h.goto hs hi rfl (List.Subset.refl _) (le_served_setItem hx) rfl rfl hactive hq

theorem queued_eq_zero {qs : Queues} (h : totalQueued qs = 0) (c : Nat) : queued qs c = 0 := by
  have hempty : ∀ p, (qs p).count = 0 → (qs p).contents = [] := by
    intro p hp
    simp [Queue.contents, hp]
  unfold totalQueued at h
  unfold queued
  rw [hempty .urgent (by omega), hempty .high (by omega), hempty .normal (by omega),
    hempty .low (by omega)]
  rfl

theorem Draining.served_of_idle (h : Draining s) {c : Nat} (hc : c ∈ s.handed)
    (hqueued : queued s.queues c = 0)
    (hidle : s.activeWorkers = 0) (hseen : ∀ p ∈ s.threads, p.unseen ≠ some c) :
    0 < (s.items c).served := by
  have hnone : holders Place.carries s.threads c = 0 := by
    refine holders_eq_zero fun r hr hcarries => ?_
    have hactive : ¬r.active = true := by
      have hcount := h.active
      rw [hidle] at hcount
      exact countP_eq_zero.1 hcount.symm r hr
    have hunseen := hseen r hr
    cases r with
    | execute _ | run _ | ran _ _ => exact hactive rfl
    | claimed _ | complete _ _ | test _ _ | load _ _ | invoke _ _ => exact hunseen hcarries
    | _ => cases hcarries
  have haccepted := (h.sound.accounts.account c).accepted
  have hpos := count_pos_iff.2 hc
  omega

/-- A step of a worker, or of a drain. -/
theorem Draining.advance (h : Draining s) {o : Outcome} (hi : s.threads[i]? = some p)
    (hsound : Sound s')
    (hseen : Overseen s (.advance i o)) (hs : advance s i o p = some s') : Draining s' := by
  have hwaits := h.waits p (mem_of_getElem? hi)
  cases p <;> simp only [Lifecycle.advance, reduceCtorEq] at hs
  case claimed =>
    cases hs
    exact h.move hsound hi
      ⟨rfl, List.Subset.refl _, fun _ => Nat.le_refl _, fun _ => .inl (Nat.le_refl _), rfl⟩ trivial
  case ran =>
    cases hs
    refine h.move hsound hi
      ⟨rfl, List.Subset.refl _, fun _ => Nat.le_refl _, fun _ => .inl (Nat.le_refl _), ?_⟩ trivial
    have hpos : 0 < s.activeWorkers := h.active ▸ countP_pos hi rfl
    exact Nat.sub_add_cancel hpos
  case storeUserData =>
    cases hs
    exact h.goto hsound hi rfl (subset_cons_self ..) (le_served_setItem (Nat.le_refl _)) rfl
      rfl rfl trivial
  case free item w =>
    cases hs
    cases w <;> exact h.set hsound hi (Nat.le_refl _) rfl trivial
  case lock =>
    split at hs
    · cases hs
      exact h.leave hsound hi rfl trivial
    · have hqueued : ∀ c, queued (dequeueWork s.queues).2 c ≤ queued s.queues c := by
        intro c
        have := queued_dequeueWork s.queues c
        omega
      split at hs <;> cases hs <;>
        exact h.move hsound hi
          ⟨rfl, List.Subset.refl _, fun _ => Nat.le_refl _, fun c => .inl (hqueued c), rfl⟩ trivial
  case load =>
    obtain ⟨f, -, rfl⟩ := Option.map_eq_some_iff.1 hs
    exact h.leave hsound hi rfl trivial
  case create =>
    split at hs <;> cases hs
    · refine h.goto hsound hi rfl (List.Subset.refl _) (le_served_setItem ?_) rfl rfl rfl trivial
      obtain ⟨-, hknown, -, -, -, haccepted⟩ := h.sound.accounts.account s.created
      unfold owners at hknown
      omega
    · exact h.leave hsound hi rfl trivial
  case enqueue item pr k =>
    split at hs
    · cases hs
      exact h.leave hsound hi rfl trivial
    split at hs
    · cases hs
      refine h.leave hsound hi ?_ ?_ <;>
        cases k.blocking <;> trivial
    · next queues he =>
      have hqueued : ∀ c, queued queues c ≤ queued s.queues c ∨ some item = some c := by
        intro c
        rw [queued_enqueueWork he c, Option.some.injEq]
        split <;> omega
      split at hs <;> cases hs
      · exact h.move hsound hi
          ⟨rfl, List.Subset.refl _, le_served_setItem (Nat.le_refl _), hqueued, rfl⟩ trivial
      all_goals
        exact h.move hsound hi
          ⟨rfl, subset_cons_self .., le_served_setItem (Nat.le_refl _), hqueued, rfl⟩ trivial
  case release item w =>
    cases hs
    refine h.set hsound hi (Nat.le_refl _) ?_ ?_ <;>
      cases w <;> split <;> trivial
  case drainCount =>
    cases hs
    exact h.leave hsound hi rfl
      ⟨hwaits, fun h0 c _ => queued_eq_zero h0 c⟩
  case drainActive due n =>
    cases hs
    refine h.leave hsound hi (by split <;> rfl) ?_
    split
    · next hzero =>
      obtain ⟨rfl, hidle⟩ := hzero
      simp only [Overseen, hi] at hseen
      exact fun c hc => h.served_of_idle (hwaits.1 hc) (hwaits.2 rfl c hc) hidle fun r hr =>
        hseen hidle r hr c hc
    · exact hwaits.1
  -- the other places change at most an item, and `served` of it does not fall
  all_goals repeat' split at hs
  all_goals cases hs
  all_goals first
    | exact h.leave hsound hi rfl trivial
    | exact h.set hsound hi (Nat.le_refl _) rfl trivial
    | exact h.set hsound hi (Nat.le_succ _) rfl trivial

theorem Draining.step (h : Draining s) {l : Label} (hs : step s l = some s') (hturn : InTurn s l)
    (hseen : Overseen s l) : Draining s' := by
  have hsound := h.sound.step hs hturn
  cases l with
  | call i c =>
    simp only [Lifecycle.step] at hs
    split at hs
    · next hi =>
      cases c with
      | submit _ _ =>
        cases hs
        exact h.leave hsound hi rfl trivial
      | drain =>
        cases hs
        exact h.leave hsound hi rfl (List.Subset.refl _)
      | wait item | isComplete item | cancel item =>
        simp only [start] at hs
        split at hs <;> cases hs
        exact h.leave hsound hi rfl trivial
      | release item =>
        simp only [start] at hs
        split at hs <;> cases hs
        exact h.goto hsound hi rfl (List.Subset.refl _) (fun _ => Nat.le_refl _) rfl rfl rfl trivial
    · cases hs
  | advance i o =>
    obtain ⟨p, hi, hs⟩ := Option.bind_eq_some_iff.1 hs
    exact h.advance hi hsound hseen hs
  | workComplete i =>
    simp only [Lifecycle.step] at hs
    split at hs
    · next item hi =>
      split at hs <;> cases hs
      · exact h.set hsound hi (Nat.le_refl _) rfl trivial
      · exact h.leave hsound hi rfl trivial
    · cases hs
  | shutdown =>
    cases hs
    refine ⟨hsound, h.active, fun p hp => (h.waits p hp).mono (List.Subset.refl _) ?_ ?_⟩
    · exact fun _ => Nat.le_refl _
    · exact fun _ _ => Nat.le_refl _

theorem Draining.initial (numThreads maxQueueSize n : Nat) :
    Draining (.initial numThreads maxQueueSize n) := by
  refine ⟨.initial .., (countP_eq_zero.2 fun p hp => ?_).symm, fun p hp => ?_⟩
  · rcases mem_initial hp with rfl | rfl <;> exact Bool.false_ne_true
  · rcases mem_initial hp with rfl | rfl <;> trivial

/--
A drain that misses no worker, in a run in which no callback is missed, has waited for everything.
-/
theorem drain_waits {numThreads maxQueueSize n : Nat} {labels : List Label}
    (h : Transition.Meets step (fun s l => InTurn s l ∧ Overseen s l)
      (.initial numThreads maxQueueSize n)
      labels) :
    Transition.Always step Drained (.initial numThreads maxQueueSize n) labels :=
  Transition.Always.of_meets (fun _ => Draining.drained) (fun _ _ _ h hs hg => h.step hs hg.1 hg.2)
    (.initial ..) h

/-- The call comes when the worker is through. -/
theorem drain_waits_late :
    ∃ s, Transition.run step (.initial 1 8 1)
        ([.call 1 (.submit .normal (.withCallback ⟨some 1, some 2⟩))] ++ steps 5 1 ++ steps 9 0 ++
          [.call 1 .drain] ++ steps 2 1) = some s ∧
      s.threads[1]? = some (.drained [0]) ∧ Drained s := by
  have hmeets : Transition.Meets step (fun s l => InTurn s l ∧ Overseen s l) (.initial 1 8 1)
      ([.call 1 (.submit .normal (.withCallback ⟨some 1, some 2⟩))] ++ steps 5 1 ++ steps 9 0 ++
        [.call 1 .drain] ++ steps 2 1) := by
    repeat
      rintro _ ⟨⟩
      refine ⟨by decide, ?_⟩
    trivial
  exact ⟨_, rfl, rfl, (drain_waits hmeets).last rfl⟩

/--
The worker has dequeued the item and not counted itself, or is no longer counted and has not
published the item: the drain returns, and the item is pending, or executing.
-/
theorem drain_early :
    (∃ s, Transition.run step (.initial 1 8 1)
        ([.call 1 (.submit .normal .submit)] ++ steps 3 1 ++ steps 1 0 ++
          [.call 1 .drain] ++ steps 2 1)
        = some s ∧
      s.threads[1]? = some (.drained [0]) ∧ (s.items 0).state = .pending ∧ ¬Drained s) ∧
    ∃ s, Transition.run step (.initial 1 8 1)
        ([.call 1 (.submit .normal .submit)] ++ steps 3 1 ++ steps 5 0 ++
          [.call 1 .drain] ++ steps 2 1)
        = some s ∧
      s.threads[1]? = some (.drained [0]) ∧ (s.items 0).state = .executing ∧ ¬Drained s := by
  refine ⟨⟨_, rfl, rfl, rfl, fun h => ?_⟩, _, rfl, rfl, rfl, fun h => ?_⟩
  all_goals
    rcases (h [0] (List.mem_of_getElem? (i := 1) rfl) 0
      (List.mem_singleton_self 0)).1 with h | h <;> cases h

end IosSystem.ThreadPool.Lifecycle
