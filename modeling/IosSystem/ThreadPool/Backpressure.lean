import IosSystem.ThreadPool.Order
import IosSystem.ThreadPool.Shutdown

/-!
# Who is woken when there is room in a queue

A caller of `ios_thread_pool_submit` that finds its queue full sleeps on `queue_not_full`. There is
one such condition for the four queues, and `dequeue_work` signals it once for each item. The signal
wakes one of the sleepers, whichever queue it waits for.

In `Workers` a sleeper may wake up at any time. Here one of the sleepers is woken in the step in
which `dequeue_work` takes an item. All else is as in `Workers` (`signalStep_runs`). There is no
shutdown.
-/

namespace IosSystem.ThreadPool

open List Function Threads Transition Option

/-! ## The signal -/

def Caller.sleeps : Caller → Option Priority
  | .submitAsleep _ p => some p
  | _ => none

/-- `pthread_cond_signal(&pool->queue_not_full)`: one sleeper is woken, if there is one. -/
def State.signal (s : State) (woken : Nat) : Option State :=
  if ∀ c ∈ s.callers, c.sleeps = none then some s
  else
    match s.callers[woken]? with
    | some (.submitAsleep item p) => some (s.call woken (.submitLock item p true))
    | _ => none

/-- The worker is about to call `dequeue_work`, and gets an item. -/
def State.takes (s : State) (i : Nat) : Bool :=
  s.workers[i]? = some .dequeue ∧ (dequeueWork s.queues).1.isSome

structure Signal where
  label : Label
  woken : Nat

/-- `pthread_cond_signal` wakes one caller, or nobody. -/
def signalStep (s : State) (a : Signal) : Option State :=
  match a.label with
  | .shutdown _ => none
  | .worker i =>
    if s.takes i then (step s (.worker i)).bind (State.signal · a.woken) else step s (.worker i)
  | l => step s l

/-- Who sleeps waits for a full queue. -/
def OnlyFullAsleep (s : State) : Prop :=
  ∀ c ∈ s.callers, ∀ p, c.sleeps = some p →
    0 < (s.queues p).count ∧ (s.queues p).count = (s.queues p).capacity

/-- The queue from which `dequeue_work` takes an item. -/
def served (qs : Queues) : Option Priority :=
  dequeueOrder.find? fun p => 0 < (qs p).count

/--
Nobody waits for a queue without any room, and when `dequeue_work` takes an item from a queue,
nobody sleeps for this queue but the one who is woken.
-/
def NobodyLeft (s : State) (a : Signal) : Prop :=
  match a.label with
  | .caller i _ => ∀ item p, s.callers[i]? = some (.submitWait item p) → 0 < (s.queues p).capacity
  | .worker i => s.takes i = true →
    ∀ p, served s.queues = some p → ∀ j, j ≠ a.woken → ∀ c, s.callers[j]? = some c →
      c.sleeps ≠ some p
  | _ => True

/-! ## Signals and runs of the pool -/

variable {woken i : Nat} {a : Signal} {p : Priority} {c : Caller} {s s' : State}

theorem signal_cases (h : s.signal woken = some s') :
    ((∀ c ∈ s.callers, c.sleeps = none) ∧ s' = s) ∨
      ∃ item p, s.callers[woken]? = some (.submitAsleep item p) ∧
        s' = s.call woken (.submitLock item p true) := by
  unfold State.signal at h
  split at h
  · next hnone => exact .inl ⟨hnone, (some.inj h).symm⟩
  · split at h
    · next item p hi => exact .inr ⟨item, p, hi, (some.inj h).symm⟩
    · cases h

theorem signalStep_runs (h : signalStep s a = some s') : ∃ labels, run step s labels = some s' := by
  have hone : ∀ l, step s l = some s' → ∃ labels, run step s labels = some s' := by
    intro l hl
    exact ⟨[l], by simp only [run, hl]⟩
  unfold signalStep at h
  split at h
  · cases h
  · next i _ =>
    split at h
    · obtain ⟨s1, hs1, hsig⟩ := bind_eq_some_iff.1 h
      rcases signal_cases hsig with ⟨-, rfl⟩ | ⟨item, p, hi, rfl⟩
      · exact hone _ hs1
      · refine ⟨[.worker i, .caller a.woken true], ?_⟩
        have hs2 : step s1 (.caller a.woken true) =
          some (s1.call a.woken (.submitLock item p true)) := by
          simp [step, hi, callerStep]
        simp [run, hs1, hs2]
    · exact hone _ h
  · exact hone _ h

/-! ## The queue that is served -/

theorem dequeueFrom_eq_find (qs : Queues) (ps : List Priority) :
    (∃ p, ∃ hpos : 0 < (qs p).count, ps.find? (fun p => 0 < (qs p).count) = some p ∧
      dequeueFrom qs ps = (((qs p).dequeue hpos).1, update qs p ((qs p).dequeue hpos).2)) ∨
    (ps.find? (fun p => 0 < (qs p).count) = none ∧ dequeueFrom qs ps = (none, qs)) := by
  induction ps with
  | nil => exact .inr ⟨rfl, rfl⟩
  | cons q ps ih =>
    rw [dequeueFrom, find?_cons]
    by_cases hq : 0 < (qs q).count
    · refine .inl ⟨q, hq, ?_, dif_pos hq⟩
      simp [hq]
    · rw [dif_neg hq]
      simpa only [hq, decide_false] using ih

theorem dequeueWork_of_served {qs : Queues} (h : served qs = some p) :
    ∃ hpos : 0 < (qs p).count, (dequeueWork qs).2 = update qs p ((qs p).dequeue hpos).2 := by
  rcases dequeueFrom_eq_find qs dequeueOrder with ⟨q, hpos, hfind, heq⟩ | ⟨hfind, -⟩
  · obtain rfl : q = p := some.inj (hfind.symm.trans h)
    exact ⟨hpos, congrArg Prod.snd heq⟩
  · cases hfind.symm.trans h

theorem dequeueWork_cases {qs : Queues} (hf : ∀ p, (qs p).Filled) :
    ((dequeueWork qs).1.isSome = true ∧ ∃ p, served qs = some p) ∨ dequeueWork qs = (none, qs) := by
  rcases dequeueFrom_eq_find qs dequeueOrder with ⟨p, hpos, hfind, heq⟩ | ⟨-, heq⟩
  · obtain ⟨item, hitem, -⟩ := (hf p).dequeue hpos
    refine .inl ⟨?_, p, hfind⟩
    have hfst : (dequeueWork qs).1 = some item := (congrArg Prod.fst heq).trans hitem
    rw [hfst]
    rfl
  · exact .inr heq

/-! ## What a step can do to the queues and the sleepers -/

structure Quiet (s s' : State) : Prop where
  length : s'.callers.length = s.callers.length
  stopping : s'.stopping = s.stopping
  stops : ∀ c ∈ s'.callers, c.stops = true → c ∈ s.callers
  sleeps : ∀ c ∈ s'.callers, c.sleeps ≠ none → c ∈ s.callers

/-- What a step does to the queues and to those asleep. -/
inductive QueueEffect (s : State) (l : Label) : State → Prop where
  | quiet {s' : State} : s'.queues = s.queues → Quiet s s' → QueueEffect s l s'
  | sleep {i item : Nat} {p : Priority} {calloc : Bool} : l = .caller i calloc →
      s.callers[i]? = some (.submitWait item p) → (s.queues p).capacity ≤ (s.queues p).count →
      QueueEffect s l ({ s with locked := false }.call i (.submitAsleep item p))
  | enqueue {s' : State} {item : Nat} {p : Priority} :
      enqueueWork s.queues item p = some s'.queues → Quiet s s' → QueueEffect s l s'
  | dequeue {s' : State} {i : Nat} : l = .worker i → s.takes i = true →
      s'.queues = (dequeueWork s.queues).2 → s'.callers = s.callers → s'.stopping = s.stopping →
      QueueEffect s l s'

theorem Quiet.of_eq (hstop : s'.stopping = s.stopping) (hc : s'.callers = s.callers) : Quiet s s' :=
  ⟨by rw [hc], hstop, fun _ h _ => hc ▸ h, fun _ h _ => hc ▸ h⟩

theorem Quiet.of_set (hstop : s'.stopping = s.stopping) (hc : s'.callers = s.callers.set i c)
    (h1 : c.stops = false) (h2 : c.sleeps = none) : Quiet s s' := by
  refine ⟨by rw [hc, length_set], hstop, fun d hd hd' => ?_, fun d hd hd' => ?_⟩ <;>
    rw [hc] at hd <;>
    rcases mem_or_eq_of_mem_set hd with hd | rfl
  · exact hd
  · rw [h1] at hd'
    cases hd'
  · exact hd
  · exact absurd h2 hd'

theorem Quiet.publish (s : State) (item : Nat) (f : Item → Item) : Quiet s (s.publish item f) := by
  refine ⟨length_map _, rfl, fun c hc hstop => ?_, fun c hc hsleep => ?_⟩ <;>
    obtain ⟨d, hd, rfl⟩ := mem_map.1 hc
  · cases d <;> first | exact hd | cases hstop | skip
    simp only [Caller.wakeItem] at hstop
    split at hstop <;> cases hstop
  · cases d <;> first | exact hd | exact absurd rfl hsleep | skip
    simp only [Caller.wakeItem] at hsleep
    split at hsleep <;> exact absurd rfl hsleep

theorem workerStep_queueEffect {w : Worker} (hf : ∀ p, (s.queues p).Filled)
    (hi : s.workers[i]? = some w) (hs : workerStep s i w = some s') :
    QueueEffect s (.worker i) s' := by
  cases w with
  | lock =>
    simp only [workerStep] at hs
    split at hs <;> cases hs
    exact .quiet rfl (.of_eq rfl rfl)
  | dequeue =>
    simp only [workerStep] at hs
    split at hs <;> cases hs
    · next item hitem =>
      refine .dequeue rfl ?_ rfl rfl rfl
      simp [State.takes, hi, hitem]
    · next hitem =>
      refine .quiet ?_ (.of_eq rfl rfl)
      rcases dequeueWork_cases hf with ⟨hsome, -⟩ | heq
      · rw [hitem] at hsome
        cases hsome
      · exact congrArg Prod.snd heq
  | test | asleep | leave | unlock _ | execute _ | run _ | finish _ =>
    cases hs
    exact .quiet rfl (.of_eq rfl rfl)
  | complete item =>
    cases hs
    have hpub := Quiet.publish s item Item.complete
    exact .quiet rfl ⟨hpub.length, hpub.stopping, hpub.stops, hpub.sleeps⟩
  | exited => cases hs

structure State.Open (s : State) : Prop where
  stopping : s.stopping = false
  stops : ∀ c ∈ s.callers, c.stops = false

/-- The steps of the callers. -/
theorem callerStep_queueEffect {calloc : Bool} (hopen : s.Open) (hi : s.callers[i]? = some c)
    (hs : callerStep s i calloc c = some s') : QueueEffect s (.caller i calloc) s' := by
  have hstops := hopen.stops c (mem_of_getElem? hi)
  cases c with
  | idle => cases hs
  | shutdown | shutdownNotify | join => cases hstops
  | submit p blocking =>
    cases hs
    exact .quiet rfl (.of_set rfl rfl (by split <;> rfl) (by split <;> rfl))
  | create p blocking =>
    simp only [callerStep] at hs
    split at hs <;> cases hs <;> exact .quiet rfl (.of_set rfl rfl rfl rfl)
  | submitLock item p blocking =>
    simp only [callerStep] at hs
    split at hs <;> cases hs
    exact .quiet rfl (.of_set rfl rfl (by split <;> rfl) (by split <;> rfl))
  | submitWait item p =>
    simp only [callerStep] at hs
    split at hs <;> cases hs
    · next hfull => exact .sleep rfl hi hfull.1
    · exact .quiet rfl (.of_set rfl rfl rfl rfl)
  | submitAsleep item p =>
    cases hs
    exact .quiet rfl (.of_set rfl rfl rfl rfl)
  | submitTest item p =>
    simp only [callerStep] at hs
    split at hs <;> cases hs <;> exact .quiet rfl (.of_set rfl rfl rfl rfl)
  | enqueue item p =>
    simp only [callerStep] at hs
    split at hs <;> cases hs
    · next queues hq => exact .enqueue hq (.of_set rfl rfl rfl rfl)
    · exact .quiet rfl (.of_set rfl rfl rfl rfl)
  | cancel item =>
    simp only [callerStep] at hs
    split at hs <;> cases hs <;> exact .quiet rfl (.of_set rfl rfl rfl rfl)
  | cancelNotify item =>
    cases hs
    have hpub := Quiet.publish s item id
    have hset : Quiet (s.publish item id) ((s.publish item id).call i .idle) :=
      .of_set rfl rfl rfl rfl
    exact .quiet rfl ⟨hset.length.trans hpub.length, rfl, fun c hc h =>
      hpub.stops c (hset.stops c hc h) h,
      fun c hc h => hpub.sleeps c (hset.sleeps c hc h) h⟩
  | wait item =>
    simp only [callerStep] at hs
    split at hs <;> cases hs <;> exact .quiet rfl (.of_set rfl rfl rfl rfl)
  | waitAsleep item =>
    cases hs
    exact .quiet rfl (.of_set rfl rfl rfl rfl)

theorem step_queueEffect {l : Label} (hf : ∀ p, (s.queues p).Filled) (hopen : s.Open)
    (hl : ∀ i, l ≠ .shutdown i) (hs : step s l = some s') : QueueEffect s l s' := by
  cases l with
  | submit i p blocking =>
    simp only [step] at hs
    split at hs <;> cases hs
    exact .quiet rfl (.of_set rfl rfl rfl rfl)
  | cancel i item | wait i item =>
    simp only [step] at hs
    split at hs <;> cases hs
    exact .quiet rfl (.of_set rfl rfl rfl rfl)
  | shutdown i => exact absurd rfl (hl i)
  | caller i calloc =>
    obtain ⟨c, hi, hc⟩ := bind_eq_some_iff.1 hs
    exact callerStep_queueEffect hopen hi hc
  | worker i =>
    obtain ⟨w, hi, hw⟩ := bind_eq_some_iff.1 hs
    exact workerStep_queueEffect hf hi hw
  | workComplete i =>
    simp only [step] at hs
    split at hs
    · next item hi =>
      split at hs <;> cases hs
      · exact .quiet rfl (.publish s item Item.complete)
      · exact .quiet rfl (.of_eq rfl rfl)
    · cases hs

/-! ## The invariant -/

/-- The invariant of the runs with single signals. -/
structure Settled (caps : Priority → Nat) (s : State) : Prop where
  queues : Represented caps s.queues
  opened : s.Open
  asleep : OnlyFullAsleep s

variable {caps : Priority → Nat} {s s' : State}

theorem Quiet.opened (h : Quiet s s') (hopen : s.Open) : s'.Open := by
  refine ⟨h.stopping.trans hopen.stopping, fun c hc => ?_⟩
  by_contra hstop
  rw [Bool.not_eq_false] at hstop
  rw [hopen.stops c (h.stops c hc hstop)] at hstop
  cases hstop

theorem Quiet.mem_sleeps (h : Quiet s s') (hc : c ∈ s'.callers)
    (hp : c.sleeps = some p) : c ∈ s.callers :=
  h.sleeps c hc (by simp [hp])

theorem Settled.quiet (h : Settled caps s) (hq : s'.queues = s.queues) (hquiet : Quiet s s') :
    Settled caps s' := by
  refine ⟨?_, hquiet.opened h.opened, fun c hc p hp => ?_⟩
  · rw [hq]
    exact h.queues
  · rw [hq]
    exact h.asleep c (hquiet.mem_sleeps hc hp) p hp

variable {item : Nat}

theorem Settled.sleep (h : Settled caps s) (hfull : (s.queues p).capacity ≤ (s.queues p).count)
    (hpos : 0 < (s.queues p).capacity) :
    Settled caps ({ s with locked := false }.call i (.submitAsleep item p)) := by
  refine ⟨h.queues, ⟨h.opened.stopping, forall_mem_set h.opened.stops rfl⟩, ?_⟩
  refine forall_mem_set h.asleep ?_
  rintro q ⟨⟩
  have hfits := (s.queues p).fits
  show 0 < (s.queues p).count ∧ (s.queues p).count = (s.queues p).capacity
  omega

theorem Settled.enqueue (h : Settled caps s) (hq : enqueueWork s.queues item p = some s'.queues)
    (hquiet : Quiet s s') : Settled caps s' := by
  refine ⟨(h.queues.enqueueWork item p).2 _ hq, hquiet.opened h.opened, fun c hc p' hp => ?_⟩
  have hold := h.asleep c (hquiet.mem_sleeps hc hp) p' hp
  obtain ⟨q, -, hqs⟩ := map_eq_some_iff.1 hq
  by_cases hpp : p' = p
  · subst hpp
    rw [(enqueueWork_eq_none_iff s.queues item p').2 hold.2] at hq
    cases hq
  · rw [← hqs, update_of_ne hpp]
    exact hold

theorem mem_sleeps_signal (h : s.signal woken = some s') (hc : c ∈ s'.callers)
    (hp : c.sleeps = some p) : ∃ j, j ≠ woken ∧ s.callers[j]? = some c := by
  rcases signal_cases h with ⟨hnone, rfl⟩ | ⟨item, q, hi, rfl⟩
  · rw [hnone c hc] at hp
    cases hp
  · obtain ⟨j, hj⟩ := mem_iff_getElem?.1 hc
    rcases getElem?_set_cases hj with ⟨-, rfl⟩ | ⟨hne, hj⟩
    · cases hp
    · exact ⟨j, hne, hj⟩

theorem signal_fields (h : s.signal woken = some s') :
    s'.queues = s.queues ∧ (s.Open → s'.Open) := by
  rcases signal_cases h with ⟨-, rfl⟩ | ⟨item, q, -, rfl⟩
  · exact ⟨rfl, id⟩
  · exact ⟨rfl, fun hopen => ⟨hopen.stopping, forall_mem_set hopen.stops rfl⟩⟩

section

variable (h : Settled caps s)
include h

theorem signalStep_cases (hs : signalStep s a = some s') :
    (QueueEffect s a.label s' ∧ ∀ i, a.label = .worker i → s.takes i = false) ∨
      ∃ (i : Nat) (s1 : State), a.label = .worker i ∧ s.takes i = true ∧
      s1.queues = (dequeueWork s.queues).2 ∧
        s1.callers = s.callers ∧ s1.stopping = s.stopping ∧ s1.signal a.woken = some s' := by
  have heffect : ∀ {l s1}, (∀ i, l ≠ .shutdown i) → step s l = some s1 → QueueEffect s l s1 :=
    fun hl hs1 => step_queueEffect h.queues.filled h.opened hl hs1
  unfold signalStep at hs
  split at hs
  · cases hs
  · next i hl =>
    rw [hl]
    split at hs
    · next htakes =>
      obtain ⟨s1, hs1, hsig⟩ := bind_eq_some_iff.1 hs
      obtain ⟨hi, hsome⟩ := of_decide_eq_true htakes
      simp only [step, hi, bind_some, workerStep] at hs1
      obtain ⟨item, hitem⟩ := isSome_iff_exists.1 hsome
      rw [hitem] at hs1
      cases hs1
      exact .inr ⟨i, ({ s with queues := (dequeueWork s.queues).2 }.work i (.unlock item)), rfl,
        htakes, rfl, rfl,
        rfl, hsig⟩
    · next htakes =>
      refine .inl ⟨heffect (by simp) hs, ?_⟩
      simpa using htakes
  · next l hshut hwork =>
    exact .inl ⟨heffect (fun i hl => hshut i hl) hs, fun i hl => absurd hl (hwork i)⟩

theorem Settled.step (hs : signalStep s a = some s') (hg : NobodyLeft s a) : Settled caps s' := by
  rcases signalStep_cases h hs with ⟨heffect, hnot⟩ | ⟨i, s1, hl, htakes, hqueues, hcallers,
    hstop, hsig⟩
  · cases heffect with
    | quiet hq hquiet => exact h.quiet hq hquiet
    | sleep hl hi hfull =>
      rw [NobodyLeft, hl] at hg
      exact h.sleep hfull (hg _ _ hi)
    | enqueue hq hquiet => exact h.enqueue hq hquiet
    | dequeue hl htakes =>
      rw [hnot _ hl] at htakes
      cases htakes
  · obtain ⟨hsame, hopen⟩ := signal_fields hsig
    have hopen1 : s1.Open := ⟨hstop.trans h.opened.stopping, hcallers ▸ h.opened.stops⟩
    have hquiet : s'.queues = (dequeueWork s.queues).2 := hsame.trans hqueues
    refine ⟨?_, hopen hopen1, fun c hc p' hp => ?_⟩
    · rw [hquiet]
      exact (h.queues.dequeueFrom dequeueOrder).2
    · obtain ⟨j, hj, hc⟩ := mem_sleeps_signal hsig hc hp
      rw [hcallers] at hc
      have hold := h.asleep c (mem_of_getElem? hc) p' hp
      rcases dequeueWork_cases h.queues.filled with ⟨-, p, hserved⟩ | heq
      · rw [NobodyLeft, hl] at hg
        have hne : p' ≠ p := by
          rintro rfl
          exact hg htakes p' hserved j hj c hc hp
        obtain ⟨hpos, heq⟩ := dequeueWork_of_served hserved
        rw [hquiet, heq, update_of_ne hne]
        exact hold
      · rw [hquiet, heq]
        exact hold

theorem Settled.lose_wait {calloc : Bool} (hi : s.callers[i]? = some (.submitWait item p))
    (hcap : ¬0 < (s.queues p).capacity) (hs : signalStep s ⟨.caller i calloc, woken⟩ = some s') :
    ¬OnlyFullAsleep s' := by
  have hfull : (s.queues p).capacity ≤ (s.queues p).count ∧ s.stopping = false :=
    ⟨by omega, h.opened.stopping⟩
  simp only [signalStep, ThreadPool.step, hi, bind_some, callerStep, if_pos hfull] at hs
  cases hs
  intro hall
  have hpos : 0 < (s.queues p).count := (hall _ (mem_set_self hi _) p rfl).1
  have hfits := (s.queues p).fits
  omega

theorem Settled.lose_take {j : Nat} (htakes : s.takes i = true) (hserved : served s.queues = some p)
    (hj : j ≠ woken) (hc : s.callers[j]? = some c) (hp : c.sleeps = some p)
    (hs : signalStep s ⟨.worker i, woken⟩ = some s') : ¬OnlyFullAsleep s' := by
  intro hall
  rcases signalStep_cases h hs with ⟨-, hnot⟩ | ⟨i', s1, -, -, hqueues, hcallers, -, hsig⟩
  · rw [hnot i rfl] at htakes
    cases htakes
  obtain ⟨hpos, heq⟩ := dequeueWork_of_served hserved
  have hmem : c ∈ s'.callers := by
    rcases signal_cases hsig with ⟨-, rfl⟩ | ⟨item, q, -, rfl⟩
    · rw [hcallers]
      exact mem_of_getElem? hc
    · refine mem_of_getElem? (getElem?_set_of_ne hj ?_ _)
      rw [hcallers]
      exact hc
  have hfull := (hall c hmem p hp).2
  rw [(signal_fields hsig).1, hqueues, heq, update_self] at hfull
  have hless : (s.queues p).count - 1 = (s.queues p).capacity := hfull
  have hfits := (s.queues p).fits
  omega

theorem Settled.lose (hs : signalStep s a = some s') (hg : ¬NobodyLeft s a) :
    ¬OnlyFullAsleep s' := by
  obtain ⟨l, woken⟩ := a
  cases l with
  | caller i calloc =>
    simp only [NobodyLeft, not_forall] at hg
    obtain ⟨item, p, hi, hcap⟩ := hg
    exact h.lose_wait hi hcap hs
  | worker i =>
    simp only [NobodyLeft, not_forall, not_not] at hg
    obtain ⟨htakes, p, hserved, j, hj, c, hc, hp⟩ := hg
    exact h.lose_take htakes hserved hj hc hp hs
  | _ => exact absurd trivial hg

end

/-! ## Results -/

theorem Settled.initial (numThreads maxQueueSize n : Nat) :
    Settled (capacity maxQueueSize) (State.initial numThreads maxQueueSize n) := by
  refine ⟨⟨fun p => .empty _, fun p => rfl⟩, ⟨rfl, fun c hc => ?_⟩, fun c hc p hp => ?_⟩ <;>
    rw [eq_of_mem_replicate hc] at *
  · rfl
  · cases hp

/--
In every run without a shutdown, whoever sleeps in a submit sleeps for a queue that is full and has
an item, in every state, just if in no step somebody is left.
-/
theorem only_full_asleep_iff (numThreads maxQueueSize n : Nat) (signals : List Signal) :
    Transition.Always signalStep OnlyFullAsleep (State.initial numThreads maxQueueSize n) signals ↔
      Transition.Meets signalStep NobodyLeft (State.initial numThreads maxQueueSize n) signals :=
  always_iff_meets (fun _ h => h.asleep) (fun _ _ _ h hs hg => h.step hs hg)
    (fun _ _ _ h hs hg => h.lose hs hg) (Settled.initial numThreads maxQueueSize n) signals

/-- Caller `i` submits, and takes `steps` steps. -/
def submitting (i : Nat) (p : Priority) (steps : Nat) : List Signal :=
  ⟨.submit i p true, 0⟩ :: replicate steps ⟨.caller i true, 0⟩

/--
An urgent item and one of low priority are in their queues, and for each of these a caller sleeps.
The worker takes the urgent item and wakes the other caller, which goes back to sleep.
-/
def wrongCallerWoken : List Signal :=
  flatten [submitting 0 .urgent 6, submitting 0 .low 6, submitting 0 .low 4, submitting 1 .urgent 4,
    replicate 4 ⟨.worker 0, 0⟩, replicate 2 ⟨.caller 0 true, 0⟩]

/--
A caller sleeps for a queue that has no room at all, with the queue size 1. With the queue size 8,
an urgent caller sleeps on while its queue is empty.
-/
theorem asleep_with_room :
    (∃ s, Transition.run signalStep (State.initial 1 1 1) (submitting 0 .normal 4) = some s ∧
      s.callers = [.submitAsleep 0 .normal] ∧ (s.queues .normal).count = 0 ∧
      (s.queues .normal).capacity = 0) ∧
    ∃ s, Transition.run signalStep (State.initial 1 8 2) wrongCallerWoken = some s ∧
      s.callers = [.submitAsleep 2 .low, .submitAsleep 3 .urgent] ∧ (s.queues .urgent).count = 0 ∧
      (s.queues .urgent).capacity = 1 :=
  ⟨⟨_, rfl, rfl, rfl, rfl⟩, ⟨_, rfl, rfl, rfl, rfl⟩⟩

end IosSystem.ThreadPool
