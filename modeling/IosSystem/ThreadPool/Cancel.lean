import IosSystem.ThreadPool.Shutdown

/-!
# Cancelled work

`ios_work_cancel` exchanges the state of a pending item for `WORK_CANCELLED` and leaves the item in
its queue. `worker_thread_main` stores `WORK_EXECUTING` into every item that it dequeues, so that a
cancelled item runs (`cancelled_runs`), unless the worker skips it (`SkipsCancelled`). That an item
runs at most once, and has the state `WORK_CANCELLED` only after a cancel, needs no condition
(`OnceOnly`).
-/

namespace IosSystem.ThreadPool

open Threads List Option Function Caller Worker

/-- What `ios_work_wait` returns when it finds the item in this state; it waits on in the others. -/
def waitResult : WorkState → Option Int
  | .completed => some 0
  | .cancelled => some (-1)
  | .pending | .executing => none

def Worker.started : Worker → Option Nat
  | .run item | .complete item => some item
  | _ => none

/-- The item is queued, or with a worker that has not run it. -/
def State.inFlight (s : State) (c : Nat) : Nat :=
  queued s.queues c + holders Worker.before s.workers c
    + holders Caller.submits s.callers c

/-! ## What a step can do -/

structure Still (s s' : State) : Prop where
  items : s'.items = s.items
  created : s.created ≤ s'.created
  inFlight : ∀ c, s'.inFlight c ≤ s.inFlight c + if s.created ≤ c ∧ c < s'.created then 1 else 0
  started : ∀ c, holders Worker.started s'.workers c
    ≤ holders Worker.started s.workers c
  sleeps : ∀ c, .waitAsleep c ∈ s'.callers →
    .waitAsleep c ∈ s.callers ∨ waitResult (s.items c).state = none
  notifies : ∀ c, .cancelNotify c ∈ s.callers →
    .cancelNotify c ∈ s'.callers ∨ .waitAsleep c ∉ s'.callers

/-- What a step does to the items. -/
inductive Effect (s : State) (l : Label) : State → Prop where
  | still {s' : State} : Still s s' → Effect s l s'
  | execute {i item : Nat} : l = .worker i → s.workers[i]? = some (.execute item) →
      Effect s l ((s.setItem item fun x => { x with state := .executing }).work i (.run item))
  | ran {i item : Nat} : s.workers[i]? = some (.run item) →
      Effect s l ((s.setItem item Item.ran).work i (.complete item))
  | complete {i item : Nat} : s.workers[i]? = some (.complete item) →
      Effect s l ((s.publish item Item.complete).work i (.finish item))
  | workComplete {i item : Nat} : s.workers[i]? = some (.run item) →
      Effect s l (s.publish item Item.complete)
  | cancel {i item : Nat} : s.callers[i]? = some (.cancel item) → (s.items item).state = .pending →
      Effect s l
        ((s.setItem item fun x => { x with state := .cancelled, wasCancelled := true }).call i
        (.cancelNotify item))

attribute [grind cases] Still

variable {i item : Nat} {w : Worker} {s s' : State} {l : Label} {c : Caller}

section

variable (s : State)

theorem Still.work (hi : s.workers[i]? = some w) (w' : Worker) (hb : w'.before = w.before)
    (hst : w'.started = none) (locked : Bool) :
    Still s ({ s with locked := locked }.work i w') where
  items := rfl
  created := Nat.le_refl _
  inFlight c := by
    show _ + holders before (s.workers.set i w') c + _ ≤ _
    rw [holders_set_of_eq hi hb]
    exact Nat.le_add_right _ _
  started c := holders_set_le hi fun h => by rw [hst] at h; cases h
  sleeps _ := .inl
  notifies _ := .inl

theorem Still.take (hi : s.workers[i]? = some .dequeue) (w' : Worker)
    (hb : w'.before = (dequeueWork s.queues).1) (hst : w'.started = none) (locked : Bool) :
    Still s ({ s with queues := (dequeueWork s.queues).2, locked := locked }.work i w') := by
  have hset := holders_set hi Worker.before w'
  have hq := queued_dequeueWork s.queues
  have hle : ∀ c, holders Worker.started (s.workers.set i w') c ≤ _ :=
    fun c => holders_set_le hi fun h => by rw [hst] at h; cases h
  constructor <;> simp only [State.work, State.inFlight] at * <;> grind

theorem Still.call (hi : s.callers[i]? = some c) (c' : Caller)
    (hsub : ∀ item, c'.submits = some item → c.submits = some item)
    (hsleep : ∀ item, c' = .waitAsleep item → waitResult (s.items item).state = none)
    (hnot : ∀ item, c ≠ .cancelNotify item) (locked stopping returned : Bool)
    (due : Option (List Nat)) :
    Still s ({ s with
      locked := locked, stopping := stopping, returned := returned, due := due }.call i c') := by
  have hle := fun item => holders_set_le hi (hsub item)
  have hmem := fun item h => mem_set_of_ne (b := c') hi h (hnot item).symm
  constructor <;> simp only [State.call, State.inFlight] <;> grind

theorem Still.create {p : Priority} {blocking : Bool}
    (hi : s.callers[i]? = some (.create p blocking)) :
    Still s ({ s with created := s.created + 1 }.call i (.submitLock s.created p blocking)) := by
  have hset := holders_set hi submits (.submitLock s.created p blocking)
  have hmem := fun c h => mem_set_of_ne (c := .cancelNotify c)
    (b := .submitLock s.created p blocking) hi h (by simp)
  constructor <;> simp only [State.call, State.inFlight, submits] at * <;> grind

theorem Still.enqueue {p : Priority} {queues : Queues} (hi : s.callers[i]? = some (.enqueue item p))
    (hq : enqueueWork s.queues item p = some queues) :
    Still s ({ s with queues := queues, locked := false, accepted := item :: s.accepted }.call i
      .idle) := by
  have hset := holders_set hi submits .idle
  have hqc := queued_enqueueWork hq
  have hmem := fun c h => mem_set_of_ne (c := .cancelNotify c) (b := .idle) hi h (by simp)
  constructor <;> simp only [State.call, State.inFlight, submits] at * <;> grind

theorem Still.cancelNotify (hi : s.callers[i]? = some (.cancelNotify item)) :
    Still s ((s.publish item id).call i .idle) := by
  have hi' : (s.callers.map (wakeItem item))[i]? = some (.cancelNotify item) := by
    simp [hi, wakeItem]
  have hset := holders_set_of_eq hi' (show idle.submits = _ from rfl)
  have hsub : ∀ c, _ = holders submits s.callers c :=
    holders_map (wakeItem_submits item)
  have hsleep : ∀ c, .waitAsleep c ∈ s.callers.map (wakeItem item) →
      c ≠ item ∧ .waitAsleep c ∈ s.callers := fun c hmem => (mem_map_wakeItem hmem).2 c rfl
  have hnot : ∀ c, .cancelNotify c ∈ s.callers → c ≠ item →
      .cancelNotify c ∈ (s.callers.map (wakeItem item)).set i .idle :=
    fun c hmem hc => mem_set_of_ne hi' (mem_map.2 ⟨_, hmem, rfl⟩) (by simpa using hc)
  constructor
  · exact update_eq_self ..
  all_goals simp only [State.call, State.publish, State.setItem, State.inFlight] at *
  all_goals grind

theorem Still.shutdownNotify (hi : s.callers[i]? = some .shutdownNotify) :
    Still s ({ s with
      workers := s.workers.map Worker.wake
      callers := s.callers.map Caller.wakeSubmit }.call i (.join 0)) := by
  have hwb : ∀ w : Worker, w.wake.before = w.before := fun w => by cases w <;> rfl
  have hws : ∀ w : Worker, w.wake.started = w.started := fun w => by cases w <;> rfl
  have hcs : ∀ c : Caller, c.wakeSubmit.submits = c.submits := fun c => by cases c <;> rfl
  have hi' : (s.callers.map wakeSubmit)[i]? = some .shutdownNotify := by
    simp [hi, wakeSubmit]
  have hset := holders_set_of_eq hi' (show (join 0).submits = _ from rfl)
  have hsleep : ∀ c, .waitAsleep c ∈ s.callers.map wakeSubmit → .waitAsleep c ∈ s.callers := by
    intro c hmem
    obtain ⟨d, hd, heq⟩ := mem_map.1 hmem
    cases d <;> cases heq
    exact hd
  have hnot : ∀ c, .cancelNotify c ∈ s.callers →
      .cancelNotify c ∈ (s.callers.map wakeSubmit).set i (.join 0) :=
    fun c hmem => mem_set_of_ne hi' (mem_map.2 ⟨_, hmem, rfl⟩) (by simp)
  constructor <;> simp only [State.call, State.inFlight, holders_map hwb,
    holders_map hws, hset, holders_map hcs] <;> grind

end

theorem workerStep_effect (hi : s.workers[i]? = some w)
    (hs : workerStep s i w = some s') : Effect s (.worker i) s' := by
  cases w <;> simp only [workerStep] at hs
  case dequeue =>
    split at hs <;> cases hs
    · next item hitem => exact .still (.take s hi (.unlock item) hitem.symm rfl s.locked)
    · next hitem => exact .still (.take s hi .asleep hitem.symm rfl false)
  all_goals repeat' split at hs
  all_goals cases hs
  all_goals first
    | exact .still (.work s hi _ (by rfl) (by rfl) _)
    | exact .execute rfl hi
    | exact .ran hi
    | exact .complete hi

theorem Still.leave (s : State) (hi : s.callers[i]? = some c)
    (hnot : ∀ item, c ≠ .cancelNotify item) (locked : Bool) :
    Still s ({ s with locked := locked }.call i .idle) :=
  .call s hi .idle (by simp [submits]) (by simp) hnot locked s.stopping s.returned s.due

theorem callerStep_effect {calloc : Bool} (hi : s.callers[i]? = some c)
    (hs : callerStep s i calloc c = some s') : Effect s (.caller i calloc) s' := by
  cases c <;> simp only [callerStep] at hs
  case enqueue =>
    split at hs <;> cases hs
    · next queues hq => exact .still (.enqueue s hi hq)
    · exact .still (.leave s hi (by simp) false)
  case cancel =>
    split at hs <;> cases hs
    · next hp => exact .cancel hi hp
    · exact .still (.leave s hi (by simp) s.locked)
  case wait item =>
    split at hs <;> cases hs
    · exact .still (.leave s hi (by simp) s.locked)
    · next hn =>
      refine .still (.call s hi (.waitAsleep item) (by simp [submits]) ?_ (by simp) ..)
      cases hst : (s.items item).state <;> simp_all [waitResult]
  all_goals repeat' split at hs
  all_goals cases hs
  all_goals first
    | exact .still (.create s hi)
    | exact .still (.cancelNotify s hi)
    | exact .still (.shutdownNotify s hi)
    | exact .still (.call s hi _ (by simp [submits]) (by simp) (by simp) ..)

theorem step_effect (hs : step s l = some s') : Effect s l s' := by
  cases l <;> simp only [step] at hs
  case caller =>
    obtain ⟨c, hi, hc⟩ := bind_eq_some_iff.1 hs
    exact callerStep_effect hi hc
  case worker =>
    obtain ⟨w, hi, hw⟩ := bind_eq_some_iff.1 hs
    exact workerStep_effect hi hw
  case workComplete =>
    split at hs
    · next item hi =>
      split at hs <;> cases hs
      · exact .workComplete hi
      · exact .still ⟨rfl, Nat.le_refl _, fun _ => Nat.le_add_right _ _, fun _ => Nat.le_refl _,
          fun _ => .inl, fun _ => .inl⟩
    · cases hs
  -- a call begins
  case submit =>
    split at hs <;> cases hs
    next hi => exact .still (.call s hi _ (by simp [submits]) (by simp) (by simp) ..)
  all_goals
    split at hs <;> cases hs
    next hi => exact .still (.call s hi.1 _ (by simp [submits]) (by simp) (by simp) ..)

/-! ## At most once -/

/--
What holds in every run: the work function is not executed twice, and only a cancel makes an item
`WORK_CANCELLED`.
-/
def OnceOnly (s : State) : Prop :=
  ∀ item, (s.items item).executed + holders Worker.before s.workers item ≤ 1 ∧
    ((s.items item).state = .cancelled → (s.items item).wasCancelled = true)

/-- Every item is in one place, or was executed once. -/
structure Tracked (s : State) : Prop where
  single : ∀ c, s.inFlight c + (s.items c).executed ≤ if c < s.created then 1 else 0
  cancelled : ∀ c, (s.items c).state = .cancelled → (s.items c).wasCancelled = true

theorem Tracked.onceOnly (h : Tracked s) : OnceOnly s := by
  intro item
  have hsingle := h.single item
  refine ⟨?_, h.cancelled item⟩
  unfold State.inFlight at hsingle
  split at hsingle <;> omega

theorem Tracked.still (h : Tracked s) (hst : Still s s') : Tracked s' := by
  refine ⟨fun c => ?_, fun c => ?_⟩
  · grind [h.single c, hst.inFlight c]
  · rw [hst.items]
    exact h.cancelled c

theorem Tracked.change (h : Tracked s) {x : Item}
    (hitems : s'.items = update s.items item x) (hcreated : s'.created = s.created)
    (hflight : ∀ c, s'.inFlight c = s.inFlight c) (hexec : x.executed = (s.items item).executed)
    (hx : x.state = .cancelled → x.wasCancelled = true) : Tracked s' := by
  refine ⟨fun c => ?_, fun c => ?_⟩ <;> rw [hitems]
  · grind [h.single c]
  · grind [h.cancelled c]

theorem Tracked.ran (h : Tracked s) (hi : s.workers[i]? = some (.run item)) :
    Tracked ((s.setItem item Item.ran).work i (.complete item)) := by
  refine ⟨fun c => ?_, fun c => ?_⟩
  · have hsingle := h.single c
    have hset := holders_set hi before (.complete item) c
    rcases eq_or_ne c item with rfl | hne <;>
      simp only [State.inFlight, State.work, State.setItem, Item.ran, before] at * <;> grind
  · have hcancelled := h.cancelled c
    simp only [State.work, State.setItem, Item.ran]
    grind

theorem inFlight_publish (s : State) (item : Nat) (f : Item → Item) (c : Nat) :
    (s.publish item f).inFlight c = s.inFlight c := by
  show _ + _ + holders submits (s.callers.map (wakeItem item)) c = _
  rw [holders_map (wakeItem_submits item)]
  rfl

theorem inFlight_work (s : State) (hi : s.workers[i]? = some w) (w' : Worker)
    (hb : w'.before = w.before) (c : Nat) : (s.work i w').inFlight c = s.inFlight c := by
  show _ + holders before (s.workers.set i w') c + _ = _
  rw [holders_set_of_eq hi hb]
  rfl

theorem Tracked.effect (h : Tracked s) (he : Effect s l s') : Tracked s' := by
  cases he with
  | still hst => exact h.still hst
  | @execute i item _ hi =>
    refine h.change rfl rfl (fun c => ?_) rfl fun hx => (by cases hx)
    exact inFlight_work (s.setItem item fun x => { x with state := .executing }) hi
      (.run item) rfl c
  | ran hi => exact h.ran hi
  | @complete i item hi =>
    refine h.change rfl rfl (fun c => ?_) rfl fun hx => (by cases hx)
    rw [inFlight_work (s.publish item Item.complete) hi (.finish item) rfl c, inFlight_publish]
  | workComplete hi =>
    exact h.change rfl rfl (inFlight_publish s _ _) rfl fun hx => (by cases hx)
  | @cancel i item hi hp =>
    refine h.change rfl rfl (fun c => ?_) rfl fun _ => rfl
    have hset := holders_set_of_eq hi (show (cancelNotify item).submits = _ from rfl) c
    show _ + _ + holders submits (s.callers.set i (.cancelNotify item)) c = _
    rw [hset]
    rfl

/-! ## What is cancelled is spared -/

/-- No worker runs an item that was cancelled meanwhile. -/
def SkipsCancelled (s : State) : Label → Prop
  | .worker i => ∀ item, s.workers[i]? = some (.execute item) → (s.items item).state ≠ .cancelled
  | _ => True

/-- What a call of `ios_work_cancel` that returns true promises: the work function is not executed,
and no worker has called it; the state of the item is `WORK_CANCELLED` from now on; `ios_work_wait`
returns -1, and nobody who called it sleeps on when the cancel has returned. -/
structure Cancelled (s : State) (item : Nat) : Prop where
  executed : (s.items item).executed = 0
  started : holders Worker.started s.workers item = 0
  state : (s.items item).state = .cancelled
  waits : waitResult (s.items item).state = some (-1)
  woken : .cancelNotify item ∉ s.callers → .waitAsleep item ∉ s.callers

/-- A cancelled item is not executed. -/
def CancelHolds (s : State) : Prop :=
  ∀ item, (s.items item).wasCancelled = true → Cancelled s item

structure Spared (s : State) : Prop where
  untouched : ∀ c, (s.items c).state = .pending ∨ (s.items c).wasCancelled = true →
    (s.items c).executed = 0 ∧ holders Worker.started s.workers c = 0
  kept : ∀ c, (s.items c).wasCancelled = true → (s.items c).state = .cancelled
  notified : ∀ c, (s.items c).state = .cancelled → .waitAsleep c ∈ s.callers →
    .cancelNotify c ∈ s.callers

theorem Spared.cancelHolds (h : Spared s) : CancelHolds s := by
  intro item hw
  obtain ⟨hexec, hstarted⟩ := h.untouched item (.inr hw)
  have hstate := h.kept item hw
  refine ⟨hexec, hstarted, hstate, ?_, fun hnot hsleep => hnot (h.notified item hstate hsleep)⟩
  rw [hstate]
  rfl

theorem Spared.of_started (h : Spared s) (hi : s.workers[i]? = some w)
    (hw : w.started = some item) :
    (s.items item).state ≠ .pending ∧ (s.items item).wasCancelled = false := by
  have hpos := holders_pos hi hw
  have hnot : ¬((s.items item).state = .pending ∨ (s.items item).wasCancelled = true) := by
    intro hor
    have := (h.untouched item hor).2
    omega
  rw [not_or, Bool.not_eq_true] at hnot
  exact hnot

theorem Spared.still (h : Spared s) (hst : Still s s') : Spared s' := by
  refine ⟨fun c => ?_, fun c => ?_, fun c => ?_⟩
  · grind [h.untouched c, hst.started c]
  · rw [hst.items]
    exact h.kept c
  · grind [h.notified c, hst.sleeps c, hst.notifies c, waitResult]

theorem Spared.change (h : Spared s) {x : Item}
    (hitems : s'.items = update s.items item x) (hx : x.wasCancelled = false)
    (hpending : x.state ≠ .pending) (hcancelled : x.state ≠ .cancelled)
    (hstarted : ∀ c, c ≠ item → holders Worker.started s'.workers c
      = holders Worker.started s.workers c)
    (hsleep : ∀ c, .waitAsleep c ∈ s'.callers → .waitAsleep c ∈ s.callers)
    (hnot : ∀ c, .cancelNotify c ∈ s.callers → .cancelNotify c ∈ s'.callers) : Spared s' := by
  refine ⟨fun c => ?_, fun c => ?_, fun c => ?_⟩ <;> rw [hitems]
  · grind [h.untouched c, hstarted c]
  · grind [h.kept c]
  · grind [h.notified c, hsleep c, hnot c]

theorem holders_started_set {workers : List Worker} {w' : Worker}
    (hi : workers[i]? = some w) (hw : w.started = none ∨ w.started = some item)
    (hw' : w'.started = none ∨ w'.started = some item) (c : Nat) (hc : c ≠ item) :
    holders Worker.started (workers.set i w') c = holders Worker.started workers c := by
  have hset := holders_set hi started w' c
  have hne : ∀ v : Worker, v.started = none ∨ v.started = some item → v.started ≠ some c := by
    rintro v (hv | hv) heq <;> rw [hv] at heq
    · cases heq
    · exact hc (some.inj heq).symm
  rwa [if_neg (hne w hw), if_neg (hne w' hw')] at hset

theorem mem_wakeItem_cancelNotify {callers : List Caller} (item : Nat) {c : Nat}
    (h : .cancelNotify c ∈ callers) : .cancelNotify c ∈ callers.map (Caller.wakeItem item) :=
  mem_map.2 ⟨_, h, rfl⟩

theorem Spared.cancel (h : Spared s)
    (hi : s.callers[i]? = some (.cancel item)) (hp : (s.items item).state = .pending) :
    Spared ((s.setItem item fun x => { x with state := .cancelled, wasCancelled := true }).call i
      (.cancelNotify item)) := by
  have hmem := fun c h => mem_set_of_ne (c := .cancelNotify c)
    (b := .cancelNotify item) hi h (by simp)
  have hself := mem_set_self hi (.cancelNotify item)
  refine ⟨fun c => ?_, fun c => ?_, fun c => ?_⟩ <;> simp only [State.call, State.setItem]
  · grind [h.untouched c]
  · grind [h.kept c]
  · grind [h.notified c]

theorem Spared.effect (h : Spared s) (ht : Tracked s) (he : Effect s l s')
    (hg : SkipsCancelled s l) : Spared s' := by
  cases he with
  | still hst => exact h.still hst
  | @execute i item hl hi =>
    subst hl
    have hnot : (s.items item).wasCancelled = false := by
      by_contra hw
      exact hg item hi (h.kept item (by simpa using hw))
    exact h.change rfl hnot (by simp) (by simp)
      (holders_started_set hi (.inl rfl) (.inr rfl)) (fun _ => id) (fun _ => id)
  | @ran i item hi =>
    obtain ⟨hpending, hnot⟩ := h.of_started hi rfl
    have hcancelled : (s.items item).state ≠ .cancelled := by
      intro hc
      rw [ht.cancelled item hc] at hnot
      cases hnot
    exact h.change rfl hnot hpending hcancelled
      (holders_started_set hi (.inr rfl) (.inr rfl)) (fun _ => id) (fun _ => id)
  | @complete i item hi =>
    obtain ⟨-, hnot⟩ := h.of_started hi rfl
    exact h.change rfl hnot (by simp [Item.complete]) (by simp [Item.complete])
      (holders_started_set hi (.inr rfl) (.inl rfl))
      (fun c hmem => ((mem_map_wakeItem hmem).2 c rfl).2) fun _ => mem_wakeItem_cancelNotify item
  | @workComplete i item hi =>
    obtain ⟨-, hnot⟩ := h.of_started hi rfl
    exact h.change rfl hnot (by simp [Item.complete]) (by simp [Item.complete]) (fun _ _ => rfl)
      (fun c hmem => ((mem_map_wakeItem hmem).2 c rfl).2) fun _ => mem_wakeItem_cancelNotify item
  | @cancel i item hi hp => exact h.cancel hi hp

/-! ## The theorem -/

theorem Tracked.initial (numThreads maxQueueSize n : Nat) :
    Tracked (State.initial numThreads maxQueueSize n) := by
  refine ⟨fun c => ?_, fun c hc => (by cases hc)⟩
  have hacc := (Inv.initial numThreads maxQueueSize n).account c
  have honce := (Inv.initial numThreads maxQueueSize n).once c
  unfold State.inFlight
  omega

theorem Spared.initial (numThreads maxQueueSize n : Nat) :
    Spared (State.initial numThreads maxQueueSize n) := by
  refine ⟨fun c _ => ⟨rfl, holders_eq_zero fun w hw => ?_⟩, fun c hc => (by cases hc),
    fun c hc => (by cases hc)⟩
  rw [eq_of_mem_replicate hw]
  simp [started]

theorem Tracked.not_cancelHolds (h : Tracked s) (hs : step s l = some s')
    (hg : ¬SkipsCancelled s l) : ¬CancelHolds s' := by
  cases l with
  | worker i =>
    simp only [SkipsCancelled, not_forall, not_not] at hg
    obtain ⟨item, hi, hstate⟩ := hg
    simp only [step, hi, bind_some, workerStep, some.injEq] at hs
    subst hs
    intro hholds
    have hcancelled := h.cancelled item hstate
    have hstate' := (hholds item (by simpa [State.work, State.setItem] using hcancelled)).state
    simp [State.work, State.setItem] at hstate'
  | _ => exact absurd trivial hg

/-- In every run, what `ios_work_cancel` promises holds in every state exactly if no worker goes on
with an item that it finds cancelled. The work function of an item is not executed twice in any run,
and an item that nobody cancelled never has the state `WORK_CANCELLED`. -/
theorem cancelled_never_runs_iff (numThreads maxQueueSize n : Nat) (labels : List Label) :
    (Transition.Always step CancelHolds (State.initial numThreads maxQueueSize n) labels ↔
      Transition.Meets step SkipsCancelled (State.initial numThreads maxQueueSize n) labels) ∧
    Transition.Always step OnceOnly (State.initial numThreads maxQueueSize n) labels := by
  have htracked := Tracked.initial numThreads maxQueueSize n
  have hspared := Spared.initial numThreads maxQueueSize n
  constructor
  · exact Transition.always_iff_meets (fun s (h : Tracked s ∧ Spared s) => h.2.cancelHolds)
      (fun _ _ _ h hs hg => ⟨h.1.effect (step_effect hs), h.2.effect h.1 (step_effect hs) hg⟩)
      (fun _ _ _ h hs hg => h.1.not_cancelHolds hs hg) ⟨htracked, hspared⟩ labels
  · exact .of_invariant (fun _ h => h.onceOnly)
      (fun _ _ _ h hs => h.effect (step_effect hs)) htracked
      labels

def cancelThenWork : List Label :=
  flatten
    [submitOne, [.cancel 0 0, .caller 0 true, .caller 0 true], replicate 8 (.worker 0)]

/-- `ios_work_cancel` has returned true, and the item is still executed: its state is
`WORK_COMPLETED`, and `ios_work_wait` returns 0. -/
theorem cancelled_runs :
    ∃ s, Transition.run step (State.initial 1 8 1) cancelThenWork = some s ∧ s.callers = [.idle] ∧
      (s.items 0).wasCancelled = true ∧ (s.items 0).executed = 1 ∧ (s.items 0).state = .completed ∧
      waitResult (s.items 0).state = some 0 :=
  ⟨_, rfl, rfl, rfl, rfl, rfl, rfl⟩

end IosSystem.ThreadPool
