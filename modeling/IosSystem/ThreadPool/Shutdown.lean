import IosSystem.Lib.Threads
import IosSystem.ThreadPool.Workers

/-!
# What has happened to the work when the pool has shut down

Every accepted item is in the queues, or with a worker, or executed (`Inv.account`). A worker looks
at the flag before it looks at the queues, so that items which are queued when the flag is set are
dropped (`shutdown_drops`). `shutdown_completes` is about the runs in which nothing is left to drop
at that moment (`Guard`).
-/

namespace IosSystem.ThreadPool

open List Threads Transition Option Caller Worker

/-! ## Places -/

def Worker.before : Worker → Option Nat
  | .unlock item | .execute item | .run item => some item
  | _ => none

def Worker.after : Worker → Option Nat
  | .complete item => some item
  | _ => none

def Caller.submits : Caller → Option Nat
  | .submitLock item _ _ | .submitWait item _ | .submitAsleep item _ | .submitTest item _
  | .enqueue item _ => some item
  | _ => none

/-- A place in `ios_thread_pool_shutdown`. -/
def Caller.stops : Caller → Bool
  | .shutdown | .shutdownNotify | .join _ => true
  | _ => false

/-- An item that was due is still queued. -/
def State.Pending (s : State) : Prop :=
  ∃ due ∈ s.due, ∃ item ∈ due, 0 < queued s.queues item ∧ (s.items item).wasCancelled = false

instance (s : State) : Decidable s.Pending :=
  inferInstanceAs (Decidable (∃ due ∈ s.due, ∃ item ∈ due, _ ∧ _))

/-- `ios_thread_pool_shutdown` sets the flag only when nothing is pending. -/
def Guard (s : State) : Label → Prop
  | .caller i _ => s.callers[i]? = some .shutdown → ¬ s.Pending
  | _ => True

instance (s : State) : (l : Label) → Decidable (Guard s l)
  | .caller i _ => inferInstanceAs (Decidable (s.callers[i]? = some .shutdown → ¬ s.Pending))
  | .submit _ _ _ | .cancel _ _ | .wait _ _ | .shutdown _ | .worker _ | .workComplete _ =>
    .isTrue trivial

/-! ## The invariant -/

/-- What the shutdown has brought about so far. -/
structure Stop (s : State) : Prop where
  called : s.stopping = true ∨ .shutdown ∈ s.callers → s.due ≠ none
  accepted : ∀ due ∈ s.due, ∀ item ∈ due, item ∈ s.accepted
  drained : s.stopping = true → ¬ s.Pending
  notify : .shutdownNotify ∈ s.callers → s.stopping = true
  join : ∀ k, .join k ∈ s.callers →
    s.stopping = true ∧ ∀ j < k, s.workers[j]? = some .exited
  returned : s.returned = true →
    s.stopping = true ∧ ∀ j < s.workers.length, s.workers[j]? = some .exited

/-- Every accepted item is queued, with a worker or executed, and in one place only. -/
structure Inv (s : State) : Prop where
  account : ∀ c, queued s.queues c + holders Worker.before s.workers c + (s.items c).executed
    = s.accepted.count c
  once : ∀ c, s.accepted.count c + holders Caller.submits s.callers c
    ≤ if c < s.created then 1 else 0
  state : ∀ c, 0 < (s.items c).executed → (s.items c).state = .completed ∨
    0 < holders Worker.after s.workers c
  asleep : ∀ c, .waitAsleep c ∈ s.callers → (s.items c).state ≠ .completed
  stop : Stop s

attribute [grind cases] Stop Inv
attribute [grind →] mem_or_eq_of_mem_set

/-! ## Frames -/

variable {s s' : State} {i item : Nat} {w : Worker} {c : Caller}

theorem Stop.frame (h : Stop s) (hlen : s'.workers.length = s.workers.length)
    (hw : ∀ j : Nat, s.workers[j]? = some .exited → s'.workers[j]? = some .exited)
    (hc : ∀ c ∈ s'.callers, c.stops = true → c ∈ s.callers) (hst : s'.stopping = s.stopping)
    (hd : s'.due = s.due) (ha : ∀ item ∈ s.accepted, item ∈ s'.accepted)
    (hr : s'.returned = s.returned) (hp : s'.Pending → s.Pending) : Stop s' := by
  constructor <;> grind [stops]

theorem exited_set {workers : List Worker} (hi : workers[i]? = some w)
    (hne : w ≠ .exited) (w' : Worker) {j : Nat} (hj : workers[j]? = some .exited) :
    (workers.set i w')[j]? = some .exited := by
  rw [getElem?_set_ne]
  · exact hj
  · rintro rfl
    exact hne (some.inj (hi.symm.trans hj))

theorem Inv.frame (h : Inv s) (hq : s'.queues = s.queues) (hx : s'.items = s.items)
    (hn : s'.created = s.created) (ha : s'.accepted = s.accepted)
    (hb : ∀ c, holders Worker.before s'.workers c = holders Worker.before s.workers c)
    (haf : ∀ c, holders Worker.after s'.workers c = holders Worker.after s.workers c)
    (hsub : ∀ c, holders Caller.submits s'.callers c ≤ holders Caller.submits s.callers c)
    (hsleep : ∀ c, .waitAsleep c ∈ s'.callers →
      .waitAsleep c ∈ s.callers ∨ (s.items c).state ≠ .completed) (hstop : Stop s') : Inv s' := by
  refine ⟨fun c => ?_, fun c => ?_, fun c => ?_, fun c hc => ?_, hstop⟩
  · rw [hq, hb, hx, ha]
    exact h.account c
  · grind [h.once c]
  · rw [hx, haf]
    exact h.state c
  · grind [hsleep c hc]

theorem Inv.work (h : Inv s) (hi : s.workers[i]? = some w)
    (hne : w ≠ .exited) (w' : Worker) (hb : w'.before = w.before) (haf : w'.after = w.after)
    (locked : Bool) :
    Inv ({ s with locked := locked }.work i w') :=
  h.frame rfl rfl rfl rfl (holders_set_of_eq hi hb) (holders_set_of_eq hi haf)
    (fun _ => Nat.le_refl _) (fun _ => .inl)
    (h.stop.frame length_set (fun _ => exited_set hi hne w') (fun _ hc _ => hc) rfl rfl
      (fun _ => id) rfl id)

theorem Inv.call (h : Inv s) (hi : s.callers[i]? = some c)
    (c' : Caller) (hsub : ∀ item, c'.submits = some item → c.submits = some item)
    (hstops : c'.stops = false)
    (hsleep : ∀ item, c' = .waitAsleep item → (s.items item).state ≠ .completed) (locked : Bool) :
    Inv ({ s with locked := locked }.call i c') := by
  refine h.frame rfl rfl rfl rfl (fun _ => rfl) (fun _ => rfl)
    (fun item => holders_set_le hi (hsub item)) (fun item hmem => ?_)
    (h.stop.frame rfl (fun _ => id) (fun d hd hs => ?_) rfl rfl (fun _ => id) rfl id)
  · rcases mem_or_eq_of_mem_set hmem with hmem | heq
    · exact .inl hmem
    · exact .inr (hsleep item heq.symm)
  · rcases mem_or_eq_of_mem_set hd with hd | rfl
    · exact hd
    · rw [hstops] at hs
      cases hs

/-! ## Steps of a worker -/

theorem Inv.take (h : Inv s) (hi : s.workers[i]? = some .dequeue) (w' : Worker)
    (hb : w'.before = (dequeueWork s.queues).1) (haf : w'.after = none) (locked : Bool) :
    Inv ({ s with queues := (dequeueWork s.queues).2, locked := locked }.work i w') := by
  have hq := queued_dequeueWork s.queues
  refine ⟨fun c => ?_, h.once, fun c => ?_, h.asleep, ?_⟩
  · have hset := holders_set hi before w' c
    have hacc := h.account c
    have hqc := hq c
    rw [hb] at hset
    simp only [State.work, before, reduceCtorEq, if_false] at *
    omega
  · simp only [State.work, holders_set_of_eq hi haf]
    exact h.state c
  · refine h.stop.frame length_set (fun _ => exited_set hi (by simp) w') (fun _ hc _ => hc) rfl
      rfl (fun _ => id) rfl ?_
    rintro ⟨due, hdue, item, hitem, hpos, hcan⟩
    refine ⟨due, hdue, item, hitem, ?_, hcan⟩
    have hqi := hq item
    have : 0 < queued (dequeueWork s.queues).2 item := hpos
    omega

theorem Inv.setItem (h : Inv s) {f : Item → Item}
    (hexec : (f (s.items item)).executed = (s.items item).executed)
    (hcan : (s.items item).wasCancelled = true → (f (s.items item)).wasCancelled = true)
    (hstate : 0 < (s.items item).executed → (f (s.items item)).state = .completed ∨
      0 < holders Worker.after s.workers item)
    (hsleep : .waitAsleep item ∈ s.callers → (f (s.items item)).state ≠ .completed) :
    Inv (s.setItem item f) := by
  refine ⟨fun c => ?_, h.once, fun c => ?_, fun c hc => ?_, ?_⟩
  · rcases eq_or_ne c item with rfl | hne <;> simp only [State.setItem] <;> grind
  · rcases eq_or_ne c item with rfl | hne <;> simp only [State.setItem] <;> grind
  · rcases eq_or_ne c item with rfl | hne <;> simp only [State.setItem] at hc ⊢ <;> grind
  · refine h.stop.frame rfl (fun _ => id) (fun _ hc _ => hc) rfl rfl (fun _ => id) rfl ?_
    rintro ⟨due, hdue, c, hc, hpos, hnot⟩
    refine ⟨due, hdue, c, hc, hpos, ?_⟩
    rcases eq_or_ne c item with rfl | hne <;> simp only [State.setItem] at hnot <;> grind

theorem wakeItem_submits (item : Nat) (c : Caller) : (c.wakeItem item).submits = c.submits := by
  cases c with
  | waitAsleep d =>
    simp only [wakeItem]
    split <;> rfl
  | _ => rfl

theorem mem_map_wakeItem {callers : List Caller} (h : c ∈ callers.map (Caller.wakeItem item)) :
    (c.stops = true → c ∈ callers) ∧ ∀ d, c = .waitAsleep d → d ≠ item ∧ c ∈ callers := by
  obtain ⟨b, hb, rfl⟩ := mem_map.1 h
  cases b with
  | waitAsleep d =>
    simp only [wakeItem]
    split
    · exact ⟨fun hs => (by cases hs), fun _ hd => (by cases hd)⟩
    · next hne =>
      refine ⟨fun hs => (by cases hs), fun e he => ?_⟩
      cases he
      exact ⟨hne, hb⟩
  | _ => exact ⟨fun _ => hb, fun _ hd => (by cases hd)⟩

theorem Inv.publish (h : Inv s) {f : Item → Item}
    (hexec : (f (s.items item)).executed = (s.items item).executed)
    (hcan : (f (s.items item)).wasCancelled = (s.items item).wasCancelled)
    (hstate : 0 < (s.items item).executed → (f (s.items item)).state = .completed ∨
      0 < holders Worker.after s.workers item) : Inv (s.publish item f) := by
  have hwake : Inv { s with callers := s.callers.map (wakeItem item) } := by
    refine h.frame rfl rfl rfl rfl (fun _ => rfl) (fun _ => rfl)
      (fun c => Nat.le_of_eq (holders_map (wakeItem_submits item) c))
      (fun c hc => .inl ((mem_map_wakeItem hc).2 c rfl).2)
      (h.stop.frame rfl (fun _ => id) (fun c hc => (mem_map_wakeItem hc).1) rfl rfl
        (fun _ => id) rfl
        id)
  refine hwake.setItem hexec (fun hc => hcan.trans hc) hstate fun hmem => ?_
  exact absurd rfl ((mem_map_wakeItem hmem).2 item rfl).1

theorem Inv.not_executed (h : Inv s)
    (hi : s.workers[i]? = some w) (hb : w.before = some item) : (s.items item).executed = 0 := by
  have hpos := holders_pos hi hb
  have hacc := h.account item
  have honce := h.once item
  split at honce <;> omega

theorem Inv.ran (h : Inv s) (hi : s.workers[i]? = some (.run item)) :
    Inv ((s.setItem item Item.ran).work i (.complete item)) := by
  refine ⟨fun c => ?_, h.once, fun c => ?_, fun c hc => ?_, ?_⟩
  · have hset := holders_set hi Worker.before (.complete item) c
    rcases eq_or_ne c item with rfl | hne <;>
      simp only [State.work, State.setItem, Worker.before, Item.ran] at * <;> grind
  · have hset := holders_set hi Worker.after (.complete item) c
    rcases eq_or_ne c item with rfl | hne <;>
      simp only [State.work, State.setItem, Worker.after] at * <;> grind
  · rcases eq_or_ne c item with rfl | hne <;>
      simp only [State.work, State.setItem, Item.ran] at * <;> grind
  · refine h.stop.frame length_set (fun _ => exited_set hi (by simp) _) (fun _ hc _ => hc) rfl rfl
      (fun _ => id) rfl ?_
    rintro ⟨due, hdue, c, hc, hpos, hnot⟩
    refine ⟨due, hdue, c, hc, hpos, ?_⟩
    rcases eq_or_ne c item with rfl | hne <;>
      simp only [State.work, State.setItem, Item.ran] at hnot <;> grind

theorem Inv.published (h : Inv s) (hi : s.workers[i]? = some (.complete item))
    (hstate : (s.items item).state = .completed) : Inv (s.work i (.finish item)) := by
  refine ⟨fun c => ?_, h.once, fun c => ?_, h.asleep, ?_⟩
  · simp only [State.work, holders_set_of_eq hi (show (Worker.finish item).before = _ from rfl)]
    exact h.account c
  · have hset := holders_set hi Worker.after (.finish item) c
    rcases eq_or_ne c item with rfl | hne <;> simp only [State.work, Worker.after] at * <;> grind
  · exact h.stop.frame length_set (fun _ => exited_set hi (by simp) _) (fun _ hc _ => hc) rfl rfl
      (fun _ => id) rfl id

theorem Inv.workerStep (h : Inv s) (hi : s.workers[i]? = some w)
    (hs : workerStep s i w = some s') : Inv s' := by
  cases w <;> simp only [ThreadPool.workerStep] at hs
  case dequeue =>
    split at hs <;> cases hs
    · next item hitem => exact h.take hi (.unlock item) hitem.symm rfl s.locked
    · next hitem => exact h.take hi .asleep hitem.symm rfl false
  case execute item =>
    cases hs
    have hzero := h.not_executed hi rfl
    have hset : Inv (s.setItem item fun x => { x with state := .executing }) :=
      h.setItem rfl id (fun hpos => by omega) fun _ => by simp
    exact hset.work hi (by simp) (.run item) rfl rfl s.locked
  case run =>
    cases hs
    exact h.ran hi
  case complete item =>
    cases hs
    have hpub : Inv (s.publish item Item.complete) := h.publish rfl rfl fun _ => .inl rfl
    exact hpub.published hi (congrArg Item.state (items_setItem s item Item.complete))
  all_goals repeat' split at hs
  all_goals cases hs
  all_goals exact h.work hi (by simp) _ (by rfl) (by rfl) _

/-! ## Steps of a caller -/

theorem Inv.create (h : Inv s) {p : Priority} {blocking : Bool}
    (hi : s.callers[i]? = some (.create p blocking)) :
    Inv ({ s with created := s.created + 1 }.call i (.submitLock s.created p blocking)) := by
  refine ⟨h.account, fun c => ?_, h.state, fun c hc => ?_, ?_⟩
  · have hset := holders_set hi submits (.submitLock s.created p blocking) c
    simp only [State.call, submits] at *
    grind
  · exact h.asleep c (by simp only [State.call] at hc; grind)
  · refine h.stop.frame rfl (fun _ => id) (fun d hd hs => ?_) rfl rfl (fun _ => id) rfl id
    simp only [State.call] at hd
    grind [stops]

theorem Inv.enqueue (h : Inv s) {p : Priority} {queues : Queues}
    (hi : s.callers[i]? = some (.enqueue item p)) (hq : enqueueWork s.queues item p = some queues) :
    Inv ({ s with queues := queues, locked := false, accepted := item :: s.accepted }.call i
      .idle) := by
  have hqueued := queued_enqueueWork hq
  have hset := holders_set hi Caller.submits .idle
  refine ⟨fun c => ?_, fun c => ?_, h.state, fun c hc => ?_, ?_⟩
  · simp only [State.call] at *
    grind
  · simp only [State.call, Caller.submits] at *
    grind
  · exact h.asleep c (by simp only [State.call] at hc; grind)
  · refine h.stop.frame rfl (fun _ => id) (fun d hd hs => ?_) rfl rfl
      (fun _ => mem_cons_of_mem item) rfl ?_
    · simp [State.call] at hd
      grind [Caller.stops]
    · rintro ⟨due, hdue, c, hc, hpos, hnot⟩
      refine ⟨due, hdue, c, hc, ?_, hnot⟩
      -- what was accepted before the shutdown is not the item that is enqueued now
      have hmem := count_pos_iff.2 (h.stop.accepted due hdue c hc)
      have hsub := holders_pos hi (show (Caller.enqueue item p).submits = some item from rfl)
      have : 0 < queued queues c := hpos
      grind

theorem Inv.cancel (h : Inv s) (hp : (s.items item).state = .pending) :
    Inv (s.setItem item fun x => { x with state := .cancelled, wasCancelled := true }) := by
  refine h.setItem rfl (fun _ => rfl) (fun hpos => .inr ?_) fun _ => by simp
  rcases h.state item hpos with hc | hafter
  · rw [hp] at hc
    cases hc
  · exact hafter

/-! ## Steps of the shutdown -/

section

variable (h : Inv s)
include h

theorem Inv.callStop (hi : s.callers[i]? = some c) (c' : Caller)
    (hc' : c'.stops = true ∨ c' = .idle) {stopping returned : Bool} {due : Option (List Nat)}
    (hstop : Stop ({ s with stopping := stopping, due := due, returned := returned }.call i c')) :
    Inv ({ s with stopping := stopping, due := due, returned := returned }.call i c') := by
  have hplain : c'.submits = none ∧ ∀ item, c' ≠ .waitAsleep item := by
    rcases hc' with hc' | rfl
    · cases c' <;> simp_all [stops, submits]
    · exact ⟨rfl, fun _ => by simp⟩
  refine h.frame rfl rfl rfl rfl (fun _ => rfl) (fun _ => rfl)
    (fun item => holders_set_le hi fun hs => ?_) (fun item hmem => ?_) hstop
  · rw [hplain.1] at hs
    cases hs
  · rcases mem_or_eq_of_mem_set hmem with hmem | heq
    · exact .inl hmem
    · exact absurd heq.symm (hplain.2 item)

theorem Inv.beginShutdown (hi : s.callers[i]? = some .idle) (hdue : s.due = none) :
    Inv ({ s with due := some s.accepted }.call i .shutdown) := by
  refine h.callStop hi .shutdown (.inl rfl) ?_
  constructor <;> simp only [State.call] <;> grind

theorem Inv.setFlag (hi : s.callers[i]? = some .shutdown) (hp : ¬ s.Pending) :
    Inv ({ s with stopping := true }.call i .shutdownNotify) := by
  have hmem := mem_of_getElem? hi
  refine h.callStop hi .shutdownNotify (.inl rfl)
    ⟨fun _ => h.stop.called (.inr hmem), h.stop.accepted, fun _ => hp, fun _ => rfl, ?_, ?_⟩ <;>
    simp only [State.call] <;> grind

theorem Inv.broadcast :
    Inv { s with
      workers := s.workers.map Worker.wake
      callers := s.callers.map Caller.wakeSubmit } := by
  have hwb : ∀ w : Worker, w.wake.before = w.before := fun w => by cases w <;> rfl
  have hwa : ∀ w : Worker, w.wake.after = w.after := fun w => by cases w <;> rfl
  have hcs : ∀ c : Caller, c.wakeSubmit.submits = c.submits := fun c => by cases c <;> rfl
  have hsame : ∀ c ∈ s.callers.map wakeSubmit, c.stops = true ∨ (∃ d, c = .waitAsleep d) →
      c ∈ s.callers := by
    intro c hc hkind
    obtain ⟨b, hb, rfl⟩ := mem_map.1 hc
    cases b with
    | submitAsleep item p => rcases hkind with hk | ⟨d, hd⟩ <;> simp_all [wakeSubmit, stops]
    | _ => exact hb
  refine h.frame rfl rfl rfl rfl (holders_map hwb) (holders_map hwa)
    (fun c => Nat.le_of_eq (holders_map hcs c)) (fun c hc => .inl (hsame _ hc (.inr ⟨c, rfl⟩)))
    (h.stop.frame (length_map _) (fun j hj => ?_) (fun c hc hs => hsame c hc (.inl hs)) rfl rfl
      (fun _ => id) rfl id)
  rw [getElem?_map, hj]
  rfl

theorem Inv.join {k : Nat} (hi : s.callers[i]? = some c) (hstop : s.stopping = true)
    (hk : ∀ j < k, s.workers[j]? = some .exited) : Inv (s.call i (.join k)) := by
  refine h.callStop hi (.join k) (.inl rfl)
    ⟨fun _ => h.stop.called (.inl hstop), h.stop.accepted, h.stop.drained, fun _ => hstop, ?_,
      h.stop.returned⟩
  simp only [State.call]
  grind

theorem Inv.joined {k : Nat} (hi : s.callers[i]? = some (.join k)) (hk : s.workers[k]? = none) :
    Inv ({ s with returned := true }.call i .idle) := by
  obtain ⟨hstop, hj⟩ := h.stop.join k (mem_of_getElem? hi)
  refine h.callStop hi .idle (.inr rfl)
    ⟨fun _ => h.stop.called (.inl hstop), h.stop.accepted, h.stop.drained,
      fun _ => hstop, ?_, ?_⟩ <;>
    simp only [State.call] <;> grind

theorem Inv.callerStep {calloc : Bool} (hi : s.callers[i]? = some c)
    (hg : c = .shutdown → ¬ s.Pending) (hs : callerStep s i calloc c = some s') : Inv s' := by
  cases c <;> simp only [ThreadPool.callerStep] at hs
  case create =>
    split at hs <;> cases hs
    · exact h.create hi
    · exact h.call hi .idle (by simp [submits]) rfl (by simp) s.locked
  case enqueue =>
    split at hs <;> cases hs
    · next queues hq => exact h.enqueue hi hq
    · exact h.call hi .idle (by simp [submits]) rfl (by simp) false
  case cancel item =>
    split at hs <;> cases hs
    · next hp =>
      exact (h.cancel hp).call hi (.cancelNotify item) (by simp [submits]) rfl (by simp) s.locked
    · exact h.call hi .idle (by simp [submits]) rfl (by simp) s.locked
  case cancelNotify item =>
    cases hs
    have hpub : Inv (s.publish item id) := h.publish rfl rfl (h.state item)
    have hi' : (s.publish item id).callers[i]? = some (.cancelNotify item) := by
      simp [State.publish, hi, wakeItem]
    exact hpub.call hi' .idle (by simp [submits]) rfl (by simp) s.locked
  case wait item =>
    split at hs <;> cases hs
    · exact h.call hi .idle (by simp [submits]) rfl (by simp) s.locked
    · next hn =>
      refine h.call hi (.waitAsleep item) (by simp [submits]) rfl ?_ s.locked
      intro d hd hc
      cases hd
      exact hn (.inl hc)
  case shutdown =>
    cases hs
    exact h.setFlag hi (hg rfl)
  case shutdownNotify =>
    split at hs <;> cases hs
    have hstop := h.stop.notify (mem_of_getElem? hi)
    refine h.broadcast.join (c := .shutdownNotify) ?_ hstop fun j hj =>
      absurd hj (Nat.not_lt_zero j)
    simp [hi, wakeSubmit]
  case join k =>
    obtain ⟨hstop, hj⟩ := h.stop.join k (mem_of_getElem? hi)
    split at hs <;> cases hs
    · next hk =>
      refine h.join hi hstop fun j hjk => ?_
      rcases Nat.lt_succ_iff_lt_or_eq.1 hjk with hlt | rfl
      · exact hj j hlt
      · exact hk
    · next hk => exact h.joined hi hk
  -- the other places are those of a submit, which does not change anything but its place and the
  -- mutex
  all_goals repeat' split at hs
  all_goals cases hs
  all_goals exact h.call hi _ (by simp [submits]) (by rfl) (by simp) _

end

/-! ## Every step -/

theorem Inv.step {l : Label} (h : Inv s) (hg : Guard s l) (hs : step s l = some s') : Inv s' := by
  cases l with
  | submit i p blocking =>
    simp only [ThreadPool.step] at hs
    split at hs <;> cases hs
    next hi =>
      exact h.call hi (.submit p blocking) (by simp [submits]) rfl (by simp) s.locked
  | cancel i item =>
    simp only [ThreadPool.step] at hs
    split at hs <;> cases hs
    next hi =>
      exact h.call hi.1 (.cancel item) (by simp [submits]) rfl (by simp) s.locked
  | wait i item =>
    simp only [ThreadPool.step] at hs
    split at hs <;> cases hs
    next hi =>
      exact h.call hi.1 (.wait item) (by simp [submits]) rfl (by simp) s.locked
  | shutdown i =>
    simp only [ThreadPool.step] at hs
    split at hs <;> cases hs
    next hi =>
      exact h.beginShutdown hi.1 hi.2
  | caller i calloc =>
    obtain ⟨c, hi, hc⟩ := bind_eq_some_iff.1 hs
    exact h.callerStep hi (fun heq => hg (heq ▸ hi)) hc
  | worker i =>
    obtain ⟨w, hi, hw⟩ := bind_eq_some_iff.1 hs
    exact h.workerStep hi hw
  | workComplete i =>
    simp only [ThreadPool.step] at hs
    split at hs
    · split at hs <;> cases hs
      · exact h.publish rfl rfl fun _ => .inl rfl
      · exact h
    · cases hs

theorem Inv.initial (numThreads maxQueueSize n : Nat) :
    Inv (State.initial numThreads maxQueueSize n) := by
  refine ⟨fun c => ?_, fun c => ?_, fun c hc => ?_, fun c hc => ?_, ?_⟩
  · have hbefore := holders_replicate (f := before) (a := .lock) rfl numThreads c
    show _ + holders before (replicate numThreads .lock) c + _ = _
    rw [hbefore]
    rfl
  · have hsub := holders_replicate (f := submits) (a := .idle) rfl n c
    show _ + holders submits (replicate n .idle) c ≤ _
    rw [hsub]
    exact Nat.zero_le _
  · cases hc
  · cases eq_of_mem_replicate hc
  · constructor <;> simp [State.initial]

/-! ## The theorem -/

def GuardedReachable (numThreads maxQueueSize : Nat) (s : State) : Prop :=
  Transition.Reachable step Guard (fun s => ∃ n, s = State.initial numThreads maxQueueSize n) s

/-- When `ios_thread_pool_shutdown` has returned, every item that was accepted before it was called
and was not cancelled has been executed once and is completed, and nobody sleeps on it. -/
theorem shutdown_completes {numThreads maxQueueSize : Nat} {s : State} {due : List Nat}
    (h : GuardedReachable numThreads maxQueueSize s) (hdue : s.due = some due)
    (hret : s.returned = true) :
    ∀ item ∈ due, (s.items item).wasCancelled = false →
      (s.items item).executed = 1 ∧ (s.items item).state = .completed ∧
        .waitAsleep item ∉ s.callers := by
  have hinv : Inv s := by
    refine Transition.Reachable.invariant ?_ (fun _ _ _ hinv hg hs => hinv.step hg hs) h
    rintro _ ⟨n, rfl⟩
    exact Inv.initial numThreads maxQueueSize n
  intro item hitem hcan
  obtain ⟨hstop, hexited⟩ := hinv.stop.returned hret
  have hnone : ∀ f : Worker → Option Nat, f .exited = none →
      Threads.holders f s.workers item = 0 := by
    intro f hf
    refine Threads.holders_eq_zero fun w hw => ?_
    obtain ⟨j, hj⟩ := List.getElem?_of_mem hw
    have hlt := (List.getElem?_eq_some_iff.1 hj).1
    obtain rfl : .exited = w := Option.some.inj ((hexited j hlt).symm.trans hj)
    simp [hf]
  have hqueued : queued s.queues item = 0 := by
    by_contra hq
    exact hinv.stop.drained hstop ⟨due, hdue, item, hitem, Nat.pos_of_ne_zero hq, hcan⟩
  have hmem := List.count_pos_iff.2 (hinv.stop.accepted due hdue item hitem)
  have hacc := hinv.account item
  have honce := hinv.once item
  have hexec : (s.items item).executed = 1 := by
    rw [hqueued, hnone _ rfl] at hacc
    split at honce <;> omega
  have hstate : (s.items item).state = .completed := by
    rcases hinv.state item (by omega) with hc | ha
    · exact hc
    · rw [hnone _ rfl] at ha
      exact absurd ha (Nat.lt_irrefl 0)
  exact ⟨hexec, hstate, fun hsleep => hinv.asleep item hsleep hstate⟩

def submitOne : List Label := .submit 0 .normal true :: replicate 6 (.caller 0 true)

/-- Caller 0 calls `ios_thread_pool_shutdown`, the idle worker exits, and the call returns. -/
def shutdownAll : List Label :=
  flatten
    [[.shutdown 0, .caller 0 true, .caller 0 true], replicate 3 (.worker 0),
      replicate 2 (.caller 0 true)]

/-- The worker executes the item before the shutdown. -/
theorem shutdown_completes_one :
    ∃ s, GuardedReachable 1 8 s ∧ s.due = some [0] ∧ s.returned = true ∧
    (s.items 0).executed = 1 := by
  have hrun : (run (guarded step Guard) (State.initial 1 8 1)
      (submitOne ++ replicate 8 (.worker 0) ++ shutdownAll)).map
        (fun s => (s.due, s.returned, (s.items 0).wasCancelled))
      = some (some [0], true, false) := by
    decide
  obtain ⟨s, hs, heq⟩ := map_eq_some_iff.1 hrun
  simp only [Prod.mk.injEq] at heq
  obtain ⟨hdue, hret, hcan⟩ := heq
  have hreach : GuardedReachable 1 8 s := .of_guarded_run (.start ⟨1, rfl⟩) hs
  exact ⟨s, hreach, hdue, hret, (shutdown_completes hreach hdue hret 0 mem_cons_self hcan).1⟩

/-- The item is still queued when the flag is set. The worker sees the flag first and exits; caller
1, who waits for the item, sleeps on. -/
theorem shutdown_drops :
    ∃ s, Transition.Reachable step (fun _ _ => True) (fun s => ∃ n, s = State.initial 1 8 n) s ∧
      s.due = some [0] ∧ s.returned = true ∧ (s.items 0).wasCancelled = false ∧
      (s.items 0).executed = 0 ∧ (s.items 0).state = .pending ∧ s.callers = [.idle, .waitAsleep 0] ∧
      s.workers = [.exited] := by
  have hrun : ∃ s, run step (State.initial 1 8 2)
        (submitOne ++ [.wait 1 0, .caller 1 true] ++ shutdownAll) = some s ∧
      s.due = some [0] ∧ s.returned = true ∧ (s.items 0).wasCancelled = false ∧
      (s.items 0).executed = 0 ∧ (s.items 0).state = .pending ∧ s.callers = [.idle, .waitAsleep 0] ∧
      s.workers = [.exited] := ⟨_, rfl, rfl, rfl, rfl, rfl, rfl, rfl, rfl⟩
  obtain ⟨s, hs, hrest⟩ := hrun
  exact ⟨s, .of_run (.start ⟨2, rfl⟩) hs, hrest⟩

end IosSystem.ThreadPool
