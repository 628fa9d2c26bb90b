import IosSystem.ThreadPool.Lifecycle
import Mathlib.Data.Bool.Basic

/-!
# The references to a work item

Every reference is in one place: with the call that submits the item, with the client, in a queue,
with the worker, or in a release that has not decremented the count yet (`owners`). Moving it from
one place to another changes no count. The account of an item (`Account`) also says that it is
enqueued once.
-/

namespace IosSystem.ThreadPool.Lifecycle

open List Option Threads Place Lifecycle.State
open Threads (holders holders_set holders_set_of_eq holders_pos)

/-- All the references to an item. -/
def owners (s : State) (c : Nat) : Nat :=
  queued s.queues c + s.held.count c + holders Place.submits s.threads c +
    holders Place.stores s.threads c
    + holders Place.carries s.threads c + holders Place.releases s.threads c

def Place.item (p : Place) : Option Nat :=
  p.submits <|> p.stores <|> p.carries <|> p.releases <|> p.frees <|> p.uses

/--
The count is the number of owners; when there are none, the item is freed or a thread is about to
free it; and nobody is about to use an item that is freed.
-/
structure Counted (s : State) : Prop where
  count : ∀ c, (s.items c).refCount = owners s c
  freed : ∀ c < s.created, owners s c = 0 ↔ (s.items c).freed = true ∨ ∃ w, .free c w ∈ s.threads
  used : ∀ p ∈ s.threads, ∀ c, p.item = some c → (s.items c).freed = false

/-! ## The account of an item -/

/-- The count is the number of references, and the item is freed without one. -/
structure Account (s : State) (c : Nat) : Prop where
  count : (s.items c).refCount = owners s c
  known : c < s.created ∨ owners s c = 0 ∧ s.handed.count c = 0
  kept : c < s.created ∧ owners s c = 0 ∨
    (s.items c).freed.toNat + holders Place.frees s.threads c = 0
  gone : c < s.created → owners s c = 0 →
    (s.items c).freed.toNat + holders Place.frees s.threads c = 1
  once : holders Place.submits s.threads c + holders Place.stores s.threads c + s.handed.count c ≤ 1
  accepted : queued s.queues c + holders Place.carries s.threads c + (s.items c).served
    = holders Place.stores s.threads c + s.handed.count c

structure Accounts (s : State) : Prop where
  account : ∀ c, Account s c
  uses : ∀ p ∈ s.threads, ∀ c, p.uses = some c → c ∈ s.held

variable {s s' : State} {i : Nat} {p q : Place}

theorem holders_frees_pos_iff (c : Nat) :
    0 < holders Place.frees s.threads c ↔ ∃ w, .free c w ∈ s.threads := by
  rw [holders, countP_pos_iff]
  constructor
  · rintro ⟨p, hp, hf⟩
    cases p <;> simp at hf
    next item w => exact ⟨w, hf ▸ hp⟩
  · rintro ⟨w, hw⟩
    exact ⟨_, hw, by simp⟩

theorem Account.freed_iff {c : Nat} (h : Account s c) (hc : c < s.created) :
    owners s c = 0 ↔ (s.items c).freed = true ∨ 0 < holders Place.frees s.threads c := by
  have hkept := h.kept
  have hgone := h.gone hc
  have htoNat : (s.items c).freed = true ↔ 0 < (s.items c).freed.toNat := by
    cases (s.items c).freed <;> simp
  rw [htoNat]
  omega

theorem Accounts.not_freed (h : Accounts s) (hp : p ∈ s.threads) {c : Nat}
    (hitem : p.item = some c) :
    (s.items c).freed = false := by
  by_contra hfreed
  have hkept := (h.account c).kept
  have hgone := (h.account c).gone
  rw [Bool.not_eq_false] at hfreed
  rw [hfreed, Bool.toNat_true] at hkept hgone
  have hplace : ∀ f : Place → Option Nat, f p = some c → 0 < holders f s.threads c := by
    obtain ⟨i, hi⟩ := mem_iff_getElem?.1 hp
    exact fun f => holders_pos hi
  unfold owners at hkept hgone
  simp only [item, orElse_eq_orElse, orElse_eq_or, or_eq_some_iff] at hitem
  rcases hitem with hf | ⟨-, hf | ⟨-, hf | ⟨-, hf | ⟨-, hf | ⟨-, hf⟩⟩⟩⟩⟩
  case inr.inr.inr.inr.inr =>
    have := count_pos_iff.2 (h.uses p hp c hf)
    omega
  all_goals
    have := hplace _ hf
    omega

theorem Accounts.counted (h : Accounts s) : Counted s where
  count c := (h.account c).count
  freed c hc := by
    rw [← holders_frees_pos_iff]
    exact (h.account c).freed_iff hc
  used _ hp _ hitem := h.not_freed hp hitem

/-! ## Steps -/

def Item.account (x : Item) : Nat × Bool × Nat := (x.refCount, x.freed, x.served)

def Place.marks (p : Place) : List (Option Nat) :=
  [p.submits, p.stores, p.carries, p.releases, p.frees]

variable {item : Nat} {x : Item}

theorem proj_setItem {β : Type} (g : Item → β) (h : g x = g (s.items item)) (c : Nat) :
    g ((s.setItem item x).items c) = g (s.items c) := by
  unfold setItem
  by_cases hc : c = item
  · subst hc
    simpa using h
  · simp [Function.update_of_ne hc]

theorem Accounts.quiet (h : Accounts s) (hi : s.threads[i]? = some p)
    (hthreads : s'.threads = s.threads.set i q)
    (hqueued : ∀ c, queued s'.queues c = queued s.queues c)
    (hitems : ∀ c, (s'.items c).account = (s.items c).account) (hcreated : s'.created = s.created)
    (hhanded : s'.handed = s.handed) (hheld : s'.held = s.held)
    (hmarks : q.marks = p.marks) (huses : ∀ c, q.uses = some c → p.uses = some c ∨ c ∈ s.held) :
    Accounts s' := by
  simp only [marks, cons.injEq, and_true] at hmarks
  obtain ⟨h1, h2, h3, h4, h5⟩ := hmarks
  refine ⟨fun c => ?_, ?_⟩
  · obtain ⟨_, _, _, _, _, _⟩ := h.account c
    have hx := hitems c
    simp only [Item.account, Prod.mk.injEq] at hx
    constructor <;>
      simp only [owners, hthreads, hqueued, hcreated, hhanded, hheld, hx, holders_set_of_eq hi h1,
        holders_set_of_eq hi h2, holders_set_of_eq hi h3, holders_set_of_eq hi h4,
          holders_set_of_eq hi h5] <;>
      assumption
  · rw [hthreads, hheld]
    refine forall_mem_set h.uses fun c hc => ?_
    rcases huses c hc with hc | hc
    · exact h.uses p (mem_of_getElem? hi) c hc
    · exact hc

/-- How the places of an item are counted after thread `i` has gone from `p` to `q`. -/
structure Recount (s : State) (i : Nat) (p q : Place) (c : Nat) : Prop where
  submits : holders Place.submits (s.threads.set i q) c + (if p.submits = some c then 1 else 0)
    = holders Place.submits s.threads c + if q.submits = some c then 1 else 0
  stores : holders Place.stores (s.threads.set i q) c + (if p.stores = some c then 1 else 0)
    = holders Place.stores s.threads c + if q.stores = some c then 1 else 0
  carries : holders Place.carries (s.threads.set i q) c + (if p.carries = some c then 1 else 0)
    = holders Place.carries s.threads c + if q.carries = some c then 1 else 0
  releases : holders Place.releases (s.threads.set i q) c + (if p.releases = some c then 1 else 0)
    = holders Place.releases s.threads c + if q.releases = some c then 1 else 0
  frees : holders Place.frees (s.threads.set i q) c + (if p.frees = some c then 1 else 0)
    = holders Place.frees s.threads c + if q.frees = some c then 1 else 0

theorem recount (hi : s.threads[i]? = some p) (q : Place) (c : Nat) : Recount s i p q c :=
  ⟨holders_set hi _ q c, holders_set hi _ q c, holders_set hi _ q c, holders_set hi _ q c,
    holders_set hi _ q c⟩

section

variable (h : Accounts s)
include h

theorem Accounts.change (hi : s.threads[i]? = some p) (hthreads : s'.threads = s.threads.set i q)
    (hq : q.uses = none) (huses : ∀ p ∈ s.threads, ∀ c, p.uses = some c → c ∈ s'.held)
    (hc : ∀ c, Recount s i p q c → Account s c → Account s' c) : Accounts s' := by
  refine ⟨fun c => hc c (recount hi q c) (h.account c), ?_⟩
  rw [hthreads]
  refine forall_mem_set huses fun c hc => ?_
  rw [hq] at hc
  cases hc

theorem Accounts.dequeue (hi : s.threads[i]? = some .lock)
    (hd : (dequeueWork s.queues).1 = some item) :
    Accounts ({ s with queues := (dequeueWork s.queues).2 }.goto i (.claimed item)) := by
  refine h.change hi rfl rfl h.uses fun c ⟨h1, h2, h3, h4, h5⟩ ⟨_, _, _, _, _, _⟩ => ?_
  have hq := queued_dequeueWork s.queues c
  simp [hd] at h1 h2 h3 h4 h5 hq
  constructor <;> simp only [owners, goto] at * <;> omega

theorem Accounts.serve (hi : s.threads[i]? = some p)
    (hmarks : p.marks = [none, none, some item, none, none])
    (hx : x.account = ((s.items item).refCount, (s.items item).freed, (s.items item).served + 1)) :
    Accounts ((s.setItem item x).goto i (.release item true)) := by
  simp only [Item.account] at hx
  refine h.change hi rfl rfl h.uses fun c ⟨h1, h2, h3, h4, h5⟩ ⟨_, _, _, _, _, _⟩ => ?_
  simp only [marks, cons.injEq] at hmarks
  simp only [hmarks] at h1 h2 h3 h4 h5
  simp at h1 h2 h3 h4 h5
  constructor <;> simp only [owners, goto, setItem] at * <;> grind

variable {k : Submission} {pr : Priority}

theorem Accounts.create (hi : s.threads[i]? = some (.create pr k)) :
    Accounts
    ({ s.setItem s.created (Item.create k.completion) with created := s.created + 1 }.goto i
        (.enqueue s.created pr k)) := by
  refine h.change hi rfl rfl h.uses fun c ⟨h1, h2, h3, h4, h5⟩ ⟨_, _, _, _, _, _⟩ => ?_
  simp at h1 h2 h3 h4 h5
  constructor <;>
    simp only [owners, goto, setItem, Item.create] at * <;> grind

theorem Accounts.reject (hi : s.threads[i]? = some (.enqueue item pr k)) :
    Accounts (s.goto i (.release item false)) := by
  refine h.change hi rfl rfl h.uses fun c ⟨h1, h2, h3, h4, h5⟩ ⟨_, _, _, _, _, _⟩ => ?_
  simp at h1 h2 h3 h4 h5
  constructor <;> simp only [owners, goto] at * <;> omega

theorem Accounts.accept (hi : s.threads[i]? = some (.enqueue item pr k)) {queues : Queues}
    (he : enqueueWork s.queues item pr = some queues) (c : Completion) :
    Accounts ({ s.setItem item { s.items item with refCount := (s.items item).refCount + 1 } with
      queues := queues }.goto i (.storeCallback item c)) := by
  refine h.change hi rfl rfl h.uses fun c ⟨h1, h2, h3, h4, h5⟩ ⟨_, _, _, _, _, _⟩ => ?_
  have hq := queued_enqueueWork he c
  simp at h1 h2 h3 h4 h5
  constructor <;> simp only [owners, goto, setItem] at * <;> grind

theorem Accounts.hand (hi : s.threads[i]? = some p)
    (hmarks : p.marks = [none, some item, none, none, none])
    (hx : x.account = (s.items item).account) : Accounts ((s.setItem item x).hand i item) := by
  simp only [Item.account] at hx
  refine h.change hi rfl rfl (fun p hp c hc => mem_cons_of_mem _ (h.uses p hp c hc))
    fun c ⟨h1, h2, h3, h4, h5⟩ ⟨_, _, _, _, _, _⟩ => ?_
  simp only [Place.marks, cons.injEq] at hmarks
  simp only [hmarks] at h1 h2 h3 h4 h5
  simp at h1 h2 h3 h4 h5
  constructor <;>
    simp only [owners, State.goto, State.setItem, State.hand] at * <;> grind

theorem Accounts.release {w : Bool} (hi : s.threads[i]? = some (.release item w)) :
    Accounts ((s.setItem item { s.items item with refCount := (s.items item).refCount - 1 }).goto i
      (if (s.items item).refCount = 1 then .free item w else afterRelease w)) := by
  cases w <;> split
  all_goals
    refine h.change hi rfl rfl h.uses fun c ⟨h1, h2, h3, h4, h5⟩ ⟨_, _, _, _, _, _⟩ => ?_
    simp at h1 h2 h3 h4 h5
    constructor <;>
      simp only [owners, goto, setItem, afterRelease] at * <;> grind

theorem Accounts.free {w : Bool} (hi : s.threads[i]? = some (.free item w)) :
    Accounts ((s.setItem item { s.items item with freed := true }).goto i (afterRelease w)) := by
  cases w
  all_goals
    refine h.change hi rfl rfl h.uses fun c ⟨h1, h2, h3, h4, h5⟩ ⟨_, _, _, _, _, _⟩ => ?_
    simp at h1 h2 h3 h4 h5
    constructor <;>
      simp only [owners, goto, setItem, afterRelease] at * <;> grind

theorem Accounts.beginRelease (hi : s.threads[i]? = some .idle) (hitem : item ∈ s.held)
    (hlast : ∀ p ∈ s.threads, p.uses ≠ some item) :
    Accounts ({ s with held := s.held.erase item }.goto i (.release item false)) := by
  have huses : ∀ p ∈ s.threads, ∀ c, p.uses = some c → c ∈ s.held.erase item := by
    intro p hp c hc
    have hne : c ≠ item := fun heq => hlast p hp (heq ▸ hc)
    exact (mem_erase_of_ne hne).2 (h.uses p hp c hc)
  refine h.change hi rfl rfl huses fun c ⟨h1, h2, h3, h4, h5⟩ ⟨_, _, _, _, _, _⟩ => ?_
  simp at h1 h2 h3 h4 h5
  constructor <;> simp only [owners, goto] at * <;> grind

theorem Accounts.goto (hi : s.threads[i]? = some p) (hmarks : q.marks = p.marks)
    (huses : ∀ c, q.uses = some c → p.uses = some c ∨ c ∈ s.held) : Accounts (s.goto i q) :=
  h.quiet hi rfl (fun _ => rfl) (fun _ => rfl) rfl rfl rfl hmarks huses

theorem Accounts.advance {o : Outcome} (hi : s.threads[i]? = some p)
    (hs : advance s i o p = some s') : Accounts s' := by
  cases p <;> simp only [Lifecycle.advance] at hs
  case lock =>
    split at hs
    · cases hs
      exact h.goto hi rfl (by simp)
    · split at hs <;> next hd =>
        cases hs
        have hq := fun c => queued_dequeueWork s.queues c
        simp only [hd] at hq
        first
        | exact h.dequeue hi hd
        | exact h.quiet hi rfl (fun c => (hq c).symm) (fun _ => rfl) rfl rfl rfl rfl (by simp)
  case load =>
    obtain ⟨f, -, rfl⟩ := map_eq_some_iff.1 hs
    exact h.goto hi rfl (by simp)
  case create =>
    split at hs <;> cases hs
    · exact h.create hi
    · exact h.goto hi rfl (by simp)
  case enqueue item pr k =>
    split at hs
    · cases hs
      exact h.reject hi
    split at hs
    · cases hs
      cases k.blocking
      · exact h.reject hi
      · exact h.goto hi rfl (by simp)
    · next queues he =>
      have haccept := h.accept hi he k.completion
      split at hs <;> cases hs
      · exact haccept
      all_goals
        have := haccept.hand (getElem?_set_eq hi _) rfl rfl
        simpa [State.goto, State.hand, State.setItem] using this
  case storeUserData =>
    cases hs
    exact h.hand hi rfl rfl
  case release item w =>
    cases hs
    exact h.release hi
  case free item w =>
    cases hs
    exact h.free hi
  -- the other places leave the references alone, and a worker may be through with its item
  all_goals repeat' split at hs
  all_goals cases hs
  all_goals first
    | exact h.goto hi rfl (by simp)
    | exact h.serve hi rfl rfl
    | exact h.quiet hi rfl (fun _ => rfl) (fun _ => rfl) rfl rfl rfl rfl (by simp)
    | exact h.quiet hi rfl (fun _ => rfl) (proj_setItem Item.account rfl) rfl rfl rfl rfl (by simp)

theorem Accounts.step {l : Label} (hs : step s l = some s') : Accounts s' := by
  cases l with
  | call i c =>
    simp only [Lifecycle.step] at hs
    split at hs
    · next hi =>
      cases c with
      | submit _ _ | drain =>
        cases hs
        exact h.goto hi rfl (by simp)
      | wait item | isComplete item | cancel item =>
        simp only [start] at hs
        split at hs <;> cases hs
        next hheld => exact h.goto hi rfl (by simpa using hheld)
      | release item =>
        simp only [start] at hs
        split at hs <;> cases hs
        next hheld => exact h.beginRelease hi hheld.1 hheld.2
    · cases hs
  | advance i o =>
    obtain ⟨p, hi, hs⟩ := bind_eq_some_iff.1 hs
    exact h.advance hi hs
  | workComplete i =>
    simp only [Lifecycle.step] at hs
    split at hs
    · next item hi =>
      split at hs <;> cases hs
      · exact h.quiet hi rfl (fun _ => rfl) (proj_setItem Item.account rfl) rfl rfl rfl
          rfl (by simp)
      · exact h.goto hi rfl (by simp)
    · cases hs
  | shutdown =>
    cases hs
    exact ⟨fun c => { h.account c with }, h.uses⟩

end

/-! ## Runs -/

theorem queued_initial (maxQueueSize c : Nat) :
    queued (fun p => .empty (capacity maxQueueSize p)) c = 0 := rfl

theorem mem_initial {numThreads maxQueueSize n : Nat}
    (hp : p ∈ (State.initial numThreads maxQueueSize n).threads) : p = .lock ∨ p = .idle := by
  rcases mem_append.1 hp with hp | hp
  · exact .inl (eq_of_mem_replicate hp)
  · exact .inr (eq_of_mem_replicate hp)

theorem Accounts.initial (numThreads maxQueueSize n : Nat) :
    Accounts (.initial numThreads maxQueueSize n) := by
  have hnone : ∀ f : Place → Option Nat, f .lock = none → f .idle = none → ∀ c,
      holders f (State.initial numThreads maxQueueSize n).threads c = 0 := by
    intro f h1 h2 c
    refine holders_eq_zero fun p hp hf => ?_
    rcases mem_initial hp with rfl | rfl
    · rw [h1] at hf
      cases hf
    · rw [h2] at hf
      cases hf
  refine ⟨fun c => ?_, fun p hp c hc => ?_⟩
  · have h1 := hnone Place.submits rfl rfl c
    have h2 := hnone Place.stores rfl rfl c
    have h3 := hnone Place.carries rfl rfl c
    have h4 := hnone Place.releases rfl rfl c
    have h5 := hnone Place.frees rfl rfl c
    have h6 := queued_initial maxQueueSize c
    constructor <;> simp only [owners, h1, h2, h3, h4, h5] <;> simp [State.initial, Item.create, h6]
  · rcases mem_initial hp with rfl | rfl <;> cases hc

/--
In every interleaving of workers, submitting calls and clients that release each item once, the
count of an item is the number of its owners, the last of them frees it, and nobody reads or writes
it afterwards.
-/
theorem items_counted (numThreads maxQueueSize n : Nat) (labels : List Label) :
    Transition.Always step Counted (.initial numThreads maxQueueSize n) labels :=
  Transition.Always.of_invariant (fun _ => Accounts.counted) (fun _ _ _ h hs => h.step hs)
    (.initial ..) labels

/-- No item that a submitting call has returned is lost or run twice: at every point of every
interleaving it is in one slot of the queues, or with one worker, or one worker is through with it.
-/
theorem handed_served_once (numThreads maxQueueSize n : Nat) (labels : List Label) :
    Transition.Always step (fun s => ∀ c ∈ s.handed,
        queued s.queues c + holders Place.carries s.threads c + (s.items c).served = 1)
      (.initial numThreads maxQueueSize n) labels := by
  refine Transition.Always.of_invariant (fun s (h : Accounts s) c hc => ?_)
    (fun _ _ _ h hs => h.step hs) (.initial ..) labels
  have honce := (h.account c).once
  have hpos := count_pos_iff.2 hc
  rw [(h.account c).accepted]
  omega

end IosSystem.ThreadPool.Lifecycle
