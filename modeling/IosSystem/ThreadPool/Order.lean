import IosSystem.Lib.Lanes
import IosSystem.ThreadPool.Queue

/-!
# What the queues keep, and in which order they give it back

Sequences of calls of `enqueue_work` and `dequeue_work`, each under `queue_mutex`, on queues of any
capacities. The rings refine a bounded queue with four lanes (`Log.history_call`), and what holds of
the lanes after every sequence of operations then holds of the rings (`queues_ordered`).
-/

namespace IosSystem.ThreadPool

open List Function Option Queue

/-- The value in `ios_work_priority_t`. -/
def Priority.value : Priority → Nat
  | .low => 0
  | .normal => 1
  | .high => 2
  | .urgent => 3

def Queue.Filled (q : Queue) : Prop := q.contents.length = q.count

theorem Queue.Filled.empty (capacity : Nat) : (Queue.empty capacity).Filled := rfl

theorem Queue.enqueue_eq_none_iff (q : Queue) (item : Nat) :
    q.enqueue item = none ↔ q.count = q.capacity := by
  have := q.fits
  unfold enqueue
  split
  · exact iff_of_false (by simp) (by omega)
  · exact iff_of_true rfl (by omega)

variable {q : Queue} {caps : Priority → Nat} {qs : Queues}

theorem Queue.enqueue_fields {q' : Queue} {item : Nat} (h : q.enqueue item = some q') :
    q'.capacity = q.capacity ∧ q'.count = q.count + 1 := by
  unfold enqueue at h
  split at h <;> cases h
  exact ⟨rfl, rfl⟩

theorem Queue.Filled.enqueue {q' : Queue} {item : Nat} (hq : q.Filled)
    (h : q.enqueue item = some q') : q'.Filled := by
  unfold Queue.Filled at hq ⊢
  rw [contents_enqueue h, length_append, hq, (enqueue_fields h).2]
  rfl

theorem Queue.Filled.dequeue (hq : q.Filled) (h : 0 < q.count) :
    ∃ item, (q.dequeue h).1 = some item ∧ q.contents = item :: (q.dequeue h).2.contents ∧
      (q.dequeue h).2.Filled := by
  have hcontents := contents_dequeue q h
  have hlen := congrArg length hcontents
  have hle : (q.dequeue h).2.contents.length ≤ q.count - 1 := by
    have := reduceOption_length_le
      (Ring.window (q.dequeue h).2.cells q.capacity (q.dequeue h).2.head (q.count - 1))
    rwa [Ring.length_window] at this
  rw [length_append, hq] at hlen
  cases hitem : (q.dequeue h).1 with
  | none =>
    rw [hitem, toList_none, length_nil] at hlen
    omega
  | some item =>
    rw [hitem, toList_some] at hlen hcontents
    rw [length_singleton] at hlen
    refine ⟨item, rfl, hcontents, ?_⟩
    show (q.dequeue h).2.contents.length = q.count - 1
    omega

theorem Queue.Filled.count_pos_iff (hq : q.Filled) : 0 < q.count ↔ q.contents ≠ [] := by
  rw [← hq]
  exact length_pos_iff

theorem Queue.indices_lt (q : Queue) (h : 0 < q.capacity) : q.head < q.capacity ∧
    q.tail < q.capacity := by
  rw [← q.head_mod, q.tail_eq]
  exact ⟨Nat.mod_lt _ h, Nat.mod_lt _ h⟩

def lanes (qs : Queues) (p : Priority) : List Nat := (qs p).contents

theorem lanes_update (qs : Queues) (p : Priority) (q : Queue) :
    lanes (update qs p q) = update (lanes qs) p q.contents := by
  funext p'
  by_cases h : p' = p
  · subst h
    simp [lanes]
  · simp [lanes, update_of_ne h]

/-- The queues hold as many items as they count, and have their capacities. -/
structure Represented (caps : Priority → Nat) (qs : Queues) : Prop where
  filled : ∀ p, (qs p).Filled
  capacity : ∀ p, (qs p).capacity = caps p

theorem Represented.update (h : Represented caps qs) {p : Priority} (hf : q.Filled)
    (hc : q.capacity = (qs p).capacity) :
    Represented caps (update qs p q) := by
  refine ⟨fun p' => ?_, fun p' => ?_⟩
  · by_cases hp : p' = p
    · subst hp
      rwa [update_self]
    · rw [update_of_ne hp]
      exact h.filled p'
  · by_cases hp : p' = p
    · subst hp
      rw [update_self, hc, h.capacity]
    · rw [update_of_ne hp]
      exact h.capacity p'

theorem Represented.full_iff (h : Represented caps qs)
    (p : Priority) : (qs p).count = (qs p).capacity ↔ ¬(lanes qs p).length < caps p := by
  have hfits := (qs p).fits
  have hfilled : (lanes qs p).length = (qs p).count := h.filled p
  rw [hfilled, ← h.capacity p]
  omega

theorem enqueueWork_eq_none_iff (qs : Queues) (item : Nat) (p : Priority) :
    enqueueWork qs item p = none ↔ (qs p).count = (qs p).capacity := by
  unfold enqueueWork
  rw [map_eq_none_iff]
  exact enqueue_eq_none_iff _ _

theorem Represented.enqueueWork (h : Represented caps qs) (item : Nat) (p : Priority) :
    (enqueueWork qs item p).map lanes = Lanes.put caps (lanes qs) p item ∧
      ∀ qs', enqueueWork qs item p = some qs' → Represented caps qs' := by
  unfold ThreadPool.enqueueWork
  cases hq : (qs p).enqueue item with
  | none =>
    have hfull := (h.full_iff p).1 ((enqueue_eq_none_iff _ _).1 hq)
    refine ⟨?_, fun qs' hs => (by cases hs)⟩
    rw [Lanes.put, if_neg hfull]
    rfl
  | some q =>
    have hroom : (lanes qs p).length < caps p := by
      by_contra hfull
      rw [(enqueue_eq_none_iff _ _).2 ((h.full_iff p).2 hfull)] at hq
      cases hq
    refine ⟨?_, fun qs' hs => ?_⟩
    · rw [Lanes.put, if_pos hroom, map_some, map_some, lanes_update, contents_enqueue hq]
      rfl
    · cases hs
      exact h.update ((h.filled p).enqueue hq) (enqueue_fields hq).1

theorem Represented.dequeueFrom (h : Represented caps qs) (ps : List Priority) :
    ((dequeueFrom qs ps).1, lanes (dequeueFrom qs ps).2) = Lanes.take (lanes qs) ps ∧
      Represented caps (dequeueFrom qs ps).2 := by
  induction ps with
  | nil => exact ⟨rfl, h⟩
  | cons p ps ih =>
    unfold ThreadPool.dequeueFrom Lanes.take
    split
    · next hpos =>
      obtain ⟨item, hitem, hcontents, hfilled⟩ := (h.filled p).dequeue hpos
      have hlane : lanes qs p = item :: ((qs p).dequeue hpos).2.contents := hcontents
      refine ⟨?_, h.update hfilled rfl⟩
      simp [hlane, hitem, lanes_update]
    · next hzero =>
      have hlane : lanes qs p = [] := by
        by_contra hne
        exact hzero ((h.filled p).count_pos_iff.2 hne)
      simp only [hlane]
      exact ih

/-- The order in which `dequeue_work` looks at the queues. -/
def dequeueOrder : List Priority := [.urgent, .high, .normal, .low]

theorem mem_dequeueOrder_before {before after : List Priority} {p : Priority}
    (h : dequeueOrder = before ++ p :: after) (p' : Priority) (hlt : p.value < p'.value) :
    p' ∈ before := by
  have hmem : p' ∈ before ++ p :: after := by
    rw [← h]
    cases p' <;> decide
  have hsorted : (before ++ p :: after).Pairwise fun a b => b.value < a.value := by
    rw [← h]
    decide
  rcases mem_append.1 hmem with hb | ha
  · exact hb
  · have htail := (pairwise_append.1 hsorted).2.1
    rcases mem_cons.1 ha with rfl | ha
    · exact absurd hlt (Nat.lt_irrefl _)
    · exact absurd ((pairwise_cons.1 htail).1 p' ha) (by omega)

/-- A call under `queue_mutex`. -/
inductive QueueCall where
  | enqueueWork (item : Nat)
  | dequeueWork

/-- The queues, with the items that `enqueue_work` has accepted and those that `dequeue_work` has
returned, in the order of the calls. -/
structure Log where
  queues : Queues
  accepted : List Nat
  dequeued : List Nat

def Log.initial (caps : Priority → Nat) : Log := ⟨fun p => .empty (caps p), [], []⟩

/-- One call; `priority` is the field of the items. -/
def Log.call (priority : Nat → Priority) (s : Log) : QueueCall → Log
  | .enqueueWork item =>
    match enqueueWork s.queues item (priority item) with
    | some queues => { s with queues := queues, accepted := s.accepted ++ [item] }
    | none => s
  | .dequeueWork =>
    { s with
      queues := (dequeueWork s.queues).2
      dequeued := s.dequeued ++ (dequeueWork s.queues).1.toList }

def Log.history (s : Log) : Lanes.History Priority Nat := ⟨lanes s.queues, s.accepted, s.dequeued⟩

def QueueCall.op : QueueCall → Lanes.Op Nat
  | .enqueueWork item => .put item
  | .dequeueWork => .take

theorem Log.history_call {s : Log} (h : Represented caps s.queues)
    (priority : Nat → Priority) (c : QueueCall) :
    (s.call priority c).history = s.history.step caps dequeueOrder priority c.op ∧
      Represented caps (s.call priority c).queues := by
  cases c with
  | enqueueWork item =>
    obtain ⟨hput, hrep⟩ := h.enqueueWork item (priority item)
    cases hq : enqueueWork s.queues item (priority item) with
    | none =>
      rw [hq, map_none] at hput
      simp only [Log.call, hq, QueueCall.op, Lanes.History.step, Log.history, ← hput]
      exact ⟨trivial, h⟩
    | some qs =>
      rw [hq, map_some] at hput
      simp only [Log.call, hq, QueueCall.op, Lanes.History.step, Log.history, ← hput]
      exact ⟨trivial, hrep qs hq⟩
  | dequeueWork =>
    obtain ⟨htake, hrep⟩ := h.dequeueFrom dequeueOrder
    refine ⟨?_, hrep⟩
    simp only [Lanes.History.step, Log.history, ← htake]
    rfl

theorem Log.history_run (priority : Nat → Priority) (caps : Priority → Nat)
    (calls : List QueueCall) :
    (calls.foldl (Log.call priority) (Log.initial caps)).history
      = (calls.map QueueCall.op).foldl (Lanes.History.step caps dequeueOrder priority) .empty ∧
    Represented caps (calls.foldl (Log.call priority) (Log.initial caps)).queues := by
  induction calls using reverseRecOn with
  | nil => exact ⟨rfl, ⟨fun p => .empty (caps p), fun _ => rfl⟩⟩
  | append_singleton calls c ih =>
    rw [foldl_append, map_append, foldl_append, ← ih.1]
    exact Log.history_call ih.2 priority c

/-- `dequeue_work` returns the oldest item of the highest priority that has one. -/
def OldestOfHighest (qs : Queues) : Option Nat → Prop
  | some item => ∃ p, (qs p).contents.head? = some item ∧
      ∀ p' : Priority, p.value < p'.value → (qs p').contents = []
  | none => ∀ p, (qs p).contents = []

/-- What callers rely on: nothing lost, first in first out, higher priorities first. -/
structure Log.Ordered (priority : Nat → Priority) (caps : Priority → Nat) (s : Log) : Prop where
  /-- nothing is lost, and nothing is there twice -/
  kept : ∀ item, s.accepted.count item = s.dequeued.count item + queued s.queues item
  fifo : ∀ p, s.accepted.filter (fun item => decide (priority item = p))
    = s.dequeued.filter (fun item => decide (priority item = p)) ++ (s.queues p).contents
  rejects : ∀ item, enqueueWork s.queues item (priority item) = none ↔
    (s.queues (priority item)).contents.length = caps (priority item)
  dequeues : OldestOfHighest s.queues (dequeueWork s.queues).1
  counted : ∀ p, (s.queues p).count = (s.queues p).contents.length ∧ (s.queues p).count ≤ caps p
  indices : ∀ p, 0 < caps p → (s.queues p).head < caps p ∧ (s.queues p).tail < caps p

theorem queued_eq_count {priority : Nat → Priority} {s : Log}
    (h : s.history.Ordered caps priority) (item : Nat) :
    queued s.queues item = (s.queues (priority item)).contents.count item := by
  have hother : ∀ p, priority item ≠ p → (s.queues p).contents.count item = 0 :=
    fun p hp => h.count_lane_of_ne hp
  unfold queued
  cases hp : priority item with
  | urgent => rw [hother .high, hother .normal, hother .low] <;> simp [hp]
  | high => rw [hother .urgent, hother .normal, hother .low] <;> simp [hp]
  | normal => rw [hother .urgent, hother .high, hother .low] <;> simp [hp]
  | low => rw [hother .urgent, hother .high, hother .normal] <;> simp [hp]

theorem Represented.oldestOfHighest (h : Represented caps qs) :
    OldestOfHighest qs (ThreadPool.dequeueWork qs).1 := by
  have htake := congrArg Prod.fst (h.dequeueFrom dequeueOrder).1
  have hdeq : (ThreadPool.dequeueWork qs).1 = (Lanes.take (lanes qs) dequeueOrder).1 := htake
  rw [hdeq]
  rcases Lanes.take_cases (lanes qs) dequeueOrder with
    ⟨before, p, after, item, rest, horder, hbefore, hp, hres⟩ | ⟨hnone, hres⟩
  · rw [hres]
    refine ⟨p, ?_, fun p' hlt => hbefore p' (mem_dequeueOrder_before horder p' hlt)⟩
    have : (qs p).contents = item :: rest := hp
    rw [this, head?_cons]
  · rw [hres]
    exact fun p => hnone p (by cases p <;> decide)

/-- After every sequence of calls, on queues of all capacities and with items of all priorities. -/
theorem queues_ordered (priority : Nat → Priority) (caps : Priority → Nat)
    (calls : List QueueCall) :
    (calls.foldl (Log.call priority) (Log.initial caps)).Ordered priority caps := by
  obtain ⟨hhist, hrep⟩ := Log.history_run priority caps calls
  have hord := Lanes.ordered_run caps dequeueOrder priority (calls.map QueueCall.op)
  rw [← hhist] at hord
  generalize calls.foldl (Log.call priority) (Log.initial caps) = s at hrep hord
  refine ⟨fun item => ?_, hord.fifo, fun item => ?_, hrep.oldestOfHighest,
    fun p => ?_, fun p hp => ?_⟩
  · rw [queued_eq_count hord]
    exact hord.count_accepted item
  · have hcount : (s.queues (priority item)).contents.length = (s.queues (priority item)).count :=
      hrep.filled _
    rw [enqueueWork_eq_none_iff, hcount, hrep.capacity]
  · have hfits := (s.queues p).fits
    rw [hrep.capacity] at hfits
    exact ⟨(hrep.filled p).symm, hfits⟩
  · have hlt := (s.queues p).indices_lt
    rw [hrep.capacity] at hlt
    exact hlt hp

end IosSystem.ThreadPool
