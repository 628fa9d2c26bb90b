import IosSystem.Lib.Ring
import Mathlib.Data.List.ReduceOption

/-!
# The queues of the thread pool

Four circular buffers of `ios_thread_pool.c`, one for each priority. `enqueue_work` and
`dequeue_work` run under `queue_mutex`.

A `Queue` carries what the indices mean, and `Queue.contents` is the list of the items in it.
-/

namespace IosSystem.ThreadPool

open List Option Function Ring

inductive Priority where
  | low
  | normal
  | high
  | urgent
  deriving DecidableEq

/-- A ring of items. -/
structure Queue where
  cells : Nat → Option Nat
  head : Nat
  tail : Nat
  count : Nat
  capacity : Nat
  fits : count ≤ capacity
  head_mod : head % capacity = head
  tail_eq : tail = (head + count) % capacity

namespace Queue

/-- The state that `ios_thread_pool_create` gives it. -/
def empty (capacity : Nat) : Queue :=
  { cells := fun _ => none
    head := 0
    tail := 0
    count := 0
    capacity := capacity
    fits := Nat.zero_le _
    head_mod := Nat.zero_mod _
    tail_eq := (Nat.zero_mod _).symm }

/-- The items from the oldest on. -/
def contents (q : Queue) : List Nat :=
  (Ring.window q.cells q.capacity q.head q.count).reduceOption

/-- The part of `enqueue_work` that is about one buffer; `none` is the result -1. -/
def enqueue (q : Queue) (item : Nat) : Option Queue :=
  if h : q.count < q.capacity then
    some { q with
      cells := update q.cells q.tail (some item)
      tail := (q.tail + 1) % q.capacity
      count := q.count + 1
      fits := h
      tail_eq := by rw [q.tail_eq, Nat.mod_add_mod, Nat.add_assoc] }
  else none

/-- The part of `dequeue_work` that is about one buffer that is not empty. -/
def dequeue (q : Queue) (h : 0 < q.count) : Option Nat × Queue :=
  (q.cells q.head, { q with
      cells := update q.cells q.head none
      head := (q.head + 1) % q.capacity
      count := q.count - 1
      fits := Nat.le_trans (Nat.sub_le _ _) q.fits
      head_mod := Nat.mod_mod _ _
      tail_eq := by
        have := q.tail_eq
        rw [Nat.mod_add_mod, Nat.add_assoc, Nat.add_sub_cancel' h, this] })

theorem contents_enqueue {q q' : Queue} {item : Nat} (h : q.enqueue item = some q') :
    q'.contents = q.contents ++ [item] := by
  unfold enqueue at h
  split at h <;> cases h
  next hlt =>
    show (window (update q.cells q.tail (some item)) q.capacity q.head
      (q.count + 1)).reduceOption = q.contents ++ [item]
    rw [q.tail_eq, window_update_end _ _ _ hlt, reduceOption_append]
    rfl

theorem contents_dequeue (q : Queue) (h : 0 < q.count) :
    q.contents = (q.dequeue h).1.toList ++ (q.dequeue h).2.contents := by
  have hsplit : q.count = 1 + (q.count - 1) := by omega
  have hlt : q.count - 1 < q.capacity := by
    have := q.fits
    omega
  have hhead : window q.cells q.capacity q.head 1 = [q.cells q.head] := by
    simp [window, q.head_mod]
  have hrest : window (update q.cells q.head none) q.capacity
      ((q.head + 1) % q.capacity) (q.count - 1)
      = window q.cells q.capacity ((q.head + 1) % q.capacity) (q.count - 1) := by
    have := window_update_front q.cells q.head none hlt
    rwa [q.head_mod] at this
  show _ = (q.cells q.head).toList ++ (window (update q.cells q.head none) q.capacity
    ((q.head + 1) % q.capacity) (q.count - 1)).reduceOption
  unfold contents
  rw [hrest, hsplit, window_add, reduceOption_append, hhead, Nat.add_sub_cancel_left]
  cases q.cells q.head <;> rfl

end Queue

/-- `queue_urgent`, `queue_high`, `queue_normal` and `queue_low` -/
abbrev Queues := Priority → Queue

/-- The capacities that `ios_thread_pool_create` gives the queues. -/
def capacity (maxQueueSize : Nat) : Priority → Nat
  | .urgent => maxQueueSize / 8
  | .high => maxQueueSize / 4
  | .normal => maxQueueSize / 2
  | .low => maxQueueSize / 8

/-- `enqueue_work` -/
def enqueueWork (qs : Queues) (item : Nat) (p : Priority) : Option Queues :=
  ((qs p).enqueue item).map (update qs p)

/-- The loop of `dequeue_work` over the priorities. -/
def dequeueFrom (qs : Queues) : List Priority → Option Nat × Queues
  | [] => (none, qs)
  | p :: ps =>
    if h : 0 < (qs p).count then
      (((qs p).dequeue h).1, update qs p ((qs p).dequeue h).2)
    else dequeueFrom qs ps

/-- `dequeue_work` -/
def dequeueWork (qs : Queues) : Option Nat × Queues :=
  dequeueFrom qs [.urgent, .high, .normal, .low]

def queued (qs : Queues) (item : Nat) : Nat :=
  (qs .urgent).contents.count item + (qs .high).contents.count item
    + (qs .normal).contents.count item + (qs .low).contents.count item

theorem queued_update (qs : Queues) (p : Priority) (q : Queue) (item : Nat) :
    queued (update qs p q) item + (qs p).contents.count item
      = queued qs item + q.contents.count item := by
  unfold queued
  cases p <;> simp only [update_apply, reduceCtorEq, if_false, if_true] <;> omega

theorem queued_enqueueWork {qs qs' : Queues} {item : Nat} {p : Priority}
    (h : enqueueWork qs item p = some qs') (c : Nat) :
    queued qs' c = queued qs c + if item = c then 1 else 0 := by
  obtain ⟨q, hq, rfl⟩ := map_eq_some_iff.1 h
  have hu := queued_update qs p q c
  rw [Queue.contents_enqueue hq, count_append, count_singleton] at hu
  simp only [beq_iff_eq] at hu
  omega

theorem queued_dequeueFrom (qs : Queues) (ps : List Priority) (c : Nat) :
    queued qs c = queued (dequeueFrom qs ps).2 c
      + if (dequeueFrom qs ps).1 = some c then 1 else 0 := by
  induction ps with
  | nil => simp [dequeueFrom]
  | cons p ps ih =>
    unfold dequeueFrom
    split
    · next h =>
      have hu := queued_update qs p ((qs p).dequeue h).2 c
      have hc := congrArg (count c) (Queue.contents_dequeue (qs p) h)
      rw [count_append] at hc
      cases hd : ((qs p).dequeue h).1 with
      | none =>
        rw [hd] at hc
        simp only [toList_none, count_nil] at hc
        simp only [reduceCtorEq, if_false]
        omega
      | some item =>
        rw [hd] at hc
        simp only [toList_some, count_singleton, beq_iff_eq] at hc
        simp only [some.injEq]
        omega
    · exact ih

theorem queued_dequeueWork (qs : Queues) (c : Nat) :
    queued qs c = queued (dequeueWork qs).2 c + if (dequeueWork qs).1 = some c then 1 else 0 :=
  queued_dequeueFrom qs _ c

end IosSystem.ThreadPool
