import Mathlib.Data.List.Induction
import Mathlib.Logic.Function.Basic

/-!
# A bounded queue with lanes

Each element has a key, and each key has a lane of a fixed capacity. `put` appends to the lane of
the element, `take` serves the first lane that is not empty, in a fixed order of the keys. After
every sequence of operations (`ordered_run`) what was accepted is, lane by lane, what was served
followed by what is there.
-/

namespace Lanes

open List Function

variable {κ α : Type} [DecidableEq κ]

/-- Append to a lane that has room. -/
def put (capacity : κ → Nat) (lanes : κ → List α) (k : κ) (x : α) : Option (κ → List α) :=
  if (lanes k).length < capacity k then some (Function.update lanes k (lanes k ++ [x])) else none

/-- Serve the first lane that is not empty. -/
def take (lanes : κ → List α) : List κ → Option α × (κ → List α)
  | [] => (none, lanes)
  | k :: ks =>
    match lanes k with
    | [] => take lanes ks
    | x :: xs => (some x, Function.update lanes k xs)

theorem take_cases (lanes : κ → List α) (order : List κ) :
    (∃ before k after x xs, order = before ++ k :: after ∧ (∀ j ∈ before, lanes j = []) ∧
      lanes k = x :: xs ∧ take lanes order = (some x, Function.update lanes k xs)) ∨
    ((∀ j ∈ order, lanes j = []) ∧ take lanes order = (none, lanes)) := by
  induction order with
  | nil => exact .inr ⟨fun j hj => (by cases hj), rfl⟩
  | cons k ks ih =>
    cases hk : lanes k with
    | cons x xs =>
      refine .inl ⟨[], k, ks, x, xs, rfl, fun j hj => (by cases hj), hk, ?_⟩
      simp [take, hk]
    | nil =>
      have htake : take lanes (k :: ks) = take lanes ks := by simp only [take, hk]
      rw [htake]
      rcases ih with ⟨before, l, after, x, xs, horder, hbefore, hl, hres⟩ | ⟨hnone, hres⟩
      · refine .inl ⟨k :: before, l, after, x, xs, ?_, ?_, hl, hres⟩
        · rw [horder, cons_append]
        · exact forall_mem_cons.2 ⟨hk, hbefore⟩
      · exact .inr ⟨forall_mem_cons.2 ⟨hk, hnone⟩, hres⟩

/-- The lanes, and the elements that came in and went out. -/
structure History (κ α : Type) where
  lanes : κ → List α
  accepted : List α
  served : List α

def History.empty : History κ α := ⟨fun _ => [], [], []⟩

/-- An operation of the abstract queue. -/
inductive Op (α : Type) where
  | put (x : α)
  | take

/-- One operation; an element that finds no room is left out. -/
def History.step (capacity : κ → Nat) (order : List κ) (key : α → κ) (h : History κ α) :
    Op α → History κ α
  | .put x =>
    match put capacity h.lanes (key x) x with
    | some lanes => { h with lanes := lanes, accepted := h.accepted ++ [x] }
    | none => h
  | .take =>
    { h with
      lanes := (take h.lanes order).2
      served := h.served ++ (take h.lanes order).1.toList }

/-- First in, first out in each lane, within its capacity. -/
structure History.Ordered (capacity : κ → Nat) (key : α → κ) (h : History κ α) : Prop where
  fifo : ∀ k, h.accepted.filter (fun x => decide (key x = k))
    = h.served.filter (fun x => decide (key x = k)) ++ h.lanes k
  room : ∀ k, (h.lanes k).length ≤ capacity k

variable {capacity : κ → Nat} {key : α → κ} {h : History κ α}

theorem History.Ordered.key_eq (ho : h.Ordered capacity key) {k : κ} {x : α} (hx : x ∈ h.lanes k) :
    key x = k := by
  have hmem : x ∈ h.accepted.filter (fun x => decide (key x = k)) := by
    rw [ho.fifo k]
    exact mem_append_right _ hx
  exact of_decide_eq_true (mem_filter.1 hmem).2

theorem History.Ordered.put (ho : h.Ordered capacity key) (order : List κ) (x : α) :
    (h.step capacity order key (.put x)).Ordered capacity key := by
  by_cases hlt : (h.lanes (key x)).length < capacity (key x)
  · simp only [History.step, Lanes.put, if_pos hlt]
    refine ⟨fun k => ?_, fun k => ?_⟩
    · rw [filter_append, ho.fifo k, append_assoc]
      by_cases hk : k = key x
      · subst hk
        simp
      · simp [update_of_ne hk, Ne.symm hk]
    · by_cases hk : k = key x
      · subst hk
        simpa using Nat.succ_le_of_lt hlt
      · simpa [update_of_ne hk] using ho.room k
  · simpa only [History.step, Lanes.put, if_neg hlt] using ho

theorem History.Ordered.take (ho : h.Ordered capacity key) (order : List κ) :
    (h.step capacity order key .take).Ordered capacity key := by
  rcases take_cases h.lanes order with ⟨-, k, -, x, xs, -, -, hk, hres⟩ | ⟨-, hres⟩
  · have hkey : key x = k := ho.key_eq (hk ▸ mem_cons_self)
    simp only [History.step, hres]
    refine ⟨fun j => ?_, fun j => ?_⟩
    · rw [filter_append, append_assoc, ho.fifo j]
      by_cases hj : j = k
      · subst hj
        simp [hk, hkey]
      · simp [update_of_ne hj, hkey, Ne.symm hj]
    · show (update h.lanes k xs j).length ≤ capacity j
      have hroom := ho.room j
      by_cases hj : j = k
      · subst hj
        rw [hk, length_cons] at hroom
        rw [update_self]
        omega
      · rwa [update_of_ne hj]
  · simpa only [History.step, hres, Option.toList_none, append_nil] using ho

/-- Whatever is put and taken, the history is ordered. -/
theorem ordered_run (capacity : κ → Nat) (order : List κ) (key : α → κ) (ops : List (Op α)) :
    (ops.foldl (History.step capacity order key) History.empty).Ordered capacity key := by
  induction ops using reverseRecOn with
  | nil => exact ⟨fun _ => rfl, fun _ => Nat.zero_le _⟩
  | append_singleton ops op ih =>
    rw [foldl_append]
    cases op with
    | put x => exact ih.put order x
    | take => exact ih.take order

theorem History.Ordered.count_accepted [DecidableEq α] (ho : h.Ordered capacity key) (x : α) :
    h.accepted.count x = h.served.count x + (h.lanes (key x)).count x := by
  have hcount := congrArg (count x) (ho.fifo (key x))
  rwa [count_append, count_filter (by simp), count_filter (by simp)] at hcount

theorem History.Ordered.count_lane_of_ne [DecidableEq α] (ho : h.Ordered capacity key) {x : α}
    {k : κ} (hk : key x ≠ k) : (h.lanes k).count x = 0 :=
  count_eq_zero.2 fun hx => hk (ho.key_eq hx)

end Lanes
