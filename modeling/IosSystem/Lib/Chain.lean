import Mathlib.Data.List.Nodup
import Mathlib.Logic.Function.Basic

/-!
# Linked lists through a next pointer

`Chain next head l` says that following `next` from `head` visits the cells of `l` and then ends.
A chain that ends visits no cell twice. `Reaches` is reachability through the same pointers,
whether they end or not.
-/

namespace Linked

variable {α : Type}

/-- The cells that `next` visits from a pointer, up to the null pointer. -/
inductive Chain (next : α → Option α) : Option α → List α → Prop
  | nil : Chain next none []
  | cons {c : α} {l : List α} : Chain next (next c) l → Chain next (some c) (c :: l)

/-- The cell can be reached from the pointer. -/
inductive Reaches (next : α → Option α) : Option α → α → Prop
  | here {c : α} : Reaches next (some c) c
  | there {c d : α} : Reaches next (next c) d → Reaches next (some c) d

namespace Chain

variable {next next' : α → Option α} {head : Option α} {l l' : List α} {c : α}

theorem unique (h : Chain next head l) (h' : Chain next head l') : l = l' := by
  induction h generalizing l' with
  | nil => cases h'; rfl
  | cons _ ih =>
    cases h' with
    | cons h' => rw [ih h']

theorem head_cons (h : Chain next (some c) l) : ∃ l', l = c :: l' ∧ Chain next (next c) l' := by
  cases h with
  | cons h => exact ⟨_, rfl, h⟩

theorem suffix (h : Chain next head l) (hc : c ∈ l) :
    ∃ l', Chain next (some c) l' ∧ l'.length ≤ l.length := by
  induction h with
  | nil => cases hc
  | @cons d l hl ih =>
    rcases List.mem_cons.1 hc with rfl | hc
    · exact ⟨_, .cons hl, Nat.le_refl _⟩
    · obtain ⟨l', hl', hle⟩ := ih hc
      exact ⟨l', hl', Nat.le_succ_of_le hle⟩

theorem nodup (h : Chain next head l) : l.Nodup := by
  induction h with
  | nil => exact List.nodup_nil
  | @cons d l hl ih =>
    refine List.nodup_cons.2 ⟨fun hd => ?_, ih⟩
    -- a second visit of `d` would have as long a rest as the first
    obtain ⟨l', hl', hle⟩ := hl.suffix hd
    have := hl'.unique (.cons hl)
    rw [this] at hle
    exact Nat.not_succ_le_self _ hle

theorem congr (h : Chain next head l) (hn : ∀ c ∈ l, next' c = next c) : Chain next' head l := by
  induction h with
  | nil => exact .nil
  | @cons d l _ ih =>
    refine .cons ?_
    rw [hn d List.mem_cons_self]
    exact ih fun c hc => hn c (List.mem_cons_of_mem _ hc)

theorem update [DecidableEq α] (h : Chain next head l) (hc : c ∉ l) (p : Option α) :
    Chain (Function.update next c p) head l := by
  refine h.congr fun d hd => Function.update_of_ne ?_ ..
  rintro rfl
  exact hc hd

theorem reaches_iff (h : Chain next head l) : Reaches next head c ↔ c ∈ l := by
  constructor
  · intro hr
    induction hr generalizing l with
    | here =>
      obtain ⟨l', rfl, -⟩ := h.head_cons
      exact List.mem_cons_self
    | there _ ih =>
      obtain ⟨l', rfl, h'⟩ := h.head_cons
      exact List.mem_cons_of_mem _ (ih h')
  · intro hc
    induction h with
    | nil => cases hc
    | cons _ ih =>
      rcases List.mem_cons.1 hc with rfl | hc
      · exact .here
      · exact .there (ih hc)

end Chain

end Linked
