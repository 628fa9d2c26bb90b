import Mathlib.Data.List.Basic

/-!
# Merging two traces

`Shuffle t u v` says that `v` is made of the events of `t` and of `u`, each in their order: what two
threads do together. With one of them empty nothing is left to choose, and running one after the
other is always one of the choices.
-/

/-- The third list is made of the other two, each in its order. -/
inductive Shuffle {α : Type} : List α → List α → List α → Prop
  | nil : Shuffle [] [] []
  | left {a : α} {t u v : List α} : Shuffle t u v → Shuffle (a :: t) u (a :: v)
  | right {a : α} {t u v : List α} : Shuffle t u v → Shuffle t (a :: u) (a :: v)

namespace Shuffle

variable {α : Type}

theorem nil_left (u : List α) : Shuffle [] u u := by
  induction u with
  | nil => exact .nil
  | cons a u ih => exact ih.right

theorem append (t u : List α) : Shuffle t u (t ++ u) := by
  induction t with
  | nil => exact nil_left u
  | cons a t ih => exact ih.left

theorem eq_of_nil_right {t v : List α} (h : Shuffle t [] v) : v = t := by
  induction t generalizing v with
  | nil =>
    cases h
    rfl
  | cons a t ih =>
    cases h with
    | left h => rw [ih h]

theorem mem_of_left {t u v : List α} (h : Shuffle t u v) {a : α} (ha : a ∈ t) : a ∈ v := by
  induction h with
  | nil => exact ha
  | left _ ih =>
    rcases List.mem_cons.1 ha with rfl | ha
    · exact List.mem_cons_self
    · exact List.mem_cons_of_mem _ (ih ha)
  | right _ ih => exact List.mem_cons_of_mem _ (ih ha)

end Shuffle
