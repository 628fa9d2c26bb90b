import Mathlib.Data.List.Basic
import Mathlib.Logic.Relation
import IosSystem.Lib.Threads

/-!
# Mutexes and the places of threads

Where a thread is in its code says which mutexes it holds. `Owned` says that the owner of a mutex is
the thread at such a place. It is an invariant if every step changes the owner and the place
together (`Change`). A relation whose edges all go down in some rank has no cycle.
-/

namespace Mutex

variable {α : Type}

/-- The owner is the one thread at a place that holds the mutex. -/
def Owned (holds : α → Bool) (owner : Option Nat) (threads : List α) : Prop :=
  ∀ j, owner = some j ↔ ∃ p, threads[j]? = some p ∧ holds p = true

/-- What a step of thread `i` from `p` to `q` does to the mutex. -/
inductive Change (holds : α → Bool) (i : Nat) (p q : α) : Option Nat → Option Nat → Prop
  | keep {owner : Option Nat} : holds q = holds p → Change holds i p q owner owner
  | lock : holds p = false → holds q = true → Change holds i p q none (some i)
  | unlock {owner : Option Nat} : holds p = true → holds q = false → Change holds i p q owner none

variable {holds : α → Bool} {owner owner' : Option Nat} {threads : List α} {i j : Nat} {p q : α}

section

variable (h : Owned holds owner threads)
include h

theorem Owned.owner_eq (hj : threads[j]? = some p) (hp : holds p = true) : owner = some j :=
  (h j).mpr ⟨p, hj, hp⟩

theorem Owned.index_eq (hi : threads[i]? = some p) (hj : threads[j]? = some q) (hp : holds p = true)
    (hq : holds q = true) : i = j :=
  Option.some.inj ((h.owner_eq hi hp).symm.trans (h.owner_eq hj hq))

/-- A step that keeps to the mutex leaves it with its owner. -/
theorem Owned.step (hi : threads[i]? = some p) (hc : Change holds i p q owner owner') :
    Owned holds owner' (threads.set i q) := by
  have hself := Threads.getElem?_set_eq hi q
  intro j
  by_cases hji : j = i
  · subst hji
    simp only [hself, Option.some.injEq, exists_eq_left']
    cases hc with
    | keep hkeep =>
      rw [h j, hkeep]
      simp [hi]
    | lock _ hq => simp only [hq]
    | unlock _ hq => simp [hq]
  · rw [List.getElem?_set_ne (Ne.symm hji)]
    cases hc with
    | keep => exact h j
    | lock => rw [← h j]; simp [Ne.symm hji]
    | unlock hp =>
      rw [← h j, h.owner_eq hi hp]
      simp [Ne.symm hji]

end

theorem Owned.replicate (n : Nat) (hp : holds p = false) :
    Owned holds none (List.replicate n p) := by
  intro j
  constructor
  · intro h
    cases h
  · rintro ⟨q, hj, hq⟩
    obtain rfl := List.eq_of_mem_replicate (List.mem_of_getElem? hj)
    rw [hp] at hq
    cases hq

/-- Nobody waits for himself if the rank goes down. -/
theorem acyclic_of_rank {β : Type} {r : β → β → Prop} (rank : β → Nat)
    (h : ∀ a b, r a b → rank b < rank a) (a : β) : ¬Relation.TransGen r a a := by
  have hlt : ∀ a b, Relation.TransGen r a b → rank b < rank a := by
    intro a b hab
    induction hab with
    | single hab => exact h _ _ hab
    | tail _ hbc ih => exact Nat.lt_trans (h _ _ hbc) ih
  exact fun haa => Nat.lt_irrefl _ (hlt a a haa)

end Mutex
