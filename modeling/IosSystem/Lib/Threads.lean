import Mathlib.Data.List.Basic
import Mathlib.Algebra.Order.Group.Nat

/-!
# A list of threads

The state of `n` threads is a list of the places at which they are. A step of thread `i` changes
its place; the lemmas say what that does to the number of threads at places of some kind.
-/

namespace Threads

open List

variable {α : Type} {threads : List α} {i : Nat} {a b : α}

section

variable (h : threads[i]? = some a)
include h

theorem countP_set_add (b : α) (p : α → Bool) :
    (threads.set i b).countP p + (if p a then 1 else 0)
      = threads.countP p + if p b then 1 else 0 := by
  induction threads generalizing i with
  | nil => simp at h
  | cons c threads ih =>
    cases i with
    | zero =>
      simp only [getElem?_cons_zero, Option.some.injEq] at h
      subst h
      simp only [set_cons_zero, countP_cons]
      omega
    | succ i =>
      simp only [getElem?_cons_succ] at h
      simp only [set_cons_succ, countP_cons]
      have := ih h
      omega

variable {p : α → Bool}

theorem countP_set_of_eq (hp : p b = p a) : (threads.set i b).countP p = threads.countP p := by
  have := countP_set_add h b p
  rw [hp] at this
  omega

theorem countP_set_le (hp : p b = true → p a = true) :
    (threads.set i b).countP p ≤ threads.countP p := by
  have hset := countP_set_add h b p
  by_cases hb : p b = true
  · rw [if_pos hb, if_pos (hp hb)] at hset
    omega
  · rw [if_neg hb] at hset
    omega

theorem countP_set_enter (ha : p a = false) (hb : p b = true) :
    (threads.set i b).countP p = threads.countP p + 1 := by
  have := countP_set_add h b p
  simpa [ha, hb] using this

theorem countP_set_leave (ha : p a = true) (hb : p b = false) :
    (threads.set i b).countP p + 1 = threads.countP p := by
  have := countP_set_add h b p
  simpa [ha, hb] using this

theorem countP_pos (ha : p a = true) : 0 < threads.countP p :=
  countP_pos_iff.mpr ⟨a, mem_of_getElem? h, ha⟩

end

theorem forall_mem_set {q : α → Prop} (h : ∀ c ∈ threads, q c) (hb : q b) :
    ∀ c ∈ threads.set i b, q c := by
  intro c hc
  rcases mem_or_eq_of_mem_set hc with hc | rfl
  · exact h c hc
  · exact hb

variable {c : α}

theorem mem_set_of_ne (h : threads[i]? = some a) (hc : c ∈ threads) (hne : c ≠ a) :
    c ∈ threads.set i b := by
  obtain ⟨j, hj⟩ := mem_iff_getElem?.1 hc
  have hij : i ≠ j := by
    rintro rfl
    exact hne (Option.some.inj (hj.symm.trans h))
  exact mem_iff_getElem?.2 ⟨j, by rw [getElem?_set_ne hij, hj]⟩

theorem getElem?_set_eq (h : threads[i]? = some a) (b : α) : (threads.set i b)[i]? = some b :=
  List.getElem?_set_self (List.getElem?_eq_some_iff.1 h).1

theorem getElem?_set_of_ne {k : Nat} (hne : k ≠ i) (h : threads[k]? = some c) (b : α) :
    (threads.set i b)[k]? = some c := by
  rw [getElem?_set_ne hne.symm, h]

theorem getElem?_set_cases {k : Nat} (h : (threads.set i b)[k]? = some c) :
    (k = i ∧ c = b) ∨ (k ≠ i ∧ threads[k]? = some c) := by
  by_cases hki : k = i
  · subst hki
    have hlt : k < threads.length := by
      have := (List.getElem?_eq_some_iff.1 h).1
      rwa [List.length_set] at this
    rw [List.getElem?_set_self hlt] at h
    exact .inl ⟨rfl, (Option.some.inj h).symm⟩
  · rw [List.getElem?_set_ne (Ne.symm hki)] at h
    exact .inr ⟨hki, h⟩

section

variable (h : threads[i]? = some a)
include h

theorem set_eq_self : threads.set i a = threads := by
  obtain ⟨hi, he⟩ := List.getElem?_eq_some_iff.1 h
  rw [← he, List.set_getElem_self]

theorem mem_set_self (b : α) : b ∈ threads.set i b :=
  List.mem_set (List.getElem?_eq_some_iff.1 h).1 b

theorem map_set_of_eq {γ : Type} {g : α → γ} (hg : g b = g a) :
    (threads.set i b).map g = threads.map g := by
  refine List.ext_getElem? fun j => ?_
  rw [List.getElem?_map, List.getElem?_map, List.getElem?_set]
  split
  · next hij =>
    subst hij
    rw [if_pos (List.getElem?_eq_some_iff.1 h).1, h, Option.map_some, Option.map_some, hg]
  · rfl

end

section holders

variable {β : Type} [DecidableEq β] {f : α → Option β}

/-- The number of threads whose place has `x`. -/
def holders (f : α → Option β) (threads : List α) (x : β) : Nat :=
  threads.countP fun c => f c = some x

variable {x : β}

section

variable (h : threads[i]? = some a)
include h

/-- How one step changes the number of threads that hold `x`. -/
theorem holders_set (f : α → Option β) (b : α) (x : β) :
    holders f (threads.set i b) x + (if f a = some x then 1 else 0)
      = holders f threads x + if f b = some x then 1 else 0 := by
  unfold holders
  simpa using countP_set_add h b fun c => decide (f c = some x)

theorem holders_set_of_eq (hf : f b = f a) (x : β) :
    holders f (threads.set i b) x = holders f threads x := by
  have := holders_set h f b x
  rw [hf] at this
  omega

theorem holders_set_le (hf : f b = some x → f a = some x) :
    holders f (threads.set i b) x ≤ holders f threads x :=
  countP_set_le h fun hb => decide_eq_true (hf (of_decide_eq_true hb))

end

theorem holders_map {g : α → α} (hg : ∀ a, f (g a) = f a) (x : β) :
    holders f (threads.map g) x = holders f threads x := by
  unfold holders
  rw [countP_map]
  congr 1
  funext a
  simp [hg]

theorem holders_pos (h : threads[i]? = some a) (ha : f a = some x) : 0 < holders f threads x :=
  countP_pos h (decide_eq_true ha)

theorem holders_eq_zero (h : ∀ c ∈ threads, f c ≠ some x) : holders f threads x = 0 :=
  countP_eq_zero.mpr fun c hc => by simpa using h c hc

theorem holders_replicate (hf : f a = none) (n : Nat) (x : β) :
    holders f (List.replicate n a) x = 0 :=
  holders_eq_zero fun c hc => by simp [eq_of_mem_replicate hc, hf]

theorem eq_or_not_holder (h : threads[i]? = some a) (ha : f a = some x)
    (hone : holders f threads x = 1) (hc : c ∈ threads.set i b) :
    c = b ∨ (c ∈ threads ∧ f c ≠ some x) := by
  unfold holders at hone
  induction threads generalizing i with
  | nil => simp at h
  | cons d threads ih =>
    rw [countP_cons] at hone
    cases i with
    | zero =>
      simp only [getElem?_cons_zero, Option.some.injEq] at h
      subst h
      rcases mem_cons.1 hc with rfl | hc
      · exact .inl rfl
      · refine .inr ⟨mem_cons_of_mem _ hc, fun hx => ?_⟩
        have hpos : 0 < threads.countP fun c => decide (f c = some x) :=
          countP_pos_iff.mpr ⟨c, hc, decide_eq_true hx⟩
        simp only [ha, decide_true, if_true] at hone
        omega
    | succ i =>
      simp only [getElem?_cons_succ] at h
      have hpos : 0 < threads.countP fun c => decide (f c = some x) :=
        countP_pos h (decide_eq_true ha)
      have hd : f d ≠ some x := by
        intro hd
        simp only [hd, decide_true, if_true] at hone
        omega
      rcases mem_cons.1 hc with rfl | hc
      · exact .inr ⟨mem_cons_self, hd⟩
      · rcases ih h (by omega) hc with hcb | ⟨hm, hn⟩
        · exact .inl hcb
        · exact .inr ⟨mem_cons_of_mem _ hm, hn⟩

/-- The only holder. -/
theorem eq_of_holders_one (h : threads[i]? = some a) (ha : f a = some x)
    (hone : holders f threads x = 1) (hc : c ∈ threads) (hx : f c = some x) : c = a := by
  rcases eq_or_not_holder h ha hone ((set_eq_self h).symm ▸ hc) with hca | ⟨-, hn⟩
  · exact hca
  · exact absurd hx hn

end holders

end Threads
