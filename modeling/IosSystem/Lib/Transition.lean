import Mathlib.Data.Option.Basic

/-!
# Runs of a labelled transition system

A system is given by a partial step function `step : σ → α → Option σ`: the label `α` says
which thread does what, and `none` says that the label is not enabled in that state.

* `Reachable` — the states that schedules reach when every step also meets a guard, and
  `Reachable.invariant`, the induction that every safety result goes through
* `Ends` — every run comes to its end, and it is one of the wanted ends
* `Always`, `Meets` — a property of all states of a run, and a condition on its steps;
  `always_iff_meets` says that the condition is exact for the property

The guard is a condition on the state before the step. With `fun _ _ => True` it is no
restriction, and `Reachable` is then every interleaving.
-/

namespace Transition

open Option List

variable {σ α : Type}

/-- Execute a schedule. -/
def run (step : σ → α → Option σ) : σ → List α → Option σ
  | s, [] => some s
  | s, a :: as =>
    match step s a with
    | none => none
    | some s' => run step s' as

/-- The states that steps meeting `guard` reach from a state of `init`. -/
inductive Reachable (step : σ → α → Option σ) (guard : σ → α → Prop) (init : σ → Prop) : σ → Prop
  | start {s : σ} : init s → Reachable step guard init s
  | next {s s' : σ} {a : α} :
      Reachable step guard init s → guard s a → step s a = some s' → Reachable step guard init s'

variable {step : σ → α → Option σ} {guard : σ → α → Prop} {init : σ → Prop}

/-- What holds at the start and is kept by guarded steps holds. -/
theorem Reachable.invariant {inv : σ → Prop} (h0 : ∀ s, init s → inv s)
    (hstep : ∀ s s' a, inv s → guard s a → step s a = some s' → inv s') {s : σ}
    (h : Reachable step guard init s) : inv s := by
  induction h with
  | start hi => exact h0 _ hi
  | next _ hg hs ih => exact hstep _ _ _ ih hg hs

theorem Reachable.change_guard {guard' : σ → α → Prop} {inv : σ → Prop}
    (h0 : ∀ s, init s → inv s)
    (hstep : ∀ s s' a, inv s → guard s a → step s a = some s' → inv s')
    (hguard : ∀ s a, inv s → guard s a → guard' s a) {s : σ} (h : Reachable step guard init s) :
    Reachable step guard' init s := by
  induction h with
  | start hi => exact .start hi
  | next h hg hs ih => exact ih.next (hguard _ _ (h.invariant h0 hstep) hg) hs

/-- `step` where the guard allows it. -/
def guarded (step : σ → α → Option σ) (guard : σ → α → Prop) [∀ s a, Decidable (guard s a)] (s : σ)
    (a : α) : Option σ :=
  if guard s a then step s a else none

theorem Reachable.of_guarded_run [∀ s a, Decidable (guard s a)] {s s' : σ} {as : List α}
    (h : Reachable step guard init s) (hr : run (guarded step guard) s as = some s') :
    Reachable step guard init s' := by
  induction as generalizing s with
  | nil => simp only [run, some.injEq] at hr; exact hr ▸ h
  | cons a as ih =>
    simp only [run, guarded] at hr
    split at hr
    · cases hr
    · next s1 hs =>
      split at hs
      · next hg => exact ih (h.next hg hs) hr
      · cases hs

theorem Reachable.of_run_of_forall {s s' : σ} {as : List α} (h : Reachable step guard init s)
    (hr : run step s as = some s') (hg : ∀ a ∈ as, ∀ t, guard t a) :
    Reachable step guard init s' := by
  induction as generalizing s with
  | nil => simp only [run, some.injEq] at hr; exact hr ▸ h
  | cons a as ih =>
    rw [run] at hr
    cases hs : step s a with
    | none => rw [hs] at hr; cases hr
    | some s1 =>
      rw [hs] at hr
      exact ih (h.next (hg a (mem_cons_self ..) s) hs) hr
        fun b hb => hg b (mem_cons_of_mem a hb)

theorem Reachable.of_run {s s' : σ} {as : List α}
    (h : Reachable step (fun _ _ => True) init s) (hr : run step s as = some s') :
    Reachable step (fun _ _ => True) init s' :=
  h.of_run_of_forall hr fun _ _ _ => trivial

/-- A rank that can always be lowered leads to the goal. -/
theorem Reachable.of_rank {inv goal : σ → Prop} (rank : σ → Nat)
    (hstep : ∀ s, inv s → ¬ goal s →
      ∃ a s', guard s a ∧ step s a = some s' ∧ inv s' ∧ rank s' < rank s) {s : σ}
    (h : Reachable step guard init s) (hi : inv s) :
    ∃ s', Reachable step guard init s' ∧ goal s' := by
  induction hn : rank s using Nat.strongRecOn generalizing s with
  | ind n ih =>
    by_cases hgoal : goal s
    · exact ⟨s, h, hgoal⟩
    · obtain ⟨a, s', hg, hs, hi', hlt⟩ := hstep s hi hgoal
      exact ih _ (hn ▸ hlt) (h.next hg hs) hi' rfl

/-- Induction over a run, with the labels so far. -/
theorem run_induction (inv : List α → σ → Prop) {s s' : σ} {as : List α} (h0 : inv [] s)
    (hstep : ∀ as t a t', inv as t → step t a = some t' → inv (as ++ [a]) t')
    (hr : run step s as = some s') : inv as s' := by
  suffices hfrom : ∀ (bs : List α) (t : σ), inv bs t → run step t as = some s' →
    inv (bs ++ as) s' from
    hfrom [] s h0 hr
  clear hr h0
  induction as with
  | nil =>
    intro bs t ht hr
    simp only [run, some.injEq] at hr
    rw [append_nil, ← hr]
    exact ht
  | cons a as ih =>
    intro bs t ht hr
    rw [run] at hr
    cases hs : step t a with
    | none => rw [hs] at hr; cases hr
    | some t' =>
      rw [hs] at hr
      have := ih (bs ++ [a]) t' (hstep _ _ _ _ ht hs) hr
      rwa [append_assoc] at this

/-- The property holds in every state of the run, the first one included. -/
def Always (step : σ → α → Option σ) (p : σ → Prop) : σ → List α → Prop
  | s, [] => p s
  | s, a :: as => p s ∧ ∀ s', step s a = some s' → Always step p s' as

/-- Every step of the run meets the guard. -/
def Meets (step : σ → α → Option σ) (guard : σ → α → Prop) : σ → List α → Prop
  | _, [] => True
  | s, a :: as => ∀ s', step s a = some s' → guard s a ∧ Meets step guard s' as

theorem Always.head {p : σ → Prop} {s : σ} {as : List α} (h : Always step p s as) : p s := by
  cases as with
  | nil => exact h
  | cons a as => exact h.1

theorem Always.last {p : σ → Prop} {s s' : σ} {as : List α} (h : Always step p s as)
    (hr : run step s as = some s') : p s' := by
  induction as generalizing s with
  | nil => exact some.inj hr ▸ h
  | cons a as ih =>
    rw [run] at hr
    cases hs : step s a with
    | none => rw [hs] at hr; cases hr
    | some s1 =>
      rw [hs] at hr
      exact ih (h.2 s1 hs) hr

theorem meets_congr {guard' : σ → α → Prop}
    (h : ∀ s s' a, step s a = some s' → (guard s a ↔ guard' s a)) (s : σ) (as : List α) :
    Meets step guard s as ↔ Meets step guard' s as := by
  induction as generalizing s with
  | nil => exact Iff.rfl
  | cons a as ih => exact forall₂_congr fun s' hs => and_congr (h s s' a hs) (ih s')

/--
The guard keeps an invariant that implies the property, and without the guard the property is lost.
-/
theorem always_iff_meets {inv p : σ → Prop} (hp : ∀ s, inv s → p s)
    (hkeep : ∀ s s' a, inv s → step s a = some s' → guard s a → inv s')
    (hlose : ∀ s s' a, inv s → step s a = some s' → ¬guard s a → ¬p s') {s : σ} (hi : inv s)
    (as : List α) : Always step p s as ↔ Meets step guard s as := by
  induction as generalizing s with
  | nil => exact iff_of_true (hp s hi) trivial
  | cons a as ih =>
    constructor
    · rintro ⟨-, h⟩ s' hs
      have hg : guard s a := by
        by_contra hg
        exact hlose s s' a hi hs hg (h s' hs).head
      exact ⟨hg, (ih (hkeep s s' a hi hs hg)).mp (h s' hs)⟩
    · intro h
      refine ⟨hp s hi, fun s' hs => ?_⟩
      obtain ⟨hg, h⟩ := h s' hs
      exact (ih (hkeep s s' a hi hs hg)).mpr h

/-- An invariant that the guarded steps keep. -/
theorem Always.of_meets {inv p : σ → Prop} (hp : ∀ s, inv s → p s)
    (hkeep : ∀ s s' a, inv s → step s a = some s' → guard s a → inv s') {s : σ} (hi : inv s)
    {as : List α} (h : Meets step guard s as) : Always step p s as := by
  induction as generalizing s with
  | nil => exact hp s hi
  | cons a as ih =>
    refine ⟨hp s hi, fun s' hs => ?_⟩
    obtain ⟨hg, h⟩ := h s' hs
    exact ih (hkeep s s' a hi hs hg) h

theorem Always.of_invariant {inv p : σ → Prop} (hp : ∀ s, inv s → p s)
    (hkeep : ∀ s s' a, inv s → step s a = some s' → inv s') {s : σ} (hi : inv s) (as : List α) :
    Always step p s as := by
  induction as generalizing s with
  | nil => exact hp s hi
  | cons a as ih => exact ⟨hp s hi, fun s' hs => ih (hkeep s s' a hi hs)⟩

/--
Every run from `s` comes to an end, and ends in a state of `final`: the runs are bounded in length,
and a state without a next step is final.
-/
structure Ends (step : σ → α → Option σ) (s : σ) (final : σ → Prop) : Prop where
  bounded : ∃ n, ∀ as s', run step s as = some s' → as.length ≤ n
  final : ∀ as s', run step s as = some s' → (∀ a, step s' a = none) → final s'

theorem run_append (s : σ) (as bs : List α) :
    run step s (as ++ bs) = (run step s as).bind fun s' => run step s' bs := by
  induction as generalizing s with
  | nil => rfl
  | cons a as ih =>
    simp only [cons_append, run]
    cases step s a with
    | none => rfl
    | some s' => exact ih s'

theorem run_concat (s : σ) (as : List α) (a : α) :
    run step s (as ++ [a]) = (run step s as).bind fun s' => step s' a := by
  rw [run_append]
  congr 1
  funext s'
  rw [run]
  cases step s' a <;> rfl

theorem Ends.exists_final {s : σ} {final : σ → Prop} (h : Ends step s final) :
    ∃ as s', run step s as = some s' ∧ final s' := by
  obtain ⟨n, hn⟩ := h.bounded
  suffices hgo : ∀ m as s', run step s as = some s' → as.length + m = n →
      ∃ as s', run step s as = some s' ∧ final s' from
    hgo n [] s rfl (Nat.zero_add n)
  intro m
  induction m with
  | zero =>
    intro as s' hr hlen
    refine ⟨as, s', hr, h.final as s' hr fun a => ?_⟩
    cases hs : step s' a with
    | none => rfl
    | some s'' =>
      have hle := hn (as ++ [a]) s'' (by rw [run_concat, hr, bind_some, hs])
      rw [length_append, length_singleton] at hle
      omega
  | succ m ih =>
    intro as s' hr hlen
    by_cases hstuck : ∀ a, step s' a = none
    · exact ⟨as, s', hr, h.final as s' hr hstuck⟩
    · simp only [not_forall, ne_none_iff_exists'] at hstuck
      obtain ⟨a, s'', hs⟩ := hstuck
      refine ih (as ++ [a]) s'' (by rw [run_concat, hr, bind_some, hs]) ?_
      rw [length_append, length_singleton]
      omega

/-- Every run ends when each step lowers a rank. -/
theorem Ends.of_rank {inv final : σ → Prop} (rank : σ → Nat) {s : σ} (hi : inv s)
    (hstep : ∀ t t' a, inv t → step t a = some t' → inv t' ∧ rank t' < rank t)
    (hprogress : ∀ t, inv t → ¬ final t → ∃ a t', step t a = some t') : Ends step s final := by
  have hrun : ∀ as s', run step s as = some s' → inv s' ∧ as.length + rank s' ≤ rank s := by
    intro as s' hr
    refine run_induction (fun as t => inv t ∧ as.length + rank t ≤ rank s) ⟨hi, by simp⟩ ?_ hr
    rintro as t a t' ⟨ht, hle⟩ hs
    obtain ⟨ht', hlt⟩ := hstep t t' a ht hs
    refine ⟨ht', ?_⟩
    rw [length_append, length_singleton]
    omega
  refine ⟨⟨rank s, fun as s' hr => ?_⟩, fun as s' hr hnone => ?_⟩
  · have := (hrun as s' hr).2
    omega
  · by_contra hfinal
    obtain ⟨a, t', hs⟩ := hprogress s' (hrun as s' hr).1 hfinal
    rw [hnone a] at hs
    cases hs

end Transition
