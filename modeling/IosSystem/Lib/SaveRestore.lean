import IosSystem.Lib.Threads
import IosSystem.Lib.Transition

/-!
# A shared variable that is set for a while

Threads that share a variable each save it, set it to `v`, look at it any number of times, and store
the saved value back. There is no lock. If only a thread that has saved `v`, or that is alone,
stores its value back, everybody finds `v`, and at the end the variable is as it was (`Restored`).
All runs are like this exactly if the variable was `v` before or there is one thread
(`forall_restored_iff`).
-/

namespace SaveRestore

open List Threads
open Transition

variable {β : Type}

/-- A thread that saves a value, sets its own, and restores the old one. -/
inductive Place (β : Type) where
  | outside
  /-- has saved `old` -/
  | saved (old : β)
  /-- has set the variable, and has found `reads` in it -/
  | inside (old : β) (reads : List β)
  | done (reads : List β)

structure State (β : Type) where
  value : β
  threads : List (Place β)

inductive Label where
  /-- the next of the three assignments -/
  | advance (i : Nat)
  | look (i : Nat)

/-- The next assignment of a thread. -/
def advance (v value : β) : Place β → Option (β × Place β)
  | .outside => some (value, .saved value)
  | .saved old => some (v, .inside old [])
  | .inside old reads => some (old, .done reads)
  | .done _ => none

/-- A thread that is inside reads the value. -/
def look (value : β) : Place β → Option (β × Place β)
  | .inside old reads => some (value, .inside old (value :: reads))
  | .outside | .saved _ | .done _ => none

def State.set (s : State β) (i : Nat) (r : β × Place β) : State β := ⟨r.1, s.threads.set i r.2⟩

def step (v : β) (s : State β) : Label → Option (State β)
  | .advance i => ((s.threads[i]?).bind (advance v s.value)).map (s.set i)
  | .look i => ((s.threads[i]?).bind (look s.value)).map (s.set i)

/-- The variable has the value `init`, and no thread has begun. -/
def initial (init : β) (n : Nat) : State β := ⟨init, List.replicate n .outside⟩

def Place.reads : Place β → List β
  | .outside | .saved _ => []
  | .inside _ reads | .done reads => reads

/-- The value that will be stored back. -/
def Place.old : Place β → Option β
  | .saved old | .inside old _ => some old
  | .outside | .done _ => none

def Place.isInside : Place β → Bool
  | .inside _ _ => true
  | .outside | .saved _ | .done _ => false

def Place.isDone : Place β → Bool
  | .done _ => true
  | .outside | .saved _ | .inside _ _ => false

/-- Between the save and the restore. -/
def Place.busy (p : Place β) : Bool := p.old.isSome

/-- Everybody has found `v`, and when all are done the variable is as it was. -/
def Restored (v init : β) (s : State β) : Prop :=
  (∀ p ∈ s.threads, ∀ x ∈ p.reads, x = v) ∧ ((∀ p ∈ s.threads, p.isDone = true) → s.value = init)

/-- A thread stores back only `v`, or it is the only one that is busy. -/
def Guard (v : β) (s : State β) : Label → Prop
  | .advance i => ∀ old reads, s.threads[i]? = some (.inside old reads) →
      old = v ∨ s.threads.countP Place.busy = 1
  | .look _ => True

/-- The value is the first one or `v`, and somebody busy will store the first one back. -/
structure Inv (v init : β) (s : State β) : Prop where
  value : s.value = init ∨ s.value = v
  /-- nobody is busy -/
  idle : s.threads.countP Place.busy = 0 → s.value = init
  inside : ∀ p ∈ s.threads, p.isInside = true → s.value = v
  /-- somebody will store the first value back -/
  first : 0 < s.threads.countP Place.busy → ∃ p ∈ s.threads, p.old = some init
  old : ∀ p ∈ s.threads, ∀ x, p.old = some x → x = init ∨ x = v
  reads : ∀ p ∈ s.threads, ∀ x ∈ p.reads, x = v

open Place

variable {v init : β}

theorem Inv.restored {s : State β} (h : Inv v init s) : Restored v init s := by
  refine ⟨h.reads, fun hdone => h.idle (countP_eq_zero.mpr fun p hp => ?_)⟩
  have := hdone p hp
  cases p <;> simp_all [Place.isDone, Place.busy, Place.old]

theorem inv_initial (v init : β) (n : Nat) : Inv v init (initial init n) := by
  have hmem : ∀ p ∈ (initial init n).threads, p = .outside := fun p hp => eq_of_mem_replicate hp
  refine ⟨.inl rfl, fun _ => rfl, ?_, ?_, ?_, ?_⟩
  · intro p hp hin
    rw [hmem p hp] at hin
    cases hin
  · intro hpos
    obtain ⟨p, hp, hbusy⟩ := countP_pos_iff.mp hpos
    rw [hmem p hp] at hbusy
    cases hbusy
  · intro p hp x hx
    rw [hmem p hp] at hx
    cases hx
  · intro p hp x hx
    rw [hmem p hp] at hx
    cases hx

variable {s s' : State β} {l : Label}

/-- A step saves, sets, looks or restores. -/
theorem step_cases (hs : step v s l = some s') :
    (∃ i, l = .advance i ∧ s.threads[i]? = some .outside ∧
        s' = s.set i (s.value, .saved s.value)) ∨
      (∃ i old, l = .advance i ∧ s.threads[i]? = some (.saved old) ∧
        s' = s.set i (v, .inside old [])) ∨
      (∃ i old reads, l = .advance i ∧ s.threads[i]? = some (.inside old reads) ∧
        s' = s.set i (old, .done reads)) ∨
      ∃ i old reads, l = .look i ∧ s.threads[i]? = some (.inside old reads) ∧
        s' = s.set i (s.value, .inside old (s.value :: reads)) := by
  cases l with
  | advance i =>
    rw [step] at hs
    cases hp : s.threads[i]? with
    | none => rw [hp] at hs; cases hs
    | some p =>
      rw [hp] at hs
      cases p with
      | outside => cases hs; exact .inl ⟨i, rfl, hp, rfl⟩
      | saved old => cases hs; exact .inr (.inl ⟨i, old, rfl, hp, rfl⟩)
      | inside old reads => cases hs; exact .inr (.inr (.inl ⟨i, old, reads, rfl, hp, rfl⟩))
      | done reads => cases hs
  | look i =>
    rw [step] at hs
    cases hp : s.threads[i]? with
    | none => rw [hp] at hs; cases hs
    | some p =>
      rw [hp] at hs
      cases p with
      | inside old reads => cases hs; exact .inr (.inr (.inr ⟨i, old, reads, rfl, hp, rfl⟩))
      | outside => cases hs
      | saved old => cases hs
      | done reads => cases hs

section steps

variable {v init : β} {s : State β} {i : Nat}

section

variable (h : Inv v init s)
include h

theorem Inv.save (hp : s.threads[i]? = some .outside) :
    Inv v init (s.set i (s.value, .saved s.value)) := by
  have hcount := countP_set_enter hp (b := .saved s.value) (p := busy) rfl rfl
  refine ⟨h.value, ?_, ?_, ?_, ?_, ?_⟩
  · intro hidle
    simp only [State.set] at hidle
    omega
  · exact forall_mem_set h.inside fun hin => by cases hin
  · intro _
    rcases Nat.eq_zero_or_pos (s.threads.countP busy) with hzero | hpos
    · exact ⟨.saved s.value, mem_set_self hp _, congrArg some (h.idle hzero)⟩
    · obtain ⟨p, hmem, hold⟩ := h.first hpos
      refine ⟨p, mem_set_of_ne hp hmem ?_, hold⟩
      rintro rfl
      cases hold
  · refine forall_mem_set h.old fun x hx => ?_
    cases hx
    exact h.value
  · exact forall_mem_set h.reads fun x hx => by cases hx

theorem Inv.stay {p q : Place β} {y : β} (hp : s.threads[i]? = some p) (hold : q.old = p.old)
    (hbusy : p.busy = true) (hy : y = v) (hreads : ∀ x ∈ q.reads, x = v) :
    Inv v init (s.set i (y, q)) := by
  have hcount : (s.threads.set i q).countP busy = s.threads.countP busy :=
    countP_set_of_eq hp (congrArg Option.isSome hold)
  have hpos : 0 < s.threads.countP busy := countP_pos hp hbusy
  refine ⟨.inr hy, ?_, fun _ _ _ => hy, ?_, ?_, ?_⟩
  · intro hidle
    simp only [State.set] at hidle
    omega
  · intro _
    obtain ⟨c, hmem, hc⟩ := h.first hpos
    by_cases hcp : c = p
    · exact ⟨q, mem_set_self hp _, by rw [hold, ← hcp, hc]⟩
    · exact ⟨c, mem_set_of_ne hp hmem hcp, hc⟩
  · refine forall_mem_set h.old fun x hx => ?_
    rw [hold] at hx
    exact h.old p (mem_of_getElem? hp) x hx
  · exact forall_mem_set h.reads hreads

theorem Inv.restore_same {reads : List β} (hp : s.threads[i]? = some (.inside v reads))
    (hcount : s.threads.countP Place.busy ≠ 1) : Inv v init (s.set i (v, .done reads)) := by
  have hleave := countP_set_leave hp (b := .done reads) (p := busy) rfl rfl
  have hmem := mem_of_getElem? hp
  refine ⟨.inr rfl, ?_, fun _ _ _ => rfl, ?_, ?_, ?_⟩
  · intro hidle
    simp only [State.set] at hidle
    omega
  · intro hpos
    obtain ⟨c, hc, hfirst⟩ := h.first (countP_pos hp rfl)
    by_cases hci : c = .inside v reads
    · -- then the first value is `v`, and every saved value is the first one
      subst hci
      obtain ⟨q, hq, hbusy⟩ := countP_pos_iff.mp hpos
      obtain ⟨x, hx⟩ := Option.isSome_iff_exists.mp hbusy
      have hv : v = init := Option.some.inj hfirst
      refine ⟨q, hq, ?_⟩
      rcases mem_or_eq_of_mem_set hq with hq | rfl
      · rcases h.old q hq x hx with rfl | rfl
        · exact hx
        · rw [hx, hv]
      · cases hx
    · exact ⟨c, mem_set_of_ne hp hc hci, hfirst⟩
  · exact forall_mem_set h.old fun x hx => by cases hx
  · exact forall_mem_set h.reads (h.reads (.inside v reads) hmem)

theorem Inv.restore_alone {old : β} {reads : List β} (hp : s.threads[i]? = some (.inside old reads))
    (hcount : s.threads.countP Place.busy = 1) : Inv v init (s.set i (old, .done reads)) := by
  have hleave := countP_set_leave hp (b := .done reads) (p := busy) rfl rfl
  have hzero : (s.threads.set i (.done reads)).countP busy = 0 := by omega
  have hidle := countP_eq_zero.mp hzero
  have hmem := mem_of_getElem? hp
  have hold : old = init := by
    obtain ⟨c, hc, hfirst⟩ := h.first (by omega)
    by_cases hci : c = .inside old reads
    · subst hci
      exact Option.some.inj hfirst
    · have hbusy : c.busy = true := by rw [busy, hfirst]; rfl
      exact absurd hbusy (hidle c (mem_set_of_ne hp hc hci))
  refine ⟨.inl hold, fun _ => hold, ?_, ?_, ?_, ?_⟩
  · intro c hc hin
    cases c with
    | inside x l => exact absurd rfl (hidle _ hc)
    | outside => cases hin
    | saved x => cases hin
    | done l => cases hin
  · intro hpos
    simp only [State.set] at hpos
    omega
  · exact forall_mem_set h.old fun x hx => by cases hx
  · exact forall_mem_set h.reads (h.reads (.inside old reads) hmem)

end

end steps

theorem Inv.step (h : Inv v init s) (hs : step v s l = some s') (hg : Guard v s l) :
    Inv v init s' := by
  obtain ⟨i, rfl, hp, rfl⟩ | ⟨i, old, rfl, hp, rfl⟩ | ⟨i, old, reads, rfl, hp, rfl⟩ |
    ⟨i, old, reads, rfl, hp, rfl⟩ := step_cases hs
  · exact h.save hp
  · exact h.stay hp rfl rfl rfl fun x hx => by cases hx
  · by_cases hcount : s.threads.countP busy = 1
    · exact h.restore_alone hp hcount
    · rcases hg old reads hp with rfl | hone
      · exact h.restore_same hp hcount
      · exact absurd hone hcount
  · have hvalue := h.inside _ (mem_of_getElem? hp) rfl
    refine h.stay hp rfl rfl hvalue ?_
    intro x hx
    rcases mem_cons.mp hx with rfl | hx
    · exact hvalue
    · exact h.reads _ (mem_of_getElem? hp) x hx

/-- In a run that meets the guard, everybody finds `v`, and at the end the variable is as it was. -/
theorem Always.restored {n : Nat} {as : List Label}
    (h : Meets (step v) (Guard v) (initial init n) as) :
    Always (step v) (Restored v init) (initial init n) as :=
  .of_meets (fun _ h => h.restored) (fun _ _ _ h hs hg => h.step hs hg) (inv_initial v init n) h

theorem Inv.guard (h : Inv v init s) (hone : init = v ∨ s.threads.length ≤ 1) (l : Label) :
    Guard v s l := by
  cases l with
  | look i => trivial
  | advance i =>
    intro old reads hp
    rcases hone with rfl | hone
    · exact .inl (or_self_iff.mp (h.old _ (mem_of_getElem? hp) old rfl))
    · have hpos := countP_pos hp (p := busy) rfl
      have hle := countP_le_length (p := busy) (l := s.threads)
      exact .inr (by omega)

theorem length_step (hs : step v s l = some s') : s'.threads.length = s.threads.length := by
  obtain ⟨i, -, -, rfl⟩ | ⟨i, old, -, -, rfl⟩ | ⟨i, old, reads, -, -, rfl⟩ |
    ⟨i, old, reads, -, -, rfl⟩ := step_cases hs
  all_goals exact length_set

/--
The second thread saves what the first one has set. The first one stores its value back, and the
second one finds it.
-/
theorem run_overlap (v init : β) (m : Nat) :
    run (step v) (initial init (m + 2))
        [.advance 0, .advance 0, .advance 1, .advance 1, .advance 0, .look 1]
      = some ⟨init, .done [] :: .inside v [init] :: List.replicate m .outside⟩ := rfl

/-- All runs restore the value just if it is `v` already, or one thread is alone. -/
theorem forall_restored_iff (v init : β) (n : Nat) :
    (∀ as, Always (step v) (Restored v init) (initial init n) as) ↔ init = v ∨ n ≤ 1 := by
  constructor
  · intro h
    by_contra hnot
    obtain ⟨hne, hn⟩ := not_or.mp hnot
    obtain ⟨m, rfl⟩ : ∃ m, n = m + 2 := ⟨n - 2, by omega⟩
    have hlast := (h _).last (run_overlap v init m)
    exact hne (hlast.1 (.inside v [init]) (by simp) init (by simp [reads]))
  · intro hone as
    refine .of_invariant
      (fun s (h : Inv v init s ∧ (init = v ∨ s.threads.length ≤ 1)) => h.1.restored) ?_
      ⟨inv_initial v init n, ?_⟩ as
    · rintro s s' l ⟨h, hlen⟩ hs
      exact ⟨h.step hs (h.guard hlen l), by rwa [length_step hs]⟩
    · simpa [initial] using hone

end SaveRestore
