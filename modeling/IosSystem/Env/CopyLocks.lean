import IosSystem.Lib.Transition
import Mathlib.Logic.Relation

/-!
# The locks of the environments

`ios_env_copy_from_thread` takes the lock of the source for reading and then that of the destination
for writing. A lock that cannot be had is waited for; this is also so when the caller itself has it
for reading.

Each call has an entry of its own in the list of threads: a thread is in one call at a time, and
holds no lock in between.
-/

namespace IosSystem.Env.CopyLocks

open List Option

/-- Where a thread is in a call that locks environments. -/
inductive PC where
  /-- `ios_env_copy_from_thread` before its first lock -/
  | rdlock (source dest : Nat)
  /-- it has the source for reading and wants the destination -/
  | wrlock (source dest : Nat)
  | copying (source dest : Nat)
  | copied (source : Nat)
  /-- `ios_env_setenv` -/
  | setLock (env : Nat)
  | setting (env : Nat)
  /-- `ios_env_getenv` -/
  | getLock (env : Nat)
  | getting (env : Nat)
  | done
  deriving DecidableEq

/-- The environment that is locked for reading. -/
def PC.reads : PC → Option Nat
  | .wrlock source _ | .copying source _ | .copied source => some source
  | .getting env => some env
  | _ => none

/-- The environment that is locked for writing. -/
def PC.writes : PC → Option Nat
  | .copying _ dest => some dest
  | .setting env => some env
  | _ => none

/-- The first thread cannot go on before the second one unlocks. -/
def PC.waitsFor : PC → PC → Bool
  | .rdlock env _, q | .getLock env, q => q.writes = some env
  | .wrlock _ env, q | .setLock env, q => q.writes = some env ∨ q.reads = some env
  | _, _ => false

def PC.next : PC → PC
  | .rdlock source dest => .wrlock source dest
  | .wrlock source dest => .copying source dest
  | .copying source _ => .copied source
  | .setLock env => .setting env
  | .getLock env => .getting env
  | .copied _ | .setting _ | .getting _ | .done => .done

inductive Label where
  | copyFromThread (source dest : Nat)
  | setenv (env : Nat)
  | getenv (env : Nat)
  | advance (i : Nat)

def step (s : List PC) : Label → Option (List PC)
  | .copyFromThread source dest => some (s ++ [.rdlock source dest])
  | .setenv env => some (s ++ [.setLock env])
  | .getenv env => some (s ++ [.getLock env])
  | .advance i => s[i]?.bind fun p => if s.any p.waitsFor then none else some (s.set i p.next)

/-- The copies that are made go from `source` to `dest` with `copies source dest`. -/
def Guard (copies : Nat → Nat → Prop) (_ : List PC) : Label → Prop
  | .copyFromThread source dest => copies source dest
  | _ => True

def Reachable (copies : Nat → Nat → Prop) (s : List PC) : Prop :=
  Transition.Reachable step (Guard copies) (· = []) s

/-- Call `i` waits for a lock that call `j` has. -/
def Waits (s : List PC) (i j : Nat) : Prop :=
  ∃ p q, s[i]? = some p ∧ s[j]? = some q ∧ p.waitsFor q = true

/-- No thread waits for itself through others. -/
def DeadlockFree (s : List PC) : Prop := ∀ i, ¬Relation.TransGen (Waits s) i i

def PC.Copies (copies : Nat → Nat → Prop) : PC → Prop
  | .rdlock source dest | .wrlock source dest => copies source dest
  | _ => True

variable {copies : Nat → Nat → Prop} {s s' : List PC} {i j : Nat}

theorem copies_step {l : Label} (h : ∀ p ∈ s, p.Copies copies) (hg : Guard copies s l)
    (hs : step s l = some s') : ∀ p ∈ s', p.Copies copies := by
  cases l with
  | copyFromThread source dest | setenv env | getenv env =>
    cases hs
    exact forall_mem_append.2 ⟨h, forall_mem_singleton.2 hg⟩
  | advance i =>
    obtain ⟨p, hi, hs⟩ := bind_eq_some_iff.1 hs
    split at hs <;> cases hs
    have hp := h p (mem_of_getElem? hi)
    intro q hq
    rcases mem_or_eq_of_mem_set hq with hq | rfl
    · exact h q hq
    · cases p <;> first | exact hp | trivial

theorem copies_of_reachable (h : Reachable copies s) : ∀ p ∈ s, p.Copies copies :=
  Transition.Reachable.invariant (by simp) (fun _ _ _ hi hg hs => copies_step hi hg hs) h

/-- The source of call `i`, if it is a copy that waits for its second lock. -/
def sourceAt (s : List PC) (i : Nat) : Nat :=
  match s[i]? with
  | some (.wrlock source _) => source
  | _ => 0

open PC

variable {k m : Nat}

theorem exists_wrlock (hk : Waits s k i) (hm : Waits s i m) :
    ∃ source dest, s[i]? = some (.wrlock source dest) := by
  obtain ⟨p, q, -, hi, hpq⟩ := hk
  obtain ⟨q', r, hi', -, hqr⟩ := hm
  obtain rfl := some.inj (hi.symm.trans hi')
  rw [hi]
  cases q <;> first
    | exact ⟨_, _, rfl⟩
    | cases hqr
    | cases p <;> simp [waitsFor, reads, writes] at hpq

theorem copies_of_waits (h : ∀ p ∈ s, p.Copies copies) (hk : Waits s k i) (hij : Waits s i j)
    (hm : Waits s j m) : copies (sourceAt s i) (sourceAt s j) := by
  obtain ⟨source, dest, hi⟩ := exists_wrlock hk hij
  obtain ⟨source', dest', hj⟩ := exists_wrlock hij hm
  obtain ⟨p, q, hp, hq, hpq⟩ := hij
  obtain rfl := some.inj (hi.symm.trans hp)
  obtain rfl := some.inj (hj.symm.trans hq)
  obtain rfl : source' = dest := by simpa [waitsFor, reads, writes] using hpq
  simpa [sourceAt, hi, hj, PC.Copies] using h _ (mem_of_getElem? hi)

theorem circle_of_copies (h : ∀ p ∈ s, p.Copies copies) (hk : Waits s k i)
    (hij : Relation.TransGen (Waits s) i j) (hm : Waits s j m) :
    Relation.TransGen copies (sourceAt s i) (sourceAt s j) := by
  induction hij generalizing m with
  | single hij => exact .single (copies_of_waits h hk hij hm)
  | tail hib hbj ih =>
    obtain ⟨k', -, hk'⟩ := Relation.TransGen.tail'_iff.1 hib
    exact (ih hbj).tail (copies_of_waits h hk' hbj hm)

theorem reachable_append {b c : Nat} (h : Reachable copies s) (hw : ∀ p ∈ s, p.writes = none)
    (hbc : copies b c) : Reachable copies (s ++ [.wrlock b c]) := by
  have hcall : Reachable copies (s ++ [.rdlock b c]) :=
    h.next (a := .copyFromThread b c) hbc rfl
  refine hcall.next (a := .advance s.length) trivial ?_
  have hfree : ¬(s ++ [PC.rdlock b c]).any (PC.rdlock b c).waitsFor = true := by
    rw [List.any_eq_true]
    rintro ⟨p, hp, hwait⟩
    have hnone := List.forall_mem_append.2 ⟨hw, List.forall_mem_singleton.2 rfl⟩ p hp
    simp [PC.waitsFor, hnone] at hwait
  simp only [step, List.getElem?_concat_length, Option.bind_some, if_neg hfree, PC.next]
  simp

theorem waits_append (t : List PC) (h : Waits s i j) : Waits (s ++ t) i j := by
  obtain ⟨p, q, hi, hj, hpq⟩ := h
  refine ⟨p, q, ?_, ?_, hpq⟩
  · rw [List.getElem?_append_left (List.getElem?_eq_some_iff.1 hi).1, hi]
  · rw [List.getElem?_append_left (List.getElem?_eq_some_iff.1 hj).1, hj]

theorem exists_waiting {a b : Nat} (h : Relation.TransGen copies a b) :
    ∃ s c d, Reachable copies (s ++ [.wrlock c b]) ∧ (s ++ [.wrlock c b])[0]? = some (.wrlock a d) ∧
      (∀ p ∈ s ++ [.wrlock c b], p.writes = none) ∧
      Relation.ReflTransGen (Waits (s ++ [.wrlock c b])) 0 s.length := by
  induction h with
  | @single b hab =>
    exact ⟨[], a, b, reachable_append (.start rfl) (by simp) hab, rfl, by simp [writes], .refl⟩
  | @tail b c _ hbc ih =>
    obtain ⟨s, c', d, hreach, hfirst, hw, hpath⟩ := ih
    refine ⟨s ++ [.wrlock c' b], b, d, reachable_append hreach hw hbc, ?_, ?_, ?_⟩
    · rw [List.getElem?_append_left (List.getElem?_eq_some_iff.1 hfirst).1, hfirst]
    · exact List.forall_mem_append.2 ⟨hw, by simp [writes]⟩
    · refine (hpath.lift id fun _ _ => waits_append _).tail ⟨.wrlock c' b, .wrlock b c, ?_, ?_, ?_⟩
      · simp
      · simp
      · simp [waitsFor, reads]

theorem not_copying_self (h : Reachable copies s) (e : Nat) : .copying e e ∉ s := by
  unfold Reachable at h
  induction h with
  | start h => simp [h]
  | @next s s' l _ _ hs ih =>
    cases l with
    | copyFromThread | setenv | getenv =>
      cases hs
      simpa using ih
    | advance i =>
      obtain ⟨p, hp, hs⟩ := bind_eq_some_iff.1 hs
      split at hs <;> cases hs
      next hfree =>
      intro hmem
      rcases mem_or_eq_of_mem_set hmem with hmem | hnext
      · exact ih hmem
      · cases p <;> simp only [PC.next, reduceCtorEq, PC.copying.injEq] at hnext
        -- it has the source for reading, and would wait for itself
        obtain ⟨rfl, rfl⟩ := hnext
        exact hfree (any_eq_true.2 ⟨_, mem_of_getElem? hp, by simp [PC.waitsFor, PC.reads]⟩)

/--
The calls cannot get into a deadlock if and only if the copies that are made do not lead from an
environment back to itself. A copy of an environment to itself is such a circle: it never gets its
second lock, and changes nothing.
-/
theorem deadlock_free_iff (copies : Nat → Nat → Prop) :
    ((∀ s, Reachable copies s → DeadlockFree s) ↔ ∀ e, ¬Relation.TransGen copies e e) ∧
      ∀ s, Reachable copies s → ∀ e, .copying e e ∉ s := by
  refine ⟨⟨fun h e he => ?_, fun h s hs i hi => ?_⟩, fun s hs e => not_copying_self hs e⟩
  · obtain ⟨s, c, d, hreach, hfirst, -, hpath⟩ := exists_waiting he
    refine h _ hreach 0
      (Relation.TransGen.tail' hpath ⟨.wrlock c e, .wrlock e d, by simp, hfirst, ?_⟩)
    simp [PC.waitsFor, PC.reads]
  · obtain ⟨k, hk, hlast⟩ := Relation.TransGen.tail'_iff.1 hi
    obtain ⟨m, hfirst, -⟩ := Relation.TransGen.head'_iff.1 hi
    exact h _ (circle_of_copies (copies_of_reachable hs) hlast hi hfirst)

/-- Two threads copy their environments to each other; and one copies its own. -/
theorem copies_deadlock : Relation.TransGen (Waits [.wrlock 1 2, .wrlock 2 1]) 0 0 ∧
    Transition.run step [] [.copyFromThread 1 2, .copyFromThread 2 1, .advance 0, .advance 1]
      = some [.wrlock 1 2, .wrlock 2 1] ∧
    Transition.run step [] [.copyFromThread 1 1, .advance 0] = some [.wrlock 1 1] ∧
    step [.wrlock 1 1] (.advance 0) = none := by
  refine ⟨.tail (.single (b := 1) ?_) ?_, rfl, rfl, rfl⟩ <;> exact ⟨_, _, rfl, rfl, rfl⟩

end IosSystem.Env.CopyLocks
