import IosSystem.Pipeline.Streams
import Mathlib.Data.Nat.Find

/-!
# Setting up a pipeline when calls fail

`ios_pipeline_execute` goes on when `fdopen` fails, with a null stream, and keeps the descriptor in
`pipe_to_next`. When `pipe` fails it closes the descriptors that it finds there and returns null.
The streams that it has made by then are not closed, nor are their descriptors (`cleaned_iff`).
-/

namespace IosSystem.Pipeline.Streams

open Execution Function

section

variable (p : Execution)

/-- The first `i` rounds of the loop. When `pipe` fails: the stage for which it fails, and what the
stages are then. -/
def Execution.create : Nat → Except (Nat × (Nat → Stage)) (Nat → Stage)
  | 0 => .ok fun _ => .blank
  | i + 1 => (Execution.create i).bind fun stages =>
    match p.setupStdout i (p.setupStdin i stages) with
    | some stages => .ok (Function.update stages i (p.setupStderr i (stages i)))
    | none => .error (i, p.setupStdin i stages)

/-- The descriptors that are closed when `pipe` has failed for stage `k`. -/
def cleanup (k : Nat) (stages : Nat → Stage) : List PipeEnd :=
  (List.range k).flatMap fun j => (stages j).rawEnds j

/--
Every descriptor of the pipes before stage `k` is closed, and there is no stream on one. No thread
has been created yet.
-/
structure Cleaned (k : Nat) (stages : Nat → Stage) : Prop where
  descriptors : ∀ j < k, .read j ∈ cleanup k stages ∧ .write j ∈ cleanup k stages
  streams : ∀ i x e, (stages i).stream x ≠ some (.pipe e)

/-- `stdin_stream` of stage `i` -/
def Execution.madeStdin (i : Nat) : Option File :=
  if i = 0 then some (.outside (p.options.input.getD .stdin))
  else if p.calls.fdopenRead i then some (.pipe (.read (i - 1)))
  else none

/-- `stdout_stream` of stage `i` -/
def Execution.madeStdout (i : Nat) : Option File :=
  if i + 1 = p.numStages then some (.outside (p.options.output.getD .stdout))
  else if p.calls.fdopenWrite i then some (.pipe (.write i))
  else none

/-- Stage `i` before stderr is set up, but for `pipe_to_next[0]`. -/
def Execution.bare (i : Nat) : Stage :=
  { Stage.blank with
    stdinStream := p.madeStdin i
    stdinIsExternal := i = 0
    stdoutStream := p.madeStdout i
    stdoutIsExternal := i + 1 = p.numStages
    writeEnd := i + 1 ≠ p.numStages ∧ p.calls.fdopenWrite i = false }

def Execution.made (i : Nat) : Stage := p.setupStderr i (p.bare i)

/-- Stage `j` after `k` rounds. Its read end may be taken over in the round of the next stage. -/
def Execution.madeAt (k j : Nat) : Stage :=
  if j < k then
    { p.made j with
      readEnd := j + 1 ≠ p.numStages ∧ (k = j + 1 ∨ p.calls.fdopenRead (j + 1) = false) }
  else .blank

/-- Stage `j` in round `k`, when stdin is set up. -/
def Execution.madeIn (k j : Nat) : Stage :=
  if j = k then { Stage.blank with stdinStream := p.madeStdin k, stdinIsExternal := k = 0 }
  else p.madeAt (k + 1) j

end

variable {k j : Nat}

section

variable {p : Execution}

/-- `setup` is the same loop, without what is there when `pipe` fails. -/
theorem setup_eq_create (k : Nat) : p.setup k = (p.create k).toOption := by
  induction k with
  | zero => rfl
  | succ k ih =>
    rw [setup, ih, create]
    cases p.create k with
    | error x => rfl
    | ok stages =>
      simp only [Except.toOption, Except.bind, Option.bind_some]
      cases p.setupStdout k (p.setupStdin k stages) <;> rfl

theorem setupStderr_readEnd (i : Nat) (st : Stage) (b : Bool) :
    p.setupStderr i { st with readEnd := b } = { p.setupStderr i st with readEnd := b } := by
  unfold setupStderr
  split
  · split <;> rfl
  · rfl

theorem madeAt_of_ge (h : k ≤ j) : p.madeAt k j = .blank := if_neg (by omega)

theorem madeAt_succ (hjk : j ≠ k) (hprev : j + 1 ≠ k) : p.madeAt (k + 1) j = p.madeAt k j := by
  unfold madeAt
  by_cases hlt : j < k
  · rw [if_pos hlt, if_pos (by omega)]
    simp [show ¬k = j by omega, show ¬k = j + 1 by omega]
  · rw [if_neg hlt, if_neg (by omega)]

theorem setupStdin_madeAt (hk : k < p.numStages) : p.setupStdin k (p.madeAt k) = p.madeIn k := by
  have hblank : p.madeAt k k = .blank := madeAt_of_ge (Nat.le_refl k)
  funext j
  unfold setupStdin madeIn madeStdin
  by_cases h0 : k = 0
  · subst h0
    by_cases hj : j = 0
    · subst hj
      simp [hblank]
    · rw [if_pos rfl, update_of_ne hj, if_neg hj, madeAt_of_ge (Nat.zero_le j),
        madeAt_of_ge (by omega)]
  · obtain ⟨k, rfl⟩ := Nat.exists_eq_succ_of_ne_zero h0
    rw [if_neg h0, if_neg h0, Nat.succ_sub_one]
    cases hread : p.calls.fdopenRead (k + 1) with
    | true =>
      simp only [if_true]
      by_cases hj : j = k + 1
      · subst hj
        rw [update_self, if_pos rfl, hblank]
        simp
      · rw [update_of_ne hj, if_neg hj]
        by_cases hjk : j = k
        · subst hjk
          simp [madeAt, hread, show j < j + 1 + 1 by omega]
        · rw [update_of_ne hjk, madeAt_succ hj (by omega)]
    | false =>
      simp only [Bool.false_eq_true, if_false]
      by_cases hj : j = k + 1
      · subst hj
        rw [if_pos rfl, hblank]
        simp [Stage.blank]
      · rw [if_neg hj]
        by_cases hjk : j = k
        · subst hjk
          simp [madeAt, hread, show j < j + 1 + 1 by omega]
        · rw [madeAt_succ hj (by omega)]

theorem setupStdout_madeIn (hpipe : k + 1 ≠ p.numStages → p.calls.pipe k = true) :
    ∃ stages, p.setupStdout k (p.madeIn k) = some stages ∧
      Function.update stages k (p.setupStderr k (stages k)) = p.madeAt (k + 1) := by
  have hself : p.madeIn k k = { Stage.blank with
      stdinStream := p.madeStdin k, stdinIsExternal := k = 0 } := if_pos rfl
  -- the stage is described without its error streams, which `setup_stderr` adds
  have hfinish : ∀ st : Stage, st = { p.bare k with readEnd := k + 1 ≠ p.numStages } →
      update (update (p.madeIn k) k st) k
        (p.setupStderr k (update (p.madeIn k) k st k)) = p.madeAt (k + 1) := by
    rintro st rfl
    funext j
    by_cases hj : j = k
    · subst hj
      rw [update_self, update_self, setupStderr_readEnd]
      simp [madeAt, made]
    · rw [update_of_ne hj, update_of_ne hj, madeIn, if_neg hj]
  unfold setupStdout
  by_cases hlast : k + 1 = p.numStages
  · rw [if_pos hlast]
    refine ⟨_, rfl, hfinish _ ?_⟩
    simp [hself, bare, madeStdout, hlast, Stage.blank]
  · rw [if_neg hlast, if_pos (hpipe hlast)]
    cases hwrite : p.calls.fdopenWrite k with
    | true =>
      refine ⟨_, rfl, hfinish _ ?_⟩
      simp [hself, bare, madeStdout, hlast, hwrite, Stage.blank]
    | false =>
      refine ⟨_, rfl, hfinish _ ?_⟩
      simp [hself, bare, madeStdout, hlast, hwrite, Stage.blank]

theorem create_eq (hk : k ≤ p.numStages)
    (hpipe : ∀ j < k, j + 1 ≠ p.numStages → p.calls.pipe j = true) :
    p.create k = .ok (p.madeAt k) := by
  induction k with
  | zero => rfl
  | succ k ih =>
    obtain ⟨stages, hstdout, hmade⟩ := setupStdout_madeIn (hpipe k (Nat.lt_succ_self k))
    rw [create, ih (by omega) fun j hj => hpipe j (by omega)]
    simp [Except.bind, setupStdin_madeAt (show k < p.numStages by omega), hstdout, hmade]

theorem create_error {m : Nat} (hk : k < m) (hlast : k + 1 < p.numStages)
    (hpipe : ∀ j < k, p.calls.pipe j = true) (hfail : p.calls.pipe k = false) :
    p.create m = .error (k, p.madeIn k) := by
  induction m with
  | zero => omega
  | succ m ih =>
    rw [create]
    by_cases hm : k = m
    · subst hm
      have hnone : p.setupStdout k (p.madeIn k) = none := by
        simp [setupStdout, show ¬k + 1 = p.numStages by omega, hfail]
      rw [create_eq (by omega) fun j hj _ => hpipe j hj]
      simp [Except.bind, setupStdin_madeAt (show k < p.numStages by omega), hnone]
    · rw [ih (by omega)]
      rfl

theorem pipe_cases (calls : Calls) (n : Nat) :
    (∀ j, j + 1 < n → calls.pipe j = true) ∨
      ∃ k, k + 1 < n ∧ (∀ j < k, calls.pipe j = true) ∧ calls.pipe k = false := by
  by_cases h : ∃ k, k + 1 < n ∧ calls.pipe k = false
  · obtain ⟨hlt, hfail⟩ := Nat.find_spec h
    refine .inr ⟨Nat.find h, hlt, fun j hj => ?_, hfail⟩
    have hmin := Nat.find_min h hj
    rw [not_and, Bool.not_eq_false] at hmin
    exact hmin (by omega)
  · refine .inl fun j hj => ?_
    rw [not_exists] at h
    have hj' := h j
    rw [not_and, Bool.not_eq_false] at hj'
    exact hj' hj

theorem setupStderr_streams (i : Nat) (st : Stage) :
    (p.setupStderr i st).stdinStream = st.stdinStream ∧
    (p.setupStderr i st).stdoutStream = st.stdoutStream ∧
    (p.setupStderr i st).stdinIsExternal = st.stdinIsExternal ∧
    (p.setupStderr i st).stdoutIsExternal = st.stdoutIsExternal ∧
    (p.setupStderr i st).writeEnd = st.writeEnd ∧ (p.setupStderr i st).pc = st.pc ∧
    (p.setupStderr i st).closed = st.closed ∧
    ∀ e, (p.setupStderr i st).stderrStream = some (.pipe e) → st.stdoutStream = some (.pipe e) := by
  unfold setupStderr
  split
  · split
    · refine ⟨rfl, rfl, rfl, rfl, rfl, rfl, rfl, fun e he => ?_⟩
      obtain ⟨o, -, ho⟩ := Option.map_eq_some_iff.1 he
      cases ho
    · exact ⟨rfl, rfl, rfl, rfl, rfl, rfl, rfl, fun _ => id⟩
  · exact ⟨rfl, rfl, rfl, rfl, rfl, rfl, rfl, fun e he => (by cases he)⟩

theorem made_stream {i : Nat} {x : Stream} {e : PipeEnd}
    (h : (p.made i).stream x = some (.pipe e)) :
    (i ≠ 0 ∧ p.calls.fdopenRead i = true ∧ e = .read (i - 1)) ∨
      (i + 1 ≠ p.numStages ∧ p.calls.fdopenWrite i = true ∧ e = .write i) := by
  obtain ⟨hin, hout, -, -, -, -, -, herr⟩ := setupStderr_streams i (p.bare i)
  have hstdout : p.madeStdout i = some (.pipe e) →
      i + 1 ≠ p.numStages ∧ p.calls.fdopenWrite i = true ∧ e = .write i := by
    unfold madeStdout
    split
    · intro h
      cases h
    · next hlast =>
      split
      · next hw =>
        rintro ⟨⟩
        exact ⟨hlast, hw, rfl⟩
      · intro h
        cases h
  cases x with
  | stdin =>
    have hstdin : p.madeStdin i = some (.pipe e) := hin.symm.trans h
    unfold madeStdin at hstdin
    split at hstdin
    · cases hstdin
    · next h0 =>
      split at hstdin <;> cases hstdin
      next hr =>
        exact .inl ⟨h0, hr, rfl⟩
  | stdout => exact .inr (hstdout (hout.symm.trans h))
  | stderr => exact .inr (hstdout (herr e h))

theorem mem_cleanup (hj : j < k) (stages : Nat → Stage) :
    (.read j ∈ cleanup k stages ↔ (stages j).readEnd = true) ∧
      (.write j ∈ cleanup k stages ↔ (stages j).writeEnd = true) := by
  unfold cleanup Stage.rawEnds
  simp only [List.mem_flatMap, List.mem_range, List.mem_append]
  refine ⟨⟨?_, fun h => ⟨j, hj, .inl (by simp [h])⟩⟩, ⟨?_, fun h => ⟨j, hj, .inr (by simp [h])⟩⟩⟩
  · rintro ⟨i, -, h | h⟩ <;> split at h <;> simp_all
  · rintro ⟨i, -, h | h⟩ <;> split at h <;> simp_all

theorem madeIn_of_lt (hlast : k + 1 < p.numStages) (hj : j < k) : p.madeIn k j
    = { p.made j with readEnd := decide (p.calls.fdopenRead (j + 1) = false) } := by
  unfold madeIn madeAt
  rw [if_neg (by omega), if_pos (by omega)]
  simp [show ¬j + 1 = p.numStages by omega, show ¬k = j by omega]

theorem made_writeEnd (hj : j + 1 < p.numStages) :
    (p.made j).writeEnd = decide (p.calls.fdopenWrite j = false) := by
  rw [made, (setupStderr_streams j _).2.2.2.2.1]
  simp [bare, show ¬j + 1 = p.numStages by omega]

section

variable (hlast : k + 1 < p.numStages)
include hlast

theorem mem_cleanup_madeIn (hj : j < k) :
    (.read j ∈ cleanup k (p.madeIn k) ↔ p.calls.fdopenRead (j + 1) = false) ∧
      (.write j ∈ cleanup k (p.madeIn k) ↔ p.calls.fdopenWrite j = false) := by
  rw [(mem_cleanup hj _).1, (mem_cleanup hj _).2, madeIn_of_lt hlast hj]
  refine ⟨decide_eq_true_iff, ?_⟩
  rw [made_writeEnd (by omega), decide_eq_true_iff]

theorem madeIn_stream
    (h : ∀ j < k, p.calls.fdopenRead (j + 1) = false ∧ p.calls.fdopenWrite j = false) (i : Nat)
    (x : Stream) (e : PipeEnd) : (p.madeIn k i).stream x ≠ some (.pipe e) := by
  intro hx
  rcases Nat.lt_trichotomy i k with hlt | rfl | hgt
  · rw [madeIn_of_lt hlast hlt] at hx
    have hstream : (p.made i).stream x = some (.pipe e) := by
      cases x <;> exact hx
    rcases made_stream hstream with ⟨h0, hr, -⟩ | ⟨-, hw, -⟩
    · obtain ⟨i, rfl⟩ := Nat.exists_eq_succ_of_ne_zero h0
      rw [(h i (by omega)).1] at hr
      cases hr
    · rw [(h i hlt).2] at hw
      cases hw
  · rw [madeIn, if_pos rfl] at hx
    cases x with
    | stdin =>
      have hstdin : p.madeStdin i = some (.pipe e) := hx
      unfold madeStdin at hstdin
      split at hstdin
      · cases hstdin
      · next h0 =>
        obtain ⟨i, rfl⟩ := Nat.exists_eq_succ_of_ne_zero h0
        rw [(h i (by omega)).1] at hstdin
        cases hstdin
    | stdout | stderr => cases hx
  · rw [madeIn, if_neg (by omega), madeAt_of_ge (by omega)] at hx
    cases x <;> cases hx

theorem cleaned_iff :
    Cleaned k (p.madeIn k) ↔
      ∀ j < k, p.calls.fdopenRead (j + 1) = false ∧ p.calls.fdopenWrite j = false := by
  constructor
  · intro h j hj
    obtain ⟨hr, hw⟩ := h.descriptors j hj
    exact ⟨(mem_cleanup_madeIn hlast hj).1.mp hr, (mem_cleanup_madeIn hlast hj).2.mp hw⟩
  · intro h
    refine ⟨fun j hj => ?_, madeIn_stream hlast h⟩
    obtain ⟨hr, hw⟩ := h j hj
    exact ⟨(mem_cleanup_madeIn hlast hj).1.mpr hr, (mem_cleanup_madeIn hlast hj).2.mpr hw⟩

end

end

end IosSystem.Pipeline.Streams
