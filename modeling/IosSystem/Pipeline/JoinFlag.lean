import IosSystem.Lib.SaveRestore
import IosSystem.Pipeline.ExitCode

/-!
# `joinMainThread`

`pipeline_stage_thread` and `capture_command_output` both want `ios_system` to wait for the command:

    bool saved = joinMainThread;
    joinMainThread = true;
    ios_system(command);
    joinMainThread = saved;

The variable is one for the whole process. `ios_system` reads it when it creates the thread of the
command and when it decides whether to join it. So this is `SaveRestore` with the value `true`: a
thread for each stage and for each substitution.

The stages of `ExitCode` take the steps of such threads (`Refines.step`).
-/

namespace IosSystem.Pipeline.JoinFlag

open Transition Option
open SaveRestore (Place Restored)

/-- The next assignment to `joinMainThread`, or a look at it by `ios_system`. -/
def step : SaveRestore.State Bool → SaveRestore.Label → Option (SaveRestore.State Bool) :=
  SaveRestore.step true

def initial (joinMainThread : Bool) (stages captures : Nat) : SaveRestore.State Bool :=
  SaveRestore.initial joinMainThread (stages + captures)

/-- Every look has found `true`, and at the end `joinMainThread` is as it was. -/
def Kept (joinMainThread : Bool) : SaveRestore.State Bool → Prop := Restored true joinMainThread

/-- A call stores back only `true`, or it is the only one under way. -/
def Guard : SaveRestore.State Bool → SaveRestore.Label → Prop := SaveRestore.Guard true

/--
A run in which a call stores `false` back only when no other is under way keeps `joinMainThread` in
all its states. All runs do so exactly if `joinMainThread` was `true` at the beginning or there is
only one call.
-/
theorem joinMainThread_kept (joinMainThread : Bool) (stages captures : Nat) :
    (∀ as, Meets step Guard (initial joinMainThread stages captures) as →
      Always step (Kept joinMainThread) (initial joinMainThread stages captures) as) ∧
    ((∀ as, Always step (Kept joinMainThread) (initial joinMainThread stages captures) as)
      ↔ joinMainThread = true ∨ stages + captures ≤ 1) :=
  ⟨fun _ h => SaveRestore.Always.restored h, SaveRestore.forall_restored_iff true joinMainThread _⟩

/--
Two stages, and `joinMainThread` is `false`. When the first one has ended the second one does not
wait for its command; and if the second one sets the variable again, it stays `true` for good.
-/
theorem joinMainThread_lost :
    run step (initial false 2 0)
    [.advance 0, .advance 0, .advance 1, .advance 1, .advance 0, .look 1]
        = some ⟨false, [.done [], .inside true [false]]⟩ ∧
      run step (initial false 2 0)
          [.advance 0, .advance 0, .advance 1, .advance 0, .advance 1, .look 1, .advance 1]
        = some ⟨true, [.done [], .done [true]]⟩ :=
  ⟨rfl, rfl⟩

/-- The place of a stage, as far as `joinMainThread` is concerned. -/
def Tracks (st : Stage) (p : Place Bool) : Prop :=
  match st.pc with
  | .save => p = .outside
  | .force => p = .saved st.savedJoinMainThread
  | .enter | .test | .join | .load | .restore => ∃ reads, p = .inside st.savedJoinMainThread reads
  | .record | .done => ∃ reads, p = .done reads

/-- The flag and the stages are a state of `SaveRestore`. -/
structure Refines (s : State) (t : SaveRestore.State Bool) : Prop where
  value : t.value = s.shared.joinMainThread
  tracks : ∀ (i : Nat) st, s.stages[i]? = some st → ∃ p, t.threads[i]? = some p ∧ Tracks st p

theorem stageStep_tracks {m m' : Shared} {st st' : Stage} {p : Place Bool} (hp : Tracks st p)
    (hs : stageStep m st = some (m', st')) :
    ∃ p', Tracks st' p' ∧
      ((m'.joinMainThread = m.joinMainThread ∧ p' = p) ∨
        SaveRestore.advance true m.joinMainThread p = some (m'.joinMainThread, p') ∨
        SaveRestore.look m.joinMainThread p = some (m'.joinMainThread, p')) := by
  unfold Tracks at hp
  unfold stageStep at hs
  cases hpc : st.pc <;> simp only [hpc] at hp hs
  case done => cases hs
  case join =>
    split at hs <;> cases hs
    exact ⟨p, hp, .inl ⟨rfl, rfl⟩⟩
  all_goals cases hs
  case save =>
    subst hp
    exact ⟨_, rfl, .inr (.inl rfl)⟩
  case force =>
    subst hp
    exact ⟨_, ⟨[], rfl⟩, .inr (.inl rfl)⟩
  case test =>
    obtain ⟨reads, rfl⟩ := hp
    refine ⟨.inside st.savedJoinMainThread (m.joinMainThread :: reads), ?_, .inr (.inr rfl)⟩
    cases m.joinMainThread <;> exact ⟨_, rfl⟩
  case restore =>
    obtain ⟨reads, rfl⟩ := hp
    exact ⟨_, ⟨reads, rfl⟩, .inr (.inl rfl)⟩
  case enter | load | record => exact ⟨p, hp, .inl ⟨rfl, rfl⟩⟩

variable {t : SaveRestore.State Bool}

theorem Refines.setStage {s : State} {i : Nat} {st' : Stage} {p p' : Place Bool} (h : Refines s t)
    (m' : Shared) (hp : t.threads[i]? = some p) (hp' : Tracks st' p') :
    Refines (s.setStage i (m', st')) (t.set i (m'.joinMainThread, p')) := by
  refine ⟨rfl, fun k st hk => ?_⟩
  rcases Threads.getElem?_set_cases hk with ⟨rfl, rfl⟩ | ⟨hne, hk⟩
  · exact ⟨p', Threads.getElem?_set_eq hp p', hp'⟩
  · obtain ⟨q, hq, htracks⟩ := h.tracks k st hk
    exact ⟨q, Threads.getElem?_set_of_ne hne hq p', htracks⟩

theorem Refines.step {s s' : State} {l : Label} (h : Refines s t)
    (hs : Pipeline.step s l = some s') :
    ∃ t', Refines s' t' ∧ (t' = t ∨ ∃ l', JoinFlag.step t l' = some t') := by
  cases l with
  | stage i =>
    obtain ⟨⟨m', st'⟩, hr, rfl⟩ := map_eq_some_iff.1 hs
    obtain ⟨st, hi, hst⟩ := bind_eq_some_iff.1 hr
    obtain ⟨p, hp, htracks⟩ := h.tracks i st hi
    obtain ⟨p', htracks', hmove⟩ := stageStep_tracks htracks hst
    refine ⟨t.set i (m'.joinMainThread, p'), h.setStage m' hp htracks', ?_⟩
    rw [← h.value] at hmove
    obtain ⟨hvalue, rfl⟩ | hmove | hmove := hmove
    · rw [hvalue, SaveRestore.State.set, Threads.set_eq_self hp]
      exact .inl rfl
    · exact .inr ⟨.advance i, by simp [JoinFlag.step, SaveRestore.step, hp, hmove]⟩
    · exact .inr ⟨.look i, by simp [JoinFlag.step, SaveRestore.step, hp, hmove]⟩
  | command i =>
    obtain ⟨⟨m', st'⟩, hr, rfl⟩ := map_eq_some_iff.1 hs
    obtain ⟨st, hi, hst⟩ := bind_eq_some_iff.1 hr
    obtain ⟨p, hp, htracks⟩ := h.tracks i st hi
    have hkeep : m'.joinMainThread = s.shared.joinMainThread ∧ Tracks st' p := by
      unfold commandStep at hst
      split at hst
      all_goals first | cases hst; exact ⟨rfl, htracks⟩ | cases hst
    have href := h.setStage m' hp hkeep.2
    rw [hkeep.1, ← h.value, SaveRestore.State.set, Threads.set_eq_self hp] at href
    exact ⟨t, href, .inl rfl⟩
  | forked i =>
    obtain ⟨⟨m', f'⟩, hr, rfl⟩ := map_eq_some_iff.1 hs
    obtain ⟨f, hi, hf⟩ := bind_eq_some_iff.1 hr
    have hkeep : m'.joinMainThread = s.shared.joinMainThread := by
      unfold forkedStep at hf
      split at hf
      all_goals first | cases hf; rfl | cases hf
    exact ⟨t, ⟨h.value.trans hkeep.symm, h.tracks⟩, .inl rfl⟩
  | waiter =>
    obtain ⟨w, -, rfl⟩ := map_eq_some_iff.1 hs
    exact ⟨t, ⟨h.value, h.tracks⟩, .inl rfl⟩

theorem refines_initial (statuses forked : List Int) (shared : Shared) :
    Refines (State.initial statuses forked shared)
      (initial shared.joinMainThread statuses.length 0) := by
  refine ⟨rfl, fun i st hi => ⟨.outside, ?_, ?_⟩⟩
  · have hlt := (List.getElem?_eq_some_iff.1 hi).1
    simp only [State.initial, List.length_map] at hlt
    simp [initial, SaveRestore.initial, hlt]
  · obtain ⟨e, -, rfl⟩ := List.mem_map.1 (List.mem_of_getElem? hi)
    rfl

def Sound (joinMainThread : Bool) (s : State) : Prop :=
  ∃ t, Refines s t ∧ SaveRestore.Inv true joinMainThread t ∧
    (joinMainThread = true ∨ t.threads.length ≤ 1)

/--
With `joinMainThread` set before, or with a single stage, every stage finds it set and joins its
command: this is the second half of what `exit_codes` asks for.
-/
theorem stage_joins {statuses forked : List Int} {shared : Shared} {s : State}
    (hone : shared.joinMainThread = true ∨ statuses.length ≤ 1)
    (h : Reachable Pipeline.step (fun _ _ => True) (· = State.initial statuses forked shared) s) :
    ∀ st ∈ s.stages, st.pc = .test → s.shared.joinMainThread = true := by
  obtain ⟨t, href, hinv, -⟩ : Sound shared.joinMainThread s := by
    refine Reachable.invariant ?_ ?_ h
    · rintro s rfl
      refine ⟨_, refines_initial statuses forked shared, SaveRestore.inv_initial _ _ _, ?_⟩
      simpa [initial, SaveRestore.initial] using hone
    · rintro s s' l ⟨t, href, hinv, hlen⟩ - hs
      obtain ⟨t', href', rfl | ⟨l', hl⟩⟩ := href.step hs
      · exact ⟨t', href', hinv, hlen⟩
      · refine ⟨t', href', hinv.step hl (hinv.guard hlen l'), ?_⟩
        rwa [SaveRestore.length_step hl]
  intro st hst htest
  obtain ⟨i, hi⟩ := List.getElem?_of_mem hst
  obtain ⟨p, hp, htracks⟩ := href.tracks i st hi
  simp only [Tracks, htest] at htracks
  obtain ⟨reads, rfl⟩ := htracks
  rw [← href.value]
  exact hinv.inside _ (List.mem_of_getElem? hp) rfl

/-- The first of two stages is about to test it. -/
theorem stage_joins_first : ∃ s : State, s.stages.map Stage.pc = [.test, .save] ∧
    s.shared.joinMainThread = true := by
  have hrun : run Pipeline.step (.initial [7, 0] [] ⟨0, true⟩) (List.replicate 3 (.stage 0))
    = some _ := rfl
  exact ⟨_, rfl, stage_joins (.inl rfl) (.of_run (.start rfl) hrun) _ List.mem_cons_self rfl⟩

end IosSystem.Pipeline.JoinFlag
