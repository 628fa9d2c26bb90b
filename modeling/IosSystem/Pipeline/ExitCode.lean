import IosSystem.Lib.Threads
import IosSystem.Lib.Transition
import Mathlib.Algebra.Ring.Int.Defs

/-!
# Exit codes of the commands of one session

All commands of a session publish what they return in `global_errno`: `ios_system` sets it to 0 at
its entry, `run_function` stores what the command returned, and `ios_system` and
`ios_getCommandStatus` load it when the command has ended.

The model has the stages of one pipeline, each with the thread of its command, the caller of
`ios_pipeline_wait`, and commands that were started under a pid of their own and are waited for.
-/

namespace IosSystem.Pipeline

open List Threads Transition Option

/-- The variables that all threads use. -/
structure Shared where
  globalErrno : Int
  joinMainThread : Bool

/-- Where a stage is in `pipeline_stage_thread`. -/
inductive StagePC where
  /-- about to save `joinMainThread` -/
  | save
  | force
  /-- at the entry of `ios_system`, up to the creation of the command thread -/
  | enter
  /-- about to test `joinMainThread` -/
  | test
  | join
  /-- about to return `global_errno` from `ios_system` -/
  | load
  | restore
  | record
  | done
  deriving DecidableEq

/-- Where the thread of a command is in `run_function`. -/
inductive Command where
  | notStarted
  | running
  | stored
  | ended
  deriving DecidableEq

/-- A stage: its thread and its command. -/
structure Stage where
  status : Int
  pc : StagePC
  command : Command
  savedJoinMainThread : Bool
  result : Int
  exitCode : Int

inductive ForkedPC where
  | enter
  | running
  | stored
  /-- `thread_ids[pid]` is 0 again -/
  | released
  /-- `waitpid` has returned, with this value of `*stat_loc` -/
  | reported (stat : Int)
  deriving DecidableEq

/-- A command that another part of the program has forked. -/
structure Forked where
  status : Int
  pc : ForkedPC

/-- The caller of `ios_pipeline_wait`. -/
inductive Waiter where
  | join (stage : Nat)
  | returned (exitCode : Int)
  deriving DecidableEq

structure State where
  shared : Shared
  stages : List Stage
  forked : List Forked
  waiter : Waiter

/-- A pipeline whose commands return `statuses`, and forked commands that return `forked`. -/
def State.initial (statuses forked : List Int) (shared : Shared) : State :=
  { shared := shared
    stages := statuses.map fun e => ⟨e, .save, .notStarted, false, 0, 0⟩
    forked := forked.map fun e => ⟨e, .enter⟩
    waiter := .join 0 }

/-- `W_EXITCODE(ret, 0)` -/
def wExitCode (ret : Int) : Int := ret * 2 ^ 8

/-- `pipeline_stage_thread` around its call of `ios_system`. -/
def stageStep (m : Shared) (st : Stage) : Option (Shared × Stage) :=
  match st.pc with
  | .save => some (m, { st with pc := .force, savedJoinMainThread := m.joinMainThread })
  | .force => some ({ m with joinMainThread := true }, { st with pc := .enter })
  | .enter => some ({ m with globalErrno := 0 }, { st with pc := .test, command := .running })
  | .test => some (m, { st with pc := if m.joinMainThread then .join else .load })
  | .join => if st.command = .ended then some (m, { st with pc := .load }) else none
  | .load => some (m, { st with pc := .restore, result := m.globalErrno })
  | .restore =>
    some ({ m with joinMainThread := st.savedJoinMainThread }, { st with pc := .record })
  | .record => some (m, { st with pc := .done, exitCode := st.result })
  | .done => none

/-- The command stores its exit code, and ends. -/
def commandStep (m : Shared) (st : Stage) : Option (Shared × Stage) :=
  match st.command with
  | .running => some ({ m with globalErrno := st.status }, { st with command := .stored })
  | .stored => some (m, { st with command := .ended })
  | .notStarted | .ended => none

/-- A command behind `ios_fork`, and `ios_waitpid`. -/
def forkedStep (m : Shared) (f : Forked) : Option (Shared × Forked) :=
  match f.pc with
  | .enter => some ({ m with globalErrno := 0 }, { f with pc := .running })
  | .running => some ({ m with globalErrno := f.status }, { f with pc := .stored })
  | .stored => some (m, { f with pc := .released })
  | .released => some (m, { f with pc := .reported (wExitCode m.globalErrno) })
  | .reported _ => none

/-- The next step of `ios_pipeline_wait`. -/
def waiterStep (stages : List Stage) : Waiter → Option Waiter
  | .join i =>
    match stages[i]? with
    | some st => if st.pc = .done then some (.join (i + 1)) else none
    | none =>
      match stages.getLast? with
      | some st => some (.returned st.exitCode)
      | none => some (.returned 0)
  | .returned _ => none

inductive Label where
  | stage (i : Nat)
  | command (i : Nat)
  | forked (i : Nat)
  | waiter

def State.setStage (s : State) (i : Nat) (r : Shared × Stage) : State :=
  { s with shared := r.1, stages := s.stages.set i r.2 }

def State.setForked (s : State) (i : Nat) (r : Shared × Forked) : State :=
  { s with shared := r.1, forked := s.forked.set i r.2 }

def step (s : State) : Label → Option State
  | .stage i => ((s.stages[i]?).bind (stageStep s.shared)).map (s.setStage i)
  | .command i => ((s.stages[i]?).bind (commandStep s.shared)).map (s.setStage i)
  | .forked i => ((s.forked[i]?).bind (forkedStep s.shared)).map (s.setForked i)
  | .waiter => (waiterStep s.stages s.waiter).map fun w => { s with waiter := w }

/-! ## The guard -/

/-- The exit code is stored, and not loaded yet. -/
def Stage.pending (st : Stage) : Bool :=
  (st.command = .stored ∨ st.command = .ended) ∧ (st.pc = .test ∨ st.pc = .join ∨ st.pc = .load)

def Forked.pending (f : Forked) : Bool := f.pc = .stored ∨ f.pc = .released

/-- No exit code waits to be loaded. -/
def State.Quiet (s : State) : Prop :=
  (∀ st ∈ s.stages, st.pending = false) ∧ ∀ f ∈ s.forked, f.pending = false

instance (s : State) : Decidable s.Quiet := inferInstanceAs (Decidable (_ ∧ _))

/-- `global_errno` is written only while no status waits to be loaded, and a stage finds
`joinMainThread` as it has set it. -/
def Guard (s : State) : Label → Prop
  | .stage i => ∀ st ∈ s.stages[i]?,
      (st.pc = .enter → s.Quiet) ∧ (st.pc = .test → s.shared.joinMainThread = true)
  | .command i => ∀ st ∈ s.stages[i]?, st.command = .running → s.Quiet
  | .forked i => ∀ f ∈ s.forked[i]?, f.pc = .enter ∨ f.pc = .running → s.Quiet
  | .waiter => True

instance (s : State) : (l : Label) → Decidable (Guard s l)
  | .stage i => inferInstanceAs (Decidable (∀ st ∈ s.stages[i]?, _))
  | .command i => inferInstanceAs (Decidable (∀ st ∈ s.stages[i]?, _))
  | .forked i => inferInstanceAs (Decidable (∀ f ∈ s.forked[i]?, _))
  | .waiter => .isTrue trivial

/-! ## The invariant -/

structure Stage.Ok (m : Shared) (st : Stage) : Prop where
  pending : st.pending = true → m.globalErrno = st.status
  load : st.pc = .load → st.command = .ended
  result : st.pc = .restore ∨ st.pc = .record → st.result = st.status
  exitCode : st.pc = .done → st.exitCode = st.status

structure Forked.Ok (m : Shared) (f : Forked) : Prop where
  pending : f.pending = true → m.globalErrno = f.status
  reported : ∀ stat, f.pc = .reported stat → stat = wExitCode f.status

def Waiter.Ok (stages : List Stage) : Waiter → Prop
  | .join i => ∀ j < i, ∀ st ∈ stages[j]?, st.pc = .done
  | .returned exitCode => ∀ st ∈ stages.getLast?, exitCode = st.status

/-- A code that waits to be loaded is the one in `ios_global_errno`. -/
structure Inv (statuses forkedStatuses : List Int) (s : State) : Prop where
  statuses : s.stages.map Stage.status = statuses
  forkedStatuses : s.forked.map Forked.status = forkedStatuses
  stages : ∀ st ∈ s.stages, st.Ok s.shared
  forked : ∀ f ∈ s.forked, f.Ok s.shared
  waiter : s.waiter.Ok s.stages

variable {m m' : Shared} {st st' : Stage} {es fs : List Int} {s : State}

theorem Stage.Ok.of_shared (h : st.Ok m)
    (hm : m'.globalErrno = m.globalErrno ∨ st.pending = false) : st.Ok m' := by
  refine ⟨fun hp => ?_, h.load, h.result, h.exitCode⟩
  rcases hm with hm | hm
  · rw [hm]
    exact h.pending hp
  · rw [hm] at hp
    cases hp

theorem Forked.Ok.of_shared {f : Forked} (h : f.Ok m)
    (hm : m'.globalErrno = m.globalErrno ∨ f.pending = false) : f.Ok m' := by
  refine ⟨fun hp => ?_, h.reported⟩
  rcases hm with hm | hm
  · rw [hm]
    exact h.pending hp
  · rw [hm] at hp
    cases hp

/-- A thread that writes to `global_errno` does so while everything is quiet. -/
def Calm (s : State) (m' : Shared) : Prop := m'.globalErrno = s.shared.globalErrno ∨ s.Quiet

theorem Inv.stages_of_calm (h : Inv es fs s) (hm : Calm s m') : ∀ st ∈ s.stages, st.Ok m' :=
  fun st hst => (h.stages st hst).of_shared (hm.imp_right fun hq => hq.1 st hst)

theorem Inv.forked_of_calm (h : Inv es fs s) (hm : Calm s m') : ∀ f ∈ s.forked, f.Ok m' :=
  fun f hf => (h.forked f hf).of_shared (hm.imp_right fun hq => hq.2 f hf)

/-! ## Steps -/

attribute [grind cases] Stage.Ok Forked.Ok
attribute [grind =] Stage.pending Forked.pending

theorem stageStep_ok (h : st.Ok m)
    (hj : st.pc = .test → m.joinMainThread = true) (hs : stageStep m st = some (m', st')) :
    st'.Ok m' ∧ st'.status = st.status ∧ st.pc ≠ .done ∧
      (st.pc = .enter ∨ m'.globalErrno = m.globalErrno) := by
  unfold stageStep at hs
  cases hpc : st.pc <;> simp only [hpc] at hs hj ⊢
  case done => cases hs
  all_goals
    refine ⟨?_, ?_, by simp, ?_⟩
    · constructor <;> grind
    · grind
    · grind

theorem commandStep_ok (h : st.Ok m) (hs : commandStep m st = some (m', st')) :
    st'.Ok m' ∧ st'.status = st.status ∧ st'.pc = st.pc ∧
      (st.command = .running ∨ m'.globalErrno = m.globalErrno) := by
  unfold commandStep at hs
  cases hc : st.command <;> simp only [hc] at hs ⊢
  case running | stored =>
    refine ⟨?_, ?_, ?_, ?_⟩
    · constructor <;> grind
    all_goals grind
  all_goals cases hs

theorem forkedStep_ok {f f' : Forked} (h : f.Ok m) (hs : forkedStep m f = some (m', f')) :
    f'.Ok m' ∧ f'.status = f.status ∧
      (f.pc = .enter ∨ f.pc = .running ∨ m'.globalErrno = m.globalErrno) := by
  unfold forkedStep at hs
  cases hpc : f.pc <;> simp only [hpc] at hs ⊢
  case reported => cases hs
  all_goals
    refine ⟨?_, ?_, ?_⟩
    · constructor <;> grind
    all_goals grind

theorem Waiter.Ok.set {stages : List Stage} {w : Waiter} (h : w.Ok stages) {i : Nat}
    (hi : stages[i]? = some st) (hd : st.pc = .done → st'.pc = .done)
    (hst : st'.status = st.status) : w.Ok (stages.set i st') := by
  cases w with
  | join k =>
    intro j hj x hx
    rcases getElem?_set_cases hx with ⟨rfl, rfl⟩ | ⟨_, hx⟩
    · exact hd (h j hj st hi)
    · exact h j hj x hx
  | returned exitCode =>
    intro x hx
    rw [getLast?_eq_getElem?, length_set] at hx
    rcases getElem?_set_cases hx with ⟨hij, rfl⟩ | ⟨_, hx⟩
    · rw [hst]
      refine h st ?_
      rw [getLast?_eq_getElem?, hij]
      exact hi
    · refine h x ?_
      rw [getLast?_eq_getElem?]
      exact hx

theorem Inv.setStage (h : Inv es fs s) {i : Nat}
    (hi : s.stages[i]? = some st) (hok : st'.Ok m') (hm : Calm s m')
    (hd : st.pc = .done → st'.pc = .done) (hst : st'.status = st.status) :
    Inv es fs (s.setStage i (m', st')) :=
  ⟨(map_set_of_eq hi hst).trans h.statuses, h.forkedStatuses,
    forall_mem_set (h.stages_of_calm hm) hok, h.forked_of_calm hm, h.waiter.set hi hd hst⟩

theorem Inv.waiterStep (h : Inv es fs s) {w : Waiter}
    (hs : waiterStep s.stages s.waiter = some w) : w.Ok s.stages := by
  have hw := h.waiter
  cases hwait : s.waiter with
  | returned v =>
    rw [hwait] at hs
    cases hs
  | join i =>
    rw [hwait] at hs hw
    simp only [Pipeline.waiterStep] at hs
    split at hs
    · next st hst =>
      split at hs <;> cases hs
      next hdone =>
        intro j hj x hx
        rcases Nat.lt_succ_iff_lt_or_eq.1 hj with hlt | rfl
        · exact hw j hlt x hx
        · obtain rfl : st = x := Option.some.inj (hst.symm.trans hx)
          exact hdone
    · next hnone =>
      have hlen := List.getElem?_eq_none_iff.1 hnone
      split at hs <;> cases hs
      · next st hst =>
        intro x hx
        obtain rfl : st = x := Option.some.inj (hst.symm.trans hx)
        have hmem : st ∈ s.stages := List.mem_of_getLast? hst
        refine (h.stages st hmem).exitCode ?_
        obtain ⟨j, hj⟩ := List.getElem?_of_mem hmem
        have hlt := (List.getElem?_eq_some_iff.1 hj).1
        exact hw j (Nat.lt_of_lt_of_le hlt hlen) st hj
      · next hst =>
        intro x hx
        rw [hst] at hx
        cases hx

theorem Inv.step {s' : State} {l : Label} (h : Inv es fs s)
    (hg : Guard s l) (hs : step s l = some s') : Inv es fs s' := by
  cases l with
  | stage i =>
    obtain ⟨⟨m', st'⟩, hr, rfl⟩ := map_eq_some_iff.1 hs
    obtain ⟨st, hi, hst⟩ := bind_eq_some_iff.1 hr
    obtain ⟨hquiet, hjoin⟩ := hg st hi
    obtain ⟨hok, hstatus, hnot, hwrite⟩ :=
      stageStep_ok (h.stages st (mem_of_getElem? hi)) hjoin hst
    exact h.setStage hi hok (hwrite.symm.imp_right hquiet) (fun hd => absurd hd hnot) hstatus
  | command i =>
    obtain ⟨⟨m', st'⟩, hr, rfl⟩ := map_eq_some_iff.1 hs
    obtain ⟨st, hi, hst⟩ := bind_eq_some_iff.1 hr
    obtain ⟨hok, hstatus, hpc, hwrite⟩ :=
      commandStep_ok (h.stages st (mem_of_getElem? hi)) hst
    exact h.setStage hi hok (hwrite.symm.imp_right (hg st hi)) (fun hd => hpc.trans hd) hstatus
  | forked i =>
    obtain ⟨⟨m', f'⟩, hr, rfl⟩ := map_eq_some_iff.1 hs
    obtain ⟨f, hi, hf⟩ := bind_eq_some_iff.1 hr
    obtain ⟨hok, hstatus, hwrite⟩ := forkedStep_ok (h.forked f (mem_of_getElem? hi)) hf
    have hcalm : Calm s m' := by
      rcases hwrite with he | he | he
      · exact .inr (hg f hi (.inl he))
      · exact .inr (hg f hi (.inr he))
      · exact .inl he
    exact ⟨h.statuses, (map_set_of_eq hi hstatus).trans h.forkedStatuses,
      h.stages_of_calm hcalm, forall_mem_set (h.forked_of_calm hcalm) hok, h.waiter⟩
  | waiter =>
    obtain ⟨w, hw, rfl⟩ := map_eq_some_iff.1 hs
    exact ⟨h.statuses, h.forkedStatuses, h.stages, h.forked, h.waiterStep hw⟩

theorem Inv.initial (es fs : List Int) (shared : Shared) :
    Inv es fs (State.initial es fs shared) := by
  refine ⟨?_, ?_, ?_, ?_, fun j hj => absurd hj (Nat.not_lt_zero j)⟩
  · simp [State.initial, Function.comp_def]
  · simp [State.initial, Function.comp_def]
  · intro st hst
    obtain ⟨e, -, rfl⟩ := mem_map.1 hst
    constructor <;> simp [Stage.pending]
  · intro f hf
    obtain ⟨e, -, rfl⟩ := mem_map.1 hf
    constructor <;> simp [Forked.pending]

/-! ## The theorem -/

def GuardedReachable (es fs : List Int) (s : State) : Prop :=
  Transition.Reachable step Guard (fun s => ∃ shared, s = State.initial es fs shared) s

/-- If no thread writes to `global_errno` between the store of a command and the load of its status:
`ios_pipeline_wait` returns the status of the last stage, every stage records its own status, and
`waitpid` reports the status of the command that ran under the pid. -/
theorem exit_codes {es fs : List Int} (hes : es ≠ []) {s : State} (h : GuardedReachable es fs s) :
    (∀ exitCode, s.waiter = .returned exitCode → es.getLast hes = exitCode) ∧
      (∀ (i : Nat) (st : Stage), s.stages[i]? = some st → st.pc = .done →
        es[i]? = some st.exitCode) ∧
      ∀ (i : Nat) (f : Forked) (stat : Int), s.forked[i]? = some f → f.pc = .reported stat →
        (fs[i]?).map wExitCode = some stat := by
  have hinv : Inv es fs s := by
    refine Transition.Reachable.invariant ?_ (fun _ _ _ hinv hg hs => hinv.step hg hs) h
    rintro _ ⟨shared, rfl⟩
    exact Inv.initial es fs shared
  refine ⟨fun exitCode hw => ?_, fun i st hi hd => ?_, fun i f stat hi hf => ?_⟩
  · have hok := hinv.waiter
    rw [hw] at hok
    have hlast : (s.stages.getLast?).map Stage.status = some (es.getLast hes) := by
      rw [← getLast?_map, hinv.statuses, getLast?_eq_getLast_of_ne_nil hes]
    obtain ⟨st, hst, he⟩ := map_eq_some_iff.1 hlast
    rw [← he]
    exact (hok st hst).symm
  · rw [(hinv.stages st (mem_of_getElem? hi)).exitCode hd, ← hinv.statuses, getElem?_map, hi]
    rfl
  · rw [(hinv.forked f (mem_of_getElem? hi)).reported stat hf, ← hinv.forkedStatuses,
      getElem?_map, hi]
    rfl

def oneByOne : List Label :=
  flatten
    [[.stage 0, .stage 0, .stage 0, .command 0, .command 0], replicate 5 (.stage 0),
      [.stage 1, .stage 1, .stage 1, .command 1, .command 1], replicate 5 (.stage 1),
      replicate 3 .waiter]

/-- The stages run one by one, and the waiter returns the exit code of the last one. -/
theorem exit_codes_one_by_one :
    ∃ s, GuardedReachable [7, 0] [] s ∧ s.waiter = .returned 0 := by
  have hrun : (run (guarded step Guard) (State.initial [7, 0] [] ⟨0, true⟩)
      oneByOne).map State.waiter = some (.returned 0) := by decide +kernel
  obtain ⟨s, hs, hw⟩ := map_eq_some_iff.1 hrun
  have hreach : GuardedReachable [7, 0] [] s := .of_guarded_run (.start ⟨_, rfl⟩) hs
  have hnil : [(7 : Int), 0] ≠ [] := by simp
  have hlast := (exit_codes hnil hreach).1 0 hw
  exact ⟨s, hreach, hlast ▸ hw⟩

/-- The command of the first stage stores 7 after that of the second stage has stored 0 and before
the second stage loads it. -/
def storeBetween : List Label :=
  flatten
    [[.stage 0, .stage 0, .stage 0, .stage 1, .stage 1, .stage 1],
      [.command 1, .command 1, .command 0, .command 0], replicate 5 (.stage 1),
      replicate 5 (.stage 0), replicate 3 .waiter]

/-- The second of two commands, which returns 0, ends before the first one, which returned 7, is
waited for. -/
def endBetween : List Label :=
  [.forked 0, .forked 1, .forked 0, .forked 0, .forked 1, .forked 0]

/-- `ios_pipeline_wait` returns the status of the first stage, and `waitpid` the status of another
command. -/
theorem exit_code_of_another :
    (∃ s, Transition.Reachable step (fun _ _ => True) (· = State.initial [7, 0] [] ⟨0, true⟩) s ∧
      s.waiter = .returned 7 ∧ s.stages.map Stage.exitCode = [7, 7]) ∧
    ∃ s, Transition.Reachable step (fun _ _ => True) (· = State.initial [] [7, 0] ⟨0, true⟩) s ∧
      s.forked.map Forked.pc = [.reported (wExitCode 0), .stored] := by
  constructor
  · have hrun : (run step (State.initial [7, 0] [] ⟨0, true⟩) storeBetween).map
        (fun s => (s.waiter, s.stages.map Stage.exitCode)) = some (.returned 7, [7, 7]) := by
      decide +kernel
    obtain ⟨s, hs, hrest⟩ := map_eq_some_iff.1 hrun
    exact ⟨s, .of_run (.start rfl) hs, Prod.mk.inj hrest⟩
  · have hrun : ∃ s, run step (State.initial [] [7, 0] ⟨0, true⟩) endBetween = some s ∧
        s.forked.map Forked.pc = [.reported (wExitCode 0), .stored] := ⟨_, rfl, rfl⟩
    obtain ⟨s, hs, hrest⟩ := hrun
    exact ⟨s, .of_run (.start rfl) hs, hrest⟩

end IosSystem.Pipeline
