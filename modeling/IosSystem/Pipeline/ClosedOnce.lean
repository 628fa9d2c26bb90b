import IosSystem.Pipeline.Streams
import Mathlib.Algebra.Order.BigOperators.Group.Finset

/-!
# How often the streams of a pipeline are closed

The stage thread closes `stdout_stream`, sets it to null, and then compares `stderr_stream` with it.
With `|&` the two were the same stream, and it is closed again (`closed_twice_shared`).
-/

namespace IosSystem.Pipeline.Streams

open List Function Execution Streams.StagePC
open IosSystem.Shell

/-! ## The record of a stage -/

section

variable (p : Execution)

def Execution.stdinOf (i : Nat) : File :=
  if i = 0 then .outside (p.options.input.getD .stdin) else .pipe (.read (i - 1))

def Execution.stdoutOf (i : Nat) : File :=
  if i + 1 = p.numStages then .outside (p.options.output.getD .stdout) else .pipe (.write i)

def Execution.stderrOf (i : Nat) : File :=
  if p.shareStderr ∨ i + 1 = p.numStages then
    if i + 1 = p.numStages ∧ p.options.error.isSome then .outside (p.options.error.getD .stderr)
    else p.stdoutOf i
  else .outside (p.options.error.getD .stderr)

/-- The file behind a stream of a stage. -/
def Execution.fileOf (i : Nat) : Stream → File
  | .stdin => p.stdinOf i
  | .stdout => p.stdoutOf i
  | .stderr => p.stderrOf i

/-- Stage `i` writes its errors into the pipe. -/
def Execution.Shares (i : Nat) : Prop := p.shareStderr = true ∧ i + 1 ≠ p.numStages

instance (i : Nat) : Decidable (p.Shares i) := inferInstanceAs (Decidable (_ ∧ _))

def Execution.stderrExternal (i : Nat) : Bool :=
  if p.shareStderr ∨ i + 1 = p.numStages then
    if i + 1 = p.numStages ∧ p.options.error.isSome then true else i + 1 = p.numStages
  else p.options.error.isSome

/-- What each step of the thread of stage `i` closes. -/
def Execution.closesAt (i : Nat) : StagePC → List File
  | .unstarted | .done => []
  | .system => (p.commandCloses i).map (p.fileOf i)
  | .closeStdout => if i + 1 = p.numStages then [] else [.pipe (.write i)]
  -- `stdout_stream` has become null, so the test for the same stream fails
  | .closeStderr => if p.Shares i then [.pipe (.write i)] else []
  | .closeStdin => if i = 0 then [] else [.pipe (.read (i - 1))]

/-- The places of a stage before `pc`. -/
def StagePC.before : StagePC → List StagePC
  | .unstarted | .system => []
  | .closeStdout => [.system]
  | .closeStderr => [.system, .closeStdout]
  | .closeStdin => [.system, .closeStdout, .closeStderr]
  | .done => [.system, .closeStdout, .closeStderr, .closeStdin]

/-- Stage `i` when its thread has come to `pc`. -/
def Execution.stageAt (i : Nat) (pc : StagePC) : Stage :=
  { stdinStream := if .closeStdin ∈ pc.before ∧ i ≠ 0 then none else some (p.stdinOf i)
    stdoutStream :=
      if .closeStdout ∈ pc.before ∧ i + 1 ≠ p.numStages then none else some (p.stdoutOf i)
    stderrStream := if .closeStderr ∈ pc.before ∧ p.Shares i then none else some (p.stderrOf i)
    stdinIsExternal := i = 0
    stdoutIsExternal := i + 1 = p.numStages
    stderrIsExternal := p.stderrExternal i
    readEnd := false
    writeEnd := false
    pc := pc
    closed := pc.before.flatMap (p.closesAt i) }

/--
Stage `j` after `k` rounds of the loop. Its read end is taken over in the round of the next stage.
-/
def Execution.setupAt (k j : Nat) : Stage :=
  if j < k then { p.stageAt j .unstarted with readEnd := j + 1 = k ∧ k ≠ p.numStages } else .blank

end

variable {i : Nat} {s s' : State} {k : Nat}

section

variable {p : Execution} {st : Stage}

theorem setupStderr_eq (i : Nat) (hout : st.stdoutStream = some (p.stdoutOf i))
    (hext : st.stdoutIsExternal = decide (i + 1 = p.numStages)) :
    p.setupStderr i st
      = { st with
        stderrStream := some (p.stderrOf i)
        stderrIsExternal := p.stderrExternal i } := by
  unfold setupStderr stderrOf stderrExternal
  split
  · split
    · next h =>
      obtain ⟨o, ho⟩ := Option.isSome_iff_exists.mp h.2
      rw [ho]
      rfl
    · rw [hout, hext]
  · rfl

section

variable (hcalls : p.calls.Succeed)
include hcalls

theorem setupStdin_eq (hk : k < p.numStages) :
    p.setupStdin k (p.setupAt k)
      = Function.update (fun j => if j < k then p.stageAt j .unstarted else .blank) k
        { Stage.blank with stdinStream := some (p.stdinOf k), stdinIsExternal := k = 0 } := by
  have hblank : p.setupAt k k = .blank := if_neg (by omega)
  -- the other stages are as they will be
  have hother : ∀ j, j + 1 ≠ k → p.setupAt k j = if j < k then p.stageAt j .unstarted
    else .blank := by
    intro j hj
    unfold setupAt
    simp [hj, stageAt]
  unfold setupStdin
  split
  · next h0 =>
    subst h0
    congr 1
  · next h0 =>
    rw [if_pos (hcalls k).2.1, hblank]
    have hprev : { p.setupAt k (k - 1) with readEnd := false } = p.stageAt (k - 1) .unstarted := by
      unfold setupAt
      rw [if_pos (by omega)]
      rfl
    funext j
    simp only [stdinOf]
    grind

variable {stages : Nat → Stage}

theorem setupStdout_eq (hread : (stages k).readEnd = false) :
    p.setupStdout k stages = some (Function.update stages k { stages k with
      stdoutStream := some (p.stdoutOf k)
      stdoutIsExternal := k + 1 = p.numStages
      readEnd := k + 1 ≠ p.numStages }) := by
  unfold setupStdout stdoutOf
  split
  · next h => simp [h, ← hread]
  · next h => simp [h, (hcalls k).1, (hcalls k).2.2.1]

theorem setup_eq (hk : k ≤ p.numStages) : p.setup k = some (p.setupAt k) := by
  induction k with
  | zero => rfl
  | succ k ih =>
    rw [setup, ih (by omega), Option.bind_some, setupStdin_eq hcalls (by omega),
      setupStdout_eq hcalls (by rw [update_self]; rfl), Option.map_some]
    congr 1
    funext j
    rw [setupStderr_eq k (by simp) (by simp)]
    by_cases hjk : j = k
    · subst hjk
      simp [setupAt, stageAt, before, Stage.blank]
    · rw [update_of_ne hjk, update_of_ne hjk, update_of_ne hjk]
      unfold setupAt
      by_cases hlt : j < k
      · rw [if_pos hlt, if_pos (by omega)]
        simp [stageAt, hjk]
      · rw [if_neg hlt, if_neg (by omega)]

theorem setup_stage (h : p.setup p.numStages = some stages) (hi : i < p.numStages) :
    stages i = p.stageAt i .unstarted := by
  rw [setup_eq hcalls (Nat.le_refl _)] at h
  cases h
  unfold setupAt
  rw [if_pos hi]
  simp [stageAt]

end

/-! ## A stage thread -/

/-- The stage thread goes through its places in order. -/
def StagePC.next : StagePC → StagePC
  | .unstarted => .unstarted
  | .system => .closeStdout
  | .closeStdout => .closeStderr
  | .closeStderr => .closeStdin
  | .closeStdin | .done => .done

theorem closeStdout_stageAt (i : Nat) :
    { (p.stageAt i .closeStdout).closeStdout with pc := .closeStderr }
      = p.stageAt i .closeStderr := by
  by_cases hi : i + 1 = p.numStages <;>
    simp [Stage.closeStdout, stageAt, before, stdoutOf, closesAt, hi]

theorem closeStderr_stageAt (i : Nat) :
    { (p.stageAt i .closeStderr).closeStderr with pc := .closeStdin }
      = p.stageAt i .closeStdin := by
  by_cases hi : i + 1 = p.numStages
  · -- the error stream of the last stage is external
    have hext : p.stderrExternal i = true := by simp [stderrExternal, hi]
    simp [Stage.closeStderr, stageAt, before, closesAt, Execution.Shares, hi, hext]
  · cases hshare : p.shareStderr with
    | true =>
      have hext : p.stderrExternal i = false := by simp [stderrExternal, hi, hshare]
      have hfile : p.stderrOf i = .pipe (.write i) := by
        simp [stderrOf, stdoutOf, hi, hshare]
      simp [Stage.closeStderr, stageAt, before, closesAt, Execution.Shares, hi, hshare, hext, hfile]
    | false =>
      -- the stream is that of the caller, or the one of the process, which is tested for
      have hext : p.stderrExternal i = p.options.error.isSome := by
        simp [stderrExternal, hi, hshare]
      have hfile : p.stderrOf i = .outside (p.options.error.getD .stderr) := by
        simp [stderrOf, hi, hshare]
      cases herror : p.options.error <;>
        simp [Stage.closeStderr, stageAt, before, closesAt,
          Execution.Shares, hshare, hext, hfile, herror]

theorem closeStdin_stageAt (i : Nat) :
    { (p.stageAt i .closeStdin).closeStdin with pc := .done } = p.stageAt i .done := by
  by_cases hi : i = 0 <;>
    simp [Stage.closeStdin, stageAt, before, stdinOf, closesAt, hi]

theorem stream_stageAt (i : Nat) (x : Stream) :
    (p.stageAt i .system).stream x = some (p.fileOf i x) := by
  cases x <;> simp [Stage.stream, stageAt, before, fileOf]

theorem step_stageAt {pc : StagePC} (h : (p.stageAt i pc).step (p.commandCloses i) pc = some st) :
    st = p.stageAt i pc.next := by
  cases pc with
  | unstarted | done => cases h
  | system =>
    cases h
    have hcommand : (p.commandCloses i).filterMap (p.stageAt i .system).stream
        = (p.commandCloses i).map (p.fileOf i) := by
      rw [funext (stream_stageAt i)]
      exact congrFun (filterMap_eq_map (f := p.fileOf i)) _
    rw [hcommand]
    simp [Execution.stageAt, StagePC.before, StagePC.next, Execution.closesAt]
  | closeStdout =>
    cases h
    exact closeStdout_stageAt i
  | closeStderr =>
    cases h
    exact closeStderr_stageAt i
  | closeStdin =>
    cases h
    exact closeStdin_stageAt i

/-! ## All threads -/

def Main.launched (n : Nat) : Main → Nat
  | .launch i => i
  | _ => n

def Main.joined (n : Nat) : Main → Nat
  | .launch _ => 0
  | .wait i => i
  | _ => n

def Main.index : Main → Nat
  | .launch i | .wait i | .destroy i => i
  | .destroyed => 0

/-- Each stage is as its place says, and the main thread has joined those behind it. -/
structure Inv (p : Execution) (s : State) : Prop where
  stage : ∀ i < p.numStages, s.stages i = p.stageAt i (s.stages i).pc
  bound : s.main.index ≤ p.numStages
  started : ∀ i < s.main.launched p.numStages, (s.stages i).pc ≠ .unstarted
  unstarted : ∀ i, s.main.launched p.numStages ≤ i → i < p.numStages → (s.stages i).pc = .unstarted
  joined : ∀ i < s.main.joined p.numStages, (s.stages i).pc = .done

attribute [grind cases] Inv
attribute [grind =] Main.launched Main.joined Main.index

theorem Inv.initial (hcalls : p.calls.Succeed) (h : p.Initial s) : Inv p s := by
  obtain ⟨stages, hsetup, rfl⟩ := h
  have hstage : ∀ i < p.numStages, stages i = p.stageAt i .unstarted :=
    fun i hi => setup_stage hcalls hsetup hi
  have hpc : ∀ i < p.numStages, (stages i).pc = .unstarted := fun i hi => by rw [hstage i hi]; rfl
  refine ⟨?_, Nat.zero_le _, fun i hi => absurd hi (Nat.not_lt_zero i), fun i _ hi => hpc i hi,
    fun i hi => absurd hi (Nat.not_lt_zero i)⟩
  intro i hi
  rw [hpc i hi]
  exact hstage i hi

theorem Inv.launch (h : Inv p s) (hmain : s.main = .launch i) (hi : i < p.numStages) :
    Inv p { s with
      stages := Function.update s.stages i { s.stages i with pc := .system }
      main := .launch (i + 1) } := by
  have hpc : (s.stages i).pc = .unstarted := h.unstarted i (by rw [hmain]; exact Nat.le_refl i) hi
  have hnew : { s.stages i with pc := .system } = p.stageAt i .system := by
    rw [h.stage i hi, hpc]
    rfl
  constructor <;> grind

theorem Inv.goto (h : Inv p s) {main : Main} {rawClosed : List PipeEnd}
    (hbound : main.index ≤ p.numStages) (hlaunched : main.launched p.numStages = p.numStages)
    (hall : p.numStages ≤ s.main.launched p.numStages)
    (hjoined : ∀ i < main.joined p.numStages, (s.stages i).pc = .done) :
    Inv p { s with main := main, rawClosed := rawClosed } := by
  constructor <;> grind

theorem Inv.mainStep (hcalls : p.calls.Succeed) (h : Inv p s)
    (hs : p.mainStep s s.main = some s') : Inv p s' := by
  cases hmain : s.main with
  | launch i =>
    rw [hmain] at hs
    simp only [Execution.mainStep] at hs
    split at hs
    · next hi =>
      rw [if_pos (hcalls i).2.2.2] at hs
      cases hs
      exact h.launch hmain hi
    · next hi =>
      cases hs
      refine h.goto (Nat.zero_le _) rfl ?_ (fun j hj => absurd hj (Nat.not_lt_zero j))
      rw [hmain]
      exact Nat.not_lt.mp hi
  | wait i =>
    rw [hmain] at hs
    simp only [Execution.mainStep] at hs
    split at hs
    · next hi =>
      split at hs <;> cases hs
      next hpc =>
        exact h.goto hi rfl (by rw [hmain]; exact Nat.le_refl _) (by grind)
    · next hi =>
      cases hs
      exact h.goto (Nat.zero_le _) rfl (by rw [hmain]; exact Nat.le_refl _) (by grind)
  | destroy i =>
    have hjoined : ∀ j < p.numStages, (s.stages j).pc = .done :=
      fun j hj => h.joined j (by rw [hmain]; exact hj)
    rw [hmain] at hs
    simp only [Execution.mainStep] at hs
    split at hs <;> cases hs
    · next hi =>
      -- there is no descriptor left without a stream
      have hsame : { s.stages i with readEnd := false, writeEnd := false } = s.stages i := by
        rw [h.stage i hi]
        rfl
      rw [hsame, update_eq_self]
      exact h.goto hi rfl (by rw [hmain]; exact Nat.le_refl _) hjoined
    · exact h.goto (Nat.zero_le _) rfl (by rw [hmain]; exact Nat.le_refl _) hjoined
  | destroyed =>
    rw [hmain] at hs
    cases hs

theorem Inv.stageStep (h : Inv p s) (hi : i < p.numStages)
    (hs : (s.stages i).step (p.commandCloses i) (s.stages i).pc = some st) :
    Inv p { s with stages := Function.update s.stages i st } := by
  have hst : st = p.stageAt i (s.stages i).pc.next := by
    rw [h.stage i hi] at hs
    exact step_stageAt hs
  have hpc : (s.stages i).pc ≠ .unstarted ∧ (s.stages i).pc ≠ .done := by
    constructor <;> intro hpc <;> rw [hpc] at hs <;> cases hs
  have hself : st = p.stageAt i st.pc := by rw [hst]; rfl
  have hnext : st.pc ≠ .unstarted := by
    rw [hst]
    cases hcur : (s.stages i).pc <;> simp [StagePC.next, hcur, Execution.stageAt] at hpc ⊢
  constructor <;> grind

theorem Inv.step (hcalls : p.calls.Succeed) {l : Label} (h : Inv p s)
    (hs : p.step s l = some s') : Inv p s' := by
  cases l with
  | main => exact h.mainStep hcalls hs
  | stage i =>
    simp only [Execution.step] at hs
    split at hs
    · next hi =>
      obtain ⟨st, hst, rfl⟩ := Option.map_eq_some_iff.mp hs
      exact h.stageStep hi hst
    · cases hs

theorem Execution.Reachable.inv (hcalls : p.calls.Succeed) (h : p.Reachable s) : Inv p s :=
  Transition.Reachable.invariant (fun _ => Inv.initial hcalls)
    (fun _ _ _ hi _ hs => hi.step hcalls hs) h

/-! ## Every pipeline can come to its end -/

def Main.rank (n : Nat) : Main → Nat
  | .launch i => 3 * n + 3 - i
  | .wait i => 2 * n + 2 - i
  | .destroy i => n + 1 - i
  | .destroyed => 0

def StagePC.rank : StagePC → Nat
  | .unstarted => 5
  | .system => 4
  | .closeStdout => 3
  | .closeStderr => 2
  | .closeStdin => 1
  | .done => 0

theorem StagePC.rank_lt (pc : StagePC) : pc.rank < 6 := by cases pc <;> decide

/-- The caller comes first; in `ios_pipeline_wait`, the stage that it waits for. -/
def Execution.rank (p : Execution) (s : State) : Nat :=
  6 * s.main.rank p.numStages +
    match s.main with
    | .wait i => (s.stages i).pc.rank
    | _ => 0

theorem rank_lt_of_main
    (h : s'.main.rank p.numStages < s.main.rank p.numStages) : p.rank s' < p.rank s := by
  have hwait : ∀ t : State, p.rank t < 6 * t.main.rank p.numStages + 6 := by
    intro t
    unfold Execution.rank
    split
    · next i _ =>
      have := (t.stages i).pc.rank_lt
      omega
    · omega
  have hs' := hwait s'
  have hs : 6 * s.main.rank p.numStages ≤ p.rank s := Nat.le_add_right ..
  omega

theorem exists_step_stageAt (i : Nat) {pc : StagePC} (hstarted : pc ≠ .unstarted)
    (hdone : pc ≠ .done) :
    ∃ st, (p.stageAt i pc).step (p.commandCloses i) pc = some st ∧ st.pc.rank < pc.rank := by
  cases pc with
  | unstarted => exact absurd rfl hstarted
  | done => exact absurd rfl hdone
  | system | closeStdout | closeStderr | closeStdin => exact ⟨_, rfl, by simp [StagePC.rank]⟩

theorem mainStep_rank (hbound : s.main.index ≤ p.numStages) (hs : p.mainStep s s.main = some s') :
    s'.main.rank p.numStages < s.main.rank p.numStages := by
  cases hm : s.main with
  | launch i | destroy i =>
    rw [hm] at hs hbound
    have hi : i ≤ p.numStages := hbound
    simp only [mainStep] at hs
    split at hs <;> cases hs <;> simp only [Main.rank] <;> omega
  | wait i =>
    rw [hm] at hs hbound
    have hi : i ≤ p.numStages := hbound
    simp only [mainStep] at hs
    split at hs
    · split at hs <;> cases hs
      simp only [Main.rank]
      omega
    · cases hs
      simp only [Main.rank]
      omega
  | destroyed =>
    rw [hm] at hs
    cases hs

theorem waiting_of_mainStep_none (hmain : s.main ≠ .destroyed) (hs : p.mainStep s s.main = none) :
    ∃ i < p.numStages, s.main = .wait i ∧ (s.stages i).pc ≠ .done := by
  cases hm : s.main with
  | launch i | destroy i =>
    rw [hm] at hs
    simp only [mainStep] at hs
    split at hs <;> cases hs
  | wait i =>
    rw [hm] at hs
    simp only [mainStep] at hs
    split at hs
    · next hi =>
      split at hs
      · cases hs
      · next hpc => exact ⟨i, hi, rfl, fun hdone => hpc (.inr hdone)⟩
    · cases hs
  | destroyed => exact absurd hm hmain

theorem Inv.exists_step (h : Inv p s) (hmain : s.main ≠ .destroyed) :
    ∃ l s', p.step s l = some s' ∧ p.rank s' < p.rank s := by
  cases hs : p.mainStep s s.main with
  | some s' => exact ⟨.main, s', hs, rank_lt_of_main (mainStep_rank h.bound hs)⟩
  | none =>
    -- the stage that is waited for can go on
    obtain ⟨i, hi, hm, hdone⟩ := waiting_of_mainStep_none hmain hs
    obtain ⟨st, hst, hrank⟩ :=
      exists_step_stageAt (p := p) i (h.started i (by rw [hm]; exact hi)) hdone
    rw [← h.stage i hi] at hst
    refine ⟨.stage i, { s with stages := update s.stages i st }, ?_, ?_⟩
    · simp [Execution.step, hi, hst]
    · simp only [Execution.rank, hm, update_self]
      omega

theorem exists_destroyed (hcalls : p.calls.Succeed) : ∃ s, p.Reachable s ∧ s.main = .destroyed := by
  have hinit : p.Initial ⟨p.setupAt p.numStages, .launch 0, []⟩ :=
    ⟨_, setup_eq hcalls (Nat.le_refl _), rfl⟩
  refine Transition.Reachable.of_rank p.rank ?_ (.start hinit) (Inv.initial hcalls hinit)
  intro s hs hmain
  obtain ⟨l, s', hstep, hrank⟩ := hs.exists_step hmain
  exact ⟨l, s', trivial, hstep, hs.step hcalls hstep, hrank⟩

/-! ## What the stages have closed -/

/-- Everything that is closed in stage `i`. -/
def Execution.closesIn (p : Execution) (i : Nat) : List File :=
  StagePC.done.before.flatMap (p.closesAt i)

theorem closesIn_eq (i : Nat) :
    p.closesIn i = (p.commandCloses i).map (p.fileOf i) ++
      (if i + 1 = p.numStages then [] else [.pipe (.write i)]) ++
      (if p.Shares i then [.pipe (.write i)] else []) ++
      (if i = 0 then [] else [.pipe (.read (i - 1))]) := by
  simp [closesIn, before, closesAt]

theorem count_before_le (i : Nat) (pc : StagePC) (f : File) :
    (pc.before.flatMap (p.closesAt i)).count f ≤ (p.closesIn i).count f := by
  cases pc <;>
    simp only [closesIn, before, flatMap_cons, count_append] <;>
    omega

theorem Inv.closings_le (h : Inv p s) (f : File) :
    p.closings s f ≤ ∑ i ∈ Finset.range p.numStages, (p.closesIn i).count f := by
  refine Finset.sum_le_sum fun i hi => ?_
  rw [h.stage i (Finset.mem_range.mp hi)]
  exact count_before_le i _ f

theorem Inv.closings_eq (h : Inv p s) (hmain : s.main = .destroyed) (f : File) :
    p.closings s f = ∑ i ∈ Finset.range p.numStages, (p.closesIn i).count f := by
  refine Finset.sum_congr rfl fun i hi => ?_
  have hin := Finset.mem_range.mp hi
  rw [h.stage i hin, h.joined i (by rw [hmain]; exact hin)]
  rfl

/-- One stage or separate errors, and no command closes its streams. -/
def Execution.Proper (p : Execution) : Prop :=
  (p.numStages = 1 ∨ p.shareStderr = false) ∧ ∀ i < p.numStages, p.commandCloses i = []

theorem closesIn_of_proper (h : p.Proper) (hi : i < p.numStages) :
    p.closesIn i = (if i + 1 = p.numStages then [] else [.pipe (.write i)]) ++
      (if i = 0 then [] else [.pipe (.read (i - 1))]) := by
  have hshares : ¬ p.Shares i := by
    rintro ⟨hshare, hlast⟩
    rcases h.1 with hone | hoff
    · omega
    · rw [hshare] at hoff
      cases hoff
  rw [closesIn_eq, h.2 i hi, if_neg hshares]
  simp

theorem sum_closesIn_outside (h : p.Proper) (o : Outside) :
    ∑ i ∈ Finset.range p.numStages, (p.closesIn i).count (.outside o) = 0 := by
  refine Finset.sum_eq_zero fun i hi => ?_
  rw [closesIn_of_proper h (Finset.mem_range.mp hi), count_eq_zero]
  split <;> split <;> simp

theorem sum_closesIn_pipe (h : p.Proper) {e : PipeEnd} (he : p.HasEnd e) :
    ∑ i ∈ Finset.range p.numStages, (p.closesIn i).count (.pipe e) = 1 := by
  cases e with
  | write k =>
    have hk : k + 1 < p.numStages := he
    rw [Finset.sum_eq_single_of_mem k (Finset.mem_range.mpr (by omega))]
    · grind [closesIn_of_proper h (show k < p.numStages by omega)]
    · intro i hi hik
      rw [closesIn_of_proper h (Finset.mem_range.mp hi), count_eq_zero]
      grind
  | read k =>
    have hk : k + 1 < p.numStages := he
    rw [Finset.sum_eq_single_of_mem (k + 1) (Finset.mem_range.mpr hk)]
    · grind [closesIn_of_proper h hk]
    · intro i hi hik
      rw [closesIn_of_proper h (Finset.mem_range.mp hi), count_eq_zero]
      grind

theorem count_le_sum (hi : i < p.numStages) (f : File) :
    (p.closesIn i).count f ≤ ∑ i ∈ Finset.range p.numStages, (p.closesIn i).count f :=
  Finset.single_le_sum (f := fun i => (p.closesIn i).count f) (fun _ _ => Nat.zero_le _)
    (Finset.mem_range.mpr hi)

/-! ## Exactly once -/

theorem closedOnce_of_proper (hcalls : p.calls.Succeed) (h : p.Proper)
    (hs : p.Reachable s) : p.ClosedOnce s := by
  have hinv := Execution.Reachable.inv hcalls hs
  refine ⟨fun o => ?_, fun hmain e he => ?_⟩
  · have hle := hinv.closings_le (.outside o)
    rw [sum_closesIn_outside h o] at hle
    exact Nat.le_zero.mp hle
  · have hone : p.closings s (.pipe e) = 1 := by
      rw [hinv.closings_eq hmain, sum_closesIn_pipe h he]
    exact ⟨hone, .inl (by omega)⟩

theorem fileOf_cases (i : Nat) (x : Stream) :
    (∃ o, p.fileOf i x = .outside o) ∨ (i + 1 ≠ p.numStages ∧ p.fileOf i x = .pipe (.write i)) ∨
      (i ≠ 0 ∧ p.fileOf i x = .pipe (.read (i - 1))) := by
  cases x <;> grind [fileOf, stdinOf, stderrOf, stdoutOf]

theorem count_of_commandCloses (hi : i < p.numStages) {x : Stream} (hx : x ∈ p.commandCloses i) :
    (∃ o, 0 < (p.closesIn i).count (.outside o)) ∨
      ∃ e, p.HasEnd e ∧ 1 < (p.closesIn i).count (.pipe e) := by
  have hpos := count_pos_iff.mpr (mem_map_of_mem (f := p.fileOf i) hx)
  simp only [closesIn_eq, count_append]
  rcases fileOf_cases (p := p) i x with ⟨o, ho⟩ | ⟨hlast, hw⟩ | ⟨hfirst, hr⟩
  · rw [ho] at hpos
    exact .inl ⟨o, by omega⟩
  · rw [hw] at hpos
    refine .inr ⟨.write i, Nat.lt_of_le_of_ne hi hlast, ?_⟩
    rw [if_neg hlast, count_singleton_self]
    omega
  · rw [hr] at hpos
    refine .inr ⟨.read (i - 1), by change i - 1 + 1 < p.numStages; omega, ?_⟩
    rw [if_neg hfirst, count_singleton_self]
    omega

theorem count_of_shares (h : p.Shares i) : 1 < (p.closesIn i).count (.pipe (.write i)) := by
  rw [closesIn_eq, count_append, count_append, count_append, if_neg h.2, if_pos h,
    count_singleton_self]
  omega

theorem proper_of_closedOnce (hcalls : p.calls.Succeed) (hpos : 0 < p.numStages)
    (h : ∀ s, p.Reachable s → p.ClosedOnce s) : p.Proper := by
  obtain ⟨s, hs, hmain⟩ := exists_destroyed hcalls
  have hinv := Execution.Reachable.inv hcalls hs
  obtain ⟨houtside, hpipe⟩ := h s hs
  -- no stage closes more than it should
  have hcount : ∀ i < p.numStages, ∀ f, (p.closesIn i).count f ≤ p.closings s f := fun i hi f =>
    (count_le_sum hi f).trans_eq (hinv.closings_eq hmain f).symm
  constructor
  · by_contra hboth
    rw [not_or] at hboth
    have hshares : p.Shares 0 :=
      ⟨Bool.eq_true_of_not_eq_false hboth.2, fun hone => hboth.1 hone.symm⟩
    have hend : p.HasEnd (.write 0) := by
      change 0 + 1 < p.numStages
      omega
    have htwice := count_of_shares hshares
    have hle := hcount 0 hpos (.pipe (.write 0))
    rw [(hpipe hmain (.write 0) hend).1] at hle
    omega
  · intro i hi
    rw [eq_nil_iff_forall_not_mem]
    intro x hx
    rcases count_of_commandCloses hi hx with ⟨o, ho⟩ | ⟨e, he, htwice⟩
    · have hle := hcount i hi (.outside o)
      rw [houtside o] at hle
      omega
    · have hle := hcount i hi (.pipe e)
      rw [(hpipe hmain e he).1] at hle
      omega

/--
The streams are closed once, for every interleaving of the stages, exactly when there is one stage
or no `|&`, and no command closes the streams that it was given.
-/
theorem closed_once_iff (command : CStr) (options : Options) (calls : Calls)
    (commandCloses : Nat → List Stream) (hcalls : calls.Succeed)
    (hstages : (parsePipeline command).1 ≠ [])
    (_hmax : (parsePipeline command).1.length ≤ maxPipelineStages) :
    (∀ s, (Execution.ofCommand command options calls commandCloses).Reachable s →
      (Execution.ofCommand command options calls commandCloses).ClosedOnce s) ↔
    ((parsePipeline command).1.length = 1 ∨ (parsePipeline command).2 = false) ∧
      ∀ i < (parsePipeline command).1.length, commandCloses i = [] := by
  constructor
  · exact proper_of_closedOnce hcalls (length_pos_iff.mpr hstages)
  · intro h s hs
    exact closedOnce_of_proper (p := .ofCommand command options calls commandCloses) hcalls h hs

def Calls.succeed : Calls := ⟨fun _ => true, fun _ => true, fun _ => true, fun _ => true⟩

theorem Calls.succeed_succeed : Calls.succeed.Succeed := fun _ => ⟨rfl, rfl, rfl, rfl⟩

/-- `ls | sort | wc`, with commands that leave their streams alone, up to `ios_pipeline_destroy`. -/
theorem closed_once_plain :
    ∃ s, (Execution.ofCommand "ls | sort | wc".toList ⟨none, none, none⟩ .succeed
        fun _ => []).Reachable s ∧
      s.main = .destroyed ∧
      (Execution.ofCommand "ls | sort | wc".toList ⟨none, none, none⟩ .succeed
        fun _ => []).ClosedOnce s := by
  obtain ⟨s, hs, hmain⟩ := exists_destroyed (p := .ofCommand "ls | sort | wc".toList
    ⟨none, none, none⟩ .succeed fun _ => []) Calls.succeed_succeed
  refine ⟨s, hs, hmain, ?_⟩
  exact (closed_once_iff "ls | sort | wc".toList ⟨none, none, none⟩ .succeed (fun _ => [])
    Calls.succeed_succeed (by decide) (by decide)).mpr ⟨.inr (by decide), fun _ _ => rfl⟩ s hs

/-- `ls |& wc`: the first stage closes its output stream, and then again as its error stream. -/
theorem closed_twice_shared :
    ∃ s, (Execution.ofCommand "ls |& wc".toList ⟨none, none, none⟩ .succeed
        fun _ => []).Reachable s ∧
      s.main = .destroyed ∧ (s.stages 0).closed = [.pipe (.write 0), .pipe (.write 0)] ∧
      ¬ (Execution.ofCommand "ls |& wc".toList ⟨none, none, none⟩ .succeed
        fun _ => []).ClosedOnce s := by
  obtain ⟨s, hs, hmain⟩ := exists_destroyed (p := .ofCommand "ls |& wc".toList ⟨none, none, none⟩
    .succeed fun _ => []) Calls.succeed_succeed
  have hinv := Execution.Reachable.inv Calls.succeed_succeed hs
  refine ⟨s, hs, hmain, ?_, ?_⟩
  · rw [hinv.stage 0 (by decide), hinv.joined 0 (by rw [hmain]; decide)]
    decide
  · intro hclosed
    have hone := (hclosed.2 hmain (.write 0) (by change 0 + 1 < _; decide)).1
    rw [hinv.closings_eq hmain] at hone
    exact absurd hone (by decide)

end

end IosSystem.Pipeline.Streams
