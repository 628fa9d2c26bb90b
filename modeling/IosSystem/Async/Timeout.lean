import IosSystem.Async.Lifetime

/-!
# Time-outs

`ios_system_timeout` starts a command, waits for it, and kills it if the wait has ended in a
time-out. To `Async.Handle` the clock, the sleep in `pthread_cond_wait` and the session of the
command are added.

* Time passes in steps of any number of microseconds, and stands for what `gettimeofday` returns.
* A command may be one that only ends when its session is cancelled. `ios_kill_session` requests
  that if it finds the session with a command running in it, and other threads may request it too.
-/

namespace IosSystem.Async.Timeout

/-! ## Time -/

/-- The milliseconds that `check_timeout` computes, with the division of C. -/
def elapsedMs (start now : Nat) : Int :=
  ((now / 1000000 : Nat) - (start / 1000000 : Nat) : Int) * 1000 +
    ((now % 1000000 : Nat) - (start % 1000000 : Nat) : Int).tdiv 1000

theorem ediv_le_tdiv (a : Int) : a / 1000 ≤ a.tdiv 1000 := by
  by_cases ha : 0 ≤ a
  · exact Int.le_of_eq (Int.tdiv_eq_ediv_of_nonneg ha).symm
  · have hneg : a.tdiv 1000 = -((-a) / 1000) := by
      rw [← Int.tdiv_eq_ediv_of_nonneg (by omega : 0 ≤ -a), Int.neg_tdiv, Int.neg_neg]
    omega

variable {ms : Int} {pc : PC}

theorem le_elapsedMs {start now : Nat} (h : (start : Int) + 1000 * ms ≤ now) :
    ms ≤ elapsedMs start now := by
  have hround := ediv_le_tdiv ((now % 1000000 : Nat) - (start % 1000000 : Nat) : Int)
  unfold elapsedMs
  omega

/-! ## State -/

/-- Where the caller is in `ios_system_timeout`. -/
inductive Place where
  | start
  /-- in `ios_command_wait` -/
  | waiting
  | kill
  /-- in `ios_command_kill` -/
  | killing
  | release (result : Int)
  /-- in `ios_command_release` -/
  | releasing (result : Int)
  | returned (result : Int)
  deriving DecidableEq

/-- The handle, the clock, and what has become of the command. -/
structure State where
  handle : Async.State
  /-- `start_time` -/
  start : Nat
  now : Nat
  place : Place
  woken : Bool
  /-- `ios_system` has returned in the worker -/
  ended : Bool
  /-- the cancellation of the session has been requested -/
  cancelled : Bool
  /-- the wait has ended in a time-out, or its status says so -/
  timedOut : Bool

/-- The arguments of `ios_system_timeout`, and what kind of command it runs. -/
structure Config where
  options : Option Options
  /-- what `ios_getContext` returned -/
  context : Option Nat
  timeoutMs : Int
  /-- the command only ends when its session is cancelled -/
  untilCancelled : Bool

/-- `ios_system_timeout` has got the handle. -/
def State.initial (config : Config) (start : Nat) : State :=
  { handle := .initial
      (some { config.options.getD defaultOptions with timeoutMs := config.timeoutMs })
      config.context
    start := start, now := start, place := .start, woken := false, ended := false
    cancelled := false, timedOut := false }

/-- `check_timeout` -/
def State.expired (s : State) : Bool := checkTimeout s.handle.cmd (elapsedMs s.start s.now)

/-- A thread is in `pthread_cond_wait`. -/
def blocked : PC → Bool
  | .waitBlocked _ => true
  | _ => false

def isWaitTimeout : PC → Bool
  | .waitTimeout _ => true
  | _ => false

/-- A step inside of a call; a thread asleep in `pthread_cond_wait` needs a wake-up. -/
def State.inCall (s : State) (cancels : Bool) (pc : PC) : Option State :=
  if blocked pc && !s.woken then none
  else
    (advance s.handle .caller ⟨elapsedMs s.start s.now, 0⟩ pc).map fun handle =>
      { s with
        handle := handle
        woken := false
        cancelled := s.cancelled || (pc = .killSession && cancels)
        timedOut := s.timedOut || (isWaitTimeout pc && s.expired) }

/-- `ios_system_timeout` between its calls. -/
def State.between (s : State) (returned : Option Int) : Option State :=
  match s.place, returned with
  | .start, _ => (Async.step s.handle .wait).map fun h => { s with handle := h, place := .waiting }
  | .waiting, some result =>
    -- `ios_command_get_status`
    if s.handle.cmd.status = .timeout then some { s with place := .kill, timedOut := true }
    else some { s with place := .release result }
  | .kill, _ => (Async.step s.handle .kill).map fun h => { s with handle := h, place := .killing }
  | .killing, some _ => some { s with place := .release (-1) }
  | .release result, _ =>
    (Async.step s.handle .release).map fun h => { s with handle := h, place := .releasing result }
  | _, _ => none

/-- A step of the caller, inside of a call or between two. -/
def State.callerStep (s : State) (cancels : Bool) : Option State :=
  match s.handle.caller with
  | .idle returned => s.between returned
  | .done =>
    match s.place with
    | .releasing result => some { s with place := .returned result }
    | _ => none
  | pc => s.inCall cancels pc

/-- A step of the worker; some commands only end when they are cancelled. -/
def State.workerStep (config : Config) (s : State) (result : Int) : Option State :=
  if s.handle.worker = .runCommand ∧ config.untilCancelled ∧ !s.cancelled then none
  else
    (advance s.handle .worker ⟨elapsedMs s.start s.now, result⟩ s.handle.worker).map fun handle =>
      { s with
        handle := handle
        ended := s.ended || s.handle.worker = .runCommand
        -- `pthread_cond_broadcast`
        woken := s.woken || (s.handle.worker matches .doneUnlock _) && blocked s.handle.caller }

inductive Label where
  | caller (cancels : Bool)
  | worker (result : Int)
  | tick (microseconds : Nat)
  | wake
  /-- another thread requests the cancellation of the session -/
  | cancel

def step (config : Config) (s : State) : Label → Option State
  | .caller cancels => s.callerStep cancels
  | .worker result => s.workerStep config result
  | .tick microseconds => some { s with now := s.now + microseconds }
  | .wake => if blocked s.handle.caller then some { s with woken := true } else none
  | .cancel => some { s with cancelled := true }

def Reachable (config : Config) (s : State) : Prop :=
  Transition.Reachable (step config) (fun _ _ => True)
    (fun s => ∃ start, s = .initial config start) s

/--
What the schedule has to avoid while the command goes on and nobody has requested its cancellation:
that the deadline comes while the caller is asleep without a wake-up, and that the caller looks at
the clock when the time is over.
-/
def Guard (s : State) : Label → Prop
  | .tick microseconds => blocked s.handle.caller = true → s.woken = false →
    (s.start : Int) + 1000 * s.handle.cmd.timeoutMs ≤ s.now + microseconds →
      s.ended = true ∨ s.cancelled = true
  | .caller _ => isWaitTimeout s.handle.caller = true → s.expired = true →
    s.ended = true ∨ s.cancelled = true
  | _ => True

def GuardedReachable (config : Config) (s : State) : Prop :=
  Transition.Reachable (step config) (fun s a => Guard s a)
    (fun s => 0 ≤ config.timeoutMs ∧ ∃ start, s = .initial config start) s

/-! ## What a step does -/

variable {s s' : State}

theorem expired_of_deadline (hms : 0 ≤ s.handle.cmd.timeoutMs)
    (h : (s.start : Int) + 1000 * s.handle.cmd.timeoutMs ≤ s.now) : s.expired = true := by
  have hle := le_elapsedMs h
  simp [State.expired, checkTimeout, Int.not_lt.mpr hms, hle]

/-- The worker, before `ios_system` has returned. -/
def runs : PC → Bool
  | .start | .setRunning | .runCommand => true
  | _ => false

/-- The worker, before it has published the status. -/
def unpublished : PC → Bool
  | .start | .setRunning | .runCommand | .doneLock _ | .storeExit _ | .publish _ => true
  | _ => false

/-- A thread goes from the first place to the second one without falling asleep. -/
def flows (pc q : PC) : Bool :=
  (!unpublished q || unpublished pc) && (runs q || !runs pc || pc = .runCommand) && !blocked q

/-- What a step of thread `t` at `pc` does to the places and to the status. -/
structure Kept (s s' : Async.State) (t : Thread) (pc : PC) (ms : Int) : Prop where
  timeoutMs : s'.cmd.timeoutMs = s.cmd.timeoutMs
  status : s'.cmd.status = .timeout → s.cmd.status = .timeout ∨
    checkTimeout s.cmd ms = true ∧
      (isWaitTimeout pc = true ∨ unpublished pc = true ∧ runs pc = false)
  other : s'.pc t.other = s.pc t.other
  unpublished : unpublished (s'.pc t) = true → unpublished pc = true
  runs : runs (s'.pc t) = false → runs pc = false ∨ pc = .runCommand
  -- the time is looked at before the sleep
  blocked : blocked (s'.pc t) = true → isWaitTimeout pc = true ∧ checkTimeout s.cmd ms = false

section

variable {s s' s1 : Async.State} {t : Thread} {q : PC}

theorem Kept.goto (htimeoutMs : s1.cmd.timeoutMs = s.cmd.timeoutMs)
    (hstatus : s1.cmd.status = .timeout → s.cmd.status = .timeout ∨
      checkTimeout s.cmd ms = true ∧ (isWaitTimeout pc = true ∨ Timeout.unpublished pc = true ∧
        Timeout.runs pc = false))
    (hother : s1.pc t.other = s.pc t.other) (hflows : flows pc q = true) :
    Kept s (s1.goto t q) t pc ms := by
  simp only [flows, Bool.and_eq_true, Bool.or_eq_true, Bool.not_eq_true',
    decide_eq_true_eq] at hflows
  obtain ⟨⟨hunpublished, hruns⟩, hblocked⟩ := hflows
  refine ⟨by rw [goto_cmd, htimeoutMs], by rw [goto_cmd]; exact hstatus,
    by rw [pc_other_goto, hother], ?_, ?_, ?_⟩ <;> rw [pc_goto]
  · exact fun h => hunpublished.resolve_left (by simp [h])
  · exact fun h => hruns.imp_left fun hruns => hruns.resolve_left (by simp [h])
  · exact fun h => absurd h (by simp [hblocked])

/-- A step that leaves the time-out and the status alone. -/
theorem Kept.same (htimeoutMs : s1.cmd.timeoutMs = s.cmd.timeoutMs)
    (hstatus : s1.cmd.status = s.cmd.status) (hother : s1.pc t.other = s.pc t.other)
    (hflows : flows pc q = true) : Kept s (s1.goto t q) t pc ms :=
  .goto htimeoutMs (fun h => .inl (hstatus ▸ h)) hother hflows

theorem checkTimeout_of_finalStatus {cmd : Command} {result : Int}
    (h : finalStatus cmd ms result = .timeout) : checkTimeout cmd ms = true := by
  by_contra hcheck
  rw [finalStatus, if_neg hcheck] at h
  split at h
  · cases h
  · split at h <;> cases h

/-- One step of a thread, with everything that the invariant needs. -/
theorem advance_kept {o : Outcome} (h : advance s t o pc = some s') :
    Kept s s' t pc o.elapsedMs := by
  have hself : ∀ cmd freed, (⟨cmd, freed, s.worker, s.caller⟩ : Async.State).pc t.other
      = s.pc t.other := by
    intro cmd freed
    cases t <;> rfl
  cases pc with
  | idle | done => cases h
  | doneLock | cbLock | killLock | setLock | waitLock | waitBlocked =>
    obtain ⟨-, rfl⟩ := lock_eq_some h
    exact .same rfl rfl (hself _ _) rfl
  | setRunning =>
    cases h
    exact .goto rfl (fun hs => by cases hs) (hself _ _) rfl
  | publish result =>
    cases h
    exact .goto rfl (fun hs => .inr ⟨checkTimeout_of_finalStatus hs, .inr ⟨rfl, rfl⟩⟩)
      (hself _ _) rfl
  | waitTimeout inRelease =>
    simp only [advance] at h
    split at h <;> cases h
    · next hcheck => exact .goto rfl (fun _ => .inr ⟨hcheck.2, .inl rfl⟩) (hself _ _) rfl
    · next hcheck =>
      have hnot : checkTimeout s.cmd o.elapsedMs = false := by
        by_contra hyes
        have hyes := (Bool.not_eq_false _).mp hyes
        refine hcheck ⟨?_, hyes⟩
        by_contra hneg
        rw [checkTimeout, if_pos (by omega)] at hyes
        cases hyes
      refine ⟨by rw [State.unlock, goto_cmd], fun hs => .inl ?_, ?_, ?_, fun _ => .inl rfl,
        fun _ => ⟨rfl, hnot⟩⟩
      · rwa [State.unlock, goto_cmd] at hs
      · rw [State.unlock, pc_other_goto]
        exact hself _ _
      · rw [State.unlock, pc_goto]
        intro hq
        cases hq
  | cbTest | waitPending | waitRunning | killTest =>
    simp only [advance] at h
    split at h <;> cases h
    all_goals exact .same rfl rfl (hself _ _) (by cases t <;> rfl)
  | waitExit inRelease =>
    cases h
    exact .same rfl rfl (hself _ _) (by cases inRelease <;> rfl)
  | tryStatus | relLoad =>
    cases h
    exact .same rfl rfl (hself _ _) (by cases s.cmd.status.final <;> rfl)
  | setStore callback =>
    cases h
    refine .same rfl rfl (hself _ _) ?_
    split <;> rfl
  | relDec =>
    cases h
    refine .same rfl rfl (hself _ _) ?_
    split <;> rfl
  | cbCall =>
    cases h
    exact .same rfl rfl (hself _ _) (by cases t <;> rfl)
  | _ =>
    cases h
    exact .same rfl rfl (hself _ _) rfl

end

/-! ## Invariant -/

/-- The invariant behind `timeout_effective`: no deadline passes unnoticed. -/
structure Inv (s : State) : Prop where
  timeoutMs : 0 ≤ s.handle.cmd.timeoutMs
  asleep : blocked s.handle.caller = true → s.woken = false →
    (s.start : Int) + 1000 * s.handle.cmd.timeoutMs ≤ s.now → s.ended = true ∨ s.cancelled = true
  timedOut : s.timedOut = true → s.ended = true ∨ s.cancelled = true
  status : s.handle.cmd.status = .timeout → s.ended = true ∨ s.cancelled = true
  worker : runs s.handle.worker = false → s.ended = true
  caller : unpublished s.handle.caller = false

variable {config : Config}

theorem Inv.initial (h : 0 ≤ config.timeoutMs) (start : Nat) :
    Inv (.initial config start) :=
  ⟨h, nofun, nofun, nofun, nofun, rfl⟩

/-- `ios_command_wait` and the other calls of the caller, step by step. -/
theorem Inv.inCall {cancels : Bool} (h : Inv s) (hg : Guard s (.caller cancels))
    (hs : s.inCall cancels s.handle.caller = some s') : Inv s' := by
  unfold State.inCall at hs
  split at hs
  · cases hs
  · obtain ⟨handle, hadv, rfl⟩ := Option.map_eq_some_iff.mp hs
    have hk := advance_kept hadv
    have hsettled : s.ended = true ∨ s.cancelled = true →
        s.ended = true ∨ (s.cancelled || (s.handle.caller = .killSession && cancels)) = true :=
      Or.imp_right fun hc => by simp [hc]
    have hworker : handle.worker = s.handle.worker := hk.other
    refine ⟨by simpa only [hk.timeoutMs] using h.timeoutMs, fun hb _ hdeadline => ?_, fun ht => ?_,
      fun ht => ?_, fun hr => h.worker (hworker ▸ hr), ?_⟩
    · -- the caller would not have fallen asleep behind the deadline
      obtain ⟨-, hcheck⟩ := hk.blocked hb
      simp only [hk.timeoutMs] at hdeadline
      have hexpired := expired_of_deadline h.timeoutMs hdeadline
      rw [State.expired, hcheck] at hexpired
      cases hexpired
    · rcases Bool.or_eq_true_iff.mp ht with ht | ht
      · exact hsettled (h.timedOut ht)
      · obtain ⟨hplace, hexpired⟩ := Bool.and_eq_true_iff.mp ht
        exact hsettled (hg hplace hexpired)
    · rcases hk.status ht with ht | ⟨hexpired, hplace | ⟨hplace, -⟩⟩
      · exact hsettled (h.status ht)
      · exact hsettled (hg hplace hexpired)
      · rw [h.caller] at hplace
        cases hplace
    · by_contra hc
      have := hk.unpublished ((Bool.not_eq_false _).mp hc)
      rw [h.caller] at this
      cases this

/-- The next call of `ios_system_timeout`: the caller is at its beginning. -/
theorem Inv.call {pc : PC} {place : Place} {handle : Async.State} (h : Inv s)
    (hs : s.handle.call pc = some handle) (hb : blocked pc = false) (hu : unpublished pc = false) :
    Inv { s with handle := handle, place := place } := by
  obtain ⟨r, -, rfl⟩ := call_eq_some hs
  refine ⟨h.timeoutMs, fun hblocked => ?_, h.timedOut, h.status, h.worker, hu⟩
  exact absurd (hb.symm.trans hblocked) Bool.false_ne_true

theorem Inv.between {r : Option Int} (h : Inv s) (hs : s.between r = some s') : Inv s' := by
  unfold State.between at hs
  split at hs
  · obtain ⟨handle, hcall, rfl⟩ := Option.map_eq_some_iff.mp hs
    exact h.call hcall rfl rfl
  · split at hs <;> cases hs
    · next hstatus => exact { h with timedOut := fun _ => h.status hstatus }
    · exact { h with }
  · obtain ⟨handle, hcall, rfl⟩ := Option.map_eq_some_iff.mp hs
    exact h.call hcall rfl rfl
  · cases hs
    exact { h with }
  · obtain ⟨handle, hcall, rfl⟩ := Option.map_eq_some_iff.mp hs
    exact h.call hcall rfl rfl
  · cases hs

theorem Inv.workerStep {result : Int} (h : Inv s) (hs : s.workerStep config result = some s') :
    Inv s' := by
  unfold State.workerStep at hs
  split at hs
  · cases hs
  · obtain ⟨handle, hadv, rfl⟩ := Option.map_eq_some_iff.mp hs
    have hk := advance_kept hadv
    have hsettled : s.ended = true ∨ s.cancelled = true →
        (s.ended || s.handle.worker = .runCommand) = true ∨ s.cancelled = true :=
      Or.imp_left fun he => by simp [he]
    have hcaller : handle.caller = s.handle.caller := hk.other
    have hpast : runs s.handle.worker = false ∨ s.handle.worker = .runCommand →
        (s.ended || s.handle.worker = .runCommand) = true := by
      rintro (hr | hr)
      · simp [h.worker hr]
      · simp [hr]
    refine ⟨by simpa only [hk.timeoutMs] using h.timeoutMs, fun hb hw hdeadline => ?_,
      fun ht => hsettled (h.timedOut ht), fun ht => ?_, fun hr => hpast (hk.runs hr), ?_⟩
    · simp only [hk.timeoutMs] at hdeadline
      exact hsettled (h.asleep (hcaller ▸ hb) (Bool.or_eq_false_iff.mp hw).1 hdeadline)
    · rcases hk.status ht with ht | ⟨-, hplace | ⟨-, hruns⟩⟩
      · exact hsettled (h.status ht)
      · refine .inl (hpast (.inl ?_))
        cases hw : s.handle.worker <;> first | rfl | (rw [hw] at hplace; cases hplace)
      · exact .inl (hpast (.inl hruns))
    · rw [hcaller]
      exact h.caller

theorem Inv.step {a : Label} (h : Inv s) (hs : step config s a = some s') (hg : Guard s a) :
    Inv s' := by
  cases a with
  | caller cancels =>
    simp only [Timeout.step, State.callerStep] at hs
    split at hs
    · exact h.between hs
    · split at hs <;> cases hs
      exact { h with }
    · exact h.inCall hg hs
  | worker result => exact h.workerStep hs
  | tick microseconds =>
    cases hs
    exact { h with asleep := hg }
  | wake =>
    simp only [Timeout.step] at hs
    split at hs <;> cases hs
    exact { h with asleep := nofun }
  | cancel =>
    cases hs
    exact ⟨h.timeoutMs, fun _ _ _ => .inr rfl, fun _ => .inr rfl, fun _ =>
      .inr rfl, h.worker, h.caller⟩

/-! ## Results -/

instance (s : State) (a : Label) : Decidable (Guard s a) :=
  match a with
  | .tick _ => inferInstanceAs (Decidable (_ → _ → _ → _))
  | .caller _ => inferInstanceAs (Decidable (_ → _ → _))
  | .worker _ | .wake | .cancel => inferInstanceAs (Decidable True)

end IosSystem.Async.Timeout
