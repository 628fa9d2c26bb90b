import IosSystem.Lib.Threads
import IosSystem.Lib.Transition

/-!
# The cancel flag of a session and its pipe

A session has a flag `cancel_requested` and a pipe whose two ends do not block.
`ios_session_request_cancel` exchanges the flag and writes a byte if it was clear;
`ios_session_clear_cancel` stores `false` and reads until the pipe is empty. Those who wait test the
flag and then poll the pipe. A thread makes one access to the flag or one system call at a time.
-/

namespace IosSystem.CancelPipe

open Threads Transition

/-- The two functions of `libc_replacement.c` that wait for a cancellation. -/
inductive Wait where
  /-- `ios_wait_for_fd_or_cancel` -/
  | fdOrCancel (fd : Int)
  /-- `ios_wait_for_cancel_or_timeout_ms` -/
  | cancelOrTimeout
  deriving DecidableEq

/-- What a wait returns: 0, or -1 with this `errno`. -/
inductive WaitResult where
  | zero
  | eintr
  | ebadf
  deriving DecidableEq

/-- Where a thread is. -/
inductive Place where
  | idle
  /-- `ios_session_request_cancel`, before the exchange of the flag -/
  | exchange
  | write
  /-- `ios_session_clear_cancel`, before the store to the flag -/
  | store
  | drain
  | waitTest (w : Wait)
  | poll (w : Wait)
  | returned (r : WaitResult)
  deriving DecidableEq

/-- In `ios_session_request_cancel` or `ios_session_clear_cancel`. -/
def Place.inCall : Place → Bool
  | .exchange | .write | .store | .drain => true
  | .idle | .waitTest _ | .poll _ | .returned _ => false

def Place.free : Place → Bool
  | .idle | .returned _ => true
  | .exchange | .write | .store | .drain | .waitTest _ | .poll _ => false

/-- The cancel pipe, by the number of its bytes. -/
structure Pipe where
  bytes : Nat
  capacity : Nat
  capacity_pos : 0 < capacity

structure State where
  cancelRequested : Bool
  pipe : Pipe
  /-- `cancel_pipe_read_fd` -/
  readFd : Nat
  threads : List Place

/-- What `ios_session_init_params` makes, with threads that call nothing yet. -/
def State.Fresh (s : State) : Prop :=
  s.cancelRequested = false ∧ s.pipe.bytes = 0 ∧ ∀ p ∈ s.threads, p = .idle

/-- A fresh session with `n` threads around it. -/
def start (n : Nat) : State := ⟨false, ⟨0, 16384, by decide⟩, 3, List.replicate n .idle⟩

/-- How a system call ends. -/
inductive Answer where
  /-- the call is made: a write, a read, or a poll that finds the cancel pipe readable -/
  | made
  /-- `EINTR` -/
  | interrupted
  /-- poll finds the other descriptor ready, or (`invalid`) not open -/
  | ready (invalid : Bool)
  | timeout

/-- What `poll` and the code after it do. The pipe has a byte or not; `none` is a thread that sleeps
on, the place `poll w` one that polls again. -/
def pollStep (cancelRequested : Bool) (bytes : Nat) : Wait → Answer → Option Place
  | .fdOrCancel fd, .interrupted =>
    if cancelRequested then some (.returned .eintr) else some (.poll (.fdOrCancel fd))
  | .cancelOrTimeout, .interrupted => some (.returned .eintr)
  | _, .made => if 0 < bytes then some (.returned .eintr) else none
  | .fdOrCancel _, .ready invalid =>
    -- `fds[1].revents` is looked at first
    if 0 < bytes then some (.returned .eintr)
    else if invalid then some (.returned .ebadf) else some (.returned .zero)
  | .cancelOrTimeout, .ready _ => none
  | _, .timeout => if 0 < bytes then none else some (.returned .zero)

/-- The code before `poll`. -/
def testStep (s : State) : Wait → Place
  | .fdOrCancel fd =>
    if fd < 0 then .returned .ebadf
    else if s.cancelRequested then .returned .eintr
    else if (s.readFd : Int) = fd then .returned .zero
    else .poll (.fdOrCancel fd)
  | .cancelOrTimeout => if s.cancelRequested then .returned .eintr else .poll .cancelOrTimeout

/-- A write of one byte; it fails with `EAGAIN` if the pipe is full. -/
def Pipe.write (p : Pipe) : Pipe :=
  { p with bytes := if p.bytes < p.capacity then p.bytes + 1 else p.bytes }

/-- A read into `char buffer[32]`. -/
def Pipe.read (p : Pipe) : Pipe := { p with bytes := p.bytes - 32 }

def State.goto (s : State) (i : Nat) (p : Place) : State := { s with threads := s.threads.set i p }

section

variable (s : State) (i : Nat) (p : Place)

@[simp] theorem State.goto_cancelRequested : (s.goto i p).cancelRequested = s.cancelRequested := rfl

@[simp] theorem State.goto_pipe : (s.goto i p).pipe = s.pipe := rfl

@[simp] theorem State.goto_threads : (s.goto i p).threads = s.threads.set i p := rfl

end

/-- The next step of thread `i` at place `p`. -/
def advance (s : State) (i : Nat) : Place → Answer → Option State
  | .exchange, .made =>
    some ({ s with cancelRequested := true }.goto i (if s.cancelRequested then .idle else .write))
  | .write, .made => some ({ s with pipe := s.pipe.write }.goto i .idle)
  | .write, .interrupted => some s
  | .store, .made => some ({ s with cancelRequested := false }.goto i .drain)
  | .drain, .made =>
    if 0 < s.pipe.bytes then some { s with pipe := s.pipe.read } else some (s.goto i .idle)
  | .drain, .interrupted => some s
  | .waitTest w, .made => some (s.goto i (testStep s w))
  | .poll w, a => (pollStep s.cancelRequested s.pipe.bytes w a).map (s.goto i)
  | _, _ => none

inductive Label where
  | requestCancel (i : Nat)
  | clearCancel (i : Nat)
  | wait (i : Nat) (w : Wait)
  | advance (i : Nat) (a : Answer)

def call (s : State) (i : Nat) (entry : Place) : Option State :=
  match s.threads[i]? with
  | some p => if p.free then some (s.goto i entry) else none
  | none => none

def step (s : State) : Label → Option State
  | .requestCancel i => call s i .exchange
  | .clearCancel i => call s i .store
  | .wait i w => call s i (.waitTest w)
  | .advance i a =>
    match s.threads[i]? with
    | some p => advance s i p a
    | none => none

/-- Nobody is in a call that changes the flag or the pipe. -/
def State.Quiescent (s : State) : Prop := ∀ p ∈ s.threads, p.inCall = false

/-! ## The condition -/

/-- The system call of thread `i` at place `p` still has its reason: the byte is written under a set
flag, or somebody will drain it; a byte is taken under a clear flag, or somebody will write one. -/
def InTime (s : State) : Place → Prop
  | .write => s.cancelRequested = true ∨ .drain ∈ s.threads
  | .drain => 0 < s.pipe.bytes → s.cancelRequested = false ∨ .write ∈ s.threads
  | _ => True

def Guard (s : State) : Label → Prop
  | .advance i .made => ∀ p ∈ s.threads[i]?, InTime s p
  | _ => True

instance (s : State) (p : Place) : Decidable (InTime s p) := by
  unfold InTime
  split <;> infer_instance

instance (s : State) (l : Label) : Decidable (Guard s l) := by
  unfold Guard
  split <;> infer_instance

/-! ## What a step does -/

/-- What `advance` does, one line for each access to the flag or the pipe; the steps of a wait only
move their thread. -/
inductive Effect (s : State) (i : Nat) : Place → State → Prop
  | exchange : s.cancelRequested = false →
      Effect s i .exchange ({ s with cancelRequested := true }.goto i .write)
  | already : s.cancelRequested = true → Effect s i .exchange (s.goto i .idle)
  | write : Effect s i .write ({ s with pipe := s.pipe.write }.goto i .idle)
  | store : Effect s i .store ({ s with cancelRequested := false }.goto i .drain)
  | read : 0 < s.pipe.bytes → Effect s i .drain { s with pipe := s.pipe.read }
  | drained : s.pipe.bytes = 0 → Effect s i .drain (s.goto i .idle)
  | outside {p q : Place} : p.inCall = false → q.inCall = false → Effect s i p (s.goto i q)
  | again {p : Place} : Effect s i p s

variable {p : Place} {a : Answer} {s s' : State} {i : Nat}

theorem inCall_of_free (h : p.free = true) : p.inCall = false := by
  cases p <;> simp_all [Place.free, Place.inCall]

theorem testStep_inCall (s : State) (w : Wait) : (testStep s w).inCall = false := by
  cases w <;> simp only [testStep] <;> repeat' split
  all_goals rfl

theorem pollStep_inCall {c : Bool} {n : Nat} {w : Wait}
    (h : pollStep c n w a = some p) : p.inCall = false := by
  cases w <;> cases a <;> simp only [pollStep] at h <;> repeat' split at h
  all_goals cases h
  all_goals rfl

theorem eq_goto_of_call {entry : Place} (h : call s i entry = some s') :
    ∃ p, s.threads[i]? = some p ∧ p.free = true ∧ s' = s.goto i entry := by
  unfold call at h
  split at h
  · next p hp =>
    split at h <;> cases h
    next hf =>
      exact ⟨p, hp, hf, rfl⟩
  · cases h

theorem effect_of_advance (h : advance s i p a = some s') : Effect s i p s' := by
  unfold advance at h
  split at h
  · by_cases hc : s.cancelRequested
    · have hs : ({ s with cancelRequested := true } : State) = s := by
        rw [← hc]
      simp only [hc, Option.some.injEq, hs] at h
      subst h
      exact .already hc
    · simp only [hc, Option.some.injEq] at h
      subst h
      exact .exchange (by simpa using hc)
  · cases h
    exact .write
  · cases h
    exact .again
  · cases h
    exact .store
  · split at h <;> cases h
    · next hb =>
      exact .read hb
    · next hb =>
      exact .drained (by omega)
  · cases h
    exact .again
  · next w =>
    cases h
    exact .outside rfl (testStep_inCall s w)
  · next w a =>
    obtain ⟨q, hq, rfl⟩ := Option.map_eq_some_iff.1 h
    exact .outside rfl (pollStep_inCall hq)
  · cases h

theorem advance_of_step (h : step s (.advance i a) = some s') :
    ∃ p, s.threads[i]? = some p ∧ advance s i p a = some s' := by
  simp only [step] at h
  split at h
  · next p hp => exact ⟨p, hp, h⟩
  · cases h

theorem inTime_of_advance (hp : s.threads[i]? = some p) (hg : Guard s (.advance i a))
    (h : advance s i p a = some s') : s' = s ∨ InTime s p := by
  cases a with
  | made => exact .inr (hg p hp)
  | interrupted =>
    cases p with
    | write | drain =>
      cases h
      exact .inl rfl
    | idle | exchange | store | waitTest | poll | returned => exact .inr trivial
  | ready | timeout =>
    cases p with
    | write | drain => cases h
    | idle | exchange | store | waitTest | poll | returned => exact .inr trivial

/-! ## Flag and pipe agree -/

/-- Flag and pipe agree, unless a thread is about to make them so. -/
structure Inv (s : State) : Prop where
  stale : s.cancelRequested = false → 0 < s.pipe.bytes → .drain ∈ s.threads
  missing : s.cancelRequested = true → s.pipe.bytes = 0 → .write ∈ s.threads

theorem Inv.initial (h : s.Fresh) : Inv s := by
  obtain ⟨hflag, hbytes, -⟩ := h
  exact ⟨fun _ hpos => absurd hpos (by omega), fun hset => by rw [hflag] at hset; cases hset⟩

theorem Inv.goto (hi : Inv s) (hp : s.threads[i]? = some p)
    (hw : p ≠ .write) (hd : p ≠ .drain) (q : Place) : Inv (s.goto i q) :=
  ⟨fun hflag hpos => mem_set_of_ne hp (hi.stale hflag hpos) hd.symm,
    fun hflag hzero => mem_set_of_ne hp (hi.missing hflag hzero) hw.symm⟩

theorem ne_of_inCall {q : Place} (hp : p.inCall = false) (hq : q.inCall = true) : p ≠ q := by
  rintro rfl
  rw [hp] at hq
  cases hq

theorem Pipe.write_pos (p : Pipe) : 0 < p.write.bytes := by
  have := p.capacity_pos
  simp only [Pipe.write]
  split <;> omega

theorem Inv.write (hp : s.threads[i]? = some .write)
    (ht : InTime s .write) : Inv ({ s with pipe := s.pipe.write }.goto i .idle) := by
  constructor
  · intro hflag _
    have hmem : .drain ∈ s.threads := ht.resolve_left (by simpa using hflag)
    exact mem_set_of_ne hp hmem (by decide)
  · intro _ hzero
    have hpos := s.pipe.write_pos
    exact absurd hzero (by simpa using Nat.ne_of_gt hpos)

theorem Inv.read (hp : s.threads[i]? = some .drain) (hpos : 0 < s.pipe.bytes)
    (ht : InTime s .drain) : Inv { s with pipe := s.pipe.read } :=
  ⟨fun _ _ => List.mem_of_getElem? hp, fun hset _ => (ht hpos).resolve_left (by simpa using hset)⟩

theorem Inv.effect (hi : Inv s) (hp : s.threads[i]? = some p)
    (he : Effect s i p s') (ht : s' = s ∨ InTime s p) : Inv s' := by
  rcases ht with rfl | ht
  · exact hi
  · cases he with
    | already _ => exact hi.goto hp (by decide) (by decide) _
    | outside hp' _ => exact hi.goto hp (ne_of_inCall hp' rfl) (ne_of_inCall hp' rfl) _
    | exchange _ => exact ⟨fun hset => (by cases hset), fun _ _ => mem_set_self hp _⟩
    | store => exact ⟨fun _ _ => mem_set_self hp _, fun hset => (by cases hset)⟩
    | write => exact Inv.write hp ht
    | read hpos => exact Inv.read hp hpos ht
    | drained hzero =>
      refine ⟨fun _ hpos => absurd hpos (by rw [State.goto_pipe]; omega), fun hset _ => ?_⟩
      exact mem_set_of_ne hp (hi.missing hset hzero) (by decide)
    | again => exact hi

theorem Inv.call {entry : Place} (hi : Inv s)
    (h : CancelPipe.call s i entry = some s') : Inv s' := by
  obtain ⟨p, hp, hf, rfl⟩ := eq_goto_of_call h
  have hout := inCall_of_free hf
  exact hi.goto hp (ne_of_inCall hout rfl) (ne_of_inCall hout rfl) entry

theorem Inv.step {l : Label} (hi : Inv s) (hg : Guard s l)
    (h : CancelPipe.step s l = some s') : Inv s' := by
  cases l with
  | requestCancel i | clearCancel i | wait i w => exact hi.call h
  | advance i a =>
    obtain ⟨p, hp, ha⟩ := advance_of_step h
    exact hi.effect hp (effect_of_advance ha) (inTime_of_advance hp hg ha)

theorem inv_of_reachable (h : Transition.Reachable step Guard State.Fresh s) : Inv s :=
  h.invariant (fun _ h0 => Inv.initial h0) fun _ _ _ hi hg hs => hi.step hg hs

theorem State.Quiescent.not_mem (hq : s.Quiescent) (hp : p.inCall = true) : p ∉ s.threads := by
  intro hmem
  rw [hq p hmem] at hp
  cases hp

theorem Inv.agree (hi : Inv s) (hq : s.Quiescent) :
    0 < s.pipe.bytes ↔ s.cancelRequested = true := by
  constructor
  · intro hpos
    by_contra hflag
    exact hq.not_mem rfl (hi.stale (by simpa using hflag) hpos)
  · intro hset
    by_contra hzero
    exact hq.not_mem rfl (hi.missing hset (by omega))

theorem step_poll_made {w : Wait} (hp : s.threads[i]? = some (.poll w)) :
    step s (.advance i .made)
      = if 0 < s.pipe.bytes then some (s.goto i (.returned .eintr)) else none := by
  simp only [step, hp, advance]
  cases w <;> simp only [pollStep] <;> split <;> rfl

/--
In every run whose writes and reads are in time: when no call is in progress, the pipe has a byte if
and only if the flag is set, and a thread that waits is woken if and only if it is.
-/
theorem flag_pipe_agree {s : State} (h : Transition.Reachable step Guard State.Fresh s)
    (hq : s.Quiescent) :
    (0 < s.pipe.bytes ↔ s.cancelRequested = true) ∧
      ∀ i w, s.threads[i]? = some (.poll w) →
        step s (.advance i .made)
          = if s.cancelRequested then some (s.goto i (.returned .eintr)) else none := by
  have hagree := (inv_of_reachable h).agree hq
  refine ⟨hagree, fun i w hp => ?_⟩
  rw [step_poll_made hp]
  exact if_congr hagree rfl rfl

/-- A request writes its byte between the store and the reads of a clear, a second request follows,
and the thread that polls is woken. -/
theorem flag_pipe_agree_overlap : ∃ s : State,
    Transition.Reachable step Guard State.Fresh s ∧ s.Quiescent ∧ s.cancelRequested = true ∧
      0 < s.pipe.bytes ∧ step s (.advance 2 .made) = some (s.goto 2 (.returned .eintr)) := by
  have h0 : Transition.Reachable step Guard State.Fresh (start 3) :=
    .start ⟨rfl, rfl, by decide⟩
  have hrun : ∃ s, run (guarded step Guard) (start 3)
      [.wait 2 .cancelOrTimeout, .advance 2 .made,
        .requestCancel 0, .advance 0 .made, .clearCancel 1, .advance 1 .made, .advance 0 .made,
        .advance 1 .made, .advance 1 .made,
        .requestCancel 0, .advance 0 .made, .advance 0 .made] = some s ∧
      s.cancelRequested = true ∧ s.threads = [.idle, .idle, .poll .cancelOrTimeout] :=
    ⟨_, rfl, rfl, rfl⟩
  obtain ⟨s, hs, hflag, hthreads⟩ := hrun
  have hreach := h0.of_guarded_run hs
  have hq : s.Quiescent := by
    unfold State.Quiescent
    rw [hthreads]
    decide
  obtain ⟨hagree, hwake⟩ := flag_pipe_agree hreach hq
  have hpoll : s.threads[2]? = some (.poll .cancelOrTimeout) := by rw [hthreads]; rfl
  exact ⟨s, hreach, hq, hflag, hagree.2 hflag, by rw [hwake 2 _ hpoll, hflag, if_pos rfl]⟩

/--
Without the condition, with a thread that polls: the byte of a request that is overtaken by a whole
clear wakes it under a clear flag, and a clear that is overtaken by a whole request takes the byte
that should wake it.
-/
theorem flag_pipe_disagree :
    (∃ s : State, Transition.Reachable step (fun _ _ => True) State.Fresh s ∧ s.Quiescent ∧
      s.cancelRequested = false ∧ s.pipe.bytes = 1 ∧
      step s (.advance 2 .made) = some (s.goto 2 (.returned .eintr))) ∧
    ∃ s : State, Transition.Reachable step (fun _ _ => True) State.Fresh s ∧ s.Quiescent ∧
      s.cancelRequested = true ∧ s.pipe.bytes = 0 ∧
      s.threads[2]? = some (.poll .cancelOrTimeout) ∧ step s (.advance 2 .made) = none := by
  have h0 : Transition.Reachable step (fun _ _ => True) State.Fresh (start 3) :=
    .start ⟨rfl, rfl, by decide⟩
  have hquiet : ∀ s : State, s.threads = [.idle, .idle, .poll .cancelOrTimeout] → s.Quiescent := by
    intro s hs
    unfold State.Quiescent
    rw [hs]
    decide
  constructor
  · have hrun : ∃ s, run step (start 3)
        [.wait 2 .cancelOrTimeout, .advance 2 .made, .requestCancel 0, .advance 0 .made,
          .clearCancel 1, .advance 1 .made, .advance 1 .made, .advance 0 .made] = some s ∧
        s.cancelRequested = false ∧ s.pipe.bytes = 1 ∧
        s.threads = [.idle, .idle, .poll .cancelOrTimeout] := ⟨_, rfl, rfl, rfl, rfl⟩
    obtain ⟨s, hs, hflag, hbytes, hthreads⟩ := hrun
    refine ⟨s, h0.of_run hs, hquiet s hthreads, hflag, hbytes, ?_⟩
    rw [step_poll_made (by rw [hthreads]; rfl), hbytes]
    rfl
  · have hrun : ∃ s, run step (start 3)
        [.wait 2 .cancelOrTimeout, .advance 2 .made, .clearCancel 1, .advance 1 .made,
          .requestCancel 0, .advance 0 .made, .advance 0 .made, .advance 1 .made,
          .advance 1 .made] = some s ∧
        s.cancelRequested = true ∧ s.pipe.bytes = 0 ∧
        s.threads = [.idle, .idle, .poll .cancelOrTimeout] := ⟨_, rfl, rfl, rfl, rfl⟩
    obtain ⟨s, hs, hflag, hbytes, hthreads⟩ := hrun
    have hpoll : s.threads[2]? = some (.poll .cancelOrTimeout) := by rw [hthreads]; rfl
    refine ⟨s, h0.of_run hs, hquiet s hthreads, hflag, hbytes, hpoll, ?_⟩
    rw [step_poll_made hpoll, hbytes]
    rfl

end IosSystem.CancelPipe
