import IosSystem.Pid.Calls

/-!
# `waitpid`

A call reads the shared memory again and again, and other threads may change it in any way between
two reads: `T n` is what read number `n` finds. `waitpid` and `ios_full_waitpid` are two copies of
one function, and `ios_waitpid` is its branch without `WNOHANG`. A process id is not negative here.
-/

namespace IosSystem.Pid.Waitpid

/-- What a call of `waitpid` reads. -/
structure Memory where
  table : ThreadTable
  /-- `ios_getLastThreadId` -/
  lastThread : Entry
  /-- `preparingWebAssemblyCommands`, in an app that has `executeWebAssemblyCommands` -/
  preparing : Nat

/-- `ios_getThreadId` -/
def getThreadId (T : ThreadTable) (pid : Nat) : Entry :=
  if maxThreads ≤ pid then .pending else T.threadIds pid

def threadToWaitFor (m : Memory) (pid : Nat) : Entry :=
  if pid = 0 then m.lastThread else getThreadId m.table pid

/-- Where a caller of `waitpid` is. -/
inductive Place where
  /-- `executeWebAssemblyCommandsInOrder` -/
  | webAssembly
  | read
  | returned (result : Nat)
  deriving DecidableEq

/-- One read. The source decodes the options by `options && WNOHANG`. -/
def step (options : BitVec 32) (pid : Nat) (m : Memory) : Place → Place
  | .webAssembly => if 0 < m.preparing then .webAssembly else .read
  | .read =>
    if threadToWaitFor m pid = .free then .returned pid
    else if options ≠ 0 then .returned 0
    else .read
  | .returned result => .returned result

/-- `waitpid` after `n` reads. -/
def waitpid (options : BitVec 32) (pid : Nat) (T : Nat → Memory) : Nat → Place
  | 0 => .webAssembly
  | n + 1 => step options pid (T n) (waitpid options pid T n)

/-- `ios_waitpid` -/
def iosWaitpid (pid : Nat) (T : Nat → Memory) : Nat → Place := waitpid 0 pid T

/-- The `WNOHANG` bit is set. -/
def Nohang (options : BitVec 32) : Prop := options &&& 1 ≠ 0

def Prepared (T : Nat → Memory) : Prop := ∀ n, (T n).preparing = 0

def Idle (pid : Nat) (T : Nat → Memory) : Prop :=
  pid < maxThreads → ∀ n, (T n).table.threadIds pid = .free

/-- The call returns. -/
def Returns (places : Nat → Place) : Prop := ∃ n result, places n = .returned result

/-- The call only returns when the entry has been free. -/
def Waits (places : Nat → Place) (pid : Nat) (T : Nat → Memory) : Prop :=
  ∀ n result, places n = .returned result → ∃ k < n, (T k).table.threadIds pid = .free

/--
The call waits for an id of `ios_fork` unless it is asked not to, and it returns when there is
nothing to wait for.
-/
def WaitsUnlessAsked (options : BitVec 32) (pid : Nat) : Prop :=
  ∀ T, Prepared T →
    (pid < maxThreads → ¬ Nohang options → Waits (waitpid options pid T) pid T) ∧
    (pid < maxThreads → Nohang options → Returns (waitpid options pid T)) ∧
    (Idle pid T → Returns (waitpid options pid T) ∧ Returns (iosWaitpid pid T))

variable {options : BitVec 32} {pid : Nat} {T : Nat → Memory}

theorem waitpid_one (h : Prepared T) : waitpid options pid T 1 = .read :=
  if_neg (by rw [h 0]; exact Nat.lt_irrefl 0)

theorem waitpid_two (h : Prepared T) (hnow : threadToWaitFor (T 1) pid = .free ∨ options ≠ 0) :
    Returns (waitpid options pid T) := by
  refine ⟨2, if threadToWaitFor (T 1) pid = .free then pid else 0, ?_⟩
  rw [waitpid, waitpid_one h, step]
  split
  · rfl
  · next hbusy => exact if_pos (hnow.resolve_left hbusy)

variable (hpos : 0 < pid)
include hpos

theorem threadToWaitFor_eq (m : Memory) : threadToWaitFor m pid = getThreadId m.table pid :=
  if_neg (Nat.ne_of_gt hpos)

theorem waits_of_no_options (hlt : pid < maxThreads) (T : Nat → Memory) :
    Waits (waitpid 0 pid T) pid T := by
  intro n
  induction n with
  | zero => intro result h; cases h
  | succ n ih =>
    intro result h
    rw [waitpid] at h
    cases hplace : waitpid 0 pid T n with
    | webAssembly =>
      rw [hplace, step] at h
      split at h <;> cases h
    | read =>
      rw [hplace, step, if_neg (not_not.mpr rfl)] at h
      split at h
      · next hfree =>
        rw [threadToWaitFor_eq hpos, getThreadId, if_neg (Nat.not_le.mpr hlt)] at hfree
        exact ⟨n, Nat.lt_succ_self n, hfree⟩
      · cases h
    | returned r =>
      obtain ⟨k, hk, hfree⟩ := ih r hplace
      exact ⟨k, Nat.lt_succ_of_lt hk, hfree⟩

theorem not_returns_outside (hle : maxThreads ≤ pid) (T : Nat → Memory) :
    ¬ Returns (iosWaitpid pid T) := by
  rintro ⟨n, result, h⟩
  rw [iosWaitpid] at h
  induction n with
  | zero => cases h
  | succ n ih =>
    rw [waitpid] at h
    cases hplace : waitpid 0 pid T n with
    | webAssembly =>
      rw [hplace, step] at h
      split at h <;> cases h
    | read =>
      have hbusy : threadToWaitFor (T n) pid = .pending :=
        (threadToWaitFor_eq hpos _).trans (if_pos hle)
      rw [hplace, step, hbusy, if_neg (fun e => by cases e), if_neg (not_not.mpr rfl)] at h
      cases h
    | returned r =>
      rw [hplace] at h
      exact ih (hplace.trans h)

/-- What a call finds while `pid` has been forked, and its command has not started. -/
def forked (pid : Nat) : Memory := ⟨ThreadTable.initial.take pid 0, .free, 0⟩

/-- The options have to be 0 or to contain `WNOHANG`, and the id has to be in the table. -/
theorem waits_unless_asked_iff :
    WaitsUnlessAsked options pid ↔ pid < maxThreads ∧ (options = 0 ∨ Nohang options) := by
  constructor
  · intro h
    have hlt : pid < maxThreads := by
      by_contra hle
      have hidle : Idle pid fun _ => forked 1 := fun hlt => absurd hlt hle
      exact not_returns_outside hpos (Nat.not_lt.mp hle) _ ((h _ fun _ => rfl).2.2 hidle).2
    refine ⟨hlt, ?_⟩
    by_contra hbad
    obtain ⟨hne, hno⟩ := not_or.mp hbad
    obtain ⟨n, result, hn⟩ : Returns (waitpid options pid fun _ => forked pid) :=
      waitpid_two (fun _ => rfl) (.inr hne)
    obtain ⟨k, -, hfree⟩ := (h _ fun _ => rfl).1 hlt hno n result hn
    have hpending : (forked pid).table.threadIds pid = .pending := Function.update_self ..
    cases hpending.symm.trans hfree
  · rintro ⟨hlt, hoptions⟩ T hprepared
    refine ⟨fun _ hno => ?_, fun _ hyes => ?_, fun hidle => ?_⟩
    · rw [hoptions.resolve_right hno]
      exact waits_of_no_options hpos hlt T
    · refine waitpid_two hprepared (.inr ?_)
      rintro rfl
      exact hyes rfl
    · have hfree : threadToWaitFor (T 1) pid = .free := by
        rw [threadToWaitFor_eq hpos, getThreadId, if_neg (Nat.not_le.mpr hlt)]
        exact hidle hlt 1
      exact ⟨waitpid_two hprepared (.inl hfree), waitpid_two hprepared (.inl hfree)⟩

omit hpos

/-- The thread of process 1, without options. -/
theorem waits_unless_asked_one : WaitsUnlessAsked 0 1 :=
  (waits_unless_asked_iff Nat.one_pos).mpr ⟨by decide, .inl rfl⟩

theorem waitpid_preparing (h : ∀ n, (T n).preparing ≠ 0) (n : Nat) :
    waitpid options pid T n = .webAssembly := by
  induction n with
  | zero => rfl
  | succ n ih =>
    rw [waitpid, ih]
    exact if_pos (Nat.pos_of_ne_zero (h n))

/--
`WUNTRACED` (2) is taken for `WNOHANG`, an id behind the table is waited for without end, and so are
WebAssembly commands, `WNOHANG` or not.
-/
theorem waitpid_returns_early :
    (¬ Nohang 2 ∧ waitpid 2 1 (fun _ => forked 1) 2 = .returned 0 ∧
      (forked 1).table.threadIds 1 = .pending) ∧
    ¬ Returns (iosWaitpid 200 fun _ => forked 1) ∧
    ¬ Returns (waitpid 1 1 fun _ => { forked 1 with preparing := 1 }) := by
  refine ⟨⟨?_, rfl, rfl⟩, not_returns_outside (by decide) (by decide) _, ?_⟩
  · unfold Nohang
    decide
  · rintro ⟨n, result, h⟩
    rw [waitpid_preparing fun _ => Nat.one_ne_zero] at h
    cases h

end IosSystem.Pid.Waitpid
