import Mathlib.Data.List.Basic
import Mathlib.Algebra.Ring.Int.Defs
import Mathlib.Order.Defs.LinearOrder

/-!
# Sleeping until a time has passed or the session is cancelled

`ios_nanosleep_internal` of `libc_replacement.c` and its callers. The loop waits in `poll`, measures
how long that took and takes it off the remaining time. A `Turn` is what the clock, the session and
`poll` answer in one turn of the loop, and a call is given the turns that it may use.

With nonnegative seconds no subtraction of a `time_t` overflows, so times are integers. The time-out
of `poll` is an `int`, and there the width matters (`timeout_bounded_iff`).
-/

namespace IosSystem.Libc

/-! ## Times -/

/-- `struct timespec` -/
structure Timespec where
  sec : Int
  nsec : Int
  deriving DecidableEq

namespace Timespec

def zero : Timespec := ⟨0, 0⟩

/-- The test at the entry of `ios_nanosleep_internal`. -/
def Valid (t : Timespec) : Prop := 0 ≤ t.sec ∧ 0 ≤ t.nsec ∧ t.nsec < 1000000000

instance (t : Timespec) : Decidable t.Valid := inferInstanceAs (Decidable (_ ∧ _))

def nanos (t : Timespec) : Int := t.sec * 1000000000 + t.nsec

def isZero (t : Timespec) : Bool := t.sec = 0 ∧ t.nsec = 0

/-- `ios_timespec_subtract` -/
def subtract (lhs rhs : Timespec) : Timespec :=
  let sec := lhs.sec - rhs.sec
  let nsec := lhs.nsec - rhs.nsec
  let r : Timespec := if nsec < 0 then ⟨sec - 1, nsec + 1000000000⟩ else ⟨sec, nsec⟩
  if r.sec < 0 then zero else r

variable {s t : Timespec}

theorem Valid.nanos_nonneg (h : t.Valid) : 0 ≤ t.nanos := by
  obtain ⟨hsec, hnsec, -⟩ := h
  unfold nanos
  omega

theorem Valid.isZero_iff (h : t.Valid) : t.isZero = true ↔ t.nanos = 0 := by
  obtain ⟨hsec, hnsec, -⟩ := h
  unfold isZero nanos
  rw [decide_eq_true_iff]
  omega

theorem subtract_spec (hs : s.Valid) (ht : t.Valid) :
    (s.subtract t).Valid ∧ (s.subtract t).nanos = max 0 (s.nanos - t.nanos) := by
  unfold Timespec.subtract
  dsimp only
  split <;> split <;> simp only [Valid, nanos, zero] at * <;> omega

end Timespec

/-- A time that `clock_gettime` gives. -/
def Instant := { t : Timespec // t.Valid }

/-! ## The loop -/

/-- What one turn of the loop meets. -/
structure Turn where
  /-- `none`: `clock_gettime` fails -/
  before : Option Instant
  /-- `ios_sessionCancelRequested()` -/
  cancelRequested : Bool
  /-- `ios_sessionCancelFD()` -/
  cancelFd : Int
  /-- what `poll` returns for a time-out -/
  poll : Int → Int
  after : Option Instant

/-- `ios_wait_for_cancel_or_timeout_ms` -/
def Turn.waitForCancelOrTimeoutMs (t : Turn) (timeoutMs : Int) : Int :=
  if t.cancelRequested then -1
  else if t.cancelFd < 0 then t.poll timeoutMs
  else if t.poll timeoutMs ≤ 0 then t.poll timeoutMs
  else -1

def intMax : Int := 2147483647

/-- The conversion of a `long long` to an `int`. -/
def toInt (n : Int) : Int := (n + 2 ^ 31) % 2 ^ 32 - 2 ^ 31

/-- The time-out that a turn gives to `poll`. -/
def timeoutMs (remaining : Timespec) : Int :=
  if remaining.sec > intMax / 1000 then intMax
  else
    let ms := remaining.sec * 1000 + (remaining.nsec + 999999) / 1000000
    if ms ≤ 0 then 1 else toInt ms

/--
The loop at its test. `measured` sums up the intervals between the two readings of the clock
(ghost).
-/
structure Progress where
  remaining : Timespec
  measured : Int

/--
A call that has returned: its value, what it has stored in `*rmtp`, and the sum of the intervals.
-/
structure Returned where
  ret : Int
  rmtp : Option Timespec
  measured : Int

/-- `remaining` and `measured` after the wait. -/
def Progress.wait (p : Progress) (before after : Instant) : Progress :=
  ⟨p.remaining.subtract (after.1.subtract before.1), p.measured + (after.1.nanos - before.1.nanos)⟩

/-- One turn: the time is taken before and after the wait. -/
def Progress.turn (p : Progress) (t : Turn) : Except Returned Progress :=
  match t.before with
  | none => .error ⟨-1, some p.remaining, p.measured⟩
  | some before =>
    if t.waitForCancelOrTimeoutMs (timeoutMs p.remaining) < 0 then
      match t.after with
      | none => .error ⟨-1, some p.remaining, p.measured⟩
      | some after =>
          .error ⟨-1, some (p.wait before after).remaining, (p.wait before after).measured⟩
    else
      match t.after with
      | none => .error ⟨0, some .zero, p.measured⟩
      | some after => .ok (p.wait before after)

/-- The loop, over the turns it meets. -/
def Progress.sleep (p : Progress) : List Turn → Except Returned Progress
  | [] => if p.remaining.isZero then .error ⟨0, some .zero, p.measured⟩ else .ok p
  | t :: turns =>
    if p.remaining.isZero then .error ⟨0, some .zero, p.measured⟩
    else (p.turn t).bind fun p => p.sleep turns

/-- `ios_nanosleep_internal`. A null `rqtp` is `none`. -/
def nanosleepInternal (rqtp : Option Timespec) (turns : List Turn) : Except Returned Progress :=
  match rqtp with
  | none => .error ⟨-1, none, 0⟩
  | some request =>
    if request.sec < 0 ∨ request.nsec < 0 ∨ request.nsec ≥ 1000000000 then .error ⟨-1, none, 0⟩
    else Progress.sleep ⟨request, 0⟩ turns

def nanosleep (rqtp : Option Timespec) (turns : List Turn) : Except Returned Progress :=
  nanosleepInternal rqtp turns

/-- `ios_sleep`, or `none` if it still sleeps. -/
def sleep (seconds : Nat) (turns : List Turn) : Option Int :=
  match nanosleepInternal (some ⟨seconds, 0⟩) turns with
  | .ok _ => none
  | .error r =>
    if r.ret = 0 then some 0
    else r.rmtp.map fun remaining =>
      (remaining.sec + if remaining.nsec ≠ 0 then 1 else 0) % 2 ^ 32

theorem nanosleepInternal_of_valid {request : Timespec} (h : request.Valid) (turns : List Turn) :
    nanosleepInternal (some request) turns = Progress.sleep ⟨request, 0⟩ turns := by
  obtain ⟨hsec, hnsec, hlt⟩ := h
  exact if_neg (by omega)

/-! ## Induction over the turns -/

open Progress

/-- What the test and the body of the loop keep holds as long as the call sleeps, and what they
establish when they return holds of the result. -/
theorem Progress.sleep_induction {turns : List Turn} (I : Progress → Prop) (R : Returned → Prop)
    (htest : ∀ p, I p → p.remaining.isZero = true → R ⟨0, some .zero, p.measured⟩)
    (hok : ∀ p, ∀ t ∈ turns, I p → ∀ p', p.turn t = .ok p' → I p')
    (herror : ∀ p, ∀ t ∈ turns, I p → p.remaining.isZero = false → ∀ r, p.turn t = .error r → R r)
    {p : Progress} (h : I p) :
    (∀ p', p.sleep turns = .ok p' → I p' ∧ p'.remaining.isZero = false) ∧
      ∀ r, p.sleep turns = .error r → R r := by
  induction turns generalizing p with
  | nil =>
    rw [sleep]
    cases hz : p.remaining.isZero with
    | true => exact ⟨fun _ he => (by cases he), fun _ he => by cases he; exact htest p h hz⟩
    | false => exact ⟨fun _ he => by cases he; exact ⟨h, hz⟩, fun _ he => (by cases he)⟩
  | cons t turns ih =>
    rw [sleep]
    cases hz : p.remaining.isZero with
    | true => exact ⟨fun _ he => (by cases he), fun _ he => by cases he; exact htest p h hz⟩
    | false =>
      cases ht : p.turn t with
      | error r =>
        exact ⟨fun _ he => (by cases he), fun _ he => by
          cases he
          exact herror p t List.mem_cons_self h hz r ht⟩
      | ok p' =>
        exact ih (fun p t hmem => hok p t (List.mem_cons_of_mem _ hmem))
          (fun p t hmem => herror p t (List.mem_cons_of_mem _ hmem))
          (hok p t List.mem_cons_self h p' ht)

theorem Progress.valid_wait {p : Progress} (h : p.remaining.Valid) (before after : Instant) :
    (p.wait before after).remaining.Valid :=
  (Timespec.subtract_spec h (Timespec.subtract_spec after.2 before.2).1).1

theorem Progress.turn_ok {p p' : Progress} {t : Turn} (h : p.turn t = .ok p') :
    ∃ before after, t.before = some before ∧ t.after = some after ∧ p' = p.wait before after := by
  unfold turn at h
  split at h
  · cases h
  · next before hbefore =>
    split at h
    · split at h <;> cases h
    · split at h <;> cases h
      next after hafter => exact ⟨before, after, hbefore, hafter, rfl⟩

/-! ## The time-out of `poll` -/

/-- A time-out that `poll` can be given for a remaining time. -/
def TimeoutOk (remaining : Timespec) : Prop :=
  1 ≤ timeoutMs remaining ∧ timeoutMs remaining ≤ intMax ∧
    (remaining.nanos ≤ timeoutMs remaining * 1000000 ∨ timeoutMs remaining = intMax)

instance (remaining : Timespec) : Decidable (TimeoutOk remaining) :=
  inferInstanceAs (Decidable (_ ∧ _ ∧ _))

theorem timeoutOk_iff {remaining : Timespec} (h : remaining.Valid) (hz : remaining.isZero = false) :
    TimeoutOk remaining ↔ ¬ (remaining.sec = 2147483 ∧ 647000000 < remaining.nsec) := by
  have hpos : remaining.nanos ≠ 0 := fun hn => by
    rw [h.isZero_iff.mpr hn] at hz
    cases hz
  obtain ⟨hsec, hnsec, hlt⟩ := h
  unfold TimeoutOk timeoutMs Timespec.nanos intMax
  dsimp only
  split
  · omega
  · unfold toInt
    omega

/--
Whenever the loop is about to wait, the time-out for `poll` is at least 1 and at most `INT_MAX`, and
not shorter than the remaining time unless it is `INT_MAX`, just if the remaining time is not
between 2147483.647 and 2147484 seconds. There the sum of the milliseconds does not fit into an
`int`.
-/
theorem timeout_bounded_iff {request : Timespec} (h : request.Valid) {turns : List Turn}
    {p : Progress}
    (hp : nanosleep (some request) turns = .ok p) :
    TimeoutOk p.remaining ↔ ¬ (p.remaining.sec = 2147483 ∧ 647000000 < p.remaining.nsec) := by
  rw [nanosleep, nanosleepInternal_of_valid h] at hp
  obtain ⟨hvalid, hz⟩ := (Progress.sleep_induction (fun p => p.remaining.Valid) (fun _ => True)
    (fun _ _ _ => trivial)
    (fun p t _ hv p' hok => by
      obtain ⟨before, after, -, -, rfl⟩ := Progress.turn_ok hok
      exact p.valid_wait hv before after)
    (fun _ _ _ _ _ _ _ => trivial) h).1 p hp
  exact timeoutOk_iff hvalid hz

/-- A turn in which the clock goes from one time to another, and `poll` times out. -/
def timedOut (before after : Instant) : Turn := ⟨some before, false, 3, fun _ => 0, some after⟩

/-- Three seconds are left of a month. -/
theorem timeout_bounded_month :
    TimeoutOk ⟨3, 0⟩ := by
  have hrun : nanosleep (some ⟨2592000, 0⟩)
      [timedOut ⟨⟨0, 0⟩, by decide⟩ ⟨⟨2591997, 0⟩, by decide⟩] = .ok ⟨⟨3, 0⟩, 2591997000000000⟩ :=
        rfl
  exact (timeout_bounded_iff (by decide) hrun).mpr (by decide)

/-- The first wait of a sleep of 2147483.647000001 seconds has no end. -/
theorem timeout_negative :
    ∃ p, nanosleep (some ⟨2147483, 647000001⟩) [] = .ok p ∧ timeoutMs p.remaining = -2147483648 ∧
      ¬ TimeoutOk p.remaining :=
  ⟨_, rfl, by decide, by decide⟩

/-! ## What is left of the time -/

/-- The clock answers, and does not go back. -/
def Turn.Measured (t : Turn) : Prop :=
  ∃ before after, t.before = some before ∧ t.after = some after ∧ before.1.nanos ≤ after.1.nanos

/-- What remains is the request without the measured time. -/
structure Accounted (request : Timespec) (remaining : Timespec) (measured : Int) : Prop where
  valid : remaining.Valid
  nonneg : 0 ≤ measured
  nanos : remaining.nanos = max 0 (request.nanos - measured)

variable {request : Timespec} {p : Progress}

theorem Accounted.wait (h : Accounted request p.remaining p.measured) {before after : Instant}
    (hle : before.1.nanos ≤ after.1.nanos) :
    Accounted request (p.wait before after).remaining (p.wait before after).measured := by
  have hn := h.nanos
  have h0 := h.nonneg
  refine ⟨p.valid_wait h.valid before after, ?_, ?_⟩
  · show 0 ≤ p.measured + _
    omega
  · show (p.remaining.subtract _).nanos = max 0 (request.nanos - (p.measured + _))
    obtain ⟨hinterval, heq⟩ := Timespec.subtract_spec after.2 before.2
    rw [(Timespec.subtract_spec h.valid hinterval).2, heq]
    omega

theorem Accounted.le {remaining : Timespec} {measured : Int}
    (h : Accounted request remaining measured)
    (hrequest : request.Valid) : remaining.nanos ≤ request.nanos := by
  have hn := h.nanos
  have h0 := h.nonneg
  have := hrequest.nanos_nonneg
  omega

structure Returned.Accounted (request : Timespec) (r : Returned) : Prop where
  done : r.ret = 0 → request.nanos ≤ r.measured ∧ r.rmtp = some .zero
  interrupted : r.ret ≠ 0 → r.ret = -1 ∧ ∃ remaining, r.rmtp = some remaining ∧
    Libc.Accounted request remaining r.measured

theorem Progress.accounted_turn {t : Turn} (h : Accounted request p.remaining p.measured)
    (ht : t.Measured) {r : Returned} (hr : p.turn t = .error r) : r.Accounted request := by
  obtain ⟨before, after, hbefore, hafter, hle⟩ := ht
  unfold turn at hr
  rw [hbefore, hafter] at hr
  dsimp only at hr
  split at hr <;> cases hr
  exact ⟨fun he => (by cases he), fun _ => ⟨rfl, _, rfl, h.wait hle⟩⟩

theorem nanosleep_accounted (hrequest : request.Valid) {turns : List Turn}
    (hclock : ∀ t ∈ turns, t.Measured) {r : Returned}
    (hr : nanosleepInternal (some request) turns = .error r) : r.Accounted request := by
  rw [nanosleepInternal_of_valid hrequest] at hr
  have h0 : Accounted request request 0 := by
    have := hrequest.nanos_nonneg
    exact ⟨hrequest, Int.le_refl _, by omega⟩
  refine (sleep_induction (fun p => Accounted request p.remaining p.measured)
    (fun r => r.Accounted request) ?_ ?_ ?_ (p := ⟨request, 0⟩) h0).2 r hr
  · intro p h hz
    have hn := h.nanos
    rw [h.valid.isZero_iff.mp hz] at hn
    exact ⟨fun _ => ⟨by dsimp only; omega, rfl⟩, fun he => absurd rfl he⟩
  · intro p t ht h p' hok
    obtain ⟨before, after, hb, ha, rfl⟩ := turn_ok hok
    obtain ⟨before', after', hb', ha', hle⟩ := hclock t ht
    cases hb.symm.trans hb'
    cases ha.symm.trans ha'
    exact h.wait hle
  · intro p t ht h _ r he
    exact accounted_turn h (hclock t ht) he

/--
With a clock that works and does not go back, for every valid request and every sequence of turns: a
call of `ios_nanosleep` that returns 0 has measured at least the request and stores zero, and one
that is interrupted stores exactly what the intervals have left, which is normalised and not more
than the request. So `ios_sleep` returns at most what it was given.
-/
theorem sleep_accounting {request : Timespec} (hrequest : request.Valid) {turns : List Turn}
    (hclock : ∀ t ∈ turns, t.Measured) :
    (∀ r, nanosleep (some request) turns = .error r →
      (r.ret = 0 → request.nanos ≤ r.measured ∧ r.rmtp = some .zero) ∧
      (r.ret ≠ 0 → r.ret = -1 ∧ ∃ remaining, r.rmtp = some remaining ∧
        remaining.nanos = max 0 (request.nanos - r.measured) ∧ remaining.Valid ∧
        remaining.nanos ≤ request.nanos)) ∧
    ∀ seconds left, sleep seconds turns = some left → left ≤ seconds := by
  refine ⟨fun r hr => ?_, fun seconds left hleft => ?_⟩
  · have h := nanosleep_accounted hrequest hclock hr
    refine ⟨h.done, fun hne => ?_⟩
    obtain ⟨hret, remaining, hrmtp, ha⟩ := h.interrupted hne
    exact ⟨hret, remaining, hrmtp, ha.nanos, ha.valid, ha.le hrequest⟩
  · have hvalid : Timespec.Valid ⟨seconds, 0⟩ := by
      simp only [Timespec.Valid]
      omega
    unfold sleep at hleft
    split at hleft
    · cases hleft
    · next r hr =>
      have h := nanosleep_accounted hvalid hclock hr
      split at hleft
      · cases hleft
        exact Int.natCast_nonneg _
      · next hne =>
        obtain ⟨-, remaining, hrmtp, ha⟩ := h.interrupted hne
        rw [hrmtp] at hleft
        obtain ⟨hsec, hnsec, -⟩ := ha.valid
        have hle := ha.le hvalid
        simp only [Timespec.nanos] at hle
        simp only [Option.map_some, Option.some.injEq] at hleft
        split at hleft <;> omega

def cancelledTurns : List Turn :=
  [timedOut ⟨⟨5, 900000000⟩, by decide⟩ ⟨⟨9, 900000000⟩, by decide⟩,
    ⟨some ⟨⟨10, 0⟩, by decide⟩, false, 3, fun _ => 1, some ⟨⟨13, 0⟩, by decide⟩⟩]

/-- A sleep of ten seconds, cancelled after seven. -/
theorem sleep_accounting_cancelled :
    ∃ r remaining, nanosleep (some ⟨10, 0⟩) cancelledTurns = .error r ∧ r.rmtp = some remaining ∧
      remaining.nanos = 3000000000 ∧ remaining.Valid := by
  have hclock : ∀ t ∈ cancelledTurns, t.Measured := by
    intro t ht
    rcases List.mem_pair.mp ht with rfl | rfl
    · exact ⟨_, _, rfl, rfl, by decide⟩
    · exact ⟨_, _, rfl, rfl, by decide⟩
  have hten : Timespec.Valid ⟨10, 0⟩ := by decide
  have h := (sleep_accounting hten hclock).1 _ rfl
  obtain ⟨-, remaining, hrmtp, hnanos, hvalid, -⟩ := h.2 (by decide)
  exact ⟨_, remaining, rfl, hrmtp, hnanos, hvalid⟩

end IosSystem.Libc
