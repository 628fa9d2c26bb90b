import IosSystem.Async.Shared

/-!
# Whether the result of a command is final

The worker stores the status, and so does a caller of `ios_command_wait` that finds the time-out
over (`Place.waitTimeout`). Only the worker stores the exit code. A caller that gives up before the
command has ended reports -1; the worker stores its own later. If nobody gives up, what was reported
once is reported from then on (`Patient`).
-/

namespace IosSystem.Async.Shared

open List Option

/-- A later report says the same as far as both say something. -/
structure Report.Repeats (r r' : Report) : Prop where
  finished : r'.finished ≠ some false
  status : ∀ a ∈ r.status, ∀ b ∈ r'.status, b = a
  exitCode : ∀ a ∈ r.exitCode, ∀ b ∈ r'.exitCode, b = a

/-- Reports of calls that began after a final one repeat it. -/
def Stable (s : State) : Prop :=
  ∀ (i j : Nat) (r r' : Report), s.reports[i]? = some r → s.reports[j]? = some r' → i < r'.since →
    r.finished = some true → r.Repeats r'

/-- No caller finds the time over. -/
def Patient (s : State) : Label → Prop
  | .call _ _ => True
  | .advance i o => s.threads[i]? = some .waitTimeout →
    ¬(0 ≤ s.timeoutMs ∧ checkTimeout s.view o.elapsedMs = true)

/-- A report agrees with the status and exit code that are now stored. -/
structure Report.Fits (r : Report) (a : Status) (e : Int) : Prop where
  finished : r.finished = some true → a.final = true
  denied : a.final = true → r.finished ≠ some false
  status : a.final = true → ∀ b ∈ r.status, b = a
  exitCode : a.final = true → ∀ b ∈ r.exitCode, b = e

variable {r r' : Report}

theorem Report.Fits.repeats {a : Status} {e : Int} (h : r.Fits a e) (h' : r'.Fits a e)
    (hf : r.finished = some true) : r.Repeats r' := by
  have hfinal := h.finished hf
  refine ⟨h'.denied hfinal, fun x hx y hy => ?_, fun x hx y hy => ?_⟩
  · rw [h.status hfinal x hx, h'.status hfinal y hy]
  · rw [h.exitCode hfinal x hx, h'.exitCode hfinal y hy]

/-- The caller has seen a final status. -/
def Place.knowsFinal : Place → Bool
  | .waitExit | .tryExit | .exitLoad => true
  | _ => false

def Place.plain (p : Place) : Bool := p.published && !p.knowsFinal && p != .waitRunning

/-- While everybody is patient, the status is final just when the worker has published. -/
structure Inv (s : State) : Prop where
  orderly : Orderly s
  final : ∀ w, s.threads[0]? = some w → s.status.final = w.published
  knows : ∀ p ∈ s.threads, p.knowsFinal = true → s.status.final = true
  begun : .waitRunning ∈ s.threads → s.status ≠ .pending
  fits : ∀ r ∈ s.reports, r.finished = some true → r.Fits s.status s.exitCode
  since : ∀ i, s.since i ≤ s.reports.length
  past : ∀ r ∈ s.reports, r.since ≤ s.reports.length
  stable : Stable s

theorem Inv.initial (r : Registration) (timeoutMs : Int) (n : Nat) :
    Inv (.initial r timeoutMs n) := by
  refine ⟨.initial r timeoutMs n, ?_, fun p hp h => ?_, fun h => ?_, forall_mem_nil _,
    fun _ => Nat.le_refl 0, forall_mem_nil _, fun i j r r' hi => (by cases hi)⟩
  · rintro w ⟨⟩
    rfl
  · rcases mem_initial hp with rfl | rfl <;> cases h
  · rcases mem_initial h with h | h <;> cases h

variable {s s' : State} {i : Nat} {p q : Place}

theorem knowsFinal_of_ofWorker (h : p.ofWorker = true) : p.knowsFinal = false := by
  cases p <;> first | rfl | cases h

attribute [grind cases] Inv Report.Fits
attribute [grind →] mem_or_eq_of_mem_set

section

variable (h : Inv s) (horderly : Orderly s') (hi : s.threads[i]? = some p)
  (hthreads : s'.threads = s.threads.set i q) (hstatus : s'.status = s.status)
  (hexit : s'.exitCode = s.exitCode) (hreports : s'.reports = s.reports)
  (hsince : s'.since = s.since)
include h horderly hi hthreads hstatus hexit hreports hsince

theorem Inv.move (hpub : i ≠ 0 ∨ q.published = p.published)
    (hknows : q.knowsFinal = true → s.status.final = true)
    (hbegun : q = .waitRunning → s.status ≠ .pending) : Inv s' := by
  have hstable := h.stable
  constructor <;> simp only [hsince, Stable] at * <;> grind

theorem Inv.plain (hp : p.published = true) (hq : q.plain = true) : Inv s' := by
  simp only [Place.plain, Bool.and_eq_true, Bool.not_eq_true', bne_iff_ne] at hq
  refine h.move horderly hi hthreads hstatus hexit hreports hsince (.inr (hq.1.1.trans hp.symm)) ?_
    fun heq => absurd heq hq.2
  rw [hq.1.2]
  exact fun hk => by cases hk

end

theorem Inv.store (h : Inv s) (horderly : Orderly s') (hi : s.threads[0]? = some p)
    (hp : p.published = false) (hthreads : s'.threads = s.threads.set 0 q)
    (hreports : s'.reports = s.reports)
    (hsince : s'.since = s.since) (hpub : s'.status.final = q.published)
    (hbegun : s.status ≠ .pending → s'.status ≠ .pending) (hq : q.ofWorker = true) : Inv s' := by
  have hknows := knowsFinal_of_ofWorker hq
  have hne : q ≠ .waitRunning := by
    rintro rfl
    cases hq
  constructor <;> simp only [hsince, Stable] at * <;> grind

theorem getElem?_concat_cases {l : List Report} {k : Nat} (h : (l ++ [r])[k]? = some r') :
    l[k]? = some r' ∨ (k = l.length ∧ r' = r) := by
  rcases Nat.lt_trichotomy k l.length with hk | rfl | hk
  · rw [getElem?_append_left hk] at h
    exact .inl h
  · rw [getElem?_concat_length] at h
    exact .inr ⟨rfl, (some.inj h).symm⟩
  · rw [getElem?_eq_none (by rw [length_append]; exact hk)] at h
    cases h

theorem Inv.report (h : Inv s) {owner : Option Nat} {finished : Option Bool}
    {status : Option Status}
    {exitCode : Option Int}
    (horderly : Orderly ({ s with owner := owner }.report i finished status exitCode))
    (hne : i ≠ 0)
    (hfits : Report.Fits ⟨s.since i, finished, status, exitCode⟩ s.status s.exitCode) :
    Inv ({ s with owner := owner }.report i finished status exitCode) := by
  constructor <;> simp only [State.report, State.goto] at *
  case stable =>
    intro a b r r' ha hb hlt hf
    rcases getElem?_concat_cases hb with hb | ⟨rfl, rfl⟩
    · rcases getElem?_concat_cases ha with ha | ⟨rfl, rfl⟩
      · exact h.stable a b r r' ha hb hlt hf
      · -- the new report is not in the past of an old one
        exact absurd hlt (Nat.not_lt.mpr (h.past r' (mem_of_getElem? hb)))
    · rcases getElem?_concat_cases ha with ha | ⟨-, rfl⟩
      · exact (h.fits r (mem_of_getElem? ha) hf).repeats hfits hf
      · exact hfits.repeats hfits hf
  all_goals grind [Place.knowsFinal]

/-- A step of the worker, or of a patient caller. -/
theorem Inv.advance (h : Inv s) {o : Outcome} (hi : s.threads[i]? = some p)
    (hpatient : Patient s (.advance i o)) (ho : Orderly s') (hs : advance s i o p = some s') :
    Inv s' := by
  cases p <;> simp only [Shared.advance, State.lock] at hs
  case start =>
    cases hs
    obtain rfl := h.orderly.eq_zero hi rfl
    exact h.store ho hi rfl rfl rfl rfl rfl (fun _ hp => by cases hp) rfl
  case runCommand | doneLock | storeExit =>
    obtain rfl := h.orderly.eq_zero hi rfl
    have hfinal := h.final _ hi
    repeat' split at hs
    all_goals cases hs
    all_goals exact h.store ho hi rfl rfl rfl rfl hfinal id rfl
  case publish e =>
    cases hs
    obtain rfl := h.orderly.eq_zero hi rfl
    have hfinal := finalStatus_final s.view o.elapsedMs e
    refine h.store ho hi rfl rfl rfl rfl hfinal (fun _ hp => ?_) rfl
    rw [show finalStatus s.view o.elapsedMs e = .pending from hp] at hfinal
    cases hfinal
  case call =>
    obtain ⟨f, -, rfl⟩ := map_eq_some_iff.1 hs
    exact h.plain ho hi rfl rfl rfl rfl rfl rfl (by unfold afterCallback; split <;> rfl)
  case waitTimeout =>
    rw [if_neg (hpatient hi)] at hs
    cases hs
    exact h.plain ho hi rfl rfl rfl rfl rfl rfl rfl
  case waitPending =>
    cases hs
    refine h.move ho hi rfl rfl rfl rfl rfl (.inl (h.orderly.ne_zero hi rfl)) ?_ ?_ <;> split
    · exact fun hk => by cases hk
    · exact fun hk => by cases hk
    · exact fun hq => by cases hq
    · next hpending => exact fun _ => hpending
  case waitRunning =>
    cases hs
    have hbegun := h.begun (mem_of_getElem? hi)
    refine h.move ho hi rfl rfl rfl rfl rfl (.inl (h.orderly.ne_zero hi rfl)) ?_ ?_ <;> split
    · exact fun hk => by cases hk
    · intro _
      cases hstatus : s.status <;> first | rfl | contradiction
    · exact fun hq => by cases hq
    · exact fun hq => by cases hq
  case waitExit | tryExit =>
    cases hs
    have hfinal := h.knows _ (mem_of_getElem? hi) rfl
    exact h.report ho (h.orderly.ne_zero hi rfl) ⟨fun _ => hfinal, by simp, by simp, by simp⟩
  case getStatus | exitLoad =>
    cases hs
    exact h.report ho (h.orderly.ne_zero hi rfl) ⟨by simp, by simp, by simp, by simp⟩
  case tryStatus wanted =>
    have hne := h.orderly.ne_zero hi rfl
    split at hs <;> cases hs
    · next hfinal =>
      cases wanted
      · exact h.report ho hne ⟨fun _ => hfinal, by simp, by simp, by simp⟩
      · exact h.move ho hi rfl rfl rfl rfl rfl (.inr rfl) (fun _ => hfinal) (fun hq => by cases hq)
    · next hfinal => exact h.report ho hne ⟨by simp, by simp [hfinal], by simp, by simp⟩
  case exitStatus =>
    have hne := h.orderly.ne_zero hi rfl
    split at hs <;> cases hs
    · next hfinal =>
      exact h.move ho hi rfl rfl rfl rfl rfl (.inr rfl) (fun _ => hfinal) (fun hq => by cases hq)
    · next hfinal => exact h.report ho hne ⟨by simp, by simp, by simp, by simp [hfinal]⟩
  -- the other places have nothing to do with the results
  all_goals repeat' split at hs
  all_goals cases hs
  all_goals
    exact h.plain ho hi rfl rfl rfl rfl rfl rfl (by first | rfl | unfold afterCallback; split <;>
      rfl)

theorem Inv.step (h : Inv s) {l : Label} (hg : Patient s l) (hs : step s l = some s') : Inv s' := by
  have ho := h.orderly.step hs
  cases l with
  | call i c =>
    simp only [Shared.step] at hs
    split at hs <;> cases hs
    next hi =>
      have hmove : Inv (s.goto i c.entry) :=
        h.move ⟨ho.role, ho.owned⟩ hi rfl rfl rfl rfl rfl (.inr (by cases c <;> rfl))
          (fun hk => by cases c <;> cases hk) (fun hq => by cases c <;> cases hq)
      refine { hmove with orderly := ho, since := fun j => ?_ }
      show Function.update s.since i s.reports.length j ≤ _
      rw [Function.update_apply]
      split
      · exact Nat.le_refl _
      · exact h.since j
  | advance i o =>
    obtain ⟨p, hi, hs⟩ := bind_eq_some_iff.1 hs
    exact h.advance hi hg ho hs

def givesUp (timeoutMs : Int) : List Label :=
  [.call 1 .wait, .advance 1 ⟨0, 0, false⟩, .advance 1 ⟨0, 0, false⟩,
    .advance 1 ⟨timeoutMs, 0, false⟩,
    .advance 1 ⟨timeoutMs, 0, false⟩, .advance 0 ⟨timeoutMs, 0, false⟩, .call 1 .getStatus,
    .advance 1 ⟨timeoutMs, 0, false⟩]

theorem run_givesUp (r : Registration) {timeoutMs : Int} (h : 0 ≤ timeoutMs) (n : Nat) :
    (Transition.run step (.initial r timeoutMs (n + 1)) (givesUp timeoutMs)).map State.reports
      = some [⟨0, some true, none, some (-1)⟩, ⟨1, some false, some .running, none⟩] := by
  have hover : (if timeoutMs < 0 then false else decide (timeoutMs ≤ timeoutMs)) = true := by
    simp [Int.not_lt.mpr h]
  simp only [givesUp, Transition.run, step, advance, State.lock, State.goto, State.initial,
    replicate_succ, set_cons_succ, set_cons_zero, getElem?_cons_succ,
    getElem?_cons_zero, bind_some, if_true, Call.entry]
  rw [if_pos]
  · rfl
  · exact ⟨h, hover⟩

theorem not_stable_of_reports (h : s.reports = [r, r']) (hf : r.finished = some true)
    (hs : 0 < r'.since) (hf' : r'.finished = some false) : ¬Stable s := by
  intro hstable
  exact (hstable 0 1 r r' (by rw [h]; rfl) (by rw [h]; rfl) hs hf).finished hf'

/--
If no caller of `ios_command_wait` gives up, the result that one call has reported is the result
that all later calls report. Without a time-out nobody gives up. With one, there is a run in which
the result changes.
-/
theorem results_stable (r : Registration) (timeoutMs : Int) (n : Nat) :
    (∀ labels, Transition.Meets step Patient (.initial r timeoutMs n) labels →
      Transition.Always step Stable (.initial r timeoutMs n) labels) ∧
    ((∀ labels, Transition.Always step Stable (.initial r timeoutMs (n + 1)) labels) ↔
      timeoutMs < 0) := by
  refine ⟨fun labels h => ?_, fun h => ?_, fun hneg labels => ?_⟩
  · exact Transition.Always.of_meets (fun s (h : Inv s) => h.stable)
      (fun s s' l h hs hg => h.step hg hs)
      (.initial r timeoutMs n) h
  · by_contra hnonneg
    obtain ⟨s, hr, hreports⟩ := map_eq_some_iff.1 (run_givesUp r (Int.not_lt.mp hnonneg) n)
    exact not_stable_of_reports hreports rfl Nat.one_pos rfl ((h _).last hr)
  · refine Transition.Always.of_invariant
      (fun s (h : Inv s ∧ s.timeoutMs < 0) => h.1.stable) ?_ ⟨.initial r timeoutMs (n + 1),
        hneg⟩ labels
    rintro s s' l ⟨h, hneg⟩ hs
    refine ⟨h.step ?_ hs, ?_⟩
    · cases l with
      | call i c => trivial
      | advance i o => exact fun _ hover => absurd hover.1 (Int.not_le.mpr hneg)
    · obtain ⟨i, p, q, -, hm⟩ := step_moves hs
      rw [hm.timeoutMs]
      exact hneg

/--
A caller waits for 5 ms and gives up; `ios_command_wait` returns -1. The command then begins, and
ends with 0, which is what the same caller is told afterwards.
-/
theorem result_changes :
    ∃ s, Transition.run step (.initial ⟨none, 0⟩ 5 1)
        ([.call 1 .wait] ++ List.replicate 4 (.advance 1 ⟨5, 0, false⟩) ++
          List.replicate 5 (.advance 0 ⟨5, 0, false⟩) ++
          [.call 1 .getExitCode, .advance 1 ⟨6, 0, false⟩, .advance 1 ⟨6, 0, false⟩]) = some s ∧
      s.reports = [⟨0, some true, none, some (-1)⟩, ⟨1, none, none, some 0⟩] ∧ ¬Stable s := by
  refine ⟨_, rfl, rfl, fun hstable => ?_⟩
  exact absurd ((hstable 0 1 _ _ rfl rfl Nat.one_pos rfl).exitCode (-1) rfl 0 rfl) (by decide)

end IosSystem.Async.Shared
