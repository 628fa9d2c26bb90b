import IosSystem.Async.Shared

/-!
# How often the callback of a command is invoked

The worker and every call of `ios_command_set_callback` may invoke the callback. Who finds
`callback_invoked` clear under the mutex sets it, and is the only one to go on (`Place.claims`). A
function that is registered when the worker is through is invoked by the call that registers it
(`Fired.due`).
-/

namespace IosSystem.Async.Shared

open List Threads

/-- The thread has set `callback_invoked`, and has not invoked the callback yet. -/
def Place.claims : Place → Bool
  | .claimed _ | .gotCallback _ _ | .gotData _ _ | .call _ _ _ => true
  | _ => false

/-- The thread is on its way to the test of `callback_invoked`, if the status is final. -/
def Place.heads : Place → Bool
  | .setData callback _ | .setTest callback => callback.isSome
  | .setExit | .cbLock _ | .cbTest _ => true
  | _ => false

/-- The thread is in `ios_command_set_callback`, or in `invoke_callback_if_set`. -/
def Place.inSetCallback : Place → Bool
  | .setLock _ _ | .setCallback _ _ | .setData _ _ | .setTest _ | .setExit => true
  | p => p.invokes

/-- At most one invocation, and exactly one when the worker is through, no call of
`ios_command_set_callback` is under way and a function is registered. -/
def FiredOnce (s : State) : Prop :=
  s.invocations.length ≤ 1 ∧
    (s.threads[0]? = some .done → (∀ p ∈ s.threads, p.inSetCallback = false) →
      s.callback.isSome = true →
      s.invocations.length = 1)

/-- The invocations made and claimed are as many as `callback_invoked` says. -/
structure Fired (s : State) : Prop where
  orderly : Orderly s
  count : s.invocations.length + s.threads.countP Place.claims = if s.callbackInvoked then 1 else 0
  published : ∀ w, s.threads[0]? = some w → w.published = true → s.status.final = true
  due : s.threads[0]? = some .done → s.callback.isSome = true → s.callbackInvoked = false →
    ∃ p ∈ s.threads, p.heads = true

theorem inSetCallback_of_claims {p : Place} (h : p.claims = true) : p.inSetCallback = true := by
  cases p <;> first | rfl | cases h

theorem inSetCallback_of_heads {p : Place} (h : p.heads = true) : p.inSetCallback = true := by
  cases p <;> first | rfl | cases h

theorem Fired.once {s : State} (h : Fired s) : FiredOnce s := by
  have hcount := h.count
  refine ⟨by split at hcount <;> omega, fun hdone hret hset => ?_⟩
  have hclaims : s.threads.countP Place.claims = 0 := by
    refine countP_eq_zero.2 fun p hp hc => ?_
    cases (inSetCallback_of_claims hc).symm.trans (hret p hp)
  cases hinv : s.callbackInvoked with
  | true =>
    rw [hinv, if_pos rfl, hclaims] at hcount
    exact hcount
  | false =>
    obtain ⟨p, hp, hheads⟩ := h.due hdone hset hinv
    cases (inSetCallback_of_heads hheads).symm.trans (hret p hp)

theorem Fired.initial (r : Registration) (timeoutMs : Int) (n : Nat) :
    Fired (.initial r timeoutMs n) := by
  refine ⟨.initial r timeoutMs n, ?_, ?_, fun h => (by cases h)⟩
  · show 0 + (Place.start :: replicate n .idle).countP Place.claims = 0
    simp [Place.claims]
  · rintro w ⟨⟩ hw
    cases hw

variable {s s' : State} {i : Nat} {p q : Place}

theorem Fired.move (h : Fired s) (horderly : Orderly s') (hi : s.threads[i]? = some p)
    (hthreads : s'.threads = s.threads.set i q) (hinvoked : s'.callbackInvoked = s.callbackInvoked)
    (hinvocations : s'.invocations = s.invocations) (hclaims : q.claims = p.claims)
    (hpublished : ∀ w, (s.threads.set i q)[0]? = some w → w.published = true →
      s'.status.final = true)
    (hcallback : s'.callback.isSome = true → s.callback = s'.callback ∨ q.heads = true)
    (hheads : p.heads = true → s'.callback.isSome = true → s.callbackInvoked = false →
      s.threads[0]? = some .done → q.heads = true)
    (hq : q = .done → s'.callback.isSome = true → s.callbackInvoked = true) : Fired s' := by
  refine ⟨horderly, ?_, ?_, fun hdone hset hinv => ?_⟩
  · rw [hinvocations, hinvoked, hthreads, countP_set_of_eq hi hclaims]
    exact h.count
  · rw [hthreads]
    exact hpublished
  · rw [hthreads] at hdone ⊢
    rw [hinvoked] at hinv
    rcases getElem?_set_cases hdone with ⟨rfl, hqdone⟩ | ⟨hne, hdone⟩
    · rw [hq hqdone.symm hset] at hinv
      cases hinv
    rcases hcallback hset with hcallback | hheadsq
    · obtain ⟨r, hr, hrheads⟩ := h.due hdone (hcallback ▸ hset) hinv
      by_cases hrp : r = p
      · subst hrp
        exact ⟨q, mem_set_self hi q, hheads hrheads hset hinv hdone⟩
      · exact ⟨r, mem_set_of_ne hi hr hrp, hrheads⟩
    · exact ⟨q, mem_set_self hi q, hheadsq⟩

theorem Fired.published_set (h : Fired s) (hi : s.threads[i]? = some p) {status : Status}
    (hstatus : s.status.final = true → status.final = true)
    (hq : i = 0 → q.published = true → p.published = true) :
    ∀ w, (s.threads.set i q)[0]? = some w → w.published = true → status.final = true := by
  intro w hw hpub
  rcases getElem?_set_cases hw with ⟨rfl, rfl⟩ | ⟨-, hw⟩
  · exact hstatus (h.published p hi (hq rfl hpub))
  · exact hstatus (h.published w hw hpub)

section

variable (h : Fired s) (horderly : Orderly s') (hi : s.threads[i]? = some p)
  (hthreads : s'.threads = s.threads.set i q)
include h horderly hi hthreads

theorem Fired.claim (hinvoked : s'.callbackInvoked = true) (hstatus : s'.status = s.status)
    (hp : p.published = true)
    (hcount : s'.invocations.length + (s.threads.set i q).countP Place.claims = 1) : Fired s' := by
  refine ⟨horderly, ?_, ?_, fun _ _ hinv => ?_⟩
  · rw [hthreads, hinvoked, if_pos rfl]
    exact hcount
  · rw [hthreads, hstatus]
    exact h.published_set hi id fun _ _ => hp
  · rw [hinvoked] at hinv
    cases hinv

theorem Fired.other (hinvoked : s'.callbackInvoked = s.callbackInvoked)
    (hinvocations : s'.invocations = s.invocations) (hcallback : s'.callback = s.callback)
    (hstatus : s.status.final = true → s'.status.final = true) (hclaims : q.claims = p.claims)
    (hheads : p.heads = true → q.heads = true) (hpub : p.published = true ∨ q.published = false)
    (hq : q ≠ .done) : Fired s' := by
  refine h.move horderly hi hthreads hinvoked hinvocations hclaims
    (h.published_set hi hstatus fun _ hqpub => ?_) (fun _ => .inl hcallback.symm)
    (fun hp _ _ _ => hheads hp) (fun heq => absurd heq hq)
  rcases hpub with hpub | hpub
  · exact hpub
  · rw [hpub] at hqpub
    cases hqpub

end

/-- No step makes a second invocation. -/
theorem Fired.advance (h : Fired s) {o : Outcome} (hi : s.threads[i]? = some p) (ho : Orderly s')
    (hs : advance s i o p = some s') : Fired s' := by
  cases p <;> simp only [Shared.advance, State.lock] at hs
  case start =>
    cases hs
    obtain rfl := h.orderly.eq_zero hi rfl
    refine h.move ho hi rfl rfl rfl rfl (fun w hw hpub => ?_) (fun _ => .inl rfl)
      (fun hp => by cases hp)
      (fun hq => by cases hq)
    rw [getElem?_set_eq hi] at hw
    cases hw
    cases hpub
  case publish e =>
    cases hs
    exact h.move ho hi rfl rfl rfl rfl (fun w _ _ => finalStatus_final _ _ _) (fun _ => .inl rfl)
      (fun hp => by cases hp) (fun hq => by cases hq)
  case setCallback f d =>
    cases hs
    exact h.move ho hi rfl rfl rfl rfl (h.published_set hi id fun _ _ =>
      rfl) .inr (fun hp => by cases hp)
      (fun hq => by cases hq)
  case setTest f =>
    cases hs
    refine h.move ho hi rfl rfl rfl ?_ (h.published_set hi id fun _ _ => rfl) (fun _ => .inl rfl)
      (fun hf _ hinv hdone => ?_) (fun hq => ?_)
    · split <;> rfl
    · rw [if_pos ⟨h.published _ hdone rfl, hinv, hf⟩]
      rfl
    · split at hq <;> cases hq
  case cbTest e =>
    have hcount := h.count
    split at hs <;> cases hs
    · next hfree =>
      refine h.claim ho hi rfl rfl rfl rfl ?_
      rw [hfree.2, if_neg Bool.false_ne_true] at hcount
      have := countP_set_enter hi (b := Place.claimed e) (p := Place.claims) rfl rfl
      show s.invocations.length + _ = 1
      omega
    · next hnot =>
      refine h.move ho hi rfl rfl rfl (by unfold afterCallback; split <;> rfl)
        (h.published_set hi id fun _ _ => rfl) (fun _ => .inl rfl)
        (fun _ hset hinv => absurd ⟨hset, hinv⟩ hnot) (fun _ hset => ?_)
      by_contra hinv
      exact hnot ⟨hset, by simpa using hinv⟩
  case call e f d =>
    obtain ⟨f, -, rfl⟩ := Option.map_eq_some_iff.1 hs
    have hcount := h.count
    have hleave := countP_set_leave hi (b := afterCallback i) (p := Place.claims) rfl
      (by unfold afterCallback; split <;> rfl)
    have hinv : s.callbackInvoked = true := by
      by_contra hinv
      rw [if_neg hinv] at hcount
      omega
    refine h.claim ho hi rfl hinv rfl rfl ?_
    rw [if_pos hinv] at hcount
    show (s.invocations ++ [_]).length + _ = 1
    rw [length_append, length_singleton]
    omega
  -- the other places have nothing to do with the callback
  all_goals repeat' split at hs
  all_goals cases hs
  all_goals
    exact h.other ho hi rfl rfl rfl rfl (by first | exact id | exact fun _ => rfl) rfl
      (by first | exact id | exact fun hp => by cases hp)
      (by first | exact .inl rfl | exact .inr rfl) (by simp)

theorem Fired.step (h : Fired s) {l : Label} (hs : step s l = some s') : Fired s' := by
  have ho := h.orderly.step hs
  cases l with
  | call i c =>
    simp only [Shared.step] at hs
    split at hs
    · next hi =>
      cases hs
      exact h.other ho hi rfl rfl rfl rfl id (by cases c <;> rfl) (fun hp => by cases hp) (.inl rfl)
        (by cases c <;> simp [Call.entry])
    · cases hs
  | advance i o =>
    obtain ⟨p, hi, hs⟩ := Option.bind_eq_some_iff.1 hs
    exact h.advance hi ho hs

/--
In every run, with any callback and time-out, there is at most one invocation. There is exactly one
whenever the worker is through, all calls of `ios_command_set_callback` have returned and a function
is registered.
-/
theorem callback_once (r : Registration) (timeoutMs : Int) (n : Nat) (labels : List Label) :
    Transition.Always step FiredOnce (.initial r timeoutMs n) labels :=
  Transition.Always.of_invariant (fun s (h : Fired s) => h.once) (fun _ _ _ h hs => h.step hs)
    (.initial r timeoutMs n) labels

/-- A function is registered when the worker is through: the call that registers it invokes it. -/
example : ∃ s, Transition.run step (.initial ⟨none, 0⟩ (-1) 1)
    (replicate 8 (.advance 0 ⟨0, 3, false⟩) ++ [.call 1 (.setCallback (some 1) 10)] ++
      replicate 10 (.advance 1 ⟨0, 0, false⟩)) = some s ∧
    s.threads = [.done, .idle] ∧ s.invocations = [⟨1, 3, 10⟩] :=
  ⟨_, rfl, rfl, rfl⟩

end IosSystem.Async.Shared
