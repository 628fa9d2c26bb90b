import IosSystem.Async.Shared

/-!
# With what the callback of a command is invoked

`invoke_callback_if_set` decides under the mutex, and reads the function and the data without it. A
call of `ios_command_set_callback` in between changes one or both. The exit code is the worker's
own, or the one found in the handle when the status is final. With a time-out that can be before
there is an exit code.
-/

namespace IosSystem.Async.Shared

open List Threads

/--
Every callback is invoked, and is about to be invoked, with the data that was registered with it and
with what `ios_system` has returned.
-/
structure Genuine (s : State) : Prop where
  calls : ∀ e f d, .call e f d ∈ s.threads → f.isSome = true ∧ ⟨f, d⟩ ∈ s.registered ∧
    s.result = some e
  invocations : ∀ v ∈ s.invocations, ⟨some v.callback, v.data⟩ ∈ s.registered ∧
    s.result = some v.exitCode

/-- Between the decision to invoke and the call. -/
def Place.reads : Place → Bool
  | .claimed _ | .gotCallback _ _ | .gotData _ _ => true
  | _ => false

/--
Nobody reads the two fields when the first one is stored, and the exit code has been stored by the
worker when it is loaded in `ios_command_set_callback`.
-/
def InTurn (s : State) : Label → Prop
  | .call _ _ => True
  | .advance i _ =>
    (∀ f d, s.threads[i]? = some (.setCallback f d) → ∀ p ∈ s.threads, p.reads = false) ∧
      (s.threads[i]? = some .setExit → ∀ w, s.threads[0]? = some w → w.stored = true)

/-! ## The invariant -/

/-- The function is stored, its data are not. -/
def Place.between : Place → Bool
  | .setData _ _ => true
  | _ => false

/-- `ios_system` has not returned. -/
def Place.early : Place → Bool
  | .start | .runCommand => true
  | _ => false

/-- What a thread has loaded is a registered pair and the result. -/
def Place.Sound (s : State) : Place → Prop
  | .setData f d => s.callback = f ∧ ⟨f, d⟩ ∈ s.registered
  | .claimed e => s.callback.isSome = true ∧ s.result = some e
  | .gotCallback e f => f.isSome = true ∧ f = s.callback ∧ s.result = some e
  | .gotData e d => s.callback.isSome = true ∧ d = s.callbackData ∧ s.result = some e
  | .call e f d => f.isSome = true ∧ ⟨f, d⟩ ∈ s.registered ∧ s.result = some e
  | .doneLock e | .storeExit e | .publish e | .doneUnlock e | .cbLock e | .cbTest e =>
      s.result = some e
  | _ => True

/-- The two fields are a registered pair, or one store is due and nobody reads. -/
def Tidy (s : State) (threads : List Place) : Prop :=
  ((∀ p ∈ threads, p.between = false) ∧ ⟨s.callback, s.callbackData⟩ ∈ s.registered) ∨
    ((∃ p ∈ threads, p.between = true) ∧ ∀ p ∈ threads, p.reads = false)

/-- The invariant of the runs in which stores and loads of the pair exclude each other. -/
structure Paired (s : State) : Prop where
  orderly : Orderly s
  sound : ∀ p ∈ s.threads, p.Sound s
  tidy : Tidy s s.threads
  early : ∀ w, s.threads[0]? = some w → w.early = true → s.result = none
  stored : ∀ w, s.threads[0]? = some w → w.stored = true → s.result = some s.exitCode
  invocations : ∀ v ∈ s.invocations, ⟨some v.callback, v.data⟩ ∈ s.registered ∧
    s.result = some v.exitCode

theorem Paired.genuine {s : State} (h : Paired s) : Genuine s :=
  ⟨fun e f d hp => h.sound (.call e f d) hp, h.invocations⟩

theorem Paired.initial (r : Registration) (timeoutMs : Int) (n : Nat) :
    Paired (.initial r timeoutMs n) := by
  refine ⟨.initial r timeoutMs n, fun p hp => ?_, .inl ⟨fun p hp => ?_, mem_singleton_self r⟩,
    fun _ _ _ => rfl, ?_, forall_mem_nil _⟩
  · rcases mem_initial hp with rfl | rfl <;> trivial
  · rcases mem_initial hp with rfl | rfl <;> rfl
  · rintro w ⟨⟩ hw
    cases hw

variable {s s' : State} {i : Nat} {p q : Place}

attribute [grind cases] Paired
attribute [grind] Tidy
attribute [grind →] List.mem_or_eq_of_mem_set

/-! ## The mutex -/

theorem holds_of_between (h : p.between = true) : p.holds = true := by
  cases p <;> first | rfl | cases h

theorem between_set (ho : Orderly s) (hi : s.threads[i]? = some p) (hp : p.holds = true)
    (hq : q.between = false) : ∀ r ∈ s.threads.set i q, r.between = false := by
  intro r hr
  obtain ⟨j, hj⟩ := mem_iff_getElem?.1 hr
  rcases getElem?_set_cases hj with ⟨-, rfl⟩ | ⟨hne, hj⟩
  · exact hq
  · by_contra hb
    exact hne (ho.eq_of_holds hj hi (holds_of_between (by simpa using hb)) hp)

theorem Paired.registered (h : Paired s) (hi : s.threads[i]? = some p) (hp : p.holds = true)
    (hb : p.between = false) : ⟨s.callback, s.callbackData⟩ ∈ s.registered := by
  have hnone := between_set h.orderly hi hp hb
  rw [set_eq_self hi] at hnone
  grind

/-! ## Steps -/

theorem Tidy.move (h : Tidy s s.threads) (hi : s.threads[i]? = some p) (hp : p.between = false)
    (hq : q.between = false) (hreads : q.reads = true → p.reads = true) :
    Tidy s (s.threads.set i q) := by
  rcases h with ⟨hquiet, hreg⟩ | ⟨⟨r, hr, hrb⟩, hunread⟩
  · exact .inl ⟨forall_mem_set hquiet hq, hreg⟩
  · refine .inr ⟨⟨r, mem_set_of_ne hi hr ?_, hrb⟩, forall_mem_set hunread ?_⟩ <;> grind

/-- The fields that `Paired` is about. -/
def State.fields (s : State) :
    Option Nat × Nat × List Registration × Option Int × Int × List Invocation :=
  (s.callback, s.callbackData, s.registered, s.result, s.exitCode, s.invocations)

theorem Paired.move (h : Paired s) (horderly : Orderly s') (hi : s.threads[i]? = some p)
    (hthreads : s'.threads = s.threads.set i q) (hfields : s'.fields = s.fields) (hq : q.Sound s)
    (htidy : Tidy s (s.threads.set i q)) (hearly : q.early = true → p.early = true)
    (hstored : q.stored = true → p.stored = true) : Paired s' := by
  simp only [State.fields, Prod.mk.injEq] at hfields
  obtain ⟨hcallback, hdata, hregistered, hresult, hexit, hinvocations⟩ := hfields
  have hsame : ∀ r : Place, r.Sound s → r.Sound s' := by
    intro r hr
    cases r <;> simp only [Place.Sound, hcallback, hdata, hregistered, hresult] at hr ⊢ <;> exact hr
  constructor <;>
    simp only [hthreads] at * <;> grind

/-- The places without a condition in `Place.Sound`. -/
def Place.neutral : Place → Bool
  | .start | .runCommand | .doneLock _ | .storeExit _ | .publish _ | .doneUnlock _
    | .cbLock _ | .cbTest _
  | .claimed _ | .gotCallback _ _ | .gotData _ _ | .call _ _ _ | .setData _ _ => false
  | _ => true

theorem sound_of_neutral (h : q.neutral = true) : q.Sound s ∧ q.between = false ∧ q.reads = false ∧
    q.early = false := by
  cases q <;> first | exact ⟨trivial, rfl, rfl, rfl⟩ | cases h

theorem Paired.toNeutral (h : Paired s) (horderly : Orderly s') (hi : s.threads[i]? = some p)
    (hthreads : s'.threads = s.threads.set i q) (hfields : s'.fields = s.fields)
    (hp : p.between = false)
    (hstored : p.stored = true) (hq : q.neutral = true) : Paired s' := by
  obtain ⟨hsound, hb, hreads, hearly⟩ := @sound_of_neutral s q hq
  refine h.move horderly hi hthreads hfields hsound (h.tidy.move hi hp hb ?_) ?_ fun _ => hstored
  · simp [hreads]
  · simp [hearly]

variable {r : Place}

theorem Sound.of_result (h : r.Sound s) (hnone : s.result = none) (value : Int) :
    r.Sound { s with result := some value } := by
  cases r <;> simp only [Place.Sound, hnone, reduceCtorEq, and_false] at h ⊢
  exact h

theorem Sound.of_setCallback (h : r.Sound s) (hr : r.reads = false) (hb : r.between = false)
    (f : Option Nat) (d : Nat) :
    r.Sound { s with callback := f, registered := s.registered ++ [⟨f, d⟩] } := by
  cases r with
  | setData _ _ => cases hb
  | claimed _ | gotCallback _ _ | gotData _ _ => cases hr
  | call e g x => exact ⟨h.1, mem_append_left _ h.2.1, h.2.2⟩
  | _ => exact h

theorem Sound.of_setData (h : r.Sound s) (hr : r.reads = false) (d : Nat) :
    r.Sound { s with callbackData := d } := by
  cases r with
  | gotData _ _ => cases hr
  | _ => exact h

section

variable (h : Paired s)
include h

theorem Paired.read (hi : s.threads[i]? = some p) (hp : p.reads = true) :
    ⟨s.callback, s.callbackData⟩ ∈ s.registered := by
  grind

theorem Paired.runCommand (hi : s.threads[0]? = some .runCommand) {value : Int}
    (ho : Orderly ({ s with result := some value }.goto 0 (.doneLock value))) :
    Paired ({ s with result := some value }.goto 0 (.doneLock value)) := by
  have hnone := h.early .runCommand hi rfl
  have hsound : ∀ r ∈ s.threads, r.Sound { s with result := some value } :=
    fun r hr => Sound.of_result (h.sound r hr) hnone value
  refine ⟨ho, forall_mem_set hsound rfl, h.tidy.move hi rfl rfl id, ?_, ?_, ?_⟩ <;>
    grind [State.goto, Place.early, Place.stored]

theorem Paired.setCallback {f : Option Nat} {d : Nat} (hi : s.threads[i]? = some (.setCallback f d))
    (hunread : ∀ p ∈ s.threads, p.reads = false)
    (ho : Orderly
      ({ s with callback := f, registered := s.registered ++ [Registration.mk f d] }.goto i
      (.setData f d))) :
    Paired ({ s with callback := f, registered := s.registered ++ [Registration.mk f d] }.goto i
      (.setData f d)) := by
  have hne := h.orderly.ne_zero hi rfl
  have hquiet := between_set h.orderly hi rfl (q := .setCallback f d) rfl
  rw [set_eq_self hi] at hquiet
  have hsound : ∀ r ∈ s.threads,
    r.Sound { s with callback := f, registered := s.registered ++ [⟨f, d⟩] } :=
    fun r hr => Sound.of_setCallback (h.sound r hr) (hunread r hr) (hquiet r hr) f d
  refine ⟨ho, forall_mem_set hsound ⟨rfl, mem_append_right _ (mem_singleton_self _)⟩,
    .inr ⟨⟨_, mem_set_self hi _, rfl⟩, forall_mem_set hunread rfl⟩, ?_, ?_, ?_⟩ <;>
    grind [State.goto]

theorem Paired.setData {f : Option Nat} {d : Nat} (hi : s.threads[i]? = some (.setData f d))
    (ho : Orderly ({ s with callbackData := d }.goto i (.setTest f))) :
    Paired ({ s with callbackData := d }.goto i (.setTest f)) := by
  have hne := h.orderly.ne_zero hi rfl
  have hmem := mem_of_getElem? hi
  have hunread : ∀ p ∈ s.threads, p.reads = false := by grind [Place.between]
  obtain ⟨rfl, hreg⟩ := h.sound (.setData f d) hmem
  have hquiet := between_set h.orderly hi rfl (q := .setTest s.callback) rfl
  refine ⟨ho, forall_mem_set (fun r hr => Sound.of_setData (h.sound r hr) (hunread r hr) d) trivial,
    .inl ⟨hquiet, hreg⟩, ?_, ?_, h.invocations⟩ <;> grind [State.goto]

/-- No step tears a pair apart. -/
theorem Paired.advance {o : Outcome} (hi : s.threads[i]? = some p) (hg : InTurn s (.advance i o))
    (ho : Orderly s') (hs : advance s i o p = some s') : Paired s' := by
  have hsound := h.sound p (List.mem_of_getElem? hi)
  cases p <;> simp only [Shared.advance, State.lock] at hs
  case runCommand =>
    cases hs
    obtain rfl := h.orderly.eq_zero hi rfl
    exact h.runCommand hi ho
  case storeExit e =>
    cases hs
    obtain rfl := h.orderly.eq_zero hi rfl
    refine ⟨ho, Threads.forall_mem_set h.sound hsound, h.tidy.move hi rfl rfl id,
      fun w hw hwe => ?_,
      fun _ _ _ => hsound, h.invocations⟩
    cases (Threads.getElem?_set_eq hi _).symm.trans hw
    cases hwe
  case start | publish | doneUnlock | doneLock | cbLock =>
    repeat' split at hs
    all_goals cases hs
    all_goals exact h.move ho hi rfl rfl hsound (h.tidy.move hi rfl rfl id) id id
  case setCallback f d =>
    cases hs
    exact h.setCallback hi (hg.1 f d hi) ho
  case setData f d =>
    cases hs
    exact h.setData hi ho
  case setExit =>
    cases hs
    obtain ⟨w, hw⟩ : ∃ w, s.threads[0]? = some w :=
      ⟨_, List.getElem?_eq_getElem (Nat.zero_lt_of_lt (List.getElem?_eq_some_iff.1 hi).1)⟩
    exact h.move ho hi rfl rfl (h.stored w hw (hg.2 hi w hw)) (h.tidy.move hi rfl rfl id) id id
  case cbTest e =>
    split at hs <;> cases hs
    · next hset =>
      exact h.move ho hi rfl rfl ⟨hset.1, hsound⟩
        (.inl ⟨between_set h.orderly hi rfl rfl, h.registered hi rfl rfl⟩) id id
    · exact h.toNeutral ho hi rfl rfl rfl rfl (by unfold afterCallback; split <;> rfl)
  case claimed e =>
    cases hs
    cases hfirst : o.dataFirst <;> rw [hfirst] at ho <;>
      exact h.move ho hi rfl rfl ⟨hsound.1, rfl, hsound.2⟩ (h.tidy.move hi rfl rfl id) id id
  case gotCallback | gotData =>
    cases hs
    obtain ⟨hsome, rfl, hresult⟩ := hsound
    exact h.move ho hi rfl rfl ⟨hsome, h.read hi rfl, hresult⟩
      (h.tidy.move hi rfl rfl fun hr => by cases hr) id id
  case call e f d =>
    obtain ⟨f, rfl, rfl⟩ := Option.map_eq_some_iff.1 hs
    have hmove : Paired (s.goto i (afterCallback i)) :=
      h.toNeutral ⟨ho.role, ho.owned⟩ hi rfl rfl rfl rfl
        (by unfold afterCallback; split <;> rfl)
    refine { hmove with orderly := ho, invocations := fun v hv => ?_ }
    rcases List.mem_append.1 hv with hv | hv
    · exact h.invocations v hv
    · rw [List.mem_singleton.1 hv]
      exact hsound.2
  all_goals repeat' split at hs
  all_goals cases hs
  all_goals exact h.toNeutral ho hi rfl rfl rfl rfl rfl

theorem Paired.step {l : Label} (hg : InTurn s l) (hs : step s l = some s') : Paired s' := by
  have ho := h.orderly.step hs
  cases l with
  | call i c =>
    simp only [Shared.step] at hs
    split at hs
    · next hi =>
      cases hs
      exact h.toNeutral ho hi rfl rfl rfl rfl (by cases c <;> rfl)
    · cases hs
  | advance i o =>
    obtain ⟨p, hi, hs⟩ := Option.bind_eq_some_iff.1 hs
    exact h.advance hi hg ho hs

end

/--
In every run in which the fields of the callback are stored and read one after the other, and no
exit code is loaded before the worker has stored it, every callback is invoked with its own data and
with the result.
-/
theorem callback_genuine {r : Registration} {timeoutMs : Int} {n : Nat} {labels : List Label}
    (h : Transition.Meets step InTurn (.initial r timeoutMs n) labels) :
    Transition.Always step Genuine (.initial r timeoutMs n) labels :=
  Transition.Always.of_meets (fun s (h : Paired s) => h.genuine) (fun _ _ _ h hs hg => h.step hg hs)
    (.initial r timeoutMs n) h

/-- `n` steps of a thread, with the exit code 3. -/
def steps (n i : Nat) : List Label := List.replicate n (.advance i ⟨5, 3, false⟩)

/--
A caller registers a pair when the worker is done, and invokes it with the exit code of the worker.
-/
theorem callback_genuine_registered :
    ∃ s, Transition.run step (.initial ⟨none, 0⟩ (-1) 1)
        (steps 8 0 ++ [.call 1 (.setCallback (some 2) 20)] ++ steps 10 1) = some s ∧
      s.invocations = [⟨2, 3, 20⟩] ∧ Genuine s := by
  have hmeets : Transition.Meets step InTurn (.initial ⟨none, 0⟩ (-1) 1)
      (steps 8 0 ++ [.call 1 (.setCallback (some 2) 20)] ++ steps 10 1) := by
    repeat
      rintro _ ⟨⟩
      refine ⟨?_, ?_⟩
      · first
        | trivial
        | refine ⟨?_, ?_⟩
          · first
            | rintro f d ⟨⟩; done
            | intro f d _; decide
          · first
            | rintro ⟨⟩; done
            | rintro - w ⟨⟩; rfl
    trivial
  exact ⟨_, rfl, rfl, (callback_genuine hmeets).last rfl⟩

/--
The worker has loaded the function 1, and another pair is registered: it loads the data of the
function 2. If the registration is removed instead, it is about to call a null pointer. When a
caller has given up, the next one registers a function, which is called with the exit code -1, and
the command returns 3 later.
-/
theorem callback_mixed :
    (∃ s, Transition.run step (.initial ⟨some 1, 10⟩ (-1) 1)
        (steps 9 0 ++ [.call 1 (.setCallback (some 2) 20)] ++ steps 3 1 ++ steps 2 0) = some s ∧
      s.registered = [⟨some 1, 10⟩, ⟨some 2, 20⟩] ∧ s.invocations = [⟨1, 3, 20⟩] ∧ ¬Genuine s) ∧
    (∃ s, Transition.run step (.initial ⟨some 1, 10⟩ (-1) 1)
        (steps 8 0 ++ [.call 1 (.setCallback none 0)] ++ steps 3 1 ++ steps 2 0) = some s ∧
      s.threads[0]? = some (.call 3 none 0)) ∧
    ∃ s, Transition.run step (.initial ⟨none, 0⟩ 5 1)
        ([.call 1 .wait] ++ steps 4 1 ++ [.call 1 (.setCallback (some 1) 10)] ++
          steps 10 1 ++ steps 2 0)
        = some s ∧
      s.invocations = [⟨1, -1, 10⟩] ∧ s.result = some 3 := by
  refine ⟨⟨_, rfl, rfl, rfl, fun h => ?_⟩, ⟨_, rfl, rfl⟩, _, rfl, rfl, rfl⟩
  exact absurd (h.invocations _ (mem_singleton_self _)).1 (by decide)

end IosSystem.Async.Shared
