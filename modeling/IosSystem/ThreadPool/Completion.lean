import IosSystem.ThreadPool.References

/-!
# The callback of a work item

`ios_thread_pool_submit_with_callback` stores the callback and its data into an item that a worker
may have already. The worker tests the callback and loads the two when the item is completed. If the
test comes after the first store and the load after the second one (`InTurn`), the callback is
invoked as it was asked for.
-/

namespace IosSystem.ThreadPool.Lifecycle

open List Function Lifecycle.State
open Threads (holders holders_pos)

/-- The invocations that are asked for, when the work function returns `result`. -/
def Completion.calls (c : Completion) (result : Nat) : List Invocation :=
  c.callback.toList.map fun f => ⟨f, result, c.userData⟩

/--
The callback of an item that was returned to the client has been invoked when the worker is through:
once, with what the work function has returned and with the data of the call.
-/
def Delivered (s : State) : Prop :=
  ∀ c ∈ s.handed, 0 < (s.items c).served →
    ∃ result, (s.items c).outcome = some result ∧
      (s.items c).invocations = (s.items c).wanted.calls result

def Place.storesCallback : Place → Option Nat
  | .storeCallback item _ => some item
  | _ => none

/--
The worker tests the callback after it has been stored, and loads the data after they have been
stored.
-/
def InTurn (s : State) : Label → Prop
  | .advance i _ =>
    match s.threads[i]? with
    | some (.test item _) => ∀ p ∈ s.threads, p.storesCallback ≠ some item
    | some (.load item _) => ∀ p ∈ s.threads, p.stores ≠ some item
    | _ => True
  | _ => True

instance (s : State) (l : Label) : Decidable (InTurn s l) := by
  unfold InTurn
  split
  · split <;> infer_instance
  · infer_instance

/-! ## What a thread relies on -/

def Place.Fits (items : Nat → Item) : Place → Prop
  | .enqueue item _ k => (items item).wanted = k.completion
  | .storeCallback item c => (items item).wanted = c
  | .storeUserData item c => (items item).wanted = c ∧ (items item).callback = c.callback
  | .ran item result | .complete item result => (items item).outcome = some result
  | .test item result => (items item).outcome = some result ∧ (items item).state = .completed
  | .load item result =>
    (items item).outcome = some result ∧ (items item).state = .completed ∧
      (items item).callback = (items item).wanted.callback
  | .invoke item call =>
    (items item).state = .completed ∧
      ∃ result, (items item).outcome = some result ∧ (items item).wanted.calls result = [call]
  | _ => True

/-- What is stored in the item fits what was asked for. -/
structure Item.Sound (x : Item) : Prop where
  callback : x.callback = none ∨ x.callback = x.wanted.callback
  userData : x.userData = none ∨ x.userData = x.wanted.userData
  unserved : x.served = 0 → x.invocations = []
  served : 0 < x.served →
    x.state = .completed ∧ ∃ result, x.outcome = some result ∧ x.invocations = x.wanted.calls result

def Item.Stored (x : Item) : Prop := x.callback = x.wanted.callback ∧ x.userData = x.wanted.userData

/-- Each item is sound, and so is what the threads know of it. -/
structure Sound (s : State) : Prop where
  accounts : Accounts s
  fits : ∀ p ∈ s.threads, p.Fits s.items
  items : ∀ c, (s.items c).Sound
  handed : ∀ c ∈ s.handed, (s.items c).Stored

theorem Sound.delivered {s : State} (h : Sound s) : Delivered s :=
  fun c _ hserved => ((h.items c).served hserved).2

/-! ## Changes of an item -/

structure Item.Later (x x' : Item) : Prop where
  wanted : x'.wanted = x.wanted
  callback : x.callback = x.wanted.callback → x'.callback = x.wanted.callback
  userData : x.userData = x.wanted.userData → x'.userData = x.wanted.userData

structure Item.Lasts (x x' : Item) : Prop where
  outcome : ∀ result, x.outcome = some result → x'.outcome = some result
  state : x.state = .completed → x'.state = .completed

variable {s s' : State} {i : Nat} {p q : Place} {items items' : Nat → Item}

def Place.handles (p : Place) (c : Nat) : Prop := p.submits = some c ∨ p.stores = some c ∨
    p.carries = some c

theorem Place.Fits.mono (h : p.Fits items) (hlater : ∀ c, p.handles c → (items c).Later (items' c))
    (hlasts : ∀ c, p.carries = some c → (items c).Lasts (items' c)) : p.Fits items' := by
  cases p with
  | enqueue item _ k => exact (hlater item (.inl rfl)).wanted.trans h
  | storeCallback item c => exact (hlater item (.inr (.inl rfl))).wanted.trans h
  | storeUserData item c =>
    obtain ⟨rfl, hcallback⟩ := h
    have hitem := hlater item (.inr (.inl rfl))
    exact ⟨hitem.wanted, hitem.callback hcallback⟩
  | ran item r | complete item r => exact (hlasts item rfl).outcome r h
  | test item r => exact ⟨(hlasts item rfl).outcome r h.1, (hlasts item rfl).state h.2⟩
  | load item r =>
    have hitem := hlater item (.inr (.inr rfl))
    exact ⟨(hlasts item rfl).outcome r h.1, (hlasts item rfl).state h.2.1,
      hitem.wanted ▸ hitem.callback h.2.2⟩
  | invoke item call =>
    obtain ⟨hstate, r, hr, hcalls⟩ := h
    refine ⟨(hlasts item rfl).state hstate, r, (hlasts item rfl).outcome r hr, ?_⟩
    rwa [(hlater item (.inr (.inr rfl))).wanted]
  | _ => trivial

theorem Item.Later.stored {x x' : Item} (h : x.Later x') (hx : x.Stored) : x'.Stored := by
  unfold Item.Stored
  rw [h.wanted]
  exact ⟨h.callback hx.1, h.userData hx.2⟩

theorem Account.carried {c : Nat} (h : Account s c) (hi : s.threads[i]? = some p)
    (hp : p.carries = some c) :
    holders Place.carries s.threads c = 1 ∧ (s.items c).served = 0 ∧
      (c ∈ s.handed ∨ ∃ r ∈ s.threads, r.stores = some c) := by
  have hpos := holders_pos hi hp
  have honce := h.once
  have haccepted := h.accepted
  refine ⟨by omega, by omega, ?_⟩
  by_cases hc : c ∈ s.handed
  · exact .inl hc
  · rw [count_eq_zero_of_not_mem hc] at haccepted
    have hstores : 0 < holders Place.stores s.threads c := by omega
    obtain ⟨r, hr, hf⟩ := countP_pos_iff.1 hstores
    exact .inr ⟨r, hr, of_decide_eq_true hf⟩

variable {item : Nat}

section

variable (h : Sound s) (ha : Accounts s') (hi : s.threads[i]? = some p)
  (hthreads : s'.threads = s.threads.set i q)
include h ha hi hthreads

theorem Sound.change {x : Item} (hitems : s'.items = Function.update s.items item x)
    (hq : q.Fits s'.items) (hx : x.Sound) (hlater : (s.items item).Later x)
    (hlasts : (s.items item).Lasts x ∨ p.carries = some item)
    (hhanded : ∀ c ∈ s'.handed, c ∈ s.handed ∨ c = item ∧ x.Stored) : Sound s' := by
  have hall : ∀ c, (s.items c).Later (s'.items c) := by
    intro c
    rw [hitems, update_apply]
    split
    · next hc => exact hc ▸ hlater
    · exact ⟨rfl, id, id⟩
  refine ⟨ha, ?_, fun c => ?_, fun c hc => ?_⟩
  · rw [hthreads]
    intro r hr
    have hr' : r = q ∨ r ∈ s.threads ∧ (r.carries = some item → (s.items item).Lasts x) := by
      rcases hlasts with hlasts | hp
      · exact (mem_or_eq_of_mem_set hr).symm.imp_right fun hr => ⟨hr, fun _ => hlasts⟩
      · exact (Threads.eq_or_not_holder hi hp ((h.accounts.account item).carried hi hp).1
          hr).imp_right
          fun hr => ⟨hr.1, fun hc => absurd hc hr.2⟩
    rcases hr' with rfl | ⟨hr, hrest⟩
    · exact hq
    refine (h.fits r hr).mono (fun c _ => hall c) fun c hc => ?_
    rw [hitems, update_apply]
    split
    · next hci => exact hci ▸ hrest (hci ▸ hc)
    · exact ⟨fun _ => id, id⟩
  · rw [hitems, update_apply]
    split
    · exact hx
    · exact h.items c
  · rcases hhanded c hc with hc | ⟨rfl, hstored⟩
    · exact (hall c).stored (h.handed c hc)
    · rw [hitems, update_self]
      exact hstored

theorem Sound.quiet (hitems : s'.items = s.items) (hq : q.Fits s.items)
    (hhanded : s'.handed = s.handed) : Sound s' := by
  have hself : s'.items = update s.items 0 (s.items 0) := by
    rw [hitems, update_eq_self]
  exact h.change ha hi hthreads hself (hitems ▸ hq) (h.items 0) ⟨rfl, id, id⟩
    (.inl ⟨fun _ => id, id⟩)
    fun c hc => .inl (hhanded ▸ hc)

theorem Sound.count {refCount : Nat} {freed : Bool}
    (hitems : s'.items = Function.update s.items item
      { s.items item with refCount := refCount, freed := freed })
    (hq : q.Fits s'.items)
    (hhanded : ∀ c ∈ s'.handed, c ∈ s.handed ∨ c = item ∧ (s.items item).Stored) : Sound s' :=
  h.change ha hi hthreads hitems hq { h.items item with } ⟨rfl, id, id⟩
    (.inl ⟨fun _ => id, id⟩) hhanded

end

theorem Sound.work (h : Sound s) (ha : Accounts s') (hi : s.threads[i]? = some p)
    (hp : p.carries = some item) (hthreads : s'.threads = s.threads.set i q) {state : WorkState}
    {outcome : Option Nat}
    (hitems : s'.items = Function.update s.items item
      { s.items item with state := state, outcome := outcome })
    (hq : q.Fits s'.items) (hhanded : s'.handed = s.handed) : Sound s' := by
  have hserved := ((h.accounts.account item).carried hi hp).2.1
  exact h.change ha hi hthreads hitems hq
    { h.items item with served := fun hpos => absurd hserved (Nat.ne_of_gt hpos) }
    ⟨rfl, id, id⟩ (.inr hp)
    fun c hc => .inl (hhanded ▸ hc)

theorem Sound.serve (h : Sound s) (hi : s.threads[i]? = some p) {r : Nat}
    (hp : p.carries = some item) (hstate : (s.items item).state = .completed)
    (hr : (s.items item).outcome = some r) {calls : List Invocation}
    (hcalls : (s.items item).wanted.calls r = calls)
    (ha : Accounts ((s.setItem item { s.items item with
      invocations := (s.items item).invocations ++ calls
      served := (s.items item).served + 1 }).goto i (.release item true))) :
    Sound ((s.setItem item { s.items item with
      invocations := (s.items item).invocations ++ calls
      served := (s.items item).served + 1 }).goto i (.release item true)) := by
  have hserved := ((h.accounts.account item).carried hi hp).2.1
  refine h.change ha hi rfl rfl trivial { h.items item with
    unserved := fun h0 => absurd h0 (Nat.succ_ne_zero _)
    served := fun _ => ⟨hstate, r, hr, ?_⟩ } ⟨rfl, id, id⟩ (.inr hp) fun _ => .inl
  rw [(h.items item).unserved hserved, nil_append, hcalls]

theorem Account.lt_of_handles {c : Nat} (h : Account s c) (hp : p ∈ s.threads) (hc : p.handles c) :
    c < s.created := by
  obtain ⟨i, hi⟩ := mem_iff_getElem?.1 hp
  have hknown := h.known
  unfold owners at hknown
  rcases hc with hc | hc | hc <;>
  · have := holders_pos hi hc
    omega

theorem Sound.create (h : Sound s) {pr : Priority} {k : Submission}
    (ha : Accounts
      ({ s.setItem s.created (Item.create k.completion) with created := s.created + 1 }.goto i
      (.enqueue s.created pr k))) :
    Sound ({ s.setItem s.created (Item.create k.completion) with created := s.created + 1 }.goto i
      (.enqueue s.created pr k)) := by
  have hold : ∀ c < s.created,
    (s.setItem s.created (Item.create k.completion)).items c = s.items c :=
    fun c hc => update_of_ne (Nat.ne_of_lt hc) ..
  refine ⟨ha, Threads.forall_mem_set (fun r hr => ?_) ?_, fun c => ?_, fun c hc => ?_⟩
  · have hlt : ∀ c, r.handles c → c < s.created := fun c => (h.accounts.account c).lt_of_handles hr
    refine (h.fits r hr).mono (fun c hc => ?_) fun c hc => ?_
    · exact (hold c (hlt c hc)).symm ▸ ⟨rfl, id, id⟩
    · exact (hold c (hlt c (.inr (.inr hc)))).symm ▸ ⟨fun _ => id, id⟩
  · simp [Place.Fits, goto, setItem, Item.create]
  · show ((s.setItem _ _).items c).Sound
    by_cases hc : c = s.created
    · rw [hc, setItem]
      simp only [update_self]
      exact ⟨.inl rfl, .inl rfl, fun _ => rfl, fun h0 => absurd h0 (Nat.lt_irrefl 0)⟩
    · simpa [setItem, update_of_ne hc] using h.items c
  · have hknown := (h.accounts.account c).known
    have hpos := count_pos_iff.2 hc
    have hlt : c < s.created := hknown.resolve_right fun h0 => Nat.ne_of_gt hpos h0.2
    exact (hold c hlt).symm ▸ h.handed c hc

theorem Sound.callback_eq (h : Sound s) (hi : s.threads[i]? = some p) (hp : p.carries = some item)
    (hturn : ∀ r ∈ s.threads, r.storesCallback ≠ some item) :
    (s.items item).callback = (s.items item).wanted.callback := by
  obtain ⟨-, -, hc | ⟨r, hr, hstores⟩⟩ := (h.accounts.account item).carried hi hp
  · exact (h.handed item hc).1
  · have hfits := h.fits r hr
    cases r with
    | storeCallback c' d =>
      exact absurd hstores (hturn _ hr)
    | storeUserData c' d =>
      cases hstores
      rw [hfits.1, hfits.2]
    | _ => cases hstores

/-- A step of a worker, or inside of a call. -/
theorem Sound.advance (h : Sound s) {o : Outcome} (hi : s.threads[i]? = some p) (ha : Accounts s')
    (hturn : InTurn s (.advance i o)) (hs : advance s i o p = some s') : Sound s' := by
  have hfits := h.fits p (mem_of_getElem? hi)
  cases p <;> simp only [Lifecycle.advance, reduceCtorEq] at hs
  case ran =>
    cases hs
    exact h.quiet ha hi rfl rfl hfits rfl
  case execute =>
    cases hs
    exact h.work ha hi rfl rfl rfl trivial rfl
  case run =>
    cases hs
    exact h.work ha hi rfl rfl rfl (by simp [Place.Fits, goto, setItem]) rfl
  case complete =>
    cases hs
    exact h.work ha hi rfl rfl rfl (by simpa [Place.Fits, goto, setItem] using hfits) rfl
  case test item r =>
    simp only [InTurn, hi] at hturn
    have hcallback := h.callback_eq hi rfl hturn
    split at hs <;> cases hs
    · exact h.quiet ha hi rfl rfl ⟨hfits.1, hfits.2, hcallback⟩ rfl
    · next hnone =>
      have hcalls : (s.items item).wanted.calls r = [] := by
        rw [Option.not_isSome_iff_eq_none, hcallback] at hnone
        simp [Completion.calls, hnone]
      simpa using h.serve hi rfl hfits.2 hfits.1 hcalls (by simpa using ha)
  case load item r =>
    obtain ⟨f, hf, rfl⟩ := Option.map_eq_some_iff.1 hs
    refine h.quiet ha hi rfl rfl ⟨hfits.2.1, r, hfits.1, ?_⟩ rfl
    obtain ⟨-, -, hc | ⟨r, hr, hstores⟩⟩ := (h.accounts.account item).carried hi rfl
    · rw [Completion.calls, ← hfits.2.2, hf, (h.handed item hc).2]
      rfl
    · simp only [InTurn, hi] at hturn
      exact absurd hstores (hturn r hr)
  case invoke =>
    cases hs
    obtain ⟨hstate, r, hr, hcalls⟩ := hfits
    exact h.serve hi rfl hstate hr hcalls ha
  case create =>
    split at hs <;> cases hs
    · exact h.create ha
    · exact h.quiet ha hi rfl rfl trivial rfl
  case enqueue item pr k =>
    split at hs
    · cases hs
      exact h.quiet ha hi rfl rfl trivial rfl
    split at hs
    · cases hs
      refine h.quiet ha hi rfl rfl ?_ rfl
      cases k.blocking
      · trivial
      · exact hfits
    · have hstored : k.completion = ⟨none, none⟩ → (s.items item).Stored := by
        intro hk
        have hwanted : (s.items item).wanted = ⟨none, none⟩ := hk ▸ hfits
        have hitem := h.items item
        unfold Item.Stored
        rw [hwanted]
        exact ⟨by simpa [hwanted] using hitem.callback, by simpa [hwanted] using hitem.userData⟩
      split at hs <;> cases hs
      · refine h.count ha hi rfl rfl ?_ fun _ => .inl
        simpa [Place.Fits, goto, setItem, Submission.completion] using hfits
      all_goals
        refine h.count ha hi rfl rfl trivial fun c hc => ?_
        exact (mem_cons.1 hc).symm.imp_right fun hc => ⟨hc, hstored rfl⟩
  case storeCallback =>
    cases hs
    refine h.change ha hi rfl rfl ?_ { h.items _ with callback := .inr ?_ } ⟨rfl, fun _ => ?_, id⟩
      (.inl ⟨fun _ => id, id⟩) fun _ => .inl
    · simpa [Place.Fits, goto, setItem] using hfits
    all_goals rw [hfits]
  case storeUserData =>
    cases hs
    obtain ⟨hwanted, hcallback⟩ := hfits
    refine h.change ha hi rfl rfl trivial { h.items _ with userData := .inr ?_ }
      ⟨rfl, id, fun _ => ?_⟩
      (.inl ⟨fun _ => id, id⟩) fun d hd => (mem_cons.1 hd).symm.imp_right fun hd => ⟨hd, ?_⟩
    · rw [hwanted]
    · rw [hwanted]
    · exact ⟨by rw [hwanted]; exact hcallback, by rw [hwanted]⟩
  case cancel =>
    split at hs <;> cases hs
    · next hpending =>
      refine h.change ha hi rfl rfl trivial { h.items _ with served := fun hpos => ?_ }
        ⟨rfl, id, id⟩
        (.inl ⟨fun _ => id, fun hstate => ?_⟩) fun _ => .inl
      · cases hpending.symm.trans ((h.items _).served hpos).1
      · cases hpending.symm.trans hstate
    · exact h.quiet ha hi rfl rfl trivial rfl
  case release item w | free item w =>
    cases hs
    refine h.count ha hi rfl rfl ?_ fun _ => .inl
    cases w <;> repeat' first | split | trivial
  -- the other places do not touch the items
  all_goals repeat' split at hs
  all_goals
    cases hs
    exact h.quiet ha hi rfl rfl trivial rfl

theorem Sound.step (h : Sound s) {l : Label} (hs : step s l = some s') (hturn : InTurn s l) :
    Sound s' := by
  have ha := h.accounts.step hs
  cases l with
  | call i c =>
    simp only [Lifecycle.step] at hs
    split at hs
    · next hi =>
      cases c with
      | submit _ _ | drain =>
        cases hs
        exact h.quiet ha hi rfl rfl trivial rfl
      | wait item | isComplete item | cancel item | release item =>
        simp only [start] at hs
        split at hs <;> cases hs
        exact h.quiet ha hi rfl rfl trivial rfl
    · cases hs
  | advance i o =>
    obtain ⟨p, hi, hs⟩ := Option.bind_eq_some_iff.1 hs
    exact h.advance hi ha hturn hs
  | workComplete i =>
    simp only [Lifecycle.step] at hs
    split at hs
    · next item hi =>
      split at hs <;> cases hs
      · exact h.work ha hi rfl rfl rfl trivial rfl
      · exact h.quiet ha hi rfl rfl trivial rfl
    · cases hs
  | shutdown =>
    cases hs
    exact ⟨ha, h.fits, h.items, h.handed⟩

theorem Sound.initial (numThreads maxQueueSize n : Nat) :
    Sound (.initial numThreads maxQueueSize n) := by
  refine ⟨.initial .., fun p hp => ?_, fun c => ?_, fun c hc => (by cases hc)⟩
  · rcases mem_initial hp with rfl | rfl <;> trivial
  · exact ⟨.inl rfl, .inl rfl, fun _ => rfl, fun h0 => absurd h0 (Nat.lt_irrefl 0)⟩

/-- If the workers come to the callback in turn, it is never missed. -/
theorem callback_delivered {numThreads maxQueueSize n : Nat} {labels : List Label}
    (h : Transition.Meets step InTurn (.initial numThreads maxQueueSize n) labels) :
    Transition.Always step Delivered (.initial numThreads maxQueueSize n) labels :=
  Transition.Always.of_meets (fun _ => Sound.delivered) (fun _ _ _ h hs => h.step hs)
    (.initial ..) h

/-- `n` steps of a thread; the work function returns 5. -/
def steps (n i : Nat) : List Label := List.replicate n (.advance i ⟨true, 5⟩)

/-- The call returns before a worker takes the item. -/
theorem callback_delivered_late :
    ∃ s, Transition.run step (.initial 1 8 1)
        ([.call 1 (.submit .normal (.withCallback ⟨some 1, some 2⟩))] ++ steps 5 1 ++ steps 9 0) =
        some s ∧
      (s.items 0).invocations = [⟨1, 5, some 2⟩] ∧ Delivered s := by
  have hmeets : Transition.Meets step InTurn (.initial 1 8 1)
      ([.call 1 (.submit .normal (.withCallback ⟨some 1, some 2⟩))] ++ steps 5 1 ++ steps 9 0) := by
    repeat
      rintro _ ⟨⟩
      refine ⟨by decide, ?_⟩
    trivial
  exact ⟨_, rfl, rfl, (callback_delivered hmeets).last rfl⟩

/--
The worker is faster than the call. In the first run it tests the callback before it is stored, and
does not invoke it. In the second one it finds the callback, and loads the data before they are
stored.
-/
theorem callback_missed :
    (∃ s, Transition.run step (.initial 1 8 1)
        ([.call 1 (.submit .normal (.withCallback ⟨some 1, some 2⟩))] ++ steps 3 1 ++
          steps 7 0 ++ steps 2 1)
        = some s ∧
      s.handed = [0] ∧ (s.items 0).served = 1 ∧ (s.items 0).invocations = [] ∧ ¬Delivered s) ∧
    ∃ s, Transition.run step (.initial 1 8 1)
        ([.call 1 (.submit .normal (.withCallback ⟨some 1, some 2⟩))] ++ steps 4 1 ++
          steps 9 0 ++ steps 1 1)
        = some s ∧
      s.handed = [0] ∧ (s.items 0).served = 1 ∧ (s.items 0).invocations = [⟨1, 5, none⟩] ∧
      ¬Delivered s := by
  refine ⟨⟨_, rfl, rfl, rfl, rfl, fun h => ?_⟩, _, rfl, rfl, rfl, rfl, fun h => ?_⟩
  all_goals
    obtain ⟨r, hr, hcalls⟩ := h 0 (mem_singleton_self 0) Nat.one_pos
    cases hr
    cases hcalls

end IosSystem.ThreadPool.Lifecycle
