import IosSystem.Lib.Threads
import IosSystem.Session.Commands

/-!
# A running command keeps its session alive

The session of a command is alive as long as the thread that dispatched the command has a reference
to it. That thread may be a command itself, without a reference of its own, and then its own
dispatcher has to keep the session: `Held` follows this chain to a thread with a reference.
-/

namespace IosSystem

open Threads

namespace Session.Commands

open List Option Thread

/-! ## Who keeps a session alive -/

/--
The thread that dispatched command `k` has a reference to `o`, or is itself a command kept in `o`.
-/
inductive Held (threads : List Thread) (o : Nat) : Nat → Prop
  | ref {k i : Nat} {c t : Thread} {r : Ref} : threads[k]? = some c → c.dispatcher = some i →
      threads[i]? = some t → t.currentSessionRef = some r → r.session = o → Held threads o k
  | command {k i : Nat} {c t : Thread} : threads[k]? = some c → c.dispatcher = some i →
      threads[i]? = some t → t.running = true → t.params = some o → Held threads o i →
      Held threads o k

variable {k i : Nat} {a b t : Thread} {s s' : State} {threads : List Thread} {o : Nat}

theorem Held.exists_ref (h : Held threads o k) :
    ∃ t ∈ threads, ∃ r ∈ t.currentSessionRef, r.session = o := by
  induction h with
  | ref _ _ ht hr ho => exact ⟨_, mem_of_getElem? ht, _, hr, ho⟩
  | command _ _ _ _ _ _ ih => exact ih

variable {j : Nat}

/--
Thread `j` goes from `a` to `b`. A running command is still held if `j` gives up nothing that a
command it dispatched needs.
-/
theorem Held.set (hj : threads[j]? = some a)
    (hdispatcher : ∀ i, a.dispatcher = some i → b.dispatcher = some i)
    (href : ∀ r, a.currentSessionRef = some r →
      b.currentSessionRef = some r ∨ Settled threads j r.session)
    (hparams : ∀ o, a.running = true → a.params = some o →
      (b.running = true ∧ b.params = some o) ∨ Settled threads j o) (h : Held threads o k)
    {c : Thread} (hk : threads[k]? = some c) (hc : c.running = true) (ho : c.params = some o) :
    Held (threads.set j b) o k := by
  -- the command keeps its dispatcher
  have hset : ∀ {k i : Nat} {c : Thread}, threads[k]? = some c → c.dispatcher = some i →
      ∃ c', (threads.set j b)[k]? = some c' ∧ c'.dispatcher = some i := by
    intro k i c hk hd
    by_cases hkj : k = j
    · subst hkj
      cases hj.symm.trans hk
      exact ⟨b, getElem?_set_eq hj b, hdispatcher i hd⟩
    · exact ⟨c, getElem?_set_of_ne hkj hk b, hd⟩
  induction h generalizing c with
  | @ref k i c' t r hk' hd ht hr hro =>
    cases hk.symm.trans hk'
    obtain ⟨c'', hc'', hd''⟩ := hset hk hd
    by_cases hij : i = j
    · subst hij
      cases hj.symm.trans ht
      rcases href r hr with hb | hs
      · exact .ref hc'' hd'' (getElem?_set_eq hj b) hb hro
      · exact absurd (hro ▸ ho) (hs c' (mem_of_getElem? hk) hc hd)
    · exact .ref hc'' hd'' (getElem?_set_of_ne hij ht b) hr hro
  | @command k i c' t hk' hd ht hrun hpar _ ih =>
    cases hk.symm.trans hk'
    obtain ⟨c'', hc'', hd''⟩ := hset hk hd
    have hi := ih ht hrun hpar
    by_cases hij : i = j
    · subst hij
      cases hj.symm.trans ht
      rcases hparams o hrun hpar with ⟨hb, hbo⟩ | hs
      · exact .command hc'' hd'' (getElem?_set_eq hj b) hb hbo hi
      · exact absurd ho (hs c' (mem_of_getElem? hk) hc hd)
    · exact .command hc'' hd'' (getElem?_set_of_ne hij ht b) hrun hpar hi

/-! ## The invariant -/

/-- What the references of a thread cover. -/
structure Thread.Ok (t : Thread) : Prop where
  /-- without a reference, the current session is that of the command -/
  current : ∀ o, t.currentSession = some o → t.currentSessionRef = none → t.params = some o
  ref : ∀ r, t.currentSessionRef = some r → t.currentSession = some r.session
  obtaining : ∀ sessionId, t.place = .obtaining sessionId → t.currentSessionRef = none
  opening : t.place = .opening → t.currentSessionRef = none
  starting : t.place = .starting → t.currentSessionRef = none
  unborn : t.place = .unborn → t = .unborn

/-- The threads own their references, and somebody holds the session of a running command. -/
structure Inv (s : State) : Prop where
  manager : Threads.GuardedReachable s.manager
  owned : ∀ r, Threads.holders (·.currentSessionRef) s.threads r ≤ s.manager.refs.count r
  ok : ∀ t ∈ s.threads, t.Ok
  held : ∀ k c o, s.threads[k]? = some c → c.running = true → c.params = some o → Held s.threads o k

theorem Inv.initial (h : Initial s) : Inv s := by
  refine ⟨.start ⟨_, h.1⟩, ?_, ?_, ?_⟩
  · intro r
    have hnone : holders (·.currentSessionRef) s.threads r = 0 := by
      refine countP_eq_zero.mpr fun t ht => ?_
      rcases h.2 t ht with rfl | rfl <;> simp [application, unborn]
    omega
  · intro t ht
    rcases h.2 t ht with rfl | rfl <;> constructor <;> simp [application, unborn]
  · intro k c o hk hc
    rcases h.2 c (mem_of_getElem? hk) with rfl | rfl <;> cases hc

theorem Inv.ref_alive (h : Inv s) (ht : t ∈ s.threads) {r : Ref}
    (hr : t.currentSessionRef = some r) : (s.manager.table.sessions r.session).frees = 0 := by
  have hpos : 0 < holders (·.currentSessionRef) s.threads r :=
    countP_pos_iff.mpr ⟨t, ht, by simpa using hr⟩
  have hmem : r ∈ s.manager.refs := count_pos_iff.mp (by have := h.owned r; omega)
  exact h.manager.inv.safe.1 r hmem

theorem Inv.keptAlive (h : Inv s) : KeptAlive s := by
  have hparams : ∀ t ∈ s.threads, t.running = true → ∀ o, t.params = some o →
      (s.manager.table.sessions o).frees = 0 := by
    intro t ht hrun o ho
    obtain ⟨k, hk⟩ := mem_iff_getElem?.1 ht
    obtain ⟨t', ht', r, hr, rfl⟩ := (h.held k t o hk hrun ho).exists_ref
    exact h.ref_alive ht' hr
  intro t ht hrun
  refine ⟨fun o ho => hparams t ht hrun o ho, fun o ho => ?_⟩
  cases hr : t.currentSessionRef with
  | none => exact hparams t ht hrun o ((h.ok t ht).current o ho hr)
  | some r =>
    have hcur : t.currentSession = some r.session := (h.ok t ht).ref r hr
    cases ho.symm.trans hcur
    exact h.ref_alive ht hr

variable {m : Threads.State}

/--
A step of thread `j` from `a` to `b`, with a step of the session manager or without one. What `a`
gives up, no command that it dispatched needs.
-/
theorem Inv.set (h : Inv s) (hj : s.threads[j]? = some a) (hm : Threads.GuardedReachable m)
    (howned : ∀ r, holders (·.currentSessionRef) (s.threads.set j b) r ≤ m.refs.count r) (hb : b.Ok)
    (hdispatcher : b.dispatcher = a.dispatcher) (hparams : b.params = a.params)
    (href : ∀ r, a.currentSessionRef = some r →
      b.currentSessionRef = some r ∨ Settled s.threads j r.session)
    (hrun : b.running = a.running ∨ b.running = false ∧ ∀ o ∈ a.params, Settled s.threads j o) :
    Inv { s.goto j b with manager := m } := by
  have hkeep : ∀ o, a.running = true → a.params = some o →
      (b.running = true ∧ b.params = some o) ∨ Settled s.threads j o := by
    intro o ha ho
    rcases hrun with hb | ⟨_, hs⟩
    · exact .inl ⟨hb.trans ha, hparams.trans ho⟩
    · exact .inr (hs o ho)
  have hheld : ∀ k c o, s.threads[k]? = some c → c.running = true → c.params = some o →
      Held (s.threads.set j b) o k := fun k c o hk hc ho =>
    (h.held k c o hk hc ho).set hj (fun i hi => hdispatcher.trans hi) href hkeep hk hc ho
  refine ⟨hm, howned, forall_mem_set h.ok hb, ?_⟩
  intro k c o hk hc ho
  rcases getElem?_set_cases hk with ⟨rfl, rfl⟩ | ⟨_, hk⟩
  · rcases hrun with hb | ⟨hb, _⟩
    · exact hheld k a o hj (hb.symm.trans hc) (hparams.symm.trans ho)
    · rw [hb] at hc
      cases hc
  · exact hheld k c o hk hc ho

theorem Inv.move (h : Inv s) (hj : s.threads[j]? = some a) (hm : Threads.GuardedReachable m)
    (hrefs : m.refs = s.manager.refs) (hb : b.Ok) (hdispatcher : b.dispatcher = a.dispatcher)
    (hparams : b.params = a.params) (href : b.currentSessionRef = a.currentSessionRef)
    (hrun : b.running = a.running ∨ b.running = false ∧ ∀ o ∈ a.params, Settled s.threads j o) :
    Inv { s.goto j b with manager := m } := by
  refine h.set hj hm ?_ hb hdispatcher hparams (fun r hr => .inl (href.trans hr)) hrun
  intro r
  rw [holders_set_of_eq hj href, hrefs]
  exact h.owned r

def Place.plain : Place → Bool
  | .free | .closing _ | .joining _ | .ended => true
  | _ => false

variable {place : Place}

theorem Thread.Ok.goto (h : t.Ok) (hp : place.plain = true) :
    Thread.Ok { t with place := place } := by
  refine ⟨h.current, h.ref, fun sessionId => ?_, ?_, ?_, ?_⟩ <;>
  · rintro rfl
    cases hp

theorem Thread.Ok.goto_of_none (h : t.Ok) (hr : t.currentSessionRef = none) (hp : place ≠ .unborn) :
    Thread.Ok { t with place := place } :=
  ⟨h.current, h.ref, fun _ _ => hr, fun _ => hr, fun _ => hr, fun hu => absurd hu hp⟩

theorem running_of_places (hparams : b.params = a.params) (ha : a.place ≠ .ended)
    (hb : b.place ≠ .ended) : b.running = a.running := by
  simp [running, hparams, ha, hb]

section

variable (h : Inv s) (ht : s.threads[i]? = some t)
include h ht

theorem Inv.ok_at : t.Ok :=
  h.ok t (mem_of_getElem? ht)

theorem Inv.giveBack (hfree : t.place = .free) {ref : Option Ref}
    (hplace : place.plain = true ∨ (∃ sessionId, place = .obtaining sessionId) ∧
      ref = t.currentSessionRef) (hended : place ≠ .ended) (hunborn : place ≠ .unborn)
    (href : ∀ r ∈ ref, t.currentSessionRef = some r ∧ Settled s.threads i r.session)
    (hs : s.giveBack i t place ref = some s') : Inv s' := by
  have hne : t.place ≠ .ended := by simp [hfree]
  cases ref with
  | none =>
    cases hs
    refine h.move ht h.manager rfl ?_ rfl rfl rfl (.inl (running_of_places rfl hne hended))
    rcases hplace with hp | ⟨_, hr⟩
    · exact (h.ok_at ht).goto hp
    · exact (h.ok_at ht).goto_of_none hr.symm hunborn
  | some r =>
    obtain ⟨hr, hsettled⟩ := href r rfl
    obtain ⟨m, hm, rfl⟩ := map_eq_some_iff.mp hs
    obtain ⟨hmem, hrefs⟩ := refs_of_release hm
    refine h.set ht (h.manager.next (a := .release i r) trivial hm) ?_ ?_ rfl rfl ?_
      (.inl (running_of_places rfl hne hended))
    · intro r'
      have hset := holders_set ht (·.currentSessionRef)
        { t with place := place, currentSessionRef := none, currentSession := none } r'
      have howned := h.owned r'
      rw [hrefs, count_erase]
      grind
    · constructor <;> simp [hunborn]
    · intro r' hr'
      cases hr.symm.trans hr'
      exact .inr hsettled

theorem Inv.advance {malloc : Option Nat} (hg : Threads.Guard s.manager (.advance i malloc))
    (hm : Threads.step s.manager (.advance i malloc) = some m) : Inv (s.advance i t malloc m) := by
  have hreach : Threads.GuardedReachable m := h.manager.next hg hm
  have hrefs := refs_of_advance hm
  have hle : ∀ r, s.manager.refs.count r ≤ m.refs.count r := fun r => by
    rw [hrefs, count_append]
    omega
  -- no reference comes to the thread
  have hsame : ∀ b : Thread, b.currentSessionRef = t.currentSessionRef → ∀ r,
      holders (·.currentSessionRef) (s.threads.set i b) r ≤ m.refs.count r := by
    intro b hb r
    rw [holders_set_of_eq ht hb]
    exact (h.owned r).trans (hle r)
  unfold State.advance
  split
  · next hopen =>
    have hnone := (h.ok_at ht).opening hopen.1
    have hne : t.place ≠ .ended := by simp [hopen.1]
    cases hacq : (s.manager.threads[i]?).bind (acquired s.manager malloc) with
    | none =>
      refine h.set ht hreach (hsame _ rfl) ((h.ok_at ht).goto rfl) rfl rfl (fun r hr => .inl hr)
        (.inl (running_of_places rfl hne ?_))
      simp [resume]
    | some ref =>
      refine h.set ht hreach ?_ ?_ rfl rfl (fun r hr => absurd hr (by simp [hnone]))
        (.inl (running_of_places rfl hne (by simp [resume])))
      · intro r
        have hset := holders_set ht (·.currentSessionRef) (t.resume (some ref)) r
        have howned := h.owned r
        rw [hrefs, hacq, toList_some, count_append, count_singleton]
        simp only [resume] at hset ⊢
        grind
      · constructor <;> simp [resume]
  · exact h.set ht hreach (hsame t rfl) (h.ok_at ht) rfl rfl (fun r hr => .inl hr) (.inl rfl)

end

theorem ready_eq_some (h : s.ready i = some t) : s.threads[i]? = some t ∧ t.place = .free := by
  unfold State.ready at h
  split at h
  · obtain ⟨ht, hplace⟩ := filter_eq_some_iff.mp h
    exact ⟨ht, by simpa using hplace⟩
  · cases h

theorem ne_of_unborn (ht : threads[i]? = some t) (hfree : t.place = .free)
    (hk : threads[k]? = some .unborn) : k ≠ i := by
  rintro rfl
  cases hk.symm.trans ht
  cases hfree

section

variable (h : Inv s) (ht : s.threads[i]? = some t)
include h ht

theorem Inv.create (hfree : t.place = .free) (ho : t.currentSession = some o)
    (hk : s.threads[k]? = some .unborn) : Inv (s.goto k (.command o i)) := by
  have hik := ne_of_unborn ht hfree hk
  have hheld : ∀ k' c o', s.threads[k']? = some c → c.running = true → c.params = some o' →
      Held (s.threads.set k (.command o i)) o' k' := fun k' c o' hk' hc ho' =>
    (h.held k' c o' hk' hc ho').set hk (fun _ hd => (by cases hd)) (fun _ hr => (by cases hr))
      (fun _ hrun => (by cases hrun)) hk' hc ho'
  refine ⟨h.manager, fun r => ?_, forall_mem_set h.ok ?_, ?_⟩
  · have hset := holders_set_of_eq (f := currentSessionRef) (b := .command o i) hk rfl r
    exact le_of_eq_of_le hset (h.owned r)
  · constructor <;> simp [command]
  · intro k' c o' hk' hc ho'
    rcases getElem?_set_cases hk' with ⟨rfl, rfl⟩ | ⟨_, hk'⟩
    · cases ho'
      have hnew := getElem?_set_eq hk (.command o i)
      have hi := getElem?_set_of_ne hik.symm ht (.command o i)
      cases hr : t.currentSessionRef with
      | some r =>
        have hcur := (h.ok_at ht).ref r hr
        exact .ref hnew rfl hi hr (some.inj (hcur.symm.trans ho))
      | none =>
        have hparams := (h.ok_at ht).current o ho hr
        have hrun : t.running = true := by simp [running, hparams, hfree]
        exact .command hnew rfl hi hrun hparams (hheld i t o ht hrun hparams)
    · exact hheld k' c o' hk' hc ho'

theorem Inv.dispatch {joinMainThread : Bool} (hfree : t.place = .free)
    (hs : s.dispatch i k joinMainThread t = some s') : Inv s' := by
  obtain ⟨o, ho, hs⟩ := bind_eq_some_iff.mp hs
  split at hs
  · next hk =>
    have hcreate := h.create ht hfree ho hk
    cases hs
    have hik := ne_of_unborn ht hfree hk
    have hi := getElem?_set_of_ne hik.symm ht (.command o i)
    refine hcreate.move hi h.manager rfl ((h.ok_at ht).goto ?_) rfl rfl rfl
      (.inl (running_of_places rfl (by simp [hfree]) ?_))
    · cases joinMainThread <;> rfl
    · cases joinMainThread <;> simp
  · cases hs

theorem Inv.proceed (hs : s.proceed i t t.place = some s') : Inv s' := by
  cases hp : t.place with
  | unborn | free | opening | ended =>
    rw [hp] at hs
    cases hs
  | starting =>
    rw [hp] at hs
    cases hs
    have hnone := (h.ok_at ht).starting hp
    refine h.move ht h.manager rfl ?_ rfl rfl rfl
      (.inl (running_of_places rfl (by simp [hp]) (by simp)))
    constructor <;> simp [hnone]
  | obtaining sessionId =>
    rw [hp] at hs
    obtain ⟨m, hm, rfl⟩ := map_eq_some_iff.mp hs
    have hnone := (h.ok_at ht).obtaining sessionId hp
    exact h.move ht (h.manager.next (a := .getOrCreate i sessionId) trivial hm)
      (refs_of_getOrCreate hm)
      ((h.ok_at ht).goto_of_none hnone (by simp)) rfl rfl rfl
      (.inl (running_of_places rfl (by simp [hp]) (by simp)))
  | closing sessionId =>
    rw [hp] at hs
    obtain ⟨m, hm, rfl⟩ := map_eq_some_iff.mp hs
    exact h.move ht (h.manager.next (a := .delete i sessionId) trivial hm) (refs_of_delete hm)
      ((h.ok_at ht).goto rfl) rfl rfl rfl (.inl (running_of_places rfl (by simp [hp]) (by simp)))
  | joining k =>
    rw [hp] at hs
    simp only [State.proceed] at hs
    split at hs <;> cases hs
    exact h.move ht h.manager rfl ((h.ok_at ht).goto rfl) rfl rfl rfl
      (.inl (running_of_places rfl (by simp [hp]) (by simp)))

end

theorem Inv.step {l : Label} (h : Inv s) (hg : Guard s l)
    (hs : Commands.step s l = some s') : Inv s' := by
  cases l with
  | switch i sessionId =>
    obtain ⟨t, hready, hs⟩ := bind_eq_some_iff.mp hs
    obtain ⟨ht, hfree⟩ := ready_eq_some hready
    split at hs
    · cases hs
      exact h
    · next hinside =>
      have hleaves : s.leaves t sessionId = t.currentSessionRef := if_neg hinside
      refine h.giveBack ht hfree (.inr ⟨⟨sessionId, rfl⟩, hleaves⟩) (by simp) (by simp) ?_ hs
      intro r hr
      exact ⟨hleaves ▸ hr, hg t hready r hr⟩
  | enter i =>
    obtain ⟨t, hready, hs⟩ := bind_eq_some_iff.mp hs
    obtain ⟨ht, hfree⟩ := ready_eq_some hready
    split at hs <;> cases hs
    next hcur =>
      have hnone : t.currentSessionRef = none := by
        by_contra hr
        obtain ⟨r, hr⟩ := ne_none_iff_exists'.1 hr
        rw [(h.ok_at ht).ref r hr] at hcur
        cases hcur
      exact h.move ht h.manager rfl ((h.ok_at ht).goto_of_none hnone (by simp)) rfl rfl rfl
        (.inl (running_of_places rfl (by simp [hfree]) (by simp)))
  | close i sessionId =>
    obtain ⟨t, hready, hs⟩ := bind_eq_some_iff.mp hs
    obtain ⟨ht, hfree⟩ := ready_eq_some hready
    refine h.giveBack ht hfree (.inl rfl) (by simp) (by simp) ?_ hs
    intro r hr
    refine ⟨?_, hg t hready r hr⟩
    unfold State.closes at hr
    split at hr
    · exact hr
    · cases hr
  | advance i malloc =>
    obtain ⟨t, ht, hs⟩ := bind_eq_some_iff.mp hs
    obtain ⟨m, hm, rfl⟩ := map_eq_some_iff.mp hs
    exact h.advance ht hg hm
  | dispatch i k joinMainThread =>
    obtain ⟨t, hready, hs⟩ := bind_eq_some_iff.mp hs
    obtain ⟨ht, hfree⟩ := ready_eq_some hready
    exact h.dispatch ht hfree hs
  | proceed i =>
    obtain ⟨t, ht, hs⟩ := bind_eq_some_iff.mp hs
    exact h.proceed ht hs
  | finish i =>
    obtain ⟨t, hready, hs⟩ := bind_eq_some_iff.mp hs
    obtain ⟨ht, hfree⟩ := ready_eq_some hready
    split at hs <;> cases hs
    exact h.move ht h.manager rfl ((h.ok_at ht).goto rfl) rfl rfl rfl
      (.inr ⟨by simp [running], hg t hready⟩)

/-! ## The sessions of running commands -/

def GuardedReachable (s : State) : Prop := Transition.Reachable step Guard Initial s

theorem GuardedReachable.inv (h : GuardedReachable s) : Inv s :=
  Transition.Reachable.invariant (fun _ => Inv.initial) (fun _ _ _ hi hg hs => hi.step hg hs) h

/-- In a run whose steps all meet `Guard`, a running command's session is alive. -/
theorem session_kept_alive {s : State} (h : GuardedReachable s) : KeptAlive s :=
  h.inv.keptAlive

/-- A command runs in session 7 while another thread closes the session. -/
theorem session_kept_alive_closed :
    ∃ s, GuardedReachable s ∧ (∃ t ∈ s.threads, t.running = true ∧ t.currentSession = some 0) ∧
      (s.manager.table.sessions 0).isDestroying = true ∧ KeptAlive s := by
  have hreach : GuardedReachable _ :=
    .next (a := .advance 2 none) (.next (a := .advance 2 none) (.next (a := .proceed 2)
      (.next (a := .close 2 7) (.next (a := .proceed 1) (.next (a := .dispatch 0 1 false)
        (.next (a := .advance 0 (some 100)) (.next (a := .proceed 0) (.next (a := .switch 0 7)
          (.start (s := ⟨Threads.State.initial 3, [.application, .unborn, .application],
            none, 1, 2⟩)
            ⟨rfl, by simp⟩) (by rintro t ⟨⟩ r ⟨⟩) rfl) trivial rfl) (by trivial) rfl) trivial rfl)
        trivial rfl) (by rintro t ⟨⟩ r ⟨⟩) rfl) trivial rfl)
      (by rintro _ pc (_ | ⟨_, _ | ⟨_, _ | ⟨_, ⟨⟩⟩⟩⟩) <;> rfl) rfl) (by trivial) rfl
  exact ⟨_, hreach, ⟨_, .tail _ (.head _), rfl, rfl⟩, rfl, session_kept_alive hreach⟩

/--
Without `joinMainThread`, `ios_system` returns at once. The thread closes its session, as
`ios_system_async` does, and the command goes on with a session that has been freed.
-/
theorem session_freed_under_command :
    ∃ s, Reachable s ∧ ¬ KeptAlive s ∧
      ∃ t ∈ s.threads, t.running = true ∧ t.currentSession = some 0 ∧
        (s.manager.table.sessions 0).frees = 1 := by
  have hrun : Transition.run step
      ⟨Threads.State.initial 2, [.application, .unborn], none, 1, 2⟩
      [.switch 0 7, .proceed 0, .advance 0 (some 100), .dispatch 0 1 false, .proceed 1,
        .close 0 7, .advance 0 none, .advance 0 none, .proceed 0, .advance 0 none, .advance 0 none,
        .advance 0 none] = some _ := rfl
  have hreach : Reachable _ := Transition.Reachable.of_run (.start ⟨rfl, by simp⟩) hrun
  refine ⟨_, hreach, ?_, ⟨.free, none, some 0, some 0, some 0⟩, .tail _ (.head _), rfl, rfl, rfl⟩
  intro halive
  exact absurd ((halive ⟨.free, none, some 0, some 0, some 0⟩ (.tail _ (.head _)) rfl).1 0 rfl)
    (by decide)

end Session.Commands

end IosSystem
