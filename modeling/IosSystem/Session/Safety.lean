import IosSystem.Lib.Threads
import IosSystem.Session.Threads

/-!
# Use of freed sessions

`Safe` is what the callers rely on. An interleaving can break it in several ways, and `Guard`
describes the steps that do: `ios_session_delete` must not set the mark between the test and the
increment of a getter or between the decrement and the test of a releaser, and when it later takes
the write lock, the entry that it finds under the id must not be in use.
-/

namespace IosSystem.Session.Threads

open List Table PC

/-- What `ios_session_release` reads next: `ref_count` or `is_destroying` of its session. -/
def PC.reads : PC → Option Ref
  | .relDec ref | .relTest ref => some ref
  | _ => none

/--
No session is freed while a reference to it is outstanding, none is freed twice, and no release in
progress is about to read a session that has been freed.
-/
def Safe (s : State) : Prop :=
  (∀ r ∈ s.refs, (s.table.sessions r.session).frees = 0) ∧
  (∀ o, (s.table.sessions o).frees ≤ 1) ∧
  (∀ pc ∈ s.threads, ∀ r ∈ pc.reads, (s.table.sessions r.session).frees = 0)

/-- The thread is between the two atomic operations of `ios_session_get` or of a release on `o`. -/
def PC.between (o : Nat) : PC → Bool
  | .getInc ref | .relTest ref => ref.session = o
  | _ => false

/-- The thread is in `ios_session_release`, after its decrement of the count of `o` to 0. -/
def PC.finishing (o : Nat) : PC → Bool
  | .relTest ref | .relLock ref => ref.session = o
  | _ => false

/--
The steps of `ios_session_delete` that are harmless.

It may set the mark of a session when no thread is between its two atomic operations on it. It may
unlink the entry that it finds under the id when nobody has a reference to that entry and no
release is about to unlink it.
-/
def Guard (s : State) : Label → Prop
  | .advance i _ =>
    match s.threads[i]? with
    | some (.delMark ref) => (s.table.sessions ref.session).isDestroying = false →
        ∀ pc ∈ s.threads, pc.between ref.session = false
    | some (.delLock sessionId) => ∀ o ∈ s.table.lookupLocked sessionId,
        (s.table.sessions o).refCount = 0 ∧ ∀ pc ∈ s.threads, pc.finishing o = false
    | _ => True
  | _ => True

/-! ## The invariant of guarded runs -/

/-- The thread is in `ios_session_release` before its decrement of the count of `o`. -/
def PC.releasing (o : Nat) : PC → Bool
  | .relDec ref => ref.session = o
  | _ => false

structure PC.Ok (t : Table) (pc : PC) : Prop where
  live : ∀ r ∈ pc.uses, t.Live r.session ∧ (t.sessions r.session).sessionId = r.sessionId
  getInc : ∀ r, pc = .getInc r → (t.sessions r.session).isDestroying = false
  relLock : ∀ r, pc = .relLock r → (t.sessions r.session).isDestroying = true

def PC.plain : PC → Bool
  | .getInc _ => false
  | .relLock _ => false
  | _ => true

variable {pc : PC} {s : State} {i o : Nat} {ref : Ref} {sessionId : SessionId}

theorem PC.Ok.of_plain {t : Table} (hp : pc.plain = true)
    (hlive : ∀ r ∈ pc.uses, t.Live r.session ∧ (t.sessions r.session).sessionId = r.sessionId) :
    pc.Ok t := by
  refine ⟨hlive, ?_, ?_⟩ <;>
  · rintro r rfl
    cases hp

theorem PC.Ok.unused {t : Table} (h : pc.uses = none) : pc.Ok t := by
  refine PC.Ok.of_plain ?_ ?_
  · cases pc <;> first | rfl | cases h
  · intro r hr
    rw [h] at hr
    cases hr

theorem PC.Ok.keep {t t' : Table} (h : pc.Ok t)
    (hlive : ∀ r ∈ pc.uses, t.Live r.session → t'.Live r.session)
    (hid : ∀ r ∈ pc.uses, (t'.sessions r.session).sessionId = (t.sessions r.session).sessionId)
    (hmark : ∀ r ∈ pc.uses,
      (t'.sessions r.session).isDestroying = (t.sessions r.session).isDestroying) : pc.Ok t' := by
  refine ⟨fun r hr => ?_, ?_, ?_⟩
  · rw [hid r hr]
    exact ⟨hlive r hr (h.live r hr).1, (h.live r hr).2⟩
  · rintro r rfl
    exact (hmark r rfl).trans (h.getInc r rfl)
  · rintro r rfl
    exact (hmark r rfl).trans (h.relLock r rfl)

/--
`ref_count` counts the outstanding references and the releases that have not decremented it yet.
A marked session with a release after its decrement has no reference and no other such release.
-/
structure Inv (s : State) : Prop where
  wf : s.table.Wf
  refCount : ∀ o, s.table.Live o → (s.table.sessions o).refCount
    = refsTo s.refs o + s.threads.countP (PC.releasing o)
  refs_live : ∀ r ∈ s.refs,
    s.table.Live r.session ∧ (s.table.sessions r.session).sessionId = r.sessionId
  threads : ∀ pc ∈ s.threads, pc.Ok s.table
  alone : ∀ o, s.table.Live o → (s.table.sessions o).isDestroying = true →
    0 < s.threads.countP (PC.finishing o) →
    s.threads.countP (PC.finishing o) = 1 ∧ (s.table.sessions o).refCount = 0

theorem Inv.safe (h : Inv s) : Safe s := by
  refine ⟨fun r hr => (h.refs_live r hr).1.2, h.wf.frees_le, ?_⟩
  intro pc hpc r hr
  refine ((h.threads pc hpc).live r ?_).1.2
  cases pc <;> simp_all [reads, uses]

theorem Inv.initial (n : Nat) : Inv (State.initial n) := by
  have hdead : ∀ o, ¬ init.Live o := fun o ho => Nat.not_lt_zero o ho.1
  refine ⟨Table.Wf.init, fun o ho => absurd ho (hdead o), by simp [State.initial], ?_,
    fun o ho => absurd ho (hdead o)⟩
  intro pc hpc
  rw [eq_of_mem_replicate hpc]
  exact PC.Ok.unused rfl

theorem mem_goto {pc' : PC} (h : pc' ∈ (s.goto i pc).threads) : pc' = pc ∨ pc' ∈ s.threads :=
  (mem_or_eq_of_mem_set h).symm

/-! ### Steps that move a thread and leave the table alone -/

theorem Inv.goto (h : Inv s) {pc' : PC} (hi : s.threads[i]? = some pc)
    (hok : pc'.Ok s.table) (hrel : ∀ o, pc'.releasing o = pc.releasing o)
    (hfin : ∀ o, pc'.finishing o = true → pc.finishing o = true) : Inv (s.goto i pc') := by
  have hcount := fun o => Threads.countP_set_of_eq hi (hrel o)
  have hle := fun o => Threads.countP_set_le hi (hfin o)
  refine ⟨h.wf, fun o ho => ?_, h.refs_live, Threads.forall_mem_set h.threads hok,
    fun o ho hd hpos => ?_⟩
  · simp only [State.goto, hcount]
    exact h.refCount o ho
  · have hle := hle o
    simp only [State.goto] at hpos ⊢
    have hal := h.alone o ho hd (by omega)
    omega

theorem Inv.leave (h : Inv s) (hi : s.threads[i]? = some pc)
    (hrel : ∀ o, pc.releasing o = false) : Inv (s.goto i .idle) :=
  h.goto hi (PC.Ok.unused rfl) (fun o => (hrel o).symm) (fun o hf => by cases hf)

/-! ### Steps that change the table -/

section

variable (h : Inv s)
include h

theorem Inv.acquire (hlive : s.table.Live ref.session)
    (hid : (s.table.sessions ref.session).sessionId = ref.sessionId)
    (hd : (s.table.sessions ref.session).isDestroying = false) : Inv (s.acquire ref) := by
  have hs := Table.SameShape.acquire s.table ref.session
  have hmark := isDestroying_acquire s.table ref.session
  have hcount := refCount_acquire s.table ref.session
  refine ⟨hs.wf h.wf, fun o ho => ?_, fun r hr => ?_, fun pc hpc => ?_, fun o ho hd' hpos => ?_⟩
  · have hold := h.refCount o ((hs.live o).mp ho)
    simp only [State.acquire, refsTo_cons]
    grind
  · simp [State.acquire, hs.live, hs.sessionId] at hr ⊢
    grind [h.refs_live r]
  · exact (h.threads pc hpc).keep (fun r _ => (hs.live r.session).mpr) (fun r _ => hs.sessionId _)
      (fun r _ => hmark _)
  · have hal := h.alone o ((hs.live o).mp ho)
    simp only [State.acquire] at *
    grind

theorem Inv.insertLocked (sessionId : SessionId) {address : Nat} (hf : s.table.Free address) :
    Inv { s with table := s.table.insertLocked sessionId address } := by
  have hold : ∀ {o}, s.table.Live o →
      (s.table.insertLocked sessionId address).sessions o = s.table.sessions o := fun ho =>
    sessions_insert_of_ne s.table _ _ ho.ne_created
  have hnew := sessions_insert_self s.table sessionId address
  have hlive : ∀ o, (s.table.insertLocked sessionId address).Live o ↔
    s.table.Live o ∨ o = s.table.created := live_insert_iff _ _ _
  refine ⟨h.wf.insertLocked sessionId hf, fun o ho => ?_, fun r hr => ?_, fun pc hpc => ?_,
    fun o ho hd hpos => ?_⟩
  · simp only [hlive] at ho ⊢
    rcases ho with ho | rfl
    · rw [hold ho]
      exact h.refCount o ho
    · have hnone : refsTo s.refs s.table.created = 0 := by
        apply countP_eq_zero.mpr
        intro r hr
        simpa using (h.refs_live r hr).1.ne_created
      have hnone' : s.threads.countP (releasing s.table.created) = 0 := by
        apply countP_eq_zero.mpr
        intro pc hpc hrel
        cases pc <;> simp only [releasing, Bool.false_eq_true, decide_eq_true_eq] at hrel
        case relDec r => exact ((h.threads _ hpc).live r rfl).1.ne_created hrel
      rw [hnew, hnone, hnone']
      rfl
  · have hr' := h.refs_live r hr
    simp only [hlive, hold hr'.1]
    exact ⟨.inl hr'.1, hr'.2⟩
  · have hok := h.threads pc hpc
    refine hok.keep (fun r _ ho => (hlive _).mpr (.inl ho)) ?_ ?_ <;>
    · intro r hr
      rw [hold (hok.live r hr).1]
  · simp only [hlive] at ho hd ⊢
    rcases ho with ho | rfl
    · rw [hold ho] at hd ⊢
      exact h.alone o ho hd hpos
    · rw [hnew] at hd
      cases hd

theorem Inv.beginRelease (hi : s.threads[i]? = some .idle) (hr : ref ∈ s.refs) :
    Inv ({ s with refs := s.refs.erase ref }.goto i (.relDec ref)) := by
  have href := h.refs_live ref hr
  have hcount := fun p => Threads.countP_set_add hi (.relDec ref) p
  refine ⟨h.wf, fun o ho => ?_, fun r hm => h.refs_live r (List.mem_of_mem_erase hm),
    Threads.forall_mem_set h.threads (PC.Ok.of_plain rfl ?_), fun o ho hd => ?_⟩
  · have hold := h.refCount o ho
    have hc := hcount (releasing o)
    rw [refsTo_erase hr] at hold
    simp only [State.goto, releasing] at *
    grind
  · rintro r ⟨⟩
    exact href
  · have hc := hcount (finishing o)
    simp only [finishing, Bool.false_eq_true, if_false, Nat.add_zero] at hc
    simp only [State.goto, hc]
    exact h.alone o ho hd

theorem Inv.decrement (hi : s.threads[i]? = some (.relDec ref))
    (hpc : pc = .idle ∨ ((s.table.sessions ref.session).refCount = 1 ∧ pc = .relTest ref)) :
    Inv ({ s with table := s.table.drop ref.session }.goto i pc) := by
  have href := (h.threads _ (List.mem_of_getElem? hi)).live ref rfl
  have hs := Table.SameShape.drop s.table ref.session
  have hmark := isDestroying_drop s.table ref.session
  have hcount := refCount_drop s.table ref.session
  refine ⟨hs.wf h.wf, fun o ho => ?_, fun r hr => ?_, Threads.forall_mem_set (fun pc' hm => ?_) ?_,
    fun o ho hd hpos => ?_⟩
  · have hold := h.refCount o ((hs.live o).mp ho)
    have hc := Threads.countP_set_add hi pc (releasing o)
    simp only [State.goto, releasing] at *
    grind
  · simp only [State.goto, hs.live, hs.sessionId]
    exact h.refs_live r hr
  · exact (h.threads pc' hm).keep (fun r _ => (hs.live r.session).mpr)
      (fun r _ => hs.sessionId _) (fun r _ => hmark _)
  · rcases hpc with rfl | ⟨_, rfl⟩
    · exact PC.Ok.unused rfl
    · refine PC.Ok.of_plain rfl ?_
      rintro r ⟨⟩
      simp only [State.goto, hs.live, hs.sessionId]
      exact href
  · simp only [State.goto, hs.live, hmark] at *
    have hal := h.alone o ho hd
    -- the count of `ref` was at least 1, as this release had not decremented it
    have hold := h.refCount ref.session href.1
    have hpos' : 0 < s.threads.countP (releasing ref.session) :=
      Threads.countP_pos hi (by simp [releasing])
    by_cases hnew : pc.finishing o = true
    · -- this release is the one that finishes `o`; before it there was none
      obtain ⟨hone, rfl⟩ : (s.table.sessions ref.session).refCount = 1 ∧ pc = .relTest ref := by
        rcases hpc with rfl | hpc
        · cases hnew
        · exact hpc
      obtain rfl : ref.session = o := by simpa [finishing] using hnew
      grind
    · grind

theorem Inv.mark (hguard : (s.table.sessions o).isDestroying = false →
      ∀ pc ∈ s.threads, pc.between o = false) :
    Inv { s with table := s.table.markDestroying o } := by
  have hs := Table.SameShape.markDestroying s.table o
  have hmark := isDestroying_markDestroying s.table o
  refine ⟨hs.wf h.wf, fun o' ho' => ?_, fun r hr => ?_, fun pc hpc => ⟨fun r hr => ?_, ?_, ?_⟩,
    fun o' ho' hd hpos => ?_⟩
  · rw [refCount_markDestroying]
    exact h.refCount o' ((hs.live o').mp ho')
  · simp only [hs.live, hs.sessionId]
    exact h.refs_live r hr
  · simp only [hs.live, hs.sessionId]
    exact (h.threads pc hpc).live r hr
  · rintro r rfl
    have hd := (h.threads _ hpc).getInc r rfl
    have hne : r.session ≠ o := by
      rintro rfl
      simpa [between] using hguard hd _ hpc
    rw [hmark, if_neg hne]
    exact hd
  · rintro r rfl
    grind [(h.threads _ hpc).relLock r rfl]
  · simp only [hs.live, refCount_markDestroying] at *
    cases hold : (s.table.sessions o').isDestroying with
    | true => exact h.alone o' ho' hold hpos
    | false =>
      obtain rfl : o' = o := by grind
      -- a release of an unmarked session would be between its two operations
      obtain ⟨pc, hpc, hfin⟩ := countP_pos_iff.mp hpos
      cases pc <;> simp only [finishing, Bool.false_eq_true, decide_eq_true_eq] at hfin
      case relTest r =>
        have := hguard hold _ hpc
        simp [between, hfin] at this
      case relLock r =>
        have := (h.threads _ hpc).relLock r rfl
        rw [hfin, hold] at this
        cases this

theorem Inv.unlink (ho : s.table.Live o) (hrefs : refsTo s.refs o = 0)
    (hthreads : ∀ pc ∈ s.threads, ∀ r ∈ pc.uses, r.session ≠ o) :
    Inv { s with table := s.table.unlink (hashSessionId (s.table.sessions o).sessionId) o } := by
  have hlive := live_unlink_iff s.table (hashSessionId (s.table.sessions o).sessionId) o
  have hother : ∀ o', o' ≠ o →
      (s.table.unlink (hashSessionId (s.table.sessions o).sessionId) o).sessions o'
        = s.table.sessions o' := fun o' hne => sessions_unlink_of_ne _ _ hne
  refine ⟨h.wf.unlink ho, fun o' ho' => ?_, fun r hr => ?_, fun pc hpc => ?_, fun o' ho' => ?_⟩
  · obtain ⟨ho', hne⟩ := (hlive o').mp ho'
    simp only [hother o' hne]
    exact h.refCount o' ho'
  · have hne : r.session ≠ o := by
      rintro rfl
      exact absurd hrefs (Nat.ne_of_gt (refsTo_pos hr))
    simp only [hlive, hother _ hne]
    exact ⟨⟨(h.refs_live r hr).1, hne⟩, (h.refs_live r hr).2⟩
  · have hne := hthreads pc hpc
    refine (h.threads pc hpc).keep (fun r hr hl => (hlive _).mpr ⟨hl, hne r hr⟩) ?_ ?_ <;>
    · intro r hr
      rw [hother _ (hne r hr)]
  · obtain ⟨ho', hne⟩ := (hlive o').mp ho'
    simp only [hother o' hne]
    exact h.alone o' ho'

end

theorem PC.uses_cases {r : Ref} (h : r ∈ pc.uses) :
    r.sessionId ∈ pc.readLock ∨ pc.releasing r.session = true ∨ pc.finishing r.session = true := by
  cases pc with
  | getTest | getInc | delMark | delLoad =>
    cases h
    exact .inl rfl
  | relDec =>
    cases h
    exact .inr (.inl (decide_eq_true rfl))
  | relTest | relLock =>
    cases h
    exact .inr (.inr (decide_eq_true rfl))
  | idle | createLock | delLock => cases h

theorem Inv.unlink_unused (h : Inv s) (hw : s.Writable sessionId) (ho : s.table.Live o)
    (hid : (s.table.sessions o).sessionId = sessionId) (hzero : (s.table.sessions o).refCount = 0)
    (hfin : ∀ pc ∈ s.threads, pc.finishing o = false) :
    Inv { s with table := s.table.unlink (hashSessionId sessionId) o } := by
  have hcount := h.refCount o ho
  subst hid
  refine h.unlink ho (by omega) ?_
  rintro pc hpc r hr rfl
  have hr' := (h.threads pc hpc).live r hr
  rcases uses_cases hr with hlock | hrel | hfinish
  · -- a thread that holds a read lock would keep the writer out
    exact hw pc hpc r.sessionId hlock (by rw [hr'.2])
  · have hnone := countP_eq_zero.mp
      (show s.threads.countP (releasing r.session) = 0 by omega)
    exact hnone pc hpc hrel
  · rw [hfin pc hpc] at hfinish
    cases hfinish

/-! ## Every guarded step keeps the invariant -/

theorem State.Writable.goto_idle (h : s.Writable sessionId)
    (i : Nat) : (s.goto i .idle).Writable sessionId := by
  intro pc hpc
  rcases mem_goto hpc with rfl | hm
  · intro id hid
    cases hid
  · exact h pc hm

section

variable (h : Inv s)
include h

variable {s' : State} {malloc : Option Nat}

theorem Inv.createSection (hs : createSection s sessionId malloc = some s') : Inv s' := by
  unfold Threads.createSection at hs
  split at hs
  case h_1 o hu =>
    cases hs
    obtain ⟨hl, hd⟩ := Option.filter_eq_some_iff.mp hu
    obtain ⟨hlive, hid⟩ := h.wf.lookup_spec hl
    exact h.acquire hlive hid (by simpa using hd)
  case h_2 =>
    split at hs
    case h_1 => cases hs; exact h
    case h_2 address =>
      split at hs
      case isTrue hf =>
        cases hs
        have hnew := sessions_insert_self s.table sessionId address
        exact (h.insertLocked sessionId hf).acquire ((live_insert_iff ..).mpr (.inr rfl))
          (congrArg (·.sessionId) hnew) (congrArg (·.isDestroying) hnew)
      case isFalse => cases hs

theorem Inv.relLock (hi : s.threads[i]? = some (.relLock ref)) (hw : s.Writable ref.sessionId) :
    Inv { s.goto i .idle with
      table := s.table.unlinkByAddress ref.sessionId (s.table.sessions ref.session).address } := by
  have hok := h.threads _ (List.mem_of_getElem? hi)
  obtain ⟨hlive, hid⟩ := hok.live ref rfl
  have hfin : 0 < s.threads.countP (finishing ref.session) :=
    List.countP_pos_iff.mpr ⟨_, List.mem_of_getElem? hi, by simp [finishing]⟩
  obtain ⟨hone, hzero⟩ := h.alone ref.session hlive (hok.relLock ref rfl) hfin
  have hnone : (s.goto i .idle).threads.countP (finishing ref.session) = 0 := by
    have hc := Threads.countP_set_add hi .idle (finishing ref.session)
    simp only [finishing, decide_true, if_true, Bool.false_eq_true, if_false] at hc
    show (s.threads.set i .idle).countP _ = 0
    omega
  have hunlink := (h.leave hi fun _ => rfl).unlink_unused (hw.goto_idle i) hlive hid hzero
    fun pc hpc => by simpa using List.countP_eq_zero.mp hnone pc hpc
  have heq := h.wf.unlinkByAddress_eq hlive
  rw [hid] at heq
  rw [heq]
  exact hunlink

theorem Inv.delLock (hi : s.threads[i]? = some (.delLock sessionId)) (hw : s.Writable sessionId)
    (hguard : ∀ o ∈ s.table.lookupLocked sessionId,
      (s.table.sessions o).refCount = 0 ∧ ∀ pc ∈ s.threads, pc.finishing o = false) :
    Inv { s.goto i .idle with table := s.table.unlinkById sessionId } := by
  have hidle := h.leave hi fun _ => rfl
  cases hl : s.table.lookupLocked sessionId with
  | none =>
    have heq : s.table.unlinkById sessionId = s.table := by
      unfold unlinkById unlinkFirst
      unfold lookupLocked at hl
      rw [hl]
    rw [heq]
    exact hidle
  | some o =>
    obtain ⟨hlive, hid⟩ := h.wf.lookup_spec hl
    obtain ⟨hzero, hfin⟩ := hguard o hl
    rw [unlinkById_of_lookup hl]
    refine hidle.unlink_unused (hw.goto_idle i) hlive hid hzero ?_
    intro pc hpc
    rcases mem_goto hpc with rfl | hm
    · rfl
    · exact hfin pc hm

/-- A step inside of a call of the manager. -/
theorem Inv.advance (hi : s.threads[i]? = some pc) (hg : Guard s (.advance i malloc))
    (hs : advance s i malloc pc = some s') : Inv s' := by
  have hok := h.threads pc (mem_of_getElem? hi)
  simp only [Guard, hi] at hg
  cases pc with
  | idle => cases hs
  | getTest ref create =>
    simp only [advance] at hs
    split at hs
    case isTrue hd =>
      cases hs
      refine h.goto hi ⟨?_, ?_, fun _ e => by cases e⟩ (fun _ => rfl) (fun _ hf => by cases hf)
      · rintro r ⟨⟩
        exact hok.live ref rfl
      · rintro r ⟨⟩
        exact hd
    case isFalse =>
      split at hs <;> cases hs
      · exact h.goto hi (PC.Ok.unused rfl) (fun _ => rfl) (fun _ hf => by cases hf)
      · exact h.leave hi fun _ => rfl
  | getInc ref =>
    cases hs
    obtain ⟨hlive, hid⟩ := hok.live ref rfl
    exact (h.leave hi fun _ => rfl).acquire hlive hid (hok.getInc ref rfl)
  | createLock sessionId =>
    simp only [advance] at hs
    split at hs
    · exact (h.leave hi fun _ => rfl).createSection hs
    · cases hs
  | relDec ref =>
    simp only [advance] at hs
    split at hs
    case isTrue hone => cases hs; exact h.decrement hi (.inr ⟨hone, rfl⟩)
    case isFalse => cases hs; exact h.decrement hi (.inl rfl)
  | relTest ref =>
    simp only [advance] at hs
    split at hs
    case isTrue hd =>
      cases hs
      refine h.goto hi ⟨?_, (fun _ e => by cases e), ?_⟩ (fun _ => rfl) (fun _ hf => hf)
      · rintro r ⟨⟩
        exact hok.live ref rfl
      · rintro r ⟨⟩
        exact hd
    case isFalse =>
      cases hs
      exact h.leave hi fun _ => rfl
  | relLock ref =>
    simp only [advance] at hs
    split at hs
    case isTrue hw => cases hs; exact h.relLock hi hw
    case isFalse => cases hs
  | delMark ref =>
    cases hs
    refine (h.mark hg).goto hi (PC.Ok.of_plain rfl ?_) (fun _ => rfl) (fun _ hf => by cases hf)
    rintro r ⟨⟩
    exact ((h.mark hg).threads _ (mem_of_getElem? hi)).live ref rfl
  | delLoad ref =>
    simp only [advance] at hs
    split at hs <;> cases hs
    · exact h.leave hi fun _ => rfl
    · exact h.goto hi (PC.Ok.unused rfl) (fun _ => rfl) (fun _ hf => by cases hf)
  | delLock sessionId =>
    simp only [advance] at hs
    split at hs
    case isTrue hw => cases hs; exact h.delLock hi hw hg
    case isFalse => cases hs

theorem Inv.found (hi : s.threads[i]? = some .idle) (hl : s.table.lookupLocked sessionId = some o)
    (huses : pc.uses = some ⟨o, sessionId⟩) (hplain : pc.plain = true)
    (hrel : ∀ o, pc.releasing o = false) (hfin : ∀ o, pc.finishing o = false) :
    Inv (s.goto i pc) := by
  refine h.goto hi (PC.Ok.of_plain hplain ?_) hrel ?_
  · intro r hr
    cases huses.symm.trans hr
    exact h.wf.lookup_spec hl
  · intro o' hf
    rw [hfin] at hf
    cases hf

theorem Inv.step {l : Label} (hg : Guard s l) (hs : step s l = some s') : Inv s' := by
  cases l with
  | getOrCreate i sessionId =>
    simp only [Threads.step] at hs
    split at hs
    case isFalse => cases hs
    case isTrue hi =>
      split at hs
      case h_1 o hl =>
        cases hs
        exact h.found hi hl rfl rfl (fun _ => rfl) (fun _ => rfl)
      case h_2 =>
        cases hs
        exact h.goto hi (PC.Ok.unused rfl) (fun _ => rfl) (fun _ hf => by cases hf)
  | get i sessionId =>
    simp only [Threads.step] at hs
    split at hs
    case isFalse => cases hs
    case isTrue hi =>
      split at hs
      case h_1 o hl =>
        cases hs
        exact h.found hi hl rfl rfl (fun _ => rfl) (fun _ => rfl)
      case h_2 => cases hs; exact h
  | release i ref =>
    simp only [Threads.step] at hs
    split at hs
    case isFalse => cases hs
    case isTrue hi => cases hs; exact h.beginRelease hi.1 hi.2
  | delete i sessionId =>
    simp only [Threads.step] at hs
    split at hs
    case isFalse => cases hs
    case isTrue hi =>
      split at hs
      case h_1 o hl =>
        cases hs
        exact h.found hi hl rfl rfl (fun _ => rfl) (fun _ => rfl)
      case h_2 => cases hs; exact h
  | advance i malloc =>
    simp only [Threads.step] at hs
    split at hs
    case h_1 pc hi => exact h.advance hi hg hs
    case h_2 => cases hs

end

/-! ## Safety -/

def GuardedReachable (s : State) : Prop :=
  Transition.Reachable step Guard (fun s => ∃ n, s = State.initial n) s

theorem GuardedReachable.inv (h : GuardedReachable s) : Inv s := by
  refine Transition.Reachable.invariant ?_ (fun _ _ _ hi hg hs => hi.step hg hs) h
  rintro _ ⟨n, rfl⟩
  exact Inv.initial n

/-- In a run whose steps all meet `Guard`, no session is used after it was freed. -/
theorem no_use_after_free {s : State} (h : GuardedReachable s) : Safe s :=
  h.inv.safe

/-- A session that is deleted while in use; the release of the last reference frees it. -/
theorem no_use_after_free_deferred :
    ∃ s, GuardedReachable s ∧ (s.table.sessions 0).frees = 1 ∧ Safe s := by
  have hreach : GuardedReachable _ :=
    .next (a := .advance 0 none) (.next (a := .advance 0 none) (.next (a := .advance 0 none)
      (.next (a := .release 0 ⟨0, 7⟩) (.next (a := .advance 1 none) (.next (a := .advance 1 none)
        (.next (a := .delete 1 7) (.next (a := .advance 0 (some 100)) (.next (a := .getOrCreate 0 7)
          (.start ⟨2, rfl⟩) trivial rfl) trivial rfl) trivial rfl)
        (by rintro _ pc (_ | ⟨_, _ | ⟨_, ⟨⟩⟩⟩) <;> rfl) rfl) trivial rfl)
      trivial rfl) trivial rfl) trivial rfl) trivial rfl
  exact ⟨_, hreach, rfl, no_use_after_free hreach⟩

/--
Thread 0 deletes id 7, which has no references, and stops before the write lock. Thread 1 creates
id 7 again. Thread 0 goes on and frees the new session, although thread 1 holds a reference to it.
-/
theorem freed_while_referenced :
    ∃ s, Reachable s ∧ ¬ Safe s ∧
      ∃ r ∈ s.refs, (s.table.sessions r.session).frees = 1 := by
  have hrun : Transition.run step (State.initial 2)
      [.getOrCreate 0 7, .advance 0 (some 100), .release 0 ⟨0, 7⟩, .advance 0 none,
        .advance 0 none, .delete 0 7, .advance 0 none, .advance 0 none,
        .getOrCreate 1 7, .advance 1 none, .advance 1 (some 200), .advance 0 none] = some _ := rfl
  refine ⟨_, Transition.Reachable.of_run (.start ⟨2, rfl⟩) hrun, ?_, ⟨1, 7⟩, .head _, rfl⟩
  intro hsafe
  exact absurd (hsafe.1 ⟨1, 7⟩ (.head _)) (by decide)

end IosSystem.Session.Threads
