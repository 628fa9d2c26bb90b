import IosSystem.Lib.Transition
import IosSystem.Session.Table
import Mathlib.Algebra.BigOperators.Group.List.Basic
import Mathlib.Algebra.Order.Ring.Int

/-!
# Serial use of the session table

`ios_session_get_or_create`, `ios_session_get`, `ios_session_release` and `ios_session_delete`, each
run to completion before the next one starts. Between two calls a marked session also has a
reference (`Inv`).
-/

namespace IosSystem.Session

open List Table

/-! ## The functions -/

/--
`ios_session_get_or_create`. `malloc` is the address of the new session, or `none` when an
allocation fails.
-/
def getOrCreate (t : Table) (sessionId : SessionId) (malloc : Option Nat) : Table × Option Ref :=
  match t.usable sessionId with
  | some o => (t.acquire o, some ⟨o, sessionId⟩)
  | none =>
    -- the double check under the write lock
    match t.usable sessionId with
    | some o => (t.acquire o, some ⟨o, sessionId⟩)
    | none =>
      match malloc with
      | none => (t, none)
      | some address =>
        ((t.insertLocked sessionId address).acquire t.created, some ⟨t.created, sessionId⟩)

/-- `ios_session_get` -/
def get (t : Table) (sessionId : SessionId) : Table × Option Ref :=
  match t.usable sessionId with
  | none => (t, none)
  | some o => (t.acquire o, some ⟨o, sessionId⟩)

/-- `ios_session_release`, with the value of `prev_count`. -/
def release (t : Table) (ref : Ref) : Table × Int :=
  let prevCount := (t.sessions ref.session).refCount
  let t1 := t.drop ref.session
  if prevCount = 1 ∧ (t1.sessions ref.session).isDestroying then
    (t1.unlinkByAddress ref.sessionId (t1.sessions ref.session).address, prevCount)
  else (t1, prevCount)

/-- `ios_session_delete` -/
def delete (t : Table) (sessionId : SessionId) : Table × Bool :=
  match t.lookupLocked sessionId with
  | none => (t, false)
  | some o =>
    let t1 := t.markDestroying o
    if 0 < (t1.sessions o).refCount then (t1, true) else (t1.unlinkById sessionId, true)

/-! ## Sequences of calls -/

structure State where
  table : Table
  refs : List Ref

def State.initial : State := ⟨Table.init, []⟩

inductive Call where
  | getOrCreate (sessionId : SessionId) (malloc : Option Nat)
  | get (sessionId : SessionId)
  /-- `none` is a null reference -/
  | release (ref : Option Ref)
  | delete (sessionId : SessionId)

def mallocOk (t : Table) : Option Nat → Bool
  | none => true
  | some address => t.Free address

def call (s : State) : Call → Option State
  | .getOrCreate sessionId malloc =>
    if mallocOk s.table malloc then
      let r := getOrCreate s.table sessionId malloc
      some ⟨r.1, r.2.toList ++ s.refs⟩
    else none
  | .get sessionId =>
    let r := get s.table sessionId
    some ⟨r.1, r.2.toList ++ s.refs⟩
  | .release none => some s
  | .release (some ref) =>
    if ref ∈ s.refs then some ⟨(release s.table ref).1, s.refs.erase ref⟩ else none
  | .delete sessionId => some { s with table := (delete s.table sessionId).1 }

def Reachable (s : State) : Prop :=
  Transition.Reachable call (fun _ _ => True) (· = State.initial) s

/-! ## Reference counts -/

/-- The number of outstanding references to session `o`. -/
def refsTo (refs : List Ref) (o : Nat) : Nat := refs.countP (·.session = o)

theorem refsTo_cons (r : Ref) (refs : List Ref) (o : Nat) :
    refsTo (r :: refs) o = refsTo refs o + if r.session = o then 1 else 0 := by
  unfold refsTo
  rw [countP_cons]
  simp

variable {refs : List Ref} {t : Table} {o : Nat} {s : State} {r : Ref}

theorem refsTo_erase (h : r ∈ refs) (o : Nat) :
    refsTo refs o = refsTo (refs.erase r) o + if r.session = o then 1 else 0 := by
  rw [← refsTo_cons]
  exact (perm_cons_erase h).countP_eq _

theorem refsTo_pos (h : r ∈ refs) : 0 < refsTo refs r.session :=
  countP_pos_iff.mpr ⟨r, h, by simp⟩

def Table.sumRefs (t : Table) : Int := (t.entries.map fun o => (t.sessions o).refCount).sum

theorem Table.sumRefs_of_sameShape {t' : Table} (hs : SameShape t t') (hw : t.Wf) (ho : t.Live o)
    (hother : ∀ o', o' ≠ o → (t'.sessions o').refCount = (t.sessions o').refCount) :
    t'.sumRefs = t.sumRefs + ((t'.sessions o).refCount - (t.sessions o).refCount) := by
  have hentries : t'.entries = t.entries := by
    unfold entries
    rw [hs.buckets]
  have hp := perm_cons_erase ((hw.mem_entries_iff o).mpr ho)
  have hrest : (t.entries.erase o).map (fun o' => (t'.sessions o').refCount)
      = (t.entries.erase o).map fun o' => (t.sessions o').refCount := by
    apply map_congr_left
    intro o' hm
    exact hother o' (hw.nodup_entries.mem_erase_iff.mp hm).1
  unfold sumRefs
  rw [hentries, (hp.map _).sum_eq, (hp.map fun o => (t.sessions o).refCount).sum_eq]
  simp only [map_cons, sum_cons, hrest]
  omega

/-! ## What the elementary changes keep -/

section fields

variable (t : Table) (o o' : Nat)

theorem refCount_acquire : ((t.acquire o).sessions o').refCount
    = (t.sessions o').refCount + if o = o' then 1 else 0 := by
  simp only [Table.acquire, Table.modify]
  grind

theorem refCount_drop : ((t.drop o).sessions o').refCount
    = (t.sessions o').refCount - if o = o' then 1 else 0 := by
  simp only [Table.drop, Table.modify, Function.update_apply]
  grind

theorem refCount_markDestroying :
    ((t.markDestroying o).sessions o').refCount = (t.sessions o').refCount := by
  simp only [Table.markDestroying, Table.modify]
  grind

theorem isDestroying_acquire :
    ((t.acquire o).sessions o').isDestroying = (t.sessions o').isDestroying := by
  simp only [Table.acquire, Table.modify]
  grind

theorem isDestroying_drop :
    ((t.drop o).sessions o').isDestroying = (t.sessions o').isDestroying := by
  simp only [Table.drop, Table.modify, Function.update_apply]
  grind

theorem isDestroying_markDestroying : ((t.markDestroying o).sessions o').isDestroying
    = if o' = o then true else (t.sessions o').isDestroying := by
  simp only [Table.markDestroying, Table.modify]
  grind

end fields

/-- The chains are well formed, and an entry behind another one of its id is marked. -/
structure Listed (t : Table) : Prop where
  wf : t.Wf
  order : ∀ b, (t.buckets b).Pairwise fun o o' =>
    (t.sessions o).sessionId = (t.sessions o').sessionId → (t.sessions o').isDestroying = true

variable {sessionId : SessionId}

section

variable (h : Listed t)
include h

theorem Listed.of_sameShape {t' : Table} (hs : t.SameShape t')
    (hmark : ∀ o, (t.sessions o).isDestroying = true → (t'.sessions o).isDestroying = true) :
    Listed t' := by
  refine ⟨hs.wf h.wf, fun b => ?_⟩
  rw [hs.buckets]
  refine (h.order b).imp ?_
  intro o o' himp
  rw [hs.sessionId, hs.sessionId]
  exact fun e => hmark _ (himp e)

theorem Listed.insertLocked {address : Nat} (hf : t.Free address)
    (hmarked : ∀ o, t.Live o → (t.sessions o).sessionId = sessionId →
      (t.sessions o).isDestroying = true) : Listed (t.insertLocked sessionId address) := by
  refine ⟨h.wf.insertLocked sessionId hf, fun b => ?_⟩
  have hold : ∀ o ∈ t.buckets b, t.Live o ∧
      (t.insertLocked sessionId address).sessions o = t.sessions o := by
    intro o hm
    have ho := ((h.wf.mem_iff b o).mp hm).1
    exact ⟨ho, sessions_insert_of_ne t _ _ ho.ne_created⟩
  have hold_bucket := (h.order b).imp_of_mem fun {o o'} hm hm' himp => by
    rwa [← (hold o hm).2, ← (hold o' hm').2] at himp
  by_cases hb : b = hashSessionId sessionId
  · subst hb
    rw [buckets_insert_self, pairwise_cons]
    refine ⟨?_, hold_bucket⟩
    intro o hm
    rw [sessions_insert_self, (hold o hm).2]
    exact fun e => hmarked o (hold o hm).1 e.symm
  · rwa [buckets_insert_of_ne t _ _ hb]

theorem Listed.unlink (ho : t.Live o) :
    Listed (t.unlink (hashSessionId (t.sessions o).sessionId) o) := by
  refine ⟨h.wf.unlink ho, fun b => ?_⟩
  have hsub : (t.unlink (hashSessionId (t.sessions o).sessionId) o).buckets b <+ t.buckets b := by
    by_cases hb : b = hashSessionId (t.sessions o).sessionId
    · subst hb
      rw [buckets_unlink_self]
      exact erase_sublist
    · rw [buckets_unlink_of_ne t _ hb]
  simp only [sessions_unlink_field (·.sessionId) t _ fun _ _ => rfl,
    sessions_unlink_field (·.isDestroying) t _ fun _ _ => rfl]
  exact (h.order b).sublist hsub

theorem Listed.usable_iff (sessionId : SessionId) (o : Nat) :
    t.usable sessionId = some o ↔
      t.Live o ∧ (t.sessions o).sessionId = sessionId ∧ (t.sessions o).isDestroying = false := by
  unfold usable
  rw [Option.filter_eq_some_iff]
  constructor
  · rintro ⟨hl, hd⟩
    have hspec := h.wf.lookup_spec hl
    exact ⟨hspec.1, hspec.2, by simpa using hd⟩
  · rintro ⟨ho, hid, hd⟩
    refine ⟨?_, by simp [hd]⟩
    have hm := h.wf.mem_bucket ho
    rw [hid] at hm
    cases hl : t.lookupLocked sessionId with
    | none => exact absurd hid (by simpa using find?_eq_none.mp hl o hm)
    | some o1 =>
      obtain ⟨hp, before, after, hsplit, hbefore⟩ := find?_eq_some_iff_append.mp hl
      have hord := h.order (hashSessionId sessionId)
      rw [hsplit] at hm hord
      rcases mem_append.mp hm with hm | hm
      · exact absurd hid (by simpa using hbefore o hm)
      rcases mem_cons.mp hm with rfl | hm
      · rfl
      -- an entry behind the first one is marked
      have hmarked := (pairwise_cons.mp (pairwise_append.mp hord).2.1).1 o hm
      rw [hmarked (by rw [hid]; simpa using hp)] at hd
      cases hd

end

/-- The counts are the references that were given out. -/
structure Counted (t : Table) (refs : List Ref) : Prop where
  wf : t.Wf
  /-- an entry behind another one of its id is marked -/
  order : ∀ b, (t.buckets b).Pairwise fun o o' =>
    (t.sessions o).sessionId = (t.sessions o').sessionId → (t.sessions o').isDestroying = true
  refCount : ∀ o, t.Live o → (t.sessions o).refCount = refsTo refs o
  refs_live : ∀ r ∈ refs, t.Live r.session ∧ (t.sessions r.session).sessionId = r.sessionId
  totalSessions : t.totalSessions = t.entries.length
  totalRefs : t.totalRefs = t.sumRefs

theorem Counted.init : Counted Table.init [] := by
  have hentries : Table.init.entries = [] := by
    rw [eq_nil_iff_forall_not_mem]
    intro o ho
    exact absurd ((Table.Wf.init.mem_entries_iff o).mp ho).1 (Nat.not_lt_zero o)
  refine ⟨Table.Wf.init, fun b => List.Pairwise.nil, fun o ho => absurd ho.1 (Nat.not_lt_zero o),
    fun r hr => (by cases hr), ?_, ?_⟩
  · rw [hentries]; rfl
  · unfold Table.sumRefs; rw [hentries]; rfl

section

variable (h : Counted t refs)
include h

theorem Counted.listed : Listed t := ⟨h.wf, h.order⟩

theorem Counted.of_sameShape {t' : Table} {refs' : List Ref} (hs : t.SameShape t')
    (hmark : ∀ o, (t.sessions o).isDestroying = true → (t'.sessions o).isDestroying = true)
    (hcount : ∀ o, t.Live o → (t'.sessions o).refCount = refsTo refs' o)
    (hrefs : ∀ r ∈ refs', t.Live r.session ∧ (t.sessions r.session).sessionId = r.sessionId)
    (hsessions : t'.totalSessions = t.totalSessions) (htotal : t'.totalRefs = t'.sumRefs) :
    Counted t' refs' := by
  obtain ⟨hwf, horder⟩ := h.listed.of_sameShape hs hmark
  refine ⟨hwf, horder, fun o ho => hcount o ((hs.live o).mp ho), fun r hr => ?_, ?_, htotal⟩
  · rw [hs.live, hs.sessionId]
    exact hrefs r hr
  · unfold entries
    rw [hsessions, hs.buckets]
    exact h.totalSessions

theorem Counted.acquire (ho : t.Live o) :
    Counted (t.acquire o) (⟨o, (t.sessions o).sessionId⟩ :: refs) := by
  have hs := Table.SameShape.acquire t o
  refine h.of_sameShape hs (fun o' hd => (isDestroying_acquire t o o').trans hd) (fun o' ho' => ?_)
    (fun r hr => ?_) rfl ?_
  · rw [refCount_acquire, refsTo_cons, h.refCount o' ho']
    grind
  · rcases mem_cons.mp hr with rfl | hr
    · exact ⟨ho, rfl⟩
    · exact h.refs_live r hr
  · have hother : ∀ o', o' ≠ o →
        ((t.acquire o).sessions o').refCount = (t.sessions o').refCount :=
      fun o' hne => by rw [refCount_acquire, if_neg hne.symm, add_zero]
    rw [sumRefs_of_sameShape hs h.wf ho hother, refCount_acquire, if_pos rfl, ← h.totalRefs]
    show t.totalRefs + 1 = _
    omega

theorem Counted.drop (hr : r ∈ refs) : Counted (t.drop r.session) (refs.erase r) := by
  have hs := Table.SameShape.drop t r.session
  have ho := (h.refs_live r hr).1
  refine h.of_sameShape hs (fun o' hd => (isDestroying_drop t _ o').trans hd) (fun o' ho' => ?_)
    (fun r' hr' => h.refs_live r' (mem_of_mem_erase hr')) rfl ?_
  · have hcount := h.refCount o' ho'
    rw [refsTo_erase hr] at hcount
    rw [refCount_drop]
    grind
  · have hother : ∀ o', o' ≠ r.session →
        ((t.drop r.session).sessions o').refCount = (t.sessions o').refCount :=
      fun o' hne => by rw [refCount_drop, if_neg hne.symm, sub_zero]
    rw [sumRefs_of_sameShape hs h.wf ho hother, refCount_drop, if_pos rfl, ← h.totalRefs]
    show t.totalRefs - 1 = _
    omega

theorem Counted.markDestroying (ho : t.Live o) : Counted (t.markDestroying o) refs := by
  have hs := Table.SameShape.markDestroying t o
  refine h.of_sameShape hs (fun o' hd => ?_) (fun o' ho' => ?_) h.refs_live rfl ?_
  · rw [isDestroying_markDestroying, hd, ite_self]
  · rw [refCount_markDestroying]
    exact h.refCount o' ho'
  · rw [sumRefs_of_sameShape hs h.wf ho fun o' _ => refCount_markDestroying t o o',
      refCount_markDestroying, ← h.totalRefs]
    show t.totalRefs = _
    omega

theorem Counted.insertLocked {address : Nat} (hf : t.Free address)
    (hmarked : ∀ o, t.Live o → (t.sessions o).sessionId = sessionId →
      (t.sessions o).isDestroying = true) : Counted (t.insertLocked sessionId address) refs := by
  have hold : ∀ {o}, t.Live o →
      (t.insertLocked sessionId address).sessions o = t.sessions o := fun ho =>
    sessions_insert_of_ne t _ _ ho.ne_created
  obtain ⟨hwf, horder⟩ := h.listed.insertLocked hf hmarked
  refine ⟨hwf, horder, ?_, ?_, ?_, ?_⟩
  · intro o ho
    rw [live_insert_iff] at ho
    rcases ho with ho | rfl
    · rw [hold ho]
      exact h.refCount o ho
    · rw [sessions_insert_self]
      have hnone : refsTo refs t.created = 0 := by
        apply countP_eq_zero.mpr
        intro r hr
        simpa using (h.refs_live r hr).1.ne_created
      rw [hnone]
      rfl
  · intro r hr
    have hlive := h.refs_live r hr
    rw [live_insert_iff, hold hlive.1]
    exact ⟨.inl hlive.1, hlive.2⟩
  · rw [(entries_insert t sessionId address).length_eq, length_cons]
    show t.totalSessions + 1 = _
    rw [h.totalSessions]
    rfl
  · unfold sumRefs
    rw [((entries_insert t sessionId address).map _).sum_eq, map_cons, sum_cons,
      sessions_insert_self]
    have hrest : t.entries.map (fun o => ((t.insertLocked sessionId address).sessions o).refCount)
        = t.entries.map fun o => (t.sessions o).refCount := by
      apply map_congr_left
      intro o hm
      rw [hold ((h.wf.mem_entries_iff o).mp hm)]
    rw [hrest, zero_add]
    exact h.totalRefs

theorem Counted.unlink (ho : t.Live o) (hzero : (t.sessions o).refCount = 0) :
    Counted (t.unlink (hashSessionId (t.sessions o).sessionId) o) refs := by
  have hperm := entries_unlink t (hashSessionId_lt _) (h.wf.mem_bucket ho)
  have hfield : ∀ o', ((t.unlink (hashSessionId (t.sessions o).sessionId) o).sessions o').refCount
        = (t.sessions o').refCount :=
    sessions_unlink_field (·.refCount) t _ fun _ _ => rfl
  obtain ⟨hwf, horder⟩ := h.listed.unlink ho
  refine ⟨hwf, horder, ?_, ?_, ?_, ?_⟩
  · intro o' ho'
    rw [hfield]
    exact h.refCount o' ((live_unlink_iff t _ o o').mp ho').1
  · intro r hr
    have hlive := h.refs_live r hr
    rw [live_unlink_iff, sessions_unlink_field (·.sessionId) t _ (fun _ _ => rfl)]
    refine ⟨⟨hlive.1, ?_⟩, hlive.2⟩
    -- a reference to the unlinked session would have been counted
    intro e
    have hpos := refsTo_pos hr
    have hcount := h.refCount o ho
    rw [e] at hpos
    omega
  · have hlen := hperm.length_eq
    rw [length_cons] at hlen
    have htotal := h.totalSessions
    show t.totalSessions - 1 = _
    omega
  · have hsum := (hperm.map fun o' => (t.sessions o').refCount).sum_eq
    rw [map_cons, sum_cons, hzero, zero_add] at hsum
    unfold sumRefs
    simp only [hfield]
    rw [← hsum]
    exact h.totalRefs

theorem Counted.usable_iff (sessionId : SessionId) (o : Nat) :
    t.usable sessionId = some o ↔
      t.Live o ∧ (t.sessions o).sessionId = sessionId ∧ (t.sessions o).isDestroying = false :=
  h.listed.usable_iff sessionId o

end

/-! ## What the calls keep -/

structure Inv (s : State) : Prop where
  counted : Counted s.table s.refs
  destroying : ∀ o, s.table.Live o → (s.table.sessions o).isDestroying = true →
    0 < (s.table.sessions o).refCount

theorem Inv.initial : Inv State.initial :=
  ⟨Counted.init, fun o ho => absurd ho.1 (Nat.not_lt_zero o)⟩

section

variable (h : Inv s)
include h

theorem Inv.acquire (ho : s.table.Live o) (hid : (s.table.sessions o).sessionId = sessionId) :
    Inv ⟨s.table.acquire o, ⟨o, sessionId⟩ :: s.refs⟩ := by
  subst hid
  have hc := h.counted.acquire ho
  refine ⟨hc, fun o' ho' hd => ?_⟩
  have hlive := ((Table.SameShape.acquire s.table o).live o').mp ho'
  simp only [isDestroying_acquire, refCount_acquire] at hd ⊢
  grind [h.destroying o' hlive hd]

theorem Inv.insertLocked {address : Nat} (hf : s.table.Free address)
    (hnone : s.table.usable sessionId = none) :
    Inv ⟨s.table.insertLocked sessionId address, s.refs⟩ := by
  refine ⟨h.counted.insertLocked hf fun o ho hid => ?_, fun o ho hd => ?_⟩
  · have := h.counted.usable_iff sessionId o
    grind
  · simp only [live_insert_iff] at ho hd ⊢
    rcases ho with ho | rfl
    · rw [sessions_insert_of_ne _ _ _ ho.ne_created] at hd ⊢
      exact h.destroying o ho hd
    · rw [sessions_insert_self] at hd
      cases hd

theorem Inv.get (sessionId : SessionId) :
    Inv ⟨(get s.table sessionId).1, (get s.table sessionId).2.toList ++ s.refs⟩ := by
  unfold Session.get
  cases hu : s.table.usable sessionId with
  | none => exact h
  | some o =>
    obtain ⟨ho, hid, _⟩ := (h.counted.usable_iff sessionId o).mp hu
    exact h.acquire ho hid

theorem Inv.getOrCreate (sessionId : SessionId) {malloc : Option Nat}
    (hm : mallocOk s.table malloc = true) :
    Inv ⟨(getOrCreate s.table sessionId malloc).1,
      (getOrCreate s.table sessionId malloc).2.toList ++ s.refs⟩ := by
  unfold Session.getOrCreate
  cases hu : s.table.usable sessionId with
  | some o =>
    obtain ⟨ho, hid, _⟩ := (h.counted.usable_iff sessionId o).mp hu
    exact h.acquire ho hid
  | none =>
    cases malloc with
    | none => exact h
    | some address =>
      have hi := h.insertLocked (by simpa [mallocOk] using hm) hu
      refine hi.acquire ((live_insert_iff ..).mpr (.inr rfl)) ?_
      exact congrArg (·.sessionId) (sessions_insert_self s.table sessionId address)

theorem Inv.release {ref : Ref} (hr : ref ∈ s.refs) :
    Inv ⟨(release s.table ref).1, s.refs.erase ref⟩ := by
  obtain ⟨hlive, hid⟩ := h.counted.refs_live ref hr
  have hs := Table.SameShape.drop s.table ref.session
  have hc := h.counted.drop hr
  have hmark := isDestroying_drop s.table ref.session
  have hcount := refCount_drop s.table ref.session
  unfold Session.release
  simp only
  split
  case isTrue hcond =>
    have hlive' := (hs.live ref.session).mpr hlive
    have hzero : ((s.table.drop ref.session).sessions ref.session).refCount = 0 := by
      rw [hcount, hcond.1, if_pos rfl]
      rfl
    have heq := hc.wf.unlinkByAddress_eq hlive'
    have hu := hc.unlink hlive' hzero
    rw [hs.sessionId, hid] at heq hu
    rw [heq]
    refine ⟨hu, fun o ho hd => ?_⟩
    simp only [live_unlink_iff, hs.live] at ho hd ⊢
    rw [sessions_unlink_of_ne _ _ ho.2] at hd ⊢
    rw [hmark] at hd
    grind [h.destroying o ho.1 hd]
  case isFalse hcond =>
    refine ⟨hc, fun o ho hd => ?_⟩
    simp only [hs.live, hmark] at *
    grind [h.destroying o ho hd]

theorem Inv.delete (sessionId : SessionId) :
    Inv { s with table := (delete s.table sessionId).1 } := by
  unfold Session.delete
  cases hl : s.table.lookupLocked sessionId with
  | none => exact h
  | some o =>
    obtain ⟨hlive, hid⟩ := h.counted.wf.lookup_spec hl
    have hs := Table.SameShape.markDestroying s.table o
    have hc := h.counted.markDestroying hlive
    have hmark := isDestroying_markDestroying s.table o
    have hcount := refCount_markDestroying s.table o
    simp only
    split
    case isTrue hpos =>
      refine ⟨hc, fun o' ho' hd => ?_⟩
      simp only [hs.live] at *
      have hold := h.destroying o' ho'
      grind
    case isFalse hpos =>
      have hlive' := (hs.live o).mpr hlive
      have hzero : ((s.table.markDestroying o).sessions o).refCount = 0 := by
        have := hc.refCount o hlive'
        omega
      have hlookup : (s.table.markDestroying o).lookupLocked sessionId = some o := by
        rw [← hl]
        unfold lookupLocked
        simp [hs.buckets, hs.sessionId]
      have hu := hc.unlink hlive' hzero
      rw [hs.sessionId, hid] at hu
      rw [unlinkById_of_lookup hlookup]
      refine ⟨hu, fun o' ho' hd => ?_⟩
      simp only [live_unlink_iff, hs.live] at ho' hd ⊢
      rw [sessions_unlink_of_ne _ _ ho'.2, hmark, if_neg ho'.2] at hd
      rw [sessions_unlink_of_ne _ _ ho'.2, hcount]
      exact h.destroying o' ho'.1 hd

theorem Inv.call {s' : State} {c : Call} (hs : call s c = some s') : Inv s' := by
  unfold Session.call at hs
  cases c with
  | getOrCreate sessionId malloc =>
    simp only at hs
    split at hs
    case isTrue hm => cases hs; exact h.getOrCreate sessionId hm
    case isFalse => cases hs
  | get sessionId => cases hs; exact h.get sessionId
  | release ref =>
    cases ref with
    | none => cases hs; exact h
    | some ref =>
      simp only at hs
      split at hs
      case isTrue hr => cases hs; exact h.release hr
      case isFalse => cases hs
  | delete sessionId => cases hs; exact h.delete sessionId

end

theorem Reachable.inv (h : Reachable s) : Inv s :=
  Transition.Reachable.invariant (fun _ e => e ▸ Inv.initial) (fun _ _ _ hi _ hs => hi.call hs) h

/-! ## The table invariant -/

/--
After any sequence of complete calls: an unmarked entry is the first one of its id, the counts are
those of the outstanding references, whose sessions are in the table, the totals are right,
`ios_session_get` returns the unmarked entry if there is one, and `prev_count > 0` holds in every
release.
-/
theorem table_invariant {s : State} (h : Reachable s) :
    (∀ b o, o ∈ s.table.buckets b → hashSessionId (s.table.sessions o).sessionId = b) ∧
    (∀ b before o after, s.table.buckets b = before ++ o :: after →
      (s.table.sessions o).isDestroying = false →
      ∀ o' ∈ before, (s.table.sessions o').sessionId ≠ (s.table.sessions o).sessionId) ∧
    (∀ o ∈ s.table.entries, ∀ o' ∈ s.table.entries,
      (s.table.sessions o).sessionId = (s.table.sessions o').sessionId →
      (s.table.sessions o).isDestroying = false → (s.table.sessions o').isDestroying = false →
      o = o') ∧
    (∀ o ∈ s.table.entries, (s.table.sessions o).refCount = refsTo s.refs o ∧
      ((s.table.sessions o).isDestroying = true → 1 ≤ refsTo s.refs o)) ∧
    (∀ r ∈ s.refs, r.session ∈ s.table.buckets (hashSessionId r.sessionId) ∧
      (s.table.sessions r.session).sessionId = r.sessionId) ∧
    s.table.totalSessions = s.table.entries.length ∧
    s.table.totalRefs = (s.table.entries.map fun o => (s.table.sessions o).refCount).sum ∧
    (∀ sessionId, (get s.table sessionId).2.isSome ↔ ∃ o ∈ s.table.entries,
      (s.table.sessions o).sessionId = sessionId ∧ (s.table.sessions o).isDestroying = false) ∧
    (∀ r ∈ s.refs, 0 < (release s.table r).2) := by
  obtain ⟨hc, hd⟩ := h.inv
  have hlive : ∀ o, o ∈ s.table.entries → s.table.Live o := fun o => (hc.wf.mem_entries_iff o).mp
  refine ⟨fun b o hm => ((hc.wf.mem_iff b o).mp hm).2, ?_, ?_, ?_, ?_, hc.totalSessions,
    hc.totalRefs, ?_, ?_⟩
  · intro b before o after hsplit hunmarked o' hm' hid
    have hord := hc.order b
    rw [hsplit] at hord
    have hmarked := (pairwise_append.mp hord).2.2 o' hm' o mem_cons_self hid
    rw [hunmarked] at hmarked
    cases hmarked
  · intro o hm o' hm' hid hunmarked hunmarked'
    have h1 := (hc.usable_iff (s.table.sessions o').sessionId o).mpr ⟨hlive o hm, hid, hunmarked⟩
    have h2 := (hc.usable_iff (s.table.sessions o').sessionId o').mpr
      ⟨hlive o' hm', rfl, hunmarked'⟩
    rw [h1] at h2
    exact Option.some.inj h2
  · intro o hm
    have hcount := hc.refCount o (hlive o hm)
    refine ⟨hcount, fun hmarked => ?_⟩
    have := hd o (hlive o hm) hmarked
    omega
  · intro r hr
    obtain ⟨hl, hid⟩ := hc.refs_live r hr
    exact ⟨hid ▸ hc.wf.mem_bucket hl, hid⟩
  · intro sessionId
    have hget : (get s.table sessionId).2.isSome ↔ ∃ o, s.table.usable sessionId = some o := by
      unfold get
      cases s.table.usable sessionId <;> simp
    rw [hget]
    simp [hc.usable_iff, hc.wf.mem_entries_iff]
  · intro r hr
    have hprev : (release s.table r).2 = (s.table.sessions r.session).refCount := by
      unfold release
      simp only
      split <;> rfl
    rw [hprev, hc.refCount r.session (hc.refs_live r hr).1]
    exact_mod_cast refsTo_pos hr

/-- A session that is deleted while in use, and its id used again. -/
theorem table_invariant_recreated :
    ∃ s, Transition.run call State.initial
        [.getOrCreate 7 (some 100), .delete 7, .getOrCreate 7 (some 200)] = some s ∧
      s.table.buckets (hashSessionId 7) = [1, 0] ∧ s.table.totalSessions = 2 ∧
      ∀ r ∈ s.refs, 0 < (release s.table r).2 := by
  have hrun : Transition.run call State.initial
      [.getOrCreate 7 (some 100), .delete 7, .getOrCreate 7 (some 200)] = some _ := rfl
  refine ⟨_, hrun, rfl, rfl, ?_⟩
  exact (table_invariant (Transition.Reachable.of_run (.start rfl) hrun)).2.2.2.2.2.2.2.2

end IosSystem.Session
