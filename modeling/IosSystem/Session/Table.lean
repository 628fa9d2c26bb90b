import Mathlib.Logic.Function.Basic
import Mathlib.Data.List.Nodup

/-!
# The session table

The hash table of `ios_session_manager.m` and the pieces of code that run under its bucket
locks: `session_table_lookup_locked`, `session_table_insert_locked` and the two loops that
unlink and free an entry.

A `session_entry_t` and its `sessionParameters` are one record here, named by the order of its
creation. Its `address` is what the C code compares: `malloc` may return the address of a session
that has been freed. A record with `frees = 0` is alive.
-/

namespace IosSystem.Session

open List Function

abbrev SessionId := UInt64

def hashTableSize : Nat := 256

/-- `hash_session_id` -/
def hashSessionId (sessionId : SessionId) : Nat :=
  ((sessionId ^^^ (sessionId >>> 16)) &&& 255).toNat

theorem hashSessionId_lt (sessionId : SessionId) : hashSessionId sessionId < hashTableSize := by
  exact Nat.lt_of_le_of_lt Nat.and_le_right (by decide)

structure SessionParameters where
  sessionId : SessionId
  address : Nat
  refCount : Int
  isDestroying : Bool
  frees : Nat
  deriving DecidableEq

/-- `struct _ios_session_ref` -/
structure Ref where
  session : Nat
  sessionId : SessionId
  deriving DecidableEq

/-- `g_session_table`, with the sessions that were ever created. -/
structure Table where
  sessions : Nat → SessionParameters
  created : Nat
  buckets : Nat → List Nat
  totalSessions : Int
  totalRefs : Int

namespace Table

/-- `session_table_init` -/
def init : Table :=
  { sessions := fun _ => ⟨0, 0, 0, false, 0⟩
    created := 0
    buckets := fun _ => []
    totalSessions := 0
    totalRefs := 0 }

/-- Session `o` has been created and not yet freed. -/
def Live (t : Table) (o : Nat) : Prop := o < t.created ∧ (t.sessions o).frees = 0

/-- Write to a field of session `o`. -/
def modify (t : Table) (o : Nat) (f : SessionParameters → SessionParameters) : Table :=
  { t with sessions := Function.update t.sessions o (f (t.sessions o)) }

/-- The first entry with the id. -/
def lookupLocked (t : Table) (sessionId : SessionId) : Option Nat :=
  (t.buckets (hashSessionId sessionId)).find? fun o => (t.sessions o).sessionId = sessionId

def usable (t : Table) (sessionId : SessionId) : Option Nat :=
  (t.lookupLocked sessionId).filter fun o => !(t.sessions o).isDestroying

/-- Take a reference: `ref_count` and `total_refs` go up. -/
def acquire (t : Table) (o : Nat) : Table :=
  { t.modify o fun x => { x with refCount := x.refCount + 1 } with totalRefs := t.totalRefs + 1 }

/-- Give a reference back: `ref_count` and `total_refs` go down. -/
def drop (t : Table) (o : Nat) : Table :=
  { t.modify o fun x => { x with refCount := x.refCount - 1 } with totalRefs := t.totalRefs - 1 }

/-- `atomic_store(&entry->session->is_destroying, true)` -/
def markDestroying (t : Table) (o : Nat) : Table :=
  t.modify o fun x => { x with isDestroying := true }

/-- `malloc` returned an address that no live session has. -/
def Free (t : Table) (address : Nat) : Prop :=
  ∀ o < t.created, (t.sessions o).frees = 0 → (t.sessions o).address ≠ address

instance (t : Table) (address : Nat) : Decidable (t.Free address) :=
  inferInstanceAs (Decidable (∀ o < t.created, (t.sessions o).frees = 0 → _))

/-- Create a session at the head of its bucket. Its number is `created`. -/
def insertLocked (t : Table) (sessionId : SessionId) (address : Nat) : Table :=
  { t with
    sessions := Function.update t.sessions t.created ⟨sessionId, address, 0, false, 0⟩
    created := t.created + 1
    buckets := Function.update t.buckets (hashSessionId sessionId)
      (t.created :: t.buckets (hashSessionId sessionId))
    totalSessions := t.totalSessions + 1 }

/-- Unlink the first entry of the bucket that satisfies `p` and free it. -/
def unlinkFirst (t : Table) (bucket : Nat) (p : Nat → Bool) : Table :=
  match (t.buckets bucket).find? p with
  | none => t
  | some o =>
    { t.modify o fun x => { x with frees := x.frees + 1 } with
      buckets := Function.update t.buckets bucket ((t.buckets bucket).eraseP p)
      totalSessions := t.totalSessions - 1 }

/-- The removal loop of `ios_session_delete`: the first entry with this id. -/
def unlinkById (t : Table) (sessionId : SessionId) : Table :=
  t.unlinkFirst (hashSessionId sessionId) fun o => (t.sessions o).sessionId = sessionId

/-- The removal loop of `ios_session_release`: the entry whose session is at this address. -/
def unlinkByAddress (t : Table) (sessionId : SessionId) (address : Nat) : Table :=
  t.unlinkFirst (hashSessionId sessionId) fun o => (t.sessions o).address = address

/-- Unlink entry `o` of the bucket and free it. -/
def unlink (t : Table) (bucket o : Nat) : Table :=
  { t.modify o fun x => { x with frees := x.frees + 1 } with
    buckets := Function.update t.buckets bucket ((t.buckets bucket).erase o)
    totalSessions := t.totalSessions - 1 }

variable {o : Nat} {t : Table}

theorem eraseP_eq_erase {l : List Nat} {p : Nat → Bool} (h : l.find? p = some o) :
    l.eraseP p = l.erase o := by
  induction l with
  | nil => rfl
  | cons a l ih =>
    by_cases ha : p a
    · rw [find?_cons_of_pos ha] at h
      cases h
      rw [eraseP_cons_of_pos ha, erase_cons_head]
    · have hne : a ≠ o := fun e => ha (e ▸ find?_some h)
      rw [find?_cons_of_neg ha] at h
      rw [eraseP_cons_of_neg ha, erase_cons_tail (by simpa using hne), ih h]

theorem unlinkFirst_of_find {bucket : Nat} {p : Nat → Bool}
    (h : (t.buckets bucket).find? p = some o) : t.unlinkFirst bucket p = t.unlink bucket o := by
  unfold unlinkFirst unlink
  rw [h, eraseP_eq_erase h]

variable {sessionId : SessionId}

theorem unlinkById_of_lookup (h : t.lookupLocked sessionId = some o) :
    t.unlinkById sessionId = t.unlink (hashSessionId sessionId) o :=
  unlinkFirst_of_find h

/-! ## Fields of one session after an operation -/

theorem sessions_modify_self (t : Table) (o : Nat) (f : SessionParameters → SessionParameters) :
    (t.modify o f).sessions o = f (t.sessions o) :=
  update_self ..

theorem sessions_modify_of_ne (t : Table) {o' : Nat} (f : SessionParameters → SessionParameters)
    (h : o' ≠ o) : (t.modify o f).sessions o' = t.sessions o' :=
  update_of_ne h ..

variable {f : SessionParameters → SessionParameters}

theorem sessions_modify_field {β : Type} (g : SessionParameters → β) (t : Table)
    (hf : g (f (t.sessions o)) = g (t.sessions o)) (o' : Nat) :
    g ((t.modify o f).sessions o') = g (t.sessions o') := by
  by_cases h : o' = o
  · subst h; rw [sessions_modify_self, hf]
  · rw [sessions_modify_of_ne t f h]

/-! ## Well-formed tables -/

/--
The chains hold exactly the live sessions, each once and in the bucket of its id. A session is
freed at most once, and live sessions have different addresses.
-/
structure Wf (t : Table) : Prop where
  mem_iff : ∀ b o, o ∈ t.buckets b ↔ t.Live o ∧ hashSessionId (t.sessions o).sessionId = b
  nodup : ∀ b, (t.buckets b).Nodup
  frees_le : ∀ o, (t.sessions o).frees ≤ 1
  address_inj : ∀ o o', t.Live o → t.Live o' →
    (t.sessions o).address = (t.sessions o').address → o = o'

theorem Wf.mem_bucket (h : t.Wf) (ho : t.Live o) :
    o ∈ t.buckets (hashSessionId (t.sessions o).sessionId) :=
  (h.mem_iff _ _).mpr ⟨ho, rfl⟩

theorem Wf.init : Table.init.Wf := by
  refine ⟨?_, fun _ => nodup_nil, fun _ => Nat.zero_le 1, ?_⟩
  · simp [Table.init, Live]
  · intro o o' h
    exact absurd h.1 (Nat.not_lt_zero o)

/-- Two tables that differ in `ref_count`, `is_destroying` and the totals only. -/
structure SameShape (t t' : Table) : Prop where
  created : t'.created = t.created
  buckets : t'.buckets = t.buckets
  frees : ∀ o, (t'.sessions o).frees = (t.sessions o).frees
  sessionId : ∀ o, (t'.sessions o).sessionId = (t.sessions o).sessionId
  address : ∀ o, (t'.sessions o).address = (t.sessions o).address

theorem SameShape.live {t' : Table} (h : SameShape t t') (o : Nat) : t'.Live o ↔ t.Live o := by
  unfold Live
  rw [h.created, h.frees]

theorem SameShape.wf {t' : Table} (h : SameShape t t') (hw : t.Wf) : t'.Wf := by
  refine ⟨?_, ?_, ?_, ?_⟩
  · intro b o
    rw [h.buckets, h.live, h.sessionId]
    exact hw.mem_iff b o
  · intro b
    rw [h.buckets]
    exact hw.nodup b
  · intro o
    rw [h.frees]
    exact hw.frees_le o
  · intro o o' ho ho' ha
    rw [h.address, h.address] at ha
    exact hw.address_inj o o' ((h.live o).mp ho) ((h.live o').mp ho') ha

theorem SameShape.modify (t : Table) (hfrees : (f (t.sessions o)).frees = (t.sessions o).frees)
    (hid : (f (t.sessions o)).sessionId = (t.sessions o).sessionId)
    (haddress : (f (t.sessions o)).address = (t.sessions o).address) : SameShape t (t.modify o f) :=
  ⟨rfl, rfl, sessions_modify_field (·.frees) t hfrees, sessions_modify_field (·.sessionId) t hid,
    sessions_modify_field (·.address) t haddress⟩

section

variable (t : Table) (o : Nat)

theorem SameShape.acquire : SameShape t (t.acquire o) :=
  let h := SameShape.modify t (o := o) (f := fun x => { x with refCount := x.refCount + 1 })
    rfl rfl rfl
  ⟨rfl, rfl, h.frees, h.sessionId, h.address⟩

theorem SameShape.drop : SameShape t (t.drop o) :=
  let h := SameShape.modify t (o := o) (f := fun x => { x with refCount := x.refCount - 1 })
    rfl rfl rfl
  ⟨rfl, rfl, h.frees, h.sessionId, h.address⟩

theorem SameShape.markDestroying : SameShape t (t.markDestroying o) :=
  SameShape.modify t rfl rfl rfl

end

/-! ### Insertion -/

section

variable (t : Table) (sessionId : SessionId) (address : Nat)

theorem sessions_insert_self :
    (t.insertLocked sessionId address).sessions t.created = ⟨sessionId, address, 0, false, 0⟩ :=
  update_self ..

theorem sessions_insert_of_ne (h : o ≠ t.created) :
    (t.insertLocked sessionId address).sessions o = t.sessions o :=
  update_of_ne h ..

theorem buckets_insert_self :
    (t.insertLocked sessionId address).buckets (hashSessionId sessionId)
      = t.created :: t.buckets (hashSessionId sessionId) :=
  update_self ..

theorem buckets_insert_of_ne {b : Nat} (h : b ≠ hashSessionId sessionId) :
    (t.insertLocked sessionId address).buckets b = t.buckets b :=
  update_of_ne h ..

end

theorem live_insert_iff (t : Table) (sessionId : SessionId) (address o : Nat) :
    (t.insertLocked sessionId address).Live o ↔ t.Live o ∨ o = t.created := by
  unfold Live
  by_cases h : o = t.created
  · subst h
    simp [insertLocked]
  · rw [sessions_insert_of_ne t _ _ h]
    simp only [insertLocked, h, or_false]
    constructor
    · rintro ⟨h1, h2⟩
      exact ⟨by omega, h2⟩
    · rintro ⟨h1, h2⟩
      exact ⟨by omega, h2⟩

theorem Live.ne_created (h : t.Live o) : o ≠ t.created := by
  have := h.1
  omega

theorem mem_bucket_insert_iff (t : Table) (sessionId : SessionId) (address b o : Nat) :
    o ∈ (t.insertLocked sessionId address).buckets b ↔
      o ∈ t.buckets b ∨ (o = t.created ∧ b = hashSessionId sessionId) := by
  by_cases hb : b = hashSessionId sessionId
  · subst hb
    rw [buckets_insert_self, mem_cons, and_iff_left rfl]
    exact or_comm
  · simp [buckets_insert_of_ne t _ _ hb, hb]

theorem Wf.insertLocked (h : t.Wf) (sessionId : SessionId) {address : Nat}
    (hf : t.Free address) : (t.insertLocked sessionId address).Wf := by
  have hnew : ∀ b, t.created ∉ t.buckets b := fun b hm =>
    ((h.mem_iff b _).mp hm).1.ne_created rfl
  refine ⟨?_, ?_, ?_, ?_⟩
  · intro b o
    rw [mem_bucket_insert_iff, live_insert_iff]
    by_cases ho : o = t.created
    · subst ho
      rw [sessions_insert_self]
      simp only [hnew b, true_and, false_or, or_true]
      exact eq_comm
    · rw [sessions_insert_of_ne t _ _ ho]
      simp only [ho, false_and, or_false]
      exact h.mem_iff b o
  · intro b
    by_cases hb : b = hashSessionId sessionId
    · subst hb
      rw [buckets_insert_self]
      exact nodup_cons.mpr ⟨hnew _, h.nodup _⟩
    · rw [buckets_insert_of_ne t _ _ hb]
      exact h.nodup b
  · intro o
    by_cases ho : o = t.created
    · subst ho
      rw [sessions_insert_self]
      exact Nat.zero_le 1
    · rw [sessions_insert_of_ne t _ _ ho]
      exact h.frees_le o
  · intro o o' ho ho' ha
    rw [live_insert_iff] at ho ho'
    rcases ho with ho | rfl <;> rcases ho' with ho' | rfl
    · rw [sessions_insert_of_ne t _ _ ho.ne_created,
        sessions_insert_of_ne t _ _ ho'.ne_created] at ha
      exact h.address_inj o o' ho ho' ha
    · rw [sessions_insert_of_ne t _ _ ho.ne_created, sessions_insert_self] at ha
      exact absurd ha (hf o ho.1 ho.2)
    · rw [sessions_insert_of_ne t _ _ ho'.ne_created, sessions_insert_self] at ha
      exact absurd ha.symm (hf o' ho'.1 ho'.2)
    · rfl

/-! ### Unlinking -/

theorem live_unlink_iff (t : Table) (bucket o o' : Nat) :
    (t.unlink bucket o).Live o' ↔ t.Live o' ∧ o' ≠ o := by
  by_cases h : o' = o
  · subst h
    simp [Live, unlink, modify]
  · simp [Live, unlink, modify, h]

theorem sessions_unlink_of_ne (t : Table) (bucket : Nat) {o' : Nat} (h : o' ≠ o) :
    (t.unlink bucket o).sessions o' = t.sessions o' :=
  update_of_ne h ..

theorem sessions_unlink_field {β : Type} (g : SessionParameters → β) (t : Table) (bucket : Nat)
    (hg : ∀ x n, g { x with frees := n } = g x) (o' : Nat) :
    g ((t.unlink bucket o).sessions o') = g (t.sessions o') :=
  sessions_modify_field g t (f := fun x => { x with frees := x.frees + 1 }) (hg _ _) o'

theorem buckets_unlink_self (t : Table) (bucket o : Nat) :
    (t.unlink bucket o).buckets bucket = (t.buckets bucket).erase o :=
  update_self ..

theorem buckets_unlink_of_ne (t : Table) {bucket b : Nat} (o : Nat) (h : b ≠ bucket) :
    (t.unlink bucket o).buckets b = t.buckets b :=
  update_of_ne h ..

theorem Wf.unlink (h : t.Wf) (ho : t.Live o) :
    (t.unlink (hashSessionId (t.sessions o).sessionId) o).Wf := by
  refine ⟨?_, ?_, ?_, ?_⟩
  · intro b o'
    rw [live_unlink_iff, sessions_unlink_field (·.sessionId) t _ (fun _ _ => rfl)]
    by_cases hb : b = hashSessionId (t.sessions o).sessionId
    · subst hb
      rw [buckets_unlink_self, (h.nodup _).mem_erase_iff, h.mem_iff]
      constructor
      · rintro ⟨h1, h2, h3⟩
        exact ⟨⟨h2, h1⟩, h3⟩
      · rintro ⟨⟨h1, h2⟩, h3⟩
        exact ⟨h2, h1, h3⟩
    · rw [buckets_unlink_of_ne t _ hb, h.mem_iff]
      constructor
      · rintro ⟨h1, h2⟩
        exact ⟨⟨h1, fun e => hb (by rw [← h2, e])⟩, h2⟩
      · rintro ⟨⟨h1, _⟩, h2⟩
        exact ⟨h1, h2⟩
  · intro b
    by_cases hb : b = hashSessionId (t.sessions o).sessionId
    · subst hb
      rw [buckets_unlink_self]
      exact (h.nodup _).erase o
    · rw [buckets_unlink_of_ne t _ hb]
      exact h.nodup b
  · intro o'
    by_cases h' : o' = o
    · subst h'
      have h0 := ho.2
      simp [Table.unlink, modify, h0]
    · rw [sessions_unlink_of_ne t _ h']
      exact h.frees_le o'
  · intro o1 o2 h1 h2 ha
    rw [live_unlink_iff] at h1 h2
    rw [sessions_unlink_of_ne t _ h1.2, sessions_unlink_of_ne t _ h2.2] at ha
    exact h.address_inj o1 o2 h1.1 h2.1 ha

/-! ### Searching -/

theorem Wf.lookup_spec (h : t.Wf) (hl : t.lookupLocked sessionId = some o) :
    t.Live o ∧ (t.sessions o).sessionId = sessionId := by
  have hid := find?_some hl
  exact ⟨((h.mem_iff _ _).mp (mem_of_find?_eq_some hl)).1, by simpa using hid⟩

theorem Wf.unlinkByAddress_eq (h : t.Wf) (ho : t.Live o) :
    t.unlinkByAddress (t.sessions o).sessionId (t.sessions o).address
      = t.unlink (hashSessionId (t.sessions o).sessionId) o := by
  apply unlinkFirst_of_find
  cases hf : (t.buckets (hashSessionId (t.sessions o).sessionId)).find?
      fun o' => decide ((t.sessions o').address = (t.sessions o).address) with
  | none =>
    have := find?_eq_none.mp hf o (h.mem_bucket ho)
    simp at this
  | some o' =>
    have ha := find?_some hf
    have hm := ((h.mem_iff _ _).mp (mem_of_find?_eq_some hf)).1
    rw [h.address_inj o' o hm ho (by simpa using ha)]

/-! ## The whole table -/

def entries (t : Table) : List Nat := (List.range hashTableSize).flatMap t.buckets

theorem Wf.mem_entries_iff (h : t.Wf) (o : Nat) : o ∈ t.entries ↔ t.Live o := by
  unfold entries
  rw [mem_flatMap]
  constructor
  · rintro ⟨b, _, hm⟩
    exact ((h.mem_iff b o).mp hm).1
  · intro ho
    exact ⟨_, mem_range.mpr (hashSessionId_lt _), h.mem_bucket ho⟩

theorem Wf.nodup_entries (h : t.Wf) : t.entries.Nodup := by
  unfold entries
  rw [nodup_flatMap]
  refine ⟨fun b _ => h.nodup b, nodup_range.imp ?_⟩
  intro b b' hne o hb hb'
  exact hne (((h.mem_iff b o).mp hb).2.symm.trans ((h.mem_iff b' o).mp hb').2)

theorem entries_update (buckets : Nat → List Nat) {b : Nat} (hb : b < hashTableSize) :
    ∃ pre post, ∀ l, (List.range hashTableSize).flatMap (Function.update buckets b l)
      = pre ++ l ++ post := by
  have hsplit : range hashTableSize
      = range b ++ [b] ++ (range (hashTableSize - b - 1)).map (b + 1 + ·) := by
    conv_lhs => rw [show hashTableSize = b + 1 + (hashTableSize - b - 1) by omega]
    rw [range_add, range_succ]
  refine ⟨(range b).flatMap buckets,
    ((range (hashTableSize - b - 1)).map (b + 1 + ·)).flatMap buckets, ?_⟩
  intro l
  rw [hsplit, flatMap_append, flatMap_append]
  congr 1
  · congr 1
    · apply flatMap_congr
      intro i hi
      have := mem_range.mp hi
      exact update_of_ne (by omega) ..
    · simp
  · apply flatMap_congr
    intro i hi
    obtain ⟨j, _, rfl⟩ := mem_map.mp hi
    exact update_of_ne (by omega) ..

theorem entries_insert (t : Table) (sessionId : SessionId) (address : Nat) :
    (t.insertLocked sessionId address).entries.Perm (t.created :: t.entries) := by
  obtain ⟨pre, post, h⟩ := entries_update t.buckets (hashSessionId_lt sessionId)
  have hold := h (t.buckets (hashSessionId sessionId))
  rw [update_eq_self] at hold
  have hnew : (t.insertLocked sessionId address).entries
      = pre ++ (t.created :: t.buckets (hashSessionId sessionId)) ++ post := h _
  rw [hnew]
  unfold entries
  rw [hold]
  simp only [append_assoc]
  exact perm_middle

theorem entries_unlink (t : Table) {bucket : Nat} (hb : bucket < hashTableSize)
    (hm : o ∈ t.buckets bucket) : t.entries.Perm (o :: (t.unlink bucket o).entries) := by
  obtain ⟨pre, post, h⟩ := entries_update t.buckets hb
  have hold := h (t.buckets bucket)
  rw [update_eq_self] at hold
  have hnew : (t.unlink bucket o).entries = pre ++ (t.buckets bucket).erase o ++ post := h _
  rw [hnew]
  unfold entries
  rw [hold]
  have hp := ((perm_cons_erase hm).append_left pre).append_right post
  refine hp.trans ?_
  simp only [append_assoc]
  exact perm_middle

end Table

end IosSystem.Session
