import IosSystem.Lib.Transition
import IosSystem.PidAlloc.Allocator
import Mathlib.Algebra.Ring.Nat
import Mathlib.Data.Finset.Card

/-!
# Serial use of the PID allocator

`ios_pid_allocate`, `ios_pid_lookup`, `ios_pid_lookup_by_thread`, `ios_pid_set_thread` and
`ios_pid_release`, each run to completion before the next one starts.

`Inv` says where every context is, what its count means and what the counters count.
-/

namespace IosSystem.PidAlloc

open List Function Allocator

/-! ## The functions -/

/-- What `pid_allocator_pop_free_list` writes to the context it returns. -/
def Context.reuse (x : Context) : Context :=
  { x with nextFree := none, isAllocated := true, refCount := 1 }

/-- What `pid_allocator_push_free_list` writes to the context. -/
def Context.retire (oldHead : Option Nat) (x : Context) : Context :=
  { x with threadId := 0, isAllocated := false, nextFree := oldHead }

/-- A successful exchange of `free_list.head`, and the counter. -/
def Allocator.setHead (a : Allocator) (head : Option Nat) (n : Int) : Allocator :=
  { a with head := head, size := a.size + n }

/-- `pid_allocator_pop_free_list` -/
def popFreeList (a : Allocator) : Allocator × Option Nat :=
  match a.head with
  | none => (a, none)
  | some c => ((a.setHead (a.contexts c).nextFree (-1)).modify c Context.reuse, some c)

/-- `pid_allocator_push_free_list` -/
def pushFreeList (a : Allocator) (c : Nat) : Allocator :=
  (a.modify c (Context.retire a.head)).setHead (some c) 1

/-- `pid_allocator_insert_active`, and the counter. -/
def activate (a : Allocator) (c : Nat) : Allocator :=
  { a.insertActive c with currentlyActive := a.currentlyActive + 1 }

/-- `pid_allocator_remove_active`, and the counter. -/
def deactivate (a : Allocator) (c : Nat) : Allocator :=
  { a.removeActive c with currentlyActive := a.currentlyActive - 1 }

/-- `ios_pid_allocate`. `calloc` says whether the allocation of a new context succeeds. -/
def allocate (a : Allocator) (calloc : Bool) : Allocator × Option Nat :=
  match popFreeList a with
  | (a1, some c) => (activate a1 c, some c)
  | (a1, none) =>
    let newPid := a1.nextPid
    let a2 := { a1 with nextPid := wrapPid (newPid + 1) }
    if calloc then
      let a3 := { a2.createContext newPid with totalAllocated := a2.totalAllocated + 1 }
      (activate a3 a2.created, some a2.created)
    else (a2, none)

/-- `ios_pid_release` -/
def release (a : Allocator) (c : Nat) : Allocator :=
  let prevCount := (a.contexts c).refCount
  let a1 := a.addRef c (-1)
  if 1 < prevCount then a1 else pushFreeList (deactivate a1 c) c

/-- `ios_pid_lookup` -/
def lookup (a : Allocator) (pid : Int) : Allocator × Option Nat :=
  match a.find pid with
  | some c => (a.addRef c 1, some c)
  | none => (a, none)

/-- `ios_pid_lookup_by_thread` -/
def lookupByThread (a : Allocator) (thread : Nat) : Allocator × Option Nat :=
  match (List.range hashTableSize).findSome? (a.findThread thread) with
  | some c => (a.addRef c 1, some c)
  | none => (a, none)

/-- `ios_pid_set_thread` -/
def setThread (a : Allocator) (c thread : Nat) : Allocator :=
  a.modify c fun x => { x with threadId := thread }

/-! ## Sequences of calls -/

/-- The allocator, the references that were returned and not yet released, and how many pids
`next_pid` has given out. -/
structure State where
  alloc : Allocator
  refs : List Nat
  pids : Nat

def State.initial : State := ⟨Allocator.init, [], 0⟩

inductive Call where
  | allocate (calloc : Bool)
  | lookup (pid : Int)
  | lookupByThread (thread : Nat)
  | setThread (c thread : Nat)
  | release (c : Nat)

def call (s : State) : Call → Option State
  | .allocate calloc =>
    let r := allocate s.alloc calloc
    some ⟨r.1, r.2.toList ++ s.refs, if s.alloc.head = none then s.pids + 1 else s.pids⟩
  | .lookup pid =>
    let r := lookup s.alloc pid
    some ⟨r.1, r.2.toList ++ s.refs, s.pids⟩
  | .lookupByThread thread =>
    let r := lookupByThread s.alloc thread
    some ⟨r.1, r.2.toList ++ s.refs, s.pids⟩
  | .setThread c thread =>
    if c ∈ s.refs then some { s with alloc := setThread s.alloc c thread } else none
  | .release c =>
    if c ∈ s.refs then some { s with alloc := release s.alloc c, refs := s.refs.erase c } else none

def Reachable (s : State) : Prop :=
  Transition.Reachable call (fun _ _ => True) (· = State.initial) s

/-! ## The invariant -/

def Allocator.activeCount (a : Allocator) : Nat :=
  ((Finset.range a.created).filter fun c => a.Active c).card

/-- The free list has all contexts that are neither active nor in transit. -/
def Allocator.FreeOk (a : Allocator) (transit : Option Nat) : Prop :=
  ∃ l, Linked.Chain a.next a.head l ∧ a.size = l.length ∧
    ∀ c, c ∈ l ↔ c < a.created ∧ ¬ a.Active c ∧ transit ≠ some c

/-- Contexts have different pids, which `next_pid` has passed. -/
structure Allocator.PidsOk (a : Allocator) : Prop where
  range : ∀ c < a.created, initialPid ≤ (a.contexts c).pid ∧ (a.contexts c).pid < a.nextPid
  inj : ∀ c < a.created, ∀ d < a.created, (a.contexts c).pid = (a.contexts d).pid → c = d

/-- `transit` is a context that a call has taken from the one place and not yet brought to the
other. -/
structure Inv (a : Allocator) (refs : List Nat) (transit : Option Nat) : Prop where
  table : a.TableOk
  free : a.FreeOk transit
  transit : ∀ c, transit = some c → c < a.created ∧ ¬ a.Active c
  pids : a.PidsOk
  count : ∀ c, a.Active c → (a.contexts c).isAllocated = true ∧
    (a.contexts c).refCount = refs.count c ∧ 1 ≤ (a.contexts c).refCount
  refs : ∀ c ∈ refs, a.Active c
  active : a.currentlyActive = a.activeCount
  total : a.totalAllocated = a.created

/-! ## Writes to a context -/

variable {c : Nat}

namespace Allocator

structure SameTable (a a' : Allocator) : Prop where
  created : a'.created = a.created
  buckets : a'.buckets = a.buckets
  pid : ∀ c, (a'.contexts c).pid = (a.contexts c).pid

variable {a a' : Allocator}

theorem SameTable.modify (a : Allocator) (c : Nat) (f : Context → Context)
    (hf : ∀ x, (f x).pid = x.pid) : SameTable a (a.modify c f) :=
  ⟨rfl, rfl, contexts_modify_field (·.pid) a (hf _)⟩

section

variable (h : SameTable a a')
include h

theorem SameTable.active (c : Nat) : a'.Active c ↔ a.Active c := by
  unfold Active bucketOf
  rw [h.buckets, h.pid]

theorem SameTable.tableOk (ht : a.TableOk) : a'.TableOk :=
  ht.congr h.buckets (Nat.le_of_eq h.created.symm) fun c _ => h.pid c

theorem SameTable.activeCount : a'.activeCount = a.activeCount := by
  unfold Allocator.activeCount
  rw [h.created]
  simp [h.active]

theorem SameTable.pidsOk (hn : a'.nextPid = a.nextPid) (hp : a.PidsOk) : a'.PidsOk := by
  refine ⟨fun c hc => ?_, fun c hc d hd he => ?_⟩
  · rw [h.pid, hn]
    exact hp.range c (h.created ▸ hc)
  · rw [h.pid, h.pid] at he
    exact hp.inj c (h.created ▸ hc) d (h.created ▸ hd) he

end

theorem activeCount_insertActive (hlt : c < a.created) (hc : ¬ a.Active c) :
    (a.insertActive c).activeCount = a.activeCount + 1 := by
  have hset : ((Finset.range a.created).filter fun d => (a.insertActive c).Active d)
      = insert c ((Finset.range a.created).filter fun d => a.Active d) := by
    ext d
    simp only [active_insertActive]
    grind
  show ((Finset.range a.created).filter fun d => (a.insertActive c).Active d).card = _
  rw [hset, Finset.card_insert_of_notMem fun h => hc (Finset.mem_filter.1 h).2]
  rfl

theorem activeCount_removeActive (ht : a.TableOk) (hc : a.Active c) :
    (a.removeActive c).activeCount + 1 = a.activeCount := by
  have hset : ((Finset.range a.created).filter fun d => (a.removeActive c).Active d)
      = ((Finset.range a.created).filter fun d => a.Active d).erase c := by
    ext d
    simp only [Finset.mem_erase, Finset.mem_filter, active_removeActive ht]
    tauto
  show ((Finset.range a.created).filter fun d => (a.removeActive c).Active d).card + 1 = _
  rw [hset, Finset.card_erase_add_one
    (Finset.mem_filter.2 ⟨Finset.mem_range.2 (ht.lt_created hc), hc⟩)]
  rfl

end Allocator

/-! ## The elementary changes -/

section changes

variable {a a' : Allocator} {refs refs' : List Nat} {t t' : Option Nat} {c : Nat}

theorem Inv.of_sameTable (h : Inv a refs t) (hs : a.SameTable a') (hn : a'.nextPid = a.nextPid)
    (hca : a'.currentlyActive = a.currentlyActive) (hta : a'.totalAllocated = a.totalAllocated)
    (hfree : a'.FreeOk t') (ht : ∀ d, t' = some d → d < a.created ∧ ¬ a.Active d)
    (hcount : ∀ d, a.Active d → (a'.contexts d).isAllocated = true ∧
      (a'.contexts d).refCount = refs'.count d ∧ 1 ≤ (a'.contexts d).refCount)
    (hrefs : ∀ d ∈ refs', a.Active d) : Inv a' refs' t' := by
  have hact := hs.active
  refine ⟨hs.tableOk h.table, hfree, fun d hd => ?_, hs.pidsOk hn h.pids, fun d hd => ?_,
    fun d hd => ?_, ?_, ?_⟩
  · rw [hs.created, hact]
    exact ht d hd
  · exact hcount d ((hact d).1 hd)
  · exact (hact d).2 (hrefs d hd)
  · rw [hca, hs.activeCount]
    exact h.active
  · rw [hta, hs.created]
    exact h.total

theorem FreeOk.congr (h : a.FreeOk t) (hs : a.SameTable a') (hh : a'.head = a.head)
    (hz : a'.size = a.size) (hn : a'.next = a.next) : a'.FreeOk t := by
  obtain ⟨l, hl, hsize, hmem⟩ := h
  refine ⟨l, ?_, hz.trans hsize, fun d => ?_⟩
  · rw [hn, hh]
    exact hl
  · rw [hmem, hs.created, hs.active]

theorem next_modify {f : Context → Context} (hf : ∀ x, (f x).nextFree = x.nextFree) :
    (a.modify c f).next = a.next := by
  funext d
  exact contexts_modify_field (·.nextFree) a (hf _) d

theorem next_modify_update (f : Context → Context) (p : Option Nat)
    (hf : (f (a.contexts c)).nextFree = p) : (a.modify c f).next = Function.update a.next c p := by
  funext d
  unfold Allocator.next
  by_cases hd : d = c
  · subst hd
    rw [Allocator.contexts_modify_self, update_self, hf]
  · rw [Allocator.contexts_modify_of_ne a f hd, update_of_ne hd]

variable {n : Int}

theorem Inv.addRef (h : Inv a refs none) (hc : a.Active c)
    (hself : (refs'.count c : Int) = refs.count c + n) (hpos : 1 ≤ (refs'.count c : Int))
    (hother : ∀ d, d ≠ c → refs'.count d = refs.count d) (hrefs : ∀ d ∈ refs', d = c ∨ d ∈ refs) :
    Inv (a.addRef c n) refs' none := by
  have hs : a.SameTable (a.addRef c n) := .modify a c _ fun _ => rfl
  refine h.of_sameTable hs rfl rfl rfl
    (FreeOk.congr h.free hs rfl rfl (next_modify fun _ => rfl)) (fun _ hd => by cases hd) ?_ ?_
  · intro d hd
    obtain ⟨ha, hr, h1⟩ := h.count d hd
    by_cases hdc : d = c
    · subst hdc
      rw [contexts_addRef_self]
      exact ⟨ha, by simp only [hr, hself], by simp only [hr]; omega⟩
    · rw [contexts_addRef_of_ne a _ hdc, hother d hdc]
      exact ⟨ha, hr, h1⟩
  · intro d hd
    rcases hrefs d hd with rfl | hd
    · exact hc
    · exact h.refs d hd

theorem Inv.setThread (h : Inv a refs none) (c thread : Nat) :
    Inv (setThread a c thread) refs none := by
  have hs : a.SameTable (PidAlloc.setThread a c thread) := .modify a c _ fun _ => rfl
  refine h.of_sameTable hs rfl rfl rfl
    (FreeOk.congr h.free hs rfl rfl (next_modify fun _ => rfl)) (fun _ hd => by cases hd) ?_ h.refs
  intro d hd
  have hfield : ∀ {β : Type} (g : Context → β), (∀ x t, g { x with threadId := t } = g x) →
      g ((PidAlloc.setThread a c thread).contexts d) = g (a.contexts d) :=
    fun g hg => contexts_modify_field g a (hg _ _) d
  rw [hfield (·.isAllocated) fun _ _ => rfl, hfield (·.refCount) fun _ _ => rfl]
  exact h.count d hd

theorem popFreeList_of_head (hh : a.head = some c) :
    popFreeList a = ((a.setHead (a.next c) (-1)).modify c Context.reuse, some c) := by
  unfold popFreeList
  rw [hh]
  rfl

theorem Inv.pop (h : Inv a refs none) (hh : a.head = some c) :
    Inv ((a.setHead (a.next c) (-1)).modify c Context.reuse) refs (some c) := by
  obtain ⟨l, hl, hsize, hmem⟩ := h.free
  rw [hh] at hl
  obtain ⟨l', rfl, hl'⟩ := hl.head_cons
  have hnotin : c ∉ l' := (nodup_cons.1 hl.nodup).1
  obtain ⟨hlt, hnot, -⟩ := (hmem c).1 mem_cons_self
  have hs : a.SameTable ((a.setHead (a.next c) (-1)).modify c Context.reuse) :=
    ⟨rfl, rfl, (Allocator.SameTable.modify (a.setHead _ _) c Context.reuse fun _ => rfl).pid⟩
  refine h.of_sameTable hs rfl rfl rfl ⟨l', ?_, ?_, fun d => ?_⟩ ?_ ?_ h.refs
  · rw [next_modify_update Context.reuse none rfl]
    exact hl'.update hnotin none
  · show a.size + -1 = _
    rw [hsize, length_cons]
    omega
  · rw [hs.active, hs.created]
    grind
  · rintro d ⟨⟩
    exact ⟨hlt, hnot⟩
  · intro d hd
    rw [contexts_modify_of_ne _ _ (by grind)]
    exact h.count d hd

theorem Inv.push (h : Inv a refs (some c)) : Inv (pushFreeList a c) refs none := by
  obtain ⟨l, hl, hsize, hmem⟩ := h.free
  obtain ⟨hlt, hnot⟩ := h.transit c rfl
  have hnotin : c ∉ l := fun hc => ((hmem c).1 hc).2.2 rfl
  have hs : a.SameTable (pushFreeList a c) :=
    ⟨rfl, rfl, (Allocator.SameTable.modify a c (Context.retire a.head) fun _ => rfl).pid⟩
  refine h.of_sameTable hs rfl rfl rfl ⟨c :: l, ?_, ?_, fun d => ?_⟩ (fun _ hd => by cases hd) ?_
    h.refs
  · have hnext : (pushFreeList a c).next = update a.next c a.head :=
      next_modify_update (Context.retire a.head) a.head rfl
    refine .cons ?_
    rw [hnext, update_self]
    exact hl.update hnotin a.head
  · show a.size + 1 = _
    rw [hsize, length_cons]
    omega
  · rw [mem_cons, hmem, hs.active, hs.created]
    grind
  · intro d hd
    have hsame : (pushFreeList a c).contexts d = a.contexts d :=
      contexts_modify_of_ne _ _ (by grind)
    rw [hsame]
    exact h.count d hd

theorem Inv.activate (h : Inv a refs (some c)) (ha : (a.contexts c).isAllocated = true)
    (hr : (a.contexts c).refCount = 1) : Inv (activate a c) (c :: refs) none := by
  obtain ⟨hlt, hnot⟩ := h.transit c rfl
  have hact : ∀ d, (PidAlloc.activate a c).Active d ↔ a.Active d ∨ d = c :=
    active_insertActive a c
  have hnone : refs.count c = 0 := count_eq_zero.2 fun hc => hnot (h.refs c hc)
  obtain ⟨l, hl, hsize, hmem⟩ := h.free
  refine ⟨?_, ⟨l, hl, hsize, fun d => ?_⟩, fun _ hd => (by cases hd), ⟨h.pids.range, h.pids.inj⟩,
    fun d hd => ?_, fun d hd => ?_, ?_, h.total⟩
  · have ht := h.table.insertActive hlt hnot
    exact ⟨ht.nodup, ht.bucket⟩
  · rw [hmem, hact]
    show d < a.created ∧ _ ↔ d < a.created ∧ _
    grind
  · rcases (hact d).1 hd with hd | rfl
    · rw [count_cons_of_ne (by grind)]
      exact h.count d hd
    · rw [count_cons_self, hnone]
      exact ⟨ha, hr, Int.le_of_eq hr.symm⟩
  · grind [h.refs d]
  · have hcount := activeCount_insertActive hlt hnot
    have := h.active
    show a.currentlyActive + 1 = ((a.insertActive c).activeCount : Int)
    omega

theorem Inv.nextPid (h : Inv a refs t) (hn : a.nextPid ≤ n) :
    Inv { a with nextPid := n } refs t := by
  obtain ⟨ht, hf, htr, hp, hc, hr, hact, htot⟩ := h
  refine ⟨⟨ht.nodup, ht.bucket⟩, hf, htr, ⟨fun c hc => ?_, hp.inj⟩, hc, hr, hact, htot⟩
  have := hp.range c hc
  exact ⟨this.1, Int.lt_of_lt_of_le this.2 hn⟩

theorem Inv.create (h : Inv a refs none) (h0 : initialPid ≤ a.nextPid) (hn : a.nextPid < n) :
    Inv { { a with nextPid := n }.createContext a.nextPid with
      totalAllocated := a.totalAllocated + 1 } refs (some a.created) := by
  obtain ⟨l, hl, hsize, hmem⟩ := h.free
  -- the fields of the contexts that exist, and the table, are as before
  have hold : ∀ d, d ≠ a.created →
      ({ a with nextPid := n }.createContext a.nextPid).contexts d = a.contexts d :=
    fun d hd => contexts_create_of_ne { a with nextPid := n } _ hd
  have hnew : (({ a with nextPid := n }.createContext a.nextPid).contexts a.created).pid
      = a.nextPid := congrArg (·.pid) (contexts_create_self { a with nextPid := n } _)
  have htable : ({ a with nextPid := n }.createContext a.nextPid).TableOk :=
    h.table.congr rfl (Nat.le_succ _) fun d hd => congrArg (·.pid) (hold d (Nat.ne_of_lt hd))
  have hnowhere : ∀ b, a.created ∉ a.buckets b := fun b hm =>
    Nat.lt_irrefl _ (h.table.bucket b _ hm).1
  have hact : ∀ d, ({ a with nextPid := n }.createContext a.nextPid).Active d ↔ a.Active d := by
    intro d
    by_cases hd : d = a.created
    · subst hd
      exact iff_of_false (hnowhere _) (hnowhere _)
    · unfold Allocator.Active bucketOf
      rw [hold d hd]
      rfl
  refine ⟨⟨htable.nodup, htable.bucket⟩, ⟨l, ?_, hsize, fun d => ?_⟩, fun d hd => ?_, ⟨?_, ?_⟩,
    fun d hd => ?_, fun d hd => (hact d).2 (h.refs d hd), ?_, ?_⟩
  · refine hl.congr fun d hd => congrArg (·.nextFree) (hold d ?_)
    exact Nat.ne_of_lt ((hmem d).1 hd).1
  · show _ ↔ d < a.created + 1 ∧
      ¬ ({ a with nextPid := n }.createContext a.nextPid).Active d ∧ some a.created ≠ some d
    grind
  · cases hd
    exact ⟨Nat.lt_succ_self _, fun hc => hnowhere _ ((hact _).1 hc)⟩
  · intro d (hd : d < a.created + 1)
    show initialPid ≤ (({ a with nextPid := n }.createContext a.nextPid).contexts d).pid ∧
      (({ a with nextPid := n }.createContext a.nextPid).contexts d).pid < n
    rcases eq_or_ne d a.created with rfl | hdc
    · rw [hnew]
      exact ⟨h0, hn⟩
    · rw [hold d hdc]
      have := h.pids.range d (by omega)
      omega
  · intro d (hd : d < a.created + 1) e (he : e < a.created + 1)
      (hpid : (({ a with nextPid := n }.createContext a.nextPid).contexts d).pid
        = (({ a with nextPid := n }.createContext a.nextPid).contexts e).pid)
    -- the pid of the new context is above those of the others
    have hrange := h.pids.range
    have hinj := h.pids.inj
    by_cases hdc : d = a.created <;> by_cases hec : e = a.created <;>
      simp only [hdc, hold, ne_eq, not_false_eq_true] at hpid <;> grind
  · have hd' := (hact d).1 hd
    have hdc : d ≠ a.created := fun he => hnowhere _ (he ▸ hd')
    have := h.count d hd'
    rw [← hold d hdc] at this
    exact this
  · have hset : ((Finset.range (a.created + 1)).filter fun d =>
        ({ a with nextPid := n }.createContext a.nextPid).Active d)
        = (Finset.range a.created).filter fun d => a.Active d := by
      ext d
      simp only [Finset.mem_filter, hact, Finset.mem_range]
      exact ⟨fun hd => ⟨h.table.lt_created hd.2, hd.2⟩, fun hd => ⟨Nat.lt_succ_of_lt hd.1, hd.2⟩⟩
    show a.currentlyActive = (((Finset.range (a.created + 1)).filter fun d =>
        ({ a with nextPid := n }.createContext a.nextPid).Active d).card : Int)
    rw [hset]
    exact h.active
  · show a.totalAllocated + 1 = ((a.created + 1 : Nat) : Int)
    rw [h.total]
    omega

theorem Inv.retire (h : Inv a refs none) (hc : a.Active c) (hone : refs.count c = 1) :
    Inv (deactivate (a.addRef c (-1)) c) (refs.erase c) (some c) := by
  have hs : a.SameTable (a.addRef c (-1)) := .modify a c _ fun _ => rfl
  have ht := hs.tableOk h.table
  have hact : ∀ d, (deactivate (a.addRef c (-1)) c).Active d ↔ a.Active d ∧ d ≠ c := by
    intro d
    rw [← hs.active]
    exact active_removeActive ht c d
  have hrefs : c ∉ refs.erase c := by
    rw [← count_eq_zero, count_erase_self, hone]
  obtain ⟨l, hl, hsize, hmem⟩ := FreeOk.congr h.free hs rfl rfl (next_modify fun _ => rfl)
  have hp := hs.pidsOk rfl h.pids
  refine ⟨?_, ⟨l, hl, hsize, fun d => ?_⟩, fun d hd => ?_, ⟨hp.range, hp.inj⟩, fun d hd => ?_,
    fun d hd => ?_, ?_, h.total⟩
  · have htr := ht.removeActive c
    exact ⟨htr.nodup, htr.bucket⟩
  · rw [hmem, hact, hs.active]
    show d < a.created ∧ _ ↔ d < a.created ∧ _
    grind
  · cases hd
    exact ⟨h.table.lt_created hc, fun hd => ((hact c).1 hd).2 rfl⟩
  · obtain ⟨hd, hdc⟩ := (hact d).1 hd
    have hfield : (deactivate (a.addRef c (-1)) c).contexts d = a.contexts d :=
      contexts_addRef_of_ne a _ hdc
    rw [hfield, count_erase_of_ne hdc]
    exact h.count d hd
  · exact (hact d).2 ⟨h.refs d (mem_of_mem_erase hd), fun he => hrefs (he ▸ hd)⟩
  · have hcount := activeCount_removeActive ht ((hs.active c).2 hc)
    rw [hs.activeCount] at hcount
    have := h.active
    show a.currentlyActive - 1 = (((a.addRef c (-1)).removeActive c).activeCount : Int)
    omega

end changes

/-! ## Every call -/

section calls

variable {a : Allocator} {refs : List Nat}

theorem Inv.allocate (h : Inv a refs none) (calloc : Bool) (h0 : initialPid ≤ a.nextPid)
    (hn : a.head = none → a.nextPid + 1 < 2 ^ 31) :
    Inv (allocate a calloc).1 ((allocate a calloc).2.toList ++ refs) none := by
  unfold PidAlloc.allocate
  cases hh : a.head with
  | some c =>
    rw [popFreeList_of_head hh]
    exact (h.pop hh).activate (congrArg (·.isAllocated) (contexts_modify_self ..))
      (congrArg (·.refCount) (contexts_modify_self ..))
  | none =>
    have hpop : popFreeList a = (a, none) := by
      unfold popFreeList
      rw [hh]
    have hwrap : wrapPid (a.nextPid + 1) = a.nextPid + 1 :=
      wrapPid_of_lt (by unfold initialPid at h0; omega) (hn hh)
    rw [hpop]
    cases calloc with
    | false =>
      exact h.nextPid (by omega)
    | true =>
      have hself := contexts_create_self { a with nextPid := a.nextPid + 1 } a.nextPid
      exact (h.create h0 (by omega)).activate (congrArg (·.isAllocated) hself)
        (congrArg (·.refCount) hself)

theorem Inv.found (h : Inv a refs none) (hc : a.Active c) :
    Inv (a.addRef c 1) (c :: refs) none := by
  refine h.addRef hc ?_ ?_ (fun d hd => count_cons_of_ne (Ne.symm hd))
    fun d hd => mem_cons.1 hd
  · rw [count_cons_self]
    omega
  · rw [count_cons_self]
    omega

theorem active_of_find (ht : a.TableOk) {pid : Int} (h : a.find pid = some c) : a.Active c :=
  ht.active (mem_of_find?_eq_some h)

theorem active_of_findThread (ht : a.TableOk) {thread b : Nat}
    (h : a.findThread thread b = some c) :
    a.Active c :=
  ht.active (mem_of_find?_eq_some h)

theorem Inv.lookup (h : Inv a refs none) (pid : Int) :
    Inv (lookup a pid).1 ((lookup a pid).2.toList ++ refs) none := by
  unfold PidAlloc.lookup
  split
  · next c hc => exact h.found (active_of_find h.table hc)
  · exact h

theorem Inv.lookupByThread (h : Inv a refs none) (thread : Nat) :
    Inv (lookupByThread a thread).1 ((lookupByThread a thread).2.toList ++ refs) none := by
  unfold PidAlloc.lookupByThread
  split
  · next c hc =>
    obtain ⟨b, -, hb⟩ := exists_of_findSome?_eq_some hc
    exact h.found (active_of_findThread h.table hb)
  · exact h

theorem Inv.release (h : Inv a refs none) (hc : c ∈ refs) :
    Inv (release a c) (refs.erase c) none := by
  have hact := h.refs c hc
  obtain ⟨-, hcount, h1⟩ := h.count c hact
  unfold PidAlloc.release
  by_cases hlast : 1 < (a.contexts c).refCount
  · simp only [hlast]
    refine h.addRef hact ?_ ?_ (fun d hd => count_erase_of_ne hd)
      fun d hd => .inr (mem_of_mem_erase hd)
    · rw [count_erase_self]
      omega
    · rw [count_erase_self]
      omega
  · simp only [hlast]
    exact (h.retire hact (by omega)).push

end calls

/-- The counters are meaningful as long as `next_pid` has not run out of pids. -/
def Good (s : State) : Prop :=
  s.pids < 2 ^ 31 - 100 → Inv s.alloc s.refs none ∧ s.alloc.nextPid = initialPid + s.pids

theorem nextPid_allocate (a : Allocator) (calloc : Bool) :
    (allocate a calloc).1.nextPid =
      if a.head = none then wrapPid (a.nextPid + 1) else a.nextPid := by
  unfold allocate popFreeList
  cases hh : a.head with
  | none => cases calloc <;> rfl
  | some c => rfl

theorem nextPid_release (a : Allocator) (c : Nat) : (release a c).nextPid = a.nextPid := by
  unfold release
  by_cases hlast : 1 < (a.contexts c).refCount
  · simp only [hlast]; rfl
  · simp only [hlast]; rfl

theorem good_call {s s' : State} {l : Call} (h : Good s) (hs : call s l = some s') : Good s' := by
  intro hlt
  cases l with
  | allocate calloc =>
    cases hs
    have hpids : s.pids ≤ if s.alloc.head = none then s.pids + 1 else s.pids := by split <;> omega
    obtain ⟨hinv, hnext⟩ := h (Nat.lt_of_le_of_lt hpids hlt)
    have h0 : initialPid ≤ s.alloc.nextPid := by omega
    have hn : s.alloc.head = none → s.alloc.nextPid + 1 < 2 ^ 31 := by
      intro hh
      simp only [hh, if_true] at hlt
      unfold initialPid at hnext
      omega
    refine ⟨hinv.allocate calloc h0 hn, ?_⟩
    rw [nextPid_allocate]
    split
    · next hh =>
      rw [wrapPid_of_lt (by unfold initialPid at h0; omega) (hn hh), hnext]
      push_cast
      omega
    · exact hnext
  | lookup pid =>
    cases hs
    obtain ⟨hinv, hnext⟩ := h hlt
    refine ⟨hinv.lookup pid, ?_⟩
    unfold lookup
    split <;> exact hnext
  | lookupByThread thread =>
    cases hs
    obtain ⟨hinv, hnext⟩ := h hlt
    refine ⟨hinv.lookupByThread thread, ?_⟩
    unfold lookupByThread
    split <;> exact hnext
  | setThread c thread =>
    simp only [call] at hs
    split at hs <;> cases hs
    obtain ⟨hinv, hnext⟩ := h hlt
    exact ⟨hinv.setThread c thread, hnext⟩
  | release c =>
    simp only [call] at hs
    split at hs <;> cases hs
    next hc =>
      obtain ⟨hinv, hnext⟩ := h hlt
      refine ⟨hinv.release hc, ?_⟩
      rw [nextPid_release]
      exact hnext

theorem good_initial : Good State.initial := by
  intro _
  have hnone : ∀ c : Nat, ¬ c < State.initial.alloc.created := Nat.not_lt_zero
  refine ⟨⟨⟨fun _ => nodup_nil, ?_⟩, ⟨[], .nil, rfl, ?_⟩, ?_, ⟨?_, ?_⟩, ?_, ?_, rfl, rfl⟩, rfl⟩
  · exact fun b c hc => by cases hc
  · exact fun c => iff_of_false not_mem_nil fun h => hnone c h.1
  · exact fun c hc => by cases hc
  · exact fun c hc => absurd hc (hnone c)
  · exact fun c hc => absurd hc (hnone c)
  · exact fun c hc => by cases hc
  · exact fun c hc => by cases hc

/-! ## The theorem -/

theorem Inv.lookup_isSome {a : Allocator} {refs : List Nat} (h : Inv a refs none) (pid : Int) :
    (PidAlloc.lookup a pid).2.isSome = true ↔ ∃ c, a.Active c ∧ (a.contexts c).pid = pid := by
  unfold PidAlloc.lookup
  constructor
  · intro hs
    cases hf : a.find pid with
    | none => rw [hf] at hs; cases hs
    | some c =>
      have hp := find?_some hf
      rw [decide_eq_true_eq] at hp
      exact ⟨c, active_of_find h.table hf, hp.1⟩
  · rintro ⟨c, hc, rfl⟩
    cases hf : a.find (a.contexts c).pid with
    | some d => rfl
    | none =>
      -- the context itself would have been found
      refine absurd (decide_eq_true ⟨rfl, (h.count c hc).1⟩) (find?_eq_none.1 hf c hc)

theorem Inv.card_eq {a : Allocator} {refs : List Nat} (h : Inv a refs none) {l : List Nat}
    (hl : Linked.Chain a.next a.head l) : a.activeCount + l.length = a.created := by
  obtain ⟨l', hl', -, hmem⟩ := h.free
  obtain rfl := hl.unique hl'
  have hfree : l.toFinset = (Finset.range a.created).filter fun c => ¬ a.Active c := by
    ext c
    simp [hmem]
  have hlen : l.length = ((Finset.range a.created).filter fun c => ¬ a.Active c).card := by
    rw [← hfree, toFinset_card_of_nodup hl.nodup]
  calc a.activeCount + l.length
      = ((Finset.range a.created).filter fun c => a.Active c).card
        + ((Finset.range a.created).filter fun c => ¬ a.Active c).card := by rw [hlen]; rfl
    _ = (Finset.range a.created).card := Finset.card_filter_add_card_filter_not _
    _ = a.created := Finset.card_range _

/-- After every sequence of calls, as long as `next_pid` has given out fewer than 2³¹ - 100 pids:
the pids of the contexts, where each context is, what its reference count is, what the three
counters are, and when a lookup succeeds. -/
theorem serial_accounting {s : State} (h : Reachable s) (hpids : s.pids < 2 ^ 31 - 100) :
    (∀ c < s.alloc.created, initialPid ≤ (s.alloc.contexts c).pid ∧
      (s.alloc.contexts c).pid < s.alloc.nextPid) ∧
    (∀ c < s.alloc.created, ∀ d < s.alloc.created,
      (s.alloc.contexts c).pid = (s.alloc.contexts d).pid → c = d) ∧
    s.alloc.TableOk ∧
    (∀ c < s.alloc.created, Xor (s.alloc.Active c) (s.alloc.OnFreeList c)) ∧
    (∀ c, s.alloc.Active c → (s.alloc.contexts c).refCount = s.refs.count c ∧
      1 ≤ (s.alloc.contexts c).refCount) ∧
    s.alloc.currentlyActive = s.alloc.activeCount ∧
    (∃ l, Linked.Chain s.alloc.next s.alloc.head l ∧ s.alloc.size = l.length) ∧
    s.alloc.totalAllocated = s.alloc.currentlyActive + s.alloc.size ∧
    ∀ pid, (lookup s.alloc pid).2.isSome = true ↔
      ∃ c, s.alloc.Active c ∧ (s.alloc.contexts c).pid = pid := by
  have hgood : Good s := by
    refine h.invariant ?_ fun _ _ _ hg _ hc => good_call hg hc
    rintro _ rfl
    exact good_initial
  obtain ⟨hinv, -⟩ := hgood hpids
  obtain ⟨l, hl, hsize, hmem⟩ := hinv.free
  refine ⟨hinv.pids.range, hinv.pids.inj, hinv.table, fun c hc => ?_, fun c hc =>
    (hinv.count c hc).2,
    hinv.active, ⟨l, hl, hsize⟩, ?_, hinv.lookup_isSome⟩
  · unfold Allocator.OnFreeList
    rw [hl.reaches_iff, hmem]
    by_cases ha : s.alloc.Active c
    · exact .inl ⟨ha, fun hf => hf.2.1 ha⟩
    · exact .inr ⟨⟨hc, ha, fun he => by cases he⟩, ha⟩
  · have hcard := hinv.card_eq hl
    have hactive := hinv.active
    have htotal := hinv.total
    omega

/-- Two contexts, of which the first has been looked up and released, and the second has been
released and allocated again; a `calloc` has failed in between. -/
theorem serial_accounting_reuse :
    ∃ s, Reachable s ∧ s.refs = [1, 0] ∧ s.alloc.nextPid = 103 ∧
      s.alloc.totalAllocated = s.alloc.currentlyActive + s.alloc.size := by
  have hrun : (Transition.run call State.initial
      [.allocate true, .lookup 100, .release 0, .allocate false, .allocate true, .release 1,
        .allocate true]).map (fun s => (s.refs, s.alloc.nextPid, s.pids))
      = some ([1, 0], 103, 3) := by
    decide
  obtain ⟨s, hs, he⟩ := Option.map_eq_some_iff.1 hrun
  simp only [Prod.mk.injEq] at he
  have hreach : Reachable s := Transition.Reachable.of_run (.start rfl) hs
  have h := serial_accounting hreach (by rw [he.2.2]; decide)
  exact ⟨s, hreach, he.1, he.2.1, h.2.2.2.2.2.2.2.1⟩

end IosSystem.PidAlloc
