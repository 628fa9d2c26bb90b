import IosSystem.Lib.Threads
import IosSystem.PidAlloc.Threads

/-!
# A context is in one place

Every context is on the free list, or owned by one thread that is moving it between the list and
the table, or referenced. The reference count of a referenced context is the number of its
references, and the active table holds the referenced contexts and those whose last reference has
just been given back.

Two kinds of steps break this, and `Guard` excludes them: a pop whose exchange succeeds although
`next` is not the link of the head any more (`Stale`), and a lookup that increments the count of a
context whose last reference is gone (`Revives`).
-/

namespace IosSystem

open Threads

namespace PidAlloc.Threads

open List Threads.State PC

/-! ## Places -/

/-- The context that belongs to the thread alone. -/
def PC.owns : PC → Option Nat
  | .popSize c | .popClear c | .popFlag c | .popRef c | .newCount c | .insert c | .relRemove c
  | .relCount c | .pushThread c | .pushFlag c | .pushLoad c | .pushStore c _
      | .pushCas c _ => some c
  | _ => none

/-- The context that the thread has a reference to: one that is about to be returned by
`ios_pid_allocate`, or one that was given to `ios_pid_release`. -/
def PC.refers : PC → Option Nat
  | .insertCount c | .relDec c => some c
  | _ => none

def PC.removes : PC → Option Nat
  | .relRemove c => some c
  | _ => none

/-- All the references to a context. -/
def State.references (s : State) (c : Nat) : Nat :=
  s.allocated.count c + s.lookedUp.count c + Threads.holders PC.refers s.threads c

def PC.Ok (a : Allocator) : PC → Prop
  | .newCount c | .insert c => (a.contexts c).refCount = 1
  | .relRemove c => (a.contexts c).refCount = 0
  | .pushCas c oldHead => a.next c = oldHead
  | .lookInc c => a.Active c
  | _ => True

/-- The invariant; `l` is the free list. -/
structure Inv (s : State) (l : List Nat) : Prop where
  chain : Linked.Chain s.alloc.next s.alloc.head l
  place : ∀ c, (if c ∈ l then 1 else 0) + Threads.holders PC.owns s.threads c
    + (if 0 < s.references c then 1 else 0) = if c < s.alloc.created then 1 else 0
  table : s.alloc.TableOk
  active : ∀ c, s.alloc.Active c ↔ 0 < s.references c + Threads.holders PC.removes s.threads c
  count : ∀ c, 0 < s.references c → (s.alloc.contexts c).refCount = s.references c
  ok : ∀ pc ∈ s.threads, pc.Ok s.alloc

/-! ## The guard -/

/-- The exchange would succeed with an old `next_free`. -/
def PC.stale (a : Allocator) : PC → Bool
  | .popCas head next => a.head = some head ∧ a.next head ≠ next
  | _ => false

/-- A context is taken whose last reference is gone. -/
def PC.revives (a : Allocator) : PC → Bool
  | .lookInc c => (a.contexts c).refCount < 1
  | _ => false

def At (p : PC → Bool) (s : State) : Label → Prop
  | .advance i _ => ∃ pc ∈ s.threads[i]?, p pc = true
  | _ => False

instance (p : PC → Bool) (s : State) : (l : Label) → Decidable (At p s l)
  | .advance i _ => inferInstanceAs (Decidable (∃ pc ∈ s.threads[i]?, p pc = true))
  | .allocate _ | .lookup _ _ | .lookupByThread _ _ | .setThread _ _ | .releaseAllocated _ _
  | .releaseLookedUp _ _ => .isFalse id

def Stale (s : State) (l : Label) : Prop := At (PC.stale s.alloc) s l

def Revives (s : State) (l : Label) : Prop := At (PC.revives s.alloc) s l

instance (s : State) (l : Label) : Decidable (Stale s l) := inferInstanceAs (Decidable (At _ s l))

instance (s : State) (l : Label) : Decidable (Revives s l) := inferInstanceAs (Decidable (At _ s l))

/-- No stale exchange, and no reference to a context that is being released. -/
def Guard (s : State) (l : Label) : Prop := ¬ Stale s l ∧ ¬ Revives s l

instance (s : State) (l : Label) : Decidable (Guard s l) :=
  inferInstanceAs (Decidable (_ ∧ _))

/-! ## Steps that move no context -/

variable {s s' : State} {l : List Nat} {i c : Nat} {pc pc' : PC}

theorem Inv.of_alloc (h : Inv s l) (ha : s'.alloc = s.alloc)
    (hr : ∀ c, s'.references c = s.references c)
    (ho : ∀ c, holders PC.owns s'.threads c = holders PC.owns s.threads c)
    (hm : ∀ c, holders PC.removes s'.threads c = holders PC.removes s.threads c)
    (hok : ∀ pc ∈ s'.threads, pc.Ok s.alloc) : Inv s' l := by
  refine ⟨?_, fun c => ?_, ?_, fun c => ?_, fun c => ?_, ?_⟩
  · rw [ha]; exact h.chain
  · rw [hr, ho, ha]; exact h.place c
  · rw [ha]; exact h.table
  · rw [hr, hm, ha]; exact h.active c
  · rw [hr, ha]; exact h.count c
  · rw [ha]; exact hok

theorem references_goto (hi : s.threads[i]? = some pc)
    (hr : pc'.refers = pc.refers) (c : Nat) : (s.goto i pc').references c = s.references c := by
  unfold references
  rw [goto, holders_set_of_eq hi hr]

theorem Inv.goto (h : Inv s l)
    (hi : s.threads[i]? = some pc) (ho : pc'.owns = pc.owns) (hr : pc'.refers = pc.refers)
    (hm : pc'.removes = pc.removes) (hok : pc'.Ok s.alloc) : Inv (s.goto i pc') l :=
  h.of_alloc rfl (references_goto hi hr) (holders_set_of_eq hi ho)
    (holders_set_of_eq hi hm) (forall_mem_set h.ok hok)

theorem Inv.returned (h : Inv s l) (hi : s.threads[i]? = some (.insertCount c)) :
    Inv ({ s with allocated := c :: s.allocated }.goto i .idle) l := by
  refine h.of_alloc rfl (fun d => ?_) (holders_set_of_eq hi rfl)
    (holders_set_of_eq hi rfl) (forall_mem_set h.ok trivial)
  have hset := holders_set hi refers .idle d
  show (c :: s.allocated).count d + s.lookedUp.count d
    + holders refers (s.threads.set i .idle) d
    = s.allocated.count d + s.lookedUp.count d + holders refers s.threads d
  simp only [refers, Option.some.injEq, reduceCtorEq, if_false] at hset
  rw [count_cons]
  simp only [beq_iff_eq]
  omega

theorem Inv.beginRelease (h : Inv s l)
    (hi : s.threads[i]? = some .idle) {allocated lookedUp : List Nat}
    (hc : ∀ d, allocated.count d + lookedUp.count d + (if c = d then 1 else 0)
      = s.allocated.count d + s.lookedUp.count d) :
    Inv ({ s with allocated := allocated, lookedUp := lookedUp }.goto i (.relDec c)) l := by
  refine h.of_alloc rfl (fun d => ?_) (holders_set_of_eq hi rfl)
    (holders_set_of_eq hi rfl) (forall_mem_set h.ok trivial)
  have hset := holders_set hi refers (.relDec c) d
  have hcd := hc d
  show allocated.count d + lookedUp.count d
    + holders refers (s.threads.set i (.relDec c)) d
    = s.allocated.count d + s.lookedUp.count d + holders refers s.threads d
  simp only [refers, Option.some.injEq, reduceCtorEq, if_false] at hset
  omega

/-- What a thread relies on are the fields of the context it owns, and that the context it has
found is in the table. -/
theorem PC.Ok.congr {a a' : Allocator} (h : pc.Ok a)
    (ho : ∀ c, pc.owns = some c → a'.contexts c = a.contexts c)
    (ha : ∀ c, pc = .lookInc c → a.Active c → a'.Active c) : pc.Ok a' := by
  cases pc with
  | newCount c | insert c | relRemove c | pushCas c old =>
    have hc := ho c rfl
    simp only [PC.Ok, Allocator.next, hc] at h ⊢
    exact h
  | lookInc c => exact ha c rfl h
  | _ => trivial

theorem Inv.of_counters (h : Inv s l) (a : Allocator) (hc : a.contexts = s.alloc.contexts)
    (hn : a.created = s.alloc.created) (hb : a.buckets = s.alloc.buckets)
    (hh : a.head = s.alloc.head) : Inv { s with alloc := a } l := by
  have hs : s.alloc.SameTable a := ⟨hn, hb, fun c => by rw [hc]⟩
  have hnext : a.next = s.alloc.next := by
    unfold Allocator.next
    rw [hc]
  refine ⟨?_, fun c => ?_, hs.tableOk h.table, fun c => (hs.active c).trans (h.active c),
    fun c hr => ?_, fun pc hpc => ?_⟩
  · rw [hnext, hh]
    exact h.chain
  · rw [hn]
    exact h.place c
  · rw [hc]
    exact h.count c hr
  · exact (h.ok pc hpc).congr (fun c _ => by rw [hc]) fun c _ => (hs.active c).2

section

variable (h : Inv s l) (hi : s.threads[i]? = some pc) (ho : pc.owns = some c)
include h hi ho

theorem Inv.owner :
    c ∉ l ∧ holders PC.owns s.threads c = 1 ∧ s.references c = 0 ∧ c < s.alloc.created := by
  have hpos := holders_pos hi ho
  have hp := h.place c
  refine ⟨fun hc => ?_, ?_, ?_, ?_⟩
  · rw [if_pos hc] at hp
    split at hp <;> split at hp <;> omega
  · split at hp <;> split at hp <;> split at hp <;> omega
  · split at hp <;> split at hp <;> split at hp <;> omega
  · by_contra hlt
    rw [if_neg hlt] at hp
    omega

theorem Inv.not_active (hm : pc.removes = none) : ¬ s.alloc.Active c := by
  obtain ⟨-, hone, hzero, -⟩ := h.owner hi ho
  have hremoves : ∀ q : PC, q.removes = some c → q.owns = some c := by
    intro q hq
    cases q with
    | relRemove d => exact hq
    | _ => cases hq
  rw [h.active, hzero, holders_eq_zero]
  · exact Nat.lt_irrefl 0
  · intro q hq hqc
    rw [eq_of_holders_one hi ho hone hq (hremoves q hqc), hm] at hqc
    cases hqc

theorem Inv.write {f : Context → Context} (ho' : pc'.owns = some c) (hr : pc'.refers = pc.refers)
    (hm : pc'.removes = pc.removes) (hf : ∀ x, (f x).pid = x.pid)
    (hok : pc'.Ok (s.alloc.modify c f)) : Inv ((s.write c f).goto i pc') l := by
  obtain ⟨hl, hone, hzero, -⟩ := h.owner hi ho
  have hs : s.alloc.SameTable (s.alloc.modify c f) := .modify _ c f hf
  have href : ∀ d, ((s.write c f).goto i pc').references d = s.references d := by
    intro d
    exact references_goto hi hr d
  refine ⟨?_, fun d => ?_, hs.tableOk h.table, fun d => ?_, fun d hd => ?_, fun q hq => ?_⟩
  · show Linked.Chain (s.alloc.modify c f).next s.alloc.head l
    rw [next_modify_update f _ rfl]
    exact h.chain.update hl _
  · rw [href]
    show _ + holders owns (s.threads.set i pc') d + _ = _
    rw [holders_set_of_eq hi (ho'.trans ho.symm)]
    exact h.place d
  · rw [href]
    show (s.alloc.modify c f).Active d ↔ 0 < _ + holders removes (s.threads.set i pc') d
    rw [hs.active, holders_set_of_eq hi hm]
    exact h.active d
  · rw [href] at hd ⊢
    have hdc : d ≠ c := by
      rintro rfl
      rw [hzero] at hd
      exact Nat.lt_irrefl _ hd
    show ((s.alloc.modify c f).contexts d).refCount = _
    rw [Allocator.contexts_modify_of_ne _ f hdc]
    exact h.count d hd
  · rcases eq_or_not_holder hi ho hone hq with rfl | ⟨hq, hqo⟩
    · exact hok
    · refine (h.ok q hq).congr (fun d hd => ?_) fun d _ => (hs.active d).2
      refine Allocator.contexts_modify_of_ne _ f ?_
      rintro rfl
      exact hqo hd

end

theorem Inv.setThread (h : Inv s l) (c thread : Nat) :
    Inv (s.write c fun x => { x with threadId := thread }) l := by
  have hs : s.alloc.SameTable (s.alloc.modify c fun x => { x with threadId := thread }) :=
    .modify _ c _ fun _ => rfl
  have hnext : (s.alloc.modify c fun x => { x with threadId := thread }).next = s.alloc.next :=
    next_modify fun _ => rfl
  have hcount : ∀ d, ((s.alloc.modify c fun x => { x with threadId := thread }).contexts d).refCount
      = (s.alloc.contexts d).refCount :=
    Allocator.contexts_modify_field (·.refCount) _ rfl
  refine ⟨?_, h.place, hs.tableOk h.table, fun d => (hs.active d).trans (h.active d),
    fun d hd => (hcount d).trans (h.count d hd), fun q hq => ?_⟩
  · have hchain := h.chain
    rw [← hnext] at hchain
    exact hchain
  · have hok := h.ok q hq
    cases q with
    | newCount d | insert d | relRemove d => exact (hcount d).trans hok
    | pushCas d old => exact (congrFun hnext d).trans hok
    | lookInc d => exact (hs.active d).2 hok
    | _ => trivial

/-! ## Steps that move a context -/

/-- How a context is counted after thread `i` has gone from `pc` to `pc'`. -/
structure Recount (s : State) (i : Nat) (pc pc' : PC) (d : Nat) : Prop where
  owns : Threads.holders PC.owns (s.threads.set i pc') d + (if pc.owns = some d then 1 else 0)
    = Threads.holders PC.owns s.threads d + if pc'.owns = some d then 1 else 0
  refers : Threads.holders PC.refers (s.threads.set i pc') d + (if pc.refers = some d then 1 else 0)
    = Threads.holders PC.refers s.threads d + if pc'.refers = some d then 1 else 0
  removes : Threads.holders PC.removes (s.threads.set i pc') d
    + (if pc.removes = some d then 1 else 0)
    = Threads.holders PC.removes s.threads d + if pc'.removes = some d then 1 else 0

/-- A context is in the free list, with one thread, or in the table. -/
structure Place (s : State) (l : List Nat) (d : Nat) : Prop where
  place : (if d ∈ l then 1 else 0) + Threads.holders PC.owns s.threads d
    + (if 0 < s.references d then 1 else 0) = if d < s.alloc.created then 1 else 0
  active : s.alloc.Active d ↔ 0 < s.references d + Threads.holders PC.removes s.threads d
  count : 0 < s.references d → (s.alloc.contexts d).refCount = s.references d

attribute [grind cases] Recount Place

theorem Inv.at (h : Inv s l) (d : Nat) : Place s l d := ⟨h.place d, h.active d, h.count d⟩

theorem Inv.of_recount {l' : List Nat} (hi : s.threads[i]? = some pc) (pc' : PC)
    (hchain : Linked.Chain s'.alloc.next s'.alloc.head l') (htable : s'.alloc.TableOk)
    (hplace : ∀ d, Recount s i pc pc' d → Place s' l' d)
    (hok : ∀ q ∈ s'.threads, q.Ok s'.alloc) : Inv s' l' := by
  have hset := fun d => hplace d ⟨holders_set hi _ pc' d, holders_set hi _ pc' d,
    holders_set hi _ pc' d⟩
  exact ⟨hchain, fun d => (hset d).place, htable, fun d => (hset d).active,
    fun d => (hset d).count, hok⟩

theorem Inv.pop (h : Inv s l) {next : Option Nat} (hi : s.threads[i]? = some (.popCas c next))
    (hh : s.alloc.head = some c) (hn : s.alloc.next c = next) :
    ∃ l', Inv ({ s with alloc.head := next }.goto i (.popSize c)) l' := by
  have hchain := h.chain
  rw [hh] at hchain
  obtain ⟨l', rfl, hl'⟩ := hchain.head_cons
  have hnotin : c ∉ l' := (nodup_cons.1 hchain.nodup).1
  refine ⟨l', .of_recount hi (.popSize c) (hn ▸ hl') ⟨h.table.nodup, h.table.bucket⟩
    (fun d ⟨h1, h2, h3⟩ => ?_) ?_⟩
  · obtain ⟨hplace, hactive, hcount⟩ := h.at d
    simp [PC.owns, PC.refers, PC.removes] at h1 h2 h3
    rcases eq_or_ne c d with rfl | hne <;> constructor <;>
      simp only [State.references, State.goto, Allocator.Active, Allocator.bucketOf] at * <;> grind
  · refine forall_mem_set (fun q hq => ?_) trivial
    exact (h.ok q hq).congr (fun _ _ => rfl) fun _ _ => id

theorem Inv.push (h : Inv s l) {oldHead : Option Nat}
    (hi : s.threads[i]? = some (.pushCas c oldHead)) (hh : s.alloc.head = oldHead) :
    Inv ({ s with alloc.head := some c }.goto i .pushSize) (c :: l) := by
  have hnext : s.alloc.next c = oldHead := h.ok _ (mem_of_getElem? hi)
  refine .of_recount hi .pushSize ?_ ⟨h.table.nodup, h.table.bucket⟩ (fun d ⟨h1, h2, h3⟩ => ?_) ?_
  · refine .cons ?_
    show Linked.Chain s.alloc.next (s.alloc.next c) l
    rw [hnext, ← hh]
    exact h.chain
  · obtain ⟨hplace, hactive, hcount⟩ := h.at d
    simp [PC.owns, PC.refers, PC.removes] at h1 h2 h3
    rcases eq_or_ne c d with rfl | hne <;> constructor <;>
      simp only [State.references, State.goto, Allocator.Active, Allocator.bucketOf] at * <;> grind
  · refine forall_mem_set (fun q hq => ?_) trivial
    exact (h.ok q hq).congr (fun _ _ => rfl) fun _ _ => id

theorem Inv.create (h : Inv s l) {pid : Int} (hi : s.threads[i]? = some (.create pid)) :
    Inv ({ s with alloc := s.alloc.createContext pid }.goto i (.newCount s.alloc.created)) l := by
  have hold : ∀ d, d ≠ s.alloc.created →
      (s.alloc.createContext pid).contexts d = s.alloc.contexts d :=
    fun d hd => Allocator.contexts_create_of_ne s.alloc pid hd
  have hnew := Allocator.contexts_create_self s.alloc pid
  have htable : (s.alloc.createContext pid).TableOk :=
    h.table.congr rfl (Nat.le_succ _) fun d hd => congrArg (·.pid) (hold d (Nat.ne_of_lt hd))
  have hinactive : ¬ s.alloc.Active s.alloc.created :=
    fun ha => Nat.lt_irrefl _ (h.table.lt_created ha)
  have hact : ∀ d, (s.alloc.createContext pid).Active d ↔ s.alloc.Active d := by
    intro d
    by_cases hd : d = s.alloc.created
    · subst hd
      exact iff_of_false (fun ha => Nat.lt_irrefl _ (h.table.bucket _ _ ha).1) hinactive
    · unfold Allocator.Active Allocator.bucketOf
      rw [hold d hd]
      rfl
  -- the place of the new context was empty
  have hfree := h.at s.alloc.created
  refine .of_recount hi (.newCount s.alloc.created) ?_ htable (fun d ⟨h1, h2, h3⟩ => ?_) ?_
  · refine h.chain.congr fun d hd => congrArg (·.nextFree) (hold d ?_)
    grind
  · obtain ⟨hplace, hactive, hcount⟩ := h.at d
    have hcreated : (s.alloc.createContext pid).created = s.alloc.created + 1 := rfl
    simp [PC.owns, PC.refers, PC.removes] at h1 h2 h3
    rcases eq_or_ne s.alloc.created d with rfl | hne
    · constructor <;> simp only [State.references, State.goto] at * <;> grind
    · have hlt : d < s.alloc.created + 1 ↔ d < s.alloc.created := by omega
      rw [if_neg hne, Nat.add_zero] at h1
      constructor <;> simp only [State.references, State.goto, hact, hcreated, hlt, h1, h2, h3,
        hold d hne.symm] <;> assumption
  · have hok : PC.Ok (s.alloc.createContext pid) (.newCount s.alloc.created) := by
      simp [PC.Ok, hnew]
    refine forall_mem_set (fun q hq => ?_) hok
    refine (h.ok q hq).congr (fun d hd => hold d ?_) fun d _ ha => (hact d).2 ha
    rintro rfl
    obtain ⟨j, hj⟩ := getElem?_of_mem hq
    have hpos : 0 < holders PC.owns s.threads s.alloc.created := holders_pos hj hd
    have hplace := hfree.place
    rw [if_neg (Nat.lt_irrefl _)] at hplace
    omega

theorem Inv.insert (h : Inv s l) (hi : s.threads[i]? = some (.insert c)) :
    Inv ({ s with alloc := s.alloc.insertActive c }.goto i (.insertCount c)) l := by
  obtain ⟨hl, hone, hzero, hlt⟩ := h.owner hi rfl
  have hcount1 : (s.alloc.contexts c).refCount = 1 := h.ok _ (mem_of_getElem? hi)
  have hact := Allocator.active_insertActive s.alloc c
  refine .of_recount hi (.insertCount c) h.chain
    (h.table.insertActive hlt (h.not_active hi rfl rfl))
    (fun d ⟨h1, h2, h3⟩ => ?_) ?_
  · obtain ⟨hplace, hactive, hcount⟩ := h.at d
    have hctx : (s.alloc.insertActive c).contexts = s.alloc.contexts := rfl
    have hcreated : (s.alloc.insertActive c).created = s.alloc.created := rfl
    simp [PC.owns, PC.refers, PC.removes] at h1 h2 h3
    rcases eq_or_ne c d with rfl | hne <;> constructor <;>
      simp only [State.references, State.goto] at * <;> grind
  · refine forall_mem_set (fun q hq => ?_) trivial
    exact (h.ok q hq).congr (fun _ _ => rfl) fun d _ ha => (hact d).2 (.inl ha)

theorem references_pos (hi : s.threads[i]? = some pc)
    (hr : pc.refers = some c) : 0 < s.references c := by
  have := holders_pos hi hr
  unfold references
  omega

theorem Inv.referenced (h : Inv s l) (hpos : 0 < s.references c) :
    c ∉ l ∧ holders PC.owns s.threads c = 0 ∧ c < s.alloc.created ∧ s.alloc.Active c := by
  obtain ⟨hplace, hactive, -⟩ := h.at c
  grind

theorem not_owner {threads : List PC} (h : holders PC.owns threads c = 0) {q : PC}
    (hq : q ∈ threads) : q.owns ≠ some c := by
  intro hc
  obtain ⟨j, hj⟩ := getElem?_of_mem hq
  have := holders_pos hj hc
  omega

theorem refCount_addRef (a : Allocator) (c d : Nat) (n : Int) :
    ((a.addRef c n).contexts d).refCount = (a.contexts d).refCount + if c = d then n else 0 := by
  rcases eq_or_ne c d with rfl | hne
  · rw [Allocator.contexts_addRef_self, if_pos rfl]
  · rw [Allocator.contexts_addRef_of_ne _ _ hne.symm, if_neg hne, Int.add_zero]

section

variable (h : Inv s l)
include h

theorem Inv.addRef (hi : s.threads[i]? = some pc) {n : Int} {lookedUp : List Nat}
    (hown : holders PC.owns s.threads c = 0) (hok : pc'.Ok (s.alloc.addRef c n))
    (hplace : ∀ d, Recount s i pc pc' d → Place s l d →
      s.alloc.SameTable (s.alloc.addRef c n) →
      Place ({ s with alloc := s.alloc.addRef c n, lookedUp := lookedUp }.goto i pc') l d) :
    Inv ({ s with alloc := s.alloc.addRef c n, lookedUp := lookedUp }.goto i pc') l := by
  have hs : s.alloc.SameTable (s.alloc.addRef c n) := .modify _ c _ fun _ => rfl
  have hnext : (s.alloc.addRef c n).next = s.alloc.next := next_modify fun _ => rfl
  refine .of_recount hi pc' ?_ (hs.tableOk h.table) (fun d hset => hplace d hset (h.at d) hs) ?_
  · show Linked.Chain (s.alloc.addRef c n).next s.alloc.head l
    rw [hnext]
    exact h.chain
  · refine forall_mem_set (fun q hq => ?_) hok
    refine (h.ok q hq).congr (fun d hd => Allocator.contexts_addRef_of_ne _ n ?_)
      fun d _ => (hs.active d).2
    rintro rfl
    exact not_owner hown hq hd

theorem Inv.drop (hi : s.threads[i]? = some (.relDec c))
    (hmore : 1 < (s.alloc.contexts c).refCount) :
    Inv ({ s with alloc := s.alloc.addRef c (-1) }.goto i .idle) l := by
  have href := h.referenced (references_pos hi rfl)
  refine h.addRef hi href.2.1 trivial fun d ⟨h1, h2, h3⟩ ⟨hplace, hactive, hcount⟩ hs => ?_
  simp [PC.owns, PC.refers, PC.removes] at h1 h2 h3
  rcases eq_or_ne c d with rfl | hne <;> constructor <;>
    simp only [State.references, State.goto, hs.active, hs.created, refCount_addRef] at * <;> grind

theorem Inv.dropLast (hi : s.threads[i]? = some (.relDec c))
    (hlast : ¬ 1 < (s.alloc.contexts c).refCount) :
    Inv ({ s with alloc := s.alloc.addRef c (-1) }.goto i (.relRemove c)) l := by
  have hpos := references_pos hi rfl
  have href := h.referenced hpos
  have hone := h.count c hpos
  have hok : PC.Ok (s.alloc.addRef c (-1)) (.relRemove c) := by
    simp only [PC.Ok, Allocator.contexts_addRef_self]
    omega
  refine h.addRef hi href.2.1 hok fun d ⟨h1, h2, h3⟩ ⟨hplace, hactive, hcount⟩ hs => ?_
  simp [PC.owns, PC.refers, PC.removes] at h1 h2 h3
  rcases eq_or_ne c d with rfl | hne <;> constructor <;>
    simp only [State.references, State.goto, hs.active, hs.created, refCount_addRef] at * <;> grind

theorem Inv.remove (hi : s.threads[i]? = some (.relRemove c)) (hw : s.Writable c) :
    Inv ({ s with alloc := s.alloc.removeActive c }.goto i (.relCount c)) l := by
  obtain ⟨hl, hone, hzero, hlt⟩ := h.owner hi rfl
  have hact := Allocator.active_removeActive h.table c
  -- the only thread that removes it is this one
  have hnone : holders PC.removes (s.threads.set i (.relCount c)) c = 0 := by
    refine holders_eq_zero fun q hq hqc => ?_
    rcases eq_or_not_holder hi (show (PC.relRemove c).owns = some c from rfl) hone hq with
      rfl | ⟨-, hn⟩
    · cases hqc
    · cases q with
      | relRemove d => exact hn hqc
      | _ => cases hqc
  refine .of_recount hi (.relCount c) h.chain (h.table.removeActive c)
    (fun d ⟨h1, h2, h3⟩ => ?_) ?_
  · obtain ⟨hplace, hactive, hcount⟩ := h.at d
    have hctx : (s.alloc.removeActive c).contexts = s.alloc.contexts := rfl
    have hcreated : (s.alloc.removeActive c).created = s.alloc.created := rfl
    simp [PC.owns, PC.refers, PC.removes] at h1 h2 h3
    rcases eq_or_ne c d with rfl | hne <;> constructor <;>
      simp only [State.references, State.goto] at * <;> grind
  · refine forall_mem_set (fun q hq => ?_) trivial
    refine (h.ok q hq).congr (fun _ _ => rfl) fun d hd ha => (hact d).2 ⟨ha, ?_⟩
    rintro rfl
    subst hd
    exact hw _ hq d rfl rfl

theorem Inv.find (hi : s.threads[i]? = some (.lookInc c))
    (hsome : 1 ≤ (s.alloc.contexts c).refCount) :
    Inv ({ s with alloc := s.alloc.addRef c 1, lookedUp := c :: s.lookedUp }.goto i .idle) l := by
  have hact : s.alloc.Active c := h.ok _ (mem_of_getElem? hi)
  have hpos : 0 < s.references c := by
    by_contra hn
    have h0 := (h.active c).1 hact
    -- otherwise some thread is removing it, and its count is zero
    have hrem : holders PC.removes s.threads c ≠ 0 := by omega
    refine hrem (holders_eq_zero fun q hq hqc => ?_)
    have hok := h.ok q hq
    cases q with
    | relRemove d =>
      cases hqc
      simp only [PC.Ok] at hok
      omega
    | _ => cases hqc
  have href := h.referenced hpos
  refine h.addRef hi href.2.1 trivial fun d ⟨h1, h2, h3⟩ ⟨hplace, hactive, hcount⟩ hs => ?_
  simp [PC.owns, PC.refers, PC.removes] at h1 h2 h3
  rcases eq_or_ne c d with rfl | hne <;> constructor <;>
    simp only [State.references, State.goto, hs.active, hs.created, refCount_addRef] at * <;> grind

end

/-! ## Every step -/

theorem about_popLoop (s : State) :
    (popLoop s.alloc.head).owns = none ∧ (popLoop s.alloc.head).refers = none ∧
      (popLoop s.alloc.head).removes = none ∧ (popLoop s.alloc.head).Ok s.alloc := by
  cases s.alloc.head <;> exact ⟨rfl, rfl, rfl, trivial⟩

theorem Inv.popLoop (h : Inv s l)
    (hi : s.threads[i]? = some pc) (ho : pc.owns = none) (hr : pc.refers = none)
    (hm : pc.removes = none) : Inv (s.goto i (Threads.popLoop s.alloc.head)) l := by
  obtain ⟨ho', hr', hm', hok⟩ := about_popLoop s
  exact h.goto hi (ho'.trans ho.symm) (hr'.trans hr.symm) (hm'.trans hm.symm) hok

/-- A step inside of a call, not stale and not reviving. -/
theorem Inv.advance (h : Inv s l) {fail : Bool} (hi : s.threads[i]? = some pc)
    (hg : Guard s (.advance i fail)) (hs : advance s i fail pc = some s') : ∃ l', Inv s' l' := by
  cases pc <;> simp only [Threads.advance] at hs
  case popLoad =>
    cases hs
    exact ⟨l, h.popLoop hi rfl rfl rfl⟩
  case popCas =>
    split at hs <;> cases hs
    · next hc =>
      refine h.pop hi hc.1 ?_
      by_contra hn
      exact hg.1 ⟨_, hi, decide_eq_true ⟨hc.1, hn⟩⟩
    · exact ⟨l, h.popLoop hi rfl rfl rfl⟩
  case newCount =>
    cases hs
    have hok := h.ok _ (mem_of_getElem? hi)
    exact ⟨l, Inv.goto (h.of_counters _ rfl rfl rfl rfl) hi rfl rfl rfl hok⟩
  case popRef =>
    cases hs
    refine ⟨l, h.write hi rfl rfl rfl rfl (fun _ => rfl) ?_⟩
    simp [PC.Ok, Allocator.contexts_modify_self]
  case create =>
    split at hs <;> cases hs
    · exact ⟨l, h.goto hi rfl rfl rfl trivial⟩
    · exact ⟨l, h.create hi⟩
  case insert =>
    split at hs <;> cases hs
    exact ⟨l, h.insert hi⟩
  case insertCount =>
    cases hs
    have hc := h.of_counters { s.alloc with currentlyActive := s.alloc.currentlyActive + 1 }
      rfl rfl rfl rfl
    exact ⟨l, hc.returned hi⟩
  case relDec =>
    split at hs <;> cases hs
    · next hc => exact ⟨l, h.drop hi hc⟩
    · next hc => exact ⟨l, h.dropLast hi hc⟩
  case relRemove =>
    split at hs <;> cases hs
    next hw => exact ⟨l, h.remove hi hw⟩
  case pushStore =>
    cases hs
    refine ⟨l, h.write hi rfl rfl rfl rfl (fun _ => rfl) ?_⟩
    simp [PC.Ok, Allocator.next, Allocator.contexts_modify_self]
  case pushCas c oldHead =>
    split at hs <;> cases hs
    · next hc => exact ⟨c :: l, h.push hi hc.1⟩
    · exact ⟨l, h.goto hi rfl rfl rfl trivial⟩
  case look =>
    split at hs <;> cases hs
    · next c hc => exact ⟨l, h.goto hi rfl rfl rfl (active_of_find h.table hc)⟩
    · exact ⟨l, h.goto hi rfl rfl rfl trivial⟩
  case lookThread =>
    split at hs <;> cases hs
    · next c hc => exact ⟨l, h.goto hi rfl rfl rfl (active_of_findThread h.table hc)⟩
    · refine ⟨l, ?_⟩
      unfold nextBucket
      split <;> exact h.goto hi rfl rfl rfl trivial
  case lookInc =>
    cases hs
    refine ⟨l, h.find hi ?_⟩
    by_contra hn
    exact hg.2 ⟨_, hi, decide_eq_true (Int.not_le.1 hn)⟩
  all_goals cases hs
  all_goals first
    | exact ⟨l, h.goto hi rfl rfl rfl trivial⟩
    | exact ⟨l, h.write hi rfl rfl rfl rfl (fun _ => rfl) trivial⟩
    | exact ⟨l, Inv.goto (h.of_counters _ rfl rfl rfl rfl) hi rfl rfl rfl trivial⟩

theorem Inv.step {a : Label} (h : Inv s l) (hg : Guard s a)
    (hs : step s a = some s') : ∃ l', Inv s' l' := by
  cases a with
  | allocate i | lookup i pid | lookupByThread i thread =>
    simp only [Threads.step] at hs
    split at hs <;> cases hs
    next hi =>
      exact ⟨l, h.goto hi rfl rfl rfl trivial⟩
  | setThread c thread =>
    simp only [Threads.step] at hs
    split at hs <;> cases hs
    exact ⟨l, h.setThread c thread⟩
  | releaseAllocated i c =>
    simp only [Threads.step] at hs
    split at hs <;> cases hs
    next hi =>
      refine ⟨l, h.beginRelease hi.1 fun d => ?_⟩
      have := count_erase_add hi.2 d
      omega
  | releaseLookedUp i c =>
    simp only [Threads.step] at hs
    split at hs <;> cases hs
    next hi =>
      refine ⟨l, h.beginRelease hi.1 fun d => ?_⟩
      have := count_erase_add hi.2 d
      omega
  | advance i fail =>
    simp only [Threads.step] at hs
    split at hs
    · next pc hi => exact h.advance hi hg hs
    · cases hs

theorem holders_initial (n : Nat) {f : PC → Option Nat} (hf : f .idle = none) (c : Nat) :
    holders f (State.initial n).threads c = 0 :=
  holders_replicate hf n c

theorem references_initial (n c : Nat) : (State.initial n).references c = 0 := by
  unfold references
  rw [holders_initial n rfl]
  rfl

theorem Inv.initial (n : Nat) : Inv (State.initial n) [] := by
  refine ⟨.nil, fun c => ?_, ⟨fun _ => nodup_nil, fun _ _ hc => by cases hc⟩, fun c => ?_,
    fun c hc => ?_, fun q hq => ?_⟩
  · rw [references_initial, holders_initial n rfl]
    rfl
  · rw [references_initial, holders_initial n rfl]
    exact iff_of_false not_mem_nil (Nat.lt_irrefl 0)
  · rw [references_initial] at hc
    exact absurd hc (Nat.lt_irrefl 0)
  · rw [eq_of_mem_replicate hq]
    trivial

def GuardedReachable (s : State) : Prop :=
  Transition.Reachable step Guard (fun s => ∃ n, s = State.initial n) s

theorem inv_guarded (h : GuardedReachable s) : ∃ l, Inv s l := by
  have hinit : ∀ s, (∃ n, s = initial n) → ∃ l, Inv s l := by
    rintro _ ⟨n, rfl⟩
    exact ⟨[], Inv.initial n⟩
  have hstep : ∀ s s' a, (∃ l, Inv s l) → Guard s a → step s a = some s' → ∃ l, Inv s' l := by
    rintro s s' a ⟨l, hinv⟩ hg hs
    exact hinv.step hg hs
  exact Transition.Reachable.invariant hinit hstep h

end PidAlloc.Threads

end IosSystem
