import IosSystem.PidAlloc.Serial

/-!
# A context that is used again

The fields of a context that the setters write, beside the `Context` of the allocator. They are
initialised by `pid_allocator_create_context`, and some of them are reset by
`pid_allocator_push_free_list`: the thread, the environment and its count, but neither
`previous_directory` nor `parent_pid`. `pid_allocator_pop_free_list` resets none.

The calls run one after the other.
-/

namespace IosSystem.PidAlloc.Recycle

open List Function

def maxPathLen : Nat := 1024

/-- The other fields of `struct _ios_pid_context`; `environment` is the address of an array. -/
@[ext] structure Details where
  environment : Option Nat
  numVariablesSet : Int
  previousDirectory : List Char
  parentPid : Int

/-- What `pid_allocator_create_context` leaves in them. -/
def Details.fresh : Details := ⟨none, 0, [], 0⟩

/-- What `pid_allocator_push_free_list` leaves in them. -/
def Details.retire (d : Details) : Details := { d with environment := none, numVariablesSet := 0 }

structure State where
  alloc : Allocator
  details : Nat → Details

def State.initial : State := ⟨Allocator.init, fun _ => .fresh⟩

/-- `ios_pid_set_environment`, `ios_pid_set_env_count`, `ios_pid_set_previous_dir` and
`ios_pid_set_parent`; `none` is a null pointer. -/
inductive Setter where
  | environment (env : Option Nat)
  | envCount (count : Int)
  | previousDir (dir : Option (List Char))
  | parent (parentPid : Int)

def Setter.apply (d : Details) : Setter → Details
  | .environment env => { d with environment := env }
  | .envCount count => { d with numVariablesSet := count }
  | .previousDir (some dir) => { d with previousDirectory := dir.take (maxPathLen - 1) }
  | .previousDir none => d
  | .parent parentPid => { d with parentPid := parentPid }

inductive Call where
  | allocate (calloc : Bool)
  | lookup (pid : Int)
  | release (c : Nat)
  | setThread (c thread : Nat)
  | set (c : Nat) (f : Setter)

/-- `ios_pid_allocate`; a context from `calloc` has fresh fields. -/
def State.allocate (s : State) (calloc : Bool) : State × Option Nat :=
  let r := PidAlloc.allocate s.alloc calloc
  let details :=
    if s.alloc.head = none ∧ calloc then update s.details s.alloc.created .fresh
    else s.details
  (⟨r.1, details⟩, r.2)

def State.release (s : State) (c : Nat) : State :=
  ⟨PidAlloc.release s.alloc c, if 1 < (s.alloc.contexts c).refCount then s.details
    else update s.details c (s.details c).retire⟩

def call (s : State) : Call → Option State
  | .allocate calloc => some (s.allocate calloc).1
  | .lookup pid => some { s with alloc := (lookup s.alloc pid).1 }
  | .release c => if (s.alloc.contexts c).isAllocated then some (s.release c) else none
  | .setThread c thread =>
    if (s.alloc.contexts c).isAllocated then some { s with alloc := setThread s.alloc c thread }
    else none
  | .set c f =>
    if (s.alloc.contexts c).isAllocated then
      some { s with details := update s.details c (f.apply (s.details c)) }
    else none

def Reachable (s : State) : Prop :=
  Transition.Reachable call (fun _ _ => True) (· = State.initial) s

/-- The fields of a context are those of a new one. -/
def State.LooksNew (s : State) (c : Nat) : Prop :=
  (s.alloc.contexts c).threadId = 0 ∧ (s.alloc.contexts c).refCount = 1 ∧
    (s.alloc.contexts c).isAllocated = true ∧ s.details c = .fresh

/-- What `pid_allocator_push_free_list` has reset. -/
def State.Clean (s : State) (c : Nat) : Prop :=
  (s.alloc.contexts c).isAllocated = false ∧ (s.alloc.contexts c).threadId = 0 ∧
    (s.details c).environment = none ∧ (s.details c).numVariablesSet = 0

/-- The contexts of the list that begins with `head` are clean, and those in use exist. -/
structure Inv (s : State) (head : Option Nat) (l : List Nat) : Prop where
  chain : Linked.Chain s.alloc.next head l
  clean : ∀ c ∈ l, c < s.alloc.created ∧ s.Clean c
  exist : ∀ c, (s.alloc.contexts c).isAllocated = true → c < s.alloc.created

variable {s s' : State} {head : Option Nat} {l : List Nat} {c : Nat}

theorem Inv.not_mem (h : Inv s head l) (hc : (s.alloc.contexts c).isAllocated = true) : c ∉ l := by
  intro hmem
  rw [(h.clean c hmem).2.1] at hc
  cases hc

theorem Inv.write (h : Inv s head l) (hc : c ∉ l) (hcreated : s.alloc.created ≤ s'.alloc.created)
    (hlt : c < s'.alloc.created)
    (hsame : ∀ d, d ≠ c → s'.alloc.contexts d = s.alloc.contexts d ∧ s'.details d = s.details d) :
    Inv s' head l := by
  have hne : ∀ d ∈ l, d ≠ c := fun d hd he => hc (he ▸ hd)
  refine ⟨h.chain.congr fun d hd => ?_, fun d hd => ?_, fun d hd => ?_⟩
  · rw [Allocator.next, Allocator.next, (hsame d (hne d hd)).1]
  · obtain ⟨hd', hclean⟩ := h.clean d hd
    refine ⟨Nat.lt_of_lt_of_le hd' hcreated, ?_⟩
    rwa [State.Clean, (hsame d (hne d hd)).1, (hsame d (hne d hd)).2]
  · by_cases hdc : d = c
    · exact hdc ▸ hlt
    · rw [(hsame d hdc).1] at hd
      exact Nat.lt_of_lt_of_le (h.exist d hd) hcreated

theorem Inv.use (h : Inv s head l) (hc : (s.alloc.contexts c).isAllocated = true)
    (hcreated : s'.alloc.created = s.alloc.created)
    (hsame : ∀ d, d ≠ c → s'.alloc.contexts d = s.alloc.contexts d ∧ s'.details d = s.details d) :
    Inv s' head l :=
  h.write (h.not_mem hc) (Nat.le_of_eq hcreated.symm) (hcreated ▸ h.exist c hc) hsame

section

variable (h : Inv s s.alloc.head l)
include h

theorem Inv.release (hc : (s.alloc.contexts c).isAllocated = true) :
    ∃ l, Inv (s.release c) (s.release c).alloc.head l := by
  by_cases hlast : 1 < (s.alloc.contexts c).refCount
  · simp only [State.release, PidAlloc.release, if_pos hlast]
    exact ⟨l, h.use hc rfl fun d hd => ⟨s.alloc.contexts_addRef_of_ne _ hd, rfl⟩⟩
  · -- the context goes to the front of the list
    simp only [State.release, PidAlloc.release, if_neg hlast]
    have hrest : Inv ⟨pushFreeList (deactivate (s.alloc.addRef c (-1)) c) c,
        update s.details c (s.details c).retire⟩ s.alloc.head l := by
      refine h.use hc rfl fun d hd => ⟨?_, update_of_ne hd ..⟩
      exact (Allocator.contexts_modify_of_ne _ _ hd).trans (s.alloc.contexts_addRef_of_ne _ hd)
    refine ⟨c :: l, .cons ?_, forall_mem_cons.2 ⟨⟨h.exist c hc, ?_⟩, hrest.clean⟩, hrest.exist⟩
    · have hnext : (pushFreeList (deactivate (s.alloc.addRef c (-1)) c) c).next c = s.alloc.head :=
        congrArg Context.nextFree (Allocator.contexts_modify_self ..)
      simpa only [hnext] using hrest.chain
    · simp [State.Clean, pushFreeList, Allocator.setHead, Allocator.modify, Context.retire,
        Details.retire]

theorem Inv.allocate (calloc : Bool) :
    ∃ l, Inv (s.allocate calloc).1 (s.allocate calloc).1.alloc.head l := by
  cases hhead : s.alloc.head with
  | some c =>
    rw [hhead] at h
    obtain ⟨l, rfl, hl⟩ := h.chain.head_cons
    have hrest : Inv s (s.alloc.next c) l :=
      ⟨hl, fun d hd => h.clean d (mem_cons_of_mem _ hd), h.exist⟩
    refine ⟨l, ?_⟩
    simp only [State.allocate, PidAlloc.allocate, popFreeList, hhead, reduceCtorEq,
      false_and, if_false]
    refine hrest.write (nodup_cons.1 h.chain.nodup).1 (Nat.le_refl _)
      (h.clean c mem_cons_self).1 fun d hd => ⟨?_, rfl⟩
    exact Allocator.contexts_modify_of_ne _ _ hd
  | none =>
    rw [hhead] at h
    refine ⟨l, ?_⟩
    cases calloc with
    | false =>
      simp only [State.allocate, PidAlloc.allocate, popFreeList, hhead]
      exact ⟨h.chain, h.clean, h.exist⟩
    | true =>
      simp only [State.allocate, PidAlloc.allocate, popFreeList, hhead, and_self, if_true]
      refine h.write (fun hmem => Nat.lt_irrefl _ (h.clean _ hmem).1) (Nat.le_succ _)
        (Nat.lt_succ_self _) fun d hd => ⟨?_, update_of_ne hd ..⟩
      exact Allocator.contexts_create_of_ne _ _ hd

theorem Inv.call {l' : Call} (hs : call s l' = some s') : ∃ l, Inv s' s'.alloc.head l := by
  cases l' with
  | allocate calloc =>
    cases hs
    exact h.allocate calloc
  | lookup pid =>
    cases hs
    refine ⟨l, ?_⟩
    dsimp only [PidAlloc.lookup]
    split
    · next c hf =>
      have hfound := find?_some hf
      rw [decide_eq_true_eq] at hfound
      exact h.use hfound.2 rfl fun d hd => ⟨s.alloc.contexts_addRef_of_ne _ hd, rfl⟩
    · exact h
  | release c =>
    simp only [Recycle.call] at hs
    split at hs <;> cases hs
    next hc => exact h.release hc
  | setThread c thread =>
    simp only [Recycle.call] at hs
    split at hs <;> cases hs
    next hc => exact ⟨l, h.use hc rfl fun d hd => ⟨update_of_ne hd .., rfl⟩⟩
  | set c f =>
    simp only [Recycle.call] at hs
    split at hs <;> cases hs
    next hc => exact ⟨l, h.use hc rfl fun d hd => ⟨rfl, update_of_ne hd ..⟩⟩

end

theorem Reachable.inv (h : Reachable s) : ∃ l, Inv s s.alloc.head l := by
  unfold Reachable at h
  induction h with
  | start hi =>
    subst hi
    exact ⟨[], .nil, by simp, fun c hc => by cases hc⟩
  | next _ _ hs ih =>
    obtain ⟨l, hi⟩ := ih
    exact hi.call hs

/--
A context that `ios_pid_allocate` returns looks new if and only if the one that it takes from the
free list, if any, has no previous directory and no parent.
-/
theorem looks_new_iff (h : Reachable s) {calloc : Bool} (hc : (s.allocate calloc).2 = some c) :
    (s.allocate calloc).1.LooksNew c ↔ ∀ d, s.alloc.head = some d →
      (s.details d).previousDirectory = [] ∧ (s.details d).parentPid = 0 := by
  obtain ⟨l, hi⟩ := h.inv
  cases hhead : s.alloc.head with
  | none =>
    cases calloc with
    | false => simp [State.allocate, PidAlloc.allocate, popFreeList, hhead] at hc
    | true =>
      simp only [State.allocate, PidAlloc.allocate, popFreeList, hhead, if_true, and_self] at hc ⊢
      obtain rfl := Option.some.inj hc
      simp [State.LooksNew, activate, Allocator.insertActive, Allocator.createContext]
  | some d =>
    obtain ⟨l, rfl, -⟩ := (hhead ▸ hi.chain).head_cons
    obtain ⟨-, -, hthread, henv, hcount⟩ := hi.clean d mem_cons_self
    simp only [State.allocate, PidAlloc.allocate, popFreeList, hhead] at hc ⊢
    obtain rfl := Option.some.inj hc
    simp [State.LooksNew, activate, Allocator.insertActive, Allocator.setHead, Allocator.modify,
      Context.reuse, hthread, Details.ext_iff, henv, hcount, Details.fresh]

/-- The context has been used by another thread, with its environment. -/
theorem looks_new_reused : ∃ s, Reachable s ∧ s.alloc.head = some 0 ∧
    (s.allocate true).1.LooksNew 0 := by
  have hrun : Transition.run call State.initial
      [.allocate true, .setThread 0 5, .set 0 (.environment (some 9)), .release 0] = some _ := rfl
  have hreach : Reachable _ := Transition.Reachable.of_run (.start rfl) hrun
  refine ⟨_, hreach, rfl, (looks_new_iff hreach rfl).2 ?_⟩
  rintro d ⟨⟩
  exact ⟨rfl, rfl⟩

/-- The parent of the context's last user is the parent of the next one. -/
theorem parent_kept :
    ∃ s, Reachable s ∧ (s.allocate true).2 = some 0 ∧
      ((s.allocate true).1.details 0).parentPid = 7 ∧ ¬(s.allocate true).1.LooksNew 0 := by
  have hrun : Transition.run call State.initial
      [.allocate true, .set 0 (.parent 7), .release 0] = some _ := rfl
  refine ⟨_, Transition.Reachable.of_run (.start rfl) hrun, rfl, rfl, ?_⟩
  rintro ⟨-, -, -, hd⟩
  cases congrArg Details.parentPid hd

end IosSystem.PidAlloc.Recycle
