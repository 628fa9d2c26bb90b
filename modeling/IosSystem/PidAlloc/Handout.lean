import IosSystem.PidAlloc.Exclusive

/-!
# What the holder of a context can rely on

`ios_pid_allocate` should give a context to one caller at a time (`allocated_exclusive`), and a
context that a lookup has returned should stay what it is until the reference is given back
(`lookedUp_valid`).
-/

namespace IosSystem.PidAlloc.Threads

open List Transition Option Threads.State

/-- The context that the thread is about to return from `ios_pid_allocate`. -/
def PC.returns : PC → Option Nat
  | .insertCount c => some c
  | _ => none

/-- How many calls of `ios_pid_allocate` have returned the context, or are about to, whose
reference was not given to a release. -/
def State.handedOut (s : State) (c : Nat) : Nat :=
  s.allocated.count c + Threads.holders PC.returns s.threads c

theorem handedOut_le_references (s : State) (c : Nat) : s.handedOut c ≤ s.references c := by
  have hle : Threads.holders PC.returns s.threads c ≤ Threads.holders PC.refers s.threads c := by
    refine List.countP_mono_left fun pc _ hpc => ?_
    cases pc with
    | insertCount d => exact hpc
    | _ => cases hpc
  unfold handedOut references
  omega

/-! ## What a step does to one context -/

/-- The contexts that exist keep their ids. -/
structure Keeps (a a' : Allocator) : Prop where
  created : a.created ≤ a'.created
  pid : ∀ c < a.created, (a'.contexts c).pid = (a.contexts c).pid

theorem Keeps.of_contexts {a a' : Allocator} (hc : a'.contexts = a.contexts)
    (hn : a'.created = a.created) : Keeps a a' :=
  ⟨Nat.le_of_eq hn.symm, fun _ _ => by rw [hc]⟩

variable {f : Context → Context}

theorem Keeps.modify (a : Allocator) (c : Nat) (hf : (f (a.contexts c)).pid = (a.contexts c).pid) :
    Keeps a (a.modify c f) :=
  ⟨Nat.le_refl _, fun d _ => Allocator.contexts_modify_field (·.pid) a hf d⟩

variable {s s' : State} {c i : Nat} {pc : PC}

theorem Keeps.write (hf : ∀ x, (f x).pid = x.pid) : Keeps s.alloc (s.write c f).alloc :=
  .modify s.alloc c (hf _)

theorem Keeps.addRef (a : Allocator) (c : Nat) (n : Int) : Keeps a (a.addRef c n) :=
  .modify a c rfl

theorem Keeps.createContext (a : Allocator) (pid : Int) : Keeps a (a.createContext pid) := by
  refine ⟨Nat.le_succ _, fun c hc => ?_⟩
  rw [Allocator.contexts_create_of_ne a pid (Nat.ne_of_lt hc)]

/-- What any step does to ids and references. -/
structure Effect (s s' : State) : Prop where
  keeps : Keeps s.alloc s'.alloc
  handedOut : ∀ c, s'.handedOut c ≤ s.handedOut c ∨
    (∃ i : Nat, s.threads[i]? = some (.insert c)) ∧ s'.handedOut c = s.handedOut c + 1

variable {pc' : PC}

theorem handedOut_set (s' : State) (hi : s.threads[i]? = some pc)
    (ht : s'.threads = s.threads.set i pc') (c : Nat) :
    s'.handedOut c + s.allocated.count c + (if pc.returns = some c then 1 else 0)
      = s.handedOut c + s'.allocated.count c + if pc'.returns = some c then 1 else 0 := by
  have hset := Threads.holders_set hi PC.returns pc' c
  unfold handedOut
  rw [ht]
  omega

theorem Effect.of_set (hi : s.threads[i]? = some pc) (ht : s'.threads = s.threads.set i pc')
    (hr : pc'.returns = none) (ha : ∀ c, s'.allocated.count c ≤ s.allocated.count c)
    (hk : Keeps s.alloc s'.alloc) : Effect s s' := by
  refine ⟨hk, fun c => .inl ?_⟩
  have hset := handedOut_set s' hi ht c
  have hac := ha c
  simp only [hr, reduceCtorEq, if_false] at hset
  omega

theorem Effect.write (hi : s.threads[i]? = some pc) (hr : pc'.returns = none)
    (hf : ∀ x, (f x).pid = x.pid) : Effect s ((s.write c f).goto i pc') :=
  .of_set hi rfl hr (fun _ => Nat.le_refl _) (Keeps.write hf)

theorem Effect.insert (hi : s.threads[i]? = some (.insert c)) :
    Effect s ({ s with alloc := s.alloc.insertActive c }.goto i (.insertCount c)) := by
  refine ⟨.of_contexts rfl rfl, fun d => ?_⟩
  have hset := handedOut_set ({ s with alloc := s.alloc.insertActive c }.goto i (.insertCount c))
    hi rfl d
  simp only [PC.returns, some.injEq, reduceCtorEq, if_false, goto] at hset
  by_cases hd : c = d
  · rw [if_pos hd] at hset
    refine .inr ⟨⟨i, hd ▸ hi⟩, ?_⟩
    simp only [goto]
    omega
  · rw [if_neg hd] at hset
    simp only [goto]
    omega

theorem Effect.returned (hi : s.threads[i]? = some (.insertCount c)) :
    Effect s ({ s with
      alloc.currentlyActive := s.alloc.currentlyActive + 1
      allocated := c :: s.allocated }.goto i .idle) := by
  refine ⟨.of_contexts rfl rfl, fun d => .inl ?_⟩
  have hset := handedOut_set ({ s with
    alloc.currentlyActive := s.alloc.currentlyActive + 1
    allocated := c :: s.allocated }.goto i .idle) hi rfl d
  simp only [goto, count_cons, beq_iff_eq, PC.returns, some.injEq, reduceCtorEq, if_false] at hset ⊢
  omega

@[simp] theorem popLoop_returns (head : Option Nat) : (popLoop head).returns = none := by
  cases head <;> rfl

@[simp] theorem nextBucket_returns (thread bucket : Nat) :
    (nextBucket thread bucket).returns = none := by
  unfold nextBucket
  split <;> rfl

theorem advance_effect {fail : Bool}
    (hi : s.threads[i]? = some pc) (hs : advance s i fail pc = some s') : Effect s s' := by
  cases pc <;> simp only [advance] at hs
  case popClear | popFlag | popRef | pushThread | pushFlag | pushStore =>
    cases hs
    exact .write hi rfl fun _ => rfl
  case insert =>
    split at hs <;> cases hs
    exact .insert hi
  case insertCount =>
    cases hs
    exact .returned hi
  -- the others return no context, and keep the pids of those that there are
  all_goals repeat' split at hs
  all_goals cases hs
  all_goals refine .of_set hi rfl (by first | rfl | simp) (fun _ => Nat.le_refl _) ?_
  all_goals first
    | exact .of_contexts rfl rfl
    | exact .createContext ..
    | exact .addRef ..

theorem step_effect {a : Label} (hs : step s a = some s') : Effect s s' := by
  cases a with
  | allocate i | lookup i pid | lookupByThread i thread =>
    simp only [step] at hs
    split at hs <;> cases hs
    next hi =>
      exact .of_set hi rfl rfl (fun _ => Nat.le_refl _) (.of_contexts rfl rfl)
  | setThread c thread =>
    simp only [step] at hs
    split at hs <;> cases hs
    exact ⟨.write fun _ => rfl, fun _ => .inl (Nat.le_refl _)⟩
  | releaseAllocated i c =>
    simp only [step] at hs
    split at hs <;> cases hs
    next hi =>
      exact .of_set hi.1 rfl rfl (fun d => (erase_sublist).count_le d) (.of_contexts rfl rfl)
  | releaseLookedUp i c =>
    simp only [step] at hs
    split at hs <;> cases hs
    next hi =>
      exact .of_set hi.1 rfl rfl (fun _ => Nat.le_refl _) (.of_contexts rfl rfl)
  | advance i fail =>
    simp only [step] at hs
    split at hs
    · next pc hi => exact advance_effect hi hs
    · cases hs

theorem pid_run {as : List Label} (h : run step s as = some s') :
    ∀ c < s.alloc.created, (s'.alloc.contexts c).pid = (s.alloc.contexts c).pid := by
  induction as generalizing s with
  | nil =>
    cases h
    exact fun _ _ => rfl
  | cons a as ih =>
    rw [run] at h
    split at h
    · cases h
    · next s1 hs =>
      obtain ⟨hcreated, hpid⟩ := (step_effect hs).keeps
      intro c hc
      rw [ih h c (Nat.lt_of_lt_of_le hc hcreated), hpid c hc]

/-! ## Contexts that were allocated -/

theorem handedOut_guarded (h : GuardedReachable s) (c : Nat) : s.handedOut c ≤ 1 := by
  induction h with
  | start hi =>
    obtain ⟨n, rfl⟩ := hi
    have hle := handedOut_le_references (initial n) c
    have hzero := references_initial n c
    omega
  | @next s s' a h hg hs ih =>
    rcases (step_effect hs).handedOut c with hle | ⟨⟨i, hi⟩, heq⟩
    · omega
    · -- the thread that inserts it was alone with it
      obtain ⟨l, hinv⟩ := inv_guarded h
      obtain ⟨-, -, hzero, -⟩ := hinv.owner hi rfl
      have hle := handedOut_le_references s c
      omega

/-- Calls of `ios_pid_allocate` and `ios_pid_release` only. -/
def Label.allocOnly : Label → Bool
  | .lookup _ _ | .lookupByThread _ _ | .setThread _ _ | .releaseLookedUp _ _ => false
  | .allocate _ | .releaseAllocated _ _ | .advance _ _ => true

/-- A place in `ios_pid_lookup` or `ios_pid_lookup_by_thread`. -/
def PC.looks : PC → Bool
  | .look _ | .lookThread _ _ | .lookInc _ => true
  | _ => false

def AllocGuard (s : State) (l : Label) : Prop := l.allocOnly = true ∧ ¬ Stale s l

instance (s : State) (l : Label) : Decidable (AllocGuard s l) :=
  inferInstanceAs (Decidable (_ ∧ _))

theorem advance_looks {fail : Bool} (hpc : pc.looks = false) (hs : advance s i fail pc = some s') :
    ∃ pc', pc'.looks = false ∧ s'.threads = s.threads.set i pc' := by
  have hpop : ∀ head, (popLoop head).looks = false := by
    intro head
    cases head <;> rfl
  cases pc with
  | idle => cases hs
  | look _ | lookThread _ _ | lookInc _ => cases hpc
  | popLoad =>
    cases hs
    exact ⟨_, hpop _, rfl⟩
  | popCas head next =>
    simp only [advance] at hs
    split at hs <;> cases hs
    · exact ⟨_, rfl, rfl⟩
    · exact ⟨_, hpop _, rfl⟩
  | create _ | relDec _ | pushCas _ _ =>
    simp only [advance] at hs
    split at hs <;> cases hs
    · exact ⟨_, rfl, rfl⟩
    · exact ⟨_, rfl, rfl⟩
  | insert _ | relRemove _ =>
    simp only [advance] at hs
    split at hs <;> cases hs
    exact ⟨_, rfl, rfl⟩
  | _ =>
    cases hs
    exact ⟨_, rfl, rfl⟩

theorem step_looks {a : Label} (ha : a.allocOnly = true)
    (h : ∀ pc ∈ s.threads, pc.looks = false) (hs : step s a = some s') :
    ∀ pc ∈ s'.threads, pc.looks = false := by
  cases a with
  | lookup _ _ | lookupByThread _ _ | setThread _ _ | releaseLookedUp _ _ => cases ha
  | allocate i | releaseAllocated i c =>
    simp only [Threads.step] at hs
    split at hs <;> cases hs
    exact Threads.forall_mem_set h rfl
  | advance i fail =>
    simp only [Threads.step] at hs
    split at hs
    · next pc hi =>
      obtain ⟨pc', hpc', ht⟩ := advance_looks (h pc (List.mem_of_getElem? hi)) hs
      rw [ht]
      exact Threads.forall_mem_set h hpc'
    · cases hs

theorem not_revives (h : ∀ pc ∈ s.threads, pc.looks = false) (a : Label) : ¬ Revives s a := by
  intro hr
  cases a with
  | advance i fail =>
    obtain ⟨pc, hi, hpc⟩ := hr
    have hl := h pc (mem_of_getElem? hi)
    cases pc with
    | lookInc c => cases hl
    | _ => cases hpc
  | _ => exact hr

theorem guarded_of_allocGuard
    (h : Transition.Reachable step AllocGuard (fun s => ∃ n, s = State.initial n) s) :
    GuardedReachable s := by
  have hinit : ∀ s, (∃ n, s = initial n) → ∀ pc ∈ s.threads, pc.looks = false := by
    rintro _ ⟨n, rfl⟩ pc hpc
    rw [eq_of_mem_replicate hpc]
    rfl
  exact Transition.Reachable.change_guard hinit (fun _ _ _ hl hg hs => step_looks hg.1 hl hs)
    (fun s a hl hg => ⟨hg.2, not_revives hl a⟩) h

/-- In every run of threads that allocate and release contexts, and in which the exchange of a pop
never succeeds with a stale link: no context has been returned twice without a release in between,
and no context that is allocated can be reached from `free_list.head`. -/
theorem allocated_exclusive {s : State}
    (h : Transition.Reachable step AllocGuard (fun s => ∃ n, s = State.initial n) s) :
    s.allocated.Nodup ∧ ∀ c ∈ s.allocated, ¬ s.alloc.OnFreeList c := by
  have hg := guarded_of_allocGuard h
  obtain ⟨l, hinv⟩ := inv_guarded hg
  refine ⟨nodup_iff_count_le_one.2 fun c => ?_, fun c hc hfree => ?_⟩
  · have hle := handedOut_guarded hg c
    unfold State.handedOut at hle
    omega
  · have hpos : 0 < s.references c := by
      have := count_pos_iff.2 hc
      unfold State.references
      omega
    exact (hinv.referenced hpos).1 (hinv.chain.reaches_iff.1 hfree)

/-- A call by thread `i` that takes `n` further steps. -/
def call (start : Label) (i n : Nat) : List Label := start :: replicate n (.advance i false)

def fillFreeList : List Label :=
  call (.allocate 0) 0 6 ++ call (.allocate 0) 0 6 ++ call (.releaseAllocated 0 1) 0 9
    ++ call (.releaseAllocated 0 0) 0 9

/-- A context is released and allocated again while another thread is in its pop. -/
theorem allocated_exclusive_reuse :
    ∃ s, s.allocated = [1, 0] ∧
      Transition.Reachable step AllocGuard (fun s => ∃ n, s = State.initial n) s ∧
      ¬ s.alloc.OnFreeList 1 := by
  have hrun : (run (guarded step AllocGuard) (State.initial 2)
      (fillFreeList ++ call (.allocate 1) 1 2 ++ call (.allocate 0) 0 9
        ++ replicate 9 (.advance 1 false))).map State.allocated = some [1, 0] := by decide
  obtain ⟨s, hs, ha⟩ := map_eq_some_iff.1 hrun
  have hreach : Transition.Reachable step AllocGuard (fun s => ∃ n, s = State.initial n) s :=
    .of_guarded_run (.start ⟨2, rfl⟩) hs
  exact ⟨s, ha, hreach, (allocated_exclusive hreach).2 1 (by rw [ha]; exact mem_cons_self)⟩

/-- Thread 1 reads head 0 and its link 1. Thread 0 takes both contexts and releases 0, so that the
exchange of thread 1 succeeds and makes 1 the head. -/
def staleSchedule : List Label :=
  fillFreeList ++ call (.allocate 1) 1 2 ++ call (.allocate 0) 0 9 ++ call (.allocate 0) 0 9
    ++ call (.releaseAllocated 0 0) 0 9 ++ [.advance 1 false]

/-- Thread 0 still has context 1, which is then the head of the free list; the second of two further
allocations of thread 1 returns it again. -/
theorem allocated_twice :
    ∃ s s', Transition.Reachable step (fun _ l => l.allocOnly = true)
        (fun s => ∃ n, s = State.initial n) s ∧
      1 ∈ s.allocated ∧ s.alloc.OnFreeList 1 ∧
      Transition.run step s
      (List.replicate 6 (.advance 1 false) ++ call (.allocate 1) 1 9) = some s' ∧
      s'.allocated = [1, 0, 1] := by
  have hrun : ((run (guarded step fun _ l => l.allocOnly = true)
      (State.initial 2) staleSchedule).bind fun s =>
        (run step s (replicate 6 (.advance 1 false) ++ call (.allocate 1) 1 9)).map
          fun s' => (s.allocated, s.alloc.head, s'.allocated)) = some ([1], some 1, [1, 0, 1]) := by
    decide
  obtain ⟨s, hs, hrest⟩ := bind_eq_some_iff.1 hrun
  obtain ⟨s', hs', heq⟩ := map_eq_some_iff.1 hrest
  obtain ⟨ha, hh, ha'⟩ : s.allocated = [1] ∧ s.alloc.head = some 1 ∧ s'.allocated = [1, 0, 1] := by
    simpa using heq
  refine ⟨s, s', .of_guarded_run (.start ⟨2, rfl⟩) hs, ?_, ?_, hs', ha'⟩
  · rw [ha]
    exact mem_cons_self
  · unfold Allocator.OnFreeList
    rw [hh]
    exact .here

/-! ## Contexts that were looked up -/

/-- In every run without stale pops and without lookups that increment a count of zero: as long as
a reference from a lookup is outstanding, its context is in the active table and not on the free
list, it keeps its pid whatever happens, and no step hands it out again. -/
theorem lookedUp_valid {s : State} (h : GuardedReachable s) {c : Nat} (hc : c ∈ s.lookedUp) :
    s.alloc.Active c ∧ ¬ s.alloc.OnFreeList c ∧
      (∀ as s', Transition.run step s as = some s' →
        (s'.alloc.contexts c).pid = (s.alloc.contexts c).pid) ∧
      ∀ a s', step s a = some s' → s'.handedOut c ≤ s.handedOut c := by
  obtain ⟨l, hinv⟩ := inv_guarded h
  have hpos : 0 < s.references c := by
    have := count_pos_iff.2 hc
    unfold State.references
    omega
  obtain ⟨hl, hown, hlt, hact⟩ := hinv.referenced hpos
  refine ⟨hact, fun hfree => hl (hinv.chain.reaches_iff.1 hfree), fun as s' hr => pid_run hr c hlt,
    fun a s' hs => ?_⟩
  rcases (step_effect hs).handedOut c with hle | ⟨⟨i, hi⟩, -⟩
  · exact hle
  · exact absurd rfl (not_owner hown (mem_of_getElem? hi))

/-- Thread 1 looks context 0 up by its pid; thread 0, which allocated it, then releases it. -/
theorem lookedUp_valid_after_release :
    ∃ s, s.lookedUp = [0] ∧ s.allocated = [] ∧ GuardedReachable s ∧ s.alloc.Active 0 := by
  have hrun : (run (guarded step Guard) (State.initial 2)
      (call (.allocate 0) 0 6 ++ call (.lookup 1 100) 1 2 ++ call (.releaseAllocated 0 0) 0 1)).map
        (fun s => (s.lookedUp, s.allocated)) = some ([0], []) := by decide
  obtain ⟨s, hs, heq⟩ := map_eq_some_iff.1 hrun
  obtain ⟨hl, ha⟩ : s.lookedUp = [0] ∧ s.allocated = [] := by simpa using heq
  have hreach : GuardedReachable s := .of_guarded_run (.start ⟨2, rfl⟩) hs
  exact ⟨s, hl, ha, hreach, (lookedUp_valid hreach (by rw [hl]; exact mem_cons_self)).1⟩

/-- Thread 0 drops the last reference to context 0. Thread 1 finds the context in the table and
takes a reference. Thread 0 goes on and puts the context on the free list. -/
def lateLookup : List Label :=
  call (.allocate 0) 0 6 ++ call (.releaseAllocated 0 0) 0 1 ++ call (.lookup 1 100) 1 2
    ++ replicate 8 (.advance 0 false)

/-- The context that thread 1 has looked up is on the free list, and thread 0 gets it from its next
allocation. No pop of the run is stale. -/
theorem lookedUp_freed :
    ∃ s s', Transition.Reachable step (fun s l => ¬ Stale s l)
    (fun s => ∃ n, s = State.initial n) s ∧
      0 ∈ s.lookedUp ∧ ¬ s.alloc.Active 0 ∧ s.alloc.OnFreeList 0 ∧
      Transition.run step s (call (.allocate 0) 0 9) = some s' ∧
      0 ∈ s'.lookedUp ∧ 0 ∈ s'.allocated := by
  have hrun : ((run (guarded step fun s l => ¬ Stale s l) (State.initial 2)
      lateLookup).bind fun s => (run step s (call (.allocate 0) 0 9)).map
        fun s' => (s.lookedUp, decide (s.alloc.Active 0), s.alloc.head, s'.lookedUp, s'.allocated))
      = some ([0], false, some 0, [0], [0]) := by
    decide
  obtain ⟨s, hs, hrest⟩ := bind_eq_some_iff.1 hrun
  obtain ⟨s', hs', heq⟩ := map_eq_some_iff.1 hrest
  simp only [Prod.mk.injEq, decide_eq_false_iff_not] at heq
  obtain ⟨hl, hact, hh, hl', ha'⟩ := heq
  refine ⟨s, s', .of_guarded_run (.start ⟨2, rfl⟩) hs, ?_, hact, ?_, hs', ?_, ?_⟩
  · rw [hl]
    exact mem_cons_self
  · unfold Allocator.OnFreeList
    rw [hh]
    exact .here
  · rw [hl']
    exact mem_cons_self
  · rw [ha']
    exact mem_cons_self

end IosSystem.PidAlloc.Threads
