import IosSystem.PidAlloc.Serial

/-!
# Threads that share the PID allocator

The functions of `ios_pid_allocator.c` again, cut at every operation on an atomic variable, at the
plain accesses to `next_free`, and around the sections under a bucket lock.

* A section under the write lock of a bucket is one step. It can run when no thread holds the read
  lock of that bucket.
* The lookups hold the read lock of a bucket from the search to the increment of `ref_count`.
* An exchange of `free_list.head` compares and writes the pointer only. It is a weak one and may
  fail without a reason.

The serial functions are these steps, taken by one thread without interruption (`solo_call`).
-/

namespace IosSystem.PidAlloc.Threads

open List Transition

/-- Where a thread is, cut at every atomic operation and lock. -/
inductive PC where
  | idle
  /-- `pid_allocator_pop_free_list` -/
  | popLoad
  | popNext (head : Nat)
  | popCas (head : Nat) (next : Option Nat)
  | popSize (c : Nat)
  | popClear (c : Nat)
  | popFlag (c : Nat)
  | popRef (c : Nat)
  /-- `ios_pid_allocate`, when the free list was empty -/
  | newPid
  | create (pid : Int)
  | newCount (c : Nat)
  /-- `ios_pid_allocate`, with a context -/
  | insert (c : Nat)
  | insertCount (c : Nat)
  /-- `ios_pid_release` -/
  | relDec (c : Nat)
  | relRemove (c : Nat)
  | relCount (c : Nat)
  /-- `pid_allocator_push_free_list` -/
  | pushThread (c : Nat)
  | pushFlag (c : Nat)
  | pushLoad (c : Nat)
  | pushStore (c : Nat) (oldHead : Option Nat)
  | pushCas (c : Nat) (oldHead : Option Nat)
  | pushSize
  /-- `ios_pid_lookup` and `ios_pid_lookup_by_thread` -/
  | look (pid : Int)
  | lookThread (thread bucket : Nat)
  | lookInc (c : Nat)
  deriving DecidableEq

def PC.reads : PC → Option Nat
  | .lookInc c => some c
  | _ => none

/-- The allocator, the references that `ios_pid_allocate` and the lookups have returned and that
were not yet given to a release, and the threads. -/
structure State where
  alloc : Allocator
  allocated : List Nat
  lookedUp : List Nat
  threads : List PC

def State.initial (n : Nat) : State := ⟨Allocator.init, [], [], List.replicate n .idle⟩

def State.goto (s : State) (i : Nat) (pc : PC) : State := { s with threads := s.threads.set i pc }

def State.write (s : State) (c : Nat) (f : Context → Context) : State :=
  { s with alloc := s.alloc.modify c f }

/-- No thread holds the read lock of the bucket of context `c`. -/
def State.Writable (s : State) (c : Nat) : Prop :=
  ∀ pc ∈ s.threads, ∀ d ∈ pc.reads, s.alloc.bucketOf d ≠ s.alloc.bucketOf c

instance (s : State) (c : Nat) : Decidable (s.Writable c) :=
  have : DecidablePred fun pc : PC => ∀ d ∈ pc.reads, s.alloc.bucketOf d ≠ s.alloc.bucketOf c :=
    fun pc => Option.decidableForallMem pc.reads
  decidableBAll _ s.threads

/-- The loop of `pid_allocator_pop_free_list`. -/
def popLoop : Option Nat → PC
  | none => .newPid
  | some head => .popNext head

def nextBucket (thread bucket : Nat) : PC :=
  if bucket + 1 < hashTableSize then .lookThread thread (bucket + 1) else .idle

/-- The next step of thread `i`, which is at the given place. `fail` says that a weak exchange fails
without a reason or that `calloc` returns NULL. -/
def advance (s : State) (i : Nat) (fail : Bool) : PC → Option State
  | .idle => none
  | .popLoad => some (s.goto i (popLoop s.alloc.head))
  | .popNext head => some (s.goto i (.popCas head (s.alloc.next head)))
  | .popCas head next =>
    if s.alloc.head = some head ∧ fail = false then
      some ({ s with alloc.head := next }.goto i (.popSize head))
    else some (s.goto i (popLoop s.alloc.head))
  | .popSize c => some ({ s with alloc.size := s.alloc.size - 1 }.goto i (.popClear c))
  | .popClear c => some ((s.write c fun x => { x with nextFree := none }).goto i (.popFlag c))
  | .popFlag c => some ((s.write c fun x => { x with isAllocated := true }).goto i (.popRef c))
  | .popRef c => some ((s.write c fun x => { x with refCount := 1 }).goto i (.insert c))
  | .newPid =>
    some ({ s with alloc.nextPid := wrapPid (s.alloc.nextPid + 1) }.goto i
      (.create s.alloc.nextPid))
  | .create pid =>
    if fail then some (s.goto i .idle)
    else some ({ s with alloc := s.alloc.createContext pid }.goto i (.newCount s.alloc.created))
  | .newCount c =>
    some ({ s with alloc.totalAllocated := s.alloc.totalAllocated + 1 }.goto i (.insert c))
  | .insert c =>
    if s.Writable c then
      some ({ s with alloc := s.alloc.insertActive c }.goto i (.insertCount c))
    else none
  | .insertCount c =>
    some ({ s with
      alloc.currentlyActive := s.alloc.currentlyActive + 1
      allocated := c :: s.allocated }.goto i .idle)
  | .relDec c =>
    some ({ s with alloc := s.alloc.addRef c (-1) }.goto i
      (if 1 < (s.alloc.contexts c).refCount then .idle else .relRemove c))
  | .relRemove c =>
    if s.Writable c then
      some ({ s with alloc := s.alloc.removeActive c }.goto i (.relCount c))
    else none
  | .relCount c =>
    some ({ s with alloc.currentlyActive := s.alloc.currentlyActive - 1 }.goto i (.pushThread c))
  | .pushThread c => some ((s.write c fun x => { x with threadId := 0 }).goto i (.pushFlag c))
  | .pushFlag c => some ((s.write c fun x => { x with isAllocated := false }).goto i (.pushLoad c))
  | .pushLoad c => some (s.goto i (.pushStore c s.alloc.head))
  | .pushStore c oldHead =>
    some ((s.write c fun x => { x with nextFree := oldHead }).goto i (.pushCas c oldHead))
  | .pushCas c oldHead =>
    if s.alloc.head = oldHead ∧ fail = false then
      some ({ s with alloc.head := some c }.goto i .pushSize)
    else some (s.goto i (.pushStore c s.alloc.head))
  | .pushSize => some ({ s with alloc.size := s.alloc.size + 1 }.goto i .idle)
  | .look pid =>
    match s.alloc.find pid with
    | some c => some (s.goto i (.lookInc c))
    | none => some (s.goto i .idle)
  | .lookThread thread bucket =>
    match s.alloc.findThread thread bucket with
    | some c => some (s.goto i (.lookInc c))
    | none => some (s.goto i (nextBucket thread bucket))
  | .lookInc c =>
    some ({ s with alloc := s.alloc.addRef c 1, lookedUp := c :: s.lookedUp }.goto i .idle)

inductive Label where
  | allocate (i : Nat)
  | lookup (i : Nat) (pid : Int)
  | lookupByThread (i thread : Nat)
  /-- `ios_pid_set_thread`, by the holder of some reference -/
  | setThread (c thread : Nat)
  /-- release of a reference that `ios_pid_allocate` has returned -/
  | releaseAllocated (i c : Nat)
  /-- release of a reference that a lookup has returned -/
  | releaseLookedUp (i c : Nat)
  | advance (i : Nat) (fail : Bool)

def step (s : State) : Label → Option State
  | .allocate i => if s.threads[i]? = some .idle then some (s.goto i .popLoad) else none
  | .lookup i pid => if s.threads[i]? = some .idle then some (s.goto i (.look pid)) else none
  | .lookupByThread i thread =>
    if s.threads[i]? = some .idle then some (s.goto i (.lookThread thread 0)) else none
  | .setThread c thread =>
    if c ∈ s.allocated ∨ c ∈ s.lookedUp then
      some (s.write c fun x => { x with threadId := thread })
    else none
  | .releaseAllocated i c =>
    if s.threads[i]? = some .idle ∧ c ∈ s.allocated then
      some ({ s with allocated := s.allocated.erase c }.goto i (.relDec c))
    else none
  | .releaseLookedUp i c =>
    if s.threads[i]? = some .idle ∧ c ∈ s.lookedUp then
      some ({ s with lookedUp := s.lookedUp.erase c }.goto i (.relDec c))
    else none
  | .advance i fail =>
    match s.threads[i]? with
    | some pc => advance s i fail pc
    | none => none

/-! ## One thread alone -/

theorem count_erase_add {l : List Nat} {c : Nat} (hc : c ∈ l) (d : Nat) :
    (l.erase c).count d + (if c = d then 1 else 0) = l.count d := by
  rw [(perm_cons_erase hc).count_eq d, count_cons]
  simp

/-- The steps of a thread that nobody interrupts lead from `s` to `t`. -/
def Leads (s t : State) : Prop := ∃ ls, run step s ls = some t

section

attribute [local simp] run step advance State.goto State.write popLoop nextBucket
  Allocator.modify_modify Allocator.head_modify

variable (a : Allocator) (allocated lookedUp : List Nat)

theorem writable_solo (c : Nat) :
    (State.mk a allocated lookedUp [.insert c]).Writable c ∧
      (State.mk a allocated lookedUp [.relRemove c]).Writable c := by
  simp [State.Writable, PC.reads]

theorem leads_allocate (calloc : Bool) :
    Leads ⟨a, allocated, lookedUp, [.idle]⟩
      ⟨(allocate a calloc).1, (allocate a calloc).2.toList ++ allocated, lookedUp, [.idle]⟩ := by
  cases hh : a.head with
  | some c =>
    refine ⟨.allocate 0 :: replicate 9 (.advance 0 false), ?_⟩
    simp [hh, allocate, popFreeList, writable_solo, replicate]
    rfl
  | none =>
    cases calloc with
    | true =>
      refine ⟨.allocate 0 :: replicate 6 (.advance 0 false), ?_⟩
      simp [hh, allocate, popFreeList, writable_solo, replicate]
      rfl
    | false =>
      refine ⟨.allocate 0 :: replicate 3 (.advance 0 true), ?_⟩
      simp [hh, allocate, popFreeList, replicate]

theorem leads_release (c : Nat) :
    Leads ⟨a, allocated, lookedUp, [.relDec c]⟩ ⟨release a c, allocated, lookedUp, [.idle]⟩ := by
  by_cases hc : 1 < (a.contexts c).refCount
  · exact ⟨[.advance 0 false], by simp [hc, release]⟩
  · refine ⟨replicate 9 (.advance 0 false), ?_⟩
    simp [hc, release, writable_solo, replicate]
    rfl

theorem leads_lookup (pid : Int) :
    Leads ⟨a, allocated, lookedUp, [.idle]⟩
      ⟨(lookup a pid).1, allocated, (lookup a pid).2.toList ++ lookedUp, [.idle]⟩ := by
  cases hf : a.find pid with
  | some c =>
    exact ⟨[.lookup 0 pid, .advance 0 false, .advance 0 false], by simp [hf, lookup]⟩
  | none => exact ⟨[.lookup 0 pid, .advance 0 false], by simp [hf, lookup]⟩

def found : Option Nat → State
  | some c => ⟨a.addRef c 1, allocated, c :: lookedUp, [.idle]⟩
  | none => ⟨a, allocated, lookedUp, [.idle]⟩

theorem leads_lookThread (thread n bucket : Nat) (hb : bucket + n + 1 = hashTableSize) :
    Leads ⟨a, allocated, lookedUp, [.lookThread thread bucket]⟩
      (found a allocated lookedUp ((range' bucket (n + 1)).findSome? (a.findThread thread))) := by
  induction n generalizing bucket with
  | zero =>
    cases hf : a.findThread thread bucket with
    | some c => exact ⟨[.advance 0 false, .advance 0 false], by simp [hf, found]⟩
    | none => exact ⟨[.advance 0 false], by simp [hf, found, ← hb]⟩
  | succ n ih =>
    rw [range'_succ, findSome?_cons]
    cases hf : a.findThread thread bucket with
    | some c => exact ⟨[.advance 0 false, .advance 0 false], by simp [hf, found]⟩
    | none =>
      obtain ⟨ls, hls⟩ := ih (bucket + 1) (by omega)
      have hnext : bucket + 1 < hashTableSize := by omega
      exact ⟨.advance 0 false :: ls, by simpa [hf, hnext] using hls⟩

theorem leads_lookupByThread (thread : Nat) :
    Leads ⟨a, allocated, lookedUp, [.idle]⟩ ⟨(lookupByThread a thread).1, allocated,
      (lookupByThread a thread).2.toList ++ lookedUp, [.idle]⟩ := by
  obtain ⟨ls, hls⟩ := leads_lookThread a allocated lookedUp thread 255 0 rfl
  refine ⟨.lookupByThread 0 thread :: ls, ?_⟩
  simp only [run, step, getElem?_cons_zero, if_true, State.goto, set_cons_zero]
  rw [hls, lookupByThread, range_eq_range', show 255 + 1 = hashTableSize from rfl]
  cases (range' 0 hashTableSize).findSome? (a.findThread thread) <;> rfl

end

/-- One idle thread, with the allocator of the serial model. -/
structure Solo (s : PidAlloc.State) (t : State) : Prop where
  alloc : t.alloc = s.alloc
  threads : t.threads = [.idle]
  refs : ∀ c, t.allocated.count c + t.lookedUp.count c = s.refs.count c

theorem mem_refs {allocated lookedUp refs : List Nat} {d : Nat}
    (h : ∀ c, allocated.count c + lookedUp.count c = refs.count c) :
    d ∈ refs ↔ d ∈ allocated ∨ d ∈ lookedUp := by
  simp only [← count_pos_iff, ← h]
  omega

/-- One thread alone does what the serial model says. -/
theorem solo_call {s s' : PidAlloc.State} {t : State} {c : Call} (h : Solo s t)
    (hc : call s c = some s') :
    ∃ ls t', Transition.run step t ls = some t' ∧ Solo s' t' := by
  obtain ⟨a, allocated, lookedUp, threads⟩ := t
  obtain ⟨halloc, hthreads, hrefs⟩ := h
  simp only at halloc hthreads hrefs
  subst halloc hthreads
  cases c with
  | allocate calloc =>
    cases hc
    obtain ⟨ls, hls⟩ := leads_allocate s.alloc allocated lookedUp calloc
    exact ⟨ls, _, hls, rfl, rfl, fun d => by simp [Nat.add_assoc, hrefs]⟩
  | lookup pid =>
    cases hc
    obtain ⟨ls, hls⟩ := leads_lookup s.alloc allocated lookedUp pid
    exact ⟨ls, _, hls, rfl, rfl, fun d => by simp [← hrefs, Nat.add_left_comm]⟩
  | lookupByThread thread =>
    cases hc
    obtain ⟨ls, hls⟩ := leads_lookupByThread s.alloc allocated lookedUp thread
    exact ⟨ls, _, hls, rfl, rfl, fun d => by simp [← hrefs, Nat.add_left_comm]⟩
  | setThread d thread =>
    simp only [call] at hc
    split at hc <;> cases hc
    next hd =>
    refine ⟨[.setThread d thread], ⟨setThread s.alloc d thread, allocated, lookedUp, [.idle]⟩, ?_,
      rfl, rfl, hrefs⟩
    simp only [run, step, if_pos ((mem_refs hrefs).1 hd)]
    rfl
  | release d =>
    simp only [call] at hc
    split at hc <;> cases hc
    next hd =>
    have herase := count_erase_add hd
    by_cases hmem : d ∈ allocated
    · obtain ⟨ls, hls⟩ := leads_release s.alloc (allocated.erase d) lookedUp d
      refine ⟨.releaseAllocated 0 d :: ls, _, by simpa [run, step, hmem, State.goto] using hls,
        rfl, rfl, fun e => ?_⟩
      have := count_erase_add hmem e
      have := herase e
      have := hrefs e
      simp only
      omega
    · have hmem' := ((mem_refs hrefs).1 hd).resolve_left hmem
      obtain ⟨ls, hls⟩ := leads_release s.alloc allocated (lookedUp.erase d) d
      refine ⟨.releaseLookedUp 0 d :: ls, _, by simpa [run, step, hmem', State.goto] using hls,
        rfl, rfl, fun e => ?_⟩
      have := count_erase_add hmem' e
      have := herase e
      have := hrefs e
      simp only
      omega

theorem reachable_solo {s : PidAlloc.State} (h : PidAlloc.Reachable s) :
    ∃ t, Solo s t ∧
      Transition.Reachable step (fun _ _ => True) (fun t => ∃ n, t = State.initial n) t := by
  induction h with
  | start hi =>
    subst hi
    exact ⟨State.initial 1, ⟨rfl, rfl, fun _ => rfl⟩, .start ⟨1, rfl⟩⟩
  | next _ _ hs ih =>
    obtain ⟨t, hsolo, ht⟩ := ih
    obtain ⟨ls, t', hrun, hsolo'⟩ := solo_call hsolo hs
    exact ⟨t', hsolo', .of_run ht hrun⟩

end IosSystem.PidAlloc.Threads
