import IosSystem.Lib.Transition
import IosSystem.Shell.Buffers

/-!
# The memory of a command that is dispatched

`ios_system` fills a parameter block, gives it to `pthread_create` and then stores the thread into
it. The new thread runs the command and releases everything in `cleanup_function`.

* When the thread has ended before its identifier is stored, `params->thread_id = cmd_thread` writes
  into a block that was released.
* When `pthread_create` fails, only the parameter block is released.

These are the only faults of the dispatch (`command_memory_iff`).
-/

namespace IosSystem.Command.Ownership

open Blocks

/-! ## The two threads -/

/-- The blocks that `ios_system` hands to the thread of the command. -/
inductive Block
  | params
  | argv
  | argvRef
  | string (i : Nat)
  deriving DecidableEq

/-- The statement of `ios_system` that is next. -/
inductive Dispatcher
  /-- `pthread_create(&cmd_thread, …, run_function, params)` -/
  | create
  /-- `params->thread_id = cmd_thread` -/
  | store
  /-- `pthread_join(cmd_thread, NULL)`, if `joinMainThread` is set -/
  | join
  | returned
  deriving DecidableEq

/-- The statement of `run_function` or `cleanup_function` that is next. -/
inductive Worker
  | absent
  | start
  /-- `argv_ref` is made, and `cleanup_function` is pushed -/
  | copyArgs
  /-- `p->function(p->argc, p->argv)` -/
  | run
  /-- `cleanup_function`, as far as the name of the command is needed -/
  | cleanup
  /-- `free(p->argv_ref[i])` -/
  | freeString (i : Nat)
  | freeRef
  | freeArgv
  | close
  | freeParams
  | done
  deriving DecidableEq

/-- Where the two threads are, and what they have freed. -/
structure State where
  dispatcher : Dispatcher
  worker : Worker
  heap : Heap Block

inductive Label
  /-- `created` is the result of `pthread_create`. -/
  | dispatcher (created : Bool)
  | worker

def start : State := ⟨.create, .absent, .empty⟩

/-- `ios_system`, from `pthread_create` on. -/
def dispatcherStep (joined created : Bool) (s : State) : Option State :=
  match s.dispatcher with
  | .create =>
    if created then some { s with dispatcher := .store, worker := .start }
    else some { s with dispatcher := .returned, heap := s.heap.free ⟨.params, 0⟩ }
  | .store => some { s with dispatcher := .join, heap := s.heap.use [.params] }
  | .join => if joined ∧ s.worker ≠ .done then none else some { s with dispatcher := .returned }
  | .returned => none

/-- The thread of the command up to the end of `cleanup_function`. -/
def workerStep (argc : Nat) (h : Heap Block) : Worker → Option (Worker × Heap Block)
  | .absent | .done => none
  | .start => some (.copyArgs, h.use [.params, .argv, .string 0])
  | .copyArgs => some (.run, h.use [.params, .argv])
  | .run => some (.cleanup, h.use (.params :: .argv :: (List.range argc).map .string))
  | .cleanup => some (.freeString 0, h.use [.params, .argv, .string 0])
  | .freeString i =>
    if i < argc then some (.freeString (i + 1), (h.use [.params, .argvRef]).free ⟨.string i, 0⟩)
    else some (.freeRef, h.use [.params])
  | .freeRef => some (.freeArgv, (h.use [.params]).free ⟨.argvRef, 0⟩)
  | .freeArgv => some (.close, (h.use [.params]).free ⟨.argv, 0⟩)
  | .close => some (.freeParams, h.use [.params])
  | .freeParams => some (.done, h.free ⟨.params, 0⟩)

def step (argc : Nat) (joined : Bool) (s : State) : Label → Option State
  | .dispatcher created => dispatcherStep joined created s
  | .worker => (workerStep argc s.heap s.worker).map fun r => { s with worker := r.1, heap := r.2 }

/-! ## What is expected -/

/-- Both threads are through, as far as there is a second one. -/
def Finished (s : State) : Prop := s.dispatcher = .returned ∧
    (s.worker = .absent ∨ s.worker = .done)

/-- The blocks that are handed to the thread: `params`, `argv` and its `argc` strings. -/
def Owned (argc : Nat) : Block → Prop
  | .params | .argv => True
  | .argvRef => False
  | .string i => i < argc

/-- Nothing was released twice or used after its release, and at the end everything was released. -/
structure Accounted (argc : Nat) (s : State) : Prop where
  misused : s.heap.misused = false
  released : Finished s → ∀ b, Owned argc b → s.heap.freed b = 1

/-- The thread is created, and it has not released `params` when its identifier is stored. -/
def Safe (s : State) : Label → Prop
  | .dispatcher created =>
    (s.dispatcher = .create → created = true) ∧ (s.dispatcher = .store → s.worker ≠ .done)
  | .worker => True

/-! ## What the thread has released -/

/-- How often the worker has freed a block when it is at a place. -/
def released (argc : Nat) : Worker → Block → Nat
  | .freeString k, .string i => if i < k then 1 else 0
  | .freeRef, .string i | .freeArgv, .string i | .close, .string i | .freeParams, .string i
  | .done, .string i => if i < argc then 1 else 0
  | .freeArgv, .argvRef | .close, .argvRef | .freeParams, .argvRef | .done, .argvRef => 1
  | .close, .argv | .freeParams, .argv | .done, .argv => 1
  | .done, .params => 1
  | _, _ => 0

def ledger (argc : Nat) (w : Worker) : Heap Block := ⟨released argc w, false⟩

def Worker.Within (argc : Nat) : Worker → Prop
  | .freeString k => k ≤ argc
  | _ => True

variable {argc : Nat}

variable {w w' : Worker}

theorem ledger_use {bs : List Block} (h : ∀ b ∈ bs, released argc w b = 0) :
    (ledger argc w).use bs = ledger argc w :=
  Heap.use_eq h

theorem ledger_free {b : Block} (hb : released argc w b = 0)
    (hb' : released argc w' b = 1) (hne : ∀ c, c ≠ b → released argc w' c = released argc w c) :
    (ledger argc w).free ⟨b, 0⟩ = ledger argc w' := by
  rw [Heap.free_eq rfl hb]
  refine congrArg (Heap.mk · false) (funext fun c => ?_)
  by_cases hc : c = b
  · rw [hc, Function.update_self, hb']
  · rw [Function.update_of_ne hc]
    exact (hne c hc).symm

theorem ledger_freeString {k : Nat} :
    (ledger argc (.freeString k)).free ⟨.string k, 0⟩ = ledger argc (.freeString (k + 1)) := by
  refine ledger_free (by simp [released]) (by simp [released]) fun c hc => ?_
  cases c with
  | string i =>
    have hik : i ≠ k := fun h => hc (congrArg Block.string h)
    have hiff : i < k + 1 ↔ i < k := by omega
    simp [released, hiff]
  | params | argv | argvRef => rfl

theorem ledger_freeRef : (ledger argc .freeRef).free ⟨.argvRef, 0⟩ = ledger argc .freeArgv := by
  refine ledger_free rfl rfl fun c hc => ?_
  cases c with
  | argvRef => exact absurd rfl hc
  | params | argv | string i => rfl

theorem ledger_freeArgv : (ledger argc .freeArgv).free ⟨.argv, 0⟩ = ledger argc .close := by
  refine ledger_free rfl rfl fun c hc => ?_
  cases c with
  | argv => exact absurd rfl hc
  | params | argvRef | string i => rfl

theorem ledger_freeParams : (ledger argc .freeParams).free ⟨.params, 0⟩ = ledger argc .done := by
  refine ledger_free rfl rfl fun c hc => ?_
  cases c with
  | params => exact absurd rfl hc
  | argv | argvRef | string i => rfl

theorem ledger_congr (h : ∀ b, released argc w b = released argc w' b) :
    ledger argc w = ledger argc w' :=
  congrArg (Heap.mk · false) (funext h)

theorem released_freeString_zero (b : Block) :
    released argc .cleanup b = released argc (.freeString 0) b := by
  cases b <;> simp [released]

theorem released_freeString_argc (b : Block) :
    released argc (.freeString argc) b = released argc .freeRef b := by
  cases b <;> rfl

theorem released_close (b : Block) : released argc .close b = released argc .freeParams b := by
  cases b <;> rfl

theorem workerStep_ledger {h : Heap Block} (hw : w.Within argc)
    (hs : workerStep argc (ledger argc w) w = some (w', h)) :
    h = ledger argc w' ∧ w'.Within argc ∧ w ≠ .absent ∧ w' ≠ .absent := by
  cases w with
  | absent | done => cases hs
  | start | copyArgs | run =>
    cases hs
    refine ⟨?_, trivial, by decide, by decide⟩
    rw [ledger_use (by simp [released])]
    rfl
  | cleanup =>
    cases hs
    refine ⟨?_, Nat.zero_le _, by decide, by decide⟩
    exact ledger_congr released_freeString_zero
  | freeString k =>
    rw [workerStep] at hs
    split at hs <;> cases hs
    · next hk =>
      refine ⟨?_, hk, by simp, by simp⟩
      rw [ledger_use (by simp [released]), ledger_freeString]
    · next hk =>
      refine ⟨?_, trivial, by simp, by decide⟩
      obtain rfl : k = argc := Nat.le_antisymm hw (Nat.le_of_not_lt hk)
      exact ledger_congr released_freeString_argc
  | freeRef =>
    cases hs
    refine ⟨?_, trivial, by decide, by decide⟩
    rw [ledger_use (by simp [released]), ledger_freeRef]
  | freeArgv =>
    cases hs
    refine ⟨?_, trivial, by decide, by decide⟩
    rw [ledger_use (by simp [released]), ledger_freeArgv]
  | close =>
    cases hs
    refine ⟨?_, trivial, by decide, by decide⟩
    exact ledger_congr released_close
  | freeParams =>
    cases hs
    exact ⟨ledger_freeParams, trivial, by decide, by decide⟩

theorem released_params : released argc w .params = 0 ↔ w ≠ .done := by
  cases w <;> simp [released]

theorem released_done {b : Block} (h : Owned argc b) : released argc .done b = 1 := by
  cases b with
  | params | argv => rfl
  | argvRef => exact h.elim
  | string i => exact if_pos h

/-! ## Along a run -/

/-- The blocks freed are those that the place of the worker says. -/
structure Kept (argc : Nat) (s : State) : Prop where
  heap : s.heap = ledger argc s.worker
  within : s.worker.Within argc
  absent : s.worker = .absent ↔ s.dispatcher = .create

variable {joined : Bool} {s s' : State} {l : Label}

theorem Kept.accounted (h : Kept argc s) : Accounted argc s := by
  refine ⟨by rw [h.heap]; rfl, ?_⟩
  rintro ⟨hdispatcher, habsent | hdone⟩ b hb
  · rw [h.absent, hdispatcher] at habsent
    cases habsent
  · rw [h.heap, hdone]
    exact released_done hb

theorem dispatcherStep_cases {created : Bool} (hs : dispatcherStep joined created s = some s') :
    (s.dispatcher = .create ∧ created = true ∧
      s' = { s with dispatcher := .store, worker := .start }) ∨
    (s.dispatcher = .create ∧ created = false ∧
      s' = { s with dispatcher := .returned, heap := s.heap.free ⟨.params, 0⟩ }) ∨
    (s.dispatcher = .store ∧ s' = { s with dispatcher := .join, heap := s.heap.use [.params] }) ∨
    (s.dispatcher = .join ∧ s' = { s with dispatcher := .returned }) := by
  unfold dispatcherStep at hs
  split at hs
  · next hd =>
    cases created with
    | true => exact .inl ⟨hd, rfl, (Option.some.inj hs).symm⟩
    | false => exact .inr (.inl ⟨hd, rfl, (Option.some.inj hs).symm⟩)
  · next hd => exact .inr (.inr (.inl ⟨hd, (Option.some.inj hs).symm⟩))
  · next hd =>
    split at hs
    · cases hs
    · exact .inr (.inr (.inr ⟨hd, (Option.some.inj hs).symm⟩))
  · cases hs

theorem step_worker (hs : step argc joined s .worker = some s') :
    ∃ w h, workerStep argc s.heap s.worker = some (w, h) ∧
    s' = { s with worker := w, heap := h } := by
  obtain ⟨⟨w, h⟩, hstep, heq⟩ := Option.map_eq_some_iff.mp hs
  exact ⟨w, h, hstep, heq.symm⟩

theorem Kept.step (h : Kept argc s) (hs : step argc joined s l = some s') (hg : Safe s l) :
    Kept argc s' := by
  cases l with
  | dispatcher created =>
    obtain ⟨hd, -, rfl⟩ | ⟨hd, hfailed, rfl⟩ | ⟨hd, rfl⟩ | ⟨hd, rfl⟩ := dispatcherStep_cases hs
    · refine ⟨?_, trivial, by simp⟩
      rw [h.heap, h.absent.mpr hd]
      rfl
    · cases hfailed.symm.trans (hg.1 hd)
    · refine ⟨?_, h.within, ?_⟩
      · rw [h.heap, ledger_use]
        simpa using released_params.mpr (hg.2 hd)
      · simp [h.absent, hd]
    · exact ⟨h.heap, h.within, by simp [h.absent, hd]⟩
  | worker =>
    obtain ⟨w, heap, hw, rfl⟩ := step_worker hs
    rw [h.heap] at hw
    obtain ⟨hheap, hwithin, hpresent, hpresent'⟩ := workerStep_ledger h.within hw
    refine ⟨hheap, hwithin, ?_⟩
    rw [← h.absent]
    exact iff_of_false hpresent' hpresent

theorem Kept.not_accounted (h : Kept argc s) (hs : Ownership.step argc joined s l = some s')
    (hg : ¬Safe s l) : ¬Accounted argc s' := by
  intro hacc
  cases l with
  | dispatcher created =>
    obtain ⟨hd, rfl, -⟩ | ⟨hd, -, rfl⟩ | ⟨hd, rfl⟩ | ⟨hd, -⟩ := dispatcherStep_cases hs
    · exact hg ⟨fun _ => rfl, by simp [hd]⟩
    · have habsent : s.worker = .absent := h.absent.mpr hd
      have hone := hacc.released ⟨rfl, .inl habsent⟩ .argv trivial
      rw [h.heap, habsent] at hone
      cases hone
    · by_cases hdone : s.worker = .done
      · have hmisused : (s.heap.use [.params]).misused = true := by
          refine Heap.misused_use (List.mem_singleton_self _) ?_
          rw [h.heap, hdone]
          exact Nat.one_ne_zero
        cases hmisused.symm.trans hacc.misused
      · exact hg ⟨by simp [hd], fun _ => hdone⟩
    · exact hg ⟨by simp [hd], by simp [hd]⟩
  | worker => exact hg trivial

theorem kept_start : Kept argc start := by
  refine ⟨?_, trivial, by simp [start]⟩
  refine congrArg (Heap.mk · false) (funext fun b => ?_)
  cases b <;> rfl

/-! ## Every run ends -/

def Dispatcher.rank : Dispatcher → Nat
  | .create => 3
  | .store => 2
  | .join => 1
  | .returned => 0

def Worker.rank (argc : Nat) : Worker → Nat
  | .absent => argc + 11
  | .start => argc + 10
  | .copyArgs => argc + 9
  | .run => argc + 8
  | .cleanup => argc + 7
  | .freeString i => argc - i + 6
  | .freeRef => 5
  | .freeArgv => 4
  | .close => 3
  | .freeParams => 2
  | .done => 1

theorem workerStep_rank {h h' : Heap Block}
    (hs : workerStep argc h w = some (w', h')) : w'.rank argc < w.rank argc ∧ w' ≠ .absent := by
  cases w with
  | absent | done => cases hs
  | freeString i =>
    rw [workerStep] at hs
    split at hs <;> cases hs
    · refine ⟨?_, by simp⟩
      simp only [Worker.rank]
      omega
    · refine ⟨?_, by decide⟩
      simp only [Worker.rank]
      omega
  | start | copyArgs | run | cleanup | freeRef | freeArgv | close | freeParams =>
    cases hs
    refine ⟨?_, by simp⟩
    simp only [Worker.rank]
    omega

theorem workerStep_isSome (argc : Nat) (h : Heap Block) (hw : ¬(w = .absent ∨ w = .done)) :
    ∃ r, workerStep argc h w = some r := by
  cases w with
  | absent => exact absurd (.inl rfl) hw
  | done => exact absurd (.inr rfl) hw
  | freeString i =>
    rw [workerStep]
    split
    · exact ⟨_, rfl⟩
    · exact ⟨_, rfl⟩
  | start | copyArgs | run | cleanup | freeRef | freeArgv | close | freeParams => exact ⟨_, rfl⟩

/-- There is a worker just when it has been created. -/
structure Present (s : State) : Prop where
  before : s.dispatcher = .create → s.worker = .absent
  after : s.dispatcher = .store ∨ s.dispatcher = .join → s.worker ≠ .absent

theorem Present.step (h : Present s) (hs : step argc joined s l = some s') :
    Present s' ∧
    s'.dispatcher.rank + s'.worker.rank argc < s.dispatcher.rank + s.worker.rank argc := by
  cases l with
  | dispatcher created =>
    obtain ⟨hd, -, rfl⟩ | ⟨hd, -, rfl⟩ | ⟨hd, rfl⟩ | ⟨hd, rfl⟩ := dispatcherStep_cases hs
    · refine ⟨⟨nofun, fun _ => by simp⟩, ?_⟩
      rw [hd, h.before hd]
      simp only [Dispatcher.rank, Worker.rank]
      omega
    · refine ⟨⟨nofun, by simp⟩, ?_⟩
      rw [hd]
      simp only [Dispatcher.rank]
      omega
    · refine ⟨⟨nofun, fun _ => h.after (.inl hd)⟩, ?_⟩
      rw [hd]
      simp only [Dispatcher.rank]
      omega
    · refine ⟨⟨nofun, by simp⟩, ?_⟩
      rw [hd]
      simp only [Dispatcher.rank]
      omega
  | worker =>
    obtain ⟨w, heap, hw, rfl⟩ := step_worker hs
    obtain ⟨hlt, hpresent⟩ := workerStep_rank hw
    refine ⟨⟨fun hd => ?_, fun _ => hpresent⟩, Nat.add_lt_add_left hlt _⟩
    rw [h.before hd] at hw
    cases hw

theorem Present.progress (h : Present s) (hf : ¬Finished s) :
    ∃ l s', Ownership.step argc joined s l = some s' := by
  by_cases hw : s.worker = .absent ∨ s.worker = .done
  · have hd : s.dispatcher ≠ .returned := fun hd => hf ⟨hd, hw⟩
    refine ⟨.dispatcher true, ?_⟩
    simp only [Ownership.step, dispatcherStep]
    split
    · exact ⟨_, rfl⟩
    · exact ⟨_, rfl⟩
    · next hjoin =>
      have hdone : s.worker = .done := hw.resolve_left (h.after (.inr hjoin))
      exact ⟨_, if_neg fun hwait => hwait.2 hdone⟩
    · next hreturned => exact absurd hreturned hd
  · obtain ⟨r, hr⟩ := workerStep_isSome argc s.heap hw
    exact ⟨.worker, _, by rw [Ownership.step, hr]; rfl⟩

theorem ends (argc : Nat) (joined : Bool) : Transition.Ends (step argc joined) start Finished :=
  Transition.Ends.of_rank (fun s => s.dispatcher.rank + s.worker.rank argc)
    (⟨fun _ => rfl, by simp [start]⟩ : Present start) (fun _ _ _ h hs => h.step hs)
    fun _ h hf => h.progress hf

/-! ## The whole life of a command -/

/--
Before the dispatch, the line is released properly exactly if no substitution is made behind a
parenthesis or assignments. From the dispatch on, in every interleaving, `params`, `argv` and the
strings are released once and not used afterwards exactly as long as the thread is created and is
not through when its identifier is stored.
-/
theorem command_memory_iff (env : Shell.Env) (fuel : Nat) (inputCmd : Shell.CStr)
    (dispatched : Bool)
    (argc : Nat) (joined : Bool) (labels : List Label) :
    ((∀ b, env.buffers fuel inputCmd dispatched = some b → b.heap.misused = false) ↔
      (env.Substitutes fuel inputCmd → ¬env.IsPrefixed inputCmd)) ∧
    (Transition.Always (step argc joined) (Accounted argc) start labels ↔
      Transition.Meets (step argc joined) Safe start labels) ∧
    Transition.Ends (step argc joined) start Finished := by
  refine ⟨Shell.buffers_misused_iff env fuel inputCmd dispatched, ?_, ends argc joined⟩
  exact Transition.always_iff_meets (fun _ h => h.accounted) (fun _ _ _ h hs hg => h.step hs hg)
    (fun _ _ _ h hs hg => h.not_accounted hs hg) kept_start labels

/--
`A=1 echo $(x)` releases a pointer into its copy; a thread that is not created leaves `argv` behind;
a thread that is through before its identifier is stored makes the dispatcher write into a released
block.
-/
theorem command_memory_misused :
    (∃ b, (⟨fun _ _ => none, fun _ => [], fun _ => none⟩ : Shell.Env).buffers 3
      "A=1 echo $(x)".toList true
      = some b ∧ b.heap.misused = true) ∧
    (∃ s, Transition.run (step 1 true) start [.dispatcher false] = some s ∧ Finished s ∧
      s.heap.freed .argv = 0 ∧ s.heap.freed (.string 0) = 0) ∧
    ∃ s, Transition.run (step 1 false) start
        (.dispatcher true :: List.replicate 10 .worker ++ [.dispatcher true]) = some s ∧
      s.worker = .done ∧ s.heap.misused = true := by
  refine ⟨⟨_, rfl, by decide +kernel⟩, ⟨_, rfl, ⟨rfl, .inl rfl⟩, rfl, rfl⟩, _, rfl, rfl,
    by decide +kernel⟩

end IosSystem.Command.Ownership
