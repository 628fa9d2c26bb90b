import IosSystem.Lib.Transition
import IosSystem.Pid.Calls
import Mathlib.Data.List.Nodup

/-!
# The command that a process id belongs to

Threads call `ios_fork`, then `ios_system` for the command, and then `ios_waitpid` or
`ios_releaseThreadId`. `ios_system` ends in `ios_storeThreadId(0)`, or it creates a worker, which
stores its own id and releases it when the command is over. Such cycles are nested, so that a thread
has a stack of them: `capture_command_output` runs one while the outer `ios_system` is still at
work, and then sets `current_pid` to the outer id again; `ios_execute_sequential` gives the outer id
back first.

The calls release `current_pid` of the calling thread, which is the id of the innermost cycle as
long as its `ios_system` is at work. `ios_releaseThreadId` is given the id, and releases whatever
command has it by then.
-/

namespace IosSystem.Pid.Owner

open List Function Option ThreadTable

/-- How far the command of a frame has come. -/
inductive Stage where
  /-- `ios_system` is at work -/
  | called
  /-- the id has been given back, or a worker has been created -/
  | ended
  /-- `ios_waitpid` has returned -/
  | waited
  deriving DecidableEq

/-- A cycle that begins with `ios_fork`. -/
structure Frame where
  pid : Nat
  /-- the number of the call of `ios_fork` -/
  fork : Nat
  stage : Stage
  deriving DecidableEq

/-- The thread of a command. -/
structure Worker where
  /-- `params->pid` -/
  pid : Nat
  parent : Nat
  fork : Nat
  /-- `run_function` has called `ios_storeThreadId` -/
  started : Bool

structure State where
  table : ThreadTable
  /-- `current_pid` of each thread -/
  current : Nat → Nat
  /-- the cycles of each thread, innermost first -/
  frames : Nat → List Frame
  workers : Nat → Option Worker
  /-- the number of calls of `ios_fork` so far -/
  forks : Nat
  /-- the thread that has got the id from `ios_fork`, and the number of that call -/
  holder : Nat → Nat × Nat

def State.initial : State :=
  { table := .initial, current := fun _ => 0, frames := fun _ => [], workers := fun _ => none
    forks := 0, holder := fun _ => (0, 0) }

inductive Label where
  | fork (thread : Nat)
  /-- `ios_system` calls `ios_storeThreadId(0)` -/
  | release (thread : Nat)
  /-- `ios_system` creates a worker -/
  | dispatch (thread worker : Nat)
  /-- `run_function` sets `current_pid` and calls `ios_storeThreadId` -/
  | start (worker : Nat)
  /--
  `cleanup_function` calls `ios_releaseThread` or `ios_releaseBackgroundThread`, at the end of the
  command or when it is killed
  -/
  | finish (worker : Nat)
  /-- `ios_waitpid` returns -/
  | waitpid (thread : Nat)
  | leave (thread : Nat)
  | releaseThreadId (thread : Nat)

/-- The thread that makes the step. -/
def Label.actor : Label → Nat
  | .fork thread => thread
  | .release thread => thread
  | .dispatch thread _ => thread
  | .start worker => worker
  | .finish worker => worker
  | .waitpid thread => thread
  | .leave thread => thread
  | .releaseThreadId thread => thread

def State.setFrames (s : State) (thread : Nat) (frames : List Frame) : State :=
  { s with frames := update s.frames thread frames }

def State.setCurrent (s : State) (thread pid : Nat) : State :=
  { s with current := update s.current thread pid }

variable {thread pid worker : Nat} {f : Frame} {w : Worker} {rest : List Frame} {s : State}

variable {frames : List Frame}

@[simp] theorem State.setFrames_self :
    (s.setFrames thread frames).frames thread = frames := update_self ..

@[simp] theorem State.setCurrent_self :
    (s.setCurrent thread pid).current thread = pid := update_self ..

theorem State.setCurrent_of_ne {t : Nat} (h : t ≠ thread) :
    (s.setCurrent thread pid).current t = s.current t := update_of_ne h _ _

def State.resume (s : State) (thread : Nat) (r : Nat × ThreadTable) : State :=
  { s.setCurrent thread r.1 with table := r.2 }

/-- `saved_outer_pid` of `capture_command_output`, if the innermost cycle is one of its own. -/
def outerPid : List Frame → Option Nat
  | [] => none
  | f :: _ => if f.stage = .called then some f.pid else none

def step (s : State) : Label → Option State
  | .fork thread =>
    if (s.frames thread).head?.map Frame.stage = some .waited ∨
        (s.workers thread).any (fun w => !w.started) then none
    else
      (s.table.nextAvailablePid (s.current thread)).map fun r =>
        { s.resume thread r with
          frames := update s.frames thread (⟨r.1, s.forks, .called⟩ :: s.frames thread)
          forks := s.forks + 1
          holder := update s.holder r.1 (thread, s.forks) }
  | .release thread =>
    match s.frames thread with
    | [] => none
    | f :: rest =>
      if f.stage = .called then
        some ((s.resume thread (s.table.storeThreadId (s.current thread) none)).setFrames thread
          ({ f with stage := .ended } :: rest))
      else none
  | .dispatch thread worker =>
    match s.frames thread with
    | [] => none
    | f :: rest =>
      if f.stage = .called ∧ worker ≠ thread ∧ s.workers worker = none ∧ s.frames worker = [] then
        some { s.setFrames thread ({ f with stage := .ended } :: rest) with
          workers := update s.workers worker
            (some ⟨s.current thread, thread, f.fork, false⟩) }
      else none
  | .start worker =>
    match s.workers worker with
    | none => none
    | some w =>
      if w.started then none
      else
        some { s.resume worker (s.table.storeThreadId w.pid (some worker)) with
          workers := update s.workers worker (some { w with started := true }) }
  | .finish worker =>
    match s.workers worker with
    | none => none
    | some w =>
      if w.started then
        some { (s.resume worker (s.table.releaseThread (s.current worker) worker)).setFrames
          worker [] with
          workers := update s.workers worker none }
      else none
  | .waitpid thread =>
    match s.frames thread with
    | [] => none
    | f :: rest =>
      if f.stage = .ended ∧ s.table.threadIds f.pid = .free then
        some (s.setFrames thread ({ f with stage := .waited } :: rest))
      else none
  | .leave thread =>
    match s.frames thread with
    | [] => none
    | f :: rest =>
      if f.stage = .waited then
        some ((s.setCurrent thread ((outerPid rest).getD (s.current thread))).setFrames thread rest)
      else none
  | .releaseThreadId thread =>
    match s.frames thread with
    | [] => none
    | f :: rest =>
      if f.stage ≠ .called ∧ outerPid rest = none then
        some ((s.resume thread (s.table.releaseThreadId (s.current thread) f.pid)).setFrames
          thread rest)
      else none

/-- A command that has not been completed: the number of its `ios_fork`, and its id. -/
inductive InFlight (s : State) : Nat → Nat → Prop
  | called {thread : Nat} {f : Frame} :
      f ∈ s.frames thread → f.stage = .called → InFlight s f.fork f.pid
  | dispatched {worker : Nat} {w : Worker} :
      s.workers worker = some w → InFlight s w.fork w.pid

/-- `ios_releaseThreadId` is called for an id that is not in use. -/
def Unused (s : State) : Label → Prop
  | .releaseThreadId thread => ∀ f rest, s.frames thread = f :: rest →
    s.table.threadIds f.pid = .free
  | _ => True

def Reachable (s : State) : Prop :=
  Transition.Reachable step Unused (fun s => s = State.initial) s

/-! ## The invariant -/

/-- Calls and workers have the ids of their own forks. -/
structure Inv (s : State) : Prop where
  /-- `ios_system` is at work -/
  called : ∀ thread, ∀ f ∈ s.frames thread, f.stage = .called →
    s.table.threadIds f.pid = .pending ∧ s.holder f.pid = (thread, f.fork)
  /-- its `current_pid` -/
  current : ∀ thread f rest, s.frames thread = f :: rest → f.stage = .called →
    s.current thread = f.pid
  worker : ∀ worker w, s.workers worker = some w →
    s.table.threadIds w.pid = (if w.started then .thread worker else .pending) ∧
      s.holder w.pid = (w.parent, w.fork)
  recorded : ∀ pid worker, s.table.threadIds pid = .thread worker →
    ∃ w, s.workers worker = some w ∧ w.pid = pid
  in_table : ∀ pid, s.table.threadIds pid ≠ .free → pid < maxThreads
  /-- the calls of `ios_fork` are numbered -/
  frames_lt : ∀ thread, ∀ f ∈ s.frames thread, f.fork < s.forks
  workers_lt : ∀ worker w, s.workers worker = some w → w.fork < s.forks
  frames_nodup : ∀ thread, ((s.frames thread).map Frame.fork).Nodup
  frames_thread : ∀ thread thread', ∀ f ∈ s.frames thread, ∀ g ∈ s.frames thread',
    f.fork = g.fork → thread = thread'
  /-- a command is with its caller or with its worker -/
  not_called : ∀ worker w, s.workers worker = some w → ∀ thread, ∀ f ∈ s.frames thread,
    f.fork = w.fork → f.stage ≠ .called
  workers_inj : ∀ worker worker' w w', s.workers worker = some w → s.workers worker' = some w' →
    w.fork = w'.fork → worker = worker'
  /-- a worker that has not started has no cycles -/
  not_started : ∀ worker w, s.workers worker = some w → w.started = false → s.frames worker = []

attribute [grind cases] Inv

attribute [grind =] update_apply

theorem Inv.initial : Inv State.initial := by
  refine ⟨?_, ?_, ?_, ?_, ?_, ?_, ?_, ?_, ?_, ?_, ?_, ?_⟩ <;>
    simp [State.initial, ThreadTable.initial]

section

variable {s : State}

theorem Inv.frame_worker (h : Inv s) (hf : f ∈ s.frames thread) (hfc : f.stage = .called)
    (hw : s.workers worker = some w) : f.pid ≠ w.pid := by
  intro hpid
  have h1 := (h.called thread f hf hfc).2
  rw [hpid, (h.worker worker w hw).2] at h1
  exact h.not_called worker w hw thread f hf (Prod.mk.inj h1).2.symm hfc

theorem Inv.rest_ne (h : Inv s) {g : Frame}
    (hframes : s.frames thread = f :: rest) (hg : g ∈ rest) : g.fork ≠ f.fork := by
  have hnodup := h.frames_nodup thread
  rw [hframes, map_cons, nodup_cons] at hnodup
  intro heq
  exact hnodup.1 (heq ▸ mem_map_of_mem hg)

theorem Inv.inFlight (h : Inv s) {fork : Nat} (hc : InFlight s fork pid) :
    (s.holder pid).2 = fork ∧ s.table.threadIds pid ≠ .free := by
  cases hc with
  | called hf hcalled =>
    rw [(h.called _ _ hf hcalled).1, (h.called _ _ hf hcalled).2]
    exact ⟨rfl, by simp⟩
  | dispatched hw =>
    rw [(h.worker _ _ hw).1, (h.worker _ _ hw).2]
    split <;> simp

/-! ## What the parts of a step do to it -/

theorem Inv.setFrames (h : Inv s) (hcalled : ∀ f ∈ frames, f.stage = .called → f ∈ s.frames thread)
    (hforks : (frames.map Frame.fork).Sublist ((s.frames thread).map Frame.fork))
    (hcurrent : ∀ f rest, frames = f :: rest → f.stage = .called → s.current thread = f.pid) :
    Inv (s.setFrames thread frames) := by
  have hfork : ∀ f ∈ frames, ∃ g ∈ s.frames thread, g.fork = f.fork :=
    fun f hf => mem_map.mp (hforks.subset (mem_map_of_mem hf))
  have hnil : s.frames thread = [] → frames = [] := by
    intro hnil
    rwa [hnil, map_nil, sublist_nil, map_eq_nil_iff] at hforks
  -- the frames of the other threads stay
  constructor <;> simp only [State.setFrames] <;> grind

theorem Inv.setStage (h : Inv s) (stage : Stage) (hframes : s.frames thread = f :: rest)
    (hstage : stage ≠ .called) : Inv (s.setFrames thread ({ f with stage := stage } :: rest)) := by
  refine h.setFrames ?_ ?_ ?_
  · intro g hg hc
    rw [hframes]
    rcases mem_cons.mp hg with rfl | hg
    · exact absurd hc hstage
    · exact mem_cons_of_mem _ hg
  · rw [hframes]
    exact List.Sublist.refl _
  · intro g rest' heq hc
    obtain ⟨rfl, -⟩ := cons.inj heq
    exact absurd hc hstage

theorem Inv.pop (h : Inv s) (hframes : s.frames thread = f :: rest)
    (hcurrent : ∀ pid, outerPid rest = some pid → s.current thread = pid) :
    Inv (s.setFrames thread rest) := by
  refine h.setFrames ?_ ?_ ?_
  · intro g hg _
    rw [hframes]
    exact mem_cons_of_mem _ hg
  · rw [hframes]
    exact sublist_cons_self _ _
  · intro g rest' heq hc
    refine hcurrent _ ?_
    rw [heq, outerPid, if_pos hc]

theorem Inv.setCurrent (h : Inv s)
    (hidle : ∀ f rest, s.frames thread = f :: rest → f.stage = .called → pid = f.pid) :
    Inv (s.setCurrent thread pid) := by
  refine { h with current := ?_ }
  intro t f rest hf hc
  by_cases ht : t = thread
  · subst ht
    rw [State.setCurrent_self]
    exact hidle f rest hf hc
  · rw [State.setCurrent_of_ne ht]
    exact h.current t f rest hf hc

theorem Inv.clear (h : Inv s) (hnone : ∀ fork, ¬ InFlight s fork pid) :
    Inv { s with table := s.table.clear pid } := by
  have hcalled : ∀ t, ∀ f ∈ s.frames t, f.stage = .called → f.pid ≠ pid := by
    rintro t f hf hc rfl
    exact hnone _ (.called hf hc)
  have hworker : ∀ worker w, s.workers worker = some w → w.pid ≠ pid := by
    rintro worker w hw rfl
    exact hnone _ (.dispatched hw)
  constructor <;> simp only [ThreadTable.clear] <;> grind

/-! ## The steps -/

theorem Inv.fork (h : Inv s) {T : ThreadTable}
    (hstarted : ∀ w, s.workers thread = some w → w.started = true)
    (hpid : s.table.nextAvailablePid (s.current thread) = some (pid, T)) :
    Inv { s.resume thread (pid, T) with
      frames := update s.frames thread (⟨pid, s.forks, .called⟩ :: s.frames thread)
      forks := s.forks + 1
      holder := update s.holder pid (thread, s.forks) } := by
  -- the id is free, and the number is new
  obtain ⟨hfree, -, hlt, hids, -⟩ := ThreadTable.nextAvailablePid_eq_some hpid
  constructor <;> simp only [State.resume, State.setCurrent, hids] <;> grind

section

variable (h : Inv s) (hframes : s.frames thread = f :: rest) (hcalled : f.stage = .called)
include h hframes hcalled

theorem Inv.storeThreadId_none :
    s.table.storeThreadId (s.current thread) none
      = (s.table.previousPid f.pid, s.table.clear f.pid) := by
  have hmem : f ∈ s.frames thread := by rw [hframes]; exact mem_cons_self ..
  rw [h.current thread f rest hframes hcalled, storeThreadId,
    if_pos (h.called thread f hmem hcalled).1]

theorem Inv.release :
    Inv ((s.resume thread (s.table.previousPid f.pid, s.table.clear f.pid)).setFrames thread
      ({ f with stage := .ended } :: rest)) := by
  have hmem : f ∈ s.frames thread := by rw [hframes]; exact mem_cons_self ..
  have hended := h.setStage .ended hframes (by simp)
  have hnone : ∀ fork, ¬ InFlight (s.setFrames thread ({ f with stage := .ended } :: rest)) fork
      f.pid := by
    intro fork hc
    generalize hp : f.pid = pid at hc
    cases hc with
    | called hg hgc =>
      simp only [State.setFrames] at hg
      grind
    | dispatched hw => exact h.frame_worker hmem hcalled hw hp
  refine (hended.clear hnone).setCurrent fun g rest' hg hgc => ?_
  simp only [State.setFrames] at hg
  grind

theorem Inv.dispatch (hnew : s.workers worker = none) (hidle : s.frames worker = [])
    (hne : worker ≠ thread) :
    Inv { s.setFrames thread ({ f with stage := .ended } :: rest) with
      workers := update s.workers worker
        (some ⟨s.current thread, thread, f.fork, false⟩) } := by
  have hmem : f ∈ s.frames thread := by rw [hframes]; exact mem_cons_self ..
  have hrest := fun g (hg : g ∈ rest) => h.rest_ne hframes hg
  have hcurrent := h.current thread f rest hframes hcalled
  have hpending := h.called thread f hmem hcalled
  -- the only frame with this number is the one that has just ended
  constructor <;> simp only [State.setFrames] <;> grind

end

section

variable (h : Inv s) (hw : s.workers worker = some w)
include h hw

theorem Inv.start (hst : w.started = false) :
    s.table.storeThreadId w.pid (some worker)
        = (w.pid, { s.table with threadIds := update s.table.threadIds w.pid (.thread worker) }) ∧
      Inv { s.resume worker (s.table.storeThreadId w.pid (some worker)) with
        workers := update s.workers worker (some { w with started := true }) } := by
  obtain ⟨hid, hholder⟩ := h.worker worker w hw
  rw [hst, if_neg (by simp)] at hid
  have hstore : s.table.storeThreadId w.pid (some worker)
      = (w.pid, { s.table with threadIds := update s.table.threadIds w.pid (.thread worker) }) := by
    rw [storeThreadId, if_pos hid]
  refine ⟨hstore, ?_⟩
  rw [hstore]
  -- nobody else has the id
  have hframe := fun t f (hf : f ∈ s.frames t) hc => h.frame_worker hf hc hw
  constructor <;> simp only [State.resume, State.setCurrent] <;> grind

theorem Inv.slotOf (hst : w.started = true) : s.table.slotOf worker = some w.pid := by
  have hid := (h.worker worker w hw).1
  rw [hst, if_pos rfl] at hid
  cases hslot : s.table.slotOf worker with
  | none =>
    have := find?_eq_none.mp hslot w.pid
      (mem_range.mpr (h.in_table _ (by rw [hid]; simp)))
    rw [hid] at this
    simp at this
  | some pid =>
    obtain ⟨w', hw', hpid⟩ := h.recorded pid worker (slotOf_eq_some hslot)
    rw [hw] at hw'
    cases hw'
    rw [hpid]

theorem Inv.removeWorker :
    Inv { s with
      table := s.table.clear w.pid, workers := update s.workers worker none } := by
  constructor <;> simp only [ThreadTable.clear] <;> grind

theorem Inv.finish (hst : w.started = true) :
    Inv { (s.resume worker (s.table.releaseThread (s.current worker) worker)).setFrames
      worker [] with
      workers := update s.workers worker none } := by
  have hpop : Inv (s.setFrames worker []) := by
    refine h.setFrames ?_ (nil_sublist _) ?_
    · intro f hf
      cases hf
    · intro f rest hf
      cases hf
  rw [releaseThread, h.slotOf hw hst]
  refine (hpop.removeWorker hw).setCurrent ?_
  intro f rest hf
  rw [State.setFrames_self] at hf
  cases hf

end

/-- Every step keeps the ids apart. -/
theorem Inv.step {s' : State} {l : Label} (h : Inv s) (hg : Unused s l) (hs : step s l = some s') :
    Inv s' := by
  cases l with
  | fork thread =>
    simp only [Owner.step] at hs
    split at hs
    · cases hs
    · next hready =>
      obtain ⟨⟨pid, T⟩, hpid, rfl⟩ := map_eq_some_iff.mp hs
      refine h.fork (fun w hw => ?_) hpid
      rw [not_or, hw] at hready
      simpa using hready.2
  | release thread =>
    cases hframes : s.frames thread <;> simp only [Owner.step, hframes] at hs <;> try cases hs
    next f rest =>
    split at hs <;> cases hs
    next hcalled =>
    rw [h.storeThreadId_none hframes hcalled]
    exact h.release hframes hcalled
  | dispatch thread worker =>
    cases hframes : s.frames thread <;> simp only [Owner.step, hframes] at hs <;> try cases hs
    next f rest =>
    split at hs <;> cases hs
    next hc => exact h.dispatch hframes hc.1 hc.2.2.1 hc.2.2.2 hc.2.1
  | start worker =>
    cases hw : s.workers worker <;> simp only [Owner.step, hw] at hs <;> try cases hs
    next w =>
    split at hs <;> cases hs
    next hst => exact (h.start hw (by simpa using hst)).2
  | finish worker =>
    cases hw : s.workers worker <;> simp only [Owner.step, hw] at hs <;> try cases hs
    next w =>
    split at hs <;> cases hs
    next hst => exact h.finish hw hst
  | waitpid thread =>
    cases hframes : s.frames thread <;> simp only [Owner.step, hframes] at hs <;> try cases hs
    next f rest =>
    split at hs <;> cases hs
    exact h.setStage .waited hframes (by simp)
  | leave thread =>
    cases hframes : s.frames thread <;> simp only [Owner.step, hframes] at hs <;> try cases hs
    next f rest =>
    split at hs <;> cases hs
    next hwaited =>
    have hcurrent : Inv (s.setCurrent thread ((outerPid rest).getD (s.current thread))) := by
      refine h.setCurrent ?_
      intro g rest' hg hc
      rw [hframes] at hg
      obtain ⟨rfl, -⟩ := cons.inj hg
      rw [hwaited] at hc
      cases hc
    refine hcurrent.pop hframes ?_
    intro pid hpid
    rw [State.setCurrent_self, hpid, getD_some]
  | releaseThreadId thread =>
    cases hframes : s.frames thread <;> simp only [Owner.step, hframes] at hs <;> try cases hs
    next f rest =>
    split at hs <;> cases hs
    next hc =>
    -- the id is not in use, and nothing happens
    rw [releaseThreadId, if_pos (hg f rest hframes)]
    have hcurrent : Inv (s.setCurrent thread (s.current thread)) :=
      h.setCurrent fun g rest' hg hgc => h.current thread g rest' hg hgc
    refine hcurrent.pop hframes ?_
    intro pid hpid
    rw [hc.2] at hpid
    cases hpid

end

theorem Reachable.inv (h : Reachable s) : Inv s :=
  Transition.Reachable.invariant (fun _ hs => hs ▸ Inv.initial)
    (fun _ _ _ hi hg hs => hi.step hg hs) h

/-! ## Who changes an entry -/

/--
The owner of a process id.

In every run in which `ios_releaseThreadId` is only called for ids that are not in use: an entry
that is in use is changed only by the thread that has got the id from `ios_fork`, or by the worker
that this thread has created for it; and no two commands in flight have the same id.
-/
theorem slot_owner {s s' : State} {l : Label} (h : Reachable s) (hg : Unused s l)
    (hs : step s l = some s') :
    (∀ pid, s.table.threadIds pid ≠ .free → s'.table.threadIds pid ≠ s.table.threadIds pid →
      l.actor = (s.holder pid).1 ∨
        ∃ w, s.workers l.actor = some w ∧ w.pid = pid ∧ w.parent = (s.holder pid).1) ∧
    ∀ pid fork fork', InFlight s fork pid → InFlight s fork' pid → fork = fork' := by
  have hi := h.inv
  refine ⟨?_, fun pid fork fork' h1 h2 => (hi.inFlight h1).1.symm.trans (hi.inFlight h2).1⟩
  intro pid hused hchanged
  -- an entry that an update leaves alone
  have hupdate : ∀ p e, update s.table.threadIds p e pid ≠ s.table.threadIds pid →
      p = pid := by
    intro p e hne
    by_contra hpp
    exact hne (update_of_ne (Ne.symm hpp) _ _)
  cases l with
  | fork thread =>
    simp only [step] at hs
    split at hs
    · cases hs
    · obtain ⟨⟨p, T⟩, hpid, rfl⟩ := map_eq_some_iff.mp hs
      obtain ⟨hfree, -, -, hids, -⟩ := ThreadTable.nextAvailablePid_eq_some hpid
      change T.threadIds pid ≠ _ at hchanged
      rw [hids] at hchanged
      rw [hupdate _ _ hchanged] at hfree
      exact absurd hfree hused
  | release thread =>
    cases hframes : s.frames thread <;> simp only [step, hframes] at hs <;> try cases hs
    next f rest =>
    split at hs <;> cases hs
    next hcalled =>
    rw [hi.storeThreadId_none hframes hcalled] at hchanged
    have hmem : f ∈ s.frames thread := by rw [hframes]; exact mem_cons_self ..
    rw [← hupdate f.pid .free hchanged, (hi.called thread f hmem hcalled).2]
    exact Or.inl rfl
  | start worker =>
    cases hw : s.workers worker <;> simp only [step, hw] at hs <;> try cases hs
    next w =>
    split at hs <;> cases hs
    next hst =>
    rw [(hi.start hw (by simpa using hst)).1] at hchanged
    have hpid := hupdate w.pid (.thread worker) hchanged
    rw [← hpid, (hi.worker worker w hw).2]
    exact Or.inr ⟨w, hw, rfl, rfl⟩
  | finish worker =>
    cases hw : s.workers worker <;> simp only [step, hw] at hs <;> try cases hs
    next w =>
    split at hs <;> cases hs
    next hst =>
    rw [ThreadTable.releaseThread, hi.slotOf hw hst] at hchanged
    have hpid := hupdate w.pid .free hchanged
    rw [← hpid, (hi.worker worker w hw).2]
    exact Or.inr ⟨w, hw, rfl, rfl⟩
  | releaseThreadId thread =>
    cases hframes : s.frames thread <;> simp only [step, hframes] at hs <;> try cases hs
    next f rest =>
    split at hs <;> cases hs
    rw [ThreadTable.releaseThreadId, if_pos (hg f rest hframes)] at hchanged
    exact absurd rfl hchanged
  | dispatch thread worker =>
    cases hframes : s.frames thread <;> simp only [step, hframes] at hs <;> try cases hs
    split at hs <;> cases hs
    exact absurd rfl hchanged
  | waitpid thread =>
    cases hframes : s.frames thread <;> simp only [step, hframes] at hs <;> try cases hs
    split at hs <;> cases hs
    exact absurd rfl hchanged
  | leave thread =>
    cases hframes : s.frames thread <;> simp only [step, hframes] at hs <;> try cases hs
    split at hs <;> cases hs
    exact absurd rfl hchanged

/-- The first call gets the id 1 and gives it back. -/
theorem slot_owner_release :
    ∃ s s', Transition.run step State.initial [.fork 7] = some s ∧ step s (.release 7) = some s' ∧
      s.table.threadIds 1 = .pending ∧ s'.table.threadIds 1 = .free ∧ 7 = (s.holder 1).1 := by
  have hrun : Transition.run step State.initial [.fork 7] = some _ := rfl
  have howner := (slot_owner (l := .release 7)
    (Transition.Reachable.of_run_of_forall (.start rfl) hrun (by simp [Unused])) trivial rfl).1 1
    (by decide) (by decide)
  refine ⟨_, _, hrun, rfl, rfl, rfl, ?_⟩
  rcases howner with howner | ⟨w, hw, -⟩
  · exact howner
  · cases hw

def recycled : List Label :=
  flatten [[.fork 0, .dispatch 0 100, .start 100, .finish 100, .waitpid 0],
    (replicate 126 [.fork 1, .release 1, .waitpid 1, .leave 1]).flatten, [.fork 1]]

/-- `ios_releaseThreadId` of thread 0 releases the id of thread 1. -/
theorem slot_released_by_other :
    ∃ s s', Transition.run step State.initial recycled = some s ∧
      step s (.releaseThreadId 0) = some s' ∧ s.table.threadIds 1 = .pending ∧
      s.holder 1 = (1, 127) ∧ s.workers 0 = none ∧ s'.table.threadIds 1 = .free := by
  have hall : ((Transition.run step State.initial recycled).bind fun s =>
      (step s (.releaseThreadId 0)).map fun s' =>
        (s, s')).map (fun r => (r.1.table.threadIds 1, r.1.holder 1, (r.1.workers 0).isNone,
          r.2.table.threadIds 1)) = some (.pending, (1, 127), true, .free) := by decide +kernel
  obtain ⟨⟨s, s'⟩, hr, hfacts⟩ := map_eq_some_iff.mp hall
  obtain ⟨t, hrun, hr⟩ := bind_eq_some_iff.mp hr
  obtain ⟨t', hs, heq⟩ := map_eq_some_iff.mp hr
  obtain ⟨rfl, rfl⟩ := Prod.mk.inj heq
  simp only [Prod.mk.injEq, isNone_iff_eq_none] at hfacts
  exact ⟨t, t', hrun, hs, hfacts.1, hfacts.2.1, hfacts.2.2.1, hfacts.2.2.2⟩

end IosSystem.Pid.Owner
