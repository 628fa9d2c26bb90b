import IosSystem.Pid.Table
import IosSystem.Shell.Exec
import IosSystem.Shell.Grammar

/-!
# The parent of the commands of a list

`ios_execute_sequential` and `ios_execute_conditional` call `ios_fork` for each of their commands.
The commands are siblings when all of them are forked from the process id at entry.

A command that runs on a worker leaves `current_pid` of the calling thread at the id of the command
(`pids_rule`), and the next command is forked from that. So they are siblings only when none runs on
a worker that the calling thread has started itself, or when the id at entry is given to the last
such command again.
-/

namespace IosSystem.Pid

open Shell

structure PidState where
  /-- `current_pid` -/
  current : Nat
  table : PidTable
  time : Nat
  /-- the ids of the commands that the thread has started on a worker -/
  workers : List Nat

/-- What the commands meet: other threads, and the results. -/
structure World where
  /-- what other threads have done to the tables when `ios_fork` is called -/
  others : Nat → PidTable → PidTable
  /-- whether a thread can be created for a command -/
  starts : Nat → CStr → Bool
  status : Nat → CStr → Int

/-- `ios_storeThreadId(0)` -/
def PidState.release (s : PidState) : PidState :=
  { s with
    current := (s.table.storeNoThread s.current).1
    table := (s.table.storeNoThread s.current).2 }

def PidState.startWorker (s : PidState) : PidState :=
  { s with table := s.table.worker s.current, workers := s.workers ++ [s.current] }

variable {entry : Nat}

section

variable (w : World)

/-- A command is given the `current_pid` of the calling thread. -/
def World.command (text : CStr) (s : PidState) : PidState × Int :=
  let started := words text ≠ [] ∧ w.starts s.time text = true
  ({ (if started then s.startWorker else s.release) with time := s.time + 1 }, w.status s.time text)

/-- `ios_fork` -/
def World.fork (s : PidState) : Option PidState :=
  ((w.others s.time s.table).nextAvailablePid s.current).map fun r =>
    { s with current := r.1, table := r.2, time := s.time + 1 }

def World.pids : Machine PidState where
  release := PidState.release
  fork := w.fork
  command text s := some (w.command text s)
  -- `current_pid` of a new thread
  spawn _ s := { s with current := 0, workers := [] }
  join s s' := { s with table := s'.table, time := s'.time }

/-- The states behind each `ios_fork`, and the state in which the loop returns. -/
structure Run where
  forks : List PidState
  returned : Option (PidState × Int)

def PidState.enter (s : PidState) : PidState := { s.release with workers := [] }

/-- `ios_execute_sequential` -/
def World.executeSequential (segments : List Plan) (s : PidState) : Run :=
  ⟨w.pids.forksAll segments s.enter, w.pids.execAll segments s.enter 0⟩

/-- `ios_execute_conditional` -/
def World.executeConditional (ops : List CondOp) (nodes : List Plan) (s : PidState) : Run :=
  ⟨w.pids.forksChain ops nodes s.enter, w.pids.execChain ops nodes s.enter 0⟩

/-- A property of each state behind an `ios_fork`, and one of the state at return. -/
def Run.Holds (run : Run) (forked returned : PidState → Prop) : Prop :=
  (∀ s ∈ run.forks, forked s) ∧ ∀ r, run.returned = some r → returned r.1

/-- The commands are forked from `entry`, and in the end the thread has this id again. -/
def Run.Siblings (run : Run) (entry : Nat) : Prop :=
  run.Holds (fun s => s.table.parent s.current = entry) fun s => s.current = entry

/-- The last command that has run on a worker of the thread, if there is one, had the id `entry`. -/
def Run.LastWorker (run : Run) (entry : Nat) : Prop :=
  run.Holds (fun s => s.workers.getLastD entry = entry) fun s => s.workers.getLastD entry = entry

def Run.NoWorker (run : Run) : Prop := run.Holds (fun s => s.workers = []) fun s => s.workers = []

/-- In a loop that began with `entry`; nothing is said of the threads of stages. -/
def AtLoop : Option Nat → PidState → Prop
  | none, _ => True
  | some entry, s => s.current = s.workers.getLastD entry

/-- When `ios_system` is called after `ios_fork`. -/
def AtCall : Option Nat → PidState → Prop
  | none, _ => True
  | some entry, s =>
    s.table.threadIds s.current = .pending ∧ s.table.parent s.current = s.workers.getLastD entry

theorem atLoop_release {i : Option Nat} {s : PidState} (h : AtCall i s) : AtLoop i s.release := by
  cases i with
  | none => trivial
  | some entry =>
    obtain ⟨hpending, hparent⟩ := h
    rw [AtLoop, PidState.release, PidTable.storeNoThread, if_pos hpending]
    exact hparent

theorem fork_eq_some {w : World} {s s' : PidState} (h : w.fork s = some s') :
    (w.others s.time s.table).threadIds s'.current = .free ∧ 0 < s'.current ∧
      s'.table.threadIds
        = Function.update (w.others s.time s.table).threadIds s'.current .pending ∧
      s'.table.parent s'.current = s.current ∧ s'.workers = s.workers := by
  obtain ⟨⟨pid, T⟩, hnext, rfl⟩ := Option.map_eq_some_iff.mp h
  obtain ⟨hfree, hpos, -, hids, hprevious⟩ := nextAvailablePid_eq_some hnext
  refine ⟨hfree, hpos, hids, ?_, rfl⟩
  rw [PidTable.parent, hprevious, Function.update_self]

theorem pids_rule : Rule w.pids AtCall AtLoop where
  release _ _ h := atLoop_release h
  fork i s s' h hfork := by
    cases i with
    | none => trivial
    | some entry =>
      obtain ⟨-, -, hids, hparent, hworkers⟩ := fork_eq_some hfork
      refine ⟨by rw [hids, Function.update_self], ?_⟩
      rw [hparent, hworkers]
      exact h
  command i text s r h hr := by
    cases hr
    cases i with
    | none => trivial
    | some entry =>
      rw [AtLoop, World.command]
      split
      · simp [PidState.startWorker]
      · exact atLoop_release h
  stage i last s h := by
    refine ⟨none, trivial, fun s' _ => ?_⟩
    cases i with
    | none => trivial
    | some entry => exact h

/-- The id of the caller, if it has one, is not free. -/
def InUse (entry : Nat) (T : PidTable) : Prop := entry = 0 ∨ T.threadIds entry ≠ .free

theorem InUse.update {pid : Nat} {T T' : PidTable} {slot : Slot} (h : InUse entry T)
    (hpid : entry = 0 ∨ pid ≠ entry) (hT : T'.threadIds = Function.update T.threadIds pid slot) :
    InUse entry T' := by
  rcases h with rfl | h
  · exact Or.inl rfl
  · rcases hpid with rfl | hpid
    · exact Or.inl rfl
    · right
      rw [hT, Function.update_of_ne hpid.symm]
      exact h

theorem InUse.free {current : Nat} {T : PidTable} (h : InUse entry T)
    (hcurrent : entry = 0 ∨ current ≠ entry) :
    InUse entry (T.storeNoThread current).2 ∧ InUse entry (T.worker current) := by
  rw [PidTable.storeNoThread, PidTable.worker]
  split
  · exact ⟨h.update hcurrent rfl, h.update hcurrent rfl⟩
  · exact ⟨h, h⟩

/-- `main` is the thread that runs the loop, as opposed to that of a stage. -/
def OthersAtLoop (entry : Nat) (main : Bool) (s : PidState) : Prop :=
  InUse entry s.table ∧ (main = true → entry ∉ s.workers)

def OthersAtCall (entry : Nat) (main : Bool) (s : PidState) : Prop :=
  InUse entry s.table ∧ (entry = 0 ∨ s.current ≠ entry) ∧
    (main = true → s.current ≠ entry ∧ entry ∉ s.workers)

theorem othersAtLoop_release {main : Bool} {s : PidState}
    (h : OthersAtCall entry main s) : OthersAtLoop entry main s.release :=
  ⟨(h.1.free h.2.1).1, fun hmain => (h.2.2 hmain).2⟩

theorem inUse_rule (hothers : ∀ n T, InUse entry T → InUse entry (w.others n T)) :
    Rule w.pids (OthersAtCall entry) (OthersAtLoop entry) where
  release _ _ h := othersAtLoop_release h
  fork main s s' h hfork := by
    obtain ⟨huse, hworkers⟩ := h
    obtain ⟨hfree, hpos, hids, -, hsame⟩ := fork_eq_some hfork
    have huse := hothers s.time s.table huse
    have hne : s'.current ≠ entry := by
      rintro rfl
      rcases huse with h0 | hused
      · omega
      · exact hused hfree
    exact ⟨huse.update (Or.inr hne) hids, Or.inr hne, fun hmain => ⟨hne, hsame ▸ hworkers hmain⟩⟩
  command main text s r h hr := by
    cases hr
    rw [World.command]
    split
    · refine ⟨(h.1.free h.2.1).2, fun hmain => ?_⟩
      obtain ⟨hcurrent, hworkers⟩ := h.2.2 hmain
      show entry ∉ s.workers ++ [s.current]
      simp [hworkers, hcurrent.symm]
    · exact othersAtLoop_release h
  stage main last s h := by
    refine ⟨false, ⟨h.1, ?_, fun hmain => by cases hmain⟩, fun s' h' => ⟨h'.1, h.2⟩⟩
    exact (Nat.eq_zero_or_pos entry).imp_right fun hpos => Nat.ne_of_lt hpos

theorem Run.Holds.iff {run : Run} {P P' Q Q' : PidState → Prop}
    (hforked : ∀ s ∈ run.forks, (P s ↔ P' s))
    (hreturned : ∀ r, run.returned = some r → (Q r.1 ↔ Q' r.1)) :
    run.Holds P Q ↔ run.Holds P' Q' := by
  constructor
  · intro h
    exact ⟨fun s hs => (hforked s hs).mp (h.1 s hs), fun r hr => (hreturned r hr).mp (h.2 r hr)⟩
  · intro h
    exact ⟨fun s hs => (hforked s hs).mpr (h.1 s hs), fun r hr => (hreturned r hr).mpr (h.2 r hr)⟩

theorem executeSequential_eq (segments : List Plan) (s : PidState) :
    w.executeSequential segments s
      = w.executeConditional (segments.map fun _ => .none) segments s := by
  rw [World.executeSequential, World.executeConditional, forksAll_eq_forksChain,
    execAll_eq_execChain]

theorem siblings_iff_lastWorker (ops : List CondOp) (nodes : List Plan) (s : PidState) :
    (w.executeConditional ops nodes s).Siblings s.enter.current ↔
      (w.executeConditional ops nodes s).LastWorker s.enter.current := by
  have hentry : AtLoop (some s.enter.current) s.enter := rfl
  refine Run.Holds.iff ?_ ?_
  · intro s' hs'
    have h := forksChain_rule (pids_rule w) hentry s' hs'
    rw [h.2]
  · intro r hr
    have h := execChain_rule (pids_rule w) hentry hr
    rw [show r.1.current = _ from h]

theorem getLastD_eq_iff {α : Type} {l : List α} {a : α} (h : a ∉ l) : l.getLastD a = a ↔
    l = [] := by
  constructor
  · intro hlast
    rcases List.eq_nil_or_concat l with rfl | ⟨l, b, rfl⟩
    · rfl
    · have hb : b = a := by simpa using hlast
      exact absurd (by simp [hb]) h
  · rintro rfl
    rfl

theorem lastWorker_iff_noWorker (ops : List CondOp) (nodes : List Plan) (s : PidState)
    (hothers : ∀ n T, InUse s.enter.current T → InUse s.enter.current (w.others n T))
    (huse : InUse s.enter.current s.enter.table) :
    (w.executeConditional ops nodes s).LastWorker s.enter.current ↔
      (w.executeConditional ops nodes s).NoWorker := by
  have hentry : OthersAtLoop s.enter.current true s.enter := ⟨huse, fun _ => List.not_mem_nil⟩
  refine Run.Holds.iff ?_ ?_
  · intro s' hs'
    have h := forksChain_rule (inUse_rule w hothers) hentry s' hs'
    exact getLastD_eq_iff (h.2.2 rfl).2
  · intro r hr
    have h := execChain_rule (inUse_rule w hothers) hentry hr
    exact getLastD_eq_iff (h.2 rfl)

/--
The commands of a list or of a chain are forked from the id at entry, and the thread has this id
again in the end, exactly when at each of these points the last command that has run on a worker of
the thread, if any, had this very id. When the id stays in use, this means that there is no such
command.
-/
theorem siblings_iff (ops : List CondOp) (ps : List Plan) (s : PidState) :
    let entry := s.enter.current
    let sequential := w.executeSequential ps s
    let conditional := w.executeConditional ops ps s
    (sequential.Siblings entry ↔ sequential.LastWorker entry) ∧
      (conditional.Siblings entry ↔ conditional.LastWorker entry) ∧
      ((∀ n T, InUse entry T → InUse entry (w.others n T)) → InUse entry s.enter.table →
        (sequential.Siblings entry ↔ sequential.NoWorker) ∧
          (conditional.Siblings entry ↔ conditional.NoWorker)) := by
  intro entry sequential conditional
  have hseq : sequential = w.executeConditional (ps.map fun _ => .none) ps s :=
    executeSequential_eq w ps s
  rw [hseq]
  refine ⟨siblings_iff_lastWorker w _ ps s, siblings_iff_lastWorker w ops ps s, ?_⟩
  intro hothers huse
  exact ⟨(siblings_iff_lastWorker w _ ps s).trans (lastWorker_iff_noWorker w _ ps s hothers huse),
    (siblings_iff_lastWorker w ops ps s).trans (lastWorker_iff_noWorker w ops ps s hothers huse)⟩

end

def quietWorld : World :=
  { others := fun _ T => T, starts := fun _ _ => true, status := fun _ _ => 0 }

def idle : PidState :=
  { current := 0
    table :=
      { threadIds := fun _ => .free, previousPid := fun _ => 0, overflow := false, last := 0 }
    time := 0
    workers := [] }

/-- In `a;b` the command `b` is a child of `a`, and not of the caller. -/
theorem second_command_is_child :
    let run := quietWorld.executeSequential [.command ['a'], .command ['b']] idle
    run.forks.map (fun s => (s.current, s.table.parent s.current)) = [(1, 0), (2, 1)] ∧
      run.returned.map (fun r => r.1.current) = some 2 ∧ idle.enter.current = 0 ∧
      ¬run.Siblings 0 := by
  refine ⟨rfl, rfl, rfl, fun h => ?_⟩
  have h2 : (2 : Nat) = 0 := h.2 _ rfl
  cases h2

end IosSystem.Pid
