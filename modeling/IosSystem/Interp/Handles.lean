import IosSystem.Interp.Instances

/-!
# Who releases the handle of a Python interpreter

`ios_system` asks the pool for a slot for the Python commands, and stores the handle in
`interp_handle` of the parameters of the command. `cleanup_function` releases what it finds there,
if it is not `NULL`.

The parameters come from `malloc`, and this field is not set for every command. So what `malloc` has
left in it is part of the label (`Dispatch.content`).
-/

namespace IosSystem.Interp.Handles

open List Option
open IosSystem.Shell (CStr)
open IosSystem.Interp.Instances (startsWith crossed)

/-- An address; 0 is `NULL`. -/
abbrev Pointer := Nat

/-- A command, with the answers that `ios_system` gets when it dispatches it. -/
structure Dispatch where
  name : CStr
  /-- `commandList` has the name -/
  listed : Bool
  /-- what `malloc` has left in `interp_handle` -/
  content : Pointer
  /-- what `ios_interp_acquire` returns, if it is called -/
  acquired : Pointer
  deriving DecidableEq

/-- The fields of `functionParameters` that count here. -/
structure Params where
  argv0 : CStr
  interpHandle : Pointer
  deriving DecidableEq

/-- `ios_system`, from the allocation of the parameters to the creation of the thread. -/
def Dispatch.params (d : Dispatch) : Params :=
  let params : Params := ⟨d.name, d.content⟩
  if d.listed then
    if startsWith d.name "python".toList then
      if d.acquired = 0 then { params with argv0 := crossed params.argv0 }
      else { params with interpHandle := d.acquired }
    else params
  else params

/-- The handle that `ios_system` stores in `params`. -/
def Dispatch.stored (d : Dispatch) : Option Pointer :=
  if d.listed ∧ startsWith d.name "python".toList = true ∧ d.acquired ≠ 0 then
    some d.acquired
  else none

/-- `cleanup_function`: the calls of `ios_interp_release`, and the parameters. -/
def Params.cleanup (p : Params) : List Pointer × Params :=
  if p.interpHandle ≠ 0 then ([p.interpHandle], { p with interpHandle := 0 }) else ([], p)

structure Ended where
  dispatch : Dispatch
  released : List Pointer
  deriving DecidableEq

/-- The commands at work, and those that have ended. -/
structure State where
  running : List (Dispatch × Params)
  ended : List Ended
  deriving DecidableEq

def State.initial : State := ⟨[], []⟩

inductive Label where
  /-- `ios_system`; `created` is the success of `pthread_create` -/
  | system (d : Dispatch) (created : Bool)
  /-- `cleanup_function` -/
  | cleanup (k : Nat)

def step (s : State) : Label → Option State
  | .system d created =>
    if created then some { s with running := s.running ++ [(d, d.params)] }
    else
      -- the parameters are freed as they are
      some { s with ended := s.ended ++ [⟨d, []⟩] }
  | .cleanup k => s.running[k]?.map fun c =>
    { running := s.running.eraseIdx k, ended := s.ended ++ [⟨c.1, c.2.cleanup.1⟩] }

/-- Every command has released the handle stored for it, and no other. -/
def Owned (s : State) : Prop := ∀ e ∈ s.ended, e.released = e.dispatch.stored.toList

/--
A command for which a handle was stored can be started. Where none was stored, `malloc` has left a
null pointer.
-/
def Guard (s : State) : Label → Prop
  | .system d created => created = false → d.stored = none
  | .cleanup k => ∀ c ∈ s.running[k]?, c.1.stored = none → c.1.content = 0

theorem stored_ne_zero {d : Dispatch} {h : Pointer} (hs : d.stored = some h) : h ≠ 0 := by
  unfold Dispatch.stored at hs
  split at hs
  · next hd => exact some.inj hs ▸ hd.2.2
  · cases hs

theorem interpHandle_params (d : Dispatch) : d.params.interpHandle = d.stored.getD d.content := by
  unfold Dispatch.params Dispatch.stored
  generalize startsWith d.name "python".toList = python
  cases d.listed <;> cases python <;> by_cases ha : d.acquired = 0 <;> simp [ha]

theorem cleanup_eq_stored_iff (d : Dispatch) :
    d.params.cleanup.1 = d.stored.toList ↔ (d.stored = none → d.content = 0) := by
  unfold Params.cleanup
  rw [interpHandle_params]
  cases hs : d.stored with
  | some h =>
    rw [getD_some, if_pos (stored_ne_zero hs)]
    exact iff_of_true rfl fun h => absurd h (some_ne_none _)
  | none =>
    rw [getD_none, imp_iff_right rfl]
    by_cases hc : d.content = 0
    · rw [if_neg (not_not.mpr hc)]
      exact iff_of_true rfl hc
    · rw [if_pos hc]
      exact iff_of_false (cons_ne_nil _ _) hc

structure Inv (s : State) : Prop where
  params : ∀ c ∈ s.running, c.2 = c.1.params
  owned : Owned s

theorem owned_append {s : State} {running : List (Dispatch × Params)} {e : Ended} :
    Owned ⟨running, s.ended ++ [e]⟩ ↔ Owned s ∧ e.released = e.dispatch.stored.toList := by
  simp only [Owned, forall_mem_append, forall_mem_singleton]

theorem Inv.owned_step_iff {s s' : State} {l : Label} (h : Inv s) (hs : step s l = some s') :
    Owned s' ↔ Guard s l := by
  cases l with
  | system d created =>
    cases created with
    | true =>
      cases hs
      exact iff_of_true h.owned fun h => absurd h.symm Bool.false_ne_true
    | false =>
      cases hs
      rw [owned_append, and_iff_right h.owned, Guard, imp_iff_right rfl, eq_comm]
      exact toList_eq_nil_iff
  | cleanup k =>
    obtain ⟨c, hc, rfl⟩ := map_eq_some_iff.mp hs
    rw [owned_append, and_iff_right h.owned, h.params c (mem_of_getElem? hc), cleanup_eq_stored_iff,
      Guard, hc]
    simp

theorem Inv.params_step {s s' : State} {l : Label} (h : Inv s) (hs : step s l = some s') :
    ∀ c ∈ s'.running, c.2 = c.1.params := by
  cases l with
  | system d created =>
    cases created with
    | true =>
      cases hs
      exact forall_mem_append.mpr ⟨h.params, forall_mem_singleton.mpr rfl⟩
    | false =>
      cases hs
      exact h.params
  | cleanup k =>
    obtain ⟨c, -, rfl⟩ := map_eq_some_iff.mp hs
    exact fun c hc => h.params c (mem_of_mem_eraseIdx hc)

/--
For all commands, all answers of the pool and all contents of the memory: the handles are owned all
along just if every step meets the guard.
-/
theorem handles_owned_iff (ls : List Label) :
    Transition.Always step Owned State.initial ls ↔
    Transition.Meets step Guard State.initial ls := by
  have hinit : Inv State.initial := ⟨forall_mem_nil _, forall_mem_nil _⟩
  refine Transition.always_iff_meets (fun _ h => h.owned) ?_ ?_ hinit ls
  · exact fun s s' l h hs hg => ⟨h.params_step hs, (h.owned_step_iff hs).mpr hg⟩
  · exact fun s s' l h hs hg howned => hg ((h.owned_step_iff hs).mp howned)

/-- `python3` has got the handle 7. For `ls`, `malloc` returns memory in which there is a 7. -/
def handleInMemory : List Label :=
  [.system ⟨"python3".toList, true, 0, 7⟩ true, .system ⟨"ls".toList, true, 7, 0⟩ true, .cleanup 1]

/-- `ls` ends, and releases the handle of `python3`, which is still running. -/
theorem released_by_other :
    ∃ s, Transition.run step State.initial handleInMemory = some s ∧
      s.running.map (fun c => (c.1.name, c.2.interpHandle)) = [("python3".toList, 7)] ∧
      s.ended.map
      (fun e => (e.dispatch.name, e.dispatch.stored, e.released)) = [("ls".toList, none, [7])] ∧
      ¬Owned s := by
  refine ⟨_, rfl, by decide, by decide, fun h => ?_⟩
  exact absurd (h _ (mem_singleton_self _)) (by decide)

end IosSystem.Interp.Handles
