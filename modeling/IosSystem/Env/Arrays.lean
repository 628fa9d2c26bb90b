import IosSystem.Env.Stores
import IosSystem.Lib.Cells

/-!
# The arrays behind the environments

`ios_setenv_pid` and `ios_unsetenv_pid` work on `environment[pid]`, an array that is reallocated to
its exact size with every change. `ios_env_setenv` and `ios_env_unsetenv` work on the array of the
thread, which doubles its capacity. Both hold a list of entries (`PidEnv.Holds`, `ThreadEnv.Holds`),
and the calls do to it what `assign` and `remove` do to a list.

Allocations succeed. A step that C leaves undefined has no result here.
-/

namespace IosSystem.Env

open List Cells Cell
open Shell (CStr)
open Environ
open Cells (Cell)

/-- `strncmp(a, b, n) == 0` -/
def strncmp (a b : CStr) (n : Nat) : Bool := a.take n = b.take n

/-! ## The array of a process id -/

/-- `environment[pid]`, when it is not null, and `numVariablesSet[pid]`. -/
structure PidEnv where
  environment : List (Cell CStr)
  numVariablesSet : Nat
  deriving DecidableEq

/-- `storeEnvironment` -/
def PidEnv.storeEnvironment (envp : List CStr) : Option PidEnv := do
  let numVariablesSet := envp.length
  let environment := List.replicate (numVariablesSet + 1) .indeterminate
  let environment ← Cells.fill environment 0 envp
  let environment ← Cells.write environment numVariablesSet .null
  return ⟨environment, numVariablesSet⟩

/-- The test of the loops in `ios_setenv_pid` and `ios_unsetenv_pid`. -/
def PidEnv.isVariable (variableName : CStr) : Cell CStr → Option Bool
  | .indeterminate => none
  | .null => some false
  | .ptr e =>
    let varNameLen := variableName.length
    some (strncmp variableName e varNameLen && decide (varNameLen < e.length) &&
      e[varNameLen]? == some '=')

def PidEnv.findVariable (env : PidEnv) (variableName : CStr) : Option (Option Nat) :=
  Cells.scan (PidEnv.isVariable variableName) env.environment 0 env.numVariablesSet

/-- `ios_setenv_pid` -/
def PidEnv.setenvPid (env : PidEnv) (variableName value : Option CStr) (overwrite : Int) :
    Option (PidEnv × Int) :=
  match variableName with
  | none => some (env, -1)
  | some variableName =>
    if variableName.length = 0 then some (env, -1)
    else if variableName.contains '=' then some (env, -1)
    else do
      match ← env.findVariable variableName with
      | some i =>
        if overwrite = 0 then return (env, 0)
        let environment ← Cells.write env.environment i (.ptr (entry variableName (← value)))
        return ({ env with environment }, 0)
      | none =>
        let pos := env.numVariablesSet
        let environment := Cells.realloc env.environment (env.numVariablesSet + 2)
        let environment ← Cells.write environment pos (.ptr (entry variableName (← value)))
        let environment ← Cells.write environment (pos + 1) .null
        return (⟨environment, env.numVariablesSet + 1⟩, 0)

/-- The entries behind index `i` move down; `last` is the index of the last one. -/
def PidEnv.closeGap (environment : List (Cell CStr)) (i last : Nat) : Option (List (Cell CStr)) :=
  if i < last then (Cells.shiftDown environment i (last - i)).bind (Cells.write · last .null)
  else some environment

/-- `ios_unsetenv_pid` -/
def PidEnv.unsetenvPid (env : PidEnv) (variableName : Option CStr) : Option (PidEnv × Int) :=
  match variableName with
  | none => some (env, -1)
  | some variableName =>
    if variableName.length = 0 then some (env, -1)
    else if variableName.contains '=' then some (env, -1)
    else do
      match ← env.findVariable variableName with
      | some i =>
        let last := env.numVariablesSet - 1
        let environment ← Cells.write env.environment i .null
        let environment ← PidEnv.closeGap environment i last
        return (⟨Cells.realloc environment (last + 1), last⟩, 0)
      | none => return (env, 0)

/-! ## The array of a thread -/

/-- `thread_env_t` -/
structure ThreadEnv where
  environArray : List (Cell CStr)
  numVars : Nat
  capacity : Nat
  deriving DecidableEq

/-- `env_create_empty` -/
def ThreadEnv.createEmpty : ThreadEnv := ⟨List.replicate (16 + 1) .null, 0, 16⟩

def ThreadEnv.expand (env : ThreadEnv) (capacity : Nat) : ThreadEnv :=
  { env with capacity, environArray := Cells.realloc env.environArray (capacity + 1) }

/-- `ios_env_init_thread`: the entries of the parent or of the process are copied. -/
def ThreadEnv.copy (env : ThreadEnv) (entries : List CStr) : Option ThreadEnv := do
  let count := entries.length
  let env := if env.capacity < count then env.expand (count + 8) else env
  let environArray ← Cells.fill env.environArray 0 entries
  let environArray ← Cells.write environArray count .null
  return { env with environArray, numVars := count }

def ThreadEnv.initThread (entries : List CStr) : Option ThreadEnv := createEmpty.copy entries

/-- The test of the loop in `env_find_var`. -/
def ThreadEnv.isVar (name : CStr) : Cell CStr → Option Bool
  | .indeterminate => none
  | .null => none
  | .ptr e =>
    let nameLen := name.length
    some (strncmp e name nameLen && e[nameLen]? == some '=')

/-- `env_find_var` -/
def ThreadEnv.findVar (env : ThreadEnv) (name : CStr) : Option (Option Nat) :=
  Cells.scan (ThreadEnv.isVar name) env.environArray 0 env.numVars

/-- `ios_env_setenv` -/
def ThreadEnv.setenv (env : ThreadEnv) (name value : Option CStr) (overwrite : Int) :
    Option (ThreadEnv × Int) :=
  match name with
  | none => some (env, -1)
  | some name =>
    if name.length = 0 ∨ name.contains '=' then some (env, -1)
    else do
      let value := value.getD []
      match ← env.findVar name with
      | some idx =>
        if overwrite = 0 then return (env, 0)
        let environArray ← Cells.write env.environArray idx (.ptr (entry name value))
        return ({ env with environArray }, 0)
      | none =>
        let env := if env.capacity ≤ env.numVars then env.expand (env.capacity * 2) else env
        let environArray ← Cells.write env.environArray env.numVars (.ptr (entry name value))
        let environArray ← Cells.write environArray (env.numVars + 1) .null
        return ({ env with environArray, numVars := env.numVars + 1 }, 0)

/-- `ios_env_unsetenv` -/
def ThreadEnv.unsetenv (env : ThreadEnv) (name : Option CStr) : Option (ThreadEnv × Int) :=
  match name with
  | none => some (env, -1)
  | some name =>
    if name.length = 0 ∨ name.contains '=' then some (env, -1)
    else do
      match ← env.findVar name with
      | some idx =>
        let last := env.numVars - 1
        let environArray ← Cells.shiftDown env.environArray idx (last - idx)
        let environArray ← Cells.write environArray last .null
        return ({ env with environArray, numVars := last }, 0)
      | none => return (env, 0)

/-! ## Sequences of calls -/

inductive Change where
  | set (name value : CStr) (overwrite : Int)
  | unset (name : CStr)

def PidEnv.change (env : PidEnv) : Change → Option (PidEnv × Int)
  | .set name value overwrite => env.setenvPid (some name) (some value) overwrite
  | .unset name => env.unsetenvPid (some name)

def ThreadEnv.change (env : ThreadEnv) : Change → Option (ThreadEnv × Int)
  | .set name value overwrite => env.setenv (some name) (some value) overwrite
  | .unset name => env.unsetenv (some name)

/-- A list of changes, with what each of them returns. -/
def changes {σ : Type} (change : σ → Change → Option (σ × Int)) : σ → List Change →
    Option (σ × List Int)
  | env, [] => some (env, [])
  | env, c :: cs => do
    let (env, result) ← change env c
    let (env, results) ← changes change env cs
    return (env, result :: results)

/-- The cells up to `numVariablesSet`. -/
def PidEnv.entries (env : PidEnv) : List (Cell CStr) := env.environment.take env.numVariablesSet

/-- The cells up to `num_vars`. -/
def ThreadEnv.entries (env : ThreadEnv) : List (Cell CStr) := env.environArray.take env.numVars

/-- The first null pointer is at `numVariablesSet`, and what is before it are strings. -/
def PidEnv.Terminated (env : PidEnv) : Prop :=
  env.environment[env.numVariablesSet]? = some .null ∧
    ∀ i, i < env.numVariablesSet → ∃ e, env.environment[i]? = some (.ptr e)

/-! ## The list of entries -/

/-- What a change is to do to a list of entries. -/
def Change.apply (env : List CStr) : Change → List CStr × Int
  | .set name value overwrite =>
    if badName (some name) then (env, -1) else (assign name value (overwrite != 0) env, 0)
  | .unset name => if badName (some name) then (env, -1) else (remove name env, 0)

/-- The array holds just the entries, in this order. -/
structure PidEnv.Holds (env : PidEnv) (entries : List CStr) : Prop where
  environment : env.environment = entries.map .ptr ++ [.null]
  numVariablesSet : env.numVariablesSet = entries.length

/-- The array holds the entries, and has room behind them. -/
structure ThreadEnv.Holds (env : ThreadEnv) (entries : List CStr) : Prop where
  environArray : ∃ tail, env.environArray = entries.map .ptr ++ .null :: tail
  numVars : env.numVars = entries.length
  allocated : env.environArray.length = env.capacity + 1
  capacity : 0 < env.capacity

/-! ## The searches -/

theorem named_eq_strncmp (name e : CStr) :
    named name e = (strncmp name e name.length && e[name.length]? == some '=') := by
  rw [Bool.eq_iff_iff, named_iff, strncmp, Bool.and_eq_true, decide_eq_true_eq, beq_iff_eq,
    List.take_length]
  constructor
  · rintro ⟨value, rfl⟩
    simp [entry]
  · rintro ⟨htake, hget⟩
    obtain ⟨hlt, hget⟩ := List.getElem?_eq_some_iff.mp hget
    refine ⟨e.drop (name.length + 1), ?_⟩
    calc e = e.take name.length ++ e.drop name.length := (List.take_append_drop _ _).symm
      _ = name ++ e.drop name.length := by rw [← htake]
      _ = name ++ '=' :: e.drop (name.length + 1) := by rw [List.drop_eq_getElem_cons hlt, hget]

theorem PidEnv.isVariable_ptr (name e : CStr) :
    PidEnv.isVariable name (.ptr e) = some (named name e) := by
  rw [named_eq_strncmp, PidEnv.isVariable]
  by_cases hlt : name.length < e.length
  · simp [hlt]
  · have hget : e[name.length]? = none := getElem?_eq_none (Nat.le_of_not_lt hlt)
    simp [hget]

theorem ThreadEnv.isVar_ptr (name e : CStr) :
    ThreadEnv.isVar name (.ptr e) = some (named name e) := by
  rw [named_eq_strncmp, ThreadEnv.isVar, strncmp, strncmp]
  congr 2
  exact Bool.eq_iff_iff.mpr (by simp [eq_comm])

variable {entries : List CStr}

theorem PidEnv.Holds.findVariable {env : PidEnv} (h : env.Holds entries) (name : CStr) :
    env.findVariable name = some (entries.findIdx? (named name)) := by
  rw [PidEnv.findVariable, h.environment, h.numVariablesSet]
  exact scan_map_ptr (PidEnv.isVariable_ptr name) entries _

theorem ThreadEnv.Holds.findVar {env : ThreadEnv} (h : env.Holds entries) (name : CStr) :
    env.findVar name = some (entries.findIdx? (named name)) := by
  obtain ⟨tail, htail⟩ := h.environArray
  rw [ThreadEnv.findVar, htail, h.numVars]
  exact scan_map_ptr (ThreadEnv.isVar_ptr name) entries _

/-! ## The tests on the name -/

theorem badName_eq (name : CStr) :
    badName (some name) = (decide (name.length = 0) || name.contains '=') := by
  simp [badName]

section

variable {name : CStr}

section

variable (h : badName (some name) = true)
include h

theorem PidEnv.setenvPid_bad (env : PidEnv) (value : Option CStr) (overwrite : Int) :
    env.setenvPid (some name) value overwrite = some (env, -1) := by
  rw [badName_eq, Bool.or_eq_true, decide_eq_true_eq] at h
  rw [PidEnv.setenvPid]
  by_cases hlen : name.length = 0
  · rw [if_pos hlen]
  · rw [if_neg hlen, if_pos (h.resolve_left hlen)]

theorem PidEnv.unsetenvPid_bad (env : PidEnv) : env.unsetenvPid (some name) = some (env, -1) := by
  rw [badName_eq, Bool.or_eq_true, decide_eq_true_eq] at h
  rw [PidEnv.unsetenvPid]
  by_cases hlen : name.length = 0
  · rw [if_pos hlen]
  · rw [if_neg hlen, if_pos (h.resolve_left hlen)]

theorem ThreadEnv.setenv_bad (env : ThreadEnv) (value : Option CStr) (overwrite : Int) :
    env.setenv (some name) value overwrite = some (env, -1) := by
  rw [badName_eq, Bool.or_eq_true, decide_eq_true_eq] at h
  rw [ThreadEnv.setenv, if_pos h]

theorem ThreadEnv.unsetenv_bad (env : ThreadEnv) : env.unsetenv (some name) = some (env, -1) := by
  rw [badName_eq, Bool.or_eq_true, decide_eq_true_eq] at h
  rw [ThreadEnv.unsetenv, if_pos h]

end

theorem not_bad (h : badName (some name) = false) :
    name.length ≠ 0 ∧ name.contains '=' = false := by
  rwa [badName_eq, Bool.or_eq_false_iff, decide_eq_false_iff_not] at h

end

/-! ## The list operations by the index that the search finds -/

section

variable {name value : CStr} {env : List CStr}

theorem assign_of_found {i : Nat} (h : env.findIdx? (named name) = some i) (overwrite : Int) :
    assign name value (overwrite != 0) env
      = if overwrite = 0 then env else env.set i (entry name value) := by
  rw [assign, isSome_lookup, h]
  by_cases hover : overwrite = 0
  · simp [hover]
  · simp [insert_of_findIdx_some h]

theorem assign_of_not_found (h : env.findIdx? (named name) = none) (overwrite : Int) :
    assign name value (overwrite != 0) env = env ++ [entry name value] := by
  rw [assign, isSome_lookup, h, insert_of_findIdx_none h]
  simp

theorem remove_of_found {i : Nat} (h : env.findIdx? (named name) = some i) :
    remove name env = env.eraseIdx i := by
  rw [remove, eraseP_eq_eraseIdx, h]

theorem remove_of_not_found (h : env.findIdx? (named name) = none) : remove name env = env := by
  rw [remove, eraseP_eq_eraseIdx, h]

end

/-! ## The array of a process id -/

namespace PidEnv

theorem Holds.storeEnvironment (entries : List CStr) :
    ∃ env, PidEnv.storeEnvironment entries = some env ∧ env.Holds entries := by
  have hfill : fill (replicate (entries.length + 1) .indeterminate) 0 entries = _ :=
    fill_zero (by simp)
  have hwrite := write_append_cons (entries.map ptr) [] .indeterminate .null
  refine ⟨⟨entries.map .ptr ++ [.null], entries.length⟩, ?_, rfl, rfl⟩
  simp only [drop_replicate, Nat.add_sub_cancel_left, replicate_one] at hfill
  rw [length_map] at hwrite
  simp only [PidEnv.storeEnvironment, hfill, hwrite, Option.bind_eq_bind, Option.bind_some]
  rfl

variable {env : PidEnv} {entries : List CStr}

theorem Holds.setenvPid (h : env.Holds entries) (name value : CStr) (overwrite : Int) :
    ∃ env', env.setenvPid (some name) (some value) overwrite
        = some (env', ((Change.set name value overwrite).apply entries).2) ∧
      env'.Holds ((Change.set name value overwrite).apply entries).1 := by
  rw [Change.apply]
  cases hbad : badName (some name) with
  | true => exact ⟨env, PidEnv.setenvPid_bad hbad env _ overwrite, h⟩
  | false =>
    obtain ⟨hlen, heq⟩ := not_bad hbad
    have hfind := h.findVariable name
    obtain ⟨environment, numVariablesSet⟩ := env
    obtain ⟨rfl, rfl⟩ := h
    simp only [PidEnv.setenvPid, hlen, heq, hfind, if_false, Bool.false_eq_true,
      Option.bind_eq_bind,
      Option.bind_some]
    cases hidx : entries.findIdx? (named name) with
    | some i =>
      have hi : i < entries.length := (findIdx?_eq_some_iff_findIdx_eq.mp hidx).1
      simp only [assign_of_found hidx, write_map_ptr hi]
      split
      · exact ⟨_, rfl, rfl, rfl⟩
      · exact ⟨_, rfl, rfl, by simp⟩
    | none =>
      have hrealloc : realloc (entries.map ptr ++ [.null]) (entries.length + 2)
          = entries.map .ptr ++ [.null, .indeterminate] := by
        rw [realloc_of_le (by simp)]
        simp
      have hpos := write_append_cons (entries.map ptr) [.indeterminate] .null
      have hnull := write_append_cons ((entries ++ [entry name value]).map ptr) [] .indeterminate
      simp only [length_map, map_append, map_cons, map_nil, append_assoc,
        cons_append, nil_append, length_append, length_singleton] at hpos hnull
      simp only [assign_of_not_found hidx, hrealloc, hpos, hnull, Option.bind_some]
      exact ⟨_, rfl, by simp, by simp⟩

theorem write_closeGap {i : Nat} (hi : i < entries.length) :
    (Cells.write (entries.map Cell.ptr ++ [.null]) i .null).bind
        (closeGap · i (entries.length - 1))
      = some ((entries.eraseIdx i).map .ptr ++ [.null, .null]) := by
  have hshift := shiftDown_write hi .null [.null]
  rw [write, if_pos (by simp; omega), Option.bind_some, closeGap]
  split
  · exact hshift
  · have hend : i = entries.length - 1 := by omega
    rw [← hend, Nat.sub_self, shiftDown, Option.bind_some, write,
      if_pos (by simp; omega), set_set] at hshift
    exact hshift

section

variable (h : env.Holds entries)
include h

theorem Holds.unsetenvPid (name : CStr) :
    ∃ env', env.unsetenvPid (some name)
        = some (env', ((Change.unset name).apply entries).2) ∧
      env'.Holds ((Change.unset name).apply entries).1 := by
  rw [Change.apply]
  cases hbad : badName (some name) with
  | true => exact ⟨env, PidEnv.unsetenvPid_bad hbad env, h⟩
  | false =>
    obtain ⟨hlen, heq⟩ := not_bad hbad
    have hfind := h.findVariable name
    obtain ⟨environment, numVariablesSet⟩ := env
    obtain ⟨rfl, rfl⟩ := h
    simp only [PidEnv.unsetenvPid, hlen, heq, hfind, Option.bind_eq_bind, Option.bind_some]
    cases hidx : entries.findIdx? (named name) with
    | none => exact ⟨_, rfl, by rw [remove_of_not_found hidx]; exact ⟨rfl, rfl⟩⟩
    | some i =>
      have hi : i < entries.length := (findIdx?_eq_some_iff_findIdx_eq.mp hidx).1
      have hlength : (entries.eraseIdx i).length = entries.length - 1 :=
        length_eraseIdx_of_lt hi
      have hcut : realloc ((entries.eraseIdx i).map ptr ++ [.null, .null])
          (entries.length - 1 + 1) = (entries.eraseIdx i).map .ptr ++ [.null] := by
        rw [append_cons]
        exact realloc_append (by simp [hlength])
      refine ⟨⟨(entries.eraseIdx i).map .ptr ++ [.null], entries.length - 1⟩, ?_, ?_⟩
      · dsimp only
        rw [← Option.bind_assoc, write_closeGap hi, Option.bind_some, hcut]
        rfl
      · rw [remove_of_found hidx]
        exact ⟨rfl, hlength.symm⟩

theorem Holds.change (c : Change) :
    ∃ env', env.change c = some (env', (c.apply entries).2) ∧ env'.Holds (c.apply entries).1 := by
  cases c with
  | set name value overwrite => exact h.setenvPid name value overwrite
  | unset name => exact h.unsetenvPid name

theorem Holds.entries_eq : env.entries = entries.map .ptr := by
  rw [PidEnv.entries, h.environment, h.numVariablesSet]
  simp

theorem Holds.terminated : env.Terminated := by
  rw [PidEnv.Terminated, h.environment, h.numVariablesSet]
  refine ⟨by simp, fun i hi => ⟨entries[i], ?_⟩⟩
  rw [getElem?_append_left (by simpa using hi), getElem?_map,
    getElem?_eq_getElem hi, Option.map_some]

end

end PidEnv

/-! ## The array of a thread -/

namespace ThreadEnv

variable {env : ThreadEnv} {entries : List CStr}

def Allocated (env : ThreadEnv) : Prop := env.environArray.length = env.capacity + 1

theorem allocated_expand (env : ThreadEnv) (capacity : Nat) : (env.expand capacity).Allocated :=
  length_realloc env.environArray (capacity + 1)

theorem Holds.expand (h : env.Holds entries) {capacity : Nat} (hle : env.capacity ≤ capacity) :
    (env.expand capacity).Holds entries := by
  obtain ⟨tail, htail⟩ := h.environArray
  have hlength := h.allocated
  have harray : (env.expand capacity).environArray
      = entries.map .ptr ++ .null ::
        (tail ++ replicate (capacity - env.capacity) .indeterminate) := by
    have hnew : capacity + 1 - (env.capacity + 1) = capacity - env.capacity := by omega
    rw [ThreadEnv.expand, realloc_of_le (by omega), hlength, hnew, htail, append_assoc, cons_append]
  exact ⟨⟨_, harray⟩, h.numVars, allocated_expand env capacity, Nat.lt_of_lt_of_le h.capacity hle⟩

theorem Holds.numVars_le (h : env.Holds entries) : env.numVars ≤ env.capacity := by
  obtain ⟨tail, htail⟩ := h.environArray
  have hlength := h.allocated
  rw [htail, length_append, length_map, length_cons] at hlength
  rw [h.numVars]
  omega

theorem Allocated.copy (h : env.Allocated) (hroom : entries.length ≤ env.capacity)
    (hpos : 0 < env.capacity) :
    ∃ array, (Cells.fill env.environArray 0 entries).bind (Cells.write · entries.length .null)
        = some array ∧
      Holds { env with environArray := array, numVars := entries.length } entries := by
  rw [Allocated] at h
  obtain ⟨c, tail, htail⟩ : ∃ c tail, env.environArray.drop entries.length = c :: tail :=
    exists_cons_of_length_pos (by rw [length_drop]; omega)
  have hwrite := write_append_cons (entries.map ptr) tail c .null
  rw [length_map] at hwrite
  refine ⟨entries.map .ptr ++ .null :: tail, ?_, ⟨tail, rfl⟩, rfl, ?_, hpos⟩
  · rw [fill_zero (by omega), htail, Option.bind_some, hwrite]
  · have hlength := congrArg length htail
    rw [length_drop, length_cons] at hlength
    simp only [length_append, length_map, length_cons]
    omega

theorem Allocated.copyAll (h : env.Allocated) (hpos : 0 < env.capacity) (entries : List CStr) :
    ∃ env', env.copy entries = some env' ∧ env'.Holds entries := by
  let env' := if env.capacity < entries.length then env.expand (entries.length + 8) else env
  have henv : env'.Allocated ∧ entries.length ≤ env'.capacity ∧ 0 < env'.capacity := by
    by_cases hgrow : env.capacity < entries.length
    · simp only [env', if_pos hgrow]
      exact ⟨allocated_expand .., Nat.le_add_right _ 8, Nat.succ_pos _⟩
    · simp only [env', if_neg hgrow]
      exact ⟨h, Nat.le_of_not_lt hgrow, hpos⟩
  obtain ⟨array, harray, hholds⟩ := henv.1.copy henv.2.1 henv.2.2
  refine ⟨_, ?_, hholds⟩
  show (fill env'.environArray 0 entries).bind (fun environArray =>
    (write environArray entries.length .null).bind fun environArray => some _) = _
  rw [← Option.bind_assoc, harray, Option.bind_some]

theorem Holds.initThread (entries : List CStr) :
    ∃ env, ThreadEnv.initThread entries = some env ∧ env.Holds entries :=
  Allocated.copyAll (show createEmpty.Allocated from rfl) (by decide) entries

section

variable (h : env.Holds entries)
include h

theorem Holds.push (hroom : env.numVars < env.capacity) (e : CStr) :
    ∃ array, (Cells.write env.environArray env.numVars (.ptr e)).bind
        (Cells.write · (env.numVars + 1) .null) = some array ∧
      Holds { env with environArray := array, numVars := env.numVars + 1 } (entries ++ [e]) := by
  obtain ⟨tail, htail⟩ := h.environArray
  have hlength := h.allocated
  rw [htail, length_append, length_map, length_cons] at hlength
  rw [h.numVars] at hroom ⊢
  obtain ⟨c, tail, rfl⟩ := exists_cons_of_length_pos (show 0 < tail.length by omega)
  have hpos := write_append_cons (entries.map ptr) (c :: tail) .null (.ptr e)
  have hnull := write_append_cons ((entries ++ [e]).map ptr) tail c .null
  simp only [length_map, map_append, map_cons, map_nil, append_assoc,
    cons_append, nil_append, length_append, length_singleton] at hpos hnull
  refine ⟨_, by rw [htail, hpos, Option.bind_some, hnull], ⟨tail, by simp⟩, by simp, ?_, h.capacity⟩
  simp only [length_append, length_map] at hlength ⊢
  omega

theorem Holds.setenv (name value : CStr) (overwrite : Int) :
    ∃ env', env.setenv (some name) (some value) overwrite
        = some (env', ((Change.set name value overwrite).apply entries).2) ∧
      env'.Holds ((Change.set name value overwrite).apply entries).1 := by
  rw [Change.apply]
  cases hbad : badName (some name) with
  | true => exact ⟨env, ThreadEnv.setenv_bad hbad env _ overwrite, h⟩
  | false =>
    obtain ⟨hlen, heq⟩ := not_bad hbad
    simp only [ThreadEnv.setenv, hlen, heq, h.findVar name, if_false, Bool.false_eq_true, or_self,
      Option.bind_eq_bind, Option.bind_some, Option.getD_some]
    cases hidx : entries.findIdx? (named name) with
    | some i =>
      have hi : i < entries.length := (findIdx?_eq_some_iff_findIdx_eq.mp hidx).1
      obtain ⟨tail, htail⟩ := h.environArray
      have hlength := h.allocated
      simp only [htail, assign_of_found hidx, write_map_ptr hi]
      split
      · exact ⟨env, rfl, h⟩
      · refine ⟨_, rfl, ⟨tail, rfl⟩, by simpa using h.numVars, ?_, h.capacity⟩
        simpa [htail] using hlength
    | none =>
      let env' := if env.capacity ≤ env.numVars then env.expand (env.capacity * 2) else env
      have henv : env'.Holds entries ∧ env'.numVars < env'.capacity := by
        by_cases hfull : env.capacity ≤ env.numVars
        · have hpos := h.capacity
          have hle := h.numVars_le
          simp only [env', if_pos hfull]
          refine ⟨h.expand (by omega), ?_⟩
          show env.numVars < env.capacity * 2
          omega
        · simp only [env', if_neg hfull]
          exact ⟨h, Nat.lt_of_not_le hfull⟩
      obtain ⟨array, harray, hholds⟩ := henv.1.push henv.2 (entry name value)
      refine ⟨_, ?_, (assign_of_not_found hidx overwrite).symm ▸ hholds⟩
      show (write env'.environArray env'.numVars _).bind (fun environArray =>
        (write environArray (env'.numVars + 1) .null).bind fun environArray => some _) = _
      rw [← Option.bind_assoc, harray, Option.bind_some]

theorem Holds.unsetenv (name : CStr) :
    ∃ env', env.unsetenv (some name) = some (env', ((Change.unset name).apply entries).2) ∧
      env'.Holds ((Change.unset name).apply entries).1 := by
  rw [Change.apply]
  cases hbad : badName (some name) with
  | true => exact ⟨env, ThreadEnv.unsetenv_bad hbad env, h⟩
  | false =>
    obtain ⟨hlen, heq⟩ := not_bad hbad
    simp only [ThreadEnv.unsetenv, hlen, heq, h.findVar name, Option.bind_eq_bind, Option.bind_some]
    cases hidx : entries.findIdx? (named name) with
    | none => exact ⟨env, rfl, (remove_of_not_found hidx).symm ▸ h⟩
    | some i =>
      have hi : i < entries.length := (findIdx?_eq_some_iff_findIdx_eq.mp hidx).1
      obtain ⟨tail, htail⟩ := h.environArray
      have hlength := h.allocated
      have herase : (entries.eraseIdx i).length = entries.length - 1 :=
        length_eraseIdx_of_lt hi
      -- the freed entry is overwritten by the loop, or by the null pointer
      have hshift := shiftDown_write hi (.ptr entries[i]) (.null :: tail)
      have hself : (entries.map ptr ++ .null :: tail).set i (.ptr entries[i])
          = entries.map ptr ++ .null :: tail := by
        rw [set_append_left _ _ (by simpa using hi), ← map_set, set_getElem_self]
      rw [hself] at hshift
      dsimp only
      rw [← Option.bind_assoc, h.numVars, htail, hshift, Option.bind_some, remove_of_found hidx]
      refine ⟨_, rfl, ⟨_, rfl⟩, herase.symm, ?_, h.capacity⟩
      simp only [htail, length_append, length_map, length_cons] at hlength ⊢
      omega

theorem Holds.change (c : Change) :
    ∃ env', env.change c = some (env', (c.apply entries).2) ∧ env'.Holds (c.apply entries).1 := by
  cases c with
  | set name value overwrite => exact h.setenv name value overwrite
  | unset name => exact h.unsetenv name

theorem Holds.entries_eq : env.entries = entries.map .ptr := by
  obtain ⟨tail, htail⟩ := h.environArray
  rw [ThreadEnv.entries, htail, h.numVars]
  simp

end

end ThreadEnv

/-! ## The table of `Stores` -/

def Change.call : Change → Call
  | .set name value overwrite => .setenv (some name) (some value) (overwrite != 0)
  | .unset name => .unsetenv (some name)

theorem ThreadEnv.Holds.call {env : ThreadEnv} {s : Stores} {t : List CStr} (h : env.Holds t)
    (ht : s.table = some t) (c : Change) :
    ∃ env' t' result, env.change c = some (env', result) ∧
      s.call c.call = some ({ s with table := some t' }, result) ∧ env'.Holds t' := by
  obtain ⟨env', hchange, h'⟩ := h.change c
  refine ⟨env', _, _, hchange, ?_, h'⟩
  have hsame : { s with table := some t } = s := by rw [← ht]
  cases c with
  | set name value overwrite =>
    simp only [Change.call, Change.apply, Stores.call, Stores.setenv, ht]
    split
    · rw [hsame]
    · rfl
  | unset name =>
    simp only [Change.call, Change.apply, Stores.call, Stores.unsetenv, ht]
    split
    · rw [hsame]
    · rfl

/-! ## Both arrays -/

theorem changes_apply {σ : Type} {change : σ → Change → Option (σ × Int)}
    (holds : σ → List CStr → Prop) (hstep : ∀ env entries c, holds env entries →
      ∃ env', change env c = some (env', (c.apply entries).2) ∧ holds env' (c.apply entries).1)
    {env : σ} (h : holds env entries) (cs : List Change) :
    ∃ env' entries' results, changes change env cs = some (env', results) ∧
      changes (fun l c => some (c.apply l)) entries cs = some (entries', results) ∧
      holds env' entries' := by
  induction cs generalizing env entries with
  | nil => exact ⟨env, entries, [], rfl, rfl, h⟩
  | cons c cs ih =>
    obtain ⟨env', hchange, h'⟩ := hstep env entries c h
    obtain ⟨env'', entries'', results, hrun, hlist, h''⟩ := ih h'
    refine ⟨env'', entries'', (c.apply entries).2 :: results, ?_, ?_, h''⟩
    · simp only [changes, hchange, hrun, Option.bind_eq_bind, Option.bind_some]
      rfl
    · simp only [changes, hlist, Option.bind_eq_bind, Option.bind_some]
      rfl

/--
The two tables, started with the same list: after every sequence of calls they hold the same entries
in the same order, the calls have returned the same, and the array of the process id ends with the
null pointer at `numVariablesSet`.
-/
theorem tables_agree (envp : List CStr) (cs : List Change) :
    ∃ pid pid' thread thread' results,
      PidEnv.storeEnvironment envp = some pid ∧ ThreadEnv.initThread envp = some thread ∧
      changes PidEnv.change pid cs = some (pid', results) ∧
      changes ThreadEnv.change thread cs = some (thread', results) ∧
      pid'.entries = thread'.entries ∧ pid'.Terminated := by
  obtain ⟨pid, hstore, hpid⟩ := PidEnv.Holds.storeEnvironment envp
  obtain ⟨thread, hinit, hthread⟩ := ThreadEnv.Holds.initThread envp
  obtain ⟨pid', entries, results, hrun, hlist, hpid'⟩ :=
    changes_apply PidEnv.Holds (fun _ _ c h => PidEnv.Holds.change h c) hpid cs
  obtain ⟨thread', entries', results', hrun', hlist', hthread'⟩ :=
    changes_apply ThreadEnv.Holds (fun _ _ c h => ThreadEnv.Holds.change h c) hthread cs
  obtain ⟨rfl, rfl⟩ := Prod.mk.inj (Option.some.inj (hlist.symm.trans hlist'))
  refine ⟨pid, pid', thread, thread', results, hstore, hinit, hrun, hrun', ?_, hpid'.terminated⟩
  rw [hpid'.entries_eq, hthread'.entries_eq]

end IosSystem.Env
