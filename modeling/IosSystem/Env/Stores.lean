import IosSystem.Lib.Environ
import IosSystem.Shell.Text
import Mathlib.Data.List.TakeWhile

/-!
# The two stores of environment variables

`ios_setenv`, `ios_unsetenv` and `ios_getenv` use the array of the thread in `ios_env_manager`.
`ios_putenv`, and all that list the environment, use the array of the process id, or the `environ`
of the process when there is none. No call changes both, so that they agree after a call only when
it has changed no value (`agree_call_iff`).
-/

namespace IosSystem.Env

open List Option
open Shell (CStr)
open Environ

/-- The names that `ios_getenv` answers from the session. -/
def sessionNames : List CStr :=
  ["COLUMNS".toList, "LINES".toList, "ROWS".toList, "PWD".toList, "RANDOM".toList]

/-- The name of a variable that no session field shadows. -/
def IsName (name : CStr) : Prop := name ≠ [] ∧ '=' ∉ name ∧ name ∉ sessionNames

/-- The places in which variables are kept. -/
structure Stores where
  /-- the array of the thread in `ios_env_manager`, when it has been initialised -/
  table : Option (List CStr)
  /-- `environment[current_pid]` -/
  environment : Option (List CStr)
  /-- `environ` of the process -/
  environ : List CStr
  deriving DecidableEq

/-! ## The calls -/

/-- `setenv` on an array. -/
def assign (name value : CStr) (overwrite : Bool) (env : List CStr) : List CStr :=
  if (lookup env name).isSome = true ∧ overwrite = false then env
  else insert name (entry name value) env

/-- `ios_env_getenv`; `getenv` of the process for a thread that has not been initialised. -/
def Stores.libcGetenv (s : Stores) (name : CStr) : Option CStr :=
  if name = [] then none else lookup (s.table.getD s.environ) name

/-- `ios_getenv`, with the values of the session. -/
def Stores.getenv (session : CStr → CStr) (s : Stores) (name : CStr) : Option CStr :=
  if name ∈ sessionNames then some (session name) else s.libcGetenv name

/-- The argument is `NULL`, empty, or has a `=`. -/
def badName (name : Option CStr) : Bool := name.all fun n => n = [] ∨ '=' ∈ n

/-- `ios_setenv` -/
def Stores.setenv (s : Stores) (name value : Option CStr) (overwrite : Bool) : Stores × Int :=
  if badName name then (s, -1)
  else
    let change := assign (name.getD []) (value.getD []) overwrite
    match s.table with
    | none => ({ s with environ := change s.environ }, 0)
    | some t => ({ s with table := some (change t) }, 0)

/-- `ios_unsetenv`; that of the process removes all entries of the name. -/
def Stores.unsetenv (s : Stores) (name : Option CStr) : Stores × Int :=
  if badName name then (s, -1)
  else
    match s.table with
    | none => ({ s with environ := s.environ.filter fun e => !named (name.getD []) e }, 0)
    | some t => ({ s with table := some (remove (name.getD []) t) }, 0)

/--
`ios_putenv`. When there is no array for the process id it is meant to call `putenv`, but this is
defined as `ios_putenv`, and so the call does not return.
-/
def Stores.putenv (s : Stores) (string : CStr) : Option (Stores × Int) :=
  s.environment.map fun env =>
    if '=' ∈ string then
      ({ s with environment := some (insert (string.takeWhile (· ≠ '=')) string env) }, 0)
    else (s, -1)

inductive Call where
  | setenv (name value : Option CStr) (overwrite : Bool)
  | unsetenv (name : Option CStr)
  | putenv (string : CStr)

def Stores.call (s : Stores) : Call → Option (Stores × Int)
  | .setenv name value overwrite => some (s.setenv name value overwrite)
  | .unsetenv name => some (s.unsetenv name)
  | .putenv string => s.putenv string

def Stores.calls (s : Stores) : List Call → Option Stores
  | [] => some s
  | c :: cs => (s.call c).bind fun r => r.1.calls cs

/-- `environmentVariables(ios_currentPid())` -/
def Stores.environmentVariables (s : Stores) : List CStr := s.environment.getD s.environ

/-! ## Agreement -/

/-- `ios_getenv` and `environmentVariables` say the same. -/
def Stores.Agree (session : CStr → CStr) (s : Stores) : Prop :=
  ∀ n v, IsName n →
    (s.getenv session n = some v ↔ s.environmentVariables.find? (named n) = some (entry n v))

/-- What the call asks for holds already. -/
def Stores.Keeps (s : Stores) (table : List CStr) : Call → Prop
  | .setenv name value overwrite => ∀ n, name = some n → IsName n →
    lookup table n = some (value.getD []) ∨ ((lookup table n).isSome = true ∧ overwrite = false)
  | .unsetenv name => ∀ n, name = some n → IsName n → lookup (remove n table) n = lookup table n
  | .putenv string => ∃ env, s.environment = some env ∧ ∀ n v, IsName n → string = entry n v →
    lookup env n = some v

def Stores.KeepsAll (s : Stores) : List Call → Prop
  | [] => True
  | c :: cs => (∀ table, s.table = some table → s.Keeps table c) ∧
    ∀ r, s.call c = some r → r.1.KeepsAll cs

open Stores

theorem getenv_of_isName (session : CStr → CStr) {s : Stores} {n : CStr} (h : IsName n) :
    s.getenv session n = lookup (s.table.getD s.environ) n := by
  rw [getenv, if_neg h.2.2, libcGetenv, if_neg h.1]

theorem agree_iff {session : CStr → CStr} {s : Stores} :
    s.Agree session ↔ ∀ n, IsName n →
      lookup (s.table.getD s.environ) n = lookup s.environmentVariables n := by
  constructor
  · intro h n hn
    refine ext fun v => ?_
    rw [← getenv_of_isName session hn, h n v hn, find_eq_some_iff]
  · intro h n v hn
    rw [getenv_of_isName session hn, h n hn, find_eq_some_iff]

section

variable {session : CStr → CStr} {s : Stores} {t : List CStr}

theorem agree_table_iff (ht : s.table = some t) (h : s.Agree session) (t' : List CStr) :
    Stores.Agree session { s with table := some t' } ↔
      ∀ n, IsName n → lookup t' n = lookup t n := by
  rw [agree_iff] at h ⊢
  rw [ht] at h
  constructor
  · intro h' n hn
    exact (h' n hn).trans (h n hn).symm
  · intro h' n hn
    exact (h' n hn).trans (h n hn)

theorem agree_environment_iff {env : List CStr} (henv : s.environment = some env)
    (h : s.Agree session) (env' : List CStr) :
    Stores.Agree session { s with environment := some env' } ↔
      ∀ n, IsName n → lookup env' n = lookup env n := by
  rw [agree_iff] at h ⊢
  rw [environmentVariables, henv] at h
  constructor
  · intro h' n hn
    exact (h' n hn).symm.trans (h n hn)
  · intro h' n hn
    exact (h n hn).trans (h' n hn).symm

theorem insert_keeps_iff {name value : CStr} (hname : '=' ∉ name) (env : List CStr) :
    (∀ n, IsName n → lookup (insert name (entry name value) env) n = lookup env n) ↔
      (IsName name → lookup env name = some value) := by
  constructor
  · intro h hn
    rw [← h name hn, lookup_insert hname hname, if_pos rfl]
  · intro h n hn
    rw [lookup_insert hn.2.1 hname]
    split
    · next hn' => rw [hn', h (hn' ▸ hn)]
    · rfl

theorem remove_keeps_iff {name : CStr} (hname : '=' ∉ name) (env : List CStr) :
    (∀ n, IsName n → lookup (remove name env) n = lookup env n) ↔
      (IsName name → lookup (remove name env) name = lookup env name) := by
  constructor
  · exact fun h hn => h name hn
  · intro h n hn
    by_cases hn' : n = name
    · exact hn' ▸ h (hn' ▸ hn)
    · exact lookup_remove_of_ne hn.2.1 hname hn' env

theorem badName_eq_false {name : Option CStr} (h : badName name = false) :
    ∃ n, name = some n ∧ '=' ∉ n := by
  cases name with
  | none => cases h
  | some n =>
    rw [badName, all_some, decide_eq_false_iff_not, not_or] at h
    exact ⟨n, rfl, h.2⟩

theorem not_isName {n : CStr} (h : badName (some n) = true) : ¬IsName n := by
  rw [badName, all_some, decide_eq_true_iff] at h
  exact fun hn => h.elim hn.1 hn.2.1

theorem agree_setenv_iff (ht : s.table = some t) (h : s.Agree session) (name value : Option CStr)
    (overwrite : Bool) :
    (s.setenv name value overwrite).1.Agree session ↔ s.Keeps t (.setenv name value overwrite) := by
  rw [setenv, ht, Stores.Keeps]
  cases hbad : badName name with
  | true =>
    refine iff_of_true h ?_
    rintro n rfl hn
    exact absurd hn (not_isName hbad)
  | false =>
    obtain ⟨n, rfl, heq⟩ := badName_eq_false hbad
    rw [if_neg Bool.false_ne_true]
    rw [agree_table_iff ht h, getD_some, assign]
    simp only [some.injEq, forall_eq']
    split
    · next hkeep => exact iff_of_true (fun _ _ => rfl) fun _ => Or.inr hkeep
    · next hkeep => simp only [insert_keeps_iff heq, hkeep, or_false]

theorem agree_unsetenv_iff (ht : s.table = some t) (h : s.Agree session) (name : Option CStr) :
    (s.unsetenv name).1.Agree session ↔ s.Keeps t (.unsetenv name) := by
  rw [unsetenv, ht, Stores.Keeps]
  cases hbad : badName name with
  | true =>
    refine iff_of_true h ?_
    rintro n rfl hn
    exact absurd hn (not_isName hbad)
  | false =>
    obtain ⟨n, rfl, heq⟩ := badName_eq_false hbad
    rw [if_neg Bool.false_ne_true]
    rw [agree_table_iff ht h, getD_some, remove_keeps_iff heq]
    simp

theorem eq_entry {string : CStr} (h : '=' ∈ string) :
    ∃ value, string = entry (string.takeWhile (· ≠ '=')) value := by
  induction string with
  | nil => cases h
  | cons c string ih =>
    by_cases hc : c = '='
    · exact ⟨string, by simp [hc, entry]⟩
    · obtain ⟨value, hvalue⟩ := ih ((mem_cons.mp h).resolve_left (Ne.symm hc))
      refine ⟨value, ?_⟩
      rw [takeWhile_cons_of_pos (by simpa using hc)]
      exact congrArg (c :: ·) hvalue

theorem not_mem_takeWhile (string : CStr) : '=' ∉ string.takeWhile (· ≠ '=') := by
  intro h
  have := mem_takeWhile_imp h
  simp at this

theorem agree_putenv_iff (h : s.Agree session) (string : CStr) :
    (∃ r, s.putenv string = some r ∧ r.1.Agree session) ↔ s.Keeps t (.putenv string) := by
  rw [Stores.Keeps, putenv]
  cases henv : s.environment with
  | none => simp
  | some env =>
    simp only [map_some, some.injEq, exists_eq_left']
    split
    · next heq =>
      obtain ⟨value, hstring⟩ := eq_entry heq
      have hname := not_mem_takeWhile string
      generalize string.takeWhile (· ≠ '=') = name at hstring hname
      subst hstring
      rw [agree_environment_iff henv h, insert_keeps_iff hname]
      constructor
      · intro hkeep n v hn hentry
        obtain ⟨rfl, rfl⟩ := entry_inj hname hn.2.1 hentry
        exact hkeep hn
      · exact fun hkeep hn => hkeep name value hn rfl
    · next heq =>
      refine iff_of_true h fun n v _ hentry => absurd ?_ heq
      rw [hentry, entry]
      simp

theorem agree_call_iff (ht : s.table = some t) (h : s.Agree session) (c : Call) :
    (∃ r, s.call c = some r ∧ r.1.Agree session) ↔ s.Keeps t c := by
  cases c with
  | setenv name value overwrite =>
    rw [← agree_setenv_iff ht h]
    simp [call]
  | unsetenv name =>
    rw [← agree_unsetenv_iff ht h]
    simp [call]
  | putenv string => exact agree_putenv_iff h string

theorem call_table (ht : s.table = some t) {c : Call} {r : Stores × Int} (h : s.call c = some r) :
    ∃ t', r.1.table = some t' := by
  cases c with
  | setenv name value overwrite =>
    cases h
    rw [setenv, ht]
    split
    · exact ⟨t, ht⟩
    · exact ⟨_, rfl⟩
  | unsetenv name =>
    cases h
    rw [unsetenv, ht]
    split
    · exact ⟨t, ht⟩
    · exact ⟨_, rfl⟩
  | putenv string =>
    obtain ⟨env, -, rfl⟩ := map_eq_some_iff.mp h
    split
    · exact ⟨t, ht⟩
    · exact ⟨t, ht⟩

def Stores.AgreeAll (session : CStr → CStr) (s : Stores) (cs : List Call) : Prop :=
  ∀ k, ∃ s', s.calls (cs.take k) = some s' ∧ s'.Agree session

theorem agreeAll_nil : s.AgreeAll session [] ↔ s.Agree session := by
  simp [Stores.AgreeAll, calls]

theorem agreeAll_cons {c : Call} {cs : List Call} :
    s.AgreeAll session (c :: cs) ↔
      s.Agree session ∧ ∃ r, s.call c = some r ∧ r.1.AgreeAll session cs := by
  constructor
  · intro h
    obtain ⟨_, hs, hagree⟩ := h 0
    cases hs
    obtain ⟨_, hone, -⟩ := h 1
    obtain ⟨r, hr, -⟩ := bind_eq_some_iff.mp hone
    refine ⟨hagree, r, hr, fun k => ?_⟩
    obtain ⟨s', hs', hagree'⟩ := h (k + 1)
    rw [take_succ_cons, calls, hr, bind_some] at hs'
    exact ⟨s', hs', hagree'⟩
  · rintro ⟨hagree, r, hr, h⟩ k
    cases k with
    | zero => exact ⟨s, rfl, hagree⟩
    | succ k =>
      obtain ⟨s', hs', hagree'⟩ := h k
      refine ⟨s', ?_, hagree'⟩
      rw [take_succ_cons, calls, hr, bind_some, hs']

theorem agreeAll_iff (ht : s.table = some t) (cs : List Call) :
    s.AgreeAll session cs ↔ s.Agree session ∧ s.KeepsAll cs := by
  induction cs generalizing s t with
  | nil => rw [agreeAll_nil, Stores.KeepsAll, and_true]
  | cons c cs ih =>
    rw [agreeAll_cons, Stores.KeepsAll]
    refine and_congr_right fun hagree => ?_
    have hcall := agree_call_iff ht hagree c
    constructor
    · rintro ⟨r, hr, hall⟩
      obtain ⟨t', ht'⟩ := call_table ht hr
      obtain ⟨hr', hkeeps⟩ := (ih ht').mp hall
      refine ⟨fun table htable => ?_, fun r' hr'' => ?_⟩
      · obtain rfl := some.inj (ht.symm.trans htable)
        exact hcall.mp ⟨r, hr, hr'⟩
      · obtain rfl := some.inj (hr.symm.trans hr'')
        exact hkeeps
    · rintro ⟨hkeep, hkeeps⟩
      obtain ⟨r, hr, hr'⟩ := hcall.mpr (hkeep t ht)
      obtain ⟨t', ht'⟩ := call_table ht hr
      exact ⟨r, hr, (ih ht').mpr ⟨hr', hkeeps r hr⟩⟩

end

/--
On a thread that has been initialised, `ios_getenv` and the listing agree throughout a sequence of
calls exactly when they agree at first and no call changes a value: `ios_setenv` sets the value that
is there, `ios_unsetenv` uncovers it, `ios_putenv` puts the entry that is there.
-/
theorem stores_agree_iff (session : CStr → CStr) (table : List CStr)
    (environment : Option (List CStr)) (environ : List CStr) (cs : List Call) :
    let s : Stores := ⟨some table, environment, environ⟩
    s.AgreeAll session cs ↔ s.Agree session ∧ s.KeepsAll cs :=
  agreeAll_iff rfl cs

/-- `setenv A 1` in an empty environment: `ios_getenv` finds the value, and it is not listed. -/
theorem setenv_not_listed :
    let s : Stores := ⟨some [], some [], []⟩
    let r := s.setenv (some ['A']) (some ['1']) true
    r.1.getenv id ['A'] = some ['1'] ∧ r.1.environmentVariables = [] ∧ r.2 = 0 ∧
      s.Agree id ∧ ¬r.1.Agree id := by
  refine ⟨by decide, by decide, by decide, ?_, fun h => ?_⟩
  · exact agree_iff.mpr fun _ _ => rfl
  · have hA : IsName ['A'] := by
      unfold IsName
      decide
    have := (h ['A'] ['1'] hA).mp (by decide)
    cases this

end IosSystem.Env
