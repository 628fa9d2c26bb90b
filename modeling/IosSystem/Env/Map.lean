import IosSystem.Env.Arrays

/-!
# The environment of a thread as a map

`ios_env_getenv`, `ios_env_setenv`, `ios_env_unsetenv` and `ios_env_copy_from_thread` on the array
of `ThreadEnv`, which holds any list of strings: a name may have several entries, and an entry need
not have a `=`.
-/

namespace IosSystem.Env

open Shell (CStr)
open Environ
open Cells (Cell)

/-- `ios_env_getenv` -/
def ThreadEnv.getenv (env : ThreadEnv) (name : Option CStr) : Option (Option CStr) :=
  match name with
  | none => some none
  | some name =>
    if name.length = 0 then some none
    else do
      match ← env.findVar name with
      | none => return none
      | some idx =>
        match env.environArray[idx]? with
        | some (.ptr e) => return some (e.drop (name.length + 1))
        | _ => none

/-- `ios_env_copy_from_thread`, of two threads. The strings of `dest` are released before. -/
def ThreadEnv.copyFromThread (source dest : ThreadEnv) : Option ThreadEnv :=
  (Cells.objects source.entries).bind dest.copy

def Change.name : Change → CStr
  | .set name .. | .unset name => name

/-- The capacity is not exceeded, and there is a null pointer at `num_vars`. -/
def ThreadEnv.WellFormed (env : ThreadEnv) : Prop :=
  env.numVars ≤ env.capacity ∧ env.environArray[env.numVars]? = some .null

section

variable {m n v : CStr} {env : List CStr}

theorem badName_eq_false_iff : badName (some n) = false ↔ n ≠ [] ∧ '=' ∉ n := by
  simp [badName]

theorem countP_insert (hm : '=' ∉ m) (hn : '=' ∉ n) (env : List CStr) :
    (Environ.insert m (entry m v) env).countP (named n)
      = if n = m then max 1 (env.countP (named n)) else env.countP (named n) := by
  have hentry : ∀ w, named n (entry m w) = decide (n = m) := by
    intro w
    by_cases h : n = m
    · rw [h, named_entry, decide_eq_true rfl]
    · rw [not_named hn hm h, decide_eq_false h]
  induction env with
  | nil =>
    rw [Environ.insert, List.countP_singleton, hentry]
    by_cases h : n = m <;> simp [h]
  | cons e env ih =>
    rw [Environ.insert]
    split
    · next he =>
      obtain ⟨w, rfl⟩ := named_iff.1 he
      rw [List.countP_cons, List.countP_cons, hentry, hentry]
      by_cases h : n = m <;> simp [h]
    · next he =>
      rw [List.countP_cons, List.countP_cons, ih]
      by_cases h : n = m
      · subst h
        simp [he]
      · simp [h]

theorem countP_assign (hm : '=' ∉ m) (hn : '=' ∉ n) (overwrite : Bool) (env : List CStr) :
    (assign m v overwrite env).countP (named n) ≤ max 1 (env.countP (named n)) := by
  rw [assign]
  split
  · exact Nat.le_max_right ..
  · rw [countP_insert hm hn]
    split
    · exact Nat.le_refl _
    · exact Nat.le_max_right ..

theorem lookup_eq_none_iff : lookup env n = none ↔ env.countP (named n) = 0 := by
  rw [lookup, Option.map_eq_none_iff, List.find?_eq_none, List.countP_eq_zero]

theorem countP_remove (env : List CStr) :
    (remove n env).countP (named n) = env.countP (named n) - 1 := by
  induction env with
  | nil => rfl
  | cons e env ih =>
    rw [remove, List.eraseP_cons]
    cases he : named n e with
    | true => simp [he]
    | false => simpa [remove, he] using ih

end

namespace ThreadEnv

variable {env : ThreadEnv} {entries : List CStr}

theorem Holds.getenv (h : env.Holds entries) {n : CStr} (hn : n ≠ []) :
    env.getenv (some n) = some (lookup entries n) := by
  obtain ⟨tail, htail⟩ := h.environArray
  have hlen : ¬n.length = 0 := by simpa using hn
  simp only [ThreadEnv.getenv, hlen, if_false, h.findVar n, Option.bind_eq_bind, Option.bind_some]
  rw [lookup, List.find?_eq_bind_findIdx?_getElem?]
  cases hidx : entries.findIdx? (named n) with
  | none => rfl
  | some i =>
    have hi : i < entries.length := (List.findIdx?_eq_some_iff_findIdx_eq.mp hidx).1
    simp [htail, List.getElem?_append_left, hi]

theorem Holds.wellFormed (h : env.Holds entries) : env.WellFormed := by
  obtain ⟨tail, htail⟩ := h.environArray
  exact ⟨h.numVars_le, by simp [h.numVars, htail]⟩

theorem Holds.copyFromThread {source : ThreadEnv} {old : List CStr} (h : source.Holds entries)
    (hdest : env.Holds old) :
    ∃ env', source.copyFromThread env = some env' ∧ env'.Holds entries := by
  rw [ThreadEnv.copyFromThread, h.entries_eq, Cells.objects_map_ptr, Option.bind_some]
  exact Allocated.copyAll hdest.allocated hdest.capacity entries

theorem Holds.others (h : env.Holds entries) (c : Change) (hc : badName (some c.name) = false) :
    ∃ env' entries', env.change c = some (env', 0) ∧ env'.Holds entries' ∧
      ∀ m, badName (some m) = false →
        entries'.countP (named m) ≤ max 1 (entries.countP (named m)) ∧
        (m ≠ c.name → env'.getenv (some m) = env.getenv (some m)) := by
  obtain ⟨env', hchange, hholds⟩ := h.change c
  have hn := (badName_eq_false_iff.1 hc).2
  refine ⟨env', _, ?_, hholds, fun m hm => ?_⟩
  · rw [hchange]
    cases c <;> simp_all [Change.apply, Change.name]
  obtain ⟨hne, hm⟩ := badName_eq_false_iff.1 hm
  rw [hholds.getenv hne, h.getenv hne]
  cases c with
  | set name value overwrite =>
    simp only [Change.apply, Change.name] at hc hn ⊢
    rw [hc, if_neg Bool.false_ne_true]
    refine ⟨countP_assign hn hm _ _, fun hmn => ?_⟩
    rw [assign]
    split
    · rfl
    · rw [lookup_insert hm hn, if_neg hmn]
  | unset name =>
    simp only [Change.apply, Change.name] at hc hn ⊢
    rw [hc, if_neg Bool.false_ne_true]
    refine ⟨Nat.le_trans ?_ (Nat.le_max_right ..), fun hmn => ?_⟩
    · exact List.Sublist.countP_le (List.eraseP_sublist ..)
    · rw [lookup_remove_of_ne hm hn hmn]

end ThreadEnv

/--
The array of a thread is a map: what `ios_env_getenv` returns after `ios_env_setenv` and
`ios_env_unsetenv`, for the name itself and for all others; how many entries a name has; the names
that are refused; and the null pointer at `num_vars`.
-/
theorem environment_map {env : ThreadEnv} {entries : List CStr} (h : env.Holds entries) {n : CStr}
    (hn : badName (some n) = false) (v : CStr) :
    (∃ env', env.setenv (some n) (some v) 1 = some (env', 0) ∧
      env'.getenv (some n) = some (some v)) ∧
    (entries.any (named n) = true → env.setenv (some n) (some v) 0 = some (env, 0)) ∧
    (entries.any (named n) = false → ∃ env', env.setenv (some n) (some v) 0 = some (env', 0) ∧
      env'.Holds (entries ++ [entry n v])) ∧
    (∃ env', env.unsetenv (some n) = some (env', 0) ∧ env'.Holds (entries.eraseP (named n)) ∧
      (entries.countP (named n) ≤ 1 → env'.getenv (some n) = some none)) ∧
    (∀ c : Change, c.name = n → ∃ env' entries', env.change c = some (env', 0) ∧
      env'.Holds entries' ∧ env'.WellFormed ∧
        ∀ m, badName (some m) = false →
          entries'.countP (named m) ≤ max 1 (entries.countP (named m)) ∧
          (m ≠ n → env'.getenv (some m) = env.getenv (some m))) ∧
    (∀ name value overwrite, badName name = true →
      env.setenv name value overwrite = some (env, -1) ∧ env.unsetenv name = some (env, -1)) ∧
    (∀ envp, ∃ env', ThreadEnv.initThread envp = some env' ∧ env'.Holds envp ∧ env'.WellFormed) ∧
    ∀ (source : ThreadEnv) list, source.Holds list →
      ∃ env', source.copyFromThread env = some env' ∧ env'.Holds list ∧ env'.WellFormed := by
  obtain ⟨hne, heq⟩ := badName_eq_false_iff.1 hn
  refine ⟨?_, ?_, ?_, ?_, ?_, ?_, ?_, ?_⟩
  · obtain ⟨env', hset, h'⟩ := h.setenv n v 1
    rw [Change.apply, hn, if_neg Bool.false_ne_true] at hset h'
    refine ⟨env', hset, ?_⟩
    rw [h'.getenv hne, assign, if_neg (by simp), lookup_insert heq heq, if_pos rfl]
  · intro hany
    have hsome : (entries.findIdx? (named n)).isSome = true := by rw [List.findIdx?_isSome, hany]
    obtain ⟨i, hidx⟩ := Option.isSome_iff_exists.1 hsome
    simp [ThreadEnv.setenv, hne, heq, h.findVar n, hidx]
  · intro hany
    obtain ⟨env', hset, h'⟩ := h.setenv n v 0
    rw [Change.apply, hn, if_neg Bool.false_ne_true] at hset h'
    rw [assign_of_not_found (by simpa using hany)] at h'
    exact ⟨env', hset, h'⟩
  · obtain ⟨env', hunset, h'⟩ := h.unsetenv n
    rw [Change.apply, hn, if_neg Bool.false_ne_true] at hunset h'
    refine ⟨env', hunset, h', fun hle => ?_⟩
    rw [h'.getenv hne, Option.some.injEq, lookup_eq_none_iff, countP_remove]
    omega
  · rintro c rfl
    obtain ⟨env', entries', hchange, h', hothers⟩ := h.others c hn
    exact ⟨env', entries', hchange, h', h'.wellFormed, hothers⟩
  · intro name value overwrite hbad
    cases name with
    | none => exact ⟨rfl, rfl⟩
    | some name => exact ⟨ThreadEnv.setenv_bad hbad .., ThreadEnv.unsetenv_bad hbad ..⟩
  · intro envp
    obtain ⟨env', hinit, h'⟩ := ThreadEnv.Holds.initThread envp
    exact ⟨env', hinit, h', h'.wellFormed⟩
  · intro source list hsource
    obtain ⟨env', hcopy, h'⟩ := hsource.copyFromThread h
    exact ⟨env', hcopy, h', h'.wellFormed⟩

/-- A name with two entries, and an entry without a `=`. -/
theorem environment_map_twice :
    ∃ env env', ThreadEnv.initThread ["A=1".toList, "x".toList, "A=2".toList] = some env ∧
      env.setenv (some "A".toList) (some "3".toList) 1 = some (env', 0) ∧
      env'.getenv (some "A".toList) = some (some "3".toList) := by
  obtain ⟨env, hinit, h⟩ :=
    ThreadEnv.Holds.initThread ["A=1".toList, "x".toList, "A=2".toList]
  obtain ⟨env', hset, hget⟩ := (environment_map h (n := "A".toList) rfl "3".toList).1
  exact ⟨env, env', hinit, hset, hget⟩

end IosSystem.Env
