import Mathlib.Data.List.Basic

/-!
# Environment arrays

An environment is an array of entries `NAME=VALUE`, in which the first entry of a name counts. A
name has no `=` in it, so an entry has one name only (`entry_inj`), and a change of one name leaves
all others as they are (`lookup_insert`, `lookup_remove_of_ne`).
-/

namespace Environ

open List Option

/-- `NAME=value` -/
def entry (name value : List Char) : List Char := name ++ '=' :: value

/-- The entry begins with `NAME=`. -/
def named (name e : List Char) : Bool := (name ++ ['=']).isPrefixOf e

/-- The value of a name. -/
def lookup (env : List (List Char)) (name : List Char) : Option (List Char) :=
  (env.find? (named name)).map (·.drop (name.length + 1))

/-- Put an entry in the place of the first entry of the name, or behind the others. -/
def insert (name e : List Char) : List (List Char) → List (List Char)
  | [] => [e]
  | x :: env => if named name x then e :: env else x :: insert name e env

/-- Remove the first entry of the name. -/
def remove (name : List Char) (env : List (List Char)) : List (List Char) := env.eraseP (named name)

variable {name m n : List Char} {e : List Char}

theorem named_iff : named name e = true ↔ ∃ value, e = entry name value := by
  rw [named, isPrefixOf_iff_prefix]
  constructor
  · rintro ⟨value, rfl⟩
    exact ⟨value, by simp [entry]⟩
  · rintro ⟨value, rfl⟩
    exact ⟨value, by simp [entry]⟩

theorem named_entry (name value : List Char) : named name (entry name value) = true :=
  named_iff.mpr ⟨value, rfl⟩

theorem drop_entry (name value : List Char) :
    (entry name value).drop (name.length + 1) = value := by
  simp [entry]

theorem entry_inj {v w : List Char} (hm : '=' ∉ m) (hn : '=' ∉ n) (h : entry m v = entry n w) :
    m = n ∧ v = w := by
  induction m generalizing n with
  | nil =>
    cases n with
    | nil => exact ⟨rfl, (cons.inj h).2⟩
    | cons c n => exact absurd (mem_cons.mpr (Or.inl (cons.inj h).1)) hn
  | cons c m ih =>
    cases n with
    | nil => exact absurd (mem_cons.mpr (Or.inl (cons.inj h).1.symm)) hm
    | cons d n =>
      obtain ⟨hcd, htail⟩ := cons.inj h
      obtain ⟨hmn, hvw⟩ := ih (fun e => hm (mem_cons_of_mem _ e))
        (fun e => hn (mem_cons_of_mem _ e)) htail
      exact ⟨by rw [hcd, hmn], hvw⟩

theorem not_named {v : List Char} (hm : '=' ∉ m) (hn : '=' ∉ n) (hne : m ≠ n) :
    named m (entry n v) = false := by
  rw [← Bool.not_eq_true, named_iff]
  rintro ⟨w, h⟩
  exact hne (entry_inj hn hm h).1.symm

theorem lookup_cons (e : List Char) (env : List (List Char)) (name : List Char) :
    lookup (e :: env) name
      = if named name e then some (e.drop (name.length + 1)) else lookup env name := by
  rw [lookup, find?_cons]
  split
  · next h => rw [h]; rfl
  · next h => rw [h]; rfl

variable {env : List (List Char)}

theorem find_eq_some_iff {value : List Char} :
    env.find? (named name) = some (entry name value) ↔ lookup env name = some value := by
  rw [lookup, map_eq_some_iff]
  constructor
  · intro h
    exact ⟨_, h, drop_entry name value⟩
  · rintro ⟨e, h, rfl⟩
    obtain ⟨w, rfl⟩ := named_iff.mp (find?_some h)
    rw [h, drop_entry]

theorem isSome_lookup (env : List (List Char)) (name : List Char) :
    (lookup env name).isSome = (env.findIdx? (named name)).isSome := by
  rw [lookup, Option.isSome_map, Bool.eq_iff_iff, List.find?_isSome, List.findIdx?_isSome,
    List.any_eq_true]

theorem insert_of_findIdx_some {i : Nat} (h : env.findIdx? (named name) = some i) :
    insert name e env = env.set i e := by
  induction env generalizing i with
  | nil => simp at h
  | cons x env ih =>
    rw [findIdx?_cons] at h
    rw [insert]
    cases hx : named name x with
    | true =>
      rw [hx, if_pos rfl, some.injEq] at h
      rw [if_pos rfl, ← h, set_cons_zero]
    | false =>
      rw [hx, if_neg Bool.false_ne_true, map_eq_some_iff] at h
      obtain ⟨j, hj, rfl⟩ := h
      rw [if_neg Bool.false_ne_true, set_cons_succ, ih hj]

theorem insert_of_findIdx_none (h : env.findIdx? (named name) = none) :
    insert name e env = env ++ [e] := by
  induction env with
  | nil => rfl
  | cons x env ih =>
    rw [findIdx?_cons] at h
    rw [insert]
    cases hx : named name x with
    | true => rw [hx, if_pos rfl] at h; cases h
    | false =>
      rw [hx, if_neg Bool.false_ne_true, map_eq_none_iff] at h
      rw [if_neg Bool.false_ne_true, ih h, cons_append]

theorem lookup_insert {v : List Char} (hm : '=' ∉ m) (hn : '=' ∉ n) (env : List (List Char)) :
    lookup (insert n (entry n v) env) m = if m = n then some v else lookup env m := by
  induction env with
  | nil =>
    rw [insert, lookup_cons]
    by_cases h : m = n
    · rw [if_pos h, h, named_entry, if_pos rfl, drop_entry]
    · rw [if_neg h, not_named hm hn h, if_neg Bool.false_ne_true]
  | cons e env ih =>
    rw [insert]
    split
    · next he =>
      obtain ⟨w, rfl⟩ := named_iff.mp he
      rw [lookup_cons, lookup_cons]
      by_cases h : m = n
      · rw [if_pos h, h, named_entry, if_pos rfl, drop_entry]
      · rw [if_neg h, not_named hm hn h, not_named hm hn h]
        rfl
    · next he =>
      rw [lookup_cons, lookup_cons, ih]
      by_cases h : m = n
      · rw [h, if_neg he, if_pos rfl, if_pos rfl]
      · rw [if_neg h, if_neg h]

theorem lookup_remove_of_ne (hm : '=' ∉ m) (hn : '=' ∉ n) (hne : m ≠ n)
    (env : List (List Char)) : lookup (remove n env) m = lookup env m := by
  induction env with
  | nil => rfl
  | cons e env ih =>
    rw [remove, eraseP_cons]
    cases he : named n e with
    | true =>
      obtain ⟨w, rfl⟩ := named_iff.mp he
      rw [lookup_cons, not_named hm hn hne]
      rfl
    | false =>
      rw [lookup_cons]
      show lookup (e :: remove n env) m = _
      rw [lookup_cons, ih]

end Environ
