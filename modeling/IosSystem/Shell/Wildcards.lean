import IosSystem.Lib.Cells
import IosSystem.Shell.Text

/-!
# Wildcards

The loop of `ios_system` that replaces an argument by the paths that `glob` finds for it. The
arguments behind it are moved up, in `argv` and in `dontExpand`, to make room for the paths.
-/

namespace IosSystem.Shell.Wildcards

open List
open Cells

/-- `argv`, `dontExpand` and `argc`. -/
structure Vectors where
  argv : List (Cell CStr)
  dontExpand : List (Cell Bool)
  argc : Nat

def hasWildcard (arg : CStr) : Bool :=
  (strstrquoted arg ['*']).isSome || (strstrquoted arg ['?']).isSome ||
    (strstrquoted arg ['[']).isSome

/-- A cell that has been written is read. -/
def load {α : Type} (a : List (Cell α)) (i : Nat) : Option α :=
  match a[i]? with
  | some (.ptr x) => some x
  | _ => none

/-- The paths take the place of argument `i`. -/
def Vectors.insert (v : Vectors) (i : Nat) (paths : List CStr) : Option Vectors := do
  let argc := v.argc + paths.length - 1
  let argv := realloc v.argv (argc + 1)
  let dontExpand := realloc v.dontExpand (argc + 1)
  -- `j` goes from `argc` down, as long as `j - gl_matchc + 1 > i`
  let argv ← shiftUp argv (paths.length - 1) argc (v.argc - i)
  let dontExpand ← shiftUp dontExpand (paths.length - 1) argc (v.argc - i)
  let argv ← fill argv i paths
  return ⟨argv, dontExpand, argc⟩

/-- The loop, from argument `i` on. A step that C leaves undefined has no result. -/
def wildcardLoop (glob : CStr → Option (List CStr)) : Nat → Vectors → Nat → Option Vectors
  | 0, _, _ => none
  | fuel + 1, v, i =>
    if i < v.argc then do
      let arg ← load v.argv i
      let dontExpand ← load v.dontExpand i
      match if dontExpand = false ∧ hasWildcard arg = true then glob arg else none with
      | some paths => wildcardLoop glob fuel (← v.insert i paths) (i + paths.length)
      | none => wildcardLoop glob fuel v (i + 1)
    else some v

/-- What an argument with its mark becomes. -/
def expansion (glob : CStr → Option (List CStr)) (arg : CStr × Bool) : List CStr :=
  (if arg.2 = false ∧ hasWildcard arg.1 = true then glob arg.1 else none).getD [arg.1]

/-- The arguments and the `NULL` behind them, with a part of `dontExpand` that is not read any more.
-/
def vectors (done : List CStr) (marks : List (Cell Bool)) (args : List (CStr × Bool))
    (spare : List (Cell Bool)) : Vectors :=
  { argv := (done ++ args.map Prod.fst).map .ptr ++ [.null]
    dontExpand := marks ++ (args.map fun x => .ptr x.2) ++ spare
    argc := done.length + args.length }

variable {α : Type}

/-- An array is reallocated for `k` cells more, and what is behind `x` moves up by them. -/
theorem shiftUp_realloc {k : Nat} {c : Cell α} {gap tail : List (Cell α)}
    (htail : realloc tail (k + 1) = c :: gap) (pre ys : List (Cell α)) (x : Cell α) :
    ∃ front, front.length = k ∧
      shiftUp (realloc (pre ++ x :: ys ++ tail) (pre.length + (ys.length + 1) + k + 1)) k
          (pre.length + (ys.length + 1) + k) (ys.length + 1)
        = some (pre ++ (x :: front ++ (ys ++ [c]))) := by
  have hgap := length_realloc tail (k + 1)
  rw [htail, length_cons, Nat.add_right_cancel_iff] at hgap
  have hrealloc := realloc_append_add (pre ++ x :: ys) tail (k + 1)
  rw [htail, length_append, length_cons, ← Nat.add_assoc _ k 1] at hrealloc
  rw [hrealloc]
  cases k with
  | zero =>
    refine ⟨[], rfl, (shiftUp_zero (by simp) _).trans ?_⟩
    rw [length_eq_zero_iff.mp hgap]
    simp
  | succ k =>
    obtain ⟨front, hfront, hshift⟩ :=
      shiftUp_append (pre ++ [x]) (ys ++ [c]) gap [] (Nat.succ_pos k) hgap
    have htop : (pre ++ [x]).length + (ys ++ [c]).length + (k + 1) - 1
        = pre.length + (ys.length + 1) + (k + 1) := by
      simp only [length_append, length_singleton]
      omega
    rw [htop] at hshift
    refine ⟨front, hfront, ?_⟩
    simpa using hshift

theorem insert_eq (done paths : List CStr) (marks spare : List (Cell Bool)) (arg : CStr × Bool)
    (args : List (CStr × Bool)) (hmarks : marks.length = done.length) (hpaths : paths ≠ []) :
    ∃ marks' spare', marks'.length = (done ++ paths).length ∧
      (vectors done marks (arg :: args) spare).insert done.length paths
        = some (vectors (done ++ paths) marks' args spare') := by
  obtain ⟨path, paths, rfl⟩ := exists_cons_of_ne_nil hpaths
  have hnull : realloc [Cell.null (α := CStr)] (paths.length + 1)
      = .null :: replicate paths.length .indeterminate :=
    realloc_of_le (by simp)
  obtain ⟨c, gap, hspare⟩ :=
    exists_cons_of_length_eq_add_one (length_realloc spare (paths.length + 1))
  obtain ⟨front, hfront, hargv⟩ := shiftUp_realloc hnull (done.map .ptr)
    ((args.map Prod.fst).map .ptr) (.ptr arg.1)
  obtain ⟨behind, hbehind, hdont⟩ := shiftUp_realloc hspare marks
    (args.map fun x => .ptr x.2) (.ptr arg.2)
  refine ⟨marks ++ .ptr arg.2 :: behind, [c], by simp [hmarks, hbehind], ?_⟩
  have hlen : (path :: paths).length
      ≤ (Cell.ptr arg.1 :: front ++ ((args.map Prod.fst).map Cell.ptr ++ [Cell.null])).length := by
    simp [hfront]
  have hfill := fill_append (done.map Cell.ptr) _ hlen
  simp only [length_map, hmarks] at hargv hdont hfill
  have hargc : done.length + (args.length + 1) + (paths.length + 1) - 1
      = done.length + (args.length + 1) + paths.length := by omega
  have hcount : done.length + (args.length + 1) - done.length = args.length + 1 := by omega
  simp only [Vectors.insert, vectors, length_cons, map_append, map_cons, hargc, hcount,
    Nat.add_sub_cancel, hargv, hdont, hfill, Option.bind_eq_bind, Option.bind_some]
  simp [hfront, Nat.add_assoc]
  omega

variable {glob : CStr → Option (List CStr)}

theorem wildcardLoop_eq (hglob : ∀ pattern paths, glob pattern = some paths → paths ≠ [])
    {args : List (CStr × Bool)} {done : List CStr} {marks spare : List (Cell Bool)} {fuel : Nat}
    (hmarks : marks.length = done.length) (hfuel : args.length < fuel) :
    ∃ marks', wildcardLoop glob fuel (vectors done marks args spare) done.length
      = some ⟨(done ++ args.flatMap (expansion glob)).map .ptr ++ [.null], marks',
          (done ++ args.flatMap (expansion glob)).length⟩ := by
  induction args generalizing done marks spare fuel with
  | nil =>
    obtain ⟨fuel, rfl⟩ := Nat.exists_eq_add_of_lt hfuel
    refine ⟨marks ++ [] ++ spare, ?_⟩
    rw [wildcardLoop.eq_def]
    simp [vectors]
  | cons arg args ih =>
    obtain ⟨fuel, rfl⟩ : ∃ n, fuel = n + 1 := Nat.exists_eq_succ_of_ne_zero (by omega)
    rw [length_cons, Nat.add_lt_add_iff_right] at hfuel
    have hin : done.length < (vectors done marks (arg :: args) spare).argc := by simp [vectors]
    have harg : load (vectors done marks (arg :: args) spare).argv done.length = some arg.1 := by
      simp [load, vectors]
    have hmark : load (vectors done marks (arg :: args) spare).dontExpand done.length
        = some arg.2 := by
      simp [load, vectors, ← hmarks]
    rw [wildcardLoop, if_pos hin, harg, hmark]
    simp only [Option.bind_eq_bind, Option.bind_some]
    rw [flatMap_cons, expansion]
    split
    · next paths hmatch =>
      have hpaths : paths ≠ [] := by
        split at hmatch
        · exact hglob _ _ hmatch
        · cases hmatch
      obtain ⟨marks', spare', hmarks', hinsert⟩ :=
        insert_eq done paths marks spare arg args hmarks hpaths
      rw [hinsert, Option.bind_some, hmatch, ← append_assoc, ← length_append]
      exact ih hmarks' hfuel
    · next hnone =>
      have hnext : vectors done marks (arg :: args) spare
          = vectors (done ++ [arg.1]) (marks ++ [.ptr arg.2]) args spare := by
        simp [vectors, Nat.add_assoc, Nat.add_comm 1]
      have hlen : done.length + 1 = (done ++ [arg.1]).length := by simp
      rw [hnone, hnext, hlen, ← append_assoc]
      exact ih (by simp [hmarks]) hfuel

/--
Every argument but the first is replaced by its expansion, `argc` is their number, and `NULL` comes
behind them. All stores are inside the arrays.
-/
theorem wildcards_concatenate (hglob : ∀ pattern paths, glob pattern = some paths → paths ≠ [])
    (name : CStr) (mark : Cell Bool) (args : List (CStr × Bool)) (spare : List (Cell Bool)) :
    ∃ marks, wildcardLoop glob (args.length + 1) (vectors [name] [mark] args spare) 1
      = some ⟨(name :: args.flatMap (expansion glob)).map .ptr ++ [.null], marks,
          (name :: args.flatMap (expansion glob)).length⟩ :=
  wildcardLoop_eq hglob rfl (Nat.lt_succ_self _)

/-- Two paths for a pattern, and an argument in quotes. -/
theorem wildcards_two_paths : ∃ marks,
    wildcardLoop (fun _ => some [['a'], ['*']]) 3
        (vectors [['l', 's']] [.indeterminate] [(['*'], false), (['?'], true)] []) 1
      = some ⟨[.ptr ['l', 's'], .ptr ['a'], .ptr ['*'], .ptr ['?'], .null], marks, 4⟩ :=
  wildcards_concatenate (by rintro _ _ ⟨⟩; exact cons_ne_nil _ _) ['l', 's'] .indeterminate
    [(['*'], false), (['?'], true)] []

end IosSystem.Shell.Wildcards
