import Mathlib.Data.List.Basic
import Mathlib.Data.List.Induction

/-!
# Arrays of pointers

A C array of pointers, as the list of its cells. Reading and writing outside the array, and using a
cell that has not been written since it was allocated, have no result. The lemmas say what the usual
loops do to arrays `xs.map .ptr ++ tail` that begin with the objects `xs`, in terms of `xs`.
-/

namespace Cells

open List Option

/-- A cell of an array of pointers. -/
inductive Cell (α : Type) where
  /-- allocated, and not written yet -/
  | indeterminate
  | null
  | ptr (x : α)
  deriving DecidableEq

variable {α : Type}

/-- A store into an array; `none` behind its end. -/
def write (a : List (Cell α)) (i : Nat) (c : Cell α) : Option (List (Cell α)) :=
  if i < a.length then some (a.set i c) else none

/-- `realloc` to `n` cells. -/
def realloc (a : List (Cell α)) (n : Nat) : List (Cell α) :=
  a.take n ++ replicate (n - a.length) .indeterminate

/-- The first of the `count` cells from index `i` on that passes the test. -/
def scan (test : Cell α → Option Bool) (a : List (Cell α)) : Nat → Nat → Option (Option Nat)
  | _, 0 => some none
  | i, count + 1 => do
    let found ← test (← a[i]?)
    if found then some (some i) else scan test a (i + 1) count

/-- The objects are stored one after the other, from index `i` on. -/
def fill (a : List (Cell α)) : Nat → List α → Option (List (Cell α))
  | _, [] => some a
  | i, x :: xs => do fill (← write a i (.ptr x)) (i + 1) xs

/-- `a[j] = a[j + 1]` for `count` indices from `i` on. -/
def shiftDown (a : List (Cell α)) : Nat → Nat → Option (List (Cell α))
  | _, 0 => some a
  | i, count + 1 => do shiftDown (← write a i (← a[i + 1]?)) (i + 1) count

/-- `a[j] = a[j - n]` for `count` indices from `j` down. -/
def shiftUp (a : List (Cell α)) (n : Nat) : Nat → Nat → Option (List (Cell α))
  | _, 0 => some a
  | j, count + 1 => do shiftUp (← write a j (← a[j - n]?)) n (j - 1) count

/-- The objects of an array in which every cell has one. -/
def objects : List (Cell α) → Option (List α)
  | [] => some []
  | .ptr x :: a => (objects a).map (x :: ·)
  | _ :: _ => none

theorem write_append_cons (pre tail : List (Cell α)) (c d : Cell α) :
    write (pre ++ c :: tail) pre.length d = some (pre ++ d :: tail) := by
  rw [write, if_pos (by simp)]
  simp

variable {xs : List α} {i : Nat}

theorem write_map_ptr (h : i < xs.length) (tail : List (Cell α)) (x : α) :
    write (xs.map .ptr ++ tail) i (.ptr x) = some ((xs.set i x).map .ptr ++ tail) := by
  have hi : i < (xs.map Cell.ptr).length := by simpa using h
  rw [write, if_pos (by simp; omega), set_append_left _ _ hi, map_set]

variable {a : List (Cell α)} {n : Nat}

theorem realloc_of_le (h : a.length ≤ n) :
    realloc a n = a ++ replicate (n - a.length) .indeterminate := by
  rw [realloc, take_of_length_le h]

theorem length_realloc (a : List (Cell α)) (n : Nat) : (realloc a n).length = n := by
  rw [realloc, length_append, length_take, length_replicate]
  omega

theorem realloc_append {tail : List (Cell α)} (h : a.length = n) : realloc (a ++ tail) n = a := by
  subst h
  simp [realloc]

theorem realloc_append_add (a tail : List (Cell α)) (n : Nat) :
    realloc (a ++ tail) (a.length + n) = a ++ realloc tail n := by
  have hlength : a.length + n - (a ++ tail).length = n - tail.length := by
    rw [length_append]
    omega
  rw [realloc, realloc, take_length_add_append, hlength, append_assoc]

theorem objects_map_ptr (xs : List α) : objects (xs.map Cell.ptr) = some xs := by
  induction xs with
  | nil => rfl
  | cons x xs ih => rw [map_cons, objects, ih, map_some]

variable {test : Cell α → Option Bool}

theorem scan_append {p : α → Bool} (htest : ∀ x, test (.ptr x) = some (p x))
    (pre tail : List (Cell α)) (xs : List α) :
    scan test (pre ++ (xs.map .ptr ++ tail)) pre.length xs.length
      = some ((xs.findIdx? p).map (· + pre.length)) := by
  induction xs generalizing pre with
  | nil => rfl
  | cons x xs ih =>
    have hget : (pre ++ ((x :: xs).map Cell.ptr ++ tail))[pre.length]? = some (.ptr x) := by simp
    have hrest := ih (pre ++ [.ptr x])
    simp only [append_assoc, cons_append, nil_append, length_append, length_singleton] at hrest
    simp only [length_cons, scan, hget, Option.bind_eq_bind, Option.bind_some, htest]
    rw [findIdx?_cons]
    cases p x with
    | true => simp
    | false =>
      simp only [map_cons, cons_append, hrest, Bool.false_eq_true, if_false, Option.map_map]
      congr 2
      funext i
      simp only [Function.comp_apply]
      omega

theorem scan_map_ptr {p : α → Bool} (htest : ∀ x, test (.ptr x) = some (p x)) (xs : List α)
    (tail : List (Cell α)) :
    scan test (xs.map .ptr ++ tail) 0 xs.length = some (xs.findIdx? p) := by
  have := scan_append htest [] tail xs
  simpa using this

theorem fill_append (pre old : List (Cell α)) (h : xs.length ≤ old.length) :
    fill (pre ++ old) pre.length xs = some (pre ++ (xs.map .ptr ++ old.drop xs.length)) := by
  induction xs generalizing pre old with
  | nil => simp [fill]
  | cons x xs ih =>
    cases old with
    | nil => simp at h
    | cons c old =>
      have hrest := ih (pre ++ [.ptr x]) old (by simpa using h)
      simp only [append_assoc, cons_append, nil_append, length_append, length_singleton] at hrest
      simp only [fill, write_append_cons, bind_eq_bind, bind_some, hrest]
      simp

theorem fill_zero {old : List (Cell α)} (h : xs.length ≤ old.length) :
    fill old 0 xs = some (xs.map .ptr ++ old.drop xs.length) :=
  fill_append [] old h

theorem shiftDown_append (pre ys tail : List (Cell α)) (c : Cell α) :
    ∃ d, shiftDown (pre ++ c :: (ys ++ tail)) pre.length ys.length
      = some (pre ++ (ys ++ d :: tail)) := by
  induction ys generalizing pre c with
  | nil => exact ⟨c, rfl⟩
  | cons y ys ih =>
    obtain ⟨d, hrest⟩ := ih (pre ++ [y]) y
    refine ⟨d, ?_⟩
    have hget : (pre ++ c :: (y :: ys ++ tail))[pre.length + 1]? = some y := by
      simp
    simp only [append_assoc, length_append] at hrest
    simp only [length_cons, shiftDown, hget, write_append_cons]
    exact hrest

theorem shiftDown_write (h : i < xs.length) (c : Cell α) (tail : List (Cell α)) :
    (shiftDown ((xs.map Cell.ptr ++ tail).set i c) i (xs.length - 1 - i)).bind
        (write · (xs.length - 1) .null)
      = some ((xs.eraseIdx i).map .ptr ++ .null :: tail) := by
  obtain ⟨pre, x, ys, rfl, rfl⟩ : ∃ pre x ys, xs = pre ++ x :: ys ∧ i = pre.length :=
    ⟨xs.take i, xs[i], xs.drop (i + 1), by simp, by simp; omega⟩
  have hset : ((pre ++ x :: ys).map Cell.ptr ++ tail).set pre.length c
      = pre.map .ptr ++ c :: (ys.map .ptr ++ tail) := by
    simp
  have hcount : (pre ++ x :: ys).length - 1 - pre.length = (ys.map (Cell.ptr (α := α))).length := by
    simp
  obtain ⟨d, hshift⟩ := shiftDown_append (pre.map Cell.ptr) (ys.map Cell.ptr) tail c
  have hlast := write_append_cons (pre.map Cell.ptr ++ ys.map Cell.ptr) tail d .null
  rw [length_map] at hshift
  rw [hset, hcount, hshift, bind_some]
  simp only [length_append, length_map, append_assoc] at hlast
  have herase : (pre ++ x :: ys).eraseIdx pre.length = pre ++ ys := by
    simp [eraseIdx_append_of_length_le]
  have hlen : (pre ++ x :: ys).length - 1 = pre.length + ys.length := by simp
  rw [hlen, hlast, herase, map_append, append_assoc]

theorem shiftUp_of_length_le {j : Nat} (h : a.length ≤ j) (n count : Nat) :
    shiftUp a n j (count + 1) = none := by
  rw [shiftUp]
  cases a[j - n]? with
  | none => rfl
  | some c => simp [write, Nat.not_lt.mpr h]

theorem shiftUp_zero {j : Nat} (h : j < a.length) (count : Nat) : shiftUp a 0 j count = some a := by
  induction count generalizing j with
  | zero => rfl
  | succ count ih =>
    have hget : a[j - 0]? = some (a.get ⟨j, h⟩) := getElem?_eq_getElem h
    rw [shiftUp, hget]
    simp only [bind_eq_bind, bind_some, write, if_pos h, get_eq_getElem, set_getElem_self]
    exact ih (by omega)

theorem shiftUp_append (pre ys gap tail : List (Cell α)) (hn : 0 < n) (hgap : gap.length = n) :
    ∃ front, front.length = n ∧
      shiftUp (pre ++ (ys ++ (gap ++ tail))) n (pre.length + ys.length + n - 1) ys.length
        = some (pre ++ (front ++ (ys ++ tail))) := by
  induction ys using reverseRecOn generalizing gap tail with
  | nil => exact ⟨gap, hgap, rfl⟩
  | append_singleton ys y ih =>
    -- the last cell of the gap is overwritten by `y`, and the gap is one place further down then
    obtain ⟨gap, c, rfl⟩ : ∃ gap' c, gap = gap' ++ [c] := by
      refine ⟨gap.dropLast, gap.getLast ?_, (dropLast_append_getLast _).symm⟩
      rintro rfl
      exact Nat.ne_of_lt hn hgap
    rw [length_append, length_singleton] at hgap
    obtain ⟨front, hfront, hrest⟩ := ih (y :: gap) (y :: tail) (by simpa using hgap)
    refine ⟨front, hfront, ?_⟩
    have htop : pre.length + (ys.length + 1) + n - 1 = (pre ++ (ys ++ [y] ++ gap)).length := by
      simp only [length_append, length_singleton]
      omega
    have hread :
      (pre ++ (ys ++ [y] ++ (gap ++ [c] ++ tail)))[(pre ++ (ys ++ [y] ++ gap)).length - n]?
        = some y := by
      have hindex : (pre ++ (ys ++ [y] ++ gap)).length - n = (pre ++ ys).length := by
        simp only [length_append, length_singleton]
        omega
      rw [hindex]
      simp
    have hwrite := write_append_cons (pre ++ (ys ++ [y] ++ gap)) tail c y
    simp only [append_assoc, cons_append, nil_append] at htop hread hwrite hrest ⊢
    rw [length_append, length_singleton, shiftUp, htop, hread]
    simp only [bind_eq_bind, bind_some, hwrite]
    have hnext : (pre ++ (ys ++ y :: gap)).length - 1 = pre.length + ys.length + n - 1 := by
      simp only [length_append, length_cons]
      omega
    rw [hnext, hrest]

end Cells
