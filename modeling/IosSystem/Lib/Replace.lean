import Mathlib.Data.List.Basic
import Mathlib.Data.List.Infix

/-!
# Replacing all occurrences

`replaceAll pat new text` is `text` with each occurrence of `pat` replaced by `new`. The occurrences
are found from left to right, and do not overlap.
-/

namespace Replace

open List

variable {α : Type} [DecidableEq α]

/-- The search, with `skip` letters of the last occurrence still to pass. -/
def replaceFrom (pat new : List α) : (skip : Nat) → List α → List α
  | _, [] => []
  | skip + 1, _ :: rest => replaceFrom pat new skip rest
  | 0, c :: rest =>
    if pat.isPrefixOf (c :: rest) then new ++ replaceFrom pat new (pat.length - 1) rest
    else c :: replaceFrom pat new 0 rest

/-- Every occurrence from the left on is replaced. -/
def replaceAll (pat new text : List α) : List α := replaceFrom pat new 0 text

variable {pat new : List α}

theorem replaceFrom_append (pass rest : List α) :
    replaceFrom pat new pass.length (pass ++ rest) = replaceAll pat new rest := by
  induction pass with
  | nil => rfl
  | cons c pass ih => exact ih

theorem replaceAll_append (hpat : pat ≠ []) (rest : List α) :
    replaceAll pat new (pat ++ rest) = new ++ replaceAll pat new rest := by
  obtain ⟨c, pass, rfl⟩ := exists_cons_of_ne_nil hpat
  have hfound : (c :: pass).isPrefixOf (c :: (pass ++ rest)) = true :=
    isPrefixOf_iff_prefix.mpr ⟨rest, rfl⟩
  rw [cons_append, replaceAll, replaceFrom, if_pos hfound, length_cons,
    Nat.add_sub_cancel, replaceFrom_append]

theorem replaceAll_cons_of_not_found {c : α} {rest : List α} (h : ¬pat <+: c :: rest) :
    replaceAll pat new (c :: rest) = c :: replaceAll pat new rest := by
  rw [← isPrefixOf_iff_prefix] at h
  rw [replaceAll, replaceFrom, if_neg h]
  rfl

theorem replaceAll_append_of_notMem {p : α} {ps text : List α} (h : p ∉ text) (rest : List α) :
    replaceAll (p :: ps) new (text ++ rest) = text ++ replaceAll (p :: ps) new rest := by
  induction text with
  | nil => rfl
  | cons c text ih =>
    have hfirst : ¬p :: ps <+: c :: (text ++ rest) := fun hfound =>
      h ((cons_prefix_cons.mp hfound).1 ▸ mem_cons_self)
    rw [cons_append, replaceAll_cons_of_not_found hfirst,
      ih (not_mem_of_not_mem_cons h), cons_append]

end Replace
