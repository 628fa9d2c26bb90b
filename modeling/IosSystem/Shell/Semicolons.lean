import IosSystem.Shell.Dispatch
import Mathlib.Data.List.DropRight

/-!
# `parse_semicolons`

The first pass counts the semicolons, and the second one cuts another copy of the text at them. Each
search starts afresh behind the semicolon that has been found.
-/

namespace IosSystem.Shell

open List

def countLoop : Nat → CStr → Nat → Nat
  | 0, _, maxSegments => maxSegments
  | fuel + 1, ptr, maxSegments =>
    match strstrquoted ptr [';'] with
    | none => maxSegments
    | some i => countLoop fuel (ptr.drop (i + 1)) (maxSegments + 1)

/-- The number of segments that there is room for. -/
def maxSegments (input : CStr) : Nat := countLoop (input.length + 1) input 1

/-- The positions that successive searches find, from `start` on. -/
def positions : Nat → CStr → Nat → List Nat
  | 0, _, _ => []
  | fuel + 1, input, start =>
    match strstrquoted (input.drop start) [';'] with
    | none => []
    | some i => (start + i) :: positions fuel input (start + i + 1)

def between (input : CStr) : Nat → List Nat → List CStr
  | start, [] => [input.drop start]
  | start, p :: ps => (input.drop start).take (p - start) :: between input (p + 1) ps

def segments (input : CStr) (start : Nat) (ps : List Nat) : List CStr :=
  ((between input start ps).map trimWhitespace).filter (· ≠ [])

variable {input text : CStr} {i : Nat}

theorem filter_keep (segment : CStr) (rest : List CStr) :
    (trimWhitespace segment :: rest).filter (· ≠ []) = keep segment ++ rest.filter (· ≠ []) := by
  unfold keep
  split
  · next h => rw [h]; rfl
  · next h => rw [filter_cons_of_pos (by simpa using h)]; rfl

theorem length_keep_le (segment : CStr) : (keep segment).length ≤ 1 := by
  unfold keep
  split <;> simp

theorem strstrquoted_lt (h : strstrquoted text [';'] = some i) : i < text.length := by
  rw [strstrquoted_eq_findFrom (by decide) (by decide)] at h
  obtain ⟨pre, post, e, rfl, rfl, -⟩ := findFrom_split (by decide) rfl h
  simp

theorem semicolonLoop_eq {fuel start : Nat} (h : (input.drop start).length < fuel) (n : Nat) :
    semicolonLoop fuel (input.drop start) = segments input start (positions fuel input start) ∧
      (segments input start (positions fuel input start)).length + n
        ≤ countLoop fuel (input.drop start) (n + 1) := by
  induction fuel generalizing start n with
  | zero => cases h
  | succ fuel ih =>
    rw [semicolonLoop, positions, countLoop]
    cases hi : strstrquoted (input.drop start) [';'] with
    | none =>
      have hlast : segments input start [] = keep (input.drop start) := by
        rw [segments, between, map_singleton, filter_keep]
        exact append_nil _
      have hkeep := length_keep_le (input.drop start)
      refine ⟨hlast.symm, ?_⟩
      rw [hlast]
      dsimp only
      omega
    | some i =>
      dsimp only
      have hlt := strstrquoted_lt hi
      rw [length_drop] at h hlt
      have hrest : (input.drop start).drop (i + 1) = input.drop (start + i + 1) := by
        rw [drop_drop, Nat.add_assoc]
      have hlen : (input.drop (start + i + 1)).length < fuel := by
        rw [length_drop]
        omega
      obtain ⟨hloop, hcount⟩ := ih hlen (n + 1)
      have hcons : segments input start ((start + i) :: positions fuel input (start + i + 1))
          = keep ((input.drop start).take i)
            ++ segments input (start + i + 1) (positions fuel input (start + i + 1)) := by
        rw [segments, between, map_cons, filter_keep, Nat.add_sub_cancel_left]
        rfl
      refine ⟨by rw [hcons, hrest, hloop], ?_⟩
      have hkeep := length_keep_le ((input.drop start).take i)
      rw [hcons, hrest, length_append]
      omega

theorem over_blanks {blanks : CStr} (h : ∀ c ∈ blanks, isBlank c = true) :
    Scan.start.over [';'] blanks = Scan.start := by
  induction blanks with
  | nil => rfl
  | cons c blanks ih =>
    have hc : c = ' ' ∨ c = '\t' := of_decide_eq_true (h c mem_cons_self)
    have hstep : Scan.start.step [';'] c = Scan.start := by rcases hc with rfl | rfl <;> rfl
    rw [Scan.over_cons, hstep]
    exact ih fun d hd => h d (mem_cons_of_mem c hd)

theorem findFrom_trimWhitespace (h : findFrom [';'] Scan.start 0 text = none) :
    findFrom [';'] Scan.start 0 (trimWhitespace text) = none := by
  have hfront : ∀ c ∈ text.takeWhile isBlank, isBlank c = true := fun c hc => mem_takeWhile_imp hc
  rw [← takeWhile_append_dropWhile (p := isBlank) (l := text)] at h
  have hnone := findFrom_eq_none_of_append h
  rw [findFrom_append hnone, over_blanks hfront] at h
  obtain ⟨behind, hbehind⟩ := rdropWhile_prefix isBlank (text.dropWhile isBlank)
  rw [← hbehind] at h
  exact findFrom_none_index (findFrom_eq_none_of_append h) 0

theorem trimWhitespace_trimWhitespace (text : CStr) :
    trimWhitespace (trimWhitespace text) = trimWhitespace text := by
  have hfront : (trimWhitespace text).dropWhile isBlank = trimWhitespace text := by
    rw [dropWhile_eq_self_iff]
    intro hpos
    have hpre : trimWhitespace text <+: text.dropWhile isBlank := rdropWhile_prefix isBlank _
    rw [hpre.getElem hpos]
    exact dropWhile_get_zero_not isBlank text (hpos.trans_le hpre.length_le)
  exact (congrArg (rdropWhile isBlank) hfront).trans (rdropWhile_idempotent isBlank _)

theorem parseSemicolons_silent (hne : trimWhitespace text ≠ [])
    (h : findFrom [';'] Scan.start 0 text = none) :
    parseSemicolons (trimWhitespace text) = [trimWhitespace text] := by
  have hsearch : strstrquoted (trimWhitespace text) [';'] = none := by
    rw [strstrquoted_eq_findFrom (by decide) (by decide)]
    exact findFrom_trimWhitespace h
  rw [parseSemicolons, semicolonLoop, hsearch]
  show keep (trimWhitespace text) = _
  rw [keep, trimWhitespace_trimWhitespace, if_neg hne]

theorem parseSemicolons_of_mem {s : CStr} {fuel : Nat} (h : s ∈ semicolonLoop fuel text) :
    parseSemicolons s = [s] := by
  have hkeep : ∀ {piece}, findFrom [';'] Scan.start 0 piece = none → s ∈ keep piece →
      parseSemicolons s = [s] := by
    intro piece hsilent hs
    rw [keep] at hs
    split at hs
    · cases hs
    · next hne =>
      rw [mem_singleton.mp hs]
      exact parseSemicolons_silent hne hsilent
  induction fuel generalizing text with
  | zero => cases h
  | succ fuel ih =>
    rw [semicolonLoop, strstrquoted_eq_findFrom (by decide) (by decide)] at h
    split at h
    · next hnone => exact hkeep hnone h
    · next i hi =>
      obtain ⟨pre, post, e, rfl, rfl, -, hsilent⟩ := findFrom_split (by decide) rfl hi
      rcases mem_append.mp h with h | h
      · rw [append_assoc, Nat.zero_add, take_left] at h
        exact hkeep hsilent h
      · exact ih h

/--
At most as many segments are stored as there are entries, they are the trimmed pieces between the
semicolons, and each of them is parsed to itself.
-/
theorem parseSemicolons_exact (input : CStr) :
    (parseSemicolons input).length ≤ maxSegments input ∧
      parseSemicolons input = segments input 0 (positions (input.length + 1) input 0) ∧
      ∀ s ∈ parseSemicolons input, parseSemicolons s = [s] := by
  have hlen : (input.drop 0).length < input.length + 1 := Nat.lt_succ_self _
  obtain ⟨hloop, hcount⟩ := semicolonLoop_eq hlen 0
  refine ⟨?_, hloop, fun s hs => parseSemicolons_of_mem hs⟩
  rw [parseSemicolons]
  exact (congrArg length hloop).trans_le hcount

end IosSystem.Shell
