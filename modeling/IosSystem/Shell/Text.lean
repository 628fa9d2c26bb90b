import Mathlib.Data.List.Induction

/-!
# Command text

C strings are lists of characters. `strstrquoted` of `ios_system.m` is the search that every part
of the shell layer uses: like `strstr`, but text in quotes is skipped. Two of its habits matter
later:

* `esclen` counts backslashes. Inside quotes any other character sets it back to 0, outside quotes
  only a quote character does.
* After a partial match the search starts again behind it (`matchlen = 0`), so that a `"$("` in
  `"$$("` is not found.

`scan` is the state behind a prefix, and a search over `xs ++ ys` that finds nothing in `xs` goes on
in `ys` from that state.
-/

namespace IosSystem.Shell

open List

abbrev CStr := List Char

/-- `strstr(haystack, needle) != NULL` -/
def contains : (haystack needle : CStr) → Bool
  | [], needle => needle.isEmpty
  | ch :: rest, needle => needle.isPrefixOf (ch :: rest) || contains rest needle

/-- How many backslashes stand at the end of the text. -/
def trailingBackslashes (arg : CStr) : Nat := (arg.reverse.takeWhile (· = '\\')).length

theorem trailingBackslashes_concat (arg : CStr) (c : Char) :
    trailingBackslashes (arg ++ [c]) = if c = '\\' then trailingBackslashes arg + 1 else 0 := by
  unfold trailingBackslashes
  by_cases hc : c = '\\' <;> simp [hc]

/-- The variables of the loop of `strstrquoted`. -/
structure Scan where
  quotechar : Option Char
  esclen : Nat
  matchlen : Nat
  deriving DecidableEq

def Scan.start : Scan := ⟨none, 0, 0⟩

/-- One iteration of the loop on the character `ch`. -/
def Scan.step (str2 : CStr) (s : Scan) (ch : Char) : Scan :=
  match s.quotechar with
  | some q =>
    if ch = '\\' then { s with esclen := s.esclen + 1 }
    else if ch = q then
      if s.esclen % 2 = 1 then { s with esclen := 0 } else { s with quotechar := none, esclen := 0 }
    else { s with esclen := 0 }
  | none =>
    if ch = '"' ∨ ch = '\'' then ⟨if s.esclen % 2 = 0 then some ch else none, 0, 0⟩
    else
      { quotechar := none
        esclen := if ch = '\\' then s.esclen + 1 else s.esclen
        matchlen := if str2[s.matchlen]? = some ch then s.matchlen + 1 else 0 }

/-- The loop from position `i` on; the result is the position where the match starts. -/
def findFrom (str2 : CStr) (s : Scan) (i : Nat) : CStr → Option Nat
  | [] => none
  | ch :: rest =>
    if (s.step str2 ch).matchlen = str2.length then some (i + 1 - str2.length)
    else findFrom str2 (s.step str2 ch) (i + 1) rest

/-- `strstrquoted`, with the position of the result instead of a pointer. -/
def strstrquoted (str1 str2 : CStr) : Option Nat :=
  if str1.length < str2.length then none
  else if str1 = str2 then some 0
  else findFrom str2 Scan.start 0 str1

def Scan.over (str2 : CStr) (s : Scan) (xs : CStr) : Scan := xs.foldl (Scan.step str2) s

section

variable (str2 : CStr) (s : Scan)

@[simp] theorem Scan.over_nil : s.over str2 [] = s := rfl

@[simp] theorem Scan.over_cons (ch : Char) (xs : CStr) :
    s.over str2 (ch :: xs) = (s.step str2 ch).over str2 xs := rfl

theorem Scan.over_append (xs ys : CStr) : s.over str2 (xs ++ ys) = (s.over str2 xs).over str2 ys :=
  foldl_append

end

variable {str2 : CStr} {s : Scan} {i : Nat}

open Scan

theorem findFrom_append {xs : CStr} (h : findFrom str2 s i xs = none) (ys : CStr) :
    findFrom str2 s i (xs ++ ys) = findFrom str2 (s.over str2 xs) (i + xs.length) ys := by
  induction xs generalizing s i with
  | nil => rfl
  | cons ch xs ih =>
    rw [findFrom] at h
    split at h
    · cases h
    next hne =>
      rw [cons_append, findFrom, if_neg hne, ih h, over_cons, length_cons]
      congr 1
      omega

theorem findFrom_eq_none_of_append {xs ys : CStr}
    (h : findFrom str2 s i (xs ++ ys) = none) : findFrom str2 s i xs = none := by
  induction xs generalizing s i with
  | nil => rfl
  | cons ch xs ih =>
    rw [cons_append, findFrom] at h
    rw [findFrom]
    split at h
    · cases h
    next hne => rw [if_neg hne]; exact ih h

theorem findFrom_eq_some {k : Nat} {str1 : CStr} (h : findFrom str2 s i str1 = some k) :
    ∃ xs ch ys, str1 = xs ++ ch :: ys ∧ findFrom str2 s i xs = none ∧
      ((s.over str2 xs).step str2 ch).matchlen = str2.length ∧
      k = i + xs.length + 1 - str2.length := by
  induction str1 generalizing s i with
  | nil => cases h
  | cons ch str1 ih =>
    rw [findFrom] at h
    split at h
    next hm =>
      cases h
      exact ⟨[], ch, str1, rfl, rfl, hm, by simp⟩
    next hne =>
      obtain ⟨xs, c, ys, rfl, hnone, hm, rfl⟩ := ih h
      refine ⟨ch :: xs, c, ys, rfl, ?_, hm, ?_⟩
      · rw [findFrom, if_neg hne, hnone]
      · rw [length_cons]
        omega

/-- A pattern without quotes and backslashes. -/
def Plain (str2 : CStr) : Prop := ∀ c ∈ str2, c ≠ '"' ∧ c ≠ '\'' ∧ c ≠ '\\'

instance (str2 : CStr) : Decidable (Plain str2) := decidableBAll _ str2

theorem Scan.step_plain {e m : Nat} {ch : Char} (hc : ch ≠ '"' ∧ ch ≠ '\'' ∧ ch ≠ '\\') :
    (Scan.mk none e m).step str2 ch
      = ⟨none, e, if str2[m]? = some ch then m + 1 else 0⟩ := by
  simp [step, hc.1, hc.2.1, hc.2.2]

@[simp] theorem Scan.step_quoted_matchlen (str2 : CStr) (q : Char) (e m : Nat) (ch : Char) :
    ((Scan.mk (some q) e m).step str2 ch).matchlen = m := by
  simp only [step]
  split
  · rfl
  · split
    · split <;> rfl
    · rfl

theorem Scan.step_unquoted (str2 : CStr) (e m : Nat) (ch : Char) :
    ((Scan.mk none e m).step str2 ch).matchlen = 0 ∨
    (str2[m]? = some ch ∧ ((Scan.mk none e m).step str2 ch).matchlen = m + 1 ∧
      ((Scan.mk none e m).step str2 ch).quotechar = none) := by
  simp only [step]
  split
  · exact .inl rfl
  · by_cases hc : str2[m]? = some ch
    · simp [hc]
    · simp [hc]

theorem Scan.over_matchlen (str2 : CStr) (hs : s.matchlen = 0) (xs : CStr) :
    (s.over str2 xs).matchlen = 0 ∨
    ∃ ys, xs = ys ++ str2.take (s.over str2 xs).matchlen ∧ (s.over str2 ys).matchlen = 0 ∧
      (s.over str2 ys).quotechar = none ∧ (s.over str2 xs).quotechar = none := by
  induction xs using reverseRecOn with
  | nil => exact .inl hs
  | append_singleton xs c ih =>
    rw [over_append]
    generalize hσ : s.over str2 xs = σ at ih
    obtain ⟨quote, e, m⟩ := σ
    simp only [over_cons, over_nil]
    cases quote with
    | some q =>
      rcases ih with h | ⟨_, _, _, _, h⟩
      · exact .inl ((step_quoted_matchlen ..).trans h)
      · cases h
    | none =>
      rcases step_unquoted str2 e m c with h0 | ⟨hc, hm, hq⟩
      · exact .inl h0
      · have htake : str2.take (m + 1) = str2.take m ++ [c] := by
          rw [take_add_one, hc]
          rfl
        right
        rw [hm, htake]
        rcases ih with h | ⟨ys, hxs, h0, hq', _⟩
        · subst h
          exact ⟨xs, rfl, by rw [hσ], by rw [hσ], hq⟩
        · exact ⟨ys, by rw [← append_assoc, ← hxs], h0, hq', hq⟩

/-- A hit, with the text before it and behind it. -/
theorem findFrom_split (hne : str2 ≠ []) (hs : s.matchlen = 0)
    {k : Nat} {str1 : CStr} (h : findFrom str2 s i str1 = some k) :
    ∃ pre post e, str1 = pre ++ str2 ++ post ∧ k = i + pre.length ∧
      s.over str2 pre = ⟨none, e, 0⟩ ∧ findFrom str2 s i pre = none := by
  obtain ⟨xs, c, post, rfl, hnone, hm, rfl⟩ := findFrom_eq_some h
  have hpos := length_pos_iff.mpr hne
  -- the last character was matched
  have hlast : (s.over str2 xs).quotechar = none ∧
      str2[(s.over str2 xs).matchlen]? = some c ∧
      (s.over str2 xs).matchlen + 1 = str2.length := by
    have hinv := over_matchlen str2 hs xs
    generalize s.over str2 xs = σ at hm hinv
    obtain ⟨quote, e, m⟩ := σ
    cases quote with
    | some q =>
      rw [step_quoted_matchlen] at hm
      rcases hinv with h | ⟨_, _, _, _, h⟩
      · have h : m = 0 := h
        omega
      · cases h
    | none =>
      rcases step_unquoted str2 e m c with h0 | ⟨hc, hm', _⟩
      · omega
      · exact ⟨rfl, hc, by rw [← hm, hm']⟩
  obtain ⟨hquote, hc, hlen⟩ := hlast
  have hstr2 : str2 = str2.take (s.over str2 xs).matchlen ++ [c] := by
    conv_lhs => rw [← take_length (l := str2), ← hlen, take_add_one, hc]
    rfl
  have happend : ∀ ys, xs = ys ++ str2.take (s.over str2 xs).matchlen →
      xs ++ c :: post = ys ++ str2 ++ post := by
    intro ys hxs
    conv_rhs => rw [hstr2, ← append_assoc, ← hxs]
    simp
  have hlength : ∀ ys, xs = ys ++ str2.take (s.over str2 xs).matchlen →
      i + xs.length + 1 - str2.length = i + ys.length := by
    intro ys hxs
    have := congrArg length hxs
    rw [length_append, length_take] at this
    omega
  rcases over_matchlen str2 hs xs with h0 | ⟨ys, hxs, h0, hq, _⟩
  · have hxs : xs = xs ++ str2.take (s.over str2 xs).matchlen := by rw [h0]; simp
    exact ⟨xs, post, (s.over str2 xs).esclen, happend xs hxs, hlength xs hxs,
      by rw [← h0, ← hquote], hnone⟩
  · refine ⟨ys, post, (s.over str2 ys).esclen, happend ys hxs, hlength ys hxs, ?_, ?_⟩
    · rw [← h0, ← hq]
    · rw [hxs] at hnone
      exact findFrom_eq_none_of_append hnone

theorem findFrom_rest (hp : Plain str2) (e i : Nat) (post : CStr) :
    ∀ pre rest, str2 = pre ++ rest → rest ≠ [] →
      findFrom str2 ⟨none, e, pre.length⟩ (i + pre.length) (rest ++ post) = some i := by
  intro pre rest
  induction rest generalizing pre with
  | nil => intro _ h; exact absurd rfl h
  | cons c rest ih =>
    intro hsplit _
    have hc : c ∈ str2 := by rw [hsplit]; simp
    have hget : str2[pre.length]? = some c := by rw [hsplit]; simp
    have hlen : str2.length = pre.length + 1 + rest.length := by
      rw [hsplit, length_append, length_cons]
      omega
    rw [cons_append, findFrom, step_plain (hp c hc), if_pos hget]
    cases rest with
    | nil =>
      rw [length_nil] at hlen
      rw [if_pos (by simp only; omega)]
      congr 1
      omega
    | cons c' rest' =>
      rw [if_neg (by simp only [length_cons] at hlen ⊢; omega)]
      have := ih (pre ++ [c]) (by simp [hsplit]) (cons_ne_nil _ _)
      rw [length_append, length_singleton] at this
      rw [← this]
      rfl

theorem findFrom_found (hp : Plain str2) (hne : str2 ≠ []) {e : Nat}
    {pre : CStr} (hnone : findFrom str2 s i pre = none) (hs : s.over str2 pre = ⟨none, e, 0⟩)
    (post : CStr) : findFrom str2 s i (pre ++ str2 ++ post) = some (i + pre.length) := by
  rw [append_assoc, findFrom_append hnone, hs]
  exact findFrom_rest hp e (i + pre.length) post [] str2 rfl hne

theorem strstrquoted_eq_findFrom (hp : Plain str2) (hne : str2 ≠ []) (str1 : CStr) :
    strstrquoted str1 str2 = findFrom str2 Scan.start 0 str1 := by
  unfold strstrquoted
  split
  next hlt =>
    cases h : findFrom str2 start 0 str1 with
    | none => rfl
    | some k =>
      obtain ⟨pre, post, _, rfl, _⟩ := findFrom_split hne rfl h
      simp only [length_append] at hlt
      omega
  next =>
    split
    next heq =>
      subst heq
      have hnone : findFrom str1 start 0 [] = none := rfl
      have := findFrom_found hp hne hnone rfl []
      simpa using this.symm
    next => rfl

end IosSystem.Shell
