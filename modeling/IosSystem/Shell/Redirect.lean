import IosSystem.Shell.Dispatch

/-!
# The search for redirections

What `ios_system` does with a command that has no operator left: it looks for `<`, `&>`, `2>&1`,
`2>`, `>` and `>>`. Pointers are positions here. The source looks for `&|`, `|&` and `|` once more
before that, and finds nothing (`no_pipe_left`).
-/

namespace IosSystem.Shell

open Scan

/-- `strstrquoted` from the position `k` on. -/
def strstrAt (command : CStr) (k : Nat) (str2 : CStr) : Option Nat :=
  (strstrquoted (command.drop k) str2).map (k + ·)

/-- The first position from `k` on that is no blank. -/
def skipSpaces (command : CStr) (k : Nat) : Nat :=
  k + ((command.drop k).takeWhile (· = ' ')).length

/-- A `<=` or `>=` behind ` -- ` is no redirection. -/
def afterDoubleDash (command : CStr) (marker : Nat) : Bool :=
  match strstrquoted command [' ', '-', '-', ' '] with
  | none => false
  | some doubleDash => doubleDash ≤ marker

/-- The file behind `<`. -/
def inputFileName (command : CStr) : Option Nat :=
  match strstrquoted command ['<'] with
  | none => none
  | some marker =>
    if command[marker + 1]? = some '=' ∧ afterDoubleDash command marker then none
    else some (skipSpaces command (marker + 1))

inductive OutputMode where
  | write
  | append
  deriving DecidableEq

/-- `outputFileName` for the `>` at `marker`. -/
def outputFileName (command : CStr) (marker : Nat) : Option (Nat × OutputMode) :=
  if command[marker + 1]? = some '>' then some (skipSpaces command (marker + 2), .append)
  else if command[marker + 1]? = some '=' ∧ afterDoubleDash command marker then none
  else some (skipSpaces command (marker + 1), .write)

structure Redirections where
  input : Option Nat
  output : Option (Nat × OutputMode)
  error : Option Nat
  sharedErrorOutput : Bool
  deriving DecidableEq

/-- The `>` that belongs to a `2>&1` at `errorFileMarker` is no output file. -/
def outputBesideShared (command : CStr) (errorFileMarker : Nat) : Option (Nat × OutputMode) :=
  let marker :=
    match strstrquoted command ['>'] with
    | none => none
    | some m => if m = errorFileMarker + 1 then strstrAt command (m + 2) ['>'] else some m
  marker.map fun m => (skipSpaces command (m + 1), .write)

/-- `2>` was found as `>` too: the output file is behind it, if there is one. -/
def outputBehindError (command : CStr) (errorFileName : Nat) : Option (Nat × OutputMode) :=
  (strstrAt command errorFileName ['>']).map fun m =>
    if command[m + 1]? = some '>' then (skipSpaces command (m + 2), .append)
    else (skipSpaces command (m + 1), .write)

def recordSeparator : Char := Char.ofNat 0x1e

/-- The redirections that `ios_system` finds, in its order. -/
def redirections (command : CStr) : Redirections :=
  if recordSeparator ∈ command then ⟨none, none, none, false⟩
  else
    match strstrquoted command ['&', '>'] with
    | some m => ⟨inputFileName command, some (skipSpaces command (m + 2), .write), none, true⟩
    | none =>
      match strstrquoted command ['2', '>', '&', '1'] with
      | some m => ⟨inputFileName command, outputBesideShared command m, none, true⟩
      | none =>
        let error := (strstrquoted command ['2', '>']).map fun m => skipSpaces command (m + 2)
        let output := (strstrquoted command ['>']).bind (outputFileName command)
        let output :=
          match error, output with
          | some e, some (o, mode) =>
            if o = e then outputBehindError command e else some (o, mode)
          | _, output => output
        ⟨inputFileName command, output, error, false⟩

def Redirections.SameKind (r r' : Redirections) : Prop :=
  r.input.isSome = r'.input.isSome ∧ r.output.map Prod.snd = r'.output.map Prod.snd ∧
    r.error.isSome = r'.error.isSome ∧ r.sharedErrorOutput = r'.sharedErrorOutput

theorem Scan.over_quotes (pat pat' : CStr) {s s' : Scan} (hq : s.quotechar = s'.quotechar)
    (he : s.esclen = s'.esclen) (xs : CStr) :
    (s.over pat xs).quotechar = (s'.over pat' xs).quotechar ∧
      (s.over pat xs).esclen = (s'.over pat' xs).esclen := by
  induction xs generalizing s s' with
  | nil => exact ⟨hq, he⟩
  | cons c xs ih =>
    have hstep : (s.step pat c).quotechar = (s'.step pat' c).quotechar ∧
        (s.step pat c).esclen = (s'.step pat' c).esclen := by
      unfold step
      rw [← hq, ← he]
      cases s.quotechar with
      | none => dsimp only; split <;> exact ⟨rfl, rfl⟩
      | some q =>
        repeat' split
        all_goals exact ⟨by simp, by simp⟩
    exact ih hstep.1 hstep.2

theorem quoted_of_findFrom_none {c : Char} (hc : c ≠ '"' ∧ c ≠ '\'' ∧ c ≠ '\\') {s : Scan}
    (hs : s.matchlen = 0) {i : Nat} {xs ys : CStr} (h : findFrom [c] s i (xs ++ c :: ys) = none) :
    (s.over [c] xs).quotechar ≠ none := by
  induction xs generalizing s i with
  | nil =>
    intro hq
    obtain ⟨q, e, m⟩ := s
    obtain rfl : q = none := hq
    obtain rfl : m = 0 := hs
    rw [List.nil_append, findFrom, step_plain hc] at h
    simp at h
  | cons d xs ih =>
    rw [List.cons_append, findFrom] at h
    split at h
    · cases h
    · next hm =>
      refine ih ?_ h
      -- the pattern has one character, so the match is empty or complete
      have hcases : (s.step [c] d).matchlen = 0 ∨ (s.step [c] d).matchlen = 1 := by
        obtain ⟨q, e, m⟩ := s
        obtain rfl : m = 0 := hs
        cases q with
        | some q => exact .inl (step_quoted_matchlen ..)
        | none =>
          rcases step_unquoted [c] e 0 d with hzero | ⟨-, hone, -⟩
          · exact .inl hzero
          · exact .inr hone
      exact hcases.resolve_right hm

theorem Scan.over_plain (pat : CStr) {s : Scan} {xs : CStr} (hp : Plain xs)
    (hq : s.quotechar = none) : (s.over pat xs).quotechar = none := by
  induction xs generalizing s with
  | nil => exact hq
  | cons c xs ih =>
    obtain ⟨q, e, m⟩ := s
    obtain rfl : q = none := hq
    rw [over_cons, step_plain (hp c List.mem_cons_self)]
    exact ih (fun d hd => hp d (List.mem_cons_of_mem _ hd)) rfl

theorem strstrquoted_of_no_bar {command : CStr} (h : strstrquoted command ['|'] = none) {a b : CStr}
    (hp : Plain (a ++ '|' :: b)) : strstrquoted command (a ++ '|' :: b) = none := by
  have hbar : findFrom ['|'] start 0 command = none := by
    rw [← strstrquoted_eq_findFrom (by decide) (by decide), h]
  rw [strstrquoted_eq_findFrom hp (by simp)]
  cases hf : findFrom (a ++ '|' :: b) start 0 command with
  | none => rfl
  | some k =>
    obtain ⟨pre, post, e, rfl, _, hover, _⟩ := findFrom_split (by simp) rfl hf
    have hbar : findFrom ['|'] start 0 ((pre ++ a) ++ '|' :: (b ++ post)) = none := by
      simpa using hbar
    have hquoted := quoted_of_findFrom_none (by decide) rfl hbar
    refine absurd ?_ hquoted
    rw [over_append]
    have hpre := over_quotes ['|'] (a ++ '|' :: b) rfl rfl pre (s := start)
    rw [hover] at hpre
    exact over_plain _ (fun c hc => hp c (List.mem_append_left _ hc)) hpre.1

theorem no_pipe_left {command : CStr} (h : strstrquoted command ['|'] = none) :
    strstrquoted command ['&', '|'] = none ∧ strstrquoted command ['|', '&'] = none :=
  ⟨strstrquoted_of_no_bar (a := ['&']) (b := []) h (by decide),
    strstrquoted_of_no_bar (a := []) (b := ['&']) h (by decide)⟩

end IosSystem.Shell
