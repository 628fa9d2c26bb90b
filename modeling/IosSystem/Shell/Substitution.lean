import IosSystem.Shell.Text

/-!
# Command substitution

`ios_expand_substitutions` of `ios_shell_parser.m`. `capture_command_output` is a function `f` from
commands to outputs; the model also returns the commands that were given to it, in order.

After each `$(...)` the new text is searched from its start, and so the output of a command is
searched as if it had been typed. `Expands` says what is meant instead: the substitutions are those
of the input, and what `f` returned is inert. A loop that need not end has a fuel argument.
-/

namespace IosSystem.Shell

open List Function Scan

/-! ## The searches -/

/-- `in_single_quote` and `in_double_quote` -/
structure Quotes where
  single : Bool
  double : Bool
  deriving DecidableEq

def Quotes.start : Quotes := ⟨false, false⟩

/-- The variables behind a quote character that counts; `none` for any other character. -/
def Quotes.toggle (q : Quotes) (ch : Char) : Option Quotes :=
  if !q.single ∧ ch = '"' then some { q with double := !q.double }
  else if !q.double ∧ ch = '\'' then some { q with single := !q.single }
  else none

def matchParen (depth : Nat) (q : Quotes) : CStr → Option Nat
  | [] => none
  | ch :: rest =>
    match q.toggle ch with
    | some q' => (matchParen depth q' rest).map (· + 1)
    | none =>
      if q = Quotes.start ∧ ch = '(' then (matchParen (depth + 1) q rest).map (· + 1)
      else if q = Quotes.start ∧ ch = ')' then
        if depth = 1 then some 0 else (matchParen (depth - 1) q rest).map (· + 1)
      else (matchParen depth q rest).map (· + 1)

/-- `find_matching_paren` -/
def findMatchingParen (start : CStr) : Option Nat := matchParen 1 Quotes.start start

def backtickFrom (q : Quotes) : CStr → Option Nat
  | [] => none
  | ch :: rest =>
    match q.toggle ch with
    | some q' => (backtickFrom q' rest).map (· + 1)
    | none =>
      if q = Quotes.start ∧ ch = '`' then some 0 else (backtickFrom q rest).map (· + 1)

/-- `find_backtick` -/
def findBacktick (start : CStr) : Option Nat := backtickFrom Quotes.start start

/-! ## `ios_expand_substitutions` -/

def dollarParen : CStr := ['$', '(']

theorem plain_dollarParen : Plain dollarParen := by decide

/-- The loop of `ios_expand_substitutions` over backticks. -/
def backtickLoop (f : CStr → CStr) : Nat → CStr → Option (List CStr × CStr)
  | 0, _ => none
  | fuel + 1, result =>
    match findBacktick result with
    | none => some ([], result)
    | some i =>
      match findBacktick (result.drop (i + 1)) with
      | none => some ([], result)
      | some j =>
        let inner := (result.drop (i + 1)).take j
        match backtickLoop f fuel (result.take i ++ f inner ++ result.drop (i + 1 + j + 1)) with
        | none => none
        | some (log, result') => some (inner :: log, result')

mutual

/-- `ios_expand_substitutions`: the commands that were run, and the new text. -/
def expandSubstitutions (f : CStr → CStr) : Nat → CStr → Option (List CStr × CStr)
  | 0, _ => none
  | fuel + 1, input =>
    if contains input dollarParen = false ∧ '`' ∉ input then some ([], input)
    else
      match dollarLoop f fuel input with
      | none => none
      | some (log, result) =>
        match backtickLoop f fuel result with
        | none => none
        | some (log', result') => some (log ++ log', result')

/-- The loop over `$(`, which comes before that one. -/
def dollarLoop (f : CStr → CStr) : Nat → CStr → Option (List CStr × CStr)
  | 0, _ => none
  | fuel + 1, result =>
    if contains result dollarParen = false then some ([], result)
    else
      match strstrquoted result dollarParen with
      | none => some ([], result)
      | some i =>
        match findMatchingParen (result.drop (i + 2)) with
        | none => some ([], result)
        | some j =>
          match expandSubstitutions f fuel ((result.drop (i + 2)).take j) with
          | none => none
          | some (log, inner) =>
            match dollarLoop f fuel (result.take i ++ f inner ++ result.drop (i + 2 + j + 1)) with
            | none => none
            | some (log', result') => some (log ++ inner :: log', result')

end

/-! ## What the expansion is meant to be -/

/-- A text in which the output of commands is marked. -/
abbrev Marked := List (Char × Bool)

def typed (xs : CStr) : Marked := xs.map (·, false)

def printed (xs : CStr) : Marked := xs.map (·, true)

def Marked.text (t : Marked) : CStr := t.map Prod.fst

/-- `find_backtick` that passes over what a command printed. -/
def Marked.backtickFrom (q : Quotes) : Marked → Option Nat
  | [] => none
  | (ch, mark) :: rest =>
    if mark then (Marked.backtickFrom q rest).map (· + 1)
    else
      match q.toggle ch with
      | some q' => (Marked.backtickFrom q' rest).map (· + 1)
      | none =>
        if q = Quotes.start ∧ ch = '`' then some 0 else (Marked.backtickFrom q rest).map (· + 1)

def Marked.findBacktick (t : Marked) : Option Nat := t.backtickFrom Quotes.start

/-- The state of `strstrquoted` outside quotes behind `esclen` backslashes. -/
def unquoted (esclen : Nat) : Scan := ⟨none, esclen, 0⟩

inductive ExpandsBackticks (f : CStr → CStr) : Marked → List CStr → Marked → Prop
  | stop {t : Marked} :
      (∀ i, t.findBacktick = some i → Marked.findBacktick (t.drop (i + 1)) = none) →
      ExpandsBackticks f t [] t
  | subst {t out : Marked} {i j : Nat} {log : List CStr} :
      t.findBacktick = some i →
      Marked.findBacktick (t.drop (i + 1)) = some j →
      ExpandsBackticks f (t.take i ++ printed (f (Marked.text ((t.drop (i + 1)).take j)))
        ++ t.drop (i + 1 + j + 1)) log out →
      ExpandsBackticks f t (Marked.text ((t.drop (i + 1)).take j) :: log) out

mutual

/-- `$(...)` first, then backticks. -/
inductive Expands (f : CStr → CStr) : CStr → List CStr → CStr → Prop
  | intro {input : CStr} {log log' : List CStr} {t out : Marked} :
      ExpandsDollars f 0 input log t → ExpandsBackticks f t log' out →
      Expands f input (log ++ log') out.text

/-- The `$(...)` of a text that starts outside quotes behind `esclen` backslashes. -/
inductive ExpandsDollars (f : CStr → CStr) : Nat → CStr → List CStr → Marked → Prop
  | stop {e : Nat} {text : CStr} :
      (∀ i, findFrom dollarParen (unquoted e) 0 text = some i →
        findMatchingParen (text.drop (i + 2)) = none) →
      ExpandsDollars f e text [] (typed text)
  | subst {e i j : Nat} {text inner : CStr} {log log' : List CStr} {t : Marked} :
      findFrom dollarParen (unquoted e) 0 text = some i →
      findMatchingParen (text.drop (i + 2)) = some j →
      Expands f ((text.drop (i + 2)).take j) log inner →
      ExpandsDollars f ((unquoted e).over dollarParen (text.take i)).esclen
        (text.drop (i + 2 + j + 1)) log' t →
      ExpandsDollars f e text (log ++ inner :: log') (typed (text.take i) ++ printed (f inner) ++ t)

end

/-- Only commands that were typed are run. -/
def RunsTyped (f : CStr → CStr) (input : CStr) : Prop :=
  ∃ fuel log result, expandSubstitutions f fuel input = some (log, result) ∧
    Expands f input log result

/-- The input has a substitution that `ios_expand_substitutions` runs. -/
def HasSubst (input : CStr) : Prop :=
  (∃ i j, strstrquoted input dollarParen = some i ∧
    findMatchingParen (input.drop (i + 2)) = some j) ∨
  (∃ i j, findBacktick input = some i ∧ findBacktick (input.drop (i + 1)) = some j)

/-! ## Outputs that are substitutions -/

theorem contains_append (pre needle post : CStr) : contains (pre ++ needle ++ post) needle := by
  induction pre with
  | nil =>
    cases needle with
    | nil => cases post <;> simp [contains]
    | cons c needle => simp [contains]
  | cons c pre ih =>
    rw [cons_append, cons_append, contains, ih, Bool.or_true]

variable {result input text : CStr} {i fuel : Nat} {f : CStr → CStr} {r : List CStr × CStr}

theorem contains_of_strstrquoted
    (h : strstrquoted result dollarParen = some i) : contains result dollarParen = true := by
  rw [strstrquoted_eq_findFrom plain_dollarParen (by decide)] at h
  obtain ⟨pre, post, _, rfl, _⟩ := findFrom_split (by decide) rfl h
  exact contains_append ..

def printsDollar : CStr → CStr := fun _ => ['$', '(', 'x', ')']

theorem dollarLoop_printsDollar {pre : CStr} {e : Nat}
    (hpre : findFrom dollarParen Scan.start 0 pre = none)
    (hstate : Scan.start.over dollarParen pre = unquoted e) (post : CStr) (fuel : Nat) :
    dollarLoop printsDollar fuel (pre ++ ['$', '(', 'x', ')'] ++ post) = none := by
  induction fuel with
  | zero => rfl
  | succ fuel ih =>
    have hfound : strstrquoted (pre ++ ['$', '(', 'x', ')'] ++ post) dollarParen
        = some pre.length := by
      rw [strstrquoted_eq_findFrom plain_dollarParen (by decide)]
      have := findFrom_found plain_dollarParen (by decide) hpre hstate (['x', ')'] ++ post)
      simpa [dollarParen] using this
    have hdrop : (pre ++ ['$', '(', 'x', ')'] ++ post).drop (pre.length + 2)
        = ['x', ')'] ++ post := by
      simp
    have htake : (pre ++ ['$', '(', 'x', ')'] ++ post).take pre.length = pre := by
      rw [append_assoc, take_left]
    have hrest : (pre ++ ['$', '(', 'x', ')'] ++ post).drop (pre.length + 2 + 1 + 1) = post := by
      rw [drop_left']
      simp
    rw [dollarLoop, contains_of_strstrquoted hfound, hfound]
    simp only [Bool.true_eq_false, if_false, hdrop]
    have hparen : findMatchingParen (['x', ')'] ++ post) = some 1 := rfl
    rw [hparen]
    simp only [htake, hrest]
    cases hx : expandSubstitutions printsDollar fuel ((['x', ')'] ++ post).take 1) with
    | none => rfl
    | some r => simp only [printsDollar, ih]

theorem expand_printsDollar {j : Nat} (hi : strstrquoted input dollarParen = some i)
    (hj : findMatchingParen (input.drop (i + 2)) = some j) (fuel : Nat) :
    expandSubstitutions printsDollar fuel input = none := by
  have hloop : ∀ fuel, dollarLoop printsDollar fuel input = none := by
    intro fuel
    cases fuel with
    | zero => rfl
    | succ fuel =>
      rw [dollarLoop, contains_of_strstrquoted hi, hi]
      simp only [Bool.true_eq_false, if_false, hj]
      cases expandSubstitutions printsDollar fuel ((input.drop (i + 2)).take j) with
      | none => rfl
      | some r =>
        rw [strstrquoted_eq_findFrom plain_dollarParen (by decide)] at hi
        obtain ⟨pre, post, e, rfl, hpre, hstate, hnone⟩ := findFrom_split (by decide) rfl hi
        have htake : (pre ++ dollarParen ++ post).take i = pre := by
          rw [hpre, append_assoc, Nat.zero_add, take_left]
        simp only [htake]
        have := dollarLoop_printsDollar hnone hstate
        simp only [printsDollar]
        rw [this]
  cases fuel with
  | zero => rfl
  | succ fuel =>
    rw [expandSubstitutions, contains_of_strstrquoted hi, hloop]
    simp

def printsBacktick : CStr → CStr := fun _ => ['`', 'x', '`']

theorem backtickFrom_getElem {q : Quotes}
    (h : backtickFrom q result = some i) : result[i]? = some '`' := by
  induction result generalizing q i with
  | nil => cases h
  | cons ch rest ih =>
    rw [backtickFrom] at h
    split at h
    · obtain ⟨k, hk, rfl⟩ := Option.map_eq_some_iff.mp h
      exact ih hk
    · split at h
      next hb =>
        cases h
        rw [hb.2]
        rfl
      next =>
        obtain ⟨k, hk, rfl⟩ := Option.map_eq_some_iff.mp h
        exact ih hk

theorem backtickFrom_prefix {q : Quotes} (h : backtickFrom q result = some i) (post : CStr) :
    backtickFrom q (result.take i ++ '`' :: post) = some i := by
  induction result generalizing q i with
  | nil => cases h
  | cons ch rest ih =>
    rw [backtickFrom] at h
    split at h
    next q' hq =>
      obtain ⟨k, hk, rfl⟩ := Option.map_eq_some_iff.mp h
      rw [take_succ_cons, cons_append, backtickFrom, hq]
      simp [ih hk]
    next hq =>
      split at h
      next hb =>
        cases h
        rw [hb.2] at hq
        rw [take_zero, nil_append, backtickFrom, hq]
        simp [hb.1]
      next hb =>
        obtain ⟨k, hk, rfl⟩ := Option.map_eq_some_iff.mp h
        rw [take_succ_cons, cons_append, backtickFrom, hq]
        simp [if_neg hb, ih hk]

theorem backtickLoop_printsBacktick (hi : findBacktick result = some i) (post : CStr) (fuel : Nat) :
    backtickLoop printsBacktick fuel (result.take i ++ ['`', 'x', '`'] ++ post) = none := by
  induction fuel with
  | zero => rfl
  | succ fuel ih =>
    have hlt : i < result.length :=
      (List.getElem?_eq_some_iff.mp (backtickFrom_getElem hi)).1
    have hlen : (result.take i).length = i := by rw [List.length_take]; omega
    have hfirst : findBacktick (result.take i ++ ['`', 'x', '`'] ++ post) = some i := by
      rw [List.append_assoc]
      exact backtickFrom_prefix hi _
    have hdrop : (result.take i ++ ['`', 'x', '`'] ++ post).drop (i + 1)
        = ['x', '`'] ++ post := by
      rw [List.append_assoc, List.drop_append, List.drop_of_length_le (by omega), hlen]
      simp
    have hsecond : findBacktick (['x', '`'] ++ post) = some 1 := rfl
    have htake : (result.take i ++ ['`', 'x', '`'] ++ post).take i = result.take i := by
      rw [List.append_assoc]
      exact List.take_left' hlen
    have hrest : (result.take i ++ ['`', 'x', '`'] ++ post).drop (i + 1 + 1 + 1) = post :=
      List.drop_left' (by rw [List.length_append, hlen]; rfl)
    rw [backtickLoop, hfirst]
    simp only [hdrop, hsecond, htake, hrest, printsBacktick, ih]

theorem expand_printsBacktick {j : Nat} (hdollar : ∀ k, strstrquoted input dollarParen = some k →
      findMatchingParen (input.drop (k + 2)) = none)
    (hi : findBacktick input = some i) (hj : findBacktick (input.drop (i + 1)) = some j)
    (fuel : Nat) : expandSubstitutions printsBacktick fuel input = none := by
  have hskip : ∀ fuel, dollarLoop printsBacktick (fuel + 1) input = some ([], input) := by
    intro fuel
    rw [dollarLoop]
    split
    · rfl
    · split
      · rfl
      next k hk => rw [hdollar k hk]
  have hloop : ∀ fuel, backtickLoop printsBacktick fuel input = none := by
    intro fuel
    cases fuel with
    | zero => rfl
    | succ fuel =>
      rw [backtickLoop, hi]
      simp only [hj]
      have := backtickLoop_printsBacktick hi (input.drop (i + 1 + j + 1)) fuel
      simp only [printsBacktick]
      rw [this]
  have hmem : '`' ∈ input := mem_of_getElem? (backtickFrom_getElem hi)
  cases fuel with
  | zero => rfl
  | succ fuel =>
    rw [expandSubstitutions, if_neg (fun h => h.2 hmem)]
    cases fuel with
    | zero => rfl
    | succ fuel => rw [hskip]; simp only [hloop]

/-! ## Inputs without substitutions -/

open Marked

theorem Marked.backtickFrom_typed (q : Quotes) (text : CStr) :
    (typed text).backtickFrom q = Shell.backtickFrom q text := by
  induction text generalizing q with
  | nil => rfl
  | cons c text ih =>
    show backtickFrom q ((c, false) :: typed text) = _
    rw [backtickFrom, Shell.backtickFrom]
    simp only [Bool.false_eq_true, if_false, ih]

theorem expand_of_not_hasSubst (h : ¬ HasSubst input) (f : CStr → CStr) :
    expandSubstitutions f 2 input = some ([], input) := by
  rw [expandSubstitutions]
  split
  · rfl
  · have hdollar : dollarLoop f 1 input = some ([], input) := by
      rw [dollarLoop]
      split
      · rfl
      · split
        · rfl
        next i hi =>
          cases hj : findMatchingParen (input.drop (i + 2)) with
          | none => rfl
          | some j => exact absurd (.inl ⟨i, j, hi, hj⟩) h
    have hbacktick : backtickLoop f 1 input = some ([], input) := by
      rw [backtickLoop]
      split
      · rfl
      next i hi =>
        cases hj : findBacktick (input.drop (i + 1)) with
        | none => rfl
        | some j => exact absurd (.inr ⟨i, j, hi, hj⟩) h
    simp [hdollar, hbacktick]

theorem runsTyped_of_not_hasSubst (h : ¬ HasSubst input) (f : CStr → CStr) : RunsTyped f input := by
  refine ⟨2, [], input, expand_of_not_hasSubst h f, ?_⟩
  have hexpands : Expands f input ([] ++ []) (typed input).text := by
    refine .intro (.stop fun i hi => ?_) (.stop fun i hi => ?_)
    · rw [show unquoted 0 = Scan.start from rfl,
        ← strstrquoted_eq_findFrom plain_dollarParen (by decide)] at hi
      cases hj : findMatchingParen (input.drop (i + 2)) with
      | none => rfl
      | some j => exact absurd (.inl ⟨i, j, hi, hj⟩) h
    · have hdrop : (typed input).drop (i + 1) = typed (input.drop (i + 1)) := map_drop.symm
      unfold Marked.findBacktick at hi ⊢
      rw [Marked.backtickFrom_typed] at hi
      rw [hdrop, Marked.backtickFrom_typed]
      cases hj : findBacktick (input.drop (i + 1)) with
      | none => exact hj
      | some j => exact absurd (.inr ⟨i, j, hi, hj⟩) h
  simpa [typed, Marked.text, comp_def] using hexpands

/-! ## More fuel -/

theorem backtickLoop_mono
    (h : backtickLoop f fuel text = some r) : backtickLoop f (fuel + 1) text = some r := by
  induction fuel generalizing text r with
  | zero => cases h
  | succ fuel ih =>
    rw [backtickLoop] at h ⊢
    split at h
    · exact h
    · split at h
      · exact h
      next j hj =>
        simp only at h ⊢
        split at h
        · cases h
        next log result hrec =>
          rw [ih hrec]
          exact h

theorem expand_mono_aux (fuel : Nat) :
    (∀ text r, expandSubstitutions f fuel text = some r →
      expandSubstitutions f (fuel + 1) text = some r) ∧
    (∀ text r, dollarLoop f fuel text = some r → dollarLoop f (fuel + 1) text = some r) := by
  induction fuel with
  | zero => exact ⟨nofun, nofun⟩
  | succ fuel ih =>
    obtain ⟨ihExpand, ihDollar⟩ := ih
    constructor
    · intro text r h
      rw [expandSubstitutions] at h ⊢
      split at h
      next hq => rw [if_pos hq]; exact h
      next hq =>
        rw [if_neg hq]
        split at h
        · cases h
        next log result hd =>
          rw [ihDollar _ _ hd]
          split at h
          · cases h
          next log' result' hb =>
            rw [backtickLoop_mono hb]
            exact h
    · intro text r h
      rw [dollarLoop] at h ⊢
      split at h
      next hq => rw [if_pos hq]; exact h
      next hq =>
        rw [if_neg hq]
        split at h
        · exact h
        · split at h
          · exact h
          · split at h
            · cases h
            next log inner he =>
              rw [ihExpand _ _ he]
              split at h
              · cases h
              next log' result' hd =>
                rw [ihDollar _ _ hd]
                exact h

theorem expand_mono {fuel' : Nat} (hle : fuel ≤ fuel')
    (h : expandSubstitutions f fuel text = some r) :
    expandSubstitutions f fuel' text = some r := by
  induction hle with
  | refl => exact h
  | step _ ih => exact (expand_mono_aux _).1 _ _ ih

theorem dollarLoop_mono {fuel' : Nat} (hle : fuel ≤ fuel') (h : dollarLoop f fuel text = some r) :
    dollarLoop f fuel' text = some r := by
  induction hle with
  | refl => exact h
  | step _ ih => exact (expand_mono_aux _).2 _ _ ih

theorem backtickLoop_le {fuel' : Nat} (hle : fuel ≤ fuel') (h : backtickLoop f fuel text = some r) :
    backtickLoop f fuel' text = some r := by
  induction hle with
  | refl => exact h
  | step _ ih => exact backtickLoop_mono ih

/-! ## Harmless outputs -/

/-- An output without characters that start something. -/
def Harmless (out : CStr) : Prop :=
  ∀ c ∈ out, c ≠ '$' ∧ c ≠ '"' ∧ c ≠ '\'' ∧ c ≠ '\\' ∧ c ≠ '`'

theorem matchParen_lt {depth : Nat} {q : Quotes} {j : Nat}
    (h : matchParen depth q text = some j) : j < text.length := by
  induction text generalizing depth q j with
  | nil => cases h
  | cons ch rest ih =>
    have hmap : ∀ {depth q}, (matchParen depth q rest).map (· + 1) = some j →
        j < (ch :: rest).length := by
      intro depth q h
      obtain ⟨k, hk, rfl⟩ := Option.map_eq_some_iff.mp h
      have := ih hk
      simp only [length_cons]
      omega
    rw [matchParen] at h
    split at h
    · exact hmap h
    · split at h
      · exact hmap h
      · split at h
        · split at h
          · cases h
            exact Nat.zero_lt_succ _
          · exact hmap h
        · exact hmap h

theorem findFrom_harmless {out : CStr} (h : Harmless out) (e i : Nat) :
    findFrom dollarParen (unquoted e) i out = none ∧
      (unquoted e).over dollarParen out = unquoted e := by
  induction out generalizing i with
  | nil => exact ⟨rfl, rfl⟩
  | cons c out ih =>
    obtain ⟨hd, hq, hq', hb, _⟩ := h c mem_cons_self
    have hstep : (unquoted e).step dollarParen c = unquoted e := by
      unfold unquoted
      rw [step_plain ⟨hq, hq', hb⟩]
      simp [dollarParen, Ne.symm hd]
    have ih := ih (fun c hc => h c (mem_cons_of_mem _ hc)) (i + 1)
    rw [findFrom, over_cons, hstep]
    exact ih

theorem findFrom_none_index {str2 : CStr} {s : Scan} {str1 : CStr}
    (h : findFrom str2 s i str1 = none) (k : Nat) : findFrom str2 s k str1 = none := by
  induction str1 generalizing s i k with
  | nil => rfl
  | cons ch rest ih =>
    rw [findFrom] at h ⊢
    split at h
    · cases h
    next hne =>
      rw [if_neg hne]
      exact ih h _

@[simp] theorem text_typed (xs : CStr) : (typed xs).text = xs := by
  simp [typed, text, comp_def]

@[simp] theorem text_printed (xs : CStr) : (printed xs).text = xs := by
  simp [printed, text, comp_def]

@[simp] theorem text_append (s t : Marked) : Marked.text (s ++ t) = s.text ++ t.text :=
  map_append

def Marked.Harmless (t : Marked) : Prop := ∀ c, (c, true) ∈ t → Shell.Harmless [c]

theorem Marked.Harmless.append {s t : Marked} (hs : s.Harmless) (ht : t.Harmless) :
    Marked.Harmless (s ++ t) := by
  intro c hc
  rcases mem_append.mp hc with h | h
  · exact hs c h
  · exact ht c h

theorem Marked.harmless_typed (xs : CStr) : (typed xs).Harmless := by
  intro c hc
  simp [typed] at hc

theorem Marked.harmless_printed {xs : CStr} (h : Shell.Harmless xs) : (printed xs).Harmless := by
  intro c hc d hd
  rw [mem_singleton] at hd
  subst hd
  have : d ∈ xs := by simpa [printed] using hc
  exact h d this

theorem findFrom_dollar {e : Nat} (h : findFrom dollarParen (unquoted e) 0 text = some i) :
    ∃ post e', text = text.take i ++ dollarParen ++ post ∧ (text.take i).length = i ∧
      (unquoted e).over dollarParen (text.take i) = unquoted e' ∧
      findFrom dollarParen (unquoted e) 0 (text.take i) = none ∧ text.drop (i + 2) = post := by
  obtain ⟨p, post, e', rfl, hi, hstate, hnone⟩ := findFrom_split (by decide) rfl h
  rw [Nat.zero_add] at hi
  subst hi
  have htake : (p ++ dollarParen ++ post).take p.length = p := by
    rw [append_assoc, take_left]
  rw [htake]
  exact ⟨post, e', rfl, rfl, hstate, hnone, drop_left' (by simp [dollarParen])⟩

/--
With harmless outputs, the loop over `$(...)` goes from left to right through the input: `pre` is
the part that is already rewritten.
-/
theorem dollarLoop_harmless (hf : ∀ cmd, Harmless (f cmd)) {n : Nat}
    (hbody : ∀ body : CStr, body.length < n → RunsTyped f body) (rest : CStr)
    (hn : rest.length ≤ n) (pre : CStr) (e : Nat)
    (hpre : findFrom dollarParen Scan.start 0 pre = none)
    (hstate : Scan.start.over dollarParen pre = unquoted e) :
    ∃ fuel log t, dollarLoop f fuel (pre ++ rest) = some (log, pre ++ t.text) ∧
      ExpandsDollars f e rest log t ∧ t.Harmless := by
  induction hk : rest.length using Nat.strongRecOn generalizing rest pre e with
  | _ k ih =>
    have hsearch : strstrquoted (pre ++ rest) dollarParen
        = findFrom dollarParen (unquoted e) pre.length rest := by
      rw [strstrquoted_eq_findFrom plain_dollarParen (by decide), findFrom_append hpre, hstate,
        Nat.zero_add]
    cases hfind : findFrom dollarParen (unquoted e) 0 rest with
    | none =>
      refine ⟨1, [], typed rest, ?_, .stop (fun i hi => ?_), harmless_typed rest⟩
      · rw [dollarLoop, hsearch, findFrom_none_index hfind]
        simp
      · rw [hfind] at hi
        cases hi
    | some i =>
      obtain ⟨post, e', hsplit, hlen, hstate', hnone, hdrop⟩ := findFrom_dollar hfind
      have hfound : strstrquoted (pre ++ rest) dollarParen = some (pre.length + i) := by
        have := findFrom_found plain_dollarParen (by decide) (findFrom_none_index hnone pre.length)
          hstate' post
        rw [← hsplit, hlen] at this
        rw [hsearch, this]
      have hdrop' : ∀ m, (pre ++ rest).drop (pre.length + m) = rest.drop m := by
        intro m
        rw [drop_append, drop_of_length_le (by omega), nil_append]
        congr 1
        omega
      cases hparen : findMatchingParen (rest.drop (i + 2)) with
      | none =>
        refine ⟨1, [], typed rest, ?_, .stop (fun i' hi' => ?_), harmless_typed rest⟩
        · rw [dollarLoop, contains_of_strstrquoted hfound, hfound]
          simp only [Bool.true_eq_false, if_false]
          rw [Nat.add_assoc, hdrop', hparen, text_typed]
        · rw [hfind] at hi'
          cases hi'
          exact hparen
      | some j =>
        have hj := matchParen_lt hparen
        rw [length_drop] at hj
        obtain ⟨fuel₁, log₁, inner, hexp, hspec₁⟩ := hbody ((rest.drop (i + 2)).take j) (by
          rw [length_take, length_drop]
          omega)
        -- the output joins the part that is already rewritten
        have hpre' : findFrom dollarParen start 0 (pre ++ rest.take i ++ f inner) = none ∧
            start.over dollarParen (pre ++ rest.take i ++ f inner) = unquoted e' := by
          have hleft : findFrom dollarParen start 0 (pre ++ rest.take i) = none := by
            rw [findFrom_append hpre, hstate]
            exact findFrom_none_index hnone _
          have hover : start.over dollarParen (pre ++ rest.take i) = unquoted e' := by
            rw [over_append, hstate, hstate']
          rw [findFrom_append hleft, over_append _ _ (pre ++ rest.take i), hover]
          exact findFrom_harmless (hf inner) e' _
        obtain ⟨fuel₂, log₂, t, hloop, hspec₂, ht⟩ := ih (rest.drop (i + 2 + j + 1)).length
          (by rw [length_drop]; omega) (rest.drop (i + 2 + j + 1))
          (by rw [length_drop]; omega) _ e' hpre'.1 hpre'.2 rfl
        refine ⟨max fuel₁ fuel₂ + 1, log₁ ++ inner :: log₂,
          typed (rest.take i) ++ printed (f inner) ++ t, ?_, ?_, ?_⟩
        · have htake : (pre ++ rest).take (pre.length + i) = pre ++ rest.take i := by
            rw [take_append, take_of_length_le (by omega)]
            congr 2
            omega
          have harg : (pre ++ rest).drop (pre.length + i + 2 + j + 1)
              = rest.drop (i + 2 + j + 1) := by
            rw [← hdrop']
            congr 1
            omega
          rw [dollarLoop, contains_of_strstrquoted hfound, hfound]
          simp only [Bool.true_eq_false]
          rw [Nat.add_assoc pre.length i 2, hdrop', hparen]
          simp only [expand_mono (Nat.le_max_left fuel₁ fuel₂) hexp]
          rw [← Nat.add_assoc pre.length i 2, harg, htake,
            dollarLoop_mono (Nat.le_max_right fuel₁ fuel₂) hloop]
          simp
        · refine .subst hfind hparen hspec₁ ?_
          rw [hstate']
          exact hspec₂
        · exact ((harmless_typed _).append (harmless_printed (hf inner))).append ht

theorem Marked.backtickFrom_eq {t : Marked} (h : t.Harmless) (q : Quotes) :
    t.backtickFrom q = Shell.backtickFrom q t.text := by
  induction t generalizing q with
  | nil => rfl
  | cons x t ih =>
    obtain ⟨c, mark⟩ := x
    have ih := fun q => ih (fun d hd => h d (mem_cons_of_mem _ hd)) q
    show _ = Shell.backtickFrom q (c :: text t)
    rw [backtickFrom, Shell.backtickFrom]
    cases mark with
    | false => simp only [Bool.false_eq_true, if_false, ih]
    | true =>
      obtain ⟨_, hq, hq', _, hb⟩ := h c mem_cons_self c (mem_singleton_self c)
      have htoggle : q.toggle c = none := by simp [Quotes.toggle, hq, hq']
      simp [ih, htoggle, hb]

theorem count_harmless {out : CStr} (h : Harmless out) : out.count '`' = 0 :=
  count_eq_zero.mpr fun hm => (h _ hm).2.2.2.2 rfl

theorem backtickLoop_harmless (hf : ∀ cmd, Harmless (f cmd)) (t : Marked) (ht : t.Harmless) :
    ∃ fuel log out, backtickLoop f fuel t.text = some (log, Marked.text out) ∧
      ExpandsBackticks f t log out := by
  induction hk : t.text.count '`' using Nat.strongRecOn generalizing t with
  | _ k ih =>
    have htext : ∀ m, (Marked.text (t.drop m)) = t.text.drop m := fun m => List.map_drop
    have hfirst : t.findBacktick = findBacktick t.text := Marked.backtickFrom_eq ht _
    have hsecond : ∀ m, Marked.findBacktick (t.drop m) = findBacktick (t.text.drop m) := by
      intro m
      rw [← htext]
      exact Marked.backtickFrom_eq (fun c hc => ht c (List.mem_of_mem_drop hc)) _
    cases hi : findBacktick t.text with
    | none =>
      refine ⟨1, [], t, by rw [backtickLoop, hi], .stop fun i hi' => ?_⟩
      rw [hfirst, hi] at hi'
      cases hi'
    | some i =>
      cases hj : findBacktick (t.text.drop (i + 1)) with
      | none =>
        refine ⟨1, [], t, by rw [backtickLoop, hi]; simp only [hj], .stop fun i' hi' => ?_⟩
        rw [hfirst, hi] at hi'
        cases hi'
        rw [hsecond]
        exact hj
      | some j =>
        have hinner : Marked.text ((t.drop (i + 1)).take j) = (t.text.drop (i + 1)).take j := by
          rw [← htext]
          exact List.map_take
        have hleft : Marked.text (t.take i) = t.text.take i := List.map_take
        have hharmless : Marked.Harmless (t.take i ++ printed (f ((t.text.drop (i + 1)).take j))
            ++ t.drop (i + 1 + j + 1)) :=
          Marked.Harmless.append (Marked.Harmless.append
            (fun c hc => ht c (List.mem_of_mem_take hc)) (Marked.harmless_printed (hf _)))
            fun c hc => ht c (List.mem_of_mem_drop hc)
        -- the backtick at `i` is gone, and the output has none
        have hless : (Marked.text (t.take i ++ printed (f ((t.text.drop (i + 1)).take j))
            ++ t.drop (i + 1 + j + 1))).count '`' < k := by
          have hsplit : t.text = t.text.take i ++ '`' :: t.text.drop (i + 1) := by
            obtain ⟨hlt, hc⟩ := List.getElem?_eq_some_iff.mp (backtickFrom_getElem hi)
            rw [← hc, List.getElem_cons_drop, List.take_append_drop]
          have hsuffix : (t.text.drop (i + 1 + j + 1)).count '`'
              ≤ (t.text.drop (i + 1)).count '`' := by
            rw [Nat.add_assoc, ← List.drop_drop]
            exact (List.drop_sublist _ _).count_le _
          have hcount := congrArg (List.count '`') hsplit
          rw [List.count_append, List.count_cons_self] at hcount
          rw [text_append, text_append, text_printed, htext, hleft, List.count_append,
            List.count_append, count_harmless (hf _)]
          omega
        obtain ⟨fuel, log, out, hloop, hspec⟩ := ih _ hless _ hharmless rfl
        refine ⟨fuel + 1, (t.text.drop (i + 1)).take j :: log, out, ?_, ?_⟩
        · rw [backtickLoop, hi]
          simp only [hj]
          rw [text_append, text_append, text_printed, htext, hleft] at hloop
          rw [hloop]
        · rw [← hinner] at hspec ⊢
          exact .subst (hfirst.trans hi) ((hsecond _).trans hj) hspec

theorem runsTyped_of_harmless (hf : ∀ cmd, Harmless (f cmd)) (input : CStr) :
    RunsTyped f input := by
  induction hk : input.length using Nat.strongRecOn generalizing input with
  | _ k ih =>
    obtain ⟨fuel₁, log₁, t, hdollar, hspec₁, ht⟩ := dollarLoop_harmless hf
      (n := input.length) (fun body hb => ih body.length (by omega) body rfl) input (Nat.le_refl _)
      [] 0 rfl rfl
    obtain ⟨fuel₂, log₂, out, hbacktick, hspec₂⟩ := backtickLoop_harmless hf t ht
    by_cases hquick : contains input dollarParen = false ∧ '`' ∉ input
    · refine runsTyped_of_not_hasSubst ?_ f
      rintro (⟨i, j, hi, _⟩ | ⟨i, j, hi, _⟩)
      · rw [contains_of_strstrquoted hi] at hquick
        exact Bool.noConfusion hquick.1
      · exact hquick.2 (mem_of_getElem? (backtickFrom_getElem hi))
    · refine ⟨max fuel₁ fuel₂ + 1, log₁ ++ log₂, out.text, ?_, .intro hspec₁ hspec₂⟩
      rw [nil_append, nil_append] at hdollar
      rw [expandSubstitutions, if_neg hquick, dollarLoop_mono (Nat.le_max_left ..) hdollar]
      simp [backtickLoop_le (Nat.le_max_right ..) hbacktick]

/-! ## When the outputs are not searched -/

/--
`ios_expand_substitutions` runs exactly the substitutions of its input for every `f` only when
the input has none: any substitution can print another one, and then the expansion goes on with
that. For an `f` whose outputs are harmless it does so on every input.
-/
theorem runs_typed_iff (input : CStr) :
    ((∀ f, RunsTyped f input) ↔ ¬ HasSubst input) ∧
    (∀ f, (∀ cmd, Harmless (f cmd)) → RunsTyped f input) := by
  refine ⟨⟨?_, fun h f => runsTyped_of_not_hasSubst h f⟩, fun f hf =>
    runsTyped_of_harmless hf input⟩
  intro hall hsubst
  by_cases hdollar : ∃ i j, strstrquoted input dollarParen = some i ∧
      findMatchingParen (input.drop (i + 2)) = some j
  · obtain ⟨i, j, hi, hj⟩ := hdollar
    obtain ⟨fuel, log, result, hexp, _⟩ := hall printsDollar
    rw [expand_printsDollar hi hj] at hexp
    cases hexp
  · obtain ⟨i, j, hi, hj⟩ := hsubst.resolve_left hdollar
    obtain ⟨fuel, log, result, hexp, _⟩ := hall printsBacktick
    rw [expand_printsBacktick ?_ hi hj] at hexp
    · cases hexp
    · intro k hk
      cases hp : findMatchingParen (input.drop (k + 2)) with
      | none => rfl
      | some p => exact absurd ⟨k, p, hk, hp⟩ hdollar

/--
`echo $(a)`, where `a` prints `$(b)`: `b` is run as well. When every command prints `$(x)`, the
expansion does not end.
-/
theorem printed_substitution_runs :
    expandSubstitutions (fun cmd => if cmd = ['a'] then "$(b)".toList else []) 4
        "echo $(a)".toList = some (["a".toList, "b".toList], "echo ".toList) ∧
    ¬ RunsTyped printsDollar "echo $(a)".toList := by
  refine ⟨by decide, ?_⟩
  rintro ⟨fuel, log, result, hexp, _⟩
  rw [expand_printsDollar (i := 5) (j := 1) (by decide) (by decide)] at hexp
  cases hexp

end IosSystem.Shell
