import IosSystem.Shell.ArgumentArray
import IosSystem.Shell.Execv

/-!
# Quotes inside quoted arguments

Between single quotes a single quote is written by leaving the quotes, writing it behind a backslash
and going on with the next pair: `'x'\''y'`. The same is done with double quotes.
`getLastCharacterOfArgument` takes the three characters in the middle out of the text and searches
again. For single quotes the second search starts at the quote before `y`. For double quotes it
starts behind that quote, and what it meets there is no quoted argument any more.
-/

namespace IosSystem.Shell

open List

/-! ## The first argument of a text -/

/-- An argument and what the loop goes on with, from the result of `getLastCharacterOfArgument`. -/
def endArgument (r : Option Nat × CStr) : CStr × CStr :=
  match r.1 with
  | none => (r.2, [])
  | some last => (r.2.take last, dropSpaces (r.2.drop (last + 1)))

def firstArgument (str : CStr) : CStr × CStr :=
  let cut := endArgument (getLastCharacterOfArgument (str.length + 1) str)
  (unquoteArgument cut.1, cut.2)

theorem endArgument_isPrefix (r : Option Nat × CStr) : (endArgument r).1 <+: r.2 := by
  unfold endArgument
  split
  · exact prefix_rfl
  · exact take_prefix _ _

theorem endArgument_append_blank (before rest : CStr) :
    endArgument
    (some before.length, before ++ ' ' :: rest) = (before, dropSpaces (' ' :: rest)) := by
  rw [endArgument]
  dsimp only
  rw [take_left, drop_length_add_append]
  rfl

theorem endArgument_append (before : CStr) (r : Option Nat × CStr) :
    endArgument (r.1.map (before.length + ·), before ++ r.2)
      = (before ++ (endArgument r).1, (endArgument r).2) := by
  obtain ⟨_ | last, text⟩ := r
  · rfl
  · simp only [endArgument, Option.map_some]
    rw [take_length_add_append, Nat.add_assoc, drop_length_add_append]

variable {rest x y z : CStr} {c : Char} {zs : List CStr}

theorem dropSpaces_drop_one (h : rest = [] ∨ rest.head? = some ' ') :
    dropSpaces (rest.drop 1) = dropSpaces rest := by
  cases rest with
  | nil => rfl
  | cons c rest =>
    obtain rfl : c = ' ' := by simpa using h
    rfl

/-! ## The pieces -/

/-- No character that ends a quoted argument. -/
structure Enclosed (x : CStr) : Prop where
  double : '"' ∉ x
  single : '\'' ∉ x
  backslash : '\\' ∉ x

/-- A quote inside of a quoted argument: `'\''`. -/
def joint (q : Char) : CStr := [q, '\\', q, q]

/-- The argument with quotes around it, as typed. -/
def written (q : Char) (segments : List CStr) : CStr :=
  q :: ((joint q).intercalate segments ++ [q])

/-- The argument that is meant. -/
def joined (q : Char) (segments : List CStr) : CStr := [q].intercalate segments

def Behind (rest : CStr) : Prop := rest = [] ∨ rest.head? = some ' '

section

variable (q : Char) (x y : CStr) (ys : List CStr)

theorem written_cons_cons :
    written q (x :: y :: ys) = q :: (x ++ q :: '\\' :: q :: written q (y :: ys)) := by
  simp [written, joint]

theorem written_cons_cons_append (rest : CStr) :
    written q (x :: y :: ys) ++ rest
      = q :: (x ++ q :: '\\' :: q :: (written q (y :: ys) ++ rest)) := by
  rw [written_cons_cons]
  simp

theorem joined_cons_cons : joined q (x :: y :: ys) = x ++ q :: joined q (y :: ys) := by
  simp [joined]

end

theorem Enclosed.notMem (h : Enclosed x) {q : Char} (hq : q = '"' ∨ q = '\'') : q ∉ x := by
  rcases hq with rfl | rfl
  · exact h.double
  · exact h.single

theorem Enclosed.tail (h : Enclosed (c :: x)) : Enclosed x :=
  ⟨fun e => h.double (mem_cons_of_mem _ e), fun e => h.single (mem_cons_of_mem _ e),
    fun e => h.backslash (mem_cons_of_mem _ e)⟩

theorem Enclosed.isQuote_head (h : Enclosed (c :: x))
    (hc : c ≠ recordSeparator) : isQuote c = false := by
  have hdouble : c ≠ '"' := fun e => h.double (e ▸ mem_cons_self)
  have hsingle : c ≠ '\'' := fun e => h.single (e ▸ mem_cons_self)
  simpa [isQuote] using ⟨hdouble, hsingle, hc⟩

theorem endArgument_segment {q : Char} (hq : q = '"' ∨ q = '\'') (hx : Enclosed x)
    (hrest : Behind rest) (fuel : Nat) :
    endArgument (getLastCharacterOfArgument (fuel + 1) (written q [x] ++ rest))
      = (q :: (joined q [x] ++ [q]), dropSpaces rest) := by
  have hquote : q ≠ '\\' := by rcases hq with rfl | rfl <;> decide
  have htext : written q [x] ++ rest = q :: (x ++ q :: rest) := by simp [written]
  have hbehind : rest = [] ∨ rest.head? = some ' ' := hrest
  have hdrop : (x ++ q :: rest).drop (x.length + 1) = rest := by simp
  rw [htext, getLastCharacterOfArgument, if_pos hq,
    nextUnescapedCharacter_plain hquote (hx.notMem hq) hx.backslash]
  dsimp only
  rw [hdrop, if_pos hbehind]
  have htake : (q :: (x ++ q :: rest)).take (x.length + 2) = q :: (x ++ [q]) := by
    rw [show q :: (x ++ q :: rest) = q :: (x ++ [q]) ++ rest by simp]
    exact take_left' (by simp)
  have hleft : (q :: (x ++ q :: rest)).drop (x.length + 2 + 1) = rest.drop 1 := by simp
  rw [endArgument]
  dsimp only
  rw [htake, hleft, dropSpaces_drop_one hrest, joined, intercalate_singleton]

/-! ## Single quotes -/

theorem length_lt_written (q : Char) (x : CStr) (xs : List CStr) :
    xs.length < (written q (x :: xs)).length := by
  induction xs generalizing x with
  | nil => simp [written]
  | cons y ys ih =>
    have hrest := ih y
    rw [written_cons_cons]
    simp only [length_cons, length_append]
    omega

theorem getLastCharacter_joint {q : Char} (hq : q = '"' ∨ q = '\'') (hx : Enclosed x)
    (fuel start : Nat) (hstart : start = if q = '"' then x.length + 2 else x.length + 1)
    (text : CStr) :
    getLastCharacterOfArgument (fuel + 1) (q :: (x ++ q :: '\\' :: q :: text))
      = ((getLastCharacterOfArgument fuel ((q :: (x ++ text)).drop start)).1.map (start + ·),
        (q :: (x ++ text)).take start
          ++ (getLastCharacterOfArgument fuel ((q :: (x ++ text)).drop start)).2) := by
  have hquote : q ≠ '\\' := by rcases hq with rfl | rfl <;> decide
  have hbehind : (x ++ q :: '\\' :: q :: text).drop (x.length + 1) = '\\' :: q :: text := by simp
  have htake : (x ++ q :: '\\' :: q :: text).take x.length = x := by simp
  rw [getLastCharacterOfArgument, if_pos hq,
    nextUnescapedCharacter_plain hquote (hx.notMem hq) hx.backslash]
  dsimp only
  rw [hbehind, htake, if_neg (by simp), if_pos (by simp), ← hstart]
  rfl

theorem getLastCharacter_joint_single (hx : Enclosed x) (fuel : Nat) (text : CStr) :
    getLastCharacterOfArgument (fuel + 1) ('\'' :: (x ++ '\'' :: '\\' :: '\'' :: text))
      = ((getLastCharacterOfArgument fuel text).1.map (('\'' :: x).length + ·),
        '\'' :: x ++ (getLastCharacterOfArgument fuel text).2) := by
  rw [getLastCharacter_joint (.inr rfl) hx fuel ('\'' :: x).length rfl text]
  simp

variable {xs : List CStr}

theorem endArgument_single (h : ∀ s ∈ x :: xs, Enclosed s) (hrest : Behind rest) {fuel : Nat}
    (hfuel : xs.length < fuel) :
    endArgument (getLastCharacterOfArgument fuel (written '\'' (x :: xs) ++ rest))
      = ('\'' :: (joined '\'' (x :: xs) ++ ['\'']), dropSpaces rest) := by
  induction xs generalizing x fuel with
  | nil =>
    obtain ⟨fuel, rfl⟩ := Nat.exists_eq_add_one_of_ne_zero (by omega : fuel ≠ 0)
    exact endArgument_segment (.inr rfl) (h x mem_cons_self) hrest fuel
  | cons y ys ih =>
    obtain ⟨fuel, rfl⟩ := Nat.exists_eq_add_one_of_ne_zero (by omega : fuel ≠ 0)
    rw [written_cons_cons_append, getLastCharacter_joint_single (h x mem_cons_self),
      endArgument_append,
      ih (fun s hs => h s (mem_cons_of_mem _ hs)) (by simpa using hfuel), joined_cons_cons]
    simp

/-! ## Double quotes -/

theorem getLastCharacter_joint_double (hx : Enclosed x) (fuel : Nat) (text : CStr) :
    getLastCharacterOfArgument (fuel + 1) ('"' :: (x ++ '"' :: '\\' :: '"' :: '"' :: text))
      = ((getLastCharacterOfArgument fuel text).1.map (('"' :: (x ++ ['"'])).length + ·),
        '"' :: (x ++ ['"']) ++ (getLastCharacterOfArgument fuel text).2) := by
  have hlength : ('"' :: (x ++ ['"'])).length = x.length + 2 := by simp
  have hsplit : '"' :: (x ++ '"' :: text) = '"' :: (x ++ ['"']) ++ text := by simp
  rw [getLastCharacter_joint (.inl rfl) hx fuel ('"' :: (x ++ ['"'])).length hlength, hsplit,
    take_left, drop_left]

theorem unquoteArgument_joint_value (x value : CStr) :
    unquoteArgument ('"' :: (x ++ ['"']) ++ (value ++ ['"'])) = x ++ '"' :: value := by
  have htext : '"' :: (x ++ ['"']) ++ (value ++ ['"']) = '"' :: (x ++ '"' :: value) ++ ['"'] := by
    simp
  rw [htext, unquoteArgument_enclosed (by decide)]

/-- When `x` is in front of the right value, the quotes at both ends have been removed, or the text
did not end with a quote and `x` was empty. -/
theorem unquoteArgument_joint (hx : Enclosed x) {s value : CStr}
    (h : unquoteArgument ('"' :: (x ++ ['"']) ++ s) = x ++ '"' :: value) :
    s = value ++ ['"'] ∨ (value = '"' :: removeBackslashes s ∧ s.getLast? ≠ some '"') := by
  rcases eq_nil_or_concat s with rfl | ⟨t, c, rfl⟩
  · rw [append_nil, ← cons_append, unquoteArgument_enclosed (by decide)] at h
    have := congrArg length h
    simp at this
  · rw [concat_eq_append] at h ⊢
    by_cases hc : c = '"'
    · subst hc
      rw [unquoteArgument_joint_value] at h
      have hvalue : t = value := by simpa using h
      exact .inl (by rw [hvalue])
    · have hlast : ('"' :: (x ++ ['"'] ++ (t ++ [c]))).getLast? ≠ some '"' := by
        rw [← append_assoc, ← cons_append, getLast?_concat]
        simpa using hc
      have hplain : '\\' ∉ '"' :: (x ++ ['"']) := by simpa using hx.backslash
      rw [cons_append, unquoteArgument, if_neg fun e => hlast e.2, ← cons_append,
        removeBackslashes_append hplain] at h
      cases x with
      | nil =>
        have hvalue : '"' :: removeBackslashes (t ++ [c]) = value := by simpa using h
        refine .inr ⟨hvalue.symm, ?_⟩
        simpa using hc
      | cons d x =>
        have hd : '"' = d := by
          simp only [cons_append, cons.injEq] at h
          exact h.1
        exact absurd (hd ▸ mem_cons_self) hx.double

/-! ### The search behind the second opening quote -/

def Second (rest : CStr) : CStr → Prop
  | [] => rest = []
  | c :: y => if c = recordSeparator then rest = [] ∧ recordSeparator ∉ y else ' ' ∉ y

instance (rest y : CStr) : Decidable (Second rest y) :=
  match y with
  | [] => inferInstanceAs (Decidable (rest = []))
  | c :: y => inferInstanceAs (Decidable (if c = recordSeparator then _ else ' ' ∉ y))

theorem endArgument_ne_singleton {ending : Option Nat} {text : CStr}
    (hend : ∀ last ∈ ending, 2 ≤ last) (htext : 2 ≤ text.length) (c : Char) :
    (endArgument (ending, text)).1 ≠ [c] := by
  intro h
  have hlength := congrArg length h
  cases ending with
  | none =>
    change text.length = 1 at hlength
    omega
  | some last =>
    have hlast := hend last rfl
    change (text.take last).length = 1 at hlength
    rw [length_take] at hlength
    omega

theorem endArgument_quote_blank (fuel : Nat) (text : CStr) :
    (endArgument (getLastCharacterOfArgument fuel ('"' :: ' ' :: text))).1 ≠ ['"'] := by
  have htwo : 2 ≤ ('"' :: ' ' :: text).length := by simp
  cases fuel with
  | zero => exact endArgument_ne_singleton (by simp) htwo _
  | succ fuel =>
    rw [getLastCharacterOfArgument, if_pos (.inl rfl)]
    cases hfound : nextUnescapedCharacter (' ' :: text) '"' with
    | none => exact endArgument_ne_singleton (by simp) htwo _
    | some endquote =>
      obtain ⟨endquote, rfl⟩ := Nat.exists_eq_add_one_of_ne_zero (by
        rintro rfl
        have := nextUnescapedCharacter_getElem? hfound
        simp at this : endquote ≠ 0)
      dsimp only
      split
      · refine endArgument_ne_singleton ?_ htwo _
        rintro last ⟨⟩
        omega
      · split
        · refine endArgument_ne_singleton ?_ ?_ _
          · intro last hlast
            obtain ⟨k, -, rfl⟩ := Option.map_eq_some_iff.mp hlast
            rw [if_pos rfl]
            omega
          · simp
        · refine endArgument_ne_singleton ?_ htwo _
          intro last hlast
          obtain ⟨k, -, rfl⟩ := Option.map_eq_some_iff.mp hlast
          omega

theorem endArgument_empty (hrest : Behind rest) (fuel : Nat) :
    (rest = [] → endArgument (getLastCharacterOfArgument (fuel + 1) ('"' :: rest))
        = (['"'], dropSpaces rest))
      ∧ ((endArgument (getLastCharacterOfArgument (fuel + 1) ('"' :: rest))).1 = ['"'] →
        rest = []) := by
  cases rest with
  | nil => exact ⟨fun _ => rfl, fun _ => rfl⟩
  | cons c rest =>
    obtain rfl : c = ' ' := by simpa [Behind] using hrest
    exact ⟨nofun, fun h => absurd h (endArgument_quote_blank _ _)⟩

theorem getLastCharacter_plain (hc : isQuote c = false) (fuel : Nat) (text : CStr) :
    getLastCharacterOfArgument (fuel + 1) (c :: text)
      = ((nextUnescapedCharacter text ' ').map (· + 1), c :: text) := by
  have hplain : c ≠ '"' ∧ c ≠ '\'' ∧ c ≠ recordSeparator := by simpa [isQuote] using hc
  rw [getLastCharacterOfArgument, if_neg (not_or.mpr ⟨hplain.1, hplain.2.1⟩), if_neg hplain.2.2]

theorem endArgument_plain (hc : isQuote c = false) (hy : Enclosed y) (hrest : Behind rest)
    (fuel : Nat) :
    (' ' ∉ y → endArgument (getLastCharacterOfArgument (fuel + 1) (c :: (y ++ '"' :: rest)))
        = (c :: (y ++ ['"']), dropSpaces rest))
      ∧ ((endArgument (getLastCharacterOfArgument (fuel + 1) (c :: (y ++ '"' :: rest)))).1
          = c :: (y ++ ['"']) → ' ' ∉ y) := by
  rw [getLastCharacter_plain hc]
  refine ⟨fun hblank => ?_, fun h hblank => ?_⟩
  · have hquoted : ' ' ∉ y ++ ['"'] := by simpa using hblank
    cases rest with
    | nil =>
      rw [nextUnescapedCharacter_none hquoted]
      rfl
    | cons d rest =>
      obtain rfl : d = ' ' := by simpa [Behind] using hrest
      have hbackslash : '\\' ∉ y ++ ['"'] := by simpa using hy.backslash
      rw [show y ++ '"' :: ' ' :: rest = y ++ ['"'] ++ ' ' :: rest by simp,
        nextUnescapedCharacter_plain (by decide) hquoted hbackslash]
      exact endArgument_append_blank (c :: (y ++ ['"'])) rest
  · -- the first blank of `y` ends the argument before its closing quote
    obtain ⟨a, b, rfl, ha⟩ := eq_append_cons_of_mem hblank
    rw [append_assoc, cons_append, nextUnescapedCharacter_plain (by decide) ha
      fun e => hy.backslash (mem_append_left _ e), endArgument] at h
    have hlength := congrArg length h
    simp at hlength

theorem findIdx?_recordSeparator_none (h : recordSeparator ∉ y) :
    y.findIdx? (· = recordSeparator) = none :=
  findIdx?_eq_none_iff.mpr fun _ hc => decide_eq_false fun e => h (e ▸ hc)

theorem endArgument_record (rest : CStr) (fuel : Nat) :
    (rest = [] ∧ recordSeparator ∉ y →
        endArgument (getLastCharacterOfArgument (fuel + 1) (recordSeparator :: (y ++ '"' :: rest)))
          = (recordSeparator :: (y ++ ['"']), dropSpaces rest))
      ∧ ((endArgument (getLastCharacterOfArgument (fuel + 1)
            (recordSeparator :: (y ++ '"' :: rest)))).1 = recordSeparator :: (y ++ ['"'])
          → rest = [] ∧ recordSeparator ∉ y) := by
  rw [getLastCharacterOfArgument, if_neg recordSeparator_not_quote, if_pos rfl]
  refine ⟨?_, fun h => ?_⟩
  · rintro ⟨rfl, hy⟩
    have hquoted : recordSeparator ∉ y ++ ['"'] := by
      simpa using ⟨hy, by decide⟩
    rw [findIdx?_recordSeparator_none hquoted]
    rfl
  · cases hfound : (y ++ '"' :: rest).findIdx? (· = recordSeparator) with
    | none =>
      have hnone := findIdx?_eq_none_iff.mp hfound
      rw [hfound] at h
      refine ⟨by simpa [endArgument] using h, fun hmem => ?_⟩
      simpa using hnone recordSeparator (mem_append_left _ hmem)
    | some k =>
      -- the argument ends with the record separator that was found, and not with the quote
      obtain ⟨hk, hget, -⟩ := findIdx?_eq_some_iff_getElem.mp hfound
      have htake : (y ++ '"' :: rest).take (k + 1) = y ++ ['"'] := by
        simpa [hfound, endArgument] using h
      have hsame := congrArg getLast? htake
      rw [take_succ_eq_append_getElem hk, getLast?_concat, getLast?_concat,
        of_decide_eq_true hget] at hsame
      exact absurd hsame (by decide)

theorem endArgument_second (hy : Enclosed y) (hrest : Behind rest) (fuel : Nat) :
    (Second rest y → endArgument (getLastCharacterOfArgument (fuel + 1) (y ++ '"' :: rest))
        = (y ++ ['"'], dropSpaces rest))
      ∧ ((endArgument (getLastCharacterOfArgument (fuel + 1) (y ++ '"' :: rest))).1 = y ++ ['"']
          → Second rest y) := by
  cases y with
  | nil => exact endArgument_empty hrest fuel
  | cons c y =>
    by_cases hc : c = recordSeparator
    · rw [hc]
      exact endArgument_record rest fuel
    · simp only [Second, if_neg hc]
      exact endArgument_plain (hy.isQuote_head hc) hy.tail hrest fuel

/-! ### More than two pieces -/

theorem count_removeBackslashes (hc : c ≠ '\\') (s : CStr) :
    (removeBackslashes s).count c = s.count c := by
  fun_induction removeBackslashes s with
  | case1 => rfl
  | case2 => simp [hc.symm]
  | case3 => rfl
  | case4 d rest ih => simp [count_cons, ih, hc.symm]
  | case5 d e rest hd ih => rw [count_cons, count_cons, ih]

theorem count_blank_joined (segments : List CStr) :
    (joined '"' segments).count ' ' = (written '"' segments).count ' ' := by
  induction segments with
  | nil => rfl
  | cons x xs ih =>
    cases xs with
    | nil => simp [joined, written]
    | cons y ys =>
      rw [joined_cons_cons, written_cons_cons, count_append, count_cons, ih]
      simp

theorem count_quote_joined (segments : List CStr) :
    (joined '"' segments).count '"' + 2 ≤ (written '"' segments).count '"' := by
  induction segments with
  | nil => exact Nat.le_refl _
  | cons x xs ih =>
    cases xs with
    | nil =>
      simp [joined, written]
    | cons y ys =>
      rw [joined_cons_cons, written_cons_cons]
      simp
      omega

theorem backslash_notMem_joined {segments : List CStr} (h : ∀ s ∈ segments, Enclosed s) :
    '\\' ∉ joined '"' segments := by
  induction segments with
  | nil => exact not_mem_nil
  | cons x xs ih =>
    have hx := (h x mem_cons_self).backslash
    cases xs with
    | nil => simpa [joined] using hx
    | cons y ys =>
      have hrest := ih fun s hs => h s (mem_cons_of_mem _ hs)
      rw [joined_cons_cons]
      simpa using ⟨hx, hrest⟩

theorem written_eq_cons (q : Char) (segments : List CStr) :
    written q segments = q :: (written q segments).tail := rfl

theorem head_written_tail (h : ∀ s ∈ z :: zs, Enclosed s)
    (rest : CStr) : ((written '"' (z :: zs)).tail ++ rest).head? ≠ some '\\' := by
  have htail : ∃ text, (written '"' (z :: zs)).tail ++ rest = z ++ '"' :: text := by
    cases zs with
    | nil => exact ⟨rest, by simp [written]⟩
    | cons y ys =>
      have hwritten := written_cons_cons_append '"' z y ys rest
      rw [written_eq_cons, cons_append, cons.injEq] at hwritten
      exact ⟨_, hwritten.2⟩
  obtain ⟨text, htext⟩ := htail
  rw [htext]
  cases z with
  | nil => simp
  | cons c z =>
    intro e
    have hc : c = '\\' := by simpa using e
    exact (h _ mem_cons_self).backslash (hc ▸ mem_cons_self)

theorem getLastCharacter_escaped {text : CStr} (hne : text ≠ []) (hhead : text.head? ≠ some '\\')
    (fuel : Nat) :
    getLastCharacterOfArgument (fuel + 1) ('"' :: '\\' :: '"' :: '"' :: text)
      = (if text.head? = some ' ' then some 4 else (nextUnescapedCharacter text ' ').map (4 + ·),
        '"' :: '\\' :: '"' :: '"' :: text) := by
  have hfound : nextUnescapedCharacter ('\\' :: '"' :: '"' :: text) '"' = some 2 := rfl
  rw [getLastCharacterOfArgument, if_pos (.inl rfl), hfound]
  simp only [drop_succ_cons, drop_zero, hne, false_or]
  split
  · rfl
  · rw [if_neg]
    intro e
    have htake := congrArg head? e
    rw [head?_take, if_neg (by decide)] at htake
    exact hhead htake

theorem removeBackslashes_ne_joined (h : ∀ s ∈ z :: zs, Enclosed s) (rest : CStr) (fuel : Nat)
    {s : CStr} (hs : s = (endArgument (getLastCharacterOfArgument (fuel + 1)
      ('"' :: '\\' :: '"' :: (written '"' (z :: zs) ++ rest)))).1) (hlast : s.getLast? ≠ some '"') :
    removeBackslashes s ≠ joined '"' (z :: zs) := by
  intro heq
  have hblank := congrArg (count ' ') heq
  have hquote := congrArg (count '"') heq
  rw [count_removeBackslashes (by decide), count_blank_joined] at hblank
  rw [count_removeBackslashes (by decide)] at hquote
  have hmore := count_quote_joined (z :: zs)
  rw [written_eq_cons] at hblank hmore hs
  have hhead := head_written_tail h rest
  have hne : (written '"' (z :: zs)).tail ++ rest ≠ [] := by simp [written]
  generalize (written '"' (z :: zs)).tail = tail at *
  rw [cons_append, getLastCharacter_escaped hne hhead] at hs
  split at hs
  · exact hlast (by rw [hs]; rfl)
  · cases hfound : nextUnescapedCharacter (tail ++ rest) ' ' with
    | none =>
      rw [hfound] at hs
      have hcount : s.count '"' = 3 + (tail ++ rest).count '"' := by
        rw [hs]
        simp [endArgument]
        omega
      rw [count_append] at hcount
      rw [count_cons_self] at hmore
      omega
    | some k =>
      have hcut : s = '"' :: '\\' :: '"' :: '"' :: (tail ++ rest).take k := by
        rw [hs, hfound, Option.map_some, endArgument]
        rw [Nat.add_comm]
        rfl
      by_cases hk : k < tail.length
      · -- a blank of the argument ends it, and is not in it
        have hget : tail[k]? = some ' ' := by
          rw [← nextUnescapedCharacter_getElem? hfound, getElem?_append_left hk]
        have hcount : tail.count ' ' = (tail.take k).count ' ' + 1 +
          (tail.drop (k + 1)).count ' ' := by
          have hblank : tail[k] = ' ' := (List.getElem?_eq_some_iff.mp hget).2
          conv_lhs => rw [← take_append_drop k tail, drop_eq_getElem_cons hk, hblank]
          exact numSpaces_append_blank _ _
        rw [hcut, take_append_of_le_length (by omega)] at hblank
        simp at hblank
        omega
      · -- the argument has all quotes as they are written
        rw [hcut, take_append] at hquote
        rw [take_of_length_le (Nat.not_lt.mp hk)] at hquote
        rw [count_cons_self] at hmore
        simp at hquote
        omega

theorem getLastCharacter_second_text (hy : Enclosed y)
    (h : ∀ s ∈ z :: zs, Enclosed s) (rest : CStr) (fuel : Nat) :
    (getLastCharacterOfArgument (fuel + 1)
        (y ++ '"' :: '\\' :: '"' :: (written '"' (z :: zs) ++ rest))).2
      = y ++ '"' :: '\\' :: '"' :: (written '"' (z :: zs) ++ rest) := by
  cases y with
  | nil =>
    have hne : (written '"' (z :: zs)).tail ++ rest ≠ [] := by simp [written]
    rw [nil_append, written_eq_cons, cons_append,
      getLastCharacter_escaped hne (head_written_tail h rest)]
  | cons c y =>
    rw [cons_append]
    by_cases hc : c = recordSeparator
    · rw [hc, getLastCharacterOfArgument, if_neg recordSeparator_not_quote, if_pos rfl]
    · rw [getLastCharacter_plain (hy.isQuote_head hc)]

theorem unquoteArgument_ne_joined
    (h : ∀ s ∈ x :: y :: z :: zs, Enclosed s) (rest : CStr) (fuel : Nat) :
    unquoteArgument (endArgument (getLastCharacterOfArgument (fuel + 2)
        (written '"' (x :: y :: z :: zs) ++ rest))).1 ≠ joined '"' (x :: y :: z :: zs) := by
  have hx := h x (by simp)
  have hy := h y (by simp)
  have hz : ∀ s ∈ z :: zs, Enclosed s := fun s hs => h s (by simp_all)
  intro heq
  rw [written_cons_cons_append, written_cons_cons_append, getLastCharacter_joint_double hx,
    endArgument_append, joined_cons_cons] at heq
  generalize hs : (endArgument (getLastCharacterOfArgument (fuel + 1)
    (y ++ '"' :: '\\' :: '"' :: (written '"' (z :: zs) ++ rest)))).1 = s at heq
  rcases unquoteArgument_joint hx heq with hvalue | ⟨hvalue, hlast⟩
  · -- the backslash of the second joint is still in the text
    have hpre := endArgument_isPrefix (getLastCharacterOfArgument (fuel + 1)
      (y ++ '"' :: '\\' :: '"' :: (written '"' (z :: zs) ++ rest)))
    rw [getLastCharacter_second_text hy hz, hs, hvalue, joined_cons_cons, append_assoc,
      prefix_append_right_inj, cons_append, cons_prefix_cons] at hpre
    have hmem : '\\' ∈ joined '"' (z :: zs) ++ ['"'] := by
      cases hjoined : joined '"' (z :: zs) ++ ['"'] with
      | nil => simp at hjoined
      | cons d t =>
        rw [hjoined, cons_prefix_cons] at hpre
        exact hpre.2.1 ▸ mem_cons_self
    rcases mem_append.mp hmem with hmem | hmem
    · exact backslash_notMem_joined hz hmem
    · simp at hmem
  · rw [joined_cons_cons] at hvalue
    cases y with
    | nil =>
      have hrest : joined '"' (z :: zs) = removeBackslashes s := by simpa using hvalue
      exact removeBackslashes_ne_joined hz rest fuel hs.symm hlast hrest.symm
    | cons c y =>
      have hc : c = '"' := by
        rw [cons_append, cons.injEq] at hvalue
        exact hvalue.1
      exact hy.double (hc ▸ mem_cons_self)

/-! ## Both kinds -/

/-- What `unquoteArgument` needs to read one argument. -/
def ReadAsOne (rest : CStr) : List CStr → Prop
  | [_] => True
  | [_, y] => Second rest y
  | _ => False

instance (rest : CStr) (segments : List CStr) : Decidable (ReadAsOne rest segments) :=
  match segments with
  | [] => isFalse id
  | [_] => isTrue trivial
  | [_, y] => inferInstanceAs (Decidable (Second rest y))
  | _ :: _ :: _ :: _ => isFalse id

theorem firstArgument_single (h : ∀ s ∈ x :: xs, Enclosed s) (hrest : Behind rest) :
    firstArgument (written '\'' (x :: xs) ++ rest) = (joined '\'' (x :: xs), dropSpaces rest) := by
  have hfuel : xs.length < (written '\'' (x :: xs) ++ rest).length + 1 := by
    have := length_lt_written '\'' x xs
    rw [length_append]
    omega
  rw [firstArgument, endArgument_single h hrest hfuel]
  rw [← cons_append, unquoteArgument_enclosed (by decide)]

theorem firstArgument_two (hx : Enclosed x) (hy : Enclosed y)
    (hrest : Behind rest) {fuel : Nat} {cut : CStr × CStr}
    (hcut : cut = endArgument
      (getLastCharacterOfArgument (fuel + 2) (written '"' [x, y] ++ rest))) :
    (unquoteArgument cut.1, cut.2) = (joined '"' [x, y], dropSpaces rest) ↔ Second rest y := by
  have htext : written '"' [x, y] ++ rest
      = '"' :: (x ++ '"' :: '\\' :: '"' :: '"' :: (y ++ '"' :: rest)) := by
    rw [written_cons_cons_append]
    simp [written]
  have hjoined : joined '"' [x, y] = x ++ '"' :: y := by simp [joined]
  obtain ⟨hread, hsecond⟩ := endArgument_second hy hrest fuel
  rw [htext, getLastCharacter_joint_double hx, endArgument_append] at hcut
  rw [hcut, hjoined]
  refine ⟨fun heq => ?_, fun h => ?_⟩
  · rcases unquoteArgument_joint hx (congrArg Prod.fst heq) with hs | ⟨hs, -⟩
    · exact hsecond hs
    · exact absurd (hs ▸ mem_cons_self) hy.double
  · rw [hread h, unquoteArgument_joint_value]

theorem firstArgument_double (h : ∀ s ∈ x :: xs, Enclosed s) (hrest : Behind rest) :
    firstArgument (written '"' (x :: xs) ++ rest) = (joined '"' (x :: xs), dropSpaces rest)
      ↔ ReadAsOne rest (x :: xs) := by
  have hx := h x mem_cons_self
  match xs, h with
  | [], _ =>
    refine iff_of_true ?_ trivial
    rw [firstArgument, endArgument_segment (.inl rfl) hx hrest]
    rw [← cons_append, unquoteArgument_enclosed (by decide)]
  | [y], h => exact firstArgument_two hx (h y (by simp)) hrest rfl
  | y :: z :: zs, h =>
    refine iff_of_false (fun e => ?_) id
    exact unquoteArgument_ne_joined h rest _ (congrArg Prod.fst e)

/--
With single quotes any number of pieces is one argument, whatever blanks are in them. With double
quotes one pair of quotes is, and two pairs are exactly if the second piece has no blank behind its
first character, or, if it is empty or starts with a record separator, nothing is behind the
argument (and no other record separator is in the piece). More than two pairs never are.
-/
theorem firstArgument_written {x : CStr} {xs : List CStr} (h : ∀ s ∈ x :: xs, Enclosed s)
    {rest : CStr} (hrest : Behind rest) :
    firstArgument (written '\'' (x :: xs) ++ rest) = (joined '\'' (x :: xs), dropSpaces rest)
      ∧ (firstArgument (written '"' (x :: xs) ++ rest) = (joined '"' (x :: xs), dropSpaces rest)
        ↔ ReadAsOne rest (x :: xs)) :=
  ⟨firstArgument_single h hrest, firstArgument_double h hrest⟩

/-- `'x y'\''z w' v` and `"x y"\""zw" v`. -/
theorem firstArgument_written_two :
    firstArgument "'x y'\\''z w' v".toList = ("x y'z w".toList, "v".toList)
      ∧ firstArgument "\"x y\"\\\"\"zw\" v".toList = ("x y\"zw".toList, "v".toList) := by
  have hw : ∀ s ∈ [['x', ' ', 'y'], ['z', ' ', 'w']], Enclosed s := by
    intro s hs
    rcases mem_pair.mp hs with rfl | rfl <;> exact ⟨by decide, by decide, by decide⟩
  have hzw : ∀ s ∈ [['x', ' ', 'y'], ['z', 'w']], Enclosed s := by
    intro s hs
    rcases mem_pair.mp hs with rfl | rfl <;> exact ⟨by decide, by decide, by decide⟩
  have hrest : Behind [' ', 'v'] := .inr rfl
  exact ⟨(firstArgument_written hw hrest).1, (firstArgument_written hzw hrest).2.mpr (by decide)⟩

/-- `"x"\""y z"` is read as the two arguments `"x"y` and `z"`, and `"x"\""y"\""z"` as one that still
has the backslash. -/
theorem firstArgument_split :
    firstArgument "\"x\"\\\"\"y z\"".toList = ("\"x\"y".toList, "z\"".toList)
      ∧ firstArgument "\"x\"\\\"\"y\"\\\"\"z\"".toList = ("x\"y\"\\\"\"z".toList, [])
      ∧ (arguments "echo \"x\"\\\"\"y z\"".toList).map Token.text
        = ["echo".toList, "\"x\"y".toList, "z\"".toList] := by
  decide +kernel

end IosSystem.Shell
