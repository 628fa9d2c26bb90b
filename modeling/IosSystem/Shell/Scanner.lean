import IosSystem.Shell.Redirect

/-!
# What is quoted

Three functions of the shell layer skip quoted text: `find_matching_paren` and `find_backtick` have
`in_single_quote` and `in_double_quote` (`Quotes`), `strstrquoted` has `quotechar` and `esclen`
(`Scan`). They agree on a text unless `strstrquoted` passes over an escaped quote, since the other
two do not know backslashes (`scanners_agree_iff`).

`strstrquoted_eq_leftmost_iff` compares `strstrquoted` with the rule it is meant to follow
(`Region`, `leftmost`). Outside quotes all backslashes since the last quote character count
(`Reading`), and a partial match that fails is not looked at again (`Misses`).
-/

namespace IosSystem.Shell

open List Option Quotes

/-! ## The variables along a text -/

def Quotes.next (q : Quotes) (ch : Char) : Quotes := (q.toggle ch).getD q

def Quotes.over (q : Quotes) (xs : CStr) : Quotes := xs.foldl Quotes.next q

def Quotes.inside (q : Quotes) : Bool := q.single || q.double

def Scan.inside (s : Scan) : Bool := s.quotechar.isSome

/-- `find_matching_paren` and `find_backtick` are in quotes at position `i` of the text they were
started on. -/
def Quotes.insideAt (text : CStr) (i : Nat) : Bool := (Quotes.start.over (text.take i)).inside

/-- `strstrquoted` is in quotes at position `i`. -/
def Scan.insideAt (str2 text : CStr) (i : Nat) : Bool := (Scan.start.over str2 (text.take i)).inside

theorem Quotes.eq_start_iff (q : Quotes) : q = Quotes.start ↔ q.inside = false := by
  obtain ⟨single, double⟩ := q
  cases single <;> cases double <;> decide

theorem Quotes.over_cons (q : Quotes) (c : Char) (xs : CStr) :
    q.over (c :: xs) = (q.next c).over xs := rfl

theorem Quotes.over_concat (q : Quotes) (xs : CStr) (c : Char) :
    q.over (xs ++ [c]) = (q.over xs).next c := by
  simp [Quotes.over]

theorem Scan.over_concat (str2 : CStr) (s : Scan) (xs : CStr) (c : Char) :
    s.over str2 (xs ++ [c]) = (s.over str2 xs).step str2 c := by
  rw [Scan.over_append, Scan.over_cons, Scan.over_nil]

/-- The quotes that `find_backtick` and `find_matching_paren` keep track of are those of
`strstrquoted`. -/
def Quotes.ofQuotechar : Option Char → Quotes
  | none => Quotes.start
  | some q => if q = '"' then ⟨false, true⟩ else ⟨true, false⟩

/-- `strstrquoted` is in one of the two kinds of quotes. -/
def Scan.Proper (s : Scan) : Prop := ∀ q, s.quotechar = some q → q = '"' ∨ q = '\''

theorem Scan.step_quotechar (s : Scan) (str2 : CStr) (c : Char) :
    (s.step str2 c).quotechar = s.quotechar ∨ (s.step str2 c).quotechar = none ∨
      ((s.step str2 c).quotechar = some c ∧ (c = '"' ∨ c = '\'')) := by
  obtain ⟨quotechar, e, m⟩ := s
  unfold Scan.step
  cases quotechar with
  | none =>
    dsimp only
    split
    · next hc =>
      split
      · exact .inr (.inr ⟨rfl, hc⟩)
      · exact .inl rfl
    · exact .inl rfl
  | some q =>
    dsimp only
    split
    · exact .inl rfl
    · split
      · split
        · exact .inl rfl
        · exact .inr (.inl rfl)
      · exact .inl rfl

variable {s : Scan} {c : Char} {text pre post str1 str2 : CStr} {p : Nat}

theorem Scan.Proper.step (h : s.Proper) (str2 : CStr) (c : Char) : (s.step str2 c).Proper := by
  intro q hq
  rcases s.step_quotechar str2 c with heq | heq | ⟨heq, hc⟩
  · exact h q (heq.symm.trans hq)
  · cases heq.symm.trans hq
  · obtain rfl := some.inj (heq.symm.trans hq)
    exact hc

theorem Scan.proper_over (str2 xs : CStr) : (Scan.start.over str2 xs).Proper := by
  induction xs using reverseRecOn with
  | nil => rintro q ⟨⟩
  | append_singleton xs c ih =>
    rw [Scan.over_concat]
    exact ih.step str2 c

/-! ## Escaped quotes -/

/-- `strstrquoted` passes over this character because of the backslashes before it; otherwise the
character would open quotes, or close them. -/
def Scan.Skips (s : Scan) (c : Char) : Prop :=
  s.esclen % 2 = 1 ∧
    match s.quotechar with
    | none => c = '"' ∨ c = '\''
    | some q => c = q

theorem Scan.next_ofQuotechar (hs : s.Proper) (hc : ¬ s.Skips c) (str2 : CStr) :
    Quotes.ofQuotechar (s.step str2 c).quotechar = (Quotes.ofQuotechar s.quotechar).next c := by
  obtain ⟨quotechar, e, m⟩ := s
  cases quotechar with
  | none =>
    by_cases hq : c = '"' ∨ c = '\''
    · have he : e % 2 = 0 := by
        by_contra hodd
        exact hc ⟨by show e % 2 = 1; omega, hq⟩
      rcases hq with rfl | rfl <;>
        simp [Scan.step, he, Quotes.ofQuotechar, Quotes.next, Quotes.toggle, Quotes.start]
    · rw [not_or] at hq
      simp [Scan.step, hq.1, hq.2, Quotes.next, Quotes.toggle]
  | some q =>
    have hq := hs q rfl
    by_cases hcq : c = q
    · subst hcq
      have he : ¬ e % 2 = 1 := fun hodd => hc ⟨hodd, rfl⟩
      rcases hq with rfl | rfl <;>
        simp [Scan.step, he, Quotes.ofQuotechar, Quotes.next, Quotes.toggle, Quotes.start]
    · have hstep : (Scan.step str2 ⟨some q, e, m⟩ c).quotechar = some q := by
        by_cases hb : c = '\\' <;> simp [Scan.step, hb, hcq]
      rw [hstep]
      rcases hq with rfl | rfl <;>
        simp [Quotes.ofQuotechar, Quotes.next, Quotes.toggle, hcq]

theorem Scan.inside_of_skips (hs : s.Proper) (hc : s.Skips c) (str2 : CStr) :
    (s.step str2 c).inside ≠ ((Quotes.ofQuotechar s.quotechar).next c).inside := by
  obtain ⟨quotechar, e, m⟩ := s
  obtain ⟨he, hc⟩ := hc
  cases quotechar with
  | none =>
    rcases hc with rfl | rfl <;>
      simp [Scan.step, he, Scan.inside, Quotes.ofQuotechar, Quotes.next, Quotes.toggle,
        Quotes.start, Quotes.inside]
  | some q =>
    obtain rfl : c = q := hc
    rcases hs c rfl with rfl | rfl <;>
      simp [Scan.step, he, Scan.inside, Quotes.ofQuotechar, Quotes.next, Quotes.toggle,
        Quotes.inside]

theorem Quotes.inside_ofQuotechar (quotechar : Option Char) :
    (Quotes.ofQuotechar quotechar).inside = quotechar.isSome := by
  cases quotechar with
  | none => rfl
  | some q =>
    unfold ofQuotechar
    dsimp only
    split <;> rfl

def NoEscapedQuote (text : CStr) : Prop :=
  ∀ pre c post, text = pre ++ c :: post → post ≠ [] → ¬ (Scan.start.over [] pre).Skips c

theorem Scan.skips_congr (str2 pre : CStr) (c : Char) :
    (Scan.start.over str2 pre).Skips c ↔ (Scan.start.over [] pre).Skips c := by
  have h := Scan.over_quotes str2 [] (s := Scan.start) rfl rfl pre
  unfold Scan.Skips
  rw [h.1, h.2]

theorem NoEscapedQuote.over (h : NoEscapedQuote text) (str2 : CStr)
    (htext : text = pre ++ post) (hpost : post ≠ []) :
    Quotes.start.over pre = Quotes.ofQuotechar (Scan.start.over str2 pre).quotechar := by
  induction pre using reverseRecOn generalizing post with
  | nil => rfl
  | append_singleton pre c ih =>
    have htext' : text = pre ++ c :: post := by simpa using htext
    rw [over_concat, ih htext' (cons_ne_nil _ _), Scan.over_concat,
      Scan.next_ofQuotechar (Scan.proper_over str2 pre)]
    rw [Scan.skips_congr]
    exact h pre c post htext' hpost

/-! ## The body of a substitution -/

section

variable {σ : Type} (next : σ → Char → σ) (inside : σ → Bool)

/-- How deep the parentheses outside quotes are nested behind a text, for a scanner with the given
variables; `none` when a `)` closes nothing. -/
def depthBy (s : σ) (depth : Nat) : CStr → Option Nat
  | [] => some depth
  | c :: rest =>
    if inside s = false ∧ c = '(' then depthBy (next s c) (depth + 1) rest
    else if inside s = false ∧ c = ')' then
      if depth = 0 then none else depthBy (next s c) (depth - 1) rest
    else depthBy (next s c) depth rest

end

/-- The text is balanced to `strstrquoted`: behind it no quotes and no parentheses are open. -/
def Balanced (str2 body : CStr) : Prop :=
  (Scan.start.over str2 body).quotechar = none ∧
    depthBy (Scan.step str2) Scan.inside Scan.start 0 body = some 0

theorem depthBy_congr {σ τ : Type} {next : σ → Char → σ} {inside : σ → Bool} {next' : τ → Char → τ}
    {inside' : τ → Bool} {s : σ} {t : τ} (depth : Nat) {xs : CStr}
    (h : ∀ pre post, xs = pre ++ post → post ≠ [] →
      inside (pre.foldl next s) = inside' (pre.foldl next' t)) :
    depthBy next inside s depth xs = depthBy next' inside' t depth xs := by
  induction xs generalizing s t depth with
  | nil => rfl
  | cons c xs ih =>
    have hhead := h [] (c :: xs) rfl (cons_ne_nil _ _)
    have htail : ∀ pre post, xs = pre ++ post → post ≠ [] →
        inside (pre.foldl next (next s c)) = inside' (pre.foldl next' (next' t c)) := by
      intro pre post hxs hpost
      exact h (c :: pre) post (by rw [hxs]; rfl) hpost
    have hhead : inside s = inside' t := hhead
    unfold depthBy
    rw [hhead]
    simp [fun d => ih d htail]

/-- What `find_matching_paren` says about a position. -/
theorem matchParen_eq_some {depth : Nat} {q : Quotes} {j : Nat}
    (h : matchParen (depth + 1) q text = some j) :
    j < text.length ∧ (q.over (text.take j)).inside = false ∧
      depthBy Quotes.next Quotes.inside q depth (text.take j) = some 0 := by
  induction text generalizing depth q j with
  | nil => cases h
  | cons c text ih =>
    -- the three ways to go on, with the new depth and the new variables
    have hgo : ∀ {d : Nat} {k : Nat}, matchParen (d + 1) (q.next c) text = some k →
        k + 1 < (c :: text).length ∧ (q.over ((c :: text).take (k + 1))).inside = false ∧
          depthBy Quotes.next Quotes.inside (q.next c) d (text.take k) = some 0 := by
      intro d k hk
      obtain ⟨hlt, hin, hdepth⟩ := ih hk
      exact ⟨by simpa using hlt, by simpa [Quotes.over_cons] using hin, hdepth⟩
    rw [matchParen] at h
    cases htoggle : q.toggle c with
    | some q' =>
      have hnext : q.next c = q' := by rw [Quotes.next, htoggle]; rfl
      rw [htoggle] at h
      obtain ⟨k, hk, rfl⟩ := map_eq_some_iff.mp h
      obtain ⟨hlt, hin, hdepth⟩ := hgo (hnext ▸ hk)
      refine ⟨hlt, hin, ?_⟩
      have hparen : c ≠ '(' ∧ c ≠ ')' := by
        constructor <;> rintro rfl <;> simp [Quotes.toggle] at htoggle
      rw [take_succ_cons, depthBy, if_neg (fun h => hparen.1 h.2),
        if_neg (fun h => hparen.2 h.2)]
      exact hdepth
    | none =>
      have hnext : q.next c = q := by rw [Quotes.next, htoggle]; rfl
      rw [htoggle] at h
      simp only [Quotes.eq_start_iff] at h
      by_cases hopen : q.inside = false ∧ c = '('
      · rw [if_pos hopen] at h
        obtain ⟨k, hk, rfl⟩ := map_eq_some_iff.mp h
        obtain ⟨hlt, hin, hdepth⟩ := hgo (by rw [hnext]; exact hk)
        refine ⟨hlt, hin, ?_⟩
        rw [take_succ_cons, depthBy, if_pos hopen]
        exact hdepth
      · rw [if_neg hopen] at h
        by_cases hclose : q.inside = false ∧ c = ')'
        · rw [if_pos hclose] at h
          by_cases hdone : depth + 1 = 1
          · rw [if_pos hdone] at h
            cases h
            obtain rfl : depth = 0 := by omega
            exact ⟨by simp, hclose.1, rfl⟩
          · rw [if_neg hdone] at h
            obtain ⟨k, hk, rfl⟩ := map_eq_some_iff.mp h
            obtain ⟨d, rfl⟩ : ∃ d, depth = d + 1 := ⟨depth - 1, by omega⟩
            obtain ⟨hlt, hin, hdepth⟩ := hgo (d := d) (by rw [hnext]; exact hk)
            refine ⟨hlt, hin, ?_⟩
            rw [take_succ_cons, depthBy, if_neg hopen, if_pos hclose,
              if_neg (Nat.succ_ne_zero d)]
            exact hdepth
        · rw [if_neg hclose] at h
          obtain ⟨k, hk, rfl⟩ := map_eq_some_iff.mp h
          obtain ⟨hlt, hin, hdepth⟩ := hgo (by rw [hnext]; exact hk)
          refine ⟨hlt, hin, ?_⟩
          rw [take_succ_cons, depthBy, if_neg hopen, if_neg hclose]
          exact hdepth

theorem backtickFrom_eq_some {q : Quotes} {i : Nat} (h : backtickFrom q text = some i) :
    text[i]? = some '`' ∧ (q.over (text.take i)).inside = false := by
  refine ⟨backtickFrom_getElem h, ?_⟩
  induction text generalizing q i with
  | nil => cases h
  | cons c text ih =>
    rw [backtickFrom] at h
    cases htoggle : q.toggle c with
    | some q' =>
      have hnext : q.next c = q' := by rw [Quotes.next, htoggle]; rfl
      rw [htoggle] at h
      obtain ⟨k, hk, rfl⟩ := map_eq_some_iff.mp h
      rw [take_succ_cons, Quotes.over_cons, hnext]
      exact ih hk
    | none =>
      have hnext : q.next c = q := by rw [Quotes.next, htoggle]; rfl
      rw [htoggle] at h
      by_cases hb : q = Quotes.start ∧ c = '`'
      · rw [if_pos hb] at h
        cases h
        exact (Quotes.eq_start_iff q).mp hb.1
      · rw [if_neg hb] at h
        obtain ⟨k, hk, rfl⟩ := map_eq_some_iff.mp h
        rw [take_succ_cons, Quotes.over_cons, hnext]
        exact ih hk

/-! ## Agreement -/

/-- `strstrquoted` and the scanners of the substitutions see the same quotes. -/
structure ScannersAgree (text : CStr) : Prop where
  positions : ∀ (str2 : CStr) (i : Nat), i < text.length →
    Quotes.insideAt text i = Scan.insideAt str2 text i
  /-- the backtick that is found is not quoted to `strstrquoted` either -/
  backtick : ∀ (str2 : CStr) (i : Nat), findBacktick text = some i →
    Scan.insideAt str2 text i = false
  /-- and the recursive call of `ios_system` gets a balanced text -/
  body : ∀ (str2 : CStr) (j : Nat), findMatchingParen text = some j → Balanced str2 (text.take j)

theorem NoEscapedQuote.inside (h : NoEscapedQuote text) (str2 : CStr) (htext : text = pre ++ post)
    (hpost : post ≠ []) :
    (Quotes.start.over pre).inside = (Scan.start.over str2 pre).inside := by
  rw [h.over str2 htext hpost, inside_ofQuotechar]
  rfl

theorem drop_ne_nil {i : Nat} (h : i < text.length) : text.drop i ≠ [] := by
  rw [Ne, drop_eq_nil_iff]
  omega

theorem NoEscapedQuote.insideAt (h : NoEscapedQuote text) (str2 : CStr) {i : Nat}
    (hi : i < text.length) : Quotes.insideAt text i = Scan.insideAt str2 text i :=
  h.inside str2 (take_append_drop i text).symm (drop_ne_nil hi)

theorem NoEscapedQuote.balanced (h : NoEscapedQuote text) (str2 : CStr) {j : Nat}
    (hj : findMatchingParen text = some j) : Balanced str2 (text.take j) := by
  obtain ⟨hlt, hin, hdepth⟩ := matchParen_eq_some hj
  constructor
  · have hquoted : (Scan.start.over str2 (text.take j)).inside = false :=
      (h.insideAt str2 hlt).symm.trans hin
    exact isNone_iff_eq_none.mp (by simpa [Scan.inside] using hquoted)
  · rw [← hdepth]
    refine depthBy_congr 0 fun pre post hpre hpost => ?_
    have htext : text = pre ++ (post ++ text.drop j) := by
      rw [← append_assoc, ← hpre, take_append_drop]
    exact (h.inside str2 htext (by simp [hpost])).symm

theorem differ_of_skips (hfirst : NoEscapedQuote (pre ++ [c]))
    (hskips : (Scan.start.over [] pre).Skips c) :
    (Quotes.start.over (pre ++ [c])).inside ≠ (Scan.start.over [] (pre ++ [c])).inside := by
  rw [over_concat, Scan.over_concat, hfirst.over [] rfl (cons_ne_nil _ _)]
  exact (Scan.inside_of_skips (Scan.proper_over [] pre) hskips []).symm

/-- The scanners agree exactly on the texts without escaped quotes. -/
theorem scanners_agree_iff (text : CStr) : ScannersAgree text ↔ NoEscapedQuote text := by
  constructor
  · intro h pre
    -- the quotes further ahead are not skipped, so this would be the first
    induction hn : pre.length using Nat.strongRecOn generalizing pre with
    | ind n ih =>
      intro c post htext hpost hskips
      have hfirst : NoEscapedQuote (pre ++ [c]) := by
        intro pre' c' post' heq hpost'
        have hlen := congrArg List.length heq
        have hpos := List.length_pos_iff.mpr hpost'
        simp only [List.length_append, List.length_cons, List.length_nil] at hlen
        refine ih pre'.length (by omega) pre' rfl c' (post' ++ post) ?_ (by simp [hpost])
        rw [htext, List.append_cons, heq]
        simp
      have hlt : pre.length + 1 < text.length := by
        have := List.length_pos_iff.mpr hpost
        rw [htext, List.length_append, List.length_cons]
        omega
      have htake : text.take (pre.length + 1) = pre ++ [c] := by
        rw [htext, List.append_cons]
        exact List.take_left' (by simp)
      have hsame := h.positions [] (pre.length + 1) hlt
      rw [Quotes.insideAt, Scan.insideAt, htake] at hsame
      exact differ_of_skips hfirst hskips hsame
  · intro h
    refine ⟨fun str2 i hi => h.insideAt str2 hi, fun str2 i hi => ?_, fun str2 j hj =>
      h.balanced str2 hj⟩
    obtain ⟨hget, hin⟩ := backtickFrom_eq_some hi
    rw [← h.insideAt str2 (List.getElem?_eq_some_iff.mp hget).1]
    exact hin

/--
The body of `$(echo \")`: to `find_matching_paren` the parenthesis is quoted, and the substitution
is left as it stands.
-/
theorem scanners_differ :
    Quotes.insideAt "echo \\\")".toList 7 = true ∧
    Scan.insideAt [')'] "echo \\\")".toList 7 = false ∧
    findMatchingParen "echo \\\")".toList = none ∧ ¬ ScannersAgree "echo \\\")".toList := by
  refine ⟨by decide, by decide, by decide, fun h => ?_⟩
  have := h.positions [')'] 7 (by decide)
  revert this
  decide

theorem strstrquoted_char_isSome (hc : c ≠ '"' ∧ c ≠ '\'' ∧ c ≠ '\\') (command : CStr) :
    (strstrquoted command [c]).isSome ↔
      ∃ i < command.length, command[i]? = some c ∧ Scan.insideAt [c] command i = false := by
  rw [strstrquoted_eq_findFrom (by simpa [Plain] using hc) (by simp)]
  constructor
  · intro h
    obtain ⟨k, hk⟩ := isSome_iff_exists.mp h
    obtain ⟨pre, post, e, rfl, -, hover, -⟩ := findFrom_split (by simp) rfl hk
    refine ⟨pre.length, by simp, by simp, ?_⟩
    rw [Scan.insideAt, append_assoc, take_left, hover]
    rfl
  · rintro ⟨i, hi, hget, hin⟩
    rw [isSome_iff_ne_none]
    intro hnone
    have hsplit : command = command.take i ++ c :: command.drop (i + 1) := by
      rw [getElem?_eq_getElem hi] at hget
      rw [← some.inj hget, getElem_cons_drop, take_append_drop]
    rw [hsplit] at hnone
    refine quoted_of_findFrom_none hc rfl hnone ?_
    rwa [Scan.insideAt, Scan.inside, isSome_eq_false_iff, isNone_iff_eq_none] at hin

/-! ## Quoted regions -/

/-- What is known behind a prefix: the quote that is open, and how many backslashes stand directly
before the next character. -/
structure Region where
  quote : Option Char
  backslashes : Nat

/--
A quote character opens a region when none is open, and closes the one it has opened; a backslash
takes that away from it, unless it is escaped itself.
-/
def Region.step (r : Region) (c : Char) : Region :=
  if c = '\\' then ⟨r.quote, r.backslashes + 1⟩
  else if (c = '"' ∨ c = '\'') ∧ r.backslashes % 2 = 0 then
    match r.quote with
    | none => ⟨some c, 0⟩
    | some q => ⟨if c = q then none else some q, 0⟩
  else ⟨r.quote, 0⟩

def region (pre : CStr) : Region := pre.foldl Region.step ⟨none, 0⟩

theorem region_concat (pre : CStr) (c : Char) : region (pre ++ [c]) = (region pre).step c := by
  simp [region]

/-- The text `str2` stands at position `p`, and all of it is outside the regions. -/
def Occurs (str1 str2 : CStr) (p : Nat) : Prop :=
  str2 <+: str1.drop p ∧ ∀ j < str2.length, (region (str1.take (p + j))).quote = none

instance (str1 str2 : CStr) (p : Nat) : Decidable (Occurs str1 str2 p) :=
  inferInstanceAs (Decidable (_ ∧ _))

/-- What `strstrquoted` is meant to return. -/
def leftmost (str1 str2 : CStr) : Option Nat :=
  (range (str1.length + 1)).find? fun p => decide (Occurs str1 str2 p)

theorem leftmost_eq_some (h : leftmost str1 str2 = some p) :
    Occurs str1 str2 p ∧ ∀ k < p, ¬ Occurs str1 str2 k := by
  rw [leftmost, find?_range_eq_some] at h
  obtain ⟨hp, -, hmin⟩ := h
  exact ⟨of_decide_eq_true hp, fun k hk => by simpa using hmin k hk⟩

theorem Occurs.lt_length (hne : str2 ≠ []) (h : Occurs str1 str2 p) : p < str1.length := by
  have hlen := h.1.length_le
  have hpos := length_pos_iff.mpr hne
  rw [length_drop] at hlen
  omega

theorem leftmost_eq_none (hne : str2 ≠ []) (h : leftmost str1 str2 = none)
    (p : Nat) : ¬ Occurs str1 str2 p := by
  intro hocc
  rw [leftmost, find?_range_eq_none] at h
  have := h p (by have := hocc.lt_length hne; omega)
  simp [hocc] at this

theorem region_plain (pre : CStr) {xs : CStr} (hp : Plain xs) :
    (region (pre ++ xs)).quote = (region pre).quote := by
  induction xs using reverseRecOn with
  | nil => rw [append_nil]
  | append_singleton xs c ih =>
    obtain ⟨h1, h2, h3⟩ := hp c (by simp)
    rw [← append_assoc, region_concat, Region.step, if_neg h3,
      if_neg (by rintro ⟨h | h, -⟩ <;> contradiction)]
    exact ih fun d hd => hp d (mem_append_left _ hd)

theorem occurs_append (hp : Plain str2) (hquote : (region pre).quote = none)
    (post : CStr) : Occurs (pre ++ str2 ++ post) str2 pre.length := by
  constructor
  · rw [append_assoc, drop_left]
    exact prefix_append ..
  · intro j hj
    have htake : (pre ++ str2 ++ post).take (pre.length + j) = pre ++ str2.take j := by
      rw [append_assoc, take_length_add_append, take_append_of_le_length (by omega)]
    rw [htake, region_plain _ fun c hc => hp c (mem_of_mem_take hc), hquote]

/-! ## `strstrquoted` and the rule -/

/-- The quote that is open to `strstrquoted`, and the text since the last quote character. -/
structure Reading where
  quote : Option Char
  since : CStr

/-- Outside quotes all backslashes since the last quote character count, and not only those directly
before the next one. -/
def Reading.step (r : Reading) (c : Char) : Reading :=
  match r.quote with
  | none =>
    if c = '"' ∨ c = '\'' then ⟨if r.since.count '\\' % 2 = 0 then some c else none, []⟩
    else ⟨none, r.since ++ [c]⟩
  | some q =>
    if c = q then ⟨if trailingBackslashes r.since % 2 = 0 then none else some q, []⟩
    else ⟨some q, r.since ++ [c]⟩

def reading (pre : CStr) : Reading := pre.foldl Reading.step ⟨none, []⟩

/--
The text is made of failed matches, one behind the other: a part of `str2` and a character that does
not go on with it.
-/
inductive Misses (str2 : CStr) : CStr → Prop
  | nil : Misses str2 []
  | fail {xs : CStr} {c : Char} (j : Nat) : Misses str2 xs → j < str2.length → str2[j]? ≠ some c →
      Misses str2 (xs ++ str2.take j ++ [c])

/-- `strstrquoted` sees an occurrence at position `k`. -/
def Seen (str1 str2 : CStr) (k : Nat) : Prop :=
  (reading (str1.take k)).quote = none ∧ Misses str2 (reading (str1.take k)).since

theorem reading_concat (pre : CStr) (c : Char) : reading (pre ++ [c]) = (reading pre).step c := by
  simp [reading]

/-- The variables of `strstrquoted`, seen from the text. -/
structure Scan.Follows (s : Scan) (str2 : CStr) (r : Reading) : Prop where
  quotechar : s.quotechar = r.quote
  outside : r.quote = none → s.esclen = r.since.count '\\' ∧
    ∃ xs, r.since = xs ++ str2.take s.matchlen ∧ Misses str2 xs
  inside : r.quote ≠ none → s.esclen = trailingBackslashes r.since ∧ s.matchlen = 0

theorem Scan.follows_fresh (quote : Option Char) : (Scan.mk quote 0 0).Follows str2 ⟨quote, []⟩ :=
  ⟨rfl, fun _ => ⟨rfl, [], rfl, .nil⟩, fun _ => ⟨rfl, rfl⟩⟩

theorem Scan.Follows.step {r : Reading} (h : s.Follows str2 r) (hs : s.Proper)
    (hlt : s.matchlen < str2.length) (c : Char) : (s.step str2 c).Follows str2 (r.step c) := by
  obtain ⟨quotechar, e, m⟩ := s
  obtain ⟨quote, since⟩ := r
  obtain rfl : quotechar = quote := h.quotechar
  cases quotechar with
  | none =>
    obtain ⟨rfl, xs, hsince, hmiss⟩ : e = _ ∧ ∃ xs, since = xs ++ str2.take m ∧ _ := h.outside rfl
    by_cases hc : c = '"' ∨ c = '\''
    · simp only [Scan.step, Reading.step, if_pos hc]
      exact follows_fresh _
    · simp only [Scan.step, Reading.step, if_neg hc]
      refine ⟨rfl, fun _ => ⟨?_, ?_⟩, fun h => absurd rfl h⟩
      · rw [count_append, count_singleton]
        by_cases hb : c = '\\' <;> simp [hb]
      · by_cases hmatch : str2[m]? = some c
        · refine ⟨xs, ?_, hmiss⟩
          rw [if_pos hmatch, take_add_one, hmatch, hsince, append_assoc]
          rfl
        · refine ⟨_, ?_, .fail m hmiss hlt hmatch⟩
          rw [if_neg hmatch, take_zero, append_nil, hsince]
  | some q =>
    obtain ⟨rfl, rfl⟩ : e = _ ∧ m = 0 := h.inside (some_ne_none q)
    have hq : q ≠ '\\' := by rcases hs q rfl with rfl | rfl <;> decide
    by_cases hcq : c = q
    · subst hcq
      simp only [Scan.step, Reading.step, if_neg hq, if_true]
      rcases Nat.mod_two_eq_zero_or_one (trailingBackslashes since) with he | he <;>
        simpa [he] using follows_fresh _
    · simp only [Scan.step, Reading.step, if_neg hcq]
      refine ⟨by split <;> rfl, fun h => absurd h (some_ne_none q), fun _ => ?_⟩
      rw [trailingBackslashes_concat]
      split <;> exact ⟨rfl, rfl⟩

theorem Scan.step_matchlen_le (str2 : CStr) (s : Scan) (c : Char) :
    (s.step str2 c).matchlen ≤ s.matchlen + 1 := by
  obtain ⟨_ | q, e, m⟩ := s
  · rcases step_unquoted str2 e m c with h | ⟨-, h, -⟩
    · rw [h]
      exact Nat.zero_le _
    · exact Nat.le_of_eq h
  · rw [step_quoted_matchlen]
    exact Nat.le_succ m

theorem follows_of_findFrom (hne : str2 ≠ []) (h : findFrom str2 Scan.start 0 pre = none) :
    (Scan.start.over str2 pre).Follows str2 (reading pre) ∧
      (Scan.start.over str2 pre).matchlen < str2.length := by
  induction pre using reverseRecOn with
  | nil => exact ⟨Scan.follows_fresh none, length_pos_iff.mpr hne⟩
  | append_singleton pre c ih =>
    have hnone := findFrom_eq_none_of_append h
    obtain ⟨hfollows, hlt⟩ := ih hnone
    rw [findFrom_append hnone, findFrom] at h
    rw [Scan.over_concat, reading_concat]
    refine ⟨hfollows.step (Scan.proper_over str2 pre) hlt c, ?_⟩
    split at h
    · cases h
    · next hend =>
      have := Scan.step_matchlen_le str2 (Scan.start.over str2 pre) c
      omega

/-- The partial match behind a text, without quotes. -/
def matched (str2 : CStr) (m : Nat) (c : Char) : Nat := if str2[m]? = some c then m + 1 else 0

theorem foldl_matched_take {j : Nat} (h : j ≤ str2.length) :
    (str2.take j).foldl (matched str2) 0 = j := by
  induction j with
  | zero => rfl
  | succ j ih =>
    have hj : j < str2.length := h
    rw [take_add_one, getElem?_eq_getElem hj, foldl_append, ih (Nat.le_of_lt hj)]
    simp [matched, hj]

theorem Misses.foldl_matched {xs : CStr} (h : Misses str2 xs) : xs.foldl (matched str2) 0 = 0 := by
  induction h with
  | nil => rfl
  | fail j _ hj hc ih =>
    rw [foldl_append, foldl_append, ih, foldl_matched_take (Nat.le_of_lt hj)]
    exact if_neg hc

/-- An occurrence is seen when no match is under way. -/
theorem seen_iff (hne : str2 ≠ []) (h : findFrom str2 Scan.start 0 pre = none) (post : CStr) :
    Seen (pre ++ post) str2 pre.length ↔ ∃ e, Scan.start.over str2 pre = ⟨none, e, 0⟩ := by
  obtain ⟨hfollows, hlt⟩ := follows_of_findFrom hne h
  rw [Seen, take_left]
  generalize Scan.start.over str2 pre = σ at hfollows hlt
  obtain ⟨quotechar, e, m⟩ := σ
  obtain rfl : quotechar = _ := hfollows.quotechar
  constructor
  · rintro ⟨hquote, hmiss⟩
    obtain ⟨-, xs, hsince, hxs⟩ := hfollows.outside hquote
    rw [hsince] at hmiss
    have hzero := hmiss.foldl_matched
    rw [foldl_append, hxs.foldl_matched, foldl_matched_take (Nat.le_of_lt hlt)] at hzero
    have hzero : m = 0 := hzero
    exact ⟨e, by rw [hquote, hzero]⟩
  · rintro ⟨e', heq⟩
    obtain ⟨hquote, -, rfl⟩ := Scan.mk.inj heq
    obtain ⟨-, xs, hsince, hxs⟩ := hfollows.outside hquote
    refine ⟨hquote, ?_⟩
    rw [hsince, take_zero, append_nil]
    exact hxs

theorem exists_split (hne : str2 ≠ []) (h : str2 <+: str1.drop p) :
    ∃ pre post, str1 = pre ++ str2 ++ post ∧ pre.length = p := by
  obtain ⟨post, hpost⟩ := h
  have hpos := length_pos_iff.mpr hne
  have hlength := congrArg length hpost
  rw [length_append, length_drop] at hlength
  refine ⟨str1.take p, post, ?_, by rw [length_take]; omega⟩
  rw [append_assoc, hpost, take_append_drop]

section

variable (hp : Plain str2) (hne : str2 ≠ [])
include hp hne

/-- `strstrquoted` finds the first occurrence that it sees. -/
theorem strstrquoted_eq_some_iff : strstrquoted str1 str2 = some p ↔
    (str2 <+: str1.drop p ∧ Seen str1 str2 p) ∧
      ∀ k < p, str2 <+: str1.drop k → ¬Seen str1 str2 k := by
  have hfound : ∀ k, str2 <+: str1.drop k → Seen str1 str2 k →
      findFrom str2 Scan.start 0 (str1.take k) = none → strstrquoted str1 str2 = some k := by
    intro k hk hseen hnone
    obtain ⟨pre, post, rfl, rfl⟩ := exists_split hne hk
    rw [append_assoc, take_left] at hnone
    rw [append_assoc] at hseen
    obtain ⟨e, hover⟩ := (seen_iff hne hnone _).mp hseen
    rw [strstrquoted_eq_findFrom hp hne, findFrom_found hp hne hnone hover, Nat.zero_add]
  constructor
  · intro h
    have hfind := h
    rw [strstrquoted_eq_findFrom hp hne] at hfind
    obtain ⟨pre, post, e, rfl, hlen, hover, hnone⟩ := findFrom_split hne rfl hfind
    obtain rfl : p = pre.length := by omega
    refine ⟨⟨?_, ?_⟩, fun k hk hat hseen => ?_⟩
    · rw [append_assoc, drop_left]
      exact prefix_append ..
    · rw [append_assoc]
      exact (seen_iff hne hnone _).mpr ⟨e, hover⟩
    · have hprefix : findFrom str2 Scan.start 0 ((pre ++ str2 ++ post).take k) = none := by
        rw [append_assoc, take_append_of_le_length (Nat.le_of_lt hk)]
        rw [← take_append_drop k pre] at hnone
        exact findFrom_eq_none_of_append hnone
      have := some.inj (h.symm.trans (hfound k hat hseen hprefix))
      omega
  · rintro ⟨⟨hat, hseen⟩, hfirst⟩
    refine hfound p hat hseen ?_
    cases hf : findFrom str2 Scan.start 0 (str1.take p) with
    | none => rfl
    | some k =>
      obtain ⟨pre, post, e, htake, hlen, hover, hnone⟩ := findFrom_split hne rfl hf
      obtain rfl : k = pre.length := by omega
      have hstr : str1 = pre ++ (str2 ++ (post ++ str1.drop p)) := by
        conv_lhs => rw [← take_append_drop p str1, htake]
        simp
      have hlt : pre.length < p := by
        have := congrArg length htake
        have hpos := length_pos_iff.mpr hne
        rw [length_append, length_append, length_take] at this
        omega
      refine absurd ?_ (hfirst pre.length hlt ?_)
      · rw [hstr]
        exact (seen_iff hne hnone _).mpr ⟨e, hover⟩
      · rw [hstr, drop_left]
        exact prefix_append ..

theorem strstrquoted_eq_none_iff : strstrquoted str1 str2 = none ↔
    ∀ k, str2 <+: str1.drop k → ¬Seen str1 str2 k := by
  constructor
  · intro h k
    induction k using Nat.strongRecOn with
    | ind k ih =>
      intro hat hseen
      rw [(strstrquoted_eq_some_iff hp hne).mpr ⟨⟨hat, hseen⟩, ih⟩] at h
      cases h
  · intro h
    cases hf : strstrquoted str1 str2 with
    | none => rfl
    | some k =>
      obtain ⟨⟨hat, hseen⟩, -⟩ := (strstrquoted_eq_some_iff hp hne).mp hf
      exact absurd hseen (h k hat)

end

theorem occurs_iff (hp : Plain str2) (hne : str2 ≠ []) :
    Occurs str1 str2 p ↔ str2 <+: str1.drop p ∧ (region (str1.take p)).quote = none := by
  refine ⟨fun h => ⟨h.1, h.2 0 (length_pos_iff.mpr hne)⟩, fun ⟨hat, hquote⟩ => ?_⟩
  obtain ⟨pre, post, rfl, rfl⟩ := exists_split hne hat
  rw [append_assoc, take_left] at hquote
  exact occurs_append hp hquote post

/--
`strstrquoted` returns the leftmost occurrence exactly if, up to there, the places where `str2`
stands are outside quotes by the rule just when they are so with all backslashes since the last
quote character counted, and no failing match runs into them.
-/
theorem strstrquoted_eq_leftmost_iff {str1 str2 : CStr} (hp : Plain str2) (hne : str2 ≠ []) :
    strstrquoted str1 str2 = leftmost str1 str2 ↔
      ∀ k ≤ (leftmost str1 str2).getD str1.length, str2 <+: str1.drop k →
        ((region (str1.take k)).quote = none ↔ Seen str1 str2 k) := by
  cases hl : leftmost str1 str2 with
  | none =>
    have hquoted := leftmost_eq_none hne hl
    rw [strstrquoted_eq_none_iff hp hne]
    constructor
    · intro h k _ hat
      refine iff_of_false (fun hquote => ?_) (h k hat)
      exact hquoted k ((occurs_iff hp hne).mpr ⟨hat, hquote⟩)
    · intro h k hat hseen
      have hk : k ≤ str1.length := by
        obtain ⟨pre, post, rfl, rfl⟩ := exists_split hne hat
        simp
      exact hquoted k ((occurs_iff hp hne).mpr ⟨hat, (h k hk hat).mpr hseen⟩)
  | some p =>
    obtain ⟨hocc, hmin⟩ := leftmost_eq_some hl
    obtain ⟨hat, hquote⟩ := (occurs_iff hp hne).mp hocc
    rw [strstrquoted_eq_some_iff hp hne, getD_some]
    constructor
    · rintro ⟨⟨-, hseen⟩, hfirst⟩ k hk hat'
      rcases Nat.lt_or_eq_of_le hk with hlt | rfl
      · refine iff_of_false (fun hquote => ?_) (hfirst k hlt hat')
        exact hmin k hlt ((occurs_iff hp hne).mpr ⟨hat', hquote⟩)
      · exact iff_of_true hquote hseen
    · intro h
      refine ⟨⟨hat, (h p (Nat.le_refl p) hat).mp hquote⟩, fun k hk hat' hseen => ?_⟩
      exact hmin k hk ((occurs_iff hp hne).mpr ⟨hat', (h k (Nat.le_of_lt hk) hat').mpr hseen⟩)

/-- A bar behind a quoted bar and an escaped quote. -/
theorem strstrquoted_behind_quotes :
    leftmost "'|' \\\"|x".toList ['|'] = some 6 ∧
      strstrquoted "'|' \\\"|x".toList ['|'] = some 6 := by
  have hleft : leftmost "'|' \\\"|x".toList ['|'] = some 6 := by decide +kernel
  refine ⟨hleft, ?_⟩
  rw [(strstrquoted_eq_leftmost_iff (by decide) (by decide)).mpr ?_, hleft]
  rw [hleft, getD_some]
  intro k hk hat
  have hplace : ∀ k ≤ 6, ['|'] <+: "'|' \\\"|x".toList.drop k → k = 1 ∨ k = 6 := by decide +kernel
  rcases hplace k hk hat with rfl | rfl
  · exact iff_of_false (by decide +kernel) fun h => absurd h.1 (by decide +kernel)
  · exact iff_of_true (by decide +kernel) ⟨rfl, .nil⟩

/-- A `"$("` behind a `$` is not found, and a backslash somewhere before a quote makes it no quote.
-/
theorem strstrquoted_ne_leftmost :
    (strstrquoted "$$(x)".toList ['$', '('] = none ∧
      leftmost "$$(x)".toList ['$', '('] = some 1) ∧
    (strstrquoted "\\a\"|\"".toList ['|'] = some 3 ∧
      leftmost "\\a\"|\"".toList ['|'] = none) := by
  decide +kernel

end IosSystem.Shell
