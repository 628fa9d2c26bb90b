import IosSystem.Env.Inherit
import IosSystem.Shell.Parse
import IosSystem.Shell.Tokenizer

/-!
# From `ios_execv` back to its arguments

`ios_execv` makes one command of its arguments with `concatenateArgv`, and `ios_system` takes it
apart again. `argv[0]` is copied as it is; every other argument is enclosed in `"`, in `'`, or
between two record separators. What can go wrong with these:

* a backslash before the closing quote is an escape for the searches and for the tokenizer;
* `strstrquoted` and `find_backtick` do not know the record separator, and count the quotes of an
  argument between two of them.
-/

namespace IosSystem.Shell

open List Scan Option
open IosSystem.Env (concatenateArgv quoteArgument)

/-! ## Conditions -/

/-- The characters that mean something to `ios_system`. -/
def shellCharacters : CStr :=
  [' ', '"', '\'', '\\', '(', '$', '`', '=', ';', '&', '|', '<', '>', recordSeparator]

/-- A first word that is taken as it is. -/
def CommandName (name : CStr) : Prop := name ≠ [] ∧ ∀ c ∈ name, c ∉ shellCharacters

def readsItself : List CStr := ["export".toList, "alias".toList]

/-- An argument that `concatenateArgv` encloses in quotes. -/
def isQuoted (arg : CStr) : Bool := '"' ∉ arg ∨ '\'' ∉ arg

/-- A quote behind the argument is no escaped one: an even number of backslashes is before it, and
something else is before these. -/
def Closed (arg : CStr) : Prop :=
  trailingBackslashes arg % 2 = 0 ∧ (trailingBackslashes arg = arg.length → arg = [])

/-- The text behind `argv[0]`. -/
def argumentsText (args : List CStr) : CStr := args.flatMap fun arg => ' ' :: quoteArgument arg

/-- No operator, redirection or substitution is found. -/
structure Quiet (text : CStr) : Prop where
  semicolon : strstrquoted text [';'] = none
  and : strstrquoted text ['&', '&'] = none
  bar : strstrquoted text ['|'] = none
  substitution : ¬ HasSubst text

/-- The arguments `name :: args` can be passed to `ios_execv`. -/
structure Passes (env : Env) (name : CStr) (args : List CStr) : Prop where
  command : CommandName name
  unaliased : env.aliases name = none
  ordinary : args = [] ∨ name ∉ readsItself
  /-- one of the three marks is left to enclose the argument -/
  mark : ∀ arg ∈ args, isQuoted arg ∨ recordSeparator ∉ arg
  closed : ∀ arg ∈ args.dropLast, isQuoted arg → Closed arg
  /-- nothing is found from the first argument between record separators on -/
  quiet : Quiet (argumentsText (args.dropWhile isQuoted))

/-- An argument as it is read back: `dontExpand` keeps it from being changed afterwards. -/
def passed (arg : CStr) : Token := ⟨arg, true⟩

/-! ## Quoted text -/

variable {q c : Char} {arg xs name rest : CStr} {args : List CStr} {env : Env} {argv : List Token}

theorem over_quoted (pat : CStr) (hq : q ∉ arg) :
    (Scan.mk (some q) 0 0).over pat arg = ⟨some q, trailingBackslashes arg, 0⟩ := by
  induction arg using reverseRecOn with
  | nil => rfl
  | append_singleton arg c ih =>
    have hmem : q ∉ arg := fun h => hq (mem_append_left _ h)
    have hc : c ≠ q := fun h => hq (by simp [h])
    rw [over_append, ih hmem, over_cons, over_nil, trailingBackslashes_concat]
    by_cases hb : c = '\\' <;> simp [step, hb, hc]

variable {pat : CStr}

theorem findFrom_quoted (hne : pat ≠ []) (hq : q ∉ arg) (e i : Nat) :
    findFrom pat ⟨some q, e, 0⟩ i arg = none := by
  induction arg generalizing e i with
  | nil => rfl
  | cons c arg ih =>
    have hmem : q ∉ arg := fun h => hq (mem_cons_of_mem _ h)
    have hc : c ≠ q := fun h => hq (h ▸ mem_cons_self)
    have hstep : ∃ e', (mk (some q) e 0).step pat c = ⟨some q, e', 0⟩ := by
      by_cases hb : c = '\\'
      · exact ⟨e + 1, by simp [step, hb]⟩
      · exact ⟨0, by simp [step, hb, hc]⟩
    obtain ⟨e', he'⟩ := hstep
    rw [findFrom, he', if_neg (Nat.ne_of_lt (length_pos_iff.mpr hne))]
    exact ih hmem e' (i + 1)

theorem step_open (pat : CStr) (hq : q = '"' ∨ q = '\'') (m : Nat) :
    (Scan.mk none 0 m).step pat q = ⟨some q, 0, 0⟩ := by
  simp [step, hq]

theorem ne_backslash (hq : q = '"' ∨ q = '\'') : q ≠ '\\' := by
  rcases hq with rfl | rfl <;> decide

theorem step_close (pat : CStr) (hq : q = '"' ∨ q = '\'') {e : Nat} (he : e % 2 = 0) :
    (Scan.mk (some q) e 0).step pat q = Scan.start := by
  simp [step, ne_backslash hq, he, start]

/-- What a search does in a text, if it starts outside quotes: nothing is found, and behind the text
it is outside quotes again. -/
structure Skipped (pat text : CStr) : Prop where
  silent : ∀ i, findFrom pat Scan.start i text = none
  behind : Scan.start.over pat text = Scan.start

theorem Skipped.append {ys : CStr} (hx : Skipped pat xs) (hy : Skipped pat ys) :
    Skipped pat (xs ++ ys) :=
  ⟨fun i => by rw [findFrom_append (hx.silent i), hx.behind, hy.silent],
    by rw [over_append, hx.behind, hy.behind]⟩

theorem Skipped.findFrom (hx : Skipped pat xs) (ys : CStr) (i : Nat) :
    Shell.findFrom pat Scan.start i (xs ++ ys)
      = Shell.findFrom pat Scan.start (i + xs.length) ys := by
  rw [findFrom_append (hx.silent i), hx.behind]

section enclosed

variable {pat : CStr} (hne : pat ≠ []) (hq : q = '"' ∨ q = '\'') (harg : q ∉ arg)

include hq harg

theorem over_open (pat : CStr) :
    Scan.start.over pat (q :: arg) = ⟨some q, trailingBackslashes arg, 0⟩ := by
  rw [over_cons, start, step_open pat hq, over_quoted pat harg]

include hne

theorem silent_open (i : Nat) : findFrom pat Scan.start i (q :: arg) = none := by
  rw [findFrom, start, step_open pat hq, if_neg (Nat.ne_of_lt (length_pos_iff.mpr hne))]
  exact findFrom_quoted hne harg 0 (i + 1)

theorem silent_enclosed (i : Nat) : findFrom pat Scan.start i (q :: arg ++ [q]) = none := by
  rw [findFrom_append (silent_open hne hq harg i), over_open hq harg, findFrom,
    step_quoted_matchlen, if_neg (Nat.ne_of_lt (length_pos_iff.mpr hne))]
  rfl

theorem skipped_enclosed (heven : trailingBackslashes arg % 2 = 0) :
    Skipped pat (q :: arg ++ [q]) := by
  refine ⟨silent_enclosed hne hq harg, ?_⟩
  rw [over_append, over_open hq harg, over_cons, over_nil, step_close pat hq heven]

end enclosed

/-! ## The searches of `ios_system` -/

/-- What `ios_system` searches for, but for the blank. -/
def searched : List CStr :=
  [[';'], ['&', '&'], ['|'], dollarParen, ['<'], ['&', '>'], ['2', '>', '&', '1'],
    ['2', '>'], ['>']]

theorem searched_spec (h : pat ∈ searched) :
    Plain pat ∧ pat ≠ [] ∧ ' ' ∉ pat ∧ ∃ c ∈ pat, c ∈ shellCharacters := by
  have hspec : ∀ pat ∈ searched, Plain pat ∧ pat ≠ [] ∧ ' ' ∉ pat := by decide
  have hshell : ∀ pat ∈ searched, pat.any fun c => shellCharacters.contains c := by decide
  obtain ⟨hplain, hne, hblank⟩ := hspec pat h
  obtain ⟨c, hc, hmem⟩ := any_eq_true.1 (hshell pat h)
  exact ⟨hplain, hne, hblank, c, hc, contains_iff_mem.1 hmem⟩

theorem CommandName.not_mem (h : CommandName name)
    (hc : c ∈ shellCharacters) : c ∉ name := fun hmem => h.2 c hmem hc

theorem CommandName.ne (h : CommandName name) {d : Char} (hd : d ∈ name)
    (hc : c ∈ shellCharacters) :
    d ≠ c := fun e => h.not_mem hc (e ▸ hd)

theorem CommandName.plain (h : CommandName name) : Plain name :=
  fun _ hc => ⟨h.ne hc (by decide), h.ne hc (by decide), h.ne hc (by decide)⟩

theorem quoteArgument_eq (h : isQuoted arg ∨ recordSeparator ∉ arg) :
    ∃ q, quoteArgument arg = q :: arg ++ [q] ∧ q ∉ arg ∧ isQuote q = true ∧
      ((isQuoted arg = true ∧ (q = '"' ∨ q = '\'')) ∨
        (isQuoted arg = false ∧ q = recordSeparator)) := by
  unfold quoteArgument
  by_cases hd : '"' ∈ arg
  · rw [if_neg (not_not_intro hd)]
    by_cases hs : '\'' ∈ arg
    · have hq : isQuoted arg = false := by simp [isQuoted, hd, hs]
      have hr : recordSeparator ∉ arg := h.resolve_left (by simp [hq])
      rw [if_neg (not_not_intro hs), show '\x1e' = recordSeparator from rfl, if_pos hr]
      exact ⟨recordSeparator, rfl, hr, rfl, .inr ⟨hq, rfl⟩⟩
    · rw [if_pos hs]
      exact ⟨'\'', rfl, hs, rfl, .inl ⟨by simp [isQuoted, hs], .inr rfl⟩⟩
  · rw [if_pos hd]
    exact ⟨'"', rfl, hd, rfl, .inl ⟨by simp [isQuoted, hd], .inl rfl⟩⟩

theorem quoteArgument_quoted (h : isQuoted arg) :
    ∃ q, quoteArgument arg = q :: arg ++ [q] ∧ q ∉ arg ∧ (q = '"' ∨ q = '\'') := by
  obtain ⟨q, hquote, hq, -, hmark⟩ := quoteArgument_eq (.inl h)
  rcases hmark with ⟨-, hmark⟩ | ⟨hno, -⟩
  · exact ⟨q, hquote, hq, hmark⟩
  · rw [h] at hno
    cases hno

theorem argumentsText_cons (arg : CStr) (args : List CStr) :
    argumentsText (arg :: args) = [' '] ++ quoteArgument arg ++ argumentsText args := rfl

theorem argumentsText_append (args args' : List CStr) :
    argumentsText (args ++ args') = argumentsText args ++ argumentsText args' :=
  flatMap_append

theorem concatenateArgv_eq (name : CStr) (args : List CStr) :
    concatenateArgv name args = name ++ argumentsText args := rfl

theorem over_name (pat : CStr) (h : Plain name) (m : Nat) :
    ∃ m', (Scan.mk none 0 m).over pat name = ⟨none, 0, m'⟩ := by
  induction name generalizing m with
  | nil => exact ⟨m, rfl⟩
  | cons c name ih =>
    rw [over_cons, step_plain (h c mem_cons_self)]
    exact ih (fun d hd => h d (mem_cons_of_mem _ hd)) _

section search

variable {pat : CStr} (hpat : pat ∈ searched)

include hpat

theorem step_blank (e m : Nat) : (Scan.mk none e m).step pat ' ' = ⟨none, e, 0⟩ := by
  rw [step_plain (by decide), if_neg]
  intro hget
  exact (searched_spec hpat).2.2.1 (mem_of_getElem? hget)

theorem skipped_blank : Skipped pat [' '] := by
  have hlen := length_pos_iff.mpr (searched_spec hpat).2.1
  have hstep : start.step pat ' ' = start := step_blank hpat 0 0
  refine ⟨fun i => ?_, by rw [over_cons, hstep, over_nil]⟩
  rw [findFrom, hstep, if_neg (show start.matchlen ≠ _ from Nat.ne_of_lt hlen)]
  rfl

theorem skipped_arguments (hq : ∀ arg ∈ args, isQuoted arg)
    (hc : ∀ arg ∈ args, Closed arg) : Skipped pat (argumentsText args) := by
  induction args with
  | nil => exact ⟨fun _ => rfl, rfl⟩
  | cons arg args ih =>
    obtain ⟨q, hquote, harg, hmark⟩ := quoteArgument_quoted (hq arg mem_cons_self)
    rw [argumentsText_cons, hquote]
    have heven := (hc arg mem_cons_self).1
    refine ((skipped_blank hpat).append
      (skipped_enclosed (searched_spec hpat).2.1 hmark harg heven)).append (ih ?_ ?_)
    · exact fun a ha => hq a (mem_cons_of_mem _ ha)
    · exact fun a ha => hc a (mem_cons_of_mem _ ha)

theorem silent_arguments (hq : ∀ arg ∈ args, isQuoted arg) (hc : ∀ arg ∈ args.dropLast, Closed arg)
    (i : Nat) : findFrom pat Scan.start i (argumentsText args) = none := by
  rcases eq_nil_or_concat args with rfl | ⟨front, last, rfl⟩
  · rfl
  · rw [concat_eq_append] at hq hc ⊢
    rw [dropLast_concat] at hc
    obtain ⟨q, hquote, hlast, hmark⟩ := quoteArgument_quoted (hq last (by simp))
    have hfront := skipped_arguments hpat (fun a ha => hq a (mem_append_left _ ha)) hc
    rw [argumentsText_append, hfront.findFrom, argumentsText_cons, hquote, append_assoc,
      (skipped_blank hpat).findFrom]
    simpa [argumentsText] using silent_enclosed (searched_spec hpat).2.1 hmark hlast _

theorem findFrom_name (h : CommandName name) (i : Nat) : findFrom pat Scan.start i name = none := by
  cases hf : findFrom pat start i name with
  | none => rfl
  | some k =>
    obtain ⟨c, hc, hshell⟩ := (searched_spec hpat).2.2.2
    obtain ⟨pre, post, e, rfl, -⟩ := findFrom_split (searched_spec hpat).2.1 rfl hf
    exact absurd (by simp [hc]) (h.not_mem hshell)

theorem findFrom_behind_name (h : CommandName name) (args : List CStr) :
    findFrom pat Scan.start 0 (concatenateArgv name args)
      = findFrom pat Scan.start name.length (argumentsText args) := by
  obtain ⟨m, hm⟩ := over_name pat h.plain 0
  rw [concatenateArgv_eq, findFrom_append (findFrom_name hpat h 0), Nat.zero_add, start, hm]
  cases args with
  | nil => rfl
  | cons arg args =>
    rw [argumentsText_cons, append_assoc, singleton_append, findFrom, findFrom,
      step_blank hpat, step_blank hpat]

theorem findFrom_concatenateArgv (h : CommandName name)
    (hc : ∀ arg ∈ args.dropLast, isQuoted arg → Closed arg) :
    findFrom pat Scan.start 0 (concatenateArgv name args)
      = findFrom pat Scan.start (name.length + (argumentsText (args.takeWhile isQuoted)).length)
          (argumentsText (args.dropWhile isQuoted)) := by
  have hsplit := takeWhile_append_dropWhile (p := isQuoted) (l := args)
  have hq : ∀ arg ∈ args.takeWhile isQuoted, isQuoted arg := fun _ => mem_takeWhile_imp
  generalize args.takeWhile isQuoted = front at *
  generalize args.dropWhile isQuoted = tail at *
  subst hsplit
  rw [findFrom_behind_name hpat h, argumentsText_append]
  cases tail with
  | nil =>
    rw [append_nil] at hc
    rw [show argumentsText [] = [] from rfl, append_nil]
    refine silent_arguments hpat hq (fun arg harg => hc arg harg ?_) _
    exact hq arg ((dropLast_sublist front).subset harg)
  | cons arg tail =>
    refine (skipped_arguments hpat hq fun a ha => hc a ?_ (hq a ha)).findFrom _ _
    rw [dropLast_append_cons]
    exact mem_append_left _ ha

end search

theorem strstrquoted_concatenateArgv (hpat : pat ∈ searched) (h : CommandName name)
    (hc : ∀ arg ∈ args.dropLast, isQuoted arg → Closed arg)
    (hnone : strstrquoted (argumentsText (args.dropWhile isQuoted)) pat = none) :
    strstrquoted (concatenateArgv name args) pat = none := by
  obtain ⟨hplain, hne, -⟩ := searched_spec hpat
  rw [strstrquoted_eq_findFrom hplain hne] at hnone ⊢
  rw [findFrom_concatenateArgv hpat h hc]
  exact findFrom_none_index hnone _

/-! ## Substitutions -/

theorem backtickFrom_plain (h : ∀ c ∈ xs, c ≠ '"' ∧ c ≠ '\'' ∧ c ≠ '`') (ys : CStr) :
    backtickFrom Quotes.start (xs ++ ys)
      = (backtickFrom Quotes.start ys).map (· + xs.length) := by
  induction xs with
  | nil => simp
  | cons c xs ih =>
    obtain ⟨hd, hs, hb⟩ := h c mem_cons_self
    have htoggle : Quotes.start.toggle c = none := by simp [Quotes.toggle, hd, hs]
    rw [cons_append, backtickFrom, htoggle]
    simp only [hb, ih fun d hd => h d (mem_cons_of_mem _ hd), Option.map_map]
    congr 1

def Quotes.opened (q : Char) : Quotes := ⟨q = '\'', q = '"'⟩

theorem backtickFrom_opened (hq : q = '"' ∨ q = '\'') (harg : q ∉ arg) (ys : CStr) :
    backtickFrom (Quotes.opened q) (arg ++ q :: ys)
      = (backtickFrom Quotes.start ys).map (· + (arg.length + 1)) := by
  have hopen : Quotes.opened q ≠ Quotes.start := by rcases hq with rfl | rfl <;> decide
  induction arg with
  | nil =>
    have htoggle : (Quotes.opened q).toggle q = some Quotes.start := by
      rcases hq with rfl | rfl <;> rfl
    rw [nil_append, backtickFrom, htoggle]
    rfl
  | cons c arg ih =>
    have hc : c ≠ q := fun h => harg (h ▸ mem_cons_self)
    have htoggle : (Quotes.opened q).toggle c = none := by
      rcases hq with rfl | rfl <;> simp [Quotes.toggle, Quotes.opened, hc]
    rw [cons_append, backtickFrom, htoggle]
    simp only [hopen, ih fun h => harg (mem_cons_of_mem _ h), Option.map_map]
    congr 1

theorem backtickFrom_enclosed (hq : q = '"' ∨ q = '\'') (harg : q ∉ arg) (ys : CStr) :
    backtickFrom Quotes.start (q :: arg ++ [q] ++ ys)
      = (backtickFrom Quotes.start ys).map (· + (q :: arg ++ [q]).length) := by
  have htoggle : Quotes.start.toggle q = some (Quotes.opened q) := by
    rcases hq with rfl | rfl <;> rfl
  rw [append_assoc, cons_append, backtickFrom, htoggle]
  simp only [singleton_append, backtickFrom_opened hq harg, Option.map_map, length_append]
  congr 1

theorem backtickFrom_arguments (hq : ∀ arg ∈ args, isQuoted arg) (ys : CStr) :
    backtickFrom Quotes.start (argumentsText args ++ ys)
      = (backtickFrom Quotes.start ys).map (· + (argumentsText args).length) := by
  induction args with
  | nil => simp [argumentsText]
  | cons arg args ih =>
    obtain ⟨q, hquote, harg, hmark⟩ := quoteArgument_quoted (hq arg mem_cons_self)
    rw [argumentsText_cons, hquote, append_assoc, append_assoc,
      backtickFrom_plain (by simp), backtickFrom_enclosed hmark harg,
      ih fun a ha => hq a (mem_cons_of_mem _ ha)]
    simp only [Option.map_map, length_append]
    congr 1
    funext n
    simp only [Function.comp_apply]
    omega

theorem findBacktick_concatenateArgv (h : CommandName name) :
    findBacktick (concatenateArgv name args)
      = (findBacktick (argumentsText (args.dropWhile isQuoted))).map
          (· + (name.length + (argumentsText (args.takeWhile isQuoted)).length)) := by
  have hname : ∀ c ∈ name, c ≠ '"' ∧ c ≠ '\'' ∧ c ≠ '`' :=
    fun c hc => ⟨h.ne hc (by decide), h.ne hc (by decide), h.ne hc (by decide)⟩
  have hq : ∀ arg ∈ args.takeWhile isQuoted, isQuoted arg := fun _ => mem_takeWhile_imp
  rw [findBacktick, concatenateArgv_eq, backtickFrom_plain hname]
  conv_lhs => rw [← takeWhile_append_dropWhile (p := isQuoted) (l := args)]
  rw [argumentsText_append, backtickFrom_arguments hq, Option.map_map, findBacktick]
  congr 1
  funext n
  simp only [Function.comp_apply]
  omega

theorem concatenateArgv_drop (name : CStr) (args : List CStr) (k : Nat) :
    (concatenateArgv name args).drop
        (name.length + (argumentsText (args.takeWhile isQuoted)).length + k)
      = (argumentsText (args.dropWhile isQuoted)).drop k := by
  have hsplit : concatenateArgv name args
      = (name ++ argumentsText (args.takeWhile isQuoted))
          ++ argumentsText (args.dropWhile isQuoted) := by
    rw [append_assoc, ← argumentsText_append, takeWhile_append_dropWhile]
    rfl
  rw [hsplit, ← length_append, drop_length_add_append]

theorem not_hasSubst_concatenateArgv (h : CommandName name)
    (hc : ∀ arg ∈ args.dropLast, isQuoted arg → Closed arg)
    (hsubst : ¬ HasSubst (argumentsText (args.dropWhile isQuoted))) :
    ¬ HasSubst (concatenateArgv name args) := by
  rintro (⟨i, j, hi, hj⟩ | ⟨i, j, hi, hj⟩)
  · have hpat : dollarParen ∈ searched := by decide
    obtain ⟨hplain, hne, -⟩ := searched_spec hpat
    rw [strstrquoted_eq_findFrom hplain hne, findFrom_concatenateArgv hpat h hc] at hi
    obtain ⟨pre, post, e, htext, rfl, hover, hnone⟩ := findFrom_split hne rfl hi
    refine hsubst (.inl ⟨pre.length, j, ?_, ?_⟩)
    · rw [strstrquoted_eq_findFrom hplain hne, htext,
        findFrom_found hplain hne (findFrom_none_index hnone 0) hover, Nat.zero_add]
    · rw [Nat.add_assoc, concatenateArgv_drop] at hj
      exact hj
  · rw [findBacktick_concatenateArgv h] at hi
    obtain ⟨i', hi', rfl⟩ := map_eq_some_iff.1 hi
    refine hsubst (.inr ⟨i', j, hi', ?_⟩)
    rw [Nat.add_comm i', Nat.add_assoc, concatenateArgv_drop] at hj
    exact hj

/-! ## The command is started as it is -/

theorem CommandName.head (h : CommandName name) (rest : CStr)
    (hc : c ∈ shellCharacters) : (name ++ rest).head? ≠ some c := by
  obtain ⟨d, name', rfl⟩ := exists_cons_of_ne_nil h.1
  intro hd
  cases hd
  exact h.not_mem hc mem_cons_self

theorem stripQuote_of_head {command : CStr} (h : command.head? ≠ some '"') :
    stripQuote command = command := by
  cases command with
  | nil => rfl
  | cons c rest => rw [stripQuote, if_neg fun hc => h (by rw [hc.1]; rfl)]

theorem stripParen_of_head {command : CStr} (h : command.head? ≠ some '(') :
    stripParen command = command := by
  cases command with
  | nil => rfl
  | cons c rest => rw [stripParen, if_neg fun hc => h (by rw [hc]; rfl)]

theorem variableCommand_of_head {command : CStr} (h : command.head? ≠ some '$') (env : Env)
    (assignments : List (CStr × CStr)) : env.variableCommand assignments command = command := by
  cases command with
  | nil => rfl
  | cons c rest => rw [Env.variableCommand, if_neg fun hc => h (by rw [hc]; rfl)]

def BehindName (rest : CStr) : Prop := rest = [] ∨ ∃ text, rest = ' ' :: text

theorem behindName_argumentsText (args : List CStr) : BehindName (argumentsText args) := by
  cases args with
  | nil => exact .inl rfl
  | cons arg args => exact .inr ⟨_, rfl⟩

section

variable (h : CommandName name)
include h

theorem take_firstSpace (hrest : BehindName rest) :
    (name ++ rest).take
    ((strstrquoted (name ++ rest) [' ']).getD (name ++ rest).length) = name := by
  have hname := strstrquoted_space h.plain (h.not_mem (by decide))
  rcases hrest with rfl | ⟨text, rfl⟩
  · rw [append_nil, hname.1, getD_none, take_length]
  · rw [hname.2, getD_some, take_left]

theorem stripAssignments_name (hrest : BehindName rest) :
    stripAssignments (name ++ rest) = ([], name ++ rest) := by
  have htake := take_firstSpace h hrest
  rw [stripAssignments, assignmentLoop]
  split
  · rfl
  · next i hi =>
    rw [hi, getD_some] at htake
    rw [htake]
    exact if_neg (h.not_mem (by decide))

theorem front_name (hrest : BehindName rest) (env : Env) :
    env.front (name ++ rest) = name ++ rest := by
  have hhead : ∀ c ∈ shellCharacters, (name ++ rest).head? ≠ some c := fun c hc => h.head rest hc
  rw [Env.front, stripQuote_of_head (hhead _ (by decide)), stripParen_of_head (hhead _ (by decide)),
    stripAssignments_name h hrest]
  exact variableCommand_of_head (hhead _ (by decide)) env []

theorem expandAlias_name (ha : env.aliases name = none) (hrest : BehindName rest) :
    env.expandAlias (name ++ rest) = name ++ rest := by
  unfold Env.expandAlias
  rw [if_neg (h.head rest (by decide))]
  simp only [take_firstSpace h hrest, ha]

theorem front_concatenateArgv (args : List CStr) (env : Env) :
    env.front (concatenateArgv name args) = concatenateArgv name args :=
  front_name h (behindName_argumentsText args) env

theorem expandAlias_concatenateArgv (ha : env.aliases name = none) (args : List CStr) :
    env.expandAlias (concatenateArgv name args) = concatenateArgv name args :=
  expandAlias_name h ha (behindName_argumentsText args)

end

section

variable (h : Passes env name args)
include h

theorem action_concatenateArgv :
    env.action (concatenateArgv name args) = .command (concatenateArgv name args) := by
  have hsearch : ∀ pat ∈ searched,
      strstrquoted (argumentsText (args.dropWhile isQuoted)) pat = none →
      strstrquoted (concatenateArgv name args) pat = none :=
    fun _ hpat => strstrquoted_concatenateArgv hpat h.command h.closed
  have hsemicolon := hsearch _ (by decide) h.quiet.semicolon
  have hand := hsearch _ (by decide) h.quiet.and
  have hbar := hsearch _ (by decide) h.quiet.bar
  have hor : strstrquoted (concatenateArgv name args) ['|', '|'] = none :=
    strstrquoted_of_no_bar (a := []) (b := ['|']) hbar (by decide)
  rw [Env.action, hsemicolon, isConditional, hand, hor]
  simp [expandAlias_concatenateArgv h.command h.unaliased, hbar]

theorem searched_of_no_separator (hno : recordSeparator ∉ concatenateArgv name args) :
    ∀ pat ∈ searched, strstrquoted (concatenateArgv name args) pat = none := by
  have htail : args.dropWhile isQuoted = [] := by
    cases htail : args.dropWhile isQuoted with
    | nil => rfl
    | cons arg tail =>
      have hmem : arg ∈ args := (dropWhile_sublist isQuoted).subset (by rw [htail]; simp)
      have harg : isQuoted arg = false := by
        have := head?_dropWhile_not isQuoted args
        rw [htail] at this
        simpa using this
      obtain ⟨q, hquote, -, -, hmark⟩ := quoteArgument_eq (h.mark arg hmem)
      rcases hmark with ⟨hq, -⟩ | ⟨-, rfl⟩
      · rw [harg] at hq
        cases hq
      · refine absurd (mem_append_right name ?_) hno
        exact mem_flatMap.2 ⟨arg, hmem, by rw [hquote]; simp⟩
  intro pat hpat
  refine strstrquoted_concatenateArgv hpat h.command h.closed ?_
  rw [htail, strstrquoted_eq_findFrom (searched_spec hpat).1 (searched_spec hpat).2.1]
  rfl

theorem redirections_concatenateArgv :
    redirections (concatenateArgv name args) = Redirections.none := by
  unfold redirections
  split
  · rfl
  · next hno =>
    have hsearch := searched_of_no_separator h hno
    rw [hsearch _ (by decide), hsearch _ (by decide), hsearch _ (by decide), hsearch _ (by decide)]
    simp only [inputFileName, hsearch ['<'] (by decide)]
    rfl

theorem commandText_concatenateArgv :
    commandText (concatenateArgv name args) = concatenateArgv name args := by
  unfold commandText
  split
  · rfl
  · next hno =>
    have hsearch := searched_of_no_separator h hno
    rw [hsearch _ (by decide), hsearch _ (by decide)]
    simp

end

/-! ## The tokenizer -/

theorem nextUnescapedFrom_skip (h : c ∉ xs) (str : CStr) (i : Nat) (ys : CStr) :
    nextUnescapedFrom str c i (xs ++ ys) = nextUnescapedFrom str c (i + xs.length) ys := by
  induction xs generalizing i with
  | nil => rfl
  | cons d xs ih =>
    have hd : d ≠ c := fun e => h (e ▸ mem_cons_self)
    rw [cons_append, nextUnescapedFrom, if_neg fun e => hd e.1,
      ih fun e => h (mem_cons_of_mem _ e), length_cons]
    congr 1
    omega

theorem backslashesBefore_append (xs ys : CStr) :
    backslashesBefore (xs ++ ys) xs.length = trailingBackslashes (xs.drop 1) := by
  rw [backslashesBefore, take_left]
  rfl

theorem trailingBackslashes_tail (c : Char) (xs : CStr) :
    trailingBackslashes (c :: xs) = trailingBackslashes xs ∨
      trailingBackslashes (c :: xs) = xs.length + 1 := by
  unfold trailingBackslashes
  rw [reverse_cons, takeWhile_append]
  split
  · next hall =>
    by_cases hc : c = '\\'
    · rw [hc]
      simp
    · simp [hc, hall]
  · exact .inl rfl

theorem Closed.drop (h : Closed arg) : trailingBackslashes (arg.drop 1) % 2 = 0 := by
  cases arg with
  | nil => rfl
  | cons c arg =>
    rcases trailingBackslashes_tail c arg with htail | htail
    · rw [drop_one, tail_cons, ← htail]
      exact h.1
    · cases h.2 (by rw [htail, length_cons])

section

variable (hc : c ≠ '\\') (h : c ∉ xs)
include hc h

theorem take_two_ne (hone : xs ≠ ['\\']) (ys : CStr) : (xs ++ c :: ys).take 2 ≠ ['\\', c] := by
  match xs, hone with
  | [], _ =>
    intro e
    simp only [nil_append, take_succ_cons, cons.injEq] at e
    exact hc e.1
  | [d], hone =>
    intro e
    simp only [singleton_append, take_succ_cons, cons.injEq] at e
    exact hone (by rw [e.1])
  | d :: d' :: xs, _ =>
    intro e
    simp only [cons_append, take_succ_cons, cons.injEq] at e
    exact h (by rw [e.2.1]; simp)

theorem nextUnescapedCharacter_found (hone : xs ≠ ['\\'])
    (heven : trailingBackslashes (xs.drop 1) % 2 = 0) (ys : CStr) :
    nextUnescapedCharacter (xs ++ c :: ys) c = some xs.length := by
  rw [nextUnescapedCharacter, if_neg (take_two_ne hc h hone ys), nextUnescapedFrom_skip h,
    Nat.zero_add, nextUnescapedFrom, backslashesBefore_append, if_pos ⟨rfl, heven⟩]

theorem nextUnescapedCharacter_last :
    nextUnescapedCharacter (xs ++ [c]) c = none ∨
      nextUnescapedCharacter (xs ++ [c]) c = some xs.length := by
  by_cases hone : xs = ['\\']
  · subst hone
    simp [nextUnescapedCharacter, nextUnescapedFrom]
  · rw [nextUnescapedCharacter, if_neg (take_two_ne hc h hone []), nextUnescapedFrom_skip h,
      Nat.zero_add, nextUnescapedFrom]
    split
    · exact .inr rfl
    · exact .inl rfl

end

theorem Closed.ne_backslash (h : Closed arg) : arg ≠ ['\\'] := by
  rintro rfl
  cases h.1

theorem getLastCharacter_closed (hq : q = '"' ∨ q = '\'') (harg : q ∉ arg)
    (hc : Closed arg) (fuel : Nat) (rest : CStr) :
    getLastCharacterOfArgument (fuel + 1) (q :: arg ++ [q] ++ ' ' :: rest)
      = (some (arg.length + 2), q :: arg ++ [q] ++ ' ' :: rest) := by
  have htext : q :: arg ++ [q] ++ ' ' :: rest = q :: (arg ++ q :: ' ' :: rest) := by simp
  rw [htext, getLastCharacterOfArgument, if_pos hq,
    nextUnescapedCharacter_found (ne_backslash hq) harg hc.ne_backslash hc.drop]
  simp

theorem getLastCharacter_last (hq : q = '"' ∨ q = '\'') (harg : q ∉ arg) (fuel : Nat) :
    getLastCharacterOfArgument (fuel + 1) (q :: arg ++ [q]) = (none, q :: arg ++ [q]) ∨
      getLastCharacterOfArgument (fuel + 1) (q :: arg ++ [q])
        = (some (arg.length + 2), q :: arg ++ [q]) := by
  rw [cons_append, getLastCharacterOfArgument, if_pos hq]
  rcases nextUnescapedCharacter_last (ne_backslash hq) harg with h | h
  · rw [h]
    exact .inl rfl
  · rw [h]
    simp

theorem recordSeparator_not_quote : ¬ (recordSeparator = '"' ∨ recordSeparator = '\'') := by decide

theorem getLastCharacter_record (harg : recordSeparator ∉ arg) (fuel : Nat) (rest : CStr) :
    getLastCharacterOfArgument (fuel + 1) (recordSeparator :: arg ++ [recordSeparator] ++ rest)
      = (some (arg.length + 2), recordSeparator :: arg ++ [recordSeparator] ++ rest) := by
  have hfind : (arg ++ ([recordSeparator] ++ rest)).findIdx? (· = recordSeparator)
      = some arg.length := by
    rw [findIdx?_append, findIdx?_eq_none_iff.2 (by
      intro c hc
      exact decide_eq_false fun e : c = recordSeparator => harg (e ▸ hc))]
    simp [findIdx?_cons]
  rw [append_assoc, cons_append, getLastCharacterOfArgument,
    if_neg recordSeparator_not_quote, if_pos rfl, hfind]
  rfl

theorem unquoteArgument_enclosed (h : isQuote q = true) (arg : CStr) :
    unquoteArgument (q :: arg ++ [q]) = arg := by
  have hlast : (q :: (arg ++ [q])).getLast? = some q := by
    rw [← cons_append, getLast?_concat]
  rw [cons_append, unquoteArgument, if_pos ⟨h, hlast⟩, dropLast_concat]

/-- The arguments are not those of `export` or `alias`. -/
def Ordinary (argv : List Token) : Prop :=
  onlyCommand argv "export".toList = false ∧ onlyCommand argv "alias".toList = false

theorem ordinary_concat (h : argv ≠ []) (token : Token) : Ordinary (argv ++ [token]) := by
  obtain ⟨first, rest, rfl⟩ := exists_cons_of_ne_nil h
  have hmany : ∀ command, onlyCommand (first :: rest ++ [token]) command = false := by
    simp [onlyCommand]
  exact ⟨hmany _, hmany _⟩

section mark

variable (hmark : isQuoted arg ∨ recordSeparator ∉ arg)

include hmark

theorem getLastCharacter_argument (hc : isQuoted arg → Closed arg) (fuel : Nat) (rest : CStr) :
    getLastCharacterOfArgument (fuel + 1) (quoteArgument arg ++ ' ' :: rest)
      = (some (arg.length + 2), quoteArgument arg ++ ' ' :: rest) := by
  obtain ⟨q, hquote, harg, -, ⟨hq, hmark⟩ | ⟨-, rfl⟩⟩ := quoteArgument_eq hmark
  · rw [hquote, getLastCharacter_closed hmark harg (hc hq)]
  · rw [hquote, getLastCharacter_record harg]

theorem quoteArgument_length : (quoteArgument arg).length = arg.length + 2 := by
  obtain ⟨q, hquote, -⟩ := quoteArgument_eq hmark
  rw [hquote]
  simp

theorem quoteArgument_head (rest : CStr) :
    ∃ q text, quoteArgument arg ++ rest = q :: text ∧ isQuote q = true := by
  obtain ⟨q, hquote, -, hq, -⟩ := quoteArgument_eq hmark
  exact ⟨q, _, by rw [hquote]; rfl, hq⟩

theorem unquoteArgument_quoteArgument : unquoteArgument (quoteArgument arg) = arg := by
  obtain ⟨q, hquote, -, hq, -⟩ := quoteArgument_eq hmark
  rw [hquote, unquoteArgument_enclosed hq]

theorem getLastCharacter_last_argument (fuel : Nat) :
    getLastCharacterOfArgument (fuel + 1) (quoteArgument arg) = (none, quoteArgument arg) ∨
      getLastCharacterOfArgument (fuel + 1) (quoteArgument arg)
        = (some (arg.length + 2), quoteArgument arg) := by
  obtain ⟨q, hquote, harg, -, ⟨-, hmark⟩ | ⟨-, rfl⟩⟩ := quoteArgument_eq hmark
  · rw [hquote]
    exact getLastCharacter_last hmark harg fuel
  · rw [hquote]
    exact .inr (by simpa using getLastCharacter_record harg fuel [])

theorem dropSpaces_quoteArgument (rest : CStr) :
    dropSpaces (quoteArgument arg ++ rest) = quoteArgument arg ++ rest := by
  obtain ⟨q, text, htext, hq⟩ := quoteArgument_head hmark rest
  have hblank : q ≠ ' ' := by
    rintro rfl
    cases hq
  rw [htext, dropSpaces, dropWhile_cons_of_neg (by simpa using hblank)]

theorem argumentLoop_next (hord : Ordinary argv) (hc : isQuoted arg → Closed arg) (fuel : Nat)
    (rest : CStr) :
    argumentLoop (fuel + 1) argv (quoteArgument arg ++ ' ' :: rest)
      = argumentLoop fuel (argv ++ [passed arg]) (dropSpaces rest) := by
  obtain ⟨q, text, htext, hq⟩ := quoteArgument_head hmark (' ' :: rest)
  have hlen := quoteArgument_length hmark
  have hne : quoteArgument arg ++ ' ' :: rest ≠ [] := by simp
  have hhead : (quoteArgument arg ++ ' ' :: rest).head?.any isQuote = true := by
    rw [htext]
    simpa using hq
  have htake : (quoteArgument arg ++ ' ' :: rest).take (arg.length + 2) = quoteArgument arg :=
    take_left' hlen
  have hdrop : (quoteArgument arg ++ ' ' :: rest).drop (arg.length + 2 + 1) = rest := by
    rw [← hlen, drop_length_add_append]
    rfl
  rw [argumentLoop, if_neg hne, hord.1, hord.2]
  simp only [Bool.false_eq_true, if_false, getLastCharacter_argument hmark hc, hhead, htake, hdrop,
    unquoteArgument_quoteArgument hmark]
  rw [if_neg (by simp only [length_append, length_cons]; omega)]
  rfl

theorem argumentLoop_last (hord : Ordinary argv) (fuel : Nat) :
    argumentLoop (fuel + 1) argv (quoteArgument arg) = argv ++ [passed arg] := by
  obtain ⟨q, text, htext, hq⟩ := quoteArgument_head hmark []
  rw [append_nil] at htext
  have hlen := quoteArgument_length hmark
  have hhead : (quoteArgument arg).head?.any isQuote = true := by
    rw [htext]
    simpa using hq
  have hne : quoteArgument arg ≠ [] := by
    rw [htext]
    exact cons_ne_nil _ _
  rw [argumentLoop, if_neg hne, hord.1, hord.2]
  simp only [Bool.false_eq_true, if_false]
  rcases getLastCharacter_last_argument hmark (quoteArgument arg).length with h | h
  · rw [h, hhead, unquoteArgument_quoteArgument hmark]
    rfl
  · rw [h, hhead]
    simp only
    rw [if_pos (Nat.le_of_eq hlen), unquoteArgument_quoteArgument hmark]
    rfl

end mark

theorem argumentLoop_arguments {fuel : Nat}
    (hmark : ∀ a ∈ arg :: args, isQuoted a ∨ recordSeparator ∉ a)
    (hc : ∀ a ∈ (arg :: args).dropLast, isQuoted a → Closed a) (hargv : argv ≠ [])
    (hord : Ordinary argv) (hfuel : args.length < fuel) :
    argumentLoop fuel argv (quoteArgument arg ++ argumentsText args)
      = argv ++ (arg :: args).map passed := by
  obtain ⟨fuel, rfl⟩ := Nat.exists_eq_add_one_of_ne_zero (by omega : fuel ≠ 0)
  induction args generalizing arg argv fuel with
  | nil =>
    rw [show argumentsText [] = [] from rfl, append_nil]
    exact argumentLoop_last (hmark arg mem_cons_self) hord fuel
  | cons next args ih =>
    have hnext : isQuoted next ∨ recordSeparator ∉ next := hmark next (by simp)
    obtain ⟨fuel, rfl⟩ := Nat.exists_eq_add_one_of_ne_zero
      (by simp only [length_cons] at hfuel; omega : fuel ≠ 0)
    rw [argumentsText_cons, append_assoc, singleton_append,
      argumentLoop_next (hmark arg mem_cons_self) hord (hc arg (by simp)),
      dropSpaces_quoteArgument hnext,
      ih (fun a ha => hmark a (mem_cons_of_mem _ ha))
        (fun a ha => hc a (by rw [dropLast_cons_cons]; exact mem_cons_of_mem _ ha)) (by simp)
        (ordinary_concat hargv _) fuel (by simp only [length_cons] at hfuel; omega)]
    simp

theorem nextUnescapedCharacter_none (h : c ∉ xs) : nextUnescapedCharacter xs c = none := by
  have hnone : ∀ i ys, c ∉ ys → nextUnescapedFrom xs c i ys = none := by
    intro i ys hys
    have := nextUnescapedFrom_skip hys xs i []
    rwa [append_nil] at this
  unfold nextUnescapedCharacter
  split
  · exact hnone 2 _ fun hmem => h (mem_of_mem_drop hmem)
  · exact hnone 0 xs h

theorem trailingBackslashes_of_not_mem (h : '\\' ∉ xs) : trailingBackslashes xs = 0 := by
  rcases eq_nil_or_concat xs with rfl | ⟨ys, c, rfl⟩
  · rfl
  · rw [concat_eq_append] at h ⊢
    have hc : c ≠ '\\' := fun e => h (by simp [e])
    rw [trailingBackslashes_concat, if_neg hc]

theorem removeBackslashes_append (h : '\\' ∉ xs) (text : CStr) :
    removeBackslashes (xs ++ text) = xs ++ removeBackslashes text := by
  induction xs with
  | nil => rfl
  | cons c xs ih =>
    have hc : c ≠ '\\' := fun e => h (e ▸ mem_cons_self)
    have hxs := ih fun e => h (mem_cons_of_mem _ e)
    rw [cons_append, cons_append, ← hxs]
    cases xs ++ text with
    | nil => exact if_neg hc
    | cons d rest => rw [removeBackslashes, if_neg hc]

theorem removeBackslashes_of_not_mem (h : '\\' ∉ xs) : removeBackslashes xs = xs := by
  simpa [removeBackslashes] using removeBackslashes_append h []

theorem isQuote_of_not_shell (h : c ∉ shellCharacters) : isQuote c = false := by
  refine decide_eq_false ?_
  rintro (rfl | rfl | rfl) <;> exact h (by decide)

theorem getLastCharacter_name (h : CommandName name) (args : List CStr) (fuel : Nat) :
    getLastCharacterOfArgument (fuel + 1) (concatenateArgv name args)
      = (if args = [] then none else some name.length, concatenateArgv name args) := by
  obtain ⟨c, name, rfl⟩ := exists_cons_of_ne_nil h.1
  have hquote : ¬ (c = '"' ∨ c = '\'' ∨ c = recordSeparator) :=
    of_decide_eq_false (isQuote_of_not_shell (h.2 c mem_cons_self))
  have hno : ∀ d ∈ shellCharacters, d ∉ name := fun d hd hmem =>
    h.not_mem hd (mem_cons_of_mem _ hmem)
  have hbackslash := hno '\\' (by decide)
  have hblank := hno ' ' (by decide)
  rw [concatenateArgv_eq, cons_append, getLastCharacterOfArgument,
    if_neg fun e => hquote (e.imp id .inl), if_neg fun e => hquote (.inr (.inr e))]
  cases args with
  | nil =>
    rw [show argumentsText [] = [] from rfl, append_nil, nextUnescapedCharacter_none hblank]
    rfl
  | cons arg args =>
    have heven : trailingBackslashes (name.drop 1) % 2 = 0 := by
      rw [trailingBackslashes_of_not_mem fun e => hbackslash (mem_of_mem_drop e)]
    have hone : name ≠ ['\\'] := by
      rintro rfl
      exact hbackslash mem_cons_self
    rw [argumentsText_cons, append_assoc, singleton_append,
      nextUnescapedCharacter_found (by decide) hblank hone heven, if_neg (cons_ne_nil _ _)]
    rfl

theorem unquoteArgument_name (h : CommandName name) : unquoteArgument name = name := by
  obtain ⟨c, rest, rfl⟩ := exists_cons_of_ne_nil h.1
  have hquote := isQuote_of_not_shell (h.2 c mem_cons_self)
  rw [unquoteArgument, if_neg (by rw [hquote]; simp),
    removeBackslashes_of_not_mem (h.not_mem (by decide))]

theorem head_isQuote_name (h : CommandName name) (args : List CStr) :
    (concatenateArgv name args).head?.any isQuote = false := by
  obtain ⟨c, rest, rfl⟩ := exists_cons_of_ne_nil h.1
  exact isQuote_of_not_shell (h.2 c mem_cons_self)

theorem length_argumentsText (args : List CStr) : args.length ≤ (argumentsText args).length := by
  induction args with
  | nil => exact Nat.le_refl 0
  | cons arg args ih =>
    rw [argumentsText_cons]
    simp only [length_append, length_cons]
    omega

theorem ordinary_name (h : name ∉ readsItself) : Ordinary [⟨name, false⟩] := by
  simp only [readsItself, mem_cons, not_or] at h
  exact ⟨decide_eq_false (by simpa using h.1), decide_eq_false (by simpa using h.2)⟩

theorem arguments_concatenateArgv (h : Passes env name args) :
    arguments (concatenateArgv name args) = ⟨name, false⟩ :: args.map passed := by
  have hne : concatenateArgv name args ≠ [] := fun e => h.command.1 (append_eq_nil_iff.1 e).1
  rw [arguments, argumentLoop, if_neg hne, if_neg (by decide), if_neg (by decide)]
  simp only [getLastCharacter_name h.command, head_isQuote_name h.command]
  cases args with
  | nil =>
    rw [if_pos rfl, concatenateArgv_eq, show argumentsText [] = [] from rfl, append_nil,
      unquoteArgument_name h.command]
    rfl
  | cons arg args =>
    have htext : concatenateArgv name (arg :: args)
        = name ++ ' ' :: (quoteArgument arg ++ argumentsText args) := by
      rfl
    have hord := ordinary_name (h.ordinary.resolve_left (cons_ne_nil _ _))
    have hlength := length_argumentsText args
    rw [if_neg (cons_ne_nil _ _)]
    simp only
    rw [if_neg (by rw [htext]; simp), htext, take_left,
      drop_length_add_append, drop_one, tail_cons, unquoteArgument_name h.command,
      dropSpaces_quoteArgument (h.mark arg mem_cons_self), nil_append,
      argumentLoop_arguments h.mark h.closed (cons_ne_nil _ _) hord
        (by simp only [length_append, length_cons]; omega)]
    rfl

/-! ## The whole way -/

/-- The arguments of `ios_execv` come back, and nothing else is run. -/
theorem execv_arguments {env : Env} {name : CStr} {args : List CStr} (h : Passes env name args)
    (fuel : Nat) :
    env.read (fuel + 2) (concatenateArgv name args)
      = some ([], ⟨name, false⟩ :: args.map passed) := by
  have hsubst := not_hasSubst_concatenateArgv h.command h.closed h.quiet.substitution
  have hexpand := expand_mono (Nat.le_add_left 2 fuel) (expand_of_not_hasSubst hsubst env.capture)
  rw [Env.read, front_concatenateArgv h.command, hexpand]
  simp only [action_concatenateArgv h, redirections_concatenateArgv h, if_true,
    commandText_concatenateArgv h, arguments_concatenateArgv h]

def emptyEnv : Env := plainEnv (fun _ _ => none) fun _ => []

/--
Operators, a redirection and a substitution in quotes, both kinds of quotes in one argument, and a
backslash at the end of the last one.
-/
theorem execv_arguments_git :
    emptyEnv.read 2 (concatenateArgv "git".toList
        ["a;b >c".toList, "say \"$(x)\"".toList, "it's \"x;y\"".toList, "z\\".toList])
      = some ([], [⟨"git".toList, false⟩, passed "a;b >c".toList, passed "say \"$(x)\"".toList,
          passed "it's \"x;y\"".toList, passed "z\\".toList]) := by
  have h : Passes emptyEnv "git".toList
      ["a;b >c".toList, "say \"$(x)\"".toList, "it's \"x;y\"".toList, "z\\".toList] := by
    refine ⟨⟨by decide, ?_⟩, rfl, .inr (by decide), by decide, ?_, ?_⟩
    · have hname : "git".toList.all fun c => !shellCharacters.contains c := by decide
      simpa using hname
    · unfold Closed
      decide
    · refine ⟨by decide, by decide, by decide, ?_⟩
      rintro (⟨i, j, hi, -⟩ | ⟨i, j, hi, -⟩)
      · rw [show strstrquoted _ dollarParen = none by decide] at hi
        cases hi
      · rw [show findBacktick _ = none by decide] at hi
        cases hi
  exact execv_arguments h 0

/--
A command in `argv[0]` is cut at its blanks, a backslash takes the closing quote away, an operator
is found between record separators, `export` keeps the quotes, and an argument with all three marks
is not enclosed.
-/
theorem execv_not_arguments :
    emptyEnv.read 2 (concatenateArgv "ssh h".toList [])
      = some ([], [⟨"ssh".toList, false⟩, ⟨"h".toList, false⟩]) ∧
    emptyEnv.read 2 (concatenateArgv "echo".toList ["a\\".toList, "b".toList])
      = some ([], [⟨"echo".toList, false⟩, passed "a\\\" \"b".toList]) ∧
    emptyEnv.action (concatenateArgv "echo".toList ["\"\"'';x".toList])
      = .sequential "echo \x1e\"\"'';x\x1e".toList
          ["echo \x1e\"\"''".toList, "x\x1e".toList] ∧
    emptyEnv.read 2 (concatenateArgv "export".toList ["A=1".toList])
      = some ([], [⟨"export".toList, false⟩, ⟨"\"A=1\"".toList, false⟩]) ∧
    emptyEnv.read 2 (concatenateArgv "echo".toList ["a b\"'\x1e".toList])
      = some ([], [⟨"echo".toList, false⟩, ⟨"a".toList, false⟩, ⟨"b\"'\x1e".toList, false⟩]) := by
  refine ⟨?_, ?_, ?_, ?_, ?_⟩ <;> decide

end IosSystem.Shell
