import IosSystem.Directory.Change
import IosSystem.Shell.Tokenizer
import IosSystem.Shell.Variables

/-!
# `parseArgument`

`parseArgument` expands the variables of an argument, then a `~` at its beginning, and makes a path
that starts with `..` absolute. For `setenv` and `export` it also expands each `:~`.

Between two separators an argument has some text and then at most one reference (`Argument`). The
variables are meant to be expanded one by one (`Argument.expanded`). The loop replaces `$name` in
the whole argument instead, and stops at the first name that is not set. The two are the same, for
all values without `$`, exactly if the set names come first, and a name stands in front of the names
that it is the beginning of only if these are not there (`parseArgument_eq_iff`).
-/

namespace IosSystem.Shell

open List Expander
open Replace
open IosSystem.Directory (pathJoin)
open IosSystem.Interp.Instances (startsWith)

/-! ## The function -/

/-- What `parseArgument` consults. -/
structure Surroundings where
  /-- `ios_getenv` -/
  getenv : CStr → Option CStr
  /-- `miniRoot`, or else `HOME` -/
  home : CStr
  /-- `tildeExpansionDictionary` -/
  bookmarks : Option (CStr → Option CStr)
  /-- `currentSession->currentDir` -/
  currentDir : CStr

/-- `hasSuffix:` -/
def endsWith (text suffix : CStr) : Bool := suffix.isSuffixOf text

/-- A `~` at the beginning. -/
def Surroundings.expandTilde (s : Surroundings) (text : CStr) : CStr :=
  if startsWith text ['~'] then
    if startsWith text ['~', '/'] ∨ startsWith text ['~', ':'] ∨ text.length = 1 then
      s.home ++ text.drop 1
    else
      match s.bookmarks with
      | none => text
      | some bookmarks =>
        let component := Expander.argument.name text
        match bookmarks (component.drop 1) with
        | none => text
        | some path => path ++ text.drop component.length
  else text

/-- `componentsSeparatedByString:@":~"` -/
def splitColonTilde : CStr → CStr × List CStr
  | [] => ([], [])
  | ':' :: '~' :: rest =>
    let r := splitColonTilde rest
    ([], r.1 :: r.2)
  | c :: rest =>
    let r := splitColonTilde rest
    (c :: r.1, r.2)

/-- The name behind a `:~`, if it is a bookmark. -/
def bookmarkPath (bookmarks : CStr → Option CStr) (component : CStr) : CStr :=
  let name := component.takeWhile (· ≠ '/')
  match bookmarks name with
  | some path => ':' :: if name = [] then component else replaceAll name path component
  | none => ':' :: '~' :: component

/-- Each `:~`, for `setenv` and `export`. -/
def Surroundings.expandColonTilde (s : Surroundings) (text : CStr) : CStr :=
  if contains text [':', '~'] then
    let text :=
      if s.home = [] then text
      else if contains text [':', '~', '/'] then
        replaceAll [':', '~', '/'] (':' :: s.home ++ ['/']) text
      else if endsWith text [':', '~'] then text.take (text.length - 2) ++ ':' :: s.home
      else if endsWith text [':'] then
        text.take (text.length - 2) ++ replaceAll [':'] (':' :: s.home)
          (text.drop (text.length - 2))
      else text
    match s.bookmarks with
    | none => text
    | some bookmarks =>
      let components := splitColonTilde text
      components.1 ++ components.2.flatMap (bookmarkPath bookmarks)
  else text

/-- A path that starts with `..`. -/
def startsWithDots (text : CStr) : Bool :=
  startsWith text "../".toList || startsWith text "./..".toList || text = "..".toList

/-- The steps of `parseArgument` behind the variables. -/
def Surroundings.finish (s : Surroundings) (command text : CStr) : CStr :=
  let text := s.expandTilde text
  let text :=
    if command = "setenv".toList ∨ command = "export".toList then s.expandColonTilde text else text
  if startsWithDots text then pathJoin s.currentDir text else text

/-- `parseArgument`. Out of fuel, its loop has not ended. -/
def Surroundings.parseArgument (s : Surroundings) (fuel : Nat) (argument command : CStr) :
    Option CStr :=
  let expand := fun text =>
    (Expander.argument.expandVariables s.getenv fuel text).map (s.finish command)
  if command = "export".toList then
    if '=' ∈ argument then
      let variableName := argument.takeWhile (· ≠ '=')
      let value := unquoteArgument (argument.dropWhile (· ≠ '=')).tail
      (expand value).map fun value => variableName ++ '=' :: value
    else some argument
  else expand argument

/-- The steps behind the loop change this text, also for commands other than `setenv` and `export`.
-/
def Special (text : CStr) : Bool := startsWith text ['~'] || startsWithDots text

theorem finish_of_not_special {s : Surroundings} {command text : CStr}
    (hcommand : command ≠ "setenv".toList ∧ command ≠ "export".toList) (h : Special text = false) :
    s.finish command text = text := by
  obtain ⟨htilde, hdots⟩ := Bool.or_eq_false_iff.mp h
  have hother : ¬(command = "setenv".toList ∨ command = "export".toList) := not_or.mpr hcommand
  have htext : s.expandTilde text = text := by
    rw [Surroundings.expandTilde, if_neg (by rw [htilde]; exact Bool.false_ne_true)]
  unfold Surroundings.finish
  simp only [htext, if_neg hother, hdots, Bool.false_eq_true, if_false]

/-! ## Arguments with references -/

/-- No `$` and no separator. -/
def PlainText (text : CStr) : Prop := ∀ c ∈ text, c ≠ '$' ∧ Expander.argument.separator c = false

instance (text : CStr) : Decidable (PlainText text) :=
  decidableBAll (p := fun c => c ≠ '$' ∧ Expander.argument.separator c = false) text

/-- The text between two separators: letters, then at most one reference. -/
structure Piece where
  literal : CStr
  reference : Option CStr
  plain : PlainText literal
  named : ∀ name ∈ reference, name ≠ [] ∧ PlainText name

/-- An argument, piece by piece. -/
structure Argument where
  first : Piece
  rest : List ({c : Char // Expander.argument.separator c = true} × Piece)

/-- The piece, with `f name` for the reference. -/
def Piece.write (f : CStr → CStr) (p : Piece) : CStr := p.literal ++ p.reference.elim [] f

def Argument.write (f : CStr → CStr) (a : Argument) : CStr :=
  a.first.write f ++ a.rest.flatMap fun r => r.1.val :: r.2.write f

def dollar (name : CStr) : CStr := '$' :: name

def Argument.text (a : Argument) : CStr := a.write dollar

def Argument.references (a : Argument) : List CStr :=
  (a.first :: a.rest.map Prod.snd).filterMap Piece.reference

def ownValue (getenv : CStr → Option CStr) (name : CStr) : CStr := (getenv name).getD (dollar name)

/-- The argument with the value of each reference. -/
def Argument.expanded (getenv : CStr → Option CStr) (a : Argument) : CStr :=
  a.write (ownValue getenv)

/-! ## Segments -/

/-- A character, or a reference as a whole. -/
inductive Segment where
  | letter (c : Char)
  | reference (name : CStr)

def Segment.write (f : CStr → CStr) : Segment → CStr
  | .letter c => [c]
  | .reference name => f name

def writeAll (f : CStr → CStr) (segments : List Segment) : CStr :=
  segments.flatMap (Segment.write f)

def Segment.name? : Segment → Option CStr
  | .letter _ => none
  | .reference name => some name

def names (segments : List Segment) : List CStr := segments.filterMap Segment.name?

def AtBoundary : List Segment → Prop
  | [] => True
  | .letter c :: _ => Expander.argument.separator c = true
  | .reference _ :: _ => False

/-- Letters are not `$`, and a reference is followed by a separator. -/
def Proper : List Segment → Prop
  | [] => True
  | .letter c :: rest => c ≠ '$' ∧ Proper rest
  | .reference name :: rest => PlainText name ∧ AtBoundary rest ∧ Proper rest

def Piece.segments (p : Piece) : List Segment :=
  p.literal.map .letter ++ p.reference.toList.map .reference

def Argument.segments (a : Argument) : List Segment :=
  a.first.segments ++ a.rest.flatMap fun r => .letter r.1.val :: r.2.segments

variable {text value : CStr} {segments : List Segment}

section

variable {f : CStr → CStr}

@[simp] theorem writeAll_nil : writeAll f [] = [] := rfl

@[simp] theorem writeAll_cons (x : Segment) (segments : List Segment) :
    writeAll f (x :: segments) = x.write f ++ writeAll f segments := rfl

theorem writeAll_append (segments segments' : List Segment) :
    writeAll f (segments ++ segments') = writeAll f segments ++ writeAll f segments' :=
  flatMap_append

theorem writeAll_letters (text : CStr) : writeAll f (text.map .letter) = text := by
  induction text with
  | nil => rfl
  | cons c text ih => exact congrArg (c :: ·) ih

theorem names_append (segments segments' : List Segment) :
    names (segments ++ segments') = names segments ++ names segments' :=
  filterMap_append

theorem names_letters (text : CStr) : names (text.map .letter) = [] := by
  induction text with
  | nil => rfl
  | cons c text ih => exact ih

theorem proper_letters (h : '$' ∉ text)
    (hproper : Proper segments) : Proper (text.map .letter ++ segments) := by
  induction text with
  | nil => exact hproper
  | cons c text ih =>
    exact ⟨Ne.symm (ne_of_not_mem_cons h), ih (not_mem_of_not_mem_cons h)⟩

/-! ### The segments of an argument -/

theorem Piece.writeAll_segments (p : Piece) : writeAll f p.segments = p.write f := by
  rw [Piece.segments, writeAll_append, writeAll_letters, Piece.write]
  cases p.reference with
  | none => rfl
  | some name => exact congrArg (p.literal ++ ·) (append_nil _)

theorem Piece.names_segments (p : Piece) : names p.segments = p.reference.toList := by
  rw [Piece.segments, names_append, names_letters]
  cases p.reference <;> rfl

theorem Piece.proper_segments (p : Piece) (hbound : AtBoundary segments)
    (hproper : Proper segments) : Proper (p.segments ++ segments) := by
  have hliteral : '$' ∉ p.literal := fun h => (p.plain '$' h).1 rfl
  rw [Piece.segments, append_assoc]
  refine proper_letters hliteral ?_
  cases hr : p.reference with
  | none => exact hproper
  | some name => exact ⟨(p.named name hr).2, hbound, hproper⟩

theorem Argument.writeAll_segments (a : Argument) : writeAll f a.segments = a.write f := by
  obtain ⟨first, rest⟩ := a
  have hrest : writeAll f (rest.flatMap fun r => .letter r.1.val :: r.2.segments)
      = rest.flatMap fun r => r.1.val :: r.2.write f := by
    induction rest with
    | nil => rfl
    | cons r rest ih =>
      rw [flatMap_cons, flatMap_cons, writeAll_append, writeAll_cons, ih, Piece.writeAll_segments]
      rfl
  rw [Argument.segments, writeAll_append, Piece.writeAll_segments, hrest, Argument.write]

theorem Argument.names_segments (a : Argument) : names a.segments = a.references := by
  obtain ⟨first, rest⟩ := a
  have hrest : names (rest.flatMap fun r => .letter r.1.val :: r.2.segments)
      = (rest.map Prod.snd).filterMap Piece.reference := by
    induction rest with
    | nil => rfl
    | cons r rest ih =>
      rw [flatMap_cons, names_append, ih, map_cons, filterMap_cons]
      have hpiece : names (.letter r.1.val :: r.2.segments) = r.2.reference.toList :=
        r.2.names_segments
      rw [hpiece]
      cases r.2.reference <;> rfl
  rw [Argument.segments, names_append, Piece.names_segments, hrest, Argument.references,
    filterMap_cons]
  cases first.reference <;> rfl

theorem Argument.proper_segments (a : Argument) : Proper a.segments := by
  obtain ⟨first, rest⟩ := a
  have hrest : AtBoundary (rest.flatMap fun r => .letter r.1.val :: r.2.segments) ∧
      Proper (rest.flatMap fun r => .letter r.1.val :: r.2.segments) := by
    induction rest with
    | nil => exact ⟨trivial, trivial⟩
    | cons r rest ih =>
      refine ⟨r.1.property, ?_, r.2.proper_segments ih.1 ih.2⟩
      rintro hdollar
      have hsep := r.1.property
      rw [hdollar] at hsep
      exact Bool.false_ne_true hsep
  exact first.proper_segments hrest.1 hrest.2

end

/-! ## A turn of the loop -/

variable {name other : CStr}

theorem isPrefixOf_eq_false : name.isPrefixOf other = false ↔ ¬name <+: other := by
  rw [← Bool.not_eq_true, isPrefixOf_iff_prefix]

/-- What replacing `$name` makes of a segment. -/
def Segment.replace (name value : CStr) : Segment → List Segment
  | .letter c => [.letter c]
  | .reference other =>
    if name.isPrefixOf other then (value ++ other.drop name.length).map .letter
    else [.reference other]

open Segment

theorem Segment.replace_append (name value tail : CStr) :
    Segment.replace name value (.reference (name ++ tail)) = (value ++ tail).map .letter := by
  have hfound : name.isPrefixOf (name ++ tail) = true := by simp
  rw [replace, if_pos hfound, drop_left]

theorem Segment.replace_of_not_found (h : ¬name <+: other) (value : CStr) :
    Segment.replace name value (.reference other) = [.reference other] := by
  rw [← isPrefixOf_iff_prefix] at h
  rw [replace, if_neg h]

/-- The replacement of `$NAME`, within longer names too. -/
def replaceSegments (name value : CStr) (segments : List Segment) : List Segment :=
  segments.flatMap (Segment.replace name value)

theorem replaceSegments_cons (name value : CStr) (x : Segment) (segments : List Segment) :
    replaceSegments name value (x :: segments)
      = x.replace name value ++ replaceSegments name value segments := flatMap_cons

theorem atBoundary_replaceSegments (name value : CStr)
    (h : AtBoundary segments) : AtBoundary (replaceSegments name value segments) := by
  match segments with
  | [] => trivial
  | .letter c :: _ => exact h
  | .reference _ :: _ => exact h.elim

variable {f : CStr → CStr}

theorem isPrefix_of_boundary (hname : PlainText name) (hbound : AtBoundary segments)
    (h : name <+: other ++ writeAll f segments) : name <+: other := by
  rcases prefix_or_prefix_of_prefix h (prefix_append other _) with hle | ⟨tail, rfl⟩
  · exact hle
  · rw [prefix_append_right_inj] at h
    match segments, tail with
    | _, [] => rw [append_nil]
    | [], d :: tail => simp at h
    | .letter c :: rest, d :: tail =>
      have hd : d = c := (cons_prefix_cons.mp h).1
      have hplain := (hname d (by simp)).2
      rw [hd, hbound] at hplain
      cases hplain
    | .reference _ :: _, _ => exact hbound.elim

variable {name : CStr}

/-- The replacement in the text is one of the segments. -/
theorem replaceAll_writeAll (hname : PlainText name) (h : Proper segments) :
    replaceAll ('$' :: name) value (writeAll dollar segments)
      = writeAll dollar (replaceSegments name value segments) := by
  induction segments with
  | nil => rfl
  | cons x segments ih =>
    rw [replaceSegments_cons, writeAll_append, writeAll_cons]
    cases x with
    | letter c =>
      have hnot : '$' ∉ [c] := by simpa using Ne.symm h.1
      exact (replaceAll_append_of_notMem hnot _).trans (congrArg ([c] ++ ·) (ih h.2))
    | reference other =>
      obtain ⟨hother, hbound, hproper⟩ := h
      by_cases hfound : name <+: other
      · obtain ⟨tail, rfl⟩ := hfound
        have htail : '$' ∉ tail := fun hmem => (hother '$' (mem_append_right _ hmem)).1 rfl
        calc
          replaceAll ('$' :: name) value (dollar (name ++ tail) ++ writeAll dollar segments)
            = replaceAll ('$' :: name) value
              (('$' :: name) ++ (tail ++ writeAll dollar segments)) := by
              simp [dollar]
          _ = value ++ (tail ++ replaceAll ('$' :: name) value (writeAll dollar segments)) := by
              rw [replaceAll_append (cons_ne_nil _ _), replaceAll_append_of_notMem htail]
          _ = writeAll dollar ((value ++ tail).map .letter)
                ++ writeAll dollar (replaceSegments name value segments) := by
              rw [writeAll_letters, ih hproper, append_assoc]
          _ = _ := by rw [replace_append]
      · have hnot : ¬ '$' :: name <+: '$' :: (other ++ writeAll dollar segments) := fun hle =>
          hfound (isPrefix_of_boundary hname hbound (cons_prefix_cons.mp hle).2)
        have hmem : '$' ∉ other := fun hmem => (hother '$' hmem).1 rfl
        calc
          replaceAll ('$' :: name) value (dollar other ++ writeAll dollar segments)
            = '$' :: replaceAll ('$' :: name) value (other ++ writeAll dollar segments) :=
              replaceAll_cons_of_not_found hnot
          _ = dollar other ++ writeAll dollar (replaceSegments name value segments) := by
              rw [replaceAll_append_of_notMem hmem, ih hproper]
              rfl
          _ = _ := by
              rw [replace_of_not_found hfound, writeAll_cons, writeAll_nil, append_nil]
              rfl

theorem proper_replaceSegments (hvalue : '$' ∉ value) (h : Proper segments) :
    Proper (replaceSegments name value segments) := by
  induction segments with
  | nil => trivial
  | cons x segments ih =>
    rw [replaceSegments_cons]
    cases x with
    | letter c => exact ⟨h.1, ih h.2⟩
    | reference other =>
      obtain ⟨hother, hbound, hproper⟩ := h
      by_cases hfound : name <+: other
      · obtain ⟨tail, rfl⟩ := hfound
        rw [replace_append]
        refine proper_letters ?_ (ih hproper)
        rw [mem_append, not_or]
        exact ⟨hvalue, fun hmem => (hother '$' (mem_append_right _ hmem)).1 rfl⟩
      · rw [replace_of_not_found hfound]
        exact ⟨hother, atBoundary_replaceSegments name value hbound, ih hproper⟩

theorem names_replaceSegments (name value : CStr) (segments : List Segment) :
    names (replaceSegments name value segments)
      = (names segments).filter fun other => !name.isPrefixOf other := by
  induction segments with
  | nil => rfl
  | cons x segments ih =>
    rw [replaceSegments_cons, names_append, ih]
    cases x with
    | letter c => rfl
    | reference other =>
      have hnames : names (.reference other :: segments) = other :: names segments := rfl
      rw [hnames, filter_cons]
      by_cases hfound : name <+: other
      · obtain ⟨tail, rfl⟩ := hfound
        rw [replace_append, names_letters]
        simp
      · rw [replace_of_not_found hfound]
        simp [hfound, names, name?]

theorem writeAll_replaceSegments (f : CStr → CStr) (name value : CStr) (segments : List Segment) :
    writeAll f (replaceSegments name value segments)
      = writeAll (fun other => if name.isPrefixOf other then value ++ other.drop name.length
          else f other) segments := by
  induction segments with
  | nil => rfl
  | cons x segments ih =>
    rw [replaceSegments_cons, writeAll_append, ih, writeAll_cons]
    congr 1
    cases x with
    | letter c => rfl
    | reference other =>
      rw [Segment.replace, Segment.write]
      split
      · exact writeAll_letters _
      · exact append_nil _

theorem name_append (htext : ∀ c ∈ text, Expander.argument.separator c = false)
    (hbound : AtBoundary segments) :
    Expander.argument.name (text ++ writeAll f segments) = text := by
  have hrest : argument.name (writeAll f segments) = [] := by
    match segments with
    | [] => rfl
    | .letter c :: rest =>
      have hc : (!argument.separator c) = false := by rw [hbound]; rfl
      exact takeWhile_cons_of_neg (by rw [hc]; exact Bool.false_ne_true)
    | .reference _ :: _ => exact hbound.elim
  unfold name at hrest ⊢
  rw [takeWhile_append_of_pos (fun c hc => by rw [htext c hc]; rfl), hrest, append_nil]

theorem firstName_writeAll (h : Proper segments) :
    Expander.argument.firstName (writeAll dollar segments) = (names segments).head? := by
  induction segments with
  | nil => rfl
  | cons x segments ih =>
    cases x with
    | letter c =>
      have hskip : argument.firstName (c :: writeAll dollar segments)
          = argument.firstName (writeAll dollar segments) := by
        simp [firstName, h.1]
      exact hskip.trans (ih h.2)
    | reference name =>
      obtain ⟨hname, hbound, -⟩ := h
      have hfirst : argument.firstName ('$' :: (name ++ writeAll dollar segments))
          = some (argument.name (name ++ writeAll dollar segments)) := by
        simp [firstName]
      refine hfirst.trans ?_
      rw [name_append (fun c hc => (hname c hc).2) hbound]
      rfl

/-! ## The whole loop -/

/--
What the loop makes of each reference, for the references of a text: it takes the first one, and
every reference that begins with the same letters goes with it.
-/
inductive Outcome (getenv : CStr → Option CStr) : List CStr → (CStr → CStr) → Prop
  | nil : Outcome getenv [] dollar
  | unset {name : CStr} {rest : List CStr} : getenv name = none →
      Outcome getenv (name :: rest) dollar
  | set {name value : CStr} {rest : List CStr} {out : CStr → CStr} : getenv name = some value →
      Outcome getenv ((name :: rest).filter fun other => !name.isPrefixOf other) out →
      Outcome getenv (name :: rest) fun other =>
        if name.isPrefixOf other then value ++ other.drop name.length else out other

theorem proper_names (h : Proper segments) : ∀ name ∈ names segments, PlainText name := by
  induction segments with
  | nil => simp [names]
  | cons x segments ih =>
    cases x with
    | letter c => exact ih h.2
    | reference name => exact forall_mem_cons.mpr ⟨h.1, ih h.2.2⟩

theorem not_contains_of_notMem (h : '$' ∉ value) : contains value ('$' :: name) = false := by
  induction value with
  | nil => rfl
  | cons c value ih =>
    have hc : ('$' == c) = false := by simpa using ne_of_not_mem_cons h
    rw [contains, isPrefixOf, hc, ih (not_mem_of_not_mem_cons h)]
    rfl

variable {getenv : CStr → Option CStr}

theorem expandVariables_writeAll (hvalues : ∀ name value, getenv name = some value → '$' ∉ value)
    {fuel : Nat} (h : Proper segments) (hfuel : (names segments).length < fuel) :
    ∃ out, Outcome getenv (names segments) out ∧
      Expander.argument.expandVariables getenv fuel (writeAll dollar segments)
        = some (writeAll out segments) := by
  induction fuel generalizing segments with
  | zero => omega
  | succ fuel ih =>
    have hfirst := firstName_writeAll h
    have hplain := proper_names h
    cases hnames : names segments with
    | nil =>
      rw [hnames] at hfirst
      exact ⟨dollar, .nil, by simp [expandVariables, hfirst]⟩
    | cons name rest =>
      rw [hnames] at hfirst hplain hfuel
      cases hset : getenv name with
      | none => exact ⟨dollar, .unset hset, by simp [expandVariables, hfirst, hset]⟩
      | some value =>
        have hvalue := hvalues name value hset
        have hturn : argument.expandVariables getenv (fuel + 1) (writeAll dollar segments)
            = argument.expandVariables getenv fuel
                (writeAll dollar (replaceSegments name value segments)) := by
          rw [← replaceAll_writeAll (hplain name mem_cons_self) h]
          simp [expandVariables, hfirst, hset, not_contains_of_notMem hvalue]
        have hleft := names_replaceSegments name value segments
        have hshort : (names (replaceSegments name value segments)).length < fuel := by
          rw [hleft, hnames, filter_cons_of_neg (by simp)]
          have := length_filter_le (fun other => !name.isPrefixOf other) rest
          rw [length_cons] at hfuel
          omega
        obtain ⟨out, hout, hresult⟩ := ih (proper_replaceSegments hvalue h) hshort
        rw [hleft, hnames] at hout
        exact ⟨_, .set hset hout, by rw [hturn, hresult, writeAll_replaceSegments]⟩

/-! ## The kind of references -/

/--
Of the references up to the first one that is not set, the first that `name` begins with is `name`
itself, if it is set; and there is none, if it is not set.
-/
def Clean (isSet : CStr → Bool) (references : List CStr) : Prop :=
  ∀ name ∈ references, (references.takeWhile isSet).find? (·.isPrefixOf name)
    = if isSet name then some name else none

instance (isSet : CStr → Bool) (references : List CStr) : Decidable (Clean isSet references) :=
  decidableBAll _ references

section

variable {isSet : CStr → Bool} {name : CStr} {rest : List CStr}

theorem clean_cons_of_unset (h : isSet name = false) :
    Clean isSet (name :: rest) ↔ ∀ other ∈ name :: rest, isSet other = false := by
  unfold Clean
  rw [takeWhile_cons_of_neg (by rw [h]; exact Bool.false_ne_true)]
  refine forall₂_congr fun other _ => ?_
  cases isSet other <;> simp

theorem takeWhile_filter_eq {q : CStr → Bool} {l : List CStr}
    (h : ∀ x ∈ l, q x = false → isSet x = true) :
    (l.filter q).takeWhile isSet = (l.takeWhile isSet).filter q := by
  induction l with
  | nil => rfl
  | cons x l ih =>
    have ih := ih fun y hy => h y (mem_cons_of_mem x hy)
    by_cases hq : q x = true
    · rw [filter_cons_of_pos hq]
      by_cases hs : isSet x = true
      · rw [takeWhile_cons_of_pos hs, takeWhile_cons_of_pos hs, filter_cons_of_pos hq, ih]
      · rw [takeWhile_cons_of_neg hs, takeWhile_cons_of_neg hs, filter_nil]
    · rw [filter_cons_of_neg hq]
      have hs := h x mem_cons_self (Bool.eq_false_iff.mpr hq)
      rw [takeWhile_cons_of_pos hs, filter_cons_of_neg hq, ih]

theorem clean_cons_of_set (h : isSet name = true) :
    Clean isSet (name :: rest) ↔ (∀ other ∈ name :: rest, name <+: other → other = name) ∧
      Clean isSet ((name :: rest).filter fun other => !name.isPrefixOf other) := by
  have hhead : ∀ other, name <+: other →
      ((name :: rest).takeWhile isSet).find? (·.isPrefixOf other) = some name := by
    intro other hle
    rw [← isPrefixOf_iff_prefix] at hle
    rw [takeWhile_cons_of_pos h, find?_cons, hle]
  have hfilter : (∀ other ∈ name :: rest, name <+: other → other = name) →
    ∀ other, ¬name <+: other →
      (((name :: rest).filter fun other => !name.isPrefixOf other).takeWhile isSet).find?
          (·.isPrefixOf other)
        = ((name :: rest).takeWhile isSet).find? (·.isPrefixOf other) := by
    intro hsame other hnot
    rw [takeWhile_filter_eq, find?_filter]
    · congr 1
      funext x
      by_cases hx : name <+: x
      · have hother : ¬x <+: other := fun hle => hnot (hx.trans hle)
        simp [isPrefixOf_eq_false.mpr hother]
      · simp only [isPrefixOf_eq_false.mpr hx, Bool.not_false, true_and, Bool.decide_eq_true]
    · intro x hx hq
      have hle : name <+: x := by
        simpa using hq
      rw [hsame x hx hle, h]
  constructor
  · intro hclean
    have hsame : ∀ other ∈ name :: rest, name <+: other → other = name := by
      intro other hmem hle
      have := hclean other hmem
      rw [hhead other hle] at this
      split at this
      · exact (Option.some.inj this).symm
      · cases this
    refine ⟨hsame, fun other hmem => ?_⟩
    obtain ⟨hmem, hq⟩ := mem_filter.mp hmem
    rw [hfilter hsame other (isPrefixOf_eq_false.mp (by simpa using hq))]
    exact hclean other hmem
  · rintro ⟨hsame, hclean⟩ other hmem
    by_cases hle : name <+: other
    · rw [hhead other hle, hsame other hmem hle, if_pos h]
    · rw [← hfilter hsame other hle]
      exact hclean other (mem_filter.mpr ⟨hmem, by simp [isPrefixOf_eq_false.mpr hle]⟩)

end

variable {references : List CStr} {out : CStr → CStr}

theorem Outcome.eq_ownValue (h : Outcome getenv references out)
    (hclean : Clean (fun name => (getenv name).isSome) references) :
    ∀ name ∈ references, out name = ownValue getenv name := by
  induction h with
  | nil => simp
  | unset hnone =>
    rw [clean_cons_of_unset (by rw [hnone]; rfl)] at hclean
    intro name hmem
    have hunset : getenv name = none := by simpa using hclean name hmem
    rw [ownValue, hunset]
    rfl
  | @set name value rest out hset _ ih =>
    obtain ⟨hsame, hclean⟩ := (clean_cons_of_set (by rw [hset]; rfl)).mp hclean
    intro other hmem
    by_cases hle : name <+: other
    · rw [hsame other hmem hle, ownValue, hset]
      simp
    · have hq := isPrefixOf_eq_false.mpr hle
      simp only [hq]
      exact ih hclean other (mem_filter.mpr ⟨hmem, by rw [hq]; rfl⟩)

/-! ## Values that show the difference -/

/-- Every variable that is set has the value `a`. -/
def letterEnv (isSet : CStr → Bool) (name : CStr) : Option CStr :=
  if isSet name then some ['a'] else none

theorem isSome_letterEnv (isSet : CStr → Bool) (name : CStr) :
    (letterEnv isSet name).isSome = isSet name := by
  unfold letterEnv
  cases isSet name <;> rfl

variable {isSet : CStr → Bool}

theorem letterEnv_eq_some (h : letterEnv isSet name = some value) :
    isSet name = true ∧ value = ['a'] := by
  unfold letterEnv at h
  split at h
  · next hset => exact ⟨hset, (Option.some.inj h).symm⟩
  · cases h

theorem Outcome.clean (h : Outcome (letterEnv isSet) references out)
    (hown : ∀ name ∈ references, out name = ownValue (letterEnv isSet) name) :
    Clean isSet references := by
  induction h with
  | nil => exact fun name hmem => absurd hmem not_mem_nil
  | @unset name rest hnone =>
    have hname : isSet name = false := by rw [← isSome_letterEnv isSet, hnone]; rfl
    rw [clean_cons_of_unset hname]
    intro other hmem
    have hother := hown other hmem
    cases hset : isSet other with
    | false => rfl
    | true => simp [ownValue, letterEnv, hset, dollar] at hother
  | @set name value rest out hset _ ih =>
    obtain ⟨hname, rfl⟩ := letterEnv_eq_some hset
    have hsame : ∀ other ∈ name :: rest, name <+: other → other = name := by
      rintro _ hmem ⟨tail, rfl⟩
      have hother := hown (name ++ tail) hmem
      cases hset : isSet (name ++ tail) <;>
        simp_all [ownValue, letterEnv, dollar]
    refine (clean_cons_of_set hname).mpr ⟨hsame, ih fun other hmem => ?_⟩
    obtain ⟨hmem, hq⟩ := mem_filter.mp hmem
    have hother := hown other hmem
    rw [Bool.not_eq_true'] at hq
    simpa only [hq, Bool.false_eq_true, if_false] using hother

/-- A value that shows where it stands. -/
structure Visible (text : CStr) : Prop where
  first : text.head? = some '$' ∨ text.head? = some 'a'
  plain : ∀ c ∈ text, Expander.argument.separator c = false

theorem visible_dollar (h : PlainText name) : Visible (dollar name) :=
  ⟨.inl rfl, forall_mem_cons.mpr ⟨rfl, fun c hc => (h c hc).2⟩⟩

theorem visible_ownValue (isSet : CStr → Bool) (h : PlainText name) :
    Visible (ownValue (letterEnv isSet) name) := by
  unfold ownValue letterEnv
  cases isSet name with
  | false => exact visible_dollar h
  | true => exact ⟨.inr rfl, by simp [argument]⟩

theorem Outcome.visible (h : Outcome (letterEnv isSet) references out) (hname : PlainText name) :
    Visible (out name) := by
  induction h with
  | nil => exact visible_dollar hname
  | unset _ => exact visible_dollar hname
  | @set first value rest out hset _ ih =>
    obtain ⟨-, rfl⟩ := letterEnv_eq_some hset
    dsimp only
    split
    · refine ⟨.inr rfl, forall_mem_cons.mpr ⟨rfl, fun c hc => ?_⟩⟩
      exact (hname c (mem_of_mem_drop hc)).2
    · exact ih

theorem eq_of_writeAll_eq {f g : CStr → CStr} (h : Proper segments)
    (hf : ∀ name ∈ names segments, Visible (f name))
    (hg : ∀ name ∈ names segments, Visible (g name))
    (heq : writeAll f segments = writeAll g segments) : ∀ name ∈ names segments,
    f name = g name := by
  induction segments with
  | nil => simp [names]
  | cons x segments ih =>
    cases x with
    | letter c => exact ih h.2 hf hg (cons.inj heq).2
    | reference name =>
      obtain ⟨-, hbound, hproper⟩ := h
      obtain ⟨hfname, hf⟩ := forall_mem_cons.mp hf
      obtain ⟨hgname, hg⟩ := forall_mem_cons.mp hg
      have heq : f name ++ writeAll f segments = g name ++ writeAll g segments := heq
      have hname : f name = g name := by
        rw [← name_append (f := f) hfname.plain hbound, heq, name_append hgname.plain hbound]
      rw [hname] at heq
      exact forall_mem_cons.mpr ⟨hname, ih hproper hf hg (append_cancel_left heq)⟩

theorem isPrefix_writeAll {start : CStr} (hf : ∀ name ∈ names segments, Visible (f name))
    (hstart : '$' ∉ start ∧ 'a' ∉ start) (h : start <+: writeAll f segments) (g : CStr → CStr) :
    start <+: writeAll g segments := by
  induction segments generalizing start with
  | nil => exact h
  | cons x segments ih =>
    cases start with
    | nil => exact nil_prefix
    | cons d start =>
      rw [writeAll_cons] at h ⊢
      cases x with
      | letter c =>
        obtain ⟨rfl, hrest⟩ := cons_prefix_cons.mp h
        refine cons_prefix_cons.mpr ⟨rfl, ih hf ⟨?_, ?_⟩ hrest⟩
        · exact not_mem_of_not_mem_cons hstart.1
        · exact not_mem_of_not_mem_cons hstart.2
      | reference name =>
        -- the replacement is not empty, and `d` is its first letter
        have hfirst := (hf name mem_cons_self).first
        have hwrite : write f (.reference name) = f name := rfl
        rw [hwrite] at h
        cases htext : f name with
        | nil => simp [htext] at hfirst
        | cons c text =>
          rw [htext, cons_append] at h
          obtain ⟨rfl, -⟩ := cons_prefix_cons.mp h
          rw [htext, head?_cons, Option.some.injEq, Option.some.injEq] at hfirst
          rcases hfirst with rfl | rfl
          · exact absurd mem_cons_self hstart.1
          · exact absurd mem_cons_self hstart.2

theorem exists_mem_writeAll (hne : names segments ≠ [])
    (hf : ∀ name ∈ names segments, Visible (f name)) :
    ∃ c ∈ writeAll f segments, c = '$' ∨ c = 'a' := by
  induction segments with
  | nil => exact absurd rfl hne
  | cons x segments ih =>
    cases x with
    | letter c =>
      obtain ⟨d, hd, hvisible⟩ := ih hne hf
      exact ⟨d, mem_cons_of_mem c hd, hvisible⟩
    | reference name =>
      rcases (hf name mem_cons_self).first with hfirst | hfirst
      · exact ⟨'$', mem_append_left _ (mem_of_mem_head? hfirst), .inl rfl⟩
      · exact ⟨'a', mem_append_left _ (mem_of_mem_head? hfirst), .inr rfl⟩

theorem not_special_writeAll (hne : names segments ≠ [])
    (hf : ∀ name ∈ names segments, Visible (f name)) (g : CStr → CStr)
    (h : ∀ start ∈ [['~'], ['.', '.', '/'], ['.', '/', '.', '.']], ¬start <+: writeAll g segments) :
    Special (writeAll f segments) = false := by
  have hstart : ∀ start ∈ [['~'], ['.', '.', '/'], ['.', '/', '.', '.']],
      start.isPrefixOf (writeAll f segments) = false := by
    intro start hmem
    refine isPrefixOf_eq_false.mpr fun hle => h start hmem (isPrefix_writeAll hf ?_ hle g)
    simp only [mem_cons, not_mem_nil, or_false] at hmem
    rcases hmem with rfl | rfl | rfl <;> decide
  have hdots : writeAll f segments ≠ ['.', '.'] := by
    intro heq
    obtain ⟨c, hc, hvisible⟩ := exists_mem_writeAll hne hf
    rw [heq] at hc
    rcases hvisible with rfl | rfl <;> simp at hc
  simp only [mem_cons, not_mem_nil, or_false, forall_eq_or_imp, forall_eq] at hstart
  obtain ⟨htilde, hup, hhere⟩ := hstart
  have hnot : startsWithDots (writeAll f segments) = false :=
    Bool.or_eq_false_iff.mpr ⟨Bool.or_eq_false_iff.mpr ⟨hup, hhere⟩, decide_eq_false hdots⟩
  exact Bool.or_eq_false_iff.mpr ⟨htilde, hnot⟩

/-! ## `parseArgument` -/

theorem writeAll_congr {g : CStr → CStr} (h : ∀ name ∈ names segments, f name = g name) :
    writeAll f segments = writeAll g segments := by
  induction segments with
  | nil => rfl
  | cons x segments ih =>
    cases x with
    | letter c => exact congrArg (c :: ·) (ih h)
    | reference name =>
      obtain ⟨hname, h⟩ := forall_mem_cons.mp h
      rw [writeAll_cons, writeAll_cons, ih h, write, write, hname]

/-- For a command other than `export`, the steps behind the loop take what the loop has made. -/
theorem parseArgument_of_expandVariables {s : Surroundings} {fuel : Nat} {argument command : CStr}
    (hcommand : command ≠ "export".toList)
    (h : Expander.argument.expandVariables s.getenv fuel argument = some text) :
    s.parseArgument fuel argument command = some (s.finish command text) := by
  unfold Surroundings.parseArgument
  dsimp only
  rw [if_neg hcommand, h, Option.map_some]

/--
For a command other than `setenv` and `export`, and an argument that does not start with `~`, `../`
or `./..`: whatever the values are, every reference is replaced by its own value exactly where the
steps behind the loop leave the expanded argument as it is, and this is so exactly if the references
are clean. The values have no `$`.
-/
theorem parseArgument_eq_iff (s : Surroundings) (a : Argument) (isSet : CStr → Bool)
    {command : CStr}
    (hcommand : command ≠ "setenv".toList ∧ command ≠ "export".toList)
    (hstart : ∀ start ∈ [['~'], ['.', '.', '/'], ['.', '/', '.', '.']], ¬start <+: a.text) :
    (∀ getenv : CStr → Option CStr, (∀ name, (getenv name).isSome = isSet name) →
        (∀ name value, getenv name = some value → '$' ∉ value) →
        ∀ fuel, a.references.length < fuel →
          ({ s with getenv := getenv }.parseArgument fuel a.text command = some (a.expanded getenv)
            ↔ { s with getenv := getenv }.finish command (a.expanded getenv) = a.expanded getenv))
      ↔ Clean isSet a.references := by
  have hproper := a.proper_segments
  have hplain := proper_names hproper
  rw [Argument.text, ← a.writeAll_segments] at hstart ⊢
  rw [← a.names_segments]
  constructor
  · intro h
    by_cases hne : names a.segments = []
    · rw [hne]
      exact fun name hmem => absurd hmem not_mem_nil
    · have hvalues : ∀ name value, letterEnv isSet name = some value → '$' ∉ value := by
        intro name value hset
        obtain ⟨-, rfl⟩ := letterEnv_eq_some hset
        decide
      obtain ⟨out, hout, hloop⟩ := expandVariables_writeAll hvalues hproper (Nat.lt_succ_self _)
      have hown := not_special_writeAll hne
        (fun name hmem => visible_ownValue isSet (hplain name hmem)) dollar hstart
      have hvisible := not_special_writeAll hne
        (fun name hmem => hout.visible (hplain name hmem)) dollar hstart
      rw [a.writeAll_segments] at hown
      have hright :=
        (h (letterEnv isSet) (isSome_letterEnv isSet) hvalues _ (Nat.lt_succ_self _)).mpr
        (finish_of_not_special hcommand hown)
      have hdone := parseArgument_of_expandVariables (s := { s with getenv := letterEnv isSet })
        hcommand.2 hloop
      rw [hdone, finish_of_not_special hcommand hvisible, Option.some.injEq, Argument.expanded,
        ← a.writeAll_segments] at hright
      refine hout.clean
        (eq_of_writeAll_eq hproper (fun name hmem => hout.visible (hplain name hmem))
        (fun name hmem => visible_ownValue isSet (hplain name hmem)) hright)
  · intro hclean getenv hset hvalues fuel hfuel
    obtain ⟨out, hout, hloop⟩ := expandVariables_writeAll hvalues hproper hfuel
    obtain rfl : isSet = fun name => (getenv name).isSome := funext fun name => (hset name).symm
    rw [writeAll_congr (hout.eq_ownValue hclean),
      a.writeAll_segments (f := ownValue getenv)] at hloop
    rw [parseArgument_of_expandVariables (s := { s with getenv := getenv }) hcommand.2 hloop,
      Option.some.injEq]
    rfl

/-- `$first/$second` -/
def twoReferences (first second : CStr) (hfirst : first ≠ [] ∧ PlainText first)
    (hsecond : second ≠ [] ∧ PlainText second) : Argument where
  first := ⟨[], some first, by decide, fun _ h => Option.some.inj h ▸ hfirst⟩
  rest := [(⟨'/', rfl⟩, ⟨[], some second, by decide, fun _ h => Option.some.inj h ▸ hsecond⟩)]

/-- `A` is `x`, `AB` is `y`, and `H` is `~`. -/
def sampleEnv (name : CStr) : Option CStr :=
  if name = ['A'] then some ['x']
  else if name = ['A', 'B'] then some ['y']
  else if name = ['H'] then some ['~']
  else none

def sampleSurroundings : Surroundings := ⟨sampleEnv, "/home".toList, none, "/tmp".toList⟩

theorem sampleEnv_values : ∀ name value, sampleEnv name = some value → '$' ∉ value := by
  intro name value h
  unfold sampleEnv at h
  split_ifs at h <;> cases h <;> decide

/-- `$AB/$A`: the longer name comes first. -/
theorem parseArgument_longer_first :
    sampleSurroundings.parseArgument 3 "$AB/$A".toList "ls".toList = some "y/x".toList := by
  refine ((parseArgument_eq_iff sampleSurroundings
    (twoReferences ['A', 'B'] ['A'] (by decide) (by decide)) (fun name => (sampleEnv name).isSome)
    (by decide) ?_).mpr ?_ sampleEnv (fun _ => rfl) sampleEnv_values 3 (by decide)).mpr ?_
  · decide
  · decide
  · decide

/--
`$A/$AB`: the first name is the beginning of the second. `$U/$A`: `U` is not set, and the loop
stops. `$H`: the value is expanded like a `~` that was typed.
-/
theorem parseArgument_mixed_up :
    sampleSurroundings.parseArgument 3 "$A/$AB".toList "ls".toList = some "x/xB".toList ∧
      (twoReferences ['A'] ['A', 'B'] (by decide) (by decide)).text = "$A/$AB".toList ∧
      (twoReferences ['A'] ['A', 'B'] (by decide) (by decide)).expanded sampleEnv = "x/y".toList ∧
      sampleSurroundings.parseArgument 3 "$U/$A".toList "ls".toList = some "$U/$A".toList ∧
      (twoReferences ['U'] ['A'] (by decide) (by decide)).expanded sampleEnv = "$U/x".toList ∧
      sampleSurroundings.parseArgument 3 "$H".toList "ls".toList = some "/home".toList := by
  decide

end IosSystem.Shell
