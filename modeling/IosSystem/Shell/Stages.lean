import IosSystem.Shell.Line
import IosSystem.Shell.Scanner

/-!
# The stages of a pipeline

`parse_pipeline` of `ios_pipeline.m` cuts a command at its `|`. It writes the stages to an array of
`max_stages` entries, and it does not look at quotes.

`cutBars` and `separate` say what the stages are: the pieces between the `|` that count as
operators, without the `&` of a `|&` or `&|`. `parse_pipeline` stays inside its array exactly when
there is `Room` (`parse_bounded_iff`), and its stages are those of the unquoted `|` exactly for
`PlainBars` (`splits_as_meant_iff`).
-/

namespace IosSystem.Shell

open List

/-! ## `parse_pipeline` and its array -/

/-- What `parse_pipeline` has done: the stores to `stages`, each with its index, the number that it
returns, and `share_stderr`. -/
structure Parsed where
  stores : List (CStr × Nat)
  numStages : Nat
  shareStderr : Bool
  deriving DecidableEq

/-- `stages[num_stages++] = strdup(stage)`, unless the stage is empty. -/
def storeStage (numStages : Nat) (stage : CStr) : List (CStr × Nat) :=
  if stage = [] then [] else [(stage, numStages)]

def parseLast (numStages : Nat) (stage : CStr) : Parsed :=
  let s := storeStage numStages (trimSpaces stage)
  ⟨s, numStages + s.length, false⟩

def Parsed.behind (r : Parsed) (stores : List (CStr × Nat)) (shareStderr : Bool) : Parsed :=
  ⟨stores ++ r.stores, r.numStages, shareStderr || r.shareStderr⟩

/--
The loop of `parse_pipeline` as `pipelineLoop` has it, for an array of `maxStages` entries and with
the stores to it.
-/
def parseLoop (maxStages numStages : Nat) (stage : CStr) (replaced : Bool) : CStr → Parsed
  | [] => parseLast numStages stage
  | ch :: rest =>
    let c := if replaced then ' ' else ch
    if maxStages ≤ numStages then parseLast numStages (stage ++ c :: rest)
    else if c = '|' then
      if stage.getLast? = some '&' then
        let s := storeStage numStages (dropSpaces stage.dropLast)
        (parseLoop maxStages (numStages + s.length) [] false rest).behind s true
      else
        let s := storeStage numStages (trimSpaces stage)
        (parseLoop maxStages (numStages + s.length) [] (rest.head? = some '&') rest).behind s
          (rest.head? = some '&')
    else parseLoop maxStages numStages (stage ++ [c]) false rest

/-- `parse_pipeline(command, stages, max_stages, share_stderr)` -/
def parseInto (maxStages : Nat) (command : CStr) : Parsed := parseLoop maxStages 0 [] false command

section

variable (numStages : Nat) (stage : CStr)

theorem storeStage_texts : (storeStage numStages stage).map Prod.fst = keepStage stage := by
  unfold storeStage keepStage
  split <;> rfl

theorem length_storeStage : (storeStage numStages stage).length = (keepStage stage).length := by
  rw [← storeStage_texts numStages, length_map]

theorem pipelineLoop_eq (replaced : Bool) (text : CStr) :
    pipelineLoop numStages stage replaced text
      = ((parseLoop maxPipelineStages numStages stage replaced text).stores.map Prod.fst,
        (parseLoop maxPipelineStages numStages stage replaced text).shareStderr) := by
  induction text generalizing numStages stage replaced with
  | nil => simp [pipelineLoop, parseLoop, parseLast, storeStage_texts]
  | cons ch rest ih =>
    unfold pipelineLoop parseLoop
    dsimp only
    generalize (if replaced then ' ' else ch) = c
    split
    · simp [parseLast, storeStage_texts]
    · split
      · split
        · simp [ih, Parsed.behind, storeStage_texts, length_storeStage]
        · simp [ih, Parsed.behind, storeStage_texts, length_storeStage]
      · rw [ih]

end

theorem parsePipeline_eq (command : CStr) :
    parsePipeline command
      = ((parseInto maxPipelineStages command).stores.map Prod.fst,
        (parseInto maxPipelineStages command).shareStderr) :=
  pipelineLoop_eq 0 [] false command

/-! ## Cutting a command -/

/--
The text cut at the `|` at which the scanner is in a state that counts: the first piece, and those
behind it.
-/
def cutBars (counts : Scan → Bool) (s : Scan) : CStr → CStr × List CStr
  | [] => ([], [])
  | c :: rest =>
    let r := cutBars counts (s.step ['|'] c) rest
    if counts s ∧ c = '|' then ([], r.1 :: r.2) else (c :: r.1, r.2)

/-- The pieces with `|` between them. -/
def join (first : CStr) (rest : List CStr) : CStr := first ++ rest.flatMap ('|' :: ·)

/-- What ends a stage. -/
inductive Separator where
  | last
  | bar
  /-- `|&` -/
  | barAmp
  /-- `&|` -/
  | ampBar
  deriving DecidableEq

def Separator.shares : Separator → Bool
  | .last | .bar => false
  | .barAmp | .ampBar => true

/-- The pieces without the `&` that belongs to a separator. -/
def separate (first : CStr) : List CStr → List (CStr × Separator)
  | [] => [(first, .last)]
  | next :: rest =>
    if first.getLast? = some '&' then (first.dropLast, .ampBar) :: separate next rest
    else if next.head? = some '&' then (first, .barAmp) :: separate next.tail rest
    else (first, .bar) :: separate next rest

/-- The text of a stage to `parse_pipeline`, which does not trim the end in front of a `&|`. -/
def stageText : CStr × Separator → CStr
  | (piece, .ampBar) => dropSpaces piece
  | (piece, _) => trimSpaces piece

/-- The pieces of a command if every `|` is an operator. -/
def allPieces (command : CStr) : List (CStr × Separator) :=
  separate (cutBars (fun _ => true) Scan.start command).1
    (cutBars (fun _ => true) Scan.start command).2

def stageTexts (pieces : List (CStr × Separator)) : List CStr :=
  (pieces.map stageText).filter (· ≠ [])

/-- There are `n` entries for the pieces: when the last one is used up, only blanks are left. -/
def Room : Nat → List (CStr × Separator) → Prop
  | _, [] => True
  | n, [x] => 0 < n ∨ stageText x = []
  | n, x :: y :: pieces => 0 < n ∧ Room (if stageText x = [] then n else n - 1) (y :: pieces)

instance Room.decide : (n : Nat) → (pieces : List (CStr × Separator)) → Decidable (Room n pieces)
  | _, [] => .isTrue trivial
  | n, [x] => inferInstanceAs (Decidable (0 < n ∨ stageText x = []))
  | n, x :: y :: pieces =>
    have := Room.decide (if stageText x = [] then n else n - 1) (y :: pieces)
    inferInstanceAs (Decidable (0 < n ∧ _))

theorem join_cutBars (counts : Scan → Bool) (s : Scan) (text : CStr) :
    join (cutBars counts s text).1 (cutBars counts s text).2 = text := by
  induction text generalizing s with
  | nil => rfl
  | cons c text ih =>
    unfold join at ih
    rw [cutBars]
    split
    · next h =>
      obtain ⟨-, rfl⟩ := h
      simp [join, ih]
    · simp [join, ih]

def NoBar (first : CStr) (rest : List CStr) : Prop := '|' ∉ first ∧ ∀ piece ∈ rest, '|' ∉ piece

theorem noBar_cutBars (s : Scan) (text : CStr) :
    NoBar (cutBars (fun _ => true) s text).1 (cutBars (fun _ => true) s text).2 := by
  induction text generalizing s with
  | nil => exact ⟨not_mem_nil, by simp [cutBars]⟩
  | cons c text ih =>
    obtain ⟨hfirst, hrest⟩ := ih (s.step ['|'] c)
    rw [cutBars]
    split
    · exact ⟨not_mem_nil, forall_mem_cons.mpr ⟨hfirst, hrest⟩⟩
    · next h =>
      refine ⟨?_, hrest⟩
      rw [mem_cons, not_or]
      exact ⟨fun e => h ⟨rfl, e.symm⟩, hfirst⟩

/-! ## The loop over the pieces -/

variable {maxStages numStages : Nat} {pad first command : CStr}

theorem parseLoop_full (h : maxStages ≤ numStages) (stage text : CStr) :
    parseLoop maxStages numStages stage false text = parseLast numStages (stage ++ text) := by
  cases text with
  | nil => rw [parseLoop, append_nil]
  | cons c text => simp [parseLoop, h]

theorem parseLoop_append (h : numStages < maxStages) (stage : CStr)
    {xs : CStr} (hxs : '|' ∉ xs) (text : CStr) :
    parseLoop maxStages numStages stage false (xs ++ text)
      = parseLoop maxStages numStages (stage ++ xs) false text := by
  induction xs generalizing stage with
  | nil => simp
  | cons c xs ih =>
    obtain ⟨hc, hxs⟩ := not_or.mp (mt mem_cons.mpr hxs)
    rw [cons_append, parseLoop]
    simp only [Bool.false_eq_true, if_false, if_neg (Nat.not_le.mpr h), if_neg (Ne.symm hc)]
    rw [ih (stage ++ [c]) hxs, append_assoc, singleton_append]

theorem parseLoop_replaced (maxStages numStages : Nat) (text : CStr) :
    parseLoop maxStages numStages [] true ('&' :: text)
      = parseLoop maxStages numStages [' '] false text := by
  rw [parseLoop]
  split
  · next h => rw [parseLoop_full h]; rfl
  · rfl

theorem head_join (first : CStr) (rest : List CStr) :
    (join first rest).head? = some '&' ↔ first.head? = some '&' := by
  cases first with
  | nil => cases rest <;> simp [join]
  | cons c first => simp [join]

/-- What the loop has read of a stage when it comes to a piece: nothing, or the blank of a `|&`. -/
def Pad (pad : CStr) : Prop := pad = [] ∨ pad = [' ']

section

variable (h : Pad pad) (piece : CStr)
include h

theorem Pad.dropSpaces : Shell.dropSpaces (pad ++ piece) = Shell.dropSpaces piece := by
  rcases h with rfl | rfl
  · rfl
  · exact dropWhile_cons_of_pos (by simp)

theorem Pad.trimSpaces : Shell.trimSpaces (pad ++ piece) = Shell.trimSpaces piece := by
  rw [Shell.trimSpaces, h.dropSpaces, ← Shell.trimSpaces]

theorem Pad.getLast : (pad ++ piece).getLast? = some '&' ↔ piece.getLast? = some '&' := by
  rw [getLast?_append]
  cases hl : piece.getLast? with
  | none => rcases h with rfl | rfl <;> simp
  | some c => simp

end

/-- One separator of the pipeline. -/
theorem parseLoop_bar (h : numStages < maxStages)
    (hpad : Pad pad) (hfirst : '|' ∉ first) (next : CStr) (rest : List CStr) :
    ∃ pad' next' x, Pad pad' ∧ (next' = next ∨ next' = next.tail) ∧
      separate first (next :: rest) = x :: separate next' rest ∧
      parseLoop maxStages numStages pad false (join first (next :: rest))
        = (parseLoop maxStages (numStages + (keepStage (stageText x)).length) pad' false
            (join next' rest)).behind (storeStage numStages (stageText x)) x.2.shares := by
  have hread : parseLoop maxStages numStages pad false (join first (next :: rest))
      = parseLoop maxStages numStages (pad ++ first) false ('|' :: join next rest) := by
    rw [join, parseLoop_append h pad hfirst]
    rfl
  rw [hread, parseLoop]
  simp only [if_neg (Nat.not_le.mpr h), hpad.getLast, length_storeStage]
  by_cases hamp : first.getLast? = some '&'
  · -- `&|`
    have hne : first ≠ [] := by
      rintro rfl
      cases hamp
    refine ⟨[], next, (first.dropLast, .ampBar), .inl rfl, .inl rfl, if_pos hamp, ?_⟩
    rw [if_pos hamp, dropLast_append_of_ne_nil hne, hpad.dropSpaces]
    rfl
  · simp only [if_neg hamp, head_join, hpad.trimSpaces]
    by_cases hnext : next.head? = some '&'
    · -- `|&`
      obtain ⟨next', rfl⟩ : ∃ next', next = '&' :: next' := by
        cases next with
        | nil => cases hnext
        | cons c next' => exact ⟨next', by rw [Option.some.inj hnext]⟩
      refine ⟨[' '], next', (first, .barAmp), .inr rfl, .inr rfl, ?_, ?_⟩
      · rw [separate, if_neg hamp, if_pos hnext]
        rfl
      · rw [decide_eq_true hnext]
        rw [show join ('&' :: next') rest = '&' :: join next' rest from rfl, parseLoop_replaced]
        rfl
    · refine ⟨[], next, (first, .bar), .inl rfl, .inl rfl, ?_, ?_⟩
      · rw [separate, if_neg hamp, if_neg hnext]
      · rw [decide_eq_false hnext]
        rfl

/-! ## Room for the stages -/

def Parsed.of (numStages : Nat) (pieces : List (CStr × Separator)) : Parsed :=
  ⟨(stageTexts pieces).zipIdx numStages, numStages + (stageTexts pieces).length,
    pieces.any (·.2.shares)⟩

theorem stageTexts_cons (x : CStr × Separator) (pieces : List (CStr × Separator)) :
    stageTexts (x :: pieces) = keepStage (stageText x) ++ stageTexts pieces := by
  unfold stageTexts keepStage
  by_cases h : stageText x = [] <;> simp [h]

theorem zipIdx_keepStage (numStages : Nat) (stage : CStr) :
    (keepStage stage).zipIdx numStages = storeStage numStages stage := by
  unfold keepStage storeStage
  split <;> rfl

theorem Parsed.of_cons (numStages : Nat) (x : CStr × Separator) (pieces : List (CStr × Separator)) :
    Parsed.of numStages (x :: pieces)
      = (Parsed.of (numStages + (keepStage (stageText x)).length) pieces).behind
          (storeStage numStages (stageText x)) x.2.shares := by
  unfold Parsed.of Parsed.behind
  rw [stageTexts_cons, zipIdx_append, zipIdx_keepStage, length_append, any_cons, Nat.add_assoc]

theorem parseLast_eq (numStages : Nat) (hpad : Pad pad) (first : CStr) :
    parseLast numStages (pad ++ first) = Parsed.of numStages [(first, .last)] := by
  rw [parseLast, hpad.trimSpaces, Parsed.of, stageTexts_cons]
  show _ = Parsed.mk ((keepStage (trimSpaces first) ++ []).zipIdx numStages)
    (numStages + (keepStage (trimSpaces first) ++ []).length) false
  rw [append_nil, zipIdx_keepStage, length_storeStage]

variable {pieces : List (CStr × Separator)}

theorem room_cons {n : Nat} (x : CStr × Separator) (hne : pieces ≠ []) :
    Room n (x :: pieces) ↔ 0 < n ∧ Room (n - (keepStage (stageText x)).length) pieces := by
  obtain ⟨y, pieces, rfl⟩ := exists_cons_of_ne_nil hne
  rw [Room, keepStage]
  by_cases h : stageText x = [] <;> simp [h]

theorem separate_cons (first next : CStr) (rest : List CStr) :
    ∃ x next', separate first (next :: rest) = x :: separate next' rest := by
  rw [separate]
  split
  · exact ⟨_, _, rfl⟩
  · split <;> exact ⟨_, _, rfl⟩

theorem separate_ne_nil (first : CStr) (rest : List CStr) : separate first rest ≠ [] := by
  cases rest with
  | nil => exact cons_ne_nil _ _
  | cons next rest =>
    obtain ⟨x, next', hsep⟩ := separate_cons first next rest
    rw [hsep]
    exact cons_ne_nil _ _

theorem length_keepStage_le (stage : CStr) : (keepStage stage).length ≤ 1 := by
  unfold keepStage
  split <;> simp

theorem length_stageTexts_le {n : Nat} (h : Room n pieces) : (stageTexts pieces).length ≤ n := by
  induction pieces generalizing n with
  | nil => exact Nat.zero_le _
  | cons x pieces ih =>
    have hone := length_keepStage_le (stageText x)
    rw [stageTexts_cons, length_append]
    cases pieces with
    | nil =>
      show (keepStage (stageText x)).length + 0 ≤ n
      rcases h with hpos | hblank
      · omega
      · simp [hblank, keepStage]
    | cons y pieces =>
      rw [room_cons x (cons_ne_nil _ _)] at h
      have := ih h.2
      omega

theorem parseLast_bar (numStages : Nat) {text : CStr} (h : '|' ∈ text) :
    (parseLast numStages text).numStages = numStages + 1 := by
  have hne : trimSpaces text ≠ [] := by
    rw [Ne, trimSpaces_eq_nil, not_not]
    exact ⟨'|', h, by decide⟩
  simp [parseLast, storeStage, hne]

variable {rest : List CStr}

theorem NoBar.tail {next next' : CStr} (h : NoBar first (next :: rest))
    (hnext : next' = next ∨ next' = next.tail) : NoBar next' rest := by
  obtain ⟨hn, hrest⟩ := forall_mem_cons.mp h.2
  refine ⟨?_, hrest⟩
  rcases hnext with rfl | rfl
  · exact hn
  · exact fun hmem => hn (mem_of_mem_tail hmem)

theorem parseLoop_of_room (hpad : Pad pad) (hbar : NoBar first rest)
    (hroom : Room (maxStages - numStages) (separate first rest)) :
    parseLoop maxStages numStages pad false (join first rest)
      = Parsed.of numStages (separate first rest) := by
  induction rest generalizing numStages pad first with
  | nil =>
    rw [join, flatMap_nil, append_nil, separate, ← parseLast_eq _ hpad]
    by_cases hfull : maxStages ≤ numStages
    · exact parseLoop_full hfull pad first
    · have := parseLoop_append (Nat.lt_of_not_le hfull) pad hbar.1 []
      rwa [append_nil] at this
  | cons next rest ih =>
    have hlt : numStages < maxStages := by
      obtain ⟨x, next', hsep⟩ := separate_cons first next rest
      rw [hsep, room_cons x (separate_ne_nil _ _)] at hroom
      omega
    obtain ⟨pad', next', x, hpad', hnext, hsep, hloop⟩ := parseLoop_bar hlt hpad hbar.1 next rest
    rw [hsep, room_cons x (separate_ne_nil _ _)] at hroom
    rw [hloop, hsep, Parsed.of_cons, ih hpad' (hbar.tail hnext)]
    rw [← Nat.sub_sub]
    exact hroom.2

theorem parseLoop_of_not_room (hle : numStages ≤ maxStages) (hpad : Pad pad)
    (hbar : NoBar first rest) (hroom : ¬ Room (maxStages - numStages) (separate first rest)) :
    maxStages < (parseLoop maxStages numStages pad false (join first rest)).numStages := by
  induction rest generalizing numStages pad first with
  | nil =>
    rw [separate, Room, not_or] at hroom
    have hfull : maxStages ≤ numStages := by omega
    have hne : trimSpaces first ≠ [] := hroom.2
    rw [parseLoop_full hfull]
    simp [join, parseLast, hpad.trimSpaces, storeStage, hne]
    omega
  | cons next rest ih =>
    by_cases hfull : maxStages ≤ numStages
    · rw [parseLoop_full hfull, parseLast_bar]
      · omega
      · simp [join]
    · have hlt : numStages < maxStages := Nat.lt_of_not_le hfull
      obtain ⟨pad', next', x, hpad', hnext, hsep, hloop⟩ := parseLoop_bar hlt hpad hbar.1 next rest
      rw [hsep, room_cons x (separate_ne_nil _ _), not_and] at hroom
      have hroom := hroom (by omega)
      rw [Nat.sub_sub] at hroom
      rw [hloop]
      have hone := length_keepStage_le (stageText x)
      exact ih (by omega) hpad' (hbar.tail hnext) hroom

theorem parseInto_of_room
    (h : Room maxStages (allPieces command)) :
    parseInto maxStages command = .of 0 (allPieces command) := by
  have hroom : Room (maxStages - 0) (allPieces command) := h
  have hloop := parseLoop_of_room (.inl rfl) (noBar_cutBars Scan.start command) hroom
  rwa [join_cutBars] at hloop

/-- `parse_pipeline` with an array of `maxStages` entries: it writes only to them, returns at most
their number, and leaves no stage out. -/
structure Bounded (maxStages : Nat) (command : CStr) : Prop where
  stores : ∀ x ∈ (parseInto maxStages command).stores, x.2 < maxStages
  count : (parseInto maxStages command).numStages ≤ maxStages
  complete : (parseInto maxStages command).stores.map Prod.fst = stageTexts (allPieces command)
  /-- the stages that `ios_pipeline_execute` runs -/
  executed : maxStages = maxPipelineStages →
    (parsePipeline command).1 = stageTexts (allPieces command)

theorem Bounded.of_room
    (hroom : Room maxStages (allPieces command)) : Bounded maxStages command := by
  have hparse := parseInto_of_room hroom
  have hlength := length_stageTexts_le hroom
  refine ⟨fun x hx => ?_, ?_, ?_, ?_⟩
  · rw [hparse] at hx
    have := snd_lt_add_of_mem_zipIdx hx
    omega
  · rw [hparse]
    show 0 + (stageTexts (allPieces command)).length ≤ maxStages
    omega
  · rw [hparse]
    exact zipIdx_map_fst _ _
  · rintro rfl
    rw [parsePipeline_eq, hparse]
    exact zipIdx_map_fst _ _

/-- `parse_pipeline` is bounded exactly when there is room for the stages of the command. -/
theorem parse_bounded_iff (maxStages : Nat) (command : CStr) :
    Bounded maxStages command ↔ Room maxStages (allPieces command) := by
  refine ⟨fun h => ?_, Bounded.of_room⟩
  by_contra hnot
  have hroom : ¬ Room (maxStages - 0) (allPieces command) := hnot
  have hlt := parseLoop_of_not_room (Nat.zero_le maxStages) (.inl rfl)
    (noBar_cutBars Scan.start command) hroom
  rw [join_cutBars] at hlt
  exact Nat.not_le.mpr hlt h.count

/-- With 33 stages, or with two `|` behind the last of 32, one stage is stored behind the array. -/
theorem parse_overflows :
    (parseInto maxPipelineStages (join ['a'] (List.replicate 32 ['a']))).numStages = 33 ∧
    (['a'], 32) ∈ (parseInto maxPipelineStages (join ['a'] (List.replicate 32 ['a']))).stores ∧
    (['|'], 32) ∈
    (parseInto maxPipelineStages (join ['a'] (List.replicate 31 ['a'] ++ [[], []]))).stores := by
  decide +kernel

/-! ## Quoted bars -/

/-- The pieces of a command between its unquoted `|`. -/
def unquotedPieces (command : CStr) : List (CStr × Separator) :=
  separate (cutBars (!·.inside) Scan.start command).1 (cutBars (!·.inside) Scan.start command).2

/-- The stages a command is meant to have; the flag says that the stderr of a stage goes to the next
one. -/
def meantStages (command : CStr) : List (CStr × Bool) :=
  ((unquotedPieces command).map fun x => (trimSpaces x.1, x.2.shares)).filter (·.1 ≠ [])

/-- Every `|` of the command is an operator to `strstrquoted`. -/
def BarsUnquoted (command : CStr) : Prop :=
  ∀ i < command.length, command[i]? = some '|' → Scan.insideAt ['|'] command i = false

instance (command : CStr) : Decidable (BarsUnquoted command) :=
  inferInstanceAs (Decidable (∀ i < command.length, _ → _))

/-- `parse_pipeline` finds the stages that are meant. -/
structure SplitsAsMeant (command : CStr) : Prop where
  stages : (parsePipeline command).1 = (meantStages command).map Prod.fst
  /-- the stages whose stderr is that of the pipe to the next stage -/
  stderr : ∀ (i : Nat) (x : CStr × Bool), (meantStages command)[i]? = some x →
    i + 1 < (meantStages command).length → x.2 = (parsePipeline command).2
  /-- what is a pipe to the splitter is one to the test before it -/
  operators : BarsUnquoted command
  routed : (strstrquoted command ['|']).isSome ↔ '|' ∈ command

def keptPieces (command : CStr) : List (CStr × Separator) :=
  (allPieces command).filter (trimSpaces ·.1 ≠ [])

/-- No `|` is quoted, no blank is in front of a `&|`, and all separators share stderr or none does.
-/
structure PlainBars (command : CStr) : Prop where
  unquoted : BarsUnquoted command
  trimmed : ∀ x ∈ allPieces command, x.2 = .ampBar → dropSpaces x.1 = trimSpaces x.1
  uniform : ∀ x ∈ (keptPieces command).dropLast, x.2.shares = (allPieces command).any (·.2.shares)

theorem cutBars_unquoted {s : Scan} {text : CStr}
    (h : ∀ pre post, text = pre ++ '|' :: post → (s.over ['|'] pre).inside = false) :
    cutBars (!·.inside) s text = cutBars (fun _ => true) s text := by
  induction text generalizing s with
  | nil => rfl
  | cons c text ih =>
    have ih := ih (s := s.step ['|'] c) fun pre post htext => h (c :: pre) post (by rw [htext]; rfl)
    unfold cutBars
    rw [ih]
    by_cases hc : c = '|'
    · have hs : s.inside = false := h [] text (by rw [hc]; rfl)
      simp [hs]
    · simp [hc]

theorem unquotedPieces_eq (h : BarsUnquoted command) :
    unquotedPieces command = allPieces command := by
  rw [unquotedPieces, cutBars_unquoted, allPieces]
  rintro pre post rfl
  have := h pre.length (by simp) (by simp)
  rwa [Scan.insideAt, take_left] at this

theorem meantStages_eq (h : BarsUnquoted command) :
    meantStages command = (keptPieces command).map fun x => (trimSpaces x.1, x.2.shares) := by
  rw [meantStages, unquotedPieces_eq h, keptPieces, filter_map]
  rfl

theorem stageText_eq_nil (x : CStr × Separator) : stageText x = [] ↔ trimSpaces x.1 = [] := by
  obtain ⟨piece, sep⟩ := x
  cases sep with
  | ampBar => rw [stageText, dropSpaces_eq_nil, trimSpaces_eq_nil]
  | last | bar | barAmp => exact Iff.rfl

theorem stageTexts_eq (pieces : List (CStr × Separator)) :
    stageTexts pieces = (pieces.filter (trimSpaces ·.1 ≠ [])).map stageText := by
  rw [stageTexts, filter_map]
  congr 1
  refine filter_congr fun x _ => ?_
  simp [stageText_eq_nil]

theorem stageText_eq_iff (x : CStr × Separator) :
    stageText x = trimSpaces x.1 ↔ (x.2 = .ampBar → dropSpaces x.1 = trimSpaces x.1) := by
  obtain ⟨piece, sep⟩ := x
  cases sep with
  | ampBar => exact ⟨fun h _ => h, fun h => h rfl⟩
  | last | bar | barAmp => exact ⟨fun _ => nofun, fun _ => rfl⟩

/--
As long as the stages fit into the array, `parse_pipeline` splits a command as it is meant to
exactly when quotes, blanks and separators are of the simple kind.
-/
theorem splits_as_meant_iff {command : CStr}
    (hroom : Room maxPipelineStages (allPieces command)) :
    SplitsAsMeant command ↔ PlainBars command := by
  have hstages : (parsePipeline command).1 = (keptPieces command).map stageText := by
    rw [(Bounded.of_room hroom).executed rfl, stageTexts_eq]
    rfl
  have hshare : (parsePipeline command).2 = (allPieces command).any (·.2.shares) := by
    rw [parsePipeline_eq, parseInto_of_room hroom]
    rfl
  constructor
  · intro h
    refine ⟨h.operators, fun x hx => ?_, fun x hx => ?_⟩
    · rw [← stageText_eq_iff]
      by_cases hnil : trimSpaces x.1 = []
      · rw [hnil, stageText_eq_nil, hnil]
      · have htexts := h.stages
        rw [hstages, meantStages_eq h.operators, List.map_map] at htexts
        exact List.map_inj_left.mp htexts x (List.mem_filter.mpr ⟨hx, by simpa using hnil⟩)
    · obtain ⟨i, hi, hget⟩ := List.getElem_of_mem hx
      rw [List.getElem_dropLast] at hget
      rw [List.length_dropLast] at hi
      rw [← hshare]
      refine h.stderr i (trimSpaces x.1, x.2.shares) ?_ ?_
      · rw [meantStages_eq h.operators, List.getElem?_map,
          List.getElem?_eq_getElem (by omega), hget]
        rfl
      · rw [meantStages_eq h.operators, List.length_map]
        omega
  · intro h
    refine ⟨?_, fun i x hget hlt => ?_, h.unquoted, ?_⟩
    · rw [hstages, meantStages_eq h.unquoted, List.map_map]
      refine List.map_congr_left fun x hx => ?_
      exact (stageText_eq_iff x).mpr (h.trimmed x (List.mem_filter.mp hx).1)
    · rw [meantStages_eq h.unquoted] at hget hlt
      rw [List.length_map] at hlt
      rw [List.getElem?_map, List.getElem?_eq_getElem (by omega)] at hget
      cases hget
      rw [hshare]
      refine h.uniform _ (List.mem_iff_getElem.mpr ⟨i, by rw [List.length_dropLast]; omega, ?_⟩)
      exact List.getElem_dropLast ..
    · rw [strstrquoted_char_isSome (by decide), List.mem_iff_getElem?]
      constructor
      · rintro ⟨i, -, hget, -⟩
        exact ⟨i, hget⟩
      · rintro ⟨i, hget⟩
        have hi := (List.getElem?_eq_some_iff.mp hget).1
        exact ⟨i, hi, hget, h.unquoted i hi hget⟩

/-- Quotes without a bar in them, and `|&` throughout. -/
theorem splits_as_meant_quoted : SplitsAsMeant "echo 'a b' |& cat -n|&wc".toList :=
  (splits_as_meant_iff (by decide +kernel)).mpr
    ⟨by decide +kernel, by decide +kernel, by decide +kernel⟩

/--
A quoted `|` is a pipe to `parse_pipeline`; one `|&` is taken for all separators; and the blank in
front of a `&|` belongs to the stage.
-/
theorem splits_otherwise :
    (parsePipeline "echo \"a|b\" | cat".toList).1
        = ["echo \"a".toList, "b\"".toList, "cat".toList] ∧
      meantStages "echo \"a|b\" | cat".toList
        = [("echo \"a|b\"".toList, false), ("cat".toList, false)] ∧
    (parsePipeline "a | b |& c".toList).2 = true ∧
      meantStages "a | b |& c".toList = [(['a'], false), (['b'], true), (['c'], false)] ∧
    (parsePipeline "a &| b".toList).1 = [['a', ' '], ['b']] ∧
      meantStages "a &| b".toList = [(['a'], true), (['b'], false)] := by
  decide +kernel

end IosSystem.Shell
