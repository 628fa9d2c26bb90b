import IosSystem.Shell.Exec

/-!
# Lists of `&&` and `||`

`ios_execute_conditional` of `ios_shell_parser.m`: the list is cut into nodes, each with the
operator behind it, and a loop runs them. When an operator says that the next command is not to be
run, the loop ends. In a shell such a command is passed over (`leftAssoc`).
-/

namespace IosSystem.Shell

open List

/-- The loop of `ios_execute_conditional` from node `i` on: the commands that are run, each with the
number of its node, and the result. `status` is what `ios_system` returns for each node. -/
def conditionalRun (status : Nat → Int) (i : Nat) :
    List (CStr × CondOp) → Int → List (Nat × CStr) × Int
  | [], result => ([], result)
  | node :: rest, result =>
    if node.1 = [] then conditionalRun status (i + 1) rest result
    else if rest ≠ [] ∧ node.2.stops (status i) then ([(i, node.1)], status i)
    else
      let r := conditionalRun status (i + 1) rest (status i)
      ((i, node.1) :: r.1, r.2)

/-- `ios_execute_conditional` -/
def executeConditional (status : Nat → Int) (command : CStr) : List (Nat × CStr) × Int :=
  conditionalRun status 0 (parseConditionals command) 0

/-- A machine that writes down the commands that it is given. -/
def recorder (status : Nat → Int) : Machine (List (Nat × CStr) × Nat) :=
  { release := id
    fork := some
    command := fun text s => some ((s.1 ++ [(s.2, text)], s.2 + 1), status s.2)
    spawn := fun _ s => s
    join := fun _ s => s }

/-- The loop of `exec` runs the same commands. -/
theorem execChain_recorder (status : Nat → Int) {list : List (CStr × CondOp)}
    (h : ∀ x ∈ list, x.1 ≠ []) (i : Nat) (result : Int) (before : List (Nat × CStr)) :
    ((recorder status).execChain (list.map Prod.snd) (list.map fun x => .command x.1) (before, i)
        result).map (fun r => (r.1.1, r.2))
      = some (before ++ (conditionalRun status i list result).1,
          (conditionalRun status i list result).2) := by
  induction list generalizing i result before with
  | nil => simp [Machine.execChain, conditionalRun]
  | cons node rest ih =>
    have ih := ih (fun x hx => h x (mem_cons_of_mem _ hx)) (i + 1) (status i)
      (before ++ [(i, node.1)])
    rw [append_assoc, singleton_append] at ih
    rw [conditionalRun, if_neg (h node mem_cons_self), map_cons, map_cons, Machine.execChain]
    show ((if _ then some ((before ++ [(i, node.1)], i + 1), status i) else
      (recorder status).execChain _ _ (before ++ [(i, node.1)], i + 1) (status i)).map _) = _
    by_cases hstop : rest ≠ [] ∧ node.2.stops (status i) = true
    · rw [if_pos hstop, if_pos (by simpa using hstop)]
      rfl
    · rw [if_neg hstop, if_neg (by simpa using hstop), ih]

inductive Link where
  | and
  | or
  deriving DecidableEq

def Link.text : Link → CStr
  | .and => ['&', '&']
  | .or => ['|', '|']

def Link.op : Link → CondOp
  | .and => .and
  | .or => .or

/-- Whether the command behind the operator is to run. -/
def Link.runs (l : Link) (status : Int) : Bool :=
  match l with
  | .and => status = 0
  | .or => status ≠ 0

/--
A command that can stand in a list: there is something in it, its quotes are closed, and it has no
part of an operator that is one to the searches.
-/
def SimpleCommand (text : CStr) : Prop :=
  trimWhitespace text ≠ [] ∧ ∀ l ∈ [Link.and, Link.or], findFrom l.text Scan.start 0 text = none ∧
      (Scan.start.over l.text text).quotechar = none ∧ (Scan.start.over l.text text).matchlen = 0

instance (text : CStr) : Decidable (SimpleCommand text) := inferInstanceAs (Decidable (_ ∧ _))

structure AndOrList where
  first : CStr
  rest : List (Link × CStr)
  simple : SimpleCommand first ∧ ∀ x ∈ rest, SimpleCommand x.2

def renderLinks (rest : List (Link × CStr)) : CStr := rest.flatMap fun x => x.1.text ++ x.2

def AndOrList.render (l : AndOrList) : CStr := l.first ++ renderLinks l.rest

/-- Evaluation from the left: with the current status, a command is run or passed over. The commands
are numbered from `i` on. -/
def leftAssoc (status : Nat → Int) (i : Nat) (current : Int) :
    List (Link × CStr) → List (Nat × CStr) × Int
  | [] => ([], current)
  | x :: rest =>
    if x.1.runs current then
      let r := leftAssoc status (i + 1) (status i) rest
      ((i, trimWhitespace x.2) :: r.1, r.2)
    else leftAssoc status (i + 1) current rest

/-- The commands that are to run, and the status of the list. -/
def AndOrList.meant (l : AndOrList) (status : Nat → Int) : List (Nat × CStr) × Int :=
  let r := leftAssoc status 1 (status 0) l.rest
  ((0, trimWhitespace l.first) :: r.1, r.2)

def Uniform (status : Nat → Int) (i : Nat) (current : Int) : List (Link × CStr) → Prop
  | [] => True
  | x :: rest =>
    if x.1.runs current then Uniform status (i + 1) (status i) rest else ∀ y ∈ rest, y.1 = x.1

def nodes (first : CStr) : List (Link × CStr) → List (CStr × CondOp)
  | [] => [(trimWhitespace first, .none)]
  | x :: rest => (trimWhitespace first, x.1.op) :: nodes x.2 rest

theorem plain_link (l : Link) : Plain l.text := by
  cases l <;> decide

theorem link_ne_nil (l : Link) : l.text ≠ [] := by
  cases l <;> decide

variable {text first : CStr}

theorem SimpleCommand.scan (h : SimpleCommand text) (l : Link) :
    findFrom l.text Scan.start 0 text = none ∧
      ∃ e, Scan.start.over l.text text = ⟨none, e, 0⟩ := by
  obtain ⟨hnone, hquote, hmatch⟩ := h.2 l (by cases l <;> simp)
  exact ⟨hnone, (Scan.start.over l.text text).esclen, by rw [← hquote, ← hmatch]⟩

theorem find_link (h : SimpleCommand first) (l : Link) (text : CStr) :
    strstrquoted (first ++ l.text ++ text) l.text = some first.length := by
  obtain ⟨hnone, e, hover⟩ := h.scan l
  rw [strstrquoted_eq_findFrom (plain_link l) (link_ne_nil l),
    findFrom_found (plain_link l) (link_ne_nil l) hnone hover, Nat.zero_add]

theorem find_other (h : SimpleCommand first) {l l' : Link} (hne : l ≠ l')
    (text : CStr) {k : Nat} (hk : strstrquoted (first ++ l.text ++ text) l'.text = some k) :
    first.length < k := by
  obtain ⟨hnone, e, hover⟩ := h.scan l'
  rw [strstrquoted_eq_findFrom (plain_link l') (link_ne_nil l'), append_assoc,
    findFrom_append hnone, hover, Nat.zero_add] at hk
  have hop : ∀ i, findFrom l'.text ⟨none, e, 0⟩ i l.text = none ∧
      Scan.over l'.text ⟨none, e, 0⟩ l.text = ⟨none, e, 0⟩ := by
    intro i
    cases l <;> cases l' <;> first | exact absurd rfl hne | exact ⟨rfl, rfl⟩
  rw [findFrom_append (hop _).1, (hop 0).2] at hk
  obtain ⟨pre, post, e', -, hlen, -⟩ := findFrom_split (link_ne_nil l') rfl hk
  have hpos := length_pos_iff.mpr (link_ne_nil l)
  omega

theorem find_none (h : SimpleCommand text) (l : Link) : strstrquoted text l.text = none := by
  rw [strstrquoted_eq_findFrom (plain_link l) (link_ne_nil l)]
  exact (h.scan l).1

theorem nextConditional_simple (h : SimpleCommand text) : nextConditional text = none := by
  have hand : strstrquoted text ['&', '&'] = none := find_none h .and
  have hor : strstrquoted text ['|', '|'] = none := find_none h .or
  simp [nextConditional, hand, hor]

theorem nextConditional_link (h : SimpleCommand first) (l : Link) (text : CStr) :
    nextConditional (first ++ l.text ++ text) = some (first.length, l.op) := by
  have hfound := find_link h l text
  have hother : ∀ l', l ≠ l' → ∀ k, strstrquoted (first ++ l.text ++ text) l'.text = some k →
      first.length < k :=
    fun _ hne _ => find_other h hne text
  generalize first ++ l.text ++ text = line at hfound hother
  unfold nextConditional
  cases l with
  | and =>
    have hfound : strstrquoted line ['&', '&'] = some first.length := hfound
    rw [hfound]
    cases hor : strstrquoted line ['|', '|'] with
    | none => rfl
    | some k =>
      have := hother .or (by decide) k hor
      simp [this, Link.op]
  | or =>
    have hfound : strstrquoted line ['|', '|'] = some first.length := hfound
    rw [hfound]
    cases hand : strstrquoted line ['&', '&'] with
    | none => rfl
    | some k =>
      have := hother .and (by decide) k hand
      simp [Nat.not_lt.mpr (Nat.le_of_lt this), Link.op]

theorem keep_simple (h : SimpleCommand text) : keep text = [trimWhitespace text] :=
  if_neg h.1

variable {rest : List (Link × CStr)}

theorem conditionalLoop_links (hfirst : SimpleCommand first) (hrest : ∀ x ∈ rest, SimpleCommand x.2)
    {fuel : Nat} (hfuel : rest.length < fuel) :
    conditionalLoop fuel (first ++ renderLinks rest) = nodes first rest := by
  induction rest generalizing first fuel with
  | nil =>
    obtain ⟨fuel, rfl⟩ : ∃ k, fuel = k + 1 := ⟨fuel - 1, by simp at hfuel; omega⟩
    rw [renderLinks, flatMap_nil, append_nil, conditionalLoop, nextConditional_simple hfirst]
    simp [keep_simple hfirst, nodes]
  | cons x rest ih =>
    obtain ⟨hx, hrest⟩ := forall_mem_cons.mp hrest
    obtain ⟨fuel, rfl⟩ : ∃ k, fuel = k + 1 := ⟨fuel - 1, by simp at hfuel; omega⟩
    have hline : first ++ renderLinks (x :: rest)
        = first ++ x.1.text ++ (x.2 ++ renderLinks rest) := by
      simp [renderLinks]
    have hlen : x.1.text.length = 2 := by cases x.1 <;> rfl
    rw [hline, conditionalLoop, nextConditional_link hfirst]
    have htake : (first ++ x.1.text ++ (x.2 ++ renderLinks rest)).take first.length = first := by
      rw [append_assoc, take_left]
    have hdrop : (first ++ x.1.text ++ (x.2 ++ renderLinks rest)).drop (first.length + 2)
        = x.2 ++ renderLinks rest := drop_left' (by rw [length_append, hlen])
    simp only [htake, hdrop, keep_simple hfirst]
    rw [ih hx hrest (by simp at hfuel; omega)]
    rfl

theorem length_rest_le (rest : List (Link × CStr)) : rest.length ≤ (renderLinks rest).length := by
  induction rest with
  | nil => simp
  | cons x rest ih =>
    have hpos := length_pos_iff.mpr (link_ne_nil x.1)
    rw [renderLinks, flatMap_cons, ← renderLinks]
    simp only [length_append, length_cons]
    omega

theorem parseConditionals_links (l : AndOrList) :
    parseConditionals l.render = nodes l.first l.rest := by
  refine conditionalLoop_links l.simple.1 l.simple.2 ?_
  have := length_rest_le l.rest
  rw [AndOrList.render, length_append]
  omega

theorem stops_iff (l : Link) (status : Int) : l.op.stops status = !l.runs status := by
  cases l <;> simp [CondOp.stops, Link.op, Link.runs]

theorem runs_of_ne {l l' : Link} {status : Int} (h : l.runs status = false) :
    l'.runs status = false ↔ l' = l := by
  cases l <;> cases l' <;> simp_all [Link.runs]

theorem leftAssoc_eq_nil (status : Nat → Int) (i : Nat) (current : Int)
    (rest : List (Link × CStr)) :
    (leftAssoc status i current rest).1 = [] ↔ ∀ x ∈ rest, x.1.runs current = false := by
  induction rest generalizing i with
  | nil => simp [leftAssoc]
  | cons x rest ih =>
    rw [leftAssoc]
    by_cases hx : x.1.runs current
    · simp [hx]
    · simp [hx, ih]

theorem leftAssoc_of_nil {status : Nat → Int} {i : Nat} {current : Int}
    (h : ∀ x ∈ rest, x.1.runs current = false) :
    leftAssoc status i current rest = ([], current) := by
  induction rest generalizing i with
  | nil => rfl
  | cons x rest ih =>
    obtain ⟨hx, hrest⟩ := forall_mem_cons.mp h
    rw [leftAssoc, if_neg (by simp [hx]), ih hrest]

theorem nodes_ne_nil (first : CStr) (rest : List (Link × CStr)) : nodes first rest ≠ [] := by
  cases rest <;> exact cons_ne_nil _ _

theorem conditionalRun_eq_iff (status : Nat → Int) (hfirst : SimpleCommand first)
    (hrest : ∀ x ∈ rest, SimpleCommand x.2) (i : Nat) (result : Int) :
    conditionalRun status i (nodes first rest) result
        = ((i, trimWhitespace first) :: (leftAssoc status (i + 1) (status i) rest).1,
          (leftAssoc status (i + 1) (status i) rest).2) ↔
      Uniform status (i + 1) (status i) rest := by
  induction rest generalizing first i result with
  | nil => simp [nodes, conditionalRun, hfirst.1, leftAssoc, Uniform]
  | cons x rest ih =>
    obtain ⟨hx, hrest⟩ := forall_mem_cons.mp hrest
    rw [nodes, conditionalRun, if_neg hfirst.1, leftAssoc, Uniform]
    simp only [nodes_ne_nil, stops_iff, ne_eq, not_false_eq_true, true_and]
    by_cases hruns : x.1.runs (status i)
    · simp only [hruns]
      rw [← ih hx hrest (i + 1) (status i)]
      simp [Prod.ext_iff]
    · -- the loop ends here
      rw [Bool.not_eq_true] at hruns
      simp only [hruns, Bool.not_false, if_true, Bool.false_eq_true, if_false]
      have hnil := leftAssoc_eq_nil status (i + 1 + 1) (status i) rest
      have hsame : (∀ y ∈ rest, y.1.runs (status i) = false) ↔ ∀ y ∈ rest, y.1 = x.1 :=
        forall₂_congr fun y _ => runs_of_ne hruns
      constructor
      · intro heq
        rw [← hsame, ← hnil]
        simpa using (congrArg Prod.fst heq).symm
      · intro huniform
        rw [leftAssoc_of_nil (hsame.mpr huniform)]

/-- `ios_execute_conditional` runs what a shell runs exactly for uniform lists. -/
theorem execute_conditional_iff (l : AndOrList) (status : Nat → Int) :
    executeConditional status l.render = l.meant status ↔ Uniform status 1 (status 0) l.rest := by
  rw [executeConditional, parseConditionals_links]
  exact conditionalRun_eq_iff status l.simple.1 l.simple.2 0 0

/-- `false && a || b`, with commands that fail: the last one is not run. -/
theorem execute_conditional_skips :
    ∃ l : AndOrList, l.render = "false && a || b".toList ∧
      executeConditional (fun _ => 1) l.render = ([(0, "false".toList)], 1) ∧
      l.meant (fun _ => 1) = ([(0, "false".toList), (2, ['b'])], 1) :=
  ⟨⟨"false ".toList, [(.and, " a ".toList), (.or, " b".toList)], by decide +kernel⟩,
    by decide +kernel, by decide +kernel, by decide +kernel⟩

end IosSystem.Shell
