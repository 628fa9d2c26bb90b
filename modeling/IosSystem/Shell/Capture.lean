import IosSystem.Shell.Exec
import IosSystem.Shell.Grammar

/-!
# What a substitution captures

`capture_command_output` gives its stream to the command in `child_stdout`, runs the command, and
then reads the stream. The first command that the calling thread starts itself takes it. What comes
after that writes to the `thread_stdout` of the caller, and so does the last stage of a pipeline at
any time.

`streams` is the code. `trace` does not know about streams: it lists what the command writes to its
standard output, and marks the text of that first command. `captureCommandOutput_eq` relates the
two.
-/

namespace IosSystem.Shell

open List Option Machine

/-! ## Simple commands -/

/-- The words of a command behind its assignments. -/
def argv (t : CStr) : List CStr := (words t).dropWhile fun w => '=' ∈ w

variable {t : CStr} {ps : List Plan} {p : Plan} {l : Line}

theorem Runs.argv {c : CStr} (h : Runs c t) : argv c = argv t := by
  obtain ⟨k, hk, hc⟩ := h
  rw [Shell.argv, Shell.argv, hc, ← take_append_drop k (words t),
    dropWhile_append_of_pos (by simpa using hk)]
  simp

theorem words_ne_nil (h : argv t ≠ []) : words t ≠ [] := by
  intro hw
  rw [argv, hw] at h
  exact h rfl

structure InnerCommand extends CommandLine where
  named : ∀ t ∈ toLine.simples, argv t ≠ []

/--
What commands write to their standard output, and their results. Both may depend on the commands
that have been started before.
-/
structure Commands where
  output : List (List CStr) → List CStr → CStr
  status : List (List CStr) → List CStr → Int

/-! ## The code -/

/-- Where the output of a command goes. -/
inductive Stream where
  /-- the stream of `capture_command_output` -/
  | capture
  /-- `thread_stdout` of the thread that calls it -/
  | caller
  | pipe
  deriving DecidableEq

structure Streams where
  /-- `thread_stdout` -/
  thread : Stream
  /-- `child_stdout` -/
  child : Option Stream
  started : List (List CStr)
  written : List (Stream × CStr)

/-- What was written to a stream. -/
def Streams.text (s : Streams) (out : Stream) : CStr :=
  (s.written.filter (·.1 = out)).flatMap Prod.snd

/-- A command takes `child_stdout`, even when there is nothing to start. -/
def Commands.start (cmds : Commands) (text : CStr) (s : Streams) : Streams × Int :=
  if words text = [] then ({ s with child := none }, 0)
  else
    ({ s with
        child := none
        started := s.started ++ [argv text]
        written := s.written ++ [(s.child.getD s.thread, cmds.output s.started (argv text))] },
      cmds.status s.started (argv text))

/-- The commands, by the streams that `ios_system` gives them. -/
def Commands.streams (cmds : Commands) : Machine Streams where
  release s := s
  fork s := some s
  command text s := some (cmds.start text s)
  -- `pipeline_stage_thread` sets both
  spawn last s :=
    let out := if last then s.thread else .pipe
    { s with thread := out, child := some out }
  join s s' := { s with started := s'.started, written := s'.written }

def stripTrailing (p : Char → Bool) (text : CStr) : CStr := (text.reverse.dropWhile p).reverse

/--
`capture_command_output`: the captured text, and what went to the `thread_stdout` of the caller.

The stream is read when the command has ended. `capacity` is what it holds, and a command that
writes more does not end.
-/
def Commands.captureCommandOutput (cmds : Commands) (capacity : Nat) (command : Plan) :
    Option (CStr × CStr) :=
  (cmds.streams.exec command ⟨.caller, some .capture, [], []⟩).bind fun r =>
    if (r.1.text .capture).length ≤ capacity then
      some (stripTrailing (fun c => c = '\n' ∨ c = '\r') (r.1.text .capture), r.1.text .caller)
    else none

/-! ## The standard output of a command -/

/-- The commands that were started, with what they have written. -/
structure Trace where
  /-- the calling thread, before it has started a command itself -/
  first : Bool
  piped : Bool
  started : List (List CStr)
  /-- what is written to the standard output, and whether by that first command -/
  pieces : List (Bool × CStr)

def Commands.record (cmds : Commands) (text : CStr) (t : Trace) : Trace × Int :=
  if words text = [] then ({ t with first := false }, 0)
  else
    ({ t with
        first := false
        started := t.started ++ [argv text]
        pieces := t.pieces ++
          if t.piped then [] else [(t.first, cmds.output t.started (argv text))] },
      cmds.status t.started (argv text))

/-- The commands, by what they write. -/
def Commands.trace (cmds : Commands) : Machine Trace where
  release t := t
  fork t := some t
  command text t := some (cmds.record text t)
  spawn last t := { t with first := false, piped := t.piped || !last }
  join t t' := { t with started := t'.started, pieces := t'.pieces }

def Commands.writes (cmds : Commands) (command : Plan) : Option (List (Bool × CStr)) :=
  (cmds.trace.exec command ⟨true, false, [], []⟩).map fun r => r.1.pieces

def marked (mark : Bool) (pieces : List (Bool × CStr)) : CStr :=
  (pieces.filter (·.1 = mark)).flatMap Prod.snd

/-! ## The streams of a trace -/

def Routed (s : Streams) (t : Trace) : Prop :=
  if t.first then s.thread = .caller ∧ s.child = some .capture ∧ t.piped = false
  else s.thread = (if t.piped then .pipe else .caller) ∧ (s.child = none ∨ s.child = some s.thread)

structure Traced (s : Streams) (t : Trace) : Prop where
  started : s.started = t.started
  captured : s.text .capture = marked true t.pieces
  lost : s.text .caller = marked false t.pieces
  routed : Routed s t

theorem Routed.destination {s : Streams} {t : Trace} (h : Routed s t) :
    s.child.getD s.thread
      = if t.piped then .pipe else if t.first then .capture else .caller := by
  rw [Routed] at h
  split at h
  · next hfirst =>
    obtain ⟨_, hchild, hpiped⟩ := h
    simp [hchild, hpiped, hfirst]
  · next hfirst =>
    obtain ⟨hthread, hchild | hchild⟩ := h <;> simp [hchild, hthread, hfirst]

theorem Routed.taken {s s' : Streams} {t t' : Trace} (h : Routed s t)
    (hthread : s'.thread = s.thread)
    (hchild : s'.child = none) (hpiped : t'.piped = t.piped) (hfirst : t'.first = false) :
    Routed s' t' := by
  rw [Routed] at h ⊢
  rw [hthread, hchild, hpiped, hfirst]
  refine ⟨?_, Or.inl rfl⟩
  split at h
  · rw [h.2.2]
    exact h.1
  · exact h.1

theorem marked_append (mark : Bool) (ps qs : List (Bool × CStr)) :
    marked mark (ps ++ qs) = marked mark ps ++ marked mark qs := by
  simp [marked]

open Commands

theorem Traced.start {cmds : Commands} {s : Streams} {t : Trace} (h : Traced s t) (text : CStr) :
    Traced (cmds.start text s).1 (cmds.record text t).1 ∧
      (cmds.start text s).2 = (cmds.record text t).2 := by
  obtain ⟨hstarted, hcaptured, hlost, hrouted⟩ := h
  unfold Commands.start Commands.record
  split
  · exact ⟨⟨hstarted, hcaptured, hlost, hrouted.taken rfl rfl rfl rfl⟩, rfl⟩
  · rw [hrouted.destination, hstarted]
    refine ⟨⟨rfl, ?_, ?_, hrouted.taken rfl rfl rfl rfl⟩, rfl⟩
    · rw [marked_append, ← hcaptured]
      cases t.piped <;> cases t.first <;> simp [Streams.text, marked]
    · rw [marked_append, ← hlost]
      cases t.piped <;> cases t.first <;> simp [Streams.text, marked]

theorem streams_simulation (cmds : Commands) :
    Simulation cmds.streams cmds.trace (fun _ : Unit => Traced) (fun _ => Traced) where
  release _ _ _ h := h
  fork _ _ _ h := .some h
  command _ text _ _ h := .some (h.start text)
  stage _ last s t h := by
    obtain ⟨hstarted, hcaptured, hlost, hrouted⟩ := h
    refine ⟨(), ⟨hstarted, hcaptured, hlost, ?_, Or.inr rfl⟩,
      fun _ _ h' => ⟨h'.started, h'.captured, h'.lost, hrouted⟩⟩
    rw [Routed] at hrouted
    show (if last = true then s.thread else .pipe) = _
    cases last <;> cases hpiped : t.piped <;> cases hfirst : t.first <;> simp_all [trace]

theorem captureCommandOutput_eq (cmds : Commands) (capacity : Nat) (command : Plan) :
    cmds.captureCommandOutput capacity command
      = (cmds.writes command).bind fun pieces =>
          if (marked true pieces).length ≤ capacity then
            some (stripTrailing (fun c => c = '\n' ∨ c = '\r') (marked true pieces),
              marked false pieces)
          else none := by
  have hinit : Traced ⟨.caller, some .capture, [], []⟩ ⟨true, false, [], []⟩ :=
    ⟨rfl, rfl, rfl, rfl, rfl, rfl⟩
  have hsim := exec_simulation (streams_simulation cmds) command () _ _ hinit
  rw [captureCommandOutput, writes]
  generalize cmds.streams.exec command _ = x, cmds.trace.exec command _ = y at hsim
  cases hsim with
  | none => rfl
  | some h =>
    rw [map_some, bind_some, bind_some, h.1.captured, h.1.lost]

/-! ## The commands of a line -/

def Line.pipelineTree (l : Line) : Plan :=
  if l.rest = [] then .command l.first else .pipeline l.render false (l.simples.map .command)

def Line.andOrTree (l : Line) : Plan :=
  if l.ops.any isCond then
    .conditional l.render ((seps isCond l.rest).map Op.cond ++ [.none])
      ((groups isCond l.first l.rest).map Line.pipelineTree)
  else l.pipelineTree

/-- The calls that the grammar of the line asks for. -/
def Line.tree (l : Line) : Plan :=
  if l.ops.any isSeq then
    .sequential l.render ((groups isSeq l.first l.rest).map Line.andOrTree)
  else l.andOrTree

section

variable {σ : Type} {M : Machine σ}

/-- Both plans do the same from every state. -/
def SameExec (M : Machine σ) (p q : Plan) : Prop := ∀ s, M.exec p s = M.exec q s

variable {qs : List Plan}

theorem execAll_congr (h : List.Forall₂ (SameExec M) ps qs) : M.execAll ps = M.execAll qs := by
  induction h with
  | nil => rfl
  | cons hp _ ih =>
    funext s result
    rw [execAll, execAll, ih]
    simp [hp _]

theorem execChain_congr (ops : List CondOp) (h : List.Forall₂ (SameExec M) ps qs) :
    M.execChain ops ps = M.execChain ops qs := by
  induction h generalizing ops with
  | nil => rfl
  | @cons p q ps qs hp hps ih =>
    funext s result
    cases ops with
    | nil => rfl
    | cons op ops =>
      have hempty : ps.isEmpty = qs.isEmpty := by cases hps <;> rfl
      rw [execChain, execChain, ih, hempty]
      simp [hp _]

theorem execStages_congr (h : List.Forall₂ (SameExec M) ps qs) :
    M.execStages ps = M.execStages qs := by
  induction h with
  | nil => rfl
  | @cons p q ps qs hp hps ih =>
    funext s
    have hempty : ps.isEmpty = qs.isEmpty := by cases hps <;> rfl
    rw [execStages, execStages, ih, hempty]
    simp [hp _]

end

theorem groups_simples {hit : Op → Bool} {rest : List (Op × CStr)} :
    ∀ g ∈ groups hit t rest, ∀ c ∈ g.simples, c ∈ Line.simples ⟨t, rest⟩ := by
  refine groups_rule (P := fun t rest g => ∀ c ∈ g.simples, c ∈ Line.simples ⟨t, rest⟩)
    ?_ ?_ ?_ t rest
  · intro t rest c hc
    exact mem_singleton.mp hc ▸ mem_cons_self
  · intro t x rest g ih c hc
    exact mem_cons_of_mem _ (ih c hc)
  · intro t x rest g _ ih c hc
    rcases mem_cons.mp hc with rfl | hc
    · exact mem_cons_self
    · exact mem_cons_of_mem _ (ih c hc)

section

variable {cmds : Commands}

theorem FollowsSimple.sameExec (h : FollowsSimple p t) (ht : argv t ≠ []) :
    SameExec cmds.trace p (.command t) := by
  obtain ⟨c, rfl, hruns⟩ := h
  intro s
  have hc : argv c ≠ [] := hruns.argv ▸ ht
  show some (cmds.record c s) = some (cmds.record t s)
  rw [record, record, if_neg (words_ne_nil hc), if_neg (words_ne_nil ht), hruns.argv]

theorem sameExec_map {β : Type} {F : Plan → β → Prop} {f : β → Plan} {bs : List β}
    (h : List.Forall₂ F ps bs) (hf : ∀ p, ∀ b ∈ bs, F p b → SameExec cmds.trace p (f b)) :
    List.Forall₂ (SameExec cmds.trace) ps (bs.map f) := by
  induction h with
  | nil => exact .nil
  | cons hpb _ ih =>
    exact .cons (hf _ _ mem_cons_self hpb)
      (ih fun p b hb => hf p b (mem_cons_of_mem _ hb))

theorem FollowsPipeline.sameExec (h : FollowsPipeline p l)
    (hl : ∀ t ∈ l.simples, argv t ≠ []) : SameExec cmds.trace p l.pipelineTree := by
  rw [FollowsPipeline] at h
  rw [Line.pipelineTree]
  split at h
  · next hrest =>
    rw [if_pos hrest]
    exact FollowsSimple.sameExec h (hl _ mem_cons_self)
  · next hrest =>
    rw [if_neg hrest]
    obtain ⟨text, stages, rfl, -, hstages⟩ := h
    intro s
    rw [exec, exec, execStages_congr (sameExec_map hstages fun p t ht hp => hp.sameExec (hl t ht))]

theorem FollowsAndOr.sameExec (h : FollowsAndOr p l)
    (hl : ∀ t ∈ l.simples, argv t ≠ []) : SameExec cmds.trace p l.andOrTree := by
  rw [FollowsAndOr] at h
  rw [Line.andOrTree]
  split at h
  · next hcond =>
    rw [if_pos hcond]
    obtain ⟨text, nodes, rfl, hnodes⟩ := h
    intro s
    rw [exec, exec, execChain_congr _ (sameExec_map hnodes fun p g hg hp =>
      hp.sameExec fun t ht => hl t (groups_simples g hg t ht))]
  · next hcond =>
    rw [if_neg hcond]
    exact FollowsPipeline.sameExec h hl

theorem Follows.sameExec (h : Follows p l)
    (hl : ∀ t ∈ l.simples, argv t ≠ []) : SameExec cmds.trace p l.tree := by
  rw [Follows] at h
  rw [Line.tree]
  split at h
  · next hseq =>
    rw [if_pos hseq]
    obtain ⟨text, segments, rfl, hsegments⟩ := h
    intro s
    rw [exec, exec, execAll_congr (sameExec_map hsegments fun p g hg hp =>
      hp.sameExec fun t ht => hl t (groups_simples g hg t ht))]
  · next hseq =>
    rw [if_neg hseq]
    exact FollowsAndOr.sameExec h hl

end

/-! ## The calls for a line come to an end -/

mutual

/-- No call has run out of fuel. -/
def Plan.Finished : Plan → Prop
  | .unfinished => False
  | .sequential _ segments => Plan.FinishedAll segments
  | .conditional _ _ nodes => Plan.FinishedAll nodes
  | .pipeline _ _ stages => Plan.FinishedAll stages
  | .overflow _ => True
  | .command _ => True

def Plan.FinishedAll : List Plan → Prop
  | [] => True
  | p :: ps => p.Finished ∧ Plan.FinishedAll ps

end

theorem finishedAll_map {α : Type} {f : α → Plan} {xs : List α} (h : ∀ x ∈ xs, (f x).Finished) :
    Plan.FinishedAll (xs.map f) := by
  induction xs with
  | nil => trivial
  | cons x xs ih =>
    exact ⟨h x mem_cons_self, ih fun x hx => h x (mem_cons_of_mem _ hx)⟩

theorem seps_cons_length (hit : Op → Bool) (x : Op × CStr) (rest : List (Op × CStr)) :
    (seps hit (x :: rest)).length = (seps hit rest).length + if hit x.1 then 1 else 0 := by
  cases hx : hit x.1 <;> simp [seps, hx]

theorem groups_rest_length {hit : Op → Bool} {rest : List (Op × CStr)} :
    ∀ g ∈ groups hit t rest, g.rest.length + (seps hit rest).length ≤ rest.length := by
  refine groups_rule (P := fun _ rest g => g.rest.length + (seps hit rest).length ≤ rest.length)
    ?_ ?_ ?_ t rest
  · intro t rest
    have hle := length_filter_le hit (rest.map Prod.fst)
    simpa [seps] using hle
  · intro t x rest g ih
    rw [seps_cons_length, length_cons]
    split <;> omega
  · intro t x rest g hx ih
    rw [seps_cons_length, hx, length_cons, length_cons]
    simp only [Bool.false_eq_true, if_false]
    omega

theorem pieces_rest_length {hit : Op → Bool} (h : l.ops.any hit = true) :
    ∀ g ∈ l.pieces hit, g.rest.length < l.rest.length := by
  intro g hg
  obtain ⟨g', hg', hk⟩ := mem_flatMap.mp hg
  have hlen : g.rest.length = g'.rest.length := by
    rw [Line.kept] at hk
    split at hk
    · cases hk
    · exact mem_singleton.mp hk ▸ (trim_rel g').2.length_eq
  have hseps : 0 < (seps hit l.rest).length := by
    obtain ⟨op, hop, hhit⟩ := any_eq_true.mp h
    exact length_pos_of_mem (mem_filter.mpr ⟨hop, hhit⟩)
  have := groups_rest_length g' hg'
  omega

theorem act_finished {run : CStr → Plan} (h : l.Weak)
    (hrun : ∀ g : Line, g.Weak → g.rest.length < l.rest.length → (run g.render).Finished) :
    (l.act run).Finished := by
  have hpieces : ∀ hit, l.ops.any hit = true → ∀ g ∈ l.pieces hit, (run g.render).Finished :=
    fun hit hany g hg => hrun g (pieces_weak h g hg) (pieces_rest_length hany g hg)
  rw [Line.act, Line.split]
  split
  · next hseq => exact finishedAll_map (hpieces isSeq hseq)
  · split
    · next hcond =>
      refine finishedAll_map fun x hx => hpieces isCond (Bool.and_eq_true_iff.mp hcond).1 x.1 ?_
      exact nodes_fst l ▸ mem_map_of_mem hx
    · split
      · next hbar =>
        split
        · exact finishedAll_map (hpieces isBar hbar)
        · trivial
      · trivial

/-- One call takes the line apart at its operators. -/
theorem plan_act {env : Env} (he : env.NoAliases) (h : l.Weak) (fuel : Nat) :
    env.plan (fuel + 2) l.render = l.unassigned.act (env.plan (fuel + 1)) :=
  have hun := dropAssignments_render h
  plan_render he h hun.1 hun.2.1 fuel

theorem unassigned_rest_length (h : l.Weak) : l.unassigned.rest.length ≤ l.rest.length := by
  rcases (dropAssignments_render h).2.2 with e | hlt
  · rw [e]
  · exact Nat.le_of_lt hlt

theorem plan_finished {env : Env} (he : env.NoAliases) (h : l.Weak) {fuel : Nat}
    (hfuel : l.rest.length ≤ fuel) : (env.plan (fuel + 2) l.render).Finished := by
  induction fuel generalizing l with
  | zero =>
    have hle := unassigned_rest_length h
    rw [plan_act he h]
    exact act_finished (dropAssignments_render h).1 fun g _ hlt => by omega
  | succ fuel ih =>
    have hle := unassigned_rest_length h
    rw [plan_act he h]
    exact act_finished (dropAssignments_render h).1 fun g hg hlt => ih hg (by omega)

/-! ## The line as the code reads it -/

/-- The calls that `ios_system` makes for the line, read off its words and operators. -/
def Line.read : Nat → Line → Plan
  | 0, _ => .unfinished
  | depth + 1, l => l.unassigned.split (Line.read depth)

/--
The line as the code reads it, whatever the grammar says: a word with a `=` and the operators in it
are gone when a blank is behind it, and `||` is two `|` unless another `|` is before it.
-/
def Line.reading (l : Line) : Plan := l.read (l.rest.length + 1)

theorem split_congr {run run' : Line → Plan} (h : l.Weak)
    (hrun : ∀ g : Line, g.Weak → g.rest.length < l.rest.length → run g = run' g) :
    l.split run = l.split run' := by
  have hpieces : ∀ hit, l.ops.any hit = true → ∀ g ∈ l.pieces hit, run g = run' g :=
    fun hit hany g hg => hrun g (pieces_weak h g hg) (pieces_rest_length hany g hg)
  rw [Line.split, Line.split]
  split
  · next hseq => rw [map_congr_left (hpieces isSeq hseq)]
  · split
    · next hcond =>
      have hnodes : ∀ x ∈ l.nodes, run x.1 = run' x.1 := fun x hx =>
        hpieces isCond (Bool.and_eq_true_iff.mp hcond).1 x.1 (nodes_fst l ▸ mem_map_of_mem hx)
      rw [map_congr_left hnodes]
    · split
      · next hbar => rw [map_congr_left (hpieces isBar hbar)]
      · rfl

/-- The calls of `ios_system` for the text of a line are those of its reading. -/
theorem plan_eq_read {env : Env} (he : env.NoAliases) (h : l.Weak) {fuel depth : Nat}
    (hfuel : l.rest.length ≤ fuel) (hdepth : l.rest.length ≤ depth) :
    env.plan (fuel + 2) l.render = l.read (depth + 1) := by
  induction fuel generalizing l depth with
  | zero =>
    have hle := unassigned_rest_length h
    rw [plan_act he h, Line.act, Line.read]
    exact split_congr (dropAssignments_render h).1 fun g _ hlt => by omega
  | succ fuel ih =>
    have hle := unassigned_rest_length h
    rw [plan_act he h, Line.act, Line.read]
    refine split_congr (dropAssignments_render h).1 fun g hg hlt => ?_
    obtain ⟨depth, rfl⟩ := Nat.exists_eq_add_one_of_ne_zero (show depth ≠ 0 by omega)
    exact ih hg (by omega) (by omega)

/-! ## The capture law -/

theorem stripTrailing_eq_iff (text : CStr) :
    stripTrailing (fun c => c = '\n' ∨ c = '\r') text = stripTrailing (· = '\n') text ↔
      (stripTrailing (· = '\n') text).getLast? ≠ some '\r' := by
  rw [stripTrailing, stripTrailing, reverse_inj, getLast?_reverse]
  induction text.reverse with
  | nil => simp
  | cons c r ih =>
    by_cases hn : c = '\n'
    · simpa [hn] using ih
    · by_cases hr : c = '\r'
      · subst hr
        have hlen : (r.dropWhile fun c => decide (c = '\n' ∨ c = '\r')).length ≤ r.length :=
          (dropWhile_suffix _).length_le
        have hne : (r.dropWhile fun c => decide (c = '\n' ∨ c = '\r')) ≠ '\r' :: r := by
          intro e
          rw [e, length_cons] at hlen
          omega
        simpa using hne
      · simp [hn, hr]

theorem marked_false_eq_nil {pieces : List (Bool × CStr)} :
    marked false pieces = [] ↔ ∀ x ∈ pieces, x.1 = false → x.2 = [] := by
  simp only [marked, flatMap_eq_nil_iff, mem_filter, decide_eq_true_eq, and_imp]

theorem flatMap_eq_marked {pieces : List (Bool × CStr)}
    (h : ∀ x ∈ pieces, x.1 = false → x.2 = []) : pieces.flatMap Prod.snd = marked true pieces := by
  induction pieces with
  | nil => rfl
  | cons x pieces ih =>
    have ih := ih fun y hy => h y (mem_cons_of_mem _ hy)
    obtain ⟨mark, text⟩ := x
    cases mark with
    | false =>
      have ht : text = [] := h _ mem_cons_self rfl
      rw [flatMap_cons, ih, ht]
      rfl
    | true =>
      rw [flatMap_cons, ih]
      rfl

/--
The capture law: the text is what the commands of the line write to their standard output, without
newlines at the end, and the caller's `thread_stdout` gets none of it.
-/
def Commands.Law (cmds : Commands) (capacity : Nat) (l : Line) (command : Plan) : Prop :=
  ∃ pieces, cmds.writes l.tree = some pieces ∧
    cmds.captureCommandOutput capacity command
      = some (stripTrailing (· = '\n') (pieces.flatMap Prod.snd), [])

/--
Only the first command that the calling thread starts itself writes something, the stream holds it,
and there is no `\r` before the newlines at its end.
-/
def Commands.OneWriter (cmds : Commands) (capacity : Nat) (l : Line) : Prop :=
  ∃ pieces, cmds.writes l.tree = some pieces ∧ (∀ x ∈ pieces, x.1 = false → x.2 = []) ∧
    (marked true pieces).length ≤ capacity ∧
    (stripTrailing (· = '\n') (marked true pieces)).getLast? ≠ some '\r'

/--
For a line that the code does not read by the grammar. The commands of the reading happen to write
what those of the line do: the first one that the calling thread starts itself writes all of it, the
others nothing, and the stream holds it.
-/
def Commands.Coincide (cmds : Commands) (capacity : Nat) (l : Line) : Prop :=
  ∃ pieces instead, cmds.writes l.tree = some pieces ∧ cmds.writes l.reading = some instead ∧
    (∀ x ∈ instead, x.1 = false → x.2 = []) ∧ (marked true instead).length ≤ capacity ∧
    stripTrailing (fun c => c = '\n' ∨ c = '\r') (marked true instead)
      = stripTrailing (· = '\n') (pieces.flatMap Prod.snd)

/-- The law, said with the outputs only. -/
theorem law_iff_coincide (cmds : Commands) (capacity : Nat) (l : Line) :
    cmds.Law capacity l l.reading ↔ cmds.Coincide capacity l := by
  unfold Commands.Law Commands.Coincide
  rw [captureCommandOutput_eq]
  cases hinstead : cmds.writes l.reading with
  | none => simp
  | some instead =>
    rw [bind_some]
    by_cases hfit : (marked true instead).length ≤ capacity
    · rw [if_pos hfit]
      simp only [some.injEq, Prod.mk.injEq, marked_false_eq_nil]
      constructor
      · rintro ⟨pieces, hpieces, hsame, hlost⟩
        exact ⟨pieces, instead, hpieces, rfl, hlost, hfit, hsame⟩
      · rintro ⟨pieces, _, hpieces, rfl, hlost, -, hsame⟩
        exact ⟨pieces, hpieces, hsame, hlost⟩
    · rw [if_neg hfit]
      constructor
      · rintro ⟨_, _, h⟩
        cases h
      · rintro ⟨_, _, -, h, -, hfit', -⟩
        rw [← some.inj h] at hfit'
        exact absurd hfit' hfit

/-- For a line that is read as meant. -/
theorem coincide_iff_oneWriter (cmds : Commands) (capacity : Nat)
    (h : cmds.writes l.reading = cmds.writes l.tree) :
    cmds.Coincide capacity l ↔ cmds.OneWriter capacity l := by
  unfold Commands.Coincide Commands.OneWriter
  rw [h]
  constructor
  · rintro ⟨pieces, instead, hpieces, hinstead, hlost, hfit, hsame⟩
    obtain rfl : pieces = instead := some.inj (hpieces.symm.trans hinstead)
    rw [flatMap_eq_marked hlost, stripTrailing_eq_iff] at hsame
    exact ⟨pieces, hpieces, hlost, hfit, hsame⟩
  · rintro ⟨pieces, hpieces, hlost, hfit, hcr⟩
    refine ⟨pieces, pieces, hpieces, hpieces, hlost, hfit, ?_⟩
    rw [flatMap_eq_marked hlost, stripTrailing_eq_iff]
    exact hcr

/--
The capture law holds exactly when no command but the first one that the calling thread starts
itself writes to its standard output. Lines that are not taken apart by the grammar meet it by
coincidence only.
-/
theorem capture_law_iff (getenv : List (CStr × CStr) → CStr → Option CStr) (capture : CStr → CStr)
    (cmds : Commands) (capacity : Nat) (l : InnerCommand) :
    let command := (plainEnv getenv capture).plan (l.rest.length + 5) l.render
    command.Finished ∧
      (cmds.Law capacity l.toLine command ↔
        (l.Ok ∧ cmds.OneWriter capacity l.toLine) ∨
          (¬l.Ok ∧ cmds.Coincide capacity l.toLine)) := by
  intro command
  have he : (plainEnv getenv capture).NoAliases := fun _ => rfl
  have hread : command = l.reading :=
    plan_eq_read he l.wf.1 (Nat.le_add_right _ 3) (Nat.le_refl _)
  refine ⟨plan_finished he l.wf.1 (Nat.le_add_right _ 3), ?_⟩
  rw [hread, law_iff_coincide]
  by_cases hok : l.Ok
  · have hsame : cmds.writes l.reading = cmds.writes l.tree := by
      rw [← hread, Commands.writes, (plan_line he l.wf.1 hok _).sameExec l.named,
        Commands.writes]
    rw [coincide_iff_oneWriter cmds capacity hsame]
    simp [hok]
  · simp [hok]

def echoing : Commands := { output := fun _ args => args.flatten, status := fun _ _ => 0 }

/-- The substitution of `a;b` is `a`, and `b` goes to the caller's output. -/
theorem second_command_lost :
    let command := (plainEnv (fun _ _ => none) id).plan 6 "a;b".toList
    echoing.captureCommandOutput 65536 command = some (['a'], ['b']) ∧
      Line.render ⟨['a'], [(.seq, ['b'])]⟩ = "a;b".toList ∧
      ¬echoing.Law 65536 ⟨['a'], [(.seq, ['b'])]⟩ command := by
  intro command
  have hplan : command = .sequential "a;b".toList [.command ['a'], .command ['b']] := by
    have hweak : Line.Weak ⟨['a'], [(.seq, ['b'])]⟩ := by
      unfold Line.Weak
      decide
    exact plan_render (fun _ => rfl) hweak hweak (by decide) 4
  have hcaptured : echoing.captureCommandOutput 65536 command = some (['a'], ['b']) := by
    rw [hplan]
    decide
  refine ⟨hcaptured, rfl, ?_⟩
  rintro ⟨pieces, -, hlaw⟩
  rw [hcaptured, Option.some.injEq, Prod.mk.injEq] at hlaw
  cases hlaw.2

/-! ## An alias that leads to itself -/

/-- `alias a="a|b"` -/
def looping : Env :=
  { getenv := fun _ _ => none
    capture := fun _ => []
    aliases := fun name => if name = ['a'] then some ⟨['a', '|', 'b'], [], .empty⟩ else none }

/--
The alias is expanded before `|` is looked for, and the first stage is the same command again: the
calls of `ios_system` are nested without an end.
-/
theorem calls_unbounded :
    looping.action ['a'] = .pipeline ['a', '|', 'b'] false [['a'], ['b']] ∧
      ∀ depth, ¬(looping.plan depth ['a']).Finished := by
  refine ⟨by decide, fun depth => ?_⟩
  induction depth with
  | zero => exact id
  | succ depth ih =>
    cases depth with
    | zero => exact id
    | succ fuel => exact fun h => ih h.1

end IosSystem.Shell
