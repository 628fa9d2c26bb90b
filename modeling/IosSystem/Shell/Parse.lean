import IosSystem.Shell.Line

/-!
# What `ios_system` makes of a line

`parse_semicolons`, `parse_conditionals` and `parse_pipeline` on a line of simple commands: each
cuts the line at the operators of its kind, and drops the pieces that are blank. `parse_pipeline`
cuts at every `|`, so at the operator `||` too, where it drops an empty stage.

Before that, the assignment loop has taken words off the front of the line. It goes by blanks only,
so a word for it can reach over an operator. What it leaves is a line again
(`dropAssignments_render`).
-/

namespace IosSystem.Shell

open List Line

def isSeq (op : Op) : Bool := op = .seq

def isCond (op : Op) : Bool := op = .and ∨ op = .or

/-- The operators with a `|` in them. -/
def isBar (op : Op) : Bool := op = .or ∨ op = .pipe

def Op.cond : Op → CondOp
  | .and => .and
  | .or => .or
  | _ => .none

theorem hits_semicolon : hits [';'] = isSeq := by
  funext op
  cases op <;> rfl

theorem hits_bar : hits ['|'] = isBar := by
  funext op
  cases op <;> rfl

/-! ## `parse_semicolons` -/

/-- The parts that are not blank, trimmed. -/
def Line.pieces (hit : Op → Bool) (l : Line) : List Line :=
  (groups hit l.first l.rest).flatMap Line.kept

variable {l : Line} {n : Nat} {t p : CStr} {rest : List (Op × CStr)} {fuel : Nat}

theorem semicolonLoop_render (h : l.Weak) (hf : l.rest.length < fuel) :
    semicolonLoop fuel l.render = (l.pieces isSeq).map Line.render := by
  induction fuel generalizing l with
  | zero => omega
  | succ fuel ih =>
    rw [semicolonLoop, strstrquoted_render (by decide) h, hits_semicolon, pieces]
    cases hc : cut isSeq l.first l.rest with
    | none => simp [(cut_eq_none hc).1, keep_render h]
    | some r =>
      obtain ⟨g, op, l'⟩ := r
      have hcut := cut_eq_some hc
      have hop : op.text.length = 1 := by
        have := hcut.isHit
        cases op <;> first | rfl | cases this
      have hweak := hcut.weak h
      have hlen := hcut.length
      have hdrop := hcut.drop
      rw [hop] at hdrop
      show keep (l.render.take g.render.length)
        ++ semicolonLoop fuel (l.render.drop (g.render.length + 1)) = _
      rw [hcut.take, hdrop, ih hweak.2.1 (by omega), keep_render hweak.1, hcut.groups,
        flatMap_cons, map_append, pieces]

theorem rest_length_le_render (l : Line) : l.rest.length ≤ l.render.length := by
  obtain ⟨t, rest⟩ := l
  induction rest with
  | nil => exact Nat.zero_le _
  | cons x rest ih =>
    obtain ⟨c, r, e, _⟩ := op_text_ne_nil x.1
    simp only [render, renderRest_cons, length_append, length_cons, e] at ih ⊢
    omega

theorem parseSemicolons_render (h : l.Weak) :
    parseSemicolons l.render = (l.pieces isSeq).map Line.render :=
  semicolonLoop_render h (Nat.lt_succ_of_le (rest_length_le_render l))

/-! ## `parse_conditionals` -/

def position (hit : Op → Bool) (t : CStr) (rest : List (Op × CStr)) : Option Nat :=
  (cut hit t rest).map fun r => r.1.render.length

theorem position_cons (hit : Op → Bool) (t t' : CStr) (op : Op) (rest : List (Op × CStr)) :
    position hit t ((op, t') :: rest)
      = if hit op then some t.length
        else (position hit t' rest).map (t.length + op.text.length + ·) := by
  rw [position, cut]
  split
  · simp [render]
  · rw [position, Option.map_map, Option.map_map]
    congr 1
    funext r
    simp [render, Nat.add_assoc]

def nearer : Option Nat → Option Nat → Option (Nat × CondOp)
  | some a, none => some (a, .and)
  | some a, some o => if a < o then some (a, .and) else some (o, .or)
  | none, some o => some (o, .or)
  | none, none => none

theorem nearer_shift (a o : Option Nat) (k : Nat) :
    nearer (a.map (k + ·)) (o.map (k + ·)) = (nearer a o).map fun r => (k + r.1, r.2) := by
  cases a <;> cases o <;> simp [nearer, apply_ite]

theorem nearer_position (t : CStr) (rest : List (Op × CStr)) :
    nearer (position (hits ['&', '&']) t rest) (position (hits ['|', '|']) t rest)
      = (cut isCond t rest).map fun r => (r.1.render.length, r.2.1.cond) := by
  induction rest generalizing t with
  | nil => rfl
  | cons x rest ih =>
    obtain ⟨op, t'⟩ := x
    have hstep : ∀ op, hits ['&', '&'] op = false → hits ['|', '|'] op = false → isCond op = false →
        nearer (position (hits ['&', '&']) t ((op, t') :: rest))
          (position (hits ['|', '|']) t ((op, t') :: rest))
        = (cut isCond t ((op, t') :: rest)).map fun r => (r.1.render.length, r.2.1.cond) := by
      intro op ha ho hc
      rw [position_cons, position_cons, if_neg (by simp [ha]), if_neg (by simp [ho]), nearer_shift,
        ih, cut, if_neg (by simp [hc]), Option.map_map, Option.map_map]
      congr 1
      funext r
      simp [render, Nat.add_assoc]
    cases op with
    | seq => exact hstep .seq rfl rfl rfl
    | pipe => exact hstep .pipe rfl rfl rfl
    | and =>
      -- the `&&` is the first operator of all
      rw [position_cons, position_cons, if_pos (show hits ['&', '&'] Op.and = true from rfl),
        if_neg (show ¬hits ['|', '|'] Op.and = true by decide), cut, if_pos (by decide)]
      cases position (hits ['|', '|']) t' rest with
      | none => simp [nearer, render, Op.cond]
      | some o => simp [nearer, render, Op.cond, Op.text]; omega
    | or =>
      rw [position_cons, position_cons, if_neg (show ¬hits ['&', '&'] Op.or = true by decide),
        if_pos (show hits ['|', '|'] Op.or = true from rfl), cut, if_pos (by decide)]
      cases position (hits ['&', '&']) t' rest with
      | none => simp [nearer, render, Op.cond]
      | some o =>
        have hle : ¬t.length + Op.or.text.length + o < t.length := by omega
        simp [nearer, render, Op.cond, hle]

theorem nextConditional_render (h : l.Weak) :
    nextConditional l.render
      = (cut isCond l.first l.rest).map fun r => (r.1.render.length, r.2.1.cond) := by
  rw [← nearer_position, position, position, ← strstrquoted_render (by decide) h,
    ← strstrquoted_render (by decide) h]
  rfl

/-- The pieces of a line between `&&` and `||`, each with the operator behind it. -/
def Line.nodes (l : Line) : List (Line × CondOp) :=
  ((groups isCond l.first l.rest).zip ((seps isCond l.rest).map Op.cond ++ [.none])).flatMap
    fun x => x.1.kept.map (·, x.2)

theorem conditionalLoop_render (h : l.Weak) (hf : l.rest.length < fuel) :
    conditionalLoop fuel l.render = l.nodes.map fun x => (x.1.render, x.2) := by
  induction fuel generalizing l with
  | zero => omega
  | succ fuel ih =>
    rw [conditionalLoop, nextConditional_render h, Line.nodes]
    cases hc : cut isCond l.first l.rest with
    | none =>
      obtain ⟨hg, hs⟩ := cut_eq_none hc
      simp [hg, hs, keep_render h]
    | some r =>
      obtain ⟨g, op, l'⟩ := r
      have hcut := cut_eq_some hc
      have hop : op.text.length = 2 := by
        have := hcut.isHit
        cases op <;> first | rfl | cases this
      have hweak := hcut.weak h
      have hlen := hcut.length
      have hdrop := hcut.drop
      rw [hop] at hdrop
      show (keep (l.render.take g.render.length)).map (·, op.cond)
        ++ conditionalLoop fuel (l.render.drop (g.render.length + 2)) = _
      rw [hcut.take, hdrop, ih hweak.2.1 (by omega), keep_render hweak.1,
        hcut.groups, hcut.seps, map_cons, cons_append, zip_cons_cons,
        flatMap_cons, map_append, Line.nodes]
      simp

theorem parseConditionals_render (h : l.Weak) :
    parseConditionals l.render = l.nodes.map fun x => (x.1.render, x.2) :=
  conditionalLoop_render h (Nat.lt_succ_of_le (rest_length_le_render l))

/-! ## `parse_pipeline` -/

theorem pipelineLoop_plain (hn : n < maxPipelineStages) {s : CStr} (hs : '|' ∉ s) (stage r : CStr) :
    pipelineLoop n stage false (s ++ r) = pipelineLoop n (stage ++ s) false r := by
  induction s generalizing stage with
  | nil => simp
  | cons c s ih =>
    have hc : c ≠ '|' := fun e => hs (e ▸ mem_cons_self)
    have ih := ih (fun e => hs (mem_cons_of_mem _ e)) (stage ++ [c])
    rw [cons_append, pipelineLoop]
    simp only [Bool.false_eq_true, if_false, if_neg (Nat.not_le.mpr hn), if_neg hc]
    rw [ih, append_assoc]
    rfl

theorem pipelineLoop_bar (hn : n < maxPipelineStages) {stage r : CStr}
    (hstage : stage.getLast? ≠ some '&') (hr : r.head? ≠ some '&') :
    pipelineLoop n stage false ('|' :: r)
      = (keepStage (trimSpaces stage)
          ++ (pipelineLoop (n + (keepStage (trimSpaces stage)).length) [] false r).1,
        (pipelineLoop (n + (keepStage (trimSpaces stage)).length) [] false r).2) := by
  rw [pipelineLoop]
  simp [Nat.not_le.mpr hn, hstage, hr]

theorem pipelineLoop_full (hn : maxPipelineStages ≤ n) (r : CStr) :
    pipelineLoop n [] false r = (keepStage (trimSpaces r), false) := by
  cases r with
  | nil => rfl
  | cons c r =>
    rw [pipelineLoop]
    simp [hn]

/-- The stages of a line, when `stage` has been read of the first. -/
def stagesFrom (stage : CStr) : List Line → List CStr
  | [] => []
  | g :: gs => keepStage (trimSpaces (stage ++ g.render)) ++ gs.flatMap fun g =>
      g.kept.map Line.render

def Stages (n : Nat) (kept : List CStr) (result : List CStr × Bool) : Prop :=
  result.2 = false ∧ (n + kept.length ≤ maxPipelineStages → result.1 = kept) ∧
    (maxPipelineStages < n + kept.length → maxPipelineStages < n + result.1.length)

theorem getLast?_simple (h : SimpleText t) (hne : t ≠ []) (stage : CStr) :
    (stage ++ t).getLast? ≠ some '&' := by
  intro e
  rw [getLast?_append, getLast?_eq_some_getLast hne] at e
  have e : t.getLast hne = '&' := by simpa using e
  exact h.not_mem (by decide) (e ▸ getLast_mem hne)

theorem head?_render (h : l.Wf) {c : Char} (hc : c ≠ ' ' ∧ isWordChar c = false) :
    l.render.head? ≠ some c := by
  obtain ⟨d, t, e⟩ := exists_cons_of_ne_nil h.2.ne_nil
  rw [render, e]
  rintro ⟨⟩
  exact h.1.1.not_mem hc (e ▸ mem_cons_self)

theorem Line.Wf.not_blank (h : l.Wf) : ¬l.Blank := fun hb => hb.2 h.2

theorem groups_first (hit : Op → Bool) (t : CStr) (rest : List (Op × CStr)) :
    ∃ r gs, groups hit t rest = ⟨t, r⟩ :: gs := by
  cases rest with
  | nil => exact ⟨[], [], rfl⟩
  | cons x rest =>
    rw [groups]
    split
    · exact ⟨_, _, rfl⟩
    · cases hg : groups hit x.2 rest with
      | nil => exact absurd hg (groups_ne_nil hit x.2 rest)
      | cons g gs => exact ⟨_, _, rfl⟩

theorem stagesFrom_groups (h : Line.Wf ⟨t, rest⟩) :
    0 < (stagesFrom [] (groups isBar t rest)).length := by
  obtain ⟨r, gs, hg⟩ := groups_first isBar t rest
  obtain ⟨c, hc, hne⟩ := h.2
  have hkeep : trimSpaces ([] ++ render ⟨t, r⟩) ≠ [] := by
    intro e
    exact trimSpaces_eq_nil.mp e ⟨c, mem_append_right [] (mem_append_left _ hc), hne⟩
  rw [hg, stagesFrom, keepStage, if_neg hkeep]
  simp

theorem Stages.append {s kept : List CStr} {result : List CStr × Bool}
    (h : Stages (n + s.length) kept result) : Stages n (s ++ kept) (s ++ result.1, result.2) := by
  obtain ⟨h1, h2, h3⟩ := h
  refine ⟨h1, ?_, ?_⟩
  · intro hle
    rw [length_append] at hle
    rw [h2 (by omega)]
  · intro hlt
    rw [length_append] at hlt
    rw [length_append]
    omega

theorem Stages.full (hn : n = maxPipelineStages) {kept : List CStr} (hk : 0 < kept.length)
    {r : CStr} (hr : Nonblank r) : Stages n kept (pipelineLoop n [] false r) := by
  have hkeep : keepStage (trimSpaces r) = [trimSpaces r] :=
    if_neg fun e => trimSpaces_eq_nil.mp e hr
  rw [pipelineLoop_full (Nat.le_of_eq hn.symm), hkeep]
  refine ⟨rfl, ?_, ?_⟩
  · omega
  · intro _
    show maxPipelineStages < n + 1
    omega

theorem keepStage_length_le (s : CStr) : (keepStage s).length ≤ 1 := by
  rw [keepStage]
  split <;> simp

theorem stagesFrom_nil_flatMap (gs : List Line) (h : ∀ g ∈ gs, g.Weak) :
    stagesFrom [] gs = gs.flatMap fun g => g.kept.map Line.render := by
  cases gs with
  | nil => rfl
  | cons g gs =>
    rw [stagesFrom, nil_append, keepStage_render (h g mem_cons_self)]
    rfl

variable {hit : Op → Bool}

theorem groups_simple (t : CStr) (rest : List (Op × CStr)) :
    ∀ g ∈ groups hit t rest, Line.Weak ⟨t, rest⟩ → g.Weak ∧ (Nonblank t → Nonblank g.first) := by
  refine groups_rule (P := fun t rest g => Line.Weak ⟨t, rest⟩ →
    g.Weak ∧ (Nonblank t → Nonblank g.first)) ?_ ?_ ?_ t rest
  · intro t rest h
    exact ⟨⟨h.1, by simp⟩, id⟩
  · intro t x rest g ih h
    obtain ⟨hweak, hword⟩ := h.tail
    exact ⟨(ih hweak).1, fun _ => (ih hweak).2 hword⟩
  · intro t x rest g _ ih h
    obtain ⟨hweak, hword⟩ := h.tail
    obtain ⟨hg, hfirst⟩ := ih hweak
    exact ⟨⟨h.1, forall_mem_cons.mpr ⟨⟨hg.1, hfirst hword⟩, hg.2⟩⟩, id⟩

theorem groups_weak (h : Line.Weak ⟨t, rest⟩) : ∀ g ∈ groups hit t rest, g.Weak :=
  fun g hg => (groups_simple t rest g hg h).1

/-- `parse_pipeline` on the text of a line. -/
theorem pipelineLoop_render (hn : n < maxPipelineStages) {stage : CStr} (h : Line.Weak ⟨t, rest⟩)
    (hlast : (stage ++ t).getLast? ≠ some '&') :
    Stages n (stagesFrom stage (groups isBar t rest))
      (pipelineLoop n stage false (Line.render ⟨t, rest⟩)) := by
  induction rest generalizing n stage t with
  | nil =>
    have hloop := pipelineLoop_plain hn (h.1.not_mem (by decide)) stage []
    rw [show render ⟨t, []⟩ = t ++ [] from rfl, hloop]
    refine ⟨rfl, ?_, ?_⟩
    · simp [groups, stagesFrom, pipelineLoop, render]
    · intro hlt
      simpa [groups, stagesFrom, pipelineLoop, render] using hlt
  | cons x rest ih =>
    obtain ⟨op, t'⟩ := x
    have htail := h.tail
    have hbar : '|' ∉ t := h.1.not_mem (by decide)
    have hrender : render ⟨t, (op, t') :: rest⟩ = t ++ (op.text ++ render ⟨t', rest⟩) := by
      simp [render]
    rw [hrender, pipelineLoop_plain hn hbar, groups]
    -- what comes behind a `|`, whether the array is full or not
    have hnext : ∀ m, m ≤ maxPipelineStages →
        Stages m (stagesFrom [] (groups isBar t' rest))
          (pipelineLoop m [] false (render ⟨t', rest⟩)) := by
      intro m hm
      rcases Nat.lt_or_eq_of_le hm with hm | hm
      · exact ih hm htail.1 (getLast?_simple htail.1.1 htail.2.ne_nil [])
      · obtain ⟨c, hc, hne⟩ := htail.2
        exact Stages.full hm (stagesFrom_groups htail) ⟨c, mem_append_left _ hc, hne⟩
    have hs := keepStage_length_le (trimSpaces (stage ++ t))
    have hgroups : stagesFrom stage (⟨t, []⟩ :: groups isBar t' rest)
        = keepStage (trimSpaces (stage ++ t)) ++ stagesFrom [] (groups isBar t' rest) := by
      rw [stagesFrom_nil_flatMap _ (groups_weak htail.1), stagesFrom]
      simp [render]
    have hplain : ∀ op, '|' ∉ Op.text op → isBar op = false →
        Stages n (stagesFrom stage (if isBar op = true then ⟨t, []⟩ :: groups isBar t' rest
          else match groups isBar t' rest with
            | [] => []
            | g :: gs => ⟨t, (op, g.first) :: g.rest⟩ :: gs))
          (pipelineLoop n (stage ++ t) false (op.text ++ render ⟨t', rest⟩)) := by
      intro op hop hb
      obtain ⟨r, gs, hg⟩ := groups_first isBar t' rest
      have ih := ih hn htail.1
        (getLast?_simple htail.1.1 htail.2.ne_nil (stage ++ t ++ op.text))
      rw [pipelineLoop_plain hn hop, if_neg (by simp [hb]), hg]
      rw [hg] at ih
      simpa [stagesFrom, render] using ih
    cases op with
    | seq => exact hplain .seq (by decide) rfl
    | and => exact hplain .and (by decide) rfl
    | pipe =>
      show Stages n (stagesFrom stage (⟨t, []⟩ :: groups isBar t' rest))
        (pipelineLoop n (stage ++ t) false ('|' :: render ⟨t', rest⟩))
      rw [pipelineLoop_bar hn hlast (head?_render htail (by decide)), hgroups]
      exact (hnext _ (by omega)).append
    | or =>
      show Stages n (stagesFrom stage (⟨t, []⟩ :: groups isBar t' rest))
        (pipelineLoop n (stage ++ t) false ('|' :: '|' :: render ⟨t', rest⟩))
      rw [pipelineLoop_bar hn hlast (by simp), hgroups]
      refine Stages.append ?_
      generalize hm : n + (keepStage (trimSpaces (stage ++ t))).length = m
      rcases Nat.lt_or_eq_of_le (show m ≤ maxPipelineStages by omega) with hlt | heq
      · -- the stage between the two `|` is empty
        rw [pipelineLoop_bar hlt (by simp) (head?_render htail (by decide))]
        exact hnext m (Nat.le_of_lt hlt)
      · exact Stages.full heq (stagesFrom_groups htail) ⟨'|', mem_cons_self, by decide⟩

theorem parsePipeline_render (h : l.Weak) :
    Stages 0 ((l.pieces isBar).map Line.render) (parsePipeline l.render) := by
  have hlast : ([] ++ l.first).getLast? ≠ some '&' := by
    intro e
    exact h.1.not_mem (by decide) (mem_of_getLast? e)
  have := pipelineLoop_render (n := 0) (by decide) (show Line.Weak ⟨l.first, l.rest⟩ from h) hlast
  rw [stagesFrom_nil_flatMap _ (groups_weak h)] at this
  rwa [pieces, map_flatMap]

/-! ## The test for `&&` and `||` -/

/-- The operators of the line. -/
def Line.ops (l : Line) : List Op := l.rest.map Prod.fst

/-- Before the first `||` there is a `|`. -/
def orAfterPipe : List Op → Bool
  | [] => true
  | .pipe :: _ => true
  | .or :: _ => false
  | _ :: ops => orAfterPipe ops

theorem position_eq_none : position hit t rest = none ↔ (rest.map Prod.fst).any hit = false := by
  induction rest generalizing t with
  | nil => simp [position, cut]
  | cons x rest ih =>
    rw [position_cons]
    split
    · next h => simp [h]
    · next h => simp [h, ih]

theorem orAfterPipe_of_no_or {ops : List Op} (h : ops.any (hits ['|', '|']) = false) :
    orAfterPipe ops = true := by
  induction ops with
  | nil => rfl
  | cons op ops ih =>
    rw [any_cons, Bool.or_eq_false_iff] at h
    cases op with
    | or => cases h.1
    | pipe => rfl
    | seq => exact ih h.2
    | and => exact ih h.2

theorem position_bar (h : Line.Weak ⟨t, rest⟩) {o : Nat}
    (ho : position (hits ['|', '|']) t rest = some o) :
    ∃ p, position (hits ['|']) t rest = some p ∧
      ((p = o ∨ p + 1 = o) ↔ orAfterPipe (rest.map Prod.fst) = false) := by
  induction rest generalizing t o with
  | nil => cases ho
  | cons x rest ih =>
    obtain ⟨op, t'⟩ := x
    have hskip : ∀ op, hits ['|', '|'] op = false → hits ['|'] op = false →
        orAfterPipe (op :: rest.map Prod.fst) = orAfterPipe (rest.map Prod.fst) →
        position (hits ['|', '|']) t ((op, t') :: rest) = some o →
        ∃ p, position (hits ['|']) t ((op, t') :: rest) = some p ∧
          ((p = o ∨ p + 1 = o) ↔ orAfterPipe (op :: rest.map Prod.fst) = false) := by
      intro op h2 h1 hops ho
      rw [position_cons, if_neg (by simp [h2])] at ho
      obtain ⟨o', ho', rfl⟩ := Option.map_eq_some_iff.mp ho
      obtain ⟨p, hp, hiff⟩ := ih h.tail.1 ho'
      rw [position_cons, if_neg (by simp [h1]), hp, hops, ← hiff]
      refine ⟨_, rfl, ?_⟩
      dsimp only
      omega
    cases op with
    | seq => exact hskip .seq rfl rfl rfl ho
    | and => exact hskip .and rfl rfl rfl ho
    | or =>
      rw [position_cons, if_pos (by rfl)] at ho
      rw [position_cons, if_pos (by rfl)]
      cases ho
      exact ⟨_, rfl, by simp [orAfterPipe]⟩
    | pipe =>
      rw [position_cons, if_neg (by decide)] at ho
      obtain ⟨o', ho', rfl⟩ := Option.map_eq_some_iff.mp ho
      rw [position_cons, if_pos (by rfl)]
      have hpos : 0 < o' := by
        -- the command between the two operators is not empty
        obtain ⟨r, hr, rfl⟩ := Option.map_eq_some_iff.mp ho'
        have hfirst := (cut_eq_some hr).first
        have hne := length_pos_iff.mpr h.tail.2.ne_nil
        rw [render, hfirst, length_append]
        exact Nat.lt_of_lt_of_le hne (Nat.le_add_right _ _)
      refine ⟨_, rfl, ?_⟩
      simp only [map_cons, orAfterPipe, Op.text, length_singleton, Bool.true_eq_false, iff_false]
      omega

theorem any_isCond (ops : List Op) :
    ops.any isCond = (ops.any (hits ['&', '&']) || ops.any (hits ['|', '|'])) := by
  induction ops with
  | nil => rfl
  | cons op ops ih =>
    rw [any_cons, any_cons, any_cons, ih]
    cases op <;> simp [isCond, hits, Op.text, isPrefixOf]

theorem isConditional_render (h : l.Weak) :
    isConditional l.render = (l.ops.any isCond && orAfterPipe l.ops) := by
  have hfind : ∀ pat ∈ patterns, strstrquoted l.render pat = position (hits pat) l.first l.rest :=
    fun pat hp => strstrquoted_render hp h
  rw [isConditional, hfind _ (by decide), hfind _ (by decide), hfind _ (by decide), any_isCond]
  cases ho : position (hits ['|', '|']) l.first l.rest with
  | none =>
    have hno := position_eq_none.mp ho
    rw [ops, hno, orAfterPipe_of_no_or hno, Bool.or_false, Bool.and_true]
    cases ha : position (hits ['&', '&']) l.first l.rest with
    | none => rw [position_eq_none.mp ha]
    | some a =>
      have hany : ¬(l.rest.map Prod.fst).any (hits ['&', '&']) = false := by
        intro e
        rw [position_eq_none.mpr e] at ha
        cases ha
      simpa using hany
  | some o =>
    obtain ⟨p, hp, hiff⟩ := position_bar h ho
    have hany : (l.rest.map Prod.fst).any (hits ['|', '|']) = true := by
      by_contra hno
      rw [position_eq_none.mpr (Bool.eq_false_iff.mpr hno)] at ho
      cases ho
    rw [hp, ops, hany, Bool.or_true, Bool.true_and]
    cases hops : orAfterPipe (l.rest.map Prod.fst) with
    | true =>
      have : ¬(p = o ∨ p + 1 = o) := fun e => Bool.false_ne_true ((hiff.mp e).symm.trans hops)
      simp [this]
    | false =>
      have : p = o ∨ p + 1 = o := hiff.mpr hops
      simp [this]

/-! ## Leading assignments -/

/-- The words with a `=` that a text begins with are gone, each with the blank behind it. -/
def dropFrom (hasEq : Bool) (start : CStr) : CStr → CStr
  | [] => start
  | c :: rest =>
    if c = ' ' then if hasEq then dropFrom false rest rest else start
    else dropFrom (hasEq || c = '=') start rest

/-- The command without its leading assignments. -/
def dropAssignments (t : CStr) : CStr := dropFrom false t t

theorem dropFrom_append (hp : ' ' ∉ p) (b : Bool) (start r : CStr) :
    dropFrom b start (p ++ r) = dropFrom (b || decide ('=' ∈ p)) start r := by
  induction p generalizing b with
  | nil => simp
  | cons c p ih =>
    have hc : c ≠ ' ' := fun e => hp (e ▸ mem_cons_self)
    rw [cons_append, dropFrom, if_neg hc, ih fun e => hp (mem_cons_of_mem _ e)]
    simp [Bool.or_assoc, eq_comm]

theorem dropAssignments_space (hp : ' ' ∉ p) (r : CStr) :
    dropAssignments (p ++ ' ' :: r) = if '=' ∈ p then dropAssignments r else p ++ ' ' :: r := by
  rw [dropAssignments, dropFrom_append hp, dropFrom]
  simp [dropAssignments]

theorem dropAssignments_no_space (hp : ' ' ∉ p) : dropAssignments p = p := by
  have := dropFrom_append hp false p []
  rw [append_nil] at this
  rw [dropAssignments, this, dropFrom]

theorem space_cases (t : CStr) : ' ' ∉ t ∨ ∃ p r, t = p ++ ' ' :: r ∧ ' ' ∉ p := by
  by_cases h : ' ' ∈ t
  · obtain ⟨p, r, he, hp⟩ := eq_append_cons_of_mem h
    exact .inr ⟨p, r, he, hp⟩
  · exact .inl h

theorem strstrquoted_space (hq : Plain p) (hp : ' ' ∉ p) :
    strstrquoted p [' '] = none ∧ ∀ r, strstrquoted (p ++ ' ' :: r) [' '] = some p.length := by
  have hplain : Plain [' '] := by decide
  have hscan : ∀ i, findFrom [' '] Scan.start i p = none ∧
    Scan.start.over [' '] p = Scan.start := by
    induction p with
    | nil => exact fun i => ⟨rfl, rfl⟩
    | cons c p ih =>
      intro i
      have hc : c ≠ ' ' := fun e => hp (e ▸ mem_cons_self)
      have hstep : Scan.start.step [' '] c = Scan.start := by
        rw [Scan.start, Scan.step_plain (hq c mem_cons_self)]
        simp [Ne.symm hc]
      have ih := ih (fun d hd => hq d (mem_cons_of_mem _ hd))
        (fun e => hp (mem_cons_of_mem _ e)) (i + 1)
      rw [findFrom, Scan.over_cons, hstep, if_neg (by decide)]
      exact ih
  refine ⟨?_, fun r => ?_⟩
  · rw [strstrquoted_eq_findFrom hplain (cons_ne_nil _ _), (hscan 0).1]
  · rw [strstrquoted_eq_findFrom hplain (cons_ne_nil _ _)]
    have := findFrom_found hplain (cons_ne_nil _ _) (hscan 0).1 (hscan 0).2 r
    simpa using this

theorem assignmentLoop_eq (hq : Plain t) (hf : t.length < fuel) :
    (assignmentLoop fuel t).2 = dropAssignments t := by
  induction fuel generalizing t with
  | zero => omega
  | succ fuel ih =>
    rcases space_cases t with hs | ⟨p, r, rfl, hp⟩
    · rw [assignmentLoop, (strstrquoted_space hq hs).1, dropAssignments_no_space hs]
    · have hq' : Plain p := fun c hc => hq c (mem_append_left _ hc)
      have hr : Plain r := fun c hc => hq c (mem_append_right _ (mem_cons_of_mem _ hc))
      simp only [length_append, length_cons] at hf
      have hdrop : (p ++ ' ' :: r).drop (p.length + 1) = r := by simp
      rw [assignmentLoop, (strstrquoted_space hq' hp).2, dropAssignments_space hp]
      simp only [take_left, hdrop]
      split
      · exact ih hr (by omega)
      · rfl

theorem stripAssignments_eq (hq : Plain t) : (stripAssignments t).2 = dropAssignments t :=
  assignmentLoop_eq hq (Nat.lt_succ_self _)

theorem dropAssignments_cases (t : CStr) :
    dropAssignments t = t ∨ ∃ p, t = p ++ ' ' :: dropAssignments t := by
  induction hn : t.length using Nat.strongRecOn generalizing t with
  | _ n ih =>
    rcases space_cases t with hs | ⟨p, r, rfl, hp⟩
    · exact .inl (dropAssignments_no_space hs)
    · rw [dropAssignments_space hp]
      split
      · have hlt : r.length < n := by
          rw [← hn, length_append, length_cons]
          omega
        rcases ih _ hlt r rfl with e | ⟨q, e⟩
        · exact .inr ⟨p, by rw [e]⟩
        · exact .inr ⟨p ++ ' ' :: q, by rw [append_assoc, cons_append, ← e]⟩
      · exact .inl rfl

theorem dropAssignments_suffix (t : CStr) : dropAssignments t <:+ t := by
  rcases dropAssignments_cases t with e | ⟨p, e⟩
  · exact ⟨[], e⟩
  · exact ⟨p ++ [' '], by rw [append_assoc]; exact e.symm⟩

/--
`dropFrom` on a line: a word goes on over an operator when there is no blank before it. `start` is
the line from the beginning of the word on.
-/
def unassignedFrom (hasEq : Bool) (start : Line) : CStr → List (Op × CStr) → Line
  | [], [] => start
  | [], (_, t) :: rest => unassignedFrom hasEq start t rest
  | c :: first, rest =>
    if c = ' ' then if hasEq then unassignedFrom false ⟨first, rest⟩ first rest else start
    else unassignedFrom (hasEq || c = '=') start first rest
termination_by first rest => (rest.length, first.length)

/-- What the assignment loop leaves of a line. -/
def Line.unassigned (l : Line) : Line := unassignedFrom false l l.first l.rest

section

variable {b : Bool} {start : Line}

theorem dropFrom_render : dropFrom b start.render (Line.render ⟨t, rest⟩)
    = (unassignedFrom b start t rest).render := by
  fun_induction unassignedFrom b start t rest with
  | case1 => rfl
  | case2 b start op t rest ih =>
    have hop : ' ' ∉ op.text ∧ '=' ∉ op.text := by cases op <;> decide
    have hrender : Line.render ⟨[], (op, t) :: rest⟩ = op.text ++ Line.render ⟨t, rest⟩ := by
      simp [render]
    rw [hrender, dropFrom_append hop.1, ← ih]
    simp [hop.2]
  | case3 start first rest ih => exact ih
  | case4 b start first rest hb => simp [render, dropFrom, hb]
  | case5 b start c first rest hc ih =>
    rw [← ih]
    exact if_neg hc

theorem unassignedFrom_weak (hstart : start.Weak) (h : Line.Weak ⟨t, rest⟩) :
    (unassignedFrom b start t rest).Weak := by
  fun_induction unassignedFrom b start t rest with
  | case1 => exact hstart
  | case2 b start op t rest ih => exact ih hstart h.tail.1
  | case3 start first rest ih =>
    have hfirst : Line.Weak ⟨first, rest⟩ := ⟨fun c hc => h.1 c (mem_cons_of_mem _ hc), h.2⟩
    exact ih hfirst hfirst
  | case4 => exact hstart
  | case5 b start c first rest hc ih =>
    exact ih hstart ⟨fun c hc => h.1 c (mem_cons_of_mem _ hc), h.2⟩

theorem unassignedFrom_eq_or : unassignedFrom b start t rest = start ∨
    (unassignedFrom b start t rest).rest.length ≤ rest.length := by
  fun_induction unassignedFrom b start t rest with
  | case1 => exact .inl rfl
  | case2 b start op t rest ih => exact ih.imp_right Nat.le_succ_of_le
  | case3 start first rest ih =>
    exact .inr (ih.elim (fun e => Nat.le_of_eq (congrArg (·.rest.length) e)) id)
  | case4 => exact .inl rfl
  | case5 b start c first rest hc ih => exact ih

theorem unassignedFrom_first {first : CStr} :
    unassignedFrom b ⟨first, rest⟩ t rest = ⟨dropFrom b first t, rest⟩ ∨
      (unassignedFrom b ⟨first, rest⟩ t rest).rest.length < rest.length := by
  induction t generalizing b first with
  | nil =>
    cases rest with
    | nil => exact .inl (by rw [unassignedFrom, dropFrom])
    | cons x rest =>
      rw [unassignedFrom]
      exact unassignedFrom_eq_or.imp id Nat.lt_succ_of_le
  | cons c t ih =>
    rw [unassignedFrom, dropFrom]
    split
    · split
      · exact ih
      · exact .inl rfl
    · exact ih

end

/--
What the assignment loop leaves of a line: it stays within the first simple command, or it has
taken an operator with it.
-/
theorem dropAssignments_render (h : l.Weak) :
    l.unassigned.Weak ∧ dropAssignments l.render = l.unassigned.render ∧
      (l.unassigned = ⟨dropAssignments l.first, l.rest⟩ ∨
        l.unassigned.rest.length < l.rest.length) :=
  ⟨unassignedFrom_weak h h, dropFrom_render, unassignedFrom_first⟩

/-! ## One call of `ios_system` -/

theorem contains_head {text pat : CStr} {c : Char} (h : contains text (c :: pat) = true) :
    c ∈ text := by
  induction text with
  | nil => cases h
  | cons d text ih =>
    rw [contains, Bool.or_eq_true] at h
    rcases h with h | h
    · rw [isPrefixOf, Bool.and_eq_true, beq_iff_eq] at h
      exact h.1 ▸ mem_cons_self
    · exact mem_cons_of_mem _ (ih h)

theorem expand_plain {text : CStr} (hd : '$' ∉ text) (hb : '`' ∉ text) (f : CStr → CStr)
    (fuel : Nat) : expandSubstitutions f (fuel + 1) text = some ([], text) := by
  rw [expandSubstitutions, if_pos]
  refine ⟨?_, hb⟩
  by_contra h
  exact hd (contains_head ((Bool.not_eq_false _).mp h))

theorem front_render (env : Env) (h : l.Weak) : env.front l.render = dropAssignments l.render := by
  have hno : ∀ c, c ≠ ' ' ∧ isWordChar c = false → c ∉ [';', '&', '|'] → c ∉ l.render :=
    fun c hc hop => not_mem_render h hc hop
  have hquote : stripQuote l.render = l.render := by
    cases hr : l.render with
    | nil => rfl
    | cons c r =>
      have hc : c ≠ '"' := fun e => hno '"' (by decide) (by decide) (by rw [hr, e]; simp)
      rw [stripQuote, if_neg fun e => hc e.1]
  have hparen : stripParen l.render = l.render := by
    cases hr : l.render with
    | nil => rfl
    | cons c r =>
      have hc : c ≠ '(' := fun e => hno '(' (by decide) (by decide) (by rw [hr, e]; simp)
      rw [stripParen, if_neg hc]
  have hq : Plain l.render := by
    intro c hc
    refine ⟨?_, ?_, ?_⟩ <;>
    · rintro rfl
      exact hno _ (by decide) (by decide) hc
  rw [Env.front, hquote, hparen, stripAssignments_eq hq]
  have hdollar : '$' ∉ dropAssignments l.render := fun e =>
    hno '$' (by decide) (by decide) ((dropAssignments_suffix _).subset e)
  cases hr : dropAssignments l.render with
  | nil => rfl
  | cons c r => rw [Env.variableCommand, if_neg fun e => hdollar (by rw [hr, e]; simp)]

def Env.NoAliases (env : Env) : Prop := ∀ name, env.aliases name = none

variable {env : Env}

theorem expandAlias_none (h : env.NoAliases) (command : CStr) :
    env.expandAlias command = command := by
  rw [Env.expandAlias]
  split
  · rfl
  · simp [h _]

/-- How the code takes a line apart, by its operators. -/
def Line.split (run : Line → Plan) (l : Line) : Plan :=
  if l.ops.any isSeq then .sequential l.render ((l.pieces isSeq).map run)
  else if l.ops.any isCond && orAfterPipe l.ops then
    .conditional l.render (l.nodes.map Prod.snd) (l.nodes.map fun x => run x.1)
  else if l.ops.any isBar then
    if (l.pieces isBar).length ≤ maxPipelineStages then
      .pipeline l.render false ((l.pieces isBar).map run)
    else .overflow l.render
  else .command l.render

/-- One call of `ios_system` for the line. -/
def Line.act (run : CStr → Plan) (l : Line) : Plan := l.split fun g => run g.render

theorem isSome_strstrquoted {pat : CStr} (hp : pat ∈ patterns) (h : l.Weak) :
    (strstrquoted l.render pat).isSome = l.ops.any (hits pat) := by
  rw [strstrquoted_render hp h]
  show (position (hits pat) l.first l.rest).isSome = _
  cases hpos : position (hits pat) l.first l.rest with
  | none => exact (position_eq_none.mp hpos).symm
  | some i =>
    symm
    by_contra hno
    rw [position_eq_none.mpr (Bool.eq_false_iff.mpr hno)] at hpos
    cases hpos

theorem action_render (he : env.NoAliases) (h : l.Weak) (run : CStr → Plan) :
    (env.action l.render).plan run = l.act run := by
  rw [Env.action, isSome_strstrquoted (by decide) h, isConditional_render h, expandAlias_none he]
  dsimp only
  rw [isSome_strstrquoted (by decide) h, hits_semicolon, hits_bar, act, Line.split,
    parseSemicolons_render h, parseConditionals_render h]
  split
  · simp [Action.plan]
  · split
    · simp [Action.plan]
    · split
      · obtain ⟨hshare, hfit, hover⟩ := parsePipeline_render h
        rw [length_map, Nat.zero_add] at hfit hover
        rw [Nat.zero_add] at hover
        split
        · next hle =>
          rw [Action.plan, hshare, hfit hle, length_map, if_pos hle]
          simp
        · next hlt => rw [Action.plan, if_neg (Nat.not_le.mpr (hover (Nat.not_le.mp hlt)))]
      · rfl

theorem plan_render (he : env.NoAliases) {x : Line} (h : l.Weak) (hx : x.Weak)
    (hdrop : dropAssignments l.render = x.render) (fuel : Nat) :
    env.plan (fuel + 2) l.render = x.act (env.plan (fuel + 1)) := by
  have hno : ∀ c, c ≠ ' ' ∧ isWordChar c = false → c ∉ [';', '&', '|'] → c ∉ x.render :=
    fun c hc hop => not_mem_render hx hc hop
  rw [Env.plan, front_render env h, hdrop,
    expand_plain (hno _ (by decide) (by decide)) (hno _ (by decide) (by decide))]
  exact action_render he hx _

end IosSystem.Shell
