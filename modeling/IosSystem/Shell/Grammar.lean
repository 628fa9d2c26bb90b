import IosSystem.Shell.Parse
import Mathlib.Algebra.Order.BigOperators.Group.List
import Mathlib.Algebra.Order.Ring.Nat
import Mathlib.Data.List.Forall2

/-!
# Operator precedence

The grammar of a command line: `;` binds loosest, then `&&` and `||`, then `|`. `Follows` says that
the calls of `ios_system` for a line are those of the grammar, one level after the other.

The code follows the grammar for some lines only: a `||` with no pipe before it is taken for a pipe,
the assignment loop takes a word that reaches over an operator, such as `A=1;b` in `A=1;b c`, and a
pipeline may have more than 32 stages. `Line.Ok` says that none of these occurs, and it is exact.
One direction builds the tree of calls (`plan_line`). The other counts commands (`ok_of_follows`): a
line out of which the assignment loop has taken an operator starts fewer commands than it has.
-/

namespace IosSystem.Shell

open List Function Line

/-! ## The grammar -/

/-- The words of a simple command; `word` has been read of the first. -/
def wordsFrom (word : CStr) : CStr → List CStr
  | [] => if word = [] then [] else [word]
  | c :: rest =>
    if c = ' ' then (if word = [] then [] else [word]) ++ wordsFrom [] rest
    else wordsFrom (word ++ [c]) rest

/-- The words between the blanks. -/
def words (t : CStr) : List CStr := wordsFrom [] t

/-- `c` has the words of `t`, but for assignments at the front. -/
def Runs (c t : CStr) : Prop :=
  ∃ k, (∀ w ∈ (words t).take k, '=' ∈ w) ∧ words c = (words t).drop k

/-- The call runs the words of the simple command. -/
def FollowsSimple (p : Plan) (t : CStr) : Prop := ∃ c, p = .command c ∧ Runs c t

def Line.simples (l : Line) : List CStr := l.first :: l.rest.map Prod.snd

/-- For a line without `;`, `&&` and `||`. -/
def FollowsPipeline (p : Plan) (l : Line) : Prop :=
  if l.rest = [] then FollowsSimple p l.first
  else
    ∃ text stages, p = .pipeline text false stages ∧ contains text ['|', '|'] = false ∧
      List.Forall₂ FollowsSimple stages l.simples

/-- For a line without `;`. -/
def FollowsAndOr (p : Plan) (l : Line) : Prop :=
  if l.ops.any isCond then
    ∃ text nodes, p = .conditional text ((seps isCond l.rest).map Op.cond ++ [.none]) nodes ∧
      List.Forall₂ FollowsPipeline nodes (groups isCond l.first l.rest)
  else FollowsPipeline p l

/-- The calls are those of the grammar: `;`, then `&&` and `||`, then `|`. -/
def Follows (p : Plan) (l : Line) : Prop :=
  if l.ops.any isSeq then
    ∃ text segments, p = .sequential text segments ∧
      List.Forall₂ FollowsAndOr segments (groups isSeq l.first l.rest)
  else FollowsAndOr p l

/-- A line without an empty command. -/
structure CommandLine extends Line where
  wf : toLine.Wf

/-! ## The lines for which it holds -/

/-- The line without the assignments before its first command. -/
def Line.left (l : Line) : Line := ⟨dropAssignments l.first, l.rest⟩

/--
The leading assignments end within the first simple command and leave something of it, however far
the words that the loop looks at reach.
-/
def Line.Keeps (l : Line) : Prop :=
  Nonblank l.left.first ∧ dropAssignments l.render = l.left.render

def Line.PipelineOk (l : Line) : Prop :=
  l.rest = [] ∨ l.Keeps ∧ l.rest.length < maxPipelineStages

def Line.AndOrOk (l : Line) : Prop :=
  if l.ops.any isCond then
    l.Keeps ∧ orAfterPipe l.ops = true ∧
      ∀ g ∈ groups isCond l.left.first l.left.rest, g.trim.PipelineOk
  else l.PipelineOk

/-- The lines that `ios_system` takes apart by the grammar. -/
def Line.Ok (l : Line) : Prop :=
  if l.ops.any isSeq then
    l.Keeps ∧ ∀ g ∈ groups isSeq l.left.first l.left.rest, g.trim.AndOrOk
  else l.AndOrOk

/-! ## Words -/

theorem wordsFrom_space (word p r : CStr) :
    wordsFrom word (p ++ ' ' :: r) = wordsFrom word p ++ words r := by
  induction p generalizing word with
  | nil => simp [wordsFrom, words]
  | cons c p ih =>
    rw [cons_append, wordsFrom, wordsFrom]
    split
    · rw [ih, append_assoc]
    · exact ih _

theorem words_space (p r : CStr) : words (p ++ ' ' :: r) = words p ++ words r :=
  wordsFrom_space [] p r

theorem wordsFrom_no_space {word p : CStr} (hp : ' ' ∉ p) :
    wordsFrom word p = if word ++ p = [] then [] else [word ++ p] := by
  induction p generalizing word with
  | nil => simp [wordsFrom]
  | cons c p ih =>
    have hc : c ≠ ' ' := fun e => hp (e ▸ mem_cons_self)
    rw [wordsFrom, if_neg hc, ih fun e => hp (mem_cons_of_mem _ e)]
    simp

theorem words_dropSpaces (t : CStr) : words (dropSpaces t) = words t := by
  induction t with
  | nil => rfl
  | cons c t ih =>
    by_cases hc : c = ' '
    · subst hc
      exact ih.trans (words_space [] t).symm
    · simp [dropSpaces, hc]

theorem trimEnd_space (t : CStr) : trimEnd (t ++ [' ']) = trimEnd t := by
  simp [trimEnd, dropSpaces]

theorem words_trimEnd (t : CStr) : words (trimEnd t) = words t := by
  induction t using reverseRecOn with
  | nil => rfl
  | append_singleton t c ih =>
    by_cases hc : c = ' '
    · rw [hc, trimEnd_space, ih]
      exact (append_nil _).symm.trans (words_space t []).symm
    · have : trimEnd (t ++ [c]) = t ++ [c] := by simp [trimEnd, dropSpaces, hc]
      rw [this]

theorem Runs.refl (t : CStr) : Runs t t := ⟨0, by simp, by simp⟩

variable {t : CStr} {hit : Op → Bool} {rest : List (Op × CStr)} {l : Line} {p : Plan} {fuel : Nat}

theorem Runs.of_words {c : CStr} (h : words c = words t) : Runs c t := ⟨0, by simp, by simpa⟩

theorem Runs.trans {a b c : CStr} (h : Runs a b) (h' : Runs b c) : Runs a c := by
  obtain ⟨i, hi, ha⟩ := h
  obtain ⟨j, hj, hb⟩ := h'
  refine ⟨j + i, ?_, ?_⟩
  · intro w hw
    rw [take_add] at hw
    rcases mem_append.mp hw with hw | hw
    · exact hj w hw
    · exact hi w (hb ▸ hw)
  · rw [ha, hb, drop_drop]

theorem runs_dropAssignments (t : CStr) : Runs (dropAssignments t) t := by
  induction hn : t.length using Nat.strongRecOn generalizing t with
  | _ n ih =>
    rcases space_cases t with hs | ⟨p, r, rfl, hp⟩
    · rw [dropAssignments_no_space hs]
      exact Runs.refl t
    · rw [dropAssignments_space hp]
      split
      · next heq =>
        have hlt : r.length < n := by
          rw [← hn, length_append, length_cons]
          omega
        have hword : words p = [p] := by
          rw [words, wordsFrom_no_space hp, nil_append, if_neg (ne_nil_of_mem heq)]
        -- one more word is an assignment
        refine (ih _ hlt r rfl).trans ⟨1, ?_, ?_⟩
        · intro w hw
          rw [words_space, hword, cons_append, take_succ_cons, take_zero, mem_singleton] at hw
          exact hw ▸ heq
        · rw [words_space, hword]
          rfl
      · exact Runs.refl _

/-! ## Lines that differ in their words only -/

def LineRel (R : CStr → CStr → Prop) (a b : Line) : Prop :=
  R a.first b.first ∧ List.Forall₂ (fun x y => x.1 = y.1 ∧ R x.2 y.2) a.rest b.rest

section

variable {R S : CStr → CStr → Prop} {a b c : Line}

theorem LineRel.ops (h : LineRel R a b) : a.ops = b.ops := by
  obtain ⟨_, h⟩ := h
  rw [Line.ops, Line.ops]
  generalize a.rest = as, b.rest = bs at h
  induction h with
  | nil => rfl
  | cons hx _ ih => rw [map_cons, map_cons, hx.1, ih]

theorem LineRel.mono (hRS : ∀ x y, R x y → S x y) (h : LineRel R a b) : LineRel S a b :=
  ⟨hRS _ _ h.1, h.2.imp fun _ _ hxy => ⟨hxy.1, hRS _ _ hxy.2⟩⟩

theorem LineRel.trans (hR : ∀ x y z, R x y → R y z → R x z) (h : LineRel R a b)
    (h' : LineRel R b c) : LineRel R a c := by
  refine ⟨hR _ _ _ h.1 h'.1, ?_⟩
  obtain ⟨_, h⟩ := h
  obtain ⟨_, h'⟩ := h'
  generalize a.rest = as, b.rest = bs, c.rest = cs at h h'
  induction h generalizing cs with
  | nil =>
    cases h'
    exact .nil
  | cons hx _ ih =>
    cases h' with
    | cons hy hys => exact .cons ⟨hx.1.trans hy.1, hR _ _ _ hx.2 hy.2⟩ (ih _ hys)

theorem LineRel.rest_eq_nil (h : LineRel R a b) : a.rest = [] ↔ b.rest = [] := by
  have := h.2.length_eq
  rw [← length_eq_zero_iff, ← length_eq_zero_iff, this]

theorem LineRel.simples (h : LineRel R a b) : List.Forall₂ R a.simples b.simples := by
  obtain ⟨hfirst, h⟩ := h
  refine .cons hfirst ?_
  generalize a.rest = as, b.rest = bs at h
  induction h with
  | nil => exact .nil
  | cons hx _ ih => exact .cons hx.2 ih

theorem LineRel.groups (hit : Op → Bool) (h : LineRel R a b) :
    List.Forall₂ (LineRel R) (groups hit a.first a.rest) (groups hit b.first b.rest) := by
  obtain ⟨hfirst, h⟩ := h
  generalize a.first = ta, b.first = tb, a.rest = as, b.rest = bs at hfirst h
  induction h generalizing ta tb with
  | nil => exact .cons ⟨hfirst, .nil⟩ .nil
  | @cons x y as bs hx _ ih =>
    have ih := ih x.2 y.2 hx.2
    rw [Shell.groups, Shell.groups, hx.1]
    split
    · exact .cons ⟨hfirst, .nil⟩ ih
    · generalize Shell.groups hit x.2 as = ga, Shell.groups hit y.2 bs = gb at ih
      cases ih with
      | nil => exact .nil
      | cons hg hgs => exact .cons ⟨hfirst, .cons ⟨rfl, hg.1⟩ hg.2⟩ hgs

end

theorem trimRest_rel (rest : List (Op × CStr)) :
    List.Forall₂ (fun x y => x.1 = y.1 ∧ Runs x.2 y.2) (trimRest rest) rest := by
  induction rest with
  | nil => exact .nil
  | cons x rest ih =>
    cases rest with
    | nil => exact .cons ⟨rfl, Runs.of_words (words_trimEnd x.2)⟩ .nil
    | cons y rest => exact .cons ⟨rfl, Runs.refl _⟩ ih

theorem trim_rel (l : Line) : LineRel Runs l.trim l := by
  rw [trim]
  split
  · next h =>
    refine ⟨Runs.of_words ((words_trimEnd _).trans (words_dropSpaces _)), ?_⟩
    rw [h]
    exact .nil
  · exact ⟨Runs.of_words (words_dropSpaces _), trimRest_rel _⟩

theorem left_rel (l : Line) : LineRel Runs l.left l :=
  ⟨runs_dropAssignments l.first, forall₂_same.mpr fun _ _ => ⟨rfl, Runs.refl _⟩⟩

/-! ## The pieces of a line whose commands all have a word -/

theorem groups_wf (h : Line.Wf ⟨t, rest⟩) : ∀ g ∈ groups hit t rest, g.Wf := by
  intro g hg
  obtain ⟨hweak, hfirst⟩ := groups_simple t rest g hg h.1
  exact ⟨hweak, hfirst h.2⟩

theorem flatMap_kept {gs : List Line} (h : ∀ g ∈ gs, g.Wf) :
    gs.flatMap Line.kept = gs.map Line.trim := by
  induction gs with
  | nil => rfl
  | cons g gs ih =>
    rw [flatMap_cons, ih fun g hg => h g (mem_cons_of_mem _ hg), kept,
      if_neg (h g mem_cons_self).not_blank]
    rfl

theorem pieces_wf (h : l.Wf) : l.pieces hit = (groups hit l.first l.rest).map Line.trim :=
  flatMap_kept (groups_wf h)

theorem groups_length (hit : Op → Bool) (t : CStr) (rest : List (Op × CStr)) :
    (groups hit t rest).length = (seps hit rest).length + 1 := by
  induction rest generalizing t with
  | nil => rfl
  | cons x rest ih =>
    obtain ⟨op, t'⟩ := x
    have ih := ih t'
    rw [groups, seps, map_cons]
    cases hop : hit op with
    | true =>
      rw [if_pos rfl, filter_cons_of_pos hop, length_cons, ih]
      rfl
    | false =>
      rw [if_neg Bool.false_ne_true, filter_cons_of_neg (by simp [hop])]
      cases hg : groups hit t' rest with
      | nil => exact absurd hg (groups_ne_nil hit t' rest)
      | cons g gs => rw [hg] at ih; exact ih

theorem zip_flatMap_kept {gs : List Line} {ops : List CondOp} (h : ∀ g ∈ gs, g.Wf) :
    (gs.zip ops).flatMap (fun x => x.1.kept.map (·, x.2)) = (gs.map Line.trim).zip ops := by
  induction gs generalizing ops with
  | nil => rfl
  | cons g gs ih =>
    cases ops with
    | nil => rfl
    | cons op ops =>
      rw [zip_cons_cons, flatMap_cons, ih fun g hg => h g (mem_cons_of_mem _ hg),
        kept, if_neg (h g mem_cons_self).not_blank]
      rfl

theorem nodes_wf (h : l.Wf) :
    l.nodes = ((groups isCond l.first l.rest).map Line.trim).zip
      ((seps isCond l.rest).map Op.cond ++ [.none]) :=
  zip_flatMap_kept (groups_wf h)

theorem nodes_wf_fst (h : l.Wf) :
    l.nodes.map Prod.fst = (groups isCond l.first l.rest).map Line.trim := by
  rw [nodes_wf h, map_fst_zip]
  simp [groups_length]

theorem nodes_wf_snd (h : l.Wf) :
    l.nodes.map Prod.snd = (seps isCond l.rest).map Op.cond ++ [.none] := by
  rw [nodes_wf h, map_snd_zip]
  simp [groups_length]

theorem groups_ops :
    ∀ g ∈ groups hit t rest, ∀ op ∈ g.ops, hit op = false ∧ op ∈ rest.map Prod.fst := by
  refine groups_rule (P := fun _ rest g => ∀ op ∈ g.ops,
    hit op = false ∧ op ∈ rest.map Prod.fst) ?_ ?_ ?_ t rest
  · intro t rest op hop
    cases hop
  · intro t x rest g ih op hop
    exact ⟨(ih op hop).1, mem_cons_of_mem _ (ih op hop).2⟩
  · intro t x rest g hx ih op hop
    rcases mem_cons.mp hop with rfl | hop
    · exact ⟨hx, mem_cons_self⟩
    · exact ⟨(ih op hop).1, mem_cons_of_mem _ (ih op hop).2⟩

theorem groups_pipe (h : ∀ op ∈ rest.map Prod.fst, op = .pipe) :
    groups isBar t rest = (Line.simples ⟨t, rest⟩).map (⟨·, []⟩) := by
  induction rest generalizing t with
  | nil => rfl
  | cons x rest ih =>
    obtain ⟨op, t'⟩ := x
    obtain rfl : op = .pipe := h op mem_cons_self
    rw [groups, if_pos (by rfl), ih fun op hop => h op (mem_cons_of_mem _ hop)]
    rfl

theorem contains_skip (h : '|' ∉ t) (r : CStr) :
    contains (t ++ r) ['|', '|'] = contains r ['|', '|'] := by
  induction t with
  | nil => rfl
  | cons c t ih =>
    have hc : '|' ≠ c := fun e => h (e ▸ mem_cons_self)
    rw [cons_append, contains, ih fun e => h (mem_cons_of_mem _ e)]
    simp [hc]

theorem contains_render (h : Line.Weak ⟨t, rest⟩) (hop : ∀ op ∈ rest.map Prod.fst, op = .pipe) :
    contains (Line.render ⟨t, rest⟩) ['|', '|'] = false := by
  induction rest generalizing t with
  | nil => rw [render, contains_skip (h.1.not_mem (by decide))]; rfl
  | cons x rest ih =>
    have htail := h.tail
    have ih := ih htail.1 fun op ho => hop op (mem_cons_of_mem _ ho)
    have hhead := head?_render htail (c := '|') (by decide)
    have hrender : render ⟨t, x :: rest⟩ = t ++ '|' :: render ⟨x.2, rest⟩ := by
      simp [render, hop x.1 mem_cons_self, Op.text]
    rw [hrender, contains_skip (h.1.not_mem (by decide)), contains, ih]
    cases hr : render ⟨x.2, rest⟩ with
    | nil => rfl
    | cons c r =>
      rw [hr] at hhead
      have hc : '|' ≠ c := fun e => hhead (e ▸ rfl)
      simp [isPrefixOf, hc]

/-! ## Counting commands -/

mutual

/-- The number of commands. -/
def Plan.leaves : Plan → Nat
  | .unfinished => 0
  | .sequential _ segments => Plan.leavesAll segments
  | .conditional _ _ nodes => Plan.leavesAll nodes
  | .pipeline _ _ stages => Plan.leavesAll stages
  | .overflow _ => 0
  | .command _ => 1

def Plan.leavesAll : List Plan → Nat
  | [] => 0
  | p :: ps => p.leaves + Plan.leavesAll ps

end

theorem leavesAll_eq_sum (ps : List Plan) : Plan.leavesAll ps = (ps.map Plan.leaves).sum := by
  induction ps with
  | nil => rfl
  | cons p ps ih => rw [Plan.leavesAll, ih, map_cons, sum_cons]

def Line.count (l : Line) : Nat := (if Nonblank l.first then 1 else 0) + l.rest.length

theorem count_groups (h : Line.Weak ⟨t, rest⟩) :
    ((groups hit t rest).map Line.count).sum = Line.count ⟨t, rest⟩ := by
  induction rest generalizing t with
  | nil => simp [groups]
  | cons x rest ih =>
    obtain ⟨op, t'⟩ := x
    have htail := h.tail
    have ih := ih htail.1
    rw [Line.count, if_pos htail.2] at ih
    rw [groups]
    split
    · rw [map_cons, sum_cons, ih]
      simp only [Line.count, length_nil, length_cons]
      omega
    · obtain ⟨r, gs, hg⟩ := groups_first hit t' rest
      rw [hg, map_cons, sum_cons, Line.count, if_pos htail.2] at ih
      rw [hg, map_cons, sum_cons]
      simp only [Line.count, length_cons] at ih ⊢
      omega

theorem nonblank_trim (l : Line) : Nonblank l.trim.first ↔ Nonblank l.first := by
  rw [trim]
  split
  · exact nonblank_trimEnd.trans nonblank_dropSpaces
  · exact nonblank_dropSpaces

theorem count_trim (l : Line) : l.trim.count = l.count := by
  have hlen := (trim_rel l).2.length_eq
  simp [Line.count, nonblank_trim, hlen]

theorem count_kept (g : Line) : (g.kept.map fun g => max 1 g.count).sum = g.count := by
  rw [Line.kept]
  split
  · next hb => simp [Line.count, hb.1, hb.2]
  · next hb =>
    rw [map_singleton, sum_singleton, count_trim]
    by_contra hlt
    refine hb ⟨length_eq_zero_iff.mp ?_, fun hn => ?_⟩
    · rw [Line.count] at hlt
      omega
    · rw [Line.count, if_pos hn] at hlt
      omega

theorem sum_flatMap_kept (gs : List Line) :
    ((gs.flatMap Line.kept).map fun g => max 1 g.count).sum = (gs.map Line.count).sum := by
  induction gs with
  | nil => rfl
  | cons g gs ih =>
    rw [flatMap_cons, map_append, sum_append, ih, count_kept, map_cons, sum_cons]

theorem count_pieces (hit : Op → Bool) (h : l.Weak) :
    ((l.pieces hit).map fun g => max 1 g.count).sum = l.count := by
  rw [pieces, sum_flatMap_kept, count_groups h]

theorem pieces_weak (h : l.Weak) : ∀ g ∈ l.pieces hit, g.Weak := by
  intro g hg
  obtain ⟨g', hg', hk⟩ := mem_flatMap.mp hg
  rw [kept] at hk
  split at hk
  · cases hk
  · exact mem_singleton.mp hk ▸ (groups_weak h g' hg').trim

theorem zip_flatMap_fst (gs : List Line) (ops : List CondOp) (h : gs.length = ops.length) :
    ((gs.zip ops).flatMap fun x => x.1.kept.map (·, x.2)).map Prod.fst = gs.flatMap Line.kept := by
  induction gs generalizing ops with
  | nil => rfl
  | cons g gs ih =>
    cases ops with
    | nil => cases h
    | cons op ops =>
      rw [zip_cons_cons, flatMap_cons, map_append, ih ops (Nat.succ.inj h)]
      simp [comp_def]

theorem nodes_fst (l : Line) : l.nodes.map Prod.fst = l.pieces isCond :=
  zip_flatMap_fst _ _ (by simp [groups_length])

def AtMost (run : CStr → Plan) : Prop :=
  ∀ l : Line, l.Weak → (run l.render).leaves ≤ max 1 l.count

theorem leaves_pieces {run : CStr → Plan} (hrun : AtMost run)
    (h : l.Weak) : Plan.leavesAll ((l.pieces hit).map fun g => run g.render) ≤ l.count := by
  rw [leavesAll_eq_sum, ← count_pieces hit h, map_map]
  refine sum_le_sum ?_
  intro g hg
  exact hrun g (pieces_weak h g hg)

theorem leaves_act {run : CStr → Plan} (hrun : AtMost run) (h : l.Weak) :
    (l.act run).leaves ≤ max 1 l.count := by
  rw [act, Line.split]
  split
  · exact le_max_of_le_right (leaves_pieces hrun h)
  · split
    · have hnodes : (l.nodes.map fun x => run x.1.render)
          = (l.pieces isCond).map fun g => run g.render := by
        rw [← nodes_fst, map_map]
        rfl
      rw [hnodes]
      exact le_max_of_le_right (leaves_pieces hrun h)
    · split
      · split
        · exact le_max_of_le_right (leaves_pieces hrun h)
        · exact Nat.zero_le _
      · exact le_max_left _ _

theorem count_left_le {x : Line}
    (hx : x = l.left ∨ x.rest.length < l.rest.length) : x.count ≤ l.count := by
  rcases hx with rfl | hlt
  · have hsub : Nonblank l.left.first → Nonblank l.first := fun ⟨c, hc, hne⟩ =>
      ⟨c, (dropAssignments_suffix _).subset hc, hne⟩
    rw [Line.count, Line.count]
    by_cases hb : Nonblank l.left.first
    · rw [if_pos hb, if_pos (hsub hb)]
      exact Nat.le_refl _
    · rw [if_neg hb, Nat.zero_add]
      exact Nat.le_add_left _ _
  · rw [Line.count, Line.count]
    split <;> omega

theorem atMost_plan {env : Env} (he : env.NoAliases) (fuel : Nat) : AtMost (env.plan fuel) := by
  induction fuel with
  | zero => exact fun l _ => Nat.zero_le _
  | succ fuel ih =>
    intro l h
    cases fuel with
    | zero => exact Nat.zero_le _
    | succ fuel =>
      obtain ⟨hx, hdrop, hcase⟩ := dropAssignments_render h
      rw [plan_render he h hx hdrop]
      have := leaves_act ih hx
      have := count_left_le hcase
      omega

/-! ## The code follows the grammar on good lines -/

theorem Line.Keeps.wf (h : l.Weak) (hk : l.Keeps) : l.left.Wf :=
  ⟨⟨fun c hc => h.1 c ((dropAssignments_suffix _).subset hc), h.2⟩, hk.1⟩

theorem eq_pipe {op : Op} (hseq : isSeq op = false) (hcond : isCond op = false) : op = .pipe := by
  cases op with
  | pipe => rfl
  | seq => exact absurd hseq (by decide)
  | and => exact absurd hcond (by decide)
  | or => exact absurd hcond (by decide)

theorem any_eq_false_of_pipe (hp : hit .pipe = false) {ops : List Op}
    (h : ∀ op ∈ ops, op = .pipe) : ops.any hit = false := by
  rw [any_eq_false]
  intro op hop
  rw [h op hop, hp]
  exact Bool.false_ne_true

theorem any_isBar_of_pipe (h : ∀ op ∈ l.ops, op = .pipe) (hne : l.rest ≠ []) :
    l.ops.any isBar = true := by
  obtain ⟨x, rest, hr⟩ := exists_cons_of_ne_nil hne
  refine any_eq_true.mpr ⟨x.1, by rw [ops, hr]; exact mem_cons_self, ?_⟩
  rw [h x.1 (by rw [ops, hr]; exact mem_cons_self)]
  rfl

theorem FollowsSimple.mono {t' : CStr} (h : FollowsSimple p t) (ht : Runs t t') :
    FollowsSimple p t' := by
  obtain ⟨c, hp, hc⟩ := h
  exact ⟨c, hp, hc.trans ht⟩

theorem forall₂_trans {α β γ : Type} {R : α → β → Prop} {S : β → γ → Prop} {T : α → γ → Prop}
    (hT : ∀ x y z, R x y → S y z → T x z) {as : List α} {bs : List β} {cs : List γ}
    (h : List.Forall₂ R as bs) (h' : List.Forall₂ S bs cs) : List.Forall₂ T as cs := by
  induction h generalizing cs with
  | nil =>
    cases h'
    exact .nil
  | cons hx _ ih =>
    cases h' with
    | cons hy hys => exact .cons (hT _ _ _ hx hy) (ih hys)

theorem FollowsPipeline.mono {a b : Line} (h : FollowsPipeline p a)
    (hab : LineRel Runs a b) : FollowsPipeline p b := by
  rw [FollowsPipeline] at h ⊢
  by_cases hr : a.rest = []
  · rw [if_pos hr] at h
    rw [if_pos (hab.rest_eq_nil.mp hr)]
    exact h.mono hab.1
  · rw [if_neg hr] at h
    rw [if_neg fun e => hr (hab.rest_eq_nil.mpr e)]
    obtain ⟨text, stages, hp, hc, hstages⟩ := h
    refine ⟨text, stages, hp, hc, ?_⟩
    exact forall₂_trans (fun _ _ _ hx hy => hx.mono hy) hstages hab.simples

theorem seps_eq (hit : Op → Bool) (l : Line) : seps hit l.rest = l.ops.filter hit := rfl

theorem FollowsAndOr.mono {a b : Line} (h : FollowsAndOr p a)
    (hab : LineRel Runs a b) : FollowsAndOr p b := by
  rw [FollowsAndOr, ← hab.ops]
  rw [FollowsAndOr] at h
  split at h
  · next hcond =>
    rw [if_pos hcond]
    obtain ⟨text, nodes, hp, hnodes⟩ := h
    rw [seps_eq, hab.ops] at hp
    refine ⟨text, nodes, hp, ?_⟩
    exact forall₂_trans (fun _ _ _ hx hy => hx.mono hy) hnodes (hab.groups isCond)
  · next hcond =>
    rw [if_neg hcond]
    exact h.mono hab

variable {env : Env}

theorem plan_simple (he : env.NoAliases) (h : SimpleText t) (fuel : Nat) :
    FollowsSimple (env.plan (fuel + 2) (Line.render ⟨t, []⟩)) t := by
  have hweak : ∀ u : CStr, SimpleText u → Line.Weak ⟨u, []⟩ := fun u hu => ⟨hu, by simp⟩
  have hdrop : SimpleText (dropAssignments t) := fun c hc =>
    h c ((dropAssignments_suffix t).subset hc)
  rw [plan_render he (hweak t h) (hweak _ hdrop) (by simp [render])]
  refine ⟨dropAssignments t, ?_, runs_dropAssignments t⟩
  show Plan.command (dropAssignments t ++ []) = _
  rw [append_nil]

theorem plan_keeps (he : env.NoAliases) (h : l.Weak) (hk : l.Keeps) (fuel : Nat) :
    env.plan (fuel + 2) l.render = l.left.act (env.plan (fuel + 1)) :=
  plan_render he h (hk.wf h).1 hk.2 fuel

theorem act_pipeline (h : l.Wf) (hops : ∀ op ∈ l.ops, op = .pipe) (hne : l.rest ≠ [])
    (run : CStr → Plan) :
    l.act run = if l.rest.length < maxPipelineStages then
      .pipeline l.render false (l.simples.map fun t => run (trimSpaces t))
      else .overflow l.render := by
  have hpieces : l.pieces isBar = l.simples.map fun t => (⟨trimSpaces t, []⟩ : Line) := by
    rw [pieces_wf h, groups_pipe hops, map_map]
    rfl
  have hlen : (l.pieces isBar).length = l.rest.length + 1 := by
    rw [hpieces, length_map, simples, length_cons, length_map]
  have hstage : ∀ t, render ⟨t, []⟩ = t := fun t => append_nil t
  rw [act, Line.split, any_eq_false_of_pipe rfl hops, any_eq_false_of_pipe rfl hops,
    any_isBar_of_pipe hops hne, hlen, hpieces, map_map]
  simp only [comp_def, hstage]
  rfl

theorem act_andOr (h : l.Wf) (hseq : l.ops.any isSeq = false)
    (hcond : l.ops.any isCond = true) (hor : orAfterPipe l.ops = true) (run : CStr → Plan) :
    l.act run = .conditional l.render ((seps isCond l.rest).map Op.cond ++ [.none])
      ((groups isCond l.first l.rest).map fun g => run g.trim.render) := by
  have hnodes : (l.nodes.map fun x => run x.1.render)
      = (l.nodes.map Prod.fst).map fun g => run g.render := by
    rw [map_map]
    rfl
  rw [act, Line.split, hseq, hcond, hor, nodes_wf_snd h, hnodes, nodes_wf_fst h, map_map]
  rfl

theorem act_seq (h : l.Wf) (hseq : l.ops.any isSeq = true) (run : CStr → Plan) :
    l.act run = .sequential l.render
      ((groups isSeq l.first l.rest).map fun g => run g.trim.render) := by
  rw [act, Line.split, hseq, pieces_wf h, map_map]
  rfl

theorem plan_pipeline (he : env.NoAliases) (h : l.Weak) (hops : ∀ op ∈ l.ops, op = .pipe)
    (hok : l.PipelineOk) (fuel : Nat) : FollowsPipeline (env.plan (fuel + 3) l.render) l := by
  rw [FollowsPipeline]
  split
  · next hr =>
    obtain ⟨t, rest⟩ := l
    cases hr
    exact plan_simple he h.1 (fuel + 1)
  · next hr =>
    obtain ⟨hk, hlen⟩ := hok.resolve_left hr
    have hleft := hk.wf h
    rw [plan_keeps he h hk, act_pipeline hleft hops hr,
      if_pos (show l.left.rest.length < _ from hlen)]
    refine ⟨_, _, rfl, contains_render hleft.1 hops, ?_⟩
    -- each stage is a trimmed command of what is left of the line
    have hstage : ∀ t ∈ l.left.simples, FollowsSimple (env.plan (fuel + 2) (trimSpaces t)) t := by
      intro t ht
      have hsimple : SimpleText t := by
        rcases mem_cons.mp ht with rfl | ht
        · exact hleft.1.1
        · obtain ⟨x, hx, rfl⟩ := mem_map.mp ht
          exact (h.2 x hx).1
      have := plan_simple he (t := trimSpaces t)
        (fun c hc => hsimple c (mem_dropSpaces (mem_trimEnd hc))) fuel
      rw [render, renderRest_nil, append_nil] at this
      exact this.mono (Runs.of_words ((words_trimEnd _).trans (words_dropSpaces _)))
    refine forall₂_map_left_iff.mpr ?_
    exact forall₂_trans (fun _ _ _ hx hy => hx.mono hy) (forall₂_same.mpr hstage)
      (left_rel l).simples

theorem trim_ops (l : Line) : l.trim.ops = l.ops := trim_map_fst l

theorem plan_andOr (he : env.NoAliases) (h : l.Weak) (hseq : ∀ op ∈ l.ops, isSeq op = false)
    (hok : l.AndOrOk) (fuel : Nat) : FollowsAndOr (env.plan (fuel + 4) l.render) l := by
  rw [Line.AndOrOk] at hok
  rw [FollowsAndOr]
  split
  · next hcond =>
    rw [if_pos hcond] at hok
    obtain ⟨hk, hor, hgroups⟩ := hok
    have hleft := hk.wf h
    have hany : l.left.ops.any isSeq = false := any_eq_false.mpr fun op hop => by
      simp [hseq op hop]
    rw [plan_keeps he h hk, act_andOr hleft hany hcond hor]
    refine ⟨_, _, rfl, ?_⟩
    have hnode : ∀ g ∈ groups isCond l.left.first l.left.rest,
        FollowsPipeline (env.plan (fuel + 3) g.trim.render) g := by
      intro g hg
      have hops : ∀ op ∈ g.trim.ops, op = .pipe := by
        rw [trim_ops]
        intro op hop
        exact eq_pipe (hseq op (groups_ops g hg op hop).2) (groups_ops g hg op hop).1
      exact (plan_pipeline he (groups_wf hleft g hg).1.trim hops (hgroups g hg) fuel).mono
        (trim_rel g)
    refine forall₂_map_left_iff.mpr ?_
    exact forall₂_trans (fun _ _ _ hx hy => hx.mono hy) (forall₂_same.mpr hnode)
      ((left_rel l).groups isCond)
  · next hcond =>
    rw [if_neg hcond] at hok
    refine plan_pipeline he h ?_ hok (fuel + 1)
    intro op hop
    exact eq_pipe (hseq op hop)
      (Bool.eq_false_iff.mpr (any_eq_false.mp (Bool.eq_false_iff.mpr hcond) op hop))

theorem plan_line (he : env.NoAliases) (h : l.Weak) (hok : l.Ok) (fuel : Nat) :
    Follows (env.plan (fuel + 5) l.render) l := by
  rw [Line.Ok] at hok
  rw [Follows]
  split
  · next hseq =>
    rw [if_pos hseq] at hok
    obtain ⟨hk, hgroups⟩ := hok
    have hleft := hk.wf h
    rw [plan_keeps he h hk, act_seq hleft hseq]
    refine ⟨_, _, rfl, ?_⟩
    have hsegment : ∀ g ∈ groups isSeq l.left.first l.left.rest,
        FollowsAndOr (env.plan (fuel + 4) g.trim.render) g := by
      intro g hg
      have hops : ∀ op ∈ g.trim.ops, isSeq op = false := by
        rw [trim_ops]
        exact fun op hop => (groups_ops g hg op hop).1
      exact (plan_andOr he (groups_wf hleft g hg).1.trim hops (hgroups g hg) fuel).mono (trim_rel g)
    refine forall₂_map_left_iff.mpr ?_
    exact forall₂_trans (fun _ _ _ hx hy => hx.mono hy) (forall₂_same.mpr hsegment)
      ((left_rel l).groups isSeq)
  · next hseq =>
    rw [if_neg hseq] at hok
    refine plan_andOr he h ?_ hok (fuel + 1)
    intro op hop
    exact Bool.eq_false_iff.mpr (any_eq_false.mp (Bool.eq_false_iff.mpr hseq) op hop)

/-! ## The code follows the grammar on no other lines -/

theorem leavesAll_forall₂ {α : Type} {F : Plan → α → Prop} {size : α → Nat}
    (hF : ∀ p x, F p x → p.leaves = size x) {ps : List Plan} {xs : List α}
    (h : List.Forall₂ F ps xs) : Plan.leavesAll ps = (xs.map size).sum := by
  induction h with
  | nil => rfl
  | cons hx _ ih => rw [Plan.leavesAll, hF _ _ hx, ih, map_cons, sum_cons]

def Line.size (l : Line) : Nat := l.rest.length + 1

theorem size_groups (hit : Op → Bool) (t : CStr) (rest : List (Op × CStr)) :
    ((groups hit t rest).map Line.size).sum = rest.length + 1 := by
  induction rest generalizing t with
  | nil => rfl
  | cons x rest ih =>
    have ih := ih x.2
    rw [groups]
    split
    · rw [map_cons, sum_cons, ih, length_cons]
      simp only [size, length_nil]
      omega
    · obtain ⟨r, gs, hg⟩ := groups_first hit x.2 rest
      rw [hg, map_cons, sum_cons] at ih
      rw [hg, map_cons, sum_cons]
      simp only [size, length_cons] at ih ⊢
      omega

theorem FollowsSimple.leaves (h : FollowsSimple p t) : p.leaves = 1 := by
  obtain ⟨c, rfl, _⟩ := h
  rfl

theorem FollowsPipeline.leaves (h : FollowsPipeline p l) : p.leaves = l.size := by
  rw [FollowsPipeline] at h
  split at h
  · next hr => rw [h.leaves, size, hr, length_nil]
  · obtain ⟨text, stages, rfl, _, hstages⟩ := h
    have hone : ∀ p t, FollowsSimple p t → p.leaves = (fun _ => 1) t := fun p t hp => hp.leaves
    rw [Plan.leaves, leavesAll_forall₂ hone hstages]
    simp [simples, size, comp_def, Nat.add_comm]

theorem FollowsAndOr.leaves (h : FollowsAndOr p l) : p.leaves = l.size := by
  rw [FollowsAndOr] at h
  split at h
  · obtain ⟨text, nodes, rfl, hnodes⟩ := h
    rw [Plan.leaves, leavesAll_forall₂ (fun p l hp => hp.leaves) hnodes, size_groups, size]
  · exact h.leaves

theorem Follows.leaves (h : Follows p l) : p.leaves = l.size := by
  rw [Follows] at h
  split at h
  · obtain ⟨text, segments, rfl, hsegments⟩ := h
    rw [Plan.leaves, leavesAll_forall₂ (fun p l hp => hp.leaves) hsegments, size_groups, size]
  · exact h.leaves

theorem keeps_of_leaves (he : env.NoAliases) (h : l.Weak) (hne : l.rest ≠ [])
    (hl : (env.plan fuel l.render).leaves = l.size) :
    l.Keeps ∧ ∃ k, env.plan fuel l.render = l.left.act (env.plan k) := by
  have hpos := length_pos_iff.mpr hne
  match fuel, hl with
  | 0, hl => cases hl
  | 1, hl => cases hl
  | fuel + 2, hl =>
    have hrender := dropAssignments_render h
    generalize l.unassigned = x at hrender
    obtain ⟨hx, hdrop, hcase⟩ := hrender
    have hplan := plan_render he h hx hdrop fuel
    have hmost := leaves_act (atMost_plan he (fuel + 1)) hx
    rw [← hplan, hl, Line.size] at hmost
    rcases hcase with rfl | hlt
    · have hb : Nonblank l.left.first := by
        by_contra hb
        have hcount : l.left.count = l.rest.length := by
          rw [Line.count, if_neg hb, Nat.zero_add]
          rfl
        have hmost : l.rest.length + 1 ≤ max 1 l.left.count := hmost
        omega
      exact ⟨⟨hb, hdrop⟩, fuel + 1, hplan⟩
    · rw [Line.count] at hmost
      split at hmost <;> omega

def SameOps : Line → Line → Prop := LineRel fun _ _ => True

theorem SameOps.trim_left {l' : Line} (h : SameOps l l') : SameOps l.trim l' :=
  LineRel.trans (fun _ _ _ _ _ => trivial) ((trim_rel l).mono fun _ _ _ => trivial) h

theorem SameOps.left {l' : Line} (h : SameOps l l') : SameOps l.left l' :=
  LineRel.trans (fun _ _ _ _ _ => trivial) ((left_rel l).mono fun _ _ _ => trivial) h

theorem forall_of_forall₂ {α β γ : Type} {R : α → β → Prop} {S : γ → β → Prop} {f : α → γ}
    {P : α → Prop} {as : List α} {bs : List β} (h : List.Forall₂ R as bs)
    (h' : List.Forall₂ S (as.map f) bs) (hP : ∀ a ∈ as, ∀ b, R a b → S (f a) b → P a) :
    ∀ a ∈ as, P a := by
  induction h with
  | nil => exact nofun
  | cons hx _ ih =>
    cases h' with
    | cons hy hys =>
      intro a ha
      rcases mem_cons.mp ha with rfl | ha
      · exact hP _ mem_cons_self _ hx hy
      · exact ih hys (fun a ha => hP a (mem_cons_of_mem _ ha)) a ha

theorem pipelineOk_of_follows (he : env.NoAliases) {x y : Line} (hx : x.Weak)
    (hxy : SameOps x y) (hops : ∀ op ∈ x.ops, op = .pipe)
    (h : FollowsPipeline (env.plan fuel x.render) y) : x.PipelineOk := by
  by_cases hr : x.rest = []
  · exact .inl hr
  · have hsize : x.size = y.size := by rw [size, size, hxy.2.length_eq]
    obtain ⟨hk, k, hplan⟩ := keeps_of_leaves he hx hr (h.leaves.trans hsize.symm)
    rw [FollowsPipeline, if_neg fun e => hr (hxy.rest_eq_nil.mpr e), hplan,
      act_pipeline (hk.wf hx) hops hr] at h
    refine .inr ⟨hk, ?_⟩
    by_contra hlen
    obtain ⟨text, stages, hp, _⟩ := h
    rw [if_neg (show ¬x.left.rest.length < _ from hlen)] at hp
    cases hp

theorem andOrOk_of_follows (he : env.NoAliases) {x y : Line} (hx : x.Weak)
    (hxy : SameOps x y) (hseq : ∀ op ∈ x.ops, isSeq op = false)
    (h : FollowsAndOr (env.plan fuel x.render) y) : x.AndOrOk := by
  have hleaves := h.leaves
  rw [FollowsAndOr, ← hxy.ops] at h
  rw [Line.AndOrOk]
  split at h
  · next hcond =>
    rw [if_pos hcond]
    have hr : x.rest ≠ [] := by
      intro hr
      rw [ops, hr] at hcond
      cases hcond
    have hsize : x.size = y.size := by rw [size, size, hxy.2.length_eq]
    obtain ⟨hk, k, hplan⟩ := keeps_of_leaves he hx hr (hleaves.trans hsize.symm)
    have hleft := hk.wf hx
    have hany : x.left.ops.any isSeq = false := any_eq_false.mpr fun op hop => by
      simp [hseq op hop]
    obtain ⟨text, nodes, hp, hnodes⟩ := h
    rw [hplan] at hp
    -- a chain is only made when the test for `||` allows it
    have hor : orAfterPipe x.left.ops = true := by
      by_contra hor
      rw [act, Line.split, hany, Bool.eq_false_iff.mpr hor, Bool.and_false,
        if_neg Bool.false_ne_true, if_neg Bool.false_ne_true] at hp
      split at hp
      · split at hp <;> cases hp
      · cases hp
    rw [act_andOr hleft hany hcond hor, Plan.conditional.injEq] at hp
    obtain ⟨_, _, rfl⟩ := hp
    refine ⟨hk, hor, forall_of_forall₂ (hxy.left.groups isCond) hnodes ?_⟩
    intro g hg g' hsame hfollows
    refine pipelineOk_of_follows he (groups_wf hleft g hg).1.trim
      (SameOps.trim_left hsame) ?_ hfollows
    rw [trim_ops]
    exact fun op hop => eq_pipe (hseq op (groups_ops g hg op hop).2) (groups_ops g hg op hop).1
  · next hcond =>
    rw [if_neg hcond]
    refine pipelineOk_of_follows he hx hxy ?_ h
    exact fun op hop => eq_pipe (hseq op hop)
      (Bool.eq_false_iff.mpr (any_eq_false.mp (Bool.eq_false_iff.mpr hcond) op hop))

theorem ok_of_follows (he : env.NoAliases) (hl : l.Weak)
    (h : Follows (env.plan fuel l.render) l) : l.Ok := by
  have hleaves := h.leaves
  have hsame : SameOps l l := ⟨trivial, forall₂_same.mpr fun _ _ => ⟨rfl, trivial⟩⟩
  rw [Follows] at h
  rw [Line.Ok]
  split at h
  · next hseq =>
    rw [if_pos hseq]
    have hr : l.rest ≠ [] := by
      intro hr
      rw [ops, hr] at hseq
      cases hseq
    obtain ⟨hk, k, hplan⟩ := keeps_of_leaves he hl hr hleaves
    have hleft := hk.wf hl
    obtain ⟨text, segments, hp, hsegments⟩ := h
    rw [hplan, act_seq hleft hseq, Plan.sequential.injEq] at hp
    obtain ⟨_, rfl⟩ := hp
    refine ⟨hk, forall_of_forall₂ (hsame.left.groups isSeq) hsegments ?_⟩
    intro g hg g' hsame' hfollows
    refine andOrOk_of_follows he (groups_wf hleft g hg).1.trim
      (SameOps.trim_left hsame') ?_ hfollows
    rw [trim_ops]
    exact fun op hop => (groups_ops g hg op hop).1
  · next hseq =>
    rw [if_neg hseq]
    refine andOrOk_of_follows he hl hsame ?_ h
    exact fun op hop =>
      Bool.eq_false_iff.mpr (any_eq_false.mp (Bool.eq_false_iff.mpr hseq) op hop)

/-! ## Operator precedence of `ios_system` -/

/--
The calls of `ios_system` for a command line are those of the grammar exactly when on every level
the assignments end before the first operator, a `||` comes after a pipe, and a pipeline has no
more than 32 stages.
-/
theorem follows_iff_ok (getenv : List (CStr × CStr) → CStr → Option CStr) (capture : CStr → CStr)
    (l : CommandLine) :
    (∃ fuel, Follows ((plainEnv getenv capture).plan fuel l.render) l.toLine) ↔ l.Ok := by
  have he : (plainEnv getenv capture).NoAliases := fun _ => rfl
  constructor
  · rintro ⟨fuel, h⟩
    exact ok_of_follows he l.wf.1 h
  · intro h
    exact ⟨5, plan_line he l.wf.1 h 0⟩

def aOrB : Line := ⟨['a', ' '], [(.or, [' ', 'b'])]⟩

/-- `a || b` goes to the pipeline scheduler. -/
theorem or_is_piped :
    (plainEnv (fun _ _ => none) id).plan 3 "a || b".toList
      = .pipeline "a || b".toList false [.command ['a'], .command ['b']] ∧
    aOrB.render = "a || b".toList ∧
    ∀ fuel, ¬Follows ((plainEnv (fun _ _ => none) id).plan fuel aOrB.render) aOrB := by
  have hweak : aOrB.Weak := by
    unfold Line.Weak
    decide
  refine ⟨?_, rfl, fun fuel h => ?_⟩
  · exact plan_render (fun _ => rfl) hweak hweak (by decide) 1
  · have hok : aOrB.Ok := ok_of_follows (fun _ => rfl) hweak h
    exact absurd hok.2.1 (by decide)

end IosSystem.Shell
