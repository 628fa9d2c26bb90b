import IosSystem.Shell.Dispatch

/-!
# Command lines without quoting

A line is a list of simple commands with operators between them. A simple command is a text of
words and blanks, without characters that quote, substitute or redirect. The results here say what
`strstrquoted` finds in terms of the list: the first operator of a kind (`cut`), and from that the
pieces into which the parsers cut the line (`groups`).

While a line is taken apart its first simple command can lose words to the assignment loop, and may
have become blank. A `Weak` line allows for that.
-/

namespace IosSystem.Shell

open List Scan

/-! ## Lines -/

/-- The operators. -/
inductive Op where
  | seq
  | and
  | or
  | pipe
  deriving DecidableEq

def Op.text : Op → CStr
  | .seq => [';']
  | .and => ['&', '&']
  | .or => ['|', '|']
  | .pipe => ['|']

def isWordChar (c : Char) : Bool :=
  c ∉ [' ', '\t', '"', '\'', '\\', '$', '`', '(', ')', ';', '&', '|', '<', '>']

def SimpleText (t : CStr) : Prop := ∀ c ∈ t, c = ' ' ∨ isWordChar c = true

def Nonblank (t : CStr) : Prop := ∃ c ∈ t, c ≠ ' '

instance (t : CStr) : Decidable (SimpleText t) := decidableBAll _ t

instance (t : CStr) : Decidable (Nonblank t) := decidableBEx _ t

/-- Simple commands with operators between them. -/
structure Line where
  first : CStr
  rest : List (Op × CStr)
  deriving DecidableEq

def renderRest (rest : List (Op × CStr)) : CStr := rest.flatMap fun x => x.1.text ++ x.2

def Line.render (l : Line) : CStr := l.first ++ renderRest l.rest

/-- Only the first command may be empty. -/
def Line.Weak (l : Line) : Prop :=
  SimpleText l.first ∧ ∀ x ∈ l.rest, SimpleText x.2 ∧ Nonblank x.2

def Line.Wf (l : Line) : Prop := l.Weak ∧ Nonblank l.first

@[simp] theorem renderRest_nil : renderRest [] = [] := rfl

@[simp] theorem renderRest_cons (x : Op × CStr) (rest : List (Op × CStr)) :
    renderRest (x :: rest) = x.1.text ++ x.2 ++ renderRest rest := rfl

variable {t pat a : CStr} {c : Char} {op : Op} {rest : List (Op × CStr)} {l : Line}
  {hit : Op → Bool}

theorem SimpleText.not_mem (h : SimpleText t) (hc : c ≠ ' ' ∧ isWordChar c = false) : c ∉ t := by
  intro hm
  rcases h c hm with e | e
  · exact hc.1 e
  · rw [hc.2] at e
    cases e

theorem Nonblank.ne_nil (h : Nonblank t) : t ≠ [] := by
  rintro rfl
  obtain ⟨c, hc, _⟩ := h
  cases hc

theorem Line.Weak.tail {t' : CStr} (h : Line.Weak ⟨t, (op, t') :: rest⟩) : Line.Wf ⟨t', rest⟩ :=
  ⟨⟨(h.2 _ mem_cons_self).1, fun x hx => h.2 x (mem_cons_of_mem _ hx)⟩, (h.2 _ mem_cons_self).2⟩

/-! ## The first operator of a kind -/

def patterns : List CStr := [[';'], ['&', '&'], ['|', '|'], ['|']]

def hits (pat : CStr) (op : Op) : Bool := pat.isPrefixOf op.text

theorem plain_of_pattern (h : pat ∈ patterns) : Plain pat := by
  revert pat
  decide

theorem ne_nil_of_pattern (h : pat ∈ patterns) : pat ≠ [] := by
  revert pat
  decide

theorem step_simple (hp : pat ∈ patterns) (hc : c = ' ' ∨ isWordChar c = true) (m : Nat) :
    (Scan.mk none 0 m).step pat c = ⟨none, 0, 0⟩ := by
  have hmem : ∀ d, d ≠ ' ' ∧ isWordChar d = false → c ≠ d := by
    rintro d ⟨hd, hd'⟩ rfl
    rcases hc with e | e
    · exact hd e
    · rw [hd'] at e
      cases e
  rw [step_plain ⟨hmem _ (by decide), hmem _ (by decide), hmem _ (by decide)⟩]
  have hne : pat[m]? ≠ some c := by
    intro e
    have hpat : ∀ pat ∈ patterns, pat.all (fun d => d ≠ ' ' ∧ isWordChar d = false) = true := by
      decide
    have hc := all_eq_true.mp (hpat pat hp) c (mem_of_getElem? e)
    exact hmem c (of_decide_eq_true hc) rfl
  rw [if_neg hne]

theorem over_simple (hp : pat ∈ patterns) (ht : SimpleText t) (i : Nat) :
    findFrom pat Scan.start i t = none ∧ Scan.start.over pat t = Scan.start := by
  induction t generalizing i with
  | nil => exact ⟨rfl, rfl⟩
  | cons c t ih =>
    have hstep : start.step pat c = start := step_simple hp (ht c mem_cons_self) 0
    have hlen : start.matchlen ≠ pat.length := by
      intro e
      exact ne_nil_of_pattern hp (length_eq_zero_iff.mp e.symm)
    have ih := ih (fun c hc => ht c (mem_cons_of_mem _ hc)) (i + 1)
    rw [findFrom, over_cons, hstep, if_neg hlen]
    exact ih

theorem over_op (hp : pat ∈ patterns) (h : hits pat op = false) (i : Nat) :
    findFrom pat Scan.start i op.text = none ∧ ∃ m, Scan.start.over pat op.text = ⟨none, 0, m⟩ := by
  have hall : ∀ pat ∈ patterns, ∀ op ∈ [Op.seq, .and, .or, .pipe], hits pat op = false →
      findFrom pat start 0 op.text = none ∧
      (start.over pat op.text).quotechar = none ∧
      (start.over pat op.text).esclen = 0 := by decide
  obtain ⟨hnone, hq, he⟩ := hall pat hp op (by cases op <;> simp) h
  refine ⟨findFrom_none_index hnone i, (start.over pat op.text).matchlen, ?_⟩
  rw [← hq, ← he]

/-- The line at its first operator of a kind. -/
def cut (hit : Op → Bool) : CStr → List (Op × CStr) → Option (Line × Op × Line)
  | _, [] => none
  | t, (op, t') :: rest =>
    if hit op then some (⟨t, []⟩, op, ⟨t', rest⟩)
    else (cut hit t' rest).map fun r => (⟨t, (op, r.1.first) :: r.1.rest⟩, r.2)

open Line

theorem findFrom_render (hp : pat ∈ patterns) (h : Line.Weak ⟨t, rest⟩) (i : Nat) :
    findFrom pat Scan.start i (Line.render ⟨t, rest⟩)
      = (cut (hits pat) t rest).map fun r => i + r.1.render.length := by
  induction rest generalizing t i with
  | nil =>
    rw [show render ⟨t, []⟩ = t from append_nil t]
    exact (over_simple hp h.1 i).1
  | cons x rest ih =>
    obtain ⟨op, t'⟩ := x
    have hfirst := over_simple hp h.1 i
    have htail := h.tail
    have hrender : render ⟨t, (op, t') :: rest⟩ = t ++ (op.text ++ render ⟨t', rest⟩) := by
      simp [render]
    rw [hrender, findFrom_append hfirst.1, hfirst.2, cut]
    cases hop : hits pat op with
    | true =>
      obtain ⟨post, hpost⟩ := isPrefixOf_iff_prefix.mp hop
      rw [if_pos rfl, ← hpost, append_assoc]
      have := findFrom_rest (plain_of_pattern hp) 0 (i + t.length) (post ++ render ⟨t', rest⟩)
        [] pat rfl (ne_nil_of_pattern hp)
      simpa [render, start] using this
    | false =>
      obtain ⟨hnone, m, hstate⟩ := over_op hp hop (i + t.length)
      rw [if_neg Bool.false_ne_true, findFrom_append hnone, hstate]
      -- the next simple command has a character, and it ends a partial match
      have hreset : ∀ k, findFrom pat ⟨none, 0, m⟩ k (render ⟨t', rest⟩)
          = findFrom pat start k (render ⟨t', rest⟩) := by
        intro k
        obtain ⟨c, t'', rfl⟩ := exists_cons_of_ne_nil htail.2.ne_nil
        have hc := htail.1.1 c mem_cons_self
        have hstep : start.step pat c = ⟨none, 0, 0⟩ := step_simple hp hc 0
        show findFrom pat _ k (c :: (t'' ++ renderRest rest))
          = findFrom pat _ k (c :: (t'' ++ renderRest rest))
        rw [findFrom, findFrom, step_simple hp hc, hstep]
      rw [hreset, ih htail.1, Option.map_map]
      congr 1
      funext r
      simp only [Function.comp_apply, render, renderRest_cons, length_append]
      omega

theorem strstrquoted_render (hp : pat ∈ patterns) (h : l.Weak) :
    strstrquoted l.render pat = (cut (hits pat) l.first l.rest).map fun r => r.1.render.length := by
  rw [strstrquoted_eq_findFrom (plain_of_pattern hp) (ne_nil_of_pattern hp)]
  have := findFrom_render hp (show Line.Weak ⟨l.first, l.rest⟩ from h) 0
  simpa using this

/-! ## The pieces between operators of a kind -/

/-- The parts between the operators of a kind. -/
def groups (hit : Op → Bool) : CStr → List (Op × CStr) → List Line
  | t, [] => [⟨t, []⟩]
  | t, (op, t') :: rest =>
    if hit op then ⟨t, []⟩ :: groups hit t' rest
    else
      match groups hit t' rest with
      | [] => []
      | g :: gs => ⟨t, (op, g.first) :: g.rest⟩ :: gs

def seps (hit : Op → Bool) (rest : List (Op × CStr)) : List Op := (rest.map Prod.fst).filter hit

theorem groups_ne_nil (hit : Op → Bool) (t : CStr) (rest : List (Op × CStr)) :
    groups hit t rest ≠ [] := by
  induction rest generalizing t with
  | nil => exact cons_ne_nil _ _
  | cons x rest ih =>
    rw [groups]
    split
    · exact cons_ne_nil _ _
    · cases hg : groups hit x.2 rest with
      | nil => exact absurd hg (ih x.2)
      | cons g gs => exact cons_ne_nil _ _

/--
What holds of a piece that is one simple command, and is kept when the line gets longer at its
front, holds of all pieces.
-/
theorem groups_rule {P : CStr → List (Op × CStr) → Line → Prop} (hone : ∀ t rest, P t rest ⟨t, []⟩)
    (htail : ∀ t x rest g, P x.2 rest g → P t (x :: rest) g)
    (hjoin : ∀ t x rest g, hit x.1 = false → P x.2 rest g →
      P t (x :: rest) ⟨t, (x.1, g.first) :: g.rest⟩)
    (t : CStr) (rest : List (Op × CStr)) : ∀ g ∈ groups hit t rest, P t rest g := by
  induction rest generalizing t with
  | nil =>
    intro g hg
    exact mem_singleton.mp hg ▸ hone t []
  | cons x rest ih =>
    obtain ⟨op, t'⟩ := x
    have ih := ih t'
    rw [groups]
    split
    · intro g hg
      rcases mem_cons.mp hg with rfl | hg
      · exact hone t _
      · exact htail t _ rest g (ih g hg)
    · next hop =>
      cases hgs : groups hit t' rest with
      | nil => exact absurd hgs (groups_ne_nil hit t' rest)
      | cons g' gs =>
        rw [hgs] at ih
        intro g hg
        rcases mem_cons.mp hg with rfl | hg
        · exact hjoin t _ rest g' (Bool.eq_false_iff.mpr hop) (ih g' mem_cons_self)
        · exact htail t _ rest g (ih g (mem_cons_of_mem _ hg))

theorem cut_eq_none
    (h : cut hit t rest = none) : groups hit t rest = [⟨t, rest⟩] ∧ seps hit rest = [] := by
  induction rest generalizing t with
  | nil => exact ⟨rfl, rfl⟩
  | cons x rest ih =>
    obtain ⟨op, t'⟩ := x
    cases hop : hit op with
    | true =>
      rw [cut, if_pos hop] at h
      cases h
    | false =>
      rw [cut, if_neg (by simp [hop])] at h
      obtain ⟨hg, hs⟩ := ih (Option.map_eq_none_iff.mp h)
      refine ⟨?_, ?_⟩
      · rw [groups, if_neg (by simp [hop]), hg]
      · rw [seps, map_cons, filter_cons_of_neg (by simp [hop])]
        exact hs

/-- What `cut` returns. -/
structure IsCut (hit : Op → Bool) (t : CStr) (rest : List (Op × CStr)) (g : Line) (op : Op)
    (l : Line) : Prop where
  render : Line.render ⟨t, rest⟩ = g.render ++ (op.text ++ l.render)
  isHit : hit op = true
  first : g.first = t
  groups : groups hit t rest = g :: Shell.groups hit l.first l.rest
  seps : seps hit rest = op :: Shell.seps hit l.rest
  length : l.rest.length < rest.length
  weak : Line.Weak ⟨t, rest⟩ → g.Weak ∧ l.Wf

theorem cut_eq_some {g : Line}
    (h : cut hit t rest = some (g, op, l)) : IsCut hit t rest g op l := by
  induction rest generalizing t g with
  | nil => cases h
  | cons x rest ih =>
    obtain ⟨o, t'⟩ := x
    cases hop : hit o with
    | true =>
      rw [cut, if_pos hop] at h
      obtain ⟨rfl, rfl, rfl⟩ : ⟨t, []⟩ = g ∧ o = op ∧ ⟨t', rest⟩ = l := by simpa using h
      exact {
        render := by simp [render]
        isHit := hop
        first := rfl
        groups := by rw [Shell.groups, if_pos hop]
        seps := by rw [Shell.seps, map_cons, filter_cons_of_pos hop]; rfl
        length := Nat.lt_succ_self _
        weak := fun hw => ⟨⟨hw.1, by simp⟩, hw.tail⟩ }
    | false =>
      rw [cut, if_neg (by simp [hop])] at h
      obtain ⟨⟨g', op', l'⟩, hr, he⟩ := Option.map_eq_some_iff.mp h
      obtain ⟨rfl, rfl, rfl⟩ :
          (⟨t, (o, g'.first) :: g'.rest⟩ : Line) = g ∧ op' = op ∧ l' = l := by simpa using he
      have ih := ih hr
      exact {
        render := by
          have := ih.render
          simp only [render] at this
          simp [render, this]
        isHit := ih.isHit
        first := rfl
        groups := by rw [Shell.groups, if_neg (by simp [hop]), ih.groups]
        seps := by
          rw [Shell.seps, map_cons, filter_cons_of_neg (by simp [hop])]
          exact ih.seps
        length := Nat.lt_succ_of_lt ih.length
        weak := fun hw => by
          have hw' := ih.weak hw.tail.1
          refine ⟨⟨hw.1, ?_⟩, hw'.2⟩
          intro y hy
          rcases mem_cons.mp hy with rfl | hy
          · refine ⟨hw'.1.1, ?_⟩
            rw [ih.first]
            exact hw.tail.2
          · exact hw'.1.2 y hy }

theorem IsCut.take {g l' : Line}
    (h : IsCut hit l.first l.rest g op l') : l.render.take g.render.length = g.render := by
  rw [show l.render = _ from h.render, take_left]

theorem IsCut.drop {g l' : Line} (h : IsCut hit l.first l.rest g op l') :
    l.render.drop (g.render.length + op.text.length) = l'.render := by
  rw [show l.render = _ from h.render, ← drop_drop, drop_left, drop_left]

/-! ## Trimming -/

def trimEnd (t : CStr) : CStr := (dropSpaces t.reverse).reverse

def trimRest : List (Op × CStr) → List (Op × CStr)
  | [] => []
  | [x] => [(x.1, trimEnd x.2)]
  | x :: y :: rest => x :: trimRest (y :: rest)

/-- The line without blanks at its ends. -/
def Line.trim (l : Line) : Line :=
  if l.rest = [] then ⟨trimSpaces l.first, []⟩ else ⟨dropSpaces l.first, trimRest l.rest⟩

def Line.Blank (l : Line) : Prop := l.rest = [] ∧ ¬Nonblank l.first

instance (l : Line) : Decidable l.Blank := inferInstanceAs (Decidable (_ ∧ _))

def Line.kept (l : Line) : List Line := if l.Blank then [] else [l.trim]

theorem mem_dropSpaces (h : c ∈ dropSpaces t) : c ∈ t :=
  (dropWhile_suffix _).subset h

theorem mem_trimEnd (h : c ∈ trimEnd t) : c ∈ t :=
  mem_reverse.mp (mem_dropSpaces (mem_reverse.mp h))

theorem dropSpaces_append (h : Nonblank a) (b : CStr) :
    dropSpaces (a ++ b) = dropSpaces a ++ b := by
  induction a with
  | nil => exact absurd rfl h.ne_nil
  | cons c a ih =>
    by_cases hc : c = ' '
    · obtain ⟨d, hd, hne⟩ := h
      have ha : Nonblank a := by
        rcases mem_cons.mp hd with e | hd
        · exact absurd (e.trans hc) hne
        · exact ⟨d, hd, hne⟩
      simpa [dropSpaces, hc] using ih ha
    · simp [dropSpaces, hc]

theorem dropSpaces_blank (h : ¬Nonblank a) (b : CStr) : dropSpaces (a ++ b) = dropSpaces b := by
  induction a with
  | nil => rfl
  | cons c a ih =>
    have hc : c = ' ' := by
      by_contra hne
      exact h ⟨c, mem_cons_self, hne⟩
    have ih := ih fun ⟨d, hd, hne⟩ => h ⟨d, mem_cons_of_mem _ hd, hne⟩
    simpa [dropSpaces, hc] using ih

theorem nonblank_reverse : Nonblank a.reverse ↔ Nonblank a := by
  simp [Nonblank]

theorem nonblank_dropSpaces : Nonblank (dropSpaces a) ↔ Nonblank a := by
  constructor
  · rintro ⟨c, hc, hne⟩
    exact ⟨c, mem_dropSpaces hc, hne⟩
  · rintro ⟨c, hc, hne⟩
    induction a with
    | nil => cases hc
    | cons d a ih =>
      by_cases hd : d = ' '
      · rcases mem_cons.mp hc with e | hc
        · exact absurd (e.trans hd) hne
        · simpa [dropSpaces, hd] using ih hc
      · exact ⟨d, by simp [dropSpaces, hd], hd⟩

theorem dropSpaces_eq_nil : dropSpaces a = [] ↔ ¬Nonblank a := by
  constructor
  · intro e h
    exact (nonblank_dropSpaces.mpr h).ne_nil e
  · intro h
    simpa [dropSpaces] using dropSpaces_blank h []

theorem nonblank_trimEnd : Nonblank (trimEnd a) ↔ Nonblank a := by
  rw [trimEnd, nonblank_reverse, nonblank_dropSpaces, nonblank_reverse]

theorem trimEnd_append {b : CStr} (h : Nonblank b) (a : CStr) :
    trimEnd (a ++ b) = a ++ trimEnd b := by
  rw [trimEnd, reverse_append, dropSpaces_append (nonblank_reverse.mpr h),
    reverse_append, reverse_reverse, trimEnd]

theorem trimSpaces_eq_nil : trimSpaces a = [] ↔ ¬Nonblank a := by
  rw [trimSpaces, reverse_eq_nil_iff, dropSpaces_eq_nil, nonblank_reverse, nonblank_dropSpaces]

theorem op_text_ne_nil (op : Op) : ∃ c r, op.text = c :: r ∧ c ≠ ' ' := by
  cases op <;> exact ⟨_, _, rfl, by decide⟩

theorem dropSpaces_renderRest (rest : List (Op × CStr)) :
    dropSpaces (renderRest rest) = renderRest rest := by
  cases rest with
  | nil => rfl
  | cons x rest =>
    obtain ⟨c, r, e, hc⟩ := op_text_ne_nil x.1
    simp [e, dropSpaces, hc]

theorem trimEnd_renderRest (hne : rest ≠ []) (h : ∀ x ∈ rest, Nonblank x.2) (a : CStr) :
    trimEnd (a ++ renderRest rest) = a ++ renderRest (trimRest rest) := by
  induction rest generalizing a with
  | nil => exact absurd rfl hne
  | cons x rest ih =>
    cases rest with
    | nil =>
      have : a ++ renderRest [x] = (a ++ x.1.text) ++ x.2 := by simp
      rw [this, trimEnd_append (h x mem_cons_self)]
      simp [trimRest]
    | cons y rest =>
      have hr : a ++ renderRest (x :: y :: rest)
          = (a ++ x.1.text ++ x.2) ++ renderRest (y :: rest) := by
        simp
      rw [hr, ih (cons_ne_nil _ _) (fun z hz => h z (mem_cons_of_mem _ hz)), trimRest,
        renderRest_cons]
      simp

theorem trimSpaces_render (h : l.Weak) : trimSpaces l.render = l.trim.render := by
  obtain ⟨t, rest⟩ := l
  by_cases hr : rest = []
  · subst hr
    simp [trim, render]
  · have hd : dropSpaces (render ⟨t, rest⟩) = dropSpaces t ++ renderRest rest := by
      by_cases ht : Nonblank t
      · exact dropSpaces_append ht _
      · rw [render, dropSpaces_blank ht, dropSpaces_renderRest, dropSpaces_eq_nil.mpr ht]
        rfl
    show trimEnd (dropSpaces (render ⟨t, rest⟩)) = _
    rw [hd, trimEnd_renderRest hr fun x hx => (h.2 x hx).2, trim, if_neg hr]
    rfl

theorem trim_render_eq_nil (h : l.Weak) : l.trim.render = [] ↔ l.Blank := by
  rw [← trimSpaces_render h, trimSpaces_eq_nil, Line.Blank]
  constructor
  · intro hb
    cases hr : l.rest with
    | nil => exact ⟨rfl, fun ⟨c, hc, hne⟩ => hb ⟨c, mem_append_left _ hc, hne⟩⟩
    | cons x rest =>
      obtain ⟨c, r, e, hc⟩ := op_text_ne_nil x.1
      exact absurd ⟨c, by simp [render, hr, e], hc⟩ hb
  · rintro ⟨hr, hb⟩ ⟨c, hc, hne⟩
    rw [render, hr, renderRest_nil, append_nil] at hc
    exact hb ⟨c, hc, hne⟩

theorem keepStage_render (h : l.Weak) :
    keepStage (trimSpaces l.render) = l.kept.map Line.render := by
  rw [keepStage, trimSpaces_render h, kept]
  by_cases hb : l.Blank
  · rw [if_pos ((trim_render_eq_nil h).mpr hb), if_pos hb]
    rfl
  · rw [if_neg fun e => hb ((trim_render_eq_nil h).mp e), if_neg hb]
    rfl

/-! ### No other characters -/

theorem not_mem_render (h : l.Weak) (hc : c ≠ ' ' ∧ isWordChar c = false)
    (hop : c ∉ [';', '&', '|']) : c ∉ l.render := by
  have htext : ∀ op : Op, c ∉ op.text := by
    intro op hm
    cases op <;> simp_all [Op.text]
  intro hm
  rcases mem_append.mp hm with hm | hm
  · exact h.1.not_mem hc hm
  · obtain ⟨x, hx, hm⟩ := mem_flatMap.mp hm
    rcases mem_append.mp hm with hm | hm
    · exact htext x.1 hm
    · exact (h.2 x hx).1.not_mem hc hm

theorem dropWhile_isBlank (h : '\t' ∉ t) : t.dropWhile isBlank = dropSpaces t := by
  induction t with
  | nil => rfl
  | cons c t ih =>
    have hc : c ≠ '\t' := fun e => h (e ▸ mem_cons_self)
    have ih := ih fun e => h (mem_cons_of_mem _ e)
    by_cases hs : c = ' '
    · simpa [dropSpaces, isBlank, hs] using ih
    · simp [dropSpaces, isBlank, hs, hc]

theorem trimWhitespace_eq (h : '\t' ∉ t) : trimWhitespace t = trimSpaces t := by
  rw [trimWhitespace, dropWhile_isBlank h, dropWhile_isBlank, trimSpaces]
  exact fun e => h (mem_dropSpaces (mem_reverse.mp e))

theorem keep_render (h : l.Weak) : keep l.render = l.kept.map Line.render := by
  rw [← keepStage_render h, keep, keepStage,
    trimWhitespace_eq (not_mem_render h (by decide) (by decide))]

theorem trimRest_weak (h : ∀ x ∈ rest, SimpleText x.2 ∧ Nonblank x.2) :
    ∀ x ∈ trimRest rest, SimpleText x.2 ∧ Nonblank x.2 := by
  induction rest with
  | nil => exact h
  | cons x rest ih =>
    cases rest with
    | nil =>
      intro y hy
      obtain ⟨h1, h2⟩ := h x mem_cons_self
      rw [trimRest, mem_singleton] at hy
      subst hy
      exact ⟨fun c hc => h1 c (mem_trimEnd hc), nonblank_trimEnd.mpr h2⟩
    | cons y rest =>
      intro z hz
      rcases mem_cons.mp hz with rfl | hz
      · exact h z mem_cons_self
      · exact ih (fun w hw => h w (mem_cons_of_mem _ hw)) z hz

theorem Line.Weak.trim (h : l.Weak) : l.trim.Weak := by
  rw [Line.trim]
  split
  · exact ⟨fun c hc => h.1 c (mem_dropSpaces (mem_trimEnd hc)), by simp⟩
  · exact ⟨fun c hc => h.1 c (mem_dropSpaces hc), trimRest_weak h.2⟩

@[simp] theorem trimRest_map_fst (rest : List (Op × CStr)) :
    (trimRest rest).map Prod.fst = rest.map Prod.fst := by
  induction rest with
  | nil => rfl
  | cons x rest ih =>
    cases rest with
    | nil => rfl
    | cons y rest =>
      rw [trimRest, map_cons, ih]
      rfl

@[simp] theorem trim_map_fst (l : Line) : l.trim.rest.map Prod.fst = l.rest.map Prod.fst := by
  rw [trim]
  split
  · next h => simp [h]
  · simp

end IosSystem.Shell
