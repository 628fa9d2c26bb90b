import IosSystem.Directory.Sandbox

/-!
# Laws of `pathNormalize` and `pathJoin`

`components` cuts a path at its slashes. `pathComponents` of `NSString` gives a component for a
slash at the beginning or at the end, where `components` gives empty ones. The loop of
`pathNormalizeArray` skips both.
-/

namespace IosSystem.Directory

open List
open IosSystem.Shell
open IosSystem.Interp.Instances (startsWith)

def isAbsolute (path : CStr) : Bool := startsWith path ['/']

def trailingSlash (path : CStr) : Bool := path.getLast? = some '/'

/-- The empty component that `components` has for a slash at one end of a path. -/
def endComponent (slash : Bool) : List CStr := if slash then [[]] else []

/-- A stack of names: `..` takes the last one away, if there is one. -/
def stackStep (stack : List CStr) (p : CStr) : List CStr :=
  if p = [] ∨ p = ".".toList then stack else if p = "..".toList then stack.tail else p :: stack

/-- The end of `pathNormalize`. -/
def render (isAbsolute trailingSlash : Bool) (parts : List CStr) : CStr :=
  let result := ['/'].intercalate parts
  let result := if result = [] ∧ !isAbsolute then ['.'] else result
  let result := if result ≠ [] ∧ trailingSlash then result ++ ['/'] else result
  if isAbsolute then '/' :: result else result

theorem pathNormalize_eq (path : CStr) :
    pathNormalize path = render (isAbsolute path) (trailingSlash path)
      (pathNormalizeArray (components path) !isAbsolute path) := by
  by_cases h : path.getLast? = some '/' <;>
    simp [pathNormalize, render, isAbsolute, trailingSlash, h]

/-- A part of a path that is a name, and neither `.` nor empty. -/
structure Name (p : CStr) : Prop where
  nonempty : p ≠ []
  dot : p ≠ ".".toList
  slash : '/' ∉ p

variable {allow : Bool} {parts stack : List CStr} {p : CStr}

/-- The parts are gone through with a stack of those that are kept. -/
def act (allow : Bool) (stack parts : List CStr) : List CStr :=
  parts.foldl (normalizePart allow) stack

theorem act_append (allow : Bool) (stack a b : List CStr) :
    act allow stack (a ++ b) = act allow (act allow stack a) b :=
  foldl_append

theorem normalizePart_name (h : Name p) (hp : p ≠ "..".toList) :
    normalizePart allow stack p = p :: stack := by
  rw [normalizePart.eq_def, if_neg (not_or.mpr ⟨h.nonempty, h.dot⟩), if_neg hp]

theorem normalizePart_cons (h : p ≠ "..".toList) :
    normalizePart allow (p :: stack) "..".toList = stack := by
  rw [normalizePart.eq_def, if_neg (by decide), if_pos rfl]
  exact if_neg h

theorem normalizePart_skip (h : p = [] ∨ p = ".".toList) : normalizePart allow stack p = stack :=
  if_pos h

theorem mem_normalizePart {x : CStr} (h : x ∈ normalizePart allow stack p) :
    x ∈ stack ∨ x = p ∧ p ≠ [] ∧ p ≠ ".".toList ∧ (p = "..".toList → allow = true) := by
  unfold normalizePart at h
  grind

theorem mem_components {path part : CStr} (h : part ∈ components path) : '/' ∉ part := by
  induction path generalizing part with
  | nil =>
    rw [mem_singleton.mp h]
    exact not_mem_nil
  | cons c rest ih =>
    by_cases hc : c = '/'
    · rw [components, if_pos hc] at h
      rcases mem_cons.mp h with rfl | h
      · exact not_mem_nil
      · exact ih h
    · obtain ⟨first, others, hrest, hcons⟩ := components_cons hc rest
      rw [hcons] at h
      rcases mem_cons.mp h with rfl | h
      · have hfirst := ih (hrest ▸ mem_cons_self)
        exact fun hmem => (mem_cons.mp hmem).elim (Ne.symm hc) hfirst
      · exact ih (hrest ▸ mem_cons_of_mem first h)

theorem act_names (hparts : ∀ p ∈ parts, '/' ∉ p) (hstack : ∀ x ∈ stack, Name x) :
    ∀ x ∈ act allow stack parts, Name x := by
  induction parts generalizing stack with
  | nil => exact hstack
  | cons p parts ih =>
    refine ih (fun q hq => hparts q (mem_cons_of_mem p hq)) fun x hx => ?_
    rcases mem_normalizePart hx with h | ⟨rfl, hne, hdot, -⟩
    · exact hstack x h
    · exact ⟨hne, hdot, hparts x mem_cons_self⟩

theorem act_false (parts : List CStr) (hstack : "..".toList ∉ stack) :
    act false stack parts = parts.foldl stackStep stack ∧ "..".toList ∉ act false stack parts := by
  induction parts generalizing stack with
  | nil => exact ⟨rfl, hstack⟩
  | cons p parts ih =>
    have hstep : normalizePart false stack p = stackStep stack p := by
      unfold normalizePart stackStep
      grind
    have hnext : "..".toList ∉ stackStep stack p := by
      rw [← hstep]
      intro hmem
      rcases mem_normalizePart hmem with h | ⟨h, -, -, hallow⟩
      · exact hstack h
      · cases hallow h.symm
    rw [foldl_cons, ← hstep]
    exact ih (hstep ▸ hnext)

theorem act_of_names (hnames : ∀ x ∈ parts, Name x) (hup : "..".toList ∉ parts) :
    act allow stack parts = parts.reverse ++ stack := by
  induction parts generalizing stack with
  | nil => rfl
  | cons p parts ih =>
    have hp : p ≠ "..".toList := fun e => hup (e ▸ mem_cons_self)
    rw [act, foldl_cons, normalizePart_name (hnames p mem_cons_self) hp]
    rw [reverse_cons, append_assoc]
    exact ih (fun x hx => hnames x (mem_cons_of_mem p hx)) fun h => hup (mem_cons_of_mem p h)

theorem act_normal (hparts : ∀ p ∈ parts, '/' ∉ p) :
    act allow stack (act true [] parts).reverse = act allow stack parts := by
  induction parts using reverseRecOn with
  | nil => rfl
  | append_singleton parts p ih =>
    have hrest : ∀ q ∈ parts, '/' ∉ q := fun q hq => hparts q (mem_append_left _ hq)
    have hnames : ∀ x ∈ act true [] parts, Name x := act_names hrest (forall_mem_nil Name)
    have hih := ih hrest
    rw [act_append, act_append]
    show act allow stack (normalizePart true _ p).reverse = normalizePart allow _ p
    -- unless a name is taken away, the part is skipped, or it is the last one
    have hpush : ∀ {res : List CStr}, act allow stack res.reverse = act allow stack parts →
        act allow stack (p :: res).reverse = normalizePart allow (act allow stack parts) p := by
      intro res hres
      rw [reverse_cons, act_append, hres]
      rfl
    by_cases hskip : p = [] ∨ p = ".".toList
    · rw [normalizePart_skip hskip, normalizePart_skip hskip, hih]
    · by_cases hup : p = "..".toList
      · subst hup
        cases hres : act true [] parts with
        | nil =>
          rw [hres] at hih
          exact hpush hih
        | cons last before =>
          rw [hres] at hih hnames
          by_cases hlast : last = "..".toList
          · subst hlast
            exact hpush hih
          · rw [normalizePart_cons hlast, ← hih, reverse_cons, act_append]
            show _ = normalizePart allow (normalizePart allow _ last) _
            rw [normalizePart_name (hnames last mem_cons_self) hlast, normalizePart_cons hlast]
      · have hp : Name p :=
          ⟨fun e => hskip (.inl e), fun e => hskip (.inr e), hparts p (by simp)⟩
        exact (congrArg (act allow stack ∘ reverse) (normalizePart_name hp hup)).trans (hpush hih)

theorem act_true (parts : List CStr) :
    ∃ n names, act true [] parts = names ++ replicate n "..".toList ∧ "..".toList ∉ names := by
  induction parts using reverseRecOn with
  | nil => exact ⟨0, [], rfl, not_mem_nil⟩
  | append_singleton parts p ih =>
    obtain ⟨n, names, hstack, hnames⟩ := ih
    rw [act_append, hstack]
    show ∃ n' names', normalizePart true (names ++ replicate n "..".toList) p = _ ∧ _
    by_cases hskip : p = [] ∨ p = ".".toList
    · exact ⟨n, names, normalizePart_skip hskip, hnames⟩
    · by_cases hup : p = "..".toList
      · subst hup
        cases names with
        | nil => exact ⟨n + 1, [], by cases n <;> rfl, not_mem_nil⟩
        | cons last before =>
          rw [mem_cons, not_or] at hnames
          exact ⟨n, before, normalizePart_cons (Ne.symm hnames.1), hnames.2⟩
      · refine ⟨n, p :: names, ?_, ?_⟩
        · rw [normalizePart.eq_def, if_neg hskip, if_neg hup]
          rfl
        · rw [mem_cons, not_or]
          exact ⟨Ne.symm hup, hnames⟩

theorem components_of_not_mem (h : '/' ∉ p) : components p = [p] := by
  induction p with
  | nil => rfl
  | cons c p ih =>
    rw [mem_cons, not_or] at h
    obtain ⟨first, others, hp, hcons⟩ := components_cons (Ne.symm h.1) p
    rw [ih h.2, cons.injEq] at hp
    rw [hcons, ← hp.1, ← hp.2]

theorem components_intercalate (hne : parts ≠ []) (h : ∀ x ∈ parts, '/' ∉ x) :
    components (['/'].intercalate parts) = parts := by
  induction parts with
  | nil => exact absurd rfl hne
  | cons x parts ih =>
    have hx := components_of_not_mem (h x mem_cons_self)
    by_cases hnil : parts = []
    · subst hnil
      simpa using hx
    · rw [intercalate_cons_of_ne_nil hnil, append_assoc, singleton_append,
        components_append_slash, hx, ih hnil fun y hy => h y (mem_cons_of_mem x hy)]
      rfl

/-- The parts that are written: `.` stands for no part of a relative path. -/
def core (isAbsolute : Bool) (parts : List CStr) : List CStr :=
  if parts = [] ∧ isAbsolute = false then [".".toList] else parts

/-- What `render` gives is a path with the parts that it has been given. -/
structure Rendered (root slash : Bool) (parts : List CStr) (path : CStr) : Prop where
  start : isAbsolute path = root
  fold : ∀ allow stack, act allow stack (components path) = act allow stack parts
  components : components path
    = endComponent root ++ (core root parts ++ endComponent (trailingSlash path))
  again : render root (trailingSlash path) parts = path
  relative : root = false → trailingSlash path = slash ∧ path ≠ []

variable {root slash : Bool}

theorem head_of_isAbsolute (h : isAbsolute p = true) : (components p).head? = some [] := by
  obtain ⟨rest, rfl⟩ := isPrefixOf_iff_prefix.mp h
  rfl

theorem getLast_of_trailingSlash (h : trailingSlash p = true) :
    (components p).getLast? = some [] := by
  obtain ⟨front, rfl⟩ := getLast?_eq_some_iff.mp (of_decide_eq_true h)
  rw [components_append_slash]
  exact getLast?_append_of_ne_nil _ (cons_ne_nil _ _)

/-- A normal path is read back as its parts. -/
theorem rendered (h : ∀ x ∈ parts, Name x) :
    Rendered root slash parts (render root slash parts) := by
  by_cases hroot : parts = [] ∧ root = true
  · obtain ⟨rfl, rfl⟩ := hroot
    exact ⟨rfl, fun _ _ => rfl, rfl, rfl, fun h => by cases h⟩
  have hcore : ∀ x ∈ core root parts, x ≠ [] ∧ '/' ∉ x := by
    unfold core
    split
    · decide
    · exact fun x hx => ⟨(h x hx).nonempty, (h x hx).slash⟩
  have hne : core root parts ≠ [] := by
    unfold core
    grind
  have hbody := components_intercalate hne fun x hx => (hcore x hx).2
  have hnil : ['/'].intercalate (core root parts) ≠ [] := by
    intro e
    rw [e] at hbody
    exact (hcore [] (hbody ▸ mem_cons_self)).1 rfl
  have hrender : render root slash parts = (if root then ['/'] else [])
      ++ (['/'].intercalate (core root parts) ++ if slash then ['/'] else []) := by
    by_cases hparts : parts = []
    · have hrelative : root = false := Bool.eq_false_iff.mpr fun e => hroot ⟨hparts, e⟩
      subst hparts hrelative
      cases slash <;> rfl
    · have hself : core root parts = parts := if_neg fun e => hparts e.1
      rw [hself] at hnil ⊢
      cases root <;> cases slash <;> simp [render, hnil]
  have hcomp : components (render root slash parts)
      = endComponent root ++ (core root parts ++ endComponent slash) := by
    have hfront : ∀ r, components ((if root then ['/'] else []) ++ r)
        = endComponent root ++ components r := by
      intro r
      cases root <;> rfl
    rw [hrender, hfront]
    cases slash with
    | true => exact congrArg _ ((components_append_slash _ []).trans (congrArg (· ++ [[]]) hbody))
    | false => simp [hbody, endComponent]
  have hlast : trailingSlash (render root slash parts) = slash := by
    cases slash with
    | true => simp [hrender, trailingSlash]
    | false =>
      by_contra hend
      have hget := getLast_of_trailingSlash ((Bool.not_eq_false _).mp hend)
      rw [hcomp, ← append_assoc] at hget
      simp only [endComponent, Bool.false_eq_true, if_false, append_nil] at hget
      rw [getLast?_append_of_ne_nil _ hne] at hget
      exact (hcore [] (mem_of_getLast? hget)).1 rfl
  refine ⟨?_, fun allow stack => ?_, ?_, by rw [hlast], fun _ => ⟨hlast, ?_⟩⟩
  · cases root with
    | true => simp [hrender, isAbsolute, startsWith]
    | false =>
      by_contra habs
      have hhead := head_of_isAbsolute ((Bool.not_eq_false _).mp habs)
      rw [hcomp] at hhead
      simp only [endComponent, Bool.false_eq_true, if_false, nil_append,
        head?_append_of_ne_nil _ hne] at hhead
      exact (hcore [] (mem_of_head? hhead)).1 rfl
  · have hskip : ∀ (b : Bool) stack, act allow stack (endComponent b) = stack := by
      intro b stack
      cases b <;> rfl
    rw [hcomp, act_append, act_append, hskip, hskip]
    unfold core
    split
    · next hdot => rw [hdot.1]; rfl
    · rfl
  · rw [hcomp, hlast]
  · rw [hrender]
    simp [hnil]

theorem normal_names (path : CStr) : ∀ x ∈ pathNormalizeArray (components path) allow, Name x := by
  intro x hx
  exact act_names (fun _ => mem_components) (forall_mem_nil Name) x (mem_reverse.mp hx)

theorem rendered_pathNormalize (path : CStr) : Rendered (isAbsolute path) (trailingSlash path)
    (pathNormalizeArray (components path) !isAbsolute path) (pathNormalize path) := by
  rw [pathNormalize_eq]
  exact rendered (normal_names path)

/-- The normal form of a relative path does to any stack what the path does. -/
theorem act_pathNormalize_relative {path : CStr} (h : isAbsolute path = false) (stack : List CStr) :
    act allow stack (components (pathNormalize path)) = act allow stack (components path) := by
  have hr := rendered_pathNormalize path
  rw [h] at hr
  rw [hr.fold]
  exact act_normal fun _ => mem_components

/-- From an empty stack on, the normal form of any path does what the path does. -/
theorem act_pathNormalize (path : CStr) :
    act (!isAbsolute path) [] (components (pathNormalize path))
      = act (!isAbsolute path) [] (components path) := by
  cases h : isAbsolute path with
  | false => exact act_pathNormalize_relative h []
  | true =>
    have hr := rendered_pathNormalize path
    rw [h] at hr
    have hup := (act_false (components path) not_mem_nil).2
    rw [hr.fold]
    refine (act_of_names (normal_names path) fun hmem => hup (mem_reverse.mp hmem)).trans ?_
    rw [append_nil]
    exact reverse_reverse _

theorem pathNormalize_pathNormalize (path : CStr) :
    pathNormalize (pathNormalize path) = pathNormalize path := by
  have hr := rendered_pathNormalize path
  rw [pathNormalize_eq (pathNormalize path), hr.start, pathNormalizeArray]
  exact (congrArg (fun x => render _ _ x.reverse) (act_pathNormalize path)).trans hr.again

variable {a b c : CStr}

theorem pathJoin_absolute (hb : isAbsolute b = true) : pathJoin a b = pathNormalize b := if_pos hb

theorem pathJoin_relative (a : CStr) (hb : isAbsolute b = false) (hne : b ≠ []) :
    ∃ path, pathJoin a b = pathNormalize path ∧ isAbsolute path = isAbsolute a ∧
      trailingSlash path = trailingSlash b ∧
      ∀ allow stack, act allow stack (components path)
        = act allow (act allow stack (components a)) (components b) := by
  have hstart : ¬ startsWith b ['/'] = true := Bool.eq_false_iff.mp hb
  by_cases ha : a = []
  · subst ha
    refine ⟨b, ?_, hb, rfl, fun _ _ => rfl⟩
    rw [pathJoin, if_neg hstart, if_pos rfl]
  · refine ⟨a ++ '/' :: b, ?_, ?_, ?_, fun allow stack => ?_⟩
    · rw [pathJoin, if_neg hstart, if_neg ha, if_neg hne]
    · obtain ⟨d, rest, rfl⟩ := exists_cons_of_ne_nil ha
      rfl
    · obtain ⟨d, rest, rfl⟩ := exists_cons_of_ne_nil hne
      simp [trailingSlash]
    · rw [components_append_slash, act_append]

theorem pathNormalize_congr {q : CStr} (hroot : isAbsolute p = isAbsolute q)
    (hslash : trailingSlash p = trailingSlash q)
    (hact : act (!isAbsolute q) [] (components p) = act (!isAbsolute q) [] (components q)) :
    pathNormalize p = pathNormalize q := by
  rw [pathNormalize_eq, pathNormalize_eq, hroot, hslash]
  exact congrArg (fun x => render _ _ x.reverse) hact

theorem pathJoin_assoc (a : CStr) (hb : b ≠ []) (hc : c ≠ []) :
    pathJoin (pathJoin a b) c = pathJoin a (pathJoin b c) := by
  cases hcr : isAbsolute c with
  | true =>
    have hr := rendered_pathNormalize c
    rw [pathJoin_absolute hcr, pathJoin_absolute hcr,
      pathJoin_absolute (hr.start.trans hcr), pathNormalize_pathNormalize]
  | false =>
    obtain ⟨bc, hbc, hroot, hslash, hact⟩ := pathJoin_relative b hcr hc
    have hr := rendered_pathNormalize bc
    rw [hbc]
    cases hbr : isAbsolute b with
    | true =>
      have hrb := rendered_pathNormalize b
      rw [pathJoin_absolute hbr, pathJoin_absolute (hr.start.trans (hroot.trans hbr)),
        pathNormalize_pathNormalize]
      obtain ⟨p, hp, hproot, hpslash, hpact⟩ := pathJoin_relative (pathNormalize b) hcr hc
      rw [hp]
      refine pathNormalize_congr (by rw [hproot, hrb.start, hroot]) (hpslash.trans hslash.symm) ?_
      rw [hpact, hact, hroot, act_pathNormalize]
    | false =>
      rw [hbr] at hroot
      obtain ⟨ab, hab, habroot, habslash, habact⟩ := pathJoin_relative a hbr hb
      rw [hroot] at hr
      obtain ⟨hbcslash, hbcne⟩ := hr.relative rfl
      obtain ⟨q, hq, hqroot, hqslash, hqact⟩ := pathJoin_relative a hr.start hbcne
      obtain ⟨p, hp, hproot, hpslash, hpact⟩ := pathJoin_relative (pathNormalize ab) hcr hc
      have hrab := rendered_pathNormalize ab
      rw [hab, hp, hq]
      refine pathNormalize_congr ?_ ?_ ?_
      · rw [hproot, hrab.start, habroot, hqroot]
      · rw [hpslash, hqslash, hbcslash, hslash]
      · rw [hpact, hqact, act_pathNormalize_relative hroot, hact, hqroot, ← habroot,
          act_pathNormalize, habact]

/--
`pathNormalize` is idempotent. The components of its result are, for an absolute path, an empty one
for the slash in front, the names that are left on the stack, and an empty one if the result ends
with a slash; for a relative path the `..` come first. `pathJoin` is associative.
-/
theorem path_laws :
    (∀ path, pathNormalize (pathNormalize path) = pathNormalize path) ∧
    (∀ path, isAbsolute path = true → isAbsolute (pathNormalize path) = true ∧
      ∃ stack, stack = ((components path).foldl stackStep []).reverse ∧
        components (pathNormalize path)
          = [] :: (stack ++ endComponent (trailingSlash (pathNormalize path))) ∧
        ∀ x ∈ stack, x ≠ [] ∧ x ≠ ".".toList ∧ x ≠ "..".toList) ∧
    (∀ path, isAbsolute path = false →
      ∃ n rest, components (pathNormalize path) = replicate n "..".toList ++ rest ∧
        "..".toList ∉ rest) ∧
    ∀ a b c, b ≠ [] → c ≠ [] → pathJoin (pathJoin a b) c = pathJoin a (pathJoin b c) := by
  refine ⟨pathNormalize_pathNormalize, fun path h => ?_, fun path h => ?_,
    fun a b c => pathJoin_assoc a⟩
  · have hr := rendered_pathNormalize path
    rw [h] at hr
    obtain ⟨hstack, hup⟩ := act_false (components path) not_mem_nil
    have hcore : core true (act false [] (components path)).reverse
        = (act false [] (components path)).reverse := if_neg fun e => by cases e.2
    refine ⟨hr.start, _, by rw [← hstack], hr.components.trans ?_, fun x hx => ?_⟩
    · exact congrArg (fun parts => [] :: (parts ++ endComponent _)) hcore
    · have hx := mem_reverse.mp hx
      have hname := act_names (fun _ => mem_components) (forall_mem_nil Name) x hx
      exact ⟨hname.nonempty, hname.dot, fun e => hup (e ▸ hx)⟩
  · have hr := rendered_pathNormalize path
    rw [h] at hr
    obtain ⟨n, rest, hstack, hup⟩ := act_true (components path)
    have hend : "..".toList ∉ endComponent (trailingSlash (pathNormalize path)) := by
      cases trailingSlash (pathNormalize path) <;> decide
    have hcomp : components (pathNormalize path)
        = core false (act true [] (components path)).reverse
        ++ endComponent (trailingSlash (pathNormalize path)) := hr.components
    rw [hcomp, core]
    split
    · exact ⟨0, [".".toList] ++ _, rfl, not_mem_append (by decide) hend⟩
    · refine ⟨n, rest.reverse ++ _, ?_,
        not_mem_append (fun hmem => hup (mem_reverse.mp hmem)) hend⟩
      rw [hstack, reverse_append, reverse_replicate, append_assoc]

end IosSystem.Directory
