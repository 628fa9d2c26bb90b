import IosSystem.Directory.Change

/-!
# Staying inside the sandbox

A call goes to the directory first and asks afterwards. If the answer is no, it depends on the
session, and on a second change of directory, whether the process gets back. The test compares the
beginnings of strings, so that `/home2` passes for `/home`. `kept_iff_meets` is the exact condition.
-/

namespace IosSystem.Directory

open List Function State Result
open IosSystem.Shell
open IosSystem.Interp.Instances (startsWith)

/-- The call returns an error status, sets `errno` or prints a message. -/
def Result.failed (r : Result) : Prop := r.status ≠ 0 ∨ r.error.isSome = true

section

variable (config : Config)

/--
If the working directory is inside an allowed directory before the call, it is so afterwards, and it
is the same if the call fails.
-/
def Kept (s : State) (c : Call) : Prop :=
  s.allowed config c.thread s.cwd = true →
    (s.call config c).state.allowed config c.thread (s.call config c).state.cwd = true ∧
      ((s.call config c).failed → (s.call config c).state.cwd = s.cwd)

/-- Where a call with a session wants to go back to from `dir`. -/
def State.retreat (s : State) (i : Nat) (real : Names) (dir : CStr) : CStr :=
  real dir (if startsWith config.miniRoot dir then config.miniRoot else (s.sessions i).currentDir)

/--
A directory that passes the test is inside an allowed one. From any other, the thread gets back to
where it was: it has a session, and the second change of directory is made and leads there.
-/
def State.Returns (s : State) (t : Nat) (dir : CStr) (o : Outcome) : Prop :=
  if s.allowedCdToPath config t dir then s.allowed config t dir = true
  else ∃ i, s.current t = some i ∧ o.back = true ∧ s.retreat config i o.real dir = s.cwd

/-- The directory after `ios_switchSession`. -/
def State.switched (s : State) (i : Nat) (o : Outcome) : CStr :=
  if (s.sessions i).currentDir ≠ s.cwd ∧ o.changed = true then
    o.real s.cwd (s.sessions i).currentDir
  else s.cwd

/-- The call leads into an allowed directory, if it starts from one. -/
def Condition (s : State) (c : Call) : Prop :=
  s.allowed config c.thread s.cwd = true →
    match c with
    | .chdir t path o | .chdirNolock t path o =>
      o.error = none → s.Returns config t (o.real s.cwd path) o
    | .fchdir t dir o | .fchdirNolock t dir o => o.changed = true → s.Returns config t dir o
    | .cd t (some dir) o => ∀ i, s.current t = some i → o.error = none →
      s.Returns config t (o.real s.cwd (pathJoin (s.sessions i).currentDir
        (if dir = "-".toList then (s.sessions i).previousDirectory else dir))) o
    | .cd t none o => s.current t ≠ none → o.changed = true →
      s.allowed config t (o.real s.cwd config.miniRoot) = true
    | .switchSession t i o => s.current t ≠ some i →
      { s with current := Function.update s.current t (some i) }.allowed config t
        (s.switched i o) = true

end

variable {config : Config} {s : State} {t : Nat}

/-! ## The allowed directories -/

variable {dir : CStr} {o : Outcome} {path : CStr}

theorem startsWith_of_inside (h : inside path dir = true) : startsWith path dir = true := by
  rw [inside, Bool.or_eq_true, decide_eq_true_iff] at h
  rw [startsWith, isPrefixOf_iff_prefix]
  rcases h with rfl | h
  · exact prefix_refl path
  · rw [startsWith, isPrefixOf_iff_prefix] at h
    split at h
    · exact h
    · exact (prefix_append dir ['/']).trans h

theorem allowedCdToPath_of_allowed (h : s.allowed config t path = true) :
    s.allowedCdToPath config t path = true := by
  simp only [allowed, allowedCdToPath, permits, Bool.or_eq_true, any_eq_true]
    at h ⊢
  rcases h with (h | h) | ⟨dir, hmem, h⟩
  · exact .inl (.inl (startsWith_of_inside h))
  · refine .inl (.inr ?_)
    cases hx : s.session t with
    | none => simp [hx] at h
    | some x =>
      simp only [hx, Bool.and_eq_true] at h ⊢
      exact ⟨h.1, startsWith_of_inside h.2⟩
  · exact .inr ⟨dir, hmem, startsWith_of_inside h⟩

theorem permits_congr {s' : State} {test : CStr → CStr → Bool}
    (h : (s'.session t).map Session.localMiniRoot = (s.session t).map Session.localMiniRoot)
    (path : CStr) : s'.permits config test t path = s.permits config test t path := by
  unfold permits
  cases hs : s.session t with
  | none =>
    cases hs' : s'.session t with
    | none => rfl
    | some y => simp [hs, hs'] at h
  | some x =>
    cases hs' : s'.session t with
    | none => simp [hs, hs'] at h
    | some y =>
      have hroot : y.localMiniRoot = x.localMiniRoot := by simpa [hs, hs'] using h
      simp [hroot]

theorem permits_setSession {i : Nat} {f : Session → Session}
    (hf : ∀ x, (f x).localMiniRoot = x.localMiniRoot) (test : CStr → CStr → Bool) (path : CStr) :
    (s.setSession i f).permits config test t path = s.permits config test t path := by
  apply permits_congr
  show ((s.current t).map (update s.sessions i (f (s.sessions i)))).map _
    = ((s.current t).map s.sessions).map _
  cases s.current t with
  | none => rfl
  | some j =>
    by_cases hj : j = i
    · subst hj
      simp [hf]
    · simp [update_of_ne hj]

theorem allowed_change {real : Names} {ok : Bool} (path : CStr) :
    (s.change real ok dir).allowed config t path = s.allowed config t path := by
  cases ok <;> rfl

/-! ## The common end of the functions -/

variable {store : Session → Session}

theorem kept_settle_of_accepted (o : Outcome)
    (hstore : ∀ x, (store x).localMiniRoot = x.localMiniRoot)
    (haccepted : s.allowedCdToPath config t dir = true) (status : Int → Int)
    (hstatus : status 0 = 0) : let r := { s with cwd := dir }.settle config t store o.real o.back
    r.state.allowed config t r.state.cwd = s.allowed config t dir ∧ r.state.cwd = dir ∧
      ¬failed { r with status := status r.status } := by
  have htest : { s with cwd := dir }.allowedCdToPath config t dir = true := haccepted
  unfold settle
  simp only [htest]
  cases hc : s.current t with
  | none => exact ⟨rfl, rfl, by simp [failed, hstatus]⟩
  | some i =>
    exact ⟨permits_setSession hstore inside dir, rfl, by simp [failed, hstatus]⟩

/-- The directory of the process after a `cd` that was not allowed. -/
def State.refused (config : Config) (s : State) (t : Nat) (dir : CStr) (o : Outcome) : CStr :=
  match s.current t with
  | none => dir
  | some i => if o.back then s.retreat config i o.real dir else dir

theorem cwd_settle_of_refused (store : Session → Session) (o : Outcome)
    (hrefused : s.allowedCdToPath config t dir = false) :
    let r := { s with cwd := dir }.settle config t store o.real o.back
    r.state.cwd = s.refused config t dir o ∧ r.error = some .permissionDenied ∧
      ∀ path, r.state.allowed config t path = s.allowed config t path := by
  have htest : { s with cwd := dir }.allowedCdToPath config t dir = false := hrefused
  unfold settle refused retreat
  simp only [htest, Bool.false_eq_true, if_false]
  cases hc : s.current t with
  | none => exact ⟨rfl, rfl, fun _ => rfl⟩
  | some i =>
    by_cases habove : startsWith config.miniRoot dir = true
    · simp only [habove, if_true]
      refine ⟨by cases o.back <;> rfl, trivial, fun path => ?_⟩
      refine Eq.trans (permits_setSession ?_ inside path) (allowed_change path)
      intro x
      rfl
    · simp only [habove, Bool.false_eq_true, if_false]
      refine ⟨by cases o.back <;> rfl, trivial, fun path => ?_⟩
      exact allowed_change path

theorem refused_eq_cwd_iff (hallowed : s.allowed config t s.cwd = true)
    (hrefused : s.allowedCdToPath config t dir = false) :
    s.refused config t dir o = s.cwd ↔
      ∃ i, s.current t = some i ∧ o.back = true ∧ s.retreat config i o.real dir = s.cwd := by
  have hne : dir ≠ s.cwd := by
    rintro rfl
    rw [allowedCdToPath_of_allowed hallowed] at hrefused
    cases hrefused
  unfold refused
  cases hc : s.current t with
  | none => simp [hne]
  | some i => cases o.back <;> simp [hne]

theorem kept_settle_iff (hstore : ∀ x, (store x).localMiniRoot = x.localMiniRoot)
    (hallowed : s.allowed config t s.cwd = true) (status : Int → Int) (hstatus : status 0 = 0) :
    let r := { s with cwd := dir }.settle config t store o.real o.back
    (r.state.allowed config t r.state.cwd = true ∧
        (failed { r with status := status r.status } → r.state.cwd = s.cwd)) ↔
      s.Returns config t dir o := by
  unfold State.Returns
  cases htest : s.allowedCdToPath config t dir with
  | true =>
    obtain ⟨hin, -, hok⟩ := kept_settle_of_accepted o hstore htest status hstatus
    simp only [if_true]
    rw [hin]
    exact ⟨fun h => h.1, fun h => ⟨h, fun hfailed => absurd hfailed hok⟩⟩
  | false =>
    obtain ⟨hcwd, herror, hin⟩ := cwd_settle_of_refused store o htest
    simp only [Bool.false_eq_true]
    rw [hin, hcwd, ← refused_eq_cwd_iff hallowed htest]
    constructor
    · rintro ⟨-, h⟩
      exact h (.inr (by simp only [herror, Option.isSome_some]))
    · intro h
      rw [h]
      exact ⟨hallowed, fun _ => rfl⟩

/-! ## The calls -/

section

variable (hallowed : s.allowed config t s.cwd = true)
include hallowed

theorem kept_of_same {r : Result} (h : r.state = s) :
    r.state.allowed config t r.state.cwd = true ∧ (r.failed → r.state.cwd = s.cwd) := by
  rw [h]
  exact ⟨hallowed, fun _ => rfl⟩

theorem kept_chdir_iff : let r := s.chdir config t path o
    (r.state.allowed config t r.state.cwd = true ∧ (r.failed → r.state.cwd = s.cwd)) ↔
      (o.error = none → s.Returns config t (o.real s.cwd path) o) := by
  unfold chdir
  cases he : o.error with
  | some e => exact iff_of_true (kept_of_same hallowed rfl) nofun
  | none =>
    rw [imp_iff_right rfl]
    refine kept_settle_iff ?_ hallowed id rfl
    exact fun _ => rfl

theorem kept_fchdir_iff : let r := s.fchdir config t dir o
    (r.state.allowed config t r.state.cwd = true ∧ (r.failed → r.state.cwd = s.cwd)) ↔
      (o.changed = true → s.Returns config t dir o) := by
  unfold fchdir
  cases o.changed with
  | false => exact iff_of_true (kept_of_same hallowed rfl) nofun
  | true =>
    rw [imp_iff_right rfl]
    refine kept_settle_iff ?_ hallowed id rfl
    exact fun _ => rfl

theorem kept_cdToDir_iff {newDir : CStr} : let r := s.cdToDir config t newDir o
    (r.state.allowed config t r.state.cwd = true ∧ (r.failed → r.state.cwd = s.cwd)) ↔
      (o.error = none → s.Returns config t (o.real s.cwd newDir) o) := by
  unfold cdToDir
  cases he : o.error with
  | some e => exact iff_of_true (kept_of_same hallowed rfl) nofun
  | none =>
    rw [imp_iff_right rfl]
    refine kept_settle_iff ?_ hallowed (fun _ => 0) rfl
    exact fun _ => rfl

theorem kept_cdMain_home_iff : let r := s.cdMain config t none o
    (r.state.allowed config t r.state.cwd = true ∧ (r.failed → r.state.cwd = s.cwd)) ↔
      (s.current t ≠ none → o.changed = true →
        s.allowed config t (o.real s.cwd config.miniRoot) = true) := by
  unfold cdMain
  cases hc : s.current t with
  | none => exact iff_of_true (kept_of_same hallowed rfl) fun h => absurd rfl h
  | some i =>
    have hok : ∀ s' : State, ¬failed ⟨0, none, s'⟩ := fun s' => by simp [failed]
    rw [imp_iff_right (Option.some_ne_none i)]
    refine (and_iff_left fun hfailed => absurd hfailed (hok _)).trans ?_
    refine (Bool.eq_iff_iff.mp (permits_setSession ?_ inside _)).trans ?_
    · exact fun _ => rfl
    cases o.changed with
    | false => exact iff_of_true hallowed nofun
    | true =>
      rw [imp_iff_right rfl]
      exact Iff.rfl

theorem kept_switchSession_iff {i : Nat} : let r := s.switchSession t i o
    (r.state.allowed config t r.state.cwd = true ∧ (r.failed → r.state.cwd = s.cwd)) ↔
      (s.current t ≠ some i →
        { s with current := update s.current t (some i) }.allowed config t
          (s.switched i o) = true) := by
  unfold switchSession switched
  by_cases hi : s.current t = some i
  · rw [if_pos hi]
    exact iff_of_true (kept_of_same hallowed rfl) (fun h => absurd hi h)
  · rw [if_neg hi, imp_iff_right hi]
    by_cases hdir : (s.sessions i).currentDir = s.cwd
    · simp [hdir]
    · cases hc : o.changed with
      | false => simp [change]
      | true =>
        have hne : (s.sessions i).currentDir ≠ s.cwd ∧ true = true := ⟨hdir, rfl⟩
        rw [if_pos hne]
        simp only [hdir]
        exact and_iff_left fun hfailed => absurd hfailed (by simp [failed])

end

theorem kept_iff (s : State) (c : Call) : Kept config s c ↔ Condition config s c := by
  refine imp_congr_right fun hallowed => ?_
  cases c with
  | chdir t path o | chdirNolock t path o => exact kept_chdir_iff hallowed
  | fchdir t dir o | fchdirNolock t dir o => exact kept_fchdir_iff hallowed
  | switchSession t i o => exact kept_switchSession_iff hallowed
  | cd t arg o =>
    cases arg with
    | none => exact kept_cdMain_home_iff hallowed
    | some dir =>
      simp only [call, cdMain]
      cases hc : s.current t with
      | none => exact iff_of_true (kept_of_same hallowed rfl) fun _ h => by cases h
      | some i =>
        simp only [Option.some.injEq, forall_eq']
        exact kept_cdToDir_iff hallowed

/-! ## Results -/

/-- In a sequence of calls, all of them are kept just if all of them meet the condition. -/
theorem kept_iff_meets (config : Config) (s : State) (cs : List Call) :
    Transition.Meets (step config) (Kept config) s cs ↔
      Transition.Meets (step config) (Condition config) s cs :=
  Transition.meets_congr (fun s _ c _ => kept_iff s c) s cs

/-- The mini-root is `/home`. -/
def homeOnly : Config := ⟨"/home".toList, []⟩

/-- A thread without a session calls `chdir`, is told that this is not permitted, and is there. -/
theorem forbidden_without_session :
    ∃ (s : State) (c : Call), s.allowed homeOnly c.thread s.cwd = true ∧
      (s.call homeOnly c).status = -1 ∧ (s.call homeOnly c).state.cwd = "/etc".toList ∧
      (s.call homeOnly c).state.allowed homeOnly c.thread "/etc".toList = false ∧
      ¬Kept homeOnly s c := by
  refine ⟨⟨"/home".toList, fun _ => ⟨[], [], []⟩, fun _ => none⟩,
    .chdir 0 "/etc".toList ⟨fun _ path => path, true, true, true, true, true⟩, by decide +kernel,
      by decide +kernel,
    by decide +kernel, by decide +kernel, fun h => ?_⟩
  have hcwd := (h (by decide +kernel)).2 (.inl (by decide +kernel))
  revert hcwd
  decide +kernel

/-! ## The test and the components of a path -/

/-- What the test compares a path with: the mini-root, that of the session, and the allowed paths.
-/
def State.roots (config : Config) (s : State) (t : Nat) : List CStr :=
  config.miniRoot ::
    (((s.session t).toList.map Session.localMiniRoot).filter (· ≠ []) ++ config.allowedPaths)

/-- The root, or a path behind a slash. -/
def Below (path root : CStr) : Prop := path = root ∨ ∃ rest, path = root ++ '/' :: rest

/-- The root is continued by another character. -/
def Sibling (path root : CStr) : Prop := ∃ c rest, c ≠ '/' ∧ path = root ++ c :: rest

theorem startsWith_iff_below_or_sibling (path root : CStr) :
    startsWith path root = true ↔ Below path root ∨ Sibling path root := by
  rw [startsWith, isPrefixOf_iff_prefix]
  constructor
  · rintro ⟨rest, rfl⟩
    cases rest with
    | nil => exact .inl (.inl (append_nil root))
    | cons c rest =>
      by_cases hc : c = '/'
      · subst hc
        exact .inl (.inr ⟨rest, rfl⟩)
      · exact .inr ⟨c, rest, hc, rfl⟩
  · rintro ((rfl | ⟨rest, rfl⟩) | ⟨c, rest, -, rfl⟩)
    · exact prefix_refl path
    · exact prefix_append root _
    · exact prefix_append root _

theorem permits_iff (test : CStr → CStr → Bool) (path : CStr) :
    s.permits config test t path = true ↔ ∃ root ∈ s.roots config t, test path root = true := by
  simp only [permits, roots, Bool.or_eq_true, exists_mem_cons_iff,
    mem_append, or_and_right, exists_or, or_assoc]
  cases s.session t <;> simp

theorem components_ne_nil (path : CStr) : components path ≠ [] := by
  cases path with
  | nil => exact cons_ne_nil _ _
  | cons c path =>
    rw [components]
    split
    · exact cons_ne_nil _ _
    · split <;> exact cons_ne_nil _ _

theorem components_cons {c : Char} (hc : c ≠ '/') (path : CStr) :
    ∃ part parts, components path = part :: parts ∧
      components (c :: path) = (c :: part) :: parts := by
  obtain ⟨part, parts, hpath⟩ := exists_cons_of_ne_nil (components_ne_nil path)
  exact ⟨part, parts, hpath, by rw [components, if_neg hc, hpath]⟩

theorem components_append_slash (a b : CStr) :
    components (a ++ '/' :: b) = components a ++ components b := by
  induction a with
  | nil => rfl
  | cons c a ih =>
    by_cases hc : c = '/'
    · subst hc
      exact congrArg ([] :: ·) ih
    · obtain ⟨part, parts, ha, hca⟩ := components_cons hc a
      obtain ⟨part', parts', hab, hcab⟩ := components_cons hc (a ++ '/' :: b)
      rw [ih, ha, cons_append, cons.injEq] at hab
      rw [cons_append, hcab, hca, ← hab.1, ← hab.2]
      rfl

theorem intercalate_components (path : CStr) : ['/'].intercalate (components path) = path := by
  induction path with
  | nil => rfl
  | cons c path ih =>
    by_cases hc : c = '/'
    · subst hc
      rw [components, if_pos rfl, intercalate_cons_of_ne_nil (components_ne_nil path), ih]
      rfl
    · obtain ⟨part, parts, hpath, hcons⟩ := components_cons hc path
      rw [hpath] at ih
      rw [hcons, ← ih]
      cases parts with
      | nil => simp
      | cons q parts => simp

theorem intercalate_append_slash {a b : List CStr} (ha : a ≠ []) (hb : b ≠ []) :
    ['/'].intercalate (a ++ b) = ['/'].intercalate a ++ '/' :: ['/'].intercalate b := by
  induction a with
  | nil => exact absurd rfl ha
  | cons part a ih =>
    by_cases hnil : a = []
    · subst hnil
      simp [intercalate_cons_of_ne_nil hb]
    · rw [cons_append, intercalate_cons_of_ne_nil (by simp [hnil]), ih hnil,
        intercalate_cons_of_ne_nil hnil, append_assoc _ _ ('/' :: _)]

theorem below_iff_components (path root : CStr) :
    Below path root ↔ components root <+: components path := by
  constructor
  · rintro (rfl | ⟨rest, rfl⟩)
    · exact prefix_refl _
    · rw [components_append_slash]
      exact prefix_append _ _
  · rintro ⟨parts, h⟩
    rw [Below, ← intercalate_components path, ← h]
    by_cases hparts : parts = []
    · subst hparts
      rw [append_nil, intercalate_components]
      exact .inl rfl
    · rw [intercalate_append_slash (components_ne_nil root) hparts, intercalate_components]
      exact .inr ⟨_, rfl⟩

/--
The test says yes for a path exactly if the path is below a root, unless it is only the sibling of
roots: then the test says yes as well.
-/
theorem allowedCdToPath_iff_below_iff (config : Config) (s : State) (t : Nat) (path : CStr) :
    (s.allowedCdToPath config t path = true ↔ ∃ root ∈ s.roots config t, Below path root) ↔
      ((∃ root ∈ s.roots config t, Sibling path root) →
        ∃ root ∈ s.roots config t, Below path root) := by
  have htest : s.allowedCdToPath config t path = true ↔
      (∃ root ∈ s.roots config t, Below path root) ∨
      ∃ root ∈ s.roots config t, Sibling path root := by
    simp [State.allowedCdToPath, permits_iff, startsWith_iff_below_or_sibling, and_or_left,
      exists_or]
  rw [htest]
  exact or_iff_left_iff_imp

/-- The mini-root is `/home`, and `/home2` is allowed. -/
theorem sibling_allowed :
    ∃ s : State, s.allowedCdToPath homeOnly 0 "/home2".toList = true ∧
      s.roots homeOnly 0 = ["/home".toList] ∧ ¬Below "/home2".toList "/home".toList := by
  refine ⟨⟨"/home".toList, fun _ => ⟨[], [], []⟩, fun _ => none⟩, by decide, by decide, ?_⟩
  rw [below_iff_components]
  decide

end IosSystem.Directory
