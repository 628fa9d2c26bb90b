import IosSystem.Shell.Redirect

/-!
# Command output and the structure of a line

Substitutions are expanded before any operator is looked for, so what a command prints is searched
for operators. Two runs of one line agree when the calls of `ios_system` have the same form
(`Agree`). The form does not depend on what the substitutions print exactly when `ios_system` runs
none (`agree_iff_quiet`).

For the other lines there is one output that always works. It starts with a word that leaves
`strstrquoted` outside quotes, whatever quotes were open before (`sync`), and goes on with more `;`
than the run with empty outputs has segments.
-/

namespace IosSystem.Shell

open List Shell.Action

/-! ## Runs that agree -/

mutual

/-- The same calls as far as both are finished. -/
def Plan.Agree : Plan → Plan → Prop
  | .unfinished, _ => True
  | .sequential _ ps, .sequential _ qs => Plan.AgreeAll ps qs
  | .conditional _ ops ps, .conditional _ ops' qs => ops = ops' ∧ Plan.AgreeAll ps qs
  | .pipeline _ share ps, .pipeline _ share' qs => share = share' ∧ Plan.AgreeAll ps qs
  | .overflow _, .overflow _ => True
  | .command t, .command t' => (redirections t).SameKind (redirections t')
  | _, .unfinished => True
  | _, _ => False

def Plan.AgreeAll : List Plan → List Plan → Prop
  | [], [] => True
  | p :: ps, q :: qs => p.Agree q ∧ Plan.AgreeAll ps qs
  | _, _ => False

end

def Env.withCapture (env : Env) (f : CStr → CStr) : Env := { env with capture := f }

/-- The texts that `ios_system` is called with next. -/
def Action.children : Action → List CStr
  | .sequential _ segments => segments
  | .conditional _ nodes => nodes.map Prod.fst
  | .pipeline _ _ stages => if stages.length ≤ maxPipelineStages then stages else []
  | .command _ => []

/-- `ios_system` runs no substitution for this text, down to the given depth. -/
def Env.Quiet (env : Env) : Nat → CStr → Prop
  | 0, _ => True
  | depth + 1, inputCmd =>
    ¬HasSubst (env.front inputCmd) ∧
      ∀ text ∈ (env.action (env.front inputCmd)).children, env.Quiet depth text

/-! ## Without substitutions -/

variable {text c : CStr} {fuel i : Nat} {r : List CStr × CStr} {env : Env} {s : Scan}

theorem expand_quiet (h : ¬HasSubst text) {f : CStr → CStr}
    (hr : expandSubstitutions f fuel text = some r) : r = ([], text) := by
  have h2 := expand_mono (Nat.le_max_left 2 fuel) (expand_of_not_hasSubst h f)
  have hr' := expand_mono (Nat.le_max_right 2 fuel) hr
  exact Option.some.inj (hr'.symm.trans h2)

theorem agreeAll_map {run run' : CStr → Plan} {texts : List CStr} :
    Plan.AgreeAll (texts.map run) (texts.map run')
      ↔ ∀ text ∈ texts, (run text).Agree (run' text) := by
  induction texts with
  | nil => exact ⟨fun _ t ht => (not_mem_nil ht).elim, fun _ => trivial⟩
  | cons t ts ih =>
    rw [forall_mem_cons, ← ih]
    exact Iff.rfl

theorem agreeAll_length {ps qs : List Plan} (h : Plan.AgreeAll ps qs) : ps.length = qs.length := by
  induction ps generalizing qs with
  | nil =>
    cases qs with
    | nil => rfl
    | cons q qs => exact h.elim
  | cons p ps ih =>
    cases qs with
    | nil => exact h.elim
    | cons q qs => exact congrArg Nat.succ (ih h.2)

theorem agree_unfinished (p : Plan) : p.Agree .unfinished := by
  cases p <;> exact trivial

theorem Redirections.SameKind.refl (r : Redirections) : r.SameKind r := ⟨rfl, rfl, rfl, rfl⟩

theorem map_node_eq (nodes : List (CStr × CondOp)) (run : CStr → Plan) :
    (nodes.map fun node => run node.1) = (nodes.map Prod.fst).map run := by
  rw [map_map]
  rfl

theorem agree_plan (a : Action) {run run' : CStr → Plan} :
    (a.plan run).Agree (a.plan run') ↔ ∀ text ∈ a.children, (run text).Agree (run' text) := by
  cases a with
  | sequential text segments => exact agreeAll_map
  | conditional text nodes =>
    rw [plan, plan, map_node_eq, map_node_eq, children, ← agreeAll_map]
    exact ⟨fun h => h.2, fun h => ⟨rfl, h⟩⟩
  | pipeline text share stages =>
    rw [plan, plan, children]
    split
    · rw [← agreeAll_map]
      exact ⟨fun h => h.2, fun h => ⟨rfl, h⟩⟩
    · exact ⟨fun _ t ht => (not_mem_nil ht).elim, fun _ => trivial⟩
  | command text =>
    exact ⟨fun _ t ht => (not_mem_nil ht).elim, fun _ => Redirections.SameKind.refl _⟩

theorem plan_of_expand {f : CStr → CStr} (h : expandSubstitutions f fuel (env.front c) = some r) :
    (env.withCapture f).plan (fuel + 1) c
      = (env.action r.2).plan ((env.withCapture f).plan fuel) := by
  have h' : expandSubstitutions (env.withCapture f).capture fuel ((env.withCapture f).front c)
      = some r := h
  rw [Env.plan, h']
  rfl

theorem plan_of_expand_none {f : CStr → CStr}
    (h : expandSubstitutions f fuel (env.front c) = none) :
    (env.withCapture f).plan (fuel + 1) c = .unfinished := by
  have h' : expandSubstitutions (env.withCapture f).capture fuel ((env.withCapture f).front c)
      = none := h
  rw [Env.plan, h']

theorem agree_of_quiet {n m : Nat} (h : ∀ depth, env.Quiet depth c)
    (f g : CStr → CStr) : ((env.withCapture f).plan n c).Agree ((env.withCapture g).plan m c) := by
  induction n generalizing m c with
  | zero => exact trivial
  | succ n ih =>
    cases m with
    | zero => exact agree_unfinished _
    | succ m =>
      have hno : ¬HasSubst (env.front c) := (h 1).1
      cases hf : expandSubstitutions f n (env.front c) with
      | none =>
        rw [plan_of_expand_none hf]
        exact trivial
      | some r =>
        cases hg : expandSubstitutions g m (env.front c) with
        | none =>
          rw [plan_of_expand_none hg]
          exact agree_unfinished _
        | some r' =>
          rw [plan_of_expand hf, plan_of_expand hg]
          obtain rfl := expand_quiet hno hf
          obtain rfl := expand_quiet hno hg
          refine (agree_plan _).mpr fun text ht => ih fun depth => ?_
          exact (h (depth + 1)).2 text ht

/-! ## Outputs that end the expansion -/

/-- The loop over `$(...)` runs a substitution of this text. -/
def HasDollar (text : CStr) : Prop :=
  ∃ i j, strstrquoted text dollarParen = some i ∧ findMatchingParen (text.drop (i + 2)) = some j

def HasBacktick (text : CStr) : Prop :=
  ∃ i j, findBacktick text = some i ∧ findBacktick (text.drop (i + 1)) = some j

theorem dollarLoop_stop (h : ¬HasDollar text) (f : CStr → CStr) (fuel : Nat) :
    dollarLoop f (fuel + 1) text = some ([], text) := by
  rw [dollarLoop]
  split
  · rfl
  · cases hi : strstrquoted text dollarParen with
    | none => rfl
    | some i =>
      cases hj : findMatchingParen (text.drop (i + 2)) with
      | none => simp only [hj]
      | some j => exact absurd ⟨i, j, hi, hj⟩ h

theorem backtickLoop_stop (h : ¬HasBacktick text) (f : CStr → CStr) (fuel : Nat) :
    backtickLoop f (fuel + 1) text = some ([], text) := by
  rw [backtickLoop]
  cases hi : findBacktick text with
  | none => rfl
  | some i =>
    cases hj : findBacktick (text.drop (i + 1)) with
    | none => simp only [hj]
    | some j => exact absurd ⟨i, j, hi, hj⟩ h

theorem split_dollar (hi : strstrquoted text dollarParen = some i) :
    text = text.take i ++ '$' :: '(' :: text.drop (i + 2) := by
  rw [strstrquoted_eq_findFrom plain_dollarParen (by decide)] at hi
  obtain ⟨post, _, hsplit, _, _, _, hdrop⟩ := findFrom_dollar (e := 0) hi
  rw [hdrop]
  simpa [dollarParen] using hsplit

theorem split_dollar_char (hi : strstrquoted text dollarParen = some i) :
    text = text.take i ++ '$' :: text.drop (i + 1) := by
  have hsplit := split_dollar hi
  have hlength : (text.take i).length = i := by
    have := congrArg length hsplit
    simp only [length_append, length_cons, length_take] at this ⊢
    omega
  have hdrop : text.drop (i + 1) = '(' :: text.drop (i + 2) := by
    conv_lhs => rw [hsplit]
    rw [← hlength, drop_append]
    simp
  rw [hdrop]
  exact hsplit

theorem split_backtick (hi : findBacktick text = some i) :
    text = text.take i ++ '`' :: text.drop (i + 1) := by
  obtain ⟨hlt, hc⟩ := List.getElem?_eq_some_iff.mp (backtickFrom_getElem hi)
  rw [← hc, List.getElem_cons_drop, List.take_append_drop]

theorem countP_replaced {p : Char → Bool} {less : Nat} {out : CStr} (hout : out.countP p = 0)
    {c : Char} (hless : less ≤ [c].countP p) {k m : Nat}
    (hsplit : text = text.take i ++ c :: text.drop (i + 1)) (hk : i + 1 ≤ k) (hm : k ≤ m) :
    (text.take i ++ out ++ text.drop m).countP p + less ≤ text.countP p ∧
      (text.drop k).countP p + less ≤ text.countP p := by
  have hcount := congrArg (countP p) hsplit
  rw [countP_append, ← singleton_append, countP_append] at hcount
  have hdrop : ∀ n, i + 1 ≤ n → (text.drop n).countP p ≤ (text.drop (i + 1)).countP p := by
    intro n hn
    rw [show n = (i + 1) + (n - (i + 1)) by omega, ← drop_drop]
    exact (drop_sublist _ _).countP_le
  have h1 := hdrop k hk
  have h2 := hdrop m (Nat.le_trans hk hm)
  rw [countP_append, countP_append, hout]
  omega

theorem count_lt {out : CStr} {c : Char} {k m : Nat} (hout : c ∉ out)
    (hsplit : text = text.take i ++ c :: text.drop (i + 1)) (hk : i + 1 ≤ k) (hm : k ≤ m) :
    (text.take i ++ out ++ text.drop m).count c < text.count c ∧
      (text.drop k).count c < text.count c := by
  have hless : 1 ≤ [c].countP (· == c) := by simp
  exact countP_replaced (count_eq_zero.mpr hout) hless hsplit hk hm

section

variable {f : CStr → CStr}

theorem backtickLoop_ends (hf : ∀ cmd, '`' ∉ f cmd) (text : CStr) :
    ∃ fuel r, backtickLoop f fuel text = some r := by
  induction hk : text.count '`' using Nat.strongRecOn generalizing text with
  | _ k ih =>
    by_cases h : HasBacktick text
    · obtain ⟨i, j, hi, hj⟩ := h
      obtain ⟨fuel, r, hr⟩ := ih _ (hk ▸ (count_lt (hf ((text.drop (i + 1)).take j))
        (split_backtick hi) (Nat.le_refl _) (show i + 1 ≤ i + 1 + j + 1 by omega)).1) _ rfl
      refine ⟨fuel + 1, ((text.drop (i + 1)).take j :: r.1, r.2), ?_⟩
      rw [backtickLoop, hi]
      simp only [hj]
      rw [hr]
    · exact ⟨1, _, backtickLoop_stop h f 0⟩

theorem expand_ends_of_dollarLoop (hf : ∀ cmd, '`' ∉ f cmd)
    (h : ∃ fuel r, dollarLoop f fuel text = some r) :
    ∃ fuel r, expandSubstitutions f fuel text = some r := by
  obtain ⟨fuel₁, r₁, h₁⟩ := h
  obtain ⟨fuel₂, r₂, h₂⟩ := backtickLoop_ends hf r₁.2
  refine ⟨max fuel₁ fuel₂ + 1, ?_⟩
  rw [expandSubstitutions]
  split
  · exact ⟨_, rfl⟩
  · rw [dollarLoop_mono (Nat.le_max_left ..) h₁]
    simp only [backtickLoop_le (Nat.le_max_right ..) h₂]
    exact ⟨_, rfl⟩

section

variable (hf : ∀ cmd, '$' ∉ f cmd) (hf' : ∀ cmd, '`' ∉ f cmd) (text : CStr)
include hf hf'

theorem dollarLoop_ends : ∃ fuel r, dollarLoop f fuel text = some r := by
  induction hk : text.count '$' using Nat.strongRecOn generalizing text with
  | _ k ih =>
    by_cases h : HasDollar text
    · obtain ⟨i, j, hi, hj⟩ := h
      have hsplit := split_dollar_char hi
      -- the inner text has fewer dollars, and so has the new one
      have hcount := fun inner => count_lt (m := i + 2 + j + 1) (hf inner) hsplit
        (show i + 1 ≤ i + 2 by omega) (by omega)
      have hinner : ((text.drop (i + 2)).take j).count '$' < k :=
        hk ▸ Nat.lt_of_le_of_lt ((take_sublist _ _).count_le _) (hcount []).2
      obtain ⟨fuel₁, r₁, h₁⟩ := expand_ends_of_dollarLoop hf' (ih _ hinner _ rfl)
      obtain ⟨fuel₂, r₂, h₂⟩ := ih _ (hk ▸ (hcount r₁.2).1) _ rfl
      refine ⟨max fuel₁ fuel₂ + 1, (r₁.1 ++ r₁.2 :: r₂.1, r₂.2), ?_⟩
      rw [dollarLoop, contains_of_strstrquoted hi, hi]
      simp only [Bool.true_eq_false, if_false, hj]
      rw [expand_mono (Nat.le_max_left ..) h₁]
      simp only
      rw [dollarLoop_mono (Nat.le_max_right ..) h₂]
    · exact ⟨1, _, dollarLoop_stop h f 0⟩

theorem expand_ends : ∃ fuel r, expandSubstitutions f fuel text = some r :=
  expand_ends_of_dollarLoop hf' (dollarLoop_ends hf hf' text)

end

end

/-! ## An output is in the result -/

theorem backtickLoop_output {o : CStr} (h : backtickLoop (fun _ => o) fuel text = some r) :
    (¬HasBacktick text ∧ r.2 = text) ∨ o <:+: r.2 := by
  induction fuel generalizing text r with
  | zero => cases h
  | succ fuel ih =>
    by_cases hb : HasBacktick text
    · obtain ⟨i, j, hi, hj⟩ := hb
      rw [backtickLoop, hi] at h
      simp only [hj] at h
      cases hl : backtickLoop (fun _ => o) fuel (text.take i ++ o ++ text.drop (i + 1 + j + 1)) with
      | none =>
        rw [hl] at h
        cases h
      | some r' =>
        rw [hl] at h
        cases h
        rcases ih hl with ⟨_, e⟩ | e
        · exact .inr (e ▸ infix_append _ o _)
        · exact .inr e
    · rw [backtickLoop_stop hb] at h
      cases h
      exact .inl ⟨hb, rfl⟩

theorem dollarLoop_output {o : CStr} (h : dollarLoop (fun _ => o) fuel text = some r) :
    (¬HasDollar text ∧ r.2 = text) ∨ o <:+: r.2 := by
  induction fuel generalizing text r with
  | zero => cases h
  | succ fuel ih =>
    by_cases hd : HasDollar text
    · obtain ⟨i, j, hi, hj⟩ := hd
      rw [dollarLoop, contains_of_strstrquoted hi, hi] at h
      simp only [hj] at h
      cases he : expandSubstitutions (fun _ => o) fuel ((text.drop (i + 2)).take j) with
      | none =>
        rw [he] at h
        cases h
      | some r' =>
        rw [he] at h
        cases hl : dollarLoop (fun _ => o) fuel (text.take i ++ o ++ text.drop (i + 2 + j + 1)) with
        | none =>
          rw [hl] at h
          cases h
        | some r'' =>
          rw [hl] at h
          cases h
          rcases ih hl with ⟨_, e⟩ | e
          · exact .inr (e ▸ infix_append _ o _)
          · exact .inr e
    · rw [dollarLoop_stop hd] at h
      cases h
      exact .inl ⟨hd, rfl⟩

theorem expand_output {o : CStr} (hs : HasSubst text)
    (h : expandSubstitutions (fun _ => o) fuel text = some r) :
    o <:+: r.2 := by
  cases fuel with
  | zero => cases h
  | succ fuel =>
    have hquick : ¬(contains text dollarParen = false ∧ '`' ∉ text) := by
      rintro ⟨hd, hb⟩
      rcases hs with ⟨i, j, hi, _⟩ | ⟨i, j, hi, _⟩
      · rw [contains_of_strstrquoted hi] at hd
        cases hd
      · exact hb (mem_of_getElem? (backtickFrom_getElem hi))
    rw [expandSubstitutions, if_neg hquick] at h
    cases hd : dollarLoop (fun _ => o) fuel text with
    | none =>
      rw [hd] at h
      cases h
    | some r₁ =>
      rw [hd] at h
      simp only at h
      cases hb : backtickLoop (fun _ => o) fuel r₁.2 with
      | none =>
        rw [hb] at h
        cases h
      | some r₂ =>
        rw [hb] at h
        cases h
        rcases backtickLoop_output hb with ⟨hno, e⟩ | e
        · -- no backtick was run, so a `$(...)` was
          rcases dollarLoop_output hd with ⟨hno', e'⟩ | e'
          · rw [e'] at hno
            exact (hs.elim hno' hno).elim
          · exact e ▸ e'
        · exact e

/-! ## An output that ends all quotes -/

/-- Behind this word `strstrquoted` is outside quotes. -/
def sync : CStr := ['\'', '\\', 'a', '\'', '\\', 'a', '"']

/-- A state in which `;` has not been found. -/
def Scan.Searching (s : Scan) : Prop :=
  (s.quotechar = none ∨ s.quotechar = some '"' ∨ s.quotechar = some '\'') ∧ s.matchlen = 0

theorem Scan.Searching.step (h : s.Searching) {c : Char}
    (hm : (s.step [';'] c).matchlen ≠ 1) : (s.step [';'] c).Searching := by
  obtain ⟨q, e, m⟩ := s
  obtain ⟨hq, rfl⟩ := h
  unfold Scan.Searching Scan.step at *
  rcases hq with hq | hq | hq <;> subst hq <;> dsimp only at hm ⊢
  · split at hm
    · next hc =>
      rw [if_pos hc]
      rcases hc with rfl | rfl <;> split <;> simp
    · next hc =>
      rw [if_neg hc]
      refine ⟨.inl rfl, ?_⟩
      by_cases hs : [';'][0]? = some c
      · rw [if_pos hs] at hm
        exact absurd rfl hm
      · exact if_neg hs
  · repeat' split
    all_goals simp
  · repeat' split
    all_goals simp

theorem Scan.Searching.over (h : s.Searching) {xs : CStr}
    (hx : findFrom [';'] s i xs = none) : (s.over [';'] xs).Searching := by
  induction xs generalizing s i with
  | nil => exact h
  | cons c xs ih =>
    rw [findFrom] at hx
    split at hx
    · cases hx
    · next hm => exact ih (h.step hm) hx

theorem over_sync (h : s.Searching) : s.over [';'] sync = Scan.start := by
  obtain ⟨q, e, m⟩ := s
  obtain ⟨hq, rfl⟩ := h
  rcases Nat.mod_two_eq_zero_or_one e with he | he <;>
  rcases hq with hq | hq | hq <;> subst hq <;> simp [sync, Scan.step, Scan.start, he]

/-! ## Many segments -/

/-- `;a` again and again. -/
def bursts : Nat → CStr
  | 0 => []
  | n + 1 => ';' :: 'a' :: bursts n

/-- An output with `n` commands in it. -/
def noise (n : Nat) : CStr := sync ++ bursts n

theorem findFrom_append_some {str2 : CStr} {k : Nat} {xs : CStr}
    (h : findFrom str2 s i xs = some k) (ys : CStr) : findFrom str2 s i (xs ++ ys) = some k := by
  induction xs generalizing s i with
  | nil => cases h
  | cons c xs ih =>
    rw [findFrom] at h
    rw [cons_append, findFrom]
    split
    · next hm => rwa [if_pos hm] at h
    · next hm =>
      rw [if_neg hm] at h
      exact ih h

theorem strstrquoted_semicolon (text : CStr) :
    strstrquoted text [';'] = findFrom [';'] Scan.start 0 text :=
  strstrquoted_eq_findFrom (by decide) (by decide) text

theorem le_semicolonLoop_bursts (n : Nat) (post : CStr) (hf : n < fuel) :
    n ≤ (semicolonLoop fuel ('a' :: (bursts n ++ post))).length := by
  induction n generalizing fuel with
  | zero => exact Nat.zero_le _
  | succ n ih =>
    obtain ⟨fuel, rfl⟩ : ∃ k, fuel = k + 1 := ⟨fuel - 1, by omega⟩
    have ih := ih (show n < fuel by omega)
    have hkeep : keep ['a'] = [['a']] := by decide
    show n + 1 ≤ (keep ['a'] ++ semicolonLoop fuel ('a' :: (bursts n ++ post))).length
    rw [hkeep, length_append, length_singleton]
    omega

theorem le_semicolonLoop_noise (n : Nat) (pre post : CStr) (hf : pre.length + n + 1 < fuel) :
    n ≤ (semicolonLoop fuel (pre ++ noise (n + 1) ++ post)).length := by
  induction fuel generalizing pre with
  | zero => omega
  | succ fuel ih =>
    have htext : pre ++ noise (n + 1) ++ post
        = (pre ++ sync) ++ [';'] ++ ('a' :: (bursts n ++ post)) := by
      simp [noise, bursts]
    rw [semicolonLoop, strstrquoted_semicolon]
    cases hx : findFrom [';'] Scan.start 0 (pre ++ sync) with
    | none =>
      have hpre := findFrom_eq_none_of_append hx
      have hover : Scan.start.over [';'] (pre ++ sync) = ⟨none, 0, 0⟩ := by
        rw [Scan.over_append]
        exact over_sync (Scan.Searching.over ⟨.inl rfl, rfl⟩ hpre)
      have hfound := findFrom_found (by decide) (by decide) hx hover ('a' :: (bursts n ++ post))
      have hdrop : ((pre ++ sync) ++ [';'] ++ ('a' :: (bursts n ++ post))).drop
          ((pre ++ sync).length + 1) = 'a' :: (bursts n ++ post) := by
        exact drop_left' (by rw [length_append]; rfl)
      have hle := le_semicolonLoop_bursts n post (show n < fuel by omega)
      rw [htext, hfound, Nat.zero_add]
      dsimp only
      rw [hdrop, length_append]
      omega
    | some k =>
      obtain ⟨p, q, _, hsplit, hk, _⟩ := findFrom_split (by decide) rfl hx
      -- the `;` that was found is before the output
      have hlt : k < pre.length := by
        by_contra hge
        have hget : (pre ++ sync)[k]? = some ';' := by
          rw [hsplit, hk]
          simp
        rw [getElem?_append_right (Nat.not_lt.mp hge)] at hget
        exact absurd (mem_of_getElem? hget) (by decide)
      have hfound := findFrom_append_some hx ([';'] ++ ('a' :: (bursts n ++ post)))
      rw [← append_assoc, ← htext] at hfound
      have hdrop : (pre ++ noise (n + 1) ++ post).drop (k + 1)
          = pre.drop (k + 1) ++ noise (n + 1) ++ post := by
        rw [append_assoc, drop_append_of_le_length (by omega), append_assoc]
      have ih := ih (pre.drop (k + 1)) (by rw [length_drop]; omega)
      rw [hfound]
      simp only [hdrop, length_append]
      omega

theorem sequential_of_noise (env : Env) {n : Nat} (h : noise (n + 1) <:+: text) :
    env.action text = .sequential text (parseSemicolons text) ∧
      n ≤ (parseSemicolons text).length := by
  obtain ⟨pre, post, rfl⟩ := h
  constructor
  · rw [Env.action, if_pos]
    -- a `;` that is not found is quoted, but the one behind `sync` is not
    by_contra hnone
    rw [Option.not_isSome_iff_eq_none, strstrquoted_semicolon] at hnone
    have htext : pre ++ noise (n + 1) ++ post
        = (pre ++ sync) ++ ';' :: 'a' :: (bursts n ++ post) := by
      simp [noise, bursts]
    rw [htext] at hnone
    refine quoted_of_findFrom_none (by decide) rfl hnone ?_
    have hpre := findFrom_eq_none_of_append (findFrom_eq_none_of_append hnone)
    rw [Scan.over_append, over_sync (Scan.Searching.over ⟨.inl rfl, rfl⟩ hpre)]
    rfl
  · refine le_semicolonLoop_noise n pre post ?_
    have hlen : ∀ k, (bursts k).length = 2 * k := by
      intro k
      induction k with
      | zero => rfl
      | succ k ih =>
        rw [bursts, length_cons, length_cons, ih]
        omega
    simp only [length_append, noise, hlen]
    omega

/-! ## With substitutions -/

theorem bursts_mute (n : Nat) : '$' ∉ bursts n ∧ '`' ∉ bursts n := by
  induction n with
  | zero => exact ⟨not_mem_nil, not_mem_nil⟩
  | succ n ih => simp [bursts, ih.1, ih.2]

theorem noise_mute (n : Nat) : '$' ∉ noise n ∧ '`' ∉ noise n := by
  simp [noise, sync, bursts_mute n]

/-- The output of a substitution changes the calls. -/
def Env.Differs (env : Env) (c : CStr) : Prop :=
  ∃ k fuel, ∀ n m, fuel ≤ n → fuel ≤ m →
    ¬((env.withCapture fun _ => []).plan n c).Agree ((env.withCapture fun _ => noise k).plan m c)

/-- Some output makes a difference. -/
theorem differs_of_hasSubst (h : HasSubst (env.front c)) : env.Differs c := by
  obtain ⟨fuel₁, r₁, h₁⟩ := expand_ends (f := fun _ => []) (by simp) (by simp) (env.front c)
  -- more segments than the run with empty outputs has
  let k := (env.action r₁.2).children.length + 1
  obtain ⟨fuel₂, r₂, h₂⟩ := expand_ends (f := fun _ => noise (k + 1))
    (fun _ => (noise_mute _).1) (fun _ => (noise_mute _).2) (env.front c)
  obtain ⟨hact, hlen⟩ := sequential_of_noise env (expand_output h h₂)
  refine ⟨k + 1, max fuel₁ fuel₂ + 1, ?_⟩
  intro n m hn hm hagree
  obtain ⟨n, rfl⟩ : ∃ n', n = n' + 1 := ⟨n - 1, by omega⟩
  obtain ⟨m, rfl⟩ : ∃ m', m = m' + 1 := ⟨m - 1, by omega⟩
  rw [plan_of_expand (expand_mono (show fuel₁ ≤ n by omega) h₁),
    plan_of_expand (expand_mono (show fuel₂ ≤ m by omega) h₂), hact] at hagree
  cases ha : env.action r₁.2 with
  | sequential text segments =>
    rw [ha] at hagree
    have := agreeAll_length hagree
    have hk : k = segments.length + 1 := by simp only [k, ha, children]
    simp only [length_map] at this
    omega
  | conditional text nodes =>
    rw [ha] at hagree
    exact hagree.elim
  | pipeline text share stages =>
    rw [ha] at hagree
    by_cases hle : stages.length ≤ maxPipelineStages <;>
      simp [plan, hle, Plan.Agree] at hagree
  | command text =>
    rw [ha] at hagree
    exact hagree.elim

theorem differs_of_not_quiet {depth : Nat} (h : ¬env.Quiet depth c) : env.Differs c := by
  induction depth generalizing c with
  | zero => exact absurd trivial h
  | succ depth ih =>
    by_cases hs : HasSubst (env.front c)
    · exact differs_of_hasSubst hs
    · have hchild : ∃ text ∈ (env.action (env.front c)).children, ¬env.Quiet depth text := by
        by_contra hall
        exact h ⟨hs, fun text ht => by_contra fun hq => hall ⟨text, ht, hq⟩⟩
      obtain ⟨text, ht, hq⟩ := hchild
      obtain ⟨k, fuel, hdiff⟩ := ih hq
      refine ⟨k, max fuel 2 + 1, ?_⟩
      intro n m hn hm hagree
      obtain ⟨n, rfl⟩ : ∃ n', n = n' + 1 := ⟨n - 1, by omega⟩
      obtain ⟨m, rfl⟩ : ∃ m', m = m' + 1 := ⟨m - 1, by omega⟩
      rw [plan_of_expand (expand_mono (show 2 ≤ n by omega) (expand_of_not_hasSubst hs _)),
        plan_of_expand (expand_mono (show 2 ≤ m by omega) (expand_of_not_hasSubst hs _))] at hagree
      exact hdiff n m (by omega) (by omega) ((agree_plan _).mp hagree text ht)

/--
The structure of a command line does not depend on the outputs of its substitutions exactly when
`ios_system` runs no substitution for it or for any text it makes out of it.
-/
theorem agree_iff_quiet (env : Env) (c : CStr) :
    (∀ f g n m, ((env.withCapture f).plan n c).Agree ((env.withCapture g).plan m c))
      ↔ ∀ depth, env.Quiet depth c := by
  constructor
  · intro hagree depth
    by_contra hq
    obtain ⟨k, fuel, hdiff⟩ := differs_of_not_quiet hq
    exact hdiff fuel fuel (Nat.le_refl _) (Nat.le_refl _) (hagree _ _ _ _)
  · intro hq f g n m
    exact agree_of_quiet hq f g

def bareEnv : Env := plainEnv (fun _ _ => none) id

/-- `echo $(f)` is one command when `f` prints `x`, and a list of two when it prints `x;y`. -/
theorem printed_semicolon_splits :
    (bareEnv.withCapture fun _ => ['x']).plan 4 "echo $(f)".toList = .command "echo x".toList ∧
    (bareEnv.withCapture fun _ => ['x', ';', 'y']).plan 4 "echo $(f)".toList
      = .sequential "echo x;y".toList [.command "echo x".toList, .command ['y']] ∧
    ¬((bareEnv.withCapture fun _ => ['x']).plan 4 "echo $(f)".toList).Agree
      ((bareEnv.withCapture fun _ => ['x', ';', 'y']).plan 4 "echo $(f)".toList) := by
  have hx : (bareEnv.withCapture fun _ => ['x']).plan 4 "echo $(f)".toList
      = .command "echo x".toList :=
    @plan_of_expand _ 3 (["f".toList], "echo x".toList) bareEnv _ (by decide)
  have hxy : (bareEnv.withCapture fun _ => ['x', ';', 'y']).plan 4 "echo $(f)".toList
      = .sequential "echo x;y".toList [.command "echo x".toList, .command ['y']] :=
    @plan_of_expand _ 3 (["f".toList], "echo x;y".toList) bareEnv _ (by decide)
  refine ⟨hx, hxy, ?_⟩
  rw [hx, hxy]
  exact id

end IosSystem.Shell
