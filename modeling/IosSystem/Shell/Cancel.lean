import IosSystem.Lib.Shuffle
import IosSystem.Shell.Exec

/-!
# A cancellation during a compound command

`ios_system` clears the cancel flag of the session when it is entered. `ios_execute_sequential`,
`ios_execute_conditional`, the stages of a pipeline and `capture_command_output` all enter it again
for the same session. `ios_kill` and `ios_kill_session` set the flag while a command is running.

A `Call` is the tree of the calls of `ios_system` that one call makes, and `Trace` the order in
which they clear the flag and start commands.
-/

namespace IosSystem.Shell.Cancel

open List

/-! ## The calls -/

/--
A call of `ios_system` and the calls that it makes: first those for the substitutions, then those
for what is left of the line. `rest` has the operator before each node of a conditional.
-/
inductive Call where
  | command (substitutions : List Call) (text : CStr)
  | sequential (substitutions : List Call) (first : Call) (rest : List Call)
  | conditional (substitutions : List Call) (first : Call) (rest : List (CondOp × Call))
  | pipeline (substitutions : List Call) (first : Call) (rest : List Call)

def operatorsBefore : List (Call × CondOp) → List (CondOp × Call)
  | (_, op) :: (c, op') :: nodes => (op, c) :: operatorsBefore ((c, op') :: nodes)
  | _ => []

/--
The calls for what is left of a line. There are none in an empty list of segments, nodes or stages,
and none for an empty command, which starts nothing.
-/
def callOf (run : CStr → Option Call) (substitutions : List Call) : Action → Option Call
  | .sequential _ segments =>
    match segments.mapM run with
    | some (first :: rest) => some (.sequential substitutions first rest)
    | _ => none
  | .conditional _ nodes =>
    match nodes.mapM fun node => (run node.1).map (·, node.2) with
    | some (first :: rest) =>
      some (.conditional substitutions first.1 (operatorsBefore (first :: rest)))
    | _ => none
  | .pipeline _ _ stages =>
    match stages.mapM run with
    | some (first :: rest) => some (.pipeline substitutions first rest)
    | _ => none
  | .command text => if dropSpaces text = [] then none else some (.command substitutions text)

/-- The tree of the calls for one line. `capture_command_output` makes no call for an empty command.
-/
def callTree (env : Env) : Nat → CStr → Option Call
  | 0, _ => none
  | fuel + 1, inputCmd =>
    match expandSubstitutions env.capture fuel (env.front inputCmd) with
    | none => none
    | some (captured, command) =>
      ((captured.filter (· ≠ [])).mapM (callTree env fuel)).bind fun substitutions =>
        callOf (callTree env fuel) substitutions (env.action command)

/-! ## What happens to the flag -/

/-- What happens to the flag, and when commands start and end. -/
inductive Event where
  /-- `ios_session_clear_cancel` at the entry of `ios_system` -/
  | clear
  | start (text : CStr)
  | finish
  /-- `ios_session_request_cancel`, on another thread -/
  | request
  deriving DecidableEq

/-- `cancel_requested` after the event -/
def Event.flag (flag : Bool) : Event → Bool
  | .clear => false
  | .request => true
  | .start _ | .finish => flag

def flagAfter (flag : Bool) (e : List Event) : Bool := e.foldl Event.flag flag

/-- What each command finds in the flag when it starts. -/
def observed (flag : Bool) : List Event → List (CStr × Bool)
  | [] => []
  | .start text :: e => (text, flag) :: observed flag e
  | a :: e => observed (a.flag flag) e

/-- After every request the flag is set up to the end, and every command that is started sees it. -/
def Kept (e : List Event) : Prop :=
  ∀ before after, e = before ++ .request :: after →
    (∀ e', e' <+: after → flagAfter false (before ++ .request :: e') = true) ∧
      ∀ o ∈ observed true after, o.2 = true

/-! ## Executions -/

mutual

/-- What a call of `ios_system` does, in order, and its result. A command returns anything. -/
inductive Trace : Call → List Event → Int → Prop
  | command {substitutions : List Call} {t : List Event} {r : Int} (text : CStr) (result : Int) :
      TraceAll substitutions 0 t r →
      Trace (.command substitutions text) (.clear :: (t ++ [.start text, .finish])) result
  | sequential {substitutions rest : List Call} {first : Call} {t u : List Event} {r result : Int} :
      TraceAll substitutions 0 t r → TraceAll (first :: rest) 0 u result →
      Trace (.sequential substitutions first rest) (.clear :: (t ++ u)) result
  | conditional {substitutions : List Call} {first : Call} {rest : List (CondOp × Call)}
      {t u v : List Event} {r r' result : Int} :
      TraceAll substitutions 0 t r → Trace first u r' → TraceChain rest r' v result →
      Trace (.conditional substitutions first rest) (.clear :: (t ++ (u ++ v))) result
  | pipeline {substitutions rest : List Call} {first : Call} {t u : List Event} {r result : Int} :
      TraceAll substitutions 0 t r → TraceStages (first :: rest) 0 u result →
      Trace (.pipeline substitutions first rest) (.clear :: (t ++ u)) result

/-- One call after the other: the substitutions, or the loop of `ios_execute_sequential`. -/
inductive TraceAll : List Call → Int → List Event → Int → Prop
  | nil (result : Int) : TraceAll [] result [] result
  | cons {c : Call} {cs : List Call} {t u : List Event} {r₀ r result : Int} :
      Trace c t r → TraceAll cs r u result → TraceAll (c :: cs) r₀ (t ++ u) result

/-- The loop of `ios_execute_conditional` behind the first node. -/
inductive TraceChain : List (CondOp × Call) → Int → List Event → Int → Prop
  | nil (result : Int) : TraceChain [] result [] result
  | stop {op : CondOp} {c : Call} {rest : List (CondOp × Call)} {result : Int} :
      op.stops result = true → TraceChain ((op, c) :: rest) result [] result
  | next {op : CondOp} {c : Call} {rest : List (CondOp × Call)} {t u : List Event}
      {r₀ r result : Int} : op.stops r₀ = false → Trace c t r → TraceChain rest r u result →
      TraceChain ((op, c) :: rest) r₀ (t ++ u) result

inductive TraceStages : List Call → Int → List Event → Int → Prop
  | nil (result : Int) : TraceStages [] result [] result
  | cons {c : Call} {cs : List Call} {t u v : List Event} {r₀ r result : Int} :
      Trace c t r → TraceStages cs r u result → Shuffle t u v → TraceStages (c :: cs) r₀ v result

end

def Event.running (n : Nat) : Event → Nat
  | .start _ => n + 1
  | .finish => n - 1
  | .clear | .request => n

/-- Requests come from `ios_kill` and `ios_kill_session`, which make one only while a command runs.
-/
inductive Requested : Nat → List Event → List Event → Prop
  | nil {n : Nat} : Requested n [] []
  | event {n : Nat} {a : Event} {t e : List Event} :
      Requested (a.running n) t e → Requested n (a :: t) (a :: e)
  | request {n : Nat} {t e : List Event} :
      0 < n → Requested n t e → Requested n t (.request :: e)

/-- A run of the call, with requests at any time. -/
def Executes (c : Call) (e : List Event) : Prop := ∃ t result, Trace c t result ∧ Requested 0 t e

/-- Every call makes at most one other call. -/
inductive OneByOne : Call → Prop
  | command (text : CStr) : OneByOne (.command [] text)
  | substitution {c : Call} (text : CStr) : OneByOne c → OneByOne (.command [c] text)
  | sequential {c : Call} : OneByOne c → OneByOne (.sequential [] c [])
  | conditional {c : Call} : OneByOne c → OneByOne (.conditional [] c [])
  | pipeline {c : Call} : OneByOne c → OneByOne (.pipeline [] c [])

/-! ## Requests and entries -/

theorem flagAfter_append (flag : Bool) (e e' : List Event) :
    flagAfter flag (e ++ e') = flagAfter (flagAfter flag e) e' :=
  foldl_append

variable {e t : List Event} {r r' : Int} {c : Call}

theorem flagAfter_of_not_clear (h : .clear ∉ e) : flagAfter true e = true := by
  induction e with
  | nil => rfl
  | cons a e ih =>
    have hflag : a.flag true = true := by
      cases a with
      | clear => exact absurd mem_cons_self h
      | start | finish | request => rfl
    rw [flagAfter, foldl_cons, hflag]
    exact ih (not_mem_of_not_mem_cons h)

theorem observed_of_not_clear (h : .clear ∉ e) : ∀ o ∈ observed true e, o.2 = true := by
  induction e with
  | nil => simp [observed]
  | cons a e ih =>
    have he := not_mem_of_not_mem_cons h
    cases a with
    | clear => exact absurd mem_cons_self h
    | start text => exact forall_mem_cons.2 ⟨rfl, ih he⟩
    | finish | request => exact ih he

theorem kept_iff (e : List Event) :
    Kept e ↔ ∀ before after, e = before ++ .request :: after → .clear ∉ after := by
  constructor
  · intro h before after he hclear
    obtain ⟨e₁, e₂, rfl⟩ := append_of_mem hclear
    have hflag := (h before _ he).1 (e₁ ++ [.clear]) ⟨e₂, by simp⟩
    rw [← cons_append, ← append_assoc, flagAfter_append] at hflag
    cases hflag
  · intro h before after he
    have hclear := h before after he
    refine ⟨fun e' hp => ?_, observed_of_not_clear hclear⟩
    rw [flagAfter_append]
    exact flagAfter_of_not_clear fun hmem => hclear (hp.subset hmem)

/-- The flag is cleared behind the start of a command. -/
def Late (t : List Event) : Prop :=
  ∃ before text after, t = before ++ .start text :: after ∧ .clear ∈ after

theorem late_append {u : List Event} {text : CStr} (ht : .start text ∈ t) (hu : .clear ∈ u) :
    Late (t ++ u) := by
  obtain ⟨before, after, rfl⟩ := append_of_mem ht
  exact ⟨before, text, after ++ u, by simp, mem_append_right after hu⟩

theorem Late.append_left (h : Late t) (u : List Event) : Late (u ++ t) := by
  obtain ⟨before, text, after, rfl, hclear⟩ := h
  exact ⟨u ++ before, text, after, by simp, hclear⟩

theorem Late.append_right (h : Late t) (u : List Event) : Late (t ++ u) := by
  obtain ⟨before, text, after, rfl, hclear⟩ := h
  exact ⟨before, text, after ++ u, by simp, mem_append_left u hclear⟩

theorem requested_self (n : Nat) (t : List Event) : Requested n t t := by
  induction t generalizing n with
  | nil => exact .nil
  | cons a t ih => exact (ih _).event

theorem requested_start (n : Nat) (before : List Event) (text : CStr) (after : List Event) :
    Requested n (before ++ .start text :: after)
      (before ++ .start text :: .request :: after) := by
  induction before generalizing n with
  | nil => exact .event (.request (Nat.succ_pos n) (requested_self _ after))
  | cons a before ih => exact (ih _).event

theorem Late.not_kept (h : Late t) : ∃ e, Requested 0 t e ∧ ¬ Kept e := by
  obtain ⟨before, text, after, rfl, hclear⟩ := h
  refine ⟨_, requested_start 0 before text after, fun hkept => ?_⟩
  have hnot := (kept_iff _).1 hkept (before ++ [.start text]) after (by simp)
  exact hnot hclear

/-- The flag is cleared only before everything else. -/
def Early (t : List Event) : Prop := ∃ n u, t = List.replicate n .clear ++ u ∧ .clear ∉ u

theorem Requested.of_clears {n : Nat} {u : List Event}
    (h : Requested 0 (List.replicate n .clear ++ u) e) :
    ∃ e', e = List.replicate n .clear ++ e' ∧ Requested 0 u e' := by
  induction n generalizing e with
  | zero => exact ⟨e, rfl, h⟩
  | succ n ih =>
    cases h with
    | event h =>
      obtain ⟨e', rfl, he'⟩ := ih h
      exact ⟨e', rfl, he'⟩
    | request hpos _ => cases hpos

theorem Requested.not_clear {n : Nat} (h : Requested n t e) (ht : .clear ∉ t) : .clear ∉ e := by
  induction h with
  | nil => exact ht
  | event _ ih =>
    intro hmem
    rcases mem_cons.1 hmem with rfl | hmem
    · exact ht mem_cons_self
    · exact ih (not_mem_of_not_mem_cons ht) hmem
  | request _ _ ih =>
    intro hmem
    rcases mem_cons.1 hmem with hmem | hmem
    · cases hmem
    · exact ih ht hmem

theorem not_clear_after {n : Nat} {before after : List Event} (he : .clear ∉ e)
    (h : List.replicate n .clear ++ e = before ++ .request :: after) : .clear ∉ after := by
  induction n generalizing before with
  | zero =>
    subst h
    exact fun hmem => he (mem_append_right before (mem_cons_of_mem _ hmem))
  | succ n ih =>
    rw [replicate_succ, cons_append] at h
    cases before with
    | nil => cases h
    | cons a before =>
      rw [cons_append, cons.injEq] at h
      exact ih h.2

theorem Early.kept (h : Early t) (he : Requested 0 t e) : Kept e := by
  obtain ⟨n, u, rfl, hu⟩ := h
  obtain ⟨e', rfl, he'⟩ := he.of_clears
  rw [kept_iff]
  exact fun before after heq => not_clear_after (he'.not_clear hu) heq

/-! ## At most one nested call -/

theorem Early.enter (h : Early t) : Early (.clear :: t) := by
  obtain ⟨n, u, rfl, hu⟩ := h
  exact ⟨n + 1, u, by rw [replicate_succ, cons_append], hu⟩

theorem Early.command (h : Early t) (text : CStr) : Early (t ++ [.start text, .finish]) := by
  obtain ⟨n, u, rfl, hu⟩ := h
  refine ⟨n, u ++ [.start text, .finish], by rw [append_assoc], ?_⟩
  simp [hu]

theorem TraceAll.eq_of_nil (h : TraceAll [] r t r') : t = [] := by
  cases h
  rfl

theorem TraceAll.of_single (h : TraceAll [c] r t r') : Trace c t r' := by
  cases h with
  | cons hc hnil =>
    cases hnil
    rwa [append_nil]

theorem TraceStages.of_single (h : TraceStages [c] r t r') : Trace c t r' := by
  cases h with
  | cons hc hnil hshuffle =>
    cases hnil
    rwa [hshuffle.eq_of_nil_right]

theorem OneByOne.early (h : OneByOne c) {result : Int} (ht : Trace c t result) : Early t := by
  induction h generalizing t result with
  | command text =>
    cases ht with
    | command _ _ hsubst =>
      rw [hsubst.eq_of_nil]
      exact Early.enter (Early.command ⟨0, [], rfl, not_mem_nil⟩ text)
  | substitution text _ ih =>
    cases ht with
    | command _ _ hsubst => exact ((ih hsubst.of_single).command text).enter
  | sequential _ ih =>
    cases ht with
    | sequential hsubst hall =>
      rw [hsubst.eq_of_nil]
      exact (ih hall.of_single).enter
  | conditional _ ih =>
    cases ht with
    | conditional hsubst hfirst hrest =>
      cases hrest
      rw [hsubst.eq_of_nil, append_nil]
      exact (ih hfirst).enter
  | pipeline _ ih =>
    cases ht with
    | pipeline hsubst hstages =>
      rw [hsubst.eq_of_nil]
      exact (ih hstages.of_single).enter

/-! ## Two nested calls -/

mutual

theorem exists_trace (c : Call) (result : Int) : ∃ t, Trace c t result := by
  match c with
  | .command substitutions text =>
    obtain ⟨t, ht⟩ := exists_traceAll substitutions 0
    exact ⟨_, .command text result ht⟩
  | .sequential substitutions first rest =>
    obtain ⟨t, ht⟩ := exists_traceAll substitutions 0
    obtain ⟨u, hu⟩ := exists_trace first result
    obtain ⟨v, hv⟩ := exists_traceAll rest result
    exact ⟨_, .sequential ht (.cons hu hv)⟩
  | .conditional substitutions first rest =>
    obtain ⟨t, ht⟩ := exists_traceAll substitutions 0
    obtain ⟨u, hu⟩ := exists_trace first result
    obtain ⟨v, hv⟩ := exists_traceChain rest result
    exact ⟨_, .conditional ht hu hv⟩
  | .pipeline substitutions first rest =>
    obtain ⟨t, ht⟩ := exists_traceAll substitutions 0
    obtain ⟨u, hu⟩ := exists_trace first result
    obtain ⟨v, hv⟩ := exists_traceStages rest result
    exact ⟨_, .pipeline ht (.cons hu hv (.append u v))⟩

theorem exists_traceAll (cs : List Call) (result : Int) : ∃ t, TraceAll cs result t result := by
  match cs with
  | [] => exact ⟨[], .nil result⟩
  | c :: cs =>
    obtain ⟨t, ht⟩ := exists_trace c result
    obtain ⟨u, hu⟩ := exists_traceAll cs result
    exact ⟨_, .cons ht hu⟩

theorem exists_traceChain (rest : List (CondOp × Call)) (result : Int) :
    ∃ t, TraceChain rest result t result := by
  match rest with
  | [] => exact ⟨[], .nil result⟩
  | (op, c) :: rest =>
    cases hop : op.stops result with
    | true => exact ⟨[], .stop hop⟩
    | false =>
      obtain ⟨t, ht⟩ := exists_trace c result
      obtain ⟨u, hu⟩ := exists_traceChain rest result
      exact ⟨_, .next hop ht hu⟩

theorem exists_traceStages (cs : List Call) (result : Int) :
    ∃ t, TraceStages cs result t result := by
  match cs with
  | [] => exact ⟨[], .nil result⟩
  | c :: cs =>
    obtain ⟨t, ht⟩ := exists_trace c result
    obtain ⟨u, hu⟩ := exists_traceStages cs result
    exact ⟨_, .cons ht hu (.append t u)⟩

end

theorem Trace.clear_mem {result : Int} (h : Trace c t result) : .clear ∈ t := by
  cases h <;> exact mem_cons_self

theorem exists_start {c : Call} {t : List Event} {result : Int} (h : Trace c t result) :
    ∃ text, .start text ∈ t := by
  match h with
  | .command text _ _ => exact ⟨text, by simp⟩
  | .sequential _ (.cons hfirst _) =>
    obtain ⟨text, htext⟩ := exists_start hfirst
    exact ⟨text, by simp [htext]⟩
  | .conditional _ hfirst _ =>
    obtain ⟨text, htext⟩ := exists_start hfirst
    exact ⟨text, by simp [htext]⟩
  | .pipeline _ (.cons hfirst _ hshuffle) =>
    obtain ⟨text, htext⟩ := exists_start hfirst
    exact ⟨text, by simp [hshuffle.mem_of_left htext]⟩

theorem Late.enter (h : Late t) : Late (.clear :: t) := h.append_left [.clear]

theorem late_of_two {d : Call} {u : List Event} (hc : Trace c t r)
    (hd : Trace d u r') (v : List Event) : Late (t ++ (u ++ v)) := by
  obtain ⟨text, htext⟩ := exists_start hc
  exact late_append htext (mem_append_left v hd.clear_mem)

theorem late_of_substitution (c : Call) (cs : List Call) :
    ∃ t, TraceAll (c :: cs) 0 t 0 ∧ ∀ u, .clear ∈ u → Late (.clear :: (t ++ u)) := by
  obtain ⟨t, ht⟩ := exists_trace c 0
  obtain ⟨v, hv⟩ := exists_traceAll cs 0
  obtain ⟨text, htext⟩ := exists_start ht
  exact ⟨t ++ v, .cons ht hv, fun u hu =>
    (late_append (mem_append_left v htext) hu).enter⟩

def passing : CondOp → Int
  | .none | .and => 0
  | .or => 1

theorem stops_passing (op : CondOp) : op.stops (passing op) = false := by
  cases op <;> rfl

/-- A call with siblings can clear the flag late. -/
theorem oneByOne_or_late (c : Call) : OneByOne c ∨ ∃ t result, Trace c t result ∧ Late t := by
  match c with
  | .command [] text => exact .inl (.command text)
  | .command [d] text =>
    rcases oneByOne_or_late d with h | ⟨t, r, ht, hlate⟩
    · exact .inl (.substitution text h)
    · refine .inr ⟨_, 0, .command text 0 (.cons ht (.nil r)), ?_⟩
      exact ((hlate.append_right []).append_right _).enter
  | .command (d :: e :: cs) text =>
    obtain ⟨t, ht⟩ := exists_trace d 0
    obtain ⟨u, hu⟩ := exists_trace e 0
    obtain ⟨v, hv⟩ := exists_traceAll cs 0
    refine .inr ⟨_, 0, .command text 0 (.cons ht (.cons hu hv)), ?_⟩
    exact ((late_of_two ht hu v).append_right _).enter
  | .sequential [] first [] =>
    rcases oneByOne_or_late first with h | ⟨t, r, ht, hlate⟩
    · exact .inl (.sequential h)
    · exact .inr ⟨_, r, .sequential (.nil 0) (.cons ht (.nil r)), (hlate.append_right []).enter⟩
  | .sequential [] first (d :: rest) =>
    obtain ⟨t, ht⟩ := exists_trace first 0
    obtain ⟨u, hu⟩ := exists_trace d 0
    obtain ⟨v, hv⟩ := exists_traceAll rest 0
    refine .inr ⟨_, 0, .sequential (.nil 0) (.cons ht (.cons hu hv)), ?_⟩
    exact (late_of_two ht hu v).enter
  | .sequential (d :: cs) first rest =>
    obtain ⟨t, ht, hlate⟩ := late_of_substitution d cs
    obtain ⟨u, hu⟩ := exists_trace first 0
    obtain ⟨v, hv⟩ := exists_traceAll rest 0
    exact .inr ⟨_, 0, .sequential ht (.cons hu hv), hlate _ (mem_append_left v hu.clear_mem)⟩
  | .conditional [] first [] =>
    rcases oneByOne_or_late first with h | ⟨t, r, ht, hlate⟩
    · exact .inl (.conditional h)
    · exact .inr ⟨_, r, .conditional (.nil 0) ht (.nil r), (hlate.append_right []).enter⟩
  | .conditional [] first ((op, d) :: rest) =>
    -- the first node returns what makes the chain go on
    obtain ⟨t, ht⟩ := exists_trace first (passing op)
    obtain ⟨u, hu⟩ := exists_trace d 0
    obtain ⟨v, hv⟩ := exists_traceChain rest 0
    refine .inr ⟨_, 0, .conditional (.nil 0) ht (.next (stops_passing op) hu hv), ?_⟩
    exact (late_of_two ht hu v).enter
  | .conditional (d :: cs) first rest =>
    obtain ⟨t, ht, hlate⟩ := late_of_substitution d cs
    obtain ⟨u, hu⟩ := exists_trace first 0
    obtain ⟨v, hv⟩ := exists_traceChain rest 0
    exact .inr ⟨_, 0, .conditional ht hu hv, hlate _ (mem_append_left v hu.clear_mem)⟩
  | .pipeline [] first [] =>
    rcases oneByOne_or_late first with h | ⟨t, r, ht, hlate⟩
    · exact .inl (.pipeline h)
    · refine .inr ⟨_, r, .pipeline (.nil 0) (.cons ht (.nil r) (.append t [])), ?_⟩
      exact (hlate.append_right []).enter
  | .pipeline [] first (d :: rest) =>
    -- the second stage is entered when the command of the first one runs
    obtain ⟨t, ht⟩ := exists_trace first 0
    obtain ⟨u, hu⟩ := exists_trace d 0
    obtain ⟨v, hv⟩ := exists_traceStages rest 0
    refine .inr ⟨_, 0, .pipeline (.nil 0) (.cons ht (.cons hu hv (.append u v)) (.append t _)), ?_⟩
    exact (late_of_two ht hu v).enter
  | .pipeline (d :: cs) first rest =>
    obtain ⟨t, ht, hlate⟩ := late_of_substitution d cs
    obtain ⟨u, hu⟩ := exists_trace first 0
    obtain ⟨v, hv⟩ := exists_traceStages rest 0
    exact .inr ⟨_, 0, .pipeline ht (.cons hu hv (.append u v)),
      hlate _ (mem_append_left v hu.clear_mem)⟩

/--
No request is lost in any execution of a call if and only if no call in its tree makes two nested
calls.
-/
theorem cancel_kept_iff (c : Call) : (∀ e, Executes c e → Kept e) ↔ OneByOne c := by
  constructor
  · intro h
    rcases oneByOne_or_late c with hone | ⟨t, result, ht, hlate⟩
    · exact hone
    · obtain ⟨e, he, hlost⟩ := hlate.not_kept
      exact absurd (h e ⟨t, result, ht, he⟩) hlost
  · rintro h e ⟨t, result, ht, he⟩
    exact (h.early ht).kept he

/-- `a;b`: a request is made while `a` runs, and `b` does not see it. -/
theorem cancel_lost : ∃ c : Call,
    callTree (plainEnv (fun _ _ => none) fun _ => []) 4 ['a', ';', 'b'] = some c ∧
    Executes c [.clear, .clear, .start ['a'], .request, .finish, .clear, .start ['b'], .finish] ∧
    observed false
        [.clear, .clear, .start ['a'], .request, .finish, .clear, .start ['b'], .finish]
      = [(['a'], false), (['b'], false)] ∧
    ¬ Kept [.clear, .clear, .start ['a'], .request, .finish, .clear, .start ['b'], .finish] := by
  refine ⟨.sequential [] (.command [] ['a']) [.command [] ['b']], rfl, ?_, rfl, ?_⟩
  · refine ⟨_, 0, .sequential (.nil 0)
      (.cons (.command ['a'] 0 (.nil 0)) (.cons (.command ['b'] 0 (.nil 0)) (.nil 0))), ?_⟩
    exact requested_start 0 [.clear, .clear] ['a'] _
  · intro h
    exact (kept_iff _).1 h [.clear, .clear, .start ['a']] _ rfl (by decide)

end IosSystem.Shell.Cancel
