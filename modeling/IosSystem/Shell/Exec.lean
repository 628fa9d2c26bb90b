import IosSystem.Shell.Dispatch

/-!
# Running a plan

`ios_execute_sequential`, `ios_execute_conditional` and the pipeline scheduler are loops around
`ios_fork`, `ios_system` and `ios_waitpid`. `exec` is these loops over a machine, which says what
the calls do to the state that is looked at: the streams of the thread, or its process ids.

A stage of a pipeline runs on a thread of its own. `exec` takes the stages one after the other: the
results of commands are free, so that this covers every order. It is `none` when the run does not
come to an end, or is not defined. Two machines that do corresponding steps have corresponding runs
(`exec_simulation`).
-/

namespace IosSystem.Shell

/-- What the commands act on, and what each of them does. -/
structure Machine (σ : Type) where
  /-- `ios_storeThreadId(0)`, with which the three functions begin -/
  release : σ → σ
  /-- `ios_fork` -/
  fork : σ → Option σ
  /-- `ios_system` for a command, and waiting for its end -/
  command : CStr → σ → Option (σ × Int)
  /-- the thread of a stage, which may be the last one -/
  spawn : Bool → σ → σ
  /-- the calling thread after the end of a stage -/
  join : σ → σ → σ

/-- `ios_execute_conditional` ends behind this result. -/
def CondOp.stops (op : CondOp) (result : Int) : Bool :=
  (op = .and ∧ result ≠ 0) ∨ (op = .or ∧ result = 0)

section

variable {σ : Type} (M : Machine σ)

mutual

/-- `ios_system`: the new state and the result. -/
def Machine.exec : Plan → σ → Option (σ × Int)
  | .unfinished, _ => none
  | .sequential _ segments, s => Machine.execAll segments (M.release s) 0
  | .conditional _ ops nodes, s => Machine.execChain ops nodes (M.release s) 0
  | .pipeline _ _ stages, s => Machine.execStages stages (M.release s)
  | .overflow _, _ => none
  | .command text, s => M.command text s

/-- The loop of `ios_execute_sequential`. -/
def Machine.execAll : List Plan → σ → Int → Option (σ × Int)
  | [], s, result => some (s, result)
  | p :: ps, s, _ =>
    (M.fork s).bind fun s => (Machine.exec p s).bind fun r => Machine.execAll ps r.1 r.2

/-- The loop of `ios_execute_conditional`; the last node does not stop the chain. -/
def Machine.execChain : List CondOp → List Plan → σ → Int → Option (σ × Int)
  | op :: ops, p :: ps, s, _ =>
    (M.fork s).bind fun s => (Machine.exec p s).bind fun r =>
      if ps.isEmpty = false ∧ op.stops r.2 then some r else Machine.execChain ops ps r.1 r.2
  | [], _ :: _, s, result => some (s, result)
  | _, [], s, result => some (s, result)

def Machine.execStages : List Plan → σ → Option (σ × Int)
  | [], s => some (s, -1)
  | p :: ps, s =>
    (Machine.exec p (M.spawn ps.isEmpty s)).bind fun r =>
      if ps.isEmpty then some (M.join s r.1, r.2) else Machine.execStages ps (M.join s r.1)

end

/-- The states behind each `ios_fork` of the loop of `ios_execute_sequential`. -/
def Machine.forksAll : List Plan → σ → List σ
  | [], _ => []
  | p :: ps, s =>
    match M.fork s with
    | none => []
    | some s₁ => s₁ ::
      match M.exec p s₁ with
      | none => []
      | some r => Machine.forksAll ps r.1

/-- The states behind each `ios_fork` of the loop of `ios_execute_conditional`. -/
def Machine.forksChain : List CondOp → List Plan → σ → List σ
  | op :: ops, p :: ps, s =>
    match M.fork s with
    | none => []
    | some s₁ => s₁ ::
      match M.exec p s₁ with
      | none => []
      | some r =>
        if ps.isEmpty = false ∧ op.stops r.2 then [] else Machine.forksChain ops ps r.1
  | [], _ :: _, _ => []
  | _, [], _ => []

theorem execAll_eq_execChain (ps : List Plan) (s : σ) (result : Int) :
    M.execAll ps s result = M.execChain (ps.map fun _ => .none) ps s result := by
  induction ps generalizing s result with
  | nil => rfl
  | cons p ps ih => simp [Machine.execAll, Machine.execChain, CondOp.stops, ih]

theorem forksAll_eq_forksChain (ps : List Plan) (s : σ) :
    M.forksAll ps s = M.forksChain (ps.map fun _ => .none) ps s := by
  induction ps generalizing s with
  | nil => rfl
  | cons p ps ih => simp [Machine.forksAll, Machine.forksChain, CondOp.stops, ih]

end

theorem optionRel_bind {α β γ δ : Type} {R : α → β → Prop} {S : γ → δ → Prop} {x : Option α}
    {y : Option β} {f : α → Option γ} {g : β → Option δ} (h : Option.Rel R x y)
    (hfg : ∀ a b, R a b → Option.Rel S (f a) (g b)) : Option.Rel S (x.bind f) (y.bind g) := by
  cases h with
  | none => exact .none
  | some hr => exact hfg _ _ hr

/--
Corresponding steps. `Call` relates the states in which `ios_system` is called, `Loop` those of the
loops between two calls. There is one such pair for each kind of thread.
-/
structure Simulation {ι σ τ : Type} (M : Machine σ) (M' : Machine τ)
    (Call Loop : ι → σ → τ → Prop) : Prop where
  release : ∀ i s t, Call i s t → Loop i (M.release s) (M'.release t)
  fork : ∀ i s t, Loop i s t → Option.Rel (Call i) (M.fork s) (M'.fork t)
  command : ∀ i text s t, Call i s t →
    Option.Rel (fun x y => Loop i x.1 y.1 ∧ x.2 = y.2) (M.command text s) (M'.command text t)
  stage : ∀ i last s t, Loop i s t →
    ∃ j, Call j (M.spawn last s) (M'.spawn last t) ∧
      ∀ s' t', Loop j s' t' → Loop i (M.join s s') (M'.join t t')

section

variable {ι σ τ : Type} {M : Machine σ} {M' : Machine τ} {Call Loop : ι → σ → τ → Prop}

abbrev SameResult (Loop : σ → τ → Prop) (x : σ × Int) (y : τ × Int) : Prop :=
  Loop x.1 y.1 ∧ x.2 = y.2

mutual

/-- Two machines that simulate each other command by command do so for plans. -/
theorem exec_simulation (h : Simulation M M' Call Loop) (p : Plan) (i : ι) (s : σ) (t : τ)
    (hst : Call i s t) : Option.Rel (SameResult (Loop i)) (M.exec p s) (M'.exec p t) := by
  match p with
  | .unfinished => exact .none
  | .sequential _ segments => exact execAll_simulation h segments i _ _ 0 (h.release i s t hst)
  | .conditional _ ops nodes => exact execChain_simulation h ops nodes i _ _ 0 (h.release i s t hst)
  | .pipeline _ _ stages => exact execStages_simulation h stages i _ _ (h.release i s t hst)
  | .overflow _ => exact .none
  | .command text => exact h.command i text s t hst

theorem execAll_simulation (h : Simulation M M' Call Loop) (ps : List Plan) (i : ι) (s : σ) (t : τ)
    (result : Int) (hst : Loop i s t) :
    Option.Rel (SameResult (Loop i)) (M.execAll ps s result) (M'.execAll ps t result) := by
  match ps with
  | [] => exact .some ⟨hst, rfl⟩
  | p :: ps =>
    refine optionRel_bind (h.fork i s t hst) fun s₁ t₁ h₁ => ?_
    refine optionRel_bind (exec_simulation h p i s₁ t₁ h₁) fun x y hxy => ?_
    rw [hxy.2]
    exact execAll_simulation h ps i x.1 y.1 y.2 hxy.1

theorem execChain_simulation (h : Simulation M M' Call Loop) (ops : List CondOp) (ps : List Plan)
    (i : ι) (s : σ) (t : τ) (result : Int) (hst : Loop i s t) :
    Option.Rel (SameResult (Loop i)) (M.execChain ops ps s result)
      (M'.execChain ops ps t result) := by
  match ops, ps with
  | [], [] => exact .some ⟨hst, rfl⟩
  | _ :: _, [] => exact .some ⟨hst, rfl⟩
  | [], _ :: _ => exact .some ⟨hst, rfl⟩
  | op :: ops, p :: ps =>
    refine optionRel_bind (h.fork i s t hst) fun s₁ t₁ h₁ => ?_
    refine optionRel_bind (exec_simulation h p i s₁ t₁ h₁) fun x y hxy => ?_
    rw [hxy.2]
    split
    · exact .some hxy
    · exact execChain_simulation h ops ps i x.1 y.1 y.2 hxy.1

theorem execStages_simulation (h : Simulation M M' Call Loop) (ps : List Plan) (i : ι) (s : σ)
    (t : τ) (hst : Loop i s t) :
    Option.Rel (SameResult (Loop i)) (M.execStages ps s) (M'.execStages ps t) := by
  match ps with
  | [] => exact .some ⟨hst, rfl⟩
  | p :: ps =>
    obtain ⟨j, hspawn, hjoin⟩ := h.stage i ps.isEmpty s t hst
    refine optionRel_bind (exec_simulation h p j _ _ hspawn) fun x y hxy => ?_
    have hjoined := hjoin x.1 y.1 hxy.1
    rw [hxy.2]
    split
    · exact .some ⟨hjoined, rfl⟩
    · exact execStages_simulation h ps i _ _ hjoined

end

end

/-- Conditions that the parts of a machine keep, before and inside of the loops. -/
structure Rule {ι σ : Type} (M : Machine σ) (Call Loop : ι → σ → Prop) : Prop where
  release : ∀ i s, Call i s → Loop i (M.release s)
  fork : ∀ i s s', Loop i s → M.fork s = some s' → Call i s'
  command : ∀ i text s r, Call i s → M.command text s = some r → Loop i r.1
  stage : ∀ i last s, Loop i s →
    ∃ j, Call j (M.spawn last s) ∧ ∀ s', Loop j s' → Loop i (M.join s s')

section

variable {ι σ : Type} {M : Machine σ} {Call Loop : ι → σ → Prop}

theorem optionRel_diag {α : Type} {P : α → α → Prop} {x : Option α} (h : ∀ a, x = some a → P a a) :
    Option.Rel P x x := by
  cases x with
  | none => exact .none
  | some a => exact .some (h a rfl)

theorem Rule.simulation (h : Rule M Call Loop) :
    Simulation M M (fun i s t => s = t ∧ Call i s) (fun i s t => s = t ∧ Loop i s) where
  release := by
    rintro i s _ ⟨rfl, hs⟩
    exact ⟨rfl, h.release i s hs⟩
  fork := by
    rintro i s _ ⟨rfl, hs⟩
    exact optionRel_diag fun s' hs' => ⟨rfl, h.fork i s s' hs hs'⟩
  command := by
    rintro i text s _ ⟨rfl, hs⟩
    exact optionRel_diag fun r hr => ⟨⟨rfl, h.command i text s r hs hr⟩, rfl⟩
  stage := by
    rintro i last s _ ⟨rfl, hs⟩
    obtain ⟨j, hspawn, hjoin⟩ := h.stage i last s hs
    refine ⟨j, ⟨rfl, hspawn⟩, ?_⟩
    rintro s' _ ⟨rfl, hs'⟩
    exact ⟨rfl, hjoin s' hs'⟩

variable {r : σ × Int}

theorem of_optionRel {x : Option (σ × Int)} {P : σ → Prop}
    (h : Option.Rel (SameResult fun s t => s = t ∧ P s) x x) (hr : x = some r) : P r.1 := by
  rw [hr] at h
  cases h with
  | some h => exact h.1.2

theorem exec_rule (h : Rule M Call Loop) {p : Plan} {i : ι} {s : σ} (hs : Call i s)
    (hr : M.exec p s = some r) : Loop i r.1 :=
  of_optionRel (exec_simulation h.simulation p i s s ⟨rfl, hs⟩) hr

theorem execChain_rule (h : Rule M Call Loop) {ops : List CondOp} {ps : List Plan} {i : ι} {s : σ}
    {result : Int} (hs : Loop i s) (hr : M.execChain ops ps s result = some r) : Loop i r.1 :=
  of_optionRel (execChain_simulation h.simulation ops ps i s s result ⟨rfl, hs⟩) hr

theorem forksChain_rule (h : Rule M Call Loop) {ops : List CondOp} {ps : List Plan} {i : ι} {s : σ}
    (hs : Loop i s) : ∀ s' ∈ M.forksChain ops ps s, Call i s' := by
  induction ps generalizing ops s with
  | nil => cases ops <;> simp [Machine.forksChain]
  | cons p ps ih =>
    cases ops with
    | nil => simp [Machine.forksChain]
    | cons op ops =>
      rw [Machine.forksChain]
      split
      · simp
      · next s₁ hfork =>
        have hs₁ := h.fork i s s₁ hs hfork
        refine List.forall_mem_cons.mpr ⟨hs₁, ?_⟩
        split
        · simp
        · next r hexec =>
          split
          · simp
          · exact ih (exec_rule h hs₁ hexec)

end

end IosSystem.Shell
