import IosSystem.Async.Handle

/-!
# How long the handle lives

For its lifetime only the phase of each thread matters: it has not taken its reference yet, it
holds one, it has dropped the last one and is about to free the handle, or it is gone. `Sound` lists
the combinations that occur when the caller drops its reference after the worker has taken its own.
-/

namespace IosSystem.Async

open PC State

/-- What a thread has done with its reference. -/
inductive Phase where
  | fresh
  | holding
  /-- `prev_count` was 1 in `ios_command_release` -/
  | last
  | gone
  deriving DecidableEq, Repr

def PC.phase : PC → Phase
  | .start => .fresh
  | .relLoad | .relFree | .waitLock true | .waitPending true | .waitRunning true
  | .waitTimeout true | .waitBlocked true | .waitExit true => .last
  | .done => .gone
  | _ => .holding

theorem touches_iff_phase (pc : PC) : pc.touches = true ↔ pc.phase ≠ .gone := by
  cases pc <;> first | decide | (rename_i b; cases b <;> decide) | (simp [touches, phase])

/-- What a step does to the count, seen from the thread that makes it. -/
inductive Move (s s' : State) : PC → Phase → Prop
  | stay {pc : PC} : s'.cmd.refCount = s.cmd.refCount → s'.freed = s.freed → Move s s' pc pc.phase
  | take : s'.cmd.refCount = s.cmd.refCount + 1 → s'.freed = s.freed → Move s s' .start .holding
  | drop : 1 < s.cmd.refCount → s'.cmd.refCount = s.cmd.refCount - 1 → s'.freed = s.freed →
      Move s s' .relDec .gone
  | dropLast : s.cmd.refCount ≤ 1 → s'.cmd.refCount = s.cmd.refCount - 1 → s'.freed = s.freed →
      Move s s' .relDec .last
  | free : s'.cmd.refCount = s.cmd.refCount → s'.freed = s.freed + 1 → Move s s' .relFree .gone

section

variable (s : State) (t : Thread) (pc : PC)

theorem pc_goto : (s.goto t pc).pc t = pc := by
  cases t <;> rfl

theorem pc_other_goto : (s.goto t pc).pc t.other = s.pc t.other := by
  cases t <;> rfl

theorem goto_cmd : (s.goto t pc).cmd = s.cmd := by
  cases t <;> rfl

theorem goto_freed : (s.goto t pc).freed = s.freed := by
  cases t <;> rfl

end

variable {s s' s1 : State} {t : Thread} {pc pc' : PC}

theorem lock_eq_some (h : s.lock t pc = some s') :
    s.cmd.mutex = none ∧ s' = { s with cmd.mutex := some t }.goto t pc := by
  unfold lock at h
  split at h
  · next hm => exact ⟨hm, (Option.some.inj h).symm⟩
  · cases h

theorem move_goto (ho : s1.pc t.other = s.pc t.other) (hr : s1.cmd.refCount = s.cmd.refCount)
    (hf : s1.freed = s.freed) (hp : pc'.phase = pc.phase) :
    (s1.goto t pc').pc t.other = s.pc t.other ∧
      Move s (s1.goto t pc') pc ((s1.goto t pc').pc t).phase := by
  rw [pc_other_goto, pc_goto, hp]
  exact ⟨ho, .stay (by rw [goto_cmd, hr]) (by rw [goto_freed, hf])⟩

variable {o : Outcome}

theorem advance_move (h : advance s t o pc = some s') :
    s'.pc t.other = s.pc t.other ∧ Move s s' pc (s'.pc t).phase := by
  have hself : ∀ s1 : State, s1.worker = s.worker → s1.caller = s.caller →
      s1.pc t.other = s.pc t.other := by
    intro s1 hw hc
    cases t
    · exact hc
    · exact hw
  have hback : (afterCallback t).phase = .holding := by cases t <;> rfl
  cases pc <;> simp only [advance, lock] at h
  case start =>
    cases h
    rw [pc_other_goto, pc_goto]
    exact ⟨hself _ rfl rfl, .take (by rw [goto_cmd]) (by rw [goto_freed])⟩
  case relDec =>
    cases h
    rw [pc_other_goto, pc_goto]
    refine ⟨hself _ rfl rfl, ?_⟩
    split
    · next h1 => exact .drop h1 (by rw [goto_cmd]) (by rw [goto_freed])
    · next h1 => exact .dropLast (by omega) (by rw [goto_cmd]) (by rw [goto_freed])
  case relFree =>
    cases h
    rw [pc_other_goto, pc_goto]
    exact ⟨hself _ rfl rfl, .free (by rw [goto_cmd]) (by rw [goto_freed])⟩
  -- the other steps stay in their phase
  case waitExit r =>
    cases h
    exact move_goto (hself _ rfl rfl) rfl rfl (by cases r <;> rfl)
  case waitLock r | waitBlocked r | waitPending r | waitRunning r | waitTimeout r =>
    split at h <;> cases h <;> exact move_goto (hself _ rfl rfl) rfl rfl (by cases r <;> rfl)
  all_goals repeat' split at h
  all_goals cases h
  all_goals first
    | exact move_goto (hself _ rfl rfl) rfl rfl rfl
    | exact move_goto (hself _ rfl rfl) rfl rfl hback

theorem call_eq_some (h : s.call pc = some s') :
    ∃ r, s.caller = .idle r ∧ s' = s.goto .caller pc := by
  unfold call at h
  split at h
  · next r hc => exact ⟨r, hc, (Option.some.inj h).symm⟩
  · cases h

/-- The caller drops its reference before the worker has taken one. -/
def Overtakes (s : State) : Label → Prop
  | .advance .caller _ => s.caller = .relDec ∧ s.worker = .start
  | _ => False

variable {l : Label}

theorem step_move (hg : ¬ Overtakes s l) (h : step s l = some s') :
    ∃ t, s'.pc t.other = s.pc t.other ∧ Move s s' (s.pc t) (s'.pc t).phase ∧
      (t = .caller → s.caller = .relDec → s.worker ≠ .start) := by
  have hcall : ∀ pc : PC, pc.phase = .holding → s.call pc = some s' →
      ∃ t, s'.pc t.other = s.pc t.other ∧ Move s s' (s.pc t) (s'.pc t).phase ∧
        (t = .caller → s.caller = .relDec → s.worker ≠ .start) := by
    intro pc hp hc
    obtain ⟨r, hr, rfl⟩ := call_eq_some hc
    have hp' : pc.phase = (s.pc .caller).phase := by rw [hp, State.pc, hr]; rfl
    obtain ⟨ho, hm⟩ := move_goto (s := s) (t := .caller) rfl rfl rfl hp'
    exact ⟨.caller, ho, hm, fun _ hd => by rw [hr] at hd; cases hd⟩
  cases l with
  | wait | tryWait | kill | setCallback cb | release => exact hcall _ rfl h
  | advance t o =>
    obtain ⟨ho, hm⟩ := advance_move h
    refine ⟨t, ho, hm, ?_⟩
    rintro rfl hd hw
    exact hg ⟨hd, hw⟩

/-! ## The life of the handle -/

/-- The phases of worker and caller that occur together, with `ref_count` and the number of
times the handle has been freed. -/
def Sound (refCount : Int) (freed : Nat) : Phase → Phase → Prop
  | .fresh, .holding => refCount = 1 ∧ freed = 0
  | .holding, .holding => refCount = 2 ∧ freed = 0
  | .holding, .gone | .gone, .holding => refCount = 1 ∧ freed = 0
  | .last, .gone | .gone, .last => refCount = 0 ∧ freed = 0
  | .gone, .gone => refCount = 0 ∧ freed = 1
  | _, _ => False

def State.Sound (s : State) : Prop :=
  Async.Sound s.cmd.refCount s.freed s.worker.phase s.caller.phase

theorem phase_eq_fresh (h : pc.phase = .fresh) : pc = .start := by
  cases pc <;> first | rfl | cases h | (rename_i b; cases b <;> cases h)

theorem sound_worker {w : PC} {p : Phase} (c : Phase) (hm : Move s s' w p)
    (hs : Sound s.cmd.refCount s.freed w.phase c) : Sound s'.cmd.refCount s'.freed p c := by
  cases hm with
  | stay hr hf => rw [hr, hf]; exact hs
  | take hr hf | drop _ hr hf | dropLast _ hr hf | free hr hf =>
    cases c <;> simp only [Sound, phase] at hs ⊢ <;> omega

theorem sound_caller {w c : PC} {p : Phase} (hm : Move s s' c p) (hg : c = .relDec → w ≠ .start)
    (hs : Sound s.cmd.refCount s.freed w.phase c.phase) :
    Sound s'.cmd.refCount s'.freed w.phase p := by
  cases hm with
  | stay hr hf => rw [hr, hf]; exact hs
  | drop _ hr hf | dropLast _ hr hf =>
    cases hw : w.phase with
    | fresh => exact absurd (phase_eq_fresh hw) (hg rfl)
    | _ => rw [hw] at hs; simp only [Sound, phase] at hs ⊢ <;> omega
  | take hr hf | free hr hf =>
    cases hw : w.phase <;> rw [hw] at hs <;> simp only [Sound, phase] at hs ⊢ <;> omega

theorem sound_step (hs : s.Sound) (hg : ¬ Overtakes s l) (h : step s l = some s') : s'.Sound := by
  unfold State.Sound at hs ⊢
  obtain ⟨t, ho, hm, hd⟩ := step_move hg h
  cases t with
  | worker =>
    have hc : s'.caller = s.caller := ho
    rw [hc]
    exact sound_worker _ hm hs
  | caller =>
    have hw : s'.worker = s.worker := ho
    rw [hw]
    exact sound_caller hm (hd rfl) hs

theorem sound_freed {refCount : Int} {freed : Nat} {w c : Phase} (h : Sound refCount freed w c) :
    freed = if w = .gone ∧ c = .gone then 1 else 0 := by
  cases w <;> cases c <;> first | exact h.elim | exact h.2

/-! ## Both threads can finish

The schedule: a caller that is inside the mutex leaves it, the worker runs to its end, then the
caller does. -/

/-- The thread holds `mutex`. -/
def PC.locks : PC → Bool
  | .storeExit _ | .publish _ | .doneUnlock _ | .cbTest _ | .waitPending _ | .waitRunning _
  | .waitTimeout _ | .waitExit _ | .killTest | .killRequest | .killSession | .setStore _ => true
  | _ => false

/-- The places of `command_thread_func` and those of the caller's calls. -/
def Thread.owns : Thread → PC → Bool
  | _, .cbLock _ | _, .cbTest _ | _, .cbCall _ | _, .relDec | _, .relLoad | _, .relFree
  | _, .done => true
  | .worker, .start | .worker, .setRunning | .worker, .runCommand | .worker, .doneLock _
  | .worker, .storeExit _ | .worker, .publish _ | .worker, .doneUnlock _
  | .worker, .closeSession => true
  | .worker, _ => false
  | .caller, .start | .caller, .setRunning | .caller, .runCommand | .caller, .doneLock _
  | .caller, .storeExit _ | .caller, .publish _ | .caller, .doneUnlock _
  | .caller, .closeSession => false
  | .caller, _ => true

/-- The worker has stored the final status. -/
def PC.published : PC → Bool
  | .start | .setRunning | .runCommand | .doneLock _ | .storeExit _ | .publish _ => false
  | _ => true

/-- What progress rests on: who holds the mutex, and that a worker that is through has told so. -/
structure Live (s : State) : Prop where
  places : ∀ t : Thread, t.owns (s.pc t) = true
  mutex : ∀ t, s.cmd.mutex = some t ↔ (s.pc t).locks = true
  status : s.worker.published = true → s.cmd.status.final = true

theorem live_iff : Live s ↔
    (Thread.owns .worker s.worker = true ∧ Thread.owns .caller s.caller = true) ∧
      ((s.cmd.mutex = some .worker ↔ s.worker.locks = true) ∧
        (s.cmd.mutex = some .caller ↔ s.caller.locks = true)) ∧
      (s.worker.published = true → s.cmd.status.final = true) := by
  constructor
  · rintro ⟨hp, hm, hs⟩
    exact ⟨⟨hp .worker, hp .caller⟩, ⟨hm .worker, hm .caller⟩, hs⟩
  · rintro ⟨⟨hw, hc⟩, ⟨hmw, hmc⟩, hs⟩
    exact ⟨fun t => by cases t <;> assumption, fun t => by cases t <;> assumption, hs⟩

theorem live_worker (hpc : s.worker = pc) (hl : Live s) (h : advance s .worker o pc = some s') :
    Live s' := by
  rw [live_iff, hpc] at hl
  rw [live_iff]
  obtain ⟨⟨hown, hc⟩, ⟨hmw, hmc⟩, hs⟩ := hl
  have hfinal := finalStatus_final s.cmd o.elapsedMs
  -- at `relLoad` the worker has stored its status itself, so it does not wait for it
  cases pc <;> first | cases hown; done | skip
  all_goals
    simp only [advance, lock, unlock, goto] at h hmw hs
    grind [Thread.owns, locks, published, afterCallback, Status.final]

theorem live_caller (hpc : s.caller = pc) (hl : Live s) (h : advance s .caller o pc = some s') :
    Live s' := by
  rw [live_iff, hpc] at hl
  rw [live_iff]
  obtain ⟨⟨hw, hown⟩, ⟨hmw, hmc⟩, hs⟩ := hl
  cases pc <;> first | cases hown; done | skip
  all_goals
    simp only [advance, lock, unlock, goto, locks] at h hmc
    grind [Thread.owns, locks, published, afterCallback, Status.final]

theorem live_advance (hl : Live s) (h : advance s t o (s.pc t) = some s') : Live s' := by
  cases t with
  | worker => exact live_worker rfl hl h
  | caller => exact live_caller rfl hl h

theorem live_step (hl : Live s) (h : step s l = some s') : Live s' := by
  have hcall : ∀ pc : PC, Thread.owns .caller pc = true → pc.locks = false →
      s.call pc = some s' → Live s' := by
    intro pc hp hk hc
    obtain ⟨r, hr, rfl⟩ := call_eq_some hc
    rw [live_iff] at hl ⊢
    rw [hr] at hl
    exact ⟨⟨hl.1.1, hp⟩, ⟨hl.2.1.1, by rw [goto, hk]; exact hl.2.1.2⟩, hl.2.2⟩
  cases l with
  | wait | tryWait | kill | setCallback cb | release => exact hcall _ rfl rfl h
  | advance t o => exact live_advance hl h

/-- A bound on the steps that are left outside of the wait loop. -/
def PC.left : PC → Nat
  | .start => 20
  | .setRunning => 19
  | .runCommand => 18
  | .doneLock _ => 17
  | .storeExit _ => 16
  | .publish _ => 15
  | .doneUnlock _ => 14
  | .setLock _ | .waitTimeout _ => 13
  | .setStore _ | .waitLock _ | .waitBlocked _ => 12
  | .setExit | .waitPending _ | .killLock => 11
  | .cbLock _ | .waitRunning _ | .killTest => 10
  | .cbTest _ | .waitExit _ | .killRequest | .tryStatus => 9
  | .cbCall _ | .killSession | .tryExit => 8
  | .closeSession | .idle _ => 7
  | .relDec => 6
  | .relLoad => 5
  | .relFree => 4
  | .done => 0

/-- The steps until the mutex is unlocked. -/
def PC.inLock : PC → Nat
  | .waitPending _ => 4
  | .waitRunning _ | .killTest => 3
  | .waitTimeout _ | .killRequest => 2
  | .waitExit _ | .killSession | .cbTest _ | .setStore _ => 1
  | _ => 0

theorem mutex_free (hl : Live s) (hw : s.worker.locks = false)
    (hc : s.caller.locks = false) : s.cmd.mutex = none := by
  cases hm : s.cmd.mutex with
  | none => rfl
  | some t =>
    have h := (hl.mutex t).1 hm
    cases t with
    | worker => rw [pc, hw] at h; cases h
    | caller => rw [pc, hc] at h; cases h

theorem advance_lowers (o : Outcome) (hm : pc.locks = false → s.cmd.mutex = none)
    (hf : pc.published = true → s.cmd.status.final = true)
    (hd : pc ≠ .done) (hi : ∀ r, pc ≠ .idle r) :
    ∃ s', advance s t o pc = some s' ∧ s'.pc t.other = s.pc t.other ∧ (s'.pc t).left < pc.left := by
  have hgoto : ∀ (s1 : State) (pc' : PC), s1.worker = s.worker → s1.caller = s.caller →
      pc'.left < pc.left → ∃ s', some (s1.goto t pc') = some s' ∧ s'.pc t.other = s.pc t.other ∧
        (s'.pc t).left < pc.left := by
    intro s1 pc' hw hc hlt
    refine ⟨_, rfl, ?_, ?_⟩
    · cases t
      · exact hc
      · exact hw
    · rw [pc_goto]; exact hlt
  have hback : (afterCallback t).left = 7 := by cases t <;> rfl
  cases pc <;> simp only [advance]
  case done => exact absurd rfl hd
  case idle r => exact absurd rfl (hi r)
  case doneLock | cbLock | killLock | setLock | waitLock | waitBlocked =>
    rw [lock, if_pos (hm rfl)]
    exact hgoto _ _ rfl rfl (by simp [left])
  case waitPending r =>
    rw [if_neg fun h => by have := hf rfl; rw [h] at this; cases this]
    exact hgoto _ _ rfl rfl (by simp [left])
  case waitRunning r =>
    rw [if_neg fun h => by have := hf rfl; rw [h] at this; cases this]
    exact hgoto _ _ rfl rfl (by simp [left])
  case waitExit r => exact hgoto _ _ rfl rfl (by cases r <;> simp [left])
  case relLoad =>
    rw [if_pos (hf rfl)]
    exact hgoto _ _ rfl rfl (by simp [left])
  all_goals repeat' split
  all_goals exact hgoto _ _ rfl rfl (by first | rw [hback]; simp [left] | simp [left])

theorem caller_leaves (o : Outcome) (hk : pc.locks = true) (hp : Thread.owns .caller pc = true) :
    ∃ s', advance s .caller o pc = some s' ∧ s'.worker = s.worker ∧
      s'.caller.inLock < pc.inLock := by
  cases pc with
  | waitPending r | waitRunning r | waitTimeout r | killTest | cbTest e =>
    simp only [advance]
    split <;> exact ⟨_, rfl, rfl, by simp [inLock, goto, unlock, afterCallback]⟩
  | waitExit r =>
    refine ⟨_, rfl, rfl, ?_⟩
    cases r <;> simp [inLock, goto, unlock]
  | setStore cb =>
    refine ⟨_, rfl, rfl, ?_⟩
    simp only [unlock, goto]
    split <;> simp [inLock]
  | killRequest | killSession =>
    exact ⟨_, rfl, rfl, by simp [inLock, goto, unlock]⟩
  | storeExit r | publish r | doneUnlock r => cases hp
  | _ => cases hk

/-- Goes down when the worker, or at last the caller, makes a step. -/
def State.rank (s : State) : Nat :=
  s.worker.left * 32 + if s.worker = .done then s.caller.left else s.caller.inLock

theorem left_le (pc : PC) : pc.left ≤ 20 := by
  cases pc <;> simp [left]

/-- Until all is finished, somebody can go on and lower the rank. -/
theorem can_step (hl : Live s) (hn : ¬ s.Finished) :
    ∃ l s', ¬ Overtakes s l ∧ step s l = some s' ∧ Live s' ∧ s'.rank < s.rank := by
  unfold rank
  by_cases hd : s.worker = .done
  · -- the worker has returned: the caller makes a step, or releases the handle
    have hf : s.cmd.status.final = true := hl.status (by rw [hd]; rfl)
    have hc : s.caller ≠ .done := fun hc => hn ⟨hd, hc⟩
    have hnot : ∀ l, ¬ Overtakes s l := by
      intro l ho
      unfold Overtakes at ho
      split at ho
      · rw [hd] at ho; cases ho.2
      · exact ho
    by_cases hi : ∃ r, s.caller = .idle r
    · obtain ⟨r, hr⟩ := hi
      have hstep : step s .release = some (s.goto .caller .relDec) := by
        simp [step, call, hr]
      refine ⟨.release, _, hnot _, hstep, live_step hl hstep, ?_⟩
      simp [goto, hd, hr, left]
    · obtain ⟨s', hs, ho, hlt⟩ := advance_lowers (t := .caller) ⟨0, 0⟩
        (mutex_free hl (by rw [hd]; rfl)) (fun _ => hf) hc fun r hr => hi ⟨r, hr⟩
      have hw : s'.worker = s.worker := ho
      refine ⟨.advance .caller ⟨0, 0⟩, s', hnot _, hs, live_advance hl hs, ?_⟩
      rw [hw, hd, if_pos rfl, if_pos rfl]
      exact Nat.add_lt_add_left hlt _
  · cases hk : s.caller.locks with
    | true =>
      obtain ⟨s', hs, hw, hlt⟩ := caller_leaves (s := s) ⟨0, 0⟩ hk (hl.places .caller)
      refine ⟨.advance .caller ⟨0, 0⟩, s', ?_, hs, live_advance hl hs, ?_⟩
      · rintro ⟨hr, -⟩
        rw [hr] at hk
        cases hk
      · rw [hw, if_neg hd, if_neg hd]
        exact Nat.add_lt_add_left hlt _
    | false =>
      have hidle : ∀ r, s.worker ≠ .idle r := by
        intro r hr
        have hp := hl.places .worker
        rw [pc, hr] at hp
        cases hp
      obtain ⟨s', hs, ho, hlt⟩ := advance_lowers (t := .worker) ⟨0, 0⟩
        (fun hw => mutex_free hl hw hk) hl.status hd hidle
      have hc : s'.caller = s.caller := ho
      refine ⟨.advance .worker ⟨0, 0⟩, s', id, hs, live_advance hl hs, ?_⟩
      have hlt' : s'.worker.left < s.worker.left := hlt
      have := left_le s.caller
      rw [hc, if_neg hd]
      split <;> omega

/-! ## The theorem -/

/-- The runs in which the caller does not overtake the worker. -/
def ReachableFrom (s0 : State) (s : State) : Prop :=
  Transition.Reachable step (fun s l => ¬ Overtakes s l) (· = s0) s

variable {options : Option Options} {context : Option Nat}

theorem sound_reachable (h : ReachableFrom (State.initial options context) s) : s.Sound := by
  refine h.invariant ?_ fun _ _ _ hs hg hstep => sound_step hs hg hstep
  rintro _ rfl
  exact ⟨rfl, rfl⟩

theorem live_reachable (h : ReachableFrom (State.initial options context) s) : Live s := by
  refine h.invariant ?_ fun _ _ _ hl _ hstep => live_step hl hstep
  rintro _ rfl
  refine ⟨fun t => by cases t <;> rfl, fun t => ?_, fun h => by cases h⟩
  cases t <;> exact iff_of_false (by simp [initial, systemAsync]) (by simp [pc, initial, locks])

/--
The handle is freed at most once, never while a thread still uses it, and in the end exactly once.
-/
theorem freed_once (options : Option Options) (context : Option Nat) {s : State}
    (h : ReachableFrom (State.initial options context) s) :
    s.freed ≤ 1 ∧ (∀ t, (s.pc t).touches = true → s.freed = 0) ∧ (s.Finished → s.freed = 1) ∧
      ∃ s', ReachableFrom s s' ∧ s'.Finished := by
  have hf := sound_freed (sound_reachable h)
  refine ⟨?_, ?_, ?_, ?_⟩
  · rw [hf]
    split <;> omega
  · intro t ht
    rw [touches_iff_phase] at ht
    rw [hf, if_neg]
    rintro ⟨hw, hc⟩
    cases t
    · exact ht hw
    · exact ht hc
  · rintro ⟨hw, hc⟩
    rw [hf, hw, hc]
    rfl
  · exact Transition.Reachable.of_rank State.rank (fun _ hl hn => can_step hl hn)
      (.start rfl) (live_reachable h)

/-- The caller releases the handle while the command runs. -/
theorem freed_once_released :
    ∃ s, ReachableFrom (State.initial none none) s ∧ s.caller = .done ∧ s.freed = 0 := by
  have h0 : ReachableFrom (State.initial none none) (State.initial none none) := .start rfl
  have h1 := h0.next (a := .advance .worker ⟨0, 0⟩) id rfl
  have h2 := h1.next (a := .release) id rfl
  have h3 := h2.next (a := .advance .caller ⟨0, 0⟩) (by simp [Overtakes, State.goto]) rfl
  exact ⟨_, h3, rfl, (freed_once none none h3).2.1 .worker rfl⟩

/-- The caller releases the handle at once; the worker, which then takes its reference, is left
with a handle that the caller frees as soon as the status is final. -/
def overtaken : List Label :=
  let w := Label.advance .worker ⟨0, 0⟩
  let c := Label.advance .caller ⟨0, 0⟩
  [.release, c, c, c, c, c, w, w, w, w, w, w, w, c, c, c, c, c]

def workerRest : List Label :=
  List.replicate 6 (.advance .worker ⟨0, 0⟩)

/-- The caller releases first: the handle is freed under the worker, which frees it again. -/
theorem freed_under_worker :
    ∃ s s', Transition.Reachable step (fun _ _ => True) (· = State.initial none none) s ∧
      s.worker.touches = true ∧ s.freed = 1 ∧
      Transition.run step s workerRest = some s' ∧ s'.freed = 2 := by
  have hrun : ∃ s, Transition.run step (State.initial none none) overtaken = some s ∧
      s.worker.touches = true ∧ s.freed = 1 ∧
      (Transition.run step s workerRest).map State.freed = some 2 := ⟨_, rfl, rfl, rfl, rfl⟩
  obtain ⟨s, hs, hw, hf, hrest⟩ := hrun
  obtain ⟨s', hs', hf'⟩ := Option.map_eq_some_iff.1 hrest
  exact ⟨s, s', Transition.Reachable.of_run (.start rfl) hs, hw, hf, hs', hf'⟩

end IosSystem.Async
