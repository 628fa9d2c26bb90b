import IosSystem.Shell.ChildStream

/-!
# What `ios_popen` leaves behind

`ios_popen` creates a buffered pipe and a stream for each of its ends. The stream of one end is left
for the command, and the other one is returned. When one of the calls fails, `ios_popen` has to take
back what it has done.

Closing a stream only marks its end as closed, and `ios_pipe_destroy` frees the pipe. The model
lists these calls in order. `ios_system` is that of `Shell.ChildStream`.
-/

namespace IosSystem.Pipe.Ownership

open List Option
open IosSystem.Shell

inductive End where
  | read
  | write
  deriving DecidableEq

def End.other : End → End
  | .read => .write
  | .write => .read

/-- What happens to the pipe and its streams. -/
inductive Event where
  /-- `ios_pipe_create_default` -/
  | create
  /-- `ios_pipe_fdopen_read` or `ios_pipe_fdopen_write` -/
  | fdopen (e : End)
  /-- `fclose` of that stream -/
  | fclose (e : End)
  /-- `fclose(NULL)` -/
  | fcloseNull
  /-- `ios_pipe_destroy` -/
  | destroy
  deriving DecidableEq

/-- Which calls succeed. -/
structure Succeeds where
  create : Bool
  fdopen : End → Bool

structure Result where
  events : List Event
  /-- the stream that is returned, if it is not `NULL` -/
  returned : Option End
  /-- the thread of a command has been created with the stream of the other end -/
  handed : Bool

/-- The end for the command: the caller writes with type `w`, and the command reads. -/
def childEnd : CStr → Option End
  | 'w' :: _ => some .read
  | 'r' :: _ => some .write
  | _ => none

/-- Behind the call of `ios_system`: what becomes of the stream in `child_stdin` or `child_stdout`.
-/
def closeChild (s : Child.State) (child : End) : Event :=
  if s.child then .fclose child else .fcloseNull

/-- The calls before that. The command closes the stream that it has taken `closes` times. -/
def begun (closes : Nat) (s : Child.State) (child : End) : List Event :=
  .create :: .fdopen child :: if s.takers = [] then [] else replicate closes (.fclose child)

/-- The command has a thread, and no file has taken the place of the stream. -/
def keeps (child : End) (t : Child.Taken) : Bool :=
  (match t.fate with
    | .dispatched _ => true
    | _ => false) &&
    !match child with
      | .read => t.input
      | .write => t.output

def popenAs (ok : Succeeds) (closes : Nat) (system : Option (Child.State × Int)) (child : End) :
    Option Result :=
  if ok.fdopen child then
    system.map fun r =>
      let handed := r.1.takers.any (keeps child)
      if r.2 = 0 then
        if ok.fdopen child.other then
          ⟨begun closes r.1 child ++ [.fdopen child.other], some child.other, handed⟩
        else ⟨begun closes r.1 child ++ [closeChild r.1 child], none, handed⟩
      else
        -- the pipe is destroyed in the branch, and again behind it
        ⟨begun closes r.1 child ++ [closeChild r.1 child, .destroy, .destroy], none, handed⟩
  else some ⟨[.create, .destroy], none, false⟩

/-- `ios_popen` -/
def iosPopen (env : Env) (w : Child.World) (ok : Succeeds) (closes fuel : Nat)
    (inputCmd type : CStr) : Option Result :=
  if ok.create then
    match childEnd type with
    | some child =>
      popenAs ok closes (Child.iosSystem env w fuel (dropSpaces inputCmd) Child.State.initial) child
    | none => some ⟨[.create, .destroy], none, false⟩
  else some ⟨[], none, false⟩

/-- With `NULL` returned: the pipe is destroyed once, each stream is closed once, and no other one
is. -/
structure Released (events : List Event) : Prop where
  destroyed : events.count .destroy = events.count .create
  closed : ∀ e, events.count (.fclose e) = events.count (.fdopen e)
  noNull : .fcloseNull ∉ events

def Sound (r : Result) : Prop :=
  match r.returned with
  | some _ => .destroy ∉ r.events ∧ r.handed = true
  | none => Released r.events

theorem released_nothing : Released [] := ⟨rfl, fun _ => rfl, by simp⟩

theorem released_at_once : Released [.create, .destroy] :=
  ⟨rfl, fun e => by cases e <;> rfl, by simp⟩

section

variable (closes : Nat) (s : Child.State) (child : End)

theorem count_create_begun : (begun closes s child).count .create = 1 := by
  unfold begun
  split <;> simp [count_replicate]

theorem destroy_notMem_begun : .destroy ∉ begun closes s child := by
  unfold begun
  split <;> simp

end

theorem closeChild_ne (s : Child.State) (child : End) :
    closeChild s child ≠ .destroy ∧ closeChild s child ≠ .create := by
  unfold closeChild
  split <;> simp

theorem Released.destroy_eq_one {closes : Nat} {s : Child.State} {child : End} {k : Nat}
    (h : Released (begun closes s child ++ closeChild s child :: replicate k .destroy)) :
    k = 1 := by
  have hbegun := count_eq_zero.mpr (destroy_notMem_begun closes s child)
  obtain ⟨hdestroy, hcreate⟩ := closeChild_ne s child
  have hcount := h.destroyed
  rw [count_append, count_append, hbegun, count_create_begun,
    count_cons_of_ne hdestroy, count_cons_of_ne hcreate, count_replicate_self,
    count_replicate] at hcount
  simpa using hcount

theorem popenAs_sound_iff {ok : Succeeds} {closes : Nat} {s : Child.State} {returnValue : Int}
    {child : End} {r : Result} (hchild : ok.fdopen child = true)
    (h : popenAs ok closes (some (s, returnValue)) child = some r) :
    Sound r ↔ returnValue = 0 ∧ ok.fdopen child.other = true ∧
      s.takers.any (keeps child) = true := by
  simp only [popenAs, hchild, if_true, map_some, some.injEq] at h
  subst h
  by_cases hresult : returnValue = 0
  · by_cases hother : ok.fdopen child.other = true
    · simp [Sound, hresult, hother, destroy_notMem_begun]
    · -- the pipe is still there
      rw [if_pos hresult, if_neg hother]
      refine iff_of_false (fun h => ?_) fun h => hother h.2.1
      exact absurd (Released.destroy_eq_one (k := 0) h) (by decide)
  · rw [if_neg hresult]
    refine iff_of_false (fun h => ?_) fun h => hresult h.1
    exact absurd (Released.destroy_eq_one (k := 2) h) (by decide)

/-- The command that takes the child streams keeps the one that is left for it. -/
def Hands (child : End) (events : List Child.Event) : Prop :=
  ∃ t ∈ Child.taken events, keeps child t = true

/--
`ios_popen` releases what it has created, and keeps what it returns, in these cases and no others:
nothing could be created, the type is another one, there is no stream for the command; or
`ios_system` has returned 0, there is a stream for the caller, and the first command that the
calling thread starts itself has got a thread and its end of the pipe.
-/
theorem iosPopen_sound_iff {env : Env} {w : Child.World} {ok : Succeeds} {closes fuel : Nat}
    {inputCmd type : CStr} {calls : Child.Calls}
    (h : Child.ownCalls env w fuel (dropSpaces inputCmd) 0 = some calls) :
    ∃ r, iosPopen env w ok closes fuel inputCmd type = some r ∧
      (Sound r ↔ ∀ child, ok.create = true → childEnd type = some child → ok.fdopen child = true →
        calls.status = 0 ∧ ok.fdopen child.other = true ∧ Hands child calls.events) := by
  unfold iosPopen
  by_cases hcreate : ok.create = true
  · rw [if_pos hcreate]
    cases htype : childEnd type with
    | none => exact ⟨_, rfl, iff_of_true released_at_once fun _ _ h => nomatch h⟩
    | some child =>
      by_cases hchild : ok.fdopen child = true
      · have htakers := Child.takers_iosSystem env w fuel (dropSpaces inputCmd)
        rw [h, map_some] at htakers
        obtain ⟨⟨s, returnValue⟩, hsystem, heq⟩ := map_eq_some_iff.mp htakers
        obtain ⟨htaken, rfl⟩ : s.takers = _ ∧ returnValue = _ := Prod.mk.inj heq
        obtain ⟨r, hr⟩ : ∃ r, popenAs ok closes (some (s, calls.status)) child = some r :=
          ⟨_, if_pos hchild⟩
        refine ⟨r, by rw [hsystem]; exact hr, ?_⟩
        rw [popenAs_sound_iff hchild hr]
        have hhands : s.takers.any (keeps child) = true ↔ Hands child calls.events := by
          simp [htaken, Hands]
        rw [hhands]
        constructor
        · rintro hsound _ - ⟨⟩ -
          exact hsound
        · exact fun hall => hall child hcreate rfl hchild
      · refine ⟨_, if_neg hchild, iff_of_true released_at_once ?_⟩
        rintro _ - ⟨⟩ hopen
        exact absurd hopen hchild
  · rw [if_neg hcreate]
    exact ⟨_, rfl, iff_of_true released_nothing fun _ h => absurd h hcreate⟩

/-- `date` is started, and its output can be read. -/
theorem iosPopen_date : ∃ r,
    iosPopen (plainEnv (fun _ _ => none) id) (.same (.dispatched false) 0) ⟨true, fun _ => true⟩ 1 3
      "date".toList "r".toList = some r ∧ Sound r := by
  have h : Child.ownCalls (plainEnv (fun _ _ => none) id) (.same (.dispatched false) 0) 3
      (dropSpaces "date".toList) 0
      = some ⟨[.command "date".toList ⟨true, true, true, .dispatched false, 0⟩], 1, 0⟩ := rfl
  obtain ⟨r, hr, hiff⟩ : ∃ r, iosPopen (plainEnv (fun _ _ => none) id)
      (.same (.dispatched false) 0) ⟨true, fun _ => true⟩ 1 3 "date".toList "r".toList = some r ∧
      (Sound r ↔ _) := iosPopen_sound_iff h
  refine ⟨r, hr, hiff.mpr ?_⟩
  rintro _ - ⟨⟩ -
  exact ⟨rfl, rfl, _, rfl, rfl⟩

/--
`date` is not found and `command_not_found` returns 127: `fclose(NULL)`, and the pipe is destroyed
twice. `date` returns 0 and there is no stream for the caller: `fclose(NULL)`, and the pipe is not
destroyed.
-/
theorem iosPopen_unsound :
    (∃ r, iosPopen (plainEnv (fun _ _ => none) id) (.same (.dispatched false) 127)
        ⟨true, fun _ => true⟩ 1 3 "date".toList "r".toList = some r ∧ r.returned = none ∧
        r.events = [.create, .fdopen .write, .fclose .write, .fcloseNull, .destroy, .destroy]) ∧
      ∃ r, iosPopen (plainEnv (fun _ _ => none) id) (.same (.dispatched false) 0)
        ⟨true, fun e => e = .write⟩ 1 3 "date".toList "r".toList = some r ∧ r.returned = none ∧
        r.events = [.create, .fdopen .write, .fclose .write, .fcloseNull] :=
  ⟨⟨_, rfl, rfl, rfl⟩, _, rfl, rfl, rfl⟩

end IosSystem.Pipe.Ownership
