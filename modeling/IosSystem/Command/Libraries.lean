import IosSystem.Command.Resolve
import Mathlib.Data.List.Perm.Basic

/-!
# Libraries that are open

A command that is resolved through the cache gets the handle of the library without a `dlopen`, and
`cleanup_function` closes it all the same. A command without a handle is closed too: `NULL` is none
of the constants that `cleanup_function` leaves out. `backed_iff_meets` says which starts have to be
avoided.
-/

namespace IosSystem.Command

open State
open IosSystem.Shell

/-- `cleanup_function` calls `dlclose`. -/
def Handle.closes : Handle → Bool
  | .self | .main => false
  | .null | .library _ => true

/-- The library that holds the function of a command. -/
def Started.library (c : Started) : Option CStr :=
  match c.function with
  | .command _ => c.handle.opened
  | _ => none

/--
The library of each command that is running is open, and the `dlclose` of its `cleanup_function` has
a `dlopen` that was made for the command.
-/
structure Backed (s : State) : Prop where
  loaded : ∀ c ∈ s.commands, ∀ l, c.library = some l → 0 < s.count l
  matched : ∀ c ∈ s.commands, c.handle.closes = true → ∃ l, c.handle = .library l ∧
    c.opened = some l

/-- A command that is started has a handle, and if it comes from the cache, not one of a library. -/
def StartGuard (L : Linker) (s : State) : Label → Prop
  | .system name copy created => created = true →
    (s.resolve L (commandName name) copy).handle ≠ .null ∧
      ∀ e, s.hit (commandName name) = some e → e.handle.opened = none
  | _ => True

/-- The commands at work that have opened a library. -/
def State.openers (s : State) (l : CStr) : Nat := s.commands.countP (·.opened = some l)

/-- Every command at work that has opened a library is counted by it. -/
structure OpenInv (s : State) : Prop where
  count : ∀ l, s.openers l ≤ s.count l
  opened : ∀ c ∈ s.commands, c.opened = c.handle.opened
  handle : ∀ c ∈ s.commands, c.handle ≠ .null

variable {L : Linker} {s s' : State}

theorem Handle.opened_eq_some {h : Handle} {l : CStr} : h.opened = some l ↔ h = .library l := by
  cases h <;> simp [Handle.opened]

theorem OpenInv.backed (h : OpenInv s) : Backed s := by
  refine ⟨fun c hc l hl => ?_, fun c hc hcloses => ?_⟩
  · have hopened : c.opened = some l := by
      rw [h.opened c hc]
      unfold Started.library at hl
      cases hf : c.function <;> simp only [hf] at hl
      · exact hl
      · cases hl
      · cases hl
    have hpos : 0 < s.openers l := List.countP_pos_iff.mpr ⟨c, hc, decide_eq_true hopened⟩
    exact Nat.lt_of_lt_of_le hpos (h.count l)
  · cases hh : c.handle with
    | null => exact absurd hh (h.handle c hc)
    | self | main =>
      rw [hh] at hcloses
      cases hcloses
    | library l =>
      refine ⟨l, rfl, ?_⟩
      rw [h.opened c hc, hh]
      rfl

theorem OpenInv.initial (table : CStr → Option Entry) (count : CStr → Nat) (created : Bool) :
    OpenInv (.initial table count created) where
  count _ := Nat.zero_le _
  opened := nofun
  handle := nofun

theorem resolve_opened {name : CStr} {copy : Option Copy}
    (h : ∀ e, s.hit name = some e → e.handle.opened = none) :
    (s.resolve L name copy).opened = (s.resolve L name copy).handle.opened := by
  cases hhit : s.hit name with
  | some e =>
    rw [resolve_of_hit hhit]
    exact (h e hhit).symm
  | none =>
    rw [resolve_of_not_hit hhit]
    exact resolveFresh_opened name copy

theorem count_start (r : Resolution) (created : Bool) (l : CStr) :
    (s.start r created).count l = s.count l + if r.opened = some l then 1 else 0 := by
  unfold start
  cases hr : r.opened with
  | none => simp
  | some l' =>
    by_cases hl : l = l'
    · subst hl
      simp
    · have hne : l' ≠ l := Ne.symm hl
      simp [hl, hne]

theorem openers_start (r : Resolution) (l : CStr) :
    (s.start r true).openers l = s.openers l + if r.opened = some l then 1 else 0 := by
  simp [openers, start]

theorem OpenInv.start (h : OpenInv s) {r : Resolution} {created : Bool}
    (hr : created = true → r.opened = r.handle.opened ∧ r.handle ≠ .null) :
    OpenInv (s.start r created) := by
  cases created with
  | false =>
    refine ⟨fun l => ?_, h.opened, h.handle⟩
    rw [count_start]
    exact Nat.le_trans (h.count l) (Nat.le_add_right ..)
  | true =>
    obtain ⟨hopened, hnull⟩ := hr rfl
    have hmem : ∀ c ∈ (s.start r true).commands,
        c ∈ s.commands ∨ c = ⟨r.function, r.handle, r.opened⟩ := by
      simp [State.start]
    refine ⟨fun l => ?_, fun c hc => ?_, fun c hc => ?_⟩
    · rw [count_start, openers_start]
      exact Nat.add_le_add_right (h.count l) _
    · rcases hmem c hc with hc | rfl
      · exact h.opened c hc
      · exact hopened
    · rcases hmem c hc with hc | rfl
      · exact h.handle c hc
      · exact hnull

theorem openers_eraseIdx {k : Nat} {c : Started} (hk : s.commands[k]? = some c) (l : CStr) :
    (s.commands.eraseIdx k).countP (·.opened = some l) + (if c.opened = some l then 1 else 0)
      = s.openers l := by
  obtain ⟨hlt, rfl⟩ := List.getElem?_eq_some_iff.mp hk
  have hperm := (List.getElem_cons_eraseIdx_perm hlt).countP_eq (·.opened = some l)
  rw [List.countP_cons] at hperm
  simpa [openers] using hperm

theorem count_close (handle : Handle) (l : CStr) :
    (s.close handle).count l = s.count l - if handle.opened = some l then 1 else 0 := by
  cases handle with
  | null | self | main => simp [close, Handle.opened]
  | library l' =>
    by_cases hl : l = l'
    · subst hl
      simp [close, Handle.opened]
    · have hne : l' ≠ l := Ne.symm hl
      simp [close, Handle.opened, hl, hne]

theorem commands_close (handle : Handle) : (s.close handle).commands = s.commands := by
  cases handle <;> rfl

theorem OpenInv.cleanup (h : OpenInv s) {k : Nat} {c : Started} (hk : s.commands[k]? = some c) :
    OpenInv ({ s with commands := s.commands.eraseIdx k }.close c.handle) := by
  have hsub : ∀ d ∈ s.commands.eraseIdx k, d ∈ s.commands := fun _ hd => List.mem_of_mem_eraseIdx hd
  refine ⟨fun l => ?_, fun d hd => ?_, fun d hd => ?_⟩
  · have hopeners := openers_eraseIdx hk l
    have hcount := h.count l
    rw [h.opened c (List.mem_of_getElem? hk)] at hopeners
    rw [openers, commands_close, count_close]
    show (s.commands.eraseIdx k).countP _ ≤ s.count l - _
    omega
  · rw [commands_close] at hd
    exact h.opened d (hsub d hd)
  · rw [commands_close] at hd
    exact h.handle d (hsub d hd)

theorem OpenInv.step {a : Label} (h : OpenInv s) (hs : step L s a = some s')
    (hg : StartGuard L s a) : OpenInv s' := by
  cases a with
  | system name copy created =>
    cases hs
    exact h.start fun hc => ⟨resolve_opened (hg hc).2, (hg hc).1⟩
  | cleanup k =>
    obtain ⟨c, hk, rfl⟩ := Option.map_eq_some_iff.mp hs
    exact h.cleanup hk
  | replaceCommand name function allOccurences =>
    cases hs
    unfold replaceCommand
    split
    · exact h
    · exact ⟨h.count, h.opened, h.handle⟩
  | addCommandList list =>
    cases hs
    cases list with
    | none => exact h
    | some list => exact ⟨h.count, h.opened, h.handle⟩
  | registerCommandFunction name address =>
    cases hs
    cases address with
    | none => exact h
    | some address => exact ⟨h.count, h.opened, h.handle⟩

theorem not_backed_of_not_guard {a : Label} (hs : step L s a = some s') (hg : ¬StartGuard L s a) :
    ¬Backed s' := by
  intro hb
  cases a with
  | system name copy created =>
    cases hs
    apply hg
    rintro rfl
    have hmatched := hb.matched ⟨_, _, _⟩ (List.mem_append_right _ (List.mem_singleton_self _))
    refine ⟨fun hnull => ?_, fun e he => ?_⟩
    · obtain ⟨l, hl, -⟩ := hmatched (by rw [hnull]; rfl)
      rw [hnull] at hl
      cases hl
    · cases hopened : e.handle.opened with
      | none => rfl
      | some l =>
        rw [resolve_of_hit he] at hmatched
        obtain ⟨l', -, hl'⟩ := hmatched (by rw [Handle.opened_eq_some.mp hopened]; rfl)
        cases hl'
  | _ => exact hg trivial

/--
In a run, the libraries stay open and every `dlclose` has its `dlopen`, just if every start meets
the guard.
-/
theorem backed_iff_meets (table : CStr → Option Entry) (count : CStr → Nat) (created : Bool)
    (as : List Label) :
    Transition.Always (step L) Backed (.initial table count created) as ↔
      Transition.Meets (step L) (StartGuard L) (.initial table count created) as :=
  Transition.always_iff_meets (fun _ h => h.backed) (fun _ _ _ h hs hg => h.step hs hg)
    (fun _ _ _ _ hs hg => not_backed_of_not_guard hs hg) (OpenInv.initial table count created) as

/-- One library, with the function of `tar` at address 1. -/
def oneLibrary : Linker :=
  { self := fun _ => none
    main := fun _ => none
    default := fun _ => none
    library := fun l =>
      if l = "files".toList then some fun f => if f = "tar_main".toList then some 1 else none
      else none }

/--
`tar` runs to its end, which closes the library. The next `tar` comes from the cache, and its
function is in a library that is not open.
-/
theorem cached_library_closed :
    ∃ s c, Transition.run (step oneLibrary)
        (.initial
          (fun n => if n = "tar".toList then some ⟨"files".toList, "tar_main".toList⟩ else none)
          (fun _ => 0) true)
        [.system "tar".toList none true, .cleanup 0, .system "tar".toList none true] = some s ∧
      s.commands = [c] ∧ c.library = some "files".toList ∧ s.count "files".toList = 0 ∧
      c.handle.closes = true ∧ c.opened = none ∧ ¬Backed s := by
  refine ⟨_, ⟨.command 1, .library "files".toList, none⟩, rfl, by decide +kernel, by decide +kernel,
    by decide +kernel, by decide +kernel, rfl, fun h => ?_⟩
  obtain ⟨l, -, hl⟩ := h.matched ⟨.command 1, .library "files".toList, none⟩ (by decide +kernel) rfl
  cases hl

end IosSystem.Command
