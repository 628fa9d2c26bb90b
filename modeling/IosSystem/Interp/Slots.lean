import IosSystem.Interp.Pool
import IosSystem.Lib.Threads

/-!
# No slot is given out twice

Every token of the semaphore is somewhere: still in it, with a set bit, with a thread that has
passed the semaphore and has no bit yet, or with a release that has cleared the bit and not
signalled. This sum is `max_slots` in every state, so a thread that has passed the semaphore always
loads a bitmap with a free slot.
-/

namespace IosSystem.Interp

open List Threads PC Interp Bitmap
open Bitmap (bits mem_bits)

/-- The thread has taken a token of the semaphore, and no slot yet. -/
def PC.passed : PC → Bool
  | .findLoad | .findCas _ _ | .findFailed | .slotLoad _ | .slotCas _ _ | .slotSignal => true
  | _ => false

/-- The bit is cleared, and the token is not back yet. -/
def PC.cleared : PC → Bool
  | .relSignal => true
  | _ => false

def PC.releasing : PC → Option Nat
  | .relLoad slot | .relCas slot _ => some slot
  | _ => none

def PC.releases (slot : Nat) (pc : PC) : Bool := pc.releasing == some slot

/-- The slots of the handles, with those about to be released. -/
def State.held (s : State) : List Nat := s.handles ++ s.threads.filterMap PC.releasing

def PC.Ok (maxSlots : Nat) : PC → Prop
  | .findCas bitmap slot | .slotCas slot bitmap => slot < maxSlots ∧ slot ∉ bits bitmap
  | .slotLoad slot => slot < maxSlots
  | .findFailed => False
  | _ => True

/-- Tokens, set bits and threads between them add up to `max_slots`. -/
structure Inv (s : State) : Prop where
  tokens : s.pool.semaphore + (bits s.pool.slotBitmap).card + s.threads.countP PC.passed
    + s.threads.countP PC.cleared = s.pool.maxSlots
  owners : ∀ slot, s.held.count slot = if slot ∈ bits s.pool.slotBitmap then 1 else 0
  bound : ∀ slot ∈ bits s.pool.slotBitmap, slot < s.pool.maxSlots
  ok : ∀ pc ∈ s.threads, pc.Ok s.pool.maxSlots

/-! ## The bitmap -/

variable {slot i : Nat} {pc : PC} {s s' : State}

theorem lt_width (pool : Pool) (h : slot < pool.maxSlots) : slot < 32 :=
  Nat.lt_of_lt_of_le h pool.le

variable {pool : Pool}

theorem firstFree_eq_some {bitmap : Word} (h : firstFree pool.maxSlots bitmap = some slot) :
    slot < pool.maxSlots ∧ slot ∉ bits bitmap := by
  have hlt : slot < pool.maxSlots := mem_range.1 (mem_of_find?_eq_some h)
  have hz := find?_some h
  rw [decide_eq_true_eq] at hz
  exact ⟨hlt, (and_mask_eq_zero (lt_width pool hlt)).1 hz⟩

theorem firstFree_eq_none {bitmap : Word} (h : firstFree pool.maxSlots bitmap = none) :
    pool.maxSlots ≤ (bits bitmap).card := by
  have hsub : Finset.range pool.maxSlots ⊆ bits bitmap := by
    intro slot hslot
    have hlt : slot < pool.maxSlots := Finset.mem_range.1 hslot
    have hz := find?_eq_none.1 h slot (mem_range.2 hlt)
    by_contra hn
    exact hz (decide_eq_true ((and_mask_eq_zero (lt_width pool hlt)).2 hn))
  calc pool.maxSlots = (Finset.range pool.maxSlots).card := (Finset.card_range _).symm
    _ ≤ (bits bitmap).card := Finset.card_le_card hsub

/-! ## What a change of place does -/

theorem count_held (s : State) (slot : Nat) :
    s.held.count slot = s.handles.count slot + s.threads.countP (PC.releases slot) := by
  unfold State.held
  rw [count_append, count_filterMap]
  rfl

theorem releases_of_none (h : pc.releasing = none) (slot : Nat) : pc.releases slot = false := by
  rw [releases, h]
  rfl

theorem releases_of_some (h : pc.releasing = some slot) (slot' : Nat) :
    pc.releases slot' = decide (slot = slot') := by
  rw [releases, h]
  rfl

theorem count_releases_set {threads : List PC} (pc' : PC)
    (hi : threads[i]? = some pc) (hr : pc'.releasing = pc.releasing) (slot : Nat) :
    (threads.set i pc').countP (PC.releases slot) = threads.countP (PC.releases slot) :=
  countP_set_of_eq hi (by rw [releases, releases, hr])

section

variable (h : Inv s) (hi : s.threads[i]? = some pc)
include h hi

theorem Inv.goto {pc' : PC} (hp : pc'.passed = pc.passed) (hc : pc'.cleared = pc.cleared)
    (hr : pc'.releasing = pc.releasing) (hok : pc'.Ok s.pool.maxSlots) : Inv (s.goto i pc') := by
  refine ⟨?_, ?_, h.bound, forall_mem_set h.ok hok⟩
  · have ht := h.tokens
    rw [← countP_set_of_eq hi hp, ← countP_set_of_eq hi hc] at ht
    exact ht
  · intro slot
    have ho := h.owners slot
    rw [count_held, ← count_releases_set pc' hi hr] at ho
    rw [count_held]
    exact ho

theorem Inv.take {pc' : PC} (hsem : 0 < s.pool.semaphore) (hp : pc.passed = false)
    (hp' : pc'.passed = true) (hc : pc'.cleared = pc.cleared) (hr : pc'.releasing = pc.releasing)
    (hok : pc'.Ok s.pool.maxSlots) :
    Inv ({ s with pool.semaphore := s.pool.semaphore - 1 }.goto i pc') := by
  refine ⟨?_, ?_, h.bound, forall_mem_set h.ok hok⟩
  · have ht := h.tokens
    have hpass := countP_set_enter hi hp hp'
    have hclear := countP_set_of_eq hi hc
    show s.pool.semaphore - 1 + (bits s.pool.slotBitmap).card + (s.threads.set i pc').countP _
      + (s.threads.set i pc').countP _ = s.pool.maxSlots
    omega
  · intro slot
    have ho := h.owners slot
    rw [count_held, ← count_releases_set pc' hi hr] at ho
    rw [count_held]
    exact ho

theorem Inv.signal
    (hp : pc.passed = true ∧ pc.cleared = false ∨ pc.passed = false ∧ pc.cleared = true)
    (hr : pc.releasing = none) : Inv (s.signal.goto i .idle) := by
  refine ⟨?_, ?_, h.bound, forall_mem_set h.ok trivial⟩
  · have ht := h.tokens
    show s.pool.semaphore + 1 + (bits s.pool.slotBitmap).card
      + (s.threads.set i .idle).countP passed + (s.threads.set i .idle).countP cleared
      = s.pool.maxSlots
    rcases hp with ⟨hp, hc⟩ | ⟨hp, hc⟩
    · have hpass := countP_set_leave hi hp (b := idle) rfl
      have hclear := countP_set_of_eq hi (p := cleared) (b := idle) hc.symm
      omega
    · have hpass := countP_set_of_eq hi (p := passed) (b := idle) hp.symm
      have hclear := countP_set_leave hi hc (b := idle) rfl
      omega
  · intro slot
    have ho := h.owners slot
    rw [count_held, ← count_releases_set .idle hi hr.symm] at ho
    rw [count_held]
    exact ho

theorem Inv.claim (hlt : slot < s.pool.maxSlots) (hfree : slot ∉ bits s.pool.slotBitmap)
    (hp : pc.passed = true) (hc : pc.cleared = false) (hr : pc.releasing = none) :
    Inv { (s.store (s.pool.slotBitmap ||| mask slot)).goto i .idle with
      handles := slot :: s.handles } := by
  have hbits : bits (s.pool.slotBitmap ||| mask slot) = insert slot (bits s.pool.slotBitmap) :=
    bits_or_mask (lt_width _ hlt)
  refine ⟨?_, ?_, ?_, forall_mem_set h.ok trivial⟩
  · have ht := h.tokens
    have hpass := countP_set_leave hi hp (b := idle) rfl
    have hclear := countP_set_of_eq hi (p := cleared) (b := idle) hc.symm
    show s.pool.semaphore + (bits (s.pool.slotBitmap ||| mask slot)).card
      + (s.threads.set i .idle).countP passed + (s.threads.set i .idle).countP cleared
      = s.pool.maxSlots
    rw [hbits, Finset.card_insert_of_notMem hfree]
    omega
  · intro slot'
    have ho := h.owners slot'
    rw [count_held, ← count_releases_set .idle hi hr.symm] at ho
    simp only [count_held, State.store, State.goto]
    grind
  · intro slot' hslot'
    simp only [State.store, State.goto, hbits, Finset.mem_insert] at hslot'
    rcases hslot' with rfl | hslot
    · exact hlt
    · exact h.bound _ hslot

end

theorem Inv.clear (h : Inv s) {old : Word} (hi : s.threads[i]? = some (.relCas slot old)) :
    Inv ((s.store (s.pool.slotBitmap &&& ~~~(mask slot))).goto i .relSignal) := by
  have hcount := h.owners slot
  have hreleasing : 0 < s.threads.countP (releases slot) :=
    countP_pos hi (by simp [releases, releasing])
  rw [count_held] at hcount
  have hmem : slot ∈ bits s.pool.slotBitmap := by
    by_contra hn
    rw [if_neg hn] at hcount
    omega
  have hlt : slot < s.pool.maxSlots := h.bound _ hmem
  have hbits : bits (s.pool.slotBitmap &&& ~~~(mask slot)) = (bits s.pool.slotBitmap).erase slot :=
    bits_and_not_mask (lt_width _ hlt)
  refine ⟨?_, ?_, ?_, forall_mem_set h.ok trivial⟩
  · have ht := h.tokens
    have hpass := countP_set_of_eq hi (p := passed) (b := relSignal) rfl
    have hclear := countP_set_enter hi (p := cleared) (b := relSignal) rfl rfl
    have hcard := Finset.card_erase_add_one hmem
    show s.pool.semaphore + (bits (s.pool.slotBitmap &&& ~~~(mask slot))).card
      + (s.threads.set i .relSignal).countP passed
      + (s.threads.set i .relSignal).countP cleared = s.pool.maxSlots
    rw [hbits]
    omega
  · intro slot'
    have ho := h.owners slot'
    have hold : (relCas slot old).releases slot' = decide (slot = slot') := releases_of_some rfl _
    have hset := countP_set_add hi .relSignal (releases slot')
    rw [hold, releases_of_none rfl] at hset
    simp only [count_held, State.store, State.goto] at ho ⊢
    grind
  · intro slot' hslot'
    simp only [State.store, State.goto, hbits] at hslot'
    exact h.bound _ (Finset.mem_of_mem_erase hslot')

theorem Inv.beginRelease (h : Inv s) (hi : s.threads[i]? = some .idle) (hm : slot ∈ s.handles) :
    Inv ({ s with handles := s.handles.erase slot }.goto i (.relLoad slot)) := by
  refine ⟨?_, ?_, h.bound, forall_mem_set h.ok trivial⟩
  · have ht := h.tokens
    rw [← countP_set_of_eq hi (b := relLoad slot) (p := passed) rfl,
      ← countP_set_of_eq hi (b := relLoad slot) (p := cleared) rfl] at ht
    exact ht
  · intro slot'
    have ho := h.owners slot'
    have hnew : (relLoad slot).releases slot' = decide (slot = slot') := releases_of_some rfl _
    have hset := countP_set_add hi (.relLoad slot) (releases slot')
    rw [hnew, releases_of_none rfl] at hset
    simp only [count_held, State.goto] at ho ⊢
    grind

/-! ## Every step -/

theorem slotLoop_cases (slot : Nat) (old : Word) :
    slotLoop slot old = .slotCas slot old ∧ old &&& mask slot = 0 ∨
      slotLoop slot old = .slotSignal := by
  unfold slotLoop
  split
  · next h => exact .inl ⟨rfl, h⟩
  · exact .inr rfl

theorem Inv.slotLoop (h : Inv s) (hi : s.threads[i]? = some pc) (hlt : slot < s.pool.maxSlots)
    (hp : pc.passed = true) (hc : pc.cleared = false) (hr : pc.releasing = none) :
    Inv (s.goto i (Interp.slotLoop slot s.pool.slotBitmap)) := by
  rcases slotLoop_cases slot s.pool.slotBitmap with ⟨he, hz⟩ | he
  · rw [he]
    exact h.goto hi hp.symm hc.symm hr.symm ⟨hlt, (and_mask_eq_zero (lt_width _ hlt)).1 hz⟩
  · rw [he]
    exact h.goto hi hp.symm hc.symm hr.symm trivial

/-- A step inside of an acquire or a release. -/
theorem Inv.advance (h : Inv s) {fail : Bool}
    (hi : s.threads[i]? = some pc) (hs : advance s i fail pc = some s') : Inv s' := by
  have hok : pc.Ok s.pool.maxSlots := h.ok pc (mem_of_getElem? hi)
  cases pc with
  | idle => cases hs
  | waitSem timeoutMs =>
    simp only [advance] at hs
    split at hs
    · split at hs <;> cases hs
      exact h.goto hi rfl rfl rfl trivial
    · split at hs <;> cases hs
      next hsem =>
        exact h.take hi hsem rfl rfl rfl rfl trivial
  | findLoad =>
    simp only [advance] at hs
    split at hs
    · next slot hfree =>
      cases hs
      exact h.goto hi rfl rfl rfl (firstFree_eq_some hfree)
    · next hnone =>
      -- the thread itself holds a token that is not with a set bit
      have hfull := firstFree_eq_none hnone
      have hpassed := countP_pos hi (p := passed) rfl
      have ht := h.tokens
      omega
  | findCas bitmap slot =>
    simp only [advance] at hs
    split at hs
    · next he =>
      subst he
      cases hs
      exact h.claim hi hok.1 hok.2 rfl rfl rfl
    · cases hs
      exact h.goto hi rfl rfl rfl trivial
  | findFailed => exact hok.elim
  | slotSem slot =>
    simp only [advance] at hs
    split at hs
    · next hsem =>
      split at hs <;> cases hs
      · exact h.take hi hsem rfl rfl rfl rfl trivial
      · next hrange =>
        exact h.take hi hsem rfl rfl rfl rfl (show slot.toNat < s.pool.maxSlots by omega)
    · cases hs
      exact h.goto hi rfl rfl rfl trivial
  | slotLoad slot =>
    cases hs
    exact h.slotLoop hi hok rfl rfl rfl
  | slotCas slot old =>
    simp only [advance] at hs
    split at hs
    · next he =>
      obtain ⟨rfl, -⟩ := he
      cases hs
      exact h.claim hi hok.1 hok.2 rfl rfl rfl
    · cases hs
      exact h.slotLoop hi hok.1 rfl rfl rfl
  | slotSignal =>
    cases hs
    exact h.signal hi (.inl ⟨rfl, rfl⟩) rfl
  | relLoad slot =>
    cases hs
    exact h.goto hi rfl rfl rfl trivial
  | relCas slot old =>
    simp only [advance] at hs
    split at hs
    · next he =>
      obtain ⟨rfl, -⟩ := he
      cases hs
      exact h.clear hi
    · cases hs
      exact h.goto hi rfl rfl rfl trivial
  | relSignal =>
    cases hs
    exact h.signal hi (.inr ⟨rfl, rfl⟩) rfl

theorem Inv.step {l : Label} (h : Inv s) (hs : step s l = some s') : Inv s' := by
  cases l with
  | acquire i timeoutMs | tryAcquireSlot i slot =>
    simp only [Interp.step] at hs
    split at hs <;> cases hs
    next hi =>
      exact h.goto hi rfl rfl rfl trivial
  | release i slot =>
    simp only [Interp.step] at hs
    split at hs <;> cases hs
    next hi =>
      exact h.beginRelease hi.1 hi.2
  | advance i fail =>
    simp only [Interp.step] at hs
    split at hs
    · next pc hi => exact h.advance hi hs
    · cases hs

variable {maxSlots : Int}

theorem initType_eq_some (h : initType maxSlots = some pool) :
    (pool.maxSlots : Int) = maxSlots ∧ pool.slotBitmap = 0 ∧ pool.semaphore = pool.maxSlots := by
  unfold initType at h
  split at h <;> cases h
  next hrange =>
    refine ⟨?_, rfl, rfl⟩
    show (maxSlots.toNat : Int) = maxSlots
    omega

theorem advance_maxSlots {fail : Bool}
    (hs : advance s i fail pc = some s') : s'.pool.maxSlots = s.pool.maxSlots := by
  cases pc <;> simp only [advance] at hs <;> repeat' split at hs
  all_goals cases hs <;> rfl

theorem step_maxSlots {l : Label} (hs : step s l = some s') :
    s'.pool.maxSlots = s.pool.maxSlots := by
  cases l with
  | acquire i timeoutMs | tryAcquireSlot i slot | release i slot =>
    simp only [step] at hs
    split at hs
    · cases hs; rfl
    · cases hs
  | advance i fail =>
    simp only [step] at hs
    split at hs
    · exact advance_maxSlots hs
    · cases hs

theorem Inv.initial {n : Nat} (hinit : initType maxSlots = some s.pool) (hh : s.handles = [])
    (ht : s.threads = List.replicate n .idle) : Inv s := by
  obtain ⟨-, hbitmap, hsem⟩ := initType_eq_some hinit
  have hnone : ∀ p : PC → Bool, p .idle = false → (replicate n idle).countP p = 0 := by
    intro p hp
    rw [countP_replicate, hp]
    rfl
  refine ⟨?_, ?_, ?_, ?_⟩
  · rw [ht, hbitmap, hsem, bits_zero, hnone _ rfl, hnone _ rfl]
    rfl
  · intro slot
    rw [count_held, hh, ht, hbitmap, bits_zero, hnone _ rfl]
    rfl
  · intro slot hslot
    rw [hbitmap, bits_zero] at hslot
    exact absurd hslot (Finset.notMem_empty slot)
  · intro pc hpc
    rw [ht] at hpc
    rw [eq_of_mem_replicate hpc]
    trivial

theorem inv_reachable (h : Reachable maxSlots s) : Inv s ∧ (s.pool.maxSlots : Int) = maxSlots := by
  have hinv : Inv s := by
    refine Transition.Reachable.invariant ?_ (fun _ _ _ hinv _ hs => hinv.step hs) h
    rintro s ⟨hinit, hh, n, ht⟩
    exact .initial hinit hh ht
  have hmax : (s.pool.maxSlots : Int) = maxSlots := by
    refine Transition.Reachable.invariant (fun s hs => (initType_eq_some hs.1).1) ?_ h
    intro s s' l hmax _ hs
    rw [step_maxSlots hs]
    exact hmax
  exact ⟨hinv, hmax⟩

/-! ## The theorem -/

/-- In every state of every interleaving: no slot has two owners, every slot that is held exists,
the set bits are the slots that are held or being released, every token is accounted for, and
`interp_pool_find_free_slot` has not returned -1 to any thread. -/
theorem slots_exclusive {maxSlots : Int} {s : State} (h : Reachable maxSlots s) :
    s.held.Nodup ∧ (∀ slot ∈ s.held, (slot : Int) < maxSlots) ∧
      (∀ slot, s.pool.slotBitmap.getLsbD slot = true ↔ slot ∈ s.held) ∧
      (s.pool.semaphore + (bits s.pool.slotBitmap).card + s.threads.countP PC.passed
        + s.threads.countP PC.cleared : Int) = maxSlots ∧
      ∀ pc ∈ s.threads, pc ≠ .findFailed := by
  obtain ⟨hinv, rfl⟩ := inv_reachable h
  have hmem : ∀ slot, slot ∈ bits s.pool.slotBitmap ↔ slot ∈ s.held := by
    intro slot
    rw [← count_pos_iff, hinv.owners]
    split
    · next hb => exact iff_of_true hb Nat.one_pos
    · next hb => exact iff_of_false hb (Nat.lt_irrefl 0)
  refine ⟨?_, ?_, ?_, ?_, ?_⟩
  · rw [nodup_iff_count_le_one]
    intro slot
    rw [hinv.owners]
    split <;> omega
  · intro slot hslot
    have := hinv.bound slot ((hmem slot).2 hslot)
    omega
  · intro slot
    rw [← mem_bits]
    exact hmem slot
  · have := hinv.tokens
    omega
  · rintro pc hpc rfl
    exact hinv.ok _ hpc

/-- Two threads on two slots. Thread 0 has found slot 0 free when thread 1 takes it; its exchange
fails, and it takes slot 1. -/
def raceForSlot : List Label :=
  [.acquire 0 (-1), .advance 0 false, .advance 0 false, .tryAcquireSlot 1 0, .advance 1 false,
    .advance 1 false, .advance 1 false, .advance 0 false, .advance 0 false, .advance 0 false]

/-- Two callers race for the slots, and get different ones. -/
theorem slots_exclusive_two :
    ∃ s, Reachable 2 s ∧ s.handles = [1, 0] ∧ s.held.Nodup := by
  have hrun : (Transition.run step ⟨⟨2, by decide, by decide, 0, 2⟩, [], [.idle, .idle]⟩
      raceForSlot).map State.handles = some [1, 0] := by decide
  obtain ⟨s, hs, hh⟩ := Option.map_eq_some_iff.1 hrun
  have hreach : Reachable 2 s := Transition.Reachable.of_run (.start ⟨rfl, rfl, 2, rfl⟩) hs
  exact ⟨s, hreach, hh, (slots_exclusive hreach).1⟩

end IosSystem.Interp
