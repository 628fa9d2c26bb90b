import IosSystem.Interp.Slots

/-!
# Forced release

`ios_interp_force_release_all` clears the bitmap and signals the semaphore once for each slot,
however many were taken. The owners of the handles may release them later. The calls run one after
the other, and a handle carries the number of forced releases before it was acquired (`epoch`).

The tokens add up as long as a forced release finds all slots taken, and no handle is released that
was acquired before one. This is exact (`sound_iff`).
-/

namespace IosSystem.Interp.Forced

open List Option Bitmap
open Bitmap (bits)

/-- `struct _ios_interp_slot_handle` -/
structure Handle where
  slot : Nat
  epoch : Nat
  deriving DecidableEq

structure State where
  /-- `none` before the pool is initialised -/
  pool : Option Pool
  handles : List Handle
  epoch : Nat

def State.initial : State := ⟨none, [], 0⟩

/-! ## Calls -/

section

variable (size : Int)

/-- The pool, initialised with `size` slots if it has not been used before. -/
def State.ready (s : State) : Option Pool :=
  match s.pool with
  | some pool => some pool
  | none => initType size

/-- A handle for a slot, with the count of the forced releases. -/
def State.grant (s : State) (pool : Pool) (slot : Nat) : State :=
  { s with
    pool := some { pool with
      slotBitmap := pool.slotBitmap ||| mask slot
      semaphore := pool.semaphore - 1 }
    handles := ⟨slot, s.epoch⟩ :: s.handles }

/-- `ios_interp_acquire`; a call without a time limit does not return when there is no token. -/
def State.acquire (s : State) (timeoutMs : Int) : Option State :=
  match s.ready size with
  | none => some s
  | some pool =>
    if pool.semaphore = 0 then
      if timeoutMs < 0 then none else some { s with pool := some pool }
    else
      match firstFree pool.maxSlots pool.slotBitmap with
      | some slot => some (s.grant pool slot)
      -- the token is given back
      | none => some { s with pool := some pool }

/-- `ios_interp_try_acquire_slot` -/
def State.tryAcquireSlot (s : State) (slot : Int) : State :=
  match s.ready size with
  | none => s
  | some pool =>
    if pool.semaphore = 0 then { s with pool := some pool }
    else if slot < 0 ∨ (pool.maxSlots : Int) ≤ slot then { s with pool := some pool }
    else if pool.slotBitmap &&& mask slot.toNat = 0 then s.grant pool slot.toNat
    else { s with pool := some pool }

/-- `ios_interp_release` -/
def State.release (s : State) (h : Handle) : State :=
  { s with
    pool := s.pool.map fun pool => { pool with
      slotBitmap := pool.slotBitmap &&& ~~~(mask h.slot)
      semaphore := pool.semaphore + 1 }
    handles := s.handles.erase h }

/-- `ios_interp_force_release_all` -/
def State.forceReleaseAll (s : State) : State :=
  { s with
    pool := s.pool.map fun pool => { pool with
      slotBitmap := 0
      semaphore := pool.semaphore + pool.maxSlots }
    epoch := s.epoch + 1 }

inductive Label where
  | acquire (timeoutMs : Int)
  | tryAcquireSlot (slot : Int)
  | release (h : Handle)
  | forceReleaseAll

def step (s : State) : Label → Option State
  | .acquire timeoutMs => s.acquire size timeoutMs
  | .tryAcquireSlot slot => some (s.tryAcquireSlot size slot)
  | .release h => if h ∈ s.handles then some (s.release h) else none
  | .forceReleaseAll => some s.forceReleaseAll

end

/-! ## Soundness -/

/-- The slots of the handles that were given out after the last forced release. -/
def State.current (s : State) : List Nat := (s.handles.filter (·.epoch = s.epoch)).map Handle.slot

/-- What the pool promises, also across forced releases. -/
structure Sound (s : State) : Prop where
  /-- the value of the semaphore is at most `max_slots` minus the number of set bits -/
  semaphore : ∀ pool ∈ s.pool, pool.semaphore + (bits pool.slotBitmap).card ≤ pool.maxSlots
  exclusive : s.current.Nodup
  /-- no release has freed a slot that was acquired after the last forced release and is still held
  -/
  held : ∀ pool ∈ s.pool, ∀ slot ∈ s.current, slot ∈ bits pool.slotBitmap

/-- No old handle is released, and a forced release finds all slots taken. -/
def Guard (s : State) : Label → Prop
  | .release h => h.epoch = s.epoch
  | .forceReleaseAll => ∀ pool ∈ s.pool, (bits pool.slotBitmap).card = pool.maxSlots
  | _ => True

/-- The tokens and the set bits of a pool whose slots in use are `slots`. -/
structure Balanced (pool : Pool) (slots : List Nat) : Prop where
  tokens : pool.semaphore + (bits pool.slotBitmap).card = pool.maxSlots
  nodup : slots.Nodup
  mem_bits : ∀ slot, slot ∈ bits pool.slotBitmap ↔ slot ∈ slots
  bound : ∀ slot ∈ slots, slot < pool.maxSlots

/-- The handles given out since the last forced release are the bits that are set. -/
structure Inv (s : State) : Prop where
  balanced : ∀ pool ∈ s.pool, Balanced pool s.current
  unused : s.pool = none → s.handles = []
  bound : ∀ pool ∈ s.pool, ∀ h ∈ s.handles, h.slot < pool.maxSlots
  epoch : ∀ h ∈ s.handles, h.epoch ≤ s.epoch

variable {s : State} {pool : Pool}

theorem Inv.sound (h : Inv s) : Sound s := by
  refine ⟨fun pool hp => (h.balanced pool hp).tokens.le, ?_, fun pool hp slot hslot => ?_⟩
  · cases hp : s.pool with
    | none =>
      rw [State.current, h.unused hp]
      exact nodup_nil
    | some pool => exact (h.balanced pool hp).nodup
  · exact ((h.balanced pool hp).mem_bits slot).mpr hslot

theorem Inv.initial : Inv State.initial where
  balanced := by rintro pool ⟨⟩
  unused _ := rfl
  bound := by rintro pool ⟨⟩
  epoch := by rintro h ⟨⟩

/-! ## Steps -/

variable {size : Int}

theorem balanced_initType (h : initType size = some pool) : Balanced pool [] := by
  rw [initType] at h
  split at h <;> cases h
  have hzero : bits (0 : Word) = ∅ := bits_zero
  refine ⟨?_, nodup_nil, fun slot => ?_, by simp⟩
  · rw [hzero, Finset.card_empty, Nat.add_zero]
  · rw [hzero]
    simp

theorem Inv.ready (h : Inv s) (hp : s.ready size = some pool) :
    Inv { s with pool := some pool } := by
  rw [State.ready] at hp
  cases hpool : s.pool with
  | some pool' =>
    rw [hpool] at hp
    cases hp
    rw [← hpool]
    exact h
  | none =>
    rw [hpool] at hp
    have hempty := h.unused hpool
    refine ⟨?_, nofun, ?_, h.epoch⟩
    · rintro _ ⟨⟩
      rw [State.current, hempty]
      exact balanced_initType hp
    · rintro _ - hd hmem
      rw [hempty] at hmem
      cases hmem

theorem current_grant (s : State) (pool : Pool) (slot : Nat) :
    (s.grant pool slot).current = slot :: s.current := by
  rw [State.current, State.grant, filter_cons_of_pos (by simp), map_cons]
  rfl

theorem Inv.grant (h : Inv { s with pool := some pool }) {slot : Nat}
    (hsem : pool.semaphore ≠ 0) (hlt : slot < pool.maxSlots) (hfree : slot ∉ bits pool.slotBitmap) :
    Inv (s.grant pool slot) := by
  have hb := h.balanced pool rfl
  have hbits : bits (pool.slotBitmap ||| mask slot) = insert slot (bits pool.slotBitmap) :=
    bits_or_mask (lt_width pool hlt)
  refine ⟨?_, nofun, ?_, ?_⟩
  · rintro _ ⟨⟩
    rw [current_grant]
    refine ⟨?_, ?_, fun slot' => ?_, ?_⟩
    · have htokens := hb.tokens
      simp only [hbits, Finset.card_insert_of_notMem hfree]
      omega
    · exact nodup_cons.mpr ⟨fun hmem => hfree ((hb.mem_bits slot).mpr hmem), hb.nodup⟩
    · simp only [hbits, Finset.mem_insert, mem_cons]
      exact or_congr_right (hb.mem_bits slot')
    · exact forall_mem_cons.mpr ⟨hlt, hb.bound⟩
  · rintro _ ⟨⟩
    exact forall_mem_cons.mpr ⟨hlt, h.bound pool rfl⟩
  · exact forall_mem_cons.mpr ⟨Nat.le_refl _, h.epoch⟩

variable {s' : State}

theorem Inv.acquire (h : Inv s) {timeoutMs : Int} (hs : s.acquire size timeoutMs = some s') :
    Inv s' := by
  rw [State.acquire] at hs
  cases hready : s.ready size with
  | none =>
    simp only [hready] at hs
    exact some.inj hs ▸ h
  | some pool =>
    simp only [hready] at hs
    have h' := h.ready hready
    split at hs
    · split at hs
      · cases hs
      · exact some.inj hs ▸ h'
    · next hsem =>
      cases hfirst : firstFree pool.maxSlots pool.slotBitmap with
      | none =>
        simp only [hfirst] at hs
        exact some.inj hs ▸ h'
      | some slot =>
        simp only [hfirst] at hs
        obtain ⟨hlt, hfree⟩ := firstFree_eq_some hfirst
        exact some.inj hs ▸ h'.grant hsem hlt hfree

theorem Inv.tryAcquireSlot (h : Inv s) (size slot : Int) : Inv (s.tryAcquireSlot size slot) := by
  rw [State.tryAcquireSlot]
  cases hready : s.ready size with
  | none => exact h
  | some pool =>
    have h' := h.ready hready
    dsimp only
    split
    · exact h'
    · next hsem =>
      split
      · exact h'
      · next hrange =>
        split
        · next hfree =>
          have hlt : slot.toNat < pool.maxSlots := by omega
          exact h'.grant hsem hlt ((and_mask_eq_zero (lt_width pool hlt)).mp hfree)
        · exact h'

variable {hd : Handle}

theorem perm_current (hmem : hd ∈ s.handles) :
    s.current.Perm (if hd.epoch = s.epoch then hd.slot :: (s.release hd).current
      else (s.release hd).current) := by
  have hperm := ((perm_cons_erase hmem).filter (·.epoch = s.epoch)).map Handle.slot
  rw [filter_cons] at hperm
  by_cases hepoch : hd.epoch = s.epoch
  · rw [if_pos (decide_eq_true hepoch)] at hperm
    rw [if_pos hepoch]
    exact hperm
  · rw [if_neg (by simpa using hepoch)] at hperm
    rw [if_neg hepoch]
    exact hperm

theorem Inv.release (h : Inv s) (hmem : hd ∈ s.handles) (hepoch : hd.epoch = s.epoch) :
    Inv (s.release hd) := by
  have hperm := perm_current hmem
  rw [if_pos hepoch] at hperm
  refine ⟨?_, ?_, ?_, fun hd' hmem' => h.epoch hd' (mem_of_mem_erase hmem')⟩
  · intro pool hp
    obtain ⟨pool, hp', rfl⟩ := map_eq_some_iff.mp hp
    have hb := h.balanced pool hp'
    have hbits : bits (pool.slotBitmap &&& ~~~(mask hd.slot)) =
      (bits pool.slotBitmap).erase hd.slot :=
      bits_and_not_mask (lt_width pool (h.bound pool hp' hd hmem))
    have hset : hd.slot ∈ bits pool.slotBitmap :=
      (hb.mem_bits _).mpr (hperm.mem_iff.mpr mem_cons_self)
    obtain ⟨hnotin, hnodup⟩ := nodup_cons.mp (hperm.nodup_iff.mp hb.nodup)
    refine ⟨?_, hnodup, fun slot => ?_, fun slot hslot =>
      hb.bound slot (hperm.mem_iff.mpr (mem_cons_of_mem _ hslot))⟩
    · have htokens := hb.tokens
      have hcard := Finset.card_erase_add_one hset
      simp only [hbits]
      omega
    · simp only [hbits, Finset.mem_erase, hb.mem_bits, hperm.mem_iff, mem_cons]
      constructor
      · rintro ⟨hne, hslot⟩
        exact hslot.resolve_left hne
      · intro hslot
        exact ⟨fun heq => hnotin (heq ▸ hslot), .inr hslot⟩
  · intro hnone
    rw [h.unused (map_eq_none_iff.mp hnone)] at hmem
    cases hmem
  · intro pool hp
    obtain ⟨pool, hp', rfl⟩ := map_eq_some_iff.mp hp
    exact fun hd' hmem' => h.bound pool hp' hd' (mem_of_mem_erase hmem')

theorem Inv.forceReleaseAll (h : Inv s)
    (hfull : ∀ pool ∈ s.pool, (bits pool.slotBitmap).card = pool.maxSlots) :
    Inv s.forceReleaseAll := by
  have hcurrent : s.forceReleaseAll.current = [] := by
    rw [State.current, map_eq_nil_iff, filter_eq_nil_iff]
    intro hd hmem hnew
    have hle : hd.epoch ≤ s.epoch := h.epoch hd hmem
    have heq : hd.epoch = s.epoch + 1 := of_decide_eq_true hnew
    omega
  have hzero : bits (0 : Word) = ∅ := bits_zero
  refine ⟨?_, fun hnone => h.unused (map_eq_none_iff.mp hnone), ?_,
    fun hd hmem => Nat.le_succ_of_le (h.epoch hd hmem)⟩
  · intro pool hp
    obtain ⟨pool, hp', rfl⟩ := map_eq_some_iff.mp hp
    have htokens := (h.balanced pool hp').tokens
    have hcard := hfull pool hp'
    rw [hcurrent]
    refine ⟨?_, nodup_nil, fun slot => ?_, by simp⟩
    · simp only [hzero, Finset.card_empty]
      omega
    · simp only [hzero, Finset.notMem_empty, not_mem_nil]
  · intro pool hp
    obtain ⟨pool, hp', rfl⟩ := map_eq_some_iff.mp hp
    exact h.bound pool hp'

theorem Inv.step {l : Label} (h : Inv s) (hs : step size s l = some s') (hg : Guard s l) :
    Inv s' := by
  cases l with
  | acquire timeoutMs => exact h.acquire hs
  | tryAcquireSlot slot => exact some.inj hs ▸ h.tryAcquireSlot size slot
  | release hd =>
    rw [Forced.step] at hs
    split at hs
    · next hmem => exact some.inj hs ▸ h.release hmem hg
    · cases hs
  | forceReleaseAll => exact some.inj hs ▸ h.forceReleaseAll hg

/-! ## What the other steps do -/

theorem Inv.not_sound_release (h : Inv s) (hmem : hd ∈ s.handles) (hepoch : hd.epoch ≠ s.epoch) :
    ¬Sound (s.release hd) := by
  intro hsound
  have hperm := perm_current hmem
  rw [if_neg hepoch] at hperm
  cases hp : s.pool with
  | none =>
    rw [h.unused hp] at hmem
    cases hmem
  | some pool =>
    have hb := h.balanced pool hp
    have hbits : bits (pool.slotBitmap &&& ~~~(mask hd.slot)) =
      (bits pool.slotBitmap).erase hd.slot :=
      bits_and_not_mask (lt_width pool (h.bound pool hp hd hmem))
    have hp' : (s.release hd).pool = some { pool with
        slotBitmap := pool.slotBitmap &&& ~~~(mask hd.slot), semaphore := pool.semaphore + 1 } := by
      rw [State.release, hp]
      rfl
    by_cases hset : hd.slot ∈ bits pool.slotBitmap
    · have hheld := hsound.held _ hp' hd.slot (hperm.mem_iff.mp ((hb.mem_bits _).mp hset))
      simp only [hbits, Finset.mem_erase, ne_eq, not_true_eq_false, false_and] at hheld
    · have hle := hsound.semaphore _ hp'
      have htokens := hb.tokens
      simp only [hbits, Finset.erase_eq_of_notMem hset] at hle
      omega

theorem Inv.not_sound_forceReleaseAll (h : Inv s) (hp : s.pool = some pool)
    (hfree : (bits pool.slotBitmap).card ≠ pool.maxSlots) : ¬Sound s.forceReleaseAll := by
  intro hsound
  have hp' : s.forceReleaseAll.pool = some { pool with
      slotBitmap := 0, semaphore := pool.semaphore + pool.maxSlots } := by
    rw [State.forceReleaseAll, hp]
    rfl
  have hle := hsound.semaphore _ hp'
  have htokens := (h.balanced pool hp).tokens
  have hzero : bits (0 : Word) = ∅ := bits_zero
  simp only [hzero] at hle
  omega

theorem Inv.not_sound_step {l : Label} (h : Inv s) (hs : Forced.step size s l = some s')
    (hg : ¬Guard s l) : ¬Sound s' := by
  cases l with
  | acquire timeoutMs => exact absurd trivial hg
  | tryAcquireSlot slot => exact absurd trivial hg
  | release hd =>
    rw [Forced.step] at hs
    split at hs
    · next hmem => exact some.inj hs ▸ h.not_sound_release hmem hg
    · cases hs
  | forceReleaseAll =>
    simp only [Guard, not_forall] at hg
    obtain ⟨pool, hp, hfree⟩ := hg
    exact some.inj hs ▸ h.not_sound_forceReleaseAll hp hfree

/--
The pool is sound throughout a run exactly when each forced release finds all slots taken, and no
handle is released that was acquired before a forced release.
-/
theorem sound_iff (size : Int) (labels : List Label) :
    Transition.Always (step size) Sound .initial labels ↔
      Transition.Meets (step size) Guard .initial labels :=
  Transition.always_iff_meets (fun _ h => h.sound) (fun _ _ _ h hs hg => h.step hs hg)
    (fun _ _ _ h hs hg => h.not_sound_step hs hg) Inv.initial labels

/--
Two slots, both taken. After the forced release one of them is acquired again; the release by its
former owner frees it under the new one.
-/
theorem slot_freed_by_old_handle :
    ∃ s, Transition.run (step 2) .initial [.acquire 0, .acquire 0, .forceReleaseAll, .acquire 0,
        .release ⟨0, 0⟩] = some s ∧ s.current = [0] ∧
      (∃ pool, s.pool = some pool ∧ pool.slotBitmap = 0 ∧ pool.semaphore = 2) ∧ ¬Sound s := by
  refine ⟨_, rfl, rfl, ⟨_, rfl, rfl, rfl⟩, fun hsound => ?_⟩
  have hheld := hsound.held _ rfl 0 (by decide)
  revert hheld
  decide

end IosSystem.Interp.Forced
