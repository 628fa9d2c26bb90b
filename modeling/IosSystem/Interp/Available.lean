import IosSystem.Interp.Slots

/-!
# Is a slot available?

`ios_interp_has_available_slot` compares the bitmap with a mask that it builds by a shift. A shift
by the width of the word is undefined in C, so what it gives is an argument here.
-/

namespace IosSystem.Interp

open Bitmap (bits mem_bits)

/-- `1U << n`; `undefined` is what the machine does when `n` is not below the width. -/
def oneShifted (undefined : Word) (n : Nat) : Word := if n < 32 then mask n else undefined

/-- `ios_interp_has_available_slot`, for the entry of `g_pools`: there is none if the type is out of
range, and no pool in it before the initialisation. -/
def hasAvailableSlot (undefined : Word) : Option (Option Pool) → Bool
  | none => false
  | some none => true
  | some (some pool) => pool.slotBitmap ≠ oneShifted undefined pool.maxSlots - 1

/-- `interp_pool_find_free_slot` when no other thread runs: its first exchange succeeds. -/
def findFreeSlot (pool : Pool) : Option Nat := firstFree pool.maxSlots pool.slotBitmap

theorem mem_bits_fullMask {n : Nat} (h : n < 32) (slot : Nat) (undefined : Word) :
    slot ∈ bits (oneShifted undefined n - 1) ↔ slot < n := by
  have hlt : 2 ^ n < 2 ^ 32 := Nat.pow_lt_pow_right (by decide) h
  have hpow : (mask n).toNat = 2 ^ n := by
    rw [mask, Bitmap.mask, ← BitVec.twoPow_eq, BitVec.toNat_twoPow, Nat.mod_eq_of_lt hlt]
  have hnat : (mask n - 1).toNat = 2 ^ n - 1 := by
    rw [BitVec.toNat_sub_of_le, hpow]
    · rfl
    · rw [BitVec.le_def, hpow]
      exact Nat.one_le_two_pow
  rw [oneShifted, if_pos h, mem_bits, BitVec.getLsbD, hnat, Nat.testBit_two_pow_sub_one,
    decide_eq_true_eq]

theorem hasAvailableSlot_iff {pool : Pool} (hlt : pool.maxSlots < 32)
    (hbound : ∀ slot ∈ bits pool.slotBitmap, slot < pool.maxSlots) (undefined : Word) :
    hasAvailableSlot undefined (some (some pool)) = true ↔
      ∃ slot < pool.maxSlots, slot ∉ bits pool.slotBitmap := by
  have hfull : pool.slotBitmap = oneShifted undefined pool.maxSlots - 1 ↔
      ∀ slot < pool.maxSlots, slot ∈ bits pool.slotBitmap := by
    constructor
    · intro h slot hslot
      rw [h]
      exact (mem_bits_fullMask hlt slot undefined).mpr hslot
    · intro h
      refine BitVec.eq_of_getLsbD_eq fun slot _ => ?_
      rw [Bool.eq_iff_iff, ← mem_bits, ← mem_bits, mem_bits_fullMask hlt]
      exact ⟨hbound slot, h slot⟩
  rw [hasAvailableSlot, decide_eq_true_eq, Ne, hfull]
  push Not
  rfl

theorem findFreeSlot_isSome (pool : Pool) :
    (findFreeSlot pool).isSome = true ↔ ∃ slot < pool.maxSlots, slot ∉ bits pool.slotBitmap := by
  rw [findFreeSlot, firstFree, List.find?_isSome]
  constructor
  · rintro ⟨slot, hslot, hfree⟩
    have hlt := List.mem_range.mp hslot
    rw [decide_eq_true_eq] at hfree
    exact ⟨slot, hlt, (Bitmap.and_mask_eq_zero (lt_width pool hlt)).mp hfree⟩
  · rintro ⟨slot, hlt, hfree⟩
    refine ⟨slot, List.mem_range.mpr hlt, ?_⟩
    rw [decide_eq_true_eq]
    exact (Bitmap.and_mask_eq_zero (lt_width pool hlt)).mpr hfree

/-- `ios_interp_has_available_slot` says that a slot is available. -/
def Says (undefined : Word) (s : State) : Prop :=
  hasAvailableSlot undefined (some (some s.pool)) = true

def fullSize : State := ⟨⟨32, by decide, by decide, 0, 32⟩, [], []⟩

theorem fullSize_reachable : Reachable 32 fullSize := .start ⟨rfl, rfl, 0, rfl⟩

/-- A shift by 32 that takes the amount modulo 32 gives 1: no slot is said to be available, although
all of them are. -/
theorem full_size_unavailable :
    ∃ s, Reachable 32 s ∧ ¬ Says 1 s ∧ findFreeSlot s.pool = some 0 :=
  ⟨fullSize, fullSize_reachable, by unfold Says; decide, by decide⟩

/-- Whatever the machine does with the undefined shift, availability agrees with the bitmap and with
`interp_pool_find_free_slot` for every size but the largest one. -/
theorem availability_iff (maxSlots : Int) :
    (∀ undefined s, Reachable maxSlots s →
      (Says undefined s ↔ ∃ slot < s.pool.maxSlots, s.pool.slotBitmap.getLsbD slot = false) ∧
      (Says undefined s ↔ (findFreeSlot s.pool).isSome = true)) ↔
    maxSlots ≠ 32 := by
  constructor
  · rintro h rfl
    have hfree := (h 1 fullSize fullSize_reachable).2.mpr (by decide)
    unfold Says at hfree
    exact absurd hfree (by decide)
  · intro hne undefined s hs
    obtain ⟨hinv, hmax⟩ := inv_reachable hs
    have hle := s.pool.le
    rw [maxSlotsPerType] at hle
    have hsays := hasAvailableSlot_iff (by omega) hinv.bound undefined
    refine ⟨?_, hsays.trans (findFreeSlot_isSome s.pool).symm⟩
    simpa [Says, mem_bits] using hsays

end IosSystem.Interp
