import Mathlib.Data.Finset.Card

/-!
# A machine word as a set of small numbers

`bits b` is the set of the positions at which `b` is one. Testing, setting and clearing a bit
through the mask `1 <<< i` are membership, insertion and removal.
-/

namespace Bitmap

open BitVec

variable {w : Nat}

def mask (w i : Nat) : BitVec w := 1#w <<< i

/-- The positions of the bits that are set. -/
def bits (b : BitVec w) : Finset Nat := (Finset.range w).filter fun i => b.getLsbD i = true

variable {i : Nat} {b : BitVec w}

theorem mem_bits : i ∈ bits b ↔ b.getLsbD i = true := by
  unfold bits
  rw [Finset.mem_filter, Finset.mem_range]
  constructor
  · exact fun h => h.2
  · intro h
    exact ⟨lt_of_getLsbD h, h⟩

theorem getLsbD_mask (hi : i < w) (j : Nat) : (mask w i).getLsbD j = decide (i = j) := by
  unfold mask
  rw [← twoPow_eq, getLsbD_twoPow]
  simp [hi]

theorem bits_zero : bits (0 : BitVec w) = ∅ := by
  ext i
  simp [mem_bits]

theorem and_mask_eq_zero (hi : i < w) : b &&& mask w i = 0 ↔ i ∉ bits b := by
  rw [mem_bits]
  constructor
  · intro h hb
    have := congrArg (fun x => x.getLsbD i) h
    simp [getLsbD_mask hi, hb] at this
  · intro h
    apply eq_of_getLsbD_eq
    intro j _
    rw [getLsbD_and, getLsbD_mask hi]
    by_cases hij : i = j
    · subst hij; simp [h]
    · simp [hij]

theorem bits_or_mask (hi : i < w) : bits (b ||| mask w i) = insert i (bits b) := by
  ext j
  rw [mem_bits, getLsbD_or, getLsbD_mask hi, Finset.mem_insert, mem_bits]
  simp only [Bool.or_eq_true, decide_eq_true_eq]
  constructor
  · rintro (h | h)
    · exact .inr h
    · exact .inl h.symm
  · rintro (h | h)
    · exact .inr h.symm
    · exact .inl h

theorem bits_and_not_mask (hi : i < w) : bits (b &&& ~~~(mask w i)) = (bits b).erase i := by
  ext j
  rw [mem_bits, getLsbD_and, getLsbD_not, getLsbD_mask hi, Finset.mem_erase, mem_bits]
  simp only [Bool.and_eq_true, decide_eq_true_eq, Bool.not_eq_true', decide_eq_false_iff_not]
  constructor
  · rintro ⟨hb, -, hij⟩
    exact ⟨fun h => hij h.symm, hb⟩
  · rintro ⟨hij, hb⟩
    exact ⟨hb, lt_of_getLsbD hb, fun h => hij h.symm⟩

end Bitmap
