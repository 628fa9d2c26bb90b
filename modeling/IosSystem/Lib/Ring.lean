import Mathlib.Data.List.Basic
import Mathlib.Data.Nat.ModEq

/-!
# Circular buffers

A block of cells addressed modulo its size. `window` reads `n` cells from a start position,
wrapping around the end; `memcpy` overwrites a straight range, as the C function does. A window
splits at any point (`window_add`), and two straight copies that wrap around extend it
(`window_store`).
-/

namespace Ring

open List Function

variable {α : Type}

/-- Overwrite the cells `dst, dst + 1, ..` by the list `src`. -/
def memcpy (mem : Nat → α) (dst : Nat) (src : List α) : Nat → α := fun i =>
  if dst ≤ i then (src[i - dst]?).getD (mem i) else mem i

/-- The `n` cells from position `h` on, modulo the block size `c`. -/
def window (mem : Nat → α) (c h n : Nat) : List α :=
  (range n).map fun i => mem ((h + i) % c)

@[simp] theorem window_zero (mem : Nat → α) (c h : Nat) : window mem c h 0 = [] := rfl

@[simp] theorem length_window (mem : Nat → α) (c h n : Nat) : (window mem c h n).length = n := by
  simp [window]

theorem memcpy_of_lt {mem : Nat → α} {dst i : Nat} {src : List α} (h : i < dst) :
    memcpy mem dst src i = mem i := by
  simp [memcpy, Nat.not_le.mpr h]

theorem memcpy_of_ge {mem : Nat → α} {dst i : Nat} {src : List α} (h : dst + src.length ≤ i) :
    memcpy mem dst src i = mem i := by
  unfold memcpy
  rw [if_pos (by omega), getElem?_eq_none (by omega)]
  rfl

theorem memcpy_inside {mem : Nat → α} {dst k : Nat} {src : List α} (h : k < src.length) :
    memcpy mem dst src (dst + k) = src[k] := by
  simp [memcpy, h]

variable {c h n : Nat}

theorem wrap_eq (hh : h < c) (hn : n ≤ c) :
    (h + n) % c = if h + n < c then h + n else h + n - c := by
  split
  · exact Nat.mod_eq_of_lt ‹_›
  · rw [Nat.mod_eq_sub_mod (by omega)]
    exact Nat.mod_eq_of_lt (by omega)

theorem window_add (mem : Nat → α) (c h m n : Nat) :
    window mem c h (m + n) = window mem c h m ++ window mem c ((h + m) % c) n := by
  unfold window
  rw [range_add, map_append, map_map]
  congr 1
  apply map_congr_left
  intro i _
  simp only [comp_apply, Nat.mod_add_mod]
  rw [Nat.add_assoc]

theorem window_congr {mem mem' : Nat → α} (heq : ∀ i < n, mem ((h + i) % c) = mem' ((h + i) % c)) :
    window mem c h n = window mem' c h n := by
  apply map_congr_left
  intro i hi
  exact heq i (mem_range.mp hi)

theorem window_straight {mem : Nat → α} (hc : h + n ≤ c) :
    window mem c h n = (range n).map fun i => mem (h + i) := by
  apply map_congr_left
  intro i hi
  have hlt : h + i < c := by have := mem_range.mp hi; omega
  rw [Nat.mod_eq_of_lt hlt]

theorem range_memcpy (mem : Nat → α) (dst : Nat) (src : List α) :
    ((range src.length).map fun i => memcpy mem dst src (dst + i)) = src := by
  apply ext_getElem
  · simp
  · intro i h1 h2
    simp [memcpy_inside h2]

/--
Two straight copies that wrap around the end extend the window.

`k` is the part that fits before the end of the block. The cells of the old window are
untouched because the two windows together do not cover the block twice (`n + src.length ≤ c`).
-/
theorem window_store {mem : Nat → α} {k : Nat} {src : List α} (hh : h < c)
    (hfit : n + src.length ≤ c) (hk : k = min (c - (h + n) % c) src.length) :
    window (memcpy (memcpy mem ((h + n) % c) (src.take k)) 0 (src.drop k)) c h (n + src.length)
      = window mem c h n ++ src := by
  have hc : 0 < c := by omega
  have ht : (h + n) % c < c := Nat.mod_lt _ hc
  have hklen : (src.take k).length = k := by rw [length_take]; omega
  rw [window_add]
  congr 1
  · -- the old cells lie outside both copies
    apply window_congr
    intro i hi
    have hpos := wrap_eq hh (show i ≤ c by omega)
    have htail := wrap_eq hh (show n ≤ c by omega)
    have hdrop : (src.drop k).length = src.length - k := length_drop
    have h2 : 0 + (src.drop k).length ≤ (h + i) % c := by
      rw [hdrop, hpos]
      rw [htail] at hk
      split at hk <;> split <;> omega
    rw [memcpy_of_ge h2]
    by_cases hb : (h + i) % c < (h + n) % c
    · exact memcpy_of_lt hb
    · apply memcpy_of_ge
      rw [hpos] at hb ⊢
      rw [htail] at hb hk ⊢
      split at hk <;> split at hb <;> split <;> omega
  · -- the new cells are the two copies one after the other
    have hsplit : src.length = k + (src.length - k) := by omega
    rw [hsplit, window_add]
    conv_rhs => rw [← take_append_drop k src]
    congr 1
    · rw [window_straight (by omega)]
      conv_rhs => rw [← range_memcpy mem ((h + n) % c) (src.take k)]
      rw [hklen]
      apply map_congr_left
      intro i hi
      apply memcpy_of_ge
      rw [length_drop]
      by_cases hw : k = src.length
      · omega
      · omega
    · by_cases hw : k = src.length
      · rw [hw]
        simp
      · have hkc : k = c - (h + n) % c := by omega
        have hz : ((h + n) % c + k) % c = 0 := by
          rw [hkc, show (h + n) % c + (c - (h + n) % c) = c by omega, Nat.mod_self]
        rw [hz, window_straight (by omega)]
        conv_rhs => rw [← range_memcpy (memcpy mem ((h + n) % c) (src.take k)) 0 (src.drop k)]
        rw [length_drop]

theorem pos_ne {i : Nat} (hi : i < n) (hn : n < c) : (h + i) % c ≠ (h + n) % c := by
  intro heq
  have hmod : i ≡ n [MOD c] := Nat.ModEq.add_left_cancel' h heq
  exact Nat.ne_of_lt hi (hmod.eq_of_lt_of_lt (Nat.lt_trans hi hn) hn)

theorem window_update_end (mem : Nat → α) (h : Nat) (x : α) (hn : n < c) :
    window (update mem ((h + n) % c) x) c h (n + 1) = window mem c h n ++ [x] := by
  rw [window_add]
  congr 1
  · exact window_congr fun i hi => update_of_ne (pos_ne hi hn) ..
  · unfold window
    simp

theorem window_update_front (mem : Nat → α) (h : Nat) (x : α) (hn : n < c) :
    window (update mem (h % c) x) c ((h + 1) % c) n = window mem c ((h + 1) % c) n := by
  refine window_congr fun i hi => update_of_ne ?_ ..
  rw [Nat.mod_add_mod, Nat.add_assoc]
  exact (pos_ne (i := 0) (n := 1 + i) (by omega) (by omega)).symm

end Ring
