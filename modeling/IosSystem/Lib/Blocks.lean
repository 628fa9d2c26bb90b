import Mathlib.Logic.Function.Basic
import Mathlib.Order.Basic

/-!
# Who releases a block of memory

A heap that only keeps account: how often each block was released, and whether a rule was broken. A
block is released at the address at which it was allocated and only once, and it is not used
afterwards. A broken rule is remembered (`misused`), since what the memory holds from then on is
anything.
-/

namespace Blocks

variable {β : Type}

/-- An address, as a distance from the start of a block. -/
structure Ptr (β : Type) where
  block : β
  offset : Nat
  deriving DecidableEq

/-- How often each block was freed, and whether one was misused. -/
structure Heap (β : Type) where
  freed : β → Nat
  misused : Bool

def Heap.empty : Heap β := ⟨fun _ => 0, false⟩

/-- Read or write the blocks. -/
def Heap.use (h : Heap β) (bs : List β) : Heap β :=
  { h with misused := h.misused || bs.any fun b => 0 < h.freed b }

def Heap.free [DecidableEq β] (h : Heap β) (p : Ptr β) : Heap β :=
  { freed := Function.update h.freed p.block (h.freed p.block + 1)
    misused := h.misused || p.offset ≠ 0 || 0 < h.freed p.block }

variable {h : Heap β}

theorem Heap.use_eq {bs : List β} (hbs : ∀ b ∈ bs, h.freed b = 0) : h.use bs = h := by
  have hany : (bs.any fun b => 0 < h.freed b) = false := by
    simpa using hbs
  rw [Heap.use, hany, Bool.or_false]

theorem Heap.misused_use {bs : List β} {b : β} (hmem : b ∈ bs) (hb : h.freed b ≠ 0) :
    (h.use bs).misused = true := by
  have hany : (bs.any fun b => 0 < h.freed b) = true :=
    List.any_eq_true.mpr ⟨b, hmem, decide_eq_true (Nat.pos_of_ne_zero hb)⟩
  rw [Heap.use, hany, Bool.or_true]

variable [DecidableEq β]

theorem Heap.misused_free (h : Heap β) (p : Ptr β) :
    (h.free p).misused = false ↔ h.misused = false ∧ p.offset = 0 ∧ h.freed p.block = 0 := by
  simp [Heap.free, and_assoc]

theorem Heap.misused_free_of_misused (hm : h.misused = true) (p : Ptr β) :
    (h.free p).misused = true := by
  simp [Heap.free, hm]

theorem Heap.free_eq {b : β} (hm : h.misused = false) (hb : h.freed b = 0) :
    h.free ⟨b, 0⟩ = ⟨Function.update h.freed b 1, false⟩ := by
  simp [Heap.free, hm, hb]

end Blocks
