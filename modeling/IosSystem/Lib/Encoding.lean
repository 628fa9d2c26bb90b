import Mathlib.Data.List.Basic
import Mathlib.Algebra.BigOperators.Group.List.Basic
import Mathlib.Algebra.GroupWithZero.Nat

/-!
# The two lengths of a text

A text has a length in units of UTF-16 and a length in bytes of UTF-8. The first is never larger
than the second, and they are the same for the texts in ASCII and for no others.
-/

namespace Encoding

/-- The units of UTF-16 for a character. -/
def utf16Size (c : Char) : Nat := if c.toNat < 0x10000 then 1 else 2

/-- The units of UTF-16 for a text. -/
def utf16Length (text : List Char) : Nat := (text.map utf16Size).sum

/-- The bytes of UTF-8 for a text. -/
def utf8Length (text : List Char) : Nat := (text.map Char.utf8Size).sum

def IsAscii (text : List Char) : Prop := ∀ c ∈ text, c.toNat < 0x80

instance (text : List Char) : Decidable (IsAscii text) :=
  List.decidableBAll (p := fun c : Char => c.toNat < 0x80) text

@[simp] theorem utf16Length_nil : utf16Length [] = 0 := rfl

@[simp] theorem utf16Length_cons (c : Char) (text : List Char) :
    utf16Length (c :: text) = utf16Size c + utf16Length text := rfl

@[simp] theorem utf16Length_append (text rest : List Char) :
    utf16Length (text ++ rest) = utf16Length text + utf16Length rest := by
  rw [utf16Length, List.map_append, List.sum_append]
  rfl

@[simp] theorem utf8Length_nil : utf8Length [] = 0 := rfl

@[simp] theorem utf8Length_cons (c : Char) (text : List Char) :
    utf8Length (c :: text) = c.utf8Size + utf8Length text := rfl

@[simp] theorem utf8Length_append (text rest : List Char) :
    utf8Length (text ++ rest) = utf8Length text + utf8Length rest := by
  rw [utf8Length, List.map_append, List.sum_append]
  rfl

theorem isAscii_cons {c : Char} {text : List Char} :
    IsAscii (c :: text) ↔ c.toNat < 0x80 ∧ IsAscii text := List.forall_mem_cons

theorem utf16Size_le (c : Char) : utf16Size c ≤ c.utf8Size := by
  unfold utf16Size Char.utf8Size
  simp only [UInt32.le_iff_toNat_le, Char.toNat, UInt32.toNat_ofNatLT]
  split_ifs <;> omega

theorem utf16Size_eq_iff (c : Char) : utf16Size c = c.utf8Size ↔ c.toNat < 0x80 := by
  unfold utf16Size Char.utf8Size
  simp only [UInt32.le_iff_toNat_le, Char.toNat, UInt32.toNat_ofNatLT]
  split_ifs <;> omega

theorem utf16Length_le (text : List Char) : utf16Length text ≤ utf8Length text := by
  induction text with
  | nil => exact Nat.le_refl 0
  | cons c text ih =>
    have hc := utf16Size_le c
    rw [utf16Length_cons, utf8Length_cons]
    omega

theorem utf8Length_le_utf16Length_iff (text : List Char) :
    utf8Length text ≤ utf16Length text ↔ IsAscii text := by
  induction text with
  | nil => simp [IsAscii]
  | cons c text ih =>
    have hc := utf16Size_le c
    have htext := utf16Length_le text
    rw [utf8Length_cons, utf16Length_cons, isAscii_cons, ← ih, ← utf16Size_eq_iff]
    omega

end Encoding
