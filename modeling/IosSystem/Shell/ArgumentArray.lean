import IosSystem.Lib.Cells
import IosSystem.Shell.Execv

/-!
# The array of the arguments

`argv` and `dontExpand` are allocated with two entries more than the command has blanks. Each
argument takes one entry, and a null pointer comes behind the last one.

An argument that ends at a blank pays for its entry with that blank. Two kinds of arguments do not:

* In the definition of an alias the `=` becomes a blank after the blanks have been counted. The
  stores leave the arrays just if no other blank is left over, that is if the pieces between the
  blanks are all arguments by themselves (`Overrun`).
* An argument between record separators ends behind the second one, and the character there is
  overwritten whatever it is. When blanks follow these arguments, all is well (`Spaced`).
-/

namespace IosSystem.Shell

open List
open Cells

/-! ## The arrays -/

def numSpaces (command : CStr) : Nat := command.count ' '

variable {str : CStr} {i fuel : Nat} {c : Char}

theorem nextUnescapedFrom_getElem? {j : Nat} {xs : CStr}
    (h : nextUnescapedFrom str c i xs = some j) : i ≤ j ∧ xs[j - i]? = some c := by
  induction xs generalizing i with
  | nil => cases h
  | cons ch xs ih =>
    rw [nextUnescapedFrom] at h
    split at h
    · next hfound =>
      cases h
      rw [Nat.sub_self, getElem?_cons_zero, hfound.1]
      exact ⟨Nat.le_refl _, rfl⟩
    · obtain ⟨hle, hget⟩ := ih h
      have hsucc : j - i = j - (i + 1) + 1 := by omega
      rw [hsucc, getElem?_cons_succ]
      exact ⟨by omega, hget⟩

theorem nextUnescapedCharacter_getElem? (h : nextUnescapedCharacter str c = some i) :
    str[i]? = some c := by
  unfold nextUnescapedCharacter at h
  split at h
  · obtain ⟨hle, hget⟩ := nextUnescapedFrom_getElem? h
    rw [getElem?_drop] at hget
    rwa [show 2 + (i - 2) = i by omega] at hget
  · simpa using (nextUnescapedFrom_getElem? h).2

variable {text : CStr} {q : Char}

theorem nextUnescapedCharacter_plain (hc : c ≠ '\\') {xs : CStr} (h : c ∉ xs)
    (hb : '\\' ∉ xs) (ys : CStr) : nextUnescapedCharacter (xs ++ c :: ys) c = some xs.length := by
  refine nextUnescapedCharacter_found hc h ?_ ?_ ys
  · rintro rfl
    exact hb mem_cons_self
  · rw [trailingBackslashes_of_not_mem fun e => hb (mem_of_mem_drop e)]

/-- The first argument of the text is `p`, up to a blank. It is `text` when it has been read. -/
def Reads (str p text rest : CStr) : Prop :=
  str = p ++ ' ' :: rest ∧
    getLastCharacterOfArgument (str.length + 1) str = (some text.length, text ++ ' ' :: rest)

variable {p text' p' rest rest' : CStr}

theorem Reads.unique (h : Reads str p text rest) (h' : Reads str p' text' rest') :
    p = p' ∧ text = text' ∧ rest = rest' := by
  obtain ⟨hlength, htext⟩ := Prod.mk.inj (h.2.symm.trans h'.2)
  obtain ⟨rfl, hrest⟩ := append_inj htext (Option.some.inj hlength)
  obtain rfl : rest = rest' := (cons.inj hrest).2
  exact ⟨(append_left_inj _).mp (h.1.symm.trans h'.1), rfl, rfl⟩

theorem numSpaces_append_blank (p rest : CStr) :
    numSpaces (p ++ ' ' :: rest) = numSpaces p + 1 + numSpaces rest := by
  rw [numSpaces, count_append, count_cons_self, numSpaces, numSpaces]
  omega

variable {P : CStr → Prop}

variable {command : CStr}

/-- A word that is an argument by itself, and begins with no quote or record separator. -/
structure PlainWord (p : CStr) : Prop where
  head : ∃ c, p.head? = some c ∧ isQuote c = false
  blank : ' ' ∉ p
  backslash : '\\' ∉ p

/--
The text is a list of words, of quoted arguments and of arguments between record separators, with
blanks between them. This is how `ios_execv` writes its arguments.
-/
inductive Spaced : CStr → Prop
  | nil : Spaced []
  | word {p rest : CStr} : PlainWord p → rest = [] ∨ rest.head? = some ' ' →
      Spaced (dropSpaces rest) → Spaced (p ++ rest)
  | quoted {q : Char} {x rest : CStr} : q = '"' ∨ q = '\'' → q ∉ x → Closed x →
      rest = [] ∨ rest.head? = some ' ' → Spaced (dropSpaces rest) → Spaced (q :: (x ++ q :: rest))
  | separated {x rest : CStr} : recordSeparator ∉ x → rest = [] ∨ rest.head? = some ' ' →
      Spaced (dropSpaces rest) → Spaced (recordSeparator :: (x ++ recordSeparator :: rest))

theorem Spaced.behind (front : CStr) (hbehind : rest = [] ∨ rest.head? = some ' ')
    (hrest : Spaced (dropSpaces rest)) (hlast : 0 < rest.length) :
    (front ++ rest)[front.length]? = some ' ' ∧
      Spaced (dropSpaces ((front ++ rest).drop (front.length + 1))) := by
  cases rest with
  | nil => simp at hlast
  | cons d rest =>
    obtain rfl : d = ' ' := by simpa using hbehind
    have hnext : Spaced (dropSpaces rest) := hrest
    exact ⟨by simp, by simpa using hnext⟩

end IosSystem.Shell
