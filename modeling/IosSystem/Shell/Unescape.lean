import IosSystem.Shell.Execv
import Mathlib.Data.List.Find

/-!
# Escaped characters

`nextUnescapedCharacter` beside the position that it is meant to find, and the removal of
backslashes in `unquoteArgument`, which moves the rest of the text over each of them.
-/

namespace IosSystem.Shell

open List

variable {c : Char} {s text pre : CStr}

/-- The leftmost occurrence with an even number of backslashes right before it. -/
def firstUnescaped (s : CStr) (c : Char) : Option Nat :=
  (range s.length).find? fun i => s[i]? = some c ∧ trailingBackslashes (s.take i) % 2 = 0

/-- The character follows two or more backslashes at the beginning of the text. -/
def LeadingRun (s : CStr) (c : Char) : Prop := ∃ n, 2 ≤ n ∧ replicate n '\\' ++ [c] <+: s

theorem nextUnescapedFrom_eq_find {i : Nat} (h : s.drop i = text) :
    nextUnescapedFrom s c i text = (range' i text.length).find? fun j =>
      s[j]? = some c ∧ backslashesBefore s j % 2 = 0 := by
  induction text generalizing i with
  | nil => rfl
  | cons d text ih =>
    have hget : s[i]? = some d := by
      rw [← head?_drop, h]
      rfl
    have hrest : s.drop (i + 1) = text := by
      rw [← tail_drop, h]
      rfl
    rw [nextUnescapedFrom, length_cons, range'_succ, find?_cons, ih hrest]
    by_cases hd : d = c ∧ backslashesBefore s i % 2 = 0
    · simp [hget, hd]
    · rw [if_neg hd]
      simp [hget, hd]

/-- The count of the loop is right, unless only backslashes stand before the position. -/
theorem trailingBackslashes_drop (pre : CStr) :
    trailingBackslashes (pre.drop 1) = trailingBackslashes pre ∨
      pre ≠ [] ∧ pre = replicate pre.length '\\' := by
  cases pre with
  | nil => exact .inl rfl
  | cons d xs =>
    refine (trailingBackslashes_tail d xs).imp Eq.symm fun h => ⟨cons_ne_nil d xs, ?_⟩
    have hle : (d :: xs).reverse.takeWhile (· = '\\') <+: (d :: xs).reverse := takeWhile_prefix _
    have hall := hle.eq_of_length (by rw [length_reverse]; exact h)
    refine eq_replicate_of_mem fun e he => ?_
    simpa using takeWhile_eq_self_iff.mp hall e (mem_reverse.mpr he)

theorem backslashesBefore_of_getElem {i : Nat} (hi : s[i]? = some c)
    (hrun : 0 < i → ¬ replicate i '\\' ++ [c] <+: s) :
    backslashesBefore s i = trailingBackslashes (s.take i) := by
  obtain ⟨hlt, hget⟩ := List.getElem?_eq_some_iff.mp hi
  refine (trailingBackslashes_drop (s.take i)).resolve_right ?_
  rintro ⟨hne, hall⟩
  rw [length_take_of_le (Nat.le_of_lt hlt)] at hall
  refine hrun (Nat.pos_of_ne_zero fun h => hne (by rw [h]; rfl)) ⟨s.drop (i + 1), ?_⟩
  rw [← hall, ← hget, take_append_getElem, take_append_drop]

theorem find_range_eq {p : Nat → Prop} [DecidablePred p] {n i : Nat} (hi : i < n) (hp : p i)
    (hlt : ∀ j, j < i → ¬ p j) : (range n).find? (fun j => p j) = some i := by
  rw [find?_range_eq_some]
  exact ⟨by simpa using hp, mem_range.mpr hi, fun j hj => by simpa using hlt j hj⟩

theorem find_ne_of_leadingRun (hc : c ≠ '\\') (hrun : LeadingRun s c) :
    ((range s.length).find? fun i => s[i]? = some c ∧ backslashesBefore s i % 2 = 0)
      ≠ firstUnescaped s c := by
  obtain ⟨n, hn, t, rfl⟩ := hrun
  have hget : (replicate n '\\' ++ [c] ++ t)[n]? = some c := by simp
  have hbefore : ∀ j, j < n → (replicate n '\\' ++ [c] ++ t)[j]? ≠ some c := by
    intro j hj
    simp [getElem?_append, hj, hc.symm]
  have hcount : trailingBackslashes ((replicate n '\\' ++ [c] ++ t).take n) = n := by
    simp [trailingBackslashes]
  have hloop : backslashesBefore (replicate n '\\' ++ [c] ++ t) n = n - 1 := by
    simp [backslashesBefore]
  have hlen : n < (replicate n '\\' ++ [c] ++ t).length := by simp
  intro heq
  rcases Nat.mod_two_eq_zero_or_one n with heven | hodd
  · have hfirst : firstUnescaped (replicate n '\\' ++ [c] ++ t) c = some n :=
      find_range_eq hlen ⟨hget, by rw [hcount, heven]⟩ fun j hj h => hbefore j hj h.1
    have h := find?_some (heq.trans hfirst)
    simp only [hloop, decide_eq_true_eq] at h
    omega
  · have h := find?_some (heq.symm.trans
      (find_range_eq hlen ⟨hget, by rw [hloop]; omega⟩ fun j hj h => hbefore j hj h.1))
    simp only [hcount, decide_eq_true_eq] at h
    omega

/--
`nextUnescapedCharacter` finds the first unescaped occurrence, unless the character follows two or
more backslashes at the beginning of the text.
-/
theorem nextUnescapedCharacter_eq_iff (hc : c ≠ '\\') :
    nextUnescapedCharacter s c = firstUnescaped s c ↔ ¬ LeadingRun s c := by
  unfold nextUnescapedCharacter
  split
  · next htwo =>
    obtain ⟨rest, rfl⟩ : ∃ rest, s = '\\' :: c :: rest :=
      ⟨s.drop 2, by rw [← take_append_drop 2 s, htwo]; rfl⟩
    have hrun : ∀ n, 2 ≤ n → ¬ replicate n '\\' ++ [c] <+: '\\' :: c :: rest := by
      rintro (_ | _ | n) hn ⟨t, h⟩
      · cases hn
      · omega
      · simp only [replicate_succ, cons_append, cons.injEq] at h
        exact hc h.2.1.symm
    refine iff_of_true ?_ fun ⟨n, hn, h⟩ => hrun n hn h
    have hfrom : firstUnescaped ('\\' :: c :: rest) c = (range' 2 rest.length).find? fun i =>
        ('\\' :: c :: rest)[i]? = some c ∧
          trailingBackslashes (('\\' :: c :: rest).take i) % 2 = 0 := by
      simp [firstUnescaped, range_eq_range', range'_succ, hc.symm, trailingBackslashes]
    rw [nextUnescapedFrom_eq_find rfl, hfrom]
    refine find?_congr fun i hi => ?_
    simp only [decide_eq_decide]
    refine and_congr_right fun hget => ?_
    rw [backslashesBefore_of_getElem hget fun _ => hrun i (mem_range'_1.mp hi).1]
  · next htwo =>
    rw [nextUnescapedFrom_eq_find (i := 0) drop_zero, ← range_eq_range']
    constructor
    · exact fun heq hrun => find_ne_of_leadingRun hc hrun heq
    · intro hrun
      unfold firstUnescaped
      congr 1
      funext i
      simp only [decide_eq_decide]
      refine and_congr_right fun hi => ?_
      rw [backslashesBefore_of_getElem hi]
      rintro hpos ⟨t, h⟩
      by_cases hone : i = 1
      · subst hone
        exact htwo (by rw [← h]; rfl)
      · exact hrun ⟨i, by omega, t, h⟩

/-- An escaped blank, and a plain one behind it. -/
theorem nextUnescapedCharacter_blank :
    nextUnescapedCharacter "a\\ b c".toList ' ' = firstUnescaped "a\\ b c".toList ' ' := by
  refine (nextUnescapedCharacter_eq_iff (by decide)).2 ?_
  rintro ⟨_ | _ | n, hn, t, h⟩
  · cases hn
  · omega
  · cases h

/-- Two backslashes at the start: the quote behind them is passed over. -/
theorem nextUnescapedCharacter_leading_run :
    nextUnescapedCharacter "\\\\\" x\"".toList '"' = some 5 ∧
      firstUnescaped "\\\\\" x\"".toList '"' = some 2 := by
  decide

/--
The loop of `unquoteArgument`. Each round removes the first backslash from `start` on, and the next
one starts behind the character that has taken its place. At the end of the text it starts at the
old 0, which `memmove` has left there.
-/
def removalLoop : Nat → CStr → Nat → CStr
  | 0, argument, _ => argument
  | fuel + 1, argument, start =>
    if '\\' ∈ argument.drop start then
      let next := start + (argument.drop start).idxOf '\\'
      removalLoop fuel (argument.eraseIdx next) (next + 1)
    else argument

/-- A quote or a record separator begins the text, and also ends it. -/
def Quoted (argument : CStr) : Prop :=
  argument.head?.any isQuote = true ∧ argument.getLast? = argument.head?

instance (argument : CStr) : Decidable (Quoted argument) := inferInstanceAs (Decidable (_ ∧ _))

/-- `unquoteArgument`, with the loop of the source -/
def unquoteInPlace (argument : CStr) : CStr :=
  if Quoted argument then (argument.drop 1).dropLast
  else removalLoop (argument.length + 1) argument 0

/-- A backslash before each character with a mark. -/
def escape (marked : List (Char × Bool)) : CStr :=
  marked.flatMap fun x => if x.2 then ['\\', x.1] else [x.1]

def Covers (marked : List (Char × Bool)) : Prop := ∀ x ∈ marked, x.1 = '\\' → x.2 = true

theorem removalLoop_eq {fuel : Nat} (h : text.length < fuel) (pre : CStr) :
    removalLoop fuel (pre ++ text) pre.length = pre ++ removeBackslashes text := by
  induction fuel generalizing pre text with
  | zero => cases h
  | succ fuel ih =>
    rw [removalLoop, drop_left]
    by_cases hmem : '\\' ∈ text
    · rw [if_pos hmem]
      obtain ⟨xs, rest, rfl, hxs⟩ := eq_append_cons_of_mem hmem
      have hfirst : (xs ++ '\\' :: rest).idxOf '\\' = xs.length := by
        rw [idxOf_append_of_notMem hxs, idxOf_cons_self, Nat.add_zero]
      have herase : (pre ++ (xs ++ '\\' :: rest)).eraseIdx (pre.length + xs.length)
          = pre ++ xs ++ rest := by
        simp [eraseIdx_append_of_length_le]
      rw [hfirst, removeBackslashes_append hxs]
      dsimp only
      rw [herase]
      simp only [length_append, length_cons] at h
      cases rest with
      | nil =>
        have hend : removalLoop fuel (pre ++ xs) (pre.length + xs.length + 1) = pre ++ xs := by
          cases fuel with
          | zero => rfl
          | succ fuel => rw [removalLoop, drop_of_length_le (by simp), if_neg not_mem_nil]
        simpa [removeBackslashes] using hend
      | cons d rest =>
        have hlen : rest.length < fuel := by
          simp only [length_cons] at h
          omega
        have hnext := ih hlen (pre ++ xs ++ [d])
        simpa [removeBackslashes, Nat.add_assoc] using hnext
    · rw [if_neg hmem, removeBackslashes_of_not_mem hmem]

theorem unquoteInPlace_eq (h : ¬ Quoted text) : unquoteInPlace text = removeBackslashes text := by
  rw [unquoteInPlace, if_neg h]
  exact removalLoop_eq (Nat.lt_succ_self _) []

/-- The loop of the source computes what the recursion of the tokenizer does. -/
theorem unquoteInPlace_eq_unquoteArgument (text : CStr) :
    unquoteInPlace text = unquoteArgument text := by
  cases text with
  | nil => rfl
  | cons q rest =>
    have hquoted : Quoted (q :: rest) ↔ isQuote q = true ∧ (q :: rest).getLast? = some q := by
      simp [Quoted]
    rw [unquoteArgument]
    by_cases h : Quoted (q :: rest)
    · rw [unquoteInPlace, if_pos h, if_pos (hquoted.mp h), drop_one, tail_cons]
    · rw [unquoteInPlace_eq h, if_neg (mt hquoted.mpr h)]

theorem removeBackslashes_escape {marked : List (Char × Bool)} (h : Covers marked) (lone : Bool) :
    removeBackslashes (escape marked ++ if lone then ['\\'] else []) = marked.map Prod.fst := by
  induction marked with
  | nil => cases lone <;> rfl
  | cons x marked ih =>
    have hrest := ih fun y hy => h y (mem_cons_of_mem _ hy)
    rw [escape, flatMap_cons, append_assoc, map_cons]
    obtain ⟨d, _ | _⟩ := x
    · have hd : '\\' ∉ [d] := fun hmem => by
        cases h _ mem_cons_self (mem_singleton.mp hmem).symm
      exact (removeBackslashes_append hd _).trans (congrArg _ hrest)
    · exact congrArg (d :: ·) hrest

/-- Every text is a text in which some characters are escaped, and a last backslash may be left. -/
theorem exists_escape (text : CStr) : ∃ marked, ∃ lone : Bool, Covers marked ∧
    text = escape marked ++ if lone then ['\\'] else [] := by
  fun_induction removeBackslashes text with
  | case1 => exact ⟨[], false, forall_mem_nil _, rfl⟩
  | case2 => exact ⟨[], true, forall_mem_nil _, rfl⟩
  | case3 d hd => exact ⟨[(d, false)], false, by simp [Covers, hd], rfl⟩
  | case4 d rest ih =>
    obtain ⟨marked, lone, hcover, h⟩ := ih
    exact ⟨(d, true) :: marked, lone, forall_mem_cons.mpr ⟨fun _ => rfl, hcover⟩, by rw [h]; rfl⟩
  | case5 d e rest hd ih =>
    obtain ⟨marked, lone, hcover, h⟩ := ih
    exact ⟨(d, false) :: marked, lone,
      forall_mem_cons.mpr ⟨fun e => absurd e hd, hcover⟩, by rw [h]; rfl⟩

/--
`unquoteArgument` takes back any escaping that covers the backslashes, and does nothing else to a
text without quotes, apart from a backslash at its end.
-/
theorem unquoteArgument_inverts_escaping :
    (∀ marked, Covers marked → ((marked.map Prod.fst).head?.any isQuote = false) →
      unquoteInPlace (escape marked) = marked.map Prod.fst) ∧
    ∀ text, ¬ Quoted text → ∃ marked, ∃ lone : Bool, Covers marked ∧
      text = (escape marked ++ if lone then ['\\'] else []) ∧
      unquoteInPlace text = marked.map Prod.fst := by
  constructor
  · intro marked hcover hhead
    have hplain : ¬ Quoted (escape marked) := by
      rintro ⟨hquote, -⟩
      rcases marked with _ | ⟨⟨d, _ | _⟩, marked⟩
      · cases hquote
      · cases hquote.symm.trans hhead
      · cases hquote
    have h := removeBackslashes_escape hcover false
    rw [unquoteInPlace_eq hplain]
    simpa using h
  · intro text hplain
    obtain ⟨marked, lone, hcover, htext⟩ := exists_escape text
    refine ⟨marked, lone, hcover, htext, ?_⟩
    rw [unquoteInPlace_eq hplain, htext, removeBackslashes_escape hcover]

end IosSystem.Shell
