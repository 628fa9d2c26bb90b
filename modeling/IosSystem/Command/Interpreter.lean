import IosSystem.Lib.Cells
import IosSystem.Lib.Encoding
import IosSystem.Shell.Text

/-!
# The interpreter in front of the arguments

When the command is a file, `ios_system` looks at the end of its name and at its first line, and
puts the words of an interpreter in front of the arguments. For each kind of file a piece of code
lets `argv` grow, moves the old arguments up, puts the location of the file in the place of
`argv[0]` and stores the new words. They differ in the size of the new array and in the index where
the move begins.
-/

namespace IosSystem.Command

open List Option
open Cells
open IosSystem.Shell (CStr)

/-- A file on the path, as `ios_system` looks at it. -/
structure File where
  data : List UInt8
  /-- `fileContent`: the text in UTF-8, or else in ASCII -/
  content : Option CStr

/-- `isRealCommand`, for a file that can be opened -/
def isRealCommand (data : List UInt8) : Bool :=
  4 ≤ data.length ∧ data.take 4 ≠ [0xcf, 0xfa, 0xed, 0xfe]

/-- `whitespaceCharacterSet` -/
def isWhitespace (c : Char) : Bool :=
  c.toNat ∈ [0x09, 0x20, 0xa0, 0x1680, 0x202f, 0x205f, 0x3000] ∨ 0x2000 ≤ c.toNat ∧ c.toNat ≤ 0x200a

/-- `lastPathComponent` -/
def lastComponent (path : CStr) : CStr := (path.reverse.takeWhile (· ≠ '/')).reverse

/-- The name that is looked for in place of the interpreter. -/
def scriptName (word : CStr) : CStr :=
  let name := lastComponent word
  let name := if name = "sh".toList then "dash".toList else name
  if name = "node".toList then "jsc".toList else name

/--
The words of the first line, behind `#!`. `beforeCommand` is `beforeScriptCommandName`. A line with
nothing behind `env` is an exception: the first of no components is asked for.
-/
def scriptWords (beforeCommand : CStr → Option CStr) (firstLine : CStr) :
    Option (CStr × List CStr) :=
  let text := (((firstLine.drop 2).dropWhile isWhitespace).reverse.dropWhile isWhitespace).reverse
  let components := text.splitOnP isWhitespace
  let components :=
    if "env".toList.isSuffixOf (components.headD []) then components.tail else components
  match components with
  | [] => none
  | first :: rest =>
    let name := scriptName first
    match beforeCommand name with
    | none => some (name, rest)
    | some before =>
      match before.splitOnP isWhitespace with
      | [] => none
      | word :: words => some (word, words ++ rest)

/-- The ways in which a file is run by another command. -/
inductive Branch where
  /-- `.bc` or `.ll` -/
  | bitcode
  | wasm
  | wasm3
  /-- a first line with `#!`, and its words -/
  | script (word : CStr) (words : List CStr)
  | signature
  deriving DecidableEq

/-- The words that are put in front. -/
def Branch.words : Branch → List CStr
  | .bitcode => ["lli".toList]
  | .wasm => ["wasm".toList]
  | .wasm3 => ["wasm3".toList]
  | .script word words => word :: words
  | .signature => ["wasm".toList]

/--
The branch for a file. The outer `none` is an exception, the inner one says that nothing is
inserted.
-/
def File.branch (beforeCommand : CStr → Option CStr) (location : CStr) (file : File) :
    Option (Option Branch) :=
  if ".bc".toList.isSuffixOf location ∨ ".ll".toList.isSuffixOf location then some (some .bitcode)
  else if ".wasm".toList.isSuffixOf location then some (some .wasm)
  else if ".wasm3".toList.isSuffixOf location then some (some .wasm3)
  else if isRealCommand file.data then
    match file.content with
    | none => some none
    | some content =>
      let firstLine := content.takeWhile (· ≠ '\n')
      if "#!".toList.isPrefixOf firstLine then
        (scriptWords beforeCommand firstLine).map fun (word, words) => some (.script word words)
      else if file.data.head? = some 0 then
        -- the characters 1 to 3 are asked for, whether they are there or not
        if Encoding.utf16Length content < 4 then none
        else some (if (content.drop 1).take 3 = "asm".toList then some .signature else none)
      else some (if firstLine = "asm".toList then some .signature else none)
  else some none

/-- `argc` and `argv`. -/
structure Argv where
  argc : Nat
  argv : List (Cell CStr)
  deriving DecidableEq

/-- The text of a cell is replaced: `realloc` and `strcpy`. -/
def replaceText (a : List (Cell CStr)) (i : Nat) (text : CStr) : Option (List (Cell CStr)) :=
  match a[i]? with
  | some .null | some (.ptr _) => write a i (.ptr text)
  | some .indeterminate | none => none

/--
The code that all branches have in common: `slots` is the size of the new array and `top` the index
where the move begins, both in terms of the new `argc`.
-/
def insertInterpreter (slots top : Nat → Nat) (words : List CStr) (location : CStr) (v : Argv) :
    Option Argv := do
  let argc := v.argc + words.length
  let argv := realloc v.argv (slots argc)
  let argv ← shiftUp argv words.length (top argc) (top argc + 1 - words.length)
  let argv ← replaceText argv words.length location
  let argv ← fill argv 0 words
  some ⟨argc, argv⟩

/-- The branch for `.bc` and `.ll`. -/
def insertBitcode : CStr → Argv → Option Argv :=
  insertInterpreter (fun argc => argc) (fun argc => argc) ["lli".toList]

def insertWasm : CStr → Argv → Option Argv :=
  insertInterpreter (fun argc => argc + 1) (fun argc => argc - 1) ["wasm".toList]

def insertWasm3 : CStr → Argv → Option Argv :=
  insertInterpreter (fun argc => argc + 1) (fun argc => argc - 1) ["wasm3".toList]

def insertScript (words : List CStr) : CStr → Argv → Option Argv :=
  insertInterpreter (fun argc => argc + 1) (fun argc => argc) words

def insertSignature : CStr → Argv → Option Argv :=
  insertInterpreter (fun argc => argc + 1) (fun argc => argc) ["wasm".toList]

/-- The code of each branch. -/
def Branch.insert : Branch → CStr → Argv → Option Argv
  | .bitcode => insertBitcode
  | .wasm => insertWasm
  | .wasm3 => insertWasm3
  | .script word words => insertScript (word :: words)
  | .signature => insertSignature

/-- The arguments `args`, and behind the `NULL` the cells that were allocated for more of them. -/
def vector (args : List CStr) (spare : List (Cell CStr)) : Argv :=
  ⟨args.length, args.map .ptr ++ .null :: spare⟩

theorem replaceText_append_cons (pre tail : List (Cell CStr)) (old text : CStr) :
    replaceText (pre ++ .ptr old :: tail) pre.length text = some (pre ++ .ptr text :: tail) := by
  rw [replaceText]
  simp [write_append_cons]

theorem insertInterpreter_of_gap {slots top : Nat → Nat} {words : List CStr} {v : Argv}
    (location name : CStr) (ys gap tail : List (Cell CStr)) (hwords : words ≠ [])
    (hrealloc : realloc v.argv (slots (v.argc + words.length)) = .ptr name :: ys ++ (gap ++ tail))
    (hgap : gap.length = words.length)
    (htop : top (v.argc + words.length) = ys.length + words.length) :
    insertInterpreter slots top words location v
      = some ⟨v.argc + words.length, words.map .ptr ++ .ptr location :: (ys ++ tail)⟩ := by
  obtain ⟨front, hfront, hshift⟩ := shiftUp_append [] (.ptr name :: ys) gap tail
    (length_pos_of_ne_nil hwords) hgap
  have hindex : (Cell.ptr name :: ys).length + words.length - 1 = ys.length + words.length := by
    rw [length_cons]
    omega
  have hcount : ys.length + words.length + 1 - words.length = (Cell.ptr name :: ys).length := by
    rw [length_cons]
    omega
  have hreplace := replaceText_append_cons front (ys ++ tail) name location
  have hfill : fill (front ++ .ptr location :: (ys ++ tail)) 0 words
      = some (words.map .ptr ++ .ptr location :: (ys ++ tail)) := by
    rw [fill_zero (by rw [length_append, hfront]; omega), ← hfront, drop_left]
  rw [length_nil, Nat.zero_add, hindex] at hshift
  simp only [nil_append, cons_append] at hshift
  rw [hfront] at hreplace
  simp only [insertInterpreter, hrealloc, htop, hcount, bind_eq_bind, cons_append, hshift,
    bind_some, hreplace, hfill]

theorem insertInterpreter_whole {words : List CStr} (hwords : words ≠ []) (location name : CStr)
    (args : List CStr) (spare : List (Cell CStr)) :
    insertInterpreter (fun argc => argc + 1) (fun argc => argc) words location
        (vector (name :: args) spare)
      = some (vector (words ++ location :: args) []) := by
  have hrealloc := realloc_append_add (.ptr name :: (args.map .ptr ++ [.null])) spare words.length
  have hslots : (Cell.ptr name :: (args.map .ptr ++ [.null])).length + words.length
      = (name :: args).length + words.length + 1 := by
    simp only [length_cons, length_append, length_map, length_nil]
    omega
  rw [hslots] at hrealloc
  refine (insertInterpreter_of_gap location name (args.map .ptr ++ [.null])
    (realloc spare words.length) []
    hwords ?_ (length_realloc spare words.length) ?_).trans ?_
  · simpa [vector] using hrealloc
  · simp [vector]
  · simp [vector]
    omega

section

variable (word location name : CStr) (args : List CStr) (spare : List (Cell CStr))

theorem insertInterpreter_short :
    insertInterpreter (fun argc => argc + 1) (fun argc => argc - 1) [word] location
        (vector (name :: args) spare)
      = some ⟨args.length + 2,
        .ptr word :: .ptr location :: (args.map .ptr ++ realloc spare 1)⟩ := by
  have hrealloc := realloc_append_add (.ptr name :: (args.map .ptr ++ [.null])) spare 1
  refine (insertInterpreter_of_gap location name (args.map .ptr) [.null] (realloc spare 1)
    (cons_ne_nil word []) ?_ rfl ?_).trans ?_
  · simpa [vector] using hrealloc
  · simp [vector]
  · simp [vector]

theorem insertInterpreter_outside :
    insertInterpreter (fun argc => argc) (fun argc => argc) [word] location
      (vector (name :: args) spare) = none := by
  have hshift := shiftUp_of_length_le
    (a := realloc ((name :: args).map .ptr ++ .null :: spare) (args.length + 2))
    (j := args.length + 2) (Nat.le_of_eq (length_realloc _ _)) 1 (args.length + 1)
  have hcount : args.length + 1 + 1 + 1 - 1 = args.length + 1 + 1 := by omega
  simp only [insertInterpreter, vector, length_cons, length_nil, hcount,
    hshift, bind_eq_bind, bind_none]

end

/-- The branches that begin the move at the `NULL` and have room for it. -/
def Branch.MovesNull : Branch → Prop
  | .script _ _ | .signature => True
  | .bitcode | .wasm | .wasm3 => False

theorem insertInterpreter_short_iff (word location name : CStr) (args : List CStr)
    (spare : List (Cell CStr)) :
    insertInterpreter (fun argc => argc + 1) (fun argc => argc - 1) [word] location
        (vector (name :: args) spare)
      = some (vector ([word] ++ location :: args) []) ↔ spare.head? = some .null := by
  rw [insertInterpreter_short]
  cases spare <;> simp [vector, realloc]

/-- The branch is chosen by the end of the name first: these are the files that go wrong. -/
theorem movesNull_iff_of_branch {beforeCommand : CStr → Option CStr} {location : CStr} {file : File}
    {b : Branch} (h : file.branch beforeCommand location = some (some b)) :
    b.MovesNull ↔ ∀ ending ∈ [".bc".toList, ".ll".toList, ".wasm".toList, ".wasm3".toList],
      ending.isSuffixOf location = false := by
  rw [File.branch] at h
  simp only [mem_cons, not_mem_nil, or_false, forall_eq_or_imp, forall_eq]
  split at h
  · next hbitcode =>
    cases h
    refine iff_of_false id fun hno => ?_
    rw [hno.1, hno.2.1] at hbitcode
    exact hbitcode.elim Bool.false_ne_true Bool.false_ne_true
  · next hbitcode =>
    simp only [not_or, Bool.not_eq_true] at hbitcode
    split at h
    · next hwasm =>
      cases h
      exact iff_of_false id fun hno => Bool.false_ne_true (hno.2.2.1.symm.trans hwasm)
    · next hwasm =>
      split at h
      · next hwasm3 =>
        cases h
        exact iff_of_false id fun hno => Bool.false_ne_true (hno.2.2.2.symm.trans hwasm3)
      · next hwasm3 =>
        rw [Bool.not_eq_true] at hwasm hwasm3
        refine iff_of_true ?_ ⟨hbitcode.1, hbitcode.2, hwasm, hwasm3⟩
        -- what is left are the words of the first line and the signature
        split at h
        · split at h
          · cases h
          · dsimp only at h
            split at h
            · obtain ⟨words, -, hb⟩ := map_eq_some_iff.mp h
              cases hb
              trivial
            · split at h
              · split at h
                · cases h
                · split at h
                  · cases h
                    trivial
                  · cases h
              · split at h
                · cases h
                  trivial
                · cases h
        · cases h

/--
Every write of the branch is inside the array, and the result is the words, the location and the old
arguments with `NULL` behind them.

The script and the signature do this for all arguments. `.wasm` and `.wasm3` do not store the
`NULL`, and `.bc` stores it outside the array.
-/
theorem insert_eq_vector_iff (b : Branch) (location name : CStr) (args : List CStr)
    (spare : List (Cell CStr)) :
    b.insert location (vector (name :: args) spare) = some (vector (b.words ++ location :: args) [])
      ↔ b.MovesNull ∨ (b = .wasm ∨ b = .wasm3) ∧ spare.head? = some .null := by
  cases b with
  | bitcode => simp [Branch.insert, insertBitcode, insertInterpreter_outside, Branch.MovesNull]
  | wasm =>
    refine (insertInterpreter_short_iff "wasm".toList location name args spare).trans ?_
    simp [Branch.MovesNull]
  | wasm3 =>
    refine (insertInterpreter_short_iff "wasm3".toList location name args spare).trans ?_
    simp [Branch.MovesNull]
  | script word words =>
    exact iff_of_true
      (insertInterpreter_whole (cons_ne_nil word words) location name args spare) (.inl trivial)
  | signature =>
    exact iff_of_true
      (insertInterpreter_whole (cons_ne_nil "wasm".toList []) location name args spare)
      (.inl trivial)

/--
`prog.bc` with one argument: the array has three cells, and `argv[3]` is written. `prog.wasm`: the
array has four cells, and the last one is never written.
-/
theorem insert_prog :
    Branch.bitcode.insert "/bin/prog.bc".toList (vector ["prog".toList, "x".toList] []) = none ∧
      Branch.wasm.insert "/bin/prog.wasm".toList (vector ["prog".toList, "x".toList] [])
        = some ⟨3, [.ptr "wasm".toList, .ptr "/bin/prog.wasm".toList, .ptr "x".toList,
            .indeterminate]⟩ := by
  decide

end IosSystem.Command
