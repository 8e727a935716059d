/-!
# Written form of polyhedra

A text names a polyhedron by the codes of the operators, outermost first,
then the letter of a seed and its parameter.  Digits after a code are the
argument of that operator, and digits at the end are the parameter of the
seed.  Every text can be read; letters without a meaning are found out later.
-/

namespace Polyhedra

/-- The code of an operator with the number written after it. -/
structure Token where
  code : Char
  argument? : Option Nat
deriving DecidableEq

structure Notation where
  /-- The operators as written, outermost first. -/
  tokens : List Token
  /-- The last character that is not a digit. -/
  seed? : Option Char
  /-- The number at the end of the text, zero if there is none; absent beyond
  32 bits. -/
  parameter? : Option Nat
deriving DecidableEq

namespace Notation

/-- The largest number that a run of digits may stand for, the last one with
32 bits. -/
def maxNumber : Nat := 4294967295

/-- The number that a run of decimal digits stands for. -/
def numberOf (digits : List Char) : Nat :=
  digits.foldl (fun number digit => number * 10 + (digit.toNat - '0'.toNat))
    0

/-- The argument written by a run of digits, cut off at the largest
number. -/
def argumentOf? (digits : List Char) : Option Nat :=
  if digits.isEmpty then none else some (min (numberOf digits) maxNumber)

/-- The parameter written by a run of digits, unless it is too large. -/
def parameterOf? (digits : List Char) : Option Nat :=
  if numberOf digits ≤ maxNumber then some (numberOf digits) else none

/-- The run of digits at the start of a text, and the tokens of what follows
it. -/
def scan : List Char → List Char × List Token
  | [] => ([], [])
  | c :: rest =>
    let (digits, tokens) := scan rest
    if c.isDigit then (c :: digits, tokens)
      else ([], ⟨c, argumentOf? digits⟩ :: tokens)

/-- Every character is the code of an operator, except for the digits that
follow a code. -/
def tokensOf : List Char → List Token
  | [] => []
  | code :: rest =>
    let (digits, tokens) := scan rest
    ⟨code, argumentOf? digits⟩ :: tokens

theorem scan_eq (text : List Char) :
    scan text =
      (text.takeWhile Char.isDigit,
        tokensOf (text.dropWhile Char.isDigit)) := by
  induction text with
  | nil => rfl
  | cons c rest ih =>
    by_cases hdigit : c.isDigit
    · simp [scan, ih, hdigit]
    · simp [scan, ih, hdigit, tokensOf]

theorem tokensOf_cons (code : Char) (rest : List Char) :
    tokensOf (code :: rest) =
      ⟨code, argumentOf? (rest.takeWhile Char.isDigit)⟩ ::
        tokensOf (rest.dropWhile Char.isDigit) := by
  rw [tokensOf, scan_eq]

/-- A text split before the run of digits at its end. -/
def splitTrailingDigits (text : List Char) : List Char × List Char :=
  ((text.reverse.dropWhile Char.isDigit).reverse,
    (text.reverse.takeWhile Char.isDigit).reverse)

theorem splitTrailingDigits_append (text : List Char) :
    (splitTrailingDigits text).1 ++ (splitTrailingDigits text).2 = text := by
  simp only [splitTrailingDigits, ← List.reverse_append,
    List.takeWhile_append_dropWhile, List.reverse_reverse]

def decode (text : String) : Notation :=
  let (body, digits) := splitTrailingDigits text.toList
  { tokens := tokensOf body.dropLast
    seed? := body.getLast?
    parameter? := parameterOf? digits }

end Notation

end Polyhedra
