import ParitySolver.Constraint
import ParitySolver.Decimal.Reading

/-
  This file defines the notation of facts. A line is blank, a
  comment after a percent sign, or one fact such as

    __parity(3, odd, -7).

  which says that constraint 3 has odd parity and that the
  negation of variable 7 is one of its literals. Blanks and
  tabs may stand around a line and around the arguments.

  Key definitions include:
    * `Fact`
    * `Fact.toParityFact`
    * `Grammar.comment?`
    * `Grammar.fact?`
    * `Grammar.optional`
    * `Grammar.line?`
-/

namespace ParitySolver

------------------------------------------------------------
-- Facts
------------------------------------------------------------

/-
  A fact as it is written. Variables are numbered from one,
  and a negative number stands for a negative literal.
-/
structure Fact where
  id : Nat
  parity : Parity
  number : Int
deriving DecidableEq, Repr, Inhabited

namespace Fact

/- The literal that the number stands for. -/
def literal
    (f : Fact) : Literal :=
  ⟨f.number.natAbs - 1, decide (0 < f.number)⟩

/- The fact about the literal that the number stands for. -/
def toParityFact
    (f : Fact) : ParityFact :=
  ⟨f.id, f.parity, f.literal⟩

end Fact

namespace Grammar

------------------------------------------------------------
-- Words and numbers
------------------------------------------------------------

/- Space that may stand around arguments. -/
def isBlank
    (c : Char) : Bool :=
  c = ' ' || c = '\t'

/- The text after blanks. -/
def skipBlanks
    (cs : List Char) : List Char :=
  cs.dropWhile isBlank

/- The text after a word, if it begins with the word. -/
def word?
    (word : String)
    (cs : List Char) : Option (List Char) :=
  word.toList.isPrefixOf? cs

/- A decimal number of at least one digit, and the text after it. -/
def digits?
    (cs : List Char) : Option (Nat × List Char) :=
  let digits := cs.takeWhile Char.isDigit
  if digits.isEmpty then
    none
  else
    some (digitsToNat digits, cs.dropWhile Char.isDigit)

/- Names of constraints have at most 64 bits. -/
def nameLimit : Nat :=
  0x10000000000000000

/- Literals are signed numbers of 64 bits. -/
def numberLimit : Int :=
  0x8000000000000000

/- The name of a constraint, and the text after it. -/
def name?
    (cs : List Char) : Option (Nat × List Char) := do
  let (n, rest) ← digits? cs
  if n < nameLimit then some (n, rest) else none

/- A literal, which is not zero, and the text after it. -/
def number?
    (cs : List Char) : Option (Int × List Char) := do
  let (negative, unsigned) := splitSign cs
  let (n, rest) ← digits? unsigned
  let number : Int := if negative then -n else n
  if number ≠ 0 && -numberLimit ≤ number && number < numberLimit then
    some (number, rest)
  else
    none

/- The name of a parity. -/
def parity?
    (cs : List Char) : Option (Parity × List Char) :=
  match word? "even" cs with
  | some rest => some (.even, rest)
  | none => (word? "odd" cs).map fun rest => (.odd, rest)

------------------------------------------------------------
-- Lines
------------------------------------------------------------

/- A fact, and the text after it. -/
def fact?
    (cs : List Char) : Option (Fact × List Char) := do
  let cs ← word? "__parity(" cs
  let (id, cs) ← name? (skipBlanks cs)
  let cs ← word? "," (skipBlanks cs)
  let (parity, cs) ← parity? (skipBlanks cs)
  let cs ← word? "," (skipBlanks cs)
  let (number, cs) ← number? (skipBlanks cs)
  let cs ← word? ")." (skipBlanks cs)
  return (⟨id, parity, number⟩, cs)

/- The text after the end of a line. -/
def lineEnd? : List Char → Option (Unit × List Char)
  | '\n' :: cs => some ((), cs)
  | '\r' :: '\n' :: cs => some ((), cs)
  | _ => none

/-
  The text after a comment. A comment reaches up to the end
  of the line and holds no carriage return.
-/
def comment? : List Char → Option (List Char)
  | '%' :: cs =>
      let rest := cs.dropWhile fun c => c != '\r' && c != '\n'
      if rest.isEmpty || (lineEnd? rest).isSome then some rest else none
  | _ => none

/- A comment or a fact, and the text after it. -/
def item?
    (cs : List Char) : Option (Option Fact × List Char) :=
  match comment? cs with
  | some rest => some (none, rest)
  | none => (fact? cs).map fun (f, rest) => (some f, rest)

/- Read something if it is there; if it is not, nothing is read. -/
def optional
    {α : Type}
    (read? : List Char → Option (α × List Char))
    (cs : List Char) : Option (Option α × List Char) :=
  match read? cs with
  | some (a, rest) => some (some a, rest)
  | none => some (none, cs)

/- The fact on a line, and what is left over of the line. -/
def line?
    (cs : List Char) : Option (Option Fact × List Char) := do
  let (item, cs) ← optional item? (skipBlanks cs)
  let (_, cs) ← optional lineEnd? (skipBlanks cs)
  return (item.join, cs)

end Grammar

end ParitySolver
