import ParitySolver.Fact.Grammar
import ParitySolver.Fault
import ParitySolver.WhiteSpace

/-
  This file reads facts from bytes, line by line, up to the
  first line that is not well formed. Lines are counted in a
  32-bit word with a sign.

  Key definitions include:
    * `ReadError`
    * `ReadError.message`
    * `splitLines`
    * `readLine`
    * `countLine`
    * `readFacts`
-/

namespace ParitySolver

------------------------------------------------------------
-- Errors
------------------------------------------------------------

/- Why facts could not be read. Lines count from one. -/
inductive ReadError where
  /- A line is not encoded in UTF-8. -/
  | notUtf8
  /- A line cannot be read at all. -/
  | cannotParse (line : Nat) (text : String)
  /- Something on a line is neither a fact nor a comment. -/
  | unexpected (line : Nat) (text : String)
  /- A variable has too large a number. -/
  | variableTooLarge (line number : Nat)
  /- The reader gave up. -/
  | fault (fault : Fault)
deriving DecidableEq, Repr

/- The largest number that a variable may have. -/
def largestVariable : Nat :=
  16777216

/- The text for an error. -/
def ReadError.message : ReadError → String
  | .notUtf8 => "stream did not contain valid UTF-8"
  | .cannotParse line text =>
      "line " ++ toString line ++ ": cannot parse `" ++ text ++ "`"
  | .unexpected line text =>
      "line " ++ toString line ++ ": unexpected `" ++ text ++ "`"
  | .variableTooLarge line number =>
      "line " ++ toString line ++ ": variable " ++ toString number ++ " exceeds " ++
        toString largestVariable
  | .fault f =>
      f.message?.getD ""

------------------------------------------------------------
-- Lines
------------------------------------------------------------

/- Put a byte before lines; a line feed ends a line of its own. -/
def pushByte
    (b : UInt8) : List (List UInt8) → List (List UInt8)
  | [] => [[b]]
  | line :: lines =>
      if b = 10 then [b] :: line :: lines else (b :: line) :: lines

/-
  Cut bytes after each line feed. The last line may lack one.
-/
def splitLines
    (bytes : List UInt8) : List (List UInt8) :=
  bytes.foldr pushByte []

/- The fact on a line, if it has one. -/
def readLine
    (number : Nat)
    (bytes : List UInt8) : Except ReadError (Option Fact) :=
  match String.fromUTF8? ⟨bytes.toArray⟩ with
  | none => .error .notUtf8
  | some text =>
      match Grammar.line? text.toList with
      | none => .error (.cannotParse number (String.ofList (trimEnd text.toList)))
      | some (none, []) => .ok none
      | some (some f, []) =>
          if f.number.natAbs ≤ largestVariable then
            .ok (some f)
          else
            .error (.variableTooLarge number f.number.natAbs)
      | some (_, rest) => .error (.unexpected number (String.ofList (trimEnd rest)))

/- Go on to the line with a number; the next number has to fit too. -/
def countLine
    (number : Nat) : Except ReadError Unit :=
  match countUp 0x80000000 number with
  | .ok _ => .ok ()
  | .error fault => .error (.fault fault)

/- The fact on a line with its number, if it has one. -/
def readNumbered
    (numbered : List UInt8 × Nat) : Except ReadError (Option Fact) := do
  countLine numbered.2
  readLine numbered.2 numbered.1

/-
  The facts of lines that are numbered from a given one. The
  end of the input is counted as a line too.
-/
def readLines
    (lines : List (List UInt8))
    (number : Nat) : Except ReadError (List Fact) := do
  let facts ← (lines.zipIdx number).mapM readNumbered
  countLine (number + lines.length)
  return facts.reduceOption

/- The facts in a text, in order. -/
def readFacts
    (bytes : ByteArray) : Except ReadError (List Fact) :=
  readLines (splitLines bytes.data.toList) 1

end ParitySolver
