/-
  This file reads floating-point numbers from text: an
  optional sign, and then digits with an optional point and
  an optional exponent, or the name of a number that is not
  finite in letters of either case.

  Key definitions include:
    * `readFloat?`
-/

namespace ParitySolver

------------------------------------------------------------
-- Pieces of a number
------------------------------------------------------------

/- The number that a list of decimal digits denotes. -/
def digitsToNat
    (cs : List Char) : Nat :=
  cs.foldl (fun n c => 10 * n + (c.toNat - '0'.toNat)) 0

/- Cut off a sign, and tell whether it is a minus sign. -/
def splitSign : List Char → Bool × List Char
  | '-' :: cs => (true, cs)
  | '+' :: cs => (false, cs)
  | cs => (false, cs)

/-
  The number `digits * 10 ^ exponent`, rounded to the nearest
  one. Far outside of the range of exponents it is infinite
  or zero whatever the digits are.
-/
def roundDecimal
    (digits : Nat)
    (exponent : Int) : Float :=
  let length : Int := (Nat.toDigits 10 digits).length
  if digits = 0 then
    0.0
  else if 400 < exponent + length then
    1.0 / 0.0
  else if exponent + length < -400 then
    0.0
  else if exponent < 0 then
    Float.ofScientific digits true (-exponent).toNat
  else
    Float.ofScientific digits false exponent.toNat

/- An exponent: a sign and at least one digit, and then no more. -/
def readExponent?
    (cs : List Char) : Option Int :=
  let (negative, ds) := splitSign cs
  if ds.isEmpty || !ds.all Char.isDigit then
    none
  else if negative then
    some (-(digitsToNat ds : Int))
  else
    some (digitsToNat ds)

/- A number without its sign. -/
def readMagnitude?
    (cs : List Char) : Option Float :=
  let whole := cs.takeWhile Char.isDigit
  let afterWhole := cs.dropWhile Char.isDigit
  let (fraction, rest) :=
    match afterWhole with
    | '.' :: ds => (ds.takeWhile Char.isDigit, ds.dropWhile Char.isDigit)
    | ds => ([], ds)
  let digits := digitsToNat (whole ++ fraction)
  let shift : Int := -(fraction.length : Int)
  if whole.isEmpty && fraction.isEmpty then
    none
  else
    match rest with
    | [] => some (roundDecimal digits shift)
    | c :: ds =>
        if c = 'e' || c = 'E' then
          (readExponent? ds).map fun e => roundDecimal digits (shift + e)
        else
          none

/- The numbers that have a name. -/
def namedNumber?
    (cs : List Char) : Option Float :=
  let name := String.ofList (cs.map Char.toLower)
  if name = "inf" || name = "infinity" then
    some (1.0 / 0.0)
  else if name = "nan" then
    some (0.0 / 0.0)
  else
    none

/- Read a whole text as a number. -/
def readFloat?
    (text : String) : Option Float :=
  let (negative, cs) := splitSign text.toList
  let magnitude :=
    match namedNumber? cs with
    | some x => some x
    | none => readMagnitude? cs
  magnitude.map fun x => if negative then -x else x

end ParitySolver
