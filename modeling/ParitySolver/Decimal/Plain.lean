import ParitySolver.Decimal.Shortest

/-
  This file writes floating-point numbers in plain decimal
  notation: the shortest digits that read back, and never an
  exponent.

  Key definitions include:
    * `Decimal.plain`
    * `plainText`
-/

namespace ParitySolver

/-
  A decimal without an exponent. A fraction is written only
  when there is one, and a zero stands before a bare point.
-/
def Decimal.plain
    (d : Decimal) : String :=
  let digits := Nat.toDigits 10 d.digits
  let places := (-d.exponent).toNat
  if places = 0 then
    String.ofList (digits ++ List.replicate d.exponent.toNat '0')
  else
    let padded := List.replicate (places + 1 - digits.length) '0' ++ digits
    let whole := padded.length - places
    String.ofList (padded.take whole ++ '.' :: padded.drop whole)

/-
  A number in plain notation. Zero keeps its sign, and what
  is not a number or not finite has a name.
-/
def plainText
    (x : Float) : String :=
  if x.isNaN then
    "NaN"
  else
    let sign := if x.toBits < 0x8000000000000000 then "" else "-"
    if x.isInf then
      sign ++ "inf"
    else
      match Binary.ofBits? x.toBits with
      | none => sign ++ "0"
      | some b => sign ++ b.shortest.plain

end ParitySolver
