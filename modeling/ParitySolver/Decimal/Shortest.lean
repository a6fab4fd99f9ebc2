/-
  This file finds the shortest decimal that reads back as a
  given binary floating-point number.

  A positive number is `mantissa * 2 ^ exponent`. The reals
  that round to it form an interval around it. A grid of
  decimals has the multiples of one power of ten, and the
  finest power of ten that is tried has seventeen digits, at
  which every number has a neighbour inside its interval.

  Key definitions include:
    * `Binary`
    * `Binary.ofBits?`
    * `Decimal`
    * `Binary.shortest`
-/

namespace ParitySolver

------------------------------------------------------------
-- Binary numbers
------------------------------------------------------------

/-
  A positive number `mantissa * 2 ^ exponent` of the 64-bit
  format. Below the least number of a binade the spacing of
  numbers is halved, and `narrow` says that this is one.
-/
structure Binary where
  mantissa : Nat
  exponent : Int
  narrow : Bool
deriving DecidableEq, Repr

namespace Binary

/- A fraction has 52 bits. -/
def fractionLimit : Nat :=
  0x10000000000000

/- An exponent has eleven bits. -/
def binadeLimit : Nat :=
  0x800

/-
  The magnitude of a finite number from its 64 bits; zero has
  none.
-/
def ofBits?
    (bits : UInt64) : Option Binary :=
  let fraction : Nat := bits.toNat % fractionLimit
  let binade : Nat := bits.toNat / fractionLimit % binadeLimit
  if binade = 0 then
    if fraction = 0 then none else some ⟨fraction, -1074, false⟩
  else
    some ⟨fractionLimit + fraction, (binade : Int) - 1075, fraction = 0 && 1 < binade⟩

end Binary

------------------------------------------------------------
-- Decimals
------------------------------------------------------------

/- The number `digits * 10 ^ exponent`. -/
structure Decimal where
  digits : Nat
  exponent : Int
deriving DecidableEq, Repr

namespace Decimal

/- Drop zeros at the end of the digits, at most `fuel` of them. -/
def trim
    (d : Decimal) : Nat → Decimal
  | 0 => d
  | fuel + 1 =>
      if d.digits ≠ 0 && d.digits % 10 = 0 then
        trim ⟨d.digits / 10, d.exponent + 1⟩ fuel
      else
        d

end Decimal

------------------------------------------------------------
-- The nearest short decimal
------------------------------------------------------------

namespace Binary

/- A power of a base as numerator and denominator. -/
def ratio
    (base : Nat)
    (exponent : Int) : Nat × Nat :=
  (Nat.pow base exponent.toNat, Nat.pow base (-exponent).toNat)

/-
  The number of places that the number has before the decimal
  point, negative when zeros follow it: the least `e` with
  `x < 10 ^ e`. The search goes down from `10 ^ start`.
-/
def magnitude
    (x : Binary)
    (start : Int) : Nat → Int
  | 0 => start
  | fuel + 1 =>
      let (twoNum, twoDen) := ratio 2 x.exponent
      let (tenNum, tenDen) := ratio 10 (start - 1)
      if x.mantissa * twoNum * tenDen < tenNum * twoDen then
        magnitude x (start - 1) fuel
      else
        start

/-
  The decimal on one grid that reads back as the number and
  is nearest to it, the larger one of two that are equally
  near. Lengths are counted in quarters of the spacing.
-/
def onGrid?
    (x : Binary)
    (exponent : Int) : Option Decimal :=
  let (twoNum, twoDen) := ratio 2 (x.exponent - 2)
  let (tenNum, tenDen) := ratio 10 exponent
  let grid := tenNum * twoDen
  let quarter := twoNum * tenDen
  let middle := 4 * x.mantissa * quarter
  let low := (4 * x.mantissa - if x.narrow then 1 else 2) * quarter
  let high := (4 * x.mantissa + 2) * quarter
  let closed := x.mantissa % 2 = 0
  let below := middle / grid
  let above := below + 1
  let belowFits := 0 < below && (if closed then low ≤ below * grid else low < below * grid)
  let aboveFits := if closed then above * grid ≤ high else above * grid < high
  let belowNearer := middle - below * grid < above * grid - middle
  if belowFits && (belowNearer || !aboveFits) then
    some ⟨below, exponent⟩
  else if aboveFits then
    some ⟨above, exponent⟩
  else
    none

/- The first hit on grids with more and more digits. -/
def shortestFrom
    (x : Binary)
    (exponent : Int) : Nat → Decimal
  | 0 => ⟨0, 0⟩
  | fuel + 1 =>
      match x.onGrid? exponent with
      | some d => d.trim 400
      | none => x.shortestFrom (exponent - 1) fuel

/- The shortest decimal that reads back as the number. -/
def shortest
    (x : Binary) : Decimal :=
  x.shortestFrom (x.magnitude 310 640 - 1) 18

end Binary

end ParitySolver
