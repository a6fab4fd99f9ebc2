import ParitySolver.Literal

/-
  This file defines parity constraints: a list of literals
  and the parity that the number of true ones among them has
  to have.

  Key definitions include:
    * `Parity`
    * `Constraint`
    * `Constraint.satisfied?`
    * `ParityFact`
-/

namespace ParitySolver

------------------------------------------------------------
-- Parities
------------------------------------------------------------

/- The two residues of a count modulo two. -/
inductive Parity where
  | even
  | odd
deriving DecidableEq, Repr, Inhabited

namespace Parity

/- The residue as a bit. -/
def bit : Parity → Bool
  | .even => false
  | .odd => true

/- The parity with a given residue. -/
def ofBit
    (b : Bool) : Parity :=
  if b then .odd else .even

@[simp]
theorem bit_ofBit
    (b : Bool) :
    (ofBit b).bit = b := by
  cases b <;> rfl

@[simp]
theorem ofBit_bit
    (p : Parity) :
    ofBit p.bit = p := by
  cases p <;> rfl

/- The other parity. -/
def opposite
    (p : Parity) : Parity :=
  ofBit !p.bit

/- How a parity is written. -/
def text : Parity → String
  | .even => "even"
  | .odd => "odd"

end Parity

------------------------------------------------------------
-- Constraints
------------------------------------------------------------

/-
  The number of true literals, counted with repetitions, has
  the given parity.
-/
structure Constraint where
  literals : List Literal
  parity : Parity
deriving DecidableEq, Repr, Inhabited

/-
  The number of true literals under a partial assignment,
  unless one of them has no value. It stands for a count in a
  32-bit word with a sign, so it is meant for lists of fewer
  than 2147483648 literals.
-/
def countTrue?
    (value : Nat → Option Bool) : List Literal → Option Nat
  | [] => some 0
  | l :: ls =>
      match value l.index, countTrue? value ls with
      | some b, some n => some (if b = l.value then n + 1 else n)
      | _, _ => none

namespace Constraint

/-
  Does the constraint hold under a partial assignment? There
  is no answer while a literal has no value.
-/
def satisfied?
    (c : Constraint)
    (value : Nat → Option Bool) : Option Bool :=
  (countTrue? value c.literals).map fun n => (n % 2 == 1) == c.parity.bit

end Constraint

------------------------------------------------------------
-- Facts
------------------------------------------------------------

/- One literal of the constraint with a given name. -/
structure ParityFact where
  id : Nat
  parity : Parity
  literal : Literal
deriving DecidableEq, Repr, Inhabited

end ParitySolver
