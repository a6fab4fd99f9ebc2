/-
  This file defines literals: a variable, named by its
  index, together with the truth value that the literal
  gives it.

  Key definitions include:
    * `Literal`
    * `Literal.indexLimit`
    * `Literal.negate`
    * `Literal.text`
    * `Literal.listText`
-/

namespace ParitySolver

------------------------------------------------------------
-- Literals
------------------------------------------------------------

/-
  The literal `⟨i, true⟩` says that variable `i` is true,
  and `⟨i, false⟩` says that it is false.
-/
structure Literal where
  index : Nat
  value : Bool
deriving DecidableEq, Repr, Inhabited

namespace Literal

/-
  A literal and its polarity share one 64-bit word, so an
  index has 63 bits.
-/
def indexLimit : Nat :=
  0x8000000000000000

/- The literal of the same variable with the other value. -/
def negate
    (l : Literal) : Literal :=
  ⟨l.index, !l.value⟩

@[simp]
theorem negate_index
    (l : Literal) :
    l.negate.index = l.index :=
  rfl

@[simp]
theorem negate_value
    (l : Literal) :
    l.negate.value = !l.value :=
  rfl

/- Negating twice gives the literal back. -/
@[simp]
theorem negate_negate
    (l : Literal) :
    l.negate.negate = l := by
  simp [negate]

/- `l_3` for a positive literal, `!l_3` for a negative one. -/
def text
    (l : Literal) : String :=
  (if l.value then "l_" else "!l_") ++ toString l.index

/- A bracketed, comma-separated list of literals. -/
def listText
    (ls : List Literal) : String :=
  "[" ++ ", ".intercalate (ls.map text) ++ "]"

end Literal

/- How a truth value is written on its own. -/
def valueText
    (b : Bool) : String :=
  if b then "TRUE" else "FALSE"

end ParitySolver
