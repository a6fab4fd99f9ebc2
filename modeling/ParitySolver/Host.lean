import ParitySolver.Constraint
import ParitySolver.Fault

/-
  This file defines what an engine sees of its host: the
  number of its variables, its decision level, and a partial
  assignment.

  Key definitions include:
    * `Host`
    * `Host.read`
    * `Host.isTrue`
    * `Host.isFalse`
    * `Host.satisfied?`
-/

namespace ParitySolver

/- A host has values for variables below `size` only. -/
structure Host where
  size : Nat
  level : Nat
  value : Nat → Option Bool

namespace Host

/- The value of a variable that the host has to know. -/
def read
    (h : Host)
    (i : Nat) : Except Fault (Option Bool) :=
  if i < h.size then .ok (h.value i) else .error (.outOfRange i h.size)

/- Does the host hold the literal? -/
def isTrue
    (h : Host)
    (l : Literal) : Except Fault Bool :=
  (h.read l.index).map (· == some l.value)

/- Does the host hold the complement of the literal? -/
def isFalse
    (h : Host)
    (l : Literal) : Except Fault Bool :=
  (h.read l.index).map (· == some !l.value)

/-
  The number of true literals, unless one has no value. No
  literal after the first one without a value is looked at.
-/
def countTrue?
    (h : Host) : List Literal → Except Fault (Option Nat)
  | [] => .ok (some 0)
  | l :: ls => do
      match ← h.read l.index with
      | none => return none
      | some b =>
          let rest ← h.countTrue? ls
          return rest.map fun n => if b = l.value then n + 1 else n

/- Does a constraint hold in the host, as far as one can tell? -/
def satisfied?
    (h : Host)
    (c : Constraint) : Except Fault (Option Bool) := do
  let count ← h.countTrue? c.literals
  return count.map fun n => (n % 2 == 1) == c.parity.bit

end Host

end ParitySolver
