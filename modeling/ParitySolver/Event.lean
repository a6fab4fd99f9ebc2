import ParitySolver.BitSet
import ParitySolver.Store
import ParitySolver.Trail

/-
  This file defines the events that theories report: forced
  literals and conflicts, each with the constraints whose sum
  shows it, and the reason that such a sum gives.

  Key definitions include:
    * `Origin`
    * `Origin.combine`
    * `Event`
    * `Origin.explain`
-/

namespace ParitySolver

------------------------------------------------------------
-- Origins
------------------------------------------------------------

/- The constraints, by position, whose sum shows an event. -/
inductive Origin where
  | constraint (position : Nat)
  | combination (positions : BitSet)
deriving DecidableEq

namespace Origin

/- The positions, ascending. -/
def positions : Origin → List Nat
  | .constraint position => [position]
  | .combination positions => positions.ones

/- The sum of two origins: what occurs in both cancels. -/
def combine
    (o p : Origin)
    (numConstraints : Nat) : Except Fault Origin :=
  ((o.positions ++ p.positions).foldlM BitSet.toggle (BitSet.zero numConstraints)).map
    Origin.combination

end Origin

------------------------------------------------------------
-- Events
------------------------------------------------------------

/- A consequence of the constraints and the trail. -/
inductive Event where
  | propagation (l : Literal) (origin : Origin)
  | conflict (origin : Origin)
deriving DecidableEq

------------------------------------------------------------
-- Reasons
------------------------------------------------------------

namespace Origin

/- The variables of the sum of the constraints of an origin. -/
def vars
    (store : Store)
    (o : Origin) : Except Fault IndexSet :=
  o.positions.foldlM
    (fun set position => do
      let c ← Table.get store.constraints position
      return set.toggleAll c.vars)
    IndexSet.empty

/- A variable of the trail as the literal that it holds. -/
def held
    (trail : Trail)
    (v : Nat) : Except Fault Literal := do
  match ← trail.read v with
  | some b => return ⟨v, b⟩
  | none => throw (.reasonUnassigned v)

/-
  The reason of an event: the variables of the sum with their
  values on the trail, ascending. A forced variable occurs in
  the sum and is left out.
-/
def explain
    (store : Store)
    (trail : Trail)
    (o : Origin)
    (forced? : Option Nat) : Except Fault (List Literal) := do
  let set ← o.vars store
  let rest ←
    match forced? with
    | none => pure set
    | some v => do
        let (rest, found) := set.erase v
        require found (.unexplained v)
        pure rest
  rest.sorted.mapM (held trail)

end Origin

end ParitySolver
