import ParitySolver.Literal

/-
  This file defines the faults: the ways in which a call can
  break the contract of the operation it calls, or an
  operation can find its own tables in disagreement.

  A fault ends the call that meets it. Five faults concern
  what a host does and have a text for its user, and so has
  a table that would be too large; the others have none.

  Key definitions include:
    * `Fault`
    * `Fault.message?`
    * `require`
    * `countUp`
    * `Literal.make`
-/

namespace ParitySolver

------------------------------------------------------------
-- Faults
------------------------------------------------------------

/- Why a call was given up. -/
inductive Fault where
  /- A host assigns a variable that has a value. -/
  | alreadyAssigned (l : Literal)
  /- A literal is propagated before the conflict is undone. -/
  | engineConflicted
  /- A literal is propagated that the host does not hold. -/
  | notHeldByHost (l : Literal)
  /- The host went back without telling the engine. -/
  | undoMissing (level : Nat)
  /- The engine is asked to go back to a level above all it saw. -/
  | levelNeverReached (level highest : Nat)
  /- Root propagation is asked for after other work. -/
  | notAtRoot
  /- The complement of a literal on the trail is propagated. -/
  | trailContradicted (l : Literal)
  /- A literal's index does not fit. -/
  | indexTooLarge (index : Nat)
  /- One more than a number does not fit in its word. -/
  | overflow (number : Nat)
  /- There can be no table of a size. -/
  | capacityOverflow (size : Nat)
  /- A position is beyond the end of its table. -/
  | outOfRange (position size : Nat)
  /- An index does not stand where the table of positions says. -/
  | positionMismatch (index : Nat)
  /- Two bit sets of different lengths are combined. -/
  | lengthMismatch (left right : Nat)
  /- A row is added to itself. -/
  | selfAddition (row : Nat)
  /- The pivot tables disagree about a column. -/
  | pivotMismatch (row column : Nat)
  /- A column is put back into a row that has it. -/
  | columnPresent (row column : Nat)
  /- A pivot column is missing from its row. -/
  | columnAbsent (row column : Nat)
  /- A matrix is not reduced after elimination. -/
  | notReduced
  /- Events are read off a matrix without provenance. -/
  | provenanceUntracked
  /- The watch lists disagree with the rows. -/
  | watchMismatch (row : Nat)
  /- A step is taken back that was never made. -/
  | nothingToUndo
  /- A constraint has fewer open variables than were assigned. -/
  | countUnderflow (row : Nat)
  /- The assigned variable occurs in no constraint. -/
  | irrelevantVariable (index : Nat)
  /- A forced variable does not occur in its own explanation. -/
  | unexplained (index : Nat)
  /- A reason mentions a variable without a value. -/
  | reasonUnassigned (index : Nat)
  /- A variable is forced or taken in that is on the trail. -/
  | onTrail (l : Literal)
  /- A literal is taken in at a level below that of the newest one. -/
  | levelBelowTrail (level : Nat)
  /- A reason is handed over that the host does not hold. -/
  | reasonNotHeld
  /- A total assignment fails the final check. -/
  | modelRejected
  /- A search used up its bound on the number of rounds. -/
  | outOfFuel
deriving DecidableEq, Repr, Inhabited

namespace Fault

/- The text of a fault that has one. -/
def message? : Fault → Option String
  | .alreadyAssigned l =>
      some (l.text ++ " is already assigned")
  | .engineConflicted =>
      some "propagate on a conflicted engine"
  | .notHeldByHost l =>
      some (l.text ++ " is not assigned by the host")
  | .undoMissing level =>
      some ("undo to level " ++ toString level ++ " is missing")
  | .levelNeverReached level highest =>
      some ("undo to level " ++ toString level ++
        " never reached (highest level " ++ toString highest ++ ")")
  | .capacityOverflow _ =>
      some "capacity overflow"
  | _ => none

end Fault

/- Go on if the condition holds, and stop with the fault if not. -/
def require
    (condition : Bool)
    (fault : Fault) : Except Fault Unit :=
  if condition then .ok () else .error fault

theorem require_of_true
    {condition : Bool}
    {fault : Fault}
    (hCondition : condition = true) :
    require condition fault = .ok () := by
  simp [require, hCondition]

theorem require_eq_ok_iff
    {condition : Bool}
    {fault : Fault} :
    require condition fault = .ok () ↔ condition = true := by
  cases condition <;> simp [require]

/- One more than a number, which has to stay below a limit. -/
def countUp
    (limit n : Nat) : Except Fault Nat :=
  if n + 1 < limit then .ok (n + 1) else .error (.overflow n)

theorem countUp_of_lt
    {limit n : Nat}
    (hLt : n + 1 < limit) :
    countUp limit n = .ok (n + 1) :=
  if_pos hLt

theorem countUp_of_le
    {limit n : Nat}
    (hLe : limit ≤ n + 1) :
    countUp limit n = .error (.overflow n) :=
  if_neg (Nat.not_lt.mpr hLe)

/- A literal whose index is known to fit. -/
def Literal.make
    (index : Nat)
    (value : Bool) : Except Fault Literal :=
  if index < Literal.indexLimit then
    .ok ⟨index, value⟩
  else
    .error (.indexTooLarge index)

end ParitySolver
