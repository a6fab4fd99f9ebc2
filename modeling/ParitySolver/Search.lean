import ParitySolver.Fact.Reader
import ParitySolver.Pairing

/-
  This file defines the search for a model. Variables are
  decided in ascending order, and false is tried first. After
  a conflict the last decision that was not flipped before is
  flipped. So the first total assignment that is found is the
  least one that satisfies the constraints.

  Key definitions include:
    * `Search`
    * `Search.flip`
    * `Search.advance`
    * `Search.run`
    * `Solution`
    * `Store.solve`
    * `storeOfFacts`
-/

namespace ParitySolver

------------------------------------------------------------
-- Searches
------------------------------------------------------------

/-
  The state of a search. `flipped` says of each decision, the
  last one first, whether its other value was tried before.
  Notes are kept, the last one first, if they reach the
  threshold.
-/
structure Search where
  pairing : Pairing
  flipped : List Bool
  decisions : Nat
  conflicts : Nat
  threshold? : Option Severity
  notes : List Note

/- The answer of a search: a model, one literal for each variable, if any. -/
structure Solution where
  model? : Option (List Literal)
  decisions : Nat
  conflicts : Nat
  notes : List Note

namespace Search

/- Keep notes that reach the threshold. -/
def record
    (s : Search)
    (notes : List Note) : Search :=
  { s with notes := (Note.shown s.threshold? notes).reverse ++ s.notes }

/- The end of the search. -/
def finish
    (s : Search)
    (model? : Option (List Literal)) : Solution :=
  ⟨model?, s.decisions, s.conflicts, s.notes.reverse⟩

/- The notes of a search about a verdict at a level. -/
def verdictNotes
    (level : Nat) : Verdict → List Note
  | .nothing => []
  | .forced ps => ps.map fun p => .assigned p.literal p.reason
  | .conflict reason => [.conflictAt level reason]

/- The notes about a round: the engine's, and then the search's. -/
def roundNotes
    (level : Nat)
    (r : Round) : List Note :=
  r.notes ++
    match r.verdict? with
    | some verdict => verdictNotes level verdict
    | none => []

/- Go on after a drain, and tell whether it ended in a conflict. -/
def settled
    (s : Search)
    (d : Drain) : Except Fault (Search × Bool) := do
  d.outcome
  let level := d.pairing.stack.level
  let s := s.record (d.rounds.flatMap (roundNotes level))
  return ({ s with pairing := d.pairing }, d.isConflict)

/- Decide a literal, and find what follows. -/
def decide
    (s : Search)
    (l : Literal)
    (flipped : Bool) : Except Fault (Search × Bool) := do
  let stack ← s.pairing.stack.assign l .decision
  let pairing := { s.pairing with stack }
  let s := { s with pairing, flipped := flipped :: s.flipped }
  s.settled (pairing.follow .held l)

------------------------------------------------------------
-- Flipping
------------------------------------------------------------

/- Leave the level above a given one, and return its decision. -/
def leaveLevel
    (s : Search)
    (below : Nat) : Except Fault (Search × Literal) := do
  let stack := s.pairing.stack
  let (first, _) ← stack.levelRange (below + 1)
  let decision ← stack.literalAt first
  let stack ← stack.backjump below
  let reply := s.pairing.engine.undo below
  reply.outcome
  let s := s.record reply.notes
  return ({ s with pairing := ⟨reply.engine, stack⟩, flipped := s.flipped.tail }, decision)

/-
  Go down from a level to the last decision that was not
  flipped, and return its complement, if there is one.
-/
def flip
    (s : Search) : Nat → Except Fault (Search × Option Literal)
  | 0 => .ok (s, none)
  | below + 1 => do
      let wasFlipped := s.flipped.head?.getD true
      let (s, decision) ← s.leaveLevel below
      if wasFlipped then
        s.flip below
      else
        return (s.record [.flipped decision (below + 1)], some decision.negate)

------------------------------------------------------------
-- The search
------------------------------------------------------------

/- The lowest variable without a value. -/
def lowestOpen?
    (s : Search) : Option Nat :=
  (List.range s.pairing.stack.numVariables).find? fun i => (s.pairing.stack.value i).isNone

/- The phases of all variables, as literals. -/
def phases
    (s : Search) : Except Fault (List Literal) :=
  (List.range s.pairing.stack.numVariables).mapM fun i =>
    (s.pairing.stack.phase i).map (Literal.mk i)

/- A total assignment is a model if it passes the engine's check. -/
def acceptModel
    (s : Search) : Except Fault Solution := do
  let (notes, outcome) := s.pairing.engine.check s.pairing.stack.host
  require ((← outcome) = .ok) .modelRejected
  return (s.record notes).finish (some (← s.phases))

/- Where a search stands after one round. -/
inductive Progress where
  | finished (solution : Solution)
  | going (s : Search) (conflict : Bool)

/- After a conflict, flip a decision. -/
def retreat
    (s : Search) : Except Fault Progress := do
  let s := { s with conflicts := s.conflicts + 1 }
  match ← s.flip s.pairing.stack.level with
  | (s, none) => return .finished (s.finish none)
  | (s, some l) => do
      let (s, conflict) ← s.decide l true
      return .going s conflict

/- Without a conflict, decide the lowest open variable. -/
def extend
    (s : Search) : Except Fault Progress := do
  match s.lowestOpen? with
  | none => return .finished (← s.acceptModel)
  | some i => do
      let (s, conflict) ← { s with decisions := s.decisions + 1 }.decide ⟨i, false⟩ false
      return .going s conflict

/- One round of the search. -/
def advance
    (s : Search)
    (conflict : Bool) : Except Fault Progress :=
  if conflict then s.retreat else s.extend

/- Go on for at most a number of rounds. -/
def run : Nat → Search → Bool → Except Fault Solution
  | 0, _, _ => .error .outOfFuel
  | fuel + 1, s, conflict => do
      match ← s.advance conflict with
      | .finished solution => return solution
      | .going s conflict => run fuel s conflict

/-
  A search decides and flips each node of a binary tree at
  most once, and the tree is at most as deep as there are
  variables.
-/
def roundLimit
    (numVariables : Nat) : Nat :=
  Nat.pow 2 (numVariables + 2)

end Search

------------------------------------------------------------
-- Solving
------------------------------------------------------------

/- Search for the least model of a store. -/
def Store.solve
    (store : Store)
    (config : Config)
    (threshold? : Option Severity) : Except Fault Solution := do
  let engine ← Engine.ofStore store config
  let pairing : Pairing := ⟨engine, DecisionStack.withVariables store.numVariables⟩
  let s : Search := ⟨pairing, [], 0, 0, threshold?, []⟩
  let s := s.record (Engine.setupNotes store config)
  let (s, conflict) ← s.settled (pairing.start .held)
  Search.run (Search.roundLimit store.numVariables) s conflict

/- The store of facts over the variables that they mention. -/
def storeOfFacts
    (facts : List Fact) : Except SetupError Store :=
  Store.ofFacts (facts.map Fact.literal) (facts.map Fact.toParityFact)

/- A literal as a number that counts variables from one. -/
def Literal.toNumber
    (l : Literal) : Int :=
  if l.value then (l.index : Int) + 1 else -((l.index : Int) + 1)

end ParitySolver
