import ParitySolver.Config
import ParitySolver.Constraint
import ParitySolver.IndexSet

/-
  This file defines the constraint store: constraints in the
  form in which they were given and in normal form, with the
  tables that find the constraints of a variable.

  In normal form a constraint is a sum of distinct variables
  modulo two. A negative literal is its variable plus one, so
  it flips the right-hand side, and a variable that occurs an
  even number of times cancels.

  Key definitions include:
    * `Universe`
    * `Universe.collect`
    * `StoredConstraint`
    * `StoredConstraint.normalize`
    * `Store`
    * `Store.ofConstraints`
    * `Store.ofFacts`
    * `Store.constraintsOf`
    * `Store.columnOf?`
-/

namespace ParitySolver

------------------------------------------------------------
-- Universes
------------------------------------------------------------

/- One more than the largest index in a list of literals. -/
def boundOf
    (ls : List Literal) : Nat :=
  ls.foldl (fun n l => max n (l.index + 1)) 0

/- The variables that may occur in constraints. -/
structure Universe where
  declared : Array Bool
deriving DecidableEq, Repr

namespace Universe

/- The variables of a list of literals. -/
def ofLiterals
    (ls : List Literal) : Universe :=
  ⟨ls.foldl
    (fun table l => table.setIfInBounds l.index true)
    (Array.replicate (boundOf ls) false)⟩

/- Is the variable declared? -/
def contains
    (u : Universe)
    (i : Nat) : Bool :=
  u.declared.getD i false

/- One more than the largest declared index. -/
def bound
    (u : Universe) : Nat :=
  u.declared.size

/-
  Collect the variables of a list of literals. A variable for
  which there can be no table ends the set-up.
-/
def collect
    (ls : List Literal) : Except SetupError Universe := do
  ls.forM fun l => (IndexSet.requireRoom l.index).mapError .fault
  return ofLiterals ls

end Universe

------------------------------------------------------------
-- Stored constraints
------------------------------------------------------------

/-
  A constraint as it was given, and its normal form: the sum
  of `vars`, which ascend, is `rhs` modulo two.
-/
structure StoredConstraint where
  id : Nat
  literals : List Literal
  parity : Parity
  vars : List Nat
  rhs : Bool
deriving DecidableEq, Repr, Inhabited

namespace StoredConstraint

/- The constraint as it was given. -/
def given
    (c : StoredConstraint) : Constraint :=
  ⟨c.literals, c.parity⟩

/- The variables that occur an odd number of times, ascending. -/
def oddVariables
    (ls : List Literal) : List Nat :=
  (IndexSet.empty.toggleAll (ls.map Literal.index)).sorted

/- The parity, flipped once for each negative literal. -/
def flippedParity
    (parity : Parity)
    (ls : List Literal) : Bool :=
  ls.foldl (fun b l => if l.value then b else !b) parity.bit

/-
  Store a constraint under a name. It must have a literal,
  and its variables must be declared.
-/
def normalize
    (u : Universe)
    (id : Nat)
    (c : Constraint) : Except SetupError StoredConstraint :=
  if c.literals.isEmpty then
    .error (.malformed id .noLiterals)
  else
    match c.literals.find? fun l => !u.contains l.index with
    | some l => .error (.malformed id (.undeclared l))
    | none =>
        .ok {
          id
          literals := c.literals
          parity := c.parity
          vars := oddVariables c.literals
          rhs := flippedParity c.parity c.literals }

/- The name, the literals as a sum, and the parity. -/
def text
    (c : StoredConstraint) : String :=
  "#" ++ toString c.id ++ ": " ++ " + ".intercalate (c.literals.map Literal.text) ++
    " = " ++ c.parity.text

end StoredConstraint

------------------------------------------------------------
-- Stores
------------------------------------------------------------

/-
  Stored constraints with their index. A variable is relevant
  if it occurs in a normal form, and the relevant variables
  are numbered in ascending order; their numbers are the
  columns.
-/
structure Store where
  numVariables : Nat
  constraints : Array StoredConstraint
  occurrences : Array (List Nat)
  columnTable : Array (Option Nat)
  variableTable : Array Nat
deriving DecidableEq, Repr, Inhabited

namespace Store

/- For each variable the positions of its constraints, ascending. -/
def occurrenceTable
    (numVariables : Nat)
    (cs : List StoredConstraint) : Array (List Nat) :=
  cs.zipIdx.foldr
    (fun (c, position) table =>
      c.vars.foldl (fun table v => table.modify v (position :: ·)) table)
    (Array.replicate numVariables [])

/- The variables that occur somewhere, ascending. -/
def relevantVariables
    (occurrences : Array (List Nat)) : List Nat :=
  (List.range occurrences.size).filter fun v => !(occurrences.getD v []).isEmpty

/- The number of each variable of an ascending list. -/
def numbering
    (numVariables : Nat)
    (vs : List Nat) : Array (Option Nat) :=
  vs.zipIdx.foldl
    (fun table (v, column) => table.setIfInBounds v (some column))
    (Array.replicate numVariables none)

/- Build the index of a list of stored constraints. -/
def build
    (numVariables : Nat)
    (cs : List StoredConstraint) : Store :=
  let occurrences := occurrenceTable numVariables cs
  let relevant := relevantVariables occurrences
  { numVariables
    constraints := cs.toArray
    occurrences
    columnTable := numbering numVariables relevant
    variableTable := relevant.toArray }

/-
  Store named constraints over a universe in the order given.
  The largest table of the index has a 24-byte entry for each
  variable.
-/
def ofCollected
    (u : Universe)
    (cs : List (Nat × Constraint)) : Except SetupError Store := do
  let stored ← cs.mapM fun (id, c) => StoredConstraint.normalize u id c
  (Table.requireRoom 24 u.bound).mapError .fault
  return build u.bound stored

/- Store named constraints in the order given. -/
def ofNamed
    (declared : List Literal)
    (cs : List (Nat × Constraint)) : Except SetupError Store := do
  ofCollected (← Universe.collect declared) cs

/- Store constraints, named by their positions. -/
def ofConstraints
    (declared : List Literal)
    (cs : List Constraint) : Except SetupError Store :=
  ofNamed declared (cs.zipIdx.map fun (c, position) => (position, c))

------------------------------------------------------------
-- Constraints from facts
------------------------------------------------------------

/-
  Add a fact to constraints that ascend by name. The parity
  has to be that of the earlier facts of the constraint.
-/
def addFact
    (f : ParityFact) : List (Nat × Constraint) → Except SetupError (List (Nat × Constraint))
  | [] => .ok [(f.id, ⟨[f.literal], f.parity⟩)]
  | (id, c) :: groups =>
      if f.id < id then
        .ok ((f.id, ⟨[f.literal], f.parity⟩) :: (id, c) :: groups)
      else if f.id = id then
        if c.parity = f.parity then
          .ok ((id, { c with literals := c.literals ++ [f.literal] }) :: groups)
        else
          .error (.malformed f.id .parityDisagreement)
      else
        (addFact f groups).map ((id, c) :: ·)

/- The constraints that a list of facts describes, ascending by name. -/
def groupFacts
    (facts : List ParityFact) : Except SetupError (List (Nat × Constraint)) :=
  facts.foldlM (fun groups f => addFact f groups) []

/- Store the constraints that a list of facts describes. -/
def ofFacts
    (declared : List Literal)
    (facts : List ParityFact) : Except SetupError Store := do
  let u ← Universe.collect declared
  ofCollected u (← groupFacts facts)

------------------------------------------------------------
-- Queries
------------------------------------------------------------

/- The number of constraints. -/
def size
    (s : Store) : Nat :=
  s.constraints.size

/- The positions of the constraints of a variable, ascending. -/
def constraintsOf
    (s : Store)
    (v : Nat) : List Nat :=
  s.occurrences.getD v []

/- The column of a variable, if it is relevant. -/
def columnOf?
    (s : Store)
    (v : Nat) : Option Nat :=
  s.columnTable.getD v none

/- Does the variable occur in a normal form? -/
def isRelevant
    (s : Store)
    (v : Nat) : Bool :=
  (s.columnOf? v).isSome

/- The number of relevant variables. -/
def numColumns
    (s : Store) : Nat :=
  s.variableTable.size

/- One line for each constraint. -/
def text
    (s : Store) : String :=
  String.join (s.constraints.toList.map fun c => c.text ++ "\n")

end Store

end ParitySolver
