import ParitySolver.Host
import ParitySolver.Table

/-
  This file defines the decision stack, a host for engines:
  a stack of assignments, divided into levels by decisions.
  A variable that loses its value keeps its phase, the value
  that it had last.

  Key definitions include:
    * `Reason`
    * `DecisionStack`
    * `DecisionStack.assign`
    * `DecisionStack.backjump`
    * `DecisionStack.levelRange`
    * `DecisionStack.host`
-/

namespace ParitySolver

------------------------------------------------------------
-- Stacks
------------------------------------------------------------

/- Why a variable was assigned. -/
inductive Reason (κ : Type) where
  /- By choice. -/
  | decision
  /- As a consequence, explained under a key. -/
  | propagation (key : κ)
deriving DecidableEq, Repr

/- Is the reason a decision? -/
def Reason.isDecision {κ : Type} : Reason κ → Bool
  | .decision => true
  | .propagation _ => false

/- The phase of a variable and the position of its assignment. -/
structure VariableState where
  phase : Bool
  order : Option Nat
deriving DecidableEq, Repr, Inhabited

/- An assignment on the stack. -/
structure StackEntry (κ : Type) where
  index : Nat
  level : Nat
  reason : Reason κ
deriving DecidableEq, Repr

/-
  A stack of assignments. `decisions` holds the positions of
  the decisions on it.
-/
structure DecisionStack (κ : Type) where
  vars : Array VariableState
  entries : Array (StackEntry κ)
  decisions : Array Nat
deriving DecidableEq, Repr

namespace DecisionStack

variable {κ : Type}

/- The stack without variables. -/
def empty : DecisionStack κ :=
  ⟨#[], #[], #[]⟩

/- A new variable without a value. -/
def addVariable
    (s : DecisionStack κ)
    (phase : Bool) : DecisionStack κ :=
  { s with vars := s.vars.push ⟨phase, none⟩ }

/- A stack with a number of variables of phase false. -/
def withVariables
    (n : Nat) : DecisionStack κ :=
  ⟨Array.replicate n ⟨false, none⟩, #[], #[]⟩

/- The number of variables. -/
def numVariables
    (s : DecisionStack κ) : Nat :=
  s.vars.size

/- The decision level: the number of decisions. -/
def level
    (s : DecisionStack κ) : Nat :=
  s.decisions.size

/- The value of a variable, if it has one. -/
def value
    (s : DecisionStack κ)
    (i : Nat) : Option Bool :=
  match s.vars[i]? with
  | some ⟨phase, some _⟩ => some phase
  | _ => none

/- What engines see of the stack. -/
def host
    (s : DecisionStack κ) : Host :=
  ⟨s.numVariables, s.level, s.value⟩

/- The phase of a variable. -/
def phase
    (s : DecisionStack κ)
    (i : Nat) : Except Fault Bool :=
  (Table.get s.vars i).map VariableState.phase

/- The literal that was assigned at a position. -/
def literalAt
    (s : DecisionStack κ)
    (order : Nat) : Except Fault Literal := do
  let entry ← Table.get s.entries order
  let state ← Table.get s.vars entry.index
  require (state.order == some order) (.outOfRange order s.entries.size)
  return ⟨entry.index, state.phase⟩

/- Why a variable has its value, if it has one. -/
def reasonOf
    (s : DecisionStack κ)
    (i : Nat) : Except Fault (Option (Reason κ)) := do
  match (← Table.get s.vars i).order with
  | none => return none
  | some order => return some (← Table.get s.entries order).reason

/-
  The positions of the assignments of a level, from the
  first up to the end.
-/
def levelRange
    (s : DecisionStack κ)
    (level : Nat) : Except Fault (Nat × Nat) := do
  let first ←
    match level with
    | 0 => pure 0
    | below + 1 => Table.get s.decisions below
  return (first, s.decisions.getD level s.entries.size)

/- The literals on the stack, oldest first. -/
def literals
    (s : DecisionStack κ) : Except Fault (List Literal) :=
  (List.range s.entries.size).mapM s.literalAt

------------------------------------------------------------
-- Assigning and going back
------------------------------------------------------------

/- Assign a variable that has no value. -/
def assign
    (s : DecisionStack κ)
    (l : Literal)
    (reason : Reason κ) : Except Fault (DecisionStack κ) := do
  let state ← Table.get s.vars l.index
  require state.order.isNone (.alreadyAssigned l)
  let order := s.entries.size
  let decisions := if reason.isDecision then s.decisions.push order else s.decisions
  return {
    vars := s.vars.setIfInBounds l.index ⟨l.value, some order⟩
    entries := s.entries.push ⟨l.index, decisions.size, reason⟩
    decisions }

/- Take the newest assignment off the stack. -/
def pop
    (s : DecisionStack κ) : Except Fault (DecisionStack κ) := do
  let some entry := s.entries.back?
    | throw .nothingToUndo
  require (entry.level == s.level) .nothingToUndo
  let entries := s.entries.pop
  let decisions ←
    if entry.reason.isDecision then do
      require (s.decisions.back? == some entries.size) .nothingToUndo
      pure s.decisions.pop
    else
      pure s.decisions
  let vars ← Table.modify s.vars entry.index fun state => { state with order := none }
  return ⟨vars, entries, decisions⟩

/- Take assignments off the stack while it is above a level. -/
def popAbove
    (level : Nat) : Nat → DecisionStack κ → Except Fault (DecisionStack κ)
  | 0, s => require (s.level ≤ level) .nothingToUndo *> .ok s
  | fuel + 1, s =>
      if s.level ≤ level then
        .ok s
      else do
        popAbove level fuel (← s.pop)

/- Go back to a level, and stay where one is if it is not below. -/
def backjump
    (s : DecisionStack κ)
    (level : Nat) : Except Fault (DecisionStack κ) :=
  popAbove level s.entries.size s

end DecisionStack

end ParitySolver
