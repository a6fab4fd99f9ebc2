import ParitySolver.Literal

/-
  This file defines the answers of an engine: what follows
  from the constraints and the literals it has taken in.

  Key definitions include:
    * `Propagation`
    * `Verdict`
    * `CheckVerdict`
    * `EngineState`
-/

namespace ParitySolver

/- A forced literal, and the literals that force it, ascending. -/
structure Propagation where
  literal : Literal
  reason : List Literal
deriving DecidableEq, Repr, Inhabited

/- The answer to a propagated literal. -/
inductive Verdict where
  /- Nothing new follows. -/
  | nothing
  /- These literals follow. -/
  | forced (propagations : List Propagation)
  /- The constraints contradict these literals. -/
  | conflict (reason : List Literal)
deriving DecidableEq, Repr, Inhabited

/- The answer to a check of the host's assignment. -/
inductive CheckVerdict where
  | ok
  | conflict (reason : List Literal)
deriving DecidableEq, Repr, Inhabited

/- Is the engine free, or waiting for a conflict to be undone? -/
inductive EngineState where
  | ready
  | conflicted (level : Nat)
deriving DecidableEq, Repr, Inhabited

/- How a propagation is shown. -/
def Propagation.text
    (p : Propagation) : String :=
  "Propagation \x7b literal: " ++ p.literal.text ++ ", reason: " ++
    Literal.listText p.reason ++ " \x7d"

/- A bracketed, comma-separated list of propagations. -/
def Propagation.listText
    (ps : List Propagation) : String :=
  "[" ++ ", ".intercalate (ps.map Propagation.text) ++ "]"

end ParitySolver
