/-
  This file defines the propagation strategies and their
  names.

  Key definitions include:
    * `Strategy`
    * `Strategy.name`
    * `Strategy.ofName?`
    * `Strategy.usesElimination`

  Correctness is proven by:
    * `Strategy.ofName?_name`
-/

namespace ParitySolver

------------------------------------------------------------
-- Strategies
------------------------------------------------------------

/-
  How much work is put into finding consequences: counting
  finds violated constraints only, watching finds constraints
  with one open variable, and the other four also eliminate.
-/
inductive Strategy where
  /- Find constraints that have become false. -/
  | countCheck
  /- Find constraints with one open variable. -/
  | unitPropagation
  /- Eliminate when unit propagation has nothing left to do. -/
  | gjeFixpoint
  /- Eliminate from scratch at each assignment. -/
  | gjeReasoned
  /- Keep a reduced matrix up to date, lowest column first. -/
  | gjeIncremental
  /- Keep a reduced matrix up to date, least fill first. -/
  | gjeTableau
deriving DecidableEq, Repr

namespace Strategy

instance : Inhabited Strategy :=
  ⟨.unitPropagation⟩

/- All strategies, from the weakest to the strongest. -/
def all : List Strategy :=
  [.countCheck, .unitPropagation, .gjeFixpoint, .gjeReasoned, .gjeIncremental, .gjeTableau]

/- The name by which a strategy is chosen. -/
def name : Strategy → String
  | .countCheck => "count-check"
  | .unitPropagation => "unit"
  | .gjeFixpoint => "gje-fixpoint"
  | .gjeReasoned => "gje-reasoned"
  | .gjeIncremental => "gje-incremental"
  | .gjeTableau => "gje-tableau"

/- The strategy with a given name. -/
def ofName?
    (text : String) : Option Strategy :=
  all.find? fun s => s.name == text

/- Does the strategy ever eliminate? -/
def usesElimination : Strategy → Bool
  | .countCheck => false
  | .unitPropagation => false
  | .gjeFixpoint => true
  | .gjeReasoned => true
  | .gjeIncremental => true
  | .gjeTableau => true

/- Every strategy is found by its name. -/
theorem ofName?_name
    (s : Strategy) :
    ofName? s.name = some s := by
  cases s <;> decide

end Strategy

end ParitySolver
