import ParitySolver.Decimal.Plain
import ParitySolver.Fault
import ParitySolver.Strategy

/-
  This file defines what an engine is configured with, and
  the errors in what it is set up from.

  Key definitions include:
    * `SetupError`
    * `SetupError.message`
    * `Cutoff`
    * `Cutoff.ofFloat`
    * `Cutoff.admits`
    * `Config`
-/

namespace ParitySolver

------------------------------------------------------------
-- Setup errors
------------------------------------------------------------

/- What can be wrong with a constraint. -/
inductive Malformation where
  /- There are no literals. -/
  | noLiterals
  /- A literal's variable is not declared. -/
  | undeclared (l : Literal)
  /- Two facts give the constraint different parities. -/
  | parityDisagreement
deriving DecidableEq, Repr

/-
  What can be wrong with the input of an engine. A fault can
  also end the set-up.
-/
inductive SetupError where
  | malformed (id : Nat) (cause : Malformation)
  | cutoffOutOfRange (value : Float)
  | unknownStrategy (name : String)
  | fault (fault : Fault)
deriving Repr

/- The text for a malformation. -/
def Malformation.message : Malformation → String
  | .noLiterals => "empty literal set"
  | .undeclared l => "literal " ++ l.text ++ " is outside the declared universe"
  | .parityDisagreement => "facts of the same constraint disagree on the parity"

/- The text for a setup error. -/
def SetupError.message : SetupError → String
  | .malformed id cause =>
      "malformed constraint " ++ toString id ++ ": " ++ cause.message
  | .cutoffOutOfRange value =>
      "invalid cutoff " ++ plainText value ++ ": expected a value within [0, 1]"
  | .unknownStrategy name =>
      "unknown strategy `" ++ name ++ "`"
  | .fault f =>
      f.message?.getD ""

/- The strategy with a given name, which has to exist. -/
def Strategy.ofName
    (text : String) : Except SetupError Strategy :=
  match Strategy.ofName? text with
  | some s => .ok s
  | none => .error (.unknownStrategy text)

------------------------------------------------------------
-- Cutoffs
------------------------------------------------------------

/-
  The fraction of the relevant variables that have to be
  assigned before elimination runs.
-/
structure Cutoff where
  value : Float
deriving Repr

namespace Cutoff

instance : Inhabited Cutoff :=
  ⟨⟨0.0⟩⟩

/- A cutoff lies between zero and one. -/
def ofFloat
    (x : Float) : Except SetupError Cutoff :=
  if 0.0 ≤ x && x ≤ 1.0 then .ok ⟨x⟩ else .error (.cutoffOutOfRange x)

/-
  Are enough of the relevant variables assigned? Without
  relevant variables there is nothing to wait for.
-/
def admits
    (c : Cutoff)
    (assigned relevant : Nat) : Bool :=
  relevant == 0 || Float.ofNat assigned ≥ c.value * Float.ofNat relevant

end Cutoff

------------------------------------------------------------
-- Configurations
------------------------------------------------------------

/-
  The configuration of an engine. With `display`, the notes
  that show constraints and matrices become more prominent.
-/
structure Config where
  strategy : Strategy
  cutoff : Cutoff
  display : Bool
deriving Repr, Inhabited

namespace Config

/- A configuration whose cutoff has to be in range. -/
def make
    (strategy : Strategy)
    (cutoff : Float)
    (display : Bool) : Except SetupError Config :=
  (Cutoff.ofFloat cutoff).map fun c => ⟨strategy, c, display⟩

/- Do two configurations agree? -/
def same
    (c d : Config) : Bool :=
  c.strategy == d.strategy && c.cutoff.value == d.cutoff.value && c.display == d.display

end Config

end ParitySolver
