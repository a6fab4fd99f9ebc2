import ParitySolver.CommandLine.Arguments
import ParitySolver.Search

/-
  This file defines the command: it reads facts from a file
  or from standard input, solves them, and prints a model.

  Key definitions include:
    * `CommandResult`
    * `CommandLine.modelText`
    * `CommandLine.solve`
    * `CommandLine.run`
-/

namespace ParitySolver

/-
  What a command prints, and its exit code: zero after an
  answer, one after an error in the input, two after an error
  in the arguments, and 101 after a fault.
-/
structure CommandResult where
  exit : Nat
  output : String
deriving DecidableEq, Repr

namespace CommandLine

/- An error in the input. -/
def inputError : CommandResult :=
  ⟨1, ""⟩

/- An error in the arguments. -/
def argumentError : CommandResult :=
  ⟨2, ""⟩

/- A fault. -/
def gaveUp : CommandResult :=
  ⟨101, ""⟩

/- A model as a line of numbers that ends in zero. -/
def modelText
    (model : List Literal) : String :=
  "v " ++ " ".intercalate (model.map fun l => toString l.toNumber) ++ " 0\n"

/- The answer with its model, if there is one. -/
def solutionText
    (solution : Solution) : String :=
  match solution.model? with
  | some model => "SATISFIABLE\n" ++ modelText model
  | none => "UNSATISFIABLE\n"

/- Solve the facts in a text. -/
def solve
    (a : Arguments)
    (bytes : ByteArray) : CommandResult :=
  match readFacts bytes with
  | .error (.fault _) => gaveUp
  | .error _ => inputError
  | .ok facts =>
      match Config.make a.strategy a.cutoff a.display with
      | .error _ => inputError
      | .ok config =>
          match storeOfFacts facts with
          | .error (.fault _) => gaveUp
          | .error _ => inputError
          | .ok store =>
              match store.solve config none with
              | .ok solution => ⟨0, solutionText solution⟩
              | .error _ => gaveUp

/- Do what the arguments ask for, given the input that they name. -/
def run
    (arguments : List String)
    (readInput : Option String → Option ByteArray) : CommandResult :=
  match Arguments.parse? arguments with
  | none => argumentError
  | some a =>
      match readInput a.input? with
      | none => inputError
      | some bytes => solve a bytes

end CommandLine

end ParitySolver
