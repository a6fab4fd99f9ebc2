import ParitySolver.Config
import ParitySolver.Decimal.Reading

/-
  This file reads the arguments of the command line.

  An option with a value takes it from the rest of its own
  argument, after an equals sign if there is one, or else
  from the next argument, which must not look like an option.
  Short options can be joined. Everything after two dashes,
  and everything that does not look like an option, names the
  input, of which there is at most one.

  Key definitions include:
    * `Arguments`
    * `Arguments.parse?`
-/

namespace ParitySolver

------------------------------------------------------------
-- Arguments
------------------------------------------------------------

/- What the arguments ask for, as far as they say so. -/
structure Arguments where
  input? : Option String
  strategy? : Option Strategy
  cutoff? : Option Float
  display : Bool
  verbosity : Nat

/- The options that have a value. -/
inductive ValueOption where
  | strategy
  | cutoff
deriving DecidableEq, Repr

namespace Arguments

/- Nothing is asked for. -/
def empty : Arguments :=
  ⟨none, none, none, false, 0⟩

/- The strategy that is asked for. -/
def strategy
    (a : Arguments) : Strategy :=
  a.strategy?.getD .unitPropagation

/- The cutoff that is asked for. -/
def cutoff
    (a : Arguments) : Float :=
  a.cutoff?.getD 0.0

/- Name the input, once and not by an empty name. -/
def setInput?
    (a : Arguments)
    (name : String) : Option Arguments :=
  if a.input?.isNone && name ≠ "" then some { a with input? := some name } else none

/- Ask to display, once. -/
def setDisplay?
    (a : Arguments) : Option Arguments :=
  if a.display then none else some { a with display := true }

/- Ask for more notes. -/
def addVerbosity
    (a : Arguments) : Arguments :=
  { a with verbosity := a.verbosity + 1 }

/- Give an option its value, once. -/
def setValue?
    (a : Arguments)
    (option : ValueOption)
    (value : String) : Option Arguments :=
  match option with
  | .strategy =>
      match a.strategy?, Strategy.ofName? value with
      | none, some strategy => some { a with strategy? := some strategy }
      | _, _ => none
  | .cutoff =>
      match a.cutoff?, readFloat? value with
      | none, some cutoff => some { a with cutoff? := some cutoff }
      | _, _ => none

------------------------------------------------------------
-- Parsing
------------------------------------------------------------

/- Is the argument not a value? A single dash is one. -/
def looksLikeOption
    (argument : String) : Bool :=
  match argument.toList with
  | '-' :: _ :: _ => true
  | _ => false

/- What is left to do after one argument. -/
inductive Pending where
  /- Nothing. -/
  | none
  /- The next argument is the value of an option. -/
  | value (option : ValueOption)

/- The value in the rest of an argument, without an equals sign. -/
def attached
    (cs : List Char) : String :=
  match cs with
  | '=' :: rest => String.ofList rest
  | rest => String.ofList rest

/- Give an option the rest of its argument, or wait for the next one. -/
def setAttached?
    (a : Arguments)
    (option : ValueOption)
    (rest : List Char) : Option (Arguments × Pending) :=
  if rest.isEmpty then
    some (a, .value option)
  else
    (a.setValue? option (attached rest)).map fun a => (a, .none)

/- Read joined short options. -/
def parseShort?
    (a : Arguments) : List Char → Option (Arguments × Pending)
  | [] => some (a, .none)
  | 'v' :: rest => a.addVerbosity.parseShort? rest
  | 's' :: rest => a.setAttached? .strategy rest
  | 'c' :: rest => a.setAttached? .cutoff rest
  | _ => none

/- The option with a value that has a long name. -/
def longOption? : String → Option ValueOption
  | "strategy" => some .strategy
  | "cutoff" => some .cutoff
  | _ => none

/- Read a long option, without its dashes. -/
def parseLong?
    (a : Arguments)
    (cs : List Char) : Option (Arguments × Pending) :=
  let name := String.ofList (cs.takeWhile (· != '='))
  match cs.dropWhile (· != '=') with
  | [] =>
      if name = "display" then
        a.setDisplay?.map fun a => (a, .none)
      else if name = "verbose" then
        some (a.addVerbosity, .none)
      else
        (longOption? name).map fun option => (a, .value option)
  | _ :: value => do
      let option ← longOption? name
      let a ← a.setValue? option (String.ofList value)
      return (a, .none)

/- Read one argument that does not belong to an option. -/
def parseOne?
    (a : Arguments)
    (argument : String) : Option (Arguments × Pending) :=
  match argument.toList with
  | '-' :: '-' :: rest => a.parseLong? rest
  | '-' :: c :: rest => a.parseShort? (c :: rest)
  | _ => (a.setInput? argument).map fun a => (a, .none)

/- Read arguments all of which name the input. -/
def parseInputs?
    (a : Arguments)
    (arguments : List String) : Option Arguments :=
  arguments.foldlM setInput? a

/- Read the arguments that are left. -/
def parseFrom?
    (a : Arguments)
    (pending : Pending) : List String → Option Arguments
  | [] =>
      match pending with
      | .none => some a
      | .value _ => none
  | argument :: rest =>
      match pending with
      | .value option =>
          if looksLikeOption argument then
            none
          else do
            (← a.setValue? option argument).parseFrom? .none rest
      | .none =>
          if argument = "--" then
            a.parseInputs? rest
          else do
            let (a, pending) ← a.parseOne? argument
            a.parseFrom? pending rest

/- Read all arguments; there is no result if one is not understood. -/
def parse?
    (arguments : List String) : Option Arguments :=
  empty.parseFrom? .none arguments

end Arguments

end ParitySolver
