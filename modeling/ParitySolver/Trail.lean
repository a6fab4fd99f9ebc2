import ParitySolver.Table

/-
  This file defines the trail of an engine: the literals that
  it has taken in, each with the decision level at which it
  did so, and the table of their values.

  Key definitions include:
    * `Trail`
    * `Trail.value?`
    * `Trail.push`
    * `Trail.popAbove?`
-/

namespace ParitySolver

/- A literal and the level at which it was taken in. -/
structure TrailEntry where
  literal : Literal
  level : Nat
deriving DecidableEq, Repr, Inhabited

/- The entries, newest first, and the values that they give. -/
structure Trail where
  values : Array (Option Bool)
  entries : List TrailEntry
deriving DecidableEq, Repr, Inhabited

namespace Trail

/- The empty trail over a number of variables. -/
def empty
    (numVariables : Nat) : Trail :=
  ⟨Array.replicate numVariables none, []⟩

/- The number of literals. -/
def size
    (t : Trail) : Nat :=
  t.entries.length

/- Are there no literals? -/
def isEmpty
    (t : Trail) : Bool :=
  t.entries.isEmpty

/- The newest literal. -/
def last?
    (t : Trail) : Option Literal :=
  t.entries.head?.map TrailEntry.literal

/- The level of the newest literal, or zero. -/
def level
    (t : Trail) : Nat :=
  match t.entries with
  | [] => 0
  | entry :: _ => entry.level

/- The value of a variable of the trail. -/
def read
    (t : Trail)
    (i : Nat) : Except Fault (Option Bool) :=
  Table.get t.values i

/- Has a variable of the trail a value? -/
def isAssigned
    (t : Trail)
    (i : Nat) : Except Fault Bool :=
  (t.read i).map Option.isSome

/- The value of a variable, if it has one. -/
def value
    (t : Trail)
    (i : Nat) : Option Bool :=
  t.values.getD i none

/- Take in a literal of a variable without a value. -/
def push
    (t : Trail)
    (l : Literal)
    (level : Nat) : Except Fault Trail := do
  require (← t.read l.index).isNone (.onTrail l)
  require (t.level ≤ level) (.levelBelowTrail level)
  return ⟨← Table.set t.values l.index (some l.value), ⟨l, level⟩ :: t.entries⟩

/- Drop the newest literal if its level is above the given one. -/
def popAbove?
    (t : Trail)
    (level : Nat) : Except Fault (Option (Literal × Trail)) :=
  match t.entries with
  | [] => .ok none
  | entry :: entries =>
      if entry.level ≤ level then
        .ok none
      else do
        let values ← Table.set t.values entry.literal.index none
        return some (entry.literal, ⟨values, entries⟩)

end Trail

end ParitySolver
