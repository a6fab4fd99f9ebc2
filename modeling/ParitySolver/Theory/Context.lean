import ParitySolver.Note

/-
  This file defines what theories work with: the constraints
  and the trail they read, and the report they give.

  Key definitions include:
    * `Context`
    * `Findings`
-/

namespace ParitySolver

/-
  What a theory may read. Elimination is done only if
  `eliminate` allows it, and exhibits are prominent only if
  `display` asks for it.
-/
structure Context where
  store : Store
  trail : Trail
  eliminate : Bool
  display : Bool

/- The events and notes of a piece of work, in order. -/
structure Findings where
  events : List Event
  notes : List Note

namespace Findings

/- Nothing was found. -/
def none : Findings :=
  ⟨[], []⟩

/- What was found first, and what was found then. -/
def append
    (f g : Findings) : Findings :=
  ⟨f.events ++ g.events, f.notes ++ g.notes⟩

instance : Append Findings :=
  ⟨append⟩

end Findings

namespace Context

/- The literal that was taken in last. -/
def newest
    (ctx : Context) : Except Fault Literal :=
  match ctx.trail.last? with
  | some l => .ok l
  | none => .error .nothingToUndo

/- A note that shows an object. -/
def exhibit
    (ctx : Context)
    (object : Exhibit) : Findings :=
  ⟨[], [.exhibit ctx.display object]⟩

end Context

end ParitySolver
