import ParitySolver.Theory.Context

/-
  This file defines the watching theory, which finds the
  constraints with at most one open variable.

  Each row watches its first two variables. As long as both
  are open, nothing follows from the row. When one of them is
  assigned, the row looks for another open variable to watch
  instead; if there is none, the other watched variable is
  forced, or the row is decided.

  Key definitions include:
    * `WatchRow`
    * `Watcher`
    * `WatchMove`
    * `Watching`
    * `Watching.begin`
    * `Watching.assign`
    * `Watching.unassign`
-/

namespace ParitySolver

------------------------------------------------------------
-- Watch lists
------------------------------------------------------------

/-
  A constraint's variables, of which the first `watched` are
  watched, its right-hand side, and the sum of the assigned
  variables.
-/
structure WatchRow where
  vars : Array Nat
  watched : Nat
  rhs : Bool
  folded : Bool
deriving DecidableEq, Repr, Inhabited

/- A row and the position in it of a watched variable. -/
structure Watcher where
  row : Nat
  position : Nat
deriving DecidableEq, Repr, Inhabited

/-
  The watcher in slot `slot` of the list of `source` has gone
  to the end of the list of `target`, and its row has
  exchanged the watcher's position with `place`.
-/
structure WatchMove where
  source : Nat
  slot : Nat
  target : Nat
  place : Nat
deriving DecidableEq, Repr, Inhabited

/-
  The rows, for each variable its watchers, and for each
  literal taken in the moves it made. Literals and moves are
  listed newest first.
-/
structure Watching where
  rows : Array WatchRow
  watchers : Array (Array Watcher)
  frames : List (List WatchMove)
deriving DecidableEq, Repr

namespace WatchRow

/- The row of a constraint, with nothing assigned. -/
def ofConstraint
    (c : StoredConstraint) : WatchRow :=
  ⟨c.vars.toArray, min c.vars.length 2, c.rhs, false⟩

/- The first of some positions whose variable is open. -/
def firstOpen?
    (row : WatchRow)
    (trail : Trail) : List Nat → Except Fault (Option Nat)
  | [] => .ok none
  | p :: ps => do
      if ← trail.isAssigned (← Table.get row.vars p) then
        row.firstOpen? trail ps
      else
        return some p

/- The first open variable that is not watched, by position. -/
def replacement?
    (row : WatchRow)
    (trail : Trail) : Except Fault (Option Nat) :=
  row.firstOpen? trail (List.range' row.watched (row.vars.size - row.watched))

/- The other watched variable, if it is open. -/
def otherOpen?
    (row : WatchRow)
    (trail : Trail)
    (watcher : Watcher) : Except Fault (Option Nat) := do
  if row.watched = 2 then
    require (watcher.position ≤ 1) (.watchMismatch watcher.row)
    let v ← Table.get row.vars (1 - watcher.position)
    return if ← trail.isAssigned v then none else some v
  else
    return none

end WatchRow

namespace Watching

/- Let the watched variables of a row know of it. -/
def enlist
    (watchers : Array (Array Watcher))
    (r : Nat)
    (c : StoredConstraint) : Except Fault (Array (Array Watcher)) :=
  (c.vars.take 2).zipIdx.foldlM
    (fun watchers (v, position) => Table.modify watchers v (·.push ⟨r, position⟩))
    watchers

/- Nothing is assigned. -/
def ofStore
    (store : Store) : Except Fault Watching := do
  let watchers ← store.constraints.toList.zipIdx.foldlM
    (fun watchers (c, r) => enlist watchers r c)
    (Array.replicate store.numVariables #[])
  return ⟨store.constraints.map WatchRow.ofConstraint, watchers, []⟩

/- What follows from a row without any assignment. -/
def beginRow
    (row : WatchRow)
    (r : Nat) : Option Event :=
  match row.vars.toList with
  | [] => if row.rhs then some (.conflict (.constraint r)) else none
  | [v] => some (.propagation ⟨v, row.rhs⟩ (.constraint r))
  | _ => none

/- What follows without any assignment. -/
def begin
    (t : Watching) : Findings :=
  ⟨t.rows.toList.zipIdx.filterMap fun (row, r) => beginRow row r, []⟩

------------------------------------------------------------
-- Taking in a literal
------------------------------------------------------------

/- Add a value to the sums of rows. -/
def foldRows
    (t : Watching)
    (value : Bool)
    (rs : List Nat) : Except Fault Watching := do
  let rows ← rs.foldlM
    (fun rows r => Table.modify rows r fun row => { row with folded := row.folded ^^ value })
    t.rows
  return { t with rows }

/- Take an entry out of a list and let the last one fill the gap. -/
def takeSlot
    (watchers : Array Watcher)
    (slot : Nat) : Array Watcher :=
  (watchers.swapIfInBounds slot (watchers.size - 1)).pop

/- Add a move to those of the newest literal. -/
def logMove
    (move : WatchMove) : List (List WatchMove) → List (List WatchMove)
  | [] => [[move]]
  | frame :: frames => (move :: frame) :: frames

/- Make a watcher of an assigned variable watch another position. -/
def moveWatch
    (t : Watching)
    (v slot place : Nat)
    (watcher : Watcher)
    (row : WatchRow) : Except Fault Watching := do
  let candidate ← Table.get row.vars place
  let vars ← Table.swap row.vars watcher.position place
  let rows ← Table.set t.rows watcher.row { row with vars }
  let watchers ← Table.modify t.watchers v (takeSlot · slot)
  let watchers ← Table.modify watchers candidate (·.push watcher)
  return ⟨rows, watchers, logMove ⟨v, slot, candidate, place⟩ t.frames⟩

/- What follows from a row that has nothing else to watch. -/
def rowFindings
    (trail : Trail)
    (watcher : Watcher)
    (row : WatchRow) : Except Fault Findings := do
  match ← row.otherOpen? trail watcher with
  | some v =>
      return ⟨[.propagation ⟨v, row.rhs ^^ row.folded⟩ (.constraint watcher.row)],
        [.unitRow watcher.row v]⟩
  | none =>
      if row.folded != row.rhs then
        return ⟨[.conflict (.constraint watcher.row)], []⟩
      else
        return .none

/- Visit one watcher of an assigned variable. -/
def visitSlot
    (t : Watching)
    (trail : Trail)
    (v slot : Nat) : Except Fault (Watching × Findings) := do
  let watcher ← Table.get (← Table.get t.watchers v) slot
  let row ← Table.get t.rows watcher.row
  require ((← Table.get row.vars watcher.position) == v) (.watchMismatch watcher.row)
  match ← row.replacement? trail with
  | some place => return (← t.moveWatch v slot place watcher row, .none)
  | none => return (t, ← rowFindings trail watcher row)

/- Visit the watchers of an assigned variable below a slot, the last first. -/
def visitSlots
    (trail : Trail)
    (v : Nat) : Nat → Watching → Except Fault (Watching × Findings)
  | 0, t => .ok (t, .none)
  | slot + 1, t => do
      let (t, found) ← t.visitSlot trail v slot
      let (t, rest) ← visitSlots trail v slot t
      return (t, found ++ rest)

/- Take in the newest literal of the trail. -/
def assign
    (t : Watching)
    (ctx : Context) : Except Fault (Watching × Findings) := do
  let l ← ctx.newest
  let t := { t with frames := [] :: t.frames }
  let t ← t.foldRows l.value (ctx.store.constraintsOf l.index)
  let slots := (← Table.get t.watchers l.index).size
  visitSlots ctx.trail l.index slots t

------------------------------------------------------------
-- Giving a literal back
------------------------------------------------------------

/- Take the last move back. -/
def undoMove
    (t : Watching)
    (move : WatchMove) : Except Fault Watching := do
  let some watcher := (← Table.get t.watchers move.target).back?
    | throw .nothingToUndo
  let watchers ← Table.modify t.watchers move.target Array.pop
  let restored := (← Table.get watchers move.source).push watcher
  let restored ← Table.swap restored move.slot (restored.size - 1)
  let watchers ← Table.set watchers move.source restored
  let row ← Table.get t.rows watcher.row
  let vars ← Table.swap row.vars watcher.position move.place
  let rows ← Table.set t.rows watcher.row { row with vars }
  return { t with rows, watchers }

/- Give the newest literal back. -/
def unassign
    (t : Watching)
    (ctx : Context)
    (l : Literal) : Except Fault Watching := do
  match t.frames with
  | [] => throw .nothingToUndo
  | frame :: frames => do
      let t ← frame.foldlM undoMove { t with frames }
      t.foldRows l.value (ctx.store.constraintsOf l.index)

end Watching

end ParitySolver
