import ParitySolver.Theory.Context

/-
  This file defines incremental elimination. A reduced matrix
  is kept up to date: an assigned column is folded into the
  right-hand sides, and a row that loses its pivot takes
  another one. The changes are recorded and taken back.

  Key definitions include:
    * `MatrixChange`
    * `Incremental`
    * `Incremental.begin`
    * `Incremental.assign`
    * `Incremental.unassign`
-/

namespace ParitySolver

------------------------------------------------------------
-- Changes
------------------------------------------------------------

/- A change of the matrix that can be taken back. -/
inductive MatrixChange where
  /- A column was replaced by its value in these rows. -/
  | folded (column : Nat) (value : Bool) (rows : List Nat)
  /- A row had this pivot before. -/
  | pivoted (row : Nat) (previous : Option Nat)
  /- One row was added to another. -/
  | added (source target : Nat)
deriving DecidableEq, Repr

/- Take a change back. -/
def MatrixChange.undo
    (m : Matrix) : MatrixChange → Except Fault Matrix
  | .folded column value rows => m.unfold column value rows
  | .pivoted row previous => (m.setPivot row previous).map Prod.fst
  | .added source target => m.addRow source target

/-
  A reduced matrix, the rule for its pivots, and for each
  literal taken in the changes it made. Literals and changes
  are listed newest first.
-/
structure Incremental where
  matrix : Matrix
  rule : PivotRule
  frames : List (List MatrixChange)
deriving DecidableEq

namespace Incremental

/- The reduced matrix of the constraints, with nothing assigned. -/
def ofStore
    (store : Store)
    (rule : PivotRule) : Except Fault Incremental := do
  let m ← Matrix.ofStore store (fun _ => .ok none) true
  return ⟨← m.eliminate rule, rule, []⟩

/- The events of the matrix, if elimination is allowed. -/
def scanIfAllowed
    (t : Incremental)
    (ctx : Context) : Except Fault Findings :=
  if ctx.eliminate then
    (t.matrix.scan ctx.store).map fun events => ⟨events, []⟩
  else
    .ok .none

/- What follows without any assignment. -/
def begin
    (t : Incremental)
    (ctx : Context) : Except Fault Findings := do
  return ctx.exhibit (.initialMatrix t.matrix) ++ (← t.scanIfAllowed ctx)

------------------------------------------------------------
-- Taking in a literal
------------------------------------------------------------

/-
  Give a row whose pivot was assigned another pivot, if there
  is one. The changes are listed newest first.
-/
def repivot
    (rule : PivotRule)
    (m : Matrix)
    (r column : Nat) : Except Fault (Matrix × List MatrixChange × List Note) := do
  let (m, previous) ← m.setPivot r none
  let released := MatrixChange.pivoted r previous
  match ← m.selectPivot? r rule with
  | none => return (m, [released], [])
  | some pivot => do
      let (m, targets) ← m.pivotOn r pivot
      let additions := targets.map fun target => MatrixChange.added r target
      let (m, previous) ← m.setPivot r (some pivot)
      return (m, .pivoted r previous :: additions.reverse ++ [released],
        [.pivotMoved r pivot column])

/- Replace a column by its value and keep the matrix reduced. -/
def absorb
    (rule : PivotRule)
    (m : Matrix)
    (column : Nat)
    (value : Bool) : Except Fault (Matrix × List MatrixChange × List Note) := do
  let (m, rows) ← m.fold column value
  let fold := MatrixChange.folded column value rows
  match ← m.pivotRow? column with
  | none => return (m, [fold], [])
  | some r => do
      let (m, changes, notes) ← repivot rule m r column
      return (m, changes ++ [fold], notes)

/- Take in the newest literal of the trail. -/
def assign
    (t : Incremental)
    (ctx : Context) : Except Fault (Incremental × Findings) := do
  let l ← ctx.newest
  let some column := ctx.store.columnOf? l.index
    | throw (.irrelevantVariable l.index)
  let (m, changes, notes) ← absorb t.rule t.matrix column l.value
  require m.isReduced .notReduced
  let t := { t with matrix := m, frames := changes :: t.frames }
  let found ← t.scanIfAllowed ctx
  return (t, ⟨[], notes⟩ ++ ctx.exhibit (.matrixAfter l m) ++ found)

------------------------------------------------------------
-- Giving a literal back
------------------------------------------------------------

/- Give the newest literal back. -/
def unassign
    (t : Incremental) : Except Fault Incremental := do
  match t.frames with
  | [] => throw .nothingToUndo
  | changes :: frames =>
      return { t with matrix := ← changes.foldlM MatrixChange.undo t.matrix, frames }

end Incremental

end ParitySolver
