import ParitySolver.Event

/-
  This file defines matrices over the two-element field. The
  rows are sums of constraints from which the assigned
  variables are folded into the right-hand side, and each row
  may remember the constraints that it is the sum of.

  Key definitions include:
    * `PivotRule`
    * `Row`
    * `Matrix`
    * `Matrix.ofStore`
    * `Matrix.fold`
    * `Matrix.unfold`
    * `Matrix.addRow`
    * `Matrix.pivotOn`
    * `Matrix.eliminate`
    * `Matrix.isReduced`
    * `Matrix.scan`
-/

namespace ParitySolver

------------------------------------------------------------
-- Rows
------------------------------------------------------------

/- Which column of a row becomes its pivot. -/
inductive PivotRule where
  /- The lowest one. -/
  | firstColumn
  /- The one that fewest rows have, and of these the lowest. -/
  | minimumFill
deriving DecidableEq, Repr, Inhabited

/-
  A row: the sum of its columns is `rhs`, and it is the sum
  of the constraints at the positions in `provenance`.
-/
structure Row where
  columns : BitSet
  rhs : Bool
  provenance : BitSet
  pivot : Option Nat
deriving DecidableEq

/- What a row says on its own. -/
inductive RowNews where
  /- Nothing: the row is empty and true, or has two columns. -/
  | quiet
  /- The row is empty and false. -/
  | contradiction
  /- The row determines its only column. -/
  | unit (column : Nat)
deriving DecidableEq, Repr

namespace Row

/- What the row says on its own. -/
def news
    (row : Row) : RowNews :=
  match row.columns.ones with
  | [] => if row.rhs then .contradiction else .quiet
  | [column] => .unit column
  | _ => .quiet

/- Does the row say anything on its own? -/
def hasEvent
    (row : Row) : Bool :=
  match row.columns.ones with
  | [] => row.rhs
  | [_] => true
  | _ => false

/- Replace a column of the row by its value. -/
def fold
    (row : Row)
    (column : Nat)
    (value : Bool) : Row :=
  if row.columns.has column then
    { row with columns := row.columns.flipAt column, rhs := row.rhs ^^ value }
  else
    row

/- The sum of two rows. The pivot stays that of the first. -/
def add
    (target source : Row) : Except Fault Row := do
  return {
    columns := ← target.columns.xor source.columns
    rhs := target.rhs ^^ source.rhs
    provenance := ← target.provenance.xor source.provenance
    pivot := target.pivot }

/- The columns, the right-hand side, the pivot and the provenance. -/
def text
    (row : Row)
    (tracked : Bool) : String :=
  row.columns.text ++ " | " ++ (if row.rhs then "1" else "0") ++
    (match row.pivot with
      | some column => " pivot " ++ toString column
      | none => "") ++
    (if tracked then " <- " ++ row.provenance.text else "")

end Row

------------------------------------------------------------
-- Matrices
------------------------------------------------------------

/-
  Rows, and for each column the row whose pivot it is. If
  provenance is not tracked, it is a set of length zero.
-/
structure Matrix where
  rows : Array Row
  rowOfPivot : Array (Option Nat)
  tracked : Bool
deriving DecidableEq

namespace Matrix

/- Put one variable of a constraint into its row. -/
def enter
    (store : Store)
    (value : Nat → Except Fault (Option Bool))
    (sum : BitSet × Bool)
    (v : Nat) : Except Fault (BitSet × Bool) := do
  let (columns, rhs) := sum
  match ← value v with
  | some b => return (columns, rhs ^^ b)
  | none =>
      match store.columnOf? v with
      | some column => return (← columns.insert column, rhs)
      | none => throw (.irrelevantVariable v)

/- The row of a constraint under a partial assignment. -/
def rowOf
    (store : Store)
    (value : Nat → Except Fault (Option Bool))
    (tracked : Bool)
    (c : StoredConstraint)
    (position : Nat) : Except Fault Row := do
  let (columns, rhs) ←
    c.vars.foldlM (enter store value) (BitSet.zero store.numColumns, c.rhs)
  let provenance ←
    if tracked then BitSet.ofList store.size [position] else pure (BitSet.zero 0)
  return ⟨columns, rhs, provenance, none⟩

/- One row for each constraint, without pivots. -/
def ofStore
    (store : Store)
    (value : Nat → Except Fault (Option Bool))
    (tracked : Bool) : Except Fault Matrix := do
  let rows ← store.constraints.toList.zipIdx.mapM fun (c, position) =>
    rowOf store value tracked c position
  return ⟨rows.toArray, Array.replicate store.numColumns none, tracked⟩

/- The rows that have a column, ascending. -/
def rowsWith
    (m : Matrix)
    (column : Nat) : List Nat :=
  (List.range m.rows.size).filter fun r =>
    match m.rows[r]? with
    | some row => row.columns.has column
    | none => false

/- Every row has room for the column. -/
def requireColumn
    (m : Matrix)
    (column : Nat) : Except Fault Unit :=
  require (m.rows.all fun row => column < row.columns.size)
    (.outOfRange column m.rowOfPivot.size)

/- The row whose pivot is the column. -/
def pivotRow?
    (m : Matrix)
    (column : Nat) : Except Fault (Option Nat) :=
  Table.get m.rowOfPivot column

/- Give a row another pivot or none, and return the one it had. -/
def setPivot
    (m : Matrix)
    (r : Nat)
    (pivot : Option Nat) : Except Fault (Matrix × Option Nat) := do
  let row ← Table.get m.rows r
  let freed ←
    match row.pivot with
    | none => pure m.rowOfPivot
    | some column => do
        require ((← Table.get m.rowOfPivot column) == some r) (.pivotMismatch r column)
        Table.set m.rowOfPivot column none
  let rowOfPivot ←
    match pivot with
    | none => pure freed
    | some column => do
        require (← Table.get freed column).isNone (.pivotMismatch r column)
        Table.set freed column (some r)
  return ({ m with rows := m.rows.setIfInBounds r { row with pivot }, rowOfPivot }, row.pivot)

/- Add one row to another. -/
def addRow
    (m : Matrix)
    (source target : Nat) : Except Fault Matrix := do
  require (source != target) (.selfAddition source)
  let sourceRow ← Table.get m.rows source
  let targetRow ← Table.get m.rows target
  return { m with rows := m.rows.setIfInBounds target (← targetRow.add sourceRow) }

/- Replace a column by its value, and return the rows that had it. -/
def fold
    (m : Matrix)
    (column : Nat)
    (value : Bool) : Except Fault (Matrix × List Nat) := do
  m.requireColumn column
  return ({ m with rows := m.rows.map (Row.fold · column value) }, m.rowsWith column)

/- Put a column back into one row that does not have it. -/
def unfoldRow
    (column : Nat)
    (value : Bool)
    (m : Matrix)
    (r : Nat) : Except Fault Matrix := do
  let row ← Table.get m.rows r
  require (!(← row.columns.contains column)) (.columnPresent r column)
  let columns ← row.columns.insert column
  return { m with rows := m.rows.setIfInBounds r { row with columns, rhs := row.rhs ^^ value } }

/- Put a column back into the rows that had it. -/
def unfold
    (m : Matrix)
    (column : Nat)
    (value : Bool)
    (rows : List Nat) : Except Fault Matrix :=
  rows.foldlM (unfoldRow column value) m

------------------------------------------------------------
-- Elimination
------------------------------------------------------------

/- The column that fewest rows have, of these the first in the list. -/
def leastFill?
    (m : Matrix)
    (columns : List Nat) : Option Nat :=
  let best := columns.foldl
    (fun (best : Option (Nat × Nat)) column =>
      let fill := (m.rowsWith column).length
      match best with
      | none => some (fill, column)
      | some (least, _) => if fill < least then some (fill, column) else best)
    none
  best.map Prod.snd

/- The pivot that a rule selects for a row; an empty row has none. -/
def selectPivot?
    (m : Matrix)
    (r : Nat)
    (rule : PivotRule) : Except Fault (Option Nat) := do
  let row ← Table.get m.rows r
  match rule with
  | .firstColumn => return row.columns.first?
  | .minimumFill => do
      row.columns.ones.forM m.requireColumn
      return m.leastFill? row.columns.ones

/-
  Clear a column of a row from all other rows by adding the
  row to them, and return these rows.
-/
def pivotOn
    (m : Matrix)
    (r column : Nat) : Except Fault (Matrix × List Nat) := do
  let row ← Table.get m.rows r
  require (← row.columns.contains column) (.columnAbsent r column)
  m.requireColumn column
  let targets := (m.rowsWith column).filter (· != r)
  return (← targets.foldlM (fun m target => m.addRow r target) m, targets)

/- Give a row a pivot if it has none and is not empty. -/
def reduceRow
    (rule : PivotRule)
    (m : Matrix)
    (r : Nat) : Except Fault Matrix := do
  if (← Table.get m.rows r).pivot.isSome then
    return m
  match ← m.selectPivot? r rule with
  | none => return m
  | some column => do
      let (m, _) ← m.pivotOn r column
      let (m, _) ← m.setPivot r (some column)
      return m

/-
  A matrix is reduced if every row that is not empty has a
  pivot, and a pivot column is in its own row only. A pivot
  beyond the columns makes the answer false and is no fault
  here: `pivotOn` has refused such a column before.
-/
def isReduced
    (m : Matrix) : Bool :=
  m.rows.toList.zipIdx.all fun (row, r) =>
    match row.pivot with
    | none => row.columns.isZero
    | some column =>
        m.rowOfPivot[column]? == some (some r) && m.rowsWith column == [r]

/- Reduce the matrix row by row. -/
def eliminate
    (m : Matrix)
    (rule : PivotRule) : Except Fault Matrix := do
  let reduced ← (List.range m.rows.size).foldlM (reduceRow rule) m
  require reduced.isReduced .notReduced
  return reduced

------------------------------------------------------------
-- Events of a matrix
------------------------------------------------------------

/- The event of one row, if it has one. -/
def rowEvent?
    (store : Store)
    (row : Row) : Except Fault (Option Event) :=
  match row.news with
  | .quiet => .ok none
  | .contradiction => .ok (some (.conflict (.combination row.provenance)))
  | .unit column => do
      let v ← Table.get store.variableTable column
      return some (.propagation ⟨v, row.rhs⟩ (.combination row.provenance))

/- The events of all rows, in the order of the rows. -/
def scan
    (m : Matrix)
    (store : Store) : Except Fault (List Event) := do
  require m.tracked .provenanceUntracked
  let events ← m.rows.toList.mapM (rowEvent? store)
  return events.reduceOption

/- Has some row an event? -/
def hasEvent
    (m : Matrix) : Bool :=
  m.rows.any Row.hasEvent

/- One line for each row. -/
def text
    (m : Matrix) : String :=
  String.join (m.rows.toList.map fun row => row.text m.tracked ++ "\n")

end Matrix

end ParitySolver
