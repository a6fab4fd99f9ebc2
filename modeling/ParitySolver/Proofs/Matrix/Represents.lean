import ParitySolver.Matrix
import ParitySolver.Proofs.Reason

/-
  What a matrix says about the constraints of a store under
  the values of a trail. The columns of its rows are open
  variables, each row is the sum of the constraints in its
  provenance, and the rows have the same solutions as the
  constraints. Row additions, changes of pivots and
  elimination keep this, and so does replacing a column by
  its value.

  Key definitions include:
    * `Row.defect`
    * `Matrix.Represents`
    * `Matrix.freed`
    * `Matrix.taken`
    * `Matrix.Closed`

  Main declarations:
    * `Matrix.represents_of_ofStore`
    * `Matrix.Represents.addRow`
    * `Matrix.Represents.setPivot`
    * `Matrix.Closed.eliminate`
    * `Matrix.Represents.fold`
    * `Matrix.Represents.eliminate`
-/

namespace ParitySolver

------------------------------------------------------------
-- The meaning of rows
------------------------------------------------------------

/- The value of the variable of a column. -/
def Store.columnValue
    (s : Store)
    (a : Assignment)
    (column : Nat) : Bool :=
  a (s.variableTable.getD column 0)

theorem Store.columnValue_eq
    {s : Store}
    {column v : Nat}
    (hColumn : s.variableTable[column]? = some v)
    (a : Assignment) :
    s.columnValue a column = a v := by
  unfold Store.columnValue
  rw [Array.getD_eq_getD_getElem?, hColumn]
  rfl

namespace Row

/- By how much a row fails under a total assignment. -/
def defect
    (s : Store)
    (a : Assignment)
    (row : Row) : Bool :=
  sumOver (s.columnValue a) row.columns.ones ^^ row.rhs

/- The parts of a sum of rows are the sums of their parts. -/
theorem add_eq_ok
    {target source sum : Row}
    (hAdd : target.add source = .ok sum) :
    target.columns.xor source.columns = .ok sum.columns ∧
      sum.rhs = (target.rhs ^^ source.rhs) ∧
      target.provenance.xor source.provenance =
        .ok sum.provenance ∧
      sum.pivot = target.pivot := by
  simp only [Row.add, bind_eq_ok, pure_eq_ok] at hAdd
  rcases hAdd with ⟨columns, hColumns, provenance, hProvenance, rfl⟩
  exact ⟨hColumns, rfl, hProvenance, rfl⟩

/- By how much the columns fail to sum to the right-hand side. -/
theorem imbalance_add
    {target source sum : Row}
    (hAdd : target.add source = .ok sum)
    (x : Nat → Bool) :
    (sumOver x sum.columns.ones ^^ sum.rhs) =
      (sumOver x target.columns.ones ^^ target.rhs ^^
        (sumOver x source.columns.ones ^^ source.rhs)) := by
  rcases add_eq_ok hAdd with ⟨hColumns, hRhs, -, -⟩
  rw [BitSet.sumOver_ones_xor x hColumns, hRhs]
  have hSwap : ∀ p q u w : Bool,
      (p ^^ q ^^ (u ^^ w)) = (p ^^ u ^^ (q ^^ w)) := by
    decide
  exact hSwap _ _ _ _

theorem defect_add
    {target source sum : Row}
    (hAdd : target.add source = .ok sum)
    (s : Store)
    (a : Assignment) :
    sum.defect s a = (target.defect s a ^^ source.defect s a) :=
  imbalance_add hAdd (s.columnValue a)

end Row

------------------------------------------------------------
-- The meaning of matrices
------------------------------------------------------------

namespace Matrix

/- No row fails under a total assignment. -/
def Holds
    (s : Store)
    (a : Assignment)
    (m : Matrix) : Prop :=
  ∀ (r : Nat) (row : Row), m.rows[r]? = some row →
    row.defect s a = false

/-
  The matrix says what the constraints of a store say under
  the values of a partial assignment.
-/
structure Represents
    (s : Store)
    (value : Nat → Option Bool)
    (m : Matrix) : Prop where
  /- The columns of the rows belong to open variables. -/
  openColumns :
    ∀ (r : Nat) (row : Row), m.rows[r]? = some row →
      ∀ column, row.columns.has column = true →
        ∃ v, s.variableTable[column]? = some v ∧
          value v = none
  /- A row fails as the sum of its constraints does. -/
  provenance :
    m.tracked = true →
      ∀ (r : Nat) (row : Row), m.rows[r]? = some row →
        ∀ a, Extends a value →
          row.defect s a =
            sumOver (s.defectAt a) row.provenance.ones
  /- The rows and the constraints have the same solutions. -/
  solutions :
    ∀ a, Extends a value →
      (m.Holds s a ↔
        ∀ c ∈ s.constraints, c.defect a = false)

variable {s : Store} {value : Nat → Option Bool} {m n : Matrix}

------------------------------------------------------------
-- Row additions and pivots
------------------------------------------------------------

/- The steps of adding one row to another. -/
theorem addRow_eq_ok
    {source target : Nat}
    (hAdd : m.addRow source target = .ok n) :
    source ≠ target ∧
      ∃ sourceRow targetRow sum,
        m.rows[source]? = some sourceRow ∧
          m.rows[target]? = some targetRow ∧
          targetRow.add sourceRow = .ok sum ∧
          n = { m with rows := m.rows.setIfInBounds target sum } := by
  simp only [Matrix.addRow, bind_eq_ok, pure_eq_ok, require_eq_ok,
    exists_const, Table.get_eq_ok_iff] at hAdd
  rcases hAdd with
    ⟨hNe, sourceRow, hSource, targetRow, hTarget, sum, hSum, rfl⟩
  exact ⟨by simpa using hNe, sourceRow, targetRow, sum, hSource,
    hTarget, hSum, rfl⟩

/- The rows after one of them was replaced. -/
theorem getElem?_setRow
    {target : Nat}
    {old : Row}
    (hOld : m.rows[target]? = some old)
    (new : Row)
    (r : Nat) :
    (m.rows.setIfInBounds target new)[r]? =
      if target = r then some new else m.rows[r]? := by
  have hLt : target < m.rows.size :=
    (Array.getElem?_eq_some_iff.mp hOld).1
  rw [Array.getElem?_setIfInBounds]
  simp [hLt]

/-
  A reading of rows that turns sums into sums is zero on all
  rows before one row is added to another if it is after.
-/
theorem zero_addRow
    {g : Row → Bool}
    (hAdditive : ∀ {target source sum : Row},
      target.add source = .ok sum → g sum = (g target ^^ g source))
    {source target : Nat}
    (hAdd : m.addRow source target = .ok n) :
    (∀ (r : Nat) (row : Row), n.rows[r]? = some row →
        g row = false) ↔
      ∀ (r : Nat) (row : Row), m.rows[r]? = some row →
        g row = false := by
  rcases addRow_eq_ok hAdd with
    ⟨hNe, sourceRow, targetRow, sum, hSource, hTarget, hSum, rfl⟩
  have hGet := getElem?_setRow hTarget sum
  have hReading := hAdditive hSum
  constructor
  · intro hZero r row hRow
    have hSourceZero : g sourceRow = false := by
      apply hZero source
      rw [hGet, if_neg fun hSame => hNe hSame.symm]
      exact hSource
    by_cases hEq : target = r
    · subst hEq
      have hSumZero : g sum = false := by
        apply hZero target
        rw [hGet, if_pos rfl]
      have hSame : row = targetRow :=
        Option.some.inj (hRow.symm.trans hTarget)
      subst hSame
      rw [hSumZero, hSourceZero, Bool.xor_false] at hReading
      exact hReading.symm
    · apply hZero r
      rw [hGet, if_neg hEq]
      exact hRow
  · intro hZero r row hRow
    rw [hGet] at hRow
    split at hRow
    · have hSame : sum = row := Option.some.inj hRow
      rw [← hSame, hReading, hZero source sourceRow hSource,
        hZero target targetRow hTarget]
      rfl
    · exact hZero r row hRow

/- Adding one row to another keeps the solutions. -/
theorem holds_addRow
    {source target : Nat}
    (hAdd : m.addRow source target = .ok n)
    (a : Assignment) :
    n.Holds s a ↔ m.Holds s a :=
  zero_addRow (fun hSum => Row.defect_add hSum s a) hAdd

theorem Represents.addRow
    {source target : Nat}
    (hMatrix : m.Represents s value)
    (hAdd : m.addRow source target = .ok n) :
    n.Represents s value := by
  have hHolds : ∀ a, n.Holds s a ↔ m.Holds s a :=
    holds_addRow hAdd
  rcases addRow_eq_ok hAdd with
    ⟨hNe, sourceRow, targetRow, sum, hSource, hTarget, hSum, rfl⟩
  have hGet := getElem?_setRow hTarget sum
  rcases Row.add_eq_ok hSum with ⟨hColumns, -, hProvenance, -⟩
  refine ⟨?_, ?_, ?_⟩
  · intro r row hRow column hHas
    rw [hGet] at hRow
    split at hRow
    · have hSame : sum = row := Option.some.inj hRow
      rw [← hSame, BitSet.has_xor hColumns] at hHas
      cases hTargetHas : targetRow.columns.has column with
      | true =>
          exact hMatrix.openColumns target targetRow hTarget column
            hTargetHas
      | false =>
          rw [hTargetHas, Bool.false_xor] at hHas
          exact hMatrix.openColumns source sourceRow hSource column
            hHas
    · exact hMatrix.openColumns r row hRow column hHas
  · intro hTracked r row hRow a hExtends
    rw [hGet] at hRow
    split at hRow
    · have hSame : sum = row := Option.some.inj hRow
      rw [← hSame, Row.defect_add hSum,
        BitSet.sumOver_ones_xor _ hProvenance,
        hMatrix.provenance hTracked target targetRow hTarget a
          hExtends,
        hMatrix.provenance hTracked source sourceRow hSource a
          hExtends]
    · exact hMatrix.provenance hTracked r row hRow a hExtends
  · intro a hExtends
    exact (hHolds a).trans (hMatrix.solutions a hExtends)

/- A row's meaning does not depend on its pivot. -/
theorem Represents.of_rows
    (hMatrix : m.Represents s value)
    (hTracked : n.tracked = m.tracked)
    (hRows : ∀ (r : Nat) (row : Row), n.rows[r]? = some row →
      ∃ old, m.rows[r]? = some old ∧
        row.columns = old.columns ∧ row.rhs = old.rhs ∧
        row.provenance = old.provenance)
    (hBack : ∀ (r : Nat) (old : Row), m.rows[r]? = some old →
      ∃ row, n.rows[r]? = some row ∧
        row.columns = old.columns ∧ row.rhs = old.rhs) :
    n.Represents s value := by
  refine ⟨?_, ?_, ?_⟩
  · intro r row hRow column hHas
    rcases hRows r row hRow with ⟨old, hOld, hColumns, -, -⟩
    rw [hColumns] at hHas
    exact hMatrix.openColumns r old hOld column hHas
  · intro hTrue r row hRow a hExtends
    rcases hRows r row hRow with
      ⟨old, hOld, hColumns, hRhs, hProvenance⟩
    have hOldSum := hMatrix.provenance (hTracked ▸ hTrue) r old
      hOld a hExtends
    unfold Row.defect at hOldSum ⊢
    rw [hColumns, hRhs, hProvenance]
    exact hOldSum
  · intro a hExtends
    rw [← hMatrix.solutions a hExtends]
    constructor
    · intro hHolds r old hOld
      rcases hBack r old hOld with ⟨row, hRow, hColumns, hRhs⟩
      have hZero := hHolds r row hRow
      unfold Row.defect at hZero ⊢
      rwa [hColumns, hRhs] at hZero
    · intro hHolds r row hRow
      rcases hRows r row hRow with ⟨old, hOld, hColumns, hRhs, -⟩
      have hZero := hHolds r old hOld
      unfold Row.defect at hZero ⊢
      rw [hColumns, hRhs]
      exact hZero

/- The table of the rows by pivot, when a row gives its pivot up. -/
def freed
    (table : Array (Option Nat))
    (r : Nat)
    (pivot : Option Nat) : Except Fault (Array (Option Nat)) :=
  match pivot with
  | none => pure table
  | some column => do
      require ((← Table.get table column) == some r)
        (.pivotMismatch r column)
      Table.set table column none

/- The table of the rows by pivot, when a row takes a pivot. -/
def taken
    (table : Array (Option Nat))
    (r : Nat)
    (pivot : Option Nat) : Except Fault (Array (Option Nat)) :=
  match pivot with
  | none => pure table
  | some column => do
      require (← Table.get table column).isNone
        (.pivotMismatch r column)
      Table.set table column (some r)

/- What giving a row another pivot does. -/
theorem setPivot_eq_ok_iff
    {r : Nat}
    {pivot previous : Option Nat} :
    m.setPivot r pivot = .ok (n, previous) ↔
      ∃ row between table,
        m.rows[r]? = some row ∧ row.pivot = previous ∧
          freed m.rowOfPivot r previous = .ok between ∧
          taken between r pivot = .ok table ∧
          n =
            { m with
              rows := m.rows.setIfInBounds r { row with pivot }
              rowOfPivot := table } := by
  have hUnfold :
      m.setPivot r pivot = (do
        let row ← Table.get m.rows r
        let between ← freed m.rowOfPivot r row.pivot
        let table ← taken between r pivot
        return ({ m with
          rows := m.rows.setIfInBounds r { row with pivot }
          rowOfPivot := table }, row.pivot)) := by
    unfold setPivot freed taken
    congr 1
    funext row
    cases row.pivot <;> cases pivot <;>
      simp only [bind_assoc, pure_bind]
  rw [hUnfold]
  simp only [bind_eq_ok, pure_eq_ok, Table.get_eq_ok_iff,
    Prod.mk.injEq]
  constructor
  · rintro ⟨row, hRow, between, hFreed, table, hTaken, rfl, rfl⟩
    exact ⟨row, between, table, hRow, rfl, hFreed, hTaken, rfl⟩
  · rintro ⟨row, between, table, hRow, rfl, hFreed, hTaken, rfl⟩
    exact ⟨row, hRow, between, hFreed, table, hTaken, rfl, rfl⟩

theorem Represents.setPivot
    {r : Nat}
    {pivot previous : Option Nat}
    (hMatrix : m.Represents s value)
    (hSet : m.setPivot r pivot = .ok (n, previous)) :
    n.Represents s value := by
  rcases setPivot_eq_ok_iff.mp hSet with
    ⟨row, _, _, hRow, -, -, -, rfl⟩
  have hGet := getElem?_setRow hRow { row with pivot }
  refine hMatrix.of_rows rfl ?_ ?_
  · intro i found hFound
    rw [hGet] at hFound
    split at hFound
    · rename_i hEq
      cases hFound
      exact ⟨row, hEq ▸ hRow, rfl, rfl, rfl⟩
    · exact ⟨found, hFound, rfl, rfl, rfl⟩
  · intro i old hOld
    by_cases hEq : r = i
    · subst hEq
      have hSame : row = old :=
        Option.some.inj (hRow.symm.trans hOld)
      refine ⟨{ row with pivot }, ?_, ?_, ?_⟩
      · rw [hGet, if_pos rfl]
      · rw [hSame]
      · rw [hSame]
    · exact ⟨old, by rw [hGet, if_neg hEq]; exact hOld, rfl, rfl⟩

/- The steps of clearing a column from the other rows. -/
theorem pivotOn_eq_ok
    {r column : Nat}
    {targets : List Nat}
    (hPivot : m.pivotOn r column = .ok (n, targets)) :
    targets = (m.rowsWith column).filter (· != r) ∧
      targets.foldlM (fun m target => m.addRow r target) m =
        .ok n := by
  simp only [Matrix.pivotOn, bind_eq_ok, pure_eq_ok, require_eq_ok,
    Prod.mk.injEq] at hPivot
  rcases hPivot with
    ⟨_, _, _, _, _, _, _, _, result, hFold, rfl, rfl⟩
  exact ⟨rfl, hFold⟩

------------------------------------------------------------
-- What row operations keep
------------------------------------------------------------

/- Giving a row a pivot is at most a pivoting and a new pivot. -/
theorem reduceRow_eq_ok
    {rule : PivotRule}
    {r : Nat}
    (hReduce : reduceRow rule m r = .ok n) :
    n = m ∨
      ∃ column middle targets previous,
        m.pivotOn r column = .ok (middle, targets) ∧
          middle.setPivot r (some column) =
            .ok (n, previous) := by
  unfold reduceRow at hReduce
  rw [bind_eq_ok] at hReduce
  rcases hReduce with ⟨row, -, hReduce⟩
  split at hReduce
  · rw [pure_eq_ok] at hReduce
    exact Or.inl hReduce.symm
  · rw [bind_eq_ok] at hReduce
    rcases hReduce with ⟨column?, -, hReduce⟩
    cases column? with
    | none =>
        simp only [pure_eq_ok] at hReduce
        exact Or.inl hReduce.symm
    | some column =>
        simp only [bind_eq_ok, pure_eq_ok] at hReduce
        rcases hReduce with
          ⟨⟨middle, targets⟩, hPivot, ⟨last, previous⟩, hSet, rfl⟩
        exact Or.inr
          ⟨column, middle, targets, previous, hPivot, hSet⟩

/- Adding one row to another and moving a pivot keep it. -/
structure Closed
    (P : Matrix → Prop) : Prop where
  addRow :
    ∀ {m n : Matrix} {source target : Nat}, P m →
      m.addRow source target = .ok n → P n
  setPivot :
    ∀ {m n : Matrix} {r : Nat} {pivot previous : Option Nat}, P m →
      m.setPivot r pivot = .ok (n, previous) → P n

section Closed

variable {P : Matrix → Prop} {rule : PivotRule}

theorem Closed.pivotOn
    (hClosed : Closed P)
    {r column : Nat}
    {targets : List Nat}
    (hBefore : P m)
    (hPivot : m.pivotOn r column = .ok (n, targets)) :
    P n :=
  foldlM_keeps P (fun _ _ _ _ => hClosed.addRow) hBefore
    (pivotOn_eq_ok hPivot).2

theorem Closed.reduceRow
    (hClosed : Closed P)
    {r : Nat}
    (hBefore : P m)
    (hReduce : m.reduceRow rule r = .ok n) :
    P n := by
  rcases reduceRow_eq_ok hReduce with
    rfl | ⟨column, middle, targets, previous, hPivot, hSet⟩
  · exact hBefore
  · exact hClosed.setPivot (hClosed.pivotOn hBefore hPivot) hSet

theorem Closed.eliminate
    (hClosed : Closed P)
    (hBefore : P m)
    (hEliminate : m.eliminate rule = .ok n) :
    P n := by
  simp only [Matrix.eliminate, bind_eq_ok, pure_eq_ok,
    require_eq_ok, exists_const] at hEliminate
  rcases hEliminate with ⟨reduced, hRun, _, rfl⟩
  exact foldlM_keeps P (fun _ _ _ _ => hClosed.reduceRow) hBefore hRun

/- The number of rows. -/
theorem closed_size
    (size : Nat) :
    Closed fun m => m.rows.size = size where
  addRow hSize hAdd := by
    rcases addRow_eq_ok hAdd with ⟨_, _, _, _, _, _, _, rfl⟩
    rw [Array.size_setIfInBounds]
    exact hSize
  setPivot hSize hSet := by
    rcases setPivot_eq_ok_iff.mp hSet with ⟨_, _, _, _, _, _, _, rfl⟩
    rw [Array.size_setIfInBounds]
    exact hSize

/- Whether provenance is tracked. -/
theorem closed_tracked
    (tracked : Bool) :
    Closed fun m => m.tracked = tracked where
  addRow hTracked hAdd := by
    rcases addRow_eq_ok hAdd with ⟨_, _, _, _, _, _, _, rfl⟩
    exact hTracked
  setPivot hTracked hSet := by
    rcases setPivot_eq_ok_iff.mp hSet with ⟨_, _, _, _, _, _, _, rfl⟩
    exact hTracked

/- What the matrix says. -/
theorem closed_represents
    (s : Store)
    (value : Nat → Option Bool) :
    Closed (Represents s value) where
  addRow := Represents.addRow
  setPivot := Represents.setPivot

end Closed

/- An eliminated matrix is reduced and says the same. -/
theorem Represents.eliminate
    {rule : PivotRule}
    (hMatrix : m.Represents s value)
    (hEliminate : m.eliminate rule = .ok n) :
    n.Represents s value ∧ n.isReduced = true := by
  refine ⟨(closed_represents s value).eliminate hMatrix hEliminate, ?_⟩
  simp only [Matrix.eliminate, bind_eq_ok, pure_eq_ok,
    require_eq_ok, exists_const] at hEliminate
  rcases hEliminate with ⟨_, _, hReduced, rfl⟩
  exact hReduced

/- Elimination does not start or stop tracking provenance. -/
theorem tracked_eliminate
    {rule : PivotRule}
    (hEliminate : m.eliminate rule = .ok n) :
    n.tracked = m.tracked :=
  (closed_tracked m.tracked).eliminate rfl hEliminate

------------------------------------------------------------
-- Replacing a column by its value
------------------------------------------------------------

theorem Row.defect_fold
    {s : Store}
    {row : Row}
    {column v : Nat}
    (hColumn : s.variableTable[column]? = some v)
    {a : Assignment}
    {b : Bool}
    (hValue : a v = b) :
    (row.fold column b).defect s a = row.defect s a := by
  unfold Row.fold
  split
  · rename_i hHas
    have hLt : column < row.columns.size := by
      apply Nat.lt_of_not_le
      intro hGe
      rw [BitSet.has_of_ge _ hGe] at hHas
      cases hHas
    unfold Row.defect
    simp only [BitSet.flipAt, hLt, dif_pos]
    rw [BitSet.sumOver_ones_flip,
      Store.columnValue_eq hColumn a, hValue]
    have hCancel : ∀ p q r : Bool,
        (p ^^ q ^^ (r ^^ q)) = (p ^^ r) := by
      decide
    exact hCancel _ _ _
  · rfl

theorem Row.has_fold
    {row : Row}
    {column : Nat}
    {b : Bool}
    {other : Nat}
    (hHas : (row.fold column b).columns.has other = true) :
    row.columns.has other = true ∧ other ≠ column := by
  unfold Row.fold at hHas
  split at hHas
  · rename_i hColumn
    have hLt : column < row.columns.size := by
      apply Nat.lt_of_not_le
      intro hGe
      rw [BitSet.has_of_ge _ hGe] at hColumn
      cases hColumn
    simp only [BitSet.flipAt, hLt, dif_pos] at hHas
    rw [BitSet.has_flip] at hHas
    by_cases hEq : column = other
    · subst hEq
      simp [hColumn] at hHas
    · simp only [hEq, decide_false, Bool.xor_false] at hHas
      exact ⟨hHas, fun hSame => hEq hSame.symm⟩
  · rename_i hColumn
    refine ⟨hHas, ?_⟩
    rintro rfl
    exact hColumn hHas

/- The rows after a column was replaced by its value. -/
theorem fold_eq_ok
    {column : Nat}
    {b : Bool}
    {rows : List Nat}
    (hFold : m.fold column b = .ok (n, rows)) :
    rows = m.rowsWith column ∧
      n = { m with rows := m.rows.map (Row.fold · column b) } := by
  simp only [Matrix.fold, bind_eq_ok, pure_eq_ok,
    Prod.mk.injEq] at hFold
  rcases hFold with ⟨_, _, rfl, rfl⟩
  exact ⟨rfl, rfl⟩

/-
  A matrix in which a column was replaced by a value says
  what the constraints say when its variable has the value.
-/
theorem Represents.fold
    {column v : Nat}
    {b : Bool}
    {rows : List Nat}
    {value' : Nat → Option Bool}
    (hMatrix : m.Represents s value)
    (hStore : s.WellFormed)
    (hColumn : s.variableTable[column]? = some v)
    (hNew : ∀ w, value' w = if w = v then some b else value w)
    (hOpen : value v = none)
    (hFold : m.fold column b = .ok (n, rows)) :
    n.Represents s value' := by
  rcases fold_eq_ok hFold with ⟨-, rfl⟩
  have hWeaker : ∀ a, Extends a value' → Extends a value := by
    intro a hExtends w c hValue
    apply hExtends
    rw [hNew]
    split
    · rename_i hSame
      rw [hSame, hOpen] at hValue
      cases hValue
    · exact hValue
  have hAt : ∀ a, Extends a value' → a v = b := by
    intro a hExtends
    apply hExtends
    rw [hNew, if_pos rfl]
  have hGet : ∀ (r : Nat) (row : Row),
      (m.rows.map (Row.fold · column b))[r]? = some row →
        ∃ old, m.rows[r]? = some old ∧
          row = old.fold column b := by
    intro r row hRow
    rw [Array.getElem?_map] at hRow
    rcases Option.map_eq_some_iff.mp hRow with ⟨old, hOld, hEq⟩
    exact ⟨old, hOld, hEq.symm⟩
  refine ⟨?_, ?_, ?_⟩
  · intro r row hRow other hHas
    rcases hGet r row hRow with ⟨old, hOld, rfl⟩
    rcases Row.has_fold hHas with ⟨hBefore, hNe⟩
    rcases hMatrix.openColumns r old hOld other hBefore with
      ⟨w, hVariable, hNone⟩
    refine ⟨w, hVariable, ?_⟩
    rw [hNew, if_neg, hNone]
    rintro rfl
    have hFirst := (hStore.columnOf?_eq_some_iff w other).mpr
      hVariable
    have hSecond := (hStore.columnOf?_eq_some_iff w column).mpr
      hColumn
    exact hNe (Option.some.inj (hFirst.symm.trans hSecond))
  · intro hTracked r row hRow a hExtends
    rcases hGet r row hRow with ⟨old, hOld, rfl⟩
    have hSum := hMatrix.provenance hTracked r old hOld a
      (hWeaker a hExtends)
    rw [Row.defect_fold hColumn (hAt a hExtends), hSum]
    unfold Row.fold
    split <;> rfl
  · intro a hExtends
    rw [← hMatrix.solutions a (hWeaker a hExtends)]
    constructor
    · intro hHolds r old hOld
      have hZero := hHolds r (old.fold column b)
        (by rw [Array.getElem?_map, hOld]; rfl)
      rwa [Row.defect_fold hColumn (hAt a hExtends)] at hZero
    · intro hHolds r row hRow
      rcases hGet r row hRow with ⟨old, hOld, rfl⟩
      rw [Row.defect_fold hColumn (hAt a hExtends)]
      exact hHolds r old hOld

------------------------------------------------------------
-- The matrix of a store
------------------------------------------------------------

section OfStore

variable {read : Nat → Except Fault (Option Bool)}

/- Putting one variable of a constraint into its row. -/
theorem enter_eq_ok
    {columns columns' : BitSet}
    {rhs rhs' : Bool}
    {v : Nat}
    (hRead : ∀ w value?, read w = .ok value? → value w = value?)
    (hEnter :
      enter s read (columns, rhs) v = .ok (columns', rhs')) :
    (∃ b, value v = some b ∧ columns' = columns ∧
        rhs' = (rhs ^^ b)) ∨
      (value v = none ∧ rhs' = rhs ∧
        ∃ column, s.columnOf? v = some column ∧
          columns.insert column = .ok columns') := by
  simp only [enter, bind_eq_ok] at hEnter
  rcases hEnter with ⟨value?, hValue, hEnter⟩
  have hSame := hRead v value? hValue
  cases value? with
  | some b =>
      simp only [pure_eq_ok, Prod.mk.injEq] at hEnter
      exact Or.inl ⟨b, hSame, hEnter.1.symm, hEnter.2.symm⟩
  | none =>
      right
      cases hColumn : s.columnOf? v with
      | none =>
          simp only [hColumn] at hEnter
          exact absurd hEnter throw_ne_ok
      | some column =>
          simp only [hColumn, bind_eq_ok, pure_eq_ok,
            Prod.mk.injEq] at hEnter
          rcases hEnter with ⟨inserted, hInsert, rfl, rfl⟩
          exact ⟨hSame, rfl, column, rfl, hInsert⟩

/-
  Putting distinct variables into a row that has none of
  them adds their values.
-/
theorem enterAll_eq_ok
    (hStore : s.WellFormed)
    (hRead : ∀ w value?, read w = .ok value? → value w = value?)
    {vs : List Nat}
    (hNodup : vs.Nodup)
    {columns columns' : BitSet}
    {rhs rhs' : Bool}
    (hFresh : ∀ v ∈ vs, ∀ column,
      s.variableTable[column]? = some v →
        columns.has column = false)
    (hEnter :
      vs.foldlM (enter s read) (columns, rhs) =
        .ok (columns', rhs')) :
    (∀ a, Extends a value →
      (sumOver (s.columnValue a) columns'.ones ^^ rhs') =
        (sumOver (s.columnValue a) columns.ones ^^ rhs ^^
          sumOver a vs)) ∧
      ∀ column, columns'.has column = true →
        columns.has column = true ∨
          ∃ v, s.variableTable[column]? = some v ∧
            value v = none := by
  induction vs generalizing columns rhs with
  | nil =>
      rw [List.foldlM_nil, pure_eq_ok] at hEnter
      cases hEnter
      exact ⟨fun a _ => by simp, fun _ hHas => Or.inl hHas⟩
  | cons v vs ih =>
      rw [List.nodup_cons] at hNodup
      rw [List.foldlM_cons, bind_eq_ok] at hEnter
      rcases hEnter with ⟨⟨middle, next⟩, hFirst, hRest⟩
      have hTailFresh : ∀ w ∈ vs, ∀ column,
          s.variableTable[column]? = some w →
            columns.has column = false :=
        fun w hMem => hFresh w (List.mem_cons_of_mem v hMem)
      rcases enter_eq_ok hRead hFirst with
        ⟨b, hValue, rfl, rfl⟩ |
        ⟨hNone, rfl, column, hColumn, hInsert⟩
      · rcases ih hNodup.2 hTailFresh hRest with ⟨hSum, hHas⟩
        refine ⟨?_, hHas⟩
        intro a hExtends
        have hMove : ∀ p q x y : Bool,
            (p ^^ (q ^^ x) ^^ y) = (p ^^ q ^^ (x ^^ y)) := by
          decide
        rw [hSum a hExtends, sumOver_cons, hExtends v b hValue]
        exact hMove _ _ _ _
      · have hVariable :=
          (hStore.columnOf?_eq_some_iff v column).mp hColumn
        have hNew : columns.has column = false :=
          hFresh v List.mem_cons_self column hVariable
        have hMiddleFresh : ∀ w ∈ vs, ∀ other,
            s.variableTable[other]? = some w →
              middle.has other = false := by
          intro w hMem other hOther
          cases hHas : middle.has other with
          | false => rfl
          | true =>
              rcases BitSet.has_of_insert hInsert hHas with
                hOld | rfl
              · rw [hTailFresh w hMem other hOther] at hOld
                cases hOld
              · have hSame : v = w :=
                  Option.some.inj (hVariable.symm.trans hOther)
                exact absurd (hSame ▸ hMem) hNodup.1
        rcases ih hNodup.2 hMiddleFresh hRest with ⟨hSum, hHas⟩
        refine ⟨?_, ?_⟩
        · intro a hExtends
          have hMove : ∀ p q x y : Bool,
              (p ^^ x ^^ q ^^ y) = (p ^^ q ^^ (x ^^ y)) := by
            decide
          rw [hSum a hExtends, sumOver_cons,
            BitSet.sumOver_ones_insert _ hNew hInsert,
            Store.columnValue_eq hVariable a]
          exact hMove _ _ _ _
        · intro other hOther
          rcases hHas other hOther with hMiddle | hOpen
          · rcases BitSet.has_of_insert hInsert hMiddle with
              hOld | rfl
            · exact Or.inl hOld
            · exact Or.inr ⟨v, hVariable, hNone⟩
          · exact Or.inr hOpen

/- The row of a constraint fails as the constraint does. -/
theorem rowOf_eq_ok
    (hStore : s.WellFormed)
    (hRead : ∀ w value?, read w = .ok value? → value w = value?)
    {tracked : Bool}
    {c : StoredConstraint}
    {position : Nat}
    (hAt : s.constraints[position]? = some c)
    {row : Row}
    (hRow : rowOf s read tracked c position = .ok row) :
    (∀ a, Extends a value → row.defect s a = c.defect a) ∧
      (∀ column, row.columns.has column = true →
        ∃ v, s.variableTable[column]? = some v ∧
          value v = none) ∧
      (tracked = true →
        ∀ f, sumOver f row.provenance.ones = f position) := by
  unfold rowOf at hRow
  rw [bind_eq_ok] at hRow
  rcases hRow with ⟨⟨columns, rhs⟩, hEnter, hRow⟩
  have hNodup := hStore.nodup_vars (Array.mem_of_getElem? hAt)
  rcases enterAll_eq_ok hStore hRead hNodup
      (fun _ _ _ _ => BitSet.has_zero _ _) hEnter with
    ⟨hSum, hHas⟩
  have hParts :
      row.columns = columns ∧ row.rhs = rhs ∧
        (tracked = true →
          BitSet.ofList s.size [position] =
            .ok row.provenance) := by
    cases tracked with
    | true =>
        simp only [if_true, bind_eq_ok, pure_eq_ok] at hRow
        rcases hRow with ⟨provenance, hProvenance, rfl⟩
        exact ⟨rfl, rfl, fun _ => hProvenance⟩
    | false =>
        simp only [Bool.false_eq_true, if_false, bind_eq_ok,
          pure_eq_ok] at hRow
        rcases hRow with ⟨provenance, -, rfl⟩
        exact ⟨rfl, rfl, fun hFalse => by cases hFalse⟩
  rcases hParts with ⟨rfl, rfl, hProvenance⟩
  refine ⟨?_, ?_, ?_⟩
  · intro a hExtends
    have hRowSum := hSum a hExtends
    rw [BitSet.sumOver_ones_zero, Bool.false_xor] at hRowSum
    unfold Row.defect StoredConstraint.defect
    rw [hRowSum, Bool.xor_comm]
  · intro column hColumn
    rcases hHas column hColumn with hZero | hOpen
    · rw [BitSet.has_zero] at hZero
      cases hZero
    · exact hOpen
  · intro hTracked f
    have hInsert := hProvenance hTracked
    simp only [BitSet.ofList, List.foldlM_cons, List.foldlM_nil,
      bind_eq_ok, pure_eq_ok] at hInsert
    rcases hInsert with ⟨inserted, hInsert, rfl⟩
    rw [BitSet.sumOver_ones_insert f (BitSet.has_zero _ _) hInsert,
      BitSet.sumOver_ones_zero, Bool.false_xor]

/- The rows of the matrix of a store are those of its constraints. -/
theorem ofStore_eq_ok
    {tracked : Bool}
    (hMatrix : ofStore s read tracked = .ok m) :
    m.tracked = tracked ∧
      (∀ (r : Nat) (row : Row), m.rows[r]? = some row →
        ∃ c, s.constraints[r]? = some c ∧
          rowOf s read tracked c r = .ok row) ∧
      ∀ (r : Nat) (c : StoredConstraint),
        s.constraints[r]? = some c →
          ∃ row, m.rows[r]? = some row ∧
            rowOf s read tracked c r = .ok row := by
  simp only [ofStore, bind_eq_ok, pure_eq_ok, mapM_eq_ok_iff]
    at hMatrix
  rcases hMatrix with ⟨rows, hAll, rfl⟩
  have hRow : ∀ (r : Nat) (row : Row),
      rows.toArray[r]? = some row →
        ∃ c, s.constraints[r]? = some c ∧
          rowOf s read tracked c r = .ok row := by
    intro r row hGet
    rw [List.getElem?_toArray] at hGet
    rcases getElem?_of_forall₂ hAll hGet with
      ⟨⟨c, position⟩, hEntry, hOk⟩
    rw [List.getElem?_zipIdx] at hEntry
    rcases Option.map_eq_some_iff.mp hEntry with
      ⟨found, hFound, hPair⟩
    cases hPair
    rw [Array.getElem?_toList] at hFound
    rw [Nat.zero_add] at hOk
    exact ⟨c, hFound, hOk⟩
  refine ⟨rfl, hRow, ?_⟩
  intro r c hGet
  have hLength := List.Forall₂.length_eq hAll
  have hLt := (Array.getElem?_eq_some_iff.mp hGet).1
  simp only [List.length_zipIdx, Array.length_toList] at hLength
  have hIn : r < rows.toArray.size := by
    rw [List.size_toArray, ← hLength]
    exact hLt
  have hThere := Array.getElem?_eq_getElem hIn
  rcases hRow r _ hThere with ⟨found, hFound, hOk⟩
  cases hFound.symm.trans hGet
  exact ⟨_, hThere, hOk⟩

/-
  The matrix of a store under some values says what its
  constraints say.
-/
theorem represents_of_ofStore
    (hStore : s.WellFormed)
    (hRead : ∀ w value?, read w = .ok value? → value w = value?)
    {tracked : Bool}
    (hMatrix : ofStore s read tracked = .ok m) :
    m.Represents s value ∧ m.tracked = tracked := by
  rcases ofStore_eq_ok hMatrix with ⟨hKind, hRow, hBack⟩
  refine ⟨⟨?_, ?_, ?_⟩, hKind⟩
  · intro r row hGet
    rcases hRow r row hGet with ⟨c, hAt, hOk⟩
    exact (rowOf_eq_ok hStore hRead hAt hOk).2.1
  · intro hTracked r row hGet a hExtends
    rcases hRow r row hGet with ⟨c, hAt, hOk⟩
    rcases rowOf_eq_ok hStore hRead hAt hOk with
      ⟨hDefect, -, hProvenance⟩
    rw [hDefect a hExtends, hProvenance (hKind ▸ hTracked)]
    unfold Store.defectAt
    rw [hAt]
  · intro a hExtends
    constructor
    · intro hHolds c hMem
      rcases Array.mem_iff_getElem?.mp hMem with ⟨r, hAt⟩
      rcases hBack r c hAt with ⟨row, hGet, hOk⟩
      rw [← (rowOf_eq_ok hStore hRead hAt hOk).1 a hExtends]
      exact hHolds r row hGet
    · intro hZero r row hGet
      rcases hRow r row hGet with ⟨c, hAt, hOk⟩
      rw [(rowOf_eq_ok hStore hRead hAt hOk).1 a hExtends]
      exact hZero c (Array.mem_of_getElem? hAt)

end OfStore

end Matrix

end ParitySolver
