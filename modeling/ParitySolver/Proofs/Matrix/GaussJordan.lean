import ParitySolver.Proofs.Matrix.Provenance
import ParitySolver.Proofs.Matrix.LinearReadings
import ParitySolver.Proofs.Matrix.Untracked

/-
  Elimination is exact. The matrix of a store under some
  values has one row for each constraint, with the assigned
  variables folded into the right-hand side. Elimination of
  this matrix comes to its end with a reduced matrix that has
  the same solutions. With provenance each row is the sum of
  the folded constraints that it names, and without it the
  columns, right-hand sides and pivots are the same.

  Key definitions include:
    * `Store.foldedHas`
    * `Store.foldedRhs`
    * `Store.FoldedHolds`
    * `Matrix.Solves`
    * `Row.SumsFolded`

  Main declarations:
    * `Matrix.Represents.sumsFolded`
    * `Matrix.solves_ofStore_iff`
    * `Matrix.solves_eliminate_iff`
    * `Matrix.elimination_is_exact`
-/

namespace ParitySolver

------------------------------------------------------------
-- Folded constraints
------------------------------------------------------------

namespace Store

/- The constraint at a position has the column's variable, open. -/
def foldedHas
    (s : Store)
    (value : Nat → Option Bool)
    (column position : Nat) : Bool :=
  match s.variableTable[column]? with
  | some v => decide (v ∈ s.varsAt position) && (value v).isNone
  | none => false

/- The columns of the open variables of a constraint. -/
def foldedColumns
    (s : Store)
    (value : Nat → Option Bool)
    (position : Nat) : List Nat :=
  (List.range s.numColumns).filter (s.foldedHas value · position)

/- The right-hand side of a constraint, with all values put in. -/
def foldedRhs
    (s : Store)
    (value : Nat → Option Bool)
    (position : Nat) : Bool :=
  s.rhsAt position ^^ assignedSum value (s.varsAt position)

/- The values of the columns satisfy all folded constraints. -/
def FoldedHolds
    (s : Store)
    (value : Nat → Option Bool)
    (x : Nat → Bool) : Prop :=
  ∀ position < s.size,
    sumOver x (s.foldedColumns value position) =
      s.foldedRhs value position

end Store

/- The row is the sum of the folded constraints that it names. -/
structure Row.SumsFolded
    (s : Store)
    (value : Nat → Option Bool)
    (row : Row) : Prop where
  columns :
    ∀ column, row.columns.has column =
      sumOver (s.foldedHas value column) row.provenance.ones
  rhs : row.rhs = sumOver (s.foldedRhs value) row.provenance.ones

namespace Matrix

variable {s : Store} {value : Nat → Option Bool} {m n : Matrix}
variable {read : Nat → Except Fault (Option Bool)}

/- The values of the columns satisfy all rows. -/
def Solves
    (x : Nat → Bool)
    (m : Matrix) : Prop :=
  ∀ (r : Nat) (row : Row), m.rows[r]? = some row →
    sumOver x row.columns.ones = row.rhs

theorem Represents.sumsFolded
    (hMatrix : m.Represents s value)
    (hStore : s.WellFormed)
    (hTracked : m.tracked = true)
    {r : Nat}
    {row : Row}
    (hRow : m.rows[r]? = some row) :
    row.SumsFolded s value := by
  constructor
  · intro column
    unfold Store.foldedHas
    cases hColumn : s.variableTable[column]? with
    | some v =>
        rw [hMatrix.has_eq hStore hTracked hRow hColumn]
        exact (sumOver_and_right _ (value v).isNone _).symm
    | none =>
        rw [sumOver_eq_false fun _ _ => rfl]
        cases hHas : row.columns.has column with
        | false => rfl
        | true =>
            rcases hMatrix.openColumns r row hRow column hHas with
              ⟨v, hSome, _⟩
            rw [hColumn] at hSome
            cases hSome
  · rw [hMatrix.rhs_eq_defect hTracked hRow]
    apply sumOver_congr
    intro position _
    rw [s.defectAt_eq, Bool.xor_comm]
    rfl

------------------------------------------------------------
-- The matrix of a store
------------------------------------------------------------

/- The row of a constraint is the folded constraint. -/
theorem folded_of_ofStore
    (hStore : s.WellFormed)
    (hRead : ∀ w value?, read w = .ok value? → value w = value?)
    (hShaped : m.Shaped s.numColumns s.size)
    (hMatrix : ofStore s read true = .ok m)
    {position : Nat}
    {row : Row}
    (hRow : m.rows[position]? = some row) :
    row.columns.ones = s.foldedColumns value position ∧
      row.rhs = s.foldedRhs value position := by
  rcases represents_of_ofStore hStore hRead hMatrix with
    ⟨hRepresents, hTracked⟩
  rcases (ofStore_eq_ok hMatrix).2.1 position row hRow with
    ⟨c, hAt, hOk⟩
  -- Summing over the provenance picks out the row's own constraint.
  have hPick : ∀ f : Nat → Bool,
      sumOver f row.provenance.ones = f position :=
    (rowOf_eq_ok hStore hRead hAt hOk).2.2 rfl
  have hSums := hRepresents.sumsFolded hStore hTracked hRow
  constructor
  · unfold Store.foldedColumns
    rw [BitSet.ones_eq_filter, hShaped.columns position row hRow]
    apply List.filter_congr
    intro column _
    rw [hSums.columns, hPick]
  · rw [hSums.rhs, hPick]

theorem solves_ofStore_iff
    (hStore : s.WellFormed)
    (hRead : ∀ w value?, read w = .ok value? → value w = value?)
    (hShaped : m.Shaped s.numColumns s.size)
    (hMatrix : ofStore s read true = .ok m)
    (x : Nat → Bool) :
    m.Solves x ↔ s.FoldedHolds value x := by
  have hFolded : ∀ {position : Nat} {row : Row},
      m.rows[position]? = some row →
        row.columns.ones = s.foldedColumns value position ∧
          row.rhs = s.foldedRhs value position :=
    folded_of_ofStore hStore hRead hShaped hMatrix
  constructor
  · intro hSolves position hLt
    rcases (ofStore_eq_ok hMatrix).2.2 position _
        (Array.getElem?_eq_getElem hLt) with
      ⟨row, hRow, _⟩
    rw [← (hFolded hRow).1, ← (hFolded hRow).2]
    exact hSolves position row hRow
  · intro hHolds position row hRow
    rcases (ofStore_eq_ok hMatrix).2.1 position row hRow with
      ⟨c, hAt, _⟩
    rw [(hFolded hRow).1, (hFolded hRow).2]
    exact hHolds position (Array.getElem?_eq_some_iff.mp hAt).1

------------------------------------------------------------
-- Elimination
------------------------------------------------------------

theorem solves_iff_vanishes
    (m : Matrix)
    (x : Nat → Bool) :
    m.Solves x ↔
      m.Vanishes fun row => sumOver x row.columns.ones ^^ row.rhs := by
  unfold Solves Vanishes
  simp only [bne_eq_false_iff_eq]

/- Elimination keeps the solutions. -/
theorem solves_eliminate_iff
    {rule : PivotRule}
    (hEliminate : m.eliminate rule = .ok n)
    (x : Nat → Bool) :
    n.Solves x ↔ m.Solves x := by
  rw [solves_iff_vanishes, solves_iff_vanishes]
  exact (closed_vanishes (Row.linear_imbalance x) _).eliminate Iff.rfl
    hEliminate

theorem solves_untracked_iff
    (m : Matrix)
    (x : Nat → Bool) :
    m.untracked.Solves x ↔ m.Solves x := by
  constructor
  · intro hSolves r row hRow
    apply hSolves r row.untracked
    rw [getElem?_untracked, hRow]
    rfl
  · intro hSolves r row hRow
    rw [getElem?_untracked] at hRow
    rcases Option.map_eq_some_iff.mp hRow with ⟨old, hOld, rfl⟩
    exact hSolves r old hOld

/- Two matrices differ at most in what their rows remember. -/
structure SameButProvenance
    (m n : Matrix) : Prop where
  rows :
    m.rows.map (fun row => (row.columns, row.rhs, row.pivot)) =
      n.rows.map (fun row => (row.columns, row.rhs, row.pivot))
  table : m.rowOfPivot = n.rowOfPivot

theorem sameButProvenance_untracked
    (m : Matrix) :
    SameButProvenance m.untracked m where
  rows := by
    unfold untracked
    rw [Array.map_map]
    rfl
  table := rfl

/-
  For every store, every partial assignment of its variables
  and either rule, elimination ends with and without
  provenance. The result is reduced and has the solutions of
  the folded constraints. With provenance its rows are the
  sums of the folded constraints that they name, and but for
  the provenance the two results are the same.
-/
theorem elimination_is_exact
    {declared : List Literal}
    {named : List (Nat × Constraint)}
    (hStore : Store.ofNamed declared named = .ok s)
    (hTotal : ∀ v < s.numVariables, ∃ value?, read v = .ok value?)
    (hRead : ∀ v value?, read v = .ok value? → value v = value?)
    (rule : PivotRule) :
    ∃ m : Bool → Matrix,
      (∀ tracked,
        (ofStore s read tracked >>= fun m => m.eliminate rule) =
            .ok (m tracked) ∧
          (m tracked).isReduced = true ∧
          ∀ x, (m tracked).Solves x ↔ s.FoldedHolds value x) ∧
      (∀ (r : Nat) (row : Row), (m true).rows[r]? = some row →
        row.SumsFolded s value) ∧
      SameButProvenance (m false) (m true) := by
  have hWell := Store.wellFormed_of_ofNamed hStore
  rcases exists_ofStore hWell hTotal true with
    ⟨fresh, hFresh, hShaped, hBut⟩
  rcases exists_eliminate hShaped hBut rule with
    ⟨traced, hEliminate, _, _⟩
  rcases represents_of_ofStore hWell hRead hFresh with
    ⟨hStart, hTracked⟩
  rcases hStart.eliminate hEliminate with ⟨hEnd, hReduced⟩
  have hSolves : ∀ x, traced.Solves x ↔ s.FoldedHolds value x :=
    fun x => (solves_eliminate_iff hEliminate x).trans
      (solves_ofStore_iff hWell hRead hShaped hFresh x)
  refine ⟨fun tracked => if tracked then traced else traced.untracked,
    ?_, ?_, sameButProvenance_untracked traced⟩
  · intro tracked
    cases tracked with
    | true =>
        exact ⟨bind_eq_ok.mpr ⟨fresh, hFresh, hEliminate⟩, hReduced,
          hSolves⟩
    | false =>
        refine ⟨bind_eq_ok.mpr ⟨fresh.untracked,
          untracked_ofStore hFresh, untracked_eliminate hEliminate⟩,
          (isReduced_untracked traced).trans hReduced, ?_⟩
        intro x
        exact (solves_untracked_iff traced x).trans (hSolves x)
  · intro r row hRow
    exact hEnd.sumsFolded hWell
      ((tracked_eliminate hEliminate).trans hTracked) hRow

/-
  With `l_3` true three constraints sum to a contradiction.
  The reduced matrix shows it in its last row, so no values
  of the columns satisfy the folded constraints.
-/
theorem elimination_is_exact_on_contradiction :
    ∃ s m,
      Store.ofNamed [⟨0, true⟩, ⟨1, true⟩, ⟨2, true⟩, ⟨3, true⟩]
          [(1, ⟨[⟨0, true⟩, ⟨1, true⟩], .odd⟩),
            (2, ⟨[⟨1, true⟩, ⟨2, true⟩, ⟨3, true⟩], .odd⟩),
            (3, ⟨[⟨0, true⟩, ⟨2, true⟩], .even⟩)] = .ok s ∧
        (ofStore s
            (fun v => .ok (if v = 3 then some true else none)) true >>=
          fun m => m.eliminate .minimumFill) = .ok m ∧
        m.isReduced = true ∧
        ∀ x, ¬ s.FoldedHolds
          (fun v => if v = 3 then some true else none) x := by
  have hRun :
      (Store.ofNamed [⟨0, true⟩, ⟨1, true⟩, ⟨2, true⟩, ⟨3, true⟩]
          [(1, ⟨[⟨0, true⟩, ⟨1, true⟩], .odd⟩),
            (2, ⟨[⟨1, true⟩, ⟨2, true⟩, ⟨3, true⟩], .odd⟩),
            (3, ⟨[⟨0, true⟩, ⟨2, true⟩], .even⟩)]).toOption.any
        (fun s =>
          (ofStore s
              (fun v => .ok (if v = 3 then some true else none)) true >>=
            fun m => m.eliminate .minimumFill).toOption.any fun m =>
          m.rows[2]?.any fun row =>
            decide (row.columns.ones = [] ∧ row.rhs = true)) =
        true := by
    decide +kernel
  rcases exists_ok_of_any hRun with ⟨s, hStore, hRun⟩
  rcases exists_ok_of_any hRun with ⟨m, hMatrix, hRun⟩
  rcases (Option.any_eq_true _ _).mp hRun with ⟨row, hRow, hNews⟩
  rcases of_decide_eq_true hNews with ⟨hEmpty, hRhs⟩
  rcases elimination_is_exact hStore (fun v _ => ⟨_, rfl⟩)
      (fun v value? hSame => Except.ok.inj hSame) .minimumFill with
    ⟨both, hBoth, _, _⟩
  rcases hBoth true with ⟨hSame, hReduced, hSolves⟩
  cases hMatrix.symm.trans hSame
  refine ⟨s, both true, hStore, hMatrix, hReduced, ?_⟩
  intro x hHolds
  have hSum := (hSolves x).mpr hHolds 2 row hRow
  rw [hEmpty, hRhs] at hSum
  cases hSum

end Matrix

end ParitySolver
