import ParitySolver.Proofs.Matrix.Reduced

/-
  Provenance is only carried along. Elimination chooses its
  pivots and its additions by looking at columns and pivots,
  so a matrix whose provenance is forgotten goes through the
  same steps, and ends with the same columns, right-hand
  sides and pivots.

  Key definitions include:
    * `Row.untracked`
    * `Matrix.untracked`

  Main declarations:
    * `Matrix.untracked_pivotOn`
    * `Matrix.untracked_reduceRow`
    * `Matrix.untracked_eliminate`
    * `Matrix.untracked_ofStore`
    * `Matrix.hasEvent_untracked`
-/

namespace ParitySolver

------------------------------------------------------------
-- Forgetting
------------------------------------------------------------

/- The row without what it remembers about constraints. -/
def Row.untracked
    (row : Row) : Row :=
  { row with provenance := BitSet.zero 0 }

/- The matrix without what its rows remember. -/
def Matrix.untracked
    (m : Matrix) : Matrix :=
  ⟨m.rows.map Row.untracked, m.rowOfPivot, false⟩

theorem Row.untracked_add
    {target source sum : Row}
    (hAdd : target.add source = .ok sum) :
    target.untracked.add source.untracked = .ok sum.untracked := by
  rcases Row.add_eq_ok hAdd with ⟨hColumns, hRhs, _, hPivot⟩
  have hNothing :
      (BitSet.zero 0).xor (BitSet.zero 0) =
        .ok (BitSet.zero 0) := by
    unfold BitSet.xor
    rw [dif_pos rfl]
    congr 1
    apply BitSet.ext_of_has
    · rfl
    · intro i
      rw [BitSet.has_sum, BitSet.has_zero, Bool.xor_self]
  simp only [Row.add, Row.untracked, hColumns, hNothing, bind,
    Except.bind, pure, Except.pure, hRhs, hPivot]

namespace Matrix

variable {m n : Matrix}

theorem getElem?_untracked
    (m : Matrix)
    (r : Nat) :
    m.untracked.rows[r]? = m.rows[r]?.map Row.untracked :=
  Array.getElem?_map ..

theorem rowsWith_untracked
    (m : Matrix)
    (column : Nat) :
    m.untracked.rowsWith column = m.rowsWith column :=
  rowsWith_map Row.untracked (fun _ => rfl) m.rowOfPivot false column

theorem isReduced_untracked
    (m : Matrix) :
    m.untracked.isReduced = m.isReduced :=
  isReduced_map Row.untracked (fun _ => rfl) (fun _ => rfl) false

theorem requireColumn_untracked
    (m : Matrix)
    (column : Nat) :
    m.untracked.requireColumn column = m.requireColumn column := by
  unfold requireColumn untracked
  rw [Array.all_map]
  rfl

/- The row at a position is found again. -/
theorem get_untracked
    {r : Nat}
    {row : Row}
    (hRow : Table.get m.rows r = .ok row) :
    Table.get m.untracked.rows r = .ok row.untracked := by
  rw [Table.get_eq_ok_iff] at hRow ⊢
  rw [getElem?_untracked, hRow]
  rfl

/- Replacing a row, with or without what it remembers. -/
theorem untracked_setRow
    (m : Matrix)
    (target : Nat)
    (row : Row)
    (table : Array (Option Nat)) :
    { m with
      rows := m.rows.setIfInBounds target row
      rowOfPivot := table }.untracked =
      { m.untracked with
        rows := m.untracked.rows.setIfInBounds target row.untracked
        rowOfPivot := table } := by
  unfold untracked
  rw [Array.map_setIfInBounds]

------------------------------------------------------------
-- The steps of elimination
------------------------------------------------------------

theorem untracked_addRow
    {source target : Nat}
    (hAdd : m.addRow source target = .ok n) :
    m.untracked.addRow source target = .ok n.untracked := by
  rcases addRow_eq_ok hAdd with
    ⟨hNe, sourceRow, targetRow, sum, hSource, hTarget, hSum, rfl⟩
  rw [untracked_setRow]
  simp only [Matrix.addRow, bind_eq_ok, pure_eq_ok, require_eq_ok,
    exists_const]
  exact ⟨by simpa using hNe, _,
    get_untracked (Table.get_eq_ok_iff.mpr hSource), _,
    get_untracked (Table.get_eq_ok_iff.mpr hTarget), _,
    Row.untracked_add hSum, rfl⟩

theorem untracked_setPivot
    {r : Nat}
    {pivot previous : Option Nat}
    (hSet : m.setPivot r pivot = .ok (n, previous)) :
    m.untracked.setPivot r pivot = .ok (n.untracked, previous) := by
  rcases setPivot_eq_ok_iff.mp hSet with
    ⟨row, between, table, hRow, hPrevious, hFreed, hTaken, rfl⟩
  have hSame : m.untracked.rows[r]? = some row.untracked := by
    rw [getElem?_untracked, hRow]
    rfl
  rw [untracked_setRow]
  exact setPivot_eq_ok_iff.mpr
    ⟨row.untracked, between, table, hSame, hPrevious, hFreed, hTaken,
      rfl⟩

theorem untracked_pivotOn
    {r column : Nat}
    {targets : List Nat}
    (hPivot : m.pivotOn r column = .ok (n, targets)) :
    m.untracked.pivotOn r column = .ok (n.untracked, targets) := by
  simp only [Matrix.pivotOn, bind_eq_ok, pure_eq_ok,
    Prod.mk.injEq] at hPivot
  rcases hPivot with
    ⟨row, hRow, has, hHas, _, hPresent, _, hRoom, result, hRun, rfl,
      rfl⟩
  have hSameRun := foldlM_of_view Matrix.untracked
    (g := fun m target => m.addRow r target) untracked_addRow hRun
  simp only [Matrix.pivotOn, bind_eq_ok, pure_eq_ok,
    rowsWith_untracked, requireColumn_untracked]
  exact ⟨_, get_untracked hRow, has, hHas, (), hPresent, (), hRoom,
    _, hSameRun, rfl⟩

/- Both rules choose by the columns. -/
theorem untracked_selectPivot?
    {r : Nat}
    {rule : PivotRule}
    {pivot? : Option Nat}
    (hSelect : m.selectPivot? r rule = .ok pivot?) :
    m.untracked.selectPivot? r rule = .ok pivot? := by
  have hRoom : m.untracked.requireColumn = m.requireColumn :=
    funext m.requireColumn_untracked
  have hLeast : m.untracked.leastFill? = m.leastFill? := by
    funext columns
    unfold leastFill?
    simp only [rowsWith_untracked]
  unfold selectPivot? at hSelect ⊢
  rcases bind_eq_ok.mp hSelect with ⟨row, hRow, hRest⟩
  rw [get_untracked hRow, hRoom, hLeast]
  exact hRest

theorem untracked_reduceRow
    {rule : PivotRule}
    {r : Nat}
    (hReduce : reduceRow rule m r = .ok n) :
    reduceRow rule m.untracked r = .ok n.untracked := by
  unfold reduceRow at hReduce ⊢
  rcases bind_eq_ok.mp hReduce with ⟨row, hRow, hRest⟩
  refine bind_eq_ok.mpr ⟨row.untracked, get_untracked hRow, ?_⟩
  have hSamePivot : row.untracked.pivot = row.pivot := rfl
  rw [hSamePivot]
  split at hRest
  · rename_i hSome
    rw [if_pos hSome]
    cases hRest
    rfl
  · rename_i hNone
    rw [if_neg hNone]
    rcases bind_eq_ok.mp hRest with ⟨pivot?, hSelect, hChosen⟩
    refine bind_eq_ok.mpr
      ⟨pivot?, untracked_selectPivot? hSelect, ?_⟩
    cases pivot? with
    | none =>
        cases hChosen
        rfl
    | some column =>
        simp only [bind_eq_ok, pure_eq_ok, Prod.exists] at hChosen ⊢
        rcases hChosen with
          ⟨middle, targets, hPivot, last, previous, hSet, rfl⟩
        exact ⟨_, targets, untracked_pivotOn hPivot, _, previous,
          untracked_setPivot hSet, rfl⟩

/- Elimination does the same without provenance. -/
theorem untracked_eliminate
    {rule : PivotRule}
    (hEliminate : m.eliminate rule = .ok n) :
    m.untracked.eliminate rule = .ok n.untracked := by
  have hSize : m.untracked.rows.size = m.rows.size :=
    Array.size_map ..
  simp only [Matrix.eliminate, bind_eq_ok, pure_eq_ok,
    require_eq_ok, exists_const, hSize] at hEliminate ⊢
  rcases hEliminate with ⟨reduced, hRun, hReduced, rfl⟩
  exact ⟨_, foldlM_of_view Matrix.untracked untracked_reduceRow hRun,
    (isReduced_untracked reduced).trans hReduced, rfl⟩

------------------------------------------------------------
-- The beginning and the end
------------------------------------------------------------

/- The row of a constraint has the same columns without provenance. -/
theorem untracked_rowOf
    {s : Store}
    {read : Nat → Except Fault (Option Bool)}
    {c : StoredConstraint}
    {position : Nat}
    {row : Row}
    (hRow : rowOf s read true c position = .ok row) :
    rowOf s read false c position = .ok row.untracked := by
  simp only [rowOf, bind_eq_ok, pure_eq_ok, if_true,
    Bool.false_eq_true, if_false] at hRow ⊢
  rcases hRow with ⟨sum, hEnter, provenance, _, rfl⟩
  exact ⟨sum, hEnter, _, rfl, rfl⟩

theorem untracked_ofStore
    {s : Store}
    {read : Nat → Except Fault (Option Bool)}
    (hMatrix : ofStore s read true = .ok m) :
    ofStore s read false = .ok m.untracked := by
  simp only [ofStore, bind_eq_ok, pure_eq_ok] at hMatrix ⊢
  rcases hMatrix with ⟨rows, hRows, rfl⟩
  refine ⟨rows.map Row.untracked,
    mapM_of_view Row.untracked untracked_rowOf hRows, ?_⟩
  simp only [untracked, List.map_toArray]

/- What a row says does not depend on its provenance. -/
theorem hasEvent_untracked
    (m : Matrix) :
    m.untracked.hasEvent = m.hasEvent := by
  unfold hasEvent untracked
  rw [Array.any_map]
  rfl

end Matrix

end ParitySolver
