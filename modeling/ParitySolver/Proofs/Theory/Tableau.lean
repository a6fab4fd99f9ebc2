import ParitySolver.Proofs.Matrix.Lossless
import ParitySolver.Proofs.Theory.Agreement

/-
  The invariant of the matrix that is kept up to date. After
  any literals were taken in and given back, the matrix is
  reduced, its table lists the pivots, every row is the open
  part of the sum of the constraints that it remembers, with
  the values of the trail in its right-hand side, and no
  constraint is lost.

  Key definitions include:
    * `Incremental.Proceeds`
    * `Matrix.Tableau`

  Main declarations:
    * `Incremental.Built.keeps`
    * `Incremental.Built.lossless`
    * `Incremental.InStep.tableau`
    * `Incremental.keeps_tableau`
-/

namespace ParitySolver

------------------------------------------------------------
-- Tableaus
------------------------------------------------------------

namespace Matrix

/-
  The matrix is a reduced form of the constraints of a store
  under the values of a partial assignment.
-/
structure Tableau
    (s : Store)
    (value : Nat → Option Bool)
    (m : Matrix) : Prop where
  /- There is a row for each constraint. -/
  rows : m.rows.size = s.size
  /- A row that has a column has a pivot. -/
  pivoted :
    ∀ (r : Nat) (row : Row), m.rows[r]? = some row →
      ∀ column, row.columns.has column = true →
        ∃ pivot, row.pivot = some pivot
  /- A pivot column is in its own row and no other. -/
  own :
    ∀ (r : Nat) (row : Row) (column : Nat),
      m.rows[r]? = some row → row.pivot = some column →
        ∀ (q : Nat) (other : Row), m.rows[q]? = some other →
          (other.columns.has column = true ↔ q = r)
  /- The table has the row of each pivot. -/
  table :
    ∀ r column, m.rowOfPivot[column]? = some (some r) ↔
      ∃ row : Row, m.rows[r]? = some row ∧
        row.pivot = some column
  /- The columns of a row belong to variables. -/
  columns :
    ∀ (r : Nat) (row : Row), m.rows[r]? = some row →
      ∀ column, row.columns.has column = true →
        ∃ v, s.variableTable[column]? = some v
  /- These are the open variables of the sum of its constraints. -/
  openVars :
    ∀ (r : Nat) (row : Row), m.rows[r]? = some row →
      ∀ v,
        (∃ column, s.variableTable[column]? = some v ∧
            row.columns.has column = true) ↔
          row.origin.mentions s v = true ∧ value v = none
  /- The values of the others are in the right-hand side. -/
  rhs :
    ∀ (r : Nat) (row : Row), m.rows[r]? = some row →
      row.rhs =
        (row.origin.rhs s ^^
          assignedSum value (row.origin.mentioned s))
  /- The rows remember constraints of the store. -/
  provenance :
    ∀ (r : Nat) (row : Row), m.rows[r]? = some row →
      row.provenance.size = s.size
  /- What the rows remember is linearly independent. -/
  independent : LinearIndependent (ZMod 2) (m.provenanceVectors s)

end Matrix

namespace Incremental

variable {s : Store} {rule : PivotRule}
variable {t t' : Incremental} {trail trail' : Trail}

------------------------------------------------------------
-- Runs
------------------------------------------------------------

/- Another literal can be taken in, and the newest given back. -/
structure Proceeds
    (s : Store)
    (trail : Trail)
    (t : Incremental) : Prop where
  assign :
    ∀ l level ctx, s.isRelevant l.index = true →
      ctx.store = s → trail.push l level = .ok ctx.trail →
        ∃ t' found, t.assign ctx = .ok (t', found)
  unassign :
    ∀ older l level, Trail.push older l level = .ok trail →
      ∃ t', t.unassign = .ok t'

theorem Run.proceeds
    (hRun : Run s rule trail t)
    (hStore : s.WellFormed) :
    Proceeds s trail t where
  assign l level ctx hRelevant hSame hPush := by
    rcases (hRun.built.inStep hStore).exists_assign hStore hRelevant
        hSame hPush with ⟨t', found, hAssign, _⟩
    exact ⟨t', found, hAssign⟩
  unassign older l level hPush := by
    rcases hRun.built.exists_unassign hPush with ⟨t', hUndo, _⟩
    exact ⟨t', hUndo⟩

/-
  What the matrix has at first and row operations and folding
  keep, it has wherever a run led.
-/
theorem Built.keeps
    {P : Matrix → Prop}
    (hClosed : Matrix.Closed P)
    (hFold : ∀ {m n : Matrix} {column : Nat} {b : Bool}
      {rows : List Nat}, P m → m.fold column b = .ok (n, rows) → P n)
    (hFresh : ∀ {m : Matrix},
      Matrix.ofStore s (fun _ => .ok none) true = .ok m → P m)
    (hBuilt : Built s rule trail t) :
    P t.matrix := by
  induction hBuilt with
  | new hNew =>
      simp only [ofStore, bind_eq_ok, pure_eq_ok] at hNew
      rcases hNew with ⟨fresh, hStart, reduced, hEliminate, rfl⟩
      exact hClosed.eliminate (hFresh hStart) hEliminate
  | assign _ _ _ _ hAssign ih =>
      rcases assign_eq_ok hAssign with
        ⟨_, _, m, _, _, _, _, _, hAbsorb, _, rfl, _, _⟩
      rcases absorb_eq_ok hAbsorb with ⟨folded, rows, hFolded, hCase⟩
      have hKept := hFold ih hFolded
      rcases hCase with ⟨rfl, _⟩ | ⟨r, later, notes, hRepivot, _⟩
      · exact hKept
      · exact closed_repivot hClosed hKept hRepivot

theorem Built.lossless
    (hBuilt : Built s rule trail t)
    (hStore : s.WellFormed) :
    t.matrix.Lossless s :=
  hBuilt.keeps (Matrix.closed_lossless s) Matrix.Lossless.fold
    (Matrix.lossless_of_ofStore hStore
      fun _ _ hRead => Except.ok.inj hRead)

------------------------------------------------------------
-- The invariant
------------------------------------------------------------

theorem InStep.tableau
    (hStep : InStep s trail t)
    (hStore : s.WellFormed)
    (hLossless : t.matrix.Lossless s) :
    t.matrix.Tableau s trail.value := by
  have hMatrix := hStep.follows.represents
  have hTracked := hStep.follows.tracked
  have hReduced :=
    Matrix.reducedBut_of_isReduced hStep.follows.reduced
  refine ⟨hLossless.size, ?_, ?_, hStep.shaped.pivot_iff, ?_, ?_, ?_,
    hStep.shaped.provenance, hLossless.linearIndependent hStep.shaped⟩
  · intro r row hRow column hHas
    cases hPivot : row.pivot with
    | some pivot => exact ⟨pivot, rfl⟩
    | none =>
        rw [hReduced.empty r row hRow hPivot id column] at hHas
        cases hHas
  · intro r row column hRow hPivot q other hOther
    constructor
    · intro hHas
      by_contra hNe
      rw [hReduced.others r row column hRow hPivot q other hOther
        hNe] at hHas
      cases hHas
    · rintro rfl
      cases hRow.symm.trans hOther
      exact hReduced.own q row column hRow hPivot
  · intro r row hRow column hHas
    rcases hMatrix.openColumns r row hRow column hHas with ⟨v, hColumn, _⟩
    exact ⟨v, hColumn⟩
  · intro r row hRow
    exact hMatrix.openVars_iff hStore hTracked hRow
  · intro r row hRow
    exact hMatrix.rhs_eq hStore hTracked hRow

/-
  There is a matrix to start from. Wherever taking in and
  giving back led, the next literal can be taken in, the
  newest one can be given back, and the matrix is a reduced
  form of the constraints under the trail.
-/
theorem keeps_tableau
    {declared : List Literal}
    {named : List (Nat × Constraint)}
    (hStore : Store.ofNamed declared named = .ok s)
    (rule : PivotRule) :
    (∃ t, ofStore s rule = .ok t) ∧
      ∀ trail t, Run s rule trail t →
        Proceeds s trail t ∧ t.matrix.Tableau s trail.value := by
  have hWell := Store.wellFormed_of_ofNamed hStore
  constructor
  · rcases exists_ofStore hWell rule with ⟨t, hNew, _⟩
    exact ⟨t, hNew⟩
  · intro trail t hRun
    exact ⟨hRun.proceeds hWell, (hRun.built.inStep hWell).tableau hWell
      (hRun.built.lossless hWell)⟩

/-
  The third constraint is the sum of the others. After `l_0`
  was taken in, given back and its complement taken in, the
  first row has another pivot and was added to the second.
-/
theorem keeps_tableau_when_pivot_moves :
    ∃ s trail t row,
      Store.ofNamed [⟨0, true⟩, ⟨1, true⟩, ⟨2, true⟩, ⟨3, true⟩]
          [(1, ⟨[⟨0, true⟩, ⟨1, true⟩], .odd⟩),
            (2, ⟨[⟨1, true⟩, ⟨2, true⟩, ⟨3, true⟩], .odd⟩),
            (3, ⟨[⟨0, true⟩, ⟨2, true⟩, ⟨3, true⟩], .even⟩)] =
          .ok s ∧
        Run s .minimumFill trail t ∧
        trail.entries = [⟨⟨0, false⟩, 1⟩] ∧
        t.matrix.rows[1]? = some row ∧
        row.columns.ones = [2, 3] ∧ row.provenance.ones = [0, 1] ∧
        Proceeds s trail t ∧ t.matrix.Tableau s trail.value := by
  have hRun :
      (Store.ofNamed [⟨0, true⟩, ⟨1, true⟩, ⟨2, true⟩, ⟨3, true⟩]
          [(1, ⟨[⟨0, true⟩, ⟨1, true⟩], .odd⟩),
            (2, ⟨[⟨1, true⟩, ⟨2, true⟩, ⟨3, true⟩], .odd⟩),
            (3, ⟨[⟨0, true⟩, ⟨2, true⟩, ⟨3, true⟩],
              .even⟩)]).toOption.any
        (fun s =>
          s.isRelevant 0 &&
          (ofStore s .minimumFill).toOption.any fun t =>
          ((Trail.empty s.numVariables).push
            ⟨0, true⟩ 1).toOption.any fun up =>
          (t.assign ⟨s, up, true, false⟩).toOption.any fun first =>
          first.1.unassign.toOption.any fun back =>
          ((Trail.empty s.numVariables).push
            ⟨0, false⟩ 1).toOption.any fun trail =>
          (back.assign ⟨s, trail, true, false⟩).toOption.any
          fun second =>
            second.1.matrix.rows[1]?.any fun row =>
              decide (row.columns.ones = [2, 3] ∧
                row.provenance.ones = [0, 1])) =
        true := by
    decide +kernel
  rcases exists_ok_of_any hRun with ⟨s, hStore, hRun⟩
  rw [Bool.and_eq_true] at hRun
  rcases hRun with ⟨hRelevant, hRun⟩
  rcases exists_ok_of_any hRun with ⟨t, hNew, hRun⟩
  rcases exists_ok_of_any hRun with ⟨up, hUp, hRun⟩
  rcases exists_ok_of_any hRun with ⟨⟨t₁, found₁⟩, hFirst, hRun⟩
  rcases exists_ok_of_any hRun with ⟨back, hBack, hRun⟩
  rcases exists_ok_of_any hRun with ⟨trail, hTrail, hRun⟩
  rcases exists_ok_of_any hRun with ⟨⟨t₂, found₂⟩, hSecond, hRun⟩
  rcases (Option.any_eq_true _ _).mp hRun with ⟨row, hRow, hSeen⟩
  rcases of_decide_eq_true hSeen with ⟨hColumns, hProvenance⟩
  have hUpRun : Run s .minimumFill up t₁ :=
    .assign (.new hNew) hRelevant rfl hUp hFirst
  have hEnd : Run s .minimumFill trail t₂ :=
    .assign (.unassign hUpRun hUp hBack) hRelevant rfl hTrail hSecond
  rcases (keeps_tableau hStore .minimumFill).2 trail t₂ hEnd with
    ⟨hProceeds, hTableau⟩
  exact ⟨s, trail, t₂, row, hStore, hEnd, Trail.entries_of_push hTrail,
    hRow, hColumns, hProvenance, hProceeds, hTableau⟩

end Incremental

end ParitySolver
