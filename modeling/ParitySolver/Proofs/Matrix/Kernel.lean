import ParitySolver.Proofs.Matrix.Reduced
import ParitySolver.Proofs.Matrix.LinearReadings

/-
  What a matrix says apart from its right-hand sides. The
  null vectors of a matrix make the sum of the columns of
  every row zero. Adding rows keeps them, and so does
  replacing a column where they are zero.

  A reduced matrix has a row of a single column exactly if
  all null vectors are zero there. So two reduced matrices of
  the same constraints, whatever their pivots, determine the
  same variables, also when the constraints have no solution
  at all.

  Key definitions include:
    * `Matrix.Null`
    * `Matrix.SharesKernel`
    * `Matrix.homogeneous`
    * `Matrix.Contradictory`
    * `Matrix.Fixes`

  Main declarations:
    * `Matrix.null_eliminate`
    * `Matrix.sharesKernel_of_ofStore`
    * `Matrix.exists_unit_iff`
    * `Matrix.Represents.agree`
-/

namespace ParitySolver

/- A column where the vector is zero can be left out. -/
theorem Row.sumOver_fold
    (row : Row)
    {column : Nat}
    (b : Bool)
    {x : Nat → Bool}
    (hZero : x column = false) :
    sumOver x (row.fold column b).columns.ones =
      sumOver x row.columns.ones := by
  unfold Row.fold
  split
  · rename_i hHas
    have hLt : column < row.columns.size := by
      apply Nat.lt_of_not_le
      intro hGe
      rw [BitSet.has_of_ge _ hGe] at hHas
      cases hHas
    simp only [BitSet.flipAt, hLt, dif_pos]
    rw [BitSet.sumOver_ones_flip, hZero, Bool.xor_false]
  · rfl

namespace Matrix

variable {s : Store} {value : Nat → Option Bool} {m n : Matrix}

------------------------------------------------------------
-- Null vectors
------------------------------------------------------------

/- The sum of the columns of every row is zero. -/
def Null
    (m : Matrix)
    (x : Nat → Bool) : Prop :=
  ∀ (r : Nat) (row : Row), m.rows[r]? = some row →
    sumOver x row.columns.ones = false

/- Elimination keeps the null vectors. -/
theorem null_eliminate
    {rule : PivotRule}
    (hEliminate : m.eliminate rule = .ok n)
    (x : Nat → Bool) :
    n.Null x ↔ m.Null x :=
  (closed_vanishes (Row.linear_columns x) _).eliminate Iff.rfl
    hEliminate

theorem null_fold
    {column : Nat}
    {b : Bool}
    {rows : List Nat}
    (hFold : m.fold column b = .ok (n, rows))
    {x : Nat → Bool}
    (hZero : x column = false) :
    n.Null x ↔ m.Null x :=
  vanishes_fold hFold fun row => Row.sumOver_fold row b hZero

------------------------------------------------------------
-- The kernel of the constraints
------------------------------------------------------------

/-
  Among the vectors that are zero on the assigned variables,
  the null vectors are those on which all constraints sum to
  zero.
-/
def SharesKernel
    (s : Store)
    (value : Nat → Option Bool)
    (m : Matrix) : Prop :=
  ∀ x : Assignment, (∀ v, value v ≠ none → x v = false) →
    (m.Null (s.columnValue x) ↔
      ∀ c ∈ s.constraints, sumOver x c.vars = false)

/-
  Both rows and constraints are read at two assignments that
  differ by the vector.
-/
theorem sumOver_of_rowOf
    (hStore : s.WellFormed)
    {read : Nat → Except Fault (Option Bool)}
    (hRead : ∀ w value?, read w = .ok value? → value w = value?)
    {tracked : Bool}
    {c : StoredConstraint}
    {position : Nat}
    (hAt : s.constraints[position]? = some c)
    {row : Row}
    (hRow : rowOf s read tracked c position = .ok row)
    {x : Assignment}
    (hZero : ∀ v, value v ≠ none → x v = false) :
    sumOver (s.columnValue x) row.columns.ones =
      sumOver x c.vars := by
  have hDefect := (rowOf_eq_ok hStore hRead hAt hRow).1
  have hBase := extends_overlay value fun _ => false
  have hMoved : Extends
      (fun v => overlay value (fun _ => false) v ^^ x v) value := by
    intro v b hValue
    have hOff : x v = false := hZero v (by rw [hValue]; nofun)
    simp only [hOff, Bool.xor_false]
    exact hBase v b hValue
  have hFirst := hDefect _ hBase
  have hSecond := hDefect _ hMoved
  unfold Row.defect StoredConstraint.defect at hFirst hSecond
  have hColumns : ∀ column,
      s.columnValue
          (fun v => overlay value (fun _ => false) v ^^ x v) column =
        (s.columnValue (overlay value fun _ => false) column ^^
          s.columnValue x column) :=
    fun column => rfl
  rw [sumOver_congr fun column _ => hColumns column, sumOver_xor,
    sumOver_xor] at hSecond
  have hCancel : ∀ p q r t u w : Bool,
      (p ^^ q) = (t ^^ u) → (p ^^ r ^^ q) = (t ^^ w ^^ u) →
        r = w := by
    decide
  exact hCancel _ _ _ _ _ _ hFirst hSecond

theorem sharesKernel_of_ofStore
    (hStore : s.WellFormed)
    {read : Nat → Except Fault (Option Bool)}
    (hRead : ∀ w value?, read w = .ok value? → value w = value?)
    {tracked : Bool}
    (hMatrix : ofStore s read tracked = .ok m) :
    m.SharesKernel s value := by
  rcases ofStore_eq_ok hMatrix with ⟨_, hRows, hBack⟩
  intro x hZero
  constructor
  · intro hNull c hMem
    rcases Array.mem_iff_getElem?.mp hMem with ⟨r, hAt⟩
    rcases hBack r c hAt with ⟨row, hRow, hOk⟩
    rw [← sumOver_of_rowOf hStore hRead hAt hOk hZero]
    exact hNull r row hRow
  · intro hKernel r row hRow
    rcases hRows r row hRow with ⟨c, hAt, hOk⟩
    rw [sumOver_of_rowOf hStore hRead hAt hOk hZero]
    exact hKernel c (Array.mem_of_getElem? hAt)

theorem SharesKernel.of_null
    (hShares : m.SharesKernel s value)
    (hNull : ∀ x, n.Null x ↔ m.Null x) :
    n.SharesKernel s value := by
  intro x hZero
  exact (hNull _).trans (hShares x hZero)

theorem SharesKernel.fold
    {column v : Nat}
    {b : Bool}
    {rows : List Nat}
    {value' : Nat → Option Bool}
    (hShares : m.SharesKernel s value)
    (hColumn : s.variableTable[column]? = some v)
    (hNew : ∀ w, value' w = if w = v then some b else value w)
    (hFold : m.fold column b = .ok (n, rows)) :
    n.SharesKernel s value' := by
  intro x hZero
  have hAt : s.columnValue x column = false := by
    rw [Store.columnValue_eq hColumn]
    apply hZero
    rw [hNew, if_pos rfl]
    nofun
  rw [null_fold hFold hAt]
  apply hShares
  intro w hValue
  apply hZero
  rw [hNew]
  split
  · nofun
  · exact hValue

------------------------------------------------------------
-- Rows of a single column
------------------------------------------------------------

/- The matrix with zero on all right-hand sides. -/
def homogeneous
    (m : Matrix) : Matrix :=
  { m with rows := m.rows.map fun row => { row with rhs := false } }

theorem getElem?_homogeneous
    (m : Matrix)
    (r : Nat) :
    m.homogeneous.rows[r]? =
      m.rows[r]?.map fun row => { row with rhs := false } :=
  Array.getElem?_map ..

theorem isReduced_homogeneous
    (m : Matrix) :
    m.homogeneous.isReduced = m.isReduced :=
  isReduced_map (fun row => { row with rhs := false })
    (fun _ => rfl) (fun _ => rfl) m.tracked

/- Free values for the other columns give a null vector. -/
theorem null_solution_homogeneous
    (hReduced : m.isReduced = true)
    (free : Nat → Bool) :
    m.Null (m.homogeneous.solution free) := by
  intro r row hRow
  have hGet := getElem?_homogeneous m r
  rw [hRow, Option.map_some] at hGet
  have hNews : ({ row with rhs := false } : Row).news ≠
      .contradiction := by
    intro hNews
    have hRhs := (Row.news_eq_contradiction hNews).2
    cases hRhs
  exact sumOver_solution
    ((isReduced_homogeneous m).trans hReduced) hGet hNews free

/-
  A reduced matrix has a row with just one column exactly if
  its null vectors are zero there.
-/
theorem exists_unit_iff
    (hReduced : m.isReduced = true)
    {column : Nat} :
    (∃ (r : Nat) (row : Row), m.rows[r]? = some row ∧
        row.columns.ones = [column]) ↔
      ∀ x, m.Null x → x column = false := by
  constructor
  · intro hUnit x hNull
    rcases hUnit with ⟨r, row, hRow, hOnes⟩
    have hZero := hNull r row hRow
    rw [hOnes, sumOver_cons, sumOver_nil, Bool.xor_false] at hZero
    exact hZero
  · intro hZero
    by_contra hNone
    have hUndetermined : ∀ (r : Nat) (row : Row),
        m.homogeneous.rows[r]? = some row →
          row.columns.ones ≠ [column] := by
      intro r row hRow hOnes
      rw [getElem?_homogeneous] at hRow
      rcases Option.map_eq_some_iff.mp hRow with ⟨old, hOld, rfl⟩
      exact hNone ⟨r, old, hOld, hOnes⟩
    rcases exists_solution_column
        ((isReduced_homogeneous m).trans hReduced) hUndetermined true
      with ⟨free, hFree⟩
    rw [hZero _ (null_solution_homogeneous hReduced free)] at hFree
    cases hFree

------------------------------------------------------------
-- Two matrices of the same constraints
------------------------------------------------------------

/- Some row has no columns and the right-hand side one. -/
def Contradictory
    (m : Matrix) : Prop :=
  ∃ (r : Nat) (row : Row), m.rows[r]? = some row ∧
    row.columns.ones = [] ∧ row.rhs = true

/- Some row has the column of the variable only, and its value. -/
def Fixes
    (s : Store)
    (m : Matrix)
    (v : Nat)
    (b : Bool) : Prop :=
  ∃ (r : Nat) (row : Row) (column : Nat),
    m.rows[r]? = some row ∧ row.columns.ones = [column] ∧
      s.variableTable[column]? = some v ∧ row.rhs = b

theorem contradictory_of_news
    {r : Nat}
    {row : Row}
    (hRow : m.rows[r]? = some row)
    (hNews : row.news = .contradiction) :
    m.Contradictory :=
  ⟨r, row, hRow, Row.news_eq_contradiction hNews⟩

/-
  A reduced matrix contradicts itself exactly if no solution
  of the constraints extends the values.
-/
theorem Represents.contradictory_iff
    (hStore : s.WellFormed)
    (hMatrix : m.Represents s value)
    (hReduced : m.isReduced = true) :
    m.Contradictory ↔ ¬ ∃ a, Extends a value ∧ s.Holds a := by
  constructor
  · intro hContradictory hSolution
    rcases hContradictory with ⟨r, row, hRow, hOnes, hRhs⟩
    rcases hSolution with ⟨a, hExtends, hHolds⟩
    have hAll := (hMatrix.solutions a hExtends).mpr
      ((hStore.holds_iff_defect a).mp hHolds) r row hRow
    rw [Row.defect, hOnes, hRhs] at hAll
    cases hAll
  · intro hNone
    by_contra hFine
    have hNews : ∀ (r : Nat) (row : Row), m.rows[r]? = some row →
        row.news ≠ .contradiction :=
      fun r row hRow hNews => hFine (contradictory_of_news hRow hNews)
    rcases hMatrix.exists_solution hStore hReduced hNews
        (extends_overlay value fun _ => false) with
      ⟨a, hHolds, hSame⟩
    apply hNone
    refine ⟨a, ?_, hHolds⟩
    intro v b hValue
    rw [hSame v (.inl (by rw [hValue]; nofun))]
    exact extends_overlay value _ v b hValue

/- A solution has the values that single-column rows give. -/
theorem Represents.value_of_fixes
    (hStore : s.WellFormed)
    (hMatrix : m.Represents s value)
    {a : Assignment}
    (hExtends : Extends a value)
    (hHolds : s.Holds a)
    {v : Nat}
    {b : Bool}
    (hFixes : m.Fixes s v b) :
    a v = b := by
  rcases hFixes with ⟨r, row, column, hRow, hOnes, hVariable, rfl⟩
  have hZero := (hMatrix.solutions a hExtends).mpr
    ((hStore.holds_iff_defect a).mp hHolds) r row hRow
  rw [Row.defect, hOnes, sumOver_cons, sumOver_nil,
    Bool.xor_false, Store.columnValue_eq hVariable] at hZero
  simpa using hZero

/- What one reduced matrix determines, another one does too. -/
theorem Represents.exists_fixes
    (hStore : s.WellFormed)
    (hBefore : m.Represents s value)
    (hFirst : m.SharesKernel s value)
    (hMatrix : n.Represents s value)
    (hReduced : n.isReduced = true)
    (hSecond : n.SharesKernel s value)
    {v : Nat}
    {b : Bool}
    (hFixes : m.Fixes s v b) :
    ∃ b', n.Fixes s v b' := by
  rcases hFixes with ⟨r, row, column, hRow, hOnes, hVariable, _⟩
  have hHas : row.columns.has column = true := by
    rw [← BitSet.mem_ones, hOnes]
    exact List.mem_singleton_self column
  have hOpen : value v = none := by
    rcases hBefore.openColumns r row hRow column hHas with
      ⟨w, hAt, hNone⟩
    cases hVariable.symm.trans hAt
    exact hNone
  have hUnit : ∃ (t : Nat) (other : Row),
      n.rows[t]? = some other ∧ other.columns.ones = [column] := by
    rw [exists_unit_iff hReduced]
    intro x hNull
    -- The vector as an assignment, zero where a value is known.
    have hZero : ∀ w, value w ≠ none →
        assignmentOf s value x (fun _ => false) w = false := by
      intro w hValue
      unfold assignmentOf
      split
      · rename_i hNone _
        exact absurd hNone hValue
      · rfl
    have hSame : n.Null
        (s.columnValue (assignmentOf s value x fun _ => false)) := by
      intro t other hOther
      rw [sumOver_congr, hNull t other hOther]
      intro k hMem
      rcases hMatrix.openColumns t other hOther k
        ((BitSet.mem_ones _ _).mp hMem) with ⟨w, hAt, hNone⟩
      exact columnValue_assignmentOf hStore hAt hNone x _
    have hKernel := (hFirst _ hZero).mpr ((hSecond _ hZero).mp hSame)
    have hAt := hKernel r row hRow
    rw [hOnes, sumOver_cons, sumOver_nil, Bool.xor_false,
      columnValue_assignmentOf hStore hVariable hOpen] at hAt
    exact hAt
  rcases hUnit with ⟨t, other, hOther, hSingle⟩
  exact ⟨other.rhs, t, other, column, hOther, hSingle, hVariable, rfl⟩

/-
  Two matrices agree on what they find: a contradiction, and
  the variables that they determine. Without a contradiction
  they agree on the values too.
-/
structure Agree
    (s : Store)
    (m n : Matrix) : Prop where
  contradictory : m.Contradictory ↔ n.Contradictory
  determined : ∀ v, (∃ b, m.Fixes s v b) ↔ ∃ b, n.Fixes s v b
  values :
    ¬ m.Contradictory → ∀ v b, m.Fixes s v b ↔ n.Fixes s v b

/- Reduced matrices of the same constraints agree. -/
theorem Represents.agree
    (hStore : s.WellFormed)
    (hFirst : m.Represents s value)
    (hFirstReduced : m.isReduced = true)
    (hFirstKernel : m.SharesKernel s value)
    (hSecond : n.Represents s value)
    (hSecondReduced : n.isReduced = true)
    (hSecondKernel : n.SharesKernel s value) :
    Agree s m n := by
  have hForth : ∀ {v b}, m.Fixes s v b → ∃ b', n.Fixes s v b' :=
    fun hFixes => hFirst.exists_fixes hStore hFirstKernel hSecond
      hSecondReduced hSecondKernel hFixes
  have hBack : ∀ {v b}, n.Fixes s v b → ∃ b', m.Fixes s v b' :=
    fun hFixes => hSecond.exists_fixes hStore hSecondKernel hFirst
      hFirstReduced hFirstKernel hFixes
  refine ⟨?_, ?_, ?_⟩
  · rw [hFirst.contradictory_iff hStore hFirstReduced,
      hSecond.contradictory_iff hStore hSecondReduced]
  · intro v
    exact ⟨fun ⟨_, hFixes⟩ => hForth hFixes,
      fun ⟨_, hFixes⟩ => hBack hFixes⟩
  · intro hFine v b
    rw [hFirst.contradictory_iff hStore hFirstReduced,
      not_not] at hFine
    rcases hFine with ⟨a, hExtends, hHolds⟩
    -- Both values are that of the solution.
    constructor
    · intro hFixes
      rcases hForth hFixes with ⟨b', hFixes'⟩
      rw [← hFirst.value_of_fixes hStore hExtends hHolds hFixes,
        hSecond.value_of_fixes hStore hExtends hHolds hFixes']
      exact hFixes'
    · intro hFixes
      rcases hBack hFixes with ⟨b', hFixes'⟩
      rw [← hSecond.value_of_fixes hStore hExtends hHolds hFixes,
        hFirst.value_of_fixes hStore hExtends hHolds hFixes']
      exact hFixes'

end Matrix

end ParitySolver
