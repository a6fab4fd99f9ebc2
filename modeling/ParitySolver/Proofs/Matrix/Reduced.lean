import Mathlib.Data.List.ReduceOption
import ParitySolver.Proofs.Matrix.Represents

/-
  What a reduced matrix shows. Its rows with at most one
  column are events, which are valid. If there are none, the
  constraints have a solution for every choice of values for
  the columns without a row, and each open variable can have
  either value.

  Key definitions include:
    * `Matrix.solution`

  Main declarations:
    * `Matrix.Represents.valid_of_mem_scan`
    * `Matrix.quiet_or_event_of_scan`
    * `Matrix.Represents.exists_solution`
    * `Matrix.Represents.exists_solution_with`
-/

namespace ParitySolver

------------------------------------------------------------
-- News of rows
------------------------------------------------------------

namespace Row

theorem news_eq_contradiction
    {row : Row}
    (hNews : row.news = .contradiction) :
    row.columns.ones = [] ∧ row.rhs = true := by
  unfold news at hNews
  split at hNews
  · rename_i hOnes
    split at hNews
    · rename_i hRhs
      exact ⟨hOnes, hRhs⟩
    · cases hNews
  · cases hNews
  · cases hNews

theorem news_eq_unit
    {row : Row}
    {column : Nat}
    (hNews : row.news = .unit column) :
    row.columns.ones = [column] := by
  unfold news at hNews
  split at hNews
  · split at hNews <;> cases hNews
  · rename_i hOnes
    cases hNews
    exact hOnes
  · cases hNews

/- A quiet row is empty and true, or has two columns. -/
theorem news_eq_quiet
    {row : Row}
    (hNews : row.news = .quiet) :
    (row.columns.ones = [] ∧ row.rhs = false) ∨
      ∀ column, row.columns.ones ≠ [column] := by
  unfold news at hNews
  split at hNews
  · rename_i hOnes
    split at hNews
    · cases hNews
    · rename_i hRhs
      exact Or.inl ⟨hOnes, by simpa using hRhs⟩
  · cases hNews
  · rename_i hOther
    exact Or.inr hOther

/- The test for an event sees all news and nothing else. -/
theorem hasEvent_iff
    {row : Row} :
    row.hasEvent = true ↔ row.news ≠ .quiet := by
  unfold hasEvent news
  split
  · cases row.rhs <;> simp
  · simp
  · simp

end Row

------------------------------------------------------------
-- Events of a matrix
------------------------------------------------------------

namespace Matrix

variable {s : Store} {value : Nat → Option Bool} {m : Matrix}

/- The event of a row is about its news. -/
theorem rowEvent?_eq_ok
    {row : Row}
    {event? : Option Event}
    (hEvent : rowEvent? s row = .ok event?) :
    (row.news = .quiet ∧ event? = none) ∨
      (row.news = .contradiction ∧
        event? =
          some (.conflict (.combination row.provenance))) ∨
      (∃ column v, row.news = .unit column ∧
        s.variableTable[column]? = some v ∧
        event? =
          some (.propagation ⟨v, row.rhs⟩
            (.combination row.provenance))) := by
  unfold rowEvent? at hEvent
  cases hNews : row.news with
  | quiet =>
      simp only [hNews] at hEvent
      cases hEvent
      exact Or.inl ⟨rfl, rfl⟩
  | contradiction =>
      simp only [hNews] at hEvent
      cases hEvent
      exact Or.inr (Or.inl ⟨rfl, rfl⟩)
  | unit column =>
      simp only [hNews, bind_eq_ok, pure_eq_ok,
        Table.get_eq_ok_iff] at hEvent
      rcases hEvent with ⟨v, hVariable, rfl⟩
      exact Or.inr (Or.inr ⟨column, v, rfl, hVariable, rfl⟩)

/- A row that passes the test for an event has one. -/
theorem hasEvent_iff_of_rowEvent?
    {row : Row}
    {event? : Option Event}
    (hEvent : rowEvent? s row = .ok event?) :
    row.hasEvent = true ↔ event?.isSome = true := by
  rw [Row.hasEvent_iff]
  rcases rowEvent?_eq_ok hEvent with
    ⟨hNews, rfl⟩ | ⟨hNews, rfl⟩ | ⟨column, v, hNews, _, rfl⟩
  · simp [hNews]
  · simp [hNews]
  · simp [hNews]

/- What scanning a matrix reports. -/
theorem scan_eq_ok
    {events : List Event}
    (hScan : m.scan s = .ok events) :
    m.tracked = true ∧
      ∃ found : List (Option Event),
        List.Forall₂ (fun row event? =>
            rowEvent? s row = .ok event?)
          m.rows.toList found ∧
        ∀ event, event ∈ events ↔ some event ∈ found := by
  simp only [scan, bind_eq_ok, pure_eq_ok, require_eq_ok,
    exists_const, mapM_eq_ok_iff] at hScan
  rcases hScan with ⟨hTracked, found, hAll, rfl⟩
  exact ⟨hTracked, found, hAll, fun event =>
    List.reduceOption_mem_iff⟩

/- A reported event is that of some row. -/
theorem exists_row_of_mem_scan
    {events : List Event}
    (hScan : m.scan s = .ok events)
    {event : Event}
    (hMem : event ∈ events) :
    ∃ (r : Nat) (row : Row), m.rows[r]? = some row ∧
      rowEvent? s row = .ok (some event) := by
  rcases scan_eq_ok hScan with ⟨-, found, hAll, hEvents⟩
  rcases exists_of_forall₂_of_mem hAll ((hEvents event).mp hMem)
    with ⟨row, hRow, hEvent⟩
  rcases List.mem_iff_getElem?.mp hRow with ⟨r, hGet⟩
  rw [Array.getElem?_toList] at hGet
  exact ⟨r, row, hGet, hEvent⟩

/- Scanning reports valid events only. -/
theorem Represents.valid_of_mem_scan
    (hStore : s.WellFormed)
    (hMatrix : m.Represents s value)
    {events : List Event}
    (hScan : m.scan s = .ok events)
    {event : Event}
    (hMem : event ∈ events) :
    event.Valid s value := by
  rcases exists_row_of_mem_scan hScan hMem with
    ⟨r, row, hRow, hEvent⟩
  have hSum := hMatrix.provenance (scan_eq_ok hScan).1 r row hRow
  rcases rowEvent?_eq_ok hEvent with
    ⟨-, hNone⟩ | ⟨hNews, hSome⟩ |
    ⟨column, v, hNews, hVariable, hSome⟩
  · cases hNone
  · cases hSome
    rcases Row.news_eq_contradiction hNews with ⟨hOnes, hRhs⟩
    intro a hExtends
    have hDefect := hSum a hExtends
    unfold Row.defect at hDefect
    rw [hOnes, hRhs] at hDefect
    exact hDefect.symm
  · cases hSome
    have hOnes := Row.news_eq_unit hNews
    have hColumn := (hStore.columnOf?_eq_some_iff v column).mpr
      hVariable
    refine ⟨?_, ?_⟩
    · unfold Store.isRelevant
      rw [hColumn]
      rfl
    · intro a hExtends
      have hDefect := hSum a hExtends
      unfold Row.defect at hDefect
      rw [hOnes, sumOver_cons, sumOver_nil, Bool.xor_false,
        Store.columnValue_eq hVariable a] at hDefect
      exact hDefect.symm

/-
  Scanning misses no row: each is quiet, false, or
  determines the variable of a reported literal.
-/
theorem quiet_or_event_of_scan
    {events : List Event}
    (hScan : m.scan s = .ok events)
    {r : Nat}
    {row : Row}
    (hRow : m.rows[r]? = some row) :
    row.news = .quiet ∨
      (∃ origin, Event.conflict origin ∈ events) ∨
      (∃ column v origin,
        row.columns.has column = true ∧
          s.variableTable[column]? = some v ∧
          Event.propagation ⟨v, row.rhs⟩ origin ∈ events) := by
  rcases scan_eq_ok hScan with ⟨-, found, hAll, hEvents⟩
  have hLength := List.Forall₂.length_eq hAll
  have hLt := (Array.getElem?_eq_some_iff.mp hRow).1
  have hIn : r < found.length := by
    rw [← hLength, Array.length_toList]
    exact hLt
  rcases getElem?_of_forall₂ hAll
      (List.getElem?_eq_getElem hIn) with ⟨same, hSame, hEvent⟩
  rw [Array.getElem?_toList] at hSame
  have hEq : same = row := Option.some.inj (hSame.symm.trans hRow)
  subst hEq
  have hFound : ∀ event, found[r] = some event → event ∈ events :=
    fun event hAt =>
      (hEvents event).mpr (hAt ▸ List.getElem_mem hIn)
  rcases rowEvent?_eq_ok hEvent with
    ⟨hNews, -⟩ | ⟨-, hSome⟩ | ⟨column, v, hNews, hVariable, hSome⟩
  · exact Or.inl hNews
  · exact Or.inr (Or.inl ⟨_, hFound _ hSome⟩)
  · right
    right
    refine ⟨column, v, _, ?_, hVariable, hFound _ hSome⟩
    rw [← BitSet.mem_ones, Row.news_eq_unit hNews]
    exact List.mem_singleton_self column

------------------------------------------------------------
-- Reduced matrices
------------------------------------------------------------

theorem mem_rowsWith
    {r column : Nat} :
    r ∈ m.rowsWith column ↔
      ∃ row, m.rows[r]? = some row ∧
        row.columns.has column = true := by
  unfold rowsWith
  rw [List.mem_filter, List.mem_range]
  constructor
  · rintro ⟨-, hHas⟩
    split at hHas
    · rename_i row hGet
      exact ⟨row, hGet, hHas⟩
    · cases hHas
  · rintro ⟨row, hGet, hHas⟩
    refine ⟨(Array.getElem?_eq_some_iff.mp hGet).1, ?_⟩
    simp [hGet, hHas]

section Map

variable (f : Row → Row)

/- Which rows have a column is seen from the columns only. -/
theorem rowsWith_map
    (hColumns : ∀ row, (f row).columns = row.columns)
    (table : Array (Option Nat))
    (tracked : Bool)
    (column : Nat) :
    (⟨m.rows.map f, table, tracked⟩ : Matrix).rowsWith column =
      m.rowsWith column := by
  unfold rowsWith
  rw [Array.size_map]
  congr 1
  funext r
  rw [Array.getElem?_map]
  cases m.rows[r]? with
  | none => rfl
  | some row => simp only [Option.map_some, hColumns]

/- Whether a matrix is reduced is seen from columns and pivots. -/
theorem isReduced_map
    (hColumns : ∀ row, (f row).columns = row.columns)
    (hPivot : ∀ row, (f row).pivot = row.pivot)
    (tracked : Bool) :
    (⟨m.rows.map f, m.rowOfPivot, tracked⟩ : Matrix).isReduced =
      m.isReduced := by
  unfold isReduced
  simp only [rowsWith_map f hColumns, Array.toList_map,
    List.zipIdx_map, List.all_map]
  congr 1
  funext entry
  simp only [Function.comp_apply, Prod.map_fst, Prod.map_snd, id_eq,
    hColumns, hPivot]

end Map

/- What it means for a matrix to be reduced, row by row. -/
theorem of_isReduced
    (hReduced : m.isReduced = true)
    {r : Nat}
    {row : Row}
    (hRow : m.rows[r]? = some row) :
    (row.pivot = none ∧ row.columns.ones = []) ∨
      ∃ column, row.pivot = some column ∧
        m.rowsWith column = [r] := by
  unfold isReduced at hReduced
  rw [List.all_eq_true] at hReduced
  have hMem : (row, r) ∈ m.rows.toList.zipIdx := by
    rw [List.mem_zipIdx_iff_getElem?, Array.getElem?_toList]
    exact hRow
  have hEntry := hReduced (row, r) hMem
  cases hPivot : row.pivot with
  | none =>
      left
      simp only [hPivot] at hEntry
      refine ⟨rfl, List.eq_nil_iff_forall_not_mem.mpr ?_⟩
      intro i hMem
      have hHas := (BitSet.mem_ones row.columns i).mp hMem
      rw [BitSet.isZero_iff.mp hEntry i] at hHas
      cases hHas
  | some column =>
      right
      simp only [hPivot, Bool.and_eq_true, beq_iff_eq] at hEntry
      exact ⟨column, rfl, hEntry.2⟩

/- In a reduced matrix a column is the pivot of one row at most. -/
theorem eq_of_pivot_column
    (hReduced : m.isReduced = true)
    {r t : Nat}
    {row other : Row}
    {column : Nat}
    (hRow : m.rows[r]? = some row)
    (hOther : m.rows[t]? = some other)
    (hPivot : row.pivot = some column)
    (hHas : other.columns.has column = true) :
    other = row := by
  rcases of_isReduced hReduced hRow with
    ⟨hNone, -⟩ | ⟨pivot, hSome, hRows⟩
  · rw [hPivot] at hNone
    cases hNone
  · have hSame : pivot = column :=
      Option.some.inj (hSome.symm.trans hPivot)
    subst hSame
    have hIn : t ∈ m.rowsWith pivot :=
      mem_rowsWith.mpr ⟨other, hOther, hHas⟩
    rw [hRows, List.mem_singleton] at hIn
    subst hIn
    exact Option.some.inj (hOther.symm.trans hRow)

/- In a reduced matrix a row has its pivot column. -/
theorem has_pivot
    (hReduced : m.isReduced = true)
    {r : Nat}
    {row : Row}
    {column : Nat}
    (hRow : m.rows[r]? = some row)
    (hPivot : row.pivot = some column) :
    row.columns.has column = true := by
  rcases of_isReduced hReduced hRow with
    ⟨hNone, -⟩ | ⟨pivot, hSome, hRows⟩
  · rw [hPivot] at hNone
    cases hNone
  · have hSame : pivot = column :=
      Option.some.inj (hSome.symm.trans hPivot)
    subst hSame
    have hIn : r ∈ m.rowsWith pivot := by
      rw [hRows]
      exact List.mem_singleton_self r
    rcases mem_rowsWith.mp hIn with ⟨found, hFound, hHas⟩
    have hEq : found = row :=
      Option.some.inj (hFound.symm.trans hRow)
    exact hEq ▸ hHas

------------------------------------------------------------
-- Solutions of a reduced matrix
------------------------------------------------------------

/- The row whose pivot is a column. -/
def rowOn?
    (m : Matrix)
    (column : Nat) : Option Row :=
  m.rows.toList.find? fun row => row.pivot == some column

/-
  The values of the columns, given free values for those
  that are not pivots: a pivot is what its row leaves.
-/
def solution
    (m : Matrix)
    (free : Nat → Bool)
    (column : Nat) : Bool :=
  match m.rowOn? column with
  | some row =>
      row.rhs ^^ sumOver free
        (row.columns.ones.filter (· != column))
  | none => free column

theorem rowOn?_eq_some
    (hReduced : m.isReduced = true)
    {r : Nat}
    {row : Row}
    {column : Nat}
    (hRow : m.rows[r]? = some row)
    (hPivot : row.pivot = some column) :
    m.rowOn? column = some row := by
  unfold rowOn?
  cases hFind :
      m.rows.toList.find? fun row => row.pivot == some column with
  | none =>
      have hMem : row ∈ m.rows.toList :=
        Array.mem_toList_iff.mpr (Array.mem_of_getElem? hRow)
      have hNot := List.find?_eq_none.mp hFind row hMem
      simp [hPivot] at hNot
  | some found =>
      have hFound : found.pivot = some column := by
        simpa using List.find?_some hFind
      rcases List.mem_iff_getElem?.mp
          (List.mem_of_find?_eq_some hFind) with ⟨t, hGet⟩
      rw [Array.getElem?_toList] at hGet
      have hHas := has_pivot hReduced hRow hPivot
      rw [eq_of_pivot_column hReduced hGet hRow hFound hHas]

/- Every such solution makes all rows true but contradictions. -/
theorem sumOver_solution
    (hReduced : m.isReduced = true)
    {r : Nat}
    {row : Row}
    (hRow : m.rows[r]? = some row)
    (hNews : row.news ≠ .contradiction)
    (free : Nat → Bool) :
    sumOver (m.solution free) row.columns.ones = row.rhs := by
  rcases of_isReduced hReduced hRow with
    ⟨-, hOnes⟩ | ⟨pivot, hPivot, -⟩
  · unfold Row.news at hNews
    rw [hOnes] at hNews ⊢
    cases hRhs : row.rhs with
    | false => rfl
    | true => simp [hRhs] at hNews
  · have hHas := has_pivot hReduced hRow hPivot
    have hIn : pivot ∈ row.columns.ones :=
      (BitSet.mem_ones _ _).mpr hHas
    have hPerm :
        (pivot :: row.columns.ones.filter (· != pivot)).Perm
          row.columns.ones := by
      have hErase := List.Nodup.erase_eq_filter
        row.columns.nodup_ones pivot
      rw [← hErase]
      exact (List.perm_cons_erase hIn).symm
    have hFree : ∀ column ∈ row.columns.ones.filter (· != pivot),
        m.solution free column = free column := by
      intro column hMem
      rw [List.mem_filter] at hMem
      have hColumn : row.columns.has column = true :=
        (BitSet.mem_ones _ _).mp hMem.1
      have hNe : column ≠ pivot := by simpa using hMem.2
      unfold solution
      cases hOn : m.rowOn? column with
      | none => rfl
      | some other =>
          have hOther : other.pivot = some column := by
            simpa using List.find?_some hOn
          rcases List.mem_iff_getElem?.mp
              (List.mem_of_find?_eq_some hOn) with ⟨t, hGet⟩
          rw [Array.getElem?_toList] at hGet
          have hSame := eq_of_pivot_column hReduced hGet hRow
            hOther hColumn
          rw [hSame] at hPivot
          exact absurd
            (Option.some.inj (hOther.symm.trans hPivot)) hNe
    rw [← sumOver_perm _ hPerm, sumOver_cons, sumOver_congr hFree]
    unfold solution
    rw [rowOn?_eq_some hReduced hRow hPivot]
    simp

/- A column that no row determines can have either value. -/
theorem exists_solution_column
    (hReduced : m.isReduced = true)
    {column : Nat}
    (hUndetermined : ∀ (r : Nat) (row : Row),
      m.rows[r]? = some row → row.columns.ones ≠ [column])
    (b : Bool) :
    ∃ free, m.solution free column = b := by
  cases hOn : m.rowOn? column with
  | none =>
      refine ⟨fun _ => b, ?_⟩
      unfold solution
      rw [hOn]
  | some row =>
      have hPivot : row.pivot = some column := by
        simpa using List.find?_some hOn
      rcases List.mem_iff_getElem?.mp
          (List.mem_of_find?_eq_some hOn) with ⟨r, hGet⟩
      rw [Array.getElem?_toList] at hGet
      have hHas := has_pivot hReduced hGet hPivot
      have hIn : column ∈ row.columns.ones :=
        (BitSet.mem_ones _ _).mpr hHas
      -- The pivot's row has another column, and its value is free.
      have hOther : ∃ other ∈ row.columns.ones, other ≠ column := by
        by_contra hNone
        have hAll : ∀ other ∈ row.columns.ones,
            other = column := by
          intro other hMem
          by_contra hNe
          exact hNone ⟨other, hMem, hNe⟩
        have hOnly := List.eq_replicate_of_mem hAll
        have hNodup := row.columns.nodup_ones
        rw [hOnly, List.nodup_replicate] at hNodup
        have hPositive := List.length_pos_of_mem hIn
        have hOne : row.columns.ones.length = 1 := by omega
        rw [hOne] at hOnly
        exact hUndetermined r row hGet hOnly
      rcases hOther with ⟨other, hMem, hNe⟩
      have hKeep :
          other ∈ row.columns.ones.filter (· != column) := by
        rw [List.mem_filter]
        exact ⟨hMem, by simpa using hNe⟩
      refine ⟨fun i => (row.rhs ^^ b) && decide (other = i), ?_⟩
      unfold solution
      rw [hOn]
      cases hFlip : (row.rhs ^^ b) with
      | false =>
          simp only [Bool.false_and]
          rw [sumOver_eq_false fun _ _ => rfl]
          revert hFlip
          cases row.rhs <;> cases b <;> simp
      | true =>
          simp only [Bool.true_and]
          rw [sumOver_decide_eq
            (row.columns.nodup_ones.filter _)]
          simp only [hKeep, decide_true]
          revert hFlip
          cases row.rhs <;> cases b <;> simp

/-
  Values for the columns, and given ones for the variables
  that are assigned or have no column.
-/
def assignmentOf
    (s : Store)
    (value : Nat → Option Bool)
    (x : Nat → Bool)
    (base : Assignment) : Assignment :=
  fun v =>
    match value v, s.columnOf? v with
    | none, some column => x column
    | _, _ => base v

theorem columnValue_assignmentOf
    (hStore : s.WellFormed)
    {column v : Nat}
    (hVariable : s.variableTable[column]? = some v)
    (hOpen : value v = none)
    (x : Nat → Bool)
    (base : Assignment) :
    s.columnValue (assignmentOf s value x base) column =
      x column := by
  rw [Store.columnValue_eq hVariable]
  unfold assignmentOf
  rw [hOpen, (hStore.columnOf?_eq_some_iff v column).mpr hVariable]

/-
  A reduced matrix without contradictions shows how to
  satisfy the constraints.
-/
theorem Represents.solution_satisfies
    (hStore : s.WellFormed)
    (hMatrix : m.Represents s value)
    (hReduced : m.isReduced = true)
    (hNews : ∀ (r : Nat) (row : Row), m.rows[r]? = some row →
      row.news ≠ .contradiction)
    (free : Nat → Bool)
    {base : Assignment}
    (hBase : Extends base value) :
    s.Holds (assignmentOf s value (m.solution free) base) := by
  have hExtends :
      Extends (assignmentOf s value (m.solution free) base)
        value := by
    intro v b hValue
    unfold assignmentOf
    rw [hValue]
    exact hBase v b hValue
  rw [hStore.holds_iff_defect,
    ← hMatrix.solutions _ hExtends]
  intro r row hRow
  have hColumns : ∀ column ∈ row.columns.ones,
      s.columnValue
          (assignmentOf s value (m.solution free) base) column =
        m.solution free column := by
    intro column hMem
    rcases hMatrix.openColumns r row hRow column
        ((BitSet.mem_ones _ _).mp hMem) with
      ⟨v, hVariable, hOpen⟩
    exact columnValue_assignmentOf hStore hVariable hOpen _ base
  unfold Row.defect
  rw [sumOver_congr hColumns,
    sumOver_solution hReduced hRow (hNews r row hRow) free]
  exact Bool.xor_self _

/-
  The constraints of such a matrix have a solution with any
  values where there is no open column.
-/
theorem Represents.exists_solution
    (hStore : s.WellFormed)
    (hMatrix : m.Represents s value)
    (hReduced : m.isReduced = true)
    (hNews : ∀ (r : Nat) (row : Row), m.rows[r]? = some row →
      row.news ≠ .contradiction)
    {base : Assignment}
    (hBase : Extends base value) :
    ∃ a, s.Holds a ∧
      ∀ v, value v ≠ none ∨ s.isRelevant v = false →
        a v = base v := by
  refine ⟨_, hMatrix.solution_satisfies hStore hReduced hNews
    (fun _ => false) hBase, ?_⟩
  intro v hFixed
  unfold assignmentOf
  split
  · rename_i column hNone hColumn
    rcases hFixed with hSome | hIrrelevant
    · exact absurd hNone hSome
    · unfold Store.isRelevant at hIrrelevant
      rw [hColumn] at hIrrelevant
      cases hIrrelevant
  · rfl

/-
  If no row has news, a variable with an open column can have
  either value in addition.
-/
theorem Represents.exists_solution_with
    (hStore : s.WellFormed)
    (hMatrix : m.Represents s value)
    (hReduced : m.isReduced = true)
    (hQuiet : ∀ (r : Nat) (row : Row), m.rows[r]? = some row →
      row.news = .quiet)
    {base : Assignment}
    (hBase : Extends base value)
    {w : Nat}
    (hOpen : value w = none)
    (hRelevant : s.isRelevant w = true)
    (b : Bool) :
    ∃ a, s.Holds a ∧ a w = b ∧
      ∀ v, value v ≠ none ∨ s.isRelevant v = false →
        a v = base v := by
  unfold Store.isRelevant at hRelevant
  rcases Option.isSome_iff_exists.mp hRelevant with
    ⟨column, hColumn⟩
  have hUndetermined : ∀ (r : Nat) (row : Row),
      m.rows[r]? = some row → row.columns.ones ≠ [column] := by
    intro r row hRow hOnes
    rcases Row.news_eq_quiet (hQuiet r row hRow) with
      ⟨hEmpty, -⟩ | hMany
    · rw [hEmpty] at hOnes
      cases hOnes
    · exact hMany column hOnes
  rcases exists_solution_column hReduced hUndetermined b with
    ⟨free, hFree⟩
  refine ⟨_, hMatrix.solution_satisfies hStore hReduced
    (fun r row hRow => by simp [hQuiet r row hRow]) free hBase,
    ?_, ?_⟩
  · unfold assignmentOf
    rw [hOpen, hColumn]
    exact hFree
  · intro v hFixed
    unfold assignmentOf
    split
    · rename_i other hNone hOther
      rcases hFixed with hSome | hIrrelevant
      · exact absurd hNone hSome
      · unfold Store.isRelevant at hIrrelevant
        rw [hOther] at hIrrelevant
        cases hIrrelevant
    · rfl

end Matrix

end ParitySolver
