import Mathlib.Data.List.Sort
import ParitySolver.Proofs.Facts
import ParitySolver.Proofs.NormalForm

/-
  The tables of a store are consistent, whether it was made
  from constraints or from facts. The occurrences of a
  variable are the constraints whose normal form has it. The
  variables that occur are numbered in their order, and the
  two tables of this numbering are inverse to each other. All
  variables are below a bound that is next to the largest
  declared index.

  Key definitions include:
    * `Store.Indexed`

  Main declarations:
    * `Store.pairwise_variableTable`
    * `Store.column_lt_iff`
    * `Store.indexed_of_ofNamed`
    * `Store.tables_agree`
-/

namespace ParitySolver

namespace Store

variable {s : Store} {declared : List Literal}
variable {named : List (Nat × Constraint)}

------------------------------------------------------------
-- The order of the columns
------------------------------------------------------------

/- The variables that have a column ascend with their columns. -/
theorem pairwise_variableTable
    (hStore : ofNamed declared named = .ok s) :
    s.variableTable.toList.Pairwise (· < ·) := by
  rcases ofNamed_eq_ok_iff.mp hStore with ⟨_, stored, _, rfl⟩
  rw [variableTable_build]
  exact List.pairwise_lt_range.filter _

theorem column_lt_iff
    (hStore : ofNamed declared named = .ok s)
    {v w i j : Nat}
    (hFirst : s.columnOf? v = some i)
    (hSecond : s.columnOf? w = some j) :
    i < j ↔ v < w := by
  have hWell := wellFormed_of_ofNamed hStore
  have hAscend := (pairwise_variableTable hStore).sortedLT
  have hEntry : ∀ {u k : Nat}, s.columnOf? u = some k →
      ∃ hLt : k < s.variableTable.toList.length,
        s.variableTable.toList[k] = u := by
    intro u k hColumn
    have hAt := (hWell.columnOf?_eq_some_iff u k).mp hColumn
    rw [← Array.getElem?_toList] at hAt
    exact List.getElem?_eq_some_iff.mp hAt
  rcases hEntry hFirst with ⟨_, rfl⟩
  rcases hEntry hSecond with ⟨_, rfl⟩
  exact hAscend.getElem_lt_getElem_iff.symm

------------------------------------------------------------
-- Consistent tables
------------------------------------------------------------

/-
  The tables of a store agree with its constraints and with
  each other.
-/
structure Indexed (s : Store) : Prop where
  /- The occurrences of a variable ascend. -/
  occurrences_ascend :
    ∀ v, (s.constraintsOf v).Pairwise (· < ·)
  /- They are the positions of the constraints that have it. -/
  mem_occurrences :
    ∀ v r, r ∈ s.constraintsOf v ↔
      ∃ c, s.constraints[r]? = some c ∧ v ∈ c.vars
  /- The variables that occur have columns. -/
  column_isSome :
    ∀ v, (s.columnOf? v).isSome = true ↔ s.constraintsOf v ≠ []
  /- A column has the variable that has the column. -/
  inverse :
    ∀ v column, s.columnOf? v = some column ↔
      Table.get s.variableTable column = .ok v
  /- Each number below the number of columns is a column. -/
  columns :
    ∀ column, column < s.numColumns ↔
      ∃ v, s.columnOf? v = some column
  /- The columns are in the order of the variables. -/
  order :
    ∀ v w i j, s.columnOf? v = some i → s.columnOf? w = some j →
      (i < j ↔ v < w)
  /- The variables of normal forms are variables of the store. -/
  vars_lt :
    ∀ c ∈ s.constraints, ∀ v ∈ c.vars, v < s.numVariables
  /- The variables of the given literals are, too. -/
  literals_lt :
    ∀ c ∈ s.constraints, ∀ l ∈ c.literals, l.index < s.numVariables

theorem indexed_of_ofNamed
    (hStore : ofNamed declared named = .ok s) :
    s.Indexed := by
  have hWell := wellFormed_of_ofNamed hStore
  have hInverse : ∀ v column, s.columnOf? v = some column ↔
      Table.get s.variableTable column = .ok v :=
    fun v column => (hWell.columnOf?_eq_some_iff v column).trans
      Table.get_eq_ok_iff.symm
  refine ⟨hWell.constraintsOf_ascend, hWell.mem_constraintsOf, ?_,
    hInverse, ?_, fun _ _ _ _ => column_lt_iff hStore, hWell.vars_lt,
    fun c hMem l hLiteral => lt_of_mem_literals hStore hMem hLiteral⟩
  · intro v
    refine (hWell.isRelevant_iff v).trans ?_
    constructor
    · rintro ⟨c, hMem, hVar⟩
      rcases Array.mem_iff_getElem?.mp hMem with ⟨r, hAt⟩
      exact List.ne_nil_of_mem
        ((hWell.mem_constraintsOf v r).mpr ⟨c, hAt, hVar⟩)
    · intro hOccurs
      rcases List.exists_mem_of_ne_nil _ hOccurs with ⟨r, hMem⟩
      rcases (hWell.mem_constraintsOf v r).mp hMem with
        ⟨c, hAt, hVar⟩
      exact ⟨c, Array.mem_of_getElem? hAt, hVar⟩
  · intro column
    constructor
    · intro hLt
      exact ⟨_, (hInverse _ column).mpr (Table.get_of_lt hLt)⟩
    · rintro ⟨v, hColumn⟩
      have hAt := (hWell.columnOf?_eq_some_iff v column).mp hColumn
      exact (Array.getElem?_eq_some_iff.mp hAt).1

/- A store is made from named constraints, however they were named. -/
theorem exists_ofNamed
    (hMade : (∃ cs, ofConstraints declared cs = .ok s) ∨
      ∃ facts, ofFacts declared facts = .ok s) :
    ∃ named, ofNamed declared named = .ok s := by
  rcases hMade with ⟨cs, hStore⟩ | ⟨facts, hStore⟩
  · exact ⟨_, hStore⟩
  · rcases ofFacts_eq_ok hStore with ⟨groups, _, hNamed⟩
    exact ⟨groups, hNamed⟩

/-
  The tables of a store are consistent, and its variables are
  the numbers up to the largest declared index.
-/
theorem tables_agree
    (hMade : (∃ cs, ofConstraints declared cs = .ok s) ∨
      ∃ facts, ofFacts declared facts = .ok s) :
    s.Indexed ∧
      (declared = [] → s.numVariables = 0) ∧
      (declared ≠ [] →
        ∃ l ∈ declared, s.numVariables = l.index + 1 ∧
          ∀ k ∈ declared, k.index ≤ l.index) := by
  rcases exists_ofNamed hMade with ⟨named, hNamed⟩
  have hBound := numVariables_of_ofNamed hNamed
  refine ⟨indexed_of_ofNamed hNamed, ?_, ?_⟩
  · rintro rfl
    exact hBound
  · intro hNonempty
    rcases exists_boundOf hNonempty with ⟨l, hMem, hNext⟩
    refine ⟨l, hMem, hBound.trans hNext, ?_⟩
    intro k hK
    have hLt := lt_boundOf hK
    omega

/-
  The universe has gaps and `l_2` cancels, so that the columns
  belong to `l_1`, `l_5` and `l_9`.
-/
theorem tables_agree_with_gaps :
    ∃ s,
      ofFacts
          [⟨5, true⟩, ⟨9, true⟩, ⟨2, false⟩, ⟨1, true⟩]
          [⟨8, .odd, ⟨9, true⟩⟩, ⟨3, .even, ⟨2, true⟩⟩,
            ⟨8, .odd, ⟨5, false⟩⟩, ⟨3, .even, ⟨2, false⟩⟩,
            ⟨3, .even, ⟨1, true⟩⟩, ⟨3, .even, ⟨9, false⟩⟩] =
          .ok s ∧
        s.variableTable = #[1, 5, 9] ∧
        s.columnOf? 9 = some 2 ∧
        s.constraintsOf 9 = [0, 1] ∧
        s.constraintsOf 6 = [] ∧
        s.numVariables = 10 := by
  have hRun :
      (ofFacts
          [⟨5, true⟩, ⟨9, true⟩, ⟨2, false⟩, ⟨1, true⟩]
          [⟨8, .odd, ⟨9, true⟩⟩, ⟨3, .even, ⟨2, true⟩⟩,
            ⟨8, .odd, ⟨5, false⟩⟩, ⟨3, .even, ⟨2, false⟩⟩,
            ⟨3, .even, ⟨1, true⟩⟩,
            ⟨3, .even, ⟨9, false⟩⟩]).toOption.any
        (fun s => decide (s.variableTable = #[1, 5, 9] ∧
          s.constraintsOf 9 = [0, 1] ∧ s.constraintsOf 6 = [])) =
        true := by
    decide +kernel
  rcases exists_ok_of_any hRun with ⟨s, hStore, hTables⟩
  rcases of_decide_eq_true hTables with ⟨hTable, hNine, hSix⟩
  rcases tables_agree (.inr ⟨_, hStore⟩) with ⟨hIndexed, _, hBound⟩
  rcases hBound nofun with ⟨l, hMem, hSize, hLargest⟩
  have hColumn : s.columnOf? 9 = some 2 := by
    rw [hIndexed.inverse, hTable]
    rfl
  have hIndex : l.index = 9 := by
    have hAbove := hLargest ⟨9, true⟩ (by decide)
    simp only [List.mem_cons, List.not_mem_nil, or_false] at hMem
    rcases hMem with rfl | rfl | rfl | rfl <;> simp at hAbove ⊢
  exact ⟨s, hStore, hTable, hColumn, hNine, hSix, by rw [hSize, hIndex]⟩

end Store

end ParitySolver
