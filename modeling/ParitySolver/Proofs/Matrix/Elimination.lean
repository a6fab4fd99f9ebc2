import ParitySolver.Proofs.Matrix.Reduced

/-
  Elimination always comes to its end, and what it leaves is
  a reduced matrix.

  The rows of a matrix have room for the same columns, and
  the table of pivots agrees with the rows. A row without a
  pivot is given one by clearing a column of it from the
  other rows. This does not disturb the pivots of the other
  rows, since a pivot column is in its own row only, so the
  number of rows that are still to be reduced goes down.

  Key definitions include:
    * `Matrix.Shaped`
    * `Matrix.ReducedBut`

  Main declarations:
    * `Matrix.Shaped.exists_ofStore`
    * `Matrix.exists_pivot`
    * `Matrix.exists_eliminate`
    * `Matrix.isReduced_of_reducedBut`
-/

namespace ParitySolver

------------------------------------------------------------
-- Bit sets of one length
------------------------------------------------------------

namespace BitSet

theorem lt_size_of_has
    {s : BitSet}
    {i : Nat}
    (hHas : s.has i = true) :
    i < s.size := by
  apply Nat.lt_of_not_le
  intro hGe
  rw [has_of_ge s hGe] at hHas
  cases hHas

theorem exists_xor
    {s t : BitSet}
    (hSize : s.size = t.size) :
    ∃ u, s.xor t = .ok u ∧ u.size = s.size := by
  refine ⟨s.sum t hSize, ?_, rfl⟩
  unfold xor
  rw [dif_pos hSize]

theorem exists_insert
    {s : BitSet}
    {i : Nat}
    (hLt : i < s.size) :
    ∃ t, s.insert i = .ok t ∧ t.size = s.size := by
  unfold insert
  rw [dif_pos hLt]
  exact ⟨_, rfl, rfl⟩

theorem exists_toggle
    {s : BitSet}
    {i : Nat}
    (hLt : i < s.size) :
    ∃ t, s.toggle i = .ok t ∧ t.size = s.size := by
  unfold toggle
  rw [dif_pos hLt]
  exact ⟨_, rfl, rfl⟩

/- A set has no first member only if it has no members. -/
theorem first?_eq_none
    {s : BitSet}
    (hNone : s.first? = none)
    (i : Nat) :
    s.has i = false := by
  rw [first?_eq_head?, List.head?_eq_none_iff] at hNone
  rw [← Bool.not_eq_true, ← mem_ones, hNone]
  exact List.not_mem_nil

theorem has_of_first?
    {s : BitSet}
    {i : Nat}
    (hFirst : s.first? = some i) :
    s.has i = true :=
  (first?_eq_some_iff.mp hFirst).1

end BitSet

/- Rows of the same shape can be added. -/
theorem Row.exists_add
    {target source : Row}
    (hColumns : target.columns.size = source.columns.size)
    (hProvenance :
      target.provenance.size = source.provenance.size) :
    ∃ sum, target.add source = .ok sum ∧
      sum.columns.size = target.columns.size ∧
      sum.provenance.size = target.provenance.size := by
  rcases BitSet.exists_xor hColumns with ⟨columns, hXor, hSize⟩
  rcases BitSet.exists_xor hProvenance with
    ⟨provenance, hXor', hSize'⟩
  refine ⟨⟨columns, target.rhs ^^ source.rhs, provenance,
    target.pivot⟩, ?_, hSize, hSize'⟩
  simp only [Row.add, bind_eq_ok, pure_eq_ok]
  exact ⟨columns, hXor, provenance, hXor', rfl⟩

namespace Matrix

variable {m n : Matrix} {width depth : Nat}

------------------------------------------------------------
-- The shape of a matrix
------------------------------------------------------------

/-
  The rows have room for the same columns and positions, and
  the table of pivots says which row has which pivot.
-/
structure Shaped
    (width depth : Nat)
    (m : Matrix) : Prop where
  columns :
    ∀ (r : Nat) (row : Row), m.rows[r]? = some row →
      row.columns.size = width
  provenance :
    ∀ (r : Nat) (row : Row), m.rows[r]? = some row →
      row.provenance.size = depth
  table : m.rowOfPivot.size = width
  pivot_iff :
    ∀ r column, m.rowOfPivot[column]? = some (some r) ↔
      ∃ row : Row, m.rows[r]? = some row ∧
        row.pivot = some column

theorem Shaped.requireColumn
    (hShaped : m.Shaped width depth)
    {column : Nat}
    (hLt : column < width) :
    m.requireColumn column = .ok () := by
  unfold Matrix.requireColumn
  apply require_of_true
  rw [Array.all_eq_true_iff_forall_mem]
  intro row hMem
  rcases Array.mem_iff_getElem?.mp hMem with ⟨r, hRow⟩
  rw [hShaped.columns r row hRow]
  exact decide_eq_true hLt

theorem Shaped.lt_width
    (hShaped : m.Shaped width depth)
    {r : Nat}
    {row : Row}
    (hRow : m.rows[r]? = some row)
    {column : Nat}
    (hHas : row.columns.has column = true) :
    column < width := by
  rw [← hShaped.columns r row hRow]
  exact BitSet.lt_size_of_has hHas

/- Replacing a row by one of the same shape keeps the shape. -/
theorem Shaped.setRow
    (hShaped : m.Shaped width depth)
    {target : Nat}
    {old new : Row}
    (hOld : m.rows[target]? = some old)
    (hColumns : new.columns.size = old.columns.size)
    (hProvenance : new.provenance.size = old.provenance.size)
    (hPivot : new.pivot = old.pivot) :
    { m with rows := m.rows.setIfInBounds target new }.Shaped
      width depth := by
  have hGet := getElem?_setRow hOld new
  refine ⟨?_, ?_, hShaped.table, ?_⟩
  · intro r row hRow
    rw [hGet] at hRow
    split at hRow
    · cases hRow
      rw [hColumns]
      exact hShaped.columns target old hOld
    · exact hShaped.columns r row hRow
  · intro r row hRow
    rw [hGet] at hRow
    split at hRow
    · cases hRow
      rw [hProvenance]
      exact hShaped.provenance target old hOld
    · exact hShaped.provenance r row hRow
  · intro r column
    rw [hShaped.pivot_iff, hGet]
    by_cases hEq : target = r
    · subst hEq
      rw [if_pos rfl, hOld]
      simp [hPivot]
    · rw [if_neg hEq]

------------------------------------------------------------
-- Adding rows
------------------------------------------------------------

/-
  Adding a row to others comes to its end. A row that is not
  a target stays, and a target becomes the sum.
-/
theorem Shaped.exists_additions
    {r : Nat}
    {row : Row}
    {targets : List Nat}
    (hShaped : m.Shaped width depth)
    (hRow : m.rows[r]? = some row)
    (hNodup : targets.Nodup)
    (hTargets : ∀ q ∈ targets, q ≠ r ∧ q < m.rows.size) :
    ∃ n, targets.foldlM (fun m target => m.addRow r target) m =
        .ok n ∧
      n.Shaped width depth ∧
      n.rowOfPivot = m.rowOfPivot ∧
      (∀ q, q ∉ targets → n.rows[q]? = m.rows[q]?) ∧
      ∀ q ∈ targets, ∀ old, m.rows[q]? = some old →
        ∃ sum, old.add row = .ok sum ∧ n.rows[q]? = some sum := by
  induction targets generalizing m with
  | nil =>
      refine ⟨m, rfl, hShaped, rfl, fun _ _ => rfl, ?_⟩
      intro q hMem
      cases hMem
  | cons target targets ih =>
      rw [List.nodup_cons] at hNodup
      rcases List.forall_mem_cons.mp hTargets with
        ⟨⟨hNe, hLt⟩, hRest⟩
      have hTarget : m.rows[target]? = some m.rows[target] :=
        Array.getElem?_eq_getElem hLt
      have hColumns := hShaped.columns target _ hTarget
      have hProvenance := hShaped.provenance target _ hTarget
      rcases Row.exists_add
          (hColumns.trans (hShaped.columns r row hRow).symm)
          (hProvenance.trans (hShaped.provenance r row hRow).symm)
        with ⟨sum, hSum, hSumColumns, hSumProvenance⟩
      have hNext := hShaped.setRow hTarget hSumColumns
        hSumProvenance (Row.add_eq_ok hSum).2.2.2
      have hGet := getElem?_setRow hTarget sum
      have hStep : m.addRow r target =
          .ok { m with rows := m.rows.setIfInBounds target sum } := by
        simp only [Matrix.addRow, bind_eq_ok, pure_eq_ok,
          require_eq_ok, exists_const, Table.get_eq_ok_iff]
        exact ⟨by simpa using hNe.symm, row, hRow, _, hTarget, sum,
          hSum, rfl⟩
      have hRow' :
          (m.rows.setIfInBounds target sum)[r]? = some row := by
        rw [hGet, if_neg hNe]
        exact hRow
      have hRest' : ∀ q ∈ targets, q ≠ r ∧
          q < (m.rows.setIfInBounds target sum).size := by
        intro q hMem
        rw [Array.size_setIfInBounds]
        exact hRest q hMem
      rcases ih hNext hRow' hNodup.2 hRest' with
        ⟨n, hFold, hShape, hTable, hStay, hAdded⟩
      refine ⟨n, ?_, hShape, hTable, ?_, ?_⟩
      · rw [List.foldlM_cons, hStep]
        exact hFold
      · intro q hNotMem
        rw [List.mem_cons, not_or] at hNotMem
        rw [hStay q hNotMem.2, hGet, if_neg (Ne.symm hNotMem.1)]
      · intro q hMem old hOld
        rcases List.mem_cons.mp hMem with rfl | hTail
        · have hSame : m.rows[q] = old :=
            Option.some.inj (hTarget.symm.trans hOld)
          refine ⟨sum, hSame ▸ hSum, ?_⟩
          rw [hStay q hNodup.1, hGet, if_pos rfl]
        · apply hAdded q hTail
          have hOther : target ≠ q := fun hEq =>
            hNodup.1 (hEq ▸ hTail)
          rw [hGet, if_neg hOther]
          exact hOld

/-
  What clearing a column of a row from the other rows does.
  The row stays, the others lose the column, and nothing is
  added to a row that does not have it.
-/
structure Cleared
    (m n : Matrix)
    (r column : Nat)
    (row : Row) : Prop where
  same : n.rows[r]? = some row
  rows :
    ∀ (q : Nat) (other : Row), n.rows[q]? = some other →
      ∃ old, m.rows[q]? = some old ∧ other.pivot = old.pivot ∧
        (q ≠ r → other.columns.has column = false) ∧
        (old.columns.has column = false → other = old) ∧
        ∀ c, row.columns.has c = false →
          other.columns.has c = old.columns.has c

theorem Shaped.exists_pivotOn
    (hShaped : m.Shaped width depth)
    {r column : Nat}
    {row : Row}
    (hRow : m.rows[r]? = some row)
    (hHas : row.columns.has column = true) :
    ∃ n targets, m.pivotOn r column = .ok (n, targets) ∧
      n.Shaped width depth ∧
      n.rowOfPivot = m.rowOfPivot ∧
      Cleared m n r column row := by
  have hNodup : ((m.rowsWith column).filter (· != r)).Nodup :=
    (List.nodup_range.filter _).filter _
  have hTargets : ∀ q ∈ (m.rowsWith column).filter (· != r),
      q ≠ r ∧ q < m.rows.size := by
    intro q hMem
    rw [List.mem_filter] at hMem
    rcases mem_rowsWith.mp hMem.1 with ⟨other, hOther, _⟩
    exact ⟨by simpa using hMem.2,
      (Array.getElem?_eq_some_iff.mp hOther).1⟩
  rcases hShaped.exists_additions hRow hNodup hTargets with
    ⟨n, hFold, hShape, hTable, hStay, hAdded⟩
  have hWidth := hShaped.lt_width hRow hHas
  have hContains : row.columns.contains column = .ok true := by
    unfold BitSet.contains
    rw [if_pos (BitSet.lt_size_of_has hHas), hHas]
  refine ⟨n, (m.rowsWith column).filter (· != r), ?_, hShape, hTable,
    ?_, ?_⟩
  · simp only [Matrix.pivotOn, bind_eq_ok, pure_eq_ok, require_eq_ok,
      exists_const, Table.get_eq_ok_iff]
    exact ⟨row, hRow, true, hContains, rfl, (),
      hShaped.requireColumn hWidth, n, hFold, rfl⟩
  · rw [hStay r (by simp)]
    exact hRow
  · intro q other hOther
    by_cases hMem : q ∈ (m.rowsWith column).filter (· != r)
    · have hFilter := List.mem_filter.mp hMem
      rcases mem_rowsWith.mp hFilter.1 with ⟨old, hOld, hOldHas⟩
      rcases hAdded q hMem old hOld with ⟨sum, hSum, hNew⟩
      cases hOther.symm.trans hNew
      rcases Row.add_eq_ok hSum with ⟨hXor, _, _, hPivot⟩
      refine ⟨old, hOld, hPivot, ?_, ?_, ?_⟩
      · intro _
        rw [BitSet.has_xor hXor, hOldHas, hHas]
        rfl
      · intro hNot
        rw [hOldHas] at hNot
        cases hNot
      · intro c hNot
        rw [BitSet.has_xor hXor, hNot, Bool.xor_false]
    · rw [hStay q hMem] at hOther
      refine ⟨other, hOther, rfl, ?_, fun _ => rfl, fun _ _ => rfl⟩
      intro hNe
      cases hOtherHas : other.columns.has column with
      | false => rfl
      | true =>
          exfalso
          apply hMem
          rw [List.mem_filter]
          refine ⟨mem_rowsWith.mpr ⟨other, hOther, hOtherHas⟩, ?_⟩
          simpa using hNe

------------------------------------------------------------
-- Changing a pivot
------------------------------------------------------------

/-
  A row may get another pivot if the table of pivots changes
  for this row only.
-/
theorem Shaped.withPivot
    (hShaped : m.Shaped width depth)
    {r : Nat}
    {row : Row}
    (hRow : m.rows[r]? = some row)
    {pivot : Option Nat}
    {table : Array (Option Nat)}
    (hSize : table.size = m.rowOfPivot.size)
    (hTable : ∀ q column, table[column]? = some (some q) ↔
      if r = q then pivot = some column
      else m.rowOfPivot[column]? = some (some q)) :
    { m with
      rows := m.rows.setIfInBounds r { row with pivot }
      rowOfPivot := table }.Shaped width depth := by
  have hGet := getElem?_setRow hRow { row with pivot }
  refine ⟨?_, ?_, hSize.trans hShaped.table, ?_⟩
  · intro q other hOther
    rw [hGet] at hOther
    split at hOther
    · cases hOther
      exact hShaped.columns r row hRow
    · exact hShaped.columns q other hOther
  · intro q other hOther
    rw [hGet] at hOther
    split at hOther
    · cases hOther
      exact hShaped.provenance r row hRow
    · exact hShaped.provenance q other hOther
  · intro q column
    simp only [hTable, hGet]
    by_cases hEq : r = q
    · simp [hEq]
    · simp only [if_neg hEq]
      exact hShaped.pivot_iff q column

/- A row without a pivot can take a column that is no pivot. -/
theorem Shaped.exists_takePivot
    (hShaped : m.Shaped width depth)
    {r column : Nat}
    {row : Row}
    (hRow : m.rows[r]? = some row)
    (hNone : row.pivot = none)
    (hFree : m.rowOfPivot[column]? = some none) :
    ∃ n, m.setPivot r (some column) = .ok (n, none) ∧
      n.Shaped width depth ∧
      ∀ q, n.rows[q]? =
        if r = q then some { row with pivot := some column }
        else m.rows[q]? := by
  have hLt : column < m.rowOfPivot.size :=
    (Array.getElem?_eq_some_iff.mp hFree).1
  have hTake : taken m.rowOfPivot r (some column) =
      .ok (m.rowOfPivot.setIfInBounds column (some r)) := by
    simp only [taken, bind_eq_ok, require_eq_ok, exists_const,
      Table.get_eq_ok_iff]
    exact ⟨none, hFree, rfl, Table.set_of_lt _ hLt⟩
  refine ⟨_, setPivot_eq_ok_iff.mpr
    ⟨row, m.rowOfPivot, _, hRow, hNone, rfl, hTake, rfl⟩, ?_,
    getElem?_setRow hRow _⟩
  refine hShaped.withPivot hRow (Array.size_setIfInBounds ..) ?_
  intro q c
  by_cases hColumn : column = c
  · subst hColumn
    rw [Array.getElem?_setIfInBounds_self_of_lt hLt, hFree]
    simp
  · rw [Array.getElem?_setIfInBounds_ne hColumn]
    by_cases hEq : r = q
    · subst hEq
      simp [hShaped.pivot_iff, hRow, hNone, hColumn]
    · rw [if_neg hEq]

/- A row can give its pivot up. -/
theorem Shaped.exists_dropPivot
    (hShaped : m.Shaped width depth)
    {r column : Nat}
    {row : Row}
    (hRow : m.rows[r]? = some row)
    (hPivot : row.pivot = some column) :
    ∃ n, m.setPivot r none = .ok (n, some column) ∧
      n.Shaped width depth ∧
      ∀ q, n.rows[q]? =
        if r = q then some { row with pivot := none }
        else m.rows[q]? := by
  have hTable : m.rowOfPivot[column]? = some (some r) :=
    (hShaped.pivot_iff r column).mpr ⟨row, hRow, hPivot⟩
  have hLt : column < m.rowOfPivot.size :=
    (Array.getElem?_eq_some_iff.mp hTable).1
  have hFree : freed m.rowOfPivot r (some column) =
      .ok (m.rowOfPivot.setIfInBounds column none) := by
    simp only [freed, bind_eq_ok, require_eq_ok, exists_const,
      Table.get_eq_ok_iff]
    exact ⟨some r, hTable, by simp, Table.set_of_lt _ hLt⟩
  refine ⟨_, setPivot_eq_ok_iff.mpr
    ⟨row, _, _, hRow, hPivot, hFree, rfl, rfl⟩, ?_,
    getElem?_setRow hRow _⟩
  refine hShaped.withPivot hRow (Array.size_setIfInBounds ..) ?_
  intro q c
  by_cases hColumn : column = c
  · subst hColumn
    rw [Array.getElem?_setIfInBounds_self_of_lt hLt, hTable]
    simp
  · rw [Array.getElem?_setIfInBounds_ne hColumn]
    by_cases hEq : r = q
    · subst hEq
      simp [hShaped.pivot_iff, hRow, hPivot, hColumn]
    · rw [if_neg hEq]

------------------------------------------------------------
-- Selecting a pivot
------------------------------------------------------------

/-
  A choice that is kept or replaced by the next entry of a
  list, so in the end it is the first choice or an entry.
-/
theorem foldl_choice
    {f : Option (Nat × Nat) → Nat → Option (Nat × Nat)}
    (hStep : ∀ best next, ∃ choice, f best next = some choice ∧
      (best = some choice ∨ choice.2 = next))
    (later : List Nat)
    (best : Option (Nat × Nat)) :
    (later.foldl f best = none → best = none ∧ later = []) ∧
      ∀ choice, later.foldl f best = some choice →
        best = some choice ∨ choice.2 ∈ later := by
  induction later generalizing best with
  | nil => exact ⟨fun hNone => ⟨hNone, rfl⟩, fun _ => Or.inl⟩
  | cons next later ih =>
      rcases hStep best next with ⟨kept, hKept, hFrom⟩
      rw [List.foldl_cons, hKept]
      refine ⟨fun hNone => ?_, fun choice hSome => ?_⟩
      · cases ((ih (some kept)).1 hNone).1
      · rcases (ih (some kept)).2 choice hSome with hEq | hLater
        · cases hEq
          rcases hFrom with hBest | hNext
          · exact .inl hBest
          · exact .inr (hNext ▸ List.mem_cons_self)
        · exact .inr (List.mem_cons_of_mem _ hLater)

theorem map_snd_foldl_choice
    {f : Option (Nat × Nat) → Nat → Option (Nat × Nat)}
    (hStep : ∀ best next, ∃ choice, f best next = some choice ∧
      (best = some choice ∨ choice.2 = next))
    (columns : List Nat) :
    ((columns.foldl f none).map Prod.snd = none → columns = []) ∧
      ∀ column, (columns.foldl f none).map Prod.snd = some column →
        column ∈ columns := by
  have hFold := foldl_choice hStep columns none
  constructor
  · intro hNone
    exact (hFold.1 (Option.map_eq_none_iff.mp hNone)).2
  · intro column hSome
    rcases Option.map_eq_some_iff.mp hSome with ⟨choice, hBest, rfl⟩
    rcases hFold.2 choice hBest with hNone | hMem
    · cases hNone
    · exact hMem

/- The column with the least fill is one of those to choose from. -/
theorem leastFill?_eq
    (columns : List Nat) :
    (m.leastFill? columns = none → columns = []) ∧
      ∀ column, m.leastFill? columns = some column →
        column ∈ columns := by
  apply map_snd_foldl_choice
  intro best next
  dsimp only
  split
  next => exact ⟨_, rfl, .inr rfl⟩
  next =>
    split
    next => exact ⟨_, rfl, .inr rfl⟩
    next => exact ⟨_, rfl, .inl rfl⟩

/- Either rule selects a column of the row if it has one. -/
theorem Shaped.exists_selectPivot?
    (hShaped : m.Shaped width depth)
    {r : Nat}
    {row : Row}
    (hRow : m.rows[r]? = some row)
    (rule : PivotRule) :
    ∃ pivot?, m.selectPivot? r rule = .ok pivot? ∧
      (pivot? = none → ∀ column, row.columns.has column = false) ∧
      ∀ column, pivot? = some column →
        row.columns.has column = true := by
  cases rule with
  | firstColumn =>
      refine ⟨row.columns.first?, ?_, BitSet.first?_eq_none,
        fun column => BitSet.has_of_first?⟩
      simp only [selectPivot?, bind_eq_ok, Table.get_eq_ok_iff]
      exact ⟨row, hRow, rfl⟩
  | minimumFill =>
      have hRoom : row.columns.ones.forM m.requireColumn = .ok () := by
        apply forM_of_ok
        intro column hMem
        apply hShaped.requireColumn
        exact hShaped.lt_width hRow ((BitSet.mem_ones _ _).mp hMem)
      have hLeast := m.leastFill?_eq row.columns.ones
      refine ⟨m.leastFill? row.columns.ones, ?_, ?_, ?_⟩
      · simp only [selectPivot?, bind_eq_ok, Table.get_eq_ok_iff,
          pure_eq_ok]
        exact ⟨row, hRow, (), hRoom, rfl⟩
      · intro hNone column
        cases hHas : row.columns.has column with
        | false => rfl
        | true =>
            have hMem := (BitSet.mem_ones _ _).mpr hHas
            rw [hLeast.1 hNone] at hMem
            cases hMem
      · intro column hSome
        exact (BitSet.mem_ones _ _).mp (hLeast.2 column hSome)

------------------------------------------------------------
-- Reducing row by row
------------------------------------------------------------

/-
  The matrix is reduced but for some rows: a pivot column is
  in its own row only, and a row without a pivot is empty
  unless it is still to be reduced.
-/
structure ReducedBut
    (pending : Nat → Prop)
    (m : Matrix) : Prop where
  own :
    ∀ (r : Nat) (row : Row) (column : Nat),
      m.rows[r]? = some row → row.pivot = some column →
        row.columns.has column = true
  others :
    ∀ (r : Nat) (row : Row) (column : Nat),
      m.rows[r]? = some row → row.pivot = some column →
        ∀ (q : Nat) (other : Row), m.rows[q]? = some other →
          q ≠ r → other.columns.has column = false
  empty :
    ∀ (r : Nat) (row : Row),
      m.rows[r]? = some row → row.pivot = none → ¬ pending r →
        ∀ column, row.columns.has column = false

theorem ReducedBut.weaken
    {pending pending' : Nat → Prop}
    (hReduced : m.ReducedBut pending)
    (hWeaker : ∀ (r : Nat) (row : Row), m.rows[r]? = some row →
      pending r → row.pivot = none →
        (∃ column, row.columns.has column = true) → pending' r) :
    m.ReducedBut pending' := by
  refine ⟨hReduced.own, hReduced.others, ?_⟩
  intro r row hRow hNone hNot column
  by_cases hPending : pending r
  · cases hHas : row.columns.has column with
    | false => rfl
    | true =>
        exact absurd
          (hWeaker r row hRow hPending hNone ⟨column, hHas⟩) hNot
  · exact hReduced.empty r row hRow hNone hPending column

/- Without rows to be reduced the matrix is reduced. -/
theorem isReduced_of_reducedBut
    (hShaped : m.Shaped width depth)
    (hReduced : m.ReducedBut fun _ => False) :
    m.isReduced = true := by
  unfold isReduced
  rw [List.all_eq_true]
  rintro ⟨row, r⟩ hMem
  rw [List.mem_zipIdx_iff_getElem?, Array.getElem?_toList] at hMem
  simp only at hMem ⊢
  cases hPivot : row.pivot with
  | none =>
      have hEmpty := hReduced.empty r row hMem hPivot id
      exact BitSet.isZero_iff.mpr hEmpty
  | some column =>
      have hTable := (hShaped.pivot_iff r column).mpr
        ⟨row, hMem, hPivot⟩
      have hRows : m.rowsWith column = [r] := by
        have hNodup : (m.rowsWith column).Nodup :=
          List.nodup_range.filter _
        apply List.perm_singleton.mp
        rw [List.perm_ext_iff_of_nodup hNodup (by simp)]
        intro q
        rw [mem_rowsWith, List.mem_singleton]
        constructor
        · rintro ⟨other, hOther, hHas⟩
          by_contra hNe
          rw [hReduced.others r row column hMem hPivot q other hOther
            hNe] at hHas
          cases hHas
        · rintro rfl
          exact ⟨row, hMem, hReduced.own q row column hMem hPivot⟩
      simp only [hTable, hRows, beq_self_eq_true, Bool.and_self]

section Pivot

variable {n middle : Matrix} {r column : Nat} {row : Row}
variable {pending : Nat → Prop}

/- A column of a row without a pivot is nobody's pivot. -/
theorem ReducedBut.rowOfPivot_eq_none
    (hReduced : m.ReducedBut pending)
    (hShaped : m.Shaped width depth)
    (hRow : m.rows[r]? = some row)
    (hNone : row.pivot = none)
    (hHas : row.columns.has column = true) :
    m.rowOfPivot[column]? = some none := by
  have hLt := hShaped.lt_width hRow hHas
  rw [← hShaped.table] at hLt
  have hGet : m.rowOfPivot[column]? = some m.rowOfPivot[column] :=
    Array.getElem?_eq_getElem hLt
  cases hAt : m.rowOfPivot[column] with
  | none => rw [hGet, hAt]
  | some q =>
      exfalso
      rw [hAt] at hGet
      rcases (hShaped.pivot_iff q column).mp hGet with
        ⟨other, hOther, hPivot⟩
      by_cases hEq : r = q
      · subst hEq
        cases hRow.symm.trans hOther
        rw [hNone] at hPivot
        cases hPivot
      · rw [hReduced.others q other column hOther hPivot r row hRow
          hEq] at hHas
        cases hHas

/-
  With its column cleared from the other rows, a row that
  takes the column as its pivot is not to be reduced any more.
-/
theorem ReducedBut.takePivot
    (hReduced : m.ReducedBut pending)
    (hRow : m.rows[r]? = some row)
    (hHas : row.columns.has column = true)
    (hCleared : Cleared m middle r column row)
    (hGet : ∀ q, n.rows[q]? =
      if r = q then some { row with pivot := some column }
      else middle.rows[q]?) :
    n.ReducedBut fun q => pending q ∧ q ≠ r := by
  refine ⟨?_, ?_, ?_⟩
  · intro q other c hOther hPivot
    rw [hGet] at hOther
    split at hOther
    · cases hOther
      cases hPivot
      exact hHas
    · rename_i hNe
      rcases hCleared.rows q other hOther with
        ⟨old, hOld, hSame, _, _, hKeep⟩
      rw [hSame] at hPivot
      have hAbsent : row.columns.has c = false :=
        hReduced.others q old c hOld hPivot r row hRow hNe
      rw [hKeep c hAbsent]
      exact hReduced.own q old c hOld hPivot
  · intro q other c hOther hPivot p third hThird hNe
    rw [hGet] at hOther hThird
    split at hOther
    · rename_i hEq
      cases hOther
      cases hPivot
      subst hEq
      rw [if_neg (Ne.symm hNe)] at hThird
      rcases hCleared.rows p third hThird with ⟨_, _, _, hGone, _⟩
      exact hGone hNe
    · rename_i hOtherNe
      rcases hCleared.rows q other hOther with
        ⟨old, hOld, hSame, _, _, _⟩
      rw [hSame] at hPivot
      have hAbsent : row.columns.has c = false :=
        hReduced.others q old c hOld hPivot r row hRow hOtherNe
      split at hThird
      · cases hThird
        exact hAbsent
      · rcases hCleared.rows p third hThird with
          ⟨older, hOlder, _, _, _, hKeep⟩
        rw [hKeep c hAbsent]
        exact hReduced.others q old c hOld hPivot p older hOlder hNe
  · intro q other hOther hOtherNone hNot c
    rw [hGet] at hOther
    split at hOther
    · cases hOther
      cases hOtherNone
    · rename_i hNe
      rcases hCleared.rows q other hOther with
        ⟨old, hOld, hSame, _, hStay, _⟩
      rw [hSame] at hOtherNone
      have hEmpty := hReduced.empty q old hOld hOtherNone fun hPending =>
        hNot ⟨hPending, Ne.symm hNe⟩
      rw [hStay (hEmpty column)]
      exact hEmpty c

/-
  A row without a pivot can be given one if it has a column,
  and then one row less is to be reduced.
-/
theorem exists_pivot
    (hShaped : m.Shaped width depth)
    (hReduced : m.ReducedBut pending)
    (hRow : m.rows[r]? = some row)
    (hNone : row.pivot = none)
    (hHas : row.columns.has column = true) :
    ∃ middle targets n,
      m.pivotOn r column = .ok (middle, targets) ∧
        middle.setPivot r (some column) = .ok (n, none) ∧
        n.Shaped width depth ∧
        n.ReducedBut fun q => pending q ∧ q ≠ r := by
  rcases hShaped.exists_pivotOn hRow hHas with
    ⟨middle, targets, hPivotOn, hMiddle, hTable, hCleared⟩
  have hFree : middle.rowOfPivot[column]? = some none := by
    rw [hTable]
    exact hReduced.rowOfPivot_eq_none hShaped hRow hNone hHas
  rcases hMiddle.exists_takePivot hCleared.same hNone hFree with
    ⟨n, hSet, hEnd, hGet⟩
  exact ⟨middle, targets, n, hPivotOn, hSet, hEnd,
    hReduced.takePivot hRow hHas hCleared hGet⟩

end Pivot

/- One row less is to be reduced after a row was visited. -/
theorem exists_reduceRow
    {pending : Nat → Prop}
    (hShaped : m.Shaped width depth)
    (hReduced : m.ReducedBut pending)
    (rule : PivotRule)
    {r : Nat}
    (hLt : r < m.rows.size) :
    ∃ n, reduceRow rule m r = .ok n ∧ n.Shaped width depth ∧
      n.ReducedBut fun q => pending q ∧ q ≠ r := by
  have hRow : m.rows[r]? = some m.rows[r] :=
    Array.getElem?_eq_getElem hLt
  generalize m.rows[r] = row at hRow
  unfold reduceRow
  rw [Table.get_eq_ok_iff.mpr hRow]
  cases hPivot : row.pivot with
  | some column =>
      refine ⟨m, ?_, hShaped, ?_⟩
      · simp [bind, Except.bind, hPivot, pure, Except.pure]
      · apply hReduced.weaken
        rintro q other hOther hPending hNone _
        refine ⟨hPending, ?_⟩
        rintro rfl
        cases hRow.symm.trans hOther
        rw [hPivot] at hNone
        cases hNone
  | none =>
      rcases hShaped.exists_selectPivot? hRow rule with
        ⟨pivot?, hSelect, hEmpty, hHas⟩
      cases pivot? with
      | none =>
          refine ⟨m, ?_, hShaped, ?_⟩
          · simp [bind, Except.bind, hPivot, hSelect, pure,
              Except.pure]
          · apply hReduced.weaken
            rintro q other hOther hPending _ ⟨column, hColumn⟩
            refine ⟨hPending, ?_⟩
            rintro rfl
            cases hRow.symm.trans hOther
            rw [hEmpty rfl column] at hColumn
            cases hColumn
      | some column =>
          rcases exists_pivot hShaped hReduced hRow hPivot
              (hHas column rfl) with
            ⟨middle, targets, n, hPivotOn, hSet, hShape, hLess⟩
          refine ⟨n, ?_, hShape, hLess⟩
          simp [bind, Except.bind, hPivot, hSelect, hPivotOn, hSet,
            pure, Except.pure]

/- Elimination comes to its end with a reduced matrix. -/
theorem exists_eliminate
    {pending : Nat → Prop}
    (hShaped : m.Shaped width depth)
    (hReduced : m.ReducedBut pending)
    (rule : PivotRule) :
    ∃ n, m.eliminate rule = .ok n ∧ n.Shaped width depth ∧
      n.ReducedBut fun _ => False := by
  -- After some rows were visited only the others are to be reduced.
  have hVisit : ∀ (rs : List Nat) (pending : Nat → Prop) (k : Matrix),
      k.rows.size = m.rows.size → (∀ r ∈ rs, r < m.rows.size) →
        k.Shaped width depth → k.ReducedBut pending →
          ∃ n, rs.foldlM (reduceRow rule) k = .ok n ∧
            n.rows.size = m.rows.size ∧ n.Shaped width depth ∧
            n.ReducedBut fun q => pending q ∧ q ∉ rs := by
    intro rs
    induction rs with
    | nil =>
        intro pending k hSize _ hShape hBut
        refine ⟨k, rfl, hSize, hShape, ?_⟩
        exact hBut.weaken fun r _ _ hPending _ _ =>
          ⟨hPending, List.not_mem_nil⟩
    | cons r rs ih =>
        intro pending k hSize hRange hShape hBut
        rcases List.forall_mem_cons.mp hRange with ⟨hLt, hRest⟩
        rcases exists_reduceRow hShape hBut rule (hSize ▸ hLt) with
          ⟨next, hStep, hNext, hLess⟩
        have hSame : next.rows.size = m.rows.size :=
          (closed_size m.rows.size).reduceRow hSize hStep
        rcases ih _ next hSame hRest hNext hLess with
          ⟨n, hRun, hEnd, hShapeEnd, hButEnd⟩
        refine ⟨n, ?_, hEnd, hShapeEnd, ?_⟩
        · rw [List.foldlM_cons, hStep]
          exact hRun
        · refine hButEnd.weaken ?_
          rintro q _ _ ⟨⟨hPending, hNe⟩, hNotMem⟩ _ _
          exact ⟨hPending, by simp [hNe, hNotMem]⟩
  rcases hVisit (List.range m.rows.size) pending m rfl
      (fun r hMem => List.mem_range.mp hMem) hShaped hReduced with
    ⟨n, hRun, hSize, hShape, hBut⟩
  have hDone : n.ReducedBut fun _ => False := by
    refine hBut.weaken ?_
    rintro q row hRow ⟨_, hNotMem⟩ _ _
    apply hNotMem
    rw [List.mem_range, ← hSize]
    exact (Array.getElem?_eq_some_iff.mp hRow).1
  refine ⟨n, ?_, hShape, hDone⟩
  simp only [Matrix.eliminate, bind_eq_ok, pure_eq_ok, require_eq_ok,
    exists_const]
  exact ⟨n, hRun, isReduced_of_reducedBut hShape hDone, rfl⟩

------------------------------------------------------------
-- The matrix of a store
------------------------------------------------------------

section OfStore

variable {s : Store} {read : Nat → Except Fault (Option Bool)}

/- The row of a constraint can be made. -/
theorem exists_rowOf
    (hStore : s.WellFormed)
    (hRead : ∀ v < s.numVariables, ∃ value?, read v = .ok value?)
    (tracked : Bool)
    {c : StoredConstraint}
    {position : Nat}
    (hAt : s.constraints[position]? = some c) :
    ∃ row, rowOf s read tracked c position = .ok row ∧
      row.columns.size = s.numColumns ∧
      row.provenance.size = (if tracked then s.size else 0) ∧
      row.pivot = none := by
  have hMem := Array.mem_of_getElem? hAt
  have hEnter : ∀ v ∈ c.vars, ∀ sum : BitSet × Bool,
      sum.1.size = s.numColumns →
        ∃ next, enter s read sum v = .ok next ∧
          next.1.size = s.numColumns := by
    rintro v hVar ⟨columns, rhs⟩ hSize
    rcases hRead v (hStore.vars_lt c hMem v hVar) with
      ⟨value?, hValue⟩
    unfold enter
    cases value? with
    | some b =>
        refine ⟨(columns, rhs ^^ b), ?_, hSize⟩
        simp [bind, Except.bind, hValue, pure, Except.pure]
    | none =>
        have hRelevant : s.isRelevant v = true :=
          (hStore.isRelevant_iff v).mpr ⟨c, hMem, hVar⟩
        rcases Option.isSome_iff_exists.mp hRelevant with
          ⟨column, hColumn⟩
        have hVariable :=
          (hStore.columnOf?_eq_some_iff v column).mp hColumn
        have hLt : column < columns.size := by
          have hTable := (Array.getElem?_eq_some_iff.mp hVariable).1
          simp only at hSize
          rw [hSize]
          exact hTable
        rcases BitSet.exists_insert hLt with ⟨next, hInsert, hNext⟩
        refine ⟨(next, rhs), ?_, hNext.trans hSize⟩
        simp [bind, Except.bind, hValue, hColumn, hInsert, pure,
          Except.pure]
  rcases exists_foldlM (fun sum : BitSet × Bool =>
      sum.1.size = s.numColumns) hEnter
      (b := (BitSet.zero s.numColumns, c.rhs)) rfl with
    ⟨⟨columns, rhs⟩, hFold, hSize⟩
  have hLt : position < s.size :=
    (Array.getElem?_eq_some_iff.mp hAt).1
  rcases BitSet.exists_insert (s := BitSet.zero s.size) hLt with
    ⟨provenance, hInsert, hProvenance⟩
  cases tracked with
  | true =>
      refine ⟨⟨columns, rhs, provenance, none⟩, ?_, hSize,
        hProvenance, rfl⟩
      simp [rowOf, BitSet.ofList, bind, Except.bind, hFold, hInsert,
        pure, Except.pure]
  | false =>
      refine ⟨⟨columns, rhs, BitSet.zero 0, none⟩, ?_, hSize, rfl,
        rfl⟩
      simp [rowOf, bind, Except.bind, hFold, pure, Except.pure]

/- The matrix of a store can be made, and has no pivots yet. -/
theorem exists_ofStore
    (hStore : s.WellFormed)
    (hRead : ∀ v < s.numVariables, ∃ value?, read v = .ok value?)
    (tracked : Bool) :
    ∃ m, ofStore s read tracked = .ok m ∧
      m.Shaped s.numColumns (if tracked then s.size else 0) ∧
      m.ReducedBut fun _ => True := by
  have hNumbered : ∀ entry ∈ s.constraints.toList.zipIdx,
      s.constraints[entry.2]? = some entry.1 := by
    intro entry hMem
    have hAt := List.mem_zipIdx_iff_getElem?.mp hMem
    rwa [Array.getElem?_toList] at hAt
  have hEach : ∀ entry ∈ s.constraints.toList.zipIdx,
      ∃ row, rowOf s read tracked entry.1 entry.2 = .ok row := by
    intro entry hMem
    rcases exists_rowOf hStore hRead tracked (hNumbered entry hMem)
      with ⟨row, hRow, _⟩
    exact ⟨row, hRow⟩
  rcases exists_mapM hEach with ⟨rows, hRows⟩
  have hShape : ∀ (r : Nat) (row : Row),
      rows.toArray[r]? = some row →
        row.columns.size = s.numColumns ∧
          row.provenance.size = (if tracked then s.size else 0) ∧
          row.pivot = none := by
    intro r row hRow
    rw [List.getElem?_toArray] at hRow
    rcases exists_of_forall₂_of_mem (mapM_eq_ok_iff.mp hRows)
        (List.mem_of_getElem? hRow) with ⟨entry, hMem, hOk⟩
    rcases exists_rowOf hStore hRead tracked (hNumbered entry hMem)
      with ⟨found, hFound, hFacts⟩
    cases hFound.symm.trans hOk
    exact hFacts
  refine ⟨⟨rows.toArray, Array.replicate s.numColumns none, tracked⟩,
    ?_, ⟨?_, ?_, ?_, ?_⟩, ⟨?_, ?_, ?_⟩⟩
  · simp only [ofStore, bind_eq_ok, pure_eq_ok]
    exact ⟨rows, hRows, rfl⟩
  · exact fun r row hRow => (hShape r row hRow).1
  · exact fun r row hRow => (hShape r row hRow).2.1
  · exact Array.size_replicate
  · intro r column
    constructor
    · intro hEntry
      rw [Array.getElem?_replicate] at hEntry
      split at hEntry <;> cases hEntry
    · rintro ⟨row, hRow, hPivot⟩
      rw [(hShape r row hRow).2.2] at hPivot
      cases hPivot
  · intro r row column hRow hPivot
    rw [(hShape r row hRow).2.2] at hPivot
    cases hPivot
  · intro r row column hRow hPivot
    rw [(hShape r row hRow).2.2] at hPivot
    cases hPivot
  · intro r row _ _ hNot
    exact absurd trivial hNot

end OfStore

------------------------------------------------------------
-- Scanning
------------------------------------------------------------

/- The events of a matrix with provenance can be read off. -/
theorem Represents.exists_scan
    {s : Store}
    {value : Nat → Option Bool}
    (hMatrix : m.Represents s value)
    (hTracked : m.tracked = true) :
    ∃ events, m.scan s = .ok events := by
  have hEach : ∀ row ∈ m.rows.toList,
      ∃ event?, rowEvent? s row = .ok event? := by
    intro row hMem
    rcases List.mem_iff_getElem?.mp hMem with ⟨r, hRow⟩
    rw [Array.getElem?_toList] at hRow
    unfold rowEvent?
    cases hNews : row.news with
    | quiet => exact ⟨none, rfl⟩
    | contradiction => exact ⟨_, rfl⟩
    | unit column =>
        have hHas : row.columns.has column = true := by
          rw [← BitSet.mem_ones, Row.news_eq_unit hNews]
          exact List.mem_singleton_self column
        rcases hMatrix.openColumns r row hRow column hHas with
          ⟨v, hVariable, _⟩
        refine ⟨some (.propagation ⟨v, row.rhs⟩
          (.combination row.provenance)), ?_⟩
        simp only [bind_eq_ok, pure_eq_ok, Table.get_eq_ok_iff]
        exact ⟨v, hVariable, rfl⟩
  rcases exists_mapM hEach with ⟨found, hFound⟩
  refine ⟨found.reduceOption, ?_⟩
  simp only [scan, bind_eq_ok, pure_eq_ok, require_eq_ok, exists_const]
  exact ⟨hTracked, found, hFound, rfl⟩

end Matrix

end ParitySolver
