import ParitySolver.Proofs.Matrix.Reduced
import ParitySolver.Theory.Incremental

/-
  Correctness of incremental elimination. Each change of the
  matrix is undone by the change that is recorded for it, so
  giving the newest literal back restores rows, provenance
  and pivots. While literals are taken in, the matrix is
  reduced and represents the constraints under the trail.

  Key definitions include:
    * `Incremental.Follows`

  Main declarations:
    * `Incremental.follows_ofStore`
    * `Incremental.Follows.assign`
    * `Incremental.valid_of_mem_scanIfAllowed`
    * `Incremental.unassign_of_assign`
-/

namespace ParitySolver

------------------------------------------------------------
-- Undoing operations on rows
------------------------------------------------------------

theorem BitSet.xor_of_xor
    {s t u : BitSet}
    (hXor : s.xor t = .ok u) :
    u.xor t = .ok s := by
  unfold xor at hXor
  split at hXor
  · rename_i hSize
    cases hXor
    have hSame : (s.sum t hSize).size = t.size := hSize
    rw [xor, dif_pos hSame]
    congr 1
    apply ext_of_has
    · rfl
    · intro i
      rw [has_sum, has_sum, Bool.xor_assoc, Bool.xor_self,
        Bool.xor_false]
  · cases hXor

theorem BitSet.insert_of_flip
    {s : BitSet}
    {i : Nat}
    (hHas : s.has i = true)
    (hLt : i < s.size) :
    (s.flip i hLt).insert i = .ok s := by
  have hSame : i < (s.flip i hLt).size := hLt
  rw [insert, dif_pos hSame]
  congr 1
  apply ext_of_has
  · rfl
  · intro j
    rw [has_raise, has_flip]
    by_cases hEq : i = j
    · subst hEq
      simp [hHas]
    · simp [hEq]

theorem Row.add_of_add
    {target source sum : Row}
    (hAdd : target.add source = .ok sum) :
    sum.add source = .ok target := by
  rcases add_eq_ok hAdd with ⟨hColumns, hRhs, hProvenance, hPivot⟩
  unfold add
  rw [BitSet.xor_of_xor hColumns, BitSet.xor_of_xor hProvenance]
  cases target
  simp only [hRhs, hPivot, bind, Except.bind, pure, Except.pure,
    Bool.xor_assoc, Bool.xor_self, Bool.xor_false]

namespace Matrix

variable {m n : Matrix}

/- Adding a row again takes it away. -/
theorem addRow_of_addRow
    {source target : Nat}
    (hAdd : m.addRow source target = .ok n) :
    n.addRow source target = .ok m := by
  rcases addRow_eq_ok hAdd with
    ⟨hNe, sourceRow, targetRow, sum, hSource, hTarget, hSum, rfl⟩
  have hLt := (Array.getElem?_eq_some_iff.mp hTarget).1
  unfold addRow
  rw [require_of_true (by simpa using hNe)]
  simp only [bind, Except.bind]
  rw [Table.get_eq_ok_iff.mpr
      ((Array.getElem?_setIfInBounds_ne (Ne.symm hNe)).trans hSource),
    Table.get_eq_ok_iff.mpr
      (Array.getElem?_setIfInBounds_self_of_lt hLt)]
  simp only [Row.add_of_add hSum, pure, Except.pure]
  rw [Array.setIfInBounds_setIfInBounds,
    Table.setIfInBounds_self hTarget]

theorem taken_of_freed
    {table table' : Array (Option Nat)}
    {r : Nat}
    {pivot : Option Nat}
    (hFreed : freed table r pivot = .ok table') :
    taken table' r pivot = .ok table := by
  cases pivot with
  | none =>
      cases hFreed
      rfl
  | some column =>
      simp only [freed, bind_eq_ok, require_eq_ok, exists_const,
        Table.get_eq_ok_iff, Table.set_eq_ok_iff,
        beq_iff_eq] at hFreed
      rcases hFreed with ⟨_, hGet, rfl, hLt, rfl⟩
      simp only [taken, bind_eq_ok, require_eq_ok, exists_const,
        Table.get_eq_ok_iff, Table.set_eq_ok_iff]
      refine ⟨none, Array.getElem?_setIfInBounds_self_of_lt hLt, rfl,
        by simpa using hLt, ?_⟩
      rw [Array.setIfInBounds_setIfInBounds,
        Table.setIfInBounds_self hGet]

theorem freed_of_taken
    {table table' : Array (Option Nat)}
    {r : Nat}
    {pivot : Option Nat}
    (hTaken : taken table r pivot = .ok table') :
    freed table' r pivot = .ok table := by
  cases pivot with
  | none =>
      cases hTaken
      rfl
  | some column =>
      simp only [taken, bind_eq_ok, require_eq_ok, exists_const,
        Table.get_eq_ok_iff, Table.set_eq_ok_iff,
        Option.isNone_iff_eq_none] at hTaken
      rcases hTaken with ⟨_, hGet, rfl, hLt, rfl⟩
      simp only [freed, bind_eq_ok, require_eq_ok, exists_const,
        Table.get_eq_ok_iff, Table.set_eq_ok_iff, beq_iff_eq]
      refine ⟨some r, Array.getElem?_setIfInBounds_self_of_lt hLt,
        rfl, by simpa using hLt, ?_⟩
      rw [Array.setIfInBounds_setIfInBounds,
        Table.setIfInBounds_self hGet]

/- Giving a row its former pivot back. -/
theorem setPivot_of_setPivot
    {r : Nat}
    {pivot previous : Option Nat}
    (hSet : m.setPivot r pivot = .ok (n, previous)) :
    n.setPivot r previous = .ok (m, pivot) := by
  rcases setPivot_eq_ok_iff.mp hSet with
    ⟨row, between, table, hRow, rfl, hFreed, hTaken, rfl⟩
  have hLt := (Array.getElem?_eq_some_iff.mp hRow).1
  refine setPivot_eq_ok_iff.mpr
    ⟨{ row with pivot }, between, m.rowOfPivot,
      Array.getElem?_setIfInBounds_self_of_lt hLt, rfl,
      freed_of_taken hTaken, taken_of_freed hFreed, ?_⟩
  rw [Array.setIfInBounds_setIfInBounds,
    Table.setIfInBounds_self hRow]

/- Putting a column back into a row that had it. -/
theorem unfoldRow_of_fold
    {r column : Nat}
    {b : Bool}
    {row : Row}
    (hRow : n.rows[r]? = some (row.fold column b))
    (hHas : row.columns.has column = true)
    (hLt : column < row.columns.size) :
    unfoldRow column b n r =
      .ok { n with rows := n.rows.setIfInBounds r row } := by
  have hFold :
      row.fold column b =
        { row with
          columns := row.columns.flip column hLt
          rhs := row.rhs ^^ b } := by
    rw [Row.fold, if_pos hHas, BitSet.flipAt, dif_pos hLt]
  have hContains :
      (row.columns.flip column hLt).contains column = .ok false := by
    have hSame : column < (row.columns.flip column hLt).size := hLt
    rw [BitSet.contains, if_pos hSame]
    simp [hHas]
  unfold unfoldRow
  rw [Table.get_eq_ok_iff.mpr hRow, hFold]
  simp only [bind, Except.bind, hContains, Bool.not_false,
    require_of_true, BitSet.insert_of_flip hHas hLt, pure,
    Except.pure]
  simp

theorem foldlM_unfoldRow
    {column : Nat}
    {b : Bool}
    {rs : List Nat}
    (hNodup : rs.Nodup)
    (hRows : ∀ r ∈ rs, ∃ row,
      m.rows[r]? = some row ∧
        n.rows[r]? = some (row.fold column b) ∧
        row.columns.has column = true ∧
        column < row.columns.size) :
    ∃ rows, rs.foldlM (unfoldRow column b) n =
        .ok { n with rows } ∧
      ∀ r, rows[r]? = if r ∈ rs then m.rows[r]? else n.rows[r]? := by
  induction rs generalizing n with
  | nil => exact ⟨n.rows, rfl, by simp⟩
  | cons r rs ih =>
      rw [List.nodup_cons] at hNodup
      rcases hRows r List.mem_cons_self with
        ⟨row, hOld, hNew, hHas, hLt⟩
      have hRowLt := (Array.getElem?_eq_some_iff.mp hNew).1
      have hNext : ∀ q ∈ rs, ∃ other,
          m.rows[q]? = some other ∧
            (n.rows.setIfInBounds r row)[q]? =
              some (other.fold column b) ∧
            other.columns.has column = true ∧
            column < other.columns.size := by
        intro q hMem
        have hNe : ¬ r = q := fun hEq => hNodup.1 (hEq ▸ hMem)
        rw [Array.getElem?_setIfInBounds_ne hNe]
        exact hRows q (List.mem_cons_of_mem _ hMem)
      rcases ih (n := { n with rows := n.rows.setIfInBounds r row })
        hNodup.2 hNext with ⟨rows, hFold, hEach⟩
      refine ⟨rows, ?_, ?_⟩
      · rw [List.foldlM_cons, unfoldRow_of_fold hNew hHas hLt]
        exact hFold
      · intro q
        rw [hEach q]
        by_cases hEq : r = q
        · subst hEq
          simp only [if_neg hNodup.1, List.mem_cons_self, if_true]
          rw [Array.getElem?_setIfInBounds_self_of_lt hRowLt, hOld]
        · simp only [List.mem_cons, Ne.symm hEq, false_or]
          rw [Array.getElem?_setIfInBounds_ne hEq]

/- Putting a column back undoes replacing it by its value. -/
theorem unfold_of_fold
    {column : Nat}
    {b : Bool}
    {rows : List Nat}
    (hFold : m.fold column b = .ok (n, rows)) :
    n.unfold column b rows = .ok m := by
  have hRoom : ∀ (r : Nat) (row : Row), m.rows[r]? = some row →
      column < row.columns.size := by
    simp only [fold, requireColumn, bind_eq_ok, require_eq_ok,
      exists_const] at hFold
    intro r row hRow
    exact of_decide_eq_true
      (Array.all_eq_true_iff_forall_mem.mp hFold.1 row
        (Array.mem_of_getElem? hRow))
  rcases fold_eq_ok hFold with ⟨rfl, rfl⟩
  have hNodup : (m.rowsWith column).Nodup :=
    List.nodup_range.filter _
  have hRows : ∀ r ∈ m.rowsWith column, ∃ row,
      m.rows[r]? = some row ∧
        (m.rows.map (Row.fold · column b))[r]? =
          some (row.fold column b) ∧
        row.columns.has column = true ∧
        column < row.columns.size := by
    intro r hMem
    rcases mem_rowsWith.mp hMem with ⟨row, hRow, hHas⟩
    refine ⟨row, hRow, ?_, hHas, hRoom r row hRow⟩
    rw [Array.getElem?_map, hRow]
    rfl
  rcases foldlM_unfoldRow
    (n := { m with rows := m.rows.map (Row.fold · column b) })
    hNodup hRows with ⟨rows, hUnfold, hEach⟩
  have hSame : rows = m.rows := by
    apply Array.ext_getElem?
    intro r
    rw [hEach r]
    by_cases hMem : r ∈ m.rowsWith column
    · rw [if_pos hMem]
    · rw [if_neg hMem, Array.getElem?_map]
      cases hRow : m.rows[r]? with
      | none => rfl
      | some row =>
          have hOut : ¬ row.columns.has column = true := fun hHas =>
            hMem (mem_rowsWith.mpr ⟨row, hRow, hHas⟩)
          simp only [Option.map_some, Row.fold, if_neg hOut]
  rw [Matrix.unfold, hUnfold, hSame]

end Matrix

namespace Incremental

------------------------------------------------------------
-- Undoing recorded changes
------------------------------------------------------------

open MatrixChange (undo)

variable {m n : Matrix}

theorem undo_additions
    {r : Nat}
    {targets : List Nat}
    (hAdd :
      targets.foldlM (fun m target => m.addRow r target) m =
        .ok n) :
    (targets.map fun target =>
        MatrixChange.added r target).reverse.foldlM undo n =
      .ok m := by
  induction targets generalizing m with
  | nil =>
      cases hAdd
      rfl
  | cons target targets ih =>
      rw [List.foldlM_cons] at hAdd
      rcases bind_eq_ok.mp hAdd with ⟨next, hFirst, hRest⟩
      rw [List.map_cons, List.reverse_cons, List.foldlM_append,
        ih hRest]
      exact (bind_pure _).trans (Matrix.addRow_of_addRow hFirst)

/- What giving a row another pivot does. -/
theorem repivot_eq_ok
    {rule : PivotRule}
    {r column : Nat}
    {changes : List MatrixChange}
    {notes : List Note}
    (hRepivot :
      repivot rule m r column = .ok (n, changes, notes)) :
    ∃ released previous,
      m.setPivot r none = .ok (released, previous) ∧
        ((n = released ∧ changes = [.pivoted r previous]) ∨
          ∃ pivot added targets former,
            released.pivotOn r pivot = .ok (added, targets) ∧
              added.setPivot r (some pivot) = .ok (n, former) ∧
              changes =
                .pivoted r former ::
                  (targets.map fun target =>
                    MatrixChange.added r target).reverse ++
                  [.pivoted r previous]) := by
  unfold repivot at hRepivot
  simp only [bind_eq_ok, Prod.exists] at hRepivot
  rcases hRepivot with ⟨released, previous, hRelease, pivot?, _, hRest⟩
  refine ⟨released, previous, hRelease, ?_⟩
  cases pivot? with
  | none =>
      simp only [pure_eq_ok, Prod.mk.injEq] at hRest
      exact .inl ⟨hRest.1.symm, hRest.2.1.symm⟩
  | some pivot =>
      simp only [bind_eq_ok, pure_eq_ok, Prod.exists,
        Prod.mk.injEq] at hRest
      rcases hRest with
        ⟨added, targets, hPivot, _, former, hSet, rfl, rfl, _⟩
      exact .inr ⟨pivot, added, targets, former, hPivot, hSet, rfl⟩

theorem undo_of_repivot
    {rule : PivotRule}
    {r column : Nat}
    {changes : List MatrixChange}
    {notes : List Note}
    (hRepivot :
      repivot rule m r column = .ok (n, changes, notes)) :
    changes.foldlM undo n = .ok m := by
  have hBack : ∀ {m n : Matrix} {pivot previous : Option Nat},
      m.setPivot r pivot = .ok (n, previous) →
        undo n (.pivoted r previous) = .ok m := by
    intro m n pivot previous hSet
    change (n.setPivot r previous).map Prod.fst = .ok m
    rw [Matrix.setPivot_of_setPivot hSet]
    rfl
  rcases repivot_eq_ok hRepivot with
    ⟨released, previous, hRelease, ⟨rfl, rfl⟩ |
      ⟨pivot, added, targets, former, hPivot, hSet, rfl⟩⟩
  · rw [List.foldlM_cons, hBack hRelease]
    rfl
  · rw [List.cons_append, List.foldlM_cons, hBack hSet]
    have hAdditions := undo_additions (Matrix.pivotOn_eq_ok hPivot).2
    refine (List.foldlM_append ..).trans ?_
    rw [hAdditions]
    exact (bind_pure _).trans (hBack hRelease)

/- What replacing a column by its value does. -/
theorem absorb_eq_ok
    {rule : PivotRule}
    {column : Nat}
    {b : Bool}
    {changes : List MatrixChange}
    {notes : List Note}
    (hAbsorb :
      absorb rule m column b = .ok (n, changes, notes)) :
    ∃ folded rows,
      m.fold column b = .ok (folded, rows) ∧
        ((n = folded ∧ changes = [.folded column b rows]) ∨
          ∃ r later notes,
            repivot rule folded r column = .ok (n, later, notes) ∧
              changes = later ++ [.folded column b rows]) := by
  unfold absorb at hAbsorb
  simp only [bind_eq_ok, Prod.exists] at hAbsorb
  rcases hAbsorb with ⟨folded, rows, hFold, r?, _, hRest⟩
  refine ⟨folded, rows, hFold, ?_⟩
  cases r? with
  | none =>
      simp only [pure_eq_ok, Prod.mk.injEq] at hRest
      exact .inl ⟨hRest.1.symm, hRest.2.1.symm⟩
  | some r =>
      simp only [bind_eq_ok, pure_eq_ok, Prod.exists,
        Prod.mk.injEq] at hRest
      rcases hRest with ⟨_, later, notes, hRepivot, rfl, rfl, _⟩
      exact .inr ⟨r, later, notes, hRepivot, rfl⟩

theorem undo_of_absorb
    {rule : PivotRule}
    {column : Nat}
    {b : Bool}
    {changes : List MatrixChange}
    {notes : List Note}
    (hAbsorb :
      absorb rule m column b = .ok (n, changes, notes)) :
    changes.foldlM undo n = .ok m := by
  rcases absorb_eq_ok hAbsorb with
    ⟨folded, rows, hFold, ⟨rfl, rfl⟩ |
      ⟨r, later, notes, hRepivot, rfl⟩⟩
  · exact (bind_pure _).trans (Matrix.unfold_of_fold hFold)
  · rw [List.foldlM_append, undo_of_repivot hRepivot]
    exact (bind_pure _).trans (Matrix.unfold_of_fold hFold)

------------------------------------------------------------
-- The matrix follows the trail
------------------------------------------------------------

/- The matrix is reduced and represents the constraints. -/
structure Follows
    (s : Store)
    (value : Nat → Option Bool)
    (t : Incremental) : Prop where
  represents : t.matrix.Represents s value
  reduced : t.matrix.isReduced = true
  tracked : t.matrix.tracked = true

variable {s : Store} {value value' : Nat → Option Bool}
variable {t t' : Incremental}

theorem follows_ofStore
    (hStore : s.WellFormed)
    {rule : PivotRule}
    (hTheory : ofStore s rule = .ok t)
    (hEmpty : ∀ v, value v = none) :
    t.Follows s value := by
  simp only [ofStore, bind_eq_ok, pure_eq_ok] at hTheory
  rcases hTheory with ⟨m, hMatrix, reduced, hEliminate, rfl⟩
  have hStart := Matrix.represents_of_ofStore hStore
    (fun w value? hRead => by cases hRead; exact hEmpty w) hMatrix
  have hEnd := hStart.1.eliminate hEliminate
  exact ⟨hEnd.1, hEnd.2,
    (Matrix.tracked_eliminate hEliminate).trans hStart.2⟩

/- What row operations keep, giving a row another pivot keeps. -/
theorem closed_repivot
    {P : Matrix → Prop}
    (hClosed : Matrix.Closed P)
    {rule : PivotRule}
    {r column : Nat}
    {changes : List MatrixChange}
    {notes : List Note}
    (hBefore : P m)
    (hRepivot :
      repivot rule m r column = .ok (n, changes, notes)) :
    P n := by
  rcases repivot_eq_ok hRepivot with
    ⟨released, previous, hRelease, hCase⟩
  have hReleased := hClosed.setPivot hBefore hRelease
  rcases hCase with
    ⟨rfl, _⟩ | ⟨pivot, added, targets, former, hPivot, hSet, _⟩
  · exact hReleased
  · exact hClosed.setPivot (hClosed.pivotOn hReleased hPivot) hSet

theorem represents_repivot
    {rule : PivotRule}
    {r column : Nat}
    {changes : List MatrixChange}
    {notes : List Note}
    (hMatrix : m.Represents s value)
    (hRepivot :
      repivot rule m r column = .ok (n, changes, notes)) :
    n.Represents s value ∧ n.tracked = m.tracked :=
  ⟨closed_repivot (Matrix.closed_represents s value) hMatrix hRepivot,
    closed_repivot (Matrix.closed_tracked m.tracked) rfl hRepivot⟩

/- What taking in a literal does. -/
theorem assign_eq_ok
    {ctx : Context}
    {found : Findings}
    (hAssign : t.assign ctx = .ok (t', found)) :
    ∃ l column m changes notes scanned,
      ctx.trail.last? = some l ∧
        ctx.store.columnOf? l.index = some column ∧
        absorb t.rule t.matrix column l.value =
          .ok (m, changes, notes) ∧
        m.isReduced = true ∧
        t' =
          { t with matrix := m, frames := changes :: t.frames } ∧
        t'.scanIfAllowed ctx = .ok scanned ∧
        found.events = scanned.events := by
  unfold assign Context.newest at hAssign
  cases hLast : ctx.trail.last? with
  | none =>
      rw [hLast] at hAssign
      cases hAssign
  | some l =>
      rw [hLast] at hAssign
      simp only [bind_eq_ok, Except.ok.injEq,
        exists_eq_left'] at hAssign
      cases hColumn : ctx.store.columnOf? l.index with
      | none =>
          rw [hColumn] at hAssign
          cases hAssign
      | some column =>
          rw [hColumn] at hAssign
          simp only [bind_eq_ok, pure_eq_ok, require_eq_ok,
            exists_const, Prod.exists, Prod.mk.injEq] at hAssign
          rcases hAssign with
            ⟨m, changes, notes, hAbsorb, hReduced, scanned, hScan,
              rfl, rfl⟩
          exact ⟨l, column, m, changes, notes, scanned, rfl, hColumn,
            hAbsorb, hReduced, rfl, hScan, rfl⟩

/- The matrix follows the trail when a literal is taken in. -/
theorem Follows.assign
    {ctx : Context}
    {found : Findings}
    {l : Literal}
    (hStore : ctx.store.WellFormed)
    (hFollows : t.Follows ctx.store value)
    (hLast : ctx.trail.last? = some l)
    (hNew : ∀ w, value' w =
      if w = l.index then some l.value else value w)
    (hOpen : value l.index = none)
    (hAssign : t.assign ctx = .ok (t', found)) :
    t'.Follows ctx.store value' := by
  rcases assign_eq_ok hAssign with
    ⟨k, column, m, changes, notes, scanned, hLast', hColumn, hAbsorb,
      hReduced, rfl, _, _⟩
  cases hLast.symm.trans hLast'
  rcases absorb_eq_ok hAbsorb with ⟨folded, rows, hFold, hCase⟩
  have hVariable :=
    (hStore.columnOf?_eq_some_iff l.index column).mp hColumn
  have hFolded :=
    hFollows.represents.fold hStore hVariable hNew hOpen hFold
  have hTracked : folded.tracked = true := by
    rw [(Matrix.fold_eq_ok hFold).2]
    exact hFollows.tracked
  rcases hCase with ⟨rfl, _⟩ | ⟨r, later, notes, hRepivot, _⟩
  · exact ⟨hFolded, hReduced, hTracked⟩
  · have hEnd := represents_repivot hFolded hRepivot
    exact ⟨hEnd.1, hReduced, hEnd.2.trans hTracked⟩

------------------------------------------------------------
-- Findings
------------------------------------------------------------

theorem scanIfAllowed_eq_ok
    {ctx : Context}
    {found : Findings}
    (hScan : t.scanIfAllowed ctx = .ok found) :
    (ctx.eliminate = true →
        t.matrix.scan ctx.store = .ok found.events) ∧
      (ctx.eliminate = false → found.events = []) := by
  unfold scanIfAllowed at hScan
  cases hAllowed : ctx.eliminate with
  | false =>
      rw [hAllowed] at hScan
      cases hScan
      exact ⟨nofun, fun _ => rfl⟩
  | true =>
      rw [hAllowed, if_pos rfl] at hScan
      rcases map_eq_ok.mp hScan with ⟨events, hEvents, rfl⟩
      exact ⟨fun _ => hEvents, nofun⟩

/- What the matrix shows is valid. -/
theorem valid_of_mem_scanIfAllowed
    {ctx : Context}
    {found : Findings}
    (hStore : ctx.store.WellFormed)
    (hFollows : t.Follows ctx.store value)
    (hScan : t.scanIfAllowed ctx = .ok found)
    {event : Event}
    (hMem : event ∈ found.events) :
    event.Valid ctx.store value := by
  cases hAllowed : ctx.eliminate with
  | false =>
      rw [(scanIfAllowed_eq_ok hScan).2 hAllowed] at hMem
      cases hMem
  | true =>
      exact hFollows.represents.valid_of_mem_scan hStore
        ((scanIfAllowed_eq_ok hScan).1 hAllowed) hMem

------------------------------------------------------------
-- Giving a literal back
------------------------------------------------------------

/- Giving the newest literal back undoes taking it in. -/
theorem unassign_of_assign
    {ctx : Context}
    {found : Findings}
    (hAssign : t.assign ctx = .ok (t', found)) :
    t'.unassign = .ok t := by
  rcases assign_eq_ok hAssign with
    ⟨l, column, m, changes, notes, scanned, _, _, hAbsorb, _, rfl, _, _⟩
  unfold unassign
  simp only [undo_of_absorb hAbsorb, bind, Except.bind, pure,
    Except.pure]

end Incremental

end ParitySolver
