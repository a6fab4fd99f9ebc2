import ParitySolver.Proofs.Matrix.Lossless

/-
  Rows with variables of their own. In a reduced matrix the
  variable of a pivot is in the sum of its row and of no
  other row. Folding and adding other rows keep this even
  after the row has lost the pivot, so every row whose sum
  has variables has one that no other sum has.

  It follows that the rows are independent of each other:
  values that satisfy the sum of one row can be completed to
  a solution, if there is a solution at all.

  Key definitions include:
    * `Matrix.Private`
    * `Matrix.Keyed`
    * `Origin.Extensible`

  Main declarations:
    * `Matrix.Represents.exists_private`
    * `Matrix.Keyed.pivotOn`
    * `Matrix.Keyed.extensible`
-/

namespace ParitySolver

namespace Matrix

variable {s : Store} {value : Nat → Option Bool} {m n : Matrix}
variable {r v : Nat}

------------------------------------------------------------
-- Private variables
------------------------------------------------------------

/- The variable is in the sum of this row and of no other. -/
def Private
    (s : Store)
    (m : Matrix)
    (r v : Nat) : Prop :=
  ∀ (q : Nat) (row : Row), m.rows[q]? = some row →
    row.origin.mentions s v = decide (q = r)

/- The variable of a pivot is private. -/
theorem Represents.exists_private
    (hMatrix : m.Represents s value)
    (hStore : s.WellFormed)
    (hTracked : m.tracked = true)
    (hReduced : m.isReduced = true)
    {row : Row}
    (hRow : m.rows[r]? = some row)
    {column : Nat}
    (hPivot : row.pivot = some column) :
    ∃ v, m.Private s r v := by
  have hHas := has_pivot hReduced hRow hPivot
  rcases hMatrix.openColumns r row hRow column hHas with
    ⟨v, hColumn, hOpen⟩
  refine ⟨v, ?_⟩
  intro q other hOther
  have hSame := hMatrix.has_eq hStore hTracked hOther hColumn
  rw [hOpen, Option.isNone_none, Bool.and_true] at hSame
  rw [← hSame]
  by_cases hEq : q = r
  · subst hEq
    cases hRow.symm.trans hOther
    rw [hHas, decide_eq_true rfl]
  · rw [decide_eq_false hEq]
    exact (reducedBut_of_isReduced hReduced).others r row column hRow
      hPivot q other hOther hEq

/- The rows remember what they did before. -/
def KeepsProvenance
    (m n : Matrix) : Prop :=
  ∀ (r : Nat) (row : Row), n.rows[r]? = some row →
    ∃ old, m.rows[r]? = some old ∧
      row.provenance = old.provenance

theorem keepsProvenance_setPivot
    {pivot previous : Option Nat}
    (hSet : m.setPivot r pivot = .ok (n, previous)) :
    KeepsProvenance m n := by
  rcases setPivot_eq_ok_iff.mp hSet with ⟨own, _, _, hOwn, _, _, _, rfl⟩
  intro q row hRow
  rw [getElem?_setRow hOwn] at hRow
  split at hRow
  · rename_i hEq
    cases hRow
    exact ⟨own, hEq ▸ hOwn, rfl⟩
  · exact ⟨row, hRow, rfl⟩

theorem keepsProvenance_fold
    {column : Nat}
    {b : Bool}
    {rows : List Nat}
    (hFold : m.fold column b = .ok (n, rows)) :
    KeepsProvenance m n := by
  intro q row hRow
  rw [(fold_eq_ok hFold).2, Array.getElem?_map] at hRow
  rcases Option.map_eq_some_iff.mp hRow with ⟨old, hOld, rfl⟩
  exact ⟨old, hOld, Row.provenance_fold old column b⟩

/- Only what the rows remember matters. -/
theorem Private.of_keepsProvenance
    (hPrivate : m.Private s r v)
    (hKeeps : KeepsProvenance m n) :
    n.Private s r v := by
  intro q row hRow
  rcases hKeeps q row hRow with ⟨old, hOld, hSame⟩
  unfold Row.origin
  rw [hSame]
  exact hPrivate q old hOld

/- Adding another row keeps a private variable. -/
theorem Private.addRow
    (hPrivate : m.Private s r v)
    {source target : Nat}
    (hOther : source ≠ r)
    (hAdd : m.addRow source target = .ok n) :
    n.Private s r v := by
  rcases addRow_eq_ok hAdd with
    ⟨_, sourceRow, targetRow, sum, hSource, hTarget, hSum, rfl⟩
  have hGet := getElem?_setRow hTarget sum
  intro q row hRow
  rw [hGet] at hRow
  split at hRow
  · rename_i hEq
    subst hEq
    cases hRow
    have hParts : sum.origin.mentions s v =
        (targetRow.origin.mentions s v ^^
          sourceRow.origin.mentions s v) :=
      (Row.linear_provenance fun position =>
        decide (v ∈ s.varsAt position)).add hSum
    rw [hParts, hPrivate _ _ hTarget, hPrivate _ _ hSource,
      decide_eq_false hOther, Bool.xor_false]
  · exact hPrivate q row hRow

------------------------------------------------------------
-- Keyed matrices
------------------------------------------------------------

/-
  Every row whose sum has a variable has one that is in the
  sum of no other row.
-/
def Keyed
    (s : Store)
    (m : Matrix) : Prop :=
  ∀ (r : Nat) (row : Row), m.rows[r]? = some row →
    (∃ w, row.origin.mentions s w = true) → ∃ v, m.Private s r v

/- A reduced matrix without assigned variables is keyed. -/
theorem Represents.keyed
    (hMatrix : m.Represents s value)
    (hStore : s.WellFormed)
    (hTracked : m.tracked = true)
    (hReduced : m.isReduced = true)
    (hOpen : ∀ v, value v = none) :
    m.Keyed s := by
  intro r row hRow ⟨w, hMentions⟩
  rcases (hMatrix.openVars_iff hStore hTracked hRow w).mpr
    ⟨hMentions, hOpen w⟩ with ⟨column, _, hHas⟩
  cases hPivot : row.pivot with
  | some pivot =>
      exact hMatrix.exists_private hStore hTracked hReduced hRow hPivot
  | none =>
      rw [(reducedBut_of_isReduced hReduced).empty r row hRow hPivot id
        column] at hHas
      cases hHas

theorem Keyed.of_keepsProvenance
    (hKeyed : m.Keyed s)
    (hKeeps : KeepsProvenance m n) :
    n.Keyed s := by
  intro r row hRow hMentions
  rcases hKeeps r row hRow with ⟨old, hOld, hSame⟩
  unfold Row.origin at hMentions
  rw [hSame] at hMentions
  rcases hKeyed r old hOld hMentions with ⟨v, hPrivate⟩
  exact ⟨v, hPrivate.of_keepsProvenance hKeeps⟩

theorem pivot_of_setPivot
    {pivot previous : Option Nat}
    (hSet : m.setPivot r pivot = .ok (n, previous))
    {row : Row}
    (hRow : n.rows[r]? = some row) :
    row.pivot = pivot := by
  rcases setPivot_eq_ok_iff.mp hSet with ⟨own, _, _, hOwn, _, _, _, rfl⟩
  rw [getElem?_setRow hOwn, if_pos rfl] at hRow
  cases hRow
  rfl

/- Rows without the column stay when it is cleared. -/
theorem getElem?_pivotOn
    {column : Nat}
    {targets : List Nat}
    (hPivot : m.pivotOn r column = .ok (n, targets))
    {q : Nat}
    (hOut : q ∉ m.rowsWith column) :
    n.rows[q]? = m.rows[q]? := by
  rcases pivotOn_eq_ok hPivot with ⟨rfl, hAdd⟩
  refine foldlM_keeps (fun k : Matrix => k.rows[q]? = m.rows[q]?) ?_
    rfl hAdd
  intro target hMem before after hBefore hStep
  rcases addRow_eq_ok hStep with ⟨_, _, _, _, _, _, _, rfl⟩
  have hNe : target ≠ q := by
    rintro rfl
    exact hOut (List.mem_filter.mp hMem).1
  rw [Array.getElem?_setIfInBounds_ne hNe]
  exact hBefore

/-
  Clearing a column keeps the private variables of the other
  rows. A row that gains variables had the column, so it had
  a private variable before.
-/
theorem Keyed.pivotOn
    (hKeyed : m.Keyed s)
    (hStore : s.WellFormed)
    (hMatrix : m.Represents s value)
    (hTracked : m.tracked = true)
    {column : Nat}
    {targets : List Nat}
    (hPivot : m.pivotOn r column = .ok (n, targets))
    {q : Nat}
    (hOther : r ≠ q)
    {row : Row}
    (hRow : n.rows[q]? = some row)
    (hMentions : ∃ w, row.origin.mentions s w = true) :
    ∃ v, n.Private s q v := by
  have hBefore : ∃ old, m.rows[q]? = some old ∧
      ∃ w, old.origin.mentions s w = true := by
    by_cases hIn : q ∈ m.rowsWith column
    · rcases mem_rowsWith.mp hIn with ⟨old, hOld, hHas⟩
      rcases hMatrix.openColumns q old hOld column hHas with
        ⟨w, hColumn, _⟩
      rw [hMatrix.has_eq hStore hTracked hOld hColumn,
        Bool.and_eq_true] at hHas
      exact ⟨old, hOld, w, hHas.1⟩
    · rw [getElem?_pivotOn hPivot hIn] at hRow
      exact ⟨row, hRow, hMentions⟩
  rcases hBefore with ⟨old, hOld, hOldMentions⟩
  rcases hKeyed q old hOld hOldMentions with ⟨v, hPrivate⟩
  refine ⟨v, foldlM_keeps (fun k : Matrix => k.Private s q v) ?_
    hPrivate (pivotOn_eq_ok hPivot).2⟩
  intro target _ before after hKept hAdd
  exact hKept.addRow hOther hAdd

end Matrix

------------------------------------------------------------
-- Completing values to solutions
------------------------------------------------------------

/-
  Values that satisfy the sum of the constraints are part of
  a solution of all constraints.
-/
def Origin.Extensible
    (s : Store)
    (o : Origin) : Prop :=
  ∀ b, o.defect s b = false →
    ∃ a, s.Holds a ∧ ∀ v, o.mentions s v = true → a v = b v

namespace Matrix

variable {s : Store} {m : Matrix}

/- The rows of a lossless matrix say all that the constraints say. -/
theorem Lossless.holds_iff
    (hLossless : m.Lossless s)
    (hStore : s.WellFormed)
    (a : Assignment) :
    s.Holds a ↔
      ∀ (r : Nat) (row : Row), m.rows[r]? = some row →
        row.origin.defect s a = false := by
  constructor
  · intro hHolds r row _
    exact Origin.defect_eq_false hStore hHolds row.origin
  · intro hRows
    have hZero := (hLossless.vanishes_iff (s.defectAt a)).mp hRows
    rw [hStore.holds_iff_defect]
    intro c hMem
    rcases Array.mem_iff_getElem?.mp hMem with ⟨position, hAt⟩
    have hHere := hZero position (Array.getElem?_eq_some_iff.mp hAt).1
    unfold Store.defectAt at hHere
    rw [hAt] at hHere
    exact hHere

/- A row that fails is repaired where no other row notices. -/
theorem Keyed.exists_repair
    (hKeyed : m.Keyed s)
    (hStore : s.WellFormed)
    (hSatisfiable : ∃ a, s.Holds a)
    {k : Nat}
    {row : Row}
    (hRow : m.rows[k]? = some row)
    (a : Assignment) :
    ∃ b, row.origin.defect s b = false ∧
      ∀ (q : Nat) (other : Row), m.rows[q]? = some other → q ≠ k →
        ∀ v, other.origin.mentions s v = true → b v = a v := by
  cases hDefect : row.origin.defect s a with
  | false => exact ⟨a, hDefect, fun _ _ _ _ _ _ => rfl⟩
  | true =>
      have hMentions : ∃ w, row.origin.mentions s w = true := by
        by_contra hNone
        rcases hSatisfiable with ⟨solution, hHolds⟩
        have hSame : row.origin.defect s a =
            row.origin.defect s solution :=
          Origin.defect_congr hStore fun w hIn =>
            absurd ⟨w, hIn⟩ hNone
        rw [hDefect, Origin.defect_eq_false hStore hHolds] at hSame
        cases hSame
      rcases hKeyed k row hRow hMentions with ⟨v, hPrivate⟩
      refine ⟨flipAt v a, ?_, ?_⟩
      · rw [Origin.defect_flipAt_eq hStore, hDefect,
          hPrivate k row hRow, decide_eq_true rfl, Bool.xor_self]
      · intro q other hOther hNe w hIn
        apply flipAt_of_ne
        rintro rfl
        rw [hPrivate q other hOther, decide_eq_false hNe] at hIn
        cases hIn

/- The rows before a given one hold. -/
def HoldsBelow
    (s : Store)
    (m : Matrix)
    (k : Nat)
    (a : Assignment) : Prop :=
  ∀ (q : Nat) (row : Row), q < k → m.rows[q]? = some row →
    row.origin.defect s a = false

theorem HoldsBelow.succ
    {k : Nat}
    {a : Assignment}
    (hBelow : m.HoldsBelow s k a)
    (hHere : ∀ row, m.rows[k]? = some row →
      row.origin.defect s a = false) :
    m.HoldsBelow s (k + 1) a := by
  intro q row hLt hRow
  rcases Nat.lt_succ_iff_lt_or_eq.mp hLt with hLess | rfl
  · exact hBelow q row hLess hRow
  · exact hHere row hRow

/-
  Values that satisfy one row can be changed elsewhere so
  that the rows before a given one hold.
-/
theorem Keyed.exists_holdsBelow
    (hKeyed : m.Keyed s)
    (hStore : s.WellFormed)
    (hSatisfiable : ∃ a, s.Holds a)
    {r : Nat}
    {row : Row}
    (hRow : m.rows[r]? = some row)
    {b : Assignment}
    (hTrue : row.origin.defect s b = false)
    (k : Nat) :
    ∃ a, m.HoldsBelow s k a ∧
      ∀ v, row.origin.mentions s v = true → a v = b v := by
  induction k with
  | zero => exact ⟨b, nofun, fun _ _ => rfl⟩
  | succ k ih =>
      rcases ih with ⟨a, hBelow, hSame⟩
      by_cases hEq : k = r
      · subst hEq
        refine ⟨a, hBelow.succ ?_, hSame⟩
        intro other hOther
        cases hRow.symm.trans hOther
        exact (Origin.defect_congr hStore hSame).trans hTrue
      cases hAt : m.rows[k]? with
      | none =>
          refine ⟨a, hBelow.succ ?_, hSame⟩
          rw [hAt]
          exact nofun
      | some next =>
          rcases hKeyed.exists_repair hStore hSatisfiable hAt a with
            ⟨c, hHere, hElsewhere⟩
          have hStill : m.HoldsBelow s k c := by
            intro q other hLt hOther
            rw [Origin.defect_congr hStore
              (hElsewhere q other hOther (Nat.ne_of_lt hLt))]
            exact hBelow q other hLt hOther
          refine ⟨c, hStill.succ ?_, ?_⟩
          · intro other hOther
            cases hAt.symm.trans hOther
            exact hHere
          · intro v hIn
            rw [hElsewhere r row hRow (Ne.symm hEq) v hIn]
            exact hSame v hIn

/- If there is a solution, every row can be satisfied as one likes. -/
theorem Keyed.extensible
    (hKeyed : m.Keyed s)
    (hStore : s.WellFormed)
    (hLossless : m.Lossless s)
    (hSatisfiable : ∃ a, s.Holds a)
    {r : Nat}
    {row : Row}
    (hRow : m.rows[r]? = some row) :
    row.origin.Extensible s := by
  intro b hTrue
  rcases hKeyed.exists_holdsBelow hStore hSatisfiable hRow hTrue
    m.rows.size with ⟨a, hBelow, hSame⟩
  refine ⟨a, (hLossless.holds_iff hStore a).mpr ?_, hSame⟩
  intro q other hOther
  exact hBelow q other (Array.getElem?_eq_some_iff.mp hOther).1 hOther

end Matrix

end ParitySolver
