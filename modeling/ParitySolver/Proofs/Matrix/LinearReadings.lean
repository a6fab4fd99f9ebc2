import ParitySolver.Proofs.Matrix.Represents

/-
  Which linear readings are zero on all rows. A reading is
  linear if it turns sums of rows into sums and does not see
  pivots. Whether such a reading is zero on all rows is kept
  by row operations, and so by elimination.

  Key definitions include:
    * `Row.Linear`
    * `Matrix.Vanishes`

  Main declarations:
    * `Matrix.vanishes_addRow`
    * `Matrix.closed_vanishes`
    * `Matrix.vanishes_fold`
-/

namespace ParitySolver

------------------------------------------------------------
-- Linear readings
------------------------------------------------------------

namespace Row

/- A reading that turns sums into sums and sees no pivots. -/
structure Linear
    (g : Row → Bool) : Prop where
  add :
    ∀ {target source sum : Row}, target.add source = .ok sum →
      g sum = (g target ^^ g source)
  pivot :
    ∀ (row : Row) (pivot : Option Nat),
      g { row with pivot } = g row

/- The sum of the columns, for given values. -/
theorem linear_columns
    (x : Nat → Bool) :
    Linear fun row => sumOver x row.columns.ones where
  add hSum := BitSet.sumOver_ones_xor x (add_eq_ok hSum).1
  pivot _ _ := rfl

/- The sum over the provenance, for given values. -/
theorem linear_provenance
    (f : Nat → Bool) :
    Linear fun row => sumOver f row.provenance.ones where
  add hSum := BitSet.sumOver_ones_xor f (add_eq_ok hSum).2.2.1
  pivot _ _ := rfl

/- By how much the columns fail to sum to the right-hand side. -/
theorem linear_imbalance
    (x : Nat → Bool) :
    Linear fun row => sumOver x row.columns.ones ^^ row.rhs where
  add hSum := imbalance_add hSum x
  pivot _ _ := rfl

end Row

------------------------------------------------------------
-- Readings that are zero on all rows
------------------------------------------------------------

namespace Matrix

variable {m n : Matrix} {g : Row → Bool}

/- The reading is zero on all rows. -/
def Vanishes
    (g : Row → Bool)
    (m : Matrix) : Prop :=
  ∀ (r : Nat) (row : Row), m.rows[r]? = some row → g row = false

theorem vanishes_addRow
    (hLinear : Row.Linear g)
    {source target : Nat}
    (hAdd : m.addRow source target = .ok n) :
    n.Vanishes g ↔ m.Vanishes g :=
  zero_addRow hLinear.add hAdd

theorem vanishes_setPivot
    (hLinear : Row.Linear g)
    {r : Nat}
    {pivot previous : Option Nat}
    (hSet : m.setPivot r pivot = .ok (n, previous)) :
    n.Vanishes g ↔ m.Vanishes g := by
  rcases setPivot_eq_ok_iff.mp hSet with
    ⟨row, _, _, hRow, _, _, _, rfl⟩
  have hGet := getElem?_setRow hRow { row with pivot }
  constructor
  · intro hZero q old hOld
    by_cases hEq : r = q
    · cases (hEq ▸ hRow).symm.trans hOld
      rw [← hLinear.pivot row pivot]
      exact hZero q _ (by rw [hGet, if_pos hEq])
    · exact hZero q old (by rw [hGet, if_neg hEq, hOld])
  · intro hZero q new hNew
    rw [hGet] at hNew
    split at hNew
    · cases hNew
      rw [hLinear.pivot]
      exact hZero r row hRow
    · exact hZero q new hNew

/- Whether a linear reading is zero on all rows. -/
theorem closed_vanishes
    (hLinear : Row.Linear g)
    (c : Prop) :
    Closed fun m => m.Vanishes g ↔ c where
  addRow hSame hAdd := (vanishes_addRow hLinear hAdd).trans hSame
  setPivot hSame hSet := (vanishes_setPivot hLinear hSet).trans hSame

/- A reading that does not see the column before it is replaced. -/
theorem vanishes_fold
    {column : Nat}
    {b : Bool}
    {rows : List Nat}
    (hFold : m.fold column b = .ok (n, rows))
    (hSame : ∀ row : Row, g (row.fold column b) = g row) :
    n.Vanishes g ↔ m.Vanishes g := by
  rcases fold_eq_ok hFold with ⟨_, rfl⟩
  constructor
  · intro hZero r row hRow
    rw [← hSame row]
    apply hZero r
    rw [Array.getElem?_map, hRow]
    rfl
  · intro hZero r row hRow
    rw [Array.getElem?_map] at hRow
    rcases Option.map_eq_some_iff.mp hRow with ⟨old, hOld, rfl⟩
    rw [hSame old]
    exact hZero r old hOld

end Matrix

end ParitySolver
