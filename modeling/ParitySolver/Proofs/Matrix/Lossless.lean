import Mathlib.Algebra.Field.ZMod
import Mathlib.LinearAlgebra.Matrix.NonsingularInverse
import ParitySolver.Proofs.Matrix.Provenance
import ParitySolver.Proofs.Matrix.LinearReadings

/-
  No constraint is lost. Each row remembers a set of
  constraints. Whatever numbers the constraints are given, if
  they sum to zero over each of these sets, they are all
  zero. Row operations and folding keep this, and since there
  are as many rows as constraints, it says that the sets are
  linearly independent over the two-element field.

  Key definitions include:
    * `Matrix.Lossless`
    * `Matrix.provenanceVectors`

  Main declarations:
    * `Matrix.lossless_of_ofStore`
    * `Matrix.closed_lossless`
    * `Matrix.Lossless.linearIndependent`
-/

namespace ParitySolver

------------------------------------------------------------
-- The two-element field
------------------------------------------------------------

/- A truth value as a number. -/
def bit
    (b : Bool) : ZMod 2 :=
  if b then 1 else 0

theorem bit_xor
    (p q : Bool) :
    bit (p ^^ q) = bit p + bit q := by
  revert p q
  decide

theorem bit_and
    (p q : Bool) :
    bit (p && q) = bit p * bit q := by
  revert p q
  decide

theorem bit_eq_zero
    {b : Bool} :
    bit b = 0 ↔ b = false := by
  revert b
  decide

theorem bit_decide_ne_zero
    (x : ZMod 2) :
    bit (decide (x ≠ 0)) = x := by
  revert x
  decide

theorem bit_sumOver_range
    (f : Nat → Bool)
    (n : Nat) :
    bit (sumOver f (List.range n)) = ∑ p : Fin n, bit (f p) := by
  induction n with
  | zero => rfl
  | succ n ih =>
      rw [List.range_succ, sumOver_append, bit_xor, ih,
        Fin.sum_univ_castSucc]
      simp

theorem bit_sumOver_ones
    (f : Nat → Bool)
    {b : BitSet}
    {n : Nat}
    (hSize : b.size = n) :
    bit (sumOver f b.ones) =
      ∑ p : Fin n, bit (b.has p) * bit (f p) := by
  rw [BitSet.sumOver_ones, hSize, bit_sumOver_range]
  simp only [bit_and]

namespace Matrix

variable {s : Store} {value : Nat → Option Bool} {m n : Matrix}
variable {read : Nat → Except Fault (Option Bool)}

------------------------------------------------------------
-- Constraints that are not lost
------------------------------------------------------------

/-
  There is a row for each constraint. Numbers of the
  constraints that sum to zero in all rows are zero.
-/
structure Lossless
    (s : Store)
    (m : Matrix) : Prop where
  size : m.rows.size = s.size
  vanishes_iff :
    ∀ f : Nat → Bool,
      (m.Vanishes fun row => sumOver f row.provenance.ones) ↔
        ∀ position < s.size, f position = false

theorem lossless_of_ofStore
    (hStore : s.WellFormed)
    (hRead : ∀ w value?, read w = .ok value? → value w = value?)
    (hMatrix : ofStore s read true = .ok m) :
    m.Lossless s := by
  rcases ofStore_eq_ok hMatrix with ⟨_, hRow, hBack⟩
  have hPick : ∀ (f : Nat → Bool) {r : Nat} {row : Row},
      m.rows[r]? = some row → sumOver f row.provenance.ones = f r := by
    intro f r row hGet
    rcases hRow r row hGet with ⟨c, hAt, hOk⟩
    exact (rowOf_eq_ok hStore hRead hAt hOk).2.2 rfl f
  constructor
  · apply Nat.le_antisymm
    · by_contra hMore
      rcases hRow s.size _ (Array.getElem?_eq_getElem
        (Nat.lt_of_not_le hMore)) with ⟨c, hAt, _⟩
      exact absurd (Array.getElem?_eq_some_iff.mp hAt).1
        (Nat.lt_irrefl _)
    · by_contra hLess
      rcases hBack m.rows.size _ (Array.getElem?_eq_getElem
        (Nat.lt_of_not_le hLess)) with ⟨row, hGet, _⟩
      exact absurd (Array.getElem?_eq_some_iff.mp hGet).1
        (Nat.lt_irrefl _)
  · intro f
    constructor
    · intro hZero position hLt
      rcases hBack position _ (Array.getElem?_eq_getElem hLt) with
        ⟨row, hGet, _⟩
      rw [← hPick f hGet]
      exact hZero position row hGet
    · intro hZero r row hGet
      rcases hRow r row hGet with ⟨c, hAt, _⟩
      refine (hPick f hGet).trans ?_
      exact hZero r (Array.getElem?_eq_some_iff.mp hAt).1

/- Row operations lose no constraint. -/
theorem closed_lossless
    (s : Store) :
    Closed (Lossless s) where
  addRow hBefore hAdd :=
    ⟨(closed_size _).addRow hBefore.size hAdd, fun f =>
      (closed_vanishes (Row.linear_provenance f) _).addRow
        (hBefore.vanishes_iff f) hAdd⟩
  setPivot hBefore hSet :=
    ⟨(closed_size _).setPivot hBefore.size hSet, fun f =>
      (closed_vanishes (Row.linear_provenance f) _).setPivot
        (hBefore.vanishes_iff f) hSet⟩

theorem Lossless.fold
    {column : Nat}
    {b : Bool}
    {rows : List Nat}
    (hBefore : m.Lossless s)
    (hFold : m.fold column b = .ok (n, rows)) :
    n.Lossless s := by
  constructor
  · rw [(fold_eq_ok hFold).2, Array.size_map]
    exact hBefore.size
  · intro f
    refine (vanishes_fold hFold ?_).trans (hBefore.vanishes_iff f)
    intro row
    rw [Row.provenance_fold]

------------------------------------------------------------
-- Linear independence
------------------------------------------------------------

/- The sets of constraints that the rows remember, as vectors. -/
def provenanceVectors
    (s : Store)
    (m : Matrix) : Fin m.rows.size → Fin s.size → ZMod 2 :=
  fun r position => bit (m.rows[r].provenance.has position)

/- Rows of a square matrix without null vectors are independent. -/
theorem linearIndependent_of_null
    {j k : Nat}
    (hSquare : j = k)
    (v : Fin j → Fin k → ZMod 2)
    (hNull : ∀ x : Fin k → ZMod 2,
      (∀ r, ∑ p, v r p * x p = 0) → x = 0) :
    LinearIndependent (ZMod 2) v := by
  subst hSquare
  have hInjective : Function.Injective (Matrix.of v).mulVec := by
    intro x y hSame
    rw [← sub_eq_zero]
    apply hNull
    intro r
    have hZero := congrFun (sub_eq_zero.mpr hSame) r
    rw [← Matrix.mulVec_sub] at hZero
    exact hZero
  exact Matrix.linearIndependent_rows_iff_isUnit.mpr
    (Matrix.mulVec_injective_iff_isUnit.mp hInjective)

/- The sets that the rows remember are linearly independent. -/
theorem Lossless.linearIndependent
    (hLossless : m.Lossless s)
    {width : Nat}
    (hShaped : m.Shaped width s.size) :
    LinearIndependent (ZMod 2) (m.provenanceVectors s) := by
  apply linearIndependent_of_null hLossless.size
  intro x hNull
  -- The numbers of the constraints, read off the vector.
  let f : Nat → Bool := fun position =>
    if hLt : position < s.size then decide (x ⟨position, hLt⟩ ≠ 0)
    else false
  have hBit : ∀ position : Fin s.size, bit (f position) = x position := by
    intro position
    rw [← bit_decide_ne_zero (x position)]
    exact congrArg bit (dif_pos position.isLt)
  have hVanishes :
      m.Vanishes fun row => sumOver f row.provenance.ones := by
    intro r row hRow
    rcases Array.getElem?_eq_some_iff.mp hRow with ⟨hLt, rfl⟩
    apply bit_eq_zero.mp
    rw [bit_sumOver_ones f (hShaped.provenance r _ hRow)]
    simp only [hBit]
    exact hNull ⟨r, hLt⟩
  funext position
  have hZero := (hLossless.vanishes_iff f).mp hVanishes position
    position.isLt
  rw [← hBit, hZero]
  rfl

end Matrix

end ParitySolver
