import ParitySolver.Proofs.Explanation
import ParitySolver.Proofs.Matrix.Elimination

/-
  What the provenance of a row tells. A variable is in the
  sum of some constraints if an odd number of them have it.
  A row that remembers its constraints has the columns of the
  open variables of their sum, and its right-hand side is the
  sum of theirs and of the values of the assigned variables.

  Key definitions include:
    * `Store.varsAt`
    * `Store.rhsAt`
    * `Origin.mentions`
    * `Origin.mentioned`
    * `Origin.rhs`

  Main declarations:
    * `Origin.defect_eq`
    * `Origin.defect_flipAt_eq`
    * `Origin.mem_vars_iff`
    * `Matrix.Represents.has_eq`
    * `Matrix.Represents.openVars_iff`
    * `Matrix.Represents.rhs_eq`
-/

namespace ParitySolver

------------------------------------------------------------
-- Sums of sums
------------------------------------------------------------

section Sums

variable {α β : Type}

/- Two sums can be exchanged. -/
theorem sumOver_comm
    (f : α → β → Bool)
    (as : List α)
    (bs : List β) :
    sumOver (fun a => sumOver (f a) bs) as =
      sumOver (fun b => sumOver (fun a => f a b) as) bs := by
  induction as with
  | nil => exact (sumOver_eq_false fun _ _ => rfl).symm
  | cons a as ih =>
      simp only [sumOver_cons]
      rw [ih, sumOver_xor]

theorem sumOver_and_right
    (f : α → Bool)
    (b : Bool)
    (as : List α) :
    sumOver (fun a => f a && b) as = (sumOver f as && b) := by
  induction as with
  | nil => rfl
  | cons a as ih =>
      rw [sumOver_cons, sumOver_cons, ih, Bool.and_xor_distrib_right]

/- A sum over distinct numbers, written with all numbers. -/
theorem sumOver_eq_range
    (f : Nat → Bool)
    {vs : List Nat}
    (hNodup : vs.Nodup)
    {bound : Nat}
    (hLt : ∀ v ∈ vs, v < bound) :
    sumOver f vs =
      sumOver (fun v => decide (v ∈ vs) && f v)
        (List.range bound) := by
  rw [← sumOver_filter]
  apply sumOver_perm
  rw [List.perm_ext_iff_of_nodup hNodup (List.nodup_range.filter _)]
  intro v
  rw [List.mem_filter, List.mem_range, decide_eq_true_eq]
  exact ⟨fun hMem => ⟨hLt v hMem, hMem⟩, And.right⟩

end Sums

------------------------------------------------------------
-- Sums of constraints
------------------------------------------------------------

namespace Store

variable {s : Store}

/- The variables of the constraint at a position. -/
def varsAt
    (s : Store)
    (position : Nat) : List Nat :=
  match s.constraints[position]? with
  | some c => c.vars
  | none => []

/- The right-hand side of the constraint at a position. -/
def rhsAt
    (s : Store)
    (position : Nat) : Bool :=
  match s.constraints[position]? with
  | some c => c.rhs
  | none => false

theorem defectAt_eq
    (s : Store)
    (a : Assignment)
    (position : Nat) :
    s.defectAt a position =
      (sumOver a (s.varsAt position) ^^ s.rhsAt position) := by
  unfold defectAt varsAt rhsAt
  cases s.constraints[position]? with
  | none => rfl
  | some c => rfl

theorem WellFormed.nodup_varsAt
    (hStore : s.WellFormed)
    (position : Nat) :
    (s.varsAt position).Nodup := by
  unfold varsAt
  cases hAt : s.constraints[position]? with
  | none => exact List.nodup_nil
  | some c => exact hStore.nodup_vars (Array.mem_of_getElem? hAt)

theorem WellFormed.isRelevant_of_mem_varsAt
    (hStore : s.WellFormed)
    {position v : Nat}
    (hMem : v ∈ s.varsAt position) :
    s.isRelevant v = true := by
  unfold varsAt at hMem
  cases hAt : s.constraints[position]? with
  | none =>
      rw [hAt] at hMem
      cases hMem
  | some c =>
      rw [hAt] at hMem
      exact (hStore.isRelevant_iff v).mpr
        ⟨c, Array.mem_of_getElem? hAt, hMem⟩

theorem WellFormed.lt_of_mem_varsAt
    (hStore : s.WellFormed)
    {position v : Nat}
    (hMem : v ∈ s.varsAt position) :
    v < s.numVariables :=
  hStore.lt_of_isRelevant (hStore.isRelevant_of_mem_varsAt hMem)

end Store

namespace Origin

variable {s : Store}

/-
  The variable is in the sum of the constraints: an odd
  number of them have it.
-/
def mentions
    (s : Store)
    (o : Origin)
    (v : Nat) : Bool :=
  sumOver (fun position => decide (v ∈ s.varsAt position)) o.positions

/- The variables of the sum of the constraints, ascending. -/
def mentioned
    (s : Store)
    (o : Origin) : List Nat :=
  (List.range s.numVariables).filter (o.mentions s)

/- The right-hand side of the sum of the constraints. -/
def rhs
    (s : Store)
    (o : Origin) : Bool :=
  sumOver s.rhsAt o.positions

/- A variable of the sum is a variable of some constraint. -/
theorem exists_mem_varsAt_of_mentions
    {o : Origin}
    {v : Nat}
    (hMentions : o.mentions s v = true) :
    ∃ position, v ∈ s.varsAt position := by
  by_contra hNone
  rw [not_exists] at hNone
  have hZero : o.mentions s v = false :=
    sumOver_eq_false fun position _ =>
      decide_eq_false (hNone position)
  rw [hZero] at hMentions
  cases hMentions

theorem lt_of_mentions
    (hStore : s.WellFormed)
    {o : Origin}
    {v : Nat}
    (hMentions : o.mentions s v = true) :
    v < s.numVariables := by
  rcases exists_mem_varsAt_of_mentions hMentions with ⟨position, hMem⟩
  exact hStore.lt_of_mem_varsAt hMem

/- A variable of the sum has a column. -/
theorem exists_column_of_mentions
    (hStore : s.WellFormed)
    {o : Origin}
    {v : Nat}
    (hMentions : o.mentions s v = true) :
    ∃ column : Nat, s.variableTable[column]? = some v := by
  rcases exists_mem_varsAt_of_mentions hMentions with ⟨position, hMem⟩
  have hRelevant := hStore.isRelevant_of_mem_varsAt hMem
  rcases Option.isSome_iff_exists.mp hRelevant with ⟨column, hColumn⟩
  exact ⟨column, (hStore.columnOf?_eq_some_iff v column).mp hColumn⟩

theorem mem_mentioned
    (hStore : s.WellFormed)
    {o : Origin}
    {v : Nat} :
    v ∈ o.mentioned s ↔ o.mentions s v = true := by
  unfold mentioned
  rw [List.mem_filter, List.mem_range]
  exact ⟨And.right, fun hMentions =>
    ⟨lt_of_mentions hStore hMentions, hMentions⟩⟩

theorem nodup_mentioned
    (s : Store)
    (o : Origin) :
    (o.mentioned s).Nodup :=
  List.nodup_range.filter _

/- The sum of the constraints is one constraint on its variables. -/
theorem defect_eq
    (hStore : s.WellFormed)
    (o : Origin)
    (a : Assignment) :
    o.defect s a = (sumOver a (o.mentioned s) ^^ o.rhs s) := by
  have hTerm : ∀ position,
      s.defectAt a position =
        (sumOver
            (fun v => decide (v ∈ s.varsAt position) && a v)
            (List.range s.numVariables) ^^
          s.rhsAt position) := by
    intro position
    rw [s.defectAt_eq, sumOver_eq_range a
      (hStore.nodup_varsAt position)
      fun _ => hStore.lt_of_mem_varsAt]
  unfold Origin.defect mentioned
  rw [sumOver_congr fun position _ => hTerm position, sumOver_xor,
    sumOver_comm, sumOver_filter]
  congr 1
  apply sumOver_congr
  intro v _
  exact sumOver_and_right _ (a v) o.positions

/- Only the variables of the sum matter. -/
theorem defect_congr
    (hStore : s.WellFormed)
    {o : Origin}
    {a b : Assignment}
    (hSame : ∀ v, o.mentions s v = true → a v = b v) :
    o.defect s a = o.defect s b := by
  rw [defect_eq hStore, defect_eq hStore, sumOver_congr]
  intro v hMem
  exact hSame v ((mem_mentioned hStore).mp hMem)

/- Changing a variable of the sum changes whether it holds. -/
theorem defect_flipAt_eq
    (hStore : s.WellFormed)
    (o : Origin)
    (v : Nat)
    (a : Assignment) :
    o.defect s (flipAt v a) = (o.defect s a ^^ o.mentions s v) := by
  have hIn : decide (v ∈ o.mentioned s) = o.mentions s v := by
    rw [Bool.eq_iff_iff, decide_eq_true_eq]
    exact mem_mentioned hStore
  rw [defect_eq hStore, defect_eq hStore]
  unfold flipAt
  rw [sumOver_xor, sumOver_decide_eq (nodup_mentioned s o), hIn,
    Bool.xor_right_comm]

/- The variables that an explanation collects are those of the sum. -/
theorem mem_vars_iff
    (hStore : s.WellFormed)
    {o : Origin}
    {set : IndexSet}
    (hVars : o.vars s = .ok set)
    {v : Nat} :
    v ∈ set.members ↔ o.mentions s v = true := by
  have hFirst := defect_flipAt hVars v fun _ => false
  have hSecond := defect_flipAt_eq hStore o v fun _ => false
  rw [hFirst, Bool.xor_right_inj] at hSecond
  rw [← hSecond, decide_eq_true_eq]

/- The literals of a reason are of variables of the sum. -/
theorem mentions_of_mem_explain
    (hStore : s.WellFormed)
    {o : Origin}
    {trail : Trail}
    {forced? : Option Nat}
    {reason : List Literal}
    (hExplain : o.explain s trail forced? = .ok reason)
    {l : Literal}
    (hMem : l ∈ reason) :
    o.mentions s l.index = true := by
  rcases exists_rest_of_explain hExplain with
    ⟨set, rest, hVars, hHeld, hRest⟩
  have hSorted : l.index ∈ rest.sorted :=
    (mapM_held hHeld).1 ▸ List.mem_map_of_mem hMem
  have hIn : l.index ∈ rest.members := mem_sortAscending.mp hSorted
  rw [← mem_vars_iff hStore hVars]
  cases forced? with
  | none =>
      subst hRest
      exact hIn
  | some v =>
      rw [hRest.2, IndexSet.mem_erase] at hIn
      exact hIn.1

/- A forced variable is in the sum. -/
theorem mentions_of_forced
    (hStore : s.WellFormed)
    {o : Origin}
    {trail : Trail}
    {v : Nat}
    {reason : List Literal}
    (hExplain : o.explain s trail (some v) = .ok reason) :
    o.mentions s v = true := by
  rcases exists_rest_of_explain hExplain with
    ⟨set, _, hVars, _, hContains, _⟩
  rw [← mem_vars_iff hStore hVars]
  exact (IndexSet.contains_iff_mem set v).mp hContains

end Origin

------------------------------------------------------------
-- Rows as sums of constraints
------------------------------------------------------------

/- The constraints that a row is the sum of. -/
def Row.origin
    (row : Row) : Origin :=
  .combination row.provenance

namespace Matrix

variable {s : Store} {value : Nat → Option Bool} {m : Matrix}
variable {r : Nat} {row : Row}

/- Changing an open variable changes the rows that have its column. -/
theorem Represents.defect_flipAt
    (hMatrix : m.Represents s value)
    (hStore : s.WellFormed)
    (hRow : m.rows[r]? = some row)
    {column v : Nat}
    (hColumn : s.variableTable[column]? = some v)
    (a : Assignment) :
    row.defect s (flipAt v a) =
      (row.defect s a ^^ row.columns.has column) := by
  have hValue : ∀ other ∈ row.columns.ones,
      s.columnValue (flipAt v a) other =
        (s.columnValue a other ^^ decide (column = other)) := by
    intro other hMem
    rcases hMatrix.openColumns r row hRow other
      ((BitSet.mem_ones _ _).mp hMem) with ⟨w, hOther, _⟩
    rw [Store.columnValue_eq hOther, Store.columnValue_eq hOther]
    unfold flipAt
    congr 1
    rw [decide_eq_decide]
    constructor
    · rintro rfl
      have hFirst := (hStore.columnOf?_eq_some_iff v column).mpr hColumn
      have hSecond := (hStore.columnOf?_eq_some_iff v other).mpr hOther
      exact Option.some.inj (hFirst.symm.trans hSecond)
    · rintro rfl
      exact Option.some.inj (hColumn.symm.trans hOther)
  have hIn : decide (column ∈ row.columns.ones) =
      row.columns.has column := by
    rw [Bool.eq_iff_iff, decide_eq_true_eq]
    exact BitSet.mem_ones _ _
  unfold Row.defect
  rw [sumOver_congr hValue, sumOver_xor,
    sumOver_decide_eq row.columns.nodup_ones, hIn,
    Bool.xor_right_comm]

/- The columns of a row are the open variables of its sum. -/
theorem Represents.has_eq
    (hMatrix : m.Represents s value)
    (hStore : s.WellFormed)
    (hTracked : m.tracked = true)
    (hRow : m.rows[r]? = some row)
    {column v : Nat}
    (hColumn : s.variableTable[column]? = some v) :
    row.columns.has column =
      (row.origin.mentions s v && (value v).isNone) := by
  cases hValue : value v with
  | some b =>
      rw [Option.isNone_some, Bool.and_false]
      cases hHas : row.columns.has column with
      | false => rfl
      | true =>
          rcases hMatrix.openColumns r row hRow column hHas with
            ⟨w, hOther, hOpen⟩
          cases hColumn.symm.trans hOther
          rw [hValue] at hOpen
          cases hOpen
  | none =>
      rw [Option.isNone_none, Bool.and_true]
      have hBase := extends_overlay value fun _ => false
      have hSum : ∀ a, Extends a value →
          row.defect s a = row.origin.defect s a :=
        hMatrix.provenance hTracked r row hRow
      have hFlip := hMatrix.defect_flipAt hStore hRow hColumn
        (overlay value fun _ => false)
      rw [hSum _ hBase, hSum _ (extends_flipAt hBase hValue),
        Origin.defect_flipAt_eq hStore, Bool.xor_right_inj] at hFlip
      exact hFlip.symm

/- The variables of a row's columns are the open ones of its sum. -/
theorem Represents.openVars_iff
    (hMatrix : m.Represents s value)
    (hStore : s.WellFormed)
    (hTracked : m.tracked = true)
    (hRow : m.rows[r]? = some row)
    (v : Nat) :
    (∃ column, s.variableTable[column]? = some v ∧
        row.columns.has column = true) ↔
      row.origin.mentions s v = true ∧ value v = none := by
  constructor
  · rintro ⟨column, hColumn, hHas⟩
    rw [hMatrix.has_eq hStore hTracked hRow hColumn,
      Bool.and_eq_true, Option.isNone_iff_eq_none] at hHas
    exact hHas
  · rintro ⟨hMentions, hOpen⟩
    rcases Origin.exists_column_of_mentions hStore hMentions with
      ⟨column, hColumn⟩
    refine ⟨column, hColumn, ?_⟩
    rw [hMatrix.has_eq hStore hTracked hRow hColumn, hMentions, hOpen]
    rfl

/-
  With all open variables zero a row fails by its right-hand
  side.
-/
theorem Represents.rhs_eq_defect
    (hMatrix : m.Represents s value)
    (hTracked : m.tracked = true)
    (hRow : m.rows[r]? = some row) :
    row.rhs =
      row.origin.defect s (overlay value fun _ => false) := by
  have hZero : sumOver
      (s.columnValue (overlay value fun _ => false))
      row.columns.ones = false := by
    apply sumOver_eq_false
    intro column hMem
    rcases hMatrix.openColumns r row hRow column
      ((BitSet.mem_ones _ _).mp hMem) with ⟨v, hColumn, hOpen⟩
    rw [Store.columnValue_eq hColumn, overlay_of_none _ hOpen]
  have hSum := hMatrix.provenance hTracked r row hRow _
    (extends_overlay value fun _ => false)
  unfold Row.defect at hSum
  rw [hZero, Bool.false_xor] at hSum
  exact hSum

/-
  The right-hand side of a row is that of its sum, with the
  values of the assigned variables of the sum put in.
-/
theorem Represents.rhs_eq
    (hMatrix : m.Represents s value)
    (hStore : s.WellFormed)
    (hTracked : m.tracked = true)
    (hRow : m.rows[r]? = some row) :
    row.rhs =
      (row.origin.rhs s ^^
        assignedSum value (row.origin.mentioned s)) := by
  rw [hMatrix.rhs_eq_defect hTracked hRow, Origin.defect_eq hStore,
    Bool.xor_comm]
  rfl

end Matrix

end ParitySolver
