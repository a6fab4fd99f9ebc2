import ParitySolver.Proofs.Matrix.Elimination
import ParitySolver.Proofs.Theory
import ParitySolver.Proofs.Theory.WatchLists

/-
  Theories come to their end. With the tables in order, a
  theory can be set up, take a literal in and look again, and
  the tables are in order afterwards. The events that it
  reports can be explained: they rest on constraints that
  there are, and the literals that they force are open. And
  no theory misses a constraint that a literal made false.

  Key definitions include:
    * `Event.Explainable`
    * `Counting.Sized`
    * `Theory.Sturdy`

  Main declarations:
    * `Incremental.exists_absorb`
    * `Theory.exists_ofStore`
    * `Theory.exists_begin`
    * `Theory.Sturdy.exists_assign`
    * `Theory.exists_atFixpoint`
-/

namespace ParitySolver

------------------------------------------------------------
-- Events that can be explained
------------------------------------------------------------

/-
  The event rests on constraints of the store, and a literal
  that it forces is open.
-/
def Event.Explainable
    (s : Store)
    (value : Nat → Option Bool) : Event → Prop
  | .propagation l origin =>
      value l.index = none ∧ ∀ p ∈ origin.positions, p < s.size
  | .conflict origin => ∀ p ∈ origin.positions, p < s.size

theorem Origin.lt_of_mem_constraint
    {position size : Nat}
    (hLt : position < size) :
    ∀ p ∈ (Origin.constraint position).positions, p < size := by
  intro p hMem
  rw [Origin.positions, List.mem_singleton] at hMem
  omega

theorem Origin.lt_of_mem_combination
    {set : BitSet}
    {size : Nat}
    (hSize : set.size = size) :
    ∀ p ∈ (Origin.combination set).positions, p < size := by
  intro p hMem
  rw [← hSize]
  exact BitSet.lt_size_of_has ((BitSet.mem_ones _ _).mp hMem)

/- What one constraint shows can be explained. -/
theorem Event.Plain.explainable
    {s : Store}
    {value : Nat → Option Bool}
    {event : Event}
    (hPlain : event.Plain s value) :
    event.Explainable s value := by
  rcases hPlain with ⟨position, c, hAt, hReveals⟩
  have hPositions : ∀ p ∈ (Origin.constraint position).positions,
      p < s.size :=
    Origin.lt_of_mem_constraint (Array.getElem?_eq_some_iff.mp hAt).1
  cases hReveals with
  | unit _ hOpen _ => exact ⟨hOpen, hPositions⟩
  | failed _ _ => exact hPositions

/- The events of a matrix can be explained. -/
theorem Matrix.explainable_of_mem_scan
    {s : Store}
    {value : Nat → Option Bool}
    {m : Matrix}
    {width : Nat}
    (hShaped : m.Shaped width s.size)
    (hMatrix : m.Represents s value)
    {events : List Event}
    (hScan : m.scan s = .ok events)
    {event : Event}
    (hMem : event ∈ events) :
    event.Explainable s value := by
  rcases exists_row_of_mem_scan hScan hMem with
    ⟨r, row, hRow, hEvent⟩
  have hPositions :=
    Origin.lt_of_mem_combination (hShaped.provenance r row hRow)
  rcases rowEvent?_eq_ok hEvent with
    ⟨_, hNone⟩ | ⟨_, hSome⟩ | ⟨column, v, hNews, hVariable, hSome⟩
  · cases hNone
  · cases hSome
    exact hPositions
  · cases hSome
    refine ⟨?_, hPositions⟩
    have hHas : row.columns.has column = true := by
      rw [← BitSet.mem_ones, Row.news_eq_unit hNews]
      exact List.mem_singleton_self column
    rcases hMatrix.openColumns r row hRow column hHas with
      ⟨w, hSame, hOpen⟩
    cases hVariable.symm.trans hSame
    exact hOpen

------------------------------------------------------------
-- Counting
------------------------------------------------------------

namespace Counting

variable {s : Store} {value value' : Nat → Option Bool}
variable {t t' : Counting}

/- There is a count and a sum for each constraint. -/
structure Sized
    (s : Store)
    (t : Counting) : Prop where
  remaining : t.remaining.size = s.size
  folded : t.folded.size = s.size

theorem sized_ofStore
    (s : Store) :
    (ofStore s).Sized s :=
  ⟨Array.size_map, Array.size_replicate⟩

theorem exists_assignRows
    (hSized : t.Sized s)
    (b : Bool)
    {rs : List Nat}
    (hNodup : rs.Nodup)
    (hRows : ∀ r ∈ rs, ∃ n, t.remaining[r]? = some n ∧ 0 < n) :
    ∃ t' events, assignRows s b rs t = .ok (t', events) ∧
      t'.Sized s := by
  induction rs generalizing t with
  | nil => exact ⟨t, [], rfl, hSized⟩
  | cons r rs ih =>
      rw [List.nodup_cons] at hNodup
      rcases List.forall_mem_cons.mp hRows with
        ⟨⟨n, hRemaining, hPos⟩, hRest⟩
      have hLt : r < s.size := by
        rw [← hSized.remaining]
        exact (Array.getElem?_eq_some_iff.mp hRemaining).1
      have hFolded : r < t.folded.size := by
        rw [hSized.folded]
        exact hLt
      have hNext : Sized s
          ⟨t.remaining.setIfInBounds r (n - 1),
            t.folded.setIfInBounds r (t.folded[r] ^^ b)⟩ :=
        ⟨by simpa using hSized.remaining, by simpa using hSized.folded⟩
      have hNextRows : ∀ q ∈ rs, ∃ k,
          (t.remaining.setIfInBounds r (n - 1))[q]? = some k ∧
            0 < k := by
        intro q hMem
        have hNe : r ≠ q := fun hEq => hNodup.1 (hEq ▸ hMem)
        rw [Array.getElem?_setIfInBounds_ne hNe]
        exact hRest q hMem
      rcases ih hNext hNodup.2 hNextRows with
        ⟨last, rest, hRun, hEnd⟩
      have hHead : assignRows s b (r :: rs) t =
          if (decide (n - 1 = 0) &&
              ((t.folded[r] ^^ b) != s.constraints[r].rhs)) = true then
            .ok (last, .conflict (.constraint r) :: rest)
          else .ok (last, rest) := by
        unfold assignRows
        rw [Table.get_eq_ok_iff.mpr hRemaining,
          Table.get_of_lt hFolded, Table.get_of_lt hLt]
        simp only [bind, Except.bind, hRun,
          require_of_true (decide_eq_true hPos), pure, Except.pure]
      rw [hHead]
      split
      · exact ⟨last, _, rfl, hEnd⟩
      · exact ⟨last, _, rfl, hEnd⟩

/- A constraint that is false in the end is reported. -/
theorem conflict_of_assignRows
    {b : Bool}
    {rs : List Nat}
    (hNodup : rs.Nodup)
    {events : List Event}
    (hAssign : assignRows s b rs t = .ok (t', events))
    {r : Nat}
    (hMem : r ∈ rs)
    {c : StoredConstraint}
    (hAt : s.constraints[r]? = some c)
    (hZero : t'.remaining[r]? = some 0)
    {x : Bool}
    (hSum : t'.folded[r]? = some x)
    (hFalse : x ≠ c.rhs) :
    Event.conflict (.constraint r) ∈ events := by
  induction rs generalizing t t' events with
  | nil => cases hMem
  | cons q rs ih =>
      rw [List.nodup_cons] at hNodup
      unfold assignRows at hAssign
      simp only [bind_eq_ok, require_eq_ok, exists_const,
        Table.get_eq_ok_iff, decide_eq_true_eq,
        Prod.exists] at hAssign
      rcases hAssign with
        ⟨n, hRemaining, _, y, hFolded, d, hHere, middle, rest, hRest,
          hEvents⟩
      have hSame : t' = middle ∧
          ((decide (n - 1 = 0) && ((y ^^ b) != d.rhs)) = true ∧
              events = .conflict (.constraint q) :: rest ∨
            (decide (n - 1 = 0) && ((y ^^ b) != d.rhs)) = false ∧
              events = rest) := by
        split at hEvents
        · rename_i hFails
          rw [pure_eq_ok, Prod.mk.injEq] at hEvents
          exact ⟨hEvents.1.symm, Or.inl ⟨hFails, hEvents.2.symm⟩⟩
        · rename_i hFails
          rw [pure_eq_ok, Prod.mk.injEq] at hEvents
          exact ⟨hEvents.1.symm,
            Or.inr ⟨by simpa using hFails, hEvents.2.symm⟩⟩
      rcases hSame with ⟨rfl, hCase⟩
      rcases List.mem_cons.mp hMem with rfl | hTail
      · cases hAt.symm.trans hHere
        have hTable := (assignRows_eq_ok hNodup.2 hRest).2.1
        rw [hTable, Table.getElem?_foldl_modify _ hNodup.2,
          if_neg hNodup.1] at hZero hSum
        have hCountLt := (Array.getElem?_eq_some_iff.mp hRemaining).1
        have hSumLt := (Array.getElem?_eq_some_iff.mp hFolded).1
        rw [Array.getElem?_setIfInBounds_self_of_lt hCountLt] at hZero
        rw [Array.getElem?_setIfInBounds_self_of_lt hSumLt] at hSum
        have hNone : n - 1 = 0 := Option.some.inj hZero
        have hValue : (y ^^ b) = x := Option.some.inj hSum
        rcases hCase with ⟨_, rfl⟩ | ⟨hFails, _⟩
        · exact List.mem_cons_self
        · rw [hNone, hValue] at hFails
          simp [hFalse] at hFails
      · have hLater := ih hNodup.2 hRest hTail hZero hSum
        rcases hCase with ⟨_, rfl⟩ | ⟨_, rfl⟩
        · exact List.mem_cons_of_mem _ hLater
        · exact hLater

section Assign

variable {ctx : Context} {found : Findings} {l : Literal}

/- Taking in a literal comes to its end. -/
theorem Sized.exists_assign
    (hStore : ctx.store.WellFormed)
    (hSized : t.Sized ctx.store)
    (hFollows : t.Follows ctx.store value)
    (hLast : ctx.trail.last? = some l)
    (hOpen : value l.index = none) :
    ∃ t' found, t.assign ctx = .ok (t', found) ∧
      t'.Sized ctx.store := by
  have hRows : ∀ r ∈ ctx.store.constraintsOf l.index,
      ∃ n, t.remaining[r]? = some n ∧ 0 < n := by
    intro r hMem
    rcases (hStore.mem_constraintsOf _ _).mp hMem with ⟨c, hAt, hIn⟩
    have hLt : r < t.remaining.size := by
      rw [hSized.remaining]
      exact (Array.getElem?_eq_some_iff.mp hAt).1
    have hGet : t.remaining[r]? = some t.remaining[r] :=
      Array.getElem?_eq_getElem hLt
    rcases hFollows.remaining r _ hGet with ⟨d, hSame, hCount⟩
    cases hAt.symm.trans hSame
    refine ⟨_, hGet, ?_⟩
    rw [hCount, openCount, List.countP_pos_iff]
    exact ⟨l.index, hIn, by rw [hOpen]; rfl⟩
  rcases exists_assignRows hSized l.value
      (hStore.nodup_constraintsOf l.index) hRows with
    ⟨t', events, hRun, hEnd⟩
  refine ⟨t', ⟨events, []⟩, ?_, hEnd⟩
  unfold assign Context.newest
  rw [hLast]
  simp only [bind, Except.bind, hRun, pure, Except.pure]

theorem openCount_eq_zero
    {vs : List Nat}
    (hAll : ∀ v ∈ vs, (value v).isSome = true) :
    openCount value vs = 0 := by
  rw [openCount, List.countP_eq_zero]
  intro v hMem
  have hSome := hAll v hMem
  cases hValue : value v with
  | none =>
      rw [hValue] at hSome
      cases hSome
  | some b => simp

/- Taking in a literal reports the constraints it makes false. -/
theorem conflict_of_violated
    (hStore : ctx.store.WellFormed)
    (hSized : t.Sized ctx.store)
    (hFollows : t.Follows ctx.store value)
    (hLast : ctx.trail.last? = some l)
    (hNew : ∀ w, ctx.trail.value w =
      if w = l.index then some l.value else value w)
    (hOpen : value l.index = none)
    (hAssign : t.assign ctx = .ok (t', found))
    {r : Nat}
    {c : StoredConstraint}
    (hAt : ctx.store.constraints[r]? = some c)
    (hIn : l.index ∈ c.vars)
    (hAll : ∀ w ∈ c.vars, (ctx.trail.value w).isSome = true)
    (hFalse : assignedSum ctx.trail.value c.vars ≠ c.rhs) :
    Event.conflict (.constraint r) ∈ found.events := by
  have hAfter := hFollows.assign hStore hLast hNew hOpen hAssign
  rcases hSized.exists_assign hStore hFollows hLast hOpen with
    ⟨same, _, hSame, hEnd⟩
  cases hAssign.symm.trans hSame
  rcases assign_eq_ok hAssign with ⟨k, hLast', hRows⟩
  cases hLast.symm.trans hLast'
  have hLt : r < ctx.store.size :=
    (Array.getElem?_eq_some_iff.mp hAt).1
  have hMem := (hStore.mem_constraintsOf l.index r).mpr ⟨c, hAt, hIn⟩
  have hCountLt : r < t'.remaining.size := by
    rw [hEnd.remaining]
    exact hLt
  have hSumLt : r < t'.folded.size := by
    rw [hEnd.folded]
    exact hLt
  have hCount : t'.remaining[r]? = some t'.remaining[r] :=
    Array.getElem?_eq_getElem hCountLt
  have hSum : t'.folded[r]? = some t'.folded[r] :=
    Array.getElem?_eq_getElem hSumLt
  rcases hAfter.remaining r _ hCount with ⟨d, hD, hZero⟩
  cases hAt.symm.trans hD
  rcases hAfter.folded r _ hSum with ⟨d, hD, hValue⟩
  cases hAt.symm.trans hD
  rw [openCount_eq_zero hAll] at hZero
  rw [hZero] at hCount
  refine conflict_of_assignRows
    (hStore.nodup_constraintsOf l.index) hRows hMem hAt hCount hSum ?_
  rw [hValue]
  exact hFalse

end Assign

end Counting

------------------------------------------------------------
-- Incremental elimination
------------------------------------------------------------

theorem Row.size_fold
    (row : Row)
    (column : Nat)
    (b : Bool) :
    (row.fold column b).columns.size = row.columns.size := by
  unfold Row.fold
  split
  · unfold BitSet.flipAt
    split
    · rfl
    · rfl
  · rfl

theorem Row.provenance_fold
    (row : Row)
    (column : Nat)
    (b : Bool) :
    (row.fold column b).provenance = row.provenance := by
  unfold Row.fold
  split
  · rfl
  · rfl

theorem Row.pivot_fold
    (row : Row)
    (column : Nat)
    (b : Bool) :
    (row.fold column b).pivot = row.pivot := by
  unfold Row.fold
  split
  · rfl
  · rfl

theorem Row.has_fold_of_ne
    (row : Row)
    {column other : Nat}
    (hNe : other ≠ column)
    (b : Bool) :
    (row.fold column b).columns.has other = row.columns.has other := by
  unfold Row.fold
  split
  · unfold BitSet.flipAt
    split
    · rw [BitSet.has_flip]
      simp [Ne.symm hNe]
    · rfl
  · rfl

namespace Matrix

variable {m n : Matrix} {width depth : Nat}

/- Replacing a column by its value keeps the shape. -/
theorem Shaped.exists_fold
    (hShaped : m.Shaped width depth)
    {column : Nat}
    (hLt : column < width)
    (b : Bool) :
    ∃ n, m.fold column b = .ok (n, m.rowsWith column) ∧
      n.Shaped width depth ∧
      n.rowOfPivot = m.rowOfPivot ∧
      ∀ r : Nat, n.rows[r]? = m.rows[r]?.map (Row.fold · column b) := by
  have hGet : ∀ r : Nat, (m.rows.map (Row.fold · column b))[r]? =
      m.rows[r]?.map (Row.fold · column b) :=
    fun r => Array.getElem?_map ..
  refine ⟨{ m with rows := m.rows.map (Row.fold · column b) }, ?_,
    ⟨?_, ?_, hShaped.table, ?_⟩, rfl, hGet⟩
  · simp only [Matrix.fold, bind_eq_ok, pure_eq_ok]
    exact ⟨(), hShaped.requireColumn hLt, trivial⟩
  · intro r row hRow
    rw [hGet] at hRow
    rcases Option.map_eq_some_iff.mp hRow with ⟨old, hOld, rfl⟩
    rw [Row.size_fold]
    exact hShaped.columns r old hOld
  · intro r row hRow
    rw [hGet] at hRow
    rcases Option.map_eq_some_iff.mp hRow with ⟨old, hOld, rfl⟩
    rw [Row.provenance_fold]
    exact hShaped.provenance r old hOld
  · intro r c
    rw [hShaped.pivot_iff, hGet]
    constructor
    · rintro ⟨row, hRow, hPivot⟩
      refine ⟨row.fold column b, by rw [hRow]; rfl, ?_⟩
      rw [Row.pivot_fold]
      exact hPivot
    · rintro ⟨row, hRow, hPivot⟩
      rcases Option.map_eq_some_iff.mp hRow with ⟨old, hOld, rfl⟩
      rw [Row.pivot_fold] at hPivot
      exact ⟨old, hOld, hPivot⟩

/-
  The row has no more columns than before, its pivot is as
  before, and it may have lost the pivot if this is allowed.
-/
structure Row.Fewer
    (allowed : Prop)
    (old row : Row) : Prop where
  columns : ∀ c, row.columns.has c = true → old.columns.has c = true
  kept :
    ∀ c, row.pivot = some c →
      old.pivot = some c ∧ row.columns.has c = old.columns.has c
  lost : row.pivot = none → old.pivot = none ∨ allowed

/- Folding a column that is not the row's pivot. -/
theorem Row.fewer_fold
    {allowed : Prop}
    {old : Row}
    {column : Nat}
    (hNe : old.pivot ≠ some column)
    (b : Bool) :
    Row.Fewer allowed old (old.fold column b) := by
  refine ⟨fun c hHas => (Row.has_fold hHas).1, ?_, ?_⟩
  · intro c hPivot
    rw [Row.pivot_fold] at hPivot
    have hOther : c ≠ column := by
      rintro rfl
      exact hNe hPivot
    exact ⟨hPivot, Row.has_fold_of_ne old hOther b⟩
  · intro hNone
    rw [Row.pivot_fold] at hNone
    exact Or.inl hNone

/-
  A reduced matrix stays reduced but for some rows if no row
  gains a column and only those rows lose their pivots.
-/
theorem ReducedBut.of_fewer
    {pending : Nat → Prop}
    (hReduced : m.ReducedBut fun _ => False)
    (hRows : ∀ (r : Nat) (row : Row), n.rows[r]? = some row →
      ∃ old, m.rows[r]? = some old ∧
        Row.Fewer (pending r) old row) :
    n.ReducedBut pending := by
  refine ⟨?_, ?_, ?_⟩
  · intro r row column hRow hPivot
    rcases hRows r row hRow with ⟨old, hOld, hFewer⟩
    rcases hFewer.kept column hPivot with ⟨hOldPivot, hSame⟩
    rw [hSame]
    exact hReduced.own r old column hOld hOldPivot
  · intro r row column hRow hPivot q other hOther hNe
    rcases hRows r row hRow with ⟨old, hOld, hFewer⟩
    rcases hRows q other hOther with ⟨oldOther, hOldOther, hOtherFewer⟩
    have hAbsent := hReduced.others r old column hOld
      (hFewer.kept column hPivot).1 q oldOther hOldOther hNe
    cases hHas : other.columns.has column with
    | false => rfl
    | true =>
        rw [hOtherFewer.columns column hHas] at hAbsent
        cases hAbsent
  · intro r row hRow hNone hNot column
    rcases hRows r row hRow with ⟨old, hOld, hFewer⟩
    have hOldNone := (hFewer.lost hNone).resolve_right hNot
    have hAbsent := hReduced.empty r old hOld hOldNone id column
    cases hHas : row.columns.has column with
    | false => rfl
    | true =>
        rw [hFewer.columns column hHas] at hAbsent
        cases hAbsent

/- Folding a column that is nobody's pivot. -/
theorem ReducedBut.fold
    {column : Nat}
    {b : Bool}
    (hReduced : m.ReducedBut fun _ => False)
    (hGet : ∀ r : Nat,
      n.rows[r]? = m.rows[r]?.map (Row.fold · column b))
    (hFree : ∀ (r : Nat) (row : Row), m.rows[r]? = some row →
      row.pivot ≠ some column) :
    n.ReducedBut fun _ => False := by
  apply hReduced.of_fewer
  intro r row hRow
  rw [hGet] at hRow
  rcases Option.map_eq_some_iff.mp hRow with ⟨old, hOld, rfl⟩
  exact ⟨old, hOld, Row.fewer_fold (hFree r old hOld) b⟩

/- Folding the pivot of a row, which has no pivot then. -/
theorem ReducedBut.fold_dropPivot
    {folded : Matrix}
    {r column : Nat}
    {row : Row}
    {b : Bool}
    (hReduced : m.ReducedBut fun _ => False)
    (hGet : ∀ q : Nat,
      folded.rows[q]? = m.rows[q]?.map (Row.fold · column b))
    (hOnly : ∀ (q : Nat) (other : Row), m.rows[q]? = some other →
      other.pivot = some column → q = r)
    (hRow : folded.rows[r]? = some row)
    (hRows : ∀ q, n.rows[q]? =
      if r = q then some { row with pivot := none }
      else folded.rows[q]?) :
    n.ReducedBut fun q => q = r := by
  apply hReduced.of_fewer
  intro q other hOther
  rw [hRows] at hOther
  split at hOther
  · rename_i hEq
    subst hEq
    cases hOther
    rw [hGet] at hRow
    rcases Option.map_eq_some_iff.mp hRow with ⟨old, hOld, rfl⟩
    exact ⟨old, hOld, fun c hHas => (Row.has_fold hHas).1, nofun,
      fun _ => Or.inr rfl⟩
  · rename_i hNe
    rw [hGet] at hOther
    rcases Option.map_eq_some_iff.mp hOther with ⟨old, hOld, rfl⟩
    refine ⟨old, hOld, Row.fewer_fold ?_ b⟩
    intro hPivot
    exact hNe (hOnly q old hOld hPivot).symm

theorem reducedBut_of_isReduced
    (hReduced : m.isReduced = true) :
    m.ReducedBut fun _ => False := by
  refine ⟨?_, ?_, ?_⟩
  · intro r row column hRow hPivot
    exact has_pivot hReduced hRow hPivot
  · intro r row column hRow hPivot q other hOther hNe
    rcases of_isReduced hReduced hRow with
      ⟨hNone, _⟩ | ⟨pivot, hSome, hRows⟩
    · rw [hPivot] at hNone
      cases hNone
    · cases hPivot.symm.trans hSome
      cases hHas : other.columns.has column with
      | false => rfl
      | true =>
          have hIn := mem_rowsWith.mpr ⟨other, hOther, hHas⟩
          rw [hRows, List.mem_singleton] at hIn
          exact absurd hIn hNe
  · intro r row hRow hNone _ column
    rcases of_isReduced hReduced hRow with
      ⟨_, hOnes⟩ | ⟨pivot, hSome, _⟩
    · cases hHas : row.columns.has column with
      | false => rfl
      | true =>
          have hIn := (BitSet.mem_ones _ _).mpr hHas
          rw [hOnes] at hIn
          cases hIn
    · rw [hNone] at hSome
      cases hSome

end Matrix

namespace Incremental

variable {m : Matrix} {width depth : Nat}

/-
  A row that lost its pivot is given another one if there is
  one, and then no row is to be reduced.
-/
theorem exists_repivot
    (rule : PivotRule)
    (hShaped : m.Shaped width depth)
    {r column : Nat}
    {row : Row}
    (hRow : m.rows[r]? = some row)
    (hPivot : row.pivot = some column)
    (hBut : ∀ released : Matrix,
      (∀ q, released.rows[q]? =
        if r = q then some { row with pivot := none }
        else m.rows[q]?) →
      released.ReducedBut fun q => q = r) :
    ∃ n changes notes,
      repivot rule m r column = .ok (n, changes, notes) ∧
        n.Shaped width depth ∧ n.ReducedBut fun _ => False := by
  rcases hShaped.exists_dropPivot hRow hPivot with
    ⟨released, hRelease, hReleased, hRows⟩
  have hReleasedBut := hBut released hRows
  have hReleasedRow :
      released.rows[r]? = some { row with pivot := none } := by
    rw [hRows, if_pos rfl]
  rcases hReleased.exists_selectPivot? hReleasedRow rule with
    ⟨pivot?, hSelect, hEmpty, hHas⟩
  unfold repivot
  simp only [bind, Except.bind, hRelease, hSelect]
  cases pivot? with
  | none =>
      refine ⟨released, _, _, rfl, hReleased, hReleasedBut.weaken ?_⟩
      rintro q other hOther rfl _ ⟨c, hC⟩
      cases hReleasedRow.symm.trans hOther
      have hAbsent := hEmpty rfl c
      rw [hC] at hAbsent
      cases hAbsent
  | some pivot =>
      rcases Matrix.exists_pivot hReleased hReleasedBut hReleasedRow rfl
          (hHas pivot rfl) with
        ⟨middle, targets, n, hPivotOn, hSet, hShape, hLess⟩
      simp only [hPivotOn, hSet, pure, Except.pure]
      refine ⟨n, _, _, rfl, hShape, hLess.weaken ?_⟩
      rintro q _ _ ⟨hEq, hNe⟩ _ _
      exact hNe hEq

/-
  Replacing a column by its value comes to its end with a
  reduced matrix. If the column was a pivot, its row is the
  only one that is still to be reduced.
-/
theorem exists_absorb
    (rule : PivotRule)
    (hShaped : m.Shaped width depth)
    (hReduced : m.ReducedBut fun _ => False)
    {column : Nat}
    (hLt : column < width)
    (b : Bool) :
    ∃ n changes notes,
      absorb rule m column b = .ok (n, changes, notes) ∧
        n.Shaped width depth ∧ n.ReducedBut fun _ => False := by
  rcases hShaped.exists_fold hLt b with
    ⟨folded, hFold, hFolded, hTable, hGet⟩
  rw [← hShaped.table] at hLt
  -- The table says whose pivot the column is.
  have hHolder : ∀ (r : Nat) (row : Row), m.rows[r]? = some row →
      row.pivot = some column → m.rowOfPivot[column] = some r := by
    intro r row hRow hPivot
    have hEntry := (hShaped.pivot_iff r column).mpr ⟨row, hRow, hPivot⟩
    rw [Array.getElem?_eq_getElem hLt] at hEntry
    exact Option.some.inj hEntry
  unfold absorb
  simp only [bind, Except.bind, hFold, Matrix.pivotRow?, hTable,
    Table.get_of_lt hLt]
  cases hAt : m.rowOfPivot[column] with
  | none =>
      refine ⟨folded, _, _, rfl, hFolded, hReduced.fold hGet ?_⟩
      intro r row hRow hPivot
      have hHeld := hHolder r row hRow hPivot
      rw [hAt] at hHeld
      cases hHeld
  | some r =>
      have hEntry : folded.rowOfPivot[column]? = some (some r) := by
        rw [hTable, Array.getElem?_eq_getElem hLt, hAt]
      rcases (hFolded.pivot_iff r column).mp hEntry with
        ⟨row, hRow, hPivot⟩
      have hOnly : ∀ (q : Nat) (other : Row), m.rows[q]? = some other →
          other.pivot = some column → q = r := by
        intro q other hOther hPivot
        have hHeld := hHolder q other hOther hPivot
        rw [hAt] at hHeld
        exact (Option.some.inj hHeld).symm
      rcases exists_repivot rule hFolded hRow hPivot
          (fun _ hRows => hReduced.fold_dropPivot hGet hOnly hRow hRows)
        with ⟨n, changes, notes, hRepivot, hShape, hDone⟩
      simp only [hRepivot, pure, Except.pure]
      exact ⟨n, _, _, rfl, hShape, hDone⟩

variable {s : Store} {value : Nat → Option Bool} {t t' : Incremental}

theorem exists_ofStore
    (hStore : s.WellFormed)
    (rule : PivotRule) :
    ∃ t, ofStore s rule = .ok t ∧
      t.matrix.Shaped s.numColumns s.size := by
  rcases Matrix.exists_ofStore hStore
      (fun v _ => ⟨none, rfl⟩) true with ⟨m, hMatrix, hShape, hBut⟩
  rcases Matrix.exists_eliminate hShape hBut rule with
    ⟨n, hEliminate, hEnd, _⟩
  refine ⟨⟨n, rule, []⟩, ?_, hEnd⟩
  simp only [ofStore, bind_eq_ok, pure_eq_ok]
  exact ⟨m, hMatrix, n, hEliminate, rfl⟩

theorem exists_scanIfAllowed
    {ctx : Context}
    (hFollows : t.Follows ctx.store value) :
    ∃ found, t.scanIfAllowed ctx = .ok found := by
  unfold scanIfAllowed
  split
  · rcases hFollows.represents.exists_scan hFollows.tracked with
      ⟨events, hScan⟩
    rw [hScan]
    exact ⟨_, rfl⟩
  · exact ⟨_, rfl⟩

theorem explainable_of_mem_scanIfAllowed
    {ctx : Context}
    {found : Findings}
    (hShaped : t.matrix.Shaped ctx.store.numColumns ctx.store.size)
    (hFollows : t.Follows ctx.store value)
    (hScan : t.scanIfAllowed ctx = .ok found)
    {event : Event}
    (hMem : event ∈ found.events) :
    event.Explainable ctx.store value := by
  cases hAllowed : ctx.eliminate with
  | false =>
      rw [(scanIfAllowed_eq_ok hScan).2 hAllowed] at hMem
      cases hMem
  | true =>
      exact Matrix.explainable_of_mem_scan hShaped hFollows.represents
        ((scanIfAllowed_eq_ok hScan).1 hAllowed) hMem

/- Taking in a literal comes to its end. -/
theorem exists_assign
    {ctx : Context}
    {l : Literal}
    (hStore : ctx.store.WellFormed)
    (hShaped : t.matrix.Shaped ctx.store.numColumns ctx.store.size)
    (hFollows : t.Follows ctx.store value)
    (hRelevant : ctx.store.isRelevant l.index = true)
    (hLast : ctx.trail.last? = some l)
    (hNew : ∀ w, ctx.trail.value w =
      if w = l.index then some l.value else value w)
    (hOpen : value l.index = none) :
    ∃ t' found, t.assign ctx = .ok (t', found) ∧
      t'.matrix.Shaped ctx.store.numColumns ctx.store.size := by
  rcases Option.isSome_iff_exists.mp hRelevant with ⟨column, hColumn⟩
  have hVariable :=
    (hStore.columnOf?_eq_some_iff l.index column).mp hColumn
  have hLt : column < ctx.store.numColumns :=
    (Array.getElem?_eq_some_iff.mp hVariable).1
  rcases exists_absorb t.rule hShaped
      (Matrix.reducedBut_of_isReduced hFollows.reduced) hLt l.value with
    ⟨n, changes, notes, hAbsorb, hShape, hBut⟩
  have hReduced := Matrix.isReduced_of_reducedBut hShape hBut
  have hAfter : Follows ctx.store ctx.trail.value
      { t with matrix := n, frames := changes :: t.frames } := by
    rcases absorb_eq_ok hAbsorb with ⟨folded, rows, hFold, hCase⟩
    have hFolded := hFollows.represents.fold hStore hVariable hNew
      hOpen hFold
    have hTracked : folded.tracked = true := by
      rw [(Matrix.fold_eq_ok hFold).2]
      exact hFollows.tracked
    rcases hCase with ⟨rfl, _⟩ | ⟨r, later, notes, hRepivot, _⟩
    · exact ⟨hFolded, hReduced, hTracked⟩
    · have hEnd := represents_repivot hFolded hRepivot
      exact ⟨hEnd.1, hReduced, hEnd.2.trans hTracked⟩
  rcases exists_scanIfAllowed hAfter with ⟨found, hScan⟩
  refine ⟨{ t with matrix := n, frames := changes :: t.frames },
    ⟨[], notes⟩ ++ ctx.exhibit (.matrixAfter l n) ++ found, ?_, hShape⟩
  unfold assign Context.newest
  rw [hLast]
  simp only [bind, Except.bind, hColumn, hAbsorb, hScan,
    require_of_true hReduced, pure, Except.pure]

theorem explainable_of_mem_assign
    {ctx : Context}
    {found : Findings}
    (hShaped : t'.matrix.Shaped ctx.store.numColumns ctx.store.size)
    (hFollows : t'.Follows ctx.store value)
    (hAssign : t.assign ctx = .ok (t', found))
    {event : Event}
    (hMem : event ∈ found.events) :
    event.Explainable ctx.store value := by
  rcases assign_eq_ok hAssign with
    ⟨_, _, _, _, _, scanned, _, _, _, _, _, hScan, hSame⟩
  rw [hSame] at hMem
  exact explainable_of_mem_scanIfAllowed hShaped hFollows hScan hMem

end Incremental

------------------------------------------------------------
-- Elimination from scratch
------------------------------------------------------------

section Batch

variable {ctx : Context} {found : Findings} {mode : BatchMode}

theorem Trail.exists_read
    {trail : Trail}
    {v : Nat}
    (hLt : v < trail.values.size) :
    ∃ value?, trail.read v = .ok value? :=
  ⟨_, Table.get_of_lt hLt⟩

/- The matrix under the trail can be reduced. -/
theorem Context.exists_eliminated
    (hStore : ctx.store.WellFormed)
    (hTrail : ctx.trail.values.size = ctx.store.numVariables)
    (tracked : Bool) :
    ∃ m, ctx.eliminated tracked = .ok m ∧
      m.Shaped ctx.store.numColumns
        (if tracked then ctx.store.size else 0) ∧
      m.tracked = tracked := by
  rcases Matrix.exists_ofStore hStore
      (fun v hLt => Trail.exists_read (hTrail ▸ hLt)) tracked with
    ⟨start, hStart, hShape, hBut⟩
  rcases Matrix.exists_eliminate hShape hBut .firstColumn with
    ⟨m, hEliminate, hEnd, _⟩
  have hTracked := (Matrix.represents_of_ofStore hStore
    (fun _ _ hRead => Trail.value_of_read hRead) hStart).2
  refine ⟨m, bind_eq_ok.mpr ⟨start, hStart, hEliminate⟩, hEnd, ?_⟩
  exact (Matrix.tracked_eliminate hEliminate).trans hTracked

theorem BatchMode.exists_eliminateAndScan
    (hStore : ctx.store.WellFormed)
    (hTrail : ctx.trail.values.size = ctx.store.numVariables)
    (mode : BatchMode) :
    ∃ found, mode.eliminateAndScan ctx = .ok found := by
  rcases ctx.exists_eliminated hStore hTrail true with
    ⟨m, hMatrix, _, hTracked⟩
  rcases (Context.eliminated_eq_ok hStore hMatrix).1.exists_scan
      hTracked with ⟨events, hScan⟩
  have hScanned : scanTracked ctx =
      .ok (ctx.showEliminated m ++ ⟨events, []⟩) := by
    simp only [scanTracked, bind, Except.bind, hMatrix, hScan, pure,
      Except.pure]
  cases mode with
  | eager => exact ⟨_, hScanned⟩
  | lazy =>
      rcases ctx.exists_eliminated hStore hTrail false with
        ⟨n, hPlain, _, _⟩
      unfold eliminateAndScan
      simp only [bind, Except.bind, hPlain, hScanned]
      split
      · exact ⟨_, rfl⟩
      · exact ⟨_, rfl⟩

theorem BatchMode.explainable_of_mem_eliminateAndScan
    (hStore : ctx.store.WellFormed)
    (hTrail : ctx.trail.values.size = ctx.store.numVariables)
    (hFound : mode.eliminateAndScan ctx = .ok found)
    {event : Event}
    (hMem : event ∈ found.events) :
    event.Explainable ctx.store ctx.trail.value := by
  rcases eliminateAndScan_eq_ok hFound with
    ⟨m, hMatrix, hScan⟩ | ⟨m, _, _, hNone⟩
  · rcases ctx.exists_eliminated hStore hTrail true with
      ⟨same, hSame, hShape, _⟩
    cases hMatrix.symm.trans hSame
    exact Matrix.explainable_of_mem_scan hShape
      (Context.eliminated_eq_ok hStore hMatrix).1 hScan hMem
  · rw [hNone] at hMem
    cases hMem

/- Either mode comes to its end when a literal was taken in. -/
theorem BatchMode.exists_onAssignment
    (hStore : ctx.store.WellFormed)
    (hTrail : ctx.trail.values.size = ctx.store.numVariables)
    (mode : BatchMode) :
    ∃ found, mode.onAssignment ctx = .ok found ∧
      ∀ event ∈ found.events,
        event.Explainable ctx.store ctx.trail.value := by
  unfold onAssignment
  split
  · rcases exists_eliminateAndScan hStore hTrail mode with
      ⟨found, hFound⟩
    refine ⟨found, hFound, ?_⟩
    intro event hMem
    exact explainable_of_mem_eliminateAndScan hStore hTrail hFound hMem
  · exact ⟨.none, rfl, nofun⟩

/- Either mode comes to its end when nothing else follows. -/
theorem BatchMode.exists_onFixpoint
    (hStore : ctx.store.WellFormed)
    (hTrail : ctx.trail.values.size = ctx.store.numVariables)
    (mode : BatchMode) :
    ∃ found, mode.onFixpoint ctx = .ok found ∧
      ∀ event ∈ found.events,
        event.Explainable ctx.store ctx.trail.value := by
  unfold onFixpoint
  split
  · rcases exists_eliminateAndScan hStore hTrail mode with
      ⟨found, hFound⟩
    refine ⟨found, hFound, ?_⟩
    intro event hMem
    exact explainable_of_mem_eliminateAndScan hStore hTrail hFound hMem
  · exact ⟨.none, rfl, nofun⟩

end Batch

------------------------------------------------------------
-- Theories
------------------------------------------------------------

namespace Theory

variable {t t' : Theory}

/- The tables of the theory are in order. -/
def Sturdy
    (s : Store)
    (value : Nat → Option Bool) : Theory → Prop
  | .counting count => count.Sized s
  | .watching watch => watch.Enlisted s ∧ watch.Guarded value
  | .batch watch _ => watch.Enlisted s ∧ watch.Guarded value
  | .incremental watch elimination =>
      (watch.Enlisted s ∧ watch.Guarded value) ∧
        elimination.matrix.Shaped s.numColumns s.size

/- Every theory can be set up. -/
theorem exists_ofStore
    {s : Store}
    (hStore : s.WellFormed)
    (strategy : Strategy)
    {value : Nat → Option Bool}
    (hEmpty : ∀ v, value v = none) :
    ∃ t, ofStore strategy s = .ok t ∧ t.Sturdy s value := by
  rcases Watching.exists_ofStore hStore with ⟨watch, hWatch, hListed⟩
  have hGuarded : watch.Guarded value :=
    Watching.guarded_of_empty hEmpty
  have hIncremental : ∀ rule, ∃ elimination,
      Incremental.ofStore s rule = .ok elimination ∧
        elimination.matrix.Shaped s.numColumns s.size :=
    fun rule => Incremental.exists_ofStore hStore rule
  cases strategy with
  | countCheck => exact ⟨_, rfl, Counting.sized_ofStore s⟩
  | unitPropagation =>
      refine ⟨.watching watch, ?_, hListed, hGuarded⟩
      simp only [ofStore, hWatch, bind, Except.bind, pure, Except.pure]
  | gjeFixpoint =>
      refine ⟨.batch watch .lazy, ?_, hListed, hGuarded⟩
      simp only [ofStore, hWatch, bind, Except.bind, pure, Except.pure]
  | gjeReasoned =>
      refine ⟨.batch watch .eager, ?_, hListed, hGuarded⟩
      simp only [ofStore, hWatch, bind, Except.bind, pure, Except.pure]
  | gjeIncremental =>
      rcases hIncremental .firstColumn with
        ⟨elimination, hElimination, hShape⟩
      refine ⟨.incremental watch elimination, ?_, ⟨hListed, hGuarded⟩,
        hShape⟩
      simp only [ofStore, hWatch, hElimination, bind, Except.bind,
        pure, Except.pure]
  | gjeTableau =>
      rcases hIncremental .minimumFill with
        ⟨elimination, hElimination, hShape⟩
      refine ⟨.incremental watch elimination, ?_, ⟨hListed, hGuarded⟩,
        hShape⟩
      simp only [ofStore, hWatch, hElimination, bind, Except.bind,
        pure, Except.pure]

section TakesIn

variable {ctx : Context} {value : Nat → Option Bool} {l : Literal}

/-
  Whatever some of the constraints show is reported. A theory
  that only counts reports no literals.
-/
def Notices
    (counts : Bool)
    (ctx : Context)
    (among : StoredConstraint → Prop)
    (events : List Event) : Prop :=
  ∀ (r : Nat) (c : StoredConstraint) (event : Event),
    ctx.store.constraints[r]? = some c → among c →
      c.Reveals ctx.trail.value r event →
        (counts = true → ∃ origin, event = .conflict origin) →
          event ∈ events

theorem Notices.append
    {counts : Bool}
    {among : StoredConstraint → Prop}
    {first more : List Event}
    (hNotices : Notices counts ctx among first) :
    Notices counts ctx among (first ++ more) :=
  fun r c event hAt hAmong hReveals hKind =>
    List.mem_append_left _
      (hNotices r c event hAt hAmong hReveals hKind)

theorem notices_begin_of_watch
    {watch : Watching}
    (hStore : ctx.store.WellFormed)
    (hFollows : watch.Follows ctx.store ctx.trail.value)
    (hEnlisted : watch.Enlisted ctx.store)
    (hEmpty : ∀ v, ctx.trail.value v = none) :
    Notices false ctx (fun _ => True) watch.begin.events :=
  fun _ _ _ hAt _ hReveals _ =>
    Watching.mem_begin_of_reveals hStore hEnlisted hFollows hEmpty hAt
      hReveals

/-
  The first look comes to its end, and nothing that a
  constraint shows is missed.
-/
theorem exists_begin
    (hStore : ctx.store.WellFormed)
    (hTrail : ctx.trail.values.size = ctx.store.numVariables)
    (hFollows : t.Follows ctx.store ctx.trail.value)
    (hSturdy : t.Sturdy ctx.store ctx.trail.value)
    (hEmpty : ∀ v, ctx.trail.value v = none) :
    ∃ found, t.begin ctx = .ok found ∧
      (∀ event ∈ found.events,
        event.Explainable ctx.store ctx.trail.value) ∧
      Notices t.counts ctx (fun _ => True) found.events := by
  cases t with
  | counting count =>
      refine ⟨Counting.begin ctx, rfl, ?_, ?_⟩
      · intro event hMem
        exact (Counting.plain_of_mem_begin hMem).explainable
      · intro r c event hAt _ hReveals hKind
        rcases hKind rfl with ⟨origin, hConflict⟩
        have hNodup := hStore.nodup_vars (Array.mem_of_getElem? hAt)
        rcases Watching.vars_of_reveals hEmpty hNodup hReveals with
          ⟨hVars, hRhs, rfl⟩ | ⟨v, _, rfl⟩
        · simp only [Counting.begin, List.mem_filterMap, Prod.exists,
            List.mem_zipIdx_iff_getElem?, Array.getElem?_toList]
          exact ⟨c, r, hAt, by simp [hVars, hRhs]⟩
        · cases hConflict
  | watching watch =>
      refine ⟨watch.begin, rfl, ?_,
        notices_begin_of_watch hStore hFollows hSturdy.1 hEmpty⟩
      intro event hMem
      exact (Watching.plain_of_mem_begin hFollows hEmpty
        hMem).explainable
  | batch watch mode =>
      rcases mode.exists_onAssignment hStore hTrail with
        ⟨more, hMore, hMoreEvents⟩
      refine ⟨watch.begin ++ more, ?_, ?_,
        (notices_begin_of_watch hStore hFollows hSturdy.1
          hEmpty).append⟩
      · simp only [begin, hMore, bind, Except.bind, pure, Except.pure]
      · intro event hMem
        rcases List.mem_append.mp hMem with hFirst | hLater
        · exact (Watching.plain_of_mem_begin hFollows hEmpty
            hFirst).explainable
        · exact hMoreEvents event hLater
  | incremental watch elimination =>
      rcases Incremental.exists_scanIfAllowed hFollows.2
        with ⟨more, hScan⟩
      refine ⟨watch.begin ++
        (ctx.exhibit (.initialMatrix elimination.matrix) ++ more),
        ?_, ?_, (notices_begin_of_watch hStore hFollows.1 hSturdy.1.1
          hEmpty).append⟩
      · simp only [begin, Incremental.begin, hScan, bind, Except.bind,
          pure, Except.pure]
      · intro event hMem
        rcases List.mem_append.mp hMem with hFirst | hLater
        · exact (Watching.plain_of_mem_begin hFollows.1 hEmpty
            hFirst).explainable
        · exact Incremental.explainable_of_mem_scanIfAllowed hSturdy.2
            hFollows.2 hScan hLater

/- Watching takes a literal in, with all that is asked of it. -/
theorem exists_watch
    {watch : Watching}
    (hStore : ctx.store.WellFormed)
    (hTrail : ctx.trail.values.size = ctx.store.numVariables)
    (hRelevant : ctx.store.isRelevant l.index = true)
    (hTakes : TakesIn ctx value l)
    (hFollows : watch.Follows ctx.store value)
    (hSturdy : watch.Enlisted ctx.store ∧ watch.Guarded value) :
    ∃ watch' found, watch.assign ctx = .ok (watch', found) ∧
      (watch'.Enlisted ctx.store ∧ watch'.Guarded ctx.trail.value) ∧
      (∀ event ∈ found.events,
        event.Explainable ctx.store ctx.trail.value) ∧
      Notices false ctx (fun c => l.index ∈ c.vars) found.events := by
  rcases (hStore.isRelevant_iff l.index).mp hRelevant with
    ⟨c, hMem, hIn⟩
  have hLt := hStore.vars_lt c hMem l.index hIn
  rcases hSturdy.1.exists_assign hStore hFollows hTrail hLt
      hTakes.last hTakes.new hTakes.isOpen with
    ⟨watch', found, hAssign, hListed⟩
  rcases hSturdy.2.assign hStore hSturdy.1 hFollows hTakes.last
      hTakes.new hTakes.isOpen hAssign with ⟨hGuarded, hNotices⟩
  refine ⟨watch', found, hAssign, ⟨hListed, hGuarded⟩, ?_, ?_⟩
  · intro event hEvent
    exact (Watching.plain_of_mem_assign hStore hFollows hTakes.last
      hTakes.new hTakes.isOpen hAssign hEvent).explainable
  · intro r c event hAt hOccurs hReveals _
    exact hNotices r c event hAt hOccurs hReveals

/-
  Taking in a literal comes to its end, the tables are in
  order, the events can be explained, and nothing that a
  constraint with the literal shows is missed.
-/
theorem Sturdy.exists_assign
    (hStore : ctx.store.WellFormed)
    (hTrail : ctx.trail.values.size = ctx.store.numVariables)
    (hRelevant : ctx.store.isRelevant l.index = true)
    (hTakes : TakesIn ctx value l)
    (hFollows : t.Follows ctx.store value)
    (hSturdy : t.Sturdy ctx.store value) :
    ∃ t' found, t.assign ctx = .ok (t', found) ∧
      t'.Sturdy ctx.store ctx.trail.value ∧
      (∀ event ∈ found.events,
        event.Explainable ctx.store ctx.trail.value) ∧
      Notices t.counts ctx (fun c => l.index ∈ c.vars) found.events := by
  cases t with
  | counting count =>
      rcases Counting.Sized.exists_assign hStore hSturdy hFollows
          hTakes.last hTakes.isOpen with
        ⟨count', found, hAssign, hSized⟩
      refine ⟨.counting count', found, ?_, hSized, ?_, ?_⟩
      · simp only [assign, hAssign, bind, Except.bind, pure,
          Except.pure]
      · intro event hMem
        exact (Counting.plain_of_mem_assign hStore hFollows hTakes.last
          hTakes.new hTakes.isOpen hAssign hMem).explainable
      · intro r c event hAt hIn hReveals hKind
        rcases hKind rfl with ⟨origin, hConflict⟩
        subst hConflict
        cases hReveals with
        | failed hAll hFalse =>
            exact Counting.conflict_of_violated hStore hSturdy hFollows
              hTakes.last hTakes.new hTakes.isOpen hAssign hAt hIn hAll
              hFalse
  | watching watch =>
      rcases exists_watch hStore hTrail hRelevant hTakes hFollows
          hSturdy with
        ⟨watch', found, hAssign, hKept, hEvents, hNotices⟩
      refine ⟨.watching watch', found, ?_, hKept, hEvents, hNotices⟩
      simp only [assign, hAssign, bind, Except.bind, pure, Except.pure]
  | batch watch mode =>
      rcases exists_watch hStore hTrail hRelevant hTakes hFollows
          hSturdy with
        ⟨watch', found, hAssign, hKept, hEvents, hNotices⟩
      rcases mode.exists_onAssignment hStore hTrail with
        ⟨more, hMore, hMoreEvents⟩
      refine ⟨.batch watch' mode, found ++ more, ?_, hKept, ?_,
        hNotices.append⟩
      · simp only [assign, hAssign, hMore, bind, Except.bind, pure,
          Except.pure]
      · intro event hMem
        rcases List.mem_append.mp hMem with hFirst | hLater
        · exact hEvents event hFirst
        · exact hMoreEvents event hLater
  | incremental watch elimination =>
      rcases exists_watch hStore hTrail hRelevant hTakes hFollows.1
          hSturdy.1 with
        ⟨watch', found, hAssign, hKept, hEvents, hNotices⟩
      rcases Incremental.exists_assign hStore hSturdy.2 hFollows.2
          hRelevant hTakes.last hTakes.new hTakes.isOpen with
        ⟨elimination', more, hMore, hShape⟩
      have hAfter := hFollows.2.assign hStore hTakes.last hTakes.new
        hTakes.isOpen hMore
      refine ⟨.incremental watch' elimination', found ++ more, ?_,
        ⟨hKept, hShape⟩, ?_, hNotices.append⟩
      · simp only [assign, hAssign, hMore, bind, Except.bind, pure,
          Except.pure]
      · intro event hMem
        rcases List.mem_append.mp hMem with hFirst | hLater
        · exact hEvents event hFirst
        · exact Incremental.explainable_of_mem_assign hShape hAfter
            hMore hLater

/- Looking again comes to its end. -/
theorem exists_atFixpoint
    (hStore : ctx.store.WellFormed)
    (hTrail : ctx.trail.values.size = ctx.store.numVariables)
    (t : Theory) :
    ∃ found, t.atFixpoint ctx = .ok found ∧
      ∀ event ∈ found.events,
        event.Explainable ctx.store ctx.trail.value := by
  cases t with
  | counting count => exact ⟨.none, rfl, nofun⟩
  | watching watch => exact ⟨.none, rfl, nofun⟩
  | batch watch mode => exact mode.exists_onFixpoint hStore hTrail
  | incremental watch elimination => exact ⟨.none, rfl, nofun⟩

end TakesIn

end Theory

end ParitySolver
