import ParitySolver.Proofs.Theory.NaiveCounting

/-
  What holds of rows and watch lists between requests. A row
  keeps the variables of its constraint in an order of its
  own, of which the first two are watched. The list of a
  variable has one entry for each watched place at which the
  variable stands, and no others. A watched variable may have
  a value only if all variables that are not watched do: so
  the two watched places show whether anything follows.

  Key definitions include:
    * `WatchRow.InOrder`

  Main declarations:
    * `Watching.InStep.row_inOrder`
    * `Watching.Enlisted.count_eq`
    * `Watching.keeps_rows_and_lists_in_order`
-/

namespace ParitySolver

/- The row has its constraint's variables, sum and watches. -/
structure WatchRow.InOrder
    (value : Nat → Option Bool)
    (c : StoredConstraint)
    (row : WatchRow) : Prop where
  vars : row.vars.toList.Perm c.vars
  watched : row.watched = min 2 c.vars.length
  folded : row.folded = assignedSum value c.vars
  spent :
    (∃ p v, p < row.watched ∧ row.vars[p]? = some v ∧
      (value v).isSome = true) →
    ∀ p v, row.watched ≤ p → row.vars[p]? = some v →
      (value v).isSome = true

namespace Watching

variable {s : Store} {trail : Trail} {t : Watching}

/- Every constraint has a row, and the row is in order. -/
theorem InStep.row_inOrder
    (hStep : InStep s trail t)
    {r : Nat}
    {c : StoredConstraint}
    (hAt : s.constraints[r]? = some c) :
    ∃ row, t.rows[r]? = some row ∧ row.InOrder trail.value c := by
  have hLt : r < t.rows.size := by
    rw [hStep.enlisted.rows]
    exact (Array.getElem?_eq_some_iff.mp hAt).1
  have hRow : t.rows[r]? = some t.rows[r] :=
    Array.getElem?_eq_getElem hLt
  rcases hStep.follows r _ hRow with ⟨c', hAt', hFollows⟩
  cases hAt.symm.trans hAt'
  refine ⟨_, hRow, hFollows.vars, ?_, hFollows.folded, ?_⟩
  · rw [hFollows.watched, Nat.min_comm]
  · rintro ⟨p, v, hWatched, hVar, hValue⟩ q w hOther hStands
    rw [Option.isSome_iff_ne_none] at hValue ⊢
    rcases hStep.guarded r _ hRow with hOpen | hSpent
    · exact absurd (hOpen p v hWatched hVar) hValue
    · exact hSpent q w hOther hStands

/- An entry occurs once where it belongs, and not elsewhere. -/
theorem Enlisted.count_eq
    (hEnlisted : t.Enlisted s)
    {v : Nat}
    {ws : Array Watcher}
    (hWs : t.watchers[v]? = some ws)
    {w : Watcher}
    {row : WatchRow}
    (hRow : t.rows[w.row]? = some row) :
    ws.toList.count w =
      if w.position < row.watched ∧ row.vars[w.position]? = some v
        then 1 else 0 := by
  have hMem := hEnlisted.mem_iff v ws hWs w
  simp only [hRow, Option.some.injEq, exists_eq_left'] at hMem
  split
  next hSeat =>
    exact List.count_eq_one_of_mem (hEnlisted.distinct v ws hWs)
      (hMem.mpr hSeat)
  next hNone =>
    exact List.count_eq_zero.mpr fun hIn => hNone (hMem.mp hIn)

/- No entry names a row that does not exist. -/
theorem Enlisted.count_eq_zero
    (hEnlisted : t.Enlisted s)
    {v : Nat}
    {ws : Array Watcher}
    (hWs : t.watchers[v]? = some ws)
    {w : Watcher}
    (hGe : s.size ≤ w.row) :
    ws.toList.count w = 0 := by
  apply List.count_eq_zero.mpr
  intro hIn
  rcases (hEnlisted.mem_iff v ws hWs w).mp hIn with ⟨row, hRow, _⟩
  have hLt := (Array.getElem?_eq_some_iff.mp hRow).1
  rw [hEnlisted.rows] at hLt
  exact Nat.not_lt.mpr hGe hLt

/-
  Whatever literals were taken in and given back, each
  constraint has a row that is in order, each variable has a
  list, and the lists have the entries of the watched places,
  each of them once. There is always a next step: the newest
  literal can be given back, and one of an open variable can
  be taken in.
-/
theorem keeps_rows_and_lists_in_order
    {declared : List Literal}
    {named : List (Nat × Constraint)}
    (hStore : Store.ofNamed declared named = .ok s) :
    (∃ t, ofStore s = .ok t) ∧
      ∀ trail t, Run s trail t →
        t.rows.size = s.size ∧
        t.watchers.size = s.numVariables ∧
        (∀ (r : Nat) (c : StoredConstraint),
          s.constraints[r]? = some c →
            ∃ row, t.rows[r]? = some row ∧
              row.InOrder trail.value c) ∧
        (∀ (v : Nat) (ws : Array Watcher),
          t.watchers[v]? = some ws →
            (∀ (w : Watcher) (row : WatchRow),
              t.rows[w.row]? = some row →
                ws.toList.count w =
                  if w.position < row.watched ∧
                      row.vars[w.position]? = some v
                    then 1 else 0) ∧
            ∀ w : Watcher, s.size ≤ w.row →
              ws.toList.count w = 0) ∧
        (∀ older l level ctx, Trail.push older l level = .ok trail →
          ctx.store = s → ∃ t', t.unassign ctx l = .ok t') ∧
        ∀ l level ctx, ctx.store = s →
          trail.push l level = .ok ctx.trail →
            ∃ t' found, t.assign ctx = .ok (t', found) := by
  have hWell := Store.wellFormed_of_ofNamed hStore
  constructor
  · rcases exists_ofStore hWell with ⟨t, hNew, _⟩
    exact ⟨t, hNew⟩
  · intro trail t hRun
    have hBuilt := hRun.built hWell
    have hStep := hBuilt.inStep hWell
    refine ⟨hStep.enlisted.rows, hStep.enlisted.watchers,
      fun r c hAt => hStep.row_inOrder hAt, ?_, ?_, ?_⟩
    · intro v ws hWs
      exact ⟨fun w row hRow => hStep.enlisted.count_eq hWs hRow,
        fun w hGe => hStep.enlisted.count_eq_zero hWs hGe⟩
    · intro older l level ctx hPush hSame
      rcases hBuilt.exists_unassign hWell hPush hSame with
        ⟨t', hUndo, _⟩
      exact ⟨t', hUndo⟩
    · intro l level ctx hSame hPush
      rcases hStep.exists_assign hWell hSame hPush with
        ⟨t', found, hAssign, _⟩
      exact ⟨t', found, hAssign⟩

/-
  When `l_0` is taken in, `l_2` is watched in its place: the
  entry leaves the list of `l_0` for that of `l_2`.
-/
theorem keeps_rows_and_lists_in_order_after_move :
    ∃ s trail t row old new,
      Store.ofNamed [⟨0, true⟩, ⟨1, true⟩, ⟨2, true⟩, ⟨3, true⟩]
          [(1, ⟨[⟨0, true⟩, ⟨1, true⟩, ⟨2, true⟩], .odd⟩)] = .ok s ∧
        Run s trail t ∧
        trail.value 0 = some true ∧
        t.rows[0]? = some row ∧
        row.vars.toList.Perm [0, 1, 2] ∧
        row.watched = 2 ∧
        row.folded = true ∧
        t.watchers[0]? = some old ∧
        t.watchers[2]? = some new ∧
        old.toList.count ⟨0, 0⟩ = 0 ∧
        new.toList.count ⟨0, 0⟩ = 1 := by
  have hRun :
      (Store.ofNamed [⟨0, true⟩, ⟨1, true⟩, ⟨2, true⟩, ⟨3, true⟩]
          [(1, ⟨[⟨0, true⟩, ⟨1, true⟩, ⟨2, true⟩],
            .odd⟩)]).toOption.any
        (fun s =>
          (Watching.ofStore s).toOption.any fun t =>
          ((Trail.empty s.numVariables).push
            ⟨0, true⟩ 1).toOption.any fun one =>
          (t.assign ⟨s, one, true, false⟩).toOption.any fun next =>
            decide (
              s.constraints[0]?.map (fun c => c.vars) =
                  some [0, 1, 2] ∧
                one.value 0 = some true ∧
                assignedSum one.value [0, 1, 2] = true ∧
                next.1.rows[0]?.map (fun row => (row.vars, row.watched)) =
                  some (#[2, 1, 0], 2) ∧
                next.1.watchers[0]?.isSome = true ∧
                next.1.watchers[2]?.isSome = true)) =
        true := by
    decide +kernel
  rcases exists_ok_of_any hRun with ⟨s, hStore, hRun⟩
  rcases exists_ok_of_any hRun with ⟨t, hNew, hRun⟩
  rcases exists_ok_of_any hRun with ⟨one, hOne, hRun⟩
  rcases exists_ok_of_any hRun with ⟨⟨t₁, found⟩, hAssign, hRun⟩
  rcases of_decide_eq_true hRun with
    ⟨hVars, hValue, hSum, hRow, hFrom, hTo⟩
  rcases Option.map_eq_some_iff.mp hVars with ⟨c, hAt, hVars⟩
  rcases Option.map_eq_some_iff.mp hRow with ⟨row, hRow, hEq⟩
  rcases Option.isSome_iff_exists.mp hFrom with ⟨old, hFrom⟩
  rcases Option.isSome_iff_exists.mp hTo with ⟨new, hTo⟩
  rcases Prod.mk.inj hEq with ⟨hStands, hWatched⟩
  have hReached : Run s one t₁ := .assign (.new hNew) rfl hOne hAssign
  rcases (keeps_rows_and_lists_in_order hStore).2 one t₁ hReached with
    ⟨_, _, hRows, hLists, _⟩
  rcases hRows 0 c hAt with ⟨row', hRow', hOrder⟩
  cases hRow.symm.trans hRow'
  have hCount (v : Nat) (ws : Array Watcher)
      (hWs : t₁.watchers[v]? = some ws) :=
    (hLists v ws hWs).1 ⟨0, 0⟩ row hRow
  refine ⟨s, one, t₁, row, old, new, hStore, hReached, hValue, hRow,
    hVars ▸ hOrder.vars, hWatched, ?_, hFrom, hTo, ?_, ?_⟩
  · rw [hOrder.folded, hVars, hSum]
  · rw [hCount 0 old hFrom, hStands, hWatched]
    rfl
  · rw [hCount 2 new hTo, hStands, hWatched]
    rfl

end Watching

end ParitySolver
