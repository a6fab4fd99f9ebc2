import ParitySolver.Proofs.Reason
import ParitySolver.Theory.Watching

/-
  Correctness of the watching theory. Its rows keep the
  variables of their constraints, in some order, and the sum
  of those that have a value. So a row that finds nothing
  else to watch has at most one open variable, and it reports
  what its constraint shows. Giving the newest literal back leaves
  rows, watchers and recorded moves as they were before it
  was taken in.

  Key definitions include:
    * `WatchRow.Follows`
    * `Watching.Follows`

  Main declarations:
    * `Watching.follows_ofStore`
    * `Watching.Follows.assign`
    * `Watching.plain_of_mem_begin`
    * `Watching.plain_of_mem_assign`
    * `Watching.unassign_of_assign`
-/

namespace ParitySolver

------------------------------------------------------------
-- Rows
------------------------------------------------------------

/- The row has what it should about its constraint. -/
structure WatchRow.Follows
    (value : Nat → Option Bool)
    (c : StoredConstraint)
    (row : WatchRow) : Prop where
  vars : row.vars.toList.Perm c.vars
  watched : row.watched = min c.vars.length 2
  rhs : row.rhs = c.rhs
  folded : row.folded = assignedSum value c.vars

/- The row with a value added to its sum. -/
def WatchRow.plus
    (b : Bool)
    (row : WatchRow) : WatchRow :=
  { row with folded := row.folded ^^ b }

theorem WatchRow.plus_plus_self
    (b : Bool)
    (row : WatchRow) :
    (row.plus b).plus b = row := by
  simp [plus]

------------------------------------------------------------
-- Adding to sums
------------------------------------------------------------

namespace Watching

variable {t t' : Watching} {trail : Trail}

theorem foldRows_eq_ok_iff
    {b : Bool}
    {rs : List Nat} :
    t.foldRows b rs = .ok t' ↔
      (∀ r ∈ rs, r < t.rows.size) ∧
        t' =
          { t with
            rows := rs.foldl
              (fun rows r => rows.modify r (WatchRow.plus b))
              t.rows } := by
  unfold foldRows
  simp only [bind_eq_ok, pure_eq_ok]
  constructor
  · rintro ⟨rows, hFold, rfl⟩
    rcases Table.foldlM_modify_eq_ok_iff.mp hFold with ⟨hAll, rfl⟩
    exact ⟨hAll, rfl⟩
  · rintro ⟨hAll, rfl⟩
    exact ⟨_, Table.foldlM_modify_eq_ok_iff.mpr ⟨hAll, rfl⟩, rfl⟩

------------------------------------------------------------
-- What a visit does
------------------------------------------------------------

theorem moveWatch_eq_ok
    {v slot place : Nat}
    {watcher : Watcher}
    {row : WatchRow}
    (hMove : t.moveWatch v slot place watcher row = .ok t') :
    ∃ candidate,
      row.vars[place]? = some candidate ∧
        watcher.position < row.vars.size ∧
        watcher.row < t.rows.size ∧
        v < t.watchers.size ∧
        candidate < t.watchers.size ∧
        t' =
          ⟨t.rows.setIfInBounds watcher.row
              { row with
                vars := row.vars.swapIfInBounds watcher.position
                  place },
            (t.watchers.modify v (takeSlot · slot)).modify candidate
              (·.push watcher),
            logMove ⟨v, slot, candidate, place⟩ t.frames⟩ := by
  simp only [moveWatch, bind_eq_ok, pure_eq_ok, Table.get_eq_ok_iff,
    Table.swap_eq_ok_iff, Table.set_eq_ok_iff,
    Table.modify_eq_ok_iff] at hMove
  rcases hMove with
    ⟨candidate, hCandidate, _, ⟨⟨hPosition, _⟩, rfl⟩, _, ⟨hRow, rfl⟩,
      _, ⟨hSource, rfl⟩, _, ⟨hTarget, rfl⟩, hEq⟩
  rw [Array.size_modify] at hTarget
  exact ⟨candidate, hCandidate, hPosition, hRow, hSource, hTarget,
    hEq.symm⟩

/-
  A visit finds a watcher of the variable. Either the watcher
  moves on, or the row has nothing else to watch.
-/
theorem visitSlot_eq_ok
    {v slot : Nat}
    {found : Findings}
    (hVisit : t.visitSlot trail v slot = .ok (t', found)) :
    ∃ ws watcher row,
      t.watchers[v]? = some ws ∧
        ws[slot]? = some watcher ∧
        t.rows[watcher.row]? = some row ∧
        row.vars[watcher.position]? = some v ∧
        ((∃ place,
            row.replacement? trail = .ok (some place) ∧
              t.moveWatch v slot place watcher row = .ok t' ∧
              found = .none) ∨
          (row.replacement? trail = .ok none ∧
            t' = t ∧
            rowFindings trail watcher row = .ok found)) := by
  unfold visitSlot at hVisit
  simp only [bind_eq_ok, require_eq_ok, exists_const,
    Table.get_eq_ok_iff, beq_iff_eq] at hVisit
  rcases hVisit with
    ⟨ws, hWatchers, watcher, hWatcher, row, hRow, w, hVar, rfl,
      place?, hPlace, hRest⟩
  refine ⟨ws, watcher, row, hWatchers, hWatcher, hRow, hVar, ?_⟩
  cases place? with
  | some place =>
      simp only [bind_eq_ok, pure_eq_ok, Prod.mk.injEq] at hRest
      rcases hRest with ⟨_, hMove, rfl, rfl⟩
      exact .inl ⟨place, hPlace, hMove, rfl⟩
  | none =>
      simp only [bind_eq_ok, pure_eq_ok, Prod.mk.injEq] at hRest
      rcases hRest with ⟨_, hFound, rfl, rfl⟩
      exact .inr ⟨hPlace, rfl, hFound⟩

/- What the search for an open position finds. -/
theorem firstOpen?_eq_ok
    {row : WatchRow}
    {ps : List Nat}
    {place? : Option Nat}
    (hFirst : row.firstOpen? trail ps = .ok place?) :
    match place? with
    | some p =>
        ∃ w, row.vars[p]? = some w ∧ trail.value w = none
    | none =>
        ∀ p ∈ ps, ∃ w, row.vars[p]? = some w ∧
          (trail.value w).isSome = true := by
  induction ps with
  | nil =>
      cases hFirst
      simp
  | cons p ps ih =>
      unfold WatchRow.firstOpen? at hFirst
      simp only [bind_eq_ok, Table.get_eq_ok_iff] at hFirst
      rcases hFirst with ⟨w, hVar, assigned, hAssigned, hRest⟩
      have hValue := Trail.isSome_value_of_isAssigned hAssigned
      cases assigned with
      | true =>
          have hOther := ih hRest
          cases place? with
          | some q => exact hOther
          | none =>
              rintro q hMem
              rcases List.mem_cons.mp hMem with rfl | hLater
              · exact ⟨w, hVar, hValue⟩
              · exact hOther q hLater
      | false =>
          cases hRest
          exact ⟨w, hVar, by simpa using hValue⟩

------------------------------------------------------------
-- Rows follow the trail
------------------------------------------------------------

/- Every row has what it should about its constraint. -/
def Follows
    (s : Store)
    (value : Nat → Option Bool)
    (t : Watching) : Prop :=
  ∀ (r : Nat) (row : WatchRow), t.rows[r]? = some row →
    ∃ c, s.constraints[r]? = some c ∧ row.Follows value c

variable {s : Store} {value value' : Nat → Option Bool}

theorem follows_ofStore
    (hTheory : ofStore s = .ok t)
    (hEmpty : ∀ v, value v = none) :
    t.Follows s value := by
  unfold ofStore at hTheory
  simp only [bind_eq_ok, pure_eq_ok] at hTheory
  rcases hTheory with ⟨watchers, _, rfl⟩
  intro r row hRow
  rcases Option.map_eq_some_iff.mp
    ((Array.getElem?_map ..).symm.trans hRow) with ⟨c, hAt, rfl⟩
  refine ⟨c, hAt, ⟨?_, rfl, rfl, ?_⟩⟩
  · rw [WatchRow.ofConstraint]
  · rw [funext hEmpty, assignedSum_none]
    rfl

/- A new value is added where its variable occurs. -/
theorem Follows.foldRows
    (hStore : s.WellFormed)
    (hFollows : t.Follows s value)
    {l : Literal}
    (hNew : ∀ w, value' w =
      if w = l.index then some l.value else value w)
    (hOpen : value l.index = none)
    (hFold :
      t.foldRows l.value (s.constraintsOf l.index) = .ok t') :
    t'.Follows s value' := by
  rcases foldRows_eq_ok_iff.mp hFold with ⟨_, rfl⟩
  intro r row hRow
  rw [Table.getElem?_foldl_modify _
    (hStore.nodup_constraintsOf l.index)] at hRow
  have hSum : ∀ c, s.constraints[r]? = some c →
      assignedSum value' c.vars =
        (assignedSum value c.vars ^^
          (l.value && decide (l.index ∈ c.vars))) := by
    intro c hAt
    exact assignedSum_of_new hNew hOpen
      (hStore.nodup_vars (Array.mem_of_getElem? hAt))
  by_cases hMem : r ∈ s.constraintsOf l.index
  · rw [if_pos hMem] at hRow
    rcases Option.map_eq_some_iff.mp hRow with ⟨old, hOld, rfl⟩
    rcases hFollows r old hOld with ⟨c, hAt, hOldFollows⟩
    rcases (hStore.mem_constraintsOf _ _).mp hMem with
      ⟨c', hAt', hIn⟩
    cases hAt.symm.trans hAt'
    refine ⟨c, hAt, ⟨hOldFollows.vars, hOldFollows.watched,
      hOldFollows.rhs, ?_⟩⟩
    rw [hSum c hAt, WatchRow.plus, hOldFollows.folded]
    simp [hIn]
  · rw [if_neg hMem] at hRow
    rcases hFollows r row hRow with ⟨c, hAt, hRowFollows⟩
    have hOut : l.index ∉ c.vars := fun hIn =>
      hMem ((hStore.mem_constraintsOf _ _).mpr ⟨c, hAt, hIn⟩)
    refine ⟨c, hAt, ⟨hRowFollows.vars, hRowFollows.watched,
      hRowFollows.rhs, ?_⟩⟩
    rw [hSum c hAt, hRowFollows.folded]
    simp [hOut]

/- Exchanging variables of a row keeps what it says. -/
theorem Follows.moveWatch
    (hFollows : t.Follows s value)
    {v slot place : Nat}
    {watcher : Watcher}
    {row : WatchRow}
    (hRow : t.rows[watcher.row]? = some row)
    (hMove : t.moveWatch v slot place watcher row = .ok t') :
    t'.Follows s value := by
  rcases moveWatch_eq_ok hMove with
    ⟨candidate, hPlace, hPosition, hLt, _, _, rfl⟩
  intro r other hOther
  by_cases hEq : watcher.row = r
  · subst hEq
    rw [Array.getElem?_setIfInBounds_self_of_lt hLt] at hOther
    cases hOther
    rcases hFollows _ row hRow with ⟨c, hAt, hRowFollows⟩
    have hPlaceLt := (Array.getElem?_eq_some_iff.mp hPlace).1
    have hPerm :
        (row.vars.swapIfInBounds watcher.position place).toList.Perm
          row.vars.toList := by
      rw [Array.swapIfInBounds, dif_pos hPosition, dif_pos hPlaceLt]
      exact (Array.swap_perm hPosition hPlaceLt).toList
    exact ⟨c, hAt, ⟨hPerm.trans hRowFollows.vars,
      hRowFollows.watched, hRowFollows.rhs, hRowFollows.folded⟩⟩
  · rw [Array.getElem?_setIfInBounds_ne hEq] at hOther
    exact hFollows r other hOther

theorem Follows.visitSlot
    {v slot : Nat}
    {found : Findings}
    (hFollows : t.Follows s value)
    (hVisit : t.visitSlot trail v slot = .ok (t', found)) :
    t'.Follows s value := by
  rcases visitSlot_eq_ok hVisit with
    ⟨ws, watcher, row, _, _, hRow, _, hCase⟩
  rcases hCase with ⟨place, _, hMove, _⟩ | ⟨_, rfl, _⟩
  · exact hFollows.moveWatch hRow hMove
  · exact hFollows

theorem Follows.visitSlots
    {v slots : Nat}
    {found : Findings}
    (hFollows : t.Follows s value)
    (hVisit : visitSlots trail v slots t = .ok (t', found)) :
    t'.Follows s value := by
  induction slots generalizing t found with
  | zero =>
      cases hVisit
      exact hFollows
  | succ slot ih =>
      unfold Watching.visitSlots at hVisit
      simp only [bind_eq_ok, pure_eq_ok, Prod.mk.injEq,
        Prod.exists] at hVisit
      rcases hVisit with
        ⟨middle, first, hFirst, last, rest, hRest, rfl, _⟩
      exact ih (hFollows.visitSlot hFirst) hRest

theorem assign_eq_ok
    {ctx : Context}
    {found : Findings}
    (hAssign : t.assign ctx = .ok (t', found)) :
    ∃ l middle slots,
      ctx.trail.last? = some l ∧
        { t with frames := [] :: t.frames }.foldRows l.value
          (ctx.store.constraintsOf l.index) = .ok middle ∧
        visitSlots ctx.trail l.index slots middle =
          .ok (t', found) := by
  unfold assign Context.newest at hAssign
  cases hLast : ctx.trail.last? with
  | none =>
      rw [hLast] at hAssign
      cases hAssign
  | some l =>
      rw [hLast] at hAssign
      simp only [bind_eq_ok, Except.ok.injEq, exists_eq_left'] at hAssign
      rcases hAssign with ⟨middle, hFold, ws, _, hVisit⟩
      exact ⟨l, middle, ws.size, rfl, hFold, hVisit⟩

/- Rows follow the trail when a literal is taken in. -/
theorem Follows.assign
    {ctx : Context}
    {found : Findings}
    {l : Literal}
    (hStore : ctx.store.WellFormed)
    (hFollows : t.Follows ctx.store value)
    (hLast : ctx.trail.last? = some l)
    (hNew : ∀ w, value' w =
      if w = l.index then some l.value else value w)
    (hOpen : value l.index = none)
    (hAssign : t.assign ctx = .ok (t', found)) :
    t'.Follows ctx.store value' := by
  rcases assign_eq_ok hAssign with
    ⟨k, middle, slots, hLast', hFold, hVisit⟩
  cases hLast.symm.trans hLast'
  have hStart :
      Watching.Follows ctx.store value
        { t with frames := [] :: t.frames } :=
    hFollows
  exact (hStart.foldRows hStore hNew hOpen hFold).visitSlots hVisit

------------------------------------------------------------
-- Findings are shown by one constraint
------------------------------------------------------------

/- What follows from the rows alone is shown by one constraint. -/
theorem plain_of_mem_begin
    (hFollows : t.Follows s value)
    (hEmpty : ∀ v, value v = none)
    {event : Event}
    (hMem : event ∈ t.begin.events) :
    event.Plain s value := by
  rcases List.mem_filterMap.mp hMem with ⟨⟨row, r⟩, hIn, hBegin⟩
  have hRow : t.rows[r]? = some row := by
    simpa using List.mem_zipIdx_iff_getElem?.mp hIn
  rcases hFollows r row hRow with ⟨c, hAt, hRowFollows⟩
  have hVars := hRowFollows.vars
  have hZero : assignedSum value c.vars = false := by
    rw [funext hEmpty, assignedSum_none]
  refine ⟨r, c, hAt, ?_⟩
  change beginRow row r = some event at hBegin
  unfold beginRow at hBegin
  split at hBegin
  next hNil =>
    -- An empty sum fails if it should be one.
    rw [hNil] at hVars
    have hNone : c.vars = [] := List.nil_perm.mp hVars
    split at hBegin
    · rename_i hRhs
      cases hBegin
      apply StoredConstraint.Reveals.failed
      · simp [hNone]
      · rw [hZero, ← hRowFollows.rhs, hRhs]
        nofun
    · cases hBegin
  next v hOne =>
    cases hBegin
    rw [hOne] at hVars
    have hSingle : c.vars = [v] := (List.singleton_perm.mp hVars).symm
    have hUnit : c.Reveals value r _ :=
      .unit (by simp [hSingle]) (hEmpty v) (by simp [hSingle])
    rw [hZero, Bool.xor_false, ← hRowFollows.rhs] at hUnit
    exact hUnit
  next => cases hBegin

theorem otherOpen?_eq_ok
    {row : WatchRow}
    {watcher : Watcher}
    {other? : Option Nat}
    (hOther : row.otherOpen? trail watcher = .ok other?) :
    (row.watched ≠ 2 ∧ other? = none) ∨
      (row.watched = 2 ∧ watcher.position ≤ 1 ∧
        ∃ w, row.vars[1 - watcher.position]? = some w ∧
          (((trail.value w).isSome = true ∧ other? = none) ∨
            (trail.value w = none ∧ other? = some w))) := by
  unfold WatchRow.otherOpen? at hOther
  by_cases hTwo : row.watched = 2
  · rw [if_pos hTwo] at hOther
    simp only [bind_eq_ok, pure_eq_ok, require_eq_ok, exists_const,
      Table.get_eq_ok_iff, decide_eq_true_eq] at hOther
    rcases hOther with ⟨hLe, w, hVar, assigned, hAssigned, rfl⟩
    have hValue := Trail.isSome_value_of_isAssigned hAssigned
    refine .inr ⟨hTwo, hLe, w, hVar, ?_⟩
    cases assigned with
    | true => exact .inl ⟨hValue, rfl⟩
    | false => exact .inr ⟨by simpa using hValue, rfl⟩
  · rw [if_neg hTwo] at hOther
    exact .inl ⟨hTwo, (pure_eq_ok.mp hOther).symm⟩

/-
  If a row has nothing else to watch, all its variables have
  a value, but for the other watched one.
-/
theorem assigned_of_no_replacement
    {row : WatchRow}
    {c : StoredConstraint}
    {watcher : Watcher}
    {v : Nat}
    {other? : Option Nat}
    (hRow : row.Follows value c)
    (hVar : row.vars[watcher.position]? = some v)
    (hAssigned : (trail.value v).isSome = true)
    (hNone : row.replacement? trail = .ok none)
    (hOther : row.otherOpen? trail watcher = .ok other?)
    {w : Nat}
    (hMem : w ∈ c.vars)
    (hNe : other? ≠ some w) :
    (trail.value w).isSome = true := by
  have hIn : w ∈ row.vars.toList := hRow.vars.mem_iff.mpr hMem
  rcases List.mem_iff_getElem?.mp hIn with ⟨p, hAt⟩
  rw [Array.getElem?_toList] at hAt
  have hLt := (Array.getElem?_eq_some_iff.mp hAt).1
  have hSize : row.vars.size = c.vars.length := by
    simpa using hRow.vars.length_eq
  have hWatched := hRow.watched
  by_cases hLe : row.watched ≤ p
  · have hAll := firstOpen?_eq_ok hNone
    rcases hAll p (List.mem_range'_1.mpr (by omega)) with
      ⟨u, hVarAt, hValue⟩
    cases hAt.symm.trans hVarAt
    exact hValue
  · by_cases hSame : p = watcher.position
    · subst hSame
      cases hAt.symm.trans hVar
      exact hAssigned
    · rcases otherOpen?_eq_ok hOther with
        ⟨hTwo, _⟩ | ⟨hTwo, hPosition, u, hVarAt, hCase⟩
      · have hPositionLt := (Array.getElem?_eq_some_iff.mp hVar).1
        omega
      · have hEq : p = 1 - watcher.position := by omega
        subst hEq
        cases hAt.symm.trans hVarAt
        rcases hCase with ⟨hValue, _⟩ | ⟨_, hOpen⟩
        · exact hValue
        · exact absurd hOpen hNe

/- What a row without a replacement reports. -/
theorem mem_rowFindings_iff
    {row : WatchRow}
    {watcher : Watcher}
    {v : Nat}
    {c : StoredConstraint}
    {found : Findings}
    (hRow : row.Follows trail.value c)
    (hVar : row.vars[watcher.position]? = some v)
    (hAssigned : (trail.value v).isSome = true)
    (hNone : row.replacement? trail = .ok none)
    (hFound : rowFindings trail watcher row = .ok found)
    (event : Event) :
    event ∈ found.events ↔
      c.Reveals trail.value watcher.row event := by
  unfold rowFindings at hFound
  rcases bind_eq_ok.mp hFound with ⟨other?, hOther, hRest⟩
  have hAll := fun w (hIn : w ∈ c.vars) =>
    assigned_of_no_replacement hRow hVar hAssigned hNone hOther hIn
  cases other? with
  | some u =>
      rcases otherOpen?_eq_ok hOther with
        ⟨_, hFalse⟩ | ⟨_, _, w, hVarAt, ⟨_, hFalse⟩ | ⟨hOpen, hEq⟩⟩
      · cases hFalse
      · cases hFalse
      cases hEq
      have hIn : u ∈ c.vars :=
        hRow.vars.mem_iff.mp
          (List.mem_of_getElem? (Array.getElem?_toList ▸ hVarAt))
      have hOthers : ∀ w ∈ c.vars, w ≠ u →
          (trail.value w).isSome = true := by
        intro w hMem hNe
        exact hAll w hMem fun hEq => hNe (Option.some.inj hEq).symm
      rw [← pure_eq_ok.mp hRest, List.mem_singleton, hRow.rhs,
        hRow.folded]
      constructor
      · rintro rfl
        exact .unit hIn hOpen hOthers
      · intro hReveals
        cases hReveals with
        | @unit w hMem hNow _ =>
            have hSame : w = u := by
              by_contra hNe
              have hSome := hOthers w hMem hNe
              rw [hNow] at hSome
              cases hSome
            rw [hSame]
        | failed hTotal _ =>
            have hSome := hTotal u hIn
            rw [hOpen] at hSome
            cases hSome
  | none =>
      have hTotal : ∀ w ∈ c.vars, (trail.value w).isSome = true :=
        fun w hMem => hAll w hMem nofun
      have hOnly : ∀ {event : Event},
          c.Reveals trail.value watcher.row event →
            assignedSum trail.value c.vars ≠ c.rhs ∧
              event = .conflict (.constraint watcher.row) := by
        intro event hReveals
        cases hReveals with
        | unit hMem hNow _ =>
            have hSome := hTotal _ hMem
            rw [hNow] at hSome
            cases hSome
        | failed _ hFalse => exact ⟨hFalse, rfl⟩
      simp only [hRow.rhs, hRow.folded] at hRest
      split at hRest
      next hSum =>
        rw [← pure_eq_ok.mp hRest, List.mem_singleton]
        constructor
        · rintro rfl
          exact .failed hTotal (bne_iff_ne.mp hSum)
        · exact fun hReveals => (hOnly hReveals).2
      next hSum =>
        cases hRest
        constructor
        · nofun
        · intro hReveals
          exact absurd (bne_iff_ne.mpr (hOnly hReveals).1) hSum

theorem plain_of_mem_visitSlots
    {v slots : Nat}
    {found : Findings}
    (hFollows : t.Follows s trail.value)
    (hAssigned : (trail.value v).isSome = true)
    (hVisit : visitSlots trail v slots t = .ok (t', found))
    {event : Event}
    (hMem : event ∈ found.events) :
    event.Plain s trail.value := by
  induction slots generalizing t found with
  | zero =>
      cases hVisit
      cases hMem
  | succ slot ih =>
      unfold visitSlots at hVisit
      simp only [bind_eq_ok, pure_eq_ok, Prod.mk.injEq,
        Prod.exists] at hVisit
      rcases hVisit with
        ⟨middle, first, hFirst, last, rest, hRest, rfl, rfl⟩
      rcases visitSlot_eq_ok hFirst with
        ⟨ws, watcher, row, _, _, hRow, hVar, hCase⟩
      rcases hCase with ⟨place, _, hMove, rfl⟩ | ⟨hNone, rfl, hFound⟩
      · exact ih (hFollows.moveWatch hRow hMove) hRest hMem
      · rcases List.mem_append.mp hMem with hHere | hLater
        · rcases hFollows _ row hRow with ⟨c, hAt, hRowFollows⟩
          exact ⟨watcher.row, c, hAt, (mem_rowFindings_iff hRowFollows
            hVar hAssigned hNone hFound event).mp hHere⟩
        · exact ih hFollows hRest hLater

/- What is found with a new literal is shown by one constraint. -/
theorem plain_of_mem_assign
    {ctx : Context}
    {found : Findings}
    {l : Literal}
    (hStore : ctx.store.WellFormed)
    (hFollows : t.Follows ctx.store value)
    (hLast : ctx.trail.last? = some l)
    (hNew : ∀ w, ctx.trail.value w =
      if w = l.index then some l.value else value w)
    (hOpen : value l.index = none)
    (hAssign : t.assign ctx = .ok (t', found))
    {event : Event}
    (hMem : event ∈ found.events) :
    event.Plain ctx.store ctx.trail.value := by
  rcases assign_eq_ok hAssign with
    ⟨k, middle, slots, hLast', hFold, hVisit⟩
  cases hLast.symm.trans hLast'
  have hStart :
      Watching.Follows ctx.store value
        { t with frames := [] :: t.frames } :=
    hFollows
  have hAssigned : (ctx.trail.value l.index).isSome = true := by
    rw [hNew, if_pos rfl]
    rfl
  exact plain_of_mem_visitSlots
    (hStart.foldRows hStore hNew hOpen hFold) hAssigned hVisit hMem

------------------------------------------------------------
-- Giving a literal back
------------------------------------------------------------

/- Putting a taken entry back restores the list. -/
theorem swap_push_takeSlot
    {ws : Array Watcher}
    {slot : Nat}
    {watcher : Watcher}
    (hAt : ws[slot]? = some watcher) :
    ((takeSlot ws slot).push watcher).swapIfInBounds slot
      (ws.size - 1) = ws := by
  have hLt := (Array.getElem?_eq_some_iff.mp hAt).1
  have hTaken :
      takeSlot ws slot = (ws.swap slot (ws.size - 1)).pop := by
    rw [takeSlot, Array.swapIfInBounds, dif_pos hLt,
      dif_pos (by omega)]
  have hSize : (takeSlot ws slot).size = ws.size - 1 := by
    simp [hTaken]
  apply Array.ext_getElem?
  intro j
  grind [Array.swapIfInBounds]

theorem size_takeSlot
    (ws : Array Watcher)
    (slot : Nat) :
    (takeSlot ws slot).size = ws.size - 1 := by
  simp [takeSlot]

/- What taking a move back does. -/
theorem undoMove_eq_ok
    {rows : Array WatchRow}
    {watchers : Array (Array Watcher)}
    {frames : List (List WatchMove)}
    {source slot target place : Nat}
    {targets sources : Array Watcher}
    {watcher : Watcher}
    {row : WatchRow}
    (hTarget : watchers[target]? = some targets)
    (hBack : targets.back? = some watcher)
    (hSource :
      (watchers.modify target Array.pop)[source]? = some sources)
    (hSlot : slot ≤ sources.size)
    (hRow : rows[watcher.row]? = some row)
    (hPosition : watcher.position < row.vars.size)
    (hPlace : place < row.vars.size) :
    undoMove ⟨rows, watchers, frames⟩ ⟨source, slot, target, place⟩ =
      .ok
        ⟨rows.setIfInBounds watcher.row
            { row with
              vars := row.vars.swapIfInBounds watcher.position
                place },
          (watchers.modify target Array.pop).setIfInBounds source
            ((sources.push watcher).swapIfInBounds slot sources.size),
          frames⟩ := by
  have hTargetLt := (Array.getElem?_eq_some_iff.mp hTarget).1
  have hSourceLt := (Array.getElem?_eq_some_iff.mp hSource).1
  have hRowLt := (Array.getElem?_eq_some_iff.mp hRow).1
  unfold undoMove
  rw [Table.get_eq_ok_iff.mpr hTarget]
  simp only [bind, Except.bind, hBack]
  rw [Table.modify_eq_ok_iff.mpr ⟨hTargetLt, rfl⟩]
  simp only
  rw [Table.get_eq_ok_iff.mpr hSource]
  simp only [Array.size_push, Nat.add_sub_cancel]
  rw [Table.swap_eq_ok_iff.mpr
    ⟨⟨by rw [Array.size_push]; omega, by rw [Array.size_push]; omega⟩,
      rfl⟩]
  simp only
  rw [Table.set_of_lt _ hSourceLt, Table.get_eq_ok_iff.mpr hRow]
  simp only
  rw [Table.swap_eq_ok_iff.mpr ⟨⟨hPosition, hPlace⟩, rfl⟩]
  simp only
  rw [Table.set_of_lt _ hRowLt]
  rfl

/- Taking a move back undoes it. -/
theorem undoMove_of_moveWatch
    {v slot place : Nat}
    {ws : Array Watcher}
    {watcher : Watcher}
    {row : WatchRow}
    (hWatchers : t.watchers[v]? = some ws)
    (hWatcher : ws[slot]? = some watcher)
    (hRow : t.rows[watcher.row]? = some row)
    (hAssigned : (trail.value v).isSome = true)
    (hPlace : row.replacement? trail = .ok (some place))
    (hMove : t.moveWatch v slot place watcher row = .ok t') :
    ∃ move, t'.frames = logMove move t.frames ∧
      ∀ frames,
        undoMove { t' with frames } move = .ok { t with frames } := by
  rcases moveWatch_eq_ok hMove with
    ⟨candidate, hCandidate, hPosition, hRowLt, hSource, hTarget, rfl⟩
  -- The new place is open and the variable is not, so the
  -- watcher goes to another list.
  have hNe : v ≠ candidate := by
    rintro rfl
    rcases firstOpen?_eq_ok hPlace with ⟨w, hVar, hOpen⟩
    cases hCandidate.symm.trans hVar
    rw [hOpen] at hAssigned
    cases hAssigned
  have hWatcherLt := (Array.getElem?_eq_some_iff.mp hWatcher).1
  have hPlaceLt := (Array.getElem?_eq_some_iff.mp hCandidate).1
  have hTargets :
      ((t.watchers.modify v (takeSlot · slot)).modify candidate
          (·.push watcher))[candidate]? =
        some (t.watchers[candidate].push watcher) := by
    rw [Array.getElem?_modify, if_pos rfl, Array.getElem?_modify,
      if_neg hNe, Array.getElem?_eq_getElem hTarget]
    rfl
  have hSources :
      (((t.watchers.modify v (takeSlot · slot)).modify candidate
          (·.push watcher)).modify candidate Array.pop)[v]? =
        some (takeSlot ws slot) := by
    rw [Table.modify_pop_modify_push, Array.getElem?_modify, if_pos rfl,
      hWatchers]
    rfl
  refine ⟨_, rfl, ?_⟩
  intro frames
  refine (undoMove_eq_ok hTargets (by simp) hSources
    (by rw [size_takeSlot]; omega)
    (Array.getElem?_setIfInBounds_self_of_lt hRowLt)
    (by simpa using hPosition) (by simpa using hPlaceLt)).trans ?_
  rw [Table.modify_pop_modify_push, size_takeSlot,
    swap_push_takeSlot hWatcher, Table.setIfInBounds_restore _ hWatchers]
  simp only [Table.swapIfInBounds_swapIfInBounds,
    Array.setIfInBounds_setIfInBounds]
  rw [Table.setIfInBounds_self hRow]

/- Visiting the watchers of a variable is undone by its moves. -/
theorem undo_of_visitSlots
    {v slots : Nat}
    {found : Findings}
    {frame : List WatchMove}
    {older : List (List WatchMove)}
    (hAssigned : (trail.value v).isSome = true)
    (hFrames : t.frames = frame :: older)
    (hVisit : visitSlots trail v slots t = .ok (t', found)) :
    ∃ moves, t'.frames = (moves ++ frame) :: older ∧
      ∀ frames,
        moves.foldlM undoMove { t' with frames } =
          .ok { t with frames } := by
  induction slots generalizing t frame found with
  | zero =>
      cases hVisit
      exact ⟨[], hFrames, fun _ => rfl⟩
  | succ slot ih =>
      unfold visitSlots at hVisit
      simp only [bind_eq_ok, pure_eq_ok, Prod.mk.injEq,
        Prod.exists] at hVisit
      rcases hVisit with
        ⟨middle, first, hFirst, last, rest, hRest, rfl, _⟩
      rcases visitSlot_eq_ok hFirst with
        ⟨ws, watcher, row, hWatchers, hWatcher, hRow, _, hCase⟩
      rcases hCase with ⟨place, hPlace, hMove, _⟩ | ⟨_, rfl, _⟩
      · rcases undoMove_of_moveWatch hWatchers hWatcher hRow hAssigned
          hPlace hMove with ⟨move, hLog, hUndo⟩
        rw [hFrames] at hLog
        rcases ih hLog hRest with ⟨moves, hMoves, hBack⟩
        refine ⟨moves ++ [move], ?_, ?_⟩
        · rw [hMoves, List.append_assoc]
          rfl
        · intro frames
          rw [List.foldlM_append, hBack frames]
          exact (bind_pure _).trans (hUndo frames)
      · exact ih hFrames hRest

/- Giving the newest literal back undoes taking it in. -/
theorem unassign_of_assign
    {ctx back : Context}
    {l : Literal}
    {found : Findings}
    (hLast : ctx.trail.last? = some l)
    (hAssigned : (ctx.trail.value l.index).isSome = true)
    (hStore : ctx.store.WellFormed)
    (hSame : back.store = ctx.store)
    (hAssign : t.assign ctx = .ok (t', found)) :
    t'.unassign back l = .ok t := by
  rcases assign_eq_ok hAssign with
    ⟨k, middle, slots, hLast', hFold, hVisit⟩
  cases hLast.symm.trans hLast'
  rcases foldRows_eq_ok_iff.mp hFold with ⟨hAll, rfl⟩
  rcases undo_of_visitSlots hAssigned rfl hVisit with
    ⟨moves, hFrames, hUndo⟩
  rw [List.append_nil] at hFrames
  unfold unassign
  rw [hFrames]
  simp only [hUndo t.frames, hSame, bind, Except.bind]
  rw [foldRows_eq_ok_iff]
  refine ⟨?_, ?_⟩
  · simp only [Table.size_foldl_modify]
    exact hAll
  · simp only [Table.foldl_modify_foldl_modify
      (hStore.nodup_constraintsOf l.index)
      fun _ _ row _ => WatchRow.plus_plus_self l.value row]

end Watching

end ParitySolver
