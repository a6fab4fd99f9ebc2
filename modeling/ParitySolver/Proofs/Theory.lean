import ParitySolver.Proofs.Theory.Counting
import ParitySolver.Proofs.Theory.Incremental
import ParitySolver.Proofs.Theory.Watching
import ParitySolver.Theory

/-
  Correctness of the theories of all strategies. What they
  find is valid, giving the newest literal back undoes taking
  it in, and a theory that eliminates reports all that a
  reduced matrix of the constraints shows.

  Key definitions include:
    * `Exhaustive`
    * `Theory.Follows`
    * `Theory.eliminates`

  Main declarations:
    * `Theory.follows_ofStore`
    * `Theory.Follows.assign`
    * `Theory.valid_of_mem_begin`
    * `Theory.valid_of_mem_assign`
    * `Theory.plain_of_mem_assign`
    * `Theory.valid_of_mem_atFixpoint`
    * `Theory.exhaustive_of_assign`
    * `Theory.unassign_of_assign`
-/

namespace ParitySolver

------------------------------------------------------------
-- Exhaustive events
------------------------------------------------------------

/-
  The events tell all that some reduced matrix of the
  constraints shows: a row without an event is quiet.
-/
def Exhaustive
    (s : Store)
    (value : Nat → Option Bool)
    (events : List Event) : Prop :=
  ∃ m : Matrix,
    m.Represents s value ∧
      m.isReduced = true ∧
      ∀ (r : Nat) (row : Row), m.rows[r]? = some row →
        row.news = .quiet ∨
          (∃ origin, Event.conflict origin ∈ events) ∨
          (∃ column v origin,
            row.columns.has column = true ∧
              s.variableTable[column]? = some v ∧
              Event.propagation ⟨v, row.rhs⟩ origin ∈ events)

theorem Exhaustive.mono
    {s : Store}
    {value : Nat → Option Bool}
    {events more : List Event}
    (hEvents : Exhaustive s value events)
    (hSubset : events ⊆ more) :
    Exhaustive s value more := by
  rcases hEvents with ⟨m, hMatrix, hReduced, hRows⟩
  refine ⟨m, hMatrix, hReduced, ?_⟩
  intro r row hRow
  rcases hRows r row hRow with
    hQuiet | ⟨origin, hMem⟩ | ⟨column, v, origin, hHas, hAt, hMem⟩
  · exact .inl hQuiet
  · exact .inr (.inl ⟨origin, hSubset hMem⟩)
  · exact .inr (.inr ⟨column, v, origin, hHas, hAt, hSubset hMem⟩)

theorem Matrix.Represents.exhaustive
    {s : Store}
    {value : Nat → Option Bool}
    {m : Matrix}
    (hMatrix : m.Represents s value)
    (hReduced : m.isReduced = true)
    {events : List Event}
    (hScan : m.scan s = .ok events) :
    Exhaustive s value events :=
  ⟨m, hMatrix, hReduced, fun _ _ hRow =>
    quiet_or_event_of_scan hScan hRow⟩

------------------------------------------------------------
-- Elimination from scratch
------------------------------------------------------------

section Batch

variable {ctx : Context} {found : Findings} {mode : BatchMode}

theorem Context.eliminated_eq_ok
    (hStore : ctx.store.WellFormed)
    {tracked : Bool}
    {m : Matrix}
    (hMatrix : ctx.eliminated tracked = .ok m) :
    m.Represents ctx.store ctx.trail.value ∧
      m.isReduced = true := by
  rcases bind_eq_ok.mp hMatrix with ⟨start, hStart, hEliminate⟩
  exact (Matrix.represents_of_ofStore hStore
    (fun _ _ hRead => Trail.value_of_read hRead) hStart).1.eliminate
      hEliminate

theorem BatchMode.scanTracked_eq_ok
    (hFound : scanTracked ctx = .ok found) :
    ∃ m, ctx.eliminated true = .ok m ∧
      m.scan ctx.store = .ok found.events := by
  simp only [scanTracked, bind_eq_ok, pure_eq_ok] at hFound
  rcases hFound with ⟨m, hMatrix, events, hScan, rfl⟩
  exact ⟨m, hMatrix, hScan⟩

/- Either the mode scans, or it has seen that there is nothing. -/
theorem BatchMode.eliminateAndScan_eq_ok
    (hFound : mode.eliminateAndScan ctx = .ok found) :
    (∃ m, ctx.eliminated true = .ok m ∧
        m.scan ctx.store = .ok found.events) ∨
      (∃ m, ctx.eliminated false = .ok m ∧
        m.hasEvent = false ∧ found.events = []) := by
  unfold eliminateAndScan at hFound
  cases mode with
  | eager => exact .inl (scanTracked_eq_ok hFound)
  | lazy =>
      rcases bind_eq_ok.mp hFound with ⟨m, hMatrix, hRest⟩
      cases hEvent : m.hasEvent with
      | true =>
          simp only [hEvent, if_true, bind_eq_ok, pure_eq_ok] at hRest
          rcases hRest with ⟨scanned, hScanned, rfl⟩
          rcases scanTracked_eq_ok hScanned with ⟨k, hAgain, hScan⟩
          exact .inl ⟨k, hAgain, hScan⟩
      | false =>
          simp only [hEvent, Bool.false_eq_true, if_false,
            pure_eq_ok] at hRest
          rw [← hRest]
          exact .inr ⟨m, hMatrix, hEvent, rfl⟩

theorem BatchMode.valid_of_mem_eliminateAndScan
    (hStore : ctx.store.WellFormed)
    (hFound : mode.eliminateAndScan ctx = .ok found)
    {event : Event}
    (hMem : event ∈ found.events) :
    event.Valid ctx.store ctx.trail.value := by
  rcases eliminateAndScan_eq_ok hFound with
    ⟨m, hMatrix, hScan⟩ | ⟨m, _, _, hNone⟩
  · exact (Context.eliminated_eq_ok hStore hMatrix).1.valid_of_mem_scan
      hStore hScan hMem
  · rw [hNone] at hMem
    cases hMem

theorem BatchMode.exhaustive_of_eliminateAndScan
    (hStore : ctx.store.WellFormed)
    (hFound : mode.eliminateAndScan ctx = .ok found) :
    Exhaustive ctx.store ctx.trail.value found.events := by
  rcases eliminateAndScan_eq_ok hFound with
    ⟨m, hMatrix, hScan⟩ | ⟨m, hMatrix, hNone, _⟩
  · have hEnd := Context.eliminated_eq_ok hStore hMatrix
    exact hEnd.1.exhaustive hEnd.2 hScan
  · have hEnd := Context.eliminated_eq_ok hStore hMatrix
    refine ⟨m, hEnd.1, hEnd.2, ?_⟩
    intro r row hRow
    have hQuiet :=
      Array.any_eq_false'.mp hNone row (Array.mem_of_getElem? hRow)
    rw [Row.hasEvent_iff, not_not] at hQuiet
    exact .inl hQuiet

theorem BatchMode.valid_of_mem_onAssignment
    (hStore : ctx.store.WellFormed)
    (hFound : mode.onAssignment ctx = .ok found)
    {event : Event}
    (hMem : event ∈ found.events) :
    event.Valid ctx.store ctx.trail.value := by
  unfold onAssignment at hFound
  split at hFound
  · exact valid_of_mem_eliminateAndScan hStore hFound hMem
  · cases hFound
    cases hMem

theorem BatchMode.valid_of_mem_onFixpoint
    (hStore : ctx.store.WellFormed)
    (hFound : mode.onFixpoint ctx = .ok found)
    {event : Event}
    (hMem : event ∈ found.events) :
    event.Valid ctx.store ctx.trail.value := by
  unfold onFixpoint at hFound
  split at hFound
  · exact valid_of_mem_eliminateAndScan hStore hFound hMem
  · cases hFound
    cases hMem

/- Either mode eliminates at one of the two moments. -/
theorem BatchMode.exhaustive_of_both
    (hStore : ctx.store.WellFormed)
    (hAllowed : ctx.eliminate = true)
    {more : Findings}
    (hFound : mode.onAssignment ctx = .ok found)
    (hMore : mode.onFixpoint ctx = .ok more) :
    Exhaustive ctx.store ctx.trail.value
      (found.events ++ more.events) := by
  cases mode with
  | eager =>
      simp only [onAssignment, hAllowed, decide_true, Bool.and_true,
        if_true] at hFound
      exact (exhaustive_of_eliminateAndScan hStore hFound).mono
        (List.subset_append_left _ _)
  | lazy =>
      simp only [onFixpoint, hAllowed, decide_true, Bool.and_true,
        if_true] at hMore
      exact (exhaustive_of_eliminateAndScan hStore hMore).mono
        (List.subset_append_right _ _)

end Batch

------------------------------------------------------------
-- Theories
------------------------------------------------------------

namespace Theory

/- The theory has what it should about the constraints. -/
def Follows
    (s : Store)
    (value : Nat → Option Bool) : Theory → Prop
  | .counting count => count.Follows s value
  | .watching watch => watch.Follows s value
  | .batch watch _ => watch.Follows s value
  | .incremental watch elimination =>
      watch.Follows s value ∧ elimination.Follows s value

/- Does the theory eliminate when it may? -/
def eliminates : Theory → Bool
  | .counting _ => false
  | .watching _ => false
  | .batch _ _ => true
  | .incremental _ _ => true

/- Is it the theory that only counts? -/
def counts : Theory → Bool
  | .counting _ => true
  | .watching _ => false
  | .batch _ _ => false
  | .incremental _ _ => false

variable {t t' : Theory}

theorem ofStore_eq_ok
    {strategy : Strategy}
    {s : Store}
    (hTheory : ofStore strategy s = .ok t) :
    t.eliminates = strategy.usesElimination ∧
      t.counts = decide (strategy = .countCheck) := by
  cases strategy <;>
    simp only [ofStore, bind_eq_ok, pure_eq_ok] at hTheory
  case countCheck =>
    rw [← hTheory]
    exact ⟨rfl, rfl⟩
  case unitPropagation | gjeFixpoint | gjeReasoned =>
    rcases hTheory with ⟨watch, _, rfl⟩
    exact ⟨rfl, rfl⟩
  case gjeIncremental | gjeTableau =>
    rcases hTheory with ⟨watch, _, elimination, _, rfl⟩
    exact ⟨rfl, rfl⟩

theorem follows_ofStore
    {strategy : Strategy}
    {s : Store}
    {value : Nat → Option Bool}
    (hStore : s.WellFormed)
    (hTheory : ofStore strategy s = .ok t)
    (hEmpty : ∀ v, value v = none) :
    t.Follows s value := by
  cases strategy <;>
    simp only [ofStore, bind_eq_ok, pure_eq_ok] at hTheory
  case countCheck =>
    rw [← hTheory]
    exact Counting.follows_ofStore hEmpty
  case unitPropagation | gjeFixpoint | gjeReasoned =>
    rcases hTheory with ⟨watch, hWatch, rfl⟩
    exact Watching.follows_ofStore hWatch hEmpty
  case gjeIncremental | gjeTableau =>
    rcases hTheory with ⟨watch, hWatch, elimination, hElimination, rfl⟩
    exact ⟨Watching.follows_ofStore hWatch hEmpty,
      Incremental.follows_ofStore hStore hElimination hEmpty⟩

/- What taking in a literal does, theory by theory. -/
theorem assign_eq_ok
    {ctx : Context}
    {found : Findings}
    (hAssign : t.assign ctx = .ok (t', found)) :
    (∃ count count',
      t = .counting count ∧ t' = .counting count' ∧
        count.assign ctx = .ok (count', found)) ∨
      (∃ watch watch',
        t = .watching watch ∧ t' = .watching watch' ∧
          watch.assign ctx = .ok (watch', found)) ∨
      (∃ watch watch' mode first more,
        t = .batch watch mode ∧ t' = .batch watch' mode ∧
          watch.assign ctx = .ok (watch', first) ∧
          mode.onAssignment ctx = .ok more ∧
          found.events = first.events ++ more.events) ∨
      (∃ watch watch' elimination elimination' first more,
        t = .incremental watch elimination ∧
          t' = .incremental watch' elimination' ∧
          watch.assign ctx = .ok (watch', first) ∧
          elimination.assign ctx = .ok (elimination', more) ∧
          found.events = first.events ++ more.events) := by
  cases t <;>
    simp only [assign, bind_eq_ok, pure_eq_ok, Prod.exists,
      Prod.mk.injEq] at hAssign
  case counting count =>
    rcases hAssign with ⟨count', _, hCount, rfl, rfl⟩
    exact .inl ⟨count, count', rfl, rfl, hCount⟩
  case watching watch =>
    rcases hAssign with ⟨watch', _, hWatch, rfl, rfl⟩
    exact .inr (.inl ⟨watch, watch', rfl, rfl, hWatch⟩)
  case batch watch mode =>
    rcases hAssign with ⟨watch', first, hWatch, more, hMore, rfl, rfl⟩
    exact .inr (.inr (.inl
      ⟨watch, watch', mode, first, more, rfl, rfl, hWatch, hMore, rfl⟩))
  case incremental watch elimination =>
    rcases hAssign with
      ⟨watch', first, hWatch, elimination', more, hMore, rfl, rfl⟩
    exact .inr (.inr (.inr
      ⟨watch, watch', elimination, elimination', first, more, rfl, rfl,
        hWatch, hMore, rfl⟩))

theorem kind_of_assign
    {ctx : Context}
    {found : Findings}
    (hAssign : t.assign ctx = .ok (t', found)) :
    t'.eliminates = t.eliminates ∧ t'.counts = t.counts := by
  rcases assign_eq_ok hAssign with
    ⟨_, _, rfl, rfl, _⟩ | ⟨_, _, rfl, rfl, _⟩ |
      ⟨_, _, _, _, _, rfl, rfl, _⟩ | ⟨_, _, _, _, _, _, rfl, rfl, _⟩ <;>
    exact ⟨rfl, rfl⟩

------------------------------------------------------------
-- Taking in and giving back
------------------------------------------------------------

/-
  `ctx` shows the trail right after a literal was taken in,
  and `value` is what the trail said before.
-/
structure TakesIn
    (ctx : Context)
    (value : Nat → Option Bool)
    (l : Literal) : Prop where
  last : ctx.trail.last? = some l
  new : ∀ w, ctx.trail.value w =
    if w = l.index then some l.value else value w
  isOpen : value l.index = none

section TakesIn

variable {ctx : Context} {found : Findings}
variable {value : Nat → Option Bool} {l : Literal}

theorem TakesIn.assigned
    (hTakes : TakesIn ctx value l) :
    (ctx.trail.value l.index).isSome = true := by
  rw [hTakes.new, if_pos rfl]
  rfl

/- Theories follow the trail when a literal is taken in. -/
theorem Follows.assign
    (hStore : ctx.store.WellFormed)
    (hFollows : t.Follows ctx.store value)
    (hTakes : TakesIn ctx value l)
    (hAssign : t.assign ctx = .ok (t', found)) :
    t'.Follows ctx.store ctx.trail.value := by
  rcases hTakes with ⟨hLast, hNew, hOpen⟩
  rcases assign_eq_ok hAssign with
    ⟨count, count', rfl, rfl, hCount⟩ |
      ⟨watch, watch', rfl, rfl, hWatch⟩ |
      ⟨watch, watch', mode, _, _, rfl, rfl, hWatch, _⟩ |
      ⟨watch, watch', _, _, _, _, rfl, rfl, hWatch, hMore, _⟩
  · exact Counting.Follows.assign hStore hFollows hLast hNew hOpen
      hCount
  · exact Watching.Follows.assign hStore hFollows hLast hNew hOpen
      hWatch
  · exact Watching.Follows.assign hStore hFollows hLast hNew hOpen
      hWatch
  · exact ⟨Watching.Follows.assign hStore hFollows.1 hLast hNew hOpen
        hWatch,
      hFollows.2.assign hStore hLast hNew hOpen hMore⟩

/- Giving the newest literal back undoes taking it in. -/
theorem unassign_of_assign
    {back : Context}
    (hStore : ctx.store.WellFormed)
    (hTakes : TakesIn ctx value l)
    (hSame : back.store = ctx.store)
    (hAssign : t.assign ctx = .ok (t', found)) :
    t'.unassign back l = .ok t := by
  have hWatching : ∀ {watch watch' : Watching} {first : Findings},
      watch.assign ctx = .ok (watch', first) →
        watch'.unassign back l = .ok watch := by
    intro watch watch' first hWatch
    exact Watching.unassign_of_assign hTakes.last hTakes.assigned
      hStore hSame hWatch
  rcases assign_eq_ok hAssign with
    ⟨count, count', rfl, rfl, hCount⟩ |
      ⟨watch, watch', rfl, rfl, hWatch⟩ |
      ⟨watch, watch', mode, _, _, rfl, rfl, hWatch, _⟩ |
      ⟨watch, watch', _, _, _, _, rfl, rfl, hWatch, hMore, _⟩
  · simp only [unassign, Counting.unassign_of_assign hTakes.last
      hStore hSame hCount, bind, Except.bind, pure, Except.pure]
  · simp only [unassign, hWatching hWatch, bind, Except.bind, pure,
      Except.pure]
  · simp only [unassign, hWatching hWatch, bind, Except.bind, pure,
      Except.pure]
  · simp only [unassign, hWatching hWatch,
      Incremental.unassign_of_assign hMore, bind, Except.bind, pure,
      Except.pure]

------------------------------------------------------------
-- Findings
------------------------------------------------------------

/- What follows without any assignment is valid. -/
theorem valid_of_mem_begin
    (hStore : ctx.store.WellFormed)
    (hFollows : t.Follows ctx.store ctx.trail.value)
    (hEmpty : ∀ v, ctx.trail.value v = none)
    (hBegin : t.begin ctx = .ok found)
    {event : Event}
    (hMem : event ∈ found.events) :
    event.Valid ctx.store ctx.trail.value := by
  cases t <;>
    simp only [begin, bind_eq_ok, pure_eq_ok] at hBegin
  case counting count =>
    rw [← hBegin] at hMem
    exact (Counting.plain_of_mem_begin hMem).valid hStore
  case watching watch =>
    rw [← hBegin] at hMem
    exact (Watching.plain_of_mem_begin hFollows hEmpty hMem).valid
      hStore
  case batch watch mode =>
    rcases hBegin with ⟨more, hMore, rfl⟩
    rcases List.mem_append.mp hMem with hWatch | hBatch
    · exact (Watching.plain_of_mem_begin hFollows hEmpty hWatch).valid
        hStore
    · exact mode.valid_of_mem_onAssignment hStore hMore hBatch
  case incremental watch elimination =>
    simp only [Incremental.begin, bind_eq_ok, pure_eq_ok] at hBegin
    rcases hBegin with ⟨_, ⟨more, hMore, rfl⟩, rfl⟩
    rcases List.mem_append.mp hMem with hWatch | hScan
    · exact (Watching.plain_of_mem_begin hFollows.1 hEmpty
        hWatch).valid hStore
    · exact Incremental.valid_of_mem_scanIfAllowed hStore hFollows.2
        hMore hScan

/- What is found when a literal is taken in is valid. -/
theorem valid_of_mem_assign
    (hStore : ctx.store.WellFormed)
    (hFollows : t.Follows ctx.store value)
    (hTakes : TakesIn ctx value l)
    (hAssign : t.assign ctx = .ok (t', found))
    {event : Event}
    (hMem : event ∈ found.events) :
    event.Valid ctx.store ctx.trail.value := by
  have hAfter := hFollows.assign hStore hTakes hAssign
  rcases hTakes with ⟨hLast, hNew, hOpen⟩
  rcases assign_eq_ok hAssign with
    ⟨count, count', rfl, rfl, hCount⟩ |
      ⟨watch, watch', rfl, rfl, hWatch⟩ |
      ⟨watch, watch', mode, _, _, rfl, rfl, hWatch, hMore, hEvents⟩ |
      ⟨watch, watch', _, _, _, _, rfl, rfl, hWatch, hMore, hEvents⟩
  · exact (Counting.plain_of_mem_assign hStore hFollows hLast hNew
      hOpen hCount hMem).valid hStore
  · exact (Watching.plain_of_mem_assign hStore hFollows hLast hNew
      hOpen hWatch hMem).valid hStore
  · rw [hEvents] at hMem
    rcases List.mem_append.mp hMem with hFirst | hBatch
    · exact (Watching.plain_of_mem_assign hStore hFollows hLast hNew
        hOpen hWatch hFirst).valid hStore
    · exact mode.valid_of_mem_onAssignment hStore hMore hBatch
  · rw [hEvents] at hMem
    rcases List.mem_append.mp hMem with hFirst | hScan
    · exact (Watching.plain_of_mem_assign hStore hFollows.1 hLast hNew
        hOpen hWatch hFirst).valid hStore
    · rcases Incremental.assign_eq_ok hMore with
        ⟨_, _, _, _, _, scanned, _, _, _, _, _, hScanned, hSame⟩
      rw [hSame] at hScan
      exact Incremental.valid_of_mem_scanIfAllowed hStore hAfter.2
        hScanned hScan

/- What is found on a second look is valid. -/
theorem valid_of_mem_atFixpoint
    (hStore : ctx.store.WellFormed)
    (hFixpoint : t.atFixpoint ctx = .ok found)
    {event : Event}
    (hMem : event ∈ found.events) :
    event.Valid ctx.store ctx.trail.value := by
  cases t
  case batch watch mode =>
    exact mode.valid_of_mem_onFixpoint hStore hFixpoint hMem
  all_goals
    cases hFixpoint
    cases hMem

/- The theory that only counts reports conflicts only. -/
theorem conflict_of_mem_begin
    (hCounts : t.counts = true)
    (hBegin : t.begin ctx = .ok found)
    {event : Event}
    (hMem : event ∈ found.events) :
    ∃ origin, event = .conflict origin := by
  cases t <;> cases hCounts
  cases hBegin
  rcases Counting.conflict_of_mem_begin hMem with ⟨r, _, rfl, _⟩
  exact ⟨_, rfl⟩

theorem conflict_of_mem_assign
    (hStore : ctx.store.WellFormed)
    (hCounts : t.counts = true)
    (hAssign : t.assign ctx = .ok (t', found))
    {event : Event}
    (hMem : event ∈ found.events) :
    ∃ origin, event = .conflict origin := by
  cases t <;> cases hCounts
  rcases assign_eq_ok hAssign with
    ⟨count, count', hEq, rfl, hCount⟩ | ⟨_, _, hEq, _⟩ |
      ⟨_, _, _, _, _, hEq, _⟩ | ⟨_, _, _, _, _, _, hEq, _⟩ <;>
    cases hEq
  exact Counting.conflict_of_mem_assign hStore hCount hMem

theorem eliminates_of_counts
    (hCounts : t.counts = true) :
    t.eliminates = false := by
  cases t <;> cases hCounts
  rfl

/- Without elimination single constraints show all that is found. -/
theorem plain_of_mem_begin
    (hEliminates : t.eliminates = false)
    (hFollows : t.Follows ctx.store ctx.trail.value)
    (hEmpty : ∀ v, ctx.trail.value v = none)
    (hBegin : t.begin ctx = .ok found)
    {event : Event}
    (hMem : event ∈ found.events) :
    event.Plain ctx.store ctx.trail.value := by
  cases t <;> cases hEliminates <;> cases hBegin
  case counting.refl.refl => exact Counting.plain_of_mem_begin hMem
  case watching.refl.refl =>
    exact Watching.plain_of_mem_begin hFollows hEmpty hMem

theorem plain_of_mem_assign
    (hStore : ctx.store.WellFormed)
    (hEliminates : t.eliminates = false)
    (hFollows : t.Follows ctx.store value)
    (hTakes : TakesIn ctx value l)
    (hAssign : t.assign ctx = .ok (t', found))
    {event : Event}
    (hMem : event ∈ found.events) :
    event.Plain ctx.store ctx.trail.value := by
  rcases hTakes with ⟨hLast, hNew, hOpen⟩
  rcases assign_eq_ok hAssign with
    ⟨count, count', rfl, rfl, hCount⟩ |
      ⟨watch, watch', rfl, rfl, hWatch⟩ |
      ⟨_, _, _, _, _, rfl, _⟩ | ⟨_, _, _, _, _, _, rfl, _⟩
  · exact Counting.plain_of_mem_assign hStore hFollows hLast hNew
      hOpen hCount hMem
  · exact Watching.plain_of_mem_assign hStore hFollows hLast hNew
      hOpen hWatch hMem
  · cases hEliminates
  · cases hEliminates

/- Without elimination there is nothing to see on a second look. -/
theorem atFixpoint_of_not_eliminates
    (hEliminates : t.eliminates = false)
    (hFixpoint : t.atFixpoint ctx = .ok found) :
    found.events = [] := by
  cases t <;> cases hEliminates <;> cases hFixpoint <;> rfl

/- At the start, elimination reports all that it shows. -/
theorem exhaustive_of_begin
    (hStore : ctx.store.WellFormed)
    (hEliminates : t.eliminates = true)
    (hAllowed : ctx.eliminate = true)
    (hFollows : t.Follows ctx.store ctx.trail.value)
    {more : Findings}
    (hBegin : t.begin ctx = .ok found)
    (hFixpoint : t.atFixpoint ctx = .ok more) :
    Exhaustive ctx.store ctx.trail.value
      (found.events ++ more.events) := by
  cases t <;> cases hEliminates
  case batch watch mode =>
    simp only [begin, bind_eq_ok, pure_eq_ok] at hBegin
    rcases hBegin with ⟨first, hFirst, rfl⟩
    refine (mode.exhaustive_of_both hStore hAllowed hFirst
      hFixpoint).mono ?_
    exact List.append_subset.mpr
      ⟨List.Subset.trans (List.subset_append_right _ _)
          (List.subset_append_left _ _),
        List.subset_append_right _ _⟩
  case incremental watch elimination =>
    simp only [begin, Incremental.begin, bind_eq_ok,
      pure_eq_ok] at hBegin
    rcases hBegin with ⟨_, ⟨scanned, hScanned, rfl⟩, rfl⟩
    refine (hFollows.2.represents.exhaustive hFollows.2.reduced
      ((Incremental.scanIfAllowed_eq_ok hScanned).1 hAllowed)).mono ?_
    exact List.Subset.trans (List.subset_append_right _ _)
      (List.subset_append_left _ _)

/- After an assignment, elimination reports all that it shows. -/
theorem exhaustive_of_assign
    (hStore : ctx.store.WellFormed)
    (hEliminates : t.eliminates = true)
    (hAllowed : ctx.eliminate = true)
    (hFollows : t'.Follows ctx.store ctx.trail.value)
    {more : Findings}
    (hAssign : t.assign ctx = .ok (t', found))
    (hFixpoint : t'.atFixpoint ctx = .ok more) :
    Exhaustive ctx.store ctx.trail.value
      (found.events ++ more.events) := by
  rcases assign_eq_ok hAssign with
    ⟨_, _, rfl, _, _⟩ | ⟨_, _, rfl, _, _⟩ |
      ⟨_, watch', mode, _, _, rfl, rfl, _, hFirst, hEvents⟩ |
      ⟨_, watch', _, _, _, _, rfl, rfl, _, hMore, hEvents⟩
  · cases hEliminates
  · cases hEliminates
  · refine (mode.exhaustive_of_both hStore hAllowed hFirst
      hFixpoint).mono ?_
    rw [hEvents]
    exact List.append_subset.mpr
      ⟨List.Subset.trans (List.subset_append_right _ _)
          (List.subset_append_left _ _),
        List.subset_append_right _ _⟩
  · rcases Incremental.assign_eq_ok hMore with
      ⟨_, _, _, _, _, scanned, _, _, _, _, _, hScanned, hSame⟩
    refine (hFollows.2.represents.exhaustive hFollows.2.reduced
      ((Incremental.scanIfAllowed_eq_ok hScanned).1 hAllowed)).mono ?_
    rw [hEvents, hSame]
    exact List.Subset.trans (List.subset_append_right _ _)
      (List.subset_append_left _ _)

end TakesIn

end Theory

end ParitySolver
