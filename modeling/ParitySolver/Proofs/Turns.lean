import ParitySolver.Proofs.Drain

/-
  The rounds of a search. Each round succeeds: it accepts a
  model, decides the lowest open variable, flips the last
  decision that was not flipped, or gives up. What a round
  does to the history, to the flags and to the counters is
  said once, and all results about whole searches rest on it.

  Key definitions include:
    * `Search.effort`
    * `Search.Steady`
    * `Search.Poised`
    * `Search.Underway`
    * `Search.Turn`
    * `Search.Begins`

  Main declarations:
    * `Search.Poised.decide`
    * `Search.Steady.flip`
    * `Search.Underway.acceptModel`
    * `Search.Underway.advance`
    * `Search.exists_begins`
    * `Store.solve_eq_ok_iff`
-/

namespace ParitySolver

/- The lowest of the variables below `n` that have no value. -/
structure History.LowestOpen
    (h : History Unit)
    (n v : Nat) : Prop where
  lt : v < n
  isOpen : h.value v = none
  lower : ∀ i < v, h.value i ≠ none

/- The numbers of decisions and of conflicts. -/
def Search.effort
    (s : Search) : Nat × Nat :=
  (s.decisions, s.conflicts)

def Solution.effort
    (solution : Solution) : Nat × Nat :=
  (solution.decisions, solution.conflicts)

namespace Search

------------------------------------------------------------
-- Deciding
------------------------------------------------------------

/- Engine and host are at rest, and each decision has a flag. -/
structure Steady
    (store : Store)
    (config : Config)
    (h : History Unit)
    (s : Search) : Prop where
  rest : Pairing.AtRest store config h s.pairing
  size : s.pairing.stack.numVariables = store.numVariables
  flips : s.flipped.length = h.level

/- The search can decide a variable. -/
structure Poised
    (store : Store)
    (config : Config)
    (h : History Unit)
    (s : Search)
    (v : Nat) : Prop extends
    Steady store config h s where
  ready : s.pairing.engine.state = .ready
  inRange : v < store.numVariables
  isOpen : s.pairing.stack.value v = none

/- The search goes on. Without a conflict the engine is ready. -/
structure Underway
    (store : Store)
    (config : Config)
    (h : History Unit)
    (s : Search)
    (conflict : Bool) : Prop extends
    Steady store config h s where
  state :
    s.pairing.engine.state =
      if conflict then .conflicted h.level else .ready

variable {declared : List Literal} {named : List (Nat × Constraint)}
variable {store : Store} {config : Config} {h h' : History Unit}
variable {s : Search} {conflict : Bool}

/- There are at most as many decisions as variables. -/
theorem Steady.length_flipped_le
    (hSteady : Steady store config h s) :
    s.flipped.length ≤ store.numVariables := by
  rw [hSteady.flips, ← hSteady.size]
  exact hSteady.rest.inStep.records.level_le

/- A drain that comes to its end leaves the search underway. -/
theorem exists_settled
    {n : Nat}
    {d : Drain}
    (hEnds : Pairing.EndsAt store config h n d h')
    (hSize : n = store.numVariables)
    (hFlips : s.flipped.length = h.level) :
    ∃ s', s.settled d = .ok (s', d.isConflict) ∧
      s'.flipped = s.flipped ∧ s'.effort = s.effort ∧
      Underway store config h' s' d.isConflict := by
  refine ⟨_, bind_eq_ok.mpr ⟨(), hEnds.outcome, rfl⟩, rfl, rfl, ?_⟩
  exact
    { rest := hEnds.rest
      size := hEnds.size.trans hSize
      flips := hFlips.trans hEnds.level.symm
      state := hEnds.state }

/- Both values of an open variable can be decided. -/
theorem Poised.decide
    (hStore : store.WellFormed)
    {l : Literal}
    (hPoised : Poised store config h s l.index)
    (flag : Bool) :
    ∃ s' d h', s.decide l flag = .ok (s', d.isConflict) ∧
      Pairing.EndsAt store config ((l, .decision) :: h)
        store.numVariables d h' ∧
      s'.flipped = flag :: s.flipped ∧ s'.effort = s.effort ∧
      Underway store config h' s' d.isConflict := by
  have hLt := hPoised.inRange
  rw [← hPoised.size] at hLt
  rcases hPoised.rest.follow hStore Demand.fair_held hPoised.ready hLt
    hPoised.isOpen [] with ⟨stack, hAssign, h', hEnds⟩
  rw [Pairing.settleBy_nil, hPoised.size] at hEnds
  have hFlips : (flag :: s.flipped).length =
      History.level ((l, .decision) :: h : History Unit) := by
    rw [List.length_cons, hPoised.flips, History.level_cons]
    rfl
  let next : Search :=
    { s with
      pairing := { s.pairing with stack }
      flipped := flag :: s.flipped }
  rcases exists_settled (s := next) hEnds rfl hFlips with
    ⟨s', hSettled, hFlipped, hEffort, hUnderway⟩
  exact ⟨s', _, h', bind_eq_ok.mpr ⟨stack, hAssign, hSettled⟩, hEnds,
    hFlipped, hEffort, hUnderway⟩

------------------------------------------------------------
-- Flipping
------------------------------------------------------------

/-
  The highest level can be left. The variable of its decision
  is open then, and there is no conflict any more.
-/
theorem Steady.leaveLevel
    (hSteady : Steady store config h s)
    (hStore : store.WellFormed)
    {below : Nat}
    (hLevel : h.level = below + 1)
    (hState : ∀ k, s.pairing.engine.state = .conflicted k → below < k) :
    ∃ s' newer l older, s.leaveLevel below = .ok (s', l) ∧
      h = newer ++ (l, .decision) :: older ∧
      History.level newer = 0 ∧ History.level older = below ∧
      s'.flipped = s.flipped.tail ∧ s'.effort = s.effort ∧
      Poised store config older s' l.index := by
  have hRecords := hSteady.rest.inStep.records
  have hBelowTop : below < h.level := by
    omega
  rcases hRecords.exists_decision hBelowTop with
    ⟨first, last, l, hRange, hLiteral⟩
  rcases hRecords.top_decision_eq hLevel hRange hLiteral with
    ⟨newer, reason, older, hSplit, hDecision, hNewer, hBelow, hBack⟩
  cases reason with
  | propagation => cases hDecision
  | decision =>
      rcases hSteady.rest.back hStore (Nat.le_of_lt hBelowTop) with
        ⟨stack, hJump, hUndo, hRest, hSize, hAfter⟩
      rw [hBack] at hRest
      have hIn : (l, .decision) ∈ h := by
        rw [hSplit]
        exact List.mem_append_right _ List.mem_cons_self
      have hLt := hRecords.inRange (l, .decision) hIn
      rw [hSteady.size] at hLt
      have hOpen : History.value older l.index = none := by
        have hDistinct := hRecords.distinct
        rw [hSplit] at hDistinct
        exact History.value_older_eq_none hDistinct
      have hReady :
          (s.pairing.engine.undo below).engine.state = .ready := by
        rw [hAfter]
        cases hBefore : s.pairing.engine.state with
        | ready => rfl
        | conflicted k => exact if_pos (hState k hBefore)
      have hFlips : s.flipped.tail.length = History.level older := by
        rw [List.length_tail, hSteady.flips, hLevel, hBelow]
        rfl
      let next : Search :=
        { s.record (s.pairing.engine.undo below).notes with
          pairing := ⟨(s.pairing.engine.undo below).engine, stack⟩
          flipped := s.flipped.tail }
      refine ⟨next, newer, l, older, ?_, hSplit, hNewer, hBelow, rfl,
        rfl, ⟨⟨hRest, hSize.trans hSteady.size, hFlips⟩, hReady, hLt, ?_⟩⟩
      · simp only [Search.leaveLevel, bind_eq_ok, pure_eq_ok]
        exact ⟨_, hRange, _, hLiteral, _, hJump, (), hUndo, rfl⟩
      · exact (hRest.inStep.records.value_eq l.index).trans hOpen

/-
  What going down finds: every decision was flipped before,
  or there is a last one that was not. It is taken back with
  all that came after it.
-/
inductive Found
    (store : Store)
    (config : Config)
    (h : History Unit)
    (flips : List Bool)
    (s' : Search) : Option Literal → Prop where
  | nothing
      (hAll : ∀ flag ∈ flips, flag = true) :
      Found store config h flips s' none
  | decision {newer older : History Unit} {l : Literal}
      (hSplit : h = newer ++ (l, .decision) :: older)
      (hFlags :
        flips = List.replicate newer.level true ++ false :: s'.flipped)
      (hPoised : Poised store config older s' l.index) :
      Found store config h flips s' (some l.negate)

/- Below a decision that was flipped, the same is found. -/
theorem Found.below
    {newer older : History Unit}
    {l : Literal}
    {flips : List Bool}
    {s' : Search}
    {flipped? : Option Literal}
    (hFound : Found store config older flips s' flipped?)
    (hSplit : h = newer ++ (l, .decision) :: older)
    (hNewer : newer.level = 0) :
    Found store config h (true :: flips) s' flipped? := by
  cases hFound with
  | nothing hAll =>
      exact .nothing (List.forall_mem_cons.mpr ⟨rfl, hAll⟩)
  | @decision above bottom k hBelow hFlags hPoised =>
      let top : History Unit := newer ++ (l, .decision) :: above
      have hLevel : top.level = above.level + 1 := by
        rw [History.level_append, hNewer, History.level_cons]
        exact Nat.zero_add _
      have hWhole : h = top ++ (k, .decision) :: bottom := by
        rw [hSplit, hBelow, List.append_assoc, List.cons_append]
      refine .decision hWhole ?_ hPoised
      rw [hFlags, hLevel, List.replicate_succ, List.cons_append]

/- Going down from a level does not fail. -/
theorem Steady.flip
    (hSteady : Steady store config h s)
    (hStore : store.WellFormed)
    {level : Nat}
    (hLevel : h.level = level)
    (hState : ∀ k, s.pairing.engine.state = .conflicted k → level ≤ k) :
    ∃ s' flipped?, s.flip level = .ok (s', flipped?) ∧
      s'.effort = s.effort ∧
      Found store config h s.flipped s' flipped? := by
  induction level generalizing h s with
  | zero =>
      have hNone := hSteady.flips
      rw [hLevel, List.length_eq_zero_iff] at hNone
      refine ⟨s, none, rfl, rfl, .nothing ?_⟩
      rw [hNone]
      exact List.forall_mem_nil _
  | succ below ih =>
      rcases hSteady.leaveLevel hStore hLevel hState with
        ⟨left, newer, decision, older, hLeave, hSplit, hNewer, hBelow,
          hTail, hEffort, hPoised⟩
      have hFlips := hSteady.flips
      rw [hLevel] at hFlips
      rcases List.exists_cons_of_length_eq_add_one hFlips with
        ⟨flag, flips, hCons⟩
      rw [hCons, List.tail_cons] at hTail
      have hHead : s.flipped.head?.getD true = flag := by
        rw [hCons]
        rfl
      cases flag with
      | true =>
          -- The decision was flipped before, so the search for one
          -- that was not goes on below.
          have hQuiet : ∀ k, left.pairing.engine.state =
              .conflicted k → below ≤ k := by
            intro k hConflict
            cases hPoised.ready.symm.trans hConflict
          rcases ih hPoised.toSteady hBelow hQuiet with
            ⟨s', flipped?, hFlip, hSame, hFound⟩
          refine ⟨s', flipped?, ?_, hSame.trans hEffort, ?_⟩
          · simp only [Search.flip, hHead, hLeave, bind, Except.bind]
            exact hFlip
          · rw [hTail] at hFound
            rw [hCons]
            exact hFound.below hSplit hNewer
      | false =>
          refine ⟨left.record [.flipped decision (below + 1)],
            some decision.negate, ?_, hEffort, ?_⟩
          · simp only [Search.flip, hHead, hLeave, bind, Except.bind]
            rfl
          · refine .decision hSplit ?_
              ⟨⟨hPoised.rest, hPoised.size, hPoised.flips⟩,
                hPoised.ready, hPoised.inRange, hPoised.isOpen⟩
            rw [hCons, ← hTail, hNewer]
            rfl

------------------------------------------------------------
-- Accepting a model
------------------------------------------------------------

/- Without open variables, the values are those of a solution. -/
theorem Underway.exists_solution
    (hUnderway : Underway store config h s false)
    (hStore : store.WellFormed)
    (hOpen : s.lowestOpen? = none) :
    ∃ a : Assignment, store.Holds a ∧ h.Agrees a ∧
      ∀ i < store.numVariables, h.value i = some (a i) := by
  have hRest := hUnderway.rest
  have hRecords := hRest.inStep.records
  let a : Assignment := overlay h.value fun _ => false
  have hExtends : Extends a h.value := extends_overlay h.value _
  have hTotal : ∀ i < store.numVariables, h.value i = some (a i) := by
    intro i hLt
    rw [← hUnderway.size] at hLt
    have hSome := List.find?_range_eq_none.mp hOpen i hLt
    rw [hRecords.value_eq] at hSome
    cases hValue : h.value i with
    | none =>
        rw [hValue] at hSome
        cases hSome
    | some b => rw [hExtends i b hValue]
  have hStable :=
    (hRest.here hUnderway.state).stable hStore hRest.inStep
  refine ⟨a, ?_, ?_, hTotal⟩
  · intro c hMem
    refine hStable.holds_given hStore hMem (fun v hVar => ?_) hExtends
    have hRelevant := (hStore.isRelevant_iff v).mpr ⟨c, hMem, hVar⟩
    rw [hTotal v (hStore.lt_of_isRelevant hRelevant)]
    rfl
  · intro entry hMem
    apply hExtends entry.1.index entry.1.value
    rw [History.value_eq_some_iff hRecords.distinct]
    exact List.mem_map_of_mem hMem

theorem exists_phases
    (s : Search) :
    ∃ model, s.phases = .ok model := by
  apply exists_mapM
  intro i hMem
  have hGet := Table.get_of_lt (List.mem_range.mp hMem)
  exact ⟨_, map_eq_ok.mpr ⟨_, map_eq_ok.mpr ⟨_, hGet, rfl⟩, rfl⟩⟩

/- A solution that the search has in full is accepted. -/
theorem Underway.acceptModel
    (hUnderway : Underway store config h s false)
    (hNamed : Store.ofNamed declared named = .ok store)
    {a : Assignment}
    (hHolds : store.Holds a)
    (hTotal : ∀ i < store.numVariables, h.value i = some (a i)) :
    ∃ solution, s.acceptModel = .ok solution ∧
      solution.effort = s.effort := by
  have hIn := hUnderway.rest.inStep
  have hSame := hIn.regular.sameStore
  rcases s.exists_phases with ⟨model, hPhases⟩
  have hCheck : (s.pairing.engine.check
      s.pairing.stack.host).2 = .ok .ok := by
    apply (Engine.check_eq_ok_iff_holds (a := a)
      (hSame.symm ▸ hNamed) ?_ ?_).mpr
    · rw [hSame]
      exact hHolds
    · rw [hSame]
      exact Nat.le_of_eq hUnderway.size.symm
    · rw [hSame]
      exact fun v hLt => (hIn.records.value_eq v).trans (hTotal v hLt)
  refine ⟨(s.record (s.pairing.engine.check
    s.pairing.stack.host).1).finish (some model), ?_, rfl⟩
  simp only [Search.acceptModel, bind_eq_ok, pure_eq_ok,
    require_eq_ok, exists_const, decide_eq_true_eq]
  exact ⟨.ok, hCheck, rfl, model, hPhases, rfl⟩

------------------------------------------------------------
-- One round
------------------------------------------------------------

/-
  What a round does. Without a conflict it accepts a model or
  decides the lowest open variable, and after one it gives up
  or flips the last decision that was not flipped.
-/
inductive Turn
    (store : Store)
    (config : Config)
    (h : History Unit)
    (s : Search) : Bool → Progress → Prop where
  | accept {a : Assignment} {solution : Solution}
      (hHolds : store.Holds a)
      (hAgrees : h.Agrees a)
      (hTotal : ∀ i < store.numVariables, h.value i = some (a i))
      (hEffort : solution.effort = s.effort) :
      Turn store config h s false (.finished solution)
  | branch {v : Nat} {d : Drain} {h' : History Unit} {s' : Search}
      (hLowest : h.LowestOpen store.numVariables v)
      (hEnds :
        Pairing.EndsAt store config ((⟨v, false⟩, .decision) :: h)
          store.numVariables d h')
      (hFlags : s'.flipped = false :: s.flipped)
      (hEffort : s'.effort = (s.decisions + 1, s.conflicts))
      (hNext : Underway store config h' s' d.isConflict) :
      Turn store config h s false (.going s' d.isConflict)
  | giveUp {solution : Solution}
      (hAll : ∀ flag ∈ s.flipped, flag = true)
      (hEffort :
        solution.effort = (s.decisions, s.conflicts + 1)) :
      Turn store config h s true (.finished solution)
  | flip {newer older h' : History Unit} {l : Literal}
      {flips : List Bool} {d : Drain} {s' : Search}
      (hSplit : h = newer ++ (l, .decision) :: older)
      (hBefore :
        s.flipped = List.replicate newer.level true ++ false :: flips)
      (hEnds :
        Pairing.EndsAt store config ((l.negate, .decision) :: older)
          store.numVariables d h')
      (hFlags : s'.flipped = true :: flips)
      (hEffort : s'.effort = (s.decisions, s.conflicts + 1))
      (hNext : Underway store config h' s' d.isConflict) :
      Turn store config h s true (.going s' d.isConflict)

theorem Turn.underway
    {s' : Search}
    {conflict' : Bool}
    (hTurn : Turn store config h s conflict (.going s' conflict')) :
    ∃ h', Underway store config h' s' conflict' := by
  cases hTurn with
  | branch _ _ _ _ hNext => exact ⟨_, hNext⟩
  | flip _ _ _ _ _ hNext => exact ⟨_, hNext⟩

theorem Underway.lowestOpen
    (hUnderway : Underway store config h s conflict)
    {v : Nat}
    (hOpen : s.lowestOpen? = some v) :
    h.LowestOpen store.numVariables v := by
  have hRecords := hUnderway.rest.inStep.records
  rcases List.find?_range_eq_some.mp hOpen with ⟨hNone, hIn, hLower⟩
  refine ⟨?_, ?_, ?_⟩
  · rw [← hUnderway.size]
    exact List.mem_range.mp hIn
  · rw [← hRecords.value_eq]
    exact Option.isNone_iff_eq_none.mp hNone
  · intro i hLt hFree
    have hBelow := hLower i hLt
    rw [hRecords.value_eq, hFree] at hBelow
    cases hBelow

theorem Underway.extend
    (hUnderway : Underway store config h s false)
    (hNamed : Store.ofNamed declared named = .ok store) :
    ∃ progress, s.extend = .ok progress ∧
      Turn store config h s false progress := by
  have hStore := Store.wellFormed_of_ofNamed hNamed
  unfold Search.extend
  cases hOpen : s.lowestOpen? with
  | none =>
      rcases hUnderway.exists_solution hStore hOpen with
        ⟨a, hHolds, hAgrees, hTotal⟩
      rcases hUnderway.acceptModel hNamed hHolds hTotal with
        ⟨solution, hAccept, hEffort⟩
      exact ⟨.finished solution,
        bind_eq_ok.mpr ⟨solution, hAccept, rfl⟩,
        .accept hHolds hAgrees hTotal hEffort⟩
  | some v =>
      have hLowest := hUnderway.lowestOpen hOpen
      have hPoised : Poised store config h
          { s with decisions := s.decisions + 1 } v :=
        ⟨⟨hUnderway.rest, hUnderway.size, hUnderway.flips⟩,
          hUnderway.state, hLowest.lt,
          (hUnderway.rest.inStep.records.value_eq v).trans
            hLowest.isOpen⟩
      rcases Poised.decide (l := ⟨v, false⟩) hStore hPoised false with
        ⟨s', d, h', hDecide, hEnds, hFlags, hEffort, hNext⟩
      exact ⟨.going s' d.isConflict,
        bind_eq_ok.mpr ⟨(s', d.isConflict), hDecide, rfl⟩,
        .branch hLowest hEnds hFlags hEffort hNext⟩

theorem Underway.retreat
    (hUnderway : Underway store config h s true)
    (hStore : store.WellFormed) :
    ∃ progress, s.retreat = .ok progress ∧
      Turn store config h s true progress := by
  have hLevel := hUnderway.rest.inStep.records.level_eq
  have hCounted : Steady store config h
      { s with conflicts := s.conflicts + 1 } :=
    ⟨hUnderway.rest, hUnderway.size, hUnderway.flips⟩
  have hState : ∀ k, s.pairing.engine.state = .conflicted k →
      s.pairing.stack.level ≤ k := by
    intro k hConflict
    cases hUnderway.state.symm.trans hConflict
    exact Nat.le_of_eq hLevel
  rcases hCounted.flip hStore hLevel.symm hState with
    ⟨left, flipped?, hFlip, hLeft, hFound⟩
  cases hFound with
  | nothing hAll =>
      exact ⟨.finished (left.finish none),
        bind_eq_ok.mpr ⟨(left, none), hFlip, rfl⟩,
        .giveUp hAll hLeft⟩
  | @decision newer older l hSplit hBefore hPoised =>
      rcases Poised.decide (l := l.negate) hStore hPoised true with
        ⟨s', d, h', hDecide, hEnds, hFlags, hEffort, hNext⟩
      refine ⟨.going s' d.isConflict, ?_,
        .flip hSplit hBefore hEnds hFlags (hEffort.trans hLeft) hNext⟩
      refine bind_eq_ok.mpr ⟨(left, some l.negate), hFlip, ?_⟩
      exact bind_eq_ok.mpr ⟨(s', d.isConflict), hDecide, rfl⟩

/- Each round succeeds. -/
theorem Underway.advance
    (hUnderway : Underway store config h s conflict)
    (hNamed : Store.ofNamed declared named = .ok store) :
    ∃ progress, s.advance conflict = .ok progress ∧
      Turn store config h s conflict progress := by
  cases conflict with
  | true =>
      exact hUnderway.retreat (Store.wellFormed_of_ofNamed hNamed)
  | false => exact hUnderway.extend hNamed

------------------------------------------------------------
-- The beginning
------------------------------------------------------------

/- How the search for a model of a store begins. -/
def Begins
    (store : Store)
    (config : Config)
    (threshold? : Option Severity)
    (s : Search)
    (conflict : Bool) : Prop :=
  ∃ engine, Engine.ofStore store config = .ok engine ∧
    let pairing : Pairing :=
      ⟨engine, DecisionStack.withVariables store.numVariables⟩
    (Search.record ⟨pairing, [], 0, 0, threshold?, []⟩
      (Engine.setupNotes store config)).settled
        (pairing.start .held) = .ok (s, conflict)

/-
  The beginning succeeds. Nothing is decided yet, and the
  drain has found what follows from the constraints.
-/
theorem exists_begins
    (hStore : store.WellFormed)
    (config : Config)
    (threshold? : Option Severity) :
    ∃ s d h, Begins store config threshold? s d.isConflict ∧
      Pairing.EndsAt store config [] store.numVariables d h ∧
      s.flipped = [] ∧ s.effort = (0, 0) ∧
      Underway store config h s d.isConflict := by
  rcases Engine.exists_engine hStore config with ⟨e, hEngine⟩
  rcases Pairing.exists_start hStore Demand.fair_held hEngine
    (Nat.le_refl _) rfl [] with ⟨h, hEnds⟩
  rw [Pairing.settleBy_nil] at hEnds
  let pairing : Pairing :=
    ⟨e, DecisionStack.withVariables store.numVariables⟩
  let first : Search :=
    Search.record ⟨pairing, [], 0, 0, threshold?, []⟩
      (Engine.setupNotes store config)
  rcases exists_settled (s := first) hEnds rfl rfl with
    ⟨s, hSettled, hFlipped, hEffort, hUnderway⟩
  exact ⟨s, _, h, ⟨e, hEngine, hSettled⟩, hEnds, hFlipped, hEffort,
    hUnderway⟩

/- There is one beginning. -/
theorem Begins.unique
    {threshold? : Option Severity}
    {s' : Search}
    {conflict' : Bool}
    (hFirst : Begins store config threshold? s conflict)
    (hSecond : Begins store config threshold? s' conflict') :
    s = s' ∧ conflict = conflict' := by
  rcases hFirst with ⟨e, hEngine, hSettled⟩
  rcases hSecond with ⟨e', hEngine', hSettled'⟩
  cases hEngine.symm.trans hEngine'
  cases hSettled.symm.trans hSettled'
  exact ⟨rfl, rfl⟩

end Search

/- Solving is beginning and going on. -/
theorem Store.solve_eq_ok_iff
    {store : Store}
    {config : Config}
    {threshold? : Option Severity}
    {solution : Solution} :
    store.solve config threshold? = .ok solution ↔
      ∃ s conflict, Search.Begins store config threshold? s conflict ∧
        Search.run (Search.roundLimit store.numVariables) s conflict =
          .ok solution := by
  constructor
  · intro hSolve
    rcases bind_eq_ok.mp hSolve with ⟨e, hEngine, hRest⟩
    rcases bind_eq_ok.mp hRest with ⟨⟨s, conflict⟩, hSettled, hRun⟩
    exact ⟨s, conflict, ⟨e, hEngine, hSettled⟩, hRun⟩
  · rintro ⟨s, conflict, ⟨e, hEngine, hSettled⟩, hRun⟩
    refine bind_eq_ok.mpr ⟨e, hEngine, ?_⟩
    exact bind_eq_ok.mpr ⟨(s, conflict), hSettled, hRun⟩

end ParitySolver
