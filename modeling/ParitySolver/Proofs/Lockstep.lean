import Mathlib.Data.List.Perm.Subperm
import ParitySolver.Proofs.Cutoff
import ParitySolver.Proofs.Drain
import ParitySolver.Session

/-
  The strategies that eliminate cannot be told apart. They
  find different literals in different orders, and each host
  is free to serve its queue as it likes. But at the end of a
  drain the values of the host are exactly the consequences
  of its decisions, and there is a conflict exactly if the
  decisions have no solution. So hosts that decide the same
  literals end with the same values.

  Key definitions include:
    * `Store.Solves`
    * `Pairing.move`
    * `Pairing.RestsOn`
    * `Team.Reached`

  Main declarations:
    * `Cutoff.admitsAll_zero`
    * `Pairing.AtRest.value_eq_some_iff`
    * `Pairing.EndsAt.isConflict_iff`
    * `Session.step_of_move`
    * `Team.Reached.restsOn`
    * `Team.strategies_agree`
-/

namespace ParitySolver

variable {store : Store} {config : Config} {h : History Unit}
variable {n : Nat}

------------------------------------------------------------
-- Enough is assigned at all times
------------------------------------------------------------

/- The cutoff lets elimination run, whatever is assigned. -/
def Cutoff.AdmitsAll
    (cutoff : Cutoff)
    (store : Store) : Prop :=
  ∀ k ≤ store.numColumns, cutoff.admits k store.numColumns = true

/- The cutoff zero does, since no store has room for more columns. -/
theorem Cutoff.admitsAll_zero
    {declared : List Literal}
    {named : List (Nat × Constraint)}
    (hStore : Store.ofNamed declared named = .ok store) :
    Cutoff.AdmitsAll ⟨0.0⟩ store := by
  have hFits := Store.fits_of_ofNamed hStore
  have hColumns := Store.numColumns_le_of_ofNamed hStore
  unfold Table.Fits at hFits
  intro k hLe
  exact Cutoff.admits_zero (by omega) (by omega)

/- Each relevant variable is on the trail at most once. -/
theorem Engine.Intact.size_le
    (hStore : store.WellFormed)
    {e : Engine}
    (hIntact : e.Intact store config) :
    e.trail.size ≤ store.numColumns := by
  have hDistinct :=
    (hIntact.regular.consistent hStore).orderly.distinct
  have hSubset :
      (e.trail.entries.map fun entry => entry.literal.index) ⊆
        store.variableTable.toList := by
    intro v hMem
    rcases List.mem_map.mp hMem with ⟨entry, hEntry, rfl⟩
    rcases Option.isSome_iff_exists.mp
      (hIntact.relevant entry hEntry) with ⟨column, hColumn⟩
    have hAt :=
      (hStore.columnOf?_eq_some_iff _ column).mp hColumn
    exact Array.mem_toList_iff.mpr (Array.mem_of_getElem? hAt)
  have hLength := (hDistinct.subperm hSubset).length_le
  rwa [List.length_map, Array.length_toList] at hLength

------------------------------------------------------------
-- The consequences of decisions
------------------------------------------------------------

/- The assignment is a solution in which the literals hold. -/
def Store.Solves
    (store : Store)
    (ls : List Literal)
    (a : Assignment) : Prop :=
  store.Holds a ∧ ∀ l ∈ ls, l.Holds a

/- An assignment with the values of the history has its decisions. -/
theorem History.holds_of_extends
    (hDistinct : (h.map fun entry => entry.1.index).Nodup)
    {a : Assignment}
    (hExtends : Extends a h.value) :
    ∀ l ∈ h.decided, l.Holds a := by
  intro l hMem
  apply hExtends l.index l.value
  rw [History.value_eq_some_iff hDistinct]
  exact History.mem_of_mem_decided hMem

namespace Pairing

variable {p : Pairing}

theorem AtRest.flexible
    (hRest : AtRest store config h p)
    (hStore : store.WellFormed)
    (hReady : p.engine.state = .ready)
    (hStrategy : config.strategy.usesElimination = true)
    (hAdmits : config.cutoff.AdmitsAll store) :
    store.Flexible h.value :=
  (hRest.here hReady).flexible hStore hRest.inStep
    ⟨hStrategy,
      hAdmits _ ((hRest.reachable.intact hStore).size_le hStore)⟩

/- The values of a host at rest are the consequences of its decisions. -/
theorem AtRest.value_eq_some_iff
    (hRest : AtRest store config h p)
    (hStore : store.WellFormed)
    (hReady : p.engine.state = .ready)
    (hStrategy : config.strategy.usesElimination = true)
    (hAdmits : config.cutoff.AdmitsAll store)
    (v : Nat)
    (b : Bool) :
    p.stack.value v = some b ↔
      ∀ a, store.Solves h.decided a → a v = b := by
  have hFlexible :=
    hRest.flexible hStore hReady hStrategy hAdmits
  have hRecords := hRest.inStep.records
  rw [hRecords.value_eq]
  constructor
  · intro hValue a hSolves
    exact (hRest.derived.agrees hSolves.1 hSolves.2).eq_of_value
      hValue
  · intro hAll
    cases hValue : h.value v with
    | some c =>
        rcases hFlexible.solution with ⟨a, hExtends, hHolds⟩
        have hDecided :=
          History.holds_of_extends hRecords.distinct hExtends
        rw [← hAll a ⟨hHolds, hDecided⟩, hExtends v c hValue]
    | none =>
        -- The variable is open, so it could be the other way.
        rcases hFlexible.either v hValue (!b) with
          ⟨a, hExtends, hHolds, hOther⟩
        have hDecided :=
          History.holds_of_extends hRecords.distinct hExtends
        rw [hAll a ⟨hHolds, hDecided⟩] at hOther
        simp at hOther

/- A drain ends in a conflict if the decisions have no solution. -/
theorem EndsAt.isConflict_iff
    {d : Drain}
    {h' : History Unit}
    (hEnds : EndsAt store config h n d h')
    (hStore : store.WellFormed)
    (hStrategy : config.strategy.usesElimination = true)
    (hAdmits : config.cutoff.AdmitsAll store) :
    d.isConflict = true ↔ ∀ a, ¬ store.Solves h.decided a := by
  have hRest := hEnds.rest
  rw [← hEnds.decided]
  constructor
  · intro hConflict a hSolves
    exact hEnds.excludes hConflict a hSolves.1
      (hRest.derived.agrees hSolves.1 hSolves.2)
  · intro hNone
    cases hFlag : d.isConflict with
    | true => rfl
    | false =>
        have hReady : d.pairing.engine.state = .ready := by
          rw [hEnds.state, hFlag]
          rfl
        rcases (hRest.flexible hStore hReady hStrategy
          hAdmits).solution with ⟨a, hExtends, hHolds⟩
        exact absurd ⟨hHolds, History.holds_of_extends
          hRest.inStep.records.distinct hExtends⟩ (hNone a)

------------------------------------------------------------
-- Moves
------------------------------------------------------------

/- What can be done with an engine and its host. -/
inductive Move where
  /- Decide a literal, tell the engine, and drain. -/
  | branch (l : Literal)
  /- Take both back to a level. -/
  | back (level : Nat)

/- The pairing after a drain, and whether it ended in a conflict. -/
def ofDrain
    (d : Drain) : Except Fault (Pairing × Bool) :=
  d.outcome.map fun _ => (d.pairing, d.isConflict)

/-
  A fresh engine with a fresh host that asks what follows
  from the constraints, and drains.
-/
def launch
    (store : Store)
    (config : Config)
    (numVariables : Nat)
    (picks : List Nat) : Except Fault (Pairing × Bool) := do
  let engine ← Engine.ofStore store config
  let stack := DecisionStack.withVariables numVariables
  ofDrain (settleBy .none picks stack
    (engine.initialPropagation stack.host))

/- One move. Only a decision can end in a conflict. -/
def move
    (p : Pairing)
    (picks : List Nat) : Move → Except Fault (Pairing × Bool)
  | .branch l => do
      let stack ← p.stack.assign l .decision
      ofDrain (settleBy .none picks stack
        (p.engine.propagate stack.host l))
  | .back level => do
      let stack ← p.stack.backjump level
      let reply := p.engine.undo level
      reply.outcome
      return (⟨reply.engine, stack⟩, false)

/-
  A host decides open variables, while the engine is ready,
  and goes back to levels that it has reached.
-/
def Permits
    (p : Pairing) : Move → Prop
  | .branch l =>
      p.engine.state = .ready ∧ l.index < p.stack.numVariables ∧
        p.stack.value l.index = none
  | .back level => level ≤ p.stack.level

/-
  The pairing is at rest on some decisions, newest first, and
  its engine is in a given state.
-/
def RestsOn
    (store : Store)
    (config : Config)
    (numVariables : Nat)
    (decisions : List Literal)
    (state : EngineState)
    (p : Pairing) : Prop :=
  ∃ h, AtRest store config h p ∧ h.decided = decisions ∧
    p.stack.numVariables = numVariables ∧ p.engine.state = state

theorem EndsAt.ofDrain
    {d : Drain}
    {h' : History Unit}
    (hEnds : EndsAt store config h n d h') :
    Pairing.ofDrain d = .ok (d.pairing, d.isConflict) := by
  rw [Pairing.ofDrain, hEnds.outcome]
  rfl

/- The state of an engine after a drain at a level. -/
def stateAt
    (level : Nat)
    (conflict : Bool) : EngineState :=
  if conflict then .conflicted level else .ready

theorem EndsAt.restsOn
    {d : Drain}
    {h' : History Unit}
    (hEnds : EndsAt store config h n d h') :
    RestsOn store config n h.decided
      (stateAt h.decided.length d.isConflict) d.pairing := by
  refine ⟨h', hEnds.rest, hEnds.decided, hEnds.size, ?_⟩
  rw [hEnds.state, hEnds.level, History.length_decided]
  rfl

/-
  Starting does not fail, and there is a conflict exactly if
  the constraints have no solution.
-/
theorem exists_launch
    (hStore : store.WellFormed)
    (hStrategy : config.strategy.usesElimination = true)
    (hAdmits : config.cutoff.AdmitsAll store)
    (hSize : store.numVariables ≤ n)
    {conflict : Bool}
    (hConflict : conflict = true ↔ ∀ a, ¬ store.Solves [] a)
    (picks : List Nat) :
    ∃ p, launch store config n picks = .ok (p, conflict) ∧
      RestsOn store config n [] (stateAt 0 conflict) p := by
  rcases Engine.exists_engine hStore config with ⟨e, hEngine⟩
  rcases exists_start hStore Demand.fair_none hEngine hSize rfl picks
    with ⟨h, hEnds⟩
  have hFlag := Bool.eq_iff_iff.mpr
    ((hEnds.isConflict_iff hStore hStrategy hAdmits).trans
      hConflict.symm)
  have hRests := hEnds.restsOn
  rw [hFlag] at hRests
  refine ⟨_, bind_eq_ok.mpr ⟨e, hEngine, ?_⟩, hRests⟩
  rw [hEnds.ofDrain, hFlag]

/-
  Deciding an open variable does not fail, and there is a
  conflict exactly if the decisions have no solution.
-/
theorem RestsOn.branch
    {decisions : List Literal}
    (hRests : RestsOn store config n decisions .ready p)
    (hStore : store.WellFormed)
    (hStrategy : config.strategy.usesElimination = true)
    (hAdmits : config.cutoff.AdmitsAll store)
    {l : Literal}
    (hLt : l.index < p.stack.numVariables)
    (hOpen : p.stack.value l.index = none)
    {conflict : Bool}
    (hConflict :
      conflict = true ↔ ∀ a, ¬ store.Solves (l :: decisions) a)
    (picks : List Nat) :
    ∃ p', p.move picks (.branch l) = .ok (p', conflict) ∧
      RestsOn store config n (l :: decisions)
        (stateAt (decisions.length + 1) conflict) p' := by
  rcases hRests with ⟨h, hRest, rfl, rfl, hReady⟩
  rcases hRest.follow hStore Demand.fair_none hReady hLt hOpen picks
    with ⟨stack, hAssign, h', hEnds⟩
  have hFlag := Bool.eq_iff_iff.mpr
    ((hEnds.isConflict_iff hStore hStrategy hAdmits).trans
      hConflict.symm)
  have hAfter := hEnds.restsOn
  rw [hFlag] at hAfter
  refine ⟨_, bind_eq_ok.mpr ⟨stack, hAssign, ?_⟩, hAfter⟩
  rw [hEnds.ofDrain, hFlag]

/- Going back does not fail, and older decisions remain. -/
theorem RestsOn.back
    {decisions : List Literal}
    {state : EngineState}
    (hRests : RestsOn store config n decisions state p)
    (hStore : store.WellFormed)
    {level : Nat}
    (hLevel : level ≤ p.stack.level)
    (picks : List Nat) :
    ∃ p', p.move picks (.back level) = .ok (p', false) ∧
      RestsOn store config n
        (decisions.drop (decisions.length - level))
        (Engine.stateAfterUndo state level) p' := by
  rcases hRests with ⟨h, hRest, rfl, rfl, rfl⟩
  rw [hRest.inStep.records.level_eq] at hLevel
  rcases hRest.back hStore hLevel with
    ⟨stack, hJump, hUndo, hAfter, hSize, hState⟩
  refine ⟨_, bind_eq_ok.mpr ⟨stack, hJump, ?_⟩,
    h.backTo level, hAfter, ?_, hSize, hState⟩
  · exact bind_eq_ok.mpr ⟨(), hUndo, rfl⟩
  · rw [History.decided_backTo, History.length_decided]

end Pairing

------------------------------------------------------------
-- Sessions make moves
------------------------------------------------------------

/- A session starts as a host that makes no choices does. -/
theorem Session.start_of_launch
    {p : Pairing}
    {conflict : Bool}
    (hLaunch :
      Pairing.launch store config n [] = .ok (p, conflict)) :
    ∃ e, Engine.ofStore store config = .ok e ∧
      ((Session.ofEngine e n).step .start).1.pairing = p ∧
      ((Session.ofEngine e n).step .start).2.outcome =
        .ok .done := by
  rcases bind_eq_ok.mp hLaunch with ⟨e, hEngine, hDrain⟩
  simp only [Pairing.settleBy_nil] at hDrain
  rcases map_eq_ok.mp hDrain with ⟨_, hOutcome, hResult⟩
  cases hResult
  refine ⟨e, hEngine, rfl, ?_⟩
  exact map_eq_ok.mpr ⟨(), hOutcome, rfl⟩

/- The step of a session that makes a move. -/
def Pairing.Move.step : Pairing.Move → Step
  | .branch l => .branch l
  | .back level => .back level

/- A session makes the moves of a host that makes no choices. -/
theorem Session.step_of_move
    {s : Session}
    {m : Pairing.Move}
    {p : Pairing}
    {conflict : Bool}
    (hMove : s.pairing.move [] m = .ok (p, conflict)) :
    (s.step m.step).1.pairing = p ∧
      (s.step m.step).2.outcome = .ok .done := by
  cases m with
  | branch l =>
      rcases bind_eq_ok.mp hMove with ⟨stack, hAssign, hDrain⟩
      rw [Pairing.settleBy_nil] at hDrain
      rcases map_eq_ok.mp hDrain with ⟨_, hOutcome, hResult⟩
      cases hResult
      simp only [Pairing.Move.step, step, changeStack, hAssign]
      refine ⟨rfl, ?_⟩
      exact map_eq_ok.mpr ⟨(), hOutcome, rfl⟩
  | back level =>
      rcases bind_eq_ok.mp hMove with ⟨stack, hJump, hRest⟩
      rcases bind_eq_ok.mp hRest with ⟨_, hUndo, hResult⟩
      cases hResult
      simp only [Pairing.Move.step, step, changeStack, hJump]
      refine ⟨rfl, ?_⟩
      exact map_eq_ok.mpr ⟨(), hUndo, rfl⟩

------------------------------------------------------------
-- Teams
------------------------------------------------------------

/- The strategies that eliminate. -/
abbrev Eliminating : Type :=
  {strategy : Strategy // strategy.usesElimination = true}

/- One engine for each strategy that eliminates, with its host. -/
abbrev Team : Type :=
  Eliminating → Pairing

namespace Team

variable {cutoff : Cutoff} {display : Bool} {team : Team}

/-
  The teams that start together and make the same permitted
  moves. Each host serves its queue in an order of its own.
-/
inductive Reached
    (store : Store)
    (cutoff : Cutoff)
    (display : Bool)
    (numVariables : Nat) : Team → Prop where
  | start {team : Team} {conflicts : Eliminating → Bool}
      (picks : Eliminating → List Nat)
      (hStart : ∀ s,
        Pairing.launch store ⟨s.1, cutoff, display⟩ numVariables
          (picks s) = .ok (team s, conflicts s)) :
      Reached store cutoff display numVariables team
  | move {team next : Team} {conflicts : Eliminating → Bool}
      (hBefore : Reached store cutoff display numVariables team)
      (m : Pairing.Move)
      (hPermits : ∀ s, (team s).Permits m)
      (picks : Eliminating → List Nat)
      (hMove : ∀ s,
        (team s).move (picks s) m = .ok (next s, conflicts s)) :
      Reached store cutoff display numVariables next

/- All engines and hosts are at rest on the same decisions. -/
def RestsOn
    (store : Store)
    (cutoff : Cutoff)
    (display : Bool)
    (numVariables : Nat)
    (decisions : List Literal)
    (state : EngineState)
    (team : Team) : Prop :=
  ∀ s, Pairing.RestsOn store ⟨s.1, cutoff, display⟩ numVariables
    decisions state (team s)

theorem exists_flag
    (P : Prop) :
    ∃ flag : Bool, flag = true ↔ P := by
  classical
  exact ⟨decide P, decide_eq_true_iff⟩

/- Starting together, all end in a conflict or none. -/
theorem exists_launch
    (hStore : store.WellFormed)
    (hAdmits : cutoff.AdmitsAll store)
    (hSize : store.numVariables ≤ n)
    (display : Bool)
    (picks : Eliminating → List Nat) :
    ∃ conflict state, ∀ s, ∃ p,
      Pairing.launch store ⟨s.1, cutoff, display⟩ n (picks s) =
          .ok (p, conflict) ∧
        Pairing.RestsOn store ⟨s.1, cutoff, display⟩ n [] state p := by
  rcases exists_flag (∀ a, ¬ store.Solves [] a) with
    ⟨conflict, hConflict⟩
  refine ⟨conflict, Pairing.stateAt 0 conflict, fun s => ?_⟩
  have hConfig :
      (Config.mk s.1 cutoff display).strategy.usesElimination = true :=
    s.2
  exact Pairing.exists_launch hStore hConfig hAdmits hSize hConflict
    (picks s)

/- A permitted move ends in a conflict for all or for none. -/
theorem RestsOn.exists_move
    {decisions : List Literal}
    {state : EngineState}
    (hRests : RestsOn store cutoff display n decisions state team)
    (hStore : store.WellFormed)
    (hAdmits : cutoff.AdmitsAll store)
    {m : Pairing.Move}
    (hPermits : ∀ s, (team s).Permits m)
    (picks : Eliminating → List Nat) :
    ∃ conflict decisions' state', ∀ s, ∃ p,
      (team s).move (picks s) m = .ok (p, conflict) ∧
        Pairing.RestsOn store ⟨s.1, cutoff, display⟩ n decisions'
          state' p := by
  cases m with
  | branch l =>
      rcases exists_flag (∀ a, ¬ store.Solves (l :: decisions) a) with
        ⟨conflict, hConflict⟩
      refine ⟨conflict, l :: decisions,
        Pairing.stateAt (decisions.length + 1) conflict, fun s => ?_⟩
      rcases hPermits s with ⟨hReady, hLt, hOpen⟩
      have hHere := hRests s
      have hState : state = .ready := by
        rcases hHere with ⟨_, _, _, _, hState⟩
        exact hState.symm.trans hReady
      rw [hState] at hHere
      exact hHere.branch hStore s.2 hAdmits hLt hOpen hConflict
        (picks s)
  | back level =>
      refine ⟨false, decisions.drop (decisions.length - level),
        Engine.stateAfterUndo state level, fun s => ?_⟩
      exact (hRests s).back hStore (hPermits s) (picks s)

/- A team that was reached is at rest on common decisions. -/
theorem Reached.restsOn
    (hStore : store.WellFormed)
    (hAdmits : cutoff.AdmitsAll store)
    (hSize : store.numVariables ≤ n)
    (hReached : Reached store cutoff display n team) :
    ∃ decisions state,
      RestsOn store cutoff display n decisions state team := by
  induction hReached with
  | start picks hStart =>
      rcases exists_launch hStore hAdmits hSize display picks with
        ⟨conflict, state, hAll⟩
      refine ⟨[], state, fun s => ?_⟩
      rcases hAll s with ⟨p, hLaunch, hRests⟩
      cases (hStart s).symm.trans hLaunch
      exact hRests
  | move _ m hPermits picks hMove ih =>
      rcases ih with ⟨decisions, state, hBefore⟩
      rcases hBefore.exists_move hStore hAdmits hPermits picks with
        ⟨conflict, decisions', state', hAll⟩
      refine ⟨decisions', state', fun s => ?_⟩
      rcases hAll s with ⟨p, hDone, hRests⟩
      cases (hMove s).symm.trans hDone
      exact hRests

/- Hosts at rest on the same decisions have the same values. -/
theorem RestsOn.value_eq
    {decisions : List Literal}
    (hRests : RestsOn store cutoff display n decisions .ready team)
    (hStore : store.WellFormed)
    (hAdmits : cutoff.AdmitsAll store)
    (s t : Eliminating)
    (v : Nat) :
    (team s).stack.value v = (team t).stack.value v := by
  have hConsequences : ∀ (s : Eliminating) (b : Bool),
      (team s).stack.value v = some b ↔
        ∀ a, store.Solves decisions a → a v = b := by
    intro s b
    rcases hRests s with ⟨h, hRest, rfl, _, hReady⟩
    exact hRest.value_eq_some_iff hStore hReady s.2 hAdmits v b
  apply Option.ext
  intro b
  rw [hConsequences s, hConsequences t]

/-
  The strategies that eliminate agree. Suppose that enough is
  always assigned for the cutoff. Whatever the orders in
  which the hosts serve their queues, starting does not fail,
  and it ends in a conflict for all strategies or for none.
  The same is true of each permitted move after any permitted
  moves. All engines are in the same state, and if they are
  ready, all hosts have the same values.
-/
theorem strategies_agree
    {declared : List Literal}
    {named : List (Nat × Constraint)}
    (hStore : Store.ofNamed declared named = .ok store)
    (hAdmits : cutoff.AdmitsAll store)
    (hSize : store.numVariables ≤ n) :
    (∀ picks : Eliminating → List Nat, ∃ conflict, ∀ s, ∃ p,
      Pairing.launch store ⟨s.1, cutoff, display⟩ n (picks s) =
        .ok (p, conflict)) ∧
    ∀ team, Reached store cutoff display n team →
      (∀ m, (∀ s, (team s).Permits m) →
        ∀ picks : Eliminating → List Nat, ∃ conflict, ∀ s, ∃ p,
          (team s).move (picks s) m = .ok (p, conflict)) ∧
      (∀ s t, (team s).engine.state = (team t).engine.state) ∧
      ((∀ s, (team s).engine.state = .ready) →
        ∀ s t v,
          (team s).stack.value v = (team t).stack.value v) := by
  have hWell := Store.wellFormed_of_ofNamed hStore
  constructor
  · intro picks
    rcases exists_launch hWell hAdmits hSize display picks with
      ⟨conflict, _, hAll⟩
    refine ⟨conflict, fun s => ?_⟩
    rcases hAll s with ⟨p, hLaunch, _⟩
    exact ⟨p, hLaunch⟩
  · intro team hReached
    rcases hReached.restsOn hWell hAdmits hSize with
      ⟨decisions, state, hRests⟩
    have hState : ∀ s, (team s).engine.state = state := by
      intro s
      rcases hRests s with ⟨_, _, _, _, hState⟩
      exact hState
    refine ⟨?_, ?_, ?_⟩
    · intro m hPermits picks
      rcases hRests.exists_move hWell hAdmits hPermits picks with
        ⟨conflict, _, _, hAll⟩
      refine ⟨conflict, fun s => ?_⟩
      rcases hAll s with ⟨p, hMove, _⟩
      exact ⟨p, hMove⟩
    · intro s t
      exact (hState s).trans (hState t).symm
    · intro hReady s t v
      have hHere := (hState s).symm.trans (hReady s)
      rw [hHere] at hRests
      exact hRests.value_eq hWell hAdmits s t v

/-
  Once `l_0` is true, `l_4` follows from one constraint and
  `l_3` only from the sum of two. The host of the tableau
  takes the second literal of its queue first.
-/
theorem strategies_agree_after_branch :
    ∃ store team,
      Store.ofNamed
          [⟨0, true⟩, ⟨1, true⟩, ⟨2, true⟩, ⟨3, true⟩, ⟨4, true⟩]
          [(1, ⟨[⟨0, true⟩, ⟨1, true⟩, ⟨2, true⟩], .odd⟩),
            (2, ⟨[⟨1, true⟩, ⟨2, true⟩, ⟨3, true⟩], .even⟩),
            (3, ⟨[⟨0, true⟩, ⟨4, true⟩], .even⟩)] = .ok store ∧
        Cutoff.AdmitsAll ⟨0.0⟩ store ∧
        Reached store ⟨0.0⟩ false 5 team ∧
        (∀ s, (team s).engine.state = .ready) ∧
        (∀ s, (team s).stack.value 3 = some false) ∧
        ∀ s t v,
          (team s).stack.value v = (team t).stack.value v := by
  have hRun :
      (Store.ofNamed
          [⟨0, true⟩, ⟨1, true⟩, ⟨2, true⟩, ⟨3, true⟩, ⟨4, true⟩]
          [(1, ⟨[⟨0, true⟩, ⟨1, true⟩, ⟨2, true⟩], .odd⟩),
            (2, ⟨[⟨1, true⟩, ⟨2, true⟩, ⟨3, true⟩], .even⟩),
            (3, ⟨[⟨0, true⟩, ⟨4, true⟩], .even⟩)]).toOption.any
        (fun store =>
          decide (store.numVariables = 5) &&
          [Strategy.gjeFixpoint, .gjeReasoned, .gjeIncremental,
            .gjeTableau].all fun strategy =>
            (Pairing.launch store ⟨strategy, ⟨0.0⟩, false⟩ 5
              []).toOption.any fun first =>
              decide (first.1.engine.state = .ready ∧
                first.1.stack.numVariables = 5 ∧
                first.1.stack.value 0 = none) &&
              (first.1.move (if strategy = .gjeTableau then [1] else [])
                (.branch ⟨0, true⟩)).toOption.any fun second =>
                decide (second.1.engine.state = .ready ∧
                  second.1.stack.value 3 = some false)) = true := by
    decide +kernel
  rcases exists_ok_of_any hRun with ⟨store, hStore, hRest⟩
  simp only [Bool.and_eq_true, decide_eq_true_eq] at hRest
  rcases hRest with ⟨hSize, hEach⟩
  have hAdmits := Cutoff.admitsAll_zero hStore
  have hMem : ∀ strategy : Strategy,
      strategy.usesElimination = true →
        strategy ∈ [Strategy.gjeFixpoint, .gjeReasoned,
          .gjeIncremental, .gjeTableau] := by
    intro strategy
    cases strategy <;> decide
  have hAll : ∀ s : Eliminating, ∃ first second,
      Pairing.launch store ⟨s.1, ⟨0.0⟩, false⟩ 5 [] = .ok first ∧
        first.1.Permits (.branch ⟨0, true⟩) ∧
        first.1.move (if s.1 = .gjeTableau then [1] else [])
          (.branch ⟨0, true⟩) = .ok second ∧
        second.1.engine.state = .ready ∧
        second.1.stack.value 3 = some false := by
    intro s
    rcases exists_ok_of_any
      (List.all_eq_true.mp hEach s.1 (hMem s.1 s.2)) with
      ⟨first, hFirst, hThen⟩
    simp only [Bool.and_eq_true, decide_eq_true_eq] at hThen
    rcases hThen with ⟨⟨hReady, hVariables, hOpen⟩, hBranch⟩
    rcases exists_ok_of_any hBranch with ⟨second, hSecond, hEnd⟩
    have hLt : 0 < first.1.stack.numVariables := by
      omega
    exact ⟨first, second, hFirst, ⟨hReady, hLt, hOpen⟩, hSecond,
      of_decide_eq_true hEnd⟩
  choose first second hFirst hPermits hSecond hReady hForced using hAll
  have hReached : Reached store ⟨0.0⟩ false 5 fun s => (second s).1 :=
    .move (.start (fun _ => []) hFirst) _ hPermits _ hSecond
  refine ⟨store, _, hStore, hAdmits, hReached, hReady, hForced, ?_⟩
  exact ((strategies_agree hStore hAdmits (Nat.le_of_eq hSize)).2 _
    hReached).2.2 hReady

end Team

end ParitySolver
