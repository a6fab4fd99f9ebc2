import ParitySolver.Proofs.Lockstep

/-
  Every strategy is complete for single constraints, whatever
  the cutoff. When a drain has come to its end without a
  conflict, the constraints without open variables are
  satisfied, and no constraint has exactly one open variable,
  unless the strategy only counts.

  A constraint that shows something all by itself is seen
  when the last of its other variables is taken in. What it
  shows is a conflict, or a literal that the host holds when
  the drain is over.

  Key definitions include:
    * `Pairing.Reached`

  Main declarations:
    * `Pairing.Reached.allSettled`
    * `Pairing.drained_host_is_stable`
-/

namespace ParitySolver

------------------------------------------------------------
-- Moves, whatever the order of the queue
------------------------------------------------------------

namespace Pairing

variable {store : Store} {config : Config} {n : Nat} {p : Pairing}

/-
  The pairings that a fresh engine and a fresh host come to.
  They start together and make moves, and each time the host
  serves its queue in an order of its own.
-/
inductive Reached
    (store : Store)
    (config : Config)
    (numVariables : Nat) : Pairing → Prop where
  | start {p : Pairing} {conflict : Bool}
      (picks : List Nat)
      (hLaunch :
        launch store config numVariables picks = .ok (p, conflict)) :
      Reached store config numVariables p
  | move {p p' : Pairing} {conflict : Bool}
      (hBefore : Reached store config numVariables p)
      (picks : List Nat)
      (m : Move)
      (hMove : p.move picks m = .ok (p', conflict)) :
      Reached store config numVariables p'

/- A drain that is part of a move is a run of rounds. -/
theorem rounds_of_ofDrain
    {demand : Demand}
    {picks : List Nat}
    {stack : DecisionStack Unit}
    {reply : Reply Verdict}
    {conflict : Bool}
    (hDrain :
      ofDrain (settleBy demand picks stack reply) =
        .ok (p, conflict)) :
    Rounds demand stack [] reply conflict p := by
  rcases map_eq_ok.mp hDrain with ⟨_, hOutcome, hResult⟩
  cases hResult
  exact rounds_of_drainBy hOutcome

/- Whatever was reached has settled levels. -/
theorem Reached.allSettled
    (hStore : store.WellFormed)
    (hReached : Reached store config n p) :
    ∃ h, AllSettled store config h p := by
  induction hReached with
  | start picks hLaunch =>
      rcases bind_eq_ok.mp hLaunch with ⟨e, hEngine, hDrain⟩
      apply allSettled_of_rounds hStore (rounds_of_ofDrain hDrain)
      intro verdict hCall
      exact answered_initialPropagation hStore (inStep_new hEngine)
        (.new hEngine) hCall
  | move _ picks m hMove ih =>
      rcases ih with ⟨h, hSettled⟩
      cases m with
      | branch l =>
          rcases bind_eq_ok.mp hMove with ⟨stack, hAssign, hDrain⟩
          apply allSettled_of_rounds (h := (l, .decision) :: h) hStore
            (rounds_of_ofDrain hDrain)
          intro verdict hCall
          have hReady := (Engine.propagate_eq_ok hCall).1
          exact (hSettled.waiting hStore hReady hAssign).propagate
            hStore hCall
      | back level =>
          rcases bind_eq_ok.mp hMove with ⟨stack, hJump, hRest⟩
          rcases bind_eq_ok.mp hRest with ⟨_, hUndo, hResult⟩
          cases hResult
          exact ⟨_, hSettled.back hStore hJump hUndo⟩

/-
  Completeness for single constraints, for every strategy and
  every cutoff. Whenever a drain is over and the engine is
  ready, every constraint whose variables all have a value is
  satisfied, and unless the strategy only counts, none has
  exactly one variable without a value.
-/
theorem drained_host_is_stable
    {declared : List Literal}
    {named : List (Nat × Constraint)}
    (hStore : Store.ofNamed declared named = .ok store)
    (hReached : Reached store config n p)
    (hReady : p.engine.state = .ready) :
    (∀ c ∈ store.constraints,
      (∀ v ∈ c.vars, (p.stack.value v).isSome = true) →
        assignedSum p.stack.value c.vars = c.rhs ∧
          ∀ a, Extends a p.stack.value → c.given.Holds a) ∧
    (config.strategy ≠ .countCheck →
      ∀ c ∈ store.constraints,
        openCount p.stack.value c.vars ≠ 1) := by
  have hWell := Store.wellFormed_of_ofNamed hStore
  rcases hReached.allSettled hWell with ⟨h, hSettled⟩
  have hStable := (hSettled.here hReady).stable hWell hSettled.inStep
  have hValue : p.stack.value = h.value :=
    funext hSettled.inStep.records.value_eq
  rw [hValue]
  constructor
  · intro c hMem hAll
    exact ⟨hStable.assignedSum_eq hMem hAll,
      fun a hExtends => hStable.holds_given hWell hMem hAll hExtends⟩
  · intro hStrategy c hMem
    exact hStable.openCount_ne_one hStrategy hMem

/-
  The host decides that `l_0` is true, thinks better of it,
  and decides that it is false. Then `l_1` and `l_2` follow,
  and the host takes `l_2` first. Together they force `l_3`.
-/
theorem drained_host_is_stable_after_return :
    ∃ store p,
      Store.ofNamed [⟨0, true⟩, ⟨1, true⟩, ⟨2, true⟩, ⟨3, true⟩]
          [(1, ⟨[⟨0, true⟩, ⟨1, true⟩], .odd⟩),
            (2, ⟨[⟨0, true⟩, ⟨2, true⟩], .odd⟩),
            (3, ⟨[⟨1, true⟩, ⟨2, true⟩, ⟨3, true⟩], .odd⟩)] =
          .ok store ∧
        Reached store ⟨.unitPropagation, ⟨1.0⟩, false⟩ 4 p ∧
        p.stack.value 3 = some true ∧
        (∀ c ∈ store.constraints,
          openCount p.stack.value c.vars ≠ 1) ∧
        ∀ a, Extends a p.stack.value → store.Holds a := by
  have hRun :
      (Store.ofNamed [⟨0, true⟩, ⟨1, true⟩, ⟨2, true⟩, ⟨3, true⟩]
          [(1, ⟨[⟨0, true⟩, ⟨1, true⟩], .odd⟩),
            (2, ⟨[⟨0, true⟩, ⟨2, true⟩], .odd⟩),
            (3, ⟨[⟨1, true⟩, ⟨2, true⟩, ⟨3, true⟩],
              .odd⟩)]).toOption.any
        (fun store =>
          (launch store ⟨.unitPropagation, ⟨1.0⟩, false⟩ 4
            []).toOption.any fun first =>
            (first.1.move [] (.branch ⟨0, true⟩)).toOption.any
            fun second =>
              (second.1.move [] (.back 0)).toOption.any fun third =>
                (third.1.move [1] (.branch ⟨0, false⟩)).toOption.any
                fun last =>
                  decide (last.1.engine.state = .ready ∧
                    last.1.stack.value 3 = some true ∧
                    ∀ c ∈ store.constraints.toList, ∀ v ∈ c.vars,
                      (last.1.stack.value v).isSome = true)) =
        true := by
    decide +kernel
  rcases exists_ok_of_any hRun with ⟨store, hStore, hRest⟩
  rcases exists_ok_of_any hRest with ⟨first, hFirst, hRest⟩
  rcases exists_ok_of_any hRest with ⟨second, hSecond, hRest⟩
  rcases exists_ok_of_any hRest with ⟨third, hThird, hRest⟩
  rcases exists_ok_of_any hRest with ⟨last, hLast, hEnd⟩
  rcases of_decide_eq_true hEnd with ⟨hReady, hForced, hAll⟩
  have hReached :=
    (((Reached.start [] hFirst).move [] _ hSecond).move [] _
      hThird).move [1] _ hLast
  rcases drained_host_is_stable hStore hReached hReady with
    ⟨hSatisfied, hNoUnit⟩
  refine ⟨store, last.1, hStore, hReached, hForced, hNoUnit nofun, ?_⟩
  intro a hExtends c hMem
  exact (hSatisfied c hMem
    (hAll c (Array.mem_toList_iff.mpr hMem))).2 a hExtends

end Pairing

end ParitySolver
