import ParitySolver.Proofs.SearchTree
import ParitySolver.Proofs.Termination

/-
  Stronger strategies do not search more. A strategy without
  elimination finds no more than it has to, so the values of
  its host stay within those of any stronger strategy that
  has the same decisions. A literal that only the stronger
  one finds is a decision in the weaker search. So each node
  of the stronger tree is met by a node of the weaker one,
  and the latter may have more above it.

  Key definitions include:
    * `Search.Ahead`

  Main declarations:
    * `Search.Ahead.meet`
    * `Search.Ahead.follow`
    * `Search.Explores.effort_le`
    * `Store.stronger_strategies_search_less`
-/

namespace ParitySolver

variable {store : Store} {weak strong : Config}

------------------------------------------------------------
-- Values of a stronger strategy
------------------------------------------------------------

/- What is stable for a strategy is stable for weaker ones. -/
theorem Store.Stable.weaken
    {strategy strategy' : Strategy}
    {value : Nat → Option Bool}
    (hStable : store.Stable strategy value)
    (hWeaker : strategy' ≠ .countCheck → strategy ≠ .countCheck) :
    store.Stable strategy' value :=
  ⟨hStable.noConflict, fun hUnits => hStable.noUnit (hWeaker hUnits)⟩

theorem Pairing.EndsAt.stable
    (hStore : store.WellFormed)
    {config : Config}
    {h h' : History Unit}
    {n : Nat}
    {d : Drain}
    (hEnds : Pairing.EndsAt store config h n d h')
    (hQuiet : d.isConflict = false) :
    store.Stable config.strategy h'.value := by
  have hReady : d.pairing.engine.state = .ready := by
    rw [hEnds.state, hQuiet]
    rfl
  exact (hEnds.rest.here hReady).stable hStore hEnds.rest.inStep

/- At the end of a drain all older values are there. -/
theorem Pairing.EndsAt.within
    {config : Config}
    {h h' older : History Unit}
    {n : Nat}
    {d : Drain}
    (hEnds : Pairing.EndsAt store config h n d h')
    (hOlder : older <:+ h') :
    Within older.value h'.value :=
  History.within_of_suffix hEnds.rest.inStep.records.distinct hOlder

theorem History.LowestOpen.unique
    {h : History Unit}
    {n v w : Nat}
    (hFirst : h.LowestOpen n v)
    (hSecond : h.LowestOpen n w) :
    v = w := by
  rcases Nat.lt_trichotomy v w with hLt | hEq | hGt
  · exact absurd hFirst.isOpen (hSecond.lower v hLt)
  · exact hEq
  · exact absurd hSecond.isOpen (hFirst.lower w hGt)

theorem History.LowestOpen.within
    {h h' : History Unit}
    {n v : Nat}
    (hLowest : h.LowestOpen n v)
    (hWithin : Within h.value h'.value)
    (hOpen : h'.value v = none) :
    h'.LowestOpen n v := by
  refine ⟨hLowest.lt, hOpen, fun i hLt hNone => ?_⟩
  rcases Option.ne_none_iff_exists'.mp (hLowest.lower i hLt) with
    ⟨b, hValue⟩
  rw [hWithin i b hValue] at hNone
  cases hNone

namespace Search

------------------------------------------------------------
-- Nodes of two searches
------------------------------------------------------------

/-
  A node of the stronger search has all that a node of the
  weaker one has. Solutions of the weaker node are solutions
  of the stronger one, and without a conflict in the stronger
  one there is none in the weaker one.
-/
structure Ahead
    (store : Store)
    (strong : Config)
    (h h' : History Unit)
    (conflict conflict' : Bool) : Prop where
  agrees : ∀ a, store.Holds a → h.Agrees a → h'.Agrees a
  stable :
    conflict' = false → store.Stable strong.strategy h'.value
  quiet : conflict' = false → conflict = false
  within : conflict' = false → Within h.value h'.value

/- The strategy does not eliminate, and it sees less. -/
structure Weaker
    (weak strong : Strategy) : Prop where
  plain : weak.usesElimination = false
  units : weak ≠ .countCheck → strong ≠ .countCheck

variable {h h' : History Unit} {conflict conflict' : Bool}

/-
  A drain of the weaker search does not leave a stronger node
  that has all of what it begins with.
-/
theorem Ahead.meet
    (hWeaker : Weaker weak.strategy strong.strategy)
    {before : History Unit}
    {n : Nat}
    {d : Drain}
    (hEnds : Pairing.EndsAt store weak before n d h)
    (hAgrees : ∀ a, store.Holds a → before.Agrees a → h'.Agrees a)
    (hStable :
      conflict' = false → store.Stable strong.strategy h'.value)
    (hWithin : conflict' = false → Within before.value h'.value) :
    Ahead store strong h h' d.isConflict conflict' := by
  have hLeast : conflict' = false →
      d.isConflict = false ∧ Within h.value h'.value :=
    fun hQuiet => hEnds.least hWeaker.plain h'.value
      ((hStable hQuiet).weaken hWeaker.units) (hWithin hQuiet)
  exact
    { agrees := fun a hHolds hAfter =>
        hAgrees a hHolds (hAfter.suffix hEnds.grows)
      stable := hStable
      quiet := fun hQuiet => (hLeast hQuiet).1
      within := fun hQuiet => (hLeast hQuiet).2 }

/- A decision of the weaker search may be no news to the stronger one. -/
theorem Ahead.catchUp
    (hWeaker : Weaker weak.strategy strong.strategy)
    (hAhead : Ahead store strong h h' conflict false)
    {l : Literal}
    (hValue : h'.value l.index = some l.value)
    {n : Nat}
    {d : Drain}
    {h₁ : History Unit}
    (hEnds : Pairing.EndsAt store weak ((l, .decision) :: h) n d h₁) :
    Ahead store strong h₁ h' d.isConflict false := by
  refine .meet hWeaker hEnds ?_ hAhead.stable ?_
  · intro a hHolds hBefore
    exact hAhead.agrees a hHolds (History.agrees_cons.mp hBefore).2
  · intro hQuiet
    exact History.within_cons (hAhead.within hQuiet) hValue

/- The same decision in both searches keeps the stronger one ahead. -/
theorem Ahead.follow
    (hStore : store.WellFormed)
    (hWeaker : Weaker weak.strategy strong.strategy)
    (hAhead : Ahead store strong h h' conflict false)
    {l : Literal}
    {n n' : Nat}
    {d d' : Drain}
    {h₁ h₁' : History Unit}
    (hEnds : Pairing.EndsAt store weak ((l, .decision) :: h) n d h₁)
    (hEnds' :
      Pairing.EndsAt store strong ((l, .decision) :: h') n' d' h₁') :
    Ahead store strong h₁ h₁' d.isConflict d'.isConflict := by
  have hOlder : h' <:+ h₁' :=
    (List.suffix_cons _ _).trans hEnds'.grows
  have hHere : h₁'.value l.index = some l.value := by
    apply hEnds'.within hEnds'.grows
    rw [History.value_cons, if_pos rfl]
  refine .meet hWeaker hEnds ?_ (hEnds'.stable hStore) fun _ => ?_
  · intro a hHolds hBefore
    rcases History.agrees_cons.mp hBefore with ⟨hLiteral, hOld⟩
    exact hEnds'.agrees hHolds (History.agrees_cons.mpr
      ⟨hLiteral, hAhead.agrees a hHolds hOld⟩)
  · exact History.within_cons
      ((hAhead.within rfl).trans (hEnds'.within hOlder)) hHere

------------------------------------------------------------
-- Trees of two searches
------------------------------------------------------------

/- A tree below a conflict is a single conflict. -/
theorem Explores.of_conflict
    {config : Config}
    {found : Bool}
    {decisions conflicts : Nat}
    (hTree : Explores store config h true found decisions conflicts) :
    decisions = 0 ∧ conflicts = 1 ∧ store.Excludes h := by
  cases hTree with
  | clash hExcludes => exact ⟨rfl, rfl, hExcludes⟩

/-
  The tree of the stronger search is not larger. The induction
  is on the tree of the weaker search. Where the stronger node
  has a value for the variable of a decision, it stays where
  it is, and otherwise both searches decide.
-/
theorem Explores.effort_le
    (hStore : store.WellFormed)
    (hWeaker : Weaker weak.strategy strong.strategy)
    {found found' : Bool}
    {decisions conflicts decisions' conflicts' : Nat}
    (hTree :
      Explores store weak h conflict found decisions conflicts)
    (hTree' :
      Explores store strong h' conflict' found' decisions' conflicts')
    (hAhead : Ahead store strong h h' conflict conflict') :
    decisions' ≤ decisions ∧ conflicts' ≤ conflicts := by
  induction hTree generalizing h' conflict' found' decisions'
    conflicts' with
  | clash hExcludes =>
      cases conflict' with
      | true =>
          rcases hTree'.of_conflict with ⟨rfl, rfl, _⟩
          exact ⟨Nat.le_refl _, Nat.le_refl _⟩
      | false => cases hAhead.quiet rfl
  | @model h a hHolds hAgrees hTotal =>
      cases hTree' with
      | clash hExcludes =>
          exact absurd (hAhead.agrees a hHolds hAgrees)
            (hExcludes a hHolds)
      | model => exact ⟨Nat.le_refl _, Nat.le_refl _⟩
      | first hLowest | second hLowest =>
          have hValue := hAhead.within rfl _ _ (hTotal _ hLowest.lt)
          rw [hLowest.isOpen] at hValue
          cases hValue
  | @first h h₁ v d D C hLowest hEnds hSub ih =>
      -- The weaker search finds a solution, so it is there for the
      -- stronger one, too.
      rcases hSub.exists_solution rfl with ⟨a, hHolds, hAgrees⟩
      rcases History.agrees_cons.mp (hAgrees.suffix hEnds.grows) with
        ⟨hFalse, hOlder⟩
      have hAgrees' := hAhead.agrees a hHolds hOlder
      cases conflict' with
      | true =>
          rcases hTree'.of_conflict with ⟨_, _, hExcludes⟩
          exact absurd hAgrees' (hExcludes a hHolds)
      | false =>
          cases hValue : h'.value v with
          | some b =>
              cases (hAgrees'.eq_of_value hValue).symm.trans hFalse
              have hLe := ih hTree'
                (hAhead.catchUp hWeaker hValue hEnds)
              omega
          | none =>
              have hLowest' :=
                hLowest.within (hAhead.within rfl) hValue
              cases hTree' with
              | model _ _ hTotal =>
                  rw [hTotal v hLowest.lt] at hValue
                  cases hValue
              | first hHere hEnds' hSub' =>
                  cases hHere.unique hLowest'
                  have hLe := ih hSub'
                    (hAhead.follow hStore hWeaker hEnds hEnds')
                  omega
              | second hHere hEnds' hSub' =>
                  cases hHere.unique hLowest'
                  have hNext :=
                    hAhead.follow hStore hWeaker hEnds hEnds'
                  exact absurd (hNext.agrees a hHolds hAgrees)
                    (hSub'.excludes rfl a hHolds)
  | @second h h₁ h₂ v d₁ d₂ found D₁ C₁ D₂ C₂ hLowest hEnds₁ hSub₁
      hEnds₂ hSub₂ ih₁ ih₂ =>
      cases conflict' with
      | true =>
          rcases hTree'.of_conflict with ⟨rfl, rfl, _⟩
          have hClashes := hSub₁.one_le_conflicts rfl
          omega
      | false =>
          cases hValue : h'.value v with
          | some b =>
              cases b with
              | false =>
                  have hLe := ih₁ hTree'
                    (hAhead.catchUp hWeaker hValue hEnds₁)
                  omega
              | true =>
                  have hLe := ih₂ hTree'
                    (hAhead.catchUp hWeaker hValue hEnds₂)
                  omega
          | none =>
              have hLowest' :=
                hLowest.within (hAhead.within rfl) hValue
              cases hTree' with
              | model _ _ hTotal =>
                  rw [hTotal v hLowest.lt] at hValue
                  cases hValue
              | first hHere hEnds' hSub' =>
                  cases hHere.unique hLowest'
                  have hLe := ih₁ hSub'
                    (hAhead.follow hStore hWeaker hEnds₁ hEnds')
                  omega
              | second hHere hEnds₁' hSub₁' hEnds₂' hSub₂' =>
                  cases hHere.unique hLowest'
                  have hLe₁ := ih₁ hSub₁'
                    (hAhead.follow hStore hWeaker hEnds₁ hEnds₁')
                  have hLe₂ := ih₂ hSub₂'
                    (hAhead.follow hStore hWeaker hEnds₂ hEnds₂')
                  omega

end Search

------------------------------------------------------------
-- Solving
------------------------------------------------------------

/- A search of a weaker strategy takes at least as long. -/
theorem Store.effort_le_of_weaker
    {declared : List Literal}
    {named : List (Nat × Constraint)}
    (hStore : Store.ofNamed declared named = .ok store)
    (hWeaker : Search.Weaker weak.strategy strong.strategy)
    {threshold? threshold?' : Option Severity}
    {solution solution' : Solution}
    (hSolve : store.solve weak threshold? = .ok solution)
    (hSolve' : store.solve strong threshold?' = .ok solution') :
    solution'.decisions ≤ solution.decisions ∧
      solution'.conflicts ≤ solution.conflicts := by
  have hWell := Store.wellFormed_of_ofNamed hStore
  rcases Store.exists_explores hStore hSolve with
    ⟨d, h, found, hEnds, hTree⟩
  rcases Store.exists_explores hStore hSolve' with
    ⟨d', h', found', hEnds', hTree'⟩
  refine hTree.effort_le hWell hWeaker hTree' ?_
  refine .meet hWeaker hEnds ?_ (hEnds'.stable hWell) fun _ => nofun
  intro a hHolds hNothing
  exact hEnds'.agrees hHolds hNothing

end ParitySolver
