import ParitySolver.Proofs.Turns

/-
  A search as the tree that it goes through. A node is the
  history at the end of a drain. After a conflict there is
  nothing below it; without open variables it is a model; and
  otherwise the lowest open variable is false in its first
  subtree and true in its second one, which is visited only
  if the first one fails.

  The search itself knows no tree. It goes on round after
  round, and when a subtree fails, it is at a conflict with
  all decisions of the subtree flipped. Then the next round
  flips the decision above them.

  Key definitions include:
    * `Search.Explores`
    * `Search.Results`

  Main declarations:
    * `Search.Explores.excludes`
    * `Search.Explores.exists_solution`
    * `Search.Results.raise`
    * `Search.Underway.explores`
    * `Store.exists_explores`
-/

namespace ParitySolver

variable {store : Store} {config : Config} {h h' : History Unit}

------------------------------------------------------------
-- Drains and solutions
------------------------------------------------------------

theorem History.Agrees.suffix
    {a : Assignment}
    (hAgrees : h'.Agrees a)
    (hSuffix : h <:+ h') :
    h.Agrees a :=
  fun entry hMem => hAgrees entry (hSuffix.subset hMem)

/- A solution that agrees with a history agrees after a drain. -/
theorem Pairing.EndsAt.agrees
    {n : Nat}
    {d : Drain}
    (hEnds : Pairing.EndsAt store config h n d h')
    {a : Assignment}
    (hHolds : store.Holds a)
    (hAgrees : h.Agrees a) :
    h'.Agrees a := by
  apply hEnds.rest.derived.agrees hHolds
  rw [hEnds.decided]
  intro l hMem
  rcases List.mem_map.mp (History.mem_of_mem_decided hMem) with
    ⟨entry, hEntry, rfl⟩
  exact hAgrees entry hEntry

/- A drain decides nothing. -/
theorem Pairing.EndsAt.exists_forced
    {n : Nat}
    {d : Drain}
    (hEnds : Pairing.EndsAt store config h n d h') :
    ∃ forced : History Unit, h' = forced ++ h ∧ forced.level = 0 := by
  rcases hEnds.grows with ⟨forced, hAppend⟩
  refine ⟨forced, hAppend.symm, ?_⟩
  have hLevel := hEnds.level
  rw [← hAppend, History.level_append] at hLevel
  omega

namespace Search

------------------------------------------------------------
-- Trees
------------------------------------------------------------

/-
  The tree below a history, with the numbers of decisions and
  conflicts in it, and whether a model is found.
-/
inductive Explores
    (store : Store)
    (config : Config) :
    History Unit → Bool → Bool → Nat → Nat → Prop where
  | clash {h : History Unit}
      (hExcludes : store.Excludes h) :
      Explores store config h true false 0 1
  | model {h : History Unit} {a : Assignment}
      (hHolds : store.Holds a)
      (hAgrees : h.Agrees a)
      (hTotal : ∀ i < store.numVariables, h.value i = some (a i)) :
      Explores store config h false true 0 0
  | first {h h₁ : History Unit} {v : Nat} {d : Drain}
      {decisions conflicts : Nat}
      (hLowest : h.LowestOpen store.numVariables v)
      (hEnds :
        Pairing.EndsAt store config ((⟨v, false⟩, .decision) :: h)
          store.numVariables d h₁)
      (hTree :
        Explores store config h₁ d.isConflict true decisions
          conflicts) :
      Explores store config h false true (decisions + 1) conflicts
  | second {h h₁ h₂ : History Unit} {v : Nat} {d₁ d₂ : Drain}
      {found : Bool} {decisions₁ conflicts₁ decisions₂ conflicts₂ : Nat}
      (hLowest : h.LowestOpen store.numVariables v)
      (hEnds₁ :
        Pairing.EndsAt store config ((⟨v, false⟩, .decision) :: h)
          store.numVariables d₁ h₁)
      (hTree₁ :
        Explores store config h₁ d₁.isConflict false decisions₁
          conflicts₁)
      (hEnds₂ :
        Pairing.EndsAt store config ((⟨v, true⟩, .decision) :: h)
          store.numVariables d₂ h₂)
      (hTree₂ :
        Explores store config h₂ d₂.isConflict found decisions₂
          conflicts₂) :
      Explores store config h false found
        (decisions₁ + 1 + decisions₂) (conflicts₁ + conflicts₂)

variable {conflict found : Bool} {decisions conflicts : Nat}

/- A tree with a model shows a solution. -/
theorem Explores.exists_solution
    (hTree :
      Explores store config h conflict found decisions conflicts)
    (hFound : found = true) :
    ∃ a, store.Holds a ∧ h.Agrees a := by
  induction hTree with
  | clash => cases hFound
  | model hHolds hAgrees => exact ⟨_, hHolds, hAgrees⟩
  | first hLowest hEnds hTree ih =>
      rcases ih rfl with ⟨a, hHolds, hAgrees⟩
      have hBefore := hAgrees.suffix hEnds.grows
      exact ⟨a, hHolds, (History.agrees_cons.mp hBefore).2⟩
  | second hLowest hEnds₁ hTree₁ hEnds₂ hTree₂ ih₁ ih₂ =>
      rcases ih₂ hFound with ⟨a, hHolds, hAgrees⟩
      have hBefore := hAgrees.suffix hEnds₂.grows
      exact ⟨a, hHolds, (History.agrees_cons.mp hBefore).2⟩

/- Below a tree without a model there is no solution. -/
theorem Explores.excludes
    (hTree :
      Explores store config h conflict found decisions conflicts)
    (hFailed : found = false) :
    store.Excludes h := by
  induction hTree with
  | clash hExcludes => exact hExcludes
  | model => cases hFailed
  | first => cases hFailed
  | @second h _ _ v _ _ _ _ _ _ _ hLowest hEnds₁ hTree₁ hEnds₂ hTree₂
      ih₁ ih₂ =>
      intro a hHolds hAgrees
      cases hValue : a v with
      | false =>
          have hBefore :
              History.Agrees ((⟨v, false⟩, .decision) :: h) a :=
            History.agrees_cons.mpr ⟨hValue, hAgrees⟩
          exact ih₁ rfl a hHolds (hEnds₁.agrees hHolds hBefore)
      | true =>
          have hBefore :
              History.Agrees ((⟨v, true⟩, .decision) :: h) a :=
            History.agrees_cons.mpr ⟨hValue, hAgrees⟩
          exact ih₂ hFailed a hHolds (hEnds₂.agrees hHolds hBefore)

/- A tree fails only by conflicts. -/
theorem Explores.one_le_conflicts
    (hTree :
      Explores store config h conflict found decisions conflicts)
    (hFailed : found = false) :
    1 ≤ conflicts := by
  induction hTree with
  | clash => exact Nat.le_refl 1
  | model => cases hFailed
  | first => cases hFailed
  | second hLowest hEnds₁ hTree₁ hEnds₂ hTree₂ ih₁ ih₂ =>
      have hFirst := ih₁ rfl
      omega

------------------------------------------------------------
-- Where a history is split
------------------------------------------------------------

/- The number of decisions above a decision tells which one it is. -/
theorem split_unique
    {newer newer' older older' : History Unit}
    {l l' : Literal}
    (hSame :
      newer ++ (l, .decision) :: older =
        newer' ++ (l', .decision) :: older')
    (hLevel : newer.level = newer'.level) :
    l = l' ∧ older = older' := by
  induction newer generalizing newer' with
  | nil =>
      cases newer' with
      | nil =>
          cases hSame
          exact ⟨rfl, rfl⟩
      | cons entry newer' =>
          -- The decision itself would be among the newer entries.
          cases hSame
          rw [History.level_cons] at hLevel
          cases hLevel
  | cons entry newer ih =>
      cases newer' with
      | nil =>
          cases hSame
          rw [History.level_cons] at hLevel
          cases hLevel
      | cons entry' newer' =>
          rcases List.cons.inj hSame with ⟨rfl, hRest⟩
          rw [History.level_cons, History.level_cons] at hLevel
          refine ih hRest ?_
          split at hLevel <;> omega

/- So does the number of flags before the first unset one. -/
theorem flags_unique
    {m n : Nat}
    {flips flips' : List Bool}
    (hSame :
      List.replicate m true ++ false :: flips =
        List.replicate n true ++ false :: flips') :
    m = n ∧ flips = flips' := by
  induction m generalizing n with
  | zero =>
      cases n with
      | zero =>
          cases hSame
          exact ⟨rfl, rfl⟩
      | succ n => cases hSame
  | succ m ih =>
      cases n with
      | zero => cases hSame
      | succ n =>
          rcases ih (List.cons.inj hSame).2 with ⟨rfl, hFlips⟩
          exact ⟨rfl, hFlips⟩

------------------------------------------------------------
-- Runs
------------------------------------------------------------

variable {declared : List Literal} {named : List (Nat × Constraint)}
variable {s s' : Search} {fuel : Nat} {solution : Solution}

/- A run that ends has made a round. -/
theorem Underway.exists_turn
    (hUnderway : Underway store config h s conflict)
    (hNamed : Store.ofNamed declared named = .ok store)
    (hRun : Search.run fuel s conflict = .ok solution) :
    Turn store config h s conflict (.finished solution) ∨
      ∃ left s' conflict', fuel = left + 1 ∧
        Turn store config h s conflict (.going s' conflict') ∧
        Search.run left s' conflict' = .ok solution := by
  cases fuel with
  | zero => cases hRun
  | succ left =>
      rcases hUnderway.advance hNamed with
        ⟨progress, hAdvance, hTurn⟩
      rcases bind_eq_ok.mp hRun with ⟨progress', hSame, hRest⟩
      cases hAdvance.symm.trans hSame
      cases progress with
      | finished found =>
          cases hRest
          exact .inl hTurn
      | going s' conflict' =>
          exact .inr ⟨left, s', conflict', rfl, hTurn, hRest⟩

/- With all decisions flipped, the search gives up. -/
theorem Underway.giveUp
    (hUnderway : Underway store config h s true)
    (hNamed : Store.ofNamed declared named = .ok store)
    (hRun : Search.run fuel s true = .ok solution)
    {k : Nat}
    (hFlags : s.flipped = List.replicate k true) :
    solution.effort = (s.decisions, s.conflicts + 1) := by
  rcases hUnderway.exists_turn hNamed hRun with
    hTurn | ⟨left, s', conflict', _, hTurn, _⟩
  · cases hTurn with
    | giveUp hAll hEffort => exact hEffort
  · cases hTurn with
    | flip hSplit hBefore hEnds hAfter hEffort hNext =>
        have hMem : false ∈ s.flipped := by
          rw [hBefore]
          exact List.mem_append_right _ List.mem_cons_self
        rw [hFlags] at hMem
        cases List.eq_of_mem_replicate hMem

/- With all decisions above it flipped, a decision is flipped. -/
theorem Underway.flip
    {newer older : History Unit}
    {l : Literal}
    (hUnderway :
      Underway store config (newer ++ (l, .decision) :: older) s true)
    (hNamed : Store.ofNamed declared named = .ok store)
    (hRun : Search.run fuel s true = .ok solution)
    {flips : List Bool}
    (hFlags :
      s.flipped = List.replicate newer.level true ++ false :: flips) :
    ∃ left s' d h', fuel = left + 1 ∧
      Pairing.EndsAt store config ((l.negate, .decision) :: older)
        store.numVariables d h' ∧
      s'.flipped = true :: flips ∧
      s'.effort = (s.decisions, s.conflicts + 1) ∧
      Underway store config h' s' d.isConflict ∧
      Search.run left s' d.isConflict = .ok solution := by
  rcases hUnderway.exists_turn hNamed hRun with
    hTurn | ⟨left, s', conflict', hFuel, hTurn, hRest⟩
  · cases hTurn with
    | giveUp hAll hEffort =>
        have hMem : false ∈ s.flipped := by
          rw [hFlags]
          exact List.mem_append_right _ List.mem_cons_self
        cases hAll false hMem
  · cases hTurn with
    | flip hSplit hBefore hEnds hAfter hEffort hNext =>
        rcases flags_unique (hFlags.symm.trans hBefore) with
          ⟨hLevel, rfl⟩
        rcases split_unique hSplit hLevel with ⟨rfl, rfl⟩
        exact ⟨left, s', _, _, hFuel, hEnds, hAfter, hEffort, hNext,
          hRest⟩

/-
  What comes of a search below a history. Either the answer
  is found there, or the search comes to a conflict with all
  decisions above the history flipped. That conflict is
  counted in the next round.
-/
inductive Results
    (store : Store)
    (config : Config)
    (h : History Unit)
    (s : Search)
    (fuel : Nat)
    (solution : Solution) : Bool → Nat → Nat → Prop where
  | found {decisions conflicts : Nat}
      (hEffort :
        solution.effort =
          (s.decisions + decisions, s.conflicts + conflicts)) :
      Results store config h s fuel solution true decisions conflicts
  | failed {newer : History Unit} {s' : Search}
      {left decisions conflicts : Nat}
      (hUnderway : Underway store config (newer ++ h) s' true)
      (hFlags :
        s'.flipped = List.replicate newer.level true ++ s.flipped)
      (hDecisions : s'.decisions = s.decisions + decisions)
      (hConflicts : s'.conflicts + 1 = s.conflicts + conflicts)
      (hLeft : left ≤ fuel)
      (hRun : Search.run left s' true = .ok solution) :
      Results store config h s fuel solution false decisions conflicts

/- What comes of the second subtree comes of the whole. -/
theorem Results.raise
    {l : Literal}
    {n : Nat}
    {d : Drain}
    (hEnds : Pairing.EndsAt store config ((l, .decision) :: h) n d h')
    (hFlags : s'.flipped = true :: s.flipped)
    {decisions₀ conflicts₀ fuel' : Nat}
    (hEffort :
      s'.effort = (s.decisions + decisions₀, s.conflicts + conflicts₀))
    (hFuel : fuel' ≤ fuel)
    (hResults :
      Results store config h' s' fuel' solution found decisions
        conflicts) :
    Results store config h s fuel solution found
      (decisions₀ + decisions) (conflicts₀ + conflicts) := by
  rcases Prod.mk.inj hEffort with ⟨hDecisions, hConflicts⟩
  cases hResults with
  | found hFound =>
      apply Results.found
      rw [hFound, hDecisions, hConflicts, Nat.add_assoc, Nat.add_assoc]
  | @failed newer s'' left _ _ hUnderway hBelow hMore hClashes hLeft
      hRun =>
      rcases hEnds.exists_forced with ⟨forced, hAppend, hForced⟩
      let top : History Unit := newer ++ (forced ++ [(l, .decision)])
      have hWhole : newer ++ h' = top ++ h := by
        rw [hAppend]
        simp [top]
      have hLevel : top.level = newer.level + 1 := by
        rw [History.level_append, History.level_append, hForced]
        rfl
      rw [hWhole] at hUnderway
      refine .failed hUnderway ?_ (by omega) (by omega)
        (Nat.le_trans hLeft hFuel) hRun
      rw [hBelow, hFlags, hLevel, List.replicate_succ',
        List.append_assoc, List.singleton_append]

/- The second subtree begins where the first one has failed. -/
theorem Results.exists_second
    (hNamed : Store.ofNamed declared named = .ok store)
    {l : Literal}
    {n : Nat}
    {d : Drain}
    (hEnds : Pairing.EndsAt store config ((l, .decision) :: h) n d h')
    (hFlags : s'.flipped = false :: s.flipped)
    (hEffort : s'.effort = (s.decisions + 1, s.conflicts))
    (hResults :
      Results store config h' s' fuel solution false decisions
        conflicts) :
    ∃ left s₂ d₂ h₂, left < fuel ∧
      Pairing.EndsAt store config ((l.negate, .decision) :: h)
        store.numVariables d₂ h₂ ∧
      s₂.flipped = true :: s.flipped ∧
      s₂.effort =
        (s.decisions + (decisions + 1), s.conflicts + conflicts) ∧
      Underway store config h₂ s₂ d₂.isConflict ∧
      Search.run left s₂ d₂.isConflict = .ok solution := by
  rcases Prod.mk.inj hEffort with ⟨hDecisions, hConflicts⟩
  cases hResults with
  | @failed newer last left _ _ hUnderway hBelow hMore hClashes hLeft
      hRun =>
      rcases hEnds.exists_forced with ⟨forced, hAppend, hForced⟩
      let top : History Unit := newer ++ forced
      have hLevel : top.level = newer.level := by
        rw [History.level_append, hForced, Nat.add_zero]
      rw [hAppend, ← List.append_assoc] at hUnderway
      rw [hFlags, ← hLevel] at hBelow
      rcases hUnderway.flip hNamed hRun hBelow with
        ⟨left₂, s₂, d₂, h₂, rfl, hEnds₂, hFlags₂, hEffort₂, hNext₂,
          hRun₂⟩
      refine ⟨left₂, s₂, d₂, h₂, hLeft, hEnds₂, hFlags₂, ?_, hNext₂,
        hRun₂⟩
      rw [hEffort₂, hMore, hClashes, hDecisions, hConflicts,
        Nat.add_assoc, Nat.add_comm 1]

/-
  A search that comes to its end has gone through a tree. The
  induction is on the rounds that are left.
-/
theorem Underway.explores
    (hNamed : Store.ofNamed declared named = .ok store)
    (hUnderway : Underway store config h s conflict)
    (hExcludes : conflict = true → store.Excludes h)
    (hRun : Search.run fuel s conflict = .ok solution) :
    ∃ found decisions conflicts,
      Explores store config h conflict found decisions conflicts ∧
      Results store config h s fuel solution found decisions
        conflicts := by
  induction fuel using Nat.strongRecOn generalizing h s conflict with
  | ind fuel ih =>
  cases conflict with
  | true =>
      have hHere : Underway store config ([] ++ h) s true := hUnderway
      exact ⟨false, 0, 1, .clash (hExcludes rfl),
        .failed hHere rfl rfl rfl (Nat.le_refl _) hRun⟩
  | false =>
      rcases hUnderway.exists_turn hNamed hRun with
        hTurn | ⟨left₁, s₁, conflict₁, rfl, hTurn, hRun₁⟩
      · cases hTurn with
        | accept hHolds hAgrees hTotal hEffort =>
            exact ⟨true, 0, 0, .model hHolds hAgrees hTotal,
              .found hEffort⟩
      · cases hTurn with
        | branch hLowest hEnds₁ hFlags₁ hEffort₁ hNext₁ =>
            rcases ih left₁ (Nat.lt_succ_self _) hNext₁ hEnds₁.excludes
                hRun₁ with ⟨found₁, D₁, C₁, hTree₁, hResults₁⟩
            cases found₁ with
            | true =>
                cases hResults₁ with
                | found hFound =>
                    refine ⟨true, _, _, .first hLowest hEnds₁ hTree₁,
                      .found ?_⟩
                    rcases Prod.mk.inj hEffort₁ with ⟨hMore, hSame⟩
                    rw [hFound, hMore, hSame, Nat.add_assoc,
                      Nat.add_comm 1]
            | false =>
                rcases hResults₁.exists_second hNamed hEnds₁ hFlags₁
                    hEffort₁ with
                  ⟨left₂, s₂, d₂, h₂, hLt, hEnds₂, hFlags₂, hEffort₂,
                    hNext₂, hRun₂⟩
                rcases ih left₂ (by omega) hNext₂ hEnds₂.excludes hRun₂
                  with ⟨found₂, D₂, C₂, hTree₂, hResults₂⟩
                exact ⟨found₂, _, _,
                  .second hLowest hEnds₁ hTree₁ hEnds₂ hTree₂,
                  hResults₂.raise hEnds₂ hFlags₂ hEffort₂ (by omega)⟩

end Search

/-
  The counters of an answer are the numbers of decisions and
  conflicts in the tree below the first drain.
-/
theorem Store.exists_explores
    {declared : List Literal}
    {named : List (Nat × Constraint)}
    (hNamed : Store.ofNamed declared named = .ok store)
    {threshold? : Option Severity}
    {solution : Solution}
    (hSolve : store.solve config threshold? = .ok solution) :
    ∃ d h found,
      Pairing.EndsAt store config [] store.numVariables d h ∧
      Search.Explores store config h d.isConflict found
        solution.decisions solution.conflicts := by
  have hStore := Store.wellFormed_of_ofNamed hNamed
  rcases Store.solve_eq_ok_iff.mp hSolve with
    ⟨first, conflict, hFirst, hRun⟩
  rcases Search.exists_begins hStore config threshold? with
    ⟨s, d, h, hBegins, hEnds, hFlipped, hEffort, hUnderway⟩
  rcases hFirst.unique hBegins with ⟨rfl, rfl⟩
  rcases Prod.mk.inj hEffort with ⟨hDecisions, hConflicts⟩
  rcases hUnderway.explores hNamed hEnds.excludes hRun with
    ⟨found, D, C, hTree, hResults⟩
  have hTotal : solution.effort = (D, C) := by
    cases hResults with
    | found hFound =>
        rw [hFound, hDecisions, hConflicts, Nat.zero_add, Nat.zero_add]
    | @failed newer s' _ _ _ hFailed hFlags hAll hClashes hLeft hRest =>
        rw [hFlipped, List.append_nil] at hFlags
        rw [hFailed.giveUp hNamed hRest hFlags, hAll, hClashes,
          hDecisions, hConflicts, Nat.zero_add, Nat.zero_add]
  rcases Prod.mk.inj hTotal with ⟨rfl, rfl⟩
  exact ⟨d, h, found, hEnds, hTree⟩

end ParitySolver
