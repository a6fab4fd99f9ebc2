import ParitySolver.Proofs.Turns

/-
  The search ends, and nothing fails on the way: the engine
  answers every call, only open variables are assigned, the
  host holds every reason, the engine goes back only to
  levels that it has reached, and every total assignment
  without a conflict passes the check.

  Each round makes a rank smaller. A decision that was not
  flipped yet counts for all the rounds that may come after
  its flip, and these are the fewer the deeper it is.

  Key definitions include:
    * `Search.budget`
    * `Search.rank`

  Main declarations:
    * `Search.rank_decide`
    * `Search.rank_flip`
    * `Search.Turn.rank_lt`
    * `Search.Underway.run`
    * `Store.solve_ends_without_fault`
-/

namespace ParitySolver

namespace Search

------------------------------------------------------------
-- The rank
------------------------------------------------------------

/-
  The most rounds that a search takes without a conflict, by
  the number of decisions that may still be made.
-/
def budget : Nat → Nat
  | 0 => 1
  | n + 1 => 2 * budget n + 2

/- The rounds that the flips of the decisions may lead to. -/
def weight
    (n : Nat) : List Bool → Nat
  | [] => 0
  | flag :: flips =>
      (if flag then 0 else budget (n - (flips.length + 1)) + 1) +
        weight n flips

/- The most rounds that a search among `n` variables takes. -/
def rank
    (n : Nat)
    (flips : List Bool)
    (conflict : Bool) : Nat :=
  weight n flips +
    if conflict then 0 else budget (n - flips.length)

theorem budget_add_two_le
    (n : Nat) :
    budget n + 2 ≤ roundLimit n := by
  induction n with
  | zero => decide
  | succ n ih =>
      have hDouble : roundLimit (n + 1) = 2 * roundLimit n :=
        Nat.pow_succ'
      rw [budget, hDouble]
      omega

theorem rank_le_add_budget
    (n : Nat)
    (flips : List Bool)
    (conflict : Bool) :
    rank n flips conflict ≤
      weight n flips + budget (n - flips.length) := by
  unfold rank
  split <;> omega

theorem rank_nil_lt
    (n : Nat)
    (conflict : Bool) :
    rank n [] conflict < roundLimit n := by
  have hLe := rank_le_add_budget n [] conflict
  have hLimit := budget_add_two_le n
  simp only [weight, List.length_nil, Nat.sub_zero] at hLe
  omega

/- A new decision may be flipped, and the rest is smaller. -/
theorem rank_decide
    {n : Nat}
    {flips : List Bool}
    (hLt : flips.length < n)
    (conflict : Bool) :
    rank n (false :: flips) conflict < rank n flips false := by
  have hLe := rank_le_add_budget n (false :: flips) conflict
  have hSplit : n - flips.length = n - (flips.length + 1) + 1 := by
    omega
  have hBudget : budget (n - flips.length) =
      2 * budget (n - (flips.length + 1)) + 2 := by
    rw [hSplit, budget]
  have hWeight : weight n (false :: flips) =
      budget (n - (flips.length + 1)) + 1 + weight n flips := rfl
  have hRank : rank n flips false =
      weight n flips + budget (n - flips.length) := rfl
  rw [List.length_cons] at hLe
  omega

/- A flipped decision may not be flipped again. -/
theorem rank_flip
    {n : Nat}
    {flips flips' : List Bool}
    (hWeight : weight n flips = weight n (false :: flips'))
    (conflict : Bool) :
    rank n (true :: flips') conflict < rank n flips true := by
  have hLe := rank_le_add_budget n (true :: flips') conflict
  have hTrue : weight n (true :: flips') = 0 + weight n flips' := rfl
  have hFalse : weight n (false :: flips') =
      budget (n - (flips'.length + 1)) + 1 + weight n flips' := rfl
  have hRank : rank n flips true = weight n flips + 0 := rfl
  rw [List.length_cons] at hLe
  omega

/- Decisions that were flipped have no weight. -/
theorem weight_replicate_true
    (n k : Nat)
    (flips : List Bool) :
    weight n (List.replicate k true ++ flips) = weight n flips := by
  induction k with
  | zero => rfl
  | succ k ih =>
      rw [List.replicate_succ, List.cons_append, weight, if_pos rfl,
        Nat.zero_add]
      exact ih

------------------------------------------------------------
-- Rounds of the search
------------------------------------------------------------

variable {declared : List Literal} {named : List (Nat × Constraint)}
variable {store : Store} {config : Config} {h : History Unit}
variable {s : Search} {conflict : Bool}

/- The rank after a round that goes on is smaller. -/
theorem Turn.rank_lt
    {s' : Search}
    {conflict' : Bool}
    (hTurn : Turn store config h s conflict (.going s' conflict')) :
    rank store.numVariables s'.flipped conflict' <
      rank store.numVariables s.flipped conflict := by
  cases hTurn with
  | branch hLowest hEnds hFlags hEffort hNext =>
      have hLength := hNext.toSteady.length_flipped_le
      rw [hFlags, List.length_cons] at hLength
      rw [hFlags]
      exact rank_decide hLength _
  | flip hSplit hBefore hEnds hFlags hEffort hNext =>
      rw [hFlags]
      apply rank_flip
      rw [hBefore, weight_replicate_true]

/- More rounds than the rank are enough. -/
theorem Underway.run
    (hUnderway : Underway store config h s conflict)
    (hNamed : Store.ofNamed declared named = .ok store)
    {fuel : Nat}
    (hFuel : rank store.numVariables s.flipped conflict < fuel) :
    ∃ solution, Search.run fuel s conflict = .ok solution := by
  induction fuel generalizing h s conflict with
  | zero => omega
  | succ fuel ih =>
      rcases hUnderway.advance hNamed with
        ⟨progress, hAdvance, hTurn⟩
      cases progress with
      | finished solution =>
          exact ⟨solution,
            bind_eq_ok.mpr ⟨.finished solution, hAdvance, rfl⟩⟩
      | going next conflict' =>
          have hRank := hTurn.rank_lt
          rcases hTurn.underway with ⟨h', hNext⟩
          rcases ih hNext (by omega) with ⟨solution, hRest⟩
          exact ⟨solution, bind_eq_ok.mpr
            ⟨.going next conflict', hAdvance, hRest⟩⟩

end Search

------------------------------------------------------------
-- Solving
------------------------------------------------------------

/- The search for a model of a store comes to its end. -/
theorem Store.exists_solve
    {declared : List Literal}
    {named : List (Nat × Constraint)}
    {store : Store}
    (hNamed : Store.ofNamed declared named = .ok store)
    (config : Config)
    (threshold? : Option Severity) :
    ∃ solution, store.solve config threshold? = .ok solution := by
  have hStore := Store.wellFormed_of_ofNamed hNamed
  rcases Search.exists_begins hStore config threshold? with
    ⟨s, d, h, hBegins, _, hFlipped, _, hUnderway⟩
  have hFuel : Search.rank store.numVariables s.flipped
      d.isConflict < Search.roundLimit store.numVariables := by
    rw [hFlipped]
    exact Search.rank_nil_lt _ _
  rcases hUnderway.run hNamed hFuel with ⟨solution, hRun⟩
  exact ⟨solution,
    Store.solve_eq_ok_iff.mpr ⟨s, d.isConflict, hBegins, hRun⟩⟩

/-
  Solving facts ends with the right answer, whatever the
  strategy, the cutoff and the notes that are shown. A fault
  would be an answer that the engine does not give, a second
  value for a variable, a reason that the host does not hold,
  a level that was not reached, a total assignment that does
  not pass the check, or too many rounds: there is none.
-/
theorem Store.solve_ends_without_fault
    {facts : List Fact}
    {store : Store}
    (hStore : storeOfFacts facts = .ok store)
    (config : Config)
    (threshold? : Option Severity) :
    ∃ solution, store.solve config threshold? = .ok solution ∧
      solution.Answers store.Holds store.numVariables := by
  rcases Store.ofFacts_eq_ok hStore with ⟨groups, _, hNamed⟩
  rcases Store.exists_solve hNamed config threshold? with
    ⟨solution, hSolve⟩
  refine ⟨solution, hSolve, ?_⟩
  exact Store.solve_answers (wellFormed_of_storeOfFacts hStore) hSolve

/-
  Three constraints whose sum cannot hold. Counting finds a
  conflict only when all variables of a constraint have their
  values, so each of the decisions has to be flipped.
-/
theorem Store.solve_ends_on_contradiction :
    ∃ facts store solution,
      readFacts
          ("__parity(1, odd, 1).\n__parity(1, odd, 2).\n" ++
            "__parity(2, odd, 2).\n__parity(2, odd, 3).\n" ++
            "__parity(3, odd, 3).\n__parity(3, odd, 1).").toUTF8 =
          .ok facts ∧
        storeOfFacts facts = .ok store ∧
        store.solve ⟨.countCheck, ⟨1.0⟩, true⟩ none =
          .ok solution ∧
        solution.conflicts = 6 ∧
        ¬ ∃ a, store.Holds a := by
  have hRun :
      (readFacts
        ("__parity(1, odd, 1).\n__parity(1, odd, 2).\n" ++
          "__parity(2, odd, 2).\n__parity(2, odd, 3).\n" ++
          "__parity(3, odd, 3).\n__parity(3, odd, 1).").toUTF8
        ).toOption.any (fun facts =>
        (storeOfFacts facts).toOption.any fun store =>
          (store.solve ⟨.countCheck, ⟨1.0⟩, true⟩
            none).toOption.any fun (solution : Solution) =>
              decide (solution.conflicts = 6 ∧
                solution.model? = none)) = true := by
    decide +kernel
  rcases exists_ok_of_any hRun with ⟨facts, hRead, hRest⟩
  rcases exists_ok_of_any hRest with ⟨store, hStore, hRest⟩
  rcases exists_ok_of_any hRest with ⟨found, hFound, hEnd⟩
  rcases of_decide_eq_true hEnd with ⟨hConflicts, hModel⟩
  rcases solve_ends_without_fault hStore ⟨.countCheck, ⟨1.0⟩, true⟩
    none with ⟨solution, hSolve, hAnswers⟩
  cases hFound.symm.trans hSolve
  exact ⟨facts, store, found, hRead, hStore, hSolve, hConflicts,
    hAnswers.none_iff.mp hModel⟩

end ParitySolver
