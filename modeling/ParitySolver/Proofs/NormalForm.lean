import Mathlib.Algebra.Ring.Parity
import ParitySolver.Proofs.Meaning
import ParitySolver.Proofs.Universe

/-
  Storing a constraint keeps its meaning. What is stored has
  the literals that were given and their normal form: the
  variables that occur an odd number of times, in either
  polarity, and the parity, flipped for each negative
  literal. Both say the same about every total assignment.

  Key definitions include:
    * `Literal.DeclaredBy`
    * `StoredConstraint.ofGiven`

  Main declarations:
    * `StoredConstraint.mem_oddVariables`
    * `StoredConstraint.normalize_eq_ok_iff`
    * `StoredConstraint.normalize_eq_error_iff`
    * `StoredConstraint.normal_form_keeps_meaning`
-/

namespace ParitySolver

------------------------------------------------------------
-- Declared variables
------------------------------------------------------------

namespace Literal

/- The variable of the literal is in a universe. -/
def DeclaredBy
    (l : Literal)
    (declared : List Literal) : Prop :=
  ∃ k ∈ declared, k.index = l.index

instance
    (l : Literal)
    (declared : List Literal) :
    Decidable (l.DeclaredBy declared) :=
  inferInstanceAs (Decidable (∃ k ∈ declared, k.index = l.index))

theorem declaredBy_iff_contains
    {l : Literal}
    {declared : List Literal} :
    l.DeclaredBy declared ↔
      (Universe.ofLiterals declared).contains l.index = true :=
  Universe.contains_ofLiterals.symm

end Literal

------------------------------------------------------------
-- Repetitions
------------------------------------------------------------

/- Toggling leaves the indices that occur an odd number of times. -/
theorem IndexSet.mem_toggleAll_empty
    {is : List Nat}
    {j : Nat} :
    j ∈ (empty.toggleAll is).members ↔ Odd (is.count j) := by
  have hNodup : (empty.toggleAll is).members.Nodup :=
    nodup_members _
  -- Picking the index out of the set and counting it in the
  -- list are the same sum.
  have hSum :
      decide (j ∈ (empty.toggleAll is).members) =
        (is.count j % 2 == 1) :=
    calc
      decide (j ∈ (empty.toggleAll is).members)
        = sumOver (fun i => decide (j = i))
            (empty.toggleAll is).members :=
          (sumOver_decide_eq hNodup).symm
      _ = sumOver (fun i => decide (j = i)) is := by
          rw [sumOver_toggleAll]
          simp [empty]
      _ = (is.countP (fun i => decide (j = i)) % 2 == 1) :=
          (odd_countP _ is).symm
      _ = (is.count j % 2 == 1) := by
          rw [List.count, List.countP_congr]
          intro i _
          rw [decide_eq_true_iff, beq_iff_eq, eq_comm]
  rw [Nat.odd_iff, ← beq_iff_eq, ← hSum, decide_eq_true_iff]

namespace StoredConstraint

/- A normal form has the variables that do not cancel. -/
theorem mem_oddVariables
    {ls : List Literal}
    {v : Nat} :
    v ∈ oddVariables ls ↔ Odd ((ls.map Literal.index).count v) :=
  mem_sortAscending.trans IndexSet.mem_toggleAll_empty

------------------------------------------------------------
-- Storing a constraint
------------------------------------------------------------

variable {u : Universe} {id : Nat} {c : Constraint}

/- A constraint as it was given, under a name, with its normal form. -/
def ofGiven
    (id : Nat)
    (c : Constraint) : StoredConstraint :=
  ⟨id, c.literals, c.parity, oddVariables c.literals,
    flippedParity c.parity c.literals⟩

/- When a constraint can be stored, and what is stored then. -/
theorem normalize_eq_ok_iff
    {stored : StoredConstraint} :
    normalize u id c = .ok stored ↔
      c.literals ≠ [] ∧
        (∀ l ∈ c.literals, u.contains l.index = true) ∧
        ofGiven id c = stored := by
  constructor
  · intro hStored
    have hDeclared := (normalize_eq_ok hStored).2.2.2
    unfold normalize at hStored
    split at hStored
    next => cases hStored
    next hNonempty =>
      split at hStored
      next => cases hStored
      next =>
        cases hStored
        exact ⟨by simpa using hNonempty, hDeclared, rfl⟩
  · rintro ⟨hNonempty, hDeclared, rfl⟩
    have hFind :
        (c.literals.find? fun l => !u.contains l.index) = none := by
      rw [List.find?_eq_none]
      intro l hMem
      simp [hDeclared l hMem]
    unfold normalize
    rw [if_neg (by simpa using hNonempty), hFind]
    rfl

/-
  A constraint is refused for want of literals, or because of
  its first literal whose variable is not declared.
-/
theorem normalize_eq_error_iff
    {error : SetupError} :
    normalize u id c = .error error ↔
      (c.literals = [] ∧ error = .malformed id .noLiterals) ∨
        ∃ l, (c.literals.find? fun l => !u.contains l.index) = some l ∧
          error = .malformed id (.undeclared l) := by
  unfold normalize
  by_cases hEmpty : c.literals = []
  · simp [hEmpty, eq_comm]
  · rw [if_neg (by simpa using hEmpty)]
    cases hFind : c.literals.find? fun l => !u.contains l.index with
    | none => simp [hEmpty]
    | some l => simp [hEmpty, eq_comm]

theorem holds_iff_sumOver_vars
    {stored : StoredConstraint}
    (hStored : normalize u id c = .ok stored)
    (a : Assignment) :
    stored.given.Holds a ↔ sumOver a stored.vars = stored.rhs := by
  rw [holds_iff_of_normalize hStored, defect, bne_eq_false_iff_eq]

/-
  A list of literals of declared variables can be stored if
  it is not empty. The literals, which stay as they are, have
  the parity under a total assignment exactly if the sum of
  the variables of the normal form is its right-hand side.
  These variables ascend, and they are those that occur an
  odd number of times among the literals.
-/
theorem normal_form_keeps_meaning
    {declared : List Literal}
    (hDeclared : ∀ l ∈ c.literals, l.DeclaredBy declared)
    (id : Nat) :
    (c.literals = [] →
        normalize (Universe.ofLiterals declared) id c =
          .error (.malformed id .noLiterals)) ∧
      (c.literals ≠ [] →
        ∃ stored,
          normalize (Universe.ofLiterals declared) id c = .ok stored ∧
            stored.given = c ∧
            (∀ a : Assignment,
              stored.given.satisfied? (fun v => some (a v)) =
                  some true ↔
                sumOver a stored.vars = stored.rhs) ∧
            stored.vars.Pairwise (· < ·) ∧
            ∀ v, v ∈ stored.vars ↔
              Odd ((c.literals.map Literal.index).count v)) := by
  constructor
  · intro hEmpty
    exact normalize_eq_error_iff.mpr (.inl ⟨hEmpty, rfl⟩)
  · intro hNonempty
    have hStored :
        normalize (Universe.ofLiterals declared) id c =
          .ok (ofGiven id c) := by
      apply normalize_eq_ok_iff.mpr
      refine ⟨hNonempty, fun l hMem => ?_, rfl⟩
      exact Literal.declaredBy_iff_contains.mp (hDeclared l hMem)
    exact ⟨_, hStored, rfl, holds_iff_sumOver_vars hStored,
      pairwise_oddVariables c.literals, fun v => mem_oddVariables⟩

/-
  `l_4` cancels against its complement and `l_2` occurs three
  times, twice negative: what is left is `l_0 + l_2`.
-/
theorem normal_form_keeps_meaning_of_repetitions :
    ∃ stored,
      normalize
          (Universe.ofLiterals
            [⟨4, true⟩, ⟨2, true⟩, ⟨0, false⟩, ⟨7, true⟩]) 5
          ⟨[⟨2, false⟩, ⟨4, true⟩, ⟨2, true⟩, ⟨0, true⟩, ⟨4, false⟩,
            ⟨2, false⟩], .odd⟩ = .ok stored ∧
        stored.vars = [0, 2] ∧
        ∀ a : Assignment, stored.given.Holds a ↔ (a 0 ^^ a 2) = false := by
  have hDeclared : ∀ l ∈
      [(⟨2, false⟩ : Literal), ⟨4, true⟩, ⟨2, true⟩, ⟨0, true⟩,
        ⟨4, false⟩, ⟨2, false⟩],
      l.DeclaredBy [⟨4, true⟩, ⟨2, true⟩, ⟨0, false⟩, ⟨7, true⟩] := by
    decide
  rcases (normal_form_keeps_meaning (c := ⟨_, .odd⟩) hDeclared 5).2 nofun
    with ⟨stored, hStored, _, hMeaning, _, _⟩
  have hForm := (normalize_eq_ok_iff.mp hStored).2.2
  have hVars : stored.vars = [0, 2] := by
    rw [← hForm]
    decide
  have hRhs : stored.rhs = false := by
    rw [← hForm]
    decide
  refine ⟨stored, hStored, hVars, ?_⟩
  intro a
  rw [Constraint.Holds, hMeaning a, hVars, hRhs]
  simp

end StoredConstraint

end ParitySolver
