import ParitySolver.Proofs.Sum
import ParitySolver.Store

/-
  What constraints say about total assignments, and that the
  normal form of a constraint says the same as the
  constraint that was given.

  Key definitions include:
    * `Assignment`
    * `Extends`
    * `Constraint.Holds`
    * `Store.Holds`
    * `StoredConstraint.defect`
    * `assignedSum`

  Main declarations:
    * `StoredConstraint.holds_iff_of_normalize`
-/

namespace ParitySolver

------------------------------------------------------------
-- Assignments
------------------------------------------------------------

/- A total assignment gives each variable a value. -/
abbrev Assignment : Type :=
  Nat → Bool

/- The total assignment has the values of a partial one. -/
def Extends
    (a : Assignment)
    (value : Nat → Option Bool) : Prop :=
  ∀ v b, value v = some b → a v = b

/- The total assignment makes the literal true. -/
def Literal.Holds
    (l : Literal)
    (a : Assignment) : Prop :=
  a l.index = l.value

instance
    (l : Literal)
    (a : Assignment) :
    Decidable (l.Holds a) :=
  inferInstanceAs (Decidable (a l.index = l.value))

/- The values of a partial assignment, and others where it has none. -/
def overlay
    (value : Nat → Option Bool)
    (a : Assignment) : Assignment :=
  fun v => (value v).getD (a v)

theorem extends_overlay
    (value : Nat → Option Bool)
    (a : Assignment) :
    Extends (overlay value a) value := by
  intro v b hValue
  simp [overlay, hValue]

theorem overlay_of_none
    {value : Nat → Option Bool}
    (a : Assignment)
    {v : Nat}
    (hNone : value v = none) :
    overlay value a v = a v := by
  simp [overlay, hNone]

------------------------------------------------------------
-- Constraints
------------------------------------------------------------

/- The constraint is satisfied by a total assignment. -/
def Constraint.Holds
    (c : Constraint)
    (a : Assignment) : Prop :=
  c.satisfied? (fun v => some (a v)) = some true

instance
    (c : Constraint)
    (a : Assignment) :
    Decidable (c.Holds a) :=
  inferInstanceAs
    (Decidable (c.satisfied? (fun v => some (a v)) = some true))

/- A total assignment satisfies all constraints of a store. -/
def Store.Holds
    (s : Store)
    (a : Assignment) : Prop :=
  ∀ c ∈ s.constraints, c.given.Holds a

instance
    (s : Store)
    (a : Assignment) :
    Decidable (s.Holds a) :=
  inferInstanceAs
    (Decidable (∀ c ∈ s.constraints, c.given.Holds a))

/-
  By how much the normal form of a constraint fails under a
  total assignment: the sum of its two sides.
-/
def StoredConstraint.defect
    (c : StoredConstraint)
    (a : Assignment) : Bool :=
  sumOver a c.vars ^^ c.rhs

------------------------------------------------------------
-- Counting true literals
------------------------------------------------------------

/- Under a total assignment every literal is counted. -/
theorem countTrue?_total
    (a : Assignment)
    (ls : List Literal) :
    countTrue? (fun v => some (a v)) ls =
      some (ls.countP fun l => decide (l.Holds a)) := by
  induction ls with
  | nil => rfl
  | cons l ls ih =>
      unfold countTrue?
      rw [ih]
      by_cases hTrue : l.Holds a
      · have hEq : a l.index = l.value := hTrue
        simp [hTrue, hEq]
      · have hNe : ¬ a l.index = l.value := hTrue
        simp [hTrue, hNe]

/- Whether a count is odd is a sum modulo two. -/
theorem odd_countP
    {α : Type}
    (p : α → Bool)
    (as : List α) :
    (as.countP p % 2 == 1) = sumOver p as := by
  induction as with
  | nil => rfl
  | cons a as ih =>
      rw [sumOver_cons, ← ih]
      have hCases := Nat.mod_two_eq_zero_or_one (as.countP p)
      cases hValue : p a with
      | false => simp [hValue]
      | true =>
          rcases hCases with hEven | hOdd
          · have hNext : (as.countP p + 1) % 2 = 1 := by omega
            simp [hValue, hEven, hNext]
          · have hNext : (as.countP p + 1) % 2 = 0 := by omega
            simp [hValue, hOdd, hNext]

theorem mod_two_eq_toNat_iff
    (n : Nat)
    (b : Bool) :
    n % 2 = b.toNat ↔ (n % 2 == 1) = b := by
  rcases Nat.mod_two_eq_zero_or_one n with hEven | hOdd
  · rw [hEven]
    cases b <;> decide
  · rw [hOdd]
    cases b <;> decide

/- A constraint holds if the sum of its true literals is its parity. -/
theorem Constraint.holds_iff_sum
    (c : Constraint)
    (a : Assignment) :
    c.Holds a ↔
      sumOver (fun l => decide (l.Holds a)) c.literals =
        c.parity.bit := by
  unfold Constraint.Holds satisfied?
  rw [countTrue?_total, Option.map_some, odd_countP,
    Option.some.injEq, beq_iff_eq]

------------------------------------------------------------
-- Normal forms
------------------------------------------------------------

namespace StoredConstraint

/- A true literal is its variable's value, flipped if negative. -/
theorem decide_holds_eq_xor
    (l : Literal)
    (a : Assignment) :
    decide (l.Holds a) = (a l.index ^^ !l.value) := by
  by_cases hTrue : a l.index = l.value
  · have hHolds : l.Holds a := hTrue
    simp [hHolds, hTrue]
  · have hHolds : ¬ l.Holds a := hTrue
    have hOther : a l.index = !l.value :=
      Bool.eq_not_of_ne hTrue
    simp [hHolds, hOther]

theorem flippedParity_eq_xor
    (parity : Parity)
    (ls : List Literal) :
    flippedParity parity ls =
      (parity.bit ^^ sumOver (fun l => !l.value) ls) := by
  unfold flippedParity
  generalize parity.bit = start
  induction ls generalizing start with
  | nil => simp
  | cons l ls ih =>
      rw [List.foldl_cons, ih, sumOver_cons]
      cases l.value <;> cases start <;> simp

theorem sumOver_oddVariables
    (a : Assignment)
    (ls : List Literal) :
    sumOver a (oddVariables ls) =
      sumOver (fun l => a l.index) ls := by
  unfold oddVariables IndexSet.sorted
  rw [sumOver_perm a (perm_sortAscending _),
    IndexSet.sumOver_toggleAll, sumOver_map]
  simp [IndexSet.empty]

/- The variables of a normal form ascend. -/
theorem pairwise_oddVariables
    (ls : List Literal) :
    (oddVariables ls).Pairwise (· < ·) :=
  IndexSet.pairwise_sorted _

/- The variables of a normal form occur in the literals. -/
theorem exists_literal_of_mem_oddVariables
    {ls : List Literal}
    {v : Nat}
    (hMem : v ∈ oddVariables ls) :
    ∃ l ∈ ls, l.index = v := by
  have hToggled := mem_sortAscending.mp hMem
  rcases IndexSet.mem_of_mem_toggleAll _ hToggled with hEmpty | hIn
  · cases hEmpty
  · exact List.mem_map.mp hIn

/-
  What a stored constraint looks like: it keeps what was
  given, and its variables are declared.
-/
theorem normalize_eq_ok
    {u : Universe}
    {id : Nat}
    {c : Constraint}
    {stored : StoredConstraint}
    (hStored : normalize u id c = .ok stored) :
    stored.given = c ∧
      stored.vars = oddVariables c.literals ∧
      stored.rhs = flippedParity c.parity c.literals ∧
      ∀ l ∈ c.literals, u.contains l.index = true := by
  unfold normalize at hStored
  split at hStored
  · cases hStored
  · split at hStored
    · cases hStored
    · rename_i hFind
      cases hStored
      refine ⟨rfl, rfl, rfl, ?_⟩
      intro l hMem
      have hNone := List.find?_eq_none.mp hFind l hMem
      simpa using hNone

/-
  The normal form holds under a total assignment exactly if
  the constraint that was given does.
-/
theorem holds_iff_of_normalize
    {u : Universe}
    {id : Nat}
    {c : Constraint}
    {stored : StoredConstraint}
    (hStored : normalize u id c = .ok stored)
    (a : Assignment) :
    stored.given.Holds a ↔ stored.defect a = false := by
  rcases normalize_eq_ok hStored with ⟨hGiven, hVars, hRhs, -⟩
  rw [hGiven, Constraint.holds_iff_sum]
  unfold defect
  rw [hVars, hRhs, sumOver_oddVariables, flippedParity_eq_xor]
  have hSplit :
      sumOver (fun l => decide (l.Holds a)) c.literals =
        (sumOver (fun l => a l.index) c.literals ^^
          sumOver (fun l => !l.value) c.literals) := by
    rw [← sumOver_xor]
    exact sumOver_congr fun l _ => decide_holds_eq_xor l a
  rw [hSplit]
  generalize sumOver (fun l => a l.index) c.literals = x
  generalize sumOver (fun l => !l.value) c.literals = y
  generalize c.parity.bit = z
  cases x <;> cases y <;> cases z <;> simp

end StoredConstraint

------------------------------------------------------------
-- Sums of assigned variables
------------------------------------------------------------

/- The sum of those variables that have a value. -/
def assignedSum
    (value : Nat → Option Bool)
    (vs : List Nat) : Bool :=
  sumOver (fun v => (value v).getD false) vs

@[simp]
theorem assignedSum_none
    (vs : List Nat) :
    assignedSum (fun _ => none) vs = false :=
  sumOver_eq_false fun _ _ => rfl

/- A variable that gets a value adds it to the sums it is in. -/
theorem assignedSum_of_new
    {value value' : Nat → Option Bool}
    {l : Literal}
    (hNew : ∀ w, value' w =
      if w = l.index then some l.value else value w)
    (hOpen : value l.index = none)
    {vs : List Nat}
    (hNodup : vs.Nodup) :
    assignedSum value' vs =
      (assignedSum value vs ^^
        (l.value && decide (l.index ∈ vs))) := by
  have hSplit : ∀ w,
      (value' w).getD false =
        ((value w).getD false ^^
          (l.value && decide (l.index = w))) := by
    intro w
    rw [hNew w]
    by_cases hEq : w = l.index
    · subst hEq
      simp [hOpen]
    · simp [hEq, Ne.symm hEq]
  unfold assignedSum
  rw [sumOver_congr fun w _ => hSplit w, sumOver_xor]
  congr 1
  cases l.value with
  | false => simp [sumOver_eq_false]
  | true => simpa using sumOver_decide_eq hNodup

theorem sumOver_eq_assignedSum
    {value : Nat → Option Bool}
    {a : Assignment}
    (hExtends : Extends a value)
    {vs : List Nat}
    (hAssigned : ∀ v ∈ vs, (value v).isSome = true) :
    sumOver a vs = assignedSum value vs := by
  apply sumOver_congr
  intro v hMem
  rcases Option.isSome_iff_exists.mp (hAssigned v hMem) with
    ⟨b, hValue⟩
  rw [hExtends v b hValue, hValue]
  rfl

/- If one variable is open, it is what the sum lacks. -/
theorem sumOver_eq_assignedSum_xor
    {value : Nat → Option Bool}
    {a : Assignment}
    (hExtends : Extends a value)
    {vs : List Nat}
    (hNodup : vs.Nodup)
    {v : Nat}
    (hMem : v ∈ vs)
    (hOpen : value v = none)
    (hOthers : ∀ w ∈ vs, w ≠ v → (value w).isSome = true) :
    sumOver a vs = (assignedSum value vs ^^ a v) := by
  have hSplit : ∀ w ∈ vs,
      a w = ((value w).getD false ^^ (a v && decide (v = w))) := by
    intro w hIn
    by_cases hEq : w = v
    · subst hEq
      simp [hOpen]
    · rcases Option.isSome_iff_exists.mp (hOthers w hIn hEq) with
        ⟨b, hValue⟩
      simp [hExtends w b hValue, hValue, Ne.symm hEq]
  rw [sumOver_congr hSplit, sumOver_xor]
  unfold assignedSum
  congr 1
  cases hValue : a v with
  | false => simp [sumOver_eq_false]
  | true => simp [sumOver_decide_eq hNodup, hMem]

end ParitySolver
