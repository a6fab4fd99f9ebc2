import Mathlib.Data.List.ReduceOption
import ParitySolver.Engine
import ParitySolver.Proofs.StoreIndex

/-
  What the engine's check shows. It finds the first of the
  constraints whose literals all have values, the true ones
  among them in the wrong number. The reason has the host's
  values for the normal form of that constraint, and these
  refute it. If the host has a value for each of its
  variables, a constraint is either true or false in it, and
  a check that finds no false one has seen that all of them
  are true.

  Key definitions include:
    * `Constraint.Violated`

  Main declarations:
    * `Host.satisfied?_of_total`
    * `Engine.holds_of_check`
    * `Constraint.satisfied?_eq_false_iff`
    * `Host.satisfied?_eq`
    * `Engine.firstViolated?_eq_find?`
    * `Engine.exists_reason`
    * `Engine.refutes_of_violated`
    * `Engine.check_finds_first_violation`
-/

namespace ParitySolver

------------------------------------------------------------
-- Total hosts
------------------------------------------------------------

namespace Host

variable {host : Host} {a : Assignment}

theorem read_eq_ok
    {i : Nat}
    {value? : Option Bool} :
    host.read i = .ok value? ↔
      i < host.size ∧ host.value i = value? := by
  unfold read
  split
  next hLt => simp [hLt]
  next hLt => simp [hLt]

theorem countTrue?_of_total
    (hTotal : ∀ i < host.size, host.value i = some (a i))
    {ls : List Literal}
    {count? : Option Nat}
    (hCount : host.countTrue? ls = .ok count?) :
    count? =
      ParitySolver.countTrue? (fun v => some (a v)) ls := by
  induction ls generalizing count? with
  | nil =>
      cases hCount
      rfl
  | cons l ls ih =>
      rw [countTrue?, bind_eq_ok] at hCount
      rcases hCount with ⟨value?, hRead, hRest⟩
      rcases read_eq_ok.mp hRead with ⟨hLt, hValue⟩
      rw [hTotal l.index hLt] at hValue
      subst hValue
      rcases bind_eq_ok.mp hRest with ⟨rest?, hOthers, hEnd⟩
      cases hEnd
      rw [ParitySolver.countTrue?, ih hOthers]
      cases ParitySolver.countTrue? (fun v => some (a v)) ls <;> rfl

theorem satisfied?_of_total
    (hTotal : ∀ i < host.size, host.value i = some (a i))
    {c : Constraint}
    {answer? : Option Bool}
    (hAnswer : host.satisfied? c = .ok answer?) :
    answer? = c.satisfied? fun v => some (a v) := by
  rcases bind_eq_ok.mp hAnswer with ⟨count?, hCount, hEnd⟩
  cases hEnd
  rw [countTrue?_of_total hTotal hCount]
  rfl

end Host

/- Under a total assignment a constraint is true or false. -/
theorem Constraint.holds_of_not_violated
    {c : Constraint}
    {a : Assignment}
    (hNot : c.satisfied? (fun v => some (a v)) ≠ some false) :
    c.Holds a := by
  unfold Constraint.Holds
  rw [Constraint.satisfied?, countTrue?_total] at hNot ⊢
  rw [Option.map_some] at hNot ⊢
  exact congrArg some (eq_true_of_ne_false (ne_of_apply_ne some hNot))

------------------------------------------------------------
-- The check
------------------------------------------------------------

namespace Engine

theorem firstViolated?_eq_none
    {host : Host}
    {cs : List StoredConstraint}
    (hNone : firstViolated? host cs = .ok none) :
    ∀ c ∈ cs, ∃ answer?,
      host.satisfied? c.given = .ok answer? ∧
        answer? ≠ some false := by
  induction cs with
  | nil => nofun
  | cons c cs ih =>
      rw [firstViolated?, bind_eq_ok] at hNone
      rcases hNone with ⟨answer?, hAnswer, hRest⟩
      split at hRest
      next => cases hRest
      next hNot =>
        rintro k (_ | ⟨_, hMem⟩)
        · exact ⟨answer?, hAnswer, fun hEq => hNot (by simp [hEq])⟩
        · exact ih hRest k hMem

/- A host that passes the check with all values is a solution. -/
theorem holds_of_check
    {e : Engine}
    {host : Host}
    {a : Assignment}
    (hTotal : ∀ i < host.size, host.value i = some (a i))
    (hCheck : (e.check host).2 = .ok .ok) :
    e.store.Holds a := by
  unfold check at hCheck
  split at hCheck
  next => cases hCheck
  next hNone =>
    intro c hMem
    rcases firstViolated?_eq_none hNone c
      (Array.mem_toList_iff.mpr hMem) with
      ⟨answer?, hAnswer, hNot⟩
    rw [Host.satisfied?_of_total hTotal hAnswer] at hNot
    exact Constraint.holds_of_not_violated hNot
  next =>
    rcases map_eq_ok.mp hCheck with ⟨_, _, hEq⟩
    cases hEq

end Engine

------------------------------------------------------------
-- Violated constraints
------------------------------------------------------------

/-
  All literals have values, and the number of true ones does
  not have the parity.
-/
def Constraint.Violated
    (c : Constraint)
    (value : Nat → Option Bool) : Prop :=
  (∀ l ∈ c.literals, value l.index ≠ none) ∧
    (c.literals.countP fun l => value l.index == some l.value) % 2 ≠
      c.parity.bit.toNat

instance
    (c : Constraint)
    (value : Nat → Option Bool) :
    Decidable (c.Violated value) :=
  inferInstanceAs (Decidable (_ ∧ _))

/- The true literals are counted if all of them have values. -/
theorem countTrue?_eq_some_iff
    {value : Nat → Option Bool}
    {ls : List Literal}
    {n : Nat} :
    countTrue? value ls = some n ↔
      (∀ l ∈ ls, value l.index ≠ none) ∧
        (ls.countP fun l => value l.index == some l.value) = n := by
  induction ls generalizing n with
  | nil => simp [countTrue?]
  | cons l ls ih =>
      rw [countTrue?, List.forall_mem_cons, List.countP_cons]
      cases hValue : value l.index with
      | none => simp
      | some b =>
          cases hRest : countTrue? value ls with
          | none =>
              have hNot : ¬ ∀ l ∈ ls, value l.index ≠ none := by
                intro hAll
                have hSome := ih.mpr ⟨hAll, rfl⟩
                rw [hRest] at hSome
                cases hSome
              simp [hNot]
          | some count =>
              rcases ih.mp hRest with ⟨hAll, hCount⟩
              rw [and_iff_right ⟨Option.some_ne_none b, hAll⟩, hCount,
                Option.some.injEq]
              by_cases hTrue : b = l.value
              · simp [hTrue]
              · simp [hTrue]

theorem Constraint.satisfied?_eq_false_iff
    {c : Constraint}
    {value : Nat → Option Bool} :
    c.satisfied? value = some false ↔ c.Violated value := by
  unfold Constraint.satisfied? Constraint.Violated
  rw [Option.map_eq_some_iff]
  have hParity : ∀ n : Nat,
      ((n % 2 == 1) == c.parity.bit) = false ↔
        n % 2 ≠ c.parity.bit.toNat := by
    intro n
    rw [beq_eq_false_iff_ne, Ne, Ne, mod_two_eq_toNat_iff]
  constructor
  · rintro ⟨n, hCount, hWrong⟩
    rcases countTrue?_eq_some_iff.mp hCount with ⟨hAll, rfl⟩
    exact ⟨hAll, (hParity _).mp hWrong⟩
  · rintro ⟨hAll, hWrong⟩
    exact ⟨_, countTrue?_eq_some_iff.mpr ⟨hAll, rfl⟩,
      (hParity _).mpr hWrong⟩

theorem countTrue?_congr
    {value value' : Nat → Option Bool}
    {ls : List Literal}
    (hSame : ∀ l ∈ ls, value l.index = value' l.index) :
    countTrue? value ls = countTrue? value' ls := by
  induction ls with
  | nil => rfl
  | cons l ls ih =>
      rcases List.forall_mem_cons.mp hSame with ⟨hHead, hTail⟩
      rw [countTrue?, countTrue?, hHead, ih hTail]

/- If all literals have values, a constraint holds or is violated. -/
theorem Constraint.holds_iff_not_violated
    {c : Constraint}
    {value : Nat → Option Bool}
    {a : Assignment}
    (hTotal : ∀ l ∈ c.literals, value l.index = some (a l.index)) :
    c.Holds a ↔ ¬ c.Violated value := by
  have hCount : countTrue? value c.literals =
      countTrue? (fun v => some (a v)) c.literals :=
    countTrue?_congr hTotal
  have hSame : c.satisfied? value = c.satisfied? fun v => some (a v) := by
    rw [Constraint.satisfied?, hCount]
    rfl
  rw [← satisfied?_eq_false_iff, hSame]
  constructor
  · intro hHolds hFalse
    rw [hHolds] at hFalse
    cases hFalse
  · exact holds_of_not_violated

------------------------------------------------------------
-- What the host shows of a constraint
------------------------------------------------------------

namespace Host

variable {host : Host}

theorem countTrue?_eq
    {ls : List Literal}
    (hLt : ∀ l ∈ ls, l.index < host.size) :
    host.countTrue? ls = .ok (ParitySolver.countTrue? host.value ls) := by
  induction ls with
  | nil => rfl
  | cons l ls ih =>
      rcases List.forall_mem_cons.mp hLt with ⟨hHead, hTail⟩
      have hRead : host.read l.index = .ok (host.value l.index) :=
        read_eq_ok.mpr ⟨hHead, rfl⟩
      rw [countTrue?, ParitySolver.countTrue?, hRead, ih hTail]
      cases host.value l.index with
      | none => rfl
      | some b =>
          cases ParitySolver.countTrue? host.value ls <;> rfl

/- A host that has the variables of a constraint can judge it. -/
theorem satisfied?_eq
    {c : Constraint}
    (hLt : ∀ l ∈ c.literals, l.index < host.size) :
    host.satisfied? c = .ok (c.satisfied? host.value) := by
  rw [satisfied?, countTrue?_eq hLt]
  rfl

end Host

namespace Engine

variable {e : Engine} {host : Host}

theorem firstViolated?_eq_find?
    {cs : List StoredConstraint}
    (hLt : ∀ c ∈ cs, ∀ l ∈ c.given.literals, l.index < host.size) :
    firstViolated? host cs =
      .ok (cs.find? fun c => decide (c.given.Violated host.value)) := by
  induction cs with
  | nil => rfl
  | cons c cs ih =>
      rcases List.forall_mem_cons.mp hLt with ⟨hHead, hTail⟩
      rw [firstViolated?, Host.satisfied?_eq hHead, ih hTail,
        List.find?_cons]
      by_cases hViolated : c.given.Violated host.value
      · simp [hViolated, Constraint.satisfied?_eq_false_iff.mpr hViolated,
          bind, Except.bind, pure, Except.pure]
      · have hNot : c.given.satisfied? host.value ≠ some false :=
          fun hEq => hViolated (Constraint.satisfied?_eq_false_iff.mp hEq)
        simp [hViolated, hNot, bind, Except.bind]

------------------------------------------------------------
-- The reason
------------------------------------------------------------

/- Variables with values are read as the literals that the host holds. -/
theorem exists_reason
    {vs : List Nat}
    (hLt : ∀ v ∈ vs, v < host.size)
    (hAssigned : ∀ v ∈ vs, host.value v ≠ none) :
    ∃ ls,
      vs.mapM (hostLiteral? host) = .ok ls ∧
        ls.reduceOption.map Literal.index = vs ∧
        ∀ l ∈ ls.reduceOption, host.value l.index = some l.value := by
  induction vs with
  | nil => exact ⟨[], rfl, rfl, nofun⟩
  | cons v vs ih =>
      rcases List.forall_mem_cons.mp hLt with ⟨hHead, hTail⟩
      rcases List.forall_mem_cons.mp hAssigned with ⟨hFirst, hRest⟩
      rcases ih hTail hRest with ⟨ls, hRun, hIndices, hHeld⟩
      rcases Option.ne_none_iff_exists'.mp hFirst with ⟨b, hValue⟩
      have hLiteral : hostLiteral? host v = .ok (some ⟨v, b⟩) :=
        map_eq_ok.mpr ⟨some b, Host.read_eq_ok.mpr ⟨hHead, hValue⟩, rfl⟩
      refine ⟨some ⟨v, b⟩ :: ls, ?_, ?_, ?_⟩
      · exact mapM_eq_ok_iff.mpr
          (.cons hLiteral (mapM_eq_ok_iff.mp hRun))
      · rw [List.reduceOption_cons_of_some, List.map_cons, hIndices]
      · rw [List.reduceOption_cons_of_some]
        exact List.forall_mem_cons.mpr ⟨hValue, hHeld⟩

/-
  Values for the normal form of a violated constraint refute
  it, also where they leave out a variable that cancels.
-/
theorem refutes_of_violated
    {store : Store}
    (hStore : store.WellFormed)
    {c : StoredConstraint}
    (hMem : c ∈ store.constraints)
    {value : Nat → Option Bool}
    (hViolated : c.given.Violated value)
    {a : Assignment}
    (hAgrees : ∀ v ∈ c.vars, value v = some (a v)) :
    ¬ c.given.Holds a := by
  -- The assignment is changed to the known values outside of the
  -- normal form, which the normal form does not see.
  have hNot : ¬ c.given.Holds (overlay value a) := by
    rw [Constraint.holds_iff_not_violated, not_not]
    · exact hViolated
    · intro l hLiteral
      rcases Option.ne_none_iff_exists'.mp (hViolated.1 l hLiteral) with
        ⟨b, hValue⟩
      rw [overlay, hValue]
      rfl
  have hSame : c.defect a = c.defect (overlay value a) := by
    unfold StoredConstraint.defect
    rw [sumOver_congr]
    intro v hVar
    rw [overlay, hAgrees v hVar]
    rfl
  rw [hStore.given_iff c hMem] at hNot ⊢
  rwa [hSame]

------------------------------------------------------------
-- The first violation
------------------------------------------------------------

/-
  The reason is what the host holds of the normal form of a
  constraint that it violates, and refutes the constraint.
-/
structure Blames
    (host : Host)
    (c : StoredConstraint)
    (reason : List Literal) : Prop where
  violated : c.given.Violated host.value
  indices : reason.map Literal.index = c.vars
  ascend : reason.Pairwise fun l k => l.index < k.index
  held : ∀ l ∈ reason, host.value l.index = some l.value
  refutes :
    ∀ a : Assignment, (∀ l ∈ reason, l.Holds a) → ¬ c.given.Holds a

/- The reason blames the first constraint that the host violates. -/
structure FirstBlamed
    (store : Store)
    (host : Host)
    (c : StoredConstraint)
    (reason : List Literal) : Prop where
  first :
    ∃ before after, store.constraints.toList = before ++ c :: after ∧
      ∀ k ∈ before, ¬ k.given.Violated host.value
  blames : Blames host c reason

theorem FirstBlamed.mem
    {store : Store}
    {c : StoredConstraint}
    {reason : List Literal}
    (hFirst : FirstBlamed store host c reason) :
    c ∈ store.constraints := by
  rcases hFirst.first with ⟨before, after, hSplit, _⟩
  rw [← Array.mem_toList_iff, hSplit]
  exact List.mem_append_right _ List.mem_cons_self

section Stored

variable {declared : List Literal} {named : List (Nat × Constraint)}

theorem exists_blames
    (hStore : Store.ofNamed declared named = .ok e.store)
    (hHost : e.store.numVariables ≤ host.size)
    {c : StoredConstraint}
    (hMem : c ∈ e.store.constraints)
    (hViolated : c.given.Violated host.value) :
    ∃ reason,
      (c.vars.mapM (hostLiteral? host)).map
          (fun ls => CheckVerdict.conflict ls.reduceOption) =
        .ok (.conflict reason) ∧
      Blames host c reason := by
  have hWell := Store.wellFormed_of_ofNamed hStore
  -- A variable of the normal form occurs among the literals.
  have hAssigned : ∀ v ∈ c.vars, host.value v ≠ none := by
    intro v hVar
    rcases Store.exists_normalize_of_mem hStore hMem with
      ⟨entry, _, hNormal⟩
    rcases StoredConstraint.normalize_eq_ok hNormal with
      ⟨hGiven, hVars, _, _⟩
    rw [hVars] at hVar
    rcases StoredConstraint.exists_literal_of_mem_oddVariables hVar
      with ⟨l, hLiteral, rfl⟩
    exact hViolated.1 l (hGiven ▸ hLiteral)
  rcases exists_reason
      (fun v hVar => Nat.lt_of_lt_of_le (hWell.vars_lt c hMem v hVar)
        hHost) hAssigned with
    ⟨ls, hRun, hIndices, hHeld⟩
  refine ⟨ls.reduceOption, ?_, hViolated, hIndices, ?_, hHeld, ?_⟩
  · rw [hRun]
    rfl
  · have hAscend := hWell.vars_ascend c hMem
    rw [← hIndices, List.pairwise_map] at hAscend
    exact hAscend
  · intro a hHolds
    apply refutes_of_violated hWell hMem hViolated
    intro v hVar
    rw [← hIndices] at hVar
    rcases List.mem_map.mp hVar with ⟨l, hIn, rfl⟩
    rw [hHeld l hIn, hHolds l hIn]

/- Either nothing is violated, or the check blames what comes first. -/
theorem check_cases
    (hStore : Store.ofNamed declared named = .ok e.store)
    (hHost : e.store.numVariables ≤ host.size) :
    ((e.check host).2 = .ok .ok ∧
        ∀ c ∈ e.store.constraints, ¬ c.given.Violated host.value) ∨
      ∃ reason c,
        (e.check host).2 = .ok (.conflict reason) ∧
          FirstBlamed e.store host c reason := by
  have hFirst : firstViolated? host e.store.constraints.toList =
      .ok (e.store.constraints.toList.find? fun c =>
        decide (c.given.Violated host.value)) := by
    apply firstViolated?_eq_find?
    intro c hMem l hLiteral
    exact Nat.lt_of_lt_of_le
      (Store.lt_of_mem_literals hStore (Array.mem_toList_iff.mp hMem)
        hLiteral) hHost
  unfold check
  rw [hFirst]
  cases hFind : e.store.constraints.toList.find? fun c =>
      decide (c.given.Violated host.value) with
  | none =>
      refine .inl ⟨rfl, fun c hMem => ?_⟩
      simpa using List.find?_eq_none.mp hFind c
        (Array.mem_toList_iff.mpr hMem)
  | some c =>
      rcases List.find?_eq_some_iff_append.mp hFind with
        ⟨hViolated, before, after, hSplit, hBefore⟩
      have hMem : c ∈ e.store.constraints := by
        rw [← Array.mem_toList_iff, hSplit]
        simp
      rcases exists_blames hStore hHost hMem
          (of_decide_eq_true hViolated) with ⟨reason, hRun, hBlames⟩
      refine .inr ⟨reason, c, hRun, ⟨before, after, hSplit, ?_⟩,
        hBlames⟩
      intro k hK
      simpa using hBefore k hK

/- A host with all values passes if and only if it is a solution. -/
theorem check_eq_ok_iff_holds
    (hStore : Store.ofNamed declared named = .ok e.store)
    (hHost : e.store.numVariables ≤ host.size)
    {a : Assignment}
    (hTotal : ∀ v < e.store.numVariables, host.value v = some (a v)) :
    (e.check host).2 = .ok .ok ↔ e.store.Holds a := by
  have hHolds : e.store.Holds a ↔
      ∀ c ∈ e.store.constraints, ¬ c.given.Violated host.value := by
    refine forall₂_congr fun c hMem => ?_
    apply Constraint.holds_iff_not_violated
    intro l hLiteral
    exact hTotal _ (Store.lt_of_mem_literals hStore hMem hLiteral)
  rw [hHolds]
  rcases check_cases hStore hHost with
    ⟨hCheck, hNone⟩ | ⟨_, c, hCheck, hFirst⟩
  · exact iff_of_true hCheck hNone
  · rw [hCheck]
    exact iff_of_false nofun fun hNone =>
      hNone c hFirst.mem hFirst.blames.violated

/-
  In a host that has the variables of the store, the check
  comes to its end. It finds a conflict exactly if some
  constraint is violated, and then blames the first one. If
  all variables have values, it finds none exactly if these
  satisfy the store.
-/
theorem check_finds_first_violation
    (hStore : Store.ofNamed declared named = .ok e.store)
    (hHost : e.store.numVariables ≤ host.size) :
    (∃ verdict, (e.check host).2 = .ok verdict) ∧
      ((∃ reason, (e.check host).2 = .ok (.conflict reason)) ↔
        ∃ c ∈ e.store.constraints, c.given.Violated host.value) ∧
      (∀ reason, (e.check host).2 = .ok (.conflict reason) →
        ∃ c, FirstBlamed e.store host c reason) ∧
      ∀ a : Assignment,
        (∀ v < e.store.numVariables, host.value v = some (a v)) →
          ((e.check host).2 = .ok .ok ↔ e.store.Holds a) := by
  refine ⟨?_, ?_, ?_, fun a => check_eq_ok_iff_holds hStore hHost⟩
  · rcases check_cases hStore hHost with
      ⟨hCheck, _⟩ | ⟨_, _, hCheck, _⟩
    · exact ⟨_, hCheck⟩
    · exact ⟨_, hCheck⟩
  · constructor
    · rintro ⟨reason, hConflict⟩
      rcases check_cases hStore hHost with
        ⟨hCheck, _⟩ | ⟨_, c, _, hFirst⟩
      · cases hConflict.symm.trans hCheck
      · exact ⟨c, hFirst.mem, hFirst.blames.violated⟩
    · rintro ⟨c, hMem, hViolated⟩
      rcases check_cases hStore hHost with
        ⟨_, hNone⟩ | ⟨reason, _, hCheck, _⟩
      · exact absurd hViolated (hNone c hMem)
      · exact ⟨reason, hCheck⟩
  · intro reason hConflict
    rcases check_cases hStore hHost with
      ⟨hCheck, _⟩ | ⟨_, c, hCheck, hFirst⟩
    · cases hConflict.symm.trans hCheck
    · cases hConflict.symm.trans hCheck
      exact ⟨c, hFirst⟩

end Stored

/-
  The values already contradict the normal form of the first
  constraint, but its literal `l_4`, which cancels, has no
  value. The second constraint is blamed.
-/
theorem check_finds_first_violation_past_open_literal :
    ∃ (e : Engine) (c : StoredConstraint),
      Store.ofNamed
          [⟨0, true⟩, ⟨1, true⟩, ⟨2, true⟩, ⟨3, true⟩, ⟨4, true⟩]
          [(1, ⟨[⟨4, true⟩, ⟨0, true⟩, ⟨4, false⟩], .even⟩),
            (2, ⟨[⟨2, true⟩, ⟨1, true⟩, ⟨2, true⟩, ⟨0, true⟩], .odd⟩)] =
          .ok e.store ∧
        (e.check
            ⟨5, 0, fun v => if v < 3 then some (v == 2) else none⟩).2 =
          .ok (.conflict [⟨0, false⟩, ⟨1, false⟩]) ∧
        FirstBlamed e.store
          ⟨5, 0, fun v => if v < 3 then some (v == 2) else none⟩ c
          [⟨0, false⟩, ⟨1, false⟩] := by
  have hRun :
      (Store.ofNamed
          [⟨0, true⟩, ⟨1, true⟩, ⟨2, true⟩, ⟨3, true⟩, ⟨4, true⟩]
          [(1, ⟨[⟨4, true⟩, ⟨0, true⟩, ⟨4, false⟩], .even⟩),
            (2, ⟨[⟨2, true⟩, ⟨1, true⟩, ⟨2, true⟩, ⟨0, true⟩],
              .odd⟩)]).toOption.any
        (fun store =>
          (Engine.ofStore store
            ⟨.gjeTableau, ⟨0.5⟩, false⟩).toOption.any fun (e : Engine) =>
          decide (e.store = store ∧ e.store.numVariables = 5) &&
            (e.check
              ⟨5, 0, fun v =>
                if v < 3 then some (v == 2) else none⟩).2.toOption.any
              fun verdict => decide
                (verdict = .conflict [⟨0, false⟩, ⟨1, false⟩])) =
        true := by
    decide +kernel
  rcases exists_ok_of_any hRun with ⟨store, hStore, hNew⟩
  rcases exists_ok_of_any hNew with ⟨e, _, hFacts⟩
  rcases Bool.and_eq_true_iff.mp hFacts with ⟨hSame, hAnswer⟩
  rcases of_decide_eq_true hSame with ⟨rfl, hSize⟩
  rcases exists_ok_of_any hAnswer with ⟨verdict, hCheck, hVerdict⟩
  cases of_decide_eq_true hVerdict
  rcases (check_finds_first_violation hStore (Nat.le_of_eq hSize)).2.2.1
      _ hCheck with ⟨c, hFirst⟩
  exact ⟨e, c, hStore, hCheck, hFirst⟩

end Engine

end ParitySolver
