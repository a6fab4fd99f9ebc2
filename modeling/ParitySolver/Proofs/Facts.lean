import Mathlib.Data.List.Induction
import ParitySolver.Proofs.Fact.Reader
import ParitySolver.Proofs.StoreIndex
import ParitySolver.Search

/-
  What a list of facts says, and why the store of the facts
  says the same: grouping collects, for each name, the
  literals of the facts with that name in their order, and
  normal forms keep the meaning of what was collected.

  Key definitions include:
    * `Fact.trueCount`
    * `Fact.AllHold`
    * `Store.Grouped`

  Main declarations:
    * `Store.grouped_of_groupFacts`
    * `storeOfFacts_holds_iff`
    * `storeOfFacts_numVariables`
    * `number_ne_zero_of_readFacts`
-/

namespace ParitySolver

------------------------------------------------------------
-- The meaning of facts
------------------------------------------------------------

namespace Fact

/- The number of true literals among the facts of a name. -/
def trueCount
    (facts : List Fact)
    (id : Nat)
    (a : Assignment) : Nat :=
  (facts.filter fun f => f.id == id).countP fun f =>
    decide (f.literal.Holds a)

/- For each name the number of true literals has its parity. -/
def AllHold
    (facts : List Fact)
    (a : Assignment) : Prop :=
  ∀ f ∈ facts, trueCount facts f.id a % 2 = f.parity.bit.toNat

instance
    (facts : List Fact)
    (a : Assignment) :
    Decidable (AllHold facts a) :=
  inferInstanceAs
    (Decidable
      (∀ f ∈ facts, trueCount facts f.id a % 2 = f.parity.bit.toNat))

end Fact

------------------------------------------------------------
-- Grouping
------------------------------------------------------------

namespace Store

/- The literals of the facts of a name, in order. -/
def literalsOf
    (facts : List ParityFact)
    (id : Nat) : List Literal :=
  (facts.filter fun f => f.id == id).map ParityFact.literal

theorem literalsOf_append
    (facts : List ParityFact)
    (f : ParityFact)
    (id : Nat) :
    literalsOf (facts ++ [f]) id =
      literalsOf facts id ++
        if f.id = id then [f.literal] else [] := by
  by_cases hEq : f.id = id
  · simp [literalsOf, hEq]
  · simp [literalsOf, hEq]

/- The groups are the constraints that the facts describe. -/
structure Grouped
    (facts : List ParityFact)
    (groups : List (Nat × Constraint)) : Prop where
  ascend : groups.Pairwise fun g k => g.1 < k.1
  named : ∀ f ∈ facts, ∃ g ∈ groups, g.1 = f.id
  inhabited : ∀ g ∈ groups, ∃ f ∈ facts, f.id = g.1
  literals : ∀ g ∈ groups, g.2.literals = literalsOf facts g.1
  parity :
    ∀ g ∈ groups, ∀ f ∈ facts, f.id = g.1 →
      f.parity = g.2.parity

theorem grouped_nil :
    Grouped [] [] :=
  ⟨.nil, nofun, nofun, nofun, nofun⟩

/-
  A fact is put at the end of the constraint of its name,
  which may be new, and the other constraints stay.
-/
theorem addFact_eq_ok
    {f : ParityFact}
    {groups groups' : List (Nat × Constraint)}
    (hAscend : groups.Pairwise fun g k => g.1 < k.1)
    (hAdd : addFact f groups = .ok groups') :
    ∃ old : List Literal,
      ((old = [] ∧ ∀ g ∈ groups, g.1 ≠ f.id) ∨
          (f.id, ⟨old, f.parity⟩) ∈ groups) ∧
        (∀ g, g ∈ groups' ↔
          g = (f.id, ⟨old ++ [f.literal], f.parity⟩) ∨
            (g ∈ groups ∧ g.1 ≠ f.id)) ∧
        groups'.Pairwise fun g k => g.1 < k.1 := by
  induction groups generalizing groups' with
  | nil =>
      cases hAdd
      exact ⟨[], .inl ⟨rfl, nofun⟩, by simp, by simp⟩
  | cons head groups ih =>
      rcases head with ⟨id, c⟩
      rcases List.pairwise_cons.mp hAscend with ⟨hHead, hTail⟩
      unfold addFact at hAdd
      split at hAdd
      next hLt =>
        cases hAdd
        have hNew : ∀ g ∈ (id, c) :: groups, f.id < g.1 := by
          rintro g (_ | ⟨_, hMem⟩)
          · exact hLt
          · exact Nat.lt_trans hLt (hHead g hMem)
        refine ⟨[], .inl ⟨rfl, fun g hMem => ?_⟩, ?_, ?_⟩
        · exact Nat.ne_of_gt (hNew g hMem)
        · intro g
          rw [List.mem_cons]
          refine or_congr_right ⟨fun hMem => ⟨hMem, ?_⟩, And.left⟩
          exact Nat.ne_of_gt (hNew g hMem)
        · exact List.pairwise_cons.mpr ⟨hNew, hAscend⟩
      next hLe =>
        split at hAdd
        next hEq =>
          split at hAdd
          next hParity =>
            cases hAdd
            subst hEq
            refine ⟨c.literals, .inr ?_, ?_, ?_⟩
            · rw [← hParity]
              exact List.mem_cons_self
            · intro g
              rw [List.mem_cons, ← hParity]
              refine or_congr_right ⟨fun hMem => ?_, ?_⟩
              · exact ⟨List.mem_cons_of_mem _ hMem,
                  Nat.ne_of_gt (hHead g hMem)⟩
              · rintro ⟨_ | ⟨_, hMem⟩, hNe⟩
                · exact absurd rfl hNe
                · exact hMem
            · exact List.pairwise_cons.mpr ⟨hHead, hTail⟩
          next => cases hAdd
        next hNe =>
          rcases map_eq_ok.mp hAdd with ⟨rest, hRest, rfl⟩
          rcases ih hTail hRest with ⟨old, hOld, hMem, hPairs⟩
          have hGt : id < f.id := by omega
          refine ⟨old, ?_, ?_, ?_⟩
          · rcases hOld with ⟨hNil, hFresh⟩ | hIn
            · refine .inl ⟨hNil, ?_⟩
              rintro g (_ | ⟨_, hG⟩)
              · exact Nat.ne_of_lt hGt
              · exact hFresh g hG
            · exact .inr (List.mem_cons_of_mem _ hIn)
          · intro g
            rw [List.mem_cons, hMem, List.mem_cons]
            constructor
            · rintro (rfl | hG | ⟨hG, hOther⟩)
              · exact .inr ⟨.inl rfl, Nat.ne_of_lt hGt⟩
              · exact .inl hG
              · exact .inr ⟨.inr hG, hOther⟩
            · rintro (hG | ⟨hG | hG, hOther⟩)
              · exact .inr (.inl hG)
              · exact .inl hG
              · exact .inr (.inr ⟨hG, hOther⟩)
          · refine List.pairwise_cons.mpr ⟨fun g hG => ?_, hPairs⟩
            rcases (hMem g).mp hG with rfl | ⟨hIn, _⟩
            · exact hGt
            · exact hHead g hIn

theorem Grouped.addFact
    {facts : List ParityFact}
    {f : ParityFact}
    {groups groups' : List (Nat × Constraint)}
    (hGrouped : Grouped facts groups)
    (hAdd : Store.addFact f groups = .ok groups') :
    Grouped (facts ++ [f]) groups' := by
  rcases addFact_eq_ok hGrouped.ascend hAdd with
    ⟨old, hOld, hMem, hAscend⟩
  have hLiterals : literalsOf facts f.id = old := by
    rcases hOld with ⟨rfl, hFresh⟩ | hIn
    · rw [literalsOf, List.map_eq_nil_iff, List.filter_eq_nil_iff]
      intro k hK hEq
      rcases hGrouped.named k hK with ⟨g, hG, hName⟩
      exact hFresh g hG (hName.trans (beq_iff_eq.mp hEq))
    · exact (hGrouped.literals _ hIn).symm
  have hParity : ∀ k ∈ facts, k.id = f.id → k.parity = f.parity := by
    intro k hK hEq
    rcases hOld with ⟨_, hFresh⟩ | hIn
    · rcases hGrouped.named k hK with ⟨g, hG, hName⟩
      exact absurd (hName.trans hEq) (hFresh g hG)
    · exact hGrouped.parity _ hIn k hK hEq
  refine ⟨hAscend, ?_, ?_, ?_, ?_⟩
  · intro k hK
    by_cases hEq : k.id = f.id
    · exact ⟨_, (hMem _).mpr (.inl rfl), hEq.symm⟩
    · rcases List.mem_append.mp hK with hK | hK
      · rcases hGrouped.named k hK with ⟨g, hG, hName⟩
        exact ⟨g, (hMem g).mpr (.inr ⟨hG, hName ▸ hEq⟩), hName⟩
      · exact absurd (congrArg ParityFact.id (List.mem_singleton.mp hK)) hEq
  · intro g hG
    rcases (hMem g).mp hG with rfl | ⟨hIn, _⟩
    · exact ⟨f, by simp, rfl⟩
    · rcases hGrouped.inhabited g hIn with ⟨k, hK, hName⟩
      exact ⟨k, List.mem_append_left _ hK, hName⟩
  · intro g hG
    rw [literalsOf_append]
    rcases (hMem g).mp hG with rfl | ⟨hIn, hNe⟩
    · rw [if_pos rfl, hLiterals]
    · rw [if_neg hNe.symm, List.append_nil]
      exact hGrouped.literals g hIn
  · intro g hG k hK hName
    rcases (hMem g).mp hG with rfl | ⟨hIn, hNe⟩
    · rcases List.mem_append.mp hK with hK | hK
      · exact hParity k hK hName
      · rw [List.mem_singleton.mp hK]
    · rcases List.mem_append.mp hK with hK | hK
      · exact hGrouped.parity g hIn k hK hName
      · rw [List.mem_singleton.mp hK] at hName
        exact absurd hName.symm hNe

/- Grouping finds the constraints that the facts describe. -/
theorem grouped_of_groupFacts
    {facts : List ParityFact}
    {groups : List (Nat × Constraint)}
    (hGroup : groupFacts facts = .ok groups) :
    Grouped facts groups := by
  -- The invariant is about the facts read so far, so the
  -- induction takes facts off the end.
  induction facts using List.reverseRecOn generalizing groups with
  | nil =>
      cases hGroup
      exact grouped_nil
  | append_singleton facts f ih =>
      rw [groupFacts, List.foldlM_append, bind_eq_ok] at hGroup
      rcases hGroup with ⟨before, hBefore, hAdd⟩
      rw [List.foldlM_cons, bind_eq_ok] at hAdd
      rcases hAdd with ⟨after, hAdd, hEnd⟩
      cases hEnd
      exact (ih hBefore).addFact hAdd

theorem ofFacts_eq_ok
    {declared : List Literal}
    {facts : List ParityFact}
    {s : Store}
    (hStore : ofFacts declared facts = .ok s) :
    ∃ groups, Grouped facts groups ∧
      ofNamed declared groups = .ok s := by
  rcases bind_eq_ok.mp hStore with ⟨u, hCollect, hRest⟩
  rcases bind_eq_ok.mp hRest with ⟨groups, hGroup, hStored⟩
  exact ⟨groups, grouped_of_groupFacts hGroup,
    bind_eq_ok.mpr ⟨u, hCollect, hStored⟩⟩

/- A store holds if all the constraints given to it hold. -/
theorem ofNamed_holds_iff
    {declared : List Literal}
    {named : List (Nat × Constraint)}
    {s : Store}
    (hStore : ofNamed declared named = .ok s)
    (a : Assignment) :
    s.Holds a ↔ ∀ entry ∈ named, entry.2.Holds a := by
  rcases ofNamed_eq_ok_iff.mp hStore with ⟨_, stored, hAll, rfl⟩
  have hGiven : stored.map StoredConstraint.given =
      named.map Prod.snd := by
    clear hStore
    induction hAll with
    | nil => rfl
    | cons hHead _ ih =>
        rw [List.map_cons, List.map_cons, ih,
          (StoredConstraint.normalize_eq_ok hHead).1]
  have hMembers : (∀ c ∈ stored, c.given.Holds a) ↔
      ∀ c ∈ stored.map StoredConstraint.given, c.Holds a := by
    rw [List.forall_mem_map]
  rw [Store.Holds]
  simp only [build, List.mem_toArray]
  rw [hMembers, hGiven, List.forall_mem_map]

end Store

------------------------------------------------------------
-- The store of facts
------------------------------------------------------------

theorem literalsOf_facts
    (facts : List Fact)
    (id : Nat) :
    Store.literalsOf (facts.map Fact.toParityFact) id =
      (facts.filter fun f => f.id == id).map Fact.literal := by
  rw [Store.literalsOf, List.filter_map, List.map_map]
  rfl

/- The store of facts says what the facts say. -/
theorem storeOfFacts_holds_iff
    {facts : List Fact}
    {store : Store}
    (hStore : storeOfFacts facts = .ok store)
    (a : Assignment) :
    store.Holds a ↔ Fact.AllHold facts a := by
  rcases Store.ofFacts_eq_ok hStore with
    ⟨groups, hGrouped, hNamed⟩
  rw [Store.ofNamed_holds_iff hNamed]
  have hGroup : ∀ g ∈ groups, ∀ f ∈ facts, f.id = g.1 →
      (g.2.Holds a ↔
        Fact.trueCount facts f.id a % 2 = f.parity.bit.toNat) := by
    intro g hG f hF hName
    have hParity : f.parity = g.2.parity :=
      hGrouped.parity g hG f.toParityFact
        (List.mem_map_of_mem hF) hName
    rw [Constraint.holds_iff_sum, hGrouped.literals g hG,
      literalsOf_facts, ← odd_countP, List.countP_map,
      mod_two_eq_toNat_iff, hParity, Fact.trueCount, hName]
    rfl
  constructor
  · intro hHolds f hF
    rcases hGrouped.named f.toParityFact (List.mem_map_of_mem hF)
      with ⟨g, hG, hName⟩
    exact (hGroup g hG f hF hName.symm).mp (hHolds g hG)
  · intro hHolds g hG
    rcases hGrouped.inhabited g hG with ⟨k, hK, hName⟩
    rcases List.mem_map.mp hK with ⟨f, hF, rfl⟩
    exact (hGroup g hG f hF hName).mpr (hHolds f hF)

theorem Store.numVariables_of_ofNamed
    {declared : List Literal}
    {named : List (Nat × Constraint)}
    {s : Store}
    (hStore : ofNamed declared named = .ok s) :
    s.numVariables = boundOf declared := by
  rcases ofNamed_eq_ok_iff.mp hStore with ⟨_, stored, _, rfl⟩
  exact Universe.bound_ofLiterals declared

/- The largest number that facts mention, up to its sign. -/
def Fact.largest
    (facts : List Fact) : Nat :=
  (facts.map fun f => f.number.natAbs).foldl max 0

/- The store of facts has the variables up to the largest number. -/
theorem storeOfFacts_numVariables
    {facts : List Fact}
    {store : Store}
    (hNumbers : ∀ f ∈ facts, f.number ≠ 0)
    (hStore : storeOfFacts facts = .ok store) :
    store.numVariables = Fact.largest facts := by
  rcases Store.ofFacts_eq_ok hStore with ⟨groups, _, hNamed⟩
  rw [Store.numVariables_of_ofNamed hNamed, boundOf, Fact.largest,
    List.foldl_map, List.foldl_map]
  refine List.foldl_ext _ _ _ fun n f hF => ?_
  have hPositive := Int.natAbs_pos.mpr (hNumbers f hF)
  rw [Fact.literal, Nat.sub_add_cancel hPositive]

------------------------------------------------------------
-- Facts that were read
------------------------------------------------------------

theorem Grammar.Line.number_ne_zero
    {text : List Char}
    {f : Fact}
    (hLine : Line text (some f)) :
    f.number ≠ 0 := by
  rcases hLine with ⟨_, _, _, ⟨_, _, _, _, _, hItem, _⟩, _⟩
  cases hItem with
  | fact hFact =>
      rcases hFact with
        ⟨_, _, _, _, _, _, ⟨_, _, _, _, _, hNumber, _⟩⟩
      exact hNumber.nonzero

/- Every number of a fact that was read names a variable. -/
theorem number_ne_zero_of_readFacts
    {bytes : ByteArray}
    {facts : List Fact}
    (hRead : readFacts bytes = .ok facts) :
    ∀ f ∈ facts, f.number ≠ 0 := by
  intro f hMem
  rcases readFacts_eq_ok_iff.mp hRead with
    ⟨_, _, items, _, _, _, hAll, rfl⟩
  rcases exists_of_forall₂_of_mem hAll
    (List.reduceOption_mem_iff.mp hMem) with ⟨_, _, hAccepted⟩
  exact hAccepted.1.number_ne_zero

end ParitySolver
