import Mathlib.Data.List.Sort
import Mathlib.Order.Bounds.Basic
import ParitySolver.Proofs.Facts
import ParitySolver.Proofs.NormalForm

/-
  Making a store from facts is exact. It succeeds if and only
  if there is room for the index, the facts of each name
  agree on the parity and all variables are declared. The
  store has then one constraint for each name, and it is the
  store of these constraints but for their names, so the
  order of the facts matters within a name only. If it fails,
  the error is about the first fact that disagrees with an
  earlier one of its name, and else about the first
  undeclared literal of the least name that has one. A
  universe that is too large is a fault, before the facts are
  looked at or, if it could be collected, after them.

  Key definitions include:
    * `ParityFact.Agree`
    * `ParityFact.Disagrees`
    * `Store.renumbered`
    * `Store.Collects`
    * `Store.Refuses`

  Main declarations:
    * `Store.groupFacts_eq_error`
    * `Store.Grouped.unique`
    * `Store.ofNamed_eq_ok_iff_declared`
    * `Store.ofCollected_eq_error`
    * `Store.Grouped.undeclared`
    * `Store.build_renumbered`
    * `Store.refuses_of_ofFacts`
    * `Store.facts_are_grouped_exactly`
-/

namespace ParitySolver

------------------------------------------------------------
-- Parities of a name
------------------------------------------------------------

namespace ParityFact

/- The facts of each name have the same parity. -/
def Agree
    (facts : List ParityFact) : Prop :=
  ∀ f ∈ facts, ∀ k ∈ facts, f.id = k.id → f.parity = k.parity

/- The parity that the first fact of a name has. -/
def firstParity?
    (facts : List ParityFact)
    (id : Nat) : Option Parity :=
  (facts.find? fun f => f.id == id).map ParityFact.parity

/- One of the facts does not have the first parity of its name. -/
def Disagrees
    (facts : List ParityFact)
    (f : ParityFact) : Prop :=
  firstParity? facts f.id ≠ some f.parity

instance
    (facts : List ParityFact)
    (f : ParityFact) :
    Decidable (Disagrees facts f) :=
  inferInstanceAs (Decidable (_ ≠ _))

variable {facts : List ParityFact}

/- The first parity of a name is that of one of its facts. -/
theorem exists_firstParity?
    {f : ParityFact}
    (hMem : f ∈ facts) :
    ∃ first ∈ facts, first.id = f.id ∧
      ∀ after, firstParity? (facts ++ after) f.id = some first.parity := by
  have hSome : (facts.find? fun k => k.id == f.id).isSome = true := by
    rw [List.find?_isSome]
    exact ⟨f, hMem, beq_self_eq_true f.id⟩
  rcases Option.isSome_iff_exists.mp hSome with ⟨first, hFind⟩
  refine ⟨first, List.mem_of_find?_eq_some hFind, ?_, ?_⟩
  · simpa using List.find?_some hFind
  · intro after
    rw [firstParity?, List.find?_append, hFind]
    rfl

/- Facts that agree have the first parities, whatever comes after. -/
theorem Agree.not_disagrees
    (hAgree : Agree facts)
    {f : ParityFact}
    (hMem : f ∈ facts)
    (after : List ParityFact) :
    ¬ Disagrees (facts ++ after) f := by
  rcases exists_firstParity? hMem with ⟨first, hFirst, hName, hParity⟩
  rw [Disagrees, not_not, hParity after,
    hAgree first hFirst f hMem hName]

theorem agree_iff_find?_eq_none :
    Agree facts ↔
      (facts.find? fun f => decide (Disagrees facts f)) = none := by
  rw [List.find?_eq_none]
  constructor
  · intro hAgree f hMem
    have hNot := hAgree.not_disagrees hMem []
    rw [List.append_nil] at hNot
    simpa using hNot
  · intro hNone f hF k hK hName
    have hParity : ∀ g ∈ facts,
        firstParity? facts g.id = some g.parity := by
      intro g hG
      have hNot := hNone g hG
      rwa [decide_eq_true_iff, Disagrees, not_not] at hNot
    have hEq := (hParity f hF).symm.trans (hName ▸ hParity k hK)
    exact Option.some.inj hEq

end ParityFact

namespace Store

open ParityFact

variable {declared : List Literal} {facts facts' : List ParityFact}
variable {groups groups' : List (Nat × Constraint)} {s : Store}

------------------------------------------------------------
-- Groups
------------------------------------------------------------

/- Grouped facts agree. -/
theorem Grouped.agree
    (hGrouped : Grouped facts groups) :
    Agree facts := by
  intro f hF k hK hName
  rcases hGrouped.named f hF with ⟨g, hG, hEq⟩
  rw [hGrouped.parity g hG f hF hEq.symm,
    hGrouped.parity g hG k hK (hName.symm.trans hEq.symm)]

/- The groups in terms of the facts. -/
theorem Grouped.mem_iff
    (hGrouped : Grouped facts groups)
    {g : Nat × Constraint} :
    g ∈ groups ↔
      ∃ f ∈ facts, g = (f.id, ⟨literalsOf facts f.id, f.parity⟩) := by
  have hShape : ∀ g ∈ groups, ∀ f ∈ facts, f.id = g.1 →
      g = (f.id, ⟨literalsOf facts f.id, f.parity⟩) := by
    rintro ⟨id, c⟩ hG f hF rfl
    rw [← hGrouped.literals _ hG, hGrouped.parity _ hG f hF rfl]
  constructor
  · intro hG
    rcases hGrouped.inhabited g hG with ⟨f, hF, hName⟩
    exact ⟨f, hF, hShape g hG f hF hName⟩
  · rintro ⟨f, hF, rfl⟩
    rcases hGrouped.named f hF with ⟨g, hG, hName⟩
    rwa [← hShape g hG f hF hName.symm]

/- A fact's literal is one of those of its name. -/
theorem mem_literalsOf
    {f : ParityFact}
    (hMem : f ∈ facts) :
    f.literal ∈ literalsOf facts f.id :=
  List.mem_map_of_mem
    (List.mem_filter.mpr ⟨hMem, beq_self_eq_true f.id⟩)

/- Only the order of the facts within each name matters. -/
theorem Grouped.unique
    (hGrouped : Grouped facts groups)
    (hGrouped' : Grouped facts' groups')
    (hSame : ∀ id,
      (facts'.filter fun f => f.id == id) =
        facts.filter fun f => f.id == id) :
    groups' = groups := by
  have hMem : ∀ f, f ∈ facts' ↔ f ∈ facts := by
    intro f
    have hFilter := congrArg (f ∈ ·) (hSame f.id)
    simpa using hFilter
  have hLiterals : ∀ id, literalsOf facts' id = literalsOf facts id :=
    fun id => congrArg (List.map ParityFact.literal) (hSame id)
  have hAscend : Std.Antisymm fun g k : Nat × Constraint => g.1 < k.1 :=
    ⟨fun _ _ hLt hGt => absurd hLt (Nat.lt_asymm hGt)⟩
  have hIrrefl : Std.Irrefl fun g k : Nat × Constraint => g.1 < k.1 :=
    ⟨fun _ => Nat.lt_irrefl _⟩
  apply hGrouped'.ascend.eq_of_mem_iff hGrouped.ascend
  intro g
  rw [hGrouped'.mem_iff, hGrouped.mem_iff]
  simp only [hMem, hLiterals]

/- A fact is refused if the constraint of its name has another parity. -/
theorem addFact_eq_error
    {f : ParityFact}
    {error : SetupError}
    (hAdd : addFact f groups = .error error) :
    error = .malformed f.id .parityDisagreement ∧
      ∃ c, (f.id, c) ∈ groups ∧ c.parity ≠ f.parity := by
  induction groups with
  | nil => cases hAdd
  | cons head groups ih =>
      rcases head with ⟨id, c⟩
      unfold addFact at hAdd
      split at hAdd
      next => cases hAdd
      next =>
        split at hAdd
        next hEq =>
          split at hAdd
          next => cases hAdd
          next hParity =>
            cases hAdd
            exact ⟨rfl, c, hEq ▸ List.mem_cons_self, hParity⟩
        next =>
          cases hRest : addFact f groups with
          | ok rest =>
              rw [hRest] at hAdd
              cases hAdd
          | error error' =>
              rw [hRest] at hAdd
              cases hAdd
              rcases ih hRest with ⟨hError, c', hMem, hParity⟩
              exact ⟨hError, c', List.mem_cons_of_mem _ hMem, hParity⟩

/- Grouping fails at the first fact that disagrees. -/
theorem groupFacts_eq_error
    {error : SetupError}
    (hGroup : groupFacts facts = .error error) :
    ∃ f, (facts.find? fun f => decide (Disagrees facts f)) = some f ∧
      error = .malformed f.id .parityDisagreement := by
  rcases exists_of_foldlM_eq_error hGroup with
    ⟨before, f, after, groups, rfl, hBefore, hAdd⟩
  have hGrouped := grouped_of_groupFacts hBefore
  rcases addFact_eq_error hAdd with ⟨hError, c, hMem, hParity⟩
  refine ⟨f, List.find?_eq_some_iff_append.mpr ⟨?_, before, after, rfl, ?_⟩,
    hError⟩
  · -- An earlier fact of the name has the parity of the group.
    have hNamed : ∃ k ∈ before, k.id = f.id :=
      hGrouped.inhabited _ hMem
    rcases hNamed with ⟨k, hK, hName⟩
    rcases exists_firstParity? hK with ⟨first, hFirst, hSame, hFound⟩
    rw [decide_eq_true_iff, Disagrees, ← hName, hFound]
    intro hEq
    apply hParity
    rw [← hGrouped.parity _ hMem first hFirst (hSame.trans hName)]
    exact Option.some.inj hEq
  · intro k hK
    simpa using hGrouped.agree.not_disagrees hK (f :: after)

------------------------------------------------------------
-- Stores of groups
------------------------------------------------------------

/-
  Named constraints can be stored if there is room for the
  index and all their literals are declared.
-/
theorem ofNamed_eq_ok_iff_declared
    {named : List (Nat × Constraint)} :
    ofNamed declared named = .ok s ↔
      Universe.HasRoom declared ∧
      (∀ entry ∈ named, entry.2.literals ≠ [] ∧
        ∀ l ∈ entry.2.literals, l.DeclaredBy declared) ∧
      build (boundOf declared)
        (named.map fun entry => .ofGiven entry.1 entry.2) = s := by
  rw [ofNamed_eq_ok_iff, Universe.bound_ofLiterals]
  simp only [StoredConstraint.normalize_eq_ok_iff,
    ← Literal.declaredBy_iff_contains, ← and_assoc,
    List.forall₂_and_left]
  have hMap : ∀ stored : List StoredConstraint,
      List.Forall₂
          (fun entry c => StoredConstraint.ofGiven entry.1 entry.2 = c)
          named stored ↔
        (named.map fun entry =>
          StoredConstraint.ofGiven entry.1 entry.2) = stored := by
    intro stored
    rw [← List.forall₂_eq_eq_eq, List.forall₂_map_left_iff]
  simp only [hMap, and_assoc, exists_and_left, exists_eq_left']

/-
  The first constraint that cannot be stored is refused. If
  there is none, there is no room for the index.
-/
theorem ofCollected_eq_error
    {named : List (Nat × Constraint)}
    {error : SetupError}
    (hStore :
      ofCollected (Universe.ofLiterals declared) named =
        .error error) :
    (∃ before entry after, named = before ++ entry :: after ∧
      (∀ k ∈ before, ∀ l ∈ k.2.literals, l.DeclaredBy declared) ∧
      ((entry.2.literals = [] ∧
          error = .malformed entry.1 .noLiterals) ∨
        ∃ l,
          (entry.2.literals.find? fun l =>
              decide (¬ l.DeclaredBy declared)) = some l ∧
            error = .malformed entry.1 (.undeclared l))) ∨
      ((∀ entry ∈ named, ∀ l ∈ entry.2.literals,
          l.DeclaredBy declared) ∧
        ¬ Universe.HasRoom declared ∧
        error = .fault (.capacityOverflow (boundOf declared))) := by
  rcases bind_eq_error.mp hStore with hFail | ⟨stored, hStored, hRest⟩
  · rcases exists_of_mapM_eq_error hFail with
      ⟨before, entry, after, hSplit, hBefore, hEntry⟩
    refine .inl ⟨before, entry, after, hSplit, ?_, ?_⟩
    · intro k hK l hLiteral
      rcases hBefore k hK with ⟨stored, hStored⟩
      rw [Literal.declaredBy_iff_contains]
      exact (StoredConstraint.normalize_eq_ok hStored).2.2.2 l hLiteral
    · have hRefused := StoredConstraint.normalize_eq_error_iff.mp hEntry
      simpa only [Literal.declaredBy_iff_contains, Bool.not_eq_true,
        Bool.decide_eq_false] using hRefused
  · refine .inr ⟨?_, ?_⟩
    · intro entry hMem l hLiteral
      rcases exists_of_forall₂_of_mem (mapM_eq_ok_iff.mp hStored).flip
        hMem with ⟨c, _, hNormal⟩
      rw [Literal.declaredBy_iff_contains]
      exact (StoredConstraint.normalize_eq_ok hNormal).2.2.2 l hLiteral
    · rw [← Universe.fits_bound_iff, ← Universe.bound_ofLiterals]
      by_cases hFits :
          Table.Fits 24 (Universe.ofLiterals declared).bound
      · have hRoom := Table.requireRoom_of_fits hFits
        rw [hRoom] at hRest
        cases hRest
      · rw [Table.requireRoom_of_not_fits hFits] at hRest
        cases hRest
        exact ⟨hFits, rfl⟩

/-
  If groups cannot be stored, the error is about the least
  name that has an undeclared literal, and about the first of
  these literals. If all are declared, there is no room.
-/
theorem Grouped.undeclared
    (hGrouped : Grouped facts groups)
    {error : SetupError}
    (hStore :
      ofCollected (Universe.ofLiterals declared) groups =
        .error error) :
    (∃ id l, error = .malformed id (.undeclared l) ∧
      IsLeast
        {i | ∃ f ∈ facts, f.id = i ∧ ¬ f.literal.DeclaredBy declared}
        id ∧
      ((literalsOf facts id).find? fun l =>
        decide (¬ l.DeclaredBy declared)) = some l) ∨
      ((∀ f ∈ facts, f.literal.DeclaredBy declared) ∧
        ¬ Universe.HasRoom declared ∧
        error = .fault (.capacityOverflow (boundOf declared))) := by
  rcases ofCollected_eq_error hStore with
    ⟨before, entry, after, rfl, hBefore, hEntry⟩ | ⟨hAll, hNoRoom⟩
  case inr =>
    refine .inr ⟨fun f hF => ?_, hNoRoom⟩
    have hGroup := hGrouped.mem_iff.mpr ⟨f, hF, rfl⟩
    exact hAll _ hGroup _ (mem_literalsOf hF)
  have hMem : entry ∈ before ++ entry :: after := by simp
  rw [hGrouped.literals entry hMem] at hEntry
  rcases hEntry with ⟨hEmpty, _⟩ | ⟨l, hFind, hError⟩
  · -- A group has the literal of a fact.
    rcases hGrouped.inhabited entry hMem with ⟨f, hF, hName⟩
    rw [literalsOf, List.map_eq_nil_iff, List.filter_eq_nil_iff] at hEmpty
    exact absurd (beq_iff_eq.mpr hName) (hEmpty f hF)
  · refine .inl ⟨entry.1, l, hError, ⟨?_, ?_⟩, hFind⟩
    · rcases List.mem_map.mp (List.mem_of_find?_eq_some hFind) with
        ⟨f, hF, rfl⟩
      rcases List.mem_filter.mp hF with ⟨hIn, hName⟩
      exact ⟨f, hIn, beq_iff_eq.mp hName,
        by simpa using List.find?_some hFind⟩
    · -- The groups with lesser names come before and are in order.
      rintro i ⟨f, hF, rfl, hUndeclared⟩
      by_contra hNot
      have hLt : f.id < entry.1 := Nat.lt_of_not_le hNot
      rcases hGrouped.named f hF with ⟨g, hG, hName⟩
      have hAscend := List.pairwise_append.mp hGrouped.ascend
      have hFirst : g ∈ before := by
        rcases List.mem_append.mp hG with hIn | hIn
        · exact hIn
        · rcases List.mem_cons.mp hIn with rfl | hLater
          · omega
          · have hGt := (List.pairwise_cons.mp hAscend.2.1).1 g hLater
            omega
      apply hUndeclared
      apply hBefore g hFirst
      rw [hGrouped.literals g hG, hName]
      exact mem_literalsOf hF

------------------------------------------------------------
-- Names
------------------------------------------------------------

/- The store with its constraints named by their positions. -/
def renumbered
    (s : Store) : Store :=
  { s with
    constraints := s.constraints.mapIdx fun position c =>
      { c with id := position } }

/- The occurrences depend on the variables only. -/
theorem occurrenceTable_eq
    (numVariables : Nat)
    (cs : List StoredConstraint) :
    occurrenceTable numVariables cs =
      (cs.map StoredConstraint.vars).zipIdx.foldr
        (fun (vs, position) table =>
          vs.foldl (fun table v => table.modify v (position :: ·)) table)
        (Array.replicate numVariables []) := by
  rw [occurrenceTable, List.zipIdx_map, List.foldr_map]
  rfl

/- Names play no part in the tables of a store. -/
theorem build_renumbered
    (numVariables : Nat)
    (cs : List StoredConstraint) :
    build numVariables
        (cs.mapIdx fun position c => { c with id := position }) =
      (build numVariables cs).renumbered := by
  have hVars :
      (cs.mapIdx fun position c => { c with id := position }).map
          StoredConstraint.vars =
        cs.map StoredConstraint.vars := by
    apply List.ext_getElem?
    intro position
    rw [List.getElem?_map, List.getElem?_mapIdx, List.getElem?_map,
      Option.map_map]
    rfl
  have hTable :
      occurrenceTable numVariables
          (cs.mapIdx fun position c => { c with id := position }) =
        occurrenceTable numVariables cs := by
    rw [occurrenceTable_eq, hVars, occurrenceTable_eq]
  simp only [build, renumbered, hTable, List.mapIdx_toArray]

theorem toList_constraints_of_ofNamed
    {named : List (Nat × Constraint)}
    (hStore : ofNamed declared named = .ok s) :
    s.constraints.toList =
      named.map fun entry => .ofGiven entry.1 entry.2 := by
  rcases ofNamed_eq_ok_iff_declared.mp hStore with ⟨_, _, rfl⟩
  rfl

/- Storing the constraints of a store again changes their names only. -/
theorem ofConstraints_given
    {named : List (Nat × Constraint)}
    (hStore : ofNamed declared named = .ok s) :
    ofConstraints declared
        (s.constraints.toList.map StoredConstraint.given) =
      .ok s.renumbered := by
  have hGiven : s.constraints.toList.map StoredConstraint.given =
      named.map Prod.snd := by
    rw [toList_constraints_of_ofNamed hStore, List.map_map]
    rfl
  rcases ofNamed_eq_ok_iff_declared.mp hStore with
    ⟨hRoom, hDeclared, rfl⟩
  rw [hGiven, ofConstraints, ofNamed_eq_ok_iff_declared,
    ← build_renumbered]
  refine ⟨hRoom, ?_, ?_⟩
  · intro entry hMem
    rcases List.mem_map.mp hMem with ⟨⟨c, position⟩, hIn, rfl⟩
    have hAt := List.mem_zipIdx_iff_getElem?.mp hIn
    rcases List.mem_map.mp (List.mem_of_getElem? hAt) with
      ⟨given, hMember, rfl⟩
    exact hDeclared given hMember
  · congr 1
    apply List.ext_getElem?
    intro position
    simp only [List.getElem?_map, List.getElem?_mapIdx,
      List.getElem?_zipIdx, Option.map_map, Nat.zero_add]
    rfl

------------------------------------------------------------
-- Stores of facts
------------------------------------------------------------

/- The constraints of the store are what the facts of each name say. -/
structure Collects
    (facts : List ParityFact)
    (s : Store) : Prop where
  /- The names ascend. -/
  ascend : s.constraints.toList.Pairwise fun c k => c.id < k.id
  /- They are the names of the facts. -/
  named :
    ∀ id, (∃ c ∈ s.constraints, c.id = id) ↔ ∃ f ∈ facts, f.id = id
  /- A constraint has the literals of its facts, in their order. -/
  literals :
    ∀ c ∈ s.constraints, c.literals = literalsOf facts c.id
  /- It has their parity. -/
  parity :
    ∀ c ∈ s.constraints, ∀ f ∈ facts, f.id = c.id →
      c.parity = f.parity

theorem Grouped.collects
    (hGrouped : Grouped facts groups)
    (hStore : ofNamed declared groups = .ok s) :
    s.Collects facts := by
  have hConstraints := toList_constraints_of_ofNamed hStore
  have hMem : ∀ c, c ∈ s.constraints ↔
      ∃ g ∈ groups, StoredConstraint.ofGiven g.1 g.2 = c := by
    intro c
    rw [← Array.mem_toList_iff, hConstraints, List.mem_map]
  constructor
  · rw [hConstraints, List.pairwise_map]
    exact hGrouped.ascend
  · intro id
    constructor
    · rintro ⟨c, hC, rfl⟩
      rcases (hMem c).mp hC with ⟨g, hG, rfl⟩
      exact hGrouped.inhabited g hG
    · rintro ⟨f, hF, rfl⟩
      rcases hGrouped.named f hF with ⟨g, hG, hName⟩
      exact ⟨_, (hMem _).mpr ⟨g, hG, rfl⟩, hName⟩
  · intro c hC
    rcases (hMem c).mp hC with ⟨g, hG, rfl⟩
    exact hGrouped.literals g hG
  · intro c hC f hF hName
    rcases (hMem c).mp hC with ⟨g, hG, rfl⟩
    exact (hGrouped.parity g hG f hF hName).symm

/- What can be wrong with facts, and what is then reported. -/
inductive Refuses
    (declared : List Literal)
    (facts : List ParityFact) : SetupError → Prop where
  /- A declared variable is too large to be collected. -/
  | tooLarge
      {l : Literal}
      {fault : Fault}
      (hFirst :
        (declared.find? fun l =>
          decide (IndexSet.capacity ≤ l.index)) = some l)
      (hRoom : IndexSet.requireRoom l.index = .error fault) :
      Refuses declared facts (.fault fault)
  /- A fact does not have the parity of an earlier one. -/
  | disagreement
      {f : ParityFact}
      (hSmall : ∀ l ∈ declared, l.index < IndexSet.capacity)
      (hFirst :
        (facts.find? fun f => decide (Disagrees facts f)) = some f) :
      Refuses declared facts (.malformed f.id .parityDisagreement)
  /- A variable is not declared. -/
  | undeclared
      {id : Nat}
      {l : Literal}
      (hSmall : ∀ l ∈ declared, l.index < IndexSet.capacity)
      (hAgree : Agree facts)
      (hLeast :
        IsLeast
          {i | ∃ f ∈ facts, f.id = i ∧
            ¬ f.literal.DeclaredBy declared} id)
      (hFirst :
        ((literalsOf facts id).find? fun l =>
          decide (¬ l.DeclaredBy declared)) = some l) :
      Refuses declared facts (.malformed id (.undeclared l))
  /- The index has no room for all variables. -/
  | noRoom
      (hSmall : ∀ l ∈ declared, l.index < IndexSet.capacity)
      (hAgree : Agree facts)
      (hDeclared : ∀ f ∈ facts, f.literal.DeclaredBy declared)
      (hNoRoom : ¬ Universe.HasRoom declared) :
      Refuses declared facts
        (.fault (.capacityOverflow (boundOf declared)))

/- If facts make no store, there is a reason. -/
theorem refuses_of_ofFacts
    {error : SetupError}
    (hStore : ofFacts declared facts = .error error) :
    Refuses declared facts error := by
  rcases bind_eq_error.mp hStore with hCollect | ⟨u, hCollect, hRest⟩
  · rcases Universe.collect_eq_error hCollect with
      ⟨l, fault, hFirst, hRoom, rfl⟩
    exact .tooLarge hFirst hRoom
  · rcases Universe.collect_eq_ok_iff.mp hCollect with ⟨hSmall, rfl⟩
    rcases bind_eq_error.mp hRest with hGroup | ⟨groups, hGroup, hStored⟩
    · rcases groupFacts_eq_error hGroup with ⟨f, hFirst, rfl⟩
      exact .disagreement hSmall hFirst
    · have hGrouped := grouped_of_groupFacts hGroup
      rcases hGrouped.undeclared hStored with
        ⟨id, l, rfl, hLeast, hFirst⟩ | ⟨hDeclared, hNoRoom, rfl⟩
      · exact .undeclared hSmall hGrouped.agree hLeast hFirst
      · exact .noRoom hSmall hGrouped.agree hDeclared hNoRoom

/- The variable that is too large to be collected is declared. -/
theorem large_of_find?
    {l : Literal}
    (hFirst :
      (declared.find? fun l =>
        decide (IndexSet.capacity ≤ l.index)) = some l) :
    l ∈ declared ∧ IndexSet.capacity ≤ l.index :=
  ⟨List.mem_of_find?_eq_some hFirst,
    by simpa using List.find?_some hFirst⟩

theorem exists_ofFacts_iff :
    (∃ s, ofFacts declared facts = .ok s) ↔
      Universe.HasRoom declared ∧ Agree facts ∧
        ∀ f ∈ facts, f.literal.DeclaredBy declared := by
  constructor
  · rintro ⟨s, hStore⟩
    rcases ofFacts_eq_ok hStore with ⟨groups, hGrouped, hNamed⟩
    rcases ofNamed_eq_ok_iff_declared.mp hNamed with
      ⟨hRoom, hDeclared, _⟩
    refine ⟨hRoom, hGrouped.agree, fun f hF => ?_⟩
    have hGroup := hGrouped.mem_iff.mpr ⟨f, hF, rfl⟩
    exact (hDeclared _ hGroup).2 _ (mem_literalsOf hF)
  · rintro ⟨hRoom, hAgree, hDeclared⟩
    cases hStore : ofFacts declared facts with
    | ok s => exact ⟨s, rfl⟩
    | error error =>
        cases refuses_of_ofFacts hStore with
        | tooLarge hFirst _ =>
            rcases large_of_find? hFirst with ⟨hMem, hLarge⟩
            have hLt := hRoom.lt_capacity hMem
            exact absurd hLarge (Nat.not_le.mpr hLt)
        | disagreement _ hFirst =>
            rw [agree_iff_find?_eq_none.mp hAgree] at hFirst
            cases hFirst
        | undeclared _ _ hLeast _ =>
            rcases hLeast.1 with ⟨f, hF, _, hUndeclared⟩
            exact absurd (hDeclared f hF) hUndeclared
        | noRoom _ _ _ hNoRoom => exact absurd hRoom hNoRoom

/- Facts in another order, the same within each name, give the store. -/
theorem ofFacts_of_filter_eq
    (hStore : ofFacts declared facts = .ok s)
    (hSame : ∀ id,
      (facts'.filter fun f => f.id == id) =
        facts.filter fun f => f.id == id) :
    ofFacts declared facts' = .ok s := by
  have hMem : ∀ f, f ∈ facts' → f ∈ facts := by
    intro f hF
    have hFilter : f ∈ facts.filter fun k => k.id == f.id := by
      rw [← hSame]
      exact List.mem_filter.mpr ⟨hF, beq_self_eq_true f.id⟩
    exact (List.mem_filter.mp hFilter).1
  rcases exists_ofFacts_iff.mp ⟨s, hStore⟩ with
    ⟨hRoom, hAgree, hDeclared⟩
  have hAgree' : Agree facts' := fun f hF k hK =>
    hAgree f (hMem f hF) k (hMem k hK)
  have hDeclared' : ∀ f ∈ facts', f.literal.DeclaredBy declared :=
    fun f hF => hDeclared f (hMem f hF)
  rcases exists_ofFacts_iff.mpr ⟨hRoom, hAgree', hDeclared'⟩ with
    ⟨s', hStore'⟩
  rcases ofFacts_eq_ok hStore with ⟨groups, hGrouped, hNamed⟩
  rcases ofFacts_eq_ok hStore' with ⟨groups', hGrouped', hNamed'⟩
  rw [hGrouped.unique hGrouped' hSame] at hNamed'
  rw [hStore', ← hNamed', hNamed]

-- The disagreement about `9` is met first, although `4` is less,
-- has one as well, and has a literal that is not declared.
example :
    ofFacts [⟨0, true⟩]
        [⟨9, .even, ⟨0, true⟩⟩, ⟨4, .odd, ⟨7, false⟩⟩,
          ⟨9, .odd, ⟨0, false⟩⟩, ⟨4, .even, ⟨0, true⟩⟩] =
      .error (.malformed 9 .parityDisagreement) :=
  rfl

end Store

end ParitySolver
