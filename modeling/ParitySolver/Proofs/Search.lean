import ParitySolver.Proofs.Engine.Check
import ParitySolver.Proofs.Engine.Soundness
import ParitySolver.Proofs.Facts
import ParitySolver.Proofs.Pairing

/-
  Correctness of the search. The literals on the stack split
  the assignments into those that were tried before and those
  that are still ahead, in the order in which false comes
  before true and the lowest variable counts most. Solutions
  are never left behind: a literal is forced only if it
  follows, and a decision is flipped only after its first
  value has failed. So the first total assignment that passes
  the check is the least solution.

  Key definitions include:
    * `Precedes`
    * `LeastAmong`
    * `History.Before`
    * `Store.Excludes`
    * `Search.Explored`
    * `Search.Stands`
    * `Solution.Answers`

  Main declarations:
    * `Search.Explored.agrees_or_before`
    * `Search.explored_of_rounds`
    * `Search.Stands.flip`
    * `Search.Stands.run`
    * `Store.solve_finds_least_model`
-/

namespace ParitySolver

------------------------------------------------------------
-- The order of assignments
------------------------------------------------------------

/-
  At the first of the variables below `n` where they differ,
  the first assignment is false and the second one is true.
-/
def Precedes
    (n : Nat)
    (a b : Assignment) : Prop :=
  ∃ i < n, (∀ j < i, a j = b j) ∧ a i = false ∧ b i = true

/- The assignment comes first among those with a property. -/
structure LeastAmong
    (P : Assignment → Prop)
    (n : Nat)
    (a : Assignment) : Prop where
  holds : P a
  least : ∀ b, P b → (∀ i < n, a i = b i) ∨ Precedes n a b

/- The values of the variables below `n`, as literals. -/
def modelOf
    (n : Nat)
    (a : Assignment) : List Literal :=
  (List.range n).map fun i => ⟨i, a i⟩

theorem not_precedes_of_precedes
    {n : Nat}
    {a b : Assignment}
    (hFirst : Precedes n a b) :
    ¬ Precedes n b a := by
  rintro ⟨j, _, hSameJ, hFalseJ, hTrueJ⟩
  rcases hFirst with ⟨i, _, hSameI, hFalseI, hTrueI⟩
  rcases Nat.lt_trichotomy i j with hLt | rfl | hGt
  · rw [hSameJ i hLt, hFalseI] at hTrueI
    cases hTrueI
  · rw [hFalseI] at hTrueJ
    cases hTrueJ
  · rw [hSameI j hGt, hFalseJ] at hTrueJ
    cases hTrueJ

/- There is one least model. -/
theorem LeastAmong.modelOf_eq
    {P : Assignment → Prop}
    {n : Nat}
    {a b : Assignment}
    (hLeft : LeastAmong P n a)
    (hRight : LeastAmong P n b) :
    modelOf n a = modelOf n b := by
  have hSame : ∀ i < n, a i = b i := by
    rcases hLeft.least b hRight.holds with hSame | hBefore
    · exact hSame
    · rcases hRight.least a hLeft.holds with hSame | hAfter
      · exact fun i hLt => (hSame i hLt).symm
      · exact absurd hAfter (not_precedes_of_precedes hBefore)
  refine List.map_congr_left fun i hMem => ?_
  rw [hSame i (List.mem_range.mp hMem)]

------------------------------------------------------------
-- Histories and solutions
------------------------------------------------------------

/- The assignment makes the literals of the history true. -/
def History.Agrees
    (h : History Unit)
    (a : Assignment) : Prop :=
  ∀ entry ∈ h, entry.1.Holds a

theorem History.agrees_cons
    {entry : Literal × Reason Unit}
    {h : History Unit}
    {a : Assignment} :
    Agrees (entry :: h) a ↔ entry.1.Holds a ∧ Agrees h a :=
  List.forall_mem_cons

theorem History.Agrees.eq_of_value
    {h : History Unit}
    {a : Assignment}
    (hAgrees : h.Agrees a)
    {i : Nat}
    {b : Bool}
    (hValue : h.value i = some b) :
    a i = b := by
  rcases Option.map_eq_some_iff.mp hValue with
    ⟨entry, hFind, rfl⟩
  have hIndex := List.find?_some hFind
  simp only [beq_iff_eq] at hIndex
  rw [← hIndex]
  exact hAgrees entry (List.mem_of_find?_eq_some hFind)

theorem History.Agrees.value_eq
    {h : History Unit}
    {a : Assignment}
    (hAgrees : h.Agrees a)
    {i : Nat}
    (hSome : h.value i ≠ none) :
    h.value i = some (a i) := by
  rcases Option.ne_none_iff_exists'.mp hSome with ⟨b, hValue⟩
  rw [hValue, hAgrees.eq_of_value hValue]

/-
  At the first variable where they differ, the history is
  false and the assignment is true.
-/
def History.Before
    (h : History Unit)
    (b : Assignment) : Prop :=
  ∃ v, h.value v = some false ∧ b v = true ∧
    ∀ i < v, h.value i = some (b i)

theorem History.Before.cons
    {entry : Literal × Reason Unit}
    {h : History Unit}
    {b : Assignment}
    (hBefore : h.Before b)
    (hDistinct :
      ((entry :: h).map fun entry => entry.1.index).Nodup) :
    Before (entry :: h) b := by
  have hLift : ∀ {i : Nat} {c : Bool}, h.value i = some c →
      value (entry :: h) i = some c := by
    intro i c hValue
    rw [value_eq_some_iff (List.nodup_cons.mp hDistinct).2] at hValue
    rw [value_eq_some_iff hDistinct]
    exact List.mem_cons_of_mem _ hValue
  rcases hBefore with ⟨v, hFalse, hTrue, hLower⟩
  exact ⟨v, hLift hFalse, hTrue, fun i hLt => hLift (hLower i hLt)⟩

/- No solution agrees with the history. -/
def Store.Excludes
    (store : Store)
    (h : History Unit) : Prop :=
  ∀ a, store.Holds a → ¬ h.Agrees a

/- The literal follows from the constraints and the history. -/
def Store.Entails
    (store : Store)
    (h : History Unit)
    (l : Literal) : Prop :=
  ∀ a, store.Holds a → h.Agrees a → l.Holds a

------------------------------------------------------------
-- What lies behind a search
------------------------------------------------------------

namespace Search

/-
  How the history of a search came about. Forced literals
  follow from what was there before. A decision is about the
  lowest open variable; its first value is false, and it is
  flipped when no solution is left for the first value.
-/
inductive Explored
    (store : Store) : History Unit → List Bool → Prop where
  | start : Explored store [] []
  | forced {h : History Unit} {flips : List Bool} {l : Literal}
      (hOlder : Explored store h flips)
      (hEntails : store.Entails h l) :
      Explored store ((l, .propagation ()) :: h) flips
  | decided {h : History Unit} {flips : List Bool} {v : Nat}
      (hOlder : Explored store h flips)
      (hLower : ∀ i < v, h.value i ≠ none) :
      Explored store ((⟨v, false⟩, .decision) :: h)
        (false :: flips)
  | flipped {h : History Unit} {flips : List Bool} {v : Nat}
      (hOlder : Explored store h flips)
      (hLower : ∀ i < v, h.value i ≠ none)
      (hTried :
        store.Excludes ((⟨v, false⟩, .decision) :: h)) :
      Explored store ((⟨v, true⟩, .decision) :: h) (true :: flips)

namespace Explored

variable {store : Store} {h : History Unit} {flips : List Bool}

/- Literals that follow from the history extend it. -/
theorem force
    (hExplored : Explored store h flips)
    {ls : List Literal}
    (hEntails : ∀ l ∈ ls, store.Entails h l) :
    Explored store (h.force ls) flips := by
  induction ls generalizing h with
  | nil => exact hExplored
  | cons l ls ih =>
      rw [History.force_cons]
      rcases List.forall_mem_cons.mp hEntails with ⟨hHead, hRest⟩
      refine ih (hExplored.forced hHead) fun k hMem a hHolds hAgrees => ?_
      exact hRest k hMem a hHolds (History.agrees_cons.mp hAgrees).2

/-
  Every solution is still ahead: it agrees with the history,
  or the history comes before it.
-/
theorem agrees_or_before
    (hExplored : Explored store h flips)
    (hDistinct : (h.map fun entry => entry.1.index).Nodup)
    {b : Assignment}
    (hHolds : store.Holds b) :
    h.Agrees b ∨ h.Before b := by
  induction hExplored with
  | start => exact .inl nofun
  | forced _ hEntails ih =>
      rcases ih (List.nodup_cons.mp hDistinct).2 with
        hAgrees | hBefore
      · have hLiteral := hEntails b hHolds hAgrees
        exact .inl (History.agrees_cons.mpr ⟨hLiteral, hAgrees⟩)
      · exact .inr (hBefore.cons hDistinct)
  | @decided h _ v _ hLower ih =>
      rcases ih (List.nodup_cons.mp hDistinct).2 with
        hAgrees | hBefore
      · cases hValue : b v with
        | false =>
            exact .inl (History.agrees_cons.mpr ⟨hValue, hAgrees⟩)
        | true =>
            refine .inr ⟨v, ?_, hValue, fun i hLt => ?_⟩
            · rw [History.value_cons, if_pos rfl]
            · rw [History.value_cons, if_neg (Nat.ne_of_gt hLt)]
              exact hAgrees.value_eq (hLower i hLt)
      · exact .inr (hBefore.cons hDistinct)
  | @flipped h _ v _ _ hTried ih =>
      rcases ih (List.nodup_cons.mp hDistinct).2 with
        hAgrees | hBefore
      · refine .inl (History.agrees_cons.mpr ⟨?_, hAgrees⟩)
        refine eq_true_of_ne_false fun hFalse => ?_
        exact hTried b hHolds
          (History.agrees_cons.mpr ⟨hFalse, hAgrees⟩)
      · exact .inr (hBefore.cons hDistinct)

/- Without decisions on top, forced literals can be taken back. -/
theorem excludes_of_level_eq_zero
    {newer : History Unit}
    (hExplored : Explored store (newer ++ h) flips)
    (hLevel : History.level newer = 0)
    (hExcludes : store.Excludes (newer ++ h)) :
    Explored store h flips ∧ store.Excludes h := by
  induction newer with
  | nil => exact ⟨hExplored, hExcludes⟩
  | cons entry newer ih =>
      rw [History.level_cons] at hLevel
      cases hExplored with
      | forced hOlder hEntails =>
          refine ih hOlder hLevel fun a hHolds hAgrees => ?_
          have hLiteral := hEntails a hHolds hAgrees
          exact hExcludes a hHolds
            (History.agrees_cons.mpr ⟨hLiteral, hAgrees⟩)
      | decided => cases hLevel
      | flipped => cases hLevel

/-
  After a conflict the last decision is taken back. If it was
  flipped before, no solution is left below it; otherwise it
  may be flipped.
-/
theorem leave
    {newer older : History Unit}
    {l : Literal}
    {reason : Reason Unit}
    (hExplored :
      Explored store (newer ++ (l, reason) :: older) flips)
    (hDecision : reason.isDecision = true)
    (hLevel : History.level newer = 0)
    (hExcludes :
      store.Excludes (newer ++ (l, reason) :: older)) :
    ∃ flag rest, flips = flag :: rest ∧
      Explored store older rest ∧
      (flag = true → store.Excludes older) ∧
      (flag = false →
        Explored store ((l.negate, .decision) :: older)
          (true :: rest)) := by
  rcases hExplored.excludes_of_level_eq_zero hLevel hExcludes with
    ⟨hTop, hFailed⟩
  cases hTop with
  | forced => cases hDecision
  | decided hOlder hLower =>
      exact ⟨false, _, rfl, hOlder, nofun,
        fun _ => hOlder.flipped hLower hFailed⟩
  | @flipped _ _ v hOlder _ hTried =>
      refine ⟨true, _, rfl, hOlder, fun _ a hHolds hAgrees => ?_, nofun⟩
      cases hValue : a v with
      | false =>
          exact hTried a hHolds
            (History.agrees_cons.mpr ⟨hValue, hAgrees⟩)
      | true =>
          exact hFailed a hHolds
            (History.agrees_cons.mpr ⟨hValue, hAgrees⟩)

end Explored

------------------------------------------------------------
-- Drains
------------------------------------------------------------

section

variable {store : Store} {config : Config} {h : History Unit}
variable {flips : List Bool}

/- What an engine forces follows from the history of its host. -/
theorem entails_of_forced
    {e : Engine}
    {stack : DecisionStack Unit}
    {ps : List Propagation}
    (hIn : Pairing.InStep store config h ⟨e, stack⟩)
    (hTrust : e.Trustworthy stack.host (.forced ps)) :
    ∀ l ∈ ps.map Propagation.literal, store.Entails h l := by
  intro l hMem a hHolds hAgrees
  rcases List.mem_map.mp hMem with ⟨p, hP, rfl⟩
  have hJustified := hTrust.sound.2.2 p hP
  rw [hIn.regular.sameStore] at hJustified
  refine hJustified.entailed a hHolds fun k hK => ?_
  have hHeld := (hTrust.onTrail ps rfl p hP k hK).2
  rcases List.mem_map.mp
    ((Pairing.isTrue_iff_mem hIn.records).mp hHeld) with
    ⟨entry, hEntry, rfl⟩
  exact hAgrees entry hEntry

theorem explored_of_absorb
    {e : Engine}
    {demand : Demand}
    {stack stack' : DecisionStack Unit}
    {queue queue' : List Literal}
    {verdict : Verdict}
    (hExplored : Explored store h flips)
    (hIn : Pairing.InStep store config h ⟨e, stack⟩)
    (hTrust : e.Trustworthy stack.host verdict)
    (hAbsorb :
      Pairing.absorb demand stack queue verdict =
        (stack', .ok (some queue'))) :
    ∃ h', Explored store h' flips ∧
      Pairing.InStep store config h' ⟨e, stack'⟩ ∧
      stack'.numVariables = stack.numVariables := by
  rcases Pairing.absorb_eq_ok hAbsorb with
    ⟨_, rfl, _⟩ | ⟨ps, rfl, hForced, _⟩
  · exact ⟨h, hExplored, hIn, rfl⟩
  · rcases hIn.assignForced hForced with ⟨hAfter, hSize⟩
    exact ⟨_, hExplored.force (entails_of_forced hIn hTrust), hAfter,
      hSize⟩

theorem excludes_of_conflict
    {e : Engine}
    {stack : DecisionStack Unit}
    {reason : List Literal}
    (hIn : Pairing.InStep store config h ⟨e, stack⟩)
    (hTrust : e.Trustworthy stack.host (.conflict reason)) :
    store.Excludes h := by
  intro a hHolds hAgrees
  have hRefutes : e.store.Refutes stack.host reason := hTrust.sound
  rw [hIn.regular.sameStore] at hRefutes
  refine hRefutes.refuted a hHolds fun l hMem => ?_
  rcases List.mem_map.mp ((Pairing.isTrue_iff_mem hIn.records).mp
    (hRefutes.held l hMem)) with ⟨entry, hEntry, rfl⟩
  exact hAgrees entry hEntry

/-
  A drain adds literals that follow, and if it ends in a
  conflict, no solution agrees with what there is.
-/
theorem explored_of_rounds
    (hStore : store.WellFormed)
    {demand : Demand}
    {stack : DecisionStack Unit}
    {queue : List Literal}
    {reply : Reply Verdict}
    {conflict : Bool}
    {last : Pairing}
    (hRounds :
      Pairing.Rounds demand stack queue reply conflict last)
    (hAnswer : ∀ verdict, reply.outcome = .ok verdict →
      Pairing.InStep store config h ⟨reply.engine, stack⟩ ∧
        reply.engine.Trustworthy stack.host verdict)
    (hExplored : Explored store h flips) :
    ∃ h', Explored store h' flips ∧
      Pairing.InStep store config h' last ∧
      last.stack.numVariables = stack.numVariables ∧
      (conflict = true → store.Excludes h') := by
  induction hRounds generalizing h with
  | clash hReply =>
      rcases hAnswer _ hReply with ⟨hIn, hTrust⟩
      exact ⟨h, hExplored, hIn, rfl,
        fun _ => excludes_of_conflict hIn hTrust⟩
  | done hReply hAbsorb =>
      rcases hAnswer _ hReply with ⟨hIn, hTrust⟩
      rcases explored_of_absorb hExplored hIn hTrust hAbsorb with
        ⟨h', hExplored', hIn', hSize⟩
      exact ⟨h', hExplored', hIn', hSize, nofun⟩
  | next hReply hAbsorb _ _ ih =>
      rcases hAnswer _ hReply with ⟨hIn, hTrust⟩
      rcases explored_of_absorb hExplored hIn hTrust hAbsorb with
        ⟨h', hExplored', hIn', hSize⟩
      rcases ih (fun verdict hCall =>
          ⟨hIn'.propagate hCall,
            Engine.propagate_sound hStore hIn'.regular
              hIn'.holds_trail hCall⟩) hExplored' with
        ⟨h'', hExplored'', hIn'', hSize', hConflict⟩
      exact ⟨h'', hExplored'', hIn'', hSize'.trans hSize, hConflict⟩

end

------------------------------------------------------------
-- Steps of the search
------------------------------------------------------------

/- Where a search stands, with what lies behind it. -/
structure Stands
    (store : Store)
    (config : Config)
    (h : History Unit)
    (s : Search) : Prop where
  explored : Explored store h s.flipped
  inStep : Pairing.InStep store config h s.pairing
  size : s.pairing.stack.numVariables = store.numVariables

variable {store : Store} {config : Config} {h : History Unit}
variable {s s' : Search} {conflict : Bool}

theorem settled_eq_ok
    {d : Drain}
    (hSettled : s.settled d = .ok (s', conflict)) :
    d.outcome = .ok () ∧ s'.pairing = d.pairing ∧
      s'.flipped = s.flipped ∧ conflict = d.isConflict := by
  rcases bind_eq_ok.mp hSettled with ⟨⟨⟩, hOutcome, hEnd⟩
  cases hEnd
  exact ⟨hOutcome, rfl, rfl, rfl⟩

/- A drain leads from a stand to a stand. -/
theorem stands_of_settled
    (hStore : store.WellFormed)
    (hExplored : Explored store h s.flipped)
    {stack : DecisionStack Unit}
    (hSize : stack.numVariables = store.numVariables)
    {demand : Demand}
    {reply : Reply Verdict}
    (hAnswer : ∀ verdict, reply.outcome = .ok verdict →
      Pairing.InStep store config h ⟨reply.engine, stack⟩ ∧
        reply.engine.Trustworthy stack.host verdict)
    (hSettled :
      s.settled (Pairing.settle demand stack reply) =
        .ok (s', conflict)) :
    ∃ h', Stands store config h' s' ∧
      (conflict = true → store.Excludes h') := by
  rcases settled_eq_ok hSettled with
    ⟨hOutcome, hPairing, hFlipped, rfl⟩
  rcases explored_of_rounds hStore
      (Pairing.rounds_of_drain hOutcome) hAnswer hExplored with
    ⟨h', hExplored', hIn, hSame, hConflict⟩
  rw [← hFlipped] at hExplored'
  rw [← Pairing.settle, ← hPairing] at hIn hSame
  exact ⟨h', ⟨hExplored', hIn, hSame.trans hSize⟩, hConflict⟩

/- A decision that the history allows leads to a stand. -/
theorem Stands.decide
    (hStore : store.WellFormed)
    (hStands : Stands store config h s)
    {l : Literal}
    {flag : Bool}
    (hExplored :
      Explored store ((l, .decision) :: h) (flag :: s.flipped))
    (hDecide : s.decide l flag = .ok (s', conflict)) :
    ∃ h', Stands store config h' s' ∧
      (conflict = true → store.Excludes h') := by
  rcases bind_eq_ok.mp hDecide with ⟨stack, hAssign, hSettled⟩
  have hIn : Pairing.InStep store config ((l, .decision) :: h)
      ⟨s.pairing.engine, stack⟩ := hStands.inStep.push hAssign
  have hSize := (hStands.inStep.records.assign hAssign).2.1
  refine stands_of_settled hStore hExplored
    (hSize.trans hStands.size) ?_ hSettled
  intro verdict hCall
  exact ⟨hIn.propagate hCall,
    Engine.propagate_sound hStore hIn.regular hIn.holds_trail hCall⟩

/-
  Leaving the last level after a conflict takes back its
  decision and what followed from it.
-/
theorem Stands.leaveLevel
    (hStore : store.WellFormed)
    (hStands : Stands store config h s)
    (hExcludes : store.Excludes h)
    {below : Nat}
    (hLevel : h.level = below + 1)
    {decision : Literal}
    (hLeave : s.leaveLevel below = .ok (s', decision)) :
    ∃ older flag, s.flipped = flag :: s'.flipped ∧
      Stands store config older s' ∧
      older.level = below ∧
      (flag = true → store.Excludes older) ∧
      (flag = false →
        Explored store ((decision.negate, .decision) :: older)
          (true :: s'.flipped)) := by
  simp only [Search.leaveLevel, bind_eq_ok, pure_eq_ok] at hLeave
  rcases hLeave with
    ⟨⟨first, last⟩, hRange, _, hLiteral, stack, hJump, ⟨⟩, hUndo,
      hEnd⟩
  cases hEnd
  rcases hStands.inStep.records.top_decision_eq hLevel hRange hLiteral
    with ⟨newer, reason, older, rfl, hDecision, hNewer, hBelow, hBack⟩
  rcases hStands.inStep.back hStore hJump hUndo with
    ⟨hIn, hSize, _, _⟩
  rw [hBack] at hIn
  rcases hStands.explored.leave hDecision hNewer hExcludes with
    ⟨flag, rest, hFlips, hOlder, hFlipped, hFresh⟩
  have hTail : s.flipped.tail = rest := by
    rw [hFlips, List.tail_cons]
  subst hTail
  exact ⟨older, flag, hFlips,
    ⟨hOlder, hIn, hSize.trans hStands.size⟩, hBelow,
    hFlipped, hFresh⟩

/- Going down finds a decision to flip, or there is no solution. -/
theorem Stands.flip
    (hStore : store.WellFormed)
    (hStands : Stands store config h s)
    (hExcludes : store.Excludes h)
    {level : Nat}
    (hLevel : h.level = level)
    {flipped? : Option Literal}
    (hFlip : s.flip level = .ok (s', flipped?)) :
    (flipped? = none ∧ ∀ a, ¬ store.Holds a) ∨
      ∃ l older, flipped? = some l ∧
        Stands store config older s' ∧
        Explored store ((l, .decision) :: older)
          (true :: s'.flipped) := by
  induction level generalizing h s with
  | zero =>
      cases hFlip
      refine .inl ⟨rfl, fun a hHolds => ?_⟩
      have hExplored := hStands.explored
      rw [← List.append_nil h] at hExplored hExcludes
      exact (hExplored.excludes_of_level_eq_zero hLevel
        hExcludes).2 a hHolds nofun
  | succ below ih =>
      rcases bind_eq_ok.mp hFlip with ⟨⟨left, decision⟩, hLeave, hRest⟩
      rcases hStands.leaveLevel hStore hExcludes hLevel hLeave with
        ⟨older, flag, hFlips, hOlder, hBelow, hFailed, hFresh⟩
      have hHead : s.flipped.head?.getD true = flag := by
        rw [hFlips]
        rfl
      simp only [hHead] at hRest
      cases flag with
      | true => exact ih hOlder (hFailed rfl) hBelow hRest
      | false =>
          cases hRest
          exact .inr ⟨decision.negate, older, rfl,
            ⟨hOlder.explored, hOlder.inStep, hOlder.size⟩,
            hFresh rfl⟩

------------------------------------------------------------
-- The answer
------------------------------------------------------------

theorem lowestOpen?_eq_some
    (hStands : Stands store config h s)
    {v : Nat}
    (hOpen : s.lowestOpen? = some v) :
    ∀ i < v, h.value i ≠ none := by
  intro i hLt hNone
  have hBelow := (List.find?_range_eq_some.mp hOpen).2.2 i hLt
  rw [hStands.inStep.records.value_eq, hNone] at hBelow
  cases hBelow

theorem lowestOpen?_eq_none
    (hStands : Stands store config h s)
    (hOpen : s.lowestOpen? = none) :
    ∀ i < store.numVariables, ∃ b, h.value i = some b := by
  intro i hLt
  rw [← hStands.size] at hLt
  have hValue := List.find?_range_eq_none.mp hOpen i hLt
  rw [hStands.inStep.records.value_eq] at hValue
  exact Option.isSome_iff_exists.mp (by simpa using hValue)

/- The phases of total values are the values. -/
theorem phases_eq_ok
    (hStands : Stands store config h s)
    {a : Assignment}
    (hTotal : ∀ i < store.numVariables, h.value i = some (a i))
    {model : List Literal}
    (hPhases : s.phases = .ok model) :
    model = modelOf store.numVariables a := by
  rw [phases, hStands.size] at hPhases
  refine eq_map_of_mapM hPhases fun i hMem l hLiteral => ?_
  rcases map_eq_ok.mp hLiteral with ⟨b, hPhase, rfl⟩
  have hValue := hTotal i (List.mem_range.mp hMem)
  rw [hStands.inStep.records.phase_eq hValue hPhase]

theorem acceptModel_eq_ok
    {solution : Solution}
    (hAccept : s.acceptModel = .ok solution) :
    (s.pairing.engine.check s.pairing.stack.host).2 = .ok .ok ∧
      ∃ model, s.phases = .ok model ∧
        solution.model? = some model := by
  simp only [acceptModel, bind_eq_ok, pure_eq_ok, require_eq_ok,
    exists_const, decide_eq_true_eq] at hAccept
  rcases hAccept with ⟨verdict, hCheck, rfl, model, hPhases, rfl⟩
  exact ⟨hCheck, model, hPhases, rfl⟩

end Search

/- What a solution says about the assignments with a property. -/
structure Solution.Answers
    (P : Assignment → Prop)
    (n : Nat)
    (solution : Solution) : Prop where
  none_iff : solution.model? = none ↔ ¬ ∃ a, P a
  least :
    ∀ model, solution.model? = some model →
      ∃ a, LeastAmong P n a ∧ model = modelOf n a

/- The model does not depend on how it was found. -/
theorem Solution.Answers.model?_eq
    {P : Assignment → Prop}
    {n : Nat}
    {left right : Solution}
    (hLeft : left.Answers P n)
    (hRight : right.Answers P n) :
    left.model? = right.model? := by
  cases hModel : left.model? with
  | none => exact (hRight.none_iff.mpr (hLeft.none_iff.mp hModel)).symm
  | some model =>
      rcases hLeft.least model hModel with ⟨a, hLeastA, rfl⟩
      cases hOther : right.model? with
      | none =>
          exact absurd ⟨a, hLeastA.holds⟩ (hRight.none_iff.mp hOther)
      | some other =>
          rcases hRight.least other hOther with ⟨b, hLeastB, rfl⟩
          rw [hLeastA.modelOf_eq hLeastB]

namespace Search

/- A solution that a search has in full is the least one. -/
theorem Stands.leastAmong
    (hStands : Stands store config h s)
    {a : Assignment}
    (hTotal : ∀ i < store.numVariables, h.value i = some (a i))
    (hHolds : store.Holds a) :
    LeastAmong store.Holds store.numVariables a := by
  have hRecords := hStands.inStep.records
  have hRange : ∀ {i : Nat} {b : Bool}, h.value i = some b →
      i < store.numVariables := by
    intro i b hValue
    rw [History.value_eq_some_iff hRecords.distinct] at hValue
    rcases List.mem_map.mp hValue with ⟨entry, hMem, hEntry⟩
    have hLt := hRecords.inRange entry hMem
    rw [hEntry, hStands.size] at hLt
    exact hLt
  have hSame : ∀ {i : Nat} {b : Bool}, h.value i = some b →
      a i = b := by
    intro i b hValue
    rw [hTotal i (hRange hValue)] at hValue
    exact Option.some.inj hValue
  refine ⟨hHolds, fun b hOther => ?_⟩
  rcases hStands.explored.agrees_or_before hRecords.distinct hOther
    with hAgrees | ⟨v, hFalse, hTrue, hLower⟩
  · left
    intro i hLt
    exact (hAgrees.eq_of_value (hTotal i hLt)).symm
  · right
    exact ⟨v, hRange hFalse, fun i hLt => hSame (hLower i hLt),
      hSame hFalse, hTrue⟩

/- A total assignment that passes the check answers the question. -/
theorem Stands.acceptModel
    (hStands : Stands store config h s)
    (hOpen : s.lowestOpen? = none)
    {solution : Solution}
    (hAccept : s.acceptModel = .ok solution) :
    solution.Answers store.Holds store.numVariables := by
  rcases acceptModel_eq_ok hAccept with
    ⟨hCheck, model, hPhases, hModel⟩
  let a : Assignment := fun i => (h.value i).getD false
  have hTotal : ∀ i < store.numVariables,
      h.value i = some (a i) := by
    intro i hLt
    rcases lowestOpen?_eq_none hStands hOpen i hLt with ⟨b, hSome⟩
    simp only [a, hSome, Option.getD_some]
  have hHolds : store.Holds a := by
    rw [← hStands.inStep.regular.sameStore]
    refine Engine.holds_of_check (fun i hLt => ?_) hCheck
    exact (hStands.inStep.records.value_eq i).trans
      (hTotal i (hStands.size ▸ hLt))
  constructor
  · rw [hModel]
    exact ⟨nofun, fun hNone => absurd ⟨a, hHolds⟩ hNone⟩
  · intro found hFound
    rw [hModel] at hFound
    cases hFound
    exact ⟨a, hStands.leastAmong hTotal hHolds,
      phases_eq_ok hStands hTotal hPhases⟩

/- The progress is the right answer, or there is a stand to go on from. -/
def Progress.OnCourse
    (store : Store)
    (config : Config) : Progress → Prop
  | .finished solution =>
      solution.Answers store.Holds store.numVariables
  | .going s conflict =>
      ∃ h, Stands store config h s ∧
        (conflict = true → store.Excludes h)

theorem Stands.retreat
    (hStore : store.WellFormed)
    (hStands : Stands store config h s)
    (hExcludes : store.Excludes h)
    {progress : Progress}
    (hRetreat : s.retreat = .ok progress) :
    progress.OnCourse store config := by
  rcases bind_eq_ok.mp hRetreat with ⟨⟨left, flipped?⟩, hFlip, hRest⟩
  have hLevel := hStands.inStep.records.level_eq.symm
  have hCounted : Stands store config h
      { s with conflicts := s.conflicts + 1 } :=
    ⟨hStands.explored, hStands.inStep, hStands.size⟩
  rcases hCounted.flip hStore hExcludes hLevel hFlip with
    ⟨rfl, hNone⟩ | ⟨l, older, rfl, hOlder, hExplored⟩
  · cases hRest
    refine ⟨⟨fun _ => ?_, fun _ => rfl⟩, nofun⟩
    rintro ⟨a, hHolds⟩
    exact hNone a hHolds
  · rcases bind_eq_ok.mp hRest with ⟨⟨next, conflict⟩, hDecide, hEnd⟩
    cases hEnd
    exact hOlder.decide hStore hExplored hDecide

theorem Stands.extend
    (hStore : store.WellFormed)
    (hStands : Stands store config h s)
    {progress : Progress}
    (hExtend : s.extend = .ok progress) :
    progress.OnCourse store config := by
  unfold Search.extend at hExtend
  split at hExtend
  next hOpen =>
    rcases bind_eq_ok.mp hExtend with ⟨solution, hAccept, hEnd⟩
    cases hEnd
    exact hStands.acceptModel hOpen hAccept
  next v hOpen =>
    rcases bind_eq_ok.mp hExtend with
      ⟨⟨next, conflict⟩, hDecide, hEnd⟩
    cases hEnd
    have hCounted : Stands store config h
        { s with decisions := s.decisions + 1 } :=
      ⟨hStands.explored, hStands.inStep, hStands.size⟩
    have hExplored := hStands.explored.decided
      (lowestOpen?_eq_some hStands hOpen)
    exact hCounted.decide hStore hExplored hDecide

/- However long the search goes on, its answer is right. -/
theorem Stands.run
    (hStore : store.WellFormed)
    (hStands : Stands store config h s)
    (hConflict : conflict = true → store.Excludes h)
    {fuel : Nat}
    {solution : Solution}
    (hRun : Search.run fuel s conflict = .ok solution) :
    solution.Answers store.Holds store.numVariables := by
  induction fuel generalizing h s conflict with
  | zero => cases hRun
  | succ fuel ih =>
      rcases bind_eq_ok.mp hRun with ⟨progress, hAdvance, hRest⟩
      have hCourse : progress.OnCourse store config := by
        cases conflict with
        | true => exact hStands.retreat hStore (hConflict rfl) hAdvance
        | false => exact hStands.extend hStore hAdvance
      cases progress with
      | finished found =>
          cases hRest
          exact hCourse
      | going next conflict =>
          rcases hCourse with ⟨h', hStands', hConflict'⟩
          exact ih hStands' hConflict' hRest

end Search

------------------------------------------------------------
-- Solving
------------------------------------------------------------

theorem Store.solve_answers
    {store : Store}
    (hStore : store.WellFormed)
    {config : Config}
    {threshold? : Option Severity}
    {solution : Solution}
    (hSolve : store.solve config threshold? = .ok solution) :
    solution.Answers store.Holds store.numVariables := by
  rcases bind_eq_ok.mp hSolve with ⟨e, hEngine, hRest⟩
  rcases bind_eq_ok.mp hRest with ⟨⟨s, conflict⟩, hSettled, hRun⟩
  have hIn : Pairing.InStep store config []
      ⟨e, DecisionStack.withVariables store.numVariables⟩ :=
    Pairing.inStep_new hEngine
  rcases Search.stands_of_settled hStore .start
      (DecisionStack.numVariables_withVariables store.numVariables)
      (fun verdict hCall =>
        ⟨hIn.initialPropagation hCall,
          Engine.initialPropagation_sound hStore hIn.regular
            hIn.holds_trail hCall⟩) hSettled with
    ⟨h, hStands, hConflict⟩
  exact hStands.run hStore hConflict hRun

theorem Store.wellFormed_of_storeOfFacts
    {facts : List Fact}
    {store : Store}
    (hStore : storeOfFacts facts = .ok store) :
    store.WellFormed := by
  rcases Store.ofFacts_eq_ok hStore with ⟨groups, _, hNamed⟩
  exact wellFormed_of_ofNamed hNamed

/-
  Solving facts that were read. There is no model if and only
  if the facts have no solution, and otherwise the model is
  the least solution, whatever the strategy, the cutoff and
  the notes that are shown.
-/
theorem Store.solve_finds_least_model
    {bytes : ByteArray}
    {facts : List Fact}
    {store : Store}
    (hRead : readFacts bytes = .ok facts)
    (hStore : storeOfFacts facts = .ok store)
    {config : Config}
    {threshold? : Option Severity}
    {solution : Solution}
    (hSolve : store.solve config threshold? = .ok solution) :
    store.numVariables = Fact.largest facts ∧
      (solution.model? = none ↔ ¬ ∃ a, Fact.AllHold facts a) ∧
      (∀ model, solution.model? = some model →
        ∃ a, LeastAmong (Fact.AllHold facts) store.numVariables a ∧
          model = modelOf store.numVariables a) ∧
      ∀ config' threshold?' solution',
        store.solve config' threshold?' = .ok solution' →
          solution'.model? = solution.model? := by
  have hWell := wellFormed_of_storeOfFacts hStore
  have hMeaning : store.Holds = Fact.AllHold facts :=
    funext fun a => propext (storeOfFacts_holds_iff hStore a)
  have hAnswers := Store.solve_answers hWell hSolve
  refine ⟨storeOfFacts_numVariables
    (number_ne_zero_of_readFacts hRead) hStore, ?_, ?_, ?_⟩
  · rw [← hMeaning]
    exact hAnswers.none_iff
  · rw [← hMeaning]
    exact hAnswers.least
  · intro config' threshold?' solution' hSolve'
    exact (Store.solve_answers hWell hSolve').model?_eq hAnswers

/- A search that flips three decisions before it finds its model. -/
theorem Store.solve_finds_least_model_after_conflicts :
    ∃ facts store solution,
      readFacts
          ("__parity(7, odd, 1).\n% and\n__parity(7, odd, -2).\n" ++
            "__parity(4, odd, 2).").toUTF8 = .ok facts ∧
        storeOfFacts facts = .ok store ∧
        store.solve ⟨.countCheck, ⟨0.5⟩, false⟩ none =
          .ok solution ∧
        solution.conflicts = 3 ∧
        ∃ a, LeastAmong (Fact.AllHold facts) 2 a ∧
          [⟨0, true⟩, ⟨1, true⟩] = modelOf 2 a := by
  have hRun :
      (readFacts
        ("__parity(7, odd, 1).\n% and\n__parity(7, odd, -2).\n" ++
          "__parity(4, odd, 2).").toUTF8).toOption.any (fun facts =>
        (storeOfFacts facts).toOption.any fun store =>
          (store.solve ⟨.countCheck, ⟨0.5⟩, false⟩
            none).toOption.any fun (solution : Solution) =>
              decide (store.numVariables = 2 ∧
                solution.conflicts = 3 ∧
                solution.model? = some [⟨0, true⟩, ⟨1, true⟩])) =
        true := by
    decide +kernel
  rcases exists_ok_of_any hRun with ⟨facts, hRead, hRest⟩
  rcases exists_ok_of_any hRest with ⟨store, hStore, hRest⟩
  rcases exists_ok_of_any hRest with ⟨solution, hSolve, hEnd⟩
  rcases of_decide_eq_true hEnd with ⟨hSize, hConflicts, hModel⟩
  have hLeast :=
    (solve_finds_least_model hRead hStore hSolve).2.2.1 _ hModel
  rw [hSize] at hLeast
  exact ⟨facts, store, solution, hRead, hStore, hSolve, hConflicts,
    hLeast⟩

end ParitySolver
