import ParitySolver.Proofs.Matrix.Keyed
import ParitySolver.Proofs.Theory.Tableau

/-
  The reasons that the matrix gives are minimal. If the
  constraints have a solution, then after any literals were
  taken in and given back, no literal of a reason can be left
  out, even if all constraints of the store may be used and
  not only those that the row remembers.

  Without one of its literals the reason leaves the variables
  of the row free enough to satisfy the row and not do what
  the event tells, and the private variables of the other
  rows complete this to a solution.

  Key definitions include:
    * `Event.Tells`
    * `Event.FollowsFrom`
    * `Event.MinimalReason`

  Main declarations:
    * `Incremental.keyed_repivot`
    * `Incremental.Built.keyed`
    * `Event.Supported.minimalReason`
    * `Incremental.reasons_are_minimal`
-/

namespace ParitySolver

------------------------------------------------------------
-- Minimal reasons
------------------------------------------------------------

namespace Event

variable {s : Store} {trail : Trail} {event : Event}

/- What the event says about a total assignment. -/
def Tells
    (a : Assignment) : Event → Prop
  | .propagation l _ => l.Holds a
  | .conflict _ => False

/-
  The constraints and these literals entail what the event
  tells, or, for a conflict, contradict each other.
-/
def FollowsFrom
    (s : Store)
    (part : List Literal)
    (event : Event) : Prop :=
  ∀ a, s.Holds a → (∀ l ∈ part, l.Holds a) → event.Tells a

/- The event follows from the literals, and from no fewer. -/
structure MinimalReason
    (s : Store)
    (reason : List Literal)
    (event : Event) : Prop where
  enough : event.FollowsFrom s reason
  minimal :
    ∀ part : List Literal, (∀ l ∈ part, l ∈ reason) →
      (∃ l ∈ reason, l ∉ part) → ¬ event.FollowsFrom s part

theorem Supported.followsFrom
    (hEvent : event.Supported s trail.value)
    (hStore : s.WellFormed)
    {reason : List Literal}
    (hExplain :
      event.origin.explain s trail event.forced? = .ok reason) :
    event.FollowsFrom s reason := by
  intro a hHolds hAgree
  cases event with
  | propagation l origin =>
      exact entails_of_propagation hStore hEvent.valid
        hEvent.explainable.1 hExplain hHolds hAgree
  | conflict origin =>
      exact refutes_of_conflict hStore hEvent.valid hExplain hHolds
        hAgree

/-
  Some values extend the trail, make the sum fail, and rule
  out what the event tells, as long as the open variables of
  the sum keep them.
-/
theorem Supported.exists_denial
    (hEvent : event.Supported s trail.value)
    (hStore : s.WellFormed)
    {reason : List Literal}
    (hExplain :
      event.origin.explain s trail event.forced? = .ok reason) :
    ∃ b, Extends b trail.value ∧ event.origin.defect s b = true ∧
      ∀ a : Assignment,
        (∀ v, trail.value v = none →
          event.origin.mentions s v = true → a v = b v) →
        ¬ event.Tells a := by
  cases event with
  | propagation l origin =>
      have hExtends := extends_overlay trail.value fun _ => !l.value
      have hOpen := hEvent.explainable.1
      have hDenied :
          overlay trail.value (fun _ => !l.value) l.index =
            !l.value :=
        overlay_of_none _ hOpen
      refine ⟨_, hExtends, ?_, ?_⟩
      · have hDefect := hEvent.valid.2 _ hExtends
        rw [hDenied, Bool.not_xor_self] at hDefect
        exact hDefect
      · intro a hSame hTells
        have hValue := hSame l.index hOpen
          (Origin.mentions_of_forced hStore hExplain)
        rw [hDenied, show a l.index = l.value from hTells] at hValue
        exact (Bool.eq_not_self l.value).mp hValue
  | conflict origin =>
      have hExtends := extends_overlay trail.value fun _ => false
      exact ⟨_, hExtends, hEvent.valid _ hExtends, fun _ _ => id⟩

/- Reasons of sums that can be completed are minimal. -/
theorem Supported.minimalReason
    (hEvent : event.Supported s trail.value)
    (hStore : s.WellFormed)
    (hExtensible : event.origin.Extensible s)
    {reason : List Literal}
    (hExplain :
      event.origin.explain s trail event.forced? = .ok reason) :
    event.MinimalReason s reason := by
  refine ⟨hEvent.followsFrom hStore hExplain, ?_⟩
  rintro part hPart ⟨k, hIn, hOut⟩ hFollows
  rcases Origin.explain_eq_ok hExplain with ⟨_, hValues, _, _⟩
  rcases hEvent.exists_denial hStore hExplain with
    ⟨b, hExtends, hDefect, hDenies⟩
  -- With the missing literal changed the sum holds.
  have hMentions := Origin.mentions_of_mem_explain hStore hExplain hIn
  have hTrue : event.origin.defect s (flipAt k.index b) = false := by
    rw [Origin.defect_flipAt_eq hStore, hDefect, hMentions]
    rfl
  rcases hExtensible _ hTrue with ⟨a, hHolds, hSame⟩
  have hKept : ∀ v, v ≠ k.index → event.origin.mentions s v = true →
      a v = b v := by
    intro v hNe hMention
    rw [hSame v hMention, flipAt_of_ne (Ne.symm hNe)]
  apply hDenies a
  · intro v hOpen hMention
    apply hKept v ?_ hMention
    rintro rfl
    rw [hValues k hIn] at hOpen
    cases hOpen
  · apply hFollows a hHolds
    intro l hMem
    have hReason := hPart l hMem
    have hNe : l.index ≠ k.index := by
      intro hIndex
      have hLiteral := hValues l hReason
      rw [hIndex, hValues k hIn, Option.some.injEq] at hLiteral
      have hEq : l = k := by
        cases l
        cases k
        cases hIndex
        cases hLiteral
        rfl
      exact hOut (hEq ▸ hMem)
    unfold Literal.Holds
    rw [hKept l.index hNe
      (Origin.mentions_of_mem_explain hStore hExplain hReason)]
    exact hExtends l.index l.value (hValues l hReason)

end Event

------------------------------------------------------------
-- Runs
------------------------------------------------------------

namespace Incremental

variable {s : Store} {rule : PivotRule} {m n : Matrix}
variable {t : Incremental} {trail : Trail}

/-
  Giving a row another pivot keeps the matrix keyed: the new
  pivot is a private variable of the row, and the other rows
  keep theirs.
-/
theorem keyed_repivot
    {value : Nat → Option Bool}
    (hStore : s.WellFormed)
    (hMatrix : m.Represents s value)
    (hTracked : m.tracked = true)
    (hKeyed : m.Keyed s)
    {r column : Nat}
    {changes : List MatrixChange}
    {notes : List Note}
    (hRepivot : repivot rule m r column = .ok (n, changes, notes))
    (hReduced : n.isReduced = true) :
    n.Keyed s := by
  have hAfter := represents_repivot hMatrix hRepivot
  rcases repivot_eq_ok hRepivot with
    ⟨released, previous, hRelease, hCase⟩
  have hReleased := hKeyed.of_keepsProvenance
    (Matrix.keepsProvenance_setPivot hRelease)
  rcases hCase with
    ⟨rfl, _⟩ | ⟨pivot, added, targets, former, hPivot, hSet, _⟩
  · exact hReleased
  have hKeeps := Matrix.keepsProvenance_setPivot hSet
  intro q row hRow hMentions
  by_cases hEq : r = q
  · subst hEq
    exact hAfter.1.exists_private hStore (hAfter.2.trans hTracked)
      hReduced hRow (Matrix.pivot_of_setPivot hSet hRow)
  · rcases hKeeps q row hRow with ⟨old, hOld, hSame⟩
    unfold Row.origin at hMentions
    rw [hSame] at hMentions
    rcases hReleased.pivotOn hStore (hMatrix.setPivot hRelease)
      ((Matrix.closed_tracked true).setPivot hTracked hRelease) hPivot hEq
      hOld hMentions with ⟨v, hPrivate⟩
    exact ⟨v, hPrivate.of_keepsProvenance hKeeps⟩

/- Wherever a run led, the matrix is keyed. -/
theorem Built.keyed
    (hBuilt : Built s rule trail t)
    (hStore : s.WellFormed) :
    t.matrix.Keyed s := by
  induction hBuilt with
  | new hNew =>
      have hFollows := (inStep_new hStore hNew).follows
      exact hFollows.represents.keyed hStore hFollows.tracked
        hFollows.reduced (Trail.value_empty s.numVariables)
  | assign hBefore hRelevant hSame hPush hAssign ih =>
      subst hSame
      have hFollows := (hBefore.inStep hStore).follows
      rcases assign_eq_ok hAssign with
        ⟨l, column, m, changes, notes, scanned, hLast, hColumn, hAbsorb,
          hReduced, rfl, _, _⟩
      cases (Trail.last?_of_push hPush).symm.trans hLast
      rcases absorb_eq_ok hAbsorb with ⟨folded, rows, hFold, hCase⟩
      have hKept := ih.of_keepsProvenance
        (Matrix.keepsProvenance_fold hFold)
      rcases hCase with ⟨rfl, _⟩ | ⟨r, later, notes, hRepivot, _⟩
      · exact hKept
      · have hFolded := hFollows.represents.fold hStore
          ((hStore.columnOf?_eq_some_iff _ column).mp hColumn)
          (Trail.value_of_push hPush)
          (Trail.value_eq_none_of_push hPush) hFold
        have hTracked : folded.tracked = true := by
          rw [(Matrix.fold_eq_ok hFold).2]
          exact hFollows.tracked
        exact keyed_repivot hStore hFolded hTracked hKept hRepivot
          hReduced

------------------------------------------------------------
-- Reasons of the matrix
------------------------------------------------------------

/- The event of a row rests on the constraints of the row. -/
theorem origin_of_rowEvent?
    {row : Row}
    {event : Event}
    (hEvent : Matrix.rowEvent? s row = .ok (some event)) :
    event.origin = row.origin := by
  rcases Matrix.rowEvent?_eq_ok hEvent with
    ⟨_, hNone⟩ | ⟨_, hSome⟩ | ⟨_, _, _, _, hSome⟩
  · cases hNone
  · cases hSome
    rfl
  · cases hSome
    rfl

/-
  The store has a solution. There is a matrix to start from.
  Wherever taking in and giving back led, the next literal
  can be taken in, the newest one can be given back, and
  every row whose sum has a variable has one that no other
  row has, be it open or not. The matrix can be scanned, and
  all its events have reasons, which are minimal.
-/
theorem reasons_are_minimal
    {declared : List Literal}
    {named : List (Nat × Constraint)}
    (hStore : Store.ofNamed declared named = .ok s)
    (hSatisfiable : ∃ a, s.Holds a)
    (rule : PivotRule) :
    (∃ t, ofStore s rule = .ok t) ∧
      ∀ trail t, Run s rule trail t →
        Proceeds s trail t ∧ t.matrix.Keyed s ∧
        ∃ events, t.matrix.scan s = .ok events ∧
          ∀ event ∈ events, ∃ reason,
            event.origin.explain s trail event.forced? =
                .ok reason ∧
              event.MinimalReason s reason := by
  have hWell := Store.wellFormed_of_ofNamed hStore
  constructor
  · rcases exists_ofStore hWell rule with ⟨t, hNew, _⟩
    exact ⟨t, hNew⟩
  · intro trail t hRun
    have hStep := hRun.built.inStep hWell
    have hKeyed := hRun.built.keyed hWell
    have hMatrix := hStep.follows.represents
    rcases hMatrix.exists_scan hStep.follows.tracked with
      ⟨events, hScan⟩
    refine ⟨hRun.proceeds hWell, hKeyed, events, hScan, ?_⟩
    intro event hMem
    have hEvent : event.Supported s trail.value :=
      ⟨hMatrix.valid_of_mem_scan hWell hScan hMem,
        Matrix.explainable_of_mem_scan hStep.shaped hMatrix hScan hMem⟩
    rcases Matrix.exists_row_of_mem_scan hScan hMem with
      ⟨r, row, hRow, hRowEvent⟩
    have hExtensible : event.origin.Extensible s := by
      rw [origin_of_rowEvent? hRowEvent]
      exact hKeyed.extensible hWell (hRun.built.lossless hWell)
        hSatisfiable hRow
    rcases hEvent.exists_explain with ⟨reason, hReason⟩
    exact ⟨reason, hReason,
      hEvent.minimalReason hWell hExtensible hReason⟩

/-
  After `l_0` was taken in, given back, and its complement
  and `l_2` were taken in, a sum of two constraints forces
  `l_3`, and neither of the two literals does so alone.
-/
theorem reasons_are_minimal_for_sum :
    ∃ s trail t events event,
      Store.ofNamed [⟨0, true⟩, ⟨1, true⟩, ⟨2, true⟩, ⟨3, true⟩]
          [(1, ⟨[⟨0, true⟩, ⟨1, true⟩], .odd⟩),
            (2, ⟨[⟨1, true⟩, ⟨2, true⟩, ⟨3, true⟩], .odd⟩),
            (3, ⟨[⟨0, true⟩, ⟨2, true⟩, ⟨3, true⟩], .even⟩)] =
          .ok s ∧
        (∃ a, s.Holds a) ∧
        Run s .minimumFill trail t ∧
        trail.entries = [⟨⟨2, true⟩, 2⟩, ⟨⟨0, false⟩, 1⟩] ∧
        t.matrix.Keyed s ∧
        t.matrix.scan s = .ok events ∧ event ∈ events ∧
        event.origin.positions = [0, 1] ∧
        event.forced? = some 3 ∧
        event.origin.explain s trail event.forced? =
          .ok [⟨0, false⟩, ⟨2, true⟩] ∧
        event.MinimalReason s [⟨0, false⟩, ⟨2, true⟩] := by
  have hRun :
      (Store.ofNamed [⟨0, true⟩, ⟨1, true⟩, ⟨2, true⟩, ⟨3, true⟩]
          [(1, ⟨[⟨0, true⟩, ⟨1, true⟩], .odd⟩),
            (2, ⟨[⟨1, true⟩, ⟨2, true⟩, ⟨3, true⟩], .odd⟩),
            (3, ⟨[⟨0, true⟩, ⟨2, true⟩, ⟨3, true⟩],
              .even⟩)]).toOption.any
        (fun s =>
          decide (s.isRelevant 0 = true ∧ s.isRelevant 2 = true ∧
            s.Holds fun v => v == 1) &&
          (ofStore s .minimumFill).toOption.any fun t =>
          ((Trail.empty s.numVariables).push
            ⟨0, true⟩ 1).toOption.any fun up =>
          (t.assign ⟨s, up, true, false⟩).toOption.any fun first =>
          first.1.unassign.toOption.any fun back =>
          ((Trail.empty s.numVariables).push
            ⟨0, false⟩ 1).toOption.any fun down =>
          (back.assign ⟨s, down, true, false⟩).toOption.any
          fun second =>
          (down.push ⟨2, true⟩ 2).toOption.any fun trail =>
          (second.1.assign ⟨s, trail, true, false⟩).toOption.any
          fun third =>
          (third.1.matrix.scan s).toOption.any fun events =>
          events[1]?.any fun event =>
          decide (event.origin.positions = [0, 1] ∧
            event.forced? = some 3) &&
          (event.origin.explain s trail
              event.forced?).toOption.any fun reason =>
            decide (reason = [⟨0, false⟩, ⟨2, true⟩])) =
        true := by
    decide +kernel
  rcases exists_ok_of_any hRun with ⟨s, hStore, hRun⟩
  rw [Bool.and_eq_true] at hRun
  rcases hRun with ⟨hKnown, hRun⟩
  rcases of_decide_eq_true hKnown with ⟨hZero, hTwo, hHolds⟩
  rcases exists_ok_of_any hRun with ⟨t, hNew, hRun⟩
  rcases exists_ok_of_any hRun with ⟨up, hUp, hRun⟩
  rcases exists_ok_of_any hRun with ⟨⟨t₁, found₁⟩, hFirst, hRun⟩
  rcases exists_ok_of_any hRun with ⟨back, hBack, hRun⟩
  rcases exists_ok_of_any hRun with ⟨down, hDown, hRun⟩
  rcases exists_ok_of_any hRun with ⟨⟨t₂, found₂⟩, hSecond, hRun⟩
  rcases exists_ok_of_any hRun with ⟨trail, hTrail, hRun⟩
  rcases exists_ok_of_any hRun with ⟨⟨t₃, found₃⟩, hThird, hRun⟩
  rcases exists_ok_of_any hRun with ⟨events, hScan, hRun⟩
  rcases (Option.any_eq_true _ _).mp hRun with ⟨event, hAt, hRun⟩
  rw [Bool.and_eq_true] at hRun
  rcases hRun with ⟨hShown, hRun⟩
  rcases of_decide_eq_true hShown with ⟨hPositions, hForced⟩
  rcases exists_ok_of_any hRun with ⟨reason, hExplain, hReason⟩
  cases of_decide_eq_true hReason
  have hUpRun : Run s .minimumFill up t₁ :=
    .assign (.new hNew) hZero rfl hUp hFirst
  have hDownRun : Run s .minimumFill down t₂ :=
    .assign (.unassign hUpRun hUp hBack) hZero rfl hDown hSecond
  have hEnd : Run s .minimumFill trail t₃ :=
    .assign hDownRun hTwo rfl hTrail hThird
  have hEntries : trail.entries = [⟨⟨2, true⟩, 2⟩, ⟨⟨0, false⟩, 1⟩] := by
    rw [Trail.entries_of_push hTrail, Trail.entries_of_push hDown]
    rfl
  have hMem := List.mem_of_getElem? hAt
  rcases (reasons_are_minimal hStore ⟨_, hHolds⟩ .minimumFill).2 trail
    t₃ hEnd with ⟨_, hKeyed, same, hSame, hEvents⟩
  cases hScan.symm.trans hSame
  rcases hEvents event hMem with ⟨again, hAgain, hMinimal⟩
  cases hExplain.symm.trans hAgain
  exact ⟨s, trail, t₃, events, event, hStore, ⟨_, hHolds⟩, hEnd,
    hEntries, hKeyed, hScan, hMem, hPositions, hForced, hExplain,
    hMinimal⟩

end Incremental

end ParitySolver
