import ParitySolver.Event
import ParitySolver.Proofs.StoreIndex
import ParitySolver.Proofs.Trail

/-
  What an event says, and that its reason shows it.

  An event names constraints. It is valid under the values
  of a trail if the sum of these constraints, with the
  values put in, is what the event claims. The reason of a
  valid event holds the values of all other variables of the
  sum, so the constraints and the reason entail the event,
  whatever the rest of the trail is.

  Key definitions include:
    * `Origin.defect`
    * `Event.Valid`
    * `Event.Plain`
    * `Ascending`

  Main declarations:
    * `Origin.explain_eq_ok`
    * `Event.entails_of_propagation`
    * `Event.refutes_of_conflict`
    * `Event.valid_conflict_of_combine`
    * `Event.Plain.valid`
-/

namespace ParitySolver

------------------------------------------------------------
-- Sums of constraints
------------------------------------------------------------

/- By how much the constraint at a position fails. -/
def Store.defectAt
    (s : Store)
    (a : Assignment)
    (position : Nat) : Bool :=
  match s.constraints[position]? with
  | some c => c.defect a
  | none => false

theorem Store.defectAt_eq_false
    {s : Store}
    (hStore : s.WellFormed)
    {a : Assignment}
    (hHolds : s.Holds a)
    (position : Nat) :
    s.defectAt a position = false := by
  unfold Store.defectAt
  split
  · rename_i c hGet
    exact (hStore.holds_iff_defect a).mp hHolds c
      (Array.mem_of_getElem? hGet)
  · rfl

/- By how much the sum of the constraints of an origin fails. -/
def Origin.defect
    (s : Store)
    (o : Origin)
    (a : Assignment) : Bool :=
  sumOver (s.defectAt a) o.positions

theorem Origin.defect_eq_false
    {s : Store}
    (hStore : s.WellFormed)
    {a : Assignment}
    (hHolds : s.Holds a)
    (o : Origin) :
    o.defect s a = false :=
  sumOver_eq_false fun position _ =>
    Store.defectAt_eq_false hStore hHolds position

------------------------------------------------------------
-- Valid events
------------------------------------------------------------

/-
  An event is valid under some values if, for every total
  assignment with these values, the sum of its constraints
  fails exactly if the event's literal is false, or, for a
  conflict, always.
-/
def Event.Valid
    (s : Store)
    (value : Nat → Option Bool) : Event → Prop
  | .propagation l origin =>
      s.isRelevant l.index = true ∧
        ∀ a, Extends a value →
          origin.defect s a = (a l.index ^^ l.value)
  | .conflict origin =>
      ∀ a, Extends a value → origin.defect s a = true

/- The sum of the origins of a literal and its complement fails. -/
theorem Event.valid_conflict_of_combine
    {s : Store}
    {value : Nat → Option Bool}
    {l : Literal}
    {first second both : Origin}
    {numConstraints : Nat}
    (hFirst : Event.Valid s value (.propagation l first))
    (hSecond :
      Event.Valid s value (.propagation l.negate second))
    (hBoth : first.combine second numConstraints = .ok both) :
    Event.Valid s value (.conflict both) := by
  intro a hExtends
  unfold Origin.combine at hBoth
  rcases map_eq_ok.mp hBoth with ⟨positions, hToggle, rfl⟩
  have hSum :=
    BitSet.sumOver_ones_toggleAll (s.defectAt a) hToggle
  have hLeft := hFirst.2 a hExtends
  have hRight := hSecond.2 a hExtends
  unfold Origin.defect at hLeft hRight ⊢
  rw [show (Origin.combination positions).positions =
      positions.ones from rfl,
    hSum, BitSet.sumOver_ones_zero, sumOver_append, hLeft, hRight,
    Literal.negate_index, Literal.negate_value]
  cases a l.index <;> cases l.value <;> rfl

/- A constraint without open variables that fails is a conflict. -/
theorem Event.valid_conflict_of_assigned
    {s : Store}
    {value : Nat → Option Bool}
    {position : Nat}
    {c : StoredConstraint}
    (hAt : s.constraints[position]? = some c)
    (hAssigned : ∀ v ∈ c.vars, (value v).isSome = true)
    (hSum : (assignedSum value c.vars != c.rhs) = true) :
    Event.Valid s value (.conflict (.constraint position)) := by
  intro a hExtends
  have hEq := sumOver_eq_assignedSum hExtends hAssigned
  simp only [Origin.defect, Origin.positions, sumOver_cons,
    sumOver_nil, Store.defectAt, hAt, StoredConstraint.defect, hEq,
    Bool.xor_false]
  exact hSum

/- A constraint with one open variable forces it. -/
theorem Event.valid_propagation_of_unit
    {s : Store}
    (hStore : s.WellFormed)
    {value : Nat → Option Bool}
    {position : Nat}
    {c : StoredConstraint}
    (hAt : s.constraints[position]? = some c)
    {v : Nat}
    (hMem : v ∈ c.vars)
    (hOpen : value v = none)
    (hOthers : ∀ w ∈ c.vars, w ≠ v → (value w).isSome = true) :
    Event.Valid s value
      (.propagation ⟨v, c.rhs ^^ assignedSum value c.vars⟩
        (.constraint position)) := by
  have hIn : c ∈ s.constraints := Array.mem_of_getElem? hAt
  refine ⟨(hStore.isRelevant_iff v).mpr ⟨c, hIn, hMem⟩, ?_⟩
  intro a hExtends
  have hEq := sumOver_eq_assignedSum_xor hExtends
    (hStore.nodup_vars hIn) hMem hOpen hOthers
  simp only [Origin.defect, Origin.positions, sumOver_cons,
    sumOver_nil, Store.defectAt, hAt, StoredConstraint.defect, hEq,
    Bool.xor_false]
  cases assignedSum value c.vars <;> cases a v <;> cases c.rhs <;> rfl

/-
  What a constraint, at a position of a store, shows under
  some values: the literal of its only open variable, or that
  it fails.
-/
inductive StoredConstraint.Reveals
    (value : Nat → Option Bool)
    (position : Nat)
    (c : StoredConstraint) : Event → Prop where
  | unit {v : Nat}
      (hMem : v ∈ c.vars)
      (hOpen : value v = none)
      (hOthers : ∀ w ∈ c.vars, w ≠ v → (value w).isSome = true) :
      Reveals value position c
        (.propagation ⟨v, c.rhs ^^ assignedSum value c.vars⟩
          (.constraint position))
  | failed
      (hAll : ∀ w ∈ c.vars, (value w).isSome = true)
      (hFalse : assignedSum value c.vars ≠ c.rhs) :
      Reveals value position c (.conflict (.constraint position))

/- The constraints that an event rests on. -/
def Event.origin : Event → Origin
  | .propagation _ origin => origin
  | .conflict origin => origin

theorem StoredConstraint.Reveals.origin_eq
    {value : Nat → Option Bool}
    {position : Nat}
    {c : StoredConstraint}
    {event : Event}
    (hReveals : c.Reveals value position event) :
    event.origin = .constraint position := by
  cases hReveals <;> rfl

/- Events of constraints at different positions differ. -/
theorem StoredConstraint.Reveals.position_eq
    {value value' : Nat → Option Bool}
    {position position' : Nat}
    {c c' : StoredConstraint}
    {event : Event}
    (hReveals : c.Reveals value position event)
    (hReveals' : c'.Reveals value' position' event) :
    position = position' := by
  have hOrigin := hReveals.origin_eq.symm.trans hReveals'.origin_eq
  exact Origin.constraint.inj hOrigin

/- A constraint that shows something has at most one open variable. -/
theorem StoredConstraint.Reveals.open_unique
    {value : Nat → Option Bool}
    {position : Nat}
    {c : StoredConstraint}
    {event : Event}
    (hReveals : c.Reveals value position event)
    {v w : Nat}
    (hMem : v ∈ c.vars)
    (hMem' : w ∈ c.vars)
    (hOpen : value v = none)
    (hOpen' : value w = none) :
    v = w := by
  have hNotSome : ∀ {u}, value u = none → ¬ (value u).isSome = true := by
    intro u hNone
    simp [hNone]
  cases hReveals with
  | @unit u _ _ hOthers =>
      have hSame : ∀ {x}, x ∈ c.vars → value x = none → x = u := by
        intro x hIn hNone
        by_contra hNe
        exact hNotSome hNone (hOthers x hIn hNe)
      exact (hSame hMem hOpen).trans (hSame hMem' hOpen').symm
  | failed hAll _ => exact absurd (hAll v hMem) (hNotSome hOpen)

/- What a constraint shows depends on its own variables only. -/
theorem StoredConstraint.Reveals.congr
    {value value' : Nat → Option Bool}
    {position : Nat}
    {c : StoredConstraint}
    {event : Event}
    (hReveals : c.Reveals value position event)
    (hSame : ∀ w ∈ c.vars, value' w = value w) :
    c.Reveals value' position event := by
  have hSum : assignedSum value' c.vars = assignedSum value c.vars := by
    apply sumOver_congr
    intro w hMem
    rw [hSame w hMem]
  cases hReveals with
  | unit hMem hOpen hOthers =>
      rw [← hSum]
      refine .unit hMem ((hSame _ hMem).trans hOpen) ?_
      intro w hIn hNe
      rw [hSame w hIn]
      exact hOthers w hIn hNe
  | failed hAll hFalse =>
      refine .failed ?_ (hSum ▸ hFalse)
      intro w hIn
      rw [hSame w hIn]
      exact hAll w hIn

/- Some constraint of the store shows the event all by itself. -/
def Event.Plain
    (s : Store)
    (value : Nat → Option Bool)
    (event : Event) : Prop :=
  ∃ (position : Nat) (c : StoredConstraint),
    s.constraints[position]? = some c ∧
      c.Reveals value position event

theorem Event.Plain.valid
    {s : Store}
    (hStore : s.WellFormed)
    {value : Nat → Option Bool}
    {event : Event}
    (hPlain : event.Plain s value) :
    event.Valid s value := by
  rcases hPlain with ⟨position, c, hAt, hReveals⟩
  cases hReveals with
  | unit hMem hOpen hOthers =>
      exact valid_propagation_of_unit hStore hAt hMem hOpen hOthers
  | failed hAll hFalse =>
      exact valid_conflict_of_assigned hAt hAll
        (bne_iff_ne.mpr hFalse)

------------------------------------------------------------
-- Reasons
------------------------------------------------------------

/- The variables of the literals ascend. -/
def Ascending
    (ls : List Literal) : Prop :=
  (ls.map Literal.index).Pairwise (· < ·)

namespace Origin

/-
  The variables of a sum of constraints, and the right-hand
  side that goes with them.
-/
theorem vars_eq_ok
    {s : Store}
    {o : Origin}
    {set : IndexSet}
    (hVars : o.vars s = .ok set) :
    ∃ rhs, ∀ a,
      o.defect s a = (sumOver a set.members ^^ rhs) := by
  unfold Origin.vars at hVars
  unfold Origin.defect
  -- The set so far, whatever it was, plus the remaining positions.
  have hLoop : ∀ (positions : List Nat) (start result : IndexSet),
      positions.foldlM
          (fun set position => do
            let c ← Table.get s.constraints position
            return set.toggleAll c.vars)
          start = .ok result →
        ∃ rhs, ∀ a,
          (sumOver a start.members ^^
              sumOver (s.defectAt a) positions) =
            (sumOver a result.members ^^ rhs) := by
    intro positions
    induction positions with
    | nil =>
        intro start result hRun
        rw [List.foldlM_nil, pure_eq_ok] at hRun
        subst hRun
        exact ⟨false, fun a => by simp⟩
    | cons position positions ih =>
        intro start result hRun
        simp only [List.foldlM_cons, bind_eq_ok, pure_eq_ok] at hRun
        rcases hRun with ⟨next, ⟨c, hGet, rfl⟩, hRest⟩
        rcases ih _ _ hRest with ⟨rhs, hSum⟩
        refine ⟨c.rhs ^^ rhs, ?_⟩
        intro a
        have hAt : s.defectAt a position = c.defect a := by
          unfold Store.defectAt
          rw [Table.get_eq_ok_iff.mp hGet]
        have hTail := hSum a
        have hMove : ∀ p q r t u w : Bool,
            (p ^^ q ^^ r) = (t ^^ w) →
              (p ^^ (q ^^ u ^^ r)) = (t ^^ (u ^^ w)) := by
          decide
        rw [IndexSet.sumOver_toggleAll] at hTail
        rw [sumOver_cons, hAt]
        exact hMove _ _ _ _ _ _ hTail
  have hAll := hLoop o.positions IndexSet.empty set hVars
  simpa [IndexSet.empty] using hAll

theorem held_eq_ok_iff
    {t : Trail}
    {v : Nat}
    {l : Literal}
    (hHeld : held t v = .ok l) :
    l.index = v ∧ t.value v = some l.value := by
  unfold held at hHeld
  rw [bind_eq_ok] at hHeld
  rcases hHeld with ⟨value?, hRead, hMatch⟩
  have hValue := Trail.value_of_read hRead
  cases value? with
  | none => exact absurd hMatch throw_ne_ok
  | some b =>
      rw [pure_eq_ok] at hMatch
      subst hMatch
      exact ⟨rfl, hValue⟩

/- The literals that the trail holds for some variables. -/
theorem mapM_held
    {t : Trail}
    {vs : List Nat}
    {ls : List Literal}
    (hHeld : vs.mapM (held t) = .ok ls) :
    ls.map Literal.index = vs ∧
      ∀ l ∈ ls, t.value l.index = some l.value := by
  have hAll := mapM_eq_ok_iff.mp hHeld
  clear hHeld
  induction hAll with
  | nil => simp
  | cons hHead _ ih =>
      rcases held_eq_ok_iff hHead with ⟨hIndex, hValue⟩
      refine ⟨by rw [List.map_cons, hIndex, ih.1], ?_⟩
      intro l hMem
      rcases List.mem_cons.mp hMem with rfl | hTail
      · rw [hIndex]
        exact hValue
      · exact ih.2 l hTail

/- What is left of a sum when the forced variable is taken out. -/
theorem exists_rest_of_explain
    {s : Store}
    {t : Trail}
    {o : Origin}
    {forced? : Option Nat}
    {reason : List Literal}
    (hExplain : o.explain s t forced? = .ok reason) :
    ∃ set rest,
      o.vars s = .ok set ∧
        rest.sorted.mapM (held t) = .ok reason ∧
        match forced? with
        | none => rest = set
        | some v =>
            set.contains v = true ∧ rest = (set.erase v).1 := by
  unfold explain at hExplain
  rw [bind_eq_ok] at hExplain
  rcases hExplain with ⟨set, hVars, hExplain⟩
  cases forced? with
  | none =>
      simp only [bind_eq_ok, pure_eq_ok] at hExplain
      rcases hExplain with ⟨rest, rfl, hHeld⟩
      exact ⟨set, set, hVars, hHeld, rfl⟩
  | some v =>
      simp only [bind_eq_ok, pure_eq_ok, require_eq_ok,
        exists_const] at hExplain
      rcases hExplain with ⟨hFound, rest, rfl, hHeld⟩
      rw [IndexSet.erase_snd] at hFound
      exact ⟨set, _, hVars, hHeld, hFound, rfl⟩

/-
  A reason ascends, holds literals of the trail, leaves the
  forced variable out, and is the rest of the sum.
-/
theorem explain_eq_ok
    {s : Store}
    {t : Trail}
    {o : Origin}
    {forced? : Option Nat}
    {reason : List Literal}
    (hExplain : o.explain s t forced? = .ok reason) :
    Ascending reason ∧
      (∀ l ∈ reason, t.value l.index = some l.value) ∧
      (∀ l ∈ reason, forced? ≠ some l.index) ∧
      ∃ rhs, ∀ a,
        o.defect s a =
          (sumOver a (reason.map Literal.index) ^^
            (forced?.elim false a ^^ rhs)) := by
  rcases exists_rest_of_explain hExplain with
    ⟨set, rest, hVars, hHeld, hRest⟩
  rcases vars_eq_ok hVars with ⟨rhs, hSum⟩
  rcases mapM_held hHeld with ⟨hIndices, hValues⟩
  have hSorted :
      ∀ a, sumOver a rest.sorted = sumOver a rest.members :=
    fun a => sumOver_perm a (perm_sortAscending rest.members)
  have hIn : ∀ l ∈ reason, l.index ∈ rest.members := by
    intro l hMem
    have hSortedMem : l.index ∈ rest.sorted :=
      hIndices ▸ List.mem_map_of_mem hMem
    exact mem_sortAscending.mp hSortedMem
  unfold Ascending
  rw [hIndices]
  cases forced? with
  | none =>
      subst hRest
      refine ⟨IndexSet.pairwise_sorted rest, hValues,
        fun l _ => by simp, rhs, fun a => ?_⟩
      rw [hSorted, hSum]
      simp
  | some v =>
      rcases hRest with ⟨hContains, hRest⟩
      refine ⟨IndexSet.pairwise_sorted rest, hValues,
        ?_, rhs, ?_⟩
      · intro l hMem hSame
        have hGone := hIn l hMem
        rw [hRest, IndexSet.mem_erase] at hGone
        exact hGone.2 (Option.some.inj hSame).symm
      · intro a
        have hSplit := sumOver_perm a (IndexSet.perm_erase hContains)
        rw [sumOver_cons, ← hRest] at hSplit
        rw [hSum, hSorted, ← hSplit]
        simp only [Option.elim_some]
        cases a v <;> simp

end Origin

------------------------------------------------------------
-- Entailment
------------------------------------------------------------

/-
  An assignment that agrees with a reason may be changed to
  the values of the trail without changing the reason's part
  of the sum.
-/
theorem sumOver_overlay
    {value : Nat → Option Bool}
    {reason : List Literal}
    {a : Assignment}
    (hValues : ∀ l ∈ reason, value l.index = some l.value)
    (hAgree : ∀ l ∈ reason, l.Holds a) :
    sumOver (overlay value a) (reason.map Literal.index) =
      sumOver a (reason.map Literal.index) := by
  rw [sumOver_map, sumOver_map]
  apply sumOver_congr
  intro l hMem
  have hSame : a l.index = l.value := hAgree l hMem
  simp [overlay, hValues l hMem, hSame]

namespace Event

/-
  The constraints and the reason of a forced literal entail
  the literal.
-/
theorem entails_of_propagation
    {s : Store}
    (hStore : s.WellFormed)
    {t : Trail}
    {l : Literal}
    {origin : Origin}
    {reason : List Literal}
    (hValid : Event.Valid s t.value (.propagation l origin))
    (hOpen : t.value l.index = none)
    (hExplain :
      origin.explain s t (some l.index) = .ok reason)
    {a : Assignment}
    (hHolds : s.Holds a)
    (hAgree : ∀ k ∈ reason, k.Holds a) :
    l.Holds a := by
  rcases Origin.explain_eq_ok hExplain with
    ⟨-, hValues, -, rhs, hSum⟩
  have hZero := Origin.defect_eq_false hStore hHolds origin
  have hClaim :=
    hValid.2 (overlay t.value a) (extends_overlay t.value a)
  have hSame : overlay t.value a l.index = a l.index :=
    overlay_of_none a hOpen
  rw [hSum, Option.elim_some, sumOver_overlay hValues hAgree,
    hSame] at hClaim
  rw [hSum, Option.elim_some] at hZero
  rw [hZero] at hClaim
  unfold Literal.Holds
  revert hClaim
  cases a l.index <;> cases l.value <;> simp

/-
  The constraints contradict the reason of a conflict.
-/
theorem refutes_of_conflict
    {s : Store}
    (hStore : s.WellFormed)
    {t : Trail}
    {origin : Origin}
    {reason : List Literal}
    (hValid : Event.Valid s t.value (.conflict origin))
    (hExplain : origin.explain s t none = .ok reason)
    {a : Assignment}
    (hHolds : s.Holds a) :
    ¬ ∀ k ∈ reason, k.Holds a := by
  intro hAgree
  rcases Origin.explain_eq_ok hExplain with
    ⟨-, hValues, -, rhs, hSum⟩
  have hZero := Origin.defect_eq_false hStore hHolds origin
  have hClaim :=
    hValid (overlay t.value a) (extends_overlay t.value a)
  rw [hSum, sumOver_overlay hValues hAgree] at hClaim
  rw [hSum] at hZero
  simp only [Option.elim_none] at hClaim hZero
  rw [hZero] at hClaim
  cases hClaim

end Event

end ParitySolver
