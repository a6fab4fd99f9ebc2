import ParitySolver.Proofs.Resolution
import ParitySolver.Proofs.Theory.Progress

/-
  Every true event has an explanation. The variables of the
  sum that shows it are assigned, except for the one that it
  forces, and that one is among them: an assignment that is
  changed at an open variable would tell otherwise. So the
  events of a theory lead to a verdict.

  Key definitions include:
    * `flipAt`
    * `Event.Supported`

  Main declarations:
    * `Origin.defect_flipAt`
    * `Event.Supported.exists_explain`
    * `exists_sift`
    * `exists_resolve`
-/

namespace ParitySolver

------------------------------------------------------------
-- Changing one variable
------------------------------------------------------------

/- The assignment with one variable changed. -/
def flipAt
    (v : Nat)
    (a : Assignment) : Assignment :=
  fun w => a w ^^ decide (v = w)

theorem flipAt_self
    (v : Nat)
    (a : Assignment) :
    flipAt v a v = !a v := by
  simp [flipAt]

theorem flipAt_of_ne
    {v w : Nat}
    (hNe : v ≠ w)
    (a : Assignment) :
    flipAt v a w = a w := by
  simp [flipAt, hNe]

theorem extends_flipAt
    {value : Nat → Option Bool}
    {a : Assignment}
    (hExtends : Extends a value)
    {v : Nat}
    (hOpen : value v = none) :
    Extends (flipAt v a) value := by
  intro w b hValue
  have hNe : v ≠ w := by
    intro hEq
    rw [hEq, hValue] at hOpen
    cases hOpen
  rw [flipAt_of_ne hNe]
  exact hExtends w b hValue

theorem left_eq_xor_iff
    {p q : Bool} :
    p = (p ^^ q) ↔ q = false := by
  revert p q
  decide

namespace Origin

/-
  Changing a variable changes the defect of a sum exactly if
  the variable occurs in the sum.
-/
theorem defect_flipAt
    {s : Store}
    {o : Origin}
    {set : IndexSet}
    (hVars : o.vars s = .ok set)
    (v : Nat)
    (a : Assignment) :
    o.defect s (flipAt v a) =
      (o.defect s a ^^ decide (v ∈ set.members)) := by
  rcases vars_eq_ok hVars with ⟨rhs, hSum⟩
  have hFlip : sumOver (flipAt v a) set.members =
      (sumOver a set.members ^^ decide (v ∈ set.members)) := by
    unfold flipAt
    rw [sumOver_xor, sumOver_decide_eq set.nodup_members]
  rw [hSum, hSum, hFlip, Bool.xor_right_comm]

/- The variables of a sum can be collected. -/
theorem exists_vars
    {s : Store}
    {o : Origin}
    (hLt : ∀ p ∈ o.positions, p < s.size) :
    ∃ set, o.vars s = .ok set := by
  have hLoop := exists_foldlM
    (P := fun _ : IndexSet => True) (b := IndexSet.empty)
    (f := fun set position => do
      let c ← Table.get s.constraints position
      return set.toggleAll c.vars)
    (fun p hMem set _ =>
      ⟨_, bind_eq_ok.mpr ⟨_, Table.get_of_lt (hLt p hMem), rfl⟩,
        trivial⟩)
    trivial
  rcases hLoop with ⟨set, hVars, _⟩
  exact ⟨set, hVars⟩

/- A variable with a value is a literal of the trail. -/
theorem exists_held
    {t : Trail}
    {v : Nat}
    (hValue : t.value v ≠ none) :
    ∃ l, held t v = .ok l := by
  have hLt : v < t.values.size := by
    by_contra hNot
    apply hValue
    rw [Trail.value, Array.getD_eq_getD_getElem?,
      Array.getElem?_eq_none (Nat.le_of_not_lt hNot)]
    rfl
  rcases Trail.exists_read hLt with ⟨value?, hRead⟩
  rw [Trail.value_of_read hRead] at hValue
  rcases Option.ne_none_iff_exists'.mp hValue with ⟨b, rfl⟩
  refine ⟨⟨v, b⟩, ?_⟩
  unfold held
  rw [bind_eq_ok]
  exact ⟨some b, hRead, rfl⟩

/- The sum of two origins of a store is an origin of the store. -/
theorem exists_combine
    {o p : Origin}
    {size : Nat}
    (hFirst : ∀ q ∈ o.positions, q < size)
    (hSecond : ∀ q ∈ p.positions, q < size) :
    ∃ both, o.combine p size = .ok both ∧
      ∀ q ∈ both.positions, q < size := by
  have hLoop := exists_foldlM
    (P := fun set : BitSet => set.size = size) (b := BitSet.zero size)
    (f := BitSet.toggle)
    (by
      intro q hMem set hSize
      have hLt : q < set.size := by
        rw [hSize]
        exact (List.mem_append.mp hMem).elim (hFirst q) (hSecond q)
      rcases BitSet.exists_toggle hLt with ⟨next, hNext, hSame⟩
      exact ⟨next, hNext, hSame.trans hSize⟩)
    rfl
  rcases hLoop with ⟨set, hRun, hSize⟩
  refine ⟨.combination set, ?_, lt_of_mem_combination hSize⟩
  unfold combine
  rw [map_eq_ok]
  exact ⟨set, hRun, rfl⟩

end Origin

------------------------------------------------------------
-- Explanations
------------------------------------------------------------

/- The variable that an event forces. -/
def Event.forced? : Event → Option Nat
  | .propagation l _ => some l.index
  | .conflict _ => none

namespace Event

variable {s : Store} {t : Trail} {value : Nat → Option Bool}
variable {event : Event}

/- The event is true and rests on constraints of the store. -/
structure Supported
    (s : Store)
    (value : Nat → Option Bool)
    (event : Event) : Prop where
  valid : event.Valid s value
  explainable : event.Explainable s value

theorem Supported.lt_size
    (hEvent : event.Supported s value) :
    ∀ p ∈ event.origin.positions, p < s.size := by
  have hExplainable := hEvent.explainable
  cases event with
  | propagation l origin => exact hExplainable.2
  | conflict origin => exact hExplainable

/-
  An open variable occurs in the sum of an event exactly if
  the event forces it.
-/
theorem Supported.mem_vars_iff
    (hEvent : event.Supported s value)
    {set : IndexSet}
    (hVars : event.origin.vars s = .ok set)
    {v : Nat}
    (hOpen : value v = none) :
    v ∈ set.members ↔ event.forced? = some v := by
  have hBase := extends_overlay value fun _ => false
  have hFlip := extends_flipAt hBase hOpen
  have hDefect := Origin.defect_flipAt hVars v
    (overlay value fun _ => false)
  cases event with
  | propagation l origin =>
      have hLeft := hEvent.valid.2 _ hFlip
      have hRight := hEvent.valid.2 _ hBase
      simp only [Event.origin] at hDefect
      rw [hLeft, hRight] at hDefect
      simp only [Event.forced?, Option.some.injEq]
      -- The defect changes with the forced variable and no other.
      by_cases hSame : l.index = v
      · rw [hSame, flipAt_self, Bool.not_xor, ← Bool.xor_true,
          Bool.xor_right_inj] at hDefect
        exact iff_of_true (of_decide_eq_true hDefect.symm) hSame
      · rw [flipAt_of_ne (Ne.symm hSame), left_eq_xor_iff] at hDefect
        exact iff_of_false (of_decide_eq_false hDefect) hSame
  | conflict origin =>
      have hLeft := hEvent.valid _ hFlip
      have hRight := hEvent.valid _ hBase
      simp only [Event.origin] at hDefect
      rw [hLeft, hRight] at hDefect
      simpa [Event.forced?] using hDefect

/- Every supported event has a reason. -/
theorem Supported.exists_explain
    (hEvent : event.Supported s t.value) :
    ∃ reason,
      event.origin.explain s t event.forced? = .ok reason := by
  rcases Origin.exists_vars hEvent.lt_size with ⟨set, hVars⟩
  have hMem : ∀ v ∈ set.members,
      event.forced? ≠ some v → t.value v ≠ none := by
    intro v hIn hOther hOpen
    exact hOther ((hEvent.mem_vars_iff hVars hOpen).mp hIn)
  have hHeld : ∀ rest : IndexSet,
      (∀ v ∈ rest.members,
        v ∈ set.members ∧ event.forced? ≠ some v) →
      ∃ reason, rest.sorted.mapM (Origin.held t) = .ok reason := by
    intro rest hRest
    apply exists_mapM
    intro v hSorted
    have hIn := hRest v (mem_sortAscending.mp hSorted)
    exact Origin.exists_held (hMem v hIn.1 hIn.2)
  unfold Origin.explain
  cases event with
  | conflict origin =>
      rcases hHeld set (fun v hIn => ⟨hIn, by simp [forced?]⟩) with
        ⟨reason, hReason⟩
      refine ⟨reason, ?_⟩
      simp only [forced?, bind_eq_ok, pure_eq_ok]
      exact ⟨set, hVars, set, rfl, hReason⟩
  | propagation l origin =>
      have hFound : l.index ∈ set.members :=
        (hEvent.mem_vars_iff hVars hEvent.explainable.1).mpr rfl
      rcases hHeld (set.erase l.index).1
        (by
          intro v hIn
          rw [IndexSet.mem_erase] at hIn
          refine ⟨hIn.1, ?_⟩
          simp only [forced?, ne_eq, Option.some.injEq]
          exact fun hSame => hIn.2 hSame.symm)
        with ⟨reason, hReason⟩
      refine ⟨reason, ?_⟩
      simp only [forced?, bind_eq_ok, pure_eq_ok, require_eq_ok,
        exists_const]
      refine ⟨set, hVars, ?_, _, rfl, hReason⟩
      rw [IndexSet.erase_snd]
      exact (IndexSet.contains_iff_mem set _).mpr hFound

end Event

------------------------------------------------------------
-- Verdicts
------------------------------------------------------------

section Verdicts

variable {s : Store} {t : Trail} {h : Host}

theorem Store.WellFormed.lt_of_isRelevant
    (hStore : s.WellFormed)
    {v : Nat}
    (hRelevant : s.isRelevant v = true) :
    v < s.numVariables := by
  rcases (hStore.isRelevant_iff v).mp hRelevant with ⟨c, hMem, hIn⟩
  exact hStore.vars_lt c hMem v hIn

/- Forced literals and their origins that can be explained. -/
def Supports
    (s : Store)
    (value : Nat → Option Bool)
    (pending : List (Literal × Origin)) : Prop :=
  ∀ entry ∈ pending,
    (Event.propagation entry.1 entry.2).Supported s value

/- A forced literal is open. -/
theorem Event.Supported.isAssigned_eq_ok
    {l : Literal}
    {origin : Origin}
    (hStore : s.WellFormed)
    (hTrail : t.values.size = s.numVariables)
    (hEvent : (Event.propagation l origin).Supported s t.value) :
    t.isAssigned l.index = .ok false := by
  have hLt := hStore.lt_of_isRelevant hEvent.valid.1
  rw [← hTrail] at hLt
  rcases Trail.exists_read hLt with ⟨value?, hRead⟩
  unfold Trail.isAssigned
  rw [map_eq_ok]
  refine ⟨value?, hRead, ?_⟩
  rw [← Trail.value_of_read hRead, hEvent.explainable.1]
  rfl

/- Two forced literals that exclude each other have a reason. -/
theorem Event.Supported.exists_explain_combine
    {k l : Literal}
    {kOrigin lOrigin : Origin}
    (hFirst : (Event.propagation k kOrigin).Supported s t.value)
    (hSecond : (Event.propagation l lOrigin).Supported s t.value)
    (hIndex : k.index = l.index)
    (hNe : k ≠ l) :
    ∃ both why, kOrigin.combine lOrigin s.size = .ok both ∧
      both.explain s t none = .ok why := by
  rcases Origin.exists_combine hFirst.lt_size hSecond.lt_size with
    ⟨both, hBoth, hPositions⟩
  have hOpposite := Literal.eq_negate_of_ne hIndex.symm (Ne.symm hNe)
  have hClash : (Event.conflict both).Supported s t.value :=
    ⟨Event.valid_conflict_of_combine hFirst.valid
      (hOpposite ▸ hSecond.valid) hBoth, hPositions⟩
  rcases hClash.exists_explain with ⟨why, hWhy⟩
  exact ⟨both, why, hBoth, hWhy⟩

/-
  Forced literals can be compared with the host and with each
  other, and those that are left can be explained.
-/
theorem exists_sift
    (hStore : s.WellFormed)
    (hTrail : t.values.size = s.numVariables)
    (hHost : s.numVariables ≤ h.size)
    {events : List Event}
    (hEvents : ∀ event ∈ events, event.Supported s t.value)
    {pending : List (Literal × Origin)}
    (hPending : Supports s t.value pending) :
    ∃ sifted, sift s t h pending events = .ok sifted ∧
      ∀ forced, sifted = .pending forced →
        Supports s t.value forced := by
  induction events generalizing pending with
  | nil =>
      refine ⟨.pending pending, rfl, ?_⟩
      intro forced hSame
      cases hSame
      exact hPending
  | cons event events ih =>
      have hRest : ∀ event ∈ events, event.Supported s t.value :=
        fun event hMem => hEvents event (List.mem_cons_of_mem _ hMem)
      cases event with
      | conflict origin => exact ih hRest hPending
      | propagation l origin =>
          have hEvent := hEvents _ List.mem_cons_self
          have hLt := hStore.lt_of_isRelevant hEvent.valid.1
          have hOpen := hEvent.isAssigned_eq_ok hStore hTrail
          have hRead : h.read l.index = .ok (h.value l.index) :=
            if_pos (by omega)
          have hTrue := Host.isTrue_eq_ok.mpr ⟨_, hRead, rfl⟩
          have hFalse := Host.isFalse_eq_ok.mpr ⟨_, hRead, rfl⟩
          rcases hEvent.exists_explain with ⟨reason, hReason⟩
          simp only [sift, hOpen, hTrue, hFalse, require, bind,
            Except.bind, Bool.not_false, if_true]
          by_cases hHeld : h.value l.index = some l.value
          · simp only [hHeld, beq_self_eq_true, if_true]
            exact ih hRest hPending
          simp only [beq_eq_false_iff_ne.mpr hHeld,
            Bool.false_eq_true, if_false]
          by_cases hDenied : h.value l.index = some !l.value
          · simp only [hDenied, beq_self_eq_true, if_true]
            have hForced :
                origin.explain s t (some l.index) = .ok reason :=
              hReason
            rw [hForced]
            exact ⟨_, rfl, fun forced hSame => by cases hSame⟩
          simp only [beq_eq_false_iff_ne.mpr hDenied,
            Bool.false_eq_true, if_false]
          -- The host knows nothing: the pending literals decide.
          cases hFind : pending.find? fun entry =>
              entry.1.index == l.index with
          | none =>
              apply ih hRest
              intro entry hMem
              rcases List.mem_append.mp hMem with hOld | hNew
              · exact hPending entry hOld
              · rw [List.mem_singleton.mp hNew]
                exact hEvent
          | some first =>
              rcases first with ⟨k, kOrigin⟩
              have hFirst := hPending _ (List.mem_of_find?_eq_some hFind)
              have hIndex : k.index = l.index := by
                simpa using List.find?_some hFind
              by_cases hSame : k = l
              · simp only [hSame, if_true]
                exact ih hRest hPending
              · simp only [hSame, if_false]
                rcases hFirst.exists_explain_combine hEvent hIndex
                  hSame with ⟨both, why, hBoth, hWhy⟩
                rw [hBoth]
                simp only [hWhy]
                exact ⟨_, rfl, fun forced hSame => by cases hSame⟩

/- Supported events lead to a verdict. -/
theorem exists_resolve
    (hStore : s.WellFormed)
    (hTrail : t.values.size = s.numVariables)
    (hHost : s.numVariables ≤ h.size)
    {events : List Event}
    (hEvents : ∀ event ∈ events, event.Supported s t.value) :
    ∃ answer, resolve s t h events = .ok answer := by
  unfold resolve
  cases hFirst : firstConflict? events with
  | some origin =>
      have hEvent := hEvents _ (mem_of_firstConflict? hFirst)
      rcases hEvent.exists_explain with ⟨reason, hReason⟩
      refine ⟨_, bind_eq_ok.mpr ⟨reason, hReason, rfl⟩⟩
  | none =>
      have hNone : ∀ entry ∈ ([] : List (Literal × Origin)),
          (Event.propagation entry.1 entry.2).Supported s t.value :=
        nofun
      rcases exists_sift hStore hTrail hHost hEvents hNone with
        ⟨sifted, hSift, hLeft⟩
      simp only [hSift, bind, Except.bind]
      match sifted, hLeft with
      | .clash reason note, _ => exact ⟨_, rfl⟩
      | .pending [], _ => exact ⟨_, rfl⟩
      | .pending (entry :: forced), hLeft =>
          have hJustify : ∀ entry' ∈ entry :: forced,
              ∃ p, justify s t entry' = .ok p := by
            intro entry' hMem
            rcases (hLeft _ rfl entry' hMem).exists_explain with
              ⟨reason, hReason⟩
            exact ⟨_, bind_eq_ok.mpr ⟨reason, hReason, rfl⟩⟩
          rcases exists_mapM hJustify with ⟨ps, hPs⟩
          simp only [hPs]
          exact ⟨_, rfl⟩

end Verdicts

end ParitySolver
