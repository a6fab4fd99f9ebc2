import ParitySolver.Proofs.Completeness

/-
  Values under which no single constraint shows anything.

  A settled level is stable. Without elimination it is also
  the least stable one: an engine finds only what single
  constraints show, so stable values that contain the host's
  contain all literals that it is told of.

  Key definitions include:
    * `Store.Stable`
    * `Within`
    * `Least`

  Main declarations:
    * `Store.Stable.holds_given`
    * `Store.Stable.openCount_ne_one`
    * `Settled.stable`
    * `Engine.Concludes.within`
    * `least_of_propagate`
-/

namespace ParitySolver

------------------------------------------------------------
-- Values under which no constraint shows anything
------------------------------------------------------------

/-
  No constraint fails under the values, and none has exactly
  one open variable. Counting does not see the latter.
-/
structure Store.Stable
    (store : Store)
    (strategy : Strategy)
    (value : Nat → Option Bool) : Prop where
  noConflict :
    ∀ origin, ¬ (Event.conflict origin).Plain store value
  noUnit :
    strategy ≠ .countCheck →
      ∀ l origin, ¬ (Event.propagation l origin).Plain store value

namespace Store.Stable

variable {store : Store} {strategy : Strategy}
variable {value : Nat → Option Bool} {c : StoredConstraint}

/- A constraint without open variables has the right sum. -/
theorem assignedSum_eq
    (hStable : store.Stable strategy value)
    (hMem : c ∈ store.constraints)
    (hAll : ∀ v ∈ c.vars, (value v).isSome = true) :
    assignedSum value c.vars = c.rhs := by
  rcases Array.mem_iff_getElem?.mp hMem with ⟨r, hAt⟩
  by_contra hFalse
  exact hStable.noConflict _ ⟨r, c, hAt, .failed hAll hFalse⟩

/- So it is satisfied, whatever the open variables will be. -/
theorem holds_given
    (hStore : store.WellFormed)
    (hStable : store.Stable strategy value)
    (hMem : c ∈ store.constraints)
    (hAll : ∀ v ∈ c.vars, (value v).isSome = true)
    {a : Assignment}
    (hExtends : Extends a value) :
    c.given.Holds a := by
  rw [hStore.given_iff c hMem, StoredConstraint.defect,
    sumOver_eq_assignedSum hExtends hAll,
    hStable.assignedSum_eq hMem hAll, Bool.xor_self]

theorem openCount_ne_one
    (hStable : store.Stable strategy value)
    (hStrategy : strategy ≠ .countCheck)
    (hMem : c ∈ store.constraints) :
    openCount value c.vars ≠ 1 := by
  intro hOne
  rw [openCount, List.countP_eq_length_filter,
    List.length_eq_one_iff] at hOne
  rcases hOne with ⟨v, hFilter⟩
  have hOpen : ∀ w, w ∈ c.vars ∧ value w = none ↔ w = v := by
    intro w
    rw [← List.mem_singleton (b := v), ← hFilter, List.mem_filter,
      Option.isNone_iff_eq_none]
  rcases (hOpen v).mpr rfl with ⟨hIn, hNone⟩
  rcases Array.mem_iff_getElem?.mp hMem with ⟨r, hAt⟩
  refine hStable.noUnit hStrategy _ _
    ⟨r, c, hAt, .unit hIn hNone fun w hW hNe => ?_⟩
  rw [Option.isSome_iff_ne_none]
  exact fun hFree => hNe ((hOpen w).mp ⟨hW, hFree⟩)

end Store.Stable

variable {store : Store} {config : Config} {h : History Unit}

/- A settled level is stable. -/
theorem Settled.stable
    (hStore : store.WellFormed)
    {p : Pairing}
    (hIn : Pairing.InStep store config h p)
    (hSettled : Settled store config h p.engine.trail.entries) :
    store.Stable config.strategy h.value := by
  have hHeeded := hSettled.heeded _ (hIn.readsOff hStore)
  have hOnTrail : ∀ {event : Event}, event.Plain store h.value →
      event.Plain store p.engine.trail.value := by
    rintro event ⟨r, c, hAt, hReveals⟩
    refine ⟨r, c, hAt, hReveals.congr fun w hMem => ?_⟩
    apply hSettled.value_eq hStore hIn
    exact (hStore.isRelevant_iff w).mpr
      ⟨c, Array.mem_of_getElem? hAt, hMem⟩
  constructor
  · intro origin hPlain
    rcases hHeeded _ (hOnTrail hPlain) fun _ => ⟨origin, rfl⟩ with
      ⟨_, _, hEvent, _⟩
    cases hEvent
  · intro hStrategy l origin hPlain
    rcases hHeeded _ (hOnTrail hPlain)
        fun hCounts => absurd hCounts hStrategy with
      ⟨_, _, hEvent, hMem⟩
    cases hEvent
    -- The variable is open, and the host holds its literal.
    have hOpen : h.value l.index = none := hPlain.explainable.1
    rw [(History.value_eq_some_iff hIn.records.distinct).mpr hMem]
      at hOpen
    cases hOpen

------------------------------------------------------------
-- Stable values contain what is found
------------------------------------------------------------

/- The second values are the first ones, and maybe more. -/
def Within
    (value value' : Nat → Option Bool) : Prop :=
  ∀ v b, value v = some b → value' v = some b

theorem Within.trans
    {value value' value'' : Nat → Option Bool}
    (hFirst : Within value value')
    (hSecond : Within value' value'') :
    Within value value'' :=
  fun v b hValue => hSecond v b (hFirst v b hValue)

theorem Within.antisymm
    {value value' : Nat → Option Bool}
    (hFirst : Within value value')
    (hSecond : Within value' value) :
    value = value' := by
  funext v
  apply Option.ext
  intro b
  exact ⟨hFirst v b, hSecond v b⟩

/- A history has all values of its older parts. -/
theorem History.within_of_suffix
    {older : History Unit}
    (hDistinct : (h.map fun entry => entry.1.index).Nodup)
    (hOlder : older <:+ h) :
    Within older.value h.value := by
  have hBefore : (older.map fun entry => entry.1.index).Nodup :=
    hDistinct.sublist (hOlder.sublist.map _)
  intro v b hValue
  rw [History.value_eq_some_iff hBefore] at hValue
  rw [History.value_eq_some_iff hDistinct]
  exact List.map_subset _ hOlder.subset hValue

variable {value value' : Nat → Option Bool} {strategy : Strategy}

/-
  Values under which a constraint shows nothing contain the
  literal that it shows under some of them. They have a value
  for it, since it is not the only open variable, and it is
  the right one, since the constraint does not fail.
-/
theorem StoredConstraint.Reveals.within
    {c : StoredConstraint}
    {r : Nat}
    {event : Event}
    (hNodup : c.vars.Nodup)
    (hReveals : c.Reveals value r event)
    (hQuiet : ∀ other, ¬ c.Reveals value' r other)
    (hWithin : Within value value') :
    ∃ l origin, event = .propagation l origin ∧
      value' l.index = some l.value := by
  have hKept : ∀ w, (value w).isSome = true → value' w = value w := by
    intro w hSome
    rcases Option.isSome_iff_exists.mp hSome with ⟨b, hValue⟩
    rw [hValue]
    exact hWithin w b hValue
  cases hReveals with
  | failed hAll hFalse =>
      refine absurd ?_ (hQuiet (.conflict (.constraint r)))
      exact (StoredConstraint.Reveals.failed hAll hFalse).congr
        fun w hIn => hKept w (hAll w hIn)
  | @unit v hIn hOpen hOthers =>
      refine ⟨_, _, rfl, ?_⟩
      cases hValue : value' v with
      | none =>
          refine absurd ?_ (hQuiet (.propagation
            ⟨v, c.rhs ^^ assignedSum value c.vars⟩ (.constraint r)))
          refine (StoredConstraint.Reveals.unit hIn hOpen
            hOthers).congr fun w hW => ?_
          by_cases hEq : w = v
          · rw [hEq, hValue, hOpen]
          · exact hKept w (hOthers w hW hEq)
      | some b =>
          have hAll : ∀ w ∈ c.vars, (value' w).isSome = true := by
            intro w hW
            by_cases hEq : w = v
            · rw [hEq, hValue]
              rfl
            · rw [hKept w (hOthers w hW hEq)]
              exact hOthers w hW hEq
          have hRight : assignedSum value' c.vars = c.rhs := by
            by_contra hFalse
            exact hQuiet _ (.failed hAll hFalse)
          have hExtends : Extends (overlay value' fun _ => false) value :=
            fun w d hOld => extends_overlay _ _ w d (hWithin w d hOld)
          have hSum := sumOver_eq_assignedSum_xor hExtends hNodup hIn
            hOpen hOthers
          rw [sumOver_eq_assignedSum (extends_overlay value' _) hAll,
            hRight, extends_overlay value' _ v b hValue] at hSum
          rw [hSum, Bool.xor_comm, ← Bool.xor_assoc, Bool.xor_self,
            Bool.false_xor]

/- Stable values contain what a constraint shows under some of them. -/
theorem Event.Plain.within
    (hStore : store.WellFormed)
    {event : Event}
    (hPlain : event.Plain store value)
    (hKind : strategy = .countCheck →
      ∃ origin, event = .conflict origin)
    (hStable : store.Stable strategy value')
    (hWithin : Within value value') :
    ∃ l origin, event = .propagation l origin ∧
      value' l.index = some l.value := by
  rcases hPlain with ⟨r, c, hAt, hReveals⟩
  have hNodup := hStore.nodup_vars (Array.mem_of_getElem? hAt)
  by_cases hCounts : strategy = .countCheck
  · -- A constraint that fails still fails with more values.
    rcases hKind hCounts with ⟨origin, rfl⟩
    refine absurd ⟨r, c, hAt, hReveals.congr fun w hIn => ?_⟩
      (hStable.noConflict origin)
    cases hReveals with
    | failed hAll _ =>
        rcases Option.isSome_iff_exists.mp (hAll w hIn) with
          ⟨b, hValue⟩
        rw [hValue]
        exact hWithin w b hValue
  · refine hReveals.within hNodup (fun other hOther => ?_) hWithin
    cases other with
    | conflict origin =>
        exact hStable.noConflict origin ⟨r, c, hAt, hOther⟩
    | propagation l origin =>
        exact hStable.noUnit hCounts l origin ⟨r, c, hAt, hOther⟩

/- Literals that agree with each other and with the host do not clash. -/
theorem sift_within
    {t : Trail}
    {host : Host}
    (hHost : Within host.value value)
    {events : List Event}
    (hEvents : ∀ event ∈ events, ∃ l origin,
      event = .propagation l origin ∧ value l.index = some l.value)
    {pending : List (Literal × Origin)}
    (hPending : ∀ entry ∈ pending,
      value entry.1.index = some entry.1.value)
    {sifted : Sifted}
    (hSift : sift store t host pending events = .ok sifted) :
    ∃ forced, sifted = .pending forced ∧
      ∀ entry ∈ forced, value entry.1.index = some entry.1.value := by
  induction events generalizing pending with
  | nil =>
      cases hSift
      exact ⟨pending, rfl, hPending⟩
  | cons event events ih =>
      rcases List.forall_mem_cons.mp hEvents with
        ⟨⟨l, origin, rfl, hValue⟩, hRest⟩
      rcases (sift_propagation_eq_ok hSift).2 with
        ⟨_, hNext⟩ | ⟨_, hFalse, _⟩ | ⟨_, hCases⟩
      · exact ih hRest hPending hNext
      · rcases Host.isFalse_eq_ok.mp hFalse with ⟨_, hRead, hOther⟩
        rw [beq_iff_eq] at hOther
        subst hOther
        have hHeld := hHost _ _ (Host.read_eq_ok.mp hRead).2
        rw [hValue] at hHeld
        simp at hHeld
      · rcases hCases with
          ⟨_, hNext⟩ | ⟨_, _, _, hNext⟩ |
            ⟨first, hMem, _, _, _, hNegate, _⟩
        · refine ih hRest (fun entry hIn => ?_) hNext
          rcases List.mem_append.mp hIn with hOld | hNew
          · exact hPending entry hOld
          · rw [List.mem_singleton.mp hNew]
            exact hValue
        · exact ih hRest hPending hNext
        · have hHeld := hPending first hMem
          rw [hNegate, Literal.negate_index, Literal.negate_value,
            hValue] at hHeld
          simp at hHeld

/- So the verdict on them is not a conflict, and stays within. -/
theorem resolve_within
    {t : Trail}
    {host : Host}
    (hHost : Within host.value value)
    {events : List Event}
    (hEvents : ∀ event ∈ events, ∃ l origin,
      event = .propagation l origin ∧ value l.index = some l.value)
    {verdict : Verdict}
    {notes : List Note}
    (hResolve :
      resolve store t host events = .ok (verdict, notes)) :
    (∀ reason, verdict ≠ .conflict reason) ∧
      ∀ l ∈ verdict.news, value l.index = some l.value := by
  rcases resolve_eq_ok hResolve with
    ⟨origin, _, hFirst, _⟩ | ⟨_, sifted, hSift, hCases⟩
  · rcases hEvents _ (mem_of_firstConflict? hFirst) with
      ⟨_, _, hEvent, _⟩
    cases hEvent
  · rcases sift_within hHost hEvents (List.forall_mem_nil _) hSift with
      ⟨forced, rfl, hForced⟩
    rcases hCases with
      ⟨_, _, hClash, _⟩ | ⟨_, rfl⟩ | ⟨_, ps, hSame, _, hAll, rfl⟩
    · cases hClash
    · exact ⟨nofun, nofun⟩
    · cases hSame
      refine ⟨nofun, fun l hMem => ?_⟩
      rw [Verdict.news,
        map_literal_of_justify (mapM_eq_ok_iff.mp hAll)] at hMem
      rcases List.mem_map.mp hMem with ⟨entry, hIn, rfl⟩
      exact hForced entry hIn

/- Without elimination the verdict stays within as well. -/
theorem Engine.Concludes.within_of_events
    {e : Engine}
    {host : Host}
    {found : Findings}
    {verdict : Verdict}
    (hConcludes : e.Concludes host found verdict)
    (hEliminates : e.theory.eliminates = false)
    (hEvents : ∀ event ∈ found.events, ∃ l origin,
      event = .propagation l origin ∧ value l.index = some l.value)
    (hHost : Within host.value value) :
    (∀ reason, verdict ≠ .conflict reason) ∧
      ∀ l ∈ verdict.news, value l.index = some l.value := by
  rcases hConcludes with
    ⟨_, _, hResolve⟩ | ⟨more, _, _, _, hMore, hResolve⟩
  · exact resolve_within hHost hEvents hResolve
  · rw [Theory.atFixpoint_of_not_eliminates hEliminates hMore]
      at hResolve
    exact resolve_within hHost (List.forall_mem_nil _) hResolve

/-
  Without elimination, stable values that contain the host's
  contain the literals of the verdict, and it is not a
  conflict.
-/
theorem Engine.Concludes.within
    (hStore : store.WellFormed)
    {e : Engine}
    {host : Host}
    {found : Findings}
    {verdict : Verdict}
    (hConcludes : e.Concludes host found verdict)
    (hEliminates : e.theory.eliminates = false)
    (hPlain : ∀ event ∈ found.events,
      event.Plain store e.trail.value)
    (hKind : strategy = .countCheck →
      ∀ event ∈ found.events, ∃ origin, event = .conflict origin)
    (hStable : store.Stable strategy value)
    (hTrail : Within e.trail.value value)
    (hHost : Within host.value value) :
    (∀ reason, verdict ≠ .conflict reason) ∧
      ∀ l ∈ verdict.news, value l.index = some l.value := by
  refine hConcludes.within_of_events hEliminates ?_ hHost
  intro event hMem
  exact (hPlain event hMem).within hStore
    (fun hCounts => hKind hCounts event hMem) hStable hTrail

------------------------------------------------------------
-- Calls without elimination
------------------------------------------------------------

theorem History.within_cons
    {l : Literal}
    {reason : Reason Unit}
    (hWithin : Within h.value value)
    (hValue : value l.index = some l.value) :
    Within (History.value ((l, reason) :: h)) value := by
  intro v b hCons
  rw [History.value_cons] at hCons
  split at hCons
  next hEq =>
    cases hCons
    rw [← hEq]
    exact hValue
  next => exact hWithin v b hCons

theorem History.within_force
    {ls : List Literal}
    (hWithin : Within h.value value)
    (hForced : ∀ l ∈ ls, value l.index = some l.value) :
    Within (h.force ls).value value := by
  induction ls generalizing h with
  | nil => exact hWithin
  | cons l ls ih =>
      rcases List.forall_mem_cons.mp hForced with ⟨hHead, hRest⟩
      rw [History.force_cons]
      exact ih (within_cons hWithin hHead) hRest

theorem History.within_after
    {verdict : Verdict}
    (hWithin : Within h.value value)
    (hNews : ∀ l ∈ verdict.news, value l.index = some l.value) :
    Within (h.after verdict).value value := by
  cases verdict with
  | forced ps => exact within_force hWithin hNews
  | nothing => exact hWithin
  | conflict reason => exact hWithin

/-
  The verdict leaves the history within all stable values that
  contain it.
-/
def Least
    (store : Store)
    (config : Config)
    (h : History Unit)
    (verdict : Verdict) : Prop :=
  config.strategy.usesElimination = false →
    ∀ value, store.Stable config.strategy value →
      Within h.value value →
        (∀ reason, verdict ≠ .conflict reason) ∧
          Within (h.after verdict).value value

variable {e : Engine} {stack : DecisionStack Unit} {verdict : Verdict}

/- The first question finds no more than it has to. -/
theorem least_of_initialPropagation
    (hStore : store.WellFormed)
    (hIn : Pairing.InStep store config h ⟨e, stack⟩)
    (hReachable : Engine.Reachable store config e)
    (hCall :
      (e.initialPropagation stack.host).outcome = .ok verdict) :
    Least store config h verdict := by
  intro hPlain value hStable hWithin
  have hSame : e.store = store := hIn.regular.sameStore
  subst hSame
  have hBefore := hIn.regular.consistent hStore
  have hTrail : Within e.trail.value value :=
    Within.trans (fun v b => hIn.value_of_value hStore) hWithin
  have hHost : Within stack.host.value value := by
    intro v b hValue
    exact hWithin v b ((hIn.records.value_eq v).symm.trans hValue)
  rcases Engine.initialPropagation_eq_ok hCall with
    ⟨hEmpty, _, ⟨found, hBegin, hConcludes⟩, _⟩
  have hNone :=
    (hReachable.intact hStore).value_eq_none hStore hEmpty
  rcases hConcludes.within hStore (hBefore.eliminates.trans hPlain)
      (fun event hMem => Theory.plain_of_mem_begin
        (hBefore.eliminates.trans hPlain) hBefore.follows hNone hBegin
        hMem)
      (fun hCounts event hMem => Theory.conflict_of_mem_begin
        (hBefore.counts.trans (decide_eq_true hCounts)) hBegin hMem)
      hStable hTrail hHost with ⟨hQuiet, hNews⟩
  exact ⟨hQuiet, History.within_after hWithin hNews⟩

/- Telling of a literal finds no more than it has to. -/
theorem least_of_propagate
    (hStore : store.WellFormed)
    (hIn : Pairing.InStep store config h ⟨e, stack⟩)
    {l : Literal}
    (hCall : (e.propagate stack.host l).outcome = .ok verdict) :
    Least store config h verdict := by
  intro hPlain value hStable hWithin
  have hSame : e.store = store := hIn.regular.sameStore
  subst hSame
  have hBefore := hIn.regular.consistent hStore
  have hAfter := hIn.propagate hCall
  have hHost : Within stack.host.value value := by
    intro v b hValue
    exact hWithin v b ((hIn.records.value_eq v).symm.trans hValue)
  rcases Engine.propagate_eq_ok hCall with
    ⟨_, _, _, hIdles | ⟨trail, theory, found, hAbsorbs⟩⟩
  · rw [hIdles.nothing]
    exact ⟨nofun, hWithin⟩
  · rw [hAbsorbs.engine] at hAfter
    have hTrail : Within trail.value value :=
      Within.trans (fun v b => hAfter.value_of_value hStore) hWithin
    have hTheory : theory.eliminates = false :=
      (hAfter.regular.consistent hStore).eliminates.trans hPlain
    rcases hAbsorbs.concludes.within hStore hTheory
        (fun event hMem => Theory.plain_of_mem_assign hStore
          (hBefore.eliminates.trans hPlain) hBefore.follows
          (Engine.takesIn_of_push hAbsorbs.push) hAbsorbs.assign hMem)
        (fun hCounts event hMem => Theory.conflict_of_mem_assign hStore
          (hBefore.counts.trans (decide_eq_true hCounts))
          hAbsorbs.assign hMem)
        hStable hTrail hHost with ⟨hQuiet, hNews⟩
    exact ⟨hQuiet, History.within_after hWithin hNews⟩

end ParitySolver
