import ParitySolver.Proofs.Search
import ParitySolver.Proofs.Stability

/-
  Drains come to their end. Whatever the order in which a host
  takes the literals of its queue, the engine answers every
  request, each forced literal can be assigned, every reason
  is held, and the bound on the rounds is not reached. In the
  end engine and host are at rest: all levels are settled, and
  the engine is ready unless there was a conflict.

  Key definitions include:
    * `History.decided`
    * `Store.Derived`
    * `Demand.Fair`
    * `Pairing.AtRest`
    * `Pairing.EndsAt`

  Main declarations:
    * `Pairing.Ongoing.drainBy`
    * `Pairing.exists_start`
    * `Pairing.AtRest.follow`
    * `Pairing.AtRest.back`
-/

namespace ParitySolver

------------------------------------------------------------
-- Decisions and what follows from them
------------------------------------------------------------

namespace History

/- The decided literals, newest first. -/
def decided
    (h : History Unit) : List Literal :=
  (h.filter fun entry => entry.2.isDecision).map Prod.fst

theorem decided_cons
    (entry : Literal × Reason Unit)
    (h : History Unit) :
    decided (entry :: h) =
      if entry.2.isDecision = true then entry.1 :: h.decided
      else h.decided := by
  unfold decided
  rw [List.filter_cons]
  split <;> rfl

theorem length_decided
    (h : History Unit) :
    h.decided.length = h.level := by
  rw [decided, List.length_map, level, List.countP_eq_length_filter]

theorem decided_force
    (h : History Unit)
    (ls : List Literal) :
    (h.force ls).decided = h.decided := by
  induction ls generalizing h with
  | nil => rfl
  | cons l ls ih =>
      rw [force_cons, ih, decided_cons]
      rfl

theorem decided_after
    (h : History Unit)
    (verdict : Verdict) :
    (h.after verdict).decided = h.decided := by
  cases verdict with
  | forced ps => exact decided_force h _
  | nothing => rfl
  | conflict reason => rfl

/- Going back drops the decisions above the level. -/
theorem decided_backTo
    (bound : Nat)
    (h : History Unit) :
    (h.backTo bound).decided =
      h.decided.drop (h.level - bound) := by
  induction h with
  | nil =>
      rw [backTo, decided, List.filter_nil, List.map_nil,
        List.drop_nil]
  | cons entry h ih =>
      by_cases hLe : level (entry :: h) ≤ bound
      · rw [backTo_of_level_le hLe, Nat.sub_eq_zero_of_le hLe,
          List.drop_zero]
      · rw [backTo_cons_of_lt (Nat.lt_of_not_le hLe), ih, decided_cons,
          level_cons]
        rw [level_cons] at hLe
        split
        · rename_i hDecision
          rw [if_pos hDecision] at hLe
          have hStep : level h + 1 - bound = level h - bound + 1 := by
            omega
          rw [hStep, List.drop_succ_cons]
        · rfl

end History

/-
  Every literal of the history that was not decided follows
  from the constraints and the older ones.
-/
inductive Store.Derived
    (store : Store) : History Unit → Prop where
  | start : Derived store []
  | forced {h : History Unit} {l : Literal}
      (hOlder : Derived store h)
      (hEntails : store.Entails h l) :
      Derived store ((l, .propagation ()) :: h)
  | decided {h : History Unit}
      (hOlder : Derived store h)
      (l : Literal) :
      Derived store ((l, .decision) :: h)

namespace Store.Derived

variable {store : Store} {h : History Unit}

theorem force
    (hDerived : store.Derived h)
    {ls : List Literal}
    (hEntails : ∀ l ∈ ls, store.Entails h l) :
    store.Derived (h.force ls) := by
  induction ls generalizing h with
  | nil => exact hDerived
  | cons l ls ih =>
      rw [History.force_cons]
      rcases List.forall_mem_cons.mp hEntails with ⟨hHead, hRest⟩
      refine ih (hDerived.forced hHead) fun k hMem a hHolds hAgrees => ?_
      exact hRest k hMem a hHolds (History.agrees_cons.mp hAgrees).2

theorem suffix
    {older : History Unit}
    (hDerived : store.Derived h)
    (hSuffix : older <:+ h) :
    store.Derived older := by
  induction hDerived with
  | start =>
      rw [List.suffix_nil.mp hSuffix]
      exact .start
  | forced hOlder hEntails ih =>
      rcases List.suffix_cons_iff.mp hSuffix with rfl | hRest
      · exact hOlder.forced hEntails
      · exact ih hRest
  | decided hOlder l ih =>
      rcases List.suffix_cons_iff.mp hSuffix with rfl | hRest
      · exact hOlder.decided l
      · exact ih hRest

/- A solution in which the decisions hold agrees with all of it. -/
theorem agrees
    (hDerived : store.Derived h)
    {a : Assignment}
    (hHolds : store.Holds a)
    (hDecided : ∀ l ∈ h.decided, l.Holds a) :
    h.Agrees a := by
  induction hDerived with
  | start => exact fun entry hMem => by cases hMem
  | forced hOlder hEntails ih =>
      rw [History.decided_cons] at hDecided
      have hRest := ih hDecided
      exact History.agrees_cons.mpr ⟨hEntails a hHolds hRest, hRest⟩
  | decided hOlder l ih =>
      rw [History.decided_cons] at hDecided
      rcases List.forall_mem_cons.mp hDecided with ⟨hHead, hRest⟩
      exact History.agrees_cons.mpr ⟨hHead, ih hRest⟩

end Store.Derived

theorem History.mem_of_mem_decided
    {h : History Unit}
    {l : Literal}
    (hMem : l ∈ h.decided) :
    l ∈ h.map Prod.fst := by
  rcases List.mem_map.mp hMem with ⟨entry, hEntry, rfl⟩
  exact List.mem_map_of_mem (List.mem_filter.mp hEntry).1

------------------------------------------------------------
-- Acting on a verdict
------------------------------------------------------------

/- The host takes every reason that it holds. -/
def Demand.Fair
    (demand : Demand) : Prop :=
  ∀ host reason, (∀ l ∈ reason, host.isTrue l = .ok true) →
    demand host reason = .ok ()

theorem Demand.fair_none :
    Demand.none.Fair :=
  fun _ _ _ => rfl

theorem Demand.fair_held :
    Demand.held.Fair := by
  intro host reason hHeld
  apply forM_of_ok
  intro l hMem
  rw [hHeld l hMem]
  rfl

namespace Pairing

variable {store : Store} {config : Config} {h : History Unit}
variable {demand : Demand} {e : Engine} {queue : List Literal}
variable {stack stack' : DecisionStack Unit} {verdict : Verdict}

/- Open variables can be assigned one after the other. -/
theorem exists_assignForced
    (hDemand : demand.Fair)
    {ps : List Propagation}
    (hRecords : stack.Records h)
    (hDistinct : (ps.map fun p => p.literal.index).Nodup)
    (hOpen : ∀ p ∈ ps, p.literal.index < stack.numVariables ∧
      h.value p.literal.index = none)
    (hHeld : ∀ p ∈ ps, ∀ l ∈ p.reason, l ∈ h.map Prod.fst) :
    ∃ stack', assignForced demand stack ps = (stack', .ok ()) := by
  induction ps generalizing h stack with
  | nil => exact ⟨stack, rfl⟩
  | cons p ps ih =>
      rcases List.forall_mem_cons.mp hOpen with ⟨⟨hLt, hNone⟩, hRest⟩
      rcases List.forall_mem_cons.mp hHeld with ⟨hReason, hReasons⟩
      rw [List.map_cons, List.nodup_cons] at hDistinct
      rcases hRecords.exists_assign hLt hNone (.propagation ()) with
        ⟨next, hAssign⟩
      rcases hRecords.assign hAssign with ⟨_, hSize, hNext⟩
      have hTaken : demand stack.host p.reason = .ok () :=
        hDemand _ _ fun l hMem =>
          (isTrue_iff_mem hRecords).mpr (hReason l hMem)
      have hLater : ∀ q ∈ ps, q.literal.index < next.numVariables ∧
          History.value ((p.literal, .propagation ()) :: h)
            q.literal.index = none := by
        intro q hMem
        have hNe : p.literal.index ≠ q.literal.index := fun hEq =>
          hDistinct.1 (List.mem_map.mpr ⟨q, hMem, hEq.symm⟩)
        rw [hSize, History.value_cons, if_neg hNe]
        exact hRest q hMem
      rcases ih hNext hDistinct.2 hLater
        (fun q hMem l hIn =>
          List.mem_cons_of_mem _ (hReasons q hMem l hIn)) with
        ⟨last, hLast⟩
      refine ⟨last, ?_⟩
      unfold assignForced
      rw [hTaken, hAssign]
      exact hLast

/- The host can act on every verdict that it can trust. -/
theorem exists_absorb
    (hDemand : demand.Fair)
    (hIn : InStep store config h ⟨e, stack⟩)
    (hTrust : e.Trustworthy stack.host verdict)
    (queue : List Literal) :
    (∃ reason, verdict = .conflict reason ∧
        absorb demand stack queue verdict = (stack, .ok none)) ∨
      ∃ stack' queue',
        absorb demand stack queue verdict =
          (stack', .ok (some queue')) := by
  cases verdict with
  | nothing => exact .inr ⟨stack, queue, rfl⟩
  | conflict reason =>
      have hRefutes : e.store.Refutes stack.host reason := hTrust.sound
      refine .inl ⟨reason, rfl, ?_⟩
      rw [absorb, hDemand _ _ hRefutes.held]
      rfl
  | forced ps =>
      rcases hTrust.sound with ⟨_, hDistinct, hEach⟩
      have hOpen : ∀ p ∈ ps,
          p.literal.index < stack.numVariables ∧
            h.value p.literal.index = none := by
        intro p hMem
        rcases Host.read_eq_ok.mp (hEach p hMem).isNews with
          ⟨hLt, hNone⟩
        refine ⟨hLt, ?_⟩
        rw [← hIn.records.value_eq]
        exact hNone
      rcases exists_assignForced hDemand hIn.records hDistinct hOpen
        (fun p hMem l hReason => (isTrue_iff_mem hIn.records).mp
          (hTrust.onTrail ps rfl p hMem l hReason).2) with
        ⟨stack', hForced⟩
      refine .inr ⟨stack', queue ++ ps.map Propagation.literal, ?_⟩
      rw [absorb, hForced]
      rfl

------------------------------------------------------------
-- The rounds of a drain
------------------------------------------------------------

/-
  The host waits, all that it can ask is permitted, and it
  can see where its literals come from.
-/
structure Pending
    (store : Store)
    (config : Config)
    (h : History Unit)
    (queue : List Literal)
    (p : Pairing) : Prop extends
    Waiting store config h queue p where
  size : store.numVariables ≤ p.stack.numVariables
  queued : ∀ l ∈ queue, l ∈ h.map Prod.fst
  highest : p.engine.highestLevel ≤ h.level
  ready : p.engine.state = .ready
  derived : store.Derived h

/- The engine has answered, and the host can go on. -/
structure Ongoing
    (store : Store)
    (config : Config)
    (h : History Unit)
    (queue : List Literal)
    (p : Pairing)
    (verdict : Verdict) : Prop extends
    Answered store config h queue p verdict where
  size : store.numVariables ≤ p.stack.numVariables
  queued : ∀ l ∈ queue, l ∈ h.map Prod.fst
  highest : p.engine.highestLevel = h.level
  state : p.engine.state = Engine.stateAfter .ready h.level verdict
  derived : store.Derived h
  least : Least store config h verdict

/- Acting on a verdict without a conflict, the host waits. -/
theorem Ongoing.absorb
    (hOngoing : Ongoing store config h queue ⟨e, stack⟩ verdict)
    {queue' : List Literal}
    (hAbsorb :
      Pairing.absorb demand stack queue verdict =
        (stack', .ok (some queue'))) :
    Pending store config (h.after verdict) queue' ⟨e, stack'⟩ ∧
      stack'.numVariables = stack.numVariables := by
  have hWaiting := hOngoing.toAnswered.absorb hAbsorb
  have hHighest : e.highestLevel ≤ (h.after verdict).level := by
    rw [History.level_after]
    exact Nat.le_of_eq hOngoing.highest
  rcases absorb_eq_ok hAbsorb with
    ⟨rfl, rfl, rfl⟩ | ⟨ps, rfl, hForced, rfl⟩
  · exact ⟨⟨hWaiting, hOngoing.size, hOngoing.queued, hHighest,
      hOngoing.state, hOngoing.derived⟩, rfl⟩
  · have hSize := (hOngoing.inStep.assignForced hForced).2
    have hEntails := Search.entails_of_forced hOngoing.inStep
      hOngoing.trustworthy
    refine ⟨⟨hWaiting, ?_, ?_, hHighest, hOngoing.state,
      hOngoing.derived.force hEntails⟩, hSize⟩
    · simp only [hSize]
      exact hOngoing.size
    · intro l hMem
      rcases List.mem_append.mp hMem with hOld | hNew
      · exact History.mem_after_iff.mpr (.inr (hOngoing.queued l hOld))
      · exact History.mem_after_iff.mpr (.inl hNew)

/- The next literal of the queue is propagated. -/
theorem Pending.propagate
    (hStore : store.WellFormed)
    {l : Literal}
    (hPending : Pending store config h (l :: queue) ⟨e, stack⟩) :
    ∃ verdict, (e.propagate stack.host l).outcome = .ok verdict ∧
      Ongoing store config h queue
        ⟨(e.propagate stack.host l).engine, stack⟩ verdict := by
  have hIn := hPending.inStep
  have hLevel : stack.host.level = h.level := hIn.records.level_eq
  rcases (hPending.reachable.intact hStore).exists_propagate hStore hPending.size
      hIn.holds_trail hPending.ready
      ((isTrue_iff_mem hIn.records).mpr
        (hPending.queued l List.mem_cons_self)) hIn.trail_level_le with
    ⟨verdict, hCall⟩
  have hState :
      (e.propagate stack.host l).engine.highestLevel =
          max e.highestLevel stack.host.level ∧
        (e.propagate stack.host l).engine.state =
          Engine.stateAfter .ready stack.host.level verdict := by
    rcases (Engine.propagate_eq_ok hCall).2.2.2 with
      hIdles | ⟨trail, theory, found, hAbsorbs⟩
    · rw [hIdles.engine, hIdles.nothing]
      exact ⟨rfl, hPending.ready⟩
    · rw [hAbsorbs.engine]
      exact ⟨rfl, rfl⟩
  rw [hLevel] at hState
  refine ⟨verdict, hCall,
    hPending.toWaiting.propagate hStore hCall, hPending.size,
    fun k hMem => hPending.queued k (List.mem_cons_of_mem _ hMem),
    ?_, hState.2, hPending.derived, least_of_propagate hStore hIn hCall⟩
  exact hState.1.trans (Nat.max_eq_right hPending.highest)

theorem Pending.perm
    {queue' : List Literal}
    {p : Pairing}
    (hPending : Pending store config h queue p)
    (hPerm : queue.Perm queue') :
    Pending store config h queue' p :=
  ⟨hPending.toWaiting.perm hPerm, hPending.size,
    fun l hMem => hPending.queued l (hPerm.mem_iff.mpr hMem),
    hPending.highest, hPending.ready, hPending.derived⟩

------------------------------------------------------------
-- Rest
------------------------------------------------------------

/- Nothing is left to be done at the current level. -/
structure AtRest
    (store : Store)
    (config : Config)
    (h : History Unit)
    (p : Pairing) : Prop extends
    AllSettled store config h p where
  size : store.numVariables ≤ p.stack.numVariables
  highest : p.engine.highestLevel = h.level
  derived : store.Derived h

/-
  A drain comes to its end. It adds to the history, but it
  decides nothing. Engine and host are at rest; after a
  conflict no solution agrees with the history. Without
  elimination the drain finds no more than it has to.
-/
structure EndsAt
    (store : Store)
    (config : Config)
    (h : History Unit)
    (numVariables : Nat)
    (d : Drain)
    (h' : History Unit) : Prop where
  outcome : d.outcome = .ok ()
  rest : AtRest store config h' d.pairing
  grows : h <:+ h'
  decided : h'.decided = h.decided
  size : d.pairing.stack.numVariables = numVariables
  state :
    d.pairing.engine.state =
      if d.isConflict then .conflicted h'.level else .ready
  excludes : d.isConflict = true → store.Excludes h'
  least :
    config.strategy.usesElimination = false →
      ∀ value, store.Stable config.strategy value →
        Within h.value value →
          d.isConflict = false ∧ Within h'.value value

theorem EndsAt.level
    {n : Nat}
    {d : Drain}
    {h' : History Unit}
    (hEnds : EndsAt store config h n d h') :
    h'.level = h.level := by
  rw [← History.length_decided, hEnds.decided,
    History.length_decided]

/- The end of a drain that stops at a verdict. -/
theorem Ongoing.clash
    {reason : List Literal}
    (hOngoing :
      Ongoing store config h queue ⟨e, stack⟩ (.conflict reason))
    (notes : List Note) :
    EndsAt store config h stack.numVariables
      ⟨⟨e, stack⟩, [⟨notes, .ok (.conflict reason)⟩], .ok ()⟩ h where
  outcome := rfl
  rest :=
    { inStep := hOngoing.inStep
      reachable := hOngoing.reachable
      lower := hOngoing.lower
      here := fun hReady => absurd hReady (hOngoing.busy reason rfl)
      size := hOngoing.size
      highest := hOngoing.highest
      derived := hOngoing.derived }
  grows := List.suffix_rfl
  decided := rfl
  size := rfl
  state := hOngoing.state
  excludes := fun _ =>
    Search.excludes_of_conflict hOngoing.inStep hOngoing.trustworthy
  least := fun hPlain value hStable hWithin =>
    absurd rfl ((hOngoing.least hPlain value hStable hWithin).1 reason)

/- The end of a drain with nothing left in the queue. -/
theorem Pending.done
    (hStore : store.WellFormed)
    {p : Pairing}
    (hPending : Pending store config h [] p)
    (hHighest : p.engine.highestLevel = h.level) :
    AtRest store config h p where
  inStep := hPending.inStep
  reachable := hPending.reachable
  lower := hPending.lower
  here := fun _ => hPending.toWaiting.settled hStore
  size := hPending.size
  highest := hHighest
  derived := hPending.derived

/-
  A drain ends at rest. Each round takes a literal out of the
  queue and puts in only literals whose variables it closes.
-/
theorem Ongoing.drainBy
    (hStore : store.WellFormed)
    (hDemand : demand.Fair)
    {fuel : Nat}
    {picks : List Nat}
    {reply : Reply Verdict}
    (hReply : reply.outcome = .ok verdict)
    (hOngoing :
      Ongoing store config h queue ⟨reply.engine, stack⟩ verdict)
    (hFuel : queue.length + stack.openVariables < fuel) :
    ∃ h', EndsAt store config h stack.numVariables
      (Pairing.drainBy demand fuel picks stack queue reply) h' := by
  induction fuel generalizing picks h queue stack reply verdict with
  | zero => omega
  | succ fuel ih =>
      rcases exists_absorb hDemand hOngoing.inStep
          hOngoing.trustworthy queue with
        ⟨reason, rfl, hAbsorb⟩ | ⟨stack', queue', hAbsorb⟩
      · refine ⟨h, ?_⟩
        simp only [Pairing.drainBy, hReply, hAbsorb]
        exact hOngoing.clash reply.notes
      · rcases hOngoing.absorb hAbsorb with ⟨hPending, hSize⟩
        have hBound := length_add_openVariables_of_absorb hAbsorb
        have hHighest :
            reply.engine.highestLevel = (h.after verdict).level := by
          rw [History.level_after]
          exact hOngoing.highest
        cases queue' with
        | nil =>
            have hQuiet : ∀ reason, verdict ≠ .conflict reason := by
              intro reason hConflict
              subst hConflict
              cases hPending.ready.symm.trans hOngoing.state
            refine ⟨h.after verdict, ?_⟩
            have hFlag : Drain.isConflict
                ⟨⟨reply.engine, stack'⟩,
                  [⟨reply.notes, .ok verdict⟩], .ok ()⟩ = false := by
              unfold Drain.isConflict
              cases verdict with
              | conflict reason => exact absurd rfl (hQuiet reason)
              | nothing => rfl
              | forced ps => rfl
            simp only [Pairing.drainBy, hReply, hAbsorb]
            refine ⟨rfl, hPending.done hStore hHighest,
              History.suffix_after h verdict,
              History.decided_after h verdict, hSize, ?_, ?_, ?_⟩
            · rw [hFlag]
              exact hPending.ready
            · intro hTrue
              rw [hFlag] at hTrue
              cases hTrue
            · intro hPlain value hStable hWithin
              exact ⟨hFlag,
                (hOngoing.least hPlain value hStable hWithin).2⟩
        | cons l rest =>
            have hPerm := perm_takeAt (picks.headD 0) l rest
            rcases (hPending.perm hPerm).propagate hStore with
              ⟨next, hCall, hNext⟩
            have hLength := hPerm.length_eq
            rw [List.length_cons] at hLength hBound
            rw [List.length_cons] at hLength
            rcases ih hCall hNext (by omega) with
              ⟨h', hEnds⟩
            refine ⟨h', ?_⟩
            simp only [Pairing.drainBy, hReply, hAbsorb]
            refine ⟨hEnds.outcome, hEnds.rest,
              (History.suffix_after h verdict).trans hEnds.grows,
              hEnds.decided.trans (History.decided_after h verdict),
              hEnds.size.trans hSize, ?_, ?_, ?_⟩
            · rw [isConflict_cons (rounds_ne_nil _ _ _ _ _ _)]
              exact hEnds.state
            · rw [isConflict_cons (rounds_ne_nil _ _ _ _ _ _)]
              exact hEnds.excludes
            · rw [isConflict_cons (rounds_ne_nil _ _ _ _ _ _)]
              intro hPlain value hStable hWithin
              exact hEnds.least hPlain value hStable
                (hOngoing.least hPlain value hStable hWithin).2

theorem Ongoing.settleBy
    (hStore : store.WellFormed)
    (hDemand : demand.Fair)
    {picks : List Nat}
    {reply : Reply Verdict}
    (hReply : reply.outcome = .ok verdict)
    (hOngoing :
      Ongoing store config h [] ⟨reply.engine, stack⟩ verdict) :
    ∃ h', EndsAt store config h stack.numVariables
      (Pairing.settleBy demand picks stack reply) h' := by
  apply hOngoing.drainBy hStore hDemand hReply
  have hOpen := stack.openVariables_le
  simp only [List.length_nil]
  omega

------------------------------------------------------------
-- Starting, deciding and going back
------------------------------------------------------------

/- A fresh engine finds what follows from the constraints alone. -/
theorem exists_start
    (hStore : store.WellFormed)
    (hDemand : demand.Fair)
    (hEngine : Engine.ofStore store config = .ok e)
    {n : Nat}
    (hSize : store.numVariables ≤ n)
    (hStack : stack = DecisionStack.withVariables n)
    (picks : List Nat) :
    ∃ h, EndsAt store config [] n
      (Pairing.settleBy demand picks stack
        (e.initialPropagation stack.host)) h := by
  have hVariables : stack.numVariables = n := by
    rw [hStack, DecisionStack.numVariables_withVariables]
  have hIn : InStep store config [] ⟨e, stack⟩ := by
    rw [hStack]
    exact inStep_new hEngine
  have hNew := Engine.Reachable.new hEngine
  rcases Engine.faithful_ofStore hEngine with
    ⟨_, _, _, hTrail, hReady, hHighest⟩
  have hRoom : store.numVariables ≤ stack.host.size :=
    Nat.le_trans hSize (Nat.le_of_eq hVariables.symm)
  rcases (hNew.intact hStore).exists_initialPropagation hStore hRoom
      (by rw [hTrail]; rfl) hReady with ⟨verdict, hCall⟩
  have hLevel : stack.host.level = 0 := hIn.records.level_eq
  have hAfter := (Engine.initialPropagation_eq_ok hCall).2.2.2
  rw [hHighest, hLevel] at hAfter
  have hOngoing : Ongoing store config [] []
      ⟨(e.initialPropagation stack.host).engine, stack⟩ verdict :=
    { answered_initialPropagation hStore hIn hNew hCall with
      size := hRoom
      queued := nofun
      highest := by
        rw [hAfter]
        rfl
      state := by
        rw [hAfter]
        rfl
      derived := .start
      least := least_of_initialPropagation hStore hIn hNew hCall }
  rw [← hVariables]
  exact hOngoing.settleBy hStore hDemand hCall

/- A decision on an open variable is followed up. -/
theorem AtRest.follow
    {p : Pairing}
    (hRest : AtRest store config h p)
    (hStore : store.WellFormed)
    (hDemand : demand.Fair)
    (hReady : p.engine.state = .ready)
    {l : Literal}
    (hLt : l.index < p.stack.numVariables)
    (hOpen : p.stack.value l.index = none)
    (picks : List Nat) :
    ∃ stack, p.stack.assign l .decision = .ok stack ∧
      ∃ h', EndsAt store config ((l, .decision) :: h)
        p.stack.numVariables
        (Pairing.settleBy demand picks stack
          (p.engine.propagate stack.host l)) h' := by
  have hRecords := hRest.inStep.records
  rcases hRecords.exists_assign hLt
      ((hRecords.value_eq l.index).symm.trans hOpen) .decision with
    ⟨stack, hAssign⟩
  have hSize := (hRecords.assign hAssign).2.1
  have hPending : Pending store config ((l, .decision) :: h) [l]
      ⟨p.engine, stack⟩ :=
    { hRest.toAllSettled.waiting hStore hReady hAssign with
      size := Nat.le_trans hRest.size (Nat.le_of_eq hSize.symm)
      queued := fun k hMem => by
        rw [List.mem_singleton.mp hMem]
        exact List.mem_cons_self
      highest := Nat.le_trans (Nat.le_of_eq hRest.highest)
        (History.level_le_level_cons _ h)
      ready := hReady
      derived := hRest.derived.decided l }
  rcases hPending.propagate hStore with ⟨verdict, hCall, hOngoing⟩
  refine ⟨stack, hAssign, ?_⟩
  rw [← hSize]
  exact hOngoing.settleBy hStore hDemand hCall

/- Engine and host can go back together. -/
theorem AtRest.back
    {p : Pairing}
    (hRest : AtRest store config h p)
    (hStore : store.WellFormed)
    {level : Nat}
    (hLevel : level ≤ h.level) :
    ∃ stack, p.stack.backjump level = .ok stack ∧
      (p.engine.undo level).outcome = .ok () ∧
      AtRest store config (h.backTo level)
        ⟨(p.engine.undo level).engine, stack⟩ ∧
      stack.numVariables = p.stack.numVariables ∧
      (p.engine.undo level).engine.state =
        Engine.stateAfterUndo p.engine.state level := by
  have hIn := hRest.inStep
  rcases hIn.records.backjump level with ⟨stack, hJump, hSize, _⟩
  rcases hIn.regular.faithful.undo
      (hIn.regular.sameStore.symm ▸ hStore)
      (hRest.highest.symm ▸ hLevel) with
    ⟨trail, theory, hUndo, hEngine, _⟩
  have hBack := hRest.toAllSettled.back hStore hJump hUndo
  refine ⟨stack, hJump, hUndo, ?_, hSize, ?_⟩
  · exact
      { hBack with
        size := Nat.le_trans hRest.size (Nat.le_of_eq hSize.symm)
        highest := by
          rw [hEngine, History.level_backTo]
          exact (Nat.min_eq_left hLevel).symm
        derived := hRest.derived.suffix
          (History.backTo_suffix level h) }
  · rw [hEngine]

end Pairing

end ParitySolver
