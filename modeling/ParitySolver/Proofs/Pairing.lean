import Mathlib.Data.List.GetD
import Mathlib.Data.List.Perm.Basic
import ParitySolver.Pairing
import ParitySolver.Proofs.DecisionStack
import ParitySolver.Proofs.Engine.Soundness

/-
  The interplay of an engine and its host. A drain is a run
  of rounds: the engine answers, the host acts on the answer,
  and a literal of the queue is propagated. All along, the
  host holds the literals of the engine's trail, each at its
  level at the latest.

  A host may take the literals of its queue in any order. Its
  choices are given as a list of positions; without choices
  it is first come, first served.

  Key definitions include:
    * `Pairing.drainBy`
    * `Pairing.Rounds`
    * `Pairing.InStep`

  Main declarations:
    * `Pairing.drainBy_nil`
    * `Pairing.rounds_of_drainBy`
    * `Pairing.drain_eq_settle`
    * `Pairing.InStep.propagate`
    * `Pairing.InStep.push`
    * `Pairing.InStep.assignForced`
    * `Pairing.InStep.back`
-/

namespace ParitySolver

namespace Pairing

------------------------------------------------------------
-- The order of the queue
------------------------------------------------------------

/-
  The literal at a position of a queue, and the others. The
  positions go round: the one after the last is the first.
-/
def takeAt
    (k : Nat)
    (l : Literal)
    (rest : List Literal) : Literal × List Literal :=
  ((l :: rest).getD (k % (rest.length + 1)) l,
    (l :: rest).eraseIdx (k % (rest.length + 1)))

theorem takeAt_zero
    (l : Literal)
    (rest : List Literal) :
    takeAt 0 l rest = (l, rest) := by
  simp [takeAt]

theorem perm_takeAt
    (k : Nat)
    (l : Literal)
    (rest : List Literal) :
    (l :: rest).Perm
      ((takeAt k l rest).1 :: (takeAt k l rest).2) := by
  have hLt : k % (rest.length + 1) < (l :: rest).length :=
    Nat.mod_lt _ (Nat.succ_pos _)
  unfold takeAt
  rw [List.getD_eq_getElem _ _ hLt]
  exact (List.getElem_cons_eraseIdx_perm hLt).symm

/-
  A drain in which the host chooses: each round takes one
  position from the list, and the first one when the list is
  used up.
-/
def drainBy
    (demand : Demand) :
    Nat → List Nat → DecisionStack Unit → List Literal →
      Reply Verdict → Drain
  | 0, _, stack, _, reply =>
      ⟨⟨reply.engine, stack⟩, [⟨reply.notes, reply.outcome⟩],
        .error .outOfFuel⟩
  | fuel + 1, picks, stack, queue, reply =>
      let round : Round := ⟨reply.notes, reply.outcome⟩
      match reply.outcome with
      | .error fault => ⟨⟨reply.engine, stack⟩, [round], .error fault⟩
      | .ok verdict =>
          match absorb demand stack queue verdict with
          | (stack, .error fault) =>
              ⟨⟨reply.engine, stack⟩, [round], .error fault⟩
          | (stack, .ok none) =>
              ⟨⟨reply.engine, stack⟩, [round], .ok ()⟩
          | (stack, .ok (some [])) =>
              ⟨⟨reply.engine, stack⟩, [round], .ok ()⟩
          | (stack, .ok (some (l :: rest))) =>
              let next := takeAt (picks.headD 0) l rest
              let later := drainBy demand fuel picks.tail stack next.2
                (reply.engine.propagate stack.host next.1)
              { later with rounds := round :: later.rounds }

/- A host that makes no choices serves first who came first. -/
theorem drainBy_nil
    (demand : Demand)
    (fuel : Nat)
    (stack : DecisionStack Unit)
    (queue : List Literal)
    (reply : Reply Verdict) :
    drainBy demand fuel [] stack queue reply =
      drain demand fuel stack queue reply := by
  induction fuel generalizing stack queue reply with
  | zero => rfl
  | succ fuel ih =>
      cases hReply : reply.outcome with
      | error fault => simp only [drainBy, drain, hReply]
      | ok verdict =>
          rcases hAbsorb : absorb demand stack queue verdict with
            ⟨next, fault | _ | _ | ⟨l, rest⟩⟩
          · simp only [drainBy, drain, hReply, hAbsorb]
          · simp only [drainBy, drain, hReply, hAbsorb]
          · simp only [drainBy, drain, hReply, hAbsorb]
          · simp only [drainBy, drain, hReply, hAbsorb,
              List.headD_nil, List.tail_nil, takeAt_zero, ih]

/- A drain that begins with a reply of the engine. -/
def settleBy
    (demand : Demand)
    (picks : List Nat)
    (stack : DecisionStack Unit)
    (reply : Reply Verdict) : Drain :=
  drainBy demand (stack.numVariables + 1) picks stack [] reply

theorem settleBy_nil
    (demand : Demand)
    (stack : DecisionStack Unit)
    (reply : Reply Verdict) :
    settleBy demand [] stack reply = settle demand stack reply :=
  drainBy_nil ..

------------------------------------------------------------
-- Rounds
------------------------------------------------------------

/-
  The rounds of a drain that came to its end, from an answer
  of the engine on. The flag tells whether they ended in a
  conflict.
-/
inductive Rounds
    (demand : Demand) :
    DecisionStack Unit → List Literal → Reply Verdict →
      Bool → Pairing → Prop where
  | clash {stack : DecisionStack Unit} {queue : List Literal}
      {reply : Reply Verdict} {reason : List Literal}
      (hReply : reply.outcome = .ok (.conflict reason)) :
      Rounds demand stack queue reply true ⟨reply.engine, stack⟩
  | done {stack stack' : DecisionStack Unit} {queue : List Literal}
      {reply : Reply Verdict} {verdict : Verdict}
      (hReply : reply.outcome = .ok verdict)
      (hAbsorb :
        absorb demand stack queue verdict =
          (stack', .ok (some []))) :
      Rounds demand stack queue reply false ⟨reply.engine, stack'⟩
  | next {stack stack' : DecisionStack Unit}
      {queue queue' rest : List Literal} {l : Literal}
      {reply : Reply Verdict} {verdict : Verdict}
      {conflict : Bool} {last : Pairing}
      (hReply : reply.outcome = .ok verdict)
      (hAbsorb :
        absorb demand stack queue verdict =
          (stack', .ok (some queue')))
      (hPick : queue'.Perm (l :: rest))
      (hRest :
        Rounds demand stack' rest
          (reply.engine.propagate stack'.host l) conflict last) :
      Rounds demand stack queue reply conflict last

theorem absorb_eq_stop
    {demand : Demand}
    {stack stack' : DecisionStack Unit}
    {queue : List Literal}
    {verdict : Verdict}
    (hAbsorb :
      absorb demand stack queue verdict = (stack', .ok none)) :
    stack' = stack ∧ ∃ reason, verdict = .conflict reason := by
  cases verdict with
  | nothing => cases hAbsorb
  | conflict reason =>
      rw [absorb, Prod.mk.injEq] at hAbsorb
      exact ⟨hAbsorb.1.symm, reason, rfl⟩
  | forced ps =>
      rw [absorb, Prod.mk.injEq] at hAbsorb
      rcases map_eq_ok.mp hAbsorb.2 with ⟨_, _, hNone⟩
      cases hNone

theorem absorb_eq_ok
    {demand : Demand}
    {stack stack' : DecisionStack Unit}
    {queue queue' : List Literal}
    {verdict : Verdict}
    (hAbsorb :
      absorb demand stack queue verdict =
        (stack', .ok (some queue'))) :
    (verdict = .nothing ∧ stack' = stack ∧ queue' = queue) ∨
      ∃ ps, verdict = .forced ps ∧
        assignForced demand stack ps = (stack', .ok ()) ∧
        queue' = queue ++ ps.map Propagation.literal := by
  cases verdict with
  | nothing =>
      cases hAbsorb
      exact .inl ⟨rfl, rfl, rfl⟩
  | conflict reason =>
      rw [absorb, Prod.mk.injEq] at hAbsorb
      rcases map_eq_ok.mp hAbsorb.2 with ⟨_, _, hSome⟩
      cases hSome
  | forced ps =>
      rw [absorb, Prod.mk.injEq] at hAbsorb
      rcases map_eq_ok.mp hAbsorb.2 with ⟨_, hOutcome, hQueue⟩
      exact .inr ⟨ps, rfl, Prod.ext hAbsorb.1 hOutcome,
        (Option.some.inj hQueue).symm⟩

theorem rounds_ne_nil
    (demand : Demand)
    (fuel : Nat)
    (picks : List Nat)
    (stack : DecisionStack Unit)
    (queue : List Literal)
    (reply : Reply Verdict) :
    (drainBy demand fuel picks stack queue reply).rounds ≠ [] := by
  cases fuel with
  | zero => simp [drainBy]
  | succ fuel =>
      unfold drainBy
      split
      · simp
      · split <;> simp

/- The last round of a drain is that of its later rounds. -/
theorem isConflict_cons
    {d : Drain}
    (hRounds : d.rounds ≠ [])
    (round : Round) :
    Drain.isConflict { d with rounds := round :: d.rounds } =
      d.isConflict := by
  unfold Drain.isConflict
  rw [List.getLast?_cons_of_ne_nil hRounds]

/- A drain that comes to its end is a run of rounds. -/
theorem rounds_of_drainBy
    {demand : Demand}
    {fuel : Nat}
    {picks : List Nat}
    {stack : DecisionStack Unit}
    {queue : List Literal}
    {reply : Reply Verdict}
    (hDrain :
      (drainBy demand fuel picks stack queue reply).outcome =
        .ok ()) :
    Rounds demand stack queue reply
      (drainBy demand fuel picks stack queue reply).isConflict
      (drainBy demand fuel picks stack queue reply).pairing := by
  induction fuel generalizing picks stack queue reply with
  | zero => cases hDrain
  | succ fuel ih =>
      cases hReply : reply.outcome with
      | error fault =>
          simp only [drainBy, hReply] at hDrain
          cases hDrain
      | ok verdict =>
          rcases hAbsorb : absorb demand stack queue verdict with
            ⟨stack', outcome⟩
          cases outcome with
          | error fault =>
              simp only [drainBy, hReply, hAbsorb] at hDrain
              cases hDrain
          | ok queue? =>
              rcases queue? with _ | _ | ⟨l, rest⟩
              · rcases absorb_eq_stop hAbsorb with ⟨rfl, reason, rfl⟩
                simp only [drainBy, hReply, hAbsorb, Drain.isConflict,
                  List.getLast?_singleton]
                exact .clash hReply
              · have hQuiet : ∀ reason, verdict ≠ .conflict reason := by
                  rintro reason rfl
                  rcases absorb_eq_ok hAbsorb with
                    ⟨hNothing, _⟩ | ⟨ps, hForced, _⟩
                  · cases hNothing
                  · cases hForced
                simp only [drainBy, hReply, hAbsorb, Drain.isConflict,
                  List.getLast?_singleton]
                cases verdict with
                | conflict reason => exact absurd rfl (hQuiet reason)
                | nothing => exact .done hReply hAbsorb
                | forced ps => exact .done hReply hAbsorb
              · simp only [drainBy, hReply, hAbsorb] at hDrain ⊢
                rw [isConflict_cons (rounds_ne_nil _ _ _ _ _ _)]
                exact .next hReply hAbsorb (perm_takeAt _ l rest)
                  (ih hDrain)

theorem rounds_of_drain
    {demand : Demand}
    {fuel : Nat}
    {stack : DecisionStack Unit}
    {queue : List Literal}
    {reply : Reply Verdict}
    (hDrain :
      (drain demand fuel stack queue reply).outcome = .ok ()) :
    Rounds demand stack queue reply
      (drain demand fuel stack queue reply).isConflict
      (drain demand fuel stack queue reply).pairing := by
  rw [← drainBy_nil] at hDrain ⊢
  exact rounds_of_drainBy hDrain

------------------------------------------------------------
-- The bound on rounds
------------------------------------------------------------

theorem openVariables_of_assignForced
    {demand : Demand}
    {stack stack' : DecisionStack Unit}
    {ps : List Propagation}
    (hForced :
      assignForced demand stack ps = (stack', .ok ())) :
    stack'.openVariables + ps.length = stack.openVariables := by
  induction ps generalizing stack with
  | nil =>
      cases hForced
      rfl
  | cons p ps ih =>
      unfold Pairing.assignForced at hForced
      split at hForced
      next => cases hForced
      next =>
        split at hForced
        next => cases hForced
        next after hAssign =>
          have hFirst := DecisionStack.openVariables_of_assign hAssign
          have hRest := ih hForced
          rw [List.length_cons]
          omega

/- Literals come into the queue as their variables are closed. -/
theorem length_add_openVariables_of_absorb
    {demand : Demand}
    {stack stack' : DecisionStack Unit}
    {queue queue' : List Literal}
    {verdict : Verdict}
    (hAbsorb :
      absorb demand stack queue verdict =
        (stack', .ok (some queue'))) :
    queue'.length + stack'.openVariables =
      queue.length + stack.openVariables := by
  rcases absorb_eq_ok hAbsorb with
    ⟨_, rfl, rfl⟩ | ⟨ps, _, hForced, rfl⟩
  · rfl
  · have hCount := openVariables_of_assignForced hForced
    rw [List.length_append, List.length_map]
    omega

/-
  The queue and the open variables bound the rounds that are
  left, so more rounds than that make no difference.
-/
theorem drain_eq_of_le
    {demand : Demand}
    {fuel more : Nat}
    {stack : DecisionStack Unit}
    {queue : List Literal}
    (hFuel : queue.length + stack.openVariables < fuel)
    (hLe : fuel ≤ more)
    (reply : Reply Verdict) :
    drain demand more stack queue reply =
      drain demand fuel stack queue reply := by
  induction fuel generalizing more stack queue reply with
  | zero => exact absurd hFuel (Nat.not_lt_zero _)
  | succ fuel ih =>
      rcases more with _ | more
      · exact absurd hLe (Nat.not_succ_le_zero _)
      cases hReply : reply.outcome with
      | error fault => simp only [drain, hReply]
      | ok verdict =>
          rcases hAbsorb : absorb demand stack queue verdict with
            ⟨stack', _ | _ | _ | ⟨l, rest⟩⟩
          · simp only [drain, hReply, hAbsorb]
          · simp only [drain, hReply, hAbsorb]
          · simp only [drain, hReply, hAbsorb]
          · have hCount := length_add_openVariables_of_absorb hAbsorb
            rw [List.length_cons] at hCount
            simp only [drain, hReply, hAbsorb]
            rw [ih (by omega) (Nat.le_of_succ_le_succ hLe)]

/- The bound on its rounds never cuts a drain short. -/
theorem drain_eq_settle
    {fuel : Nat}
    {stack : DecisionStack Unit}
    (hFuel : stack.numVariables < fuel)
    (demand : Demand)
    (reply : Reply Verdict) :
    drain demand fuel stack [] reply =
      settle demand stack reply := by
  have hOpen := stack.openVariables_le
  refine drain_eq_of_le ?_ hFuel reply
  rw [List.length_nil]
  omega

------------------------------------------------------------
-- Engine and host in step
------------------------------------------------------------

/-
  The host has the given history, and it holds the literals
  of the engine's trail, each at its level at the latest.
-/
structure InStep
    (store : Store)
    (config : Config)
    (h : History Unit)
    (p : Pairing) : Prop where
  records : p.stack.Records h
  regular : p.engine.Regular store config
  held :
    ∀ entry ∈ p.engine.trail.entries,
      entry.literal ∈ (h.backTo entry.level).map Prod.fst
  level_le : ∀ entry ∈ p.engine.trail.entries, entry.level ≤ h.level
  conflict_le :
    ∀ level, p.engine.state = .conflicted level → level ≤ h.level

variable {store : Store} {config : Config} {h : History Unit}
variable {e : Engine} {stack stack' : DecisionStack Unit}

theorem inStep_new
    {n : Nat}
    (hEngine : Engine.ofStore store config = .ok e) :
    InStep store config []
      ⟨e, DecisionStack.withVariables n⟩ := by
  rcases Engine.faithful_ofStore hEngine with
    ⟨_, _, _, hTrail, hReady, _⟩
  refine ⟨DecisionStack.records_withVariables n,
    Engine.regular_new hEngine, ?_, ?_, ?_⟩
  · intro entry hMem
    rw [hTrail] at hMem
    cases hMem
  · intro entry hMem
    rw [hTrail] at hMem
    cases hMem
  · intro level hConflict
    rw [hReady] at hConflict
    cases hConflict

/- The literals that the host holds are those of its history. -/
theorem isTrue_iff_mem
    (hRecords : stack.Records h)
    {l : Literal} :
    stack.host.isTrue l = .ok true ↔ l ∈ h.map Prod.fst := by
  have hValue :
      (⟨l.index, l.value⟩ : Literal) ∈ h.map Prod.fst ↔
        h.value l.index = some l.value :=
    (History.value_eq_some_iff hRecords.distinct).symm
  rw [Host.isTrue_iff_read, show l = ⟨l.index, l.value⟩ from rfl,
    hValue, ← hRecords.value_eq]
  unfold Host.read
  split
  · rw [Except.ok.injEq]
    exact Iff.rfl
  · rename_i hLt
    constructor
    · intro hError
      cases hError
    · intro hSome
      rw [hRecords.value_eq] at hSome
      rcases List.mem_map.mp (hValue.mpr hSome) with
        ⟨entry, hMem, hLiteral⟩
      have hRange := hRecords.inRange entry hMem
      rw [hLiteral] at hRange
      exact absurd hRange hLt

namespace InStep

theorem holds_trail
    (hIn : InStep store config h ⟨e, stack⟩) :
    ∀ entry ∈ e.trail.entries,
      stack.host.isTrue entry.literal = .ok true := by
  intro entry hMem
  refine (isTrue_iff_mem hIn.records).mpr ?_
  exact List.map_subset Prod.fst (History.backTo_suffix _ h).subset
    (hIn.held entry hMem)

/- The trail is not above the host. -/
theorem trail_level_le
    (hIn : InStep store config h ⟨e, stack⟩) :
    e.trail.level ≤ stack.host.level := by
  have hLevel : stack.host.level = h.level := hIn.records.level_eq
  rw [hLevel]
  unfold Trail.level
  split
  · exact Nat.zero_le _
  · rename_i entry entries hEntries
    apply hIn.level_le
    simp only [hEntries]
    exact List.mem_cons_self

/- The first question keeps engine and host in step. -/
theorem initialPropagation
    (hIn : InStep store config h ⟨e, stack⟩)
    {verdict : Verdict}
    (hCall :
      (e.initialPropagation stack.host).outcome = .ok verdict) :
    InStep store config h
      ⟨(e.initialPropagation stack.host).engine, stack⟩ := by
  have hRegular := hIn.regular.initialPropagation hCall
  rcases Engine.initialPropagation_eq_ok hCall with
    ⟨_, _, _, hEngine⟩
  rw [hEngine] at hRegular ⊢
  refine ⟨hIn.records, hRegular, hIn.held, hIn.level_le, ?_⟩
  intro level hConflict
  cases verdict with
  | nothing => cases hConflict
  | forced ps => cases hConflict
  | conflict reason =>
      cases hConflict
      exact Nat.le_of_eq hIn.records.level_eq

/- Telling of a literal keeps engine and host in step. -/
theorem propagate
    (hIn : InStep store config h ⟨e, stack⟩)
    {l : Literal}
    {verdict : Verdict}
    (hCall : (e.propagate stack.host l).outcome = .ok verdict) :
    InStep store config h
      ⟨(e.propagate stack.host l).engine, stack⟩ := by
  have hRegular := hIn.regular.propagate hCall
  rcases Engine.propagate_eq_ok hCall with
    ⟨hReady, hHeld, _, hIdles | ⟨trail, theory, found, hAbsorbs⟩⟩
  · rw [hIdles.engine] at hRegular ⊢
    refine ⟨hIn.records, hRegular, hIn.held, hIn.level_le, ?_⟩
    intro level hConflict
    exact hIn.conflict_le level hConflict
  · rw [hAbsorbs.engine] at hRegular ⊢
    have hEntries := Trail.entries_of_push hAbsorbs.push
    have hLevel : stack.host.level = h.level := hIn.records.level_eq
    refine ⟨hIn.records, hRegular, ?_, ?_, ?_⟩
    · intro entry hMem
      simp only [hEntries] at hMem
      rcases List.mem_cons.mp hMem with rfl | hOld
      · rw [hLevel, History.backTo_of_level_le (Nat.le_refl _)]
        exact (isTrue_iff_mem hIn.records).mp hHeld
      · exact hIn.held entry hOld
    · intro entry hMem
      simp only [hEntries] at hMem
      rcases List.mem_cons.mp hMem with rfl | hOld
      · exact Nat.le_of_eq hLevel
      · exact hIn.level_le entry hOld
    · intro level hConflict
      cases verdict with
      | nothing => cases hConflict
      | forced ps => cases hConflict
      | conflict reason =>
          cases hConflict
          exact Nat.le_of_eq hLevel

/- A literal on top of the history keeps engine and host in step. -/
theorem push
    (hIn : InStep store config h ⟨e, stack⟩)
    {l : Literal}
    {reason : Reason Unit}
    (hAssign : stack.assign l reason = .ok stack') :
    InStep store config ((l, reason) :: h) ⟨e, stack'⟩ := by
  have hLevel := History.level_le_level_cons (l, reason) h
  refine ⟨(hIn.records.assign hAssign).2.2, hIn.regular, ?_, ?_, ?_⟩
  · intro entry hMem
    exact List.map_subset Prod.fst
      (History.backTo_suffix_cons _ _ h).subset
      (hIn.held entry hMem)
  · intro entry hMem
    exact Nat.le_trans (hIn.level_le entry hMem) hLevel
  · intro level hConflict
    exact Nat.le_trans (hIn.conflict_le level hConflict) hLevel

/- Forced literals keep engine and host in step. -/
theorem assignForced
    {demand : Demand}
    {ps : List Propagation}
    (hIn : InStep store config h ⟨e, stack⟩)
    (hForced :
      assignForced demand stack ps = (stack', .ok ())) :
    InStep store config (h.force (ps.map Propagation.literal))
        ⟨e, stack'⟩ ∧
      stack'.numVariables = stack.numVariables := by
  induction ps generalizing h stack with
  | nil =>
      cases hForced
      exact ⟨hIn, rfl⟩
  | cons p ps ih =>
      unfold Pairing.assignForced at hForced
      cases hDemand : demand stack.host p.reason with
      | error fault =>
          rw [hDemand] at hForced
          cases hForced
      | ok _ =>
          rw [hDemand] at hForced
          cases hAssign :
              stack.assign p.literal (.propagation ()) with
          | error fault =>
              rw [hAssign] at hForced
              cases hForced
          | ok next =>
              rw [hAssign] at hForced
              rw [List.map_cons, History.force_cons]
              rcases ih (hIn.push hAssign) hForced with ⟨hEnd, hSize⟩
              exact ⟨hEnd,
                hSize.trans (hIn.records.assign hAssign).2.1⟩

/- Going back together keeps engine and host in step. -/
theorem back
    (hStore : store.WellFormed)
    (hIn : InStep store config h ⟨e, stack⟩)
    {level : Nat}
    (hJump : stack.backjump level = .ok stack')
    (hUndo : (e.undo level).outcome = .ok ()) :
    InStep store config (h.backTo level)
        ⟨(e.undo level).engine, stack'⟩ ∧
      stack'.numVariables = stack.numVariables ∧
      (e.undo level).engine.trail.entries =
        Engine.entriesUpTo level e.trail.entries ∧
      (e.undo level).engine.state =
        Engine.stateAfterUndo e.state level := by
  have hRegular := hIn.regular.undo hStore hUndo
  have hLevels := (hIn.regular.consistent hStore).orderly.levels
  rcases hIn.regular.faithful.undo (hIn.regular.sameStore ▸ hStore)
    (Engine.undo_eq_ok hUndo) with
    ⟨trail, theory, _, hEngine, hEntries, _⟩
  rcases hIn.records.backjump level with
    ⟨stack'', hJump', hSize, hRecords⟩
  cases hJump.symm.trans hJump'
  rw [hEngine] at hRegular ⊢
  have hLevel := History.level_backTo level h
  have hMem : ∀ {entry : TrailEntry}, entry ∈ trail.entries →
      entry ∈ e.trail.entries ∧ entry.level ≤ level := by
    intro entry hEntry
    rw [hEntries] at hEntry
    exact (Engine.mem_entriesUpTo hLevels).mp hEntry
  refine ⟨⟨hRecords, hRegular, ?_, ?_, ?_⟩, hSize, hEntries, rfl⟩
  · intro entry hEntry
    rw [History.backTo_backTo (hMem hEntry).2]
    exact hIn.held entry (hMem hEntry).1
  · intro entry hEntry
    have hOld := hIn.level_le entry (hMem hEntry).1
    have hNew := (hMem hEntry).2
    omega
  · intro conflict hConflict
    change Engine.stateAfterUndo e.state level =
      .conflicted conflict at hConflict
    cases hState : e.state with
    | ready =>
        rw [hState] at hConflict
        cases hConflict
    | conflicted old =>
        have hOld := hIn.conflict_le old hState
        rw [hState] at hConflict
        simp only [Engine.stateAfterUndo] at hConflict
        split at hConflict
        · cases hConflict
        · cases hConflict
          omega

end InStep

end Pairing

end ParitySolver
