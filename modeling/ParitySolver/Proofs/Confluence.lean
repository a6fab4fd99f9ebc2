import ParitySolver.Proofs.Fixpoints
import ParitySolver.Proofs.Theory.NaiveCounting

/-
  Unit propagation is confluent. After a decision a host may
  serve its queue in any order. Different orders move watches
  to different places and find literals for different reasons,
  but either all of them end in a conflict or none does, and
  then all of them end with the same values.

  The engine looks at a constraint only when one of its
  variables is taken in, so what was open before the decision
  matters. At the end no constraint with a new variable shows
  anything, and the values are the least ones of this kind: an
  order never leaves the values at which another one ended.

  Key definitions include:
    * `Store.SettledSince`
    * `Pairing.Drained`
    * `Pairing.Midway`
    * `Pairing.Replied`
    * `Pairing.Served`

  Main declarations:
    * `Engine.Absorbs.mem_found_iff`
    * `Pairing.Midway.propagate`
    * `Pairing.Replied.drainBy`
    * `Pairing.Drained.served`
    * `Pairing.schedules_agree`
-/

namespace ParitySolver

variable {store : Store} {config : Config}

------------------------------------------------------------
-- Constraints with a new variable
------------------------------------------------------------

/- The constraint has a variable that was open before. -/
def StoredConstraint.Touched
    (before value : Nat → Option Bool)
    (c : StoredConstraint) : Prop :=
  ∃ v ∈ c.vars, before v = none ∧ value v ≠ none

/- No constraint with a new variable shows anything. -/
def Store.SettledSince
    (store : Store)
    (before value : Nat → Option Bool) : Prop :=
  ∀ (r : Nat) (c : StoredConstraint) (event : Event),
    store.constraints[r]? = some c → c.Touched before value →
      ¬ c.Reveals value r event

/- The host has what the constraints with a new variable show. -/
def HeededSince
    (store : Store)
    (before value : Nat → Option Bool)
    (h : History Unit) : Prop :=
  ∀ (r : Nat) (c : StoredConstraint) (event : Event),
    store.constraints[r]? = some c → c.Touched before value →
      c.Reveals value r event →
        ∃ l origin, event = .propagation l origin ∧
          l ∈ h.map Prod.fst

theorem HeededSince.mono
    {before value : Nat → Option Bool}
    {h h' : History Unit}
    (hHeeded : HeededSince store before value h)
    (hSubset : h ⊆ h') :
    HeededSince store before value h' := by
  intro r c event hAt hTouched hReveals
  rcases hHeeded r c event hAt hTouched hReveals with
    ⟨l, origin, hEvent, hMem⟩
  exact ⟨l, origin, hEvent, List.map_subset Prod.fst hSubset hMem⟩

------------------------------------------------------------
-- What unit propagation finds
------------------------------------------------------------

/- Watching without elimination reports what counting shows. -/
theorem Theory.perm_countedEvents
    {t t' : Theory}
    {ctx : Context}
    {value : Nat → Option Bool}
    {l : Literal}
    {found : Findings}
    (hStore : ctx.store.WellFormed)
    (hEliminates : t.eliminates = false)
    (hCounts : t.counts = false)
    (hFollows : t.Follows ctx.store value)
    (hSturdy : t.Sturdy ctx.store value)
    (hTakes : TakesIn ctx value l)
    (hAssign : t.assign ctx = .ok (t', found)) :
    found.events.Perm
      (ctx.store.countedEvents ctx.trail.value l.index) := by
  rcases assign_eq_ok hAssign with
    ⟨_, _, rfl, _⟩ | ⟨watch, watch', rfl, rfl, hWatch⟩ |
      ⟨_, _, _, _, _, rfl, _⟩ | ⟨_, _, _, _, _, _, rfl, _⟩
  · cases hCounts
  · exact Watching.perm_countedEvents hStore hSturdy.1 hFollows
      hSturdy.2 hTakes.last hTakes.new hTakes.isOpen hWatch
  · cases hEliminates
  · cases hEliminates

/- The events are those of the constraints with the literal. -/
theorem Engine.Absorbs.mem_found_iff
    (hStore : store.WellFormed)
    (hUnits : config.strategy = .unitPropagation)
    {e : Engine}
    (hIntact : e.Intact store config)
    {host : Host}
    {l : Literal}
    {verdict : Verdict}
    {trail : Trail}
    {theory : Theory}
    {found : Findings}
    (hAbsorbs : e.Absorbs host l verdict trail theory found)
    {event : Event} :
    event ∈ found.events ↔
      ∃ (r : Nat) (c : StoredConstraint),
        store.constraints[r]? = some c ∧ l.index ∈ c.vars ∧
          c.Reveals trail.value r event := by
  have hConsistent := hIntact.regular.consistent hStore
  have hSturdy := (hIntact.sturdy hStore).1
  have hSame := hIntact.regular.sameStore
  subst hSame
  have hPerm := Theory.perm_countedEvents hStore
    (hConsistent.eliminates.trans (by rw [hUnits]; rfl))
    (hConsistent.counts.trans (by rw [hUnits]; rfl))
    hConsistent.follows hSturdy (Engine.takesIn_of_push hAbsorbs.push)
    hAbsorbs.assign
  exact hPerm.mem_iff.trans (Store.mem_countedEvents hStore)

------------------------------------------------------------
-- Rounds
------------------------------------------------------------

namespace Pairing

variable {before : Nat → Option Bool} {h : History Unit}
variable {queue : List Literal}

/-
  Nothing is pending: engine and host are in step, the engine
  is ready, and it knows all literals of the host that occur
  in constraints.
-/
structure Drained
    (store : Store)
    (config : Config)
    (h : History Unit)
    (p : Pairing) : Prop where
  inStep : InStep store config h p
  reachable : Engine.Reachable store config p.engine
  size : store.numVariables ≤ p.stack.numVariables
  ready : p.engine.state = .ready
  told :
    ∀ l ∈ h.map Prod.fst, store.isRelevant l.index = true →
      p.engine.trail.value l.index ≠ none

/-
  The host is about to propagate the literals of its queue.
  The engine knows all others that it was given since the
  trail had the values `before`.
-/
structure Midway
    (store : Store)
    (config : Config)
    (before : Nat → Option Bool)
    (h : History Unit)
    (queue : List Literal)
    (p : Pairing) : Prop where
  inStep : InStep store config h p
  reachable : Engine.Reachable store config p.engine
  size : store.numVariables ≤ p.stack.numVariables
  ready : p.engine.state = .ready
  queued : ∀ l ∈ queue, l ∈ h.map Prod.fst
  older : Within before p.engine.trail.value
  covered :
    ∀ l ∈ h.map Prod.fst, store.isRelevant l.index = true →
      p.engine.trail.value l.index ≠ none ∨ l ∈ queue
  heeded : HeededSince store before p.engine.trail.value h

/- The verdict leaves the history within all settled values. -/
def LeastSince
    (store : Store)
    (before : Nat → Option Bool)
    (h : History Unit)
    (verdict : Verdict) : Prop :=
  ∀ value, store.SettledSince before value → Within h.value value →
    (∀ reason, verdict ≠ .conflict reason) ∧
      Within (h.after verdict).value value

/- The engine has answered, and the host is about to act on it. -/
structure Replied
    (store : Store)
    (config : Config)
    (before : Nat → Option Bool)
    (h : History Unit)
    (queue : List Literal)
    (p : Pairing)
    (verdict : Verdict) : Prop where
  inStep : InStep store config h p
  reachable : Engine.Reachable store config p.engine
  trustworthy : p.engine.Trustworthy p.stack.host verdict
  size : store.numVariables ≤ p.stack.numVariables
  ready :
    (∀ reason, verdict ≠ .conflict reason) → p.engine.state = .ready
  queued : ∀ l ∈ queue, l ∈ h.map Prod.fst
  older : Within before p.engine.trail.value
  covered :
    ∀ l ∈ h.map Prod.fst, store.isRelevant l.index = true →
      p.engine.trail.value l.index ≠ none ∨ l ∈ queue
  heeded :
    (∀ reason, verdict ≠ .conflict reason) →
      HeededSince store before p.engine.trail.value (h.after verdict)
  least : LeastSince store before h verdict

theorem Midway.perm
    {queue' : List Literal}
    {p : Pairing}
    (hMidway : Midway store config before h queue p)
    (hPerm : queue.Perm queue') :
    Midway store config before h queue' p :=
  { hMidway with
    queued := fun l hMem => hMidway.queued l (hPerm.mem_iff.mpr hMem)
    covered := fun l hMem hRelevant =>
      (hMidway.covered l hMem hRelevant).imp id hPerm.mem_iff.mp }

/- What the engine knows is what the host holds. -/
theorem InStep.value_eq_of_told
    (hStore : store.WellFormed)
    {p : Pairing}
    (hIn : InStep store config h p)
    (hTold : ∀ l ∈ h.map Prod.fst, store.isRelevant l.index = true →
      p.engine.trail.value l.index ≠ none)
    {v : Nat}
    (hRelevant : store.isRelevant v = true) :
    p.engine.trail.value v = h.value v := by
  cases hTrail : p.engine.trail.value v with
  | some b => exact (hIn.value_of_value hStore hTrail).symm
  | none =>
      cases hHost : h.value v with
      | none => rfl
      | some b =>
          have hMem :=
            (History.value_eq_some_iff hIn.records.distinct).mp hHost
          exact absurd hTrail (hTold _ hMem hRelevant)

/- With nothing in the queue the host's values are settled. -/
theorem Midway.settled
    (hStore : store.WellFormed)
    {p : Pairing}
    (hMidway : Midway store config before h [] p) :
    store.SettledSince before h.value := by
  intro r c event hAt hTouched hReveals
  have hSame : ∀ w ∈ c.vars, p.engine.trail.value w = h.value w := by
    intro w hIn
    apply hMidway.inStep.value_eq_of_told hStore
    · intro l hMem hRelevant
      rcases hMidway.covered l hMem hRelevant with hSome | hQueue
      · exact hSome
      · cases hQueue
    · exact (hStore.isRelevant_iff w).mpr
        ⟨c, Array.mem_of_getElem? hAt, hIn⟩
  have hTouched' : c.Touched before p.engine.trail.value := by
    rcases hTouched with ⟨v, hIn, hBefore, hNow⟩
    exact ⟨v, hIn, hBefore, (hSame v hIn).trans_ne hNow⟩
  rcases hMidway.heeded r c event hAt hTouched'
    (hReveals.congr hSame) with ⟨l, origin, rfl, hMem⟩
  have hPlain : (Event.propagation l origin).Plain store h.value :=
    ⟨r, c, hAt, hReveals⟩
  have hOpen : h.value l.index = none := hPlain.explainable.1
  rw [(History.value_eq_some_iff
    hMidway.inStep.records.distinct).mpr hMem] at hOpen
  cases hOpen

/- Acting on a verdict, the host goes on with its queue. -/
theorem Replied.absorb
    {demand : Demand}
    {e : Engine}
    {stack stack' : DecisionStack Unit}
    {verdict : Verdict}
    {queue' : List Literal}
    (hReplied :
      Replied store config before h queue ⟨e, stack⟩ verdict)
    (hAbsorb :
      Pairing.absorb demand stack queue verdict =
        (stack', .ok (some queue'))) :
    Midway store config before (h.after verdict) queue'
      ⟨e, stack'⟩ := by
  rcases absorb_eq_ok hAbsorb with
    ⟨rfl, rfl, rfl⟩ | ⟨ps, rfl, hForced, rfl⟩
  · exact ⟨hReplied.inStep, hReplied.reachable, hReplied.size,
      hReplied.ready nofun, hReplied.queued, hReplied.older,
      hReplied.covered, hReplied.heeded nofun⟩
  · rcases hReplied.inStep.assignForced hForced with ⟨hIn, hSize⟩
    refine ⟨hIn, hReplied.reachable, ?_, hReplied.ready nofun, ?_,
      hReplied.older, ?_, hReplied.heeded nofun⟩
    · simp only [hSize]
      exact hReplied.size
    · intro l hMem
      rcases List.mem_append.mp hMem with hOld | hNew
      · exact History.mem_after_iff.mpr (.inr (hReplied.queued l hOld))
      · exact History.mem_after_iff.mpr (.inl hNew)
    · intro l hMem hRelevant
      rcases History.mem_after_iff.mp hMem with hNew | hOld
      · exact .inr (List.mem_append_right _ hNew)
      · rcases hReplied.covered l hOld hRelevant with hSome | hQueue
        · exact .inl hSome
        · exact .inr (List.mem_append_left _ hQueue)

section Propagate

variable {e : Engine} {stack : DecisionStack Unit} {l : Literal}
variable {verdict : Verdict} {trail : Trail} {theory : Theory}
variable {found : Findings}

/-
  With a new literal, constraints that have its variable are
  looked at, and the others show what they did before.
-/
theorem Midway.heeded_of_absorbs
    (hStore : store.WellFormed)
    (hUnits : config.strategy = .unitPropagation)
    (hMidway : Midway store config before h (l :: queue) ⟨e, stack⟩)
    (hAbsorbs : e.Absorbs stack.host l verdict trail theory found)
    (hQuiet : ∀ reason, verdict ≠ .conflict reason) :
    HeededSince store before trail.value (h.after verdict) := by
  have hIntact := hMidway.reachable.intact hStore
  have hNew := Trail.value_of_push hAbsorbs.push
  intro r c event hAt hTouched hReveals
  by_cases hOccurs : l.index ∈ c.vars
  · apply mem_after_of_concludes hMidway.inStep.records
      hAbsorbs.concludes hQuiet
    exact (hAbsorbs.mem_found_iff hStore hUnits hIntact).mpr
      ⟨r, c, hAt, hOccurs, hReveals⟩
  · have hSame : ∀ w ∈ c.vars, e.trail.value w = trail.value w := by
      intro w hIn
      have hNe : w ≠ l.index := by
        rintro rfl
        exact hOccurs hIn
      rw [hNew, if_neg hNe]
    have hTouched' : c.Touched before e.trail.value := by
      rcases hTouched with ⟨v, hIn, hBefore, hNow⟩
      exact ⟨v, hIn, hBefore, (hSame v hIn).trans_ne hNow⟩
    exact hMidway.heeded.mono (History.suffix_after h verdict).subset r
      c event hAt hTouched' (hReveals.congr hSame)

/-
  What the constraints with a new literal show is in all
  settled values that contain those of the trail.
-/
theorem Midway.least_of_absorbs
    (hStore : store.WellFormed)
    (hUnits : config.strategy = .unitPropagation)
    (hMidway : Midway store config before h (l :: queue) ⟨e, stack⟩)
    (hAfter : InStep store config h
      ⟨(e.propagate stack.host l).engine, stack⟩)
    (hAbsorbs : e.Absorbs stack.host l verdict trail theory found) :
    LeastSince store before h verdict := by
  intro value hSettled hWithin
  have hIntact := hMidway.reachable.intact hStore
  have hHost : Within stack.host.value value := by
    intro v b hValue
    exact hWithin v b
      ((hMidway.inStep.records.value_eq v).symm.trans hValue)
  rw [hAbsorbs.engine] at hAfter
  have hTrail : Within trail.value value :=
    Within.trans (fun v b => hAfter.value_of_value hStore) hWithin
  have hTheory : theory.eliminates = false :=
    (hAfter.regular.consistent hStore).eliminates.trans
      (by rw [hUnits]; rfl)
  have hBefore : before l.index = none := by
    cases hValue : before l.index with
    | none => rfl
    | some b =>
        have hKnown := hMidway.older _ _ hValue
        rw [Trail.value_eq_none_of_push hAbsorbs.push] at hKnown
        cases hKnown
  have hNow : value l.index ≠ none := by
    have hHere : trail.value l.index = some l.value := by
      rw [Trail.value_of_push hAbsorbs.push, if_pos rfl]
    rw [hTrail _ _ hHere]
    nofun
  -- The constraints that were looked at have the new variable,
  -- so they show nothing at the settled values.
  have hEvents : ∀ event ∈ found.events, ∃ l origin,
      event = .propagation l origin ∧ value l.index = some l.value := by
    intro event hMem
    rcases (hAbsorbs.mem_found_iff hStore hUnits hIntact).mp hMem with
      ⟨r, c, hAt, hOccurs, hReveals⟩
    exact hReveals.within
      (hStore.nodup_vars (Array.mem_of_getElem? hAt))
      (fun other => hSettled r c other hAt
        ⟨l.index, hOccurs, hBefore, hNow⟩) hTrail
  rcases hAbsorbs.concludes.within_of_events hTheory hEvents hHost with
    ⟨hQuiet, hNews⟩
  exact ⟨hQuiet, History.within_after hWithin hNews⟩

/- The next literal of the queue is propagated. -/
theorem Midway.propagate
    (hStore : store.WellFormed)
    (hUnits : config.strategy = .unitPropagation)
    (hMidway : Midway store config before h (l :: queue) ⟨e, stack⟩) :
    ∃ verdict, (e.propagate stack.host l).outcome = .ok verdict ∧
      Replied store config before h queue
        ⟨(e.propagate stack.host l).engine, stack⟩ verdict := by
  have hIn := hMidway.inStep
  have hTrue : stack.host.isTrue l = .ok true :=
    (isTrue_iff_mem hIn.records).mpr
      (hMidway.queued l List.mem_cons_self)
  rcases (hMidway.reachable.intact hStore).exists_propagate hStore
      hMidway.size hIn.holds_trail hMidway.ready hTrue
      hIn.trail_level_le with
    ⟨verdict, hCall⟩
  have hAfter := hIn.propagate hCall
  have hReachable := hMidway.reachable.propagate stack.host l hCall
  have hTrust := Engine.propagate_sound hStore hIn.regular
    hIn.holds_trail hCall
  have hQueued : ∀ k ∈ queue, k ∈ h.map Prod.fst :=
    fun k hMem => hMidway.queued k (List.mem_cons_of_mem _ hMem)
  refine ⟨verdict, hCall, ?_⟩
  rcases (Engine.propagate_eq_ok hCall).2.2.2 with
    hIdles | ⟨trail, theory, found, hAbsorbs⟩
  · have hKnown : store.isRelevant l.index = true →
        e.trail.value l.index ≠ none := by
      intro hRelevant hNone
      rcases hIdles.known with hOut | hSome
      · rw [hIn.regular.sameStore, hRelevant] at hOut
        cases hOut
      · rw [hNone] at hSome
        cases hSome
    rw [hIdles.engine] at hAfter hReachable hTrust ⊢
    refine ⟨hAfter, hReachable, hTrust, hMidway.size,
      fun _ => hMidway.ready, hQueued, hMidway.older, ?_, ?_, ?_⟩
    · intro k hMem hRelevant
      rcases hMidway.covered k hMem hRelevant with hSome | hQueue
      · exact .inl hSome
      · rcases List.mem_cons.mp hQueue with rfl | hLater
        · exact .inl (hKnown hRelevant)
        · exact .inr hLater
    · intro _
      exact hMidway.heeded.mono (History.suffix_after h _).subset
    · intro value _ hWithin
      rw [hIdles.nothing]
      exact ⟨nofun, hWithin⟩
  · have hNew := Trail.value_of_push hAbsorbs.push
    have hLeast :=
      hMidway.least_of_absorbs hStore hUnits hAfter hAbsorbs
    rw [hAbsorbs.engine] at hAfter hReachable hTrust ⊢
    refine ⟨hAfter, hReachable, hTrust, hMidway.size, ?_, hQueued, ?_,
      ?_, hMidway.heeded_of_absorbs hStore hUnits hAbsorbs, hLeast⟩
    · intro hQuiet
      cases verdict with
      | conflict reason => exact absurd rfl (hQuiet reason)
      | nothing => rfl
      | forced ps => rfl
    · intro v b hValue
      have hKnown := hMidway.older v b hValue
      have hNe : v ≠ l.index := by
        rintro rfl
        rw [Trail.value_eq_none_of_push hAbsorbs.push] at hKnown
        cases hKnown
      simp only [hNew, if_neg hNe]
      exact hKnown
    · intro k hMem hRelevant
      simp only [hNew]
      by_cases hEq : k.index = l.index
      · exact .inl (by rw [if_pos hEq]; nofun)
      · rw [if_neg hEq]
        rcases hMidway.covered k hMem hRelevant with hSome | hQueue
        · exact .inl hSome
        · rcases List.mem_cons.mp hQueue with rfl | hLater
          · exact absurd rfl hEq
          · exact .inr hLater

end Propagate

------------------------------------------------------------
-- Schedules
------------------------------------------------------------

/-
  A drain has come to its end. Without a conflict the values
  are settled, and it did not leave settled values that
  contain those at its beginning.
-/
structure Served
    (store : Store)
    (before : Nat → Option Bool)
    (h : History Unit)
    (d : Drain)
    (h' : History Unit) : Prop where
  outcome : d.outcome = .ok ()
  records : d.pairing.stack.Records h'
  grows : h <:+ h'
  settled : d.isConflict = false → store.SettledSince before h'.value
  least :
    ∀ value, store.SettledSince before value → Within h.value value →
      d.isConflict = false ∧ Within h'.value value

/- A round before a drain that has come to its end. -/
theorem Served.cons
    {d : Drain}
    {h₁ h' : History Unit}
    (hServed : Served store before h₁ d h')
    (hRounds : d.rounds ≠ [])
    (round : Round)
    (hGrows : h <:+ h₁)
    (hLeast : ∀ value, store.SettledSince before value →
      Within h.value value → Within h₁.value value) :
    Served store before h
      { d with rounds := round :: d.rounds } h' := by
  have hFlag := isConflict_cons hRounds round
  refine ⟨hServed.outcome, hServed.records,
    hGrows.trans hServed.grows, ?_, ?_⟩
  · rw [hFlag]
    exact hServed.settled
  · intro value hSettled hWithin
    rw [hFlag]
    exact hServed.least value hSettled (hLeast value hSettled hWithin)

/-
  Whatever the order of the queue, a drain comes to its end.
  Each round takes a literal out of the queue and puts in only
  literals whose variables it closes.
-/
theorem Replied.drainBy
    (hStore : store.WellFormed)
    (hUnits : config.strategy = .unitPropagation)
    {fuel : Nat}
    {picks : List Nat}
    {stack : DecisionStack Unit}
    {reply : Reply Verdict}
    {verdict : Verdict}
    (hReply : reply.outcome = .ok verdict)
    (hReplied :
      Replied store config before h queue ⟨reply.engine, stack⟩ verdict)
    (hFuel : queue.length + stack.openVariables < fuel) :
    ∃ h', Served store before h
      (Pairing.drainBy .none fuel picks stack queue reply) h' := by
  -- The queue and the open variables together fall in each
  -- round, so the fuel lasts.
  induction fuel generalizing picks h queue stack reply verdict with
  | zero => omega
  | succ fuel ih =>
      rcases exists_absorb Demand.fair_none hReplied.inStep
          hReplied.trustworthy queue with
        ⟨reason, rfl, hAbsorb⟩ | ⟨stack', queue', hAbsorb⟩
      · refine ⟨h, ?_⟩
        simp only [Pairing.drainBy, hReply, hAbsorb]
        exact
          { outcome := rfl
            records := hReplied.inStep.records
            grows := List.suffix_rfl
            settled := fun hQuiet => by cases hQuiet
            least := fun value hSettled hWithin => absurd rfl
              ((hReplied.least value hSettled hWithin).1 reason) }
      · have hMidway := hReplied.absorb hAbsorb
        have hBound := length_add_openVariables_of_absorb hAbsorb
        cases queue' with
        | nil =>
            have hFlag : Drain.isConflict
                ⟨⟨reply.engine, stack'⟩,
                  [⟨reply.notes, .ok verdict⟩], .ok ()⟩ = false := by
              rcases absorb_eq_ok hAbsorb with ⟨rfl, _⟩ | ⟨ps, rfl, _⟩
              · rfl
              · rfl
            refine ⟨h.after verdict, ?_⟩
            simp only [Pairing.drainBy, hReply, hAbsorb]
            exact
              { outcome := rfl
                records := hMidway.inStep.records
                grows := History.suffix_after h verdict
                settled := fun _ => hMidway.settled hStore
                least := fun value hSettled hWithin => ⟨hFlag,
                  (hReplied.least value hSettled hWithin).2⟩ }
        | cons l rest =>
            have hPerm := perm_takeAt (picks.headD 0) l rest
            rcases (hMidway.perm hPerm).propagate hStore hUnits with
              ⟨next, hCall, hNext⟩
            have hLength := hPerm.length_eq
            rw [List.length_cons] at hLength hBound
            rw [List.length_cons] at hLength
            rcases ih hCall hNext (by omega) with ⟨h', hServed⟩
            refine ⟨h', ?_⟩
            simp only [Pairing.drainBy, hReply, hAbsorb]
            exact hServed.cons (rounds_ne_nil _ _ _ _ _ _) _
              (History.suffix_after h verdict)
              (fun value hSettled hWithin =>
                (hReplied.least value hSettled hWithin).2)

/- A decision at a drained point is followed up in any order. -/
theorem Drained.served
    {p : Pairing}
    (hDrained : Drained store config h p)
    (hStore : store.WellFormed)
    (hUnits : config.strategy = .unitPropagation)
    {l : Literal}
    (hLt : l.index < p.stack.numVariables)
    (hOpen : p.stack.value l.index = none)
    (picks : List Nat) :
    ∃ stack, p.stack.assign l .decision = .ok stack ∧
      ∃ h', Served store p.engine.trail.value ((l, .decision) :: h)
        (settleBy .none picks stack
          (p.engine.propagate stack.host l)) h' := by
  have hRecords := hDrained.inStep.records
  rcases hRecords.exists_assign hLt
      ((hRecords.value_eq l.index).symm.trans hOpen) .decision with
    ⟨stack, hAssign⟩
  have hSize := (hRecords.assign hAssign).2.1
  have hMidway : Midway store config p.engine.trail.value
      ((l, .decision) :: h) [l] ⟨p.engine, stack⟩ := by
    refine ⟨hDrained.inStep.push hAssign, hDrained.reachable,
      Nat.le_trans hDrained.size (Nat.le_of_eq hSize.symm),
      hDrained.ready, ?_, fun _ _ => id, ?_, ?_⟩
    · intro k hMem
      rw [List.mem_singleton.mp hMem]
      exact List.mem_cons_self
    · intro k hMem hRelevant
      rcases List.mem_cons.mp hMem with rfl | hOld
      · exact .inr List.mem_cons_self
      · exact .inl (hDrained.told k hOld hRelevant)
    · rintro r c event _ ⟨v, _, hNone, hSome⟩
      exact absurd hNone hSome
  rcases hMidway.propagate hStore hUnits with
    ⟨verdict, hCall, hReplied⟩
  refine ⟨stack, hAssign, hReplied.drainBy hStore hUnits hCall ?_⟩
  have hVariables := stack.openVariables_le
  simp only [List.length_nil]
  omega

theorem Served.ofDrain
    {d : Drain}
    {h' : History Unit}
    (hServed : Served store before h d h') :
    Pairing.ofDrain d = .ok (d.pairing, d.isConflict) := by
  rw [Pairing.ofDrain, hServed.outcome]
  rfl

/- One order does not leave the values at which another one ended. -/
theorem Served.within
    {d d' : Drain}
    {h₁ h₂ : History Unit}
    (hFirst : Served store before h d h₁)
    (hSecond : Served store before h d' h₂)
    (hQuiet : d'.isConflict = false) :
    d.isConflict = false ∧ Within h₁.value h₂.value := by
  apply hFirst.least _ (hSecond.settled hQuiet)
  exact History.within_of_suffix hSecond.records.distinct hSecond.grows

/- So two orders end in the same way. -/
theorem Served.agree
    {d d' : Drain}
    {h₁ h₂ : History Unit}
    (hFirst : Served store before h d h₁)
    (hSecond : Served store before h d' h₂) :
    d.isConflict = d'.isConflict ∧
      (d'.isConflict = false → h₁.value = h₂.value) := by
  constructor
  · cases hFlag : d'.isConflict with
    | false => exact (hFirst.within hSecond hFlag).1
    | true =>
        by_contra hNe
        have hQuiet := Bool.eq_false_iff.mpr hNe
        have hOther := (hSecond.within hFirst hQuiet).1
        rw [hFlag] at hOther
        cases hOther
  · intro hQuiet
    rcases hFirst.within hSecond hQuiet with ⟨hQuiet', hWithin⟩
    exact hWithin.antisymm (hSecond.within hFirst hQuiet').2

/- Drains and returns from the start lead to drained points. -/
theorem Reached.exists_drained
    (hStore : store.WellFormed)
    {n : Nat}
    {p : Pairing}
    (hReached : Reached store config n p)
    (hSize : store.numVariables ≤ p.stack.numVariables)
    (hReady : p.engine.state = .ready) :
    ∃ h, Drained store config h p := by
  rcases hReached.allSettled hStore with ⟨h, hAll⟩
  have hSettled := hAll.here hReady
  refine ⟨h, hAll.inStep, hAll.reachable, hSize, hReady, ?_⟩
  intro l hMem hRelevant
  rw [hSettled.value_eq hStore hAll.inStep hRelevant,
    (History.value_eq_some_iff hAll.inStep.records.distinct).mpr hMem]
  nofun

/-
  Confluence of unit propagation. At a drained point the host
  decides an open variable and then propagates its pending
  literals in any two orders. Both come to their end, both or
  neither of them in a conflict, and without one all variables
  have the same values.
-/
theorem schedules_agree
    {declared : List Literal}
    {named : List (Nat × Constraint)}
    (hStore : Store.ofNamed declared named = .ok store)
    (hUnits : config.strategy = .unitPropagation)
    {p : Pairing}
    (hDrained : Drained store config h p)
    {l : Literal}
    (hLt : l.index < p.stack.numVariables)
    (hOpen : p.stack.value l.index = none)
    (picks picks' : List Nat) :
    ∃ q q' conflict,
      p.move picks (.branch l) = .ok (q, conflict) ∧
        p.move picks' (.branch l) = .ok (q', conflict) ∧
        (conflict = false →
          ∀ v, q.stack.value v = q'.stack.value v) := by
  have hWell := Store.wellFormed_of_ofNamed hStore
  rcases hDrained.served hWell hUnits hLt hOpen picks with
    ⟨stack, hAssign, h₁, hFirst⟩
  rcases hDrained.served hWell hUnits hLt hOpen picks' with
    ⟨stack', hAssign', h₂, hSecond⟩
  cases hAssign.symm.trans hAssign'
  rcases hFirst.agree hSecond with ⟨hFlag, hValues⟩
  have hMove := hFirst.ofDrain
  rw [hFlag] at hMove
  refine ⟨_, _, _, bind_eq_ok.mpr ⟨stack, hAssign, hMove⟩,
    bind_eq_ok.mpr ⟨stack, hAssign, hSecond.ofDrain⟩, ?_⟩
  intro hQuiet v
  rw [hFirst.records.value_eq, hSecond.records.value_eq,
    hValues hQuiet]

/-
  The host has taken back a first decision. Now that `l_0` is
  false, `l_1` and `l_2` follow, and one of the two hosts takes
  `l_2` first. The engines have different trails in the end,
  and both hosts hold `l_3`.
-/
theorem schedules_agree_after_return :
    ∃ store h p q q',
      Drained store ⟨.unitPropagation, ⟨1.0⟩, false⟩ h p ∧
        p.move [] (.branch ⟨0, false⟩) = .ok (q, false) ∧
        p.move [1] (.branch ⟨0, false⟩) = .ok (q', false) ∧
        q.engine.trail.entries ≠ q'.engine.trail.entries ∧
        q.stack.value 3 = some true ∧
        ∀ v, q.stack.value v = q'.stack.value v := by
  have hRun :
      (Store.ofNamed [⟨0, true⟩, ⟨1, true⟩, ⟨2, true⟩, ⟨3, true⟩]
          [(1, ⟨[⟨0, true⟩, ⟨1, true⟩], .odd⟩),
            (2, ⟨[⟨0, true⟩, ⟨2, true⟩], .odd⟩),
            (3, ⟨[⟨1, true⟩, ⟨2, true⟩, ⟨3, true⟩],
              .odd⟩)]).toOption.any
        (fun store =>
          (launch store ⟨.unitPropagation, ⟨1.0⟩, false⟩ 4
            []).toOption.any fun first =>
            (first.1.move [] (.branch ⟨0, true⟩)).toOption.any
            fun second =>
              (second.1.move [] (.back 0)).toOption.any fun p =>
                (p.1.move [] (.branch ⟨0, false⟩)).toOption.any
                fun q =>
                  (p.1.move [1] (.branch ⟨0, false⟩)).toOption.any
                  fun q' =>
                    decide (p.1.engine.state = .ready ∧
                      store.numVariables ≤ p.1.stack.numVariables ∧
                      0 < p.1.stack.numVariables ∧
                      p.1.stack.value 0 = none ∧
                      q.2 = false ∧
                      q.1.engine.trail.entries ≠
                        q'.1.engine.trail.entries ∧
                      q.1.stack.value 3 = some true)) =
        true := by
    decide +kernel
  rcases exists_ok_of_any hRun with ⟨store, hStore, hRest⟩
  rcases exists_ok_of_any hRest with ⟨first, hFirst, hRest⟩
  rcases exists_ok_of_any hRest with ⟨second, hSecond, hRest⟩
  rcases exists_ok_of_any hRest with ⟨p, hReturn, hRest⟩
  rcases exists_ok_of_any hRest with ⟨⟨q, conflict⟩, hMove, hRest⟩
  rcases exists_ok_of_any hRest with ⟨⟨q', conflict'⟩, hMove', hEnd⟩
  rcases of_decide_eq_true hEnd with
    ⟨hReady, hSize, hLt, hOpen, rfl, hNe, hForced⟩
  have hReached :=
    ((Reached.start [] hFirst).move [] _ hSecond).move [] _ hReturn
  rcases hReached.exists_drained (Store.wellFormed_of_ofNamed hStore)
    hSize hReady with ⟨h, hDrained⟩
  have hBranch : (⟨0, false⟩ : Literal).index < p.1.stack.numVariables :=
    hLt
  rcases schedules_agree hStore rfl hDrained hBranch hOpen [] [1] with
    ⟨_, _, _, hFound, hFound', hAgree⟩
  cases hMove.symm.trans hFound
  cases hMove'.symm.trans hFound'
  exact ⟨store, h, p.1, q, q', hDrained, hMove, hMove', hNe,
    hForced, hAgree rfl⟩

end Pairing

end ParitySolver
