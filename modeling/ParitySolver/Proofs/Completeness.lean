import ParitySolver.Proofs.Engine.Vigilance
import ParitySolver.Proofs.Pairing
import ParitySolver.Session

/-
  Completeness of the strategies that eliminate. Whenever a
  drain has come to its end without a conflict and enough
  variables are assigned, the host's values can be completed
  to a solution, and each open variable can have either
  value: nothing that follows was missed.

  A level is settled if its literals are all on the trail and
  neither single constraints nor elimination show anything
  new. Going on leaves the settled levels below alone, so they
  are settled still when the session comes back to them.

  Key definitions include:
    * `Store.Flexible`
    * `Quiet`
    * `Heeded`
    * `Settled`
    * `Session.Run`

  Main declarations:
    * `flexible_of_quiet`
    * `allSettled_of_rounds`
    * `Session.Run.settled`
    * `Session.drained_host_is_flexible`
-/

namespace ParitySolver

------------------------------------------------------------
-- Values that leave everything open
------------------------------------------------------------

/-
  The values can be completed to a solution, and each open
  variable can have either value in one.
-/
structure Store.Flexible
    (s : Store)
    (value : Nat → Option Bool) : Prop where
  solution : ∃ a, Extends a value ∧ s.Holds a
  either :
    ∀ v, value v = none →
      ∀ b, ∃ a, Extends a value ∧ s.Holds a ∧ a v = b

/-
  Elimination under some values shows nothing that is not
  among the literals of the history.
-/
def Quiet
    (s : Store)
    (value : Nat → Option Bool)
    (h : History Unit) : Prop :=
  ∃ events, Exhaustive s value events ∧
    ∀ event ∈ events, ∃ l origin,
      event = .propagation l origin ∧ l ∈ h.map Prod.fst

theorem Quiet.mono
    {s : Store}
    {value : Nat → Option Bool}
    {h h' : History Unit}
    (hQuiet : Quiet s value h)
    (hSubset : h ⊆ h') :
    Quiet s value h' := by
  rcases hQuiet with ⟨events, hExhaustive, hHeld⟩
  refine ⟨events, hExhaustive, ?_⟩
  intro event hMem
  rcases hHeld event hMem with ⟨l, origin, hEvent, hIn⟩
  exact ⟨l, origin, hEvent, List.map_subset Prod.fst hSubset hIn⟩

/-
  What single constraints show under some values is among the
  literals of the history. Counting looks for conflicts only.
-/
def Heeded
    (strategy : Strategy)
    (s : Store)
    (value : Nat → Option Bool)
    (h : History Unit) : Prop :=
  ∀ event : Event, event.Plain s value →
    (strategy = .countCheck → ∃ origin, event = .conflict origin) →
      ∃ l origin, event = .propagation l origin ∧
        l ∈ h.map Prod.fst

theorem Heeded.mono
    {strategy : Strategy}
    {s : Store}
    {value : Nat → Option Bool}
    {h h' : History Unit}
    (hHeeded : Heeded strategy s value h)
    (hSubset : h ⊆ h') :
    Heeded strategy s value h' := by
  intro event hPlain hKind
  rcases hHeeded event hPlain hKind with ⟨l, origin, hEvent, hIn⟩
  exact ⟨l, origin, hEvent, List.map_subset Prod.fst hSubset hIn⟩

/-
  If the relevant variables have the same values in the host
  and on the trail, quiet elimination leaves everything open.
-/
theorem flexible_of_quiet
    {s : Store}
    (hStore : s.WellFormed)
    {value hostValue : Nat → Option Bool}
    {h : History Unit}
    (hHost : ∀ l ∈ h.map Prod.fst, hostValue l.index ≠ none)
    (hTrail : ∀ v b, value v = some b → hostValue v = some b)
    (hCover : ∀ v, s.isRelevant v = true → hostValue v ≠ none →
      value v ≠ none)
    (hQuiet : Quiet s value h) :
    s.Flexible hostValue := by
  rcases hQuiet with
    ⟨events, ⟨m, hMatrix, hReduced, hRows⟩, hHeld⟩
  have hAll : ∀ (r : Nat) (row : Row), m.rows[r]? = some row →
      row.news = .quiet := by
    intro r row hRow
    rcases hRows r row hRow with
      hQuietRow | ⟨origin, hConflict⟩ |
        ⟨column, v, origin, hHas, hAt, hUnit⟩
    · exact hQuietRow
    · rcases hHeld _ hConflict with ⟨_, _, hEq, _⟩
      cases hEq
    · -- The variable of the column is open on the trail, so the
      -- host has no value for it either.
      rcases hHeld _ hUnit with ⟨l, _, hEq, hIn⟩
      cases hEq
      rcases hMatrix.openColumns r row hRow column hHas with
        ⟨w, hVariable, hOpen⟩
      cases hAt.symm.trans hVariable
      have hRelevant : s.isRelevant v = true := by
        rw [Store.isRelevant,
          (hStore.columnOf?_eq_some_iff v column).mpr hAt]
        rfl
      exact absurd hOpen (hCover v hRelevant (hHost _ hIn))
  have hNews : ∀ (r : Nat) (row : Row), m.rows[r]? = some row →
      row.news ≠ .contradiction :=
    fun r row hRow => by simp [hAll r row hRow]
  have hExtends : ∀ {base a : Assignment}, Extends base hostValue →
      (∀ v, value v ≠ none ∨ s.isRelevant v = false →
        a v = base v) →
      Extends a hostValue := by
    intro base a hBase hSame v b hValue
    rw [hSame v, hBase v b hValue]
    cases hRelevant : s.isRelevant v with
    | false => exact .inr rfl
    | true => exact .inl (hCover v hRelevant (by rw [hValue]; nofun))
  have hBase : ∀ b, Extends (overlay hostValue fun _ => b) value := by
    intro b v c hValue
    exact extends_overlay hostValue _ v c (hTrail v c hValue)
  constructor
  · rcases hMatrix.exists_solution hStore hReduced hNews (hBase false)
      with ⟨a, hHolds, hSame⟩
    exact ⟨a, hExtends (extends_overlay _ _) hSame, hHolds⟩
  · intro v hOpen b
    cases hRelevant : s.isRelevant v with
    | false =>
        rcases hMatrix.exists_solution hStore hReduced hNews (hBase b)
          with ⟨a, hHolds, hSame⟩
        refine ⟨a, hExtends (extends_overlay _ _) hSame, hHolds, ?_⟩
        rw [hSame v (.inr hRelevant), overlay_of_none _ hOpen]
    | true =>
        have hOpenTrail : value v = none := by
          cases hValue : value v with
          | none => rfl
          | some c =>
              rw [hTrail v c hValue] at hOpen
              cases hOpen
        rcases hMatrix.exists_solution_with hStore hReduced hAll
          (hBase false) hOpenTrail hRelevant b with
          ⟨a, hHolds, hChosen, hSame⟩
        exact ⟨a, hExtends (extends_overlay _ _) hSame, hHolds,
          hChosen⟩

------------------------------------------------------------
-- Settled levels
------------------------------------------------------------

/- The values are those that the entries of a trail give. -/
def ReadsOff
    (value : Nat → Option Bool)
    (entries : List TrailEntry) : Prop :=
  ∀ v b, value v = some b ↔
    ∃ entry ∈ entries, entry.literal = ⟨v, b⟩

theorem ReadsOff.unique
    {value value' : Nat → Option Bool}
    {entries : List TrailEntry}
    (hValue : ReadsOff value entries)
    (hValue' : ReadsOff value' entries) :
    value' = value := by
  funext v
  apply Option.ext
  intro b
  rw [hValue v b, hValue' v b]

/- Matrices are eliminated when so many variables are assigned. -/
structure Config.Eliminates
    (config : Config)
    (store : Store)
    (assigned : Nat) : Prop where
  strategy : config.strategy.usesElimination = true
  admits : config.cutoff.admits assigned store.numColumns = true

/-
  The relevant literals of the history are on the trail.
  Neither single constraints nor elimination, if it is done,
  show anything else.
-/
structure Settled
    (store : Store)
    (config : Config)
    (h : History Unit)
    (entries : List TrailEntry) : Prop where
  covered :
    ∀ l ∈ h.map Prod.fst, store.isRelevant l.index = true →
      ∃ entry ∈ entries, entry.literal = l
  quiet :
    config.Eliminates store entries.length →
      ∀ value, ReadsOff value entries → Quiet store value h
  heeded :
    ∀ value, ReadsOff value entries →
      Heeded config.strategy store value h

variable {store : Store} {config : Config} {h : History Unit}

open Pairing (InStep Rounds)

theorem Pairing.InStep.readsOff
    (hStore : store.WellFormed)
    {p : Pairing}
    (hIn : InStep store config h p) :
    ReadsOff p.engine.trail.value p.engine.trail.entries :=
  (hIn.regular.consistent hStore).orderly.value_iff

/- What the trail says is in the history. -/
theorem Pairing.InStep.mem_of_value
    (hStore : store.WellFormed)
    {p : Pairing}
    (hIn : InStep store config h p)
    {v : Nat}
    {b : Bool}
    (hValue : p.engine.trail.value v = some b) :
    (⟨v, b⟩ : Literal) ∈ h.map Prod.fst := by
  rcases (hIn.readsOff hStore v b).mp hValue with
    ⟨entry, hMem, hLiteral⟩
  rw [← hLiteral]
  exact List.map_subset Prod.fst (History.backTo_suffix _ h).subset
    (hIn.held entry hMem)

theorem Pairing.InStep.value_of_value
    (hStore : store.WellFormed)
    {p : Pairing}
    (hIn : InStep store config h p)
    {v : Nat}
    {b : Bool}
    (hValue : p.engine.trail.value v = some b) :
    h.value v = some b :=
  (History.value_eq_some_iff hIn.records.distinct).mpr
    (hIn.mem_of_value hStore hValue)

/- At a settled level the trail says what the history says. -/
theorem Settled.value_eq
    (hStore : store.WellFormed)
    {p : Pairing}
    (hIn : InStep store config h p)
    (hSettled : Settled store config h p.engine.trail.entries)
    {v : Nat}
    (hRelevant : store.isRelevant v = true) :
    p.engine.trail.value v = h.value v := by
  apply Option.ext
  intro b
  constructor
  · exact hIn.value_of_value hStore
  · intro hValue
    rw [History.value_eq_some_iff hIn.records.distinct] at hValue
    exact (hIn.readsOff hStore v b).mpr
      (hSettled.covered _ hValue hRelevant)

/- At a settled level that may be eliminated everything is open. -/
theorem Settled.flexible
    (hStore : store.WellFormed)
    {p : Pairing}
    (hIn : InStep store config h p)
    (hSettled : Settled store config h p.engine.trail.entries)
    (hEliminates : config.Eliminates store p.engine.trail.size) :
    store.Flexible h.value := by
  refine flexible_of_quiet hStore ?_
    (fun v b hValue => hIn.value_of_value hStore hValue) ?_
    (hSettled.quiet hEliminates _ (hIn.readsOff hStore))
  · intro l hMem hNone
    rw [(History.value_eq_some_iff hIn.records.distinct).mpr hMem]
      at hNone
    cases hNone
  · intro v hRelevant hHost
    rw [hSettled.value_eq hStore hIn hRelevant]
    exact hHost

------------------------------------------------------------
-- Drains settle a level
------------------------------------------------------------

/- The history after the host acted on a verdict. -/
def History.after
    (h : History Unit) : Verdict → History Unit
  | .forced ps => h.force (ps.map Propagation.literal)
  | _ => h

theorem History.level_after
    (h : History Unit)
    (verdict : Verdict) :
    (h.after verdict).level = h.level := by
  cases verdict with
  | forced ps => exact level_force h _
  | nothing => rfl
  | conflict reason => rfl

theorem History.mem_after_iff
    {verdict : Verdict}
    {l : Literal} :
    l ∈ (h.after verdict).map Prod.fst ↔
      l ∈ verdict.news ∨ l ∈ h.map Prod.fst := by
  cases verdict with
  | forced ps =>
      simp only [after, List.mem_map, mem_force, Verdict.news]
      constructor
      · rintro ⟨entry, ⟨⟨p, hMem, hEntry⟩, _⟩ | hOld, rfl⟩
        · exact .inl ⟨p, hMem, hEntry⟩
        · exact .inr ⟨entry, hOld, rfl⟩
      · rintro (⟨p, hMem, rfl⟩ | ⟨entry, hOld, rfl⟩)
        · exact ⟨(p.literal, .propagation ()),
            .inl ⟨⟨p, hMem, rfl⟩, rfl⟩, rfl⟩
        · exact ⟨entry, .inr hOld, rfl⟩
  | nothing => simp [after, Verdict.news]
  | conflict reason => simp [after, Verdict.news]

theorem History.suffix_after
    (h : History Unit)
    (verdict : Verdict) :
    h <:+ h.after verdict := by
  cases verdict with
  | forced ps => exact List.suffix_append _ _
  | nothing => exact List.suffix_rfl
  | conflict reason => exact List.suffix_rfl

/- The host waits for the engine to take in the queue. -/
structure Waiting
    (store : Store)
    (config : Config)
    (h : History Unit)
    (queue : List Literal)
    (p : Pairing) : Prop where
  inStep : InStep store config h p
  reachable : Engine.Reachable store config p.engine
  covered :
    ∀ l ∈ h.map Prod.fst, store.isRelevant l.index = true →
      p.engine.trail.value l.index ≠ none ∨ l ∈ queue
  heeded : Heeded config.strategy store p.engine.trail.value h
  news :
    (∃ l ∈ queue, store.isRelevant l.index = true ∧
      p.engine.trail.value l.index = none) ∨
    (config.Eliminates store p.engine.trail.size →
      Quiet store p.engine.trail.value h)
  lower :
    ∀ k < h.level,
      Settled store config (h.backTo k)
        (Engine.entriesUpTo k p.engine.trail.entries)

/- The engine has given a verdict, and the host has not acted on it. -/
structure Answered
    (store : Store)
    (config : Config)
    (h : History Unit)
    (queue : List Literal)
    (p : Pairing)
    (verdict : Verdict) : Prop where
  inStep : InStep store config h p
  reachable : Engine.Reachable store config p.engine
  trustworthy : p.engine.Trustworthy p.stack.host verdict
  covered :
    ∀ l ∈ h.map Prod.fst, store.isRelevant l.index = true →
      p.engine.trail.value l.index ≠ none ∨ l ∈ queue
  heeded :
    (∀ reason, verdict ≠ .conflict reason) →
      Heeded config.strategy store p.engine.trail.value
        (h.after verdict)
  news :
    verdict = .nothing →
      (∃ l ∈ queue, store.isRelevant l.index = true ∧
        p.engine.trail.value l.index = none) ∨
      (config.Eliminates store p.engine.trail.size →
        Quiet store p.engine.trail.value h)
  busy :
    ∀ reason, verdict = .conflict reason → p.engine.state ≠ .ready
  lower :
    ∀ k < h.level,
      Settled store config (h.backTo k)
        (Engine.entriesUpTo k p.engine.trail.entries)

theorem Waiting.settled
    (hStore : store.WellFormed)
    {p : Pairing}
    (hWaiting : Waiting store config h [] p) :
    Settled store config h p.engine.trail.entries := by
  have hIn := hWaiting.inStep
  have hReads := hIn.readsOff hStore
  refine ⟨?_, ?_, ?_⟩
  · intro l hMem hRelevant
    rcases hWaiting.covered l hMem hRelevant with hSome | hQueue
    · rcases Option.ne_none_iff_exists.mp hSome with ⟨b, hValue⟩
      have hHeld := hIn.value_of_value hStore hValue.symm
      have hSame : h.value l.index = some l.value :=
        (History.value_eq_some_iff hIn.records.distinct).mpr hMem
      cases hHeld.symm.trans hSame
      exact (hReads l.index l.value).mp hValue.symm
    · cases hQueue
  · intro hEliminates value hValue
    rcases hWaiting.news with ⟨l, hQueue, _⟩ | hQuiet
    · cases hQueue
    · rw [hReads.unique hValue]
      exact hQuiet hEliminates
  · intro value hValue
    rw [hReads.unique hValue]
    exact hWaiting.heeded

/- The order of the queue does not matter. -/
theorem Waiting.perm
    {queue queue' : List Literal}
    {p : Pairing}
    (hWaiting : Waiting store config h queue p)
    (hPerm : queue.Perm queue') :
    Waiting store config h queue' p := by
  refine ⟨hWaiting.inStep, hWaiting.reachable, ?_, hWaiting.heeded, ?_,
    hWaiting.lower⟩
  · intro l hMem hRelevant
    exact (hWaiting.covered l hMem hRelevant).imp id hPerm.mem_iff.mp
  · rcases hWaiting.news with ⟨l, hQueue, hPending⟩ | hQuiet
    · exact .inl ⟨l, hPerm.mem_iff.mp hQueue, hPending⟩
    · exact .inr hQuiet

/- Acting on a verdict, the host waits again. -/
theorem Answered.absorb
    {demand : Demand}
    {queue queue' : List Literal}
    {e : Engine}
    {stack stack' : DecisionStack Unit}
    {verdict : Verdict}
    (hAnswered :
      Answered store config h queue ⟨e, stack⟩ verdict)
    (hAbsorb :
      Pairing.absorb demand stack queue verdict =
        (stack', .ok (some queue'))) :
    Waiting store config (h.after verdict) queue'
      ⟨e, stack'⟩ := by
  rcases Pairing.absorb_eq_ok hAbsorb with
    ⟨rfl, rfl, rfl⟩ | ⟨ps, rfl, hForced, rfl⟩
  · exact ⟨hAnswered.inStep, hAnswered.reachable, hAnswered.covered,
      hAnswered.heeded nofun, hAnswered.news rfl, hAnswered.lower⟩
  · have hLevel :=
      History.level_force h (ps.map Propagation.literal)
    refine ⟨(hAnswered.inStep.assignForced hForced).1,
      hAnswered.reachable, ?_, hAnswered.heeded nofun, ?_, ?_⟩
    · intro l hMem hRelevant
      rcases History.mem_after_iff.mp hMem with hNew | hOld
      · exact .inr (List.mem_append_right _ hNew)
      · rcases hAnswered.covered l hOld hRelevant with hSome | hQueue
        · exact .inl hSome
        · exact .inr (List.mem_append_left _ hQueue)
    · -- Some literal is forced, and it is not on the trail yet.
      rcases hAnswered.trustworthy.sound with ⟨hNe, _, hEach⟩
      rcases List.exists_mem_of_ne_nil ps hNe with ⟨p, hMem⟩
      have hJustified := hEach p hMem
      have hSame := hAnswered.inStep.regular.sameStore
      refine .inl ⟨p.literal, List.mem_append_right _
        (List.mem_map.mpr ⟨p, hMem, rfl⟩), ?_, hJustified.offTrail⟩
      exact hSame ▸ hJustified.relevant
    · intro k hLt
      rw [History.after, hLevel] at hLt
      rw [History.after, History.force,
        History.backTo_append_of_lt _ hLt]
      exact hAnswered.lower k hLt

/- If two looks show nothing, all that is shown is held already. -/
theorem quiet_of_concludes
    {e : Engine}
    {stack : DecisionStack Unit}
    (hRecords : stack.Records h)
    {found : Findings}
    (hConcludes : e.Concludes stack.host found .nothing)
    (hExhaustive : ∀ more, e.theory.atFixpoint e.context = .ok more →
      Exhaustive store e.trail.value
        (found.events ++ more.events)) :
    Quiet store e.trail.value h := by
  rcases hConcludes with
    ⟨hNe, _⟩ | ⟨more, _, _, hFirst, hMore, hSecond⟩
  · exact absurd rfl hNe
  · refine ⟨_, hExhaustive more hMore, ?_⟩
    intro event hMem
    have hTrue : ∃ l origin, event = .propagation l origin ∧
        stack.host.isTrue l = .ok true := by
      rcases List.mem_append.mp hMem with hIn | hIn
      · exact resolve_nothing hFirst event hIn
      · exact resolve_nothing hSecond event hIn
    rcases hTrue with ⟨l, origin, hEvent, hHeld⟩
    exact ⟨l, origin, hEvent,
      (Pairing.isTrue_iff_mem hRecords).mp hHeld⟩

/- Without a conflict, the host will hold all that was found. -/
theorem mem_after_of_concludes
    {e : Engine}
    {stack : DecisionStack Unit}
    (hRecords : stack.Records h)
    {found : Findings}
    {verdict : Verdict}
    (hConcludes : e.Concludes stack.host found verdict)
    (hQuiet : ∀ reason, verdict ≠ .conflict reason) :
    ∀ event ∈ found.events, ∃ l origin,
      event = .propagation l origin ∧
        l ∈ (h.after verdict).map Prod.fst := by
  intro event hMem
  have hKnown : ∃ l origin, event = .propagation l origin ∧
      (stack.host.isTrue l = .ok true ∨ l ∈ verdict.news) := by
    rcases hConcludes with
      ⟨_, _, hResolve⟩ | ⟨_, _, _, hNothing, _, _⟩
    · exact resolve_without_conflict hResolve hQuiet event hMem
    · rcases resolve_nothing hNothing event hMem with
        ⟨l, origin, hEvent, hTrue⟩
      exact ⟨l, origin, hEvent, .inl hTrue⟩
  rcases hKnown with ⟨l, origin, hEvent, hTrue | hNews⟩
  · exact ⟨l, origin, hEvent, History.mem_after_iff.mpr
      (.inr ((Pairing.isTrue_iff_mem hRecords).mp hTrue))⟩
  · exact ⟨l, origin, hEvent, History.mem_after_iff.mpr (.inl hNews)⟩

/- A literal of the queue that the engine has nothing to do for. -/
theorem Waiting.idle
    {queue : List Literal}
    {l : Literal}
    {e : Engine}
    {stack : DecisionStack Unit}
    {verdict : Verdict}
    (hWaiting : Waiting store config h (l :: queue) ⟨e, stack⟩)
    (hAfter : InStep store config h
      ⟨(e.propagate stack.host l).engine, stack⟩)
    (hReachable : Engine.Reachable store config
      (e.propagate stack.host l).engine)
    (hTrust : (e.propagate stack.host l).engine.Trustworthy
      stack.host verdict)
    (hIdles : e.Idles stack.host l verdict) :
    Answered store config h queue
      ⟨(e.propagate stack.host l).engine, stack⟩ verdict := by
  have hKnown : ¬ (store.isRelevant l.index = true ∧
      e.trail.value l.index = none) := by
    rintro ⟨hRelevant, hNone⟩
    rcases hIdles.known with hOut | hSome
    · rw [hWaiting.inStep.regular.sameStore, hRelevant] at hOut
      cases hOut
    · rw [hNone] at hSome
      cases hSome
  rw [hIdles.engine] at hAfter hReachable hTrust ⊢
  refine ⟨hAfter, hReachable, hTrust, ?_, ?_, ?_, ?_,
    hWaiting.lower⟩
  · intro k hMem hRelevant
    rcases hWaiting.covered k hMem hRelevant with hSome | hQueue
    · exact .inl hSome
    · rcases List.mem_cons.mp hQueue with rfl | hLater
      · exact .inl fun hNone => hKnown ⟨hRelevant, hNone⟩
      · exact .inr hLater
  · intro _
    exact hWaiting.heeded.mono (History.suffix_after h _).subset
  · intro _
    rcases hWaiting.news with ⟨k, hQueue, hPending⟩ | hQuiet
    · rcases List.mem_cons.mp hQueue with rfl | hLater
      · exact absurd hPending hKnown
      · exact .inl ⟨k, hLater, hPending⟩
    · exact .inr hQuiet
  · rintro reason rfl
    cases hIdles.nothing

/-
  With a new literal, constraints that have its variable are
  looked at, and the others show what they did before.
-/
theorem Waiting.heeded_of_absorbs
    (hStore : store.WellFormed)
    {queue : List Literal}
    {l : Literal}
    {e : Engine}
    {stack : DecisionStack Unit}
    {verdict : Verdict}
    {trail : Trail}
    {theory : Theory}
    {found : Findings}
    (hWaiting : Waiting store config h (l :: queue) ⟨e, stack⟩)
    (hAbsorbs : e.Absorbs stack.host l verdict trail theory found)
    (hQuiet : ∀ reason, verdict ≠ .conflict reason) :
    Heeded config.strategy store trail.value (h.after verdict) := by
  have hIn := hWaiting.inStep
  have hIntact := hWaiting.reachable.intact hStore
  have hCounts : e.theory.counts =
      decide (config.strategy = .countCheck) :=
    (hIn.regular.consistent hStore).counts
  have hNotices := hAbsorbs.notices hStore hIntact
  rintro event ⟨r, c, hAt, hReveals⟩ hKind
  by_cases hOccurs : l.index ∈ c.vars
  · apply mem_after_of_concludes hIn.records hAbsorbs.concludes hQuiet
    refine hNotices r c event ?_ hOccurs hReveals ?_
    · rw [← hIn.regular.sameStore] at hAt
      exact hAt
    · intro hTrue
      rw [hCounts] at hTrue
      exact hKind (of_decide_eq_true hTrue)
  · have hBefore : c.Reveals e.trail.value r event := by
      apply hReveals.congr
      intro w hMem
      have hNe : w ≠ l.index := by
        rintro rfl
        exact hOccurs hMem
      rw [Trail.value_of_push hAbsorbs.push, if_neg hNe]
    exact hWaiting.heeded.mono (History.suffix_after h verdict).subset
      event ⟨r, c, hAt, hBefore⟩ hKind

/- A literal of the queue that the engine takes in. -/
theorem Waiting.takeIn
    (hStore : store.WellFormed)
    {queue : List Literal}
    {l : Literal}
    {e : Engine}
    {stack : DecisionStack Unit}
    {verdict : Verdict}
    {trail : Trail}
    {theory : Theory}
    {found : Findings}
    (hWaiting : Waiting store config h (l :: queue) ⟨e, stack⟩)
    (hAfter : InStep store config h
      ⟨(e.propagate stack.host l).engine, stack⟩)
    (hReachable : Engine.Reachable store config
      (e.propagate stack.host l).engine)
    (hTrust : (e.propagate stack.host l).engine.Trustworthy
      stack.host verdict)
    (hAbsorbs : e.Absorbs stack.host l verdict trail theory found) :
    Answered store config h queue
      ⟨(e.propagate stack.host l).engine, stack⟩ verdict := by
  have hIn := hWaiting.inStep
  have hSame := hIn.regular.sameStore
  have hWell : e.store.WellFormed := hSame ▸ hStore
  have hBefore := hIn.regular.faithful.consistent hWell
  have hEntries := Trail.entries_of_push hAbsorbs.push
  have hLevel : stack.host.level = h.level := hIn.records.level_eq
  rw [hAbsorbs.engine] at hAfter hReachable hTrust ⊢
  refine ⟨hAfter, hReachable, hTrust, ?_, ?_, ?_, ?_, ?_⟩
  · intro k hMem hRelevant
    simp only [Trail.value_of_push hAbsorbs.push]
    by_cases hEq : k.index = l.index
    · exact .inl (by rw [if_pos hEq]; nofun)
    · rw [if_neg hEq]
      rcases hWaiting.covered k hMem hRelevant with hSome | hQueue
      · exact .inl hSome
      · rcases List.mem_cons.mp hQueue with rfl | hLater
        · exact absurd rfl hEq
        · exact .inr hLater
  · exact hWaiting.heeded_of_absorbs hStore hAbsorbs
  · rintro rfl
    refine .inr fun hMay => ?_
    have hFollows := Theory.Follows.assign hWell hBefore.follows
      (Engine.takesIn_of_push hAbsorbs.push) hAbsorbs.assign
    have hEliminates : e.theory.eliminates = true := by
      rw [hBefore.eliminates, hIn.regular.sameConfig]
      exact hMay.strategy
    have hAllowed :
        (Engine.contextOf e.config e.store trail).eliminate =
          true := by
      rw [hIn.regular.sameConfig, hSame]
      exact hMay.admits
    refine quiet_of_concludes hIn.records hAbsorbs.concludes ?_
    intro more hMore
    rw [← hSame]
    exact Theory.exhaustive_of_assign hWell hEliminates hAllowed
      hFollows hAbsorbs.assign hMore
  · rintro reason rfl hReadyAfter
    cases hReadyAfter
  · intro k hLt
    have hDrop :
        Engine.entriesUpTo k trail.entries =
          Engine.entriesUpTo k e.trail.entries := by
      rw [hEntries]
      exact List.dropWhile_cons_of_pos
        (by simpa [hLevel] using hLt)
    simp only [hDrop]
    exact hWaiting.lower k hLt

/- Telling of the next literal of the queue. -/
theorem Waiting.propagate
    (hStore : store.WellFormed)
    {queue : List Literal}
    {l : Literal}
    {e : Engine}
    {stack : DecisionStack Unit}
    {verdict : Verdict}
    (hWaiting : Waiting store config h (l :: queue) ⟨e, stack⟩)
    (hCall : (e.propagate stack.host l).outcome = .ok verdict) :
    Answered store config h queue
      ⟨(e.propagate stack.host l).engine, stack⟩ verdict := by
  have hIn := hWaiting.inStep
  have hAfter := hIn.propagate hCall
  have hReachable := hWaiting.reachable.propagate stack.host l hCall
  have hTrust := Engine.propagate_sound hStore hIn.regular
    hIn.holds_trail hCall
  rcases Engine.propagate_eq_ok hCall with
    ⟨_, _, _, hIdles | ⟨trail, theory, found, hAbsorbs⟩⟩
  · exact hWaiting.idle hAfter hReachable hTrust hIdles
  · exact hWaiting.takeIn hStore hAfter hReachable hTrust hAbsorbs

/- All levels below the host's are settled, and the host's if ready. -/
structure AllSettled
    (store : Store)
    (config : Config)
    (h : History Unit)
    (p : Pairing) : Prop where
  inStep : InStep store config h p
  reachable : Engine.Reachable store config p.engine
  lower :
    ∀ k < h.level,
      Settled store config (h.backTo k)
        (Engine.entriesUpTo k p.engine.trail.entries)
  here :
    p.engine.state = .ready →
      Settled store config h p.engine.trail.entries

/- A drain settles its level, unless it ends in a conflict. -/
theorem allSettled_of_rounds
    (hStore : store.WellFormed)
    {demand : Demand}
    {stack : DecisionStack Unit}
    {queue : List Literal}
    {reply : Reply Verdict}
    {conflict : Bool}
    {last : Pairing}
    (hRounds : Rounds demand stack queue reply conflict last)
    (hAnswered : ∀ verdict, reply.outcome = .ok verdict →
      Answered store config h queue ⟨reply.engine, stack⟩ verdict) :
    ∃ h', AllSettled store config h' last := by
  induction hRounds generalizing h with
  | clash hReply =>
      have hNow := hAnswered _ hReply
      exact ⟨h, hNow.inStep, hNow.reachable, hNow.lower,
        fun hReady => absurd hReady (hNow.busy _ rfl)⟩
  | done hReply hAbsorb =>
      have hWaiting := (hAnswered _ hReply).absorb hAbsorb
      exact ⟨_, hWaiting.inStep, hWaiting.reachable, hWaiting.lower,
        fun _ => hWaiting.settled hStore⟩
  | next hReply hAbsorb hPick _ ih =>
      have hWaiting := (hAnswered _ hReply).absorb hAbsorb
      exact ih fun verdict hCall =>
        (hWaiting.perm hPick).propagate hStore hCall

------------------------------------------------------------
-- Sessions
------------------------------------------------------------

/-
  The sessions that begin with a fresh host and the first
  question, and go on by deciding and going back. Each step
  drains its queue.
-/
inductive Session.Run
    (store : Store)
    (config : Config)
    (n : Nat) : Session → Prop where
  | start {e : Engine} {result : StepResult}
      (hEngine : Engine.ofStore store config = .ok e)
      (hStep :
        ((Session.ofEngine e n).step .start).2.outcome =
          .ok result) :
      Run store config n ((Session.ofEngine e n).step .start).1
  | branch {s : Session} {result : StepResult}
      (hBefore : Run store config n s)
      (l : Literal)
      (hStep : (s.step (.branch l)).2.outcome = .ok result) :
      Run store config n (s.step (.branch l)).1
  | back {s : Session} {result : StepResult}
      (hBefore : Run store config n s)
      (level : Nat)
      (hStep : (s.step (.back level)).2.outcome = .ok result) :
      Run store config n (s.step (.back level)).1

/- The first question settles the level without decisions. -/
theorem answered_initialPropagation
    (hStore : store.WellFormed)
    {e : Engine}
    {stack : DecisionStack Unit}
    {verdict : Verdict}
    (hIn : InStep store config [] ⟨e, stack⟩)
    (hReachable : Engine.Reachable store config e)
    (hCall :
      (e.initialPropagation stack.host).outcome = .ok verdict) :
    Answered store config [] []
      ⟨(e.initialPropagation stack.host).engine, stack⟩ verdict := by
  have hAfter := hIn.initialPropagation hCall
  have hNext := hReachable.initialPropagation stack.host hCall
  have hTrust := Engine.initialPropagation_sound hStore hIn.regular
    hIn.holds_trail hCall
  have hSame := hIn.regular.sameStore
  have hWell : e.store.WellFormed := hSame ▸ hStore
  have hBefore := hIn.regular.faithful.consistent hWell
  rcases Engine.initialPropagation_eq_ok hCall with
    ⟨hEmpty, _, ⟨found, hBegin, hConcludes⟩, hEngine⟩
  have hNotices :=
    (hReachable.intact hStore).notices_begin hStore hEmpty hBegin
  rw [hEngine] at hAfter hNext hTrust ⊢
  refine ⟨hAfter, hNext, hTrust, nofun, ?_, ?_, ?_, nofun⟩
  · rintro hQuiet event ⟨r, c, hAt, hReveals⟩ hKind
    apply mem_after_of_concludes hIn.records hConcludes hQuiet
    rw [← hSame] at hAt
    refine hNotices r c event hAt trivial hReveals ?_
    intro hTrue
    rw [hBefore.counts, hIn.regular.sameConfig] at hTrue
    exact hKind (of_decide_eq_true hTrue)
  · rintro rfl
    refine .inr fun hMay => ?_
    have hEliminates : e.theory.eliminates = true := by
      rw [hBefore.eliminates, hIn.regular.sameConfig]
      exact hMay.strategy
    have hAllowed : e.context.eliminate = true := by
      rw [Engine.context, hIn.regular.sameConfig, hSame]
      exact hMay.admits
    refine quiet_of_concludes hIn.records hConcludes ?_
    intro more hMore
    rw [← hSame]
    exact Theory.exhaustive_of_begin hWell hEliminates hAllowed
      hBefore.follows hBegin hMore
  · rintro reason rfl hReady
    cases hReady

/- A decision on top of a settled level, with its literal queued. -/
theorem AllSettled.waiting
    (hStore : store.WellFormed)
    {e : Engine}
    {stack stack' : DecisionStack Unit}
    (hSettled : AllSettled store config h ⟨e, stack⟩)
    (hReady : e.state = .ready)
    {l : Literal}
    (hAssign : stack.assign l .decision = .ok stack') :
    Waiting store config ((l, .decision) :: h) [l] ⟨e, stack'⟩ := by
  have hIn := hSettled.inStep
  have hReads := hIn.readsOff hStore
  have hHere := hSettled.here hReady
  have hLevel :
      History.level ((l, .decision) :: h : History Unit) =
        h.level + 1 := by
    rw [History.level_cons]
    rfl
  refine ⟨hIn.push hAssign, hSettled.reachable, ?_,
    (hHere.heeded _ hReads).mono (List.subset_cons_self _ _), ?_, ?_⟩
  · intro k hMem hRelevant
    rcases List.mem_cons.mp hMem with rfl | hOld
    · exact .inr List.mem_cons_self
    · rcases hHere.covered k hOld hRelevant with
        ⟨entry, hEntry, rfl⟩
      have hValue := (hReads _ _).mpr ⟨entry, hEntry, rfl⟩
      exact .inl (by rw [hValue]; nofun)
  · cases hRelevant : store.isRelevant l.index with
    | true =>
        refine .inl ⟨l, List.mem_cons_self, hRelevant, ?_⟩
        have hNone := (hIn.records.assign hAssign).1
        cases hValue : e.trail.value l.index with
        | none => rfl
        | some b =>
            rw [hIn.value_of_value hStore hValue] at hNone
            cases hNone
    | false =>
        refine .inr fun hMay => ?_
        exact (hHere.quiet hMay _ hReads).mono
          (List.subset_cons_self _ _)
  · intro k hLt
    rw [hLevel] at hLt
    rw [History.backTo_cons_of_lt (by rw [hLevel]; exact hLt)]
    by_cases hBelow : k < h.level
    · exact hSettled.lower k hBelow
    · have hEq : k = h.level := by omega
      subst hEq
      rw [History.backTo_of_level_le (Nat.le_refl _),
        Engine.entriesUpTo_of_level_le hIn.level_le]
      exact hHere

/- Going back, the level that is reached is settled as before. -/
theorem AllSettled.back
    (hStore : store.WellFormed)
    {e : Engine}
    {stack stack' : DecisionStack Unit}
    (hSettled : AllSettled store config h ⟨e, stack⟩)
    {level : Nat}
    (hJump : stack.backjump level = .ok stack')
    (hUndo : (e.undo level).outcome = .ok ()) :
    AllSettled store config (h.backTo level)
      ⟨(e.undo level).engine, stack'⟩ := by
  have hIn := hSettled.inStep
  rcases hIn.back hStore hJump hUndo with
    ⟨hAfter, _, hEntries, hState⟩
  have hLevel := History.level_backTo level h
  refine ⟨hAfter, hSettled.reachable.undo level hUndo, ?_, ?_⟩
  · intro k hLt
    have hLe : k ≤ level := by omega
    simp only [hEntries]
    rw [History.backTo_backTo hLe,
      Engine.entriesUpTo_entriesUpTo hLe]
    exact hSettled.lower k (by omega)
  · intro hReady
    simp only [hState] at hReady
    simp only [hEntries]
    by_cases hBelow : level < h.level
    · exact hSettled.lower level hBelow
    · -- The host stays where it is, so a conflict is not over.
      have hBefore : e.state = .ready := by
        cases hOld : e.state with
        | ready => rfl
        | conflicted conflict =>
            have hConflict := hIn.conflict_le conflict hOld
            rw [hOld, Engine.stateAfterUndo, if_neg (by omega)]
              at hReady
            cases hReady
      have hAll : ∀ entry ∈ e.trail.entries, entry.level ≤ level := by
        intro entry hMem
        have hEntry := hIn.level_le entry hMem
        omega
      rw [History.backTo_of_level_le (Nat.le_of_not_lt hBelow),
        Engine.entriesUpTo_of_level_le hAll]
      exact hSettled.here hBefore

namespace Session

theorem drain_of_outcome
    {d : Drain}
    {result : StepResult}
    (hOutcome : (StepReport.ofDrain d).outcome = .ok result) :
    d.outcome = .ok () := by
  rcases map_eq_ok.mp hOutcome with ⟨_, hDrain, _⟩
  exact hDrain

/- Every session of a run has settled levels. -/
theorem Run.settled
    (hStore : store.WellFormed)
    {n : Nat}
    {s : Session}
    (hRun : Run store config n s) :
    ∃ h, AllSettled store config h s.pairing := by
  induction hRun with
  | start hEngine hStep =>
      exact allSettled_of_rounds hStore
        (Pairing.rounds_of_drain (drain_of_outcome hStep))
        fun verdict hCall => answered_initialPropagation hStore
          (Pairing.inStep_new hEngine) (.new hEngine) hCall
  | @branch s result _ l hStep ih =>
      rcases ih with ⟨h, hSettled⟩
      cases hAssign : s.pairing.stack.assign l .decision with
      | error fault =>
          simp only [step, changeStack, hAssign] at hStep
          cases hStep
      | ok stack =>
          simp only [step, changeStack, hAssign] at hStep ⊢
          refine allSettled_of_rounds (h := (l, .decision) :: h) hStore
            (Pairing.rounds_of_drain (drain_of_outcome hStep)) ?_
          intro verdict hCall
          have hReady := (Engine.propagate_eq_ok hCall).1
          exact (hSettled.waiting hStore hReady hAssign).propagate
            hStore hCall
  | @back s result _ level hStep ih =>
      rcases ih with ⟨h, hSettled⟩
      cases hJump : s.pairing.stack.backjump level with
      | error fault =>
          simp only [step, changeStack, hJump] at hStep
          cases hStep
      | ok stack =>
          simp only [step, changeStack, hJump] at hStep ⊢
          rcases map_eq_ok.mp hStep with ⟨_, hUndo, _⟩
          exact ⟨_, hSettled.back hStore hJump hUndo⟩

/-
  Completeness at the end of a drain. If the engine is ready
  and enough variables are assigned, the host's values can be
  completed to a solution, and every variable without a value
  can have either value in one.
-/
theorem drained_host_is_flexible
    {declared : List Literal}
    {named : List (Nat × Constraint)}
    (hStore : Store.ofNamed declared named = .ok store)
    (hStrategy : config.strategy.usesElimination = true)
    {n : Nat}
    {s : Session}
    (hRun : Run store config n s)
    (hReady : s.pairing.engine.state = .ready)
    (hAdmits :
      config.cutoff.admits s.pairing.engine.trail.size
        store.numColumns = true) :
    (∃ a, Extends a s.pairing.stack.value ∧ store.Holds a) ∧
      ∀ v, s.pairing.stack.value v = none →
        ∀ b, ∃ a, Extends a s.pairing.stack.value ∧
          store.Holds a ∧ a v = b := by
  have hWell := Store.wellFormed_of_ofNamed hStore
  rcases hRun.settled hWell with ⟨h, hSettled⟩
  have hFlexible := (hSettled.here hReady).flexible hWell
    hSettled.inStep ⟨hStrategy, hAdmits⟩
  have hValue : s.pairing.stack.value = h.value :=
    funext hSettled.inStep.records.value_eq
  rw [hValue]
  exact ⟨hFlexible.solution, hFlexible.either⟩

/-
  Elimination shows that `l_3` is false once `l_0` is true,
  although each of the two constraints has two open variables
  then. The variables `l_1` and `l_2` stay open.
-/
theorem drained_host_is_flexible_after_elimination :
    ∃ store s,
      Store.ofNamed [⟨0, true⟩, ⟨1, true⟩, ⟨2, true⟩, ⟨3, true⟩]
          [(1, ⟨[⟨0, true⟩, ⟨1, true⟩, ⟨2, true⟩], .odd⟩),
            (2, ⟨[⟨1, true⟩, ⟨2, true⟩, ⟨3, true⟩], .even⟩)] =
          .ok store ∧
        Run store ⟨.gjeFixpoint, ⟨0.25⟩, false⟩ 4 s ∧
        s.pairing.stack.value 3 = some false ∧
        s.pairing.stack.value 1 = none ∧
        ∃ a, Extends a s.pairing.stack.value ∧ store.Holds a ∧
          a 1 = true := by
  have hRun :
      (Store.ofNamed [⟨0, true⟩, ⟨1, true⟩, ⟨2, true⟩, ⟨3, true⟩]
          [(1, ⟨[⟨0, true⟩, ⟨1, true⟩, ⟨2, true⟩], .odd⟩),
            (2, ⟨[⟨1, true⟩, ⟨2, true⟩, ⟨3, true⟩],
              .even⟩)]).toOption.any
        (fun store =>
          (Engine.ofStore store
            ⟨.gjeFixpoint, ⟨0.25⟩, false⟩).toOption.any
          fun (e : Engine) =>
            ((ofEngine e 4).step .start).2.outcome.toOption.any
            fun _ =>
              (((ofEngine e 4).step .start).1.step
                (.branch ⟨0, true⟩)).2.outcome.toOption.any
              fun _ =>
                let s := (((ofEngine e 4).step .start).1.step
                  (.branch ⟨0, true⟩)).1
                decide (s.pairing.engine.state = .ready ∧
                  (Cutoff.mk 0.25).admits
                    s.pairing.engine.trail.size
                    store.numColumns = true ∧
                  s.pairing.stack.value 3 = some false ∧
                  s.pairing.stack.value 1 = none)) = true := by
    decide +kernel
  rcases exists_ok_of_any hRun with ⟨store, hStore, hNew⟩
  rcases exists_ok_of_any hNew with ⟨e, hEngine, hStart⟩
  rcases exists_ok_of_any hStart with ⟨_, hFirst, hBranch⟩
  rcases exists_ok_of_any hBranch with ⟨_, hSecond, hEnd⟩
  rcases of_decide_eq_true hEnd with
    ⟨hReady, hAdmits, hForced, hOpen⟩
  have hReached := Run.branch (.start hEngine hFirst) _ hSecond
  exact ⟨store, _, hStore, hReached, hForced, hOpen,
    (drained_host_is_flexible hStore rfl hReached hReady hAdmits).2 1
      hOpen true⟩

end Session

end ParitySolver
