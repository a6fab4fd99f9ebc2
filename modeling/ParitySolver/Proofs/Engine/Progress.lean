import ParitySolver.Proofs.Engine.Check
import ParitySolver.Proofs.Engine.Soundness
import ParitySolver.Proofs.Explanation

/-
  A host that keeps the contract gets an answer to every
  request. No call on an engine comes to a fault as long as
  the host has the variables of the store, holds the literals
  of the trail, and asks nothing that the engine is not ready
  for.

  The faults of all the tables that an engine works on end a
  call that meets them, so an answer says that none was met.

  Key definitions include:
    * `Engine.Intact`
    * `Engine.Request`
    * `Engine.Permits`
    * `Engine.Answers`
    * `Engine.UnderContract`

  Main declarations:
    * `Engine.replay_sturdy`
    * `Engine.exists_concludeTwice`
    * `Engine.Intact.exists_propagate`
    * `Engine.permitted_requests_never_fail`
-/

namespace ParitySolver

------------------------------------------------------------
-- Trails
------------------------------------------------------------

namespace Trail

variable {t t' : Trail}

/- A literal of an open variable can be taken in at a later level. -/
theorem exists_push
    {l : Literal}
    {level : Nat}
    (hRead : t.read l.index = .ok none)
    (hLevel : t.level ≤ level) :
    ∃ t', t.push l level = .ok t' := by
  have hLt : l.index < t.values.size := by
    rcases Array.getElem?_eq_some_iff.mp
      (Table.get_eq_ok_iff.mp hRead) with ⟨hLt, _⟩
    exact hLt
  simp only [push, bind_eq_ok, pure_eq_ok, require_eq_ok,
    exists_const, decide_eq_true_eq]
  exact ⟨_, none, hRead, rfl, hLevel, _, Table.set_of_lt _ hLt, rfl⟩

end Trail

namespace Engine

variable {config : Config} {store : Store} {e : Engine}

------------------------------------------------------------
-- Theories on the way
------------------------------------------------------------

/-
  Replaying relevant literals keeps the tables of the theory
  and the trail in order.
-/
theorem replay_sturdy
    (hStore : store.WellFormed)
    {entries : List TrailEntry}
    (hRelevant : ∀ entry ∈ entries,
      store.isRelevant entry.literal.index = true)
    {trail : Trail}
    {theory : Theory}
    (hReplay : replay config store entries = .ok (trail, theory)) :
    theory.Sturdy store trail.value ∧
      trail.values.size = store.numVariables := by
  induction entries using List.reverseRecOn generalizing trail
    theory with
  | nil =>
      rcases replay_nil_eq_ok_iff.mp hReplay with ⟨rfl, hTheory⟩
      rcases Theory.exists_ofStore hStore config.strategy
        (Trail.value_empty store.numVariables) with
        ⟨fresh, hFresh, hSturdy⟩
      cases hTheory.symm.trans hFresh
      exact ⟨hSturdy, Array.size_replicate⟩
  | append_singleton entries entry ih =>
      rcases replay_snoc_eq_ok_iff.mp hReplay with
        ⟨⟨trail₀, theory₀⟩, hBefore, hEntry⟩
      rcases replayEntry_eq_ok_iff.mp hEntry with
        ⟨hPush, found, hAssign⟩
      rcases ih
        (fun entry hMem => hRelevant entry
          (List.mem_append_left _ hMem)) hBefore with
        ⟨hSturdy, hSize⟩
      have hSame : trail.values.size = store.numVariables :=
        (Trail.size_values_of_push hPush).trans hSize
      rcases Theory.Sturdy.exists_assign hStore hSame
          (hRelevant entry (by simp)) (takesIn_of_push hPush)
          (replay_spec hStore hBefore).2.follows hSturdy with
        ⟨theory', found', hAssign', hSturdy', _⟩
      cases hAssign.symm.trans hAssign'
      exact ⟨hSturdy', hSame⟩

/- The engine is what its trail leads to, and no literal is idle. -/
structure Intact
    (store : Store)
    (config : Config)
    (e : Engine) : Prop where
  regular : e.Regular store config
  relevant :
    ∀ entry ∈ e.trail.entries,
      store.isRelevant entry.literal.index = true

theorem Intact.sturdy
    (hIntact : e.Intact store config)
    (hStore : store.WellFormed) :
    e.theory.Sturdy store e.trail.value ∧
      e.trail.values.size = store.numVariables := by
  have hReplay := hIntact.regular.faithful
  rw [Faithful, hIntact.regular.sameStore] at hReplay
  apply replay_sturdy hStore _ hReplay
  intro entry hMem
  exact hIntact.relevant entry (List.mem_reverse.mp hMem)

theorem mem_of_mem_entriesUpTo
    {level : Nat}
    {entries : List TrailEntry}
    {entry : TrailEntry}
    (hMem : entry ∈ entriesUpTo level entries) :
    entry ∈ entries :=
  (List.dropWhile_sublist _).mem hMem

theorem intact_new
    (hNew : Engine.ofStore store config = .ok e) :
    e.Intact store config := by
  refine ⟨regular_new hNew, ?_⟩
  rw [(faithful_ofStore hNew).2.2.2.1]
  intro entry hMem
  cases hMem

theorem Intact.initialPropagation
    (hIntact : e.Intact store config)
    {host : Host}
    {verdict : Verdict}
    (hCall : (e.initialPropagation host).outcome = .ok verdict) :
    (e.initialPropagation host).engine.Intact store config := by
  refine ⟨hIntact.regular.initialPropagation hCall, ?_⟩
  rw [(initialPropagation_eq_ok hCall).2.2.2]
  exact hIntact.relevant

theorem Intact.propagate
    (hIntact : e.Intact store config)
    {host : Host}
    {l : Literal}
    {verdict : Verdict}
    (hCall : (e.propagate host l).outcome = .ok verdict) :
    (e.propagate host l).engine.Intact store config := by
  refine ⟨hIntact.regular.propagate hCall, ?_⟩
  rcases (propagate_eq_ok hCall).2.2.2 with
    hIdles | ⟨trail, theory, found, hAbsorbs⟩
  · rw [hIdles.engine]
    exact hIntact.relevant
  · rw [hAbsorbs.engine]
    intro entry hMem
    rw [Trail.entries_of_push hAbsorbs.push, List.mem_cons] at hMem
    rcases hMem with rfl | hOld
    · exact hIntact.regular.sameStore ▸ hAbsorbs.relevant
    · exact hIntact.relevant entry hOld

theorem Intact.undo
    (hIntact : e.Intact store config)
    (hStore : store.WellFormed)
    {level : Nat}
    (hCall : (e.undo level).outcome = .ok ()) :
    (e.undo level).engine.Intact store config := by
  refine ⟨hIntact.regular.undo hStore hCall, ?_⟩
  rcases hIntact.regular.faithful.undo
      (hIntact.regular.sameStore.symm ▸ hStore) (undo_eq_ok hCall)
    with ⟨trail, theory, _, hEngine, hEntries, _⟩
  rw [hEngine]
  intro entry hMem
  simp only [hEntries] at hMem
  exact hIntact.relevant entry (mem_of_mem_entriesUpTo hMem)

/- Every engine that calls lead to is intact. -/
theorem Reachable.intact
    (hStore : store.WellFormed)
    (hReachable : Reachable store config e) :
    e.Intact store config := by
  induction hReachable with
  | new hNew => exact intact_new hNew
  | initialPropagation _ host hCall ih =>
      exact ih.initialPropagation hCall
  | propagate _ host l hCall ih => exact ih.propagate hCall
  | undo _ level hCall ih => exact ih.undo hStore hCall

------------------------------------------------------------
-- Answers
------------------------------------------------------------

theorem exists_conclude
    (hStore : e.store.WellFormed)
    (hTrail : e.trail.values.size = e.store.numVariables)
    {host : Host}
    (hHost : e.store.numVariables ≤ host.size)
    {found : Findings}
    (hFound : ∀ event ∈ found.events,
      event.Supported e.store e.trail.value) :
    ∃ notes verdict,
      e.conclude host found = (notes, .ok verdict) := by
  rcases exists_resolve hStore hTrail hHost hFound with
    ⟨⟨verdict, notes⟩, hResolve⟩
  refine ⟨found.notes ++ notes, verdict, ?_⟩
  unfold conclude
  rw [hResolve]

/- The second look succeeds, and what it shows is supported. -/
theorem exists_secondLook
    (hStore : e.store.WellFormed)
    (hTrail : e.trail.values.size = e.store.numVariables) :
    ∃ more, e.theory.atFixpoint e.context = .ok more ∧
      ∀ event ∈ more.events, event.Supported e.store e.trail.value := by
  have hContext : e.context.store.WellFormed := hStore
  rcases Theory.exists_atFixpoint hContext hTrail e.theory with
    ⟨more, hMore, hExplainable⟩
  refine ⟨more, hMore, fun event hMem => ?_⟩
  exact ⟨Theory.valid_of_mem_atFixpoint hContext hMore hMem,
    hExplainable event hMem⟩

/- Supported events lead to an answer. -/
theorem exists_concludeTwice
    (hStore : e.store.WellFormed)
    (hTrail : e.trail.values.size = e.store.numVariables)
    {host : Host}
    (hHost : e.store.numVariables ≤ host.size)
    {found : Findings}
    (hFound : ∀ event ∈ found.events,
      event.Supported e.store e.trail.value) :
    ∃ verdict, (e.concludeTwice host found).2 = .ok verdict := by
  rcases exists_conclude hStore hTrail hHost hFound with
    ⟨notes, verdict, hFirst⟩
  unfold concludeTwice
  rw [hFirst]
  cases verdict with
  | forced ps => exact ⟨.forced ps, rfl⟩
  | conflict reason => exact ⟨.conflict reason, rfl⟩
  | nothing =>
      rcases exists_secondLook hStore hTrail with
        ⟨more, hMore, hSupported⟩
      rcases exists_conclude hStore hTrail hHost hSupported with
        ⟨moreNotes, second, hSecond⟩
      refine ⟨second, ?_⟩
      simp only [hMore, hSecond]

theorem exists_answer
    (hStore : e.store.WellFormed)
    (hTrail : e.trail.values.size = e.store.numVariables)
    {host : Host}
    (hHost : e.store.numVariables ≤ host.size)
    {found : Findings}
    (hFound : ∀ event ∈ found.events,
      event.Supported e.store e.trail.value)
    (before : List Note) :
    ∃ verdict, (e.answer host before found).outcome = .ok verdict :=
  exists_concludeTwice hStore hTrail hHost hFound

------------------------------------------------------------
-- Calls
------------------------------------------------------------

/- On an empty trail nothing has a value. -/
theorem Intact.value_eq_none
    (hIntact : e.Intact store config)
    (hStore : store.WellFormed)
    (hEmpty : e.trail.entries = [])
    (v : Nat) :
    e.trail.value v = none := by
  have hOrderly := (hIntact.regular.consistent hStore).orderly
  cases hValue : e.trail.value v with
  | none => rfl
  | some b =>
      rcases (hOrderly.value_iff v b).mp hValue with ⟨entry, hMem, _⟩
      rw [hEmpty] at hMem
      cases hMem

/-
  The first look succeeds. What it shows is supported, and
  nothing that a constraint shows is missed.
-/
theorem Intact.exists_begin
    (hIntact : e.Intact store config)
    (hStore : store.WellFormed)
    (hEmpty : e.trail.entries = []) :
    ∃ found, e.theory.begin e.context = .ok found ∧
      (∀ event ∈ found.events,
        event.Supported e.store e.trail.value) ∧
      Theory.Notices e.theory.counts e.context (fun _ => True)
        found.events := by
  have hFollows := (hIntact.regular.consistent hStore).follows
  have hNone := hIntact.value_eq_none hStore hEmpty
  rcases hIntact.sturdy hStore with ⟨hSturdy, hSize⟩
  rcases hIntact.regular.sameStore with rfl
  have hContext : e.context.store.WellFormed := hStore
  rcases Theory.exists_begin hContext hSize hFollows hSturdy hNone with
    ⟨found, hBegin, hExplainable, hNotices⟩
  refine ⟨found, hBegin, fun event hMem => ?_, hNotices⟩
  exact ⟨Theory.valid_of_mem_begin hContext hFollows hNone hBegin hMem,
    hExplainable event hMem⟩

/-
  Taking in a literal succeeds. What it shows is supported,
  and nothing that a constraint with it shows is missed.
-/
theorem Intact.exists_assign
    (hIntact : e.Intact store config)
    (hStore : store.WellFormed)
    {l : Literal}
    (hRelevant : e.store.isRelevant l.index = true)
    {level : Nat}
    {trail : Trail}
    (hPush : e.trail.push l level = .ok trail) :
    trail.values.size = e.store.numVariables ∧
      ∃ theory found,
        e.theory.assign (contextOf e.config e.store trail) =
            .ok (theory, found) ∧
          (∀ event ∈ found.events,
            event.Supported e.store trail.value) ∧
          Theory.Notices e.theory.counts { e with trail }.context
            (fun c => l.index ∈ c.vars) found.events := by
  have hFollows := (hIntact.regular.consistent hStore).follows
  rcases hIntact.sturdy hStore with ⟨hSturdy, hSize⟩
  rcases hIntact.regular.sameStore with rfl
  have hSame : trail.values.size = e.store.numVariables :=
    (Trail.size_values_of_push hPush).trans hSize
  have hTakes :
      Theory.TakesIn { e with trail }.context e.trail.value l :=
    takesIn_of_push hPush
  rcases Theory.Sturdy.exists_assign hStore hSame hRelevant hTakes
      hFollows hSturdy with
    ⟨theory, found, hAssign, _, hExplainable, hNotices⟩
  refine ⟨hSame, theory, found, hAssign, fun event hMem => ?_, hNotices⟩
  exact ⟨Theory.valid_of_mem_assign hStore hFollows hTakes hAssign hMem,
    hExplainable event hMem⟩

/- The first question is answered. -/
theorem Intact.exists_initialPropagation
    (hIntact : e.Intact store config)
    (hStore : store.WellFormed)
    {host : Host}
    (hHost : store.numVariables ≤ host.size)
    (hEmpty : e.trail.entries = [])
    (hReady : e.state = .ready) :
    ∃ verdict, (e.initialPropagation host).outcome = .ok verdict := by
  have hSize := (hIntact.sturdy hStore).2
  rcases hIntact.exists_begin hStore hEmpty with
    ⟨found, hBegin, hFound, _⟩
  rcases hIntact.regular.sameStore with rfl
  have hBegin' :
      (e.reach host.level).theory.begin
        (e.reach host.level).context = .ok found := hBegin
  unfold Engine.initialPropagation
  rw [if_pos (by simp [Trail.isEmpty, hEmpty, hReady])]
  simp only [hBegin']
  exact exists_answer (e := e.reach host.level) hStore hSize hHost
    hFound []

/- A literal that the host holds can be taken in. -/
theorem Intact.exists_takeIn
    (hIntact : e.Intact store config)
    (hStore : store.WellFormed)
    {host : Host}
    (hHost : store.numVariables ≤ host.size)
    {l : Literal}
    (hRelevant : store.isRelevant l.index = true)
    (hRead : e.trail.read l.index = .ok none)
    (hLevel : e.trail.level ≤ host.level) :
    ∃ verdict, (e.takeIn host l).outcome = .ok verdict := by
  rcases Trail.exists_push hRead hLevel with ⟨trail, hPush⟩
  rcases hIntact.exists_assign hStore
      (hIntact.regular.sameStore.symm ▸ hRelevant) hPush with
    ⟨hSize, theory, found, hAssign, hFound, _⟩
  rcases hIntact.regular.sameStore with rfl
  have hAssign' :
      e.theory.assign { e with trail }.context = .ok (theory, found) :=
    hAssign
  unfold takeIn
  rw [hPush]
  simp only [hAssign']
  exact exists_answer (e := { e with trail, theory }) hStore hSize
    hHost hFound _

/- Telling of a literal is answered. -/
theorem Intact.exists_propagate
    (hIntact : e.Intact store config)
    (hStore : store.WellFormed)
    {host : Host}
    (hHost : store.numVariables ≤ host.size)
    (hHeld : ∀ entry ∈ e.trail.entries,
      host.isTrue entry.literal = .ok true)
    (hReady : e.state = .ready)
    {l : Literal}
    (hTrue : host.isTrue l = .ok true)
    (hLevel : e.trail.level ≤ host.level) :
    ∃ verdict, (e.propagate host l).outcome = .ok verdict := by
  have hStep : e.requireInStep host l = .ok () := by
    simp only [requireInStep, bind_eq_ok, require_eq_ok,
      exists_const, decide_eq_true_eq]
    exact ⟨hReady, true, hTrue, rfl, hLevel⟩
  have hSame : (e.reach host.level).store = store :=
    hIntact.regular.sameStore
  unfold Engine.propagate
  rw [hStep]
  by_cases hRelevant : store.isRelevant l.index = true
  · have hSize := (hIntact.sturdy hStore).2
    rcases Trail.exists_read
        (hSize ▸ hStore.lt_of_isRelevant hRelevant) with
      ⟨value?, hRead⟩
    have hSeen :
        (e.reach host.level).trail.read l.index = .ok value? := hRead
    simp only [hSame, hRelevant, if_true, hSeen]
    cases value? with
    | none =>
        have hReached :
            (e.reach host.level).Intact store config :=
          ⟨⟨hSame, hIntact.regular.sameConfig,
            hIntact.regular.faithful,
            fun entry hMem => Nat.le_trans
              (hIntact.regular.level_le entry hMem)
              (Nat.le_max_left _ _)⟩,
            hIntact.relevant⟩
        exact hReached.exists_takeIn hStore hHost hRelevant hRead
          hLevel
    | some b =>
        -- The host holds what is on the trail, and it holds `l`.
        have hCovers := covers_of_isTrue
          (hIntact.regular.consistent hStore).orderly hHeld
        have hKnown := hCovers l.index b (Trail.value_of_read hRead)
        rw [Host.isTrue_iff_read.mp hTrue] at hKnown
        cases hKnown
        simp
  · simp only [hSame, hRelevant, Bool.false_eq_true, if_false]
    exact ⟨_, rfl⟩

------------------------------------------------------------
-- The contract
------------------------------------------------------------

/- What a host can ask of an engine. -/
inductive Request where
  | initialPropagation (host : Host)
  | propagate (host : Host) (l : Literal)
  | undo (level : Nat)
  | check (host : Host)

/-
  The host has a value table for the variables of the store,
  and what the engine has taken in is true in it.
-/
structure Serves
    (host : Host)
    (e : Engine) : Prop where
  size : e.store.numVariables ≤ host.size
  held :
    ∀ entry ∈ e.trail.entries,
      host.isTrue entry.literal = .ok true

/- What the contract lets a host ask of an engine as it is now. -/
def Permits
    (e : Engine) : Request → Prop
  | .initialPropagation host =>
      Serves host e ∧ e.trail.isEmpty = true ∧ e.state = .ready
  | .propagate host l =>
      Serves host e ∧ e.state = .ready ∧
        host.isTrue l = .ok true ∧ e.trail.level ≤ host.level
  | .undo level => level ≤ e.highestLevel
  | .check host => e.store.numVariables ≤ host.size

/- The engine after a request. -/
def after
    (e : Engine) : Request → Engine
  | .initialPropagation host => (e.initialPropagation host).engine
  | .propagate host l => (e.propagate host l).engine
  | .undo level => (e.undo level).engine
  | .check _ => e

/- The request comes to its end without a fault. -/
def Answers
    (e : Engine) : Request → Prop
  | .initialPropagation host =>
      ∃ verdict, (e.initialPropagation host).outcome = .ok verdict
  | .propagate host l =>
      ∃ verdict, (e.propagate host l).outcome = .ok verdict
  | .undo level => (e.undo level).outcome = .ok ()
  | .check host => ∃ verdict, (e.check host).2 = .ok verdict

/-
  The engines that a host can come to have while it keeps the
  contract. Nothing is said about how its requests went.
-/
inductive UnderContract
    (store : Store)
    (config : Config) : Engine → Prop where
  /- A new engine. -/
  | new {e : Engine}
      (hNew : Engine.ofStore store config = .ok e) :
      UnderContract store config e
  /- One request more. -/
  | request {e : Engine}
      (hBefore : UnderContract store config e)
      (request : Request)
      (hPermits : e.Permits request) :
      UnderContract store config (e.after request)

section Contract

variable {declared : List Literal} {named : List (Nat × Constraint)}

/- A permitted request on a reachable engine is answered. -/
theorem Reachable.answers
    (hStore : Store.ofNamed declared named = .ok store)
    (hReachable : Reachable store config e)
    {request : Request}
    (hPermits : e.Permits request) :
    e.Answers request := by
  have hWell := Store.wellFormed_of_ofNamed hStore
  have hIntact := hReachable.intact hWell
  have hSame := hIntact.regular.sameStore
  cases request with
  | initialPropagation host =>
      rcases hPermits with ⟨hServes, hEmpty, hReady⟩
      exact hIntact.exists_initialPropagation hWell
        (hSame ▸ hServes.size) (List.isEmpty_iff.mp hEmpty) hReady
  | propagate host l =>
      rcases hPermits with ⟨hServes, hReady, hTrue, hLevel⟩
      exact hIntact.exists_propagate hWell (hSame ▸ hServes.size)
        hServes.held hReady hTrue hLevel
  | undo level =>
      rcases hIntact.regular.faithful.undo (hSame.symm ▸ hWell)
        hPermits with ⟨_, _, hOutcome, _⟩
      exact hOutcome
  | check host =>
      rcases check_cases (hSame.symm ▸ hStore) hPermits with
        ⟨hCheck, _⟩ | ⟨_, _, hCheck, _⟩
      · exact ⟨_, hCheck⟩
      · exact ⟨_, hCheck⟩

/- A permitted request leads to a reachable engine. -/
theorem Reachable.after
    (hStore : Store.ofNamed declared named = .ok store)
    (hReachable : Reachable store config e)
    {request : Request}
    (hPermits : e.Permits request) :
    Reachable store config (e.after request) := by
  have hAnswers := hReachable.answers hStore hPermits
  cases request with
  | initialPropagation host =>
      rcases hAnswers with ⟨verdict, hCall⟩
      exact .initialPropagation hReachable host hCall
  | propagate host l =>
      rcases hAnswers with ⟨verdict, hCall⟩
      exact .propagate hReachable host l hCall
  | undo level => exact .undo hReachable level hAnswers
  | check host => exact hReachable

theorem UnderContract.reachable
    (hStore : Store.ofNamed declared named = .ok store)
    (hUnder : UnderContract store config e) :
    Reachable store config e := by
  induction hUnder with
  | new hNew => exact .new hNew
  | request _ request hPermits ih => exact ih.after hStore hPermits

theorem exists_engine
    (hStore : store.WellFormed)
    (config : Config) :
    ∃ e, Engine.ofStore store config = .ok e := by
  rcases Theory.exists_ofStore hStore config.strategy (fun _ => rfl)
    with ⟨theory, hTheory, _⟩
  exact ⟨_, bind_eq_ok.mpr ⟨theory, hTheory, rfl⟩⟩

/-
  For every store and configuration there is an engine, and
  after any requests that kept the contract every request
  that keeps it is answered.
-/
theorem permitted_requests_never_fail
    (hStore : Store.ofNamed declared named = .ok store)
    (config : Config) :
    (∃ e, Engine.ofStore store config = .ok e) ∧
      ∀ e, UnderContract store config e →
        ∀ request, e.Permits request → e.Answers request := by
  refine ⟨exists_engine (Store.wellFormed_of_ofNamed hStore) config, ?_⟩
  intro e hUnder request hPermits
  exact (hUnder.reachable hStore).answers hStore hPermits

/-
  Two constraints contradict each other once `l_0` is false.
  After the conflict is undone, the engine takes `l_0` in.
-/
theorem permitted_request_after_conflict :
    ∃ store e,
      Store.ofNamed [⟨0, true⟩, ⟨1, true⟩, ⟨2, true⟩]
          [(7, ⟨[⟨0, true⟩, ⟨1, true⟩, ⟨2, true⟩], .odd⟩),
            (9, ⟨[⟨1, true⟩, ⟨2, true⟩], .even⟩)] = .ok store ∧
        UnderContract store ⟨.gjeTableau, ⟨0.25⟩, false⟩ e ∧
        e.state = .conflicted 1 ∧
        (e.after (.undo 0)).Permits
          (.propagate ⟨3, 1, fun _ => some true⟩ ⟨0, true⟩) ∧
        (e.after (.undo 0)).Answers
          (.propagate ⟨3, 1, fun _ => some true⟩ ⟨0, true⟩) := by
  have hRun :
      (Store.ofNamed [⟨0, true⟩, ⟨1, true⟩, ⟨2, true⟩]
          [(7, ⟨[⟨0, true⟩, ⟨1, true⟩, ⟨2, true⟩], .odd⟩),
            (9, ⟨[⟨1, true⟩, ⟨2, true⟩], .even⟩)]).toOption.any
        (fun store =>
          (Engine.ofStore store
            ⟨.gjeTableau, ⟨0.25⟩, false⟩).toOption.any
          fun (e : Engine) =>
            decide (e.store.numVariables = 3 ∧
              e.trail.entries = [] ∧ e.state = .ready) &&
              let f := e.after
                (.propagate ⟨3, 1, fun _ => some false⟩ ⟨0, false⟩)
              decide (f.state = .conflicted 1) &&
                let g := f.after (.undo 0)
                decide (g.store.numVariables = 3 ∧
                  g.trail.entries = [] ∧ g.state = .ready)) =
        true := by
    decide +kernel
  rcases exists_ok_of_any hRun with ⟨store, hStore, hNew⟩
  rcases exists_ok_of_any hNew with ⟨e, hEngine, hCheck⟩
  simp only [Bool.and_eq_true, decide_eq_true_eq] at hCheck
  rcases hCheck with ⟨hFirst, hConflict, hSecond⟩
  have hPermits : ∀ (g : Engine) (b : Bool),
      g.store.numVariables = 3 ∧ g.trail.entries = [] ∧
          g.state = .ready →
        g.Permits
          (.propagate ⟨3, 1, fun _ => some b⟩ ⟨0, b⟩) := by
    intro g b hFacts
    refine ⟨⟨Nat.le_of_eq hFacts.1, ?_⟩, hFacts.2.2, ?_, ?_⟩
    · rw [hFacts.2.1]
      exact fun entry hMem => by cases hMem
    · cases b <;> rfl
    · rw [Trail.level, hFacts.2.1]
      exact Nat.zero_le _
  have hUnder := UnderContract.request (.new hEngine) _
    (hPermits e false hFirst)
  refine ⟨store, _, hStore, hUnder, hConflict,
    hPermits _ true hSecond, ?_⟩
  exact (permitted_requests_never_fail hStore _).2 _
    (hUnder.request (.undo 0) (Nat.zero_le _)) _
    (hPermits _ true hSecond)

end Contract

end Engine

end ParitySolver
