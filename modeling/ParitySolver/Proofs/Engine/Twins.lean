import ParitySolver.Proofs.Engine.Vigilance

/-
  Elimination that is withheld makes no difference. An engine
  that eliminates watches as an engine with unit propagation
  does, and what elimination finds comes after what watching
  finds. Two such engines that are driven by the same calls
  give the same answers as long as the cutoff keeps
  elimination from running, or all variables have values. In
  the latter case elimination can only show a conflict, and
  then some constraint fails, so watching shows it first.

  Key definitions include:
    * `Theory.Tops`
    * `Engine.Withheld`
    * `Engine.Twins`
    * `Engine.Abreast`

  Main declarations:
    * `Theory.Tops.assign`
    * `Engine.tops_of_replay`
    * `Engine.verdict_eq_of_withheld`
    * `Engine.Abreast.propagate`
    * `Engine.withheld_elimination_adds_nothing`
-/

namespace ParitySolver

------------------------------------------------------------
-- Elimination on top of watching
------------------------------------------------------------

/- Watching reads the constraints and the trail, and nothing else. -/
theorem Watching.assign_congr
    (watch : Watching)
    {ctx ctx' : Context}
    (hStore : ctx'.store = ctx.store)
    (hTrail : ctx'.trail = ctx.trail) :
    watch.assign ctx' = watch.assign ctx := by
  unfold Watching.assign Context.newest
  rw [hStore, hTrail]

namespace Theory

/- The second theory watches as the first one, and eliminates. -/
inductive Tops : Theory → Theory → Prop where
  | batch (watch : Watching) (mode : BatchMode) :
      Tops (.watching watch) (.batch watch mode)
  | incremental (watch : Watching) (elimination : Incremental) :
      Tops (.watching watch) (.incremental watch elimination)

variable {t t' u u' : Theory} {ctx ctx' : Context}
variable {found found' : Findings}

theorem Tops.eliminates
    (hTops : Tops t t') :
    t.eliminates = false := by
  cases hTops <;> rfl

theorem tops_ofStore
    {store : Store}
    {strategy : Strategy}
    (hStrategy : strategy.usesElimination = true)
    (hUnits : ofStore .unitPropagation store = .ok t)
    (hFull : ofStore strategy store = .ok t') :
    Tops t t' := by
  simp only [ofStore, bind_eq_ok, pure_eq_ok] at hUnits
  rcases hUnits with ⟨watch, hWatch, rfl⟩
  cases strategy <;> cases hStrategy <;>
    simp only [ofStore, bind_eq_ok, pure_eq_ok, hWatch,
      Except.ok.injEq, exists_eq_left'] at hFull
  case gjeFixpoint.refl | gjeReasoned.refl =>
    rw [← hFull]
    exact .batch watch _
  case gjeIncremental.refl | gjeTableau.refl =>
    rcases hFull with ⟨elimination, _, rfl⟩
    exact .incremental watch elimination

theorem onAssignment_of_not_allowed
    {mode : BatchMode}
    (hAllowed : ctx.eliminate = false)
    (hFound : mode.onAssignment ctx = .ok found) :
    found.events = [] := by
  simp only [BatchMode.onAssignment, hAllowed, Bool.and_false,
    Bool.false_eq_true, if_false] at hFound
  cases hFound
  rfl

/- What elimination finds at first comes after what watching finds. -/
theorem Tops.begin
    (hTops : Tops t t')
    (hBegin : t.begin ctx = .ok found)
    (hBegin' : t'.begin ctx' = .ok found') :
    ∃ extra, found'.events = found.events ++ extra ∧
      (ctx'.eliminate = false → extra = []) := by
  cases hTops with
  | batch watch mode =>
      simp only [Theory.begin, bind_eq_ok, pure_eq_ok] at hBegin hBegin'
      rcases hBegin' with ⟨more, hMore, rfl⟩
      rw [← hBegin]
      exact ⟨more.events, rfl, fun hAllowed =>
        onAssignment_of_not_allowed hAllowed hMore⟩
  | incremental watch elimination =>
      simp only [Theory.begin, Incremental.begin, bind_eq_ok,
        pure_eq_ok] at hBegin hBegin'
      rcases hBegin' with ⟨_, ⟨more, hMore, rfl⟩, rfl⟩
      rw [← hBegin]
      exact ⟨more.events, rfl,
        (Incremental.scanIfAllowed_eq_ok hMore).2⟩

/- So it is when a literal is taken in. -/
theorem Tops.assign
    (hTops : Tops t t')
    (hAssign : t.assign ctx = .ok (u, found))
    (hAssign' : t'.assign ctx' = .ok (u', found'))
    (hStore : ctx'.store = ctx.store)
    (hTrail : ctx'.trail = ctx.trail) :
    Tops u u' ∧ ∃ extra, found'.events = found.events ++ extra ∧
      (ctx'.eliminate = false → extra = []) := by
  cases hTops with
  | batch watch mode =>
      simp only [Theory.assign, bind_eq_ok, pure_eq_ok, Prod.exists,
        Prod.mk.injEq, watch.assign_congr hStore hTrail]
        at hAssign hAssign'
      rcases hAssign with ⟨watch₁, first, hWatch, rfl, rfl⟩
      rcases hAssign' with ⟨watch₂, second, hSame, more, hMore, rfl, rfl⟩
      cases hWatch.symm.trans hSame
      exact ⟨.batch _ _, more.events, rfl, fun hAllowed =>
        onAssignment_of_not_allowed hAllowed hMore⟩
  | incremental watch elimination =>
      simp only [Theory.assign, bind_eq_ok, pure_eq_ok, Prod.exists,
        Prod.mk.injEq, watch.assign_congr hStore hTrail]
        at hAssign hAssign'
      rcases hAssign with ⟨watch₁, first, hWatch, rfl, rfl⟩
      rcases hAssign' with
        ⟨watch₂, second, hSame, elimination', more, hMore, rfl, rfl⟩
      cases hWatch.symm.trans hSame
      rcases Incremental.assign_eq_ok hMore with
        ⟨_, _, _, _, _, scanned, _, _, _, _, _, hScan, hEvents⟩
      refine ⟨.incremental _ _, more.events, rfl, fun hAllowed => ?_⟩
      rw [hEvents]
      exact (Incremental.scanIfAllowed_eq_ok hScan).2 hAllowed

/- Elimination that may not run sees nothing on a second look. -/
theorem atFixpoint_of_not_allowed
    (hAllowed : ctx.eliminate = false)
    (hFixpoint : t.atFixpoint ctx = .ok found) :
    found.events = [] := by
  cases t with
  | batch watch mode =>
      simp only [atFixpoint, BatchMode.onFixpoint, hAllowed,
        Bool.and_false, Bool.false_eq_true, if_false] at hFixpoint
      cases hFixpoint
      rfl
  | counting | watching | incremental =>
      cases hFixpoint
      rfl

end Theory

------------------------------------------------------------
-- Verdicts on more events
------------------------------------------------------------

/- Events after a conflict change nothing. -/
theorem resolve_append_of_conflict
    {store : Store}
    {trail : Trail}
    {host : Host}
    {events : List Event}
    {origin : Origin}
    (hMem : Event.conflict origin ∈ events)
    (extra : List Event) :
    resolve store trail host (events ++ extra) =
      resolve store trail host events := by
  have hFirst : ∃ first, firstConflict? events = some first ∧
      firstConflict? (events ++ extra) = some first := by
    induction events with
    | nil => cases hMem
    | cons event events ih =>
        cases event with
        | conflict first => exact ⟨first, rfl, rfl⟩
        | propagation l other =>
            exact ih ((List.mem_cons.mp hMem).resolve_left nofun)
  rcases hFirst with ⟨first, hBefore, hAfter⟩
  simp only [resolve, hBefore, hAfter]

namespace Event.Supported

variable {store : Store} {value : Nat → Option Bool} {event : Event}

/- Without open variables only conflicts are supported. -/
theorem exists_conflict
    (hSupported : event.Supported store value)
    (hTotal : ∀ v, store.isRelevant v = true →
      (value v).isSome = true) :
    ∃ origin, event = .conflict origin := by
  cases event with
  | conflict origin => exact ⟨origin, rfl⟩
  | propagation l origin =>
      have hSome := hTotal l.index hSupported.valid.1
      rw [hSupported.explainable.1] at hSome
      cases hSome

/- Under the values of a solution no conflict is supported. -/
theorem not_conflict
    (hStore : store.WellFormed)
    {a : Assignment}
    (hHolds : store.Holds a)
    (hExtends : Extends a value)
    (hSupported : event.Supported store value)
    (origin : Origin) :
    event ≠ .conflict origin := by
  rintro rfl
  have hDefect := hSupported.valid a hExtends
  rw [origin.defect_eq_false hStore hHolds] at hDefect
  cases hDefect

end Event.Supported

namespace Engine

variable {store : Store} {plain full : Config} {u g : Engine}
variable {host : Host} {verdict verdict' : Verdict}
variable {found found' : Findings}

/- Without a second look, the verdict is that on the events. -/
theorem Concludes.exists_resolve
    (hConcludes : u.Concludes host found verdict)
    (hSecond : ∀ more, u.theory.atFixpoint u.context = .ok more →
      more.events = []) :
    ∃ notes, resolve u.store u.trail host found.events =
      .ok (verdict, notes) := by
  rcases hConcludes with
    ⟨_, hFirst⟩ | ⟨more, notes, moreNotes, hNothing, hMore, hLast⟩
  · exact hFirst
  · rw [hSecond more hMore] at hLast
    cases hLast
    exact ⟨notes, hNothing⟩

/-
  Engines with the same events give the same verdict. If
  there is a conflict among them, more events do not matter.
-/
theorem Concludes.verdict_eq
    (hStore : g.store = u.store)
    (hTrail : g.trail = u.trail)
    (hPlain : u.theory.eliminates = false)
    {extra : List Event}
    (hEvents : found'.events = found.events ++ extra)
    (hCase :
      (∃ origin, Event.conflict origin ∈ found.events) ∨
        (extra = [] ∧ ∀ more,
          g.theory.atFixpoint g.context = .ok more → more.events = []))
    (hConcludes : u.Concludes host found verdict)
    (hConcludes' : g.Concludes host found' verdict') :
    verdict' = verdict := by
  rcases hConcludes.exists_resolve
      (fun more => Theory.atFixpoint_of_not_eliminates hPlain) with
    ⟨notes, hResolve⟩
  have hOther : ∃ notes, resolve u.store u.trail host found.events =
      .ok (verdict', notes) := by
    rw [← hStore, ← hTrail]
    rcases hCase with ⟨origin, hMem⟩ | ⟨rfl, hSecond⟩
    · rw [← resolve_append_of_conflict hMem extra, ← hEvents]
      rcases hConcludes' with
        ⟨_, hFirst⟩ | ⟨_, _, _, hNothing, _, _⟩
      · exact hFirst
      · have hIn : Event.conflict origin ∈ found'.events := by
          rw [hEvents]
          exact List.mem_append_left _ hMem
        rcases conflict_of_resolve hIn hNothing with ⟨_, hVerdict⟩
        cases hVerdict
    · rw [List.append_nil] at hEvents
      rw [← hEvents]
      exact hConcludes'.exists_resolve hSecond
  rcases hOther with ⟨notes', hResolve'⟩
  cases hResolve.symm.trans hResolve'
  rfl

------------------------------------------------------------
-- Withheld elimination
------------------------------------------------------------

/-
  Elimination has nothing to do: the cutoff does not admit
  what is on the trail, or all relevant variables are on it.
-/
def Withheld
    (e : Engine) : Prop :=
  e.config.cutoff.admits e.trail.size e.store.numColumns = false ∨
    ∀ v, e.store.isRelevant v = true →
      v ∈ e.trail.entries.map fun entry => entry.literal.index

/- What is true of an engine that has just looked at its trail. -/
structure Looks
    (store : Store)
    (e : Engine)
    (found : Findings) : Prop where
  sameStore : e.store = store
  size : e.trail.values.size = e.store.numVariables
  orderly : e.trail.Orderly
  supported :
    ∀ event ∈ found.events, event.Supported e.store e.trail.value

/- A trail with all variables on it makes a solution. -/
theorem Looks.exists_solution
    (hStore : store.WellFormed)
    (hLooks : g.Looks store found')
    (hFull : ∀ v, g.store.isRelevant v = true →
      v ∈ g.trail.entries.map fun entry => entry.literal.index)
    (hCoherent : store.Coherent)
    (hTolerates :
      store.Tolerates (g.trail.entries.map TrailEntry.literal)) :
    ∃ a, store.Holds a ∧ Extends a g.trail.value := by
  have hExtends := extends_overlay g.trail.value fun _ => false
  refine ⟨_, hTolerates.holds hStore hCoherent fun w hRelevant => ?_,
    hExtends⟩
  rw [← hLooks.sameStore] at hRelevant
  rcases List.mem_map.mp (hFull w hRelevant) with ⟨entry, hMem, rfl⟩
  have hValue := (hLooks.orderly.value_iff _ _).mpr ⟨entry, hMem, rfl⟩
  rw [hExtends _ _ hValue]
  exact List.mem_map_of_mem hMem

/-
  Withheld elimination does not change the verdict. With all
  variables on the trail, a conflict is shown by watching, or
  the trail makes a solution and there is none.
-/
theorem verdict_eq_of_withheld
    (hStore : store.WellFormed)
    (hConcludes : u.Concludes host found verdict)
    (hConcludes' : g.Concludes host found' verdict')
    (hLooks : g.Looks store found')
    (hSame : u.store = store)
    (hTrail : g.trail = u.trail)
    (hPlain : u.theory.eliminates = false)
    {extra : List Event}
    (hEvents : found'.events = found.events ++ extra)
    (hAllowed : g.context.eliminate = false → extra = [])
    (hWithheld : g.Withheld)
    (hSound : (∀ reason, verdict ≠ .conflict reason) →
      store.Coherent ∧
        store.Tolerates (g.trail.entries.map TrailEntry.literal)) :
    verdict' = verdict := by
  refine Concludes.verdict_eq (hLooks.sameStore.trans hSame.symm)
    hTrail hPlain hEvents ?_ hConcludes hConcludes'
  rcases hWithheld with hBelow | hFull
  · exact .inr ⟨hAllowed hBelow, fun more =>
      Theory.atFixpoint_of_not_allowed hBelow⟩
  by_cases hConflict : ∃ origin, Event.conflict origin ∈ found.events
  · exact .inl hConflict
  have hTotal : ∀ v, g.store.isRelevant v = true →
      (g.trail.value v).isSome = true := by
    intro v hRelevant
    rcases List.mem_map.mp (hFull v hRelevant) with ⟨entry, hMem, rfl⟩
    rw [(hLooks.orderly.value_iff _ _).mpr ⟨entry, hMem, rfl⟩]
    rfl
  have hNone : found.events = [] := by
    rw [List.eq_nil_iff_forall_not_mem]
    intro event hMem
    have hIn : event ∈ found'.events := by
      rw [hEvents]
      exact List.mem_append_left _ hMem
    rcases (hLooks.supported event hIn).exists_conflict hTotal with
      ⟨origin, rfl⟩
    exact hConflict ⟨origin, hMem⟩
  have hQuiet : ∀ reason, verdict ≠ .conflict reason := by
    rcases hConcludes.exists_resolve
        (fun more => Theory.atFixpoint_of_not_eliminates hPlain) with
      ⟨notes, hResolve⟩
    rw [hNone] at hResolve
    cases hResolve
    exact nofun
  rcases hSound hQuiet with ⟨hCoherent, hTolerates⟩
  rcases hLooks.exists_solution hStore hFull hCoherent hTolerates with
    ⟨a, hHolds, hExtends⟩
  rw [← hLooks.sameStore] at hStore hHolds
  have hNothing : ∀ event : Event,
      ¬ event.Supported g.store g.trail.value := by
    intro event hSupported
    rcases hSupported.exists_conflict hTotal with ⟨origin, hEvent⟩
    exact hSupported.not_conflict hStore hHolds hExtends origin hEvent
  refine .inr ⟨?_, fun more hMore => ?_⟩
  · rw [List.eq_nil_iff_forall_not_mem]
    intro event hMem
    refine hNothing event (hLooks.supported event ?_)
    rw [hEvents]
    exact List.mem_append_right _ hMem
  · rcases exists_secondLook hStore hLooks.size with
      ⟨_, hAgain, hSupported⟩
    cases hMore.symm.trans hAgain
    rw [List.eq_nil_iff_forall_not_mem]
    exact fun event hMem => hNothing event (hSupported event hMem)

------------------------------------------------------------
-- Two engines
------------------------------------------------------------

/- On the same trail, elimination is on top of the same watching. -/
theorem tops_of_replay
    (hUnits : plain.strategy = .unitPropagation)
    (hFull : full.strategy.usesElimination = true)
    {entries : List TrailEntry}
    {trail trail' : Trail}
    {theory theory' : Theory}
    (hReplay : replay plain store entries = .ok (trail, theory))
    (hReplay' : replay full store entries = .ok (trail', theory')) :
    trail' = trail ∧ Theory.Tops theory theory' := by
  induction entries using List.reverseRecOn generalizing trail trail'
    theory theory' with
  | nil =>
      rcases replay_nil_eq_ok_iff.mp hReplay with ⟨rfl, hTheory⟩
      rcases replay_nil_eq_ok_iff.mp hReplay' with ⟨rfl, hTheory'⟩
      rw [hUnits] at hTheory
      exact ⟨rfl, Theory.tops_ofStore hFull hTheory hTheory'⟩
  | append_singleton entries entry ih =>
      rcases replay_snoc_eq_ok_iff.mp hReplay with
        ⟨⟨trail₀, theory₀⟩, hBefore, hEntry⟩
      rcases replay_snoc_eq_ok_iff.mp hReplay' with
        ⟨⟨trail₁, theory₁⟩, hBefore', hEntry'⟩
      rcases ih hBefore hBefore' with ⟨rfl, hTops⟩
      rcases replayEntry_eq_ok_iff.mp hEntry with
        ⟨hPush, found, hAssign⟩
      rcases replayEntry_eq_ok_iff.mp hEntry' with
        ⟨hPush', found', hAssign'⟩
      cases hPush.symm.trans hPush'
      exact ⟨rfl, (hTops.assign hAssign hAssign' rfl rfl).1⟩

/-
  An engine with unit propagation and one that eliminates,
  driven by the same calls of the same hosts. They begin with
  the first question at the lowest level, and elimination is
  withheld in every call.
-/
inductive Twins
    (store : Store)
    (plain full : Config) : Engine → Engine → Prop where
  | start {u g : Engine}
      (hUnits : Engine.ofStore store plain = .ok u)
      (hFull : Engine.ofStore store full = .ok g)
      (host : Host)
      (hLevel : host.level = 0)
      (hPermits : g.Permits (.initialPropagation host))
      (hWithheld : (g.after (.initialPropagation host)).Withheld) :
      Twins store plain full (u.after (.initialPropagation host))
        (g.after (.initialPropagation host))
  | propagate {u g : Engine}
      (hBefore : Twins store plain full u g)
      (host : Host)
      (l : Literal)
      (hPermits : g.Permits (.propagate host l))
      (hWithheld : (g.after (.propagate host l)).Withheld) :
      Twins store plain full (u.after (.propagate host l))
        (g.after (.propagate host l))
  | undo {u g : Engine}
      (hBefore : Twins store plain full u g)
      (level : Nat)
      (hPermits : g.Permits (.undo level)) :
      Twins store plain full (u.after (.undo level))
        (g.after (.undo level))

/- The engines differ in nothing but what elimination needs. -/
structure Aligned
    (store : Store)
    (plain full : Config)
    (u g : Engine) : Prop where
  reachable : Reachable store plain u
  reachable' : Reachable store full g
  trail : g.trail = u.trail
  state : g.state = u.state
  highest : g.highestLevel = u.highestLevel

namespace Aligned

theorem new
    (hNew : Engine.ofStore store plain = .ok u)
    (hNew' : Engine.ofStore store full = .ok g) :
    Aligned store plain full u g := by
  rcases faithful_ofStore hNew with
    ⟨_, _, _, hTrail, hReady, hHighest⟩
  rcases faithful_ofStore hNew' with
    ⟨_, _, _, hTrail', hReady', hHighest'⟩
  exact ⟨.new hNew, .new hNew', hTrail'.trans hTrail.symm,
    hReady'.trans hReady.symm, hHighest'.trans hHighest.symm⟩

theorem tops
    (hStore : store.WellFormed)
    (hUnits : plain.strategy = .unitPropagation)
    (hFull : full.strategy.usesElimination = true)
    (hAligned : Aligned store plain full u g) :
    Theory.Tops u.theory g.theory := by
  have hRegular := hAligned.reachable.regular hStore
  have hRegular' := hAligned.reachable'.regular hStore
  have hReplay := hRegular.faithful
  have hReplay' := hRegular'.faithful
  rw [Faithful, hRegular.sameConfig, hRegular.sameStore] at hReplay
  rw [Faithful, hRegular'.sameConfig, hRegular'.sameStore,
    hAligned.trail] at hReplay'
  exact (tops_of_replay hUnits hFull hReplay hReplay').2

theorem sameStore
    (hStore : store.WellFormed)
    (hAligned : Aligned store plain full u g) :
    g.store = u.store :=
  (hAligned.reachable'.regular hStore).sameStore.trans
    (hAligned.reachable.regular hStore).sameStore.symm

/- What one engine permits, the other one permits. -/
theorem permits
    (hStore : store.WellFormed)
    (hAligned : Aligned store plain full u g)
    {request : Request}
    (hPermits : g.Permits request) :
    u.Permits request := by
  have hSame := hAligned.sameStore hStore
  have hServes : ∀ {host : Host}, Serves host g → Serves host u := by
    intro host hServes
    refine ⟨hSame ▸ hServes.size, ?_⟩
    rw [← hAligned.trail]
    exact hServes.held
  cases request with
  | initialPropagation host =>
      rcases hPermits with ⟨hHost, hEmpty, hReady⟩
      exact ⟨hServes hHost, hAligned.trail ▸ hEmpty,
        hAligned.state.symm.trans hReady⟩
  | propagate host l =>
      rcases hPermits with ⟨hHost, hReady, hTrue, hLevel⟩
      exact ⟨hServes hHost, hAligned.state.symm.trans hReady, hTrue,
        hAligned.trail ▸ hLevel⟩
  | undo level =>
      exact Nat.le_trans hPermits (Nat.le_of_eq hAligned.highest)
  | check host =>
      have hLe : g.store.numVariables ≤ host.size := hPermits
      rwa [hSame] at hLe

end Aligned

/-
  The engines are aligned. Unless there is a conflict that
  cannot be undone, no constraint without variables fails.
-/
structure Abreast
    (store : Store)
    (plain full : Config)
    (u g : Engine) : Prop extends
    Aligned store plain full u g where
  coherent : g.state = .conflicted 0 ∨ store.Coherent

section Steps

variable {declared : List Literal} {named : List (Nat × Constraint)}
variable {l : Literal}

/- The first question is answered alike. -/
theorem Aligned.start
    (hNamed : Store.ofNamed declared named = .ok store)
    (hUnits : plain.strategy = .unitPropagation)
    (hFull : full.strategy.usesElimination = true)
    (hAligned : Aligned store plain full u g)
    (hLevel : host.level = 0)
    (hPermits : g.Permits (.initialPropagation host))
    (hWithheld : (g.after (.initialPropagation host)).Withheld) :
    ∃ verdict, (u.initialPropagation host).outcome = .ok verdict ∧
      (g.initialPropagation host).outcome = .ok verdict ∧
      Abreast store plain full (u.after (.initialPropagation host))
        (g.after (.initialPropagation host)) := by
  have hStore := Store.wellFormed_of_ofNamed hNamed
  have hPermits' := hAligned.permits hStore hPermits
  have hIntact := hAligned.reachable.intact hStore
  have hIntact' := hAligned.reachable'.intact hStore
  have hTops := hAligned.tops hStore hUnits hFull
  rcases hAligned.reachable.answers hNamed hPermits' with
    ⟨verdict, hCall⟩
  rcases hAligned.reachable'.answers hNamed hPermits with
    ⟨verdict', hCall'⟩
  have hAfter := hAligned.reachable.after hNamed hPermits'
  have hAfter' := hAligned.reachable'.after hNamed hPermits
  rcases initialPropagation_eq_ok hCall with
    ⟨_, _, ⟨found, hBegin, hConcludes⟩, hEngine⟩
  rcases initialPropagation_eq_ok hCall' with
    ⟨hEmpty', _, ⟨found', hBegin', hConcludes'⟩, hEngine'⟩
  rcases hTops.begin hBegin hBegin' with ⟨extra, hEvents, hAllowed⟩
  have hLooks : g.Looks store found' := by
    rcases hIntact'.exists_begin hStore hEmpty' with
      ⟨_, hSame, hSupported, _⟩
    cases hBegin'.symm.trans hSame
    have hSize := (hIntact'.sturdy hStore).2
    exact ⟨hIntact'.regular.sameStore,
      hIntact'.regular.sameStore.symm ▸ hSize,
      (hIntact'.regular.consistent hStore).orderly, hSupported⟩
  have hCoherent : (∀ reason, verdict ≠ .conflict reason) →
      store.Coherent :=
    coherent_of_initialPropagation hStore hIntact hCall
  simp only [Engine.after, hEngine, hEngine'] at hAfter hAfter' hWithheld ⊢
  have hSame : verdict' = verdict := by
    refine verdict_eq_of_withheld hStore hConcludes hConcludes' hLooks
      hIntact.regular.sameStore hAligned.trail hTops.eliminates hEvents
      hAllowed hWithheld ?_
    intro hQuiet
    refine ⟨hCoherent hQuiet, ?_⟩
    rw [hEmpty']
    exact store.tolerates_nil
  subst hSame
  refine ⟨verdict', hCall, hCall', ⟨hAfter, hAfter', hAligned.trail,
    rfl, ?_⟩, ?_⟩
  · simp only [hAligned.highest]
  · cases verdict' with
    | conflict reason => exact .inl (congrArg _ hLevel)
    | nothing => exact .inr (hCoherent nofun)
    | forced ps => exact .inr (hCoherent nofun)

/- Engines that are aligned take in the same literals. -/
theorem Idles.not_absorbs
    (hIdles : u.Idles host l verdict)
    (hStore : g.store = u.store)
    (hTrail : g.trail = u.trail)
    {trail : Trail}
    {theory : Theory} :
    ¬ g.Absorbs host l verdict' trail theory found' := by
  intro hAbsorbs
  rcases hIdles.known with hIrrelevant | hKnown
  · rw [← hStore, hAbsorbs.relevant] at hIrrelevant
    cases hIrrelevant
  · rw [← hTrail, Trail.value_eq_none_of_push hAbsorbs.push] at hKnown
    cases hKnown

/- A literal that both engines take in shows the same. -/
theorem Abreast.verdict_eq
    (hStore : store.WellFormed)
    (hUnits : plain.strategy = .unitPropagation)
    (hFull : full.strategy.usesElimination = true)
    (hAbreast : Abreast store plain full u g)
    (hReady : u.state = .ready)
    (hCoherent : store.Coherent)
    {trail trail' : Trail}
    {theory theory' : Theory}
    (hAbsorbs : u.Absorbs host l verdict trail theory found)
    (hAbsorbs' : g.Absorbs host l verdict' trail' theory' found')
    (hWithheld : { g with trail := trail' }.Withheld) :
    trail' = trail ∧ verdict' = verdict := by
  have hIntact := hAbreast.reachable.intact hStore
  have hIntact' := hAbreast.reachable'.intact hStore
  have hPush := hAbsorbs'.push
  rw [hAbreast.trail] at hPush
  cases hAbsorbs.push.symm.trans hPush
  have hOrderly : trail.Orderly :=
    (hIntact.regular.consistent hStore).orderly.push hAbsorbs.push
  rcases (hAbreast.tops hStore hUnits hFull).assign hAbsorbs.assign
      hAbsorbs'.assign (hAbreast.sameStore hStore) rfl with
    ⟨hTops, extra, hEvents, hAllowed⟩
  let next : Engine :=
    { g with
      trail, theory := theory'
      highestLevel := max g.highestLevel host.level }
  have hLooks : next.Looks store found' := by
    rcases hIntact'.exists_assign hStore hAbsorbs'.relevant
      hAbsorbs'.push with ⟨hSize, _, _, hSame, hSupported, _⟩
    cases hAbsorbs'.assign.symm.trans hSame
    exact ⟨hIntact'.regular.sameStore, hSize, hOrderly, hSupported⟩
  refine ⟨rfl, verdict_eq_of_withheld hStore hAbsorbs.concludes
    hAbsorbs'.concludes hLooks hIntact.regular.sameStore rfl
    hTops.eliminates hEvents hAllowed hWithheld ?_⟩
  intro hQuiet
  have hBefore := (hAbreast.reachable.vigilant hStore).tolerates hReady
    hIntact.regular
  exact ⟨hCoherent, hAbsorbs.tolerates hStore hIntact hBefore hOrderly
    hQuiet⟩

/- Telling of a literal is answered alike. -/
theorem Abreast.propagate
    (hNamed : Store.ofNamed declared named = .ok store)
    (hUnits : plain.strategy = .unitPropagation)
    (hFull : full.strategy.usesElimination = true)
    (hAbreast : Abreast store plain full u g)
    (hPermits : g.Permits (.propagate host l))
    (hWithheld : (g.after (.propagate host l)).Withheld) :
    ∃ verdict, (u.propagate host l).outcome = .ok verdict ∧
      (g.propagate host l).outcome = .ok verdict ∧
      Abreast store plain full (u.after (.propagate host l))
        (g.after (.propagate host l)) := by
  have hStore := Store.wellFormed_of_ofNamed hNamed
  have hSameStore := hAbreast.sameStore hStore
  have hPermits' := hAbreast.permits hStore hPermits
  have hIntact := hAbreast.reachable.intact hStore
  have hIntact' := hAbreast.reachable'.intact hStore
  rcases hAbreast.reachable.answers hNamed hPermits' with
    ⟨verdict, hCall⟩
  rcases hAbreast.reachable'.answers hNamed hPermits with
    ⟨verdict', hCall'⟩
  have hAfter := hAbreast.reachable.after hNamed hPermits'
  have hAfter' := hAbreast.reachable'.after hNamed hPermits
  rcases propagate_eq_ok hCall with
    ⟨hReady, _, _, hIdles | ⟨trail, theory, found, hAbsorbs⟩⟩ <;>
  rcases propagate_eq_ok hCall' with
    ⟨hReady', _, _, hIdles' | ⟨trail', theory', found', hAbsorbs'⟩⟩
  · rcases hIdles.nothing with rfl
    rcases hIdles'.nothing with rfl
    simp only [Engine.after, hIdles.engine, hIdles'.engine]
      at hAfter hAfter' ⊢
    refine ⟨.nothing, hCall, hCall', ⟨hAfter, hAfter', hAbreast.trail,
      hAbreast.state, ?_⟩, hAbreast.coherent⟩
    simp only [hAbreast.highest]
  · exact absurd hAbsorbs'
      (hIdles.not_absorbs hSameStore hAbreast.trail)
  · exact absurd hAbsorbs
      (hIdles'.not_absorbs hSameStore.symm hAbreast.trail.symm)
  · have hCoherent : store.Coherent := by
      rcases hAbreast.coherent with hStuck | hCoherent
      · cases hReady'.symm.trans hStuck
      · exact hCoherent
    simp only [Engine.after, hAbsorbs.engine, hAbsorbs'.engine]
      at hAfter hAfter' hWithheld ⊢
    rcases hAbreast.verdict_eq hStore hUnits hFull hReady hCoherent
      hAbsorbs hAbsorbs' hWithheld with ⟨rfl, rfl⟩
    refine ⟨verdict', hCall, hCall', ⟨hAfter, hAfter', rfl, rfl, ?_⟩,
      .inr hCoherent⟩
    simp only [hAbreast.highest]

/- Going back is answered alike. -/
theorem Abreast.undo
    (hNamed : Store.ofNamed declared named = .ok store)
    (hUnits : plain.strategy = .unitPropagation)
    (hFull : full.strategy.usesElimination = true)
    (hAbreast : Abreast store plain full u g)
    {level : Nat}
    (hPermits : g.Permits (.undo level)) :
    (u.undo level).outcome = .ok () ∧
      (g.undo level).outcome = .ok () ∧
      Abreast store plain full (u.after (.undo level))
        (g.after (.undo level)) := by
  have hStore := Store.wellFormed_of_ofNamed hNamed
  have hPermits' := hAbreast.permits hStore hPermits
  have hRegular := hAbreast.reachable.regular hStore
  have hRegular' := hAbreast.reachable'.regular hStore
  rcases hRegular.faithful.undo (hRegular.sameStore.symm ▸ hStore)
      hPermits' with
    ⟨trail, theory, hUndo, hEngine, hEntries, hReplay⟩
  rcases hRegular'.faithful.undo (hRegular'.sameStore.symm ▸ hStore)
      hPermits with
    ⟨trail', theory', hUndo', hEngine', hEntries', hReplay'⟩
  rw [hRegular.sameConfig, hRegular.sameStore, hEntries] at hReplay
  rw [hRegular'.sameConfig, hRegular'.sameStore, hEntries',
    hAbreast.trail] at hReplay'
  have hTrail := (tops_of_replay hUnits hFull hReplay hReplay').1
  refine ⟨hUndo, hUndo', ?_⟩
  have hAfter := hAbreast.reachable.after hNamed hPermits'
  have hAfter' := hAbreast.reachable'.after hNamed hPermits
  simp only [Engine.after, hEngine, hEngine'] at hAfter hAfter' ⊢
  refine ⟨⟨hAfter, hAfter', hTrail, ?_, rfl⟩, ?_⟩
  · simp only [hAbreast.state]
  · rcases hAbreast.coherent with hStuck | hCoherent
    · exact .inl (by simp [hStuck, stateAfterUndo])
    · exact .inr hCoherent

/- Engines that were driven alike are abreast. -/
theorem Twins.abreast
    (hNamed : Store.ofNamed declared named = .ok store)
    (hUnits : plain.strategy = .unitPropagation)
    (hFull : full.strategy.usesElimination = true)
    (hTwins : Twins store plain full u g) :
    Abreast store plain full u g := by
  induction hTwins with
  | start hNew hNew' host hLevel hPermits hWithheld =>
      rcases (Aligned.new hNew hNew').start hNamed hUnits hFull hLevel
        hPermits hWithheld with ⟨_, _, _, hAbreast⟩
      exact hAbreast
  | propagate hBefore host l hPermits hWithheld ih =>
      rcases ih.propagate hNamed hUnits hFull hPermits hWithheld with
        ⟨_, _, _, hAbreast⟩
      exact hAbreast
  | undo hBefore level hPermits ih =>
      exact (ih.undo hNamed hUnits hFull hPermits).2.2

/-
  While it is withheld, elimination adds nothing. Engines with
  unit propagation and with elimination that are driven by the
  same calls of the same hosts give the same answers, with the
  same literals and reasons in the same order, and they have
  the same trails and states.
-/
theorem withheld_elimination_adds_nothing
    (hNamed : Store.ofNamed declared named = .ok store)
    (hUnits : plain.strategy = .unitPropagation)
    (hFull : full.strategy.usesElimination = true) :
    (∃ u g, Engine.ofStore store plain = .ok u ∧
      Engine.ofStore store full = .ok g ∧
      u.trail = g.trail ∧ u.state = g.state ∧
      ∀ host, host.level = 0 →
        g.Permits (.initialPropagation host) →
        (g.after (.initialPropagation host)).Withheld →
          ∃ verdict,
            (u.initialPropagation host).outcome = .ok verdict ∧
            (g.initialPropagation host).outcome = .ok verdict) ∧
    ∀ u g, Twins store plain full u g →
      u.trail = g.trail ∧ u.state = g.state ∧
      (∀ host l, g.Permits (.propagate host l) →
        (g.after (.propagate host l)).Withheld →
          ∃ verdict, (u.propagate host l).outcome = .ok verdict ∧
            (g.propagate host l).outcome = .ok verdict) ∧
      ∀ level, g.Permits (.undo level) →
        (u.undo level).outcome = .ok () ∧
          (g.undo level).outcome = .ok () := by
  have hStore := Store.wellFormed_of_ofNamed hNamed
  constructor
  · rcases exists_engine hStore plain with ⟨u, hNew⟩
    rcases exists_engine hStore full with ⟨g, hNew'⟩
    have hAligned := Aligned.new hNew hNew'
    refine ⟨u, g, hNew, hNew', hAligned.trail.symm,
      hAligned.state.symm, ?_⟩
    intro host hLevel hPermits hWithheld
    rcases hAligned.start hNamed hUnits hFull hLevel hPermits hWithheld
      with ⟨verdict, hCall, hCall', _⟩
    exact ⟨verdict, hCall, hCall'⟩
  · intro u g hTwins
    have hAbreast := hTwins.abreast hNamed hUnits hFull
    refine ⟨hAbreast.trail.symm, hAbreast.state.symm, ?_, ?_⟩
    · intro host l hPermits hWithheld
      rcases hAbreast.propagate hNamed hUnits hFull hPermits hWithheld
        with ⟨verdict, hCall, hCall', _⟩
      exact ⟨verdict, hCall, hCall'⟩
    · intro level hPermits
      rcases hAbreast.undo hNamed hUnits hFull hPermits with
        ⟨hUndo, hUndo', _⟩
      exact ⟨hUndo, hUndo'⟩

/-
  With the highest cutoff, elimination runs only when all
  variables have values. The constraints say that `l_0` is
  true and `l_1` is false. The host decides that `l_1` is true
  all the same, and both engines show the same conflict.
-/
theorem withheld_elimination_adds_nothing_at_the_end :
    ∃ store u g,
      Store.ofNamed [⟨0, true⟩, ⟨1, true⟩]
          [(7, ⟨[⟨0, true⟩, ⟨1, true⟩], .odd⟩),
            (9, ⟨[⟨0, true⟩], .odd⟩)] = .ok store ∧
        Twins store ⟨.unitPropagation, ⟨1.0⟩, false⟩
          ⟨.gjeReasoned, ⟨1.0⟩, false⟩ u g ∧
        (Cutoff.mk 1.0).admits 2 store.numColumns = true ∧
        (u.propagate ⟨2, 1, fun _ => some true⟩ ⟨1, true⟩).outcome =
          .ok (.conflict [⟨0, true⟩, ⟨1, true⟩]) ∧
        (g.propagate ⟨2, 1, fun _ => some true⟩ ⟨1, true⟩).outcome =
          .ok (.conflict [⟨0, true⟩, ⟨1, true⟩]) := by
  have hRun :
      (Store.ofNamed [⟨0, true⟩, ⟨1, true⟩]
          [(7, ⟨[⟨0, true⟩, ⟨1, true⟩], .odd⟩),
            (9, ⟨[⟨0, true⟩], .odd⟩)]).toOption.any
        (fun store =>
          (Engine.ofStore store
            ⟨.gjeReasoned, ⟨1.0⟩, false⟩).toOption.any
          fun (g : Engine) =>
            let f := g.after (.initialPropagation ⟨2, 0, fun _ => none⟩)
            let e := f.after (.propagate
              ⟨2, 0, fun v => if v = 0 then some true else none⟩
              ⟨0, true⟩)
            let d := e.after
              (.propagate ⟨2, 1, fun _ => some true⟩ ⟨1, true⟩)
            decide ((Cutoff.mk 1.0).admits 2 store.numColumns = true ∧
              (g.store.numVariables = 2 ∧ g.trail.entries = [] ∧
                g.state = .ready) ∧
              f.context.eliminate = false ∧
              (f.store.numVariables = 2 ∧ f.trail.entries = [] ∧
                f.state = .ready) ∧
              e.context.eliminate = false ∧
              (e.store.numVariables = 2 ∧
                e.trail.entries = [⟨⟨0, true⟩, 0⟩] ∧
                e.state = .ready) ∧
              store.numVariables = 2 ∧ d.store = store ∧
              d.trail.entries = [⟨⟨1, true⟩, 1⟩, ⟨⟨0, true⟩, 0⟩]) &&
            (e.propagate ⟨2, 1, fun _ => some true⟩
              ⟨1, true⟩).outcome.toOption.any fun verdict =>
                decide (verdict =
                  .conflict [⟨0, true⟩, ⟨1, true⟩])) = true := by
    decide +kernel
  rcases exists_ok_of_any hRun with ⟨store, hStore, hRest⟩
  rcases exists_ok_of_any hRest with ⟨g, hFull, hCheck⟩
  simp only [Bool.and_eq_true, decide_eq_true_eq] at hCheck
  rcases hCheck with
    ⟨⟨hAdmits, hG, hBelow, hF, hLow, hE, hSize, hSame, hTrail⟩, hCall⟩
  rcases exists_ok_of_any hCall with ⟨_, hOutcome, hVerdict⟩
  rcases of_decide_eq_true hVerdict with rfl
  have hWell := Store.wellFormed_of_ofNamed hStore
  rcases exists_engine hWell ⟨.unitPropagation, ⟨1.0⟩, false⟩ with
    ⟨u, hUnits⟩
  have hPermits : ∀ (k : Engine) (host : Host) (l : Literal)
      (known : List TrailEntry),
      k.store.numVariables = 2 ∧ k.trail.entries = known ∧
          k.state = .ready →
        host.size = 2 → host.isTrue l = .ok true →
        (∀ entry ∈ known, host.isTrue entry.literal = .ok true ∧
          entry.level ≤ host.level) →
        k.Permits (.propagate host l) := by
    rintro k host l known ⟨hVariables, rfl, hReady⟩ hHost hTrue hKnown
    refine ⟨⟨Nat.le_of_eq (hVariables.trans hHost.symm),
      fun entry hMem => (hKnown entry hMem).1⟩, hReady, hTrue, ?_⟩
    unfold Trail.level
    split
    · exact Nat.zero_le _
    · rename_i entry entries hEntries
      refine (hKnown entry ?_).2
      rw [hEntries]
      exact List.mem_cons_self
  have hStart : g.Permits
      (.initialPropagation ⟨2, 0, fun _ => none⟩) := by
    refine ⟨⟨Nat.le_of_eq hG.1, ?_⟩, ?_, hG.2.2⟩
    · rw [hG.2.1]
      exact List.forall_mem_nil _
    · rw [Trail.isEmpty, hG.2.1]
      rfl
  have hTwins := (Twins.start hUnits hFull _ rfl hStart
    (.inl hBelow)).propagate _ ⟨0, true⟩
      (hPermits _ _ _ [] hF rfl rfl (List.forall_mem_nil _))
      (.inl hLow)
  refine ⟨store, _, _, hStore, hTwins, hAdmits, ?_, hOutcome⟩
  have hLast := hPermits _ ⟨2, 1, fun _ => some true⟩ ⟨1, true⟩ _ hE
    rfl rfl (List.forall_mem_singleton.mpr ⟨rfl, Nat.zero_le _⟩)
  have hEnd : ∀ v, store.isRelevant v = true →
      v ∈ [(⟨⟨1, true⟩, 1⟩ : TrailEntry), ⟨⟨0, true⟩, 0⟩].map
        fun entry => entry.literal.index := by
    intro v hRelevant
    have hLt := hWell.lt_of_isRelevant hRelevant
    simp only [List.map_cons, List.map_nil, List.mem_cons,
      List.not_mem_nil, or_false]
    omega
  rw [← hSame, ← hTrail] at hEnd
  rcases ((withheld_elimination_adds_nothing hStore rfl rfl).2 _ _
      hTwins).2.2.1 _ _ hLast (.inr hEnd) with
    ⟨verdict, hUnit, hOther⟩
  cases hOutcome.symm.trans hOther
  exact hUnit

end Steps

end Engine

end ParitySolver
