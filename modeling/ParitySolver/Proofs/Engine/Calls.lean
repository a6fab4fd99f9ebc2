import ParitySolver.Proofs.Engine.Replay

/-
  What the calls to an engine do when they succeed, and the
  engines that calls can lead to.

  Key definitions include:
    * `Engine.Concludes`
    * `Engine.Reachable`
    * `Engine.Regular`

  Main declarations:
    * `Engine.initialPropagation_eq_ok`
    * `Engine.propagate_eq_ok`
    * `Engine.Reachable.regular`
-/

namespace ParitySolver

namespace Engine

------------------------------------------------------------
-- Answers
------------------------------------------------------------

/-
  The verdict on findings is that on their events. If these
  show nothing, it is the verdict on what the theory sees on
  a second look.
-/
def Concludes
    (e : Engine)
    (host : Host)
    (found : Findings)
    (verdict : Verdict) : Prop :=
  (verdict ≠ .nothing ∧
    ∃ notes, resolve e.store e.trail host found.events =
      .ok (verdict, notes)) ∨
  (∃ more notes moreNotes,
    resolve e.store e.trail host found.events =
        .ok (.nothing, notes) ∧
      e.theory.atFixpoint e.context = .ok more ∧
      resolve e.store e.trail host more.events =
        .ok (verdict, moreNotes))

theorem conclude_eq_ok
    {e : Engine}
    {host : Host}
    {found : Findings}
    {notes : List Note}
    {verdict : Verdict}
    (hConclude : e.conclude host found = (notes, .ok verdict)) :
    ∃ notes, resolve e.store e.trail host found.events =
      .ok (verdict, notes) := by
  unfold conclude at hConclude
  cases hResolve : resolve e.store e.trail host found.events with
  | error fault =>
      rw [hResolve] at hConclude
      cases hConclude
  | ok answer =>
      rcases answer with ⟨verdict', notes'⟩
      rw [hResolve] at hConclude
      cases hConclude
      exact ⟨notes', rfl⟩

theorem concludes_of_concludeTwice
    {e : Engine}
    {host : Host}
    {found : Findings}
    {verdict : Verdict}
    (hConclude : (e.concludeTwice host found).2 = .ok verdict) :
    e.Concludes host found verdict := by
  unfold concludeTwice at hConclude
  rcases hFirst : e.conclude host found with ⟨notes, outcome⟩
  rw [hFirst] at hConclude
  cases outcome with
  | error fault => cases hConclude
  | ok first =>
      rcases conclude_eq_ok hFirst with ⟨notes', hResolve⟩
      cases first with
      | forced ps =>
          cases hConclude
          exact .inl ⟨nofun, notes', hResolve⟩
      | conflict reason =>
          cases hConclude
          exact .inl ⟨nofun, notes', hResolve⟩
      | nothing =>
          simp only at hConclude
          cases hMore : e.theory.atFixpoint e.context with
          | error fault =>
              rw [hMore] at hConclude
              cases hConclude
          | ok more =>
              rw [hMore] at hConclude
              rcases hSecond : e.conclude host more with
                ⟨moreNotes, outcome⟩
              simp only [hSecond] at hConclude
              subst hConclude
              rcases conclude_eq_ok hSecond with ⟨last, hLast⟩
              exact .inr ⟨more, notes', last, hResolve, hMore, hLast⟩

theorem answer_eq_ok
    {e : Engine}
    {host : Host}
    {before : List Note}
    {found : Findings}
    {verdict : Verdict}
    (hAnswer : (e.answer host before found).outcome = .ok verdict) :
    e.Concludes host found verdict ∧
      (e.answer host before found).engine =
        e.noteConflict host.level (.ok verdict) := by
  have hOutcome : (e.concludeTwice host found).2 = .ok verdict :=
    hAnswer
  refine ⟨concludes_of_concludeTwice hOutcome, ?_⟩
  change e.noteConflict host.level (e.concludeTwice host found).2 = _
  rw [hOutcome]

/- The state of an engine after a verdict at a level. -/
def stateAfter
    (state : EngineState)
    (level : Nat) : Verdict → EngineState
  | .conflict _ => .conflicted level
  | _ => state

theorem noteConflict_ok
    (e : Engine)
    (level : Nat)
    (verdict : Verdict) :
    e.noteConflict level (.ok verdict) =
      { e with state := stateAfter e.state level verdict } := by
  cases verdict <;> rfl

------------------------------------------------------------
-- Calls
------------------------------------------------------------

/- What the first question does. -/
theorem initialPropagation_eq_ok
    {e : Engine}
    {host : Host}
    {verdict : Verdict}
    (hCall : (e.initialPropagation host).outcome = .ok verdict) :
    e.trail.entries = [] ∧ e.state = .ready ∧
      (∃ found, e.theory.begin e.context = .ok found ∧
        e.Concludes host found verdict) ∧
      (e.initialPropagation host).engine =
        { e with
          state := stateAfter .ready host.level verdict
          highestLevel := max e.highestLevel host.level } := by
  unfold initialPropagation at hCall ⊢
  by_cases hRoot : (e.trail.isEmpty && decide (e.state = .ready)) = true
  · rw [if_pos hRoot] at hCall ⊢
    simp only [Bool.and_eq_true, decide_eq_true_eq] at hRoot
    have hEmpty : e.trail.entries = [] :=
      List.isEmpty_iff.mp hRoot.1
    refine ⟨hEmpty, hRoot.2, ?_⟩
    simp only at hCall ⊢
    have hContext : (e.reach host.level).context = e.context := rfl
    have hTheory : (e.reach host.level).theory = e.theory := rfl
    rw [hContext, hTheory] at hCall ⊢
    cases hBegin : e.theory.begin e.context with
    | error fault =>
        rw [hBegin] at hCall
        cases hCall
    | ok found =>
        rw [hBegin] at hCall
        rcases answer_eq_ok hCall with ⟨hConcludes, hEngine⟩
        refine ⟨⟨found, rfl, hConcludes⟩, ?_⟩
        refine hEngine.trans ?_
        rw [noteConflict_ok]
        simp only [reach, hRoot.2]
  · rw [if_neg hRoot] at hCall
    cases hCall

/- The call that tells of a literal changes nothing but the level. -/
structure Idles
    (e : Engine)
    (host : Host)
    (l : Literal)
    (verdict : Verdict) : Prop where
  nothing : verdict = .nothing
  known :
    e.store.isRelevant l.index = false ∨
      e.trail.value l.index = some l.value
  engine :
    (e.propagate host l).engine =
      { e with highestLevel := max e.highestLevel host.level }

/- The call that tells of a literal takes the literal in. -/
structure Absorbs
    (e : Engine)
    (host : Host)
    (l : Literal)
    (verdict : Verdict)
    (trail : Trail)
    (theory : Theory)
    (found : Findings) : Prop where
  relevant : e.store.isRelevant l.index = true
  push : e.trail.push l host.level = .ok trail
  assign :
    e.theory.assign (contextOf e.config e.store trail) =
      .ok (theory, found)
  concludes :
    { e with
      trail, theory
      highestLevel := max e.highestLevel host.level }.Concludes
        host found verdict
  engine :
    (e.propagate host l).engine =
      { e with
        trail, theory
        state := stateAfter .ready host.level verdict
        highestLevel := max e.highestLevel host.level }

theorem requireInStep_eq_ok
    {e : Engine}
    {host : Host}
    {l : Literal}
    (hStep : e.requireInStep host l = .ok ()) :
    e.state = .ready ∧ host.isTrue l = .ok true ∧
      e.trail.level ≤ host.level := by
  simp only [requireInStep, bind_eq_ok, require_eq_ok, exists_const,
    decide_eq_true_eq] at hStep
  rcases hStep with ⟨hReady, held, hHeld, hTrue, hLevel⟩
  rw [hTrue] at hHeld
  exact ⟨hReady, hHeld, hLevel⟩

theorem takeIn_eq_ok
    {e : Engine}
    {host : Host}
    {l : Literal}
    {verdict : Verdict}
    (hCall : (e.takeIn host l).outcome = .ok verdict) :
    ∃ trail theory found,
      e.trail.push l host.level = .ok trail ∧
        e.theory.assign (contextOf e.config e.store trail) =
          .ok (theory, found) ∧
        { e with trail, theory }.Concludes host found verdict ∧
        (e.takeIn host l).engine =
          { e with
            trail, theory
            state := stateAfter e.state host.level verdict } := by
  unfold takeIn at hCall ⊢
  cases hPush : e.trail.push l host.level with
  | error fault =>
      rw [hPush] at hCall
      cases hCall
  | ok trail =>
      rw [hPush] at hCall
      have hContext :
          context { e with trail } = contextOf e.config e.store trail :=
        rfl
      simp only [hContext] at hCall ⊢
      cases hAssign :
          e.theory.assign (contextOf e.config e.store trail) with
      | error fault =>
          rw [hAssign] at hCall
          cases hCall
      | ok answer =>
          rcases answer with ⟨theory, found⟩
          rw [hAssign] at hCall
          rcases answer_eq_ok hCall with ⟨hConcludes, hEngine⟩
          refine ⟨trail, theory, found, rfl, hAssign, hConcludes, ?_⟩
          simp only [hEngine, noteConflict_ok]

/- What telling the engine of a literal does. -/
theorem propagate_eq_ok
    {e : Engine}
    {host : Host}
    {l : Literal}
    {verdict : Verdict}
    (hCall : (e.propagate host l).outcome = .ok verdict) :
    e.state = .ready ∧ host.isTrue l = .ok true ∧
      e.trail.level ≤ host.level ∧
      (e.Idles host l verdict ∨
        ∃ trail theory found,
          e.Absorbs host l verdict trail theory found) := by
  cases hStep : e.requireInStep host l with
  | error fault =>
      unfold propagate at hCall
      rw [hStep] at hCall
      cases hCall
  | ok _ =>
      rcases requireInStep_eq_ok hStep with ⟨hReady, hHeld, hLevel⟩
      refine ⟨hReady, hHeld, hLevel, ?_⟩
      cases hRelevant : e.store.isRelevant l.index with
      | false =>
          have hIdle :
              e.propagate host l =
                ⟨e.reach host.level, [], .ok .nothing⟩ := by
            simp only [propagate, hStep, reach, hRelevant,
              Bool.false_eq_true, if_false]
          rw [hIdle] at hCall
          cases hCall
          exact .inl ⟨rfl, .inl hRelevant, by rw [hIdle]; rfl⟩
      | true =>
          have hAsk := propagate.eq_def e host l
          rw [hStep] at hAsk
          replace hAsk := hAsk.trans (if_pos hRelevant)
          cases hRead : (e.reach host.level).trail.read l.index with
          | error fault =>
              rw [hAsk, hRead] at hCall
              cases hCall
          | ok value? =>
              rw [hRead] at hAsk
              cases value? with
              | none =>
                  simp only at hAsk
                  rw [hAsk] at hCall
                  rcases takeIn_eq_ok hCall with
                    ⟨trail, theory, found, hPush, hAssign, hConcludes,
                      hEngine⟩
                  refine .inr ⟨trail, theory, found,
                    ⟨hRelevant, hPush, hAssign, hConcludes, ?_⟩⟩
                  rw [hAsk, hEngine]
                  simp only [reach, hReady]
              | some b =>
                  simp only at hAsk
                  by_cases hEq : b = l.value
                  · rw [if_pos hEq] at hAsk
                    rw [hAsk] at hCall
                    cases hCall
                    refine .inl ⟨rfl, .inr ?_, by rw [hAsk]; rfl⟩
                    exact (Trail.value_of_read hRead).trans
                      (congrArg some hEq)
                  · rw [if_neg hEq] at hAsk
                    rw [hAsk] at hCall
                    cases hCall

theorem undo_eq_ok
    {e : Engine}
    {level : Nat}
    (hCall : (e.undo level).outcome = .ok ()) :
    level ≤ e.highestLevel := by
  unfold undo at hCall
  by_cases hLevel : level ≤ e.highestLevel
  · exact hLevel
  · rw [if_neg hLevel] at hCall
    cases hCall

------------------------------------------------------------
-- Reachable engines
------------------------------------------------------------

/- The engines that successful calls can lead to. -/
inductive Reachable
    (store : Store)
    (config : Config) : Engine → Prop where
  /- A new engine. -/
  | new {e : Engine}
      (hNew : Engine.ofStore store config = .ok e) :
      Reachable store config e
  /- The first question. -/
  | initialPropagation {e : Engine} {verdict : Verdict}
      (hBefore : Reachable store config e)
      (host : Host)
      (hCall : (e.initialPropagation host).outcome = .ok verdict) :
      Reachable store config (e.initialPropagation host).engine
  /- Telling of a literal. -/
  | propagate {e : Engine} {verdict : Verdict}
      (hBefore : Reachable store config e)
      (host : Host)
      (l : Literal)
      (hCall : (e.propagate host l).outcome = .ok verdict) :
      Reachable store config (e.propagate host l).engine
  /- Going back. -/
  | undo {e : Engine}
      (hBefore : Reachable store config e)
      (level : Nat)
      (hCall : (e.undo level).outcome = .ok ()) :
      Reachable store config (e.undo level).engine

/- What is true of an engine between calls. -/
structure Regular
    (store : Store)
    (config : Config)
    (e : Engine) : Prop where
  sameStore : e.store = store
  sameConfig : e.config = config
  faithful : e.Faithful
  level_le : ∀ entry ∈ e.trail.entries, entry.level ≤ e.highestLevel

variable {store : Store} {config : Config} {e : Engine}

theorem Regular.consistent
    (hRegular : e.Regular store config)
    (hStore : store.WellFormed) :
    Consistent config store e.trail e.theory := by
  have hConsistent :=
    hRegular.faithful.consistent (hRegular.sameStore ▸ hStore)
  rw [hRegular.sameStore, hRegular.sameConfig] at hConsistent
  exact hConsistent

theorem regular_new
    (hNew : Engine.ofStore store config = .ok e) :
    e.Regular store config := by
  rcases faithful_ofStore hNew with
    ⟨hFaithful, hConfig, hSame, hTrail, _, _⟩
  refine ⟨hSame, hConfig, hFaithful, ?_⟩
  intro entry hMem
  rw [hTrail] at hMem
  cases hMem

theorem Regular.initialPropagation
    (hRegular : e.Regular store config)
    {host : Host}
    {verdict : Verdict}
    (hCall : (e.initialPropagation host).outcome = .ok verdict) :
    (e.initialPropagation host).engine.Regular store config := by
  rcases initialPropagation_eq_ok hCall with ⟨_, _, _, hEngine⟩
  rw [hEngine]
  refine ⟨hRegular.sameStore, hRegular.sameConfig,
    hRegular.faithful, ?_⟩
  intro entry hMem
  exact Nat.le_trans (hRegular.level_le entry hMem)
    (Nat.le_max_left _ _)

theorem Regular.propagate
    (hRegular : e.Regular store config)
    {host : Host}
    {l : Literal}
    {verdict : Verdict}
    (hCall : (e.propagate host l).outcome = .ok verdict) :
    (e.propagate host l).engine.Regular store config := by
  have hOld : ∀ entry ∈ e.trail.entries,
      entry.level ≤ max e.highestLevel host.level := by
    intro entry hMem
    exact Nat.le_trans (hRegular.level_le entry hMem)
      (Nat.le_max_left _ _)
  rcases propagate_eq_ok hCall with
    ⟨_, _, _, hIdles | ⟨trail, theory, found, hAbsorbs⟩⟩
  · rw [hIdles.engine]
    exact ⟨hRegular.sameStore, hRegular.sameConfig,
      hRegular.faithful, hOld⟩
  · rw [hAbsorbs.engine]
    refine ⟨hRegular.sameStore, hRegular.sameConfig,
      hRegular.faithful.takeIn hAbsorbs.push hAbsorbs.assign, ?_⟩
    intro entry hMem
    simp only [Trail.entries_of_push hAbsorbs.push] at hMem
    rcases List.mem_cons.mp hMem with rfl | hIn
    · exact Nat.le_max_right _ _
    · exact hOld entry hIn

/- Going back drops the entries above the level, and no others. -/
theorem mem_entriesUpTo
    {level : Nat}
    {entries : List TrailEntry}
    (hLevels : entries.Pairwise fun newer older =>
      older.level ≤ newer.level)
    {entry : TrailEntry} :
    entry ∈ entriesUpTo level entries ↔
      entry ∈ entries ∧ entry.level ≤ level := by
  induction entries with
  | nil => simp [entriesUpTo]
  | cons newest older ih =>
      rw [List.pairwise_cons] at hLevels
      by_cases hAbove : level < newest.level
      · rw [entriesUpTo, List.dropWhile_cons_of_pos (by simpa using hAbove)]
        refine (ih hLevels.2).trans ?_
        rw [List.mem_cons]
        constructor
        · rintro ⟨hMem, hLe⟩
          exact ⟨.inr hMem, hLe⟩
        · rintro ⟨rfl | hMem, hLe⟩
          · omega
          · exact ⟨hMem, hLe⟩
      · rw [entriesUpTo, List.dropWhile_cons_of_neg (by simpa using hAbove)]
        constructor
        · intro hMem
          refine ⟨hMem, ?_⟩
          rcases List.mem_cons.mp hMem with rfl | hOlder
          · omega
          · have hLe := hLevels.1 entry hOlder
            omega
        · exact And.left

theorem entriesUpTo_of_level_le
    {level : Nat}
    {entries : List TrailEntry}
    (hAll : ∀ entry ∈ entries, entry.level ≤ level) :
    entriesUpTo level entries = entries := by
  cases entries with
  | nil => rfl
  | cons newest older =>
      have hLe := hAll newest List.mem_cons_self
      exact List.dropWhile_cons_of_neg (by simpa using hLe)

/- Going back in two steps is going back in one. -/
theorem entriesUpTo_entriesUpTo
    {level target : Nat}
    (hLe : level ≤ target)
    (entries : List TrailEntry) :
    entriesUpTo level (entriesUpTo target entries) =
      entriesUpTo level entries := by
  induction entries with
  | nil => rfl
  | cons newest older ih =>
      by_cases hAbove : target < newest.level
      · have hBoth : level < newest.level := by omega
        have hTarget :
            entriesUpTo target (newest :: older) =
              entriesUpTo target older :=
          List.dropWhile_cons_of_pos (by simpa using hAbove)
        have hLevel :
            entriesUpTo level (newest :: older) =
              entriesUpTo level older :=
          List.dropWhile_cons_of_pos (by simpa using hBoth)
        rw [hTarget, hLevel, ih]
      · have hTarget :
            entriesUpTo target (newest :: older) = newest :: older :=
          List.dropWhile_cons_of_neg (by simpa using hAbove)
        rw [hTarget]

theorem Regular.undo
    (hRegular : e.Regular store config)
    (hStore : store.WellFormed)
    {level : Nat}
    (hCall : (e.undo level).outcome = .ok ()) :
    (e.undo level).engine.Regular store config := by
  have hLevels := (hRegular.consistent hStore).orderly.levels
  rcases hRegular.faithful.undo (hRegular.sameStore ▸ hStore)
    (undo_eq_ok hCall) with
    ⟨trail, theory, _, hEngine, hEntries, hReplay⟩
  rw [hEngine]
  refine ⟨hRegular.sameStore, hRegular.sameConfig, hReplay, ?_⟩
  intro entry hMem
  rw [hEntries] at hMem
  exact ((mem_entriesUpTo hLevels).mp hMem).2

theorem Reachable.regular
    (hStore : store.WellFormed)
    (hReachable : Reachable store config e) :
    e.Regular store config := by
  induction hReachable with
  | new hNew => exact regular_new hNew
  | initialPropagation _ host hCall ih =>
      exact ih.initialPropagation hCall
  | propagate _ host l hCall ih => exact ih.propagate hCall
  | undo _ level hCall ih => exact ih.undo hStore hCall

end Engine

end ParitySolver
