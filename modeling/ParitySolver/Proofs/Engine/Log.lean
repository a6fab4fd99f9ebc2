import ParitySolver.Proofs.Engine.Calls

/-
  What an engine keeps in its books. Its log lists the calls
  that succeeded: the answers, each with the level at which
  the host was, and the returns to a level. Whatever the hosts
  were, the log tells whether a conflict stands, and at which
  level. The table of the trail has what its entries say, the
  levels of the entries ascend up to the highest level, and a
  return leaves the entries up to its level.

  Key definitions include:
    * `Engine.Record`
    * `Engine.Logged`
    * `Engine.StandingConflict`

  Main declarations:
    * `Engine.standingConflict_cons`
    * `Engine.Logged.booked`
    * `Engine.books_are_in_order`
-/

namespace ParitySolver

/- The table has a value exactly where the trail does. -/
theorem Trail.values_eq_some_iff
    {t : Trail}
    {v : Nat}
    {b : Bool} :
    t.values[v]? = some (some b) ↔ t.value v = some b := by
  rw [Trail.value, Array.getD_eq_getD_getElem?]
  cases t.values[v]? with
  | none => simp
  | some value? => simp

namespace Engine

------------------------------------------------------------
-- Logs
------------------------------------------------------------

/- A call that succeeded. -/
inductive Record where
  /- The engine gave a verdict, with the host at a level. -/
  | answered (level : Nat) (verdict : Verdict)
  /- The engine went back to a level. -/
  | wentBack (level : Nat)

/-
  The engines that successful calls lead to, with the records
  of the calls, newest first.
-/
inductive Logged
    (store : Store)
    (config : Config) : List Record → Engine → Prop where
  /- A new engine. -/
  | new {e : Engine}
      (hNew : Engine.ofStore store config = .ok e) :
      Logged store config [] e
  /- The first question. -/
  | initialPropagation {log : List Record} {e : Engine}
      {verdict : Verdict}
      (hBefore : Logged store config log e)
      (host : Host)
      (hCall : (e.initialPropagation host).outcome = .ok verdict) :
      Logged store config (.answered host.level verdict :: log)
        (e.initialPropagation host).engine
  /- Telling of a literal. -/
  | propagate {log : List Record} {e : Engine} {verdict : Verdict}
      (hBefore : Logged store config log e)
      (host : Host)
      (l : Literal)
      (hCall : (e.propagate host l).outcome = .ok verdict) :
      Logged store config (.answered host.level verdict :: log)
        (e.propagate host l).engine
  /- Going back. -/
  | undo {log : List Record} {e : Engine}
      (hBefore : Logged store config log e)
      (level : Nat)
      (hCall : (e.undo level).outcome = .ok ()) :
      Logged store config (.wentBack level :: log)
        (e.undo level).engine

variable {store : Store} {config : Config} {e : Engine}
variable {log : List Record}

theorem Logged.reachable
    (hLogged : Logged store config log e) :
    Reachable store config e := by
  induction hLogged with
  | new hNew => exact .new hNew
  | initialPropagation _ host hCall ih =>
      exact ih.initialPropagation host hCall
  | propagate _ host l hCall ih => exact ih.propagate host l hCall
  | undo _ level hCall ih => exact ih.undo level hCall

------------------------------------------------------------
-- Standing conflicts
------------------------------------------------------------

/-
  The last conflict was found at the level, and no later
  return went below it.
-/
def StandingConflict
    (log : List Record)
    (level : Nat) : Prop :=
  ∃ later earlier reason,
    log = later ++ .answered level (.conflict reason) :: earlier ∧
      (∀ level' reason', .answered level' (.conflict reason') ∉ later) ∧
      ∀ target, .wentBack target ∈ later → ¬ target < level

theorem not_standingConflict_nil
    (level : Nat) :
    ¬ StandingConflict [] level := by
  rintro ⟨later, earlier, reason, hLog, _⟩
  simp at hLog

/- A new conflict is the one that stands. -/
theorem standingConflict_cons_conflict
    (level level' : Nat)
    (reason : List Literal) :
    StandingConflict (.answered level (.conflict reason) :: log) level' ↔
      level' = level := by
  constructor
  · rintro ⟨later, earlier, reason', hLog, hLast, _⟩
    cases later with
    | nil =>
        cases hLog
        rfl
    | cons first later =>
        cases hLog
        exact absurd List.mem_cons_self (hLast level reason)
  · rintro rfl
    exact ⟨[], log, reason, rfl, nofun, nofun⟩

/-
  Other records make no conflict, and only a return below its
  level ends one.
-/
theorem standingConflict_cons
    {record : Record}
    (hQuiet : ∀ level reason,
      record ≠ .answered level (.conflict reason))
    (level : Nat) :
    StandingConflict (record :: log) level ↔
      StandingConflict log level ∧
        ∀ target, record = .wentBack target → ¬ target < level := by
  constructor
  · rintro ⟨later, earlier, reason, hLog, hLast, hAbove⟩
    cases later with
    | nil =>
        cases hLog
        exact absurd rfl (hQuiet level reason)
    | cons first later =>
        cases hLog
        refine ⟨⟨later, earlier, reason, rfl, ?_, ?_⟩, ?_⟩
        · exact fun k why hMem =>
            hLast k why (List.mem_cons_of_mem _ hMem)
        · exact fun k hMem => hAbove k (List.mem_cons_of_mem _ hMem)
        · rintro target rfl
          exact hAbove target List.mem_cons_self
  · rintro ⟨⟨later, earlier, reason, rfl, hLast, hAbove⟩, hHere⟩
    refine ⟨record :: later, earlier, reason, rfl, ?_, ?_⟩
    · intro k why hMem
      rcases List.mem_cons.mp hMem with hFirst | hLater
      · exact hQuiet k why hFirst.symm
      · exact hLast k why hLater
    · intro k hMem
      rcases List.mem_cons.mp hMem with hFirst | hLater
      · exact hHere k hFirst.symm
      · exact hAbove k hLater

------------------------------------------------------------
-- The state of an engine and its log
------------------------------------------------------------

/- The state tells of the conflict that stands in the log. -/
structure Booked
    (log : List Record)
    (e : Engine) : Prop where
  conflicted_iff :
    ∀ level, e.state = .conflicted level ↔ StandingConflict log level
  level_le :
    ∀ level, e.state = .conflicted level → level ≤ e.highestLevel

/- A ready engine answers, and its state tells of a conflict. -/
theorem Booked.answer
    (hBooked : Booked log e)
    (hReady : e.state = .ready)
    (host : Host)
    (verdict : Verdict)
    {e' : Engine}
    (hState : e'.state = stateAfter .ready host.level verdict)
    (hHighest : e'.highestLevel = max e.highestLevel host.level) :
    Booked (.answered host.level verdict :: log) e' := by
  have hNone : ∀ level, ¬ StandingConflict log level := by
    intro level hStanding
    have hConflict := (hBooked.conflicted_iff level).mpr hStanding
    rw [hReady] at hConflict
    cases hConflict
  have hStill : (∀ reason, verdict ≠ .conflict reason) →
      stateAfter .ready host.level verdict = .ready →
        Booked (.answered host.level verdict :: log) e' := by
    intro hQuiet hAfter
    rw [hAfter] at hState
    constructor
    · intro level
      have hRecord : ∀ k reason,
          Record.answered host.level verdict ≠
            .answered k (.conflict reason) := by
        intro k reason hEq
        exact hQuiet reason (Record.answered.inj hEq).2
      rw [standingConflict_cons hRecord, hState]
      exact iff_of_false nofun fun hBoth => hNone level hBoth.1
    · intro level hConflict
      rw [hState] at hConflict
      cases hConflict
  cases verdict with
  | nothing => exact hStill nofun rfl
  | forced ps => exact hStill nofun rfl
  | conflict reason =>
      constructor
      · intro level
        rw [standingConflict_cons_conflict, hState, stateAfter,
          EngineState.conflicted.injEq, eq_comm]
      · intro level hConflict
        rw [hState, stateAfter, EngineState.conflicted.injEq]
          at hConflict
        rw [hHighest, ← hConflict]
        exact Nat.le_max_right _ _

theorem Booked.initialPropagation
    (hBooked : Booked log e)
    {host : Host}
    {verdict : Verdict}
    (hCall : (e.initialPropagation host).outcome = .ok verdict) :
    Booked (.answered host.level verdict :: log)
      (e.initialPropagation host).engine := by
  rcases initialPropagation_eq_ok hCall with ⟨_, hReady, _, hEngine⟩
  rw [hEngine]
  exact hBooked.answer hReady host verdict rfl rfl

theorem Booked.propagate
    (hBooked : Booked log e)
    {host : Host}
    {l : Literal}
    {verdict : Verdict}
    (hCall : (e.propagate host l).outcome = .ok verdict) :
    Booked (.answered host.level verdict :: log)
      (e.propagate host l).engine := by
  rcases propagate_eq_ok hCall with
    ⟨hReady, _, _, hIdles | ⟨trail, theory, found, hAbsorbs⟩⟩
  · rw [hIdles.engine, hIdles.nothing]
    exact hBooked.answer hReady host .nothing hReady rfl
  · rw [hAbsorbs.engine]
    exact hBooked.answer hReady host verdict rfl rfl

/- After a return the conflicts above its level are over. -/
theorem Booked.undo
    (hBooked : Booked log e)
    {target : Nat}
    {e' : Engine}
    (hState : e'.state = stateAfterUndo e.state target)
    (hHighest : e'.highestLevel = target) :
    Booked (.wentBack target :: log) e' := by
  have hLeft : ∀ level, e'.state = .conflicted level ↔
      e.state = .conflicted level ∧ ¬ target < level := by
    intro level
    rw [hState]
    cases e.state with
    | ready => exact iff_of_false nofun fun hBoth => nomatch hBoth.1
    | conflicted found =>
        simp only [stateAfterUndo, EngineState.conflicted.injEq]
        split
        next hBelow =>
          refine iff_of_false nofun ?_
          rintro ⟨rfl, hNot⟩
          exact hNot hBelow
        next hNot =>
          rw [EngineState.conflicted.injEq]
          constructor
          · rintro rfl
            exact ⟨rfl, hNot⟩
          · exact And.left
  constructor
  · intro level
    have hRecord : ∀ k reason, Record.wentBack target ≠
        .answered k (.conflict reason) :=
      nofun
    rw [hLeft, standingConflict_cons hRecord, hBooked.conflicted_iff]
    simp only [Record.wentBack.injEq, forall_eq']
  · intro level hConflict
    rw [hHighest]
    exact Nat.le_of_not_lt ((hLeft level).mp hConflict).2

/- The log tells the state, whatever was called. -/
theorem Logged.booked
    (hStore : store.WellFormed)
    (hLogged : Logged store config log e) :
    Booked log e := by
  induction hLogged with
  | new hNew =>
      rcases faithful_ofStore hNew with ⟨_, _, _, _, hReady, _⟩
      constructor
      · intro level
        rw [hReady]
        exact iff_of_false nofun (not_standingConflict_nil level)
      · intro level hConflict
        rw [hReady] at hConflict
        cases hConflict
  | initialPropagation _ host hCall ih =>
      exact ih.initialPropagation hCall
  | propagate _ host l hCall ih => exact ih.propagate hCall
  | undo hBefore target hCall ih =>
      have hRegular := hBefore.reachable.regular hStore
      rcases hRegular.faithful.undo (hRegular.sameStore ▸ hStore)
        (undo_eq_ok hCall) with ⟨trail, theory, _, hEngine, _⟩
      rw [hEngine]
      exact ih.undo rfl rfl

------------------------------------------------------------
-- Trails and returns
------------------------------------------------------------

/- As levels ascend, the entries up to a level come first. -/
theorem entriesUpTo_eq_filter
    {level : Nat}
    {entries : List TrailEntry}
    (hLevels : entries.Pairwise fun newer older =>
      older.level ≤ newer.level) :
    entriesUpTo level entries =
      entries.filter fun entry => decide (entry.level ≤ level) := by
  induction entries with
  | nil => rfl
  | cons newest older ih =>
      rw [List.pairwise_cons] at hLevels
      by_cases hAbove : level < newest.level
      · have hDrop :
            entriesUpTo level (newest :: older) =
              entriesUpTo level older :=
          List.dropWhile_cons_of_pos (by simpa using hAbove)
        rw [hDrop, List.filter_cons_of_neg (by simpa using hAbove)]
        exact ih hLevels.2
      · have hAll : ∀ entry ∈ newest :: older, entry.level ≤ level := by
          intro entry hMem
          rcases List.mem_cons.mp hMem with rfl | hOlder
          · omega
          · have hLe := hLevels.1 entry hOlder
            omega
        rw [entriesUpTo_of_level_le hAll, List.filter_eq_self.mpr]
        intro entry hMem
        exact decide_eq_true (hAll entry hMem)

/-
  The books of an engine are in order after any successful
  calls with any hosts. The first four facts are about its
  trail, and the next three about its state. An engine goes
  back to the levels up to its highest one, and what is left
  are the oldest entries, those up to the level.
-/
theorem books_are_in_order
    {declared : List Literal}
    {named : List (Nat × Constraint)}
    (hStore : Store.ofNamed declared named = .ok store)
    (hLogged : Logged store config log e) :
    (e.trail.entries.map fun entry => entry.literal.index).Nodup ∧
    (∀ v b, e.trail.values[v]? = some (some b) ↔
      ∃ entry ∈ e.trail.entries, entry.literal = ⟨v, b⟩) ∧
    (e.trail.entries.reverse.Pairwise fun older newer =>
      older.level ≤ newer.level) ∧
    (∀ entry ∈ e.trail.entries, entry.level ≤ e.highestLevel) ∧
    (∀ level, e.state = .conflicted level ↔
      StandingConflict log level) ∧
    (e.state = .ready ↔ ∀ level, ¬ StandingConflict log level) ∧
    (∀ level, StandingConflict log level → level ≤ e.highestLevel) ∧
    ∀ level,
      ((e.undo level).outcome = .ok () ↔ level ≤ e.highestLevel) ∧
      ((e.undo level).outcome = .ok () →
        (e.undo level).engine.trail.entries.reverse <+:
            e.trail.entries.reverse ∧
          (e.undo level).engine.trail.entries.reverse =
            e.trail.entries.reverse.filter
              (fun entry => decide (entry.level ≤ level)) ∧
          (e.undo level).engine.highestLevel = level) := by
  have hWell := Store.wellFormed_of_ofNamed hStore
  have hBooked := hLogged.booked hWell
  have hRegular := hLogged.reachable.regular hWell
  have hOrderly := (hRegular.consistent hWell).orderly
  refine ⟨hOrderly.distinct, ?_, ?_, hRegular.level_le,
    hBooked.conflicted_iff, ?_, ?_, ?_⟩
  · intro v b
    rw [Trail.values_eq_some_iff, hOrderly.value_iff]
  · exact List.pairwise_reverse.mpr hOrderly.levels
  · constructor
    · intro hReady level hStanding
      have hConflict := (hBooked.conflicted_iff level).mpr hStanding
      rw [hReady] at hConflict
      cases hConflict
    · intro hNone
      cases hState : e.state with
      | ready => rfl
      | conflicted level =>
          exact absurd ((hBooked.conflicted_iff level).mp hState)
            (hNone level)
  · intro level hStanding
    exact hBooked.level_le level
      ((hBooked.conflicted_iff level).mpr hStanding)
  · intro level
    have hHere : e.store.WellFormed := hRegular.sameStore ▸ hWell
    refine ⟨⟨undo_eq_ok, fun hLevel => ?_⟩, fun hCall => ?_⟩
    · rcases hRegular.faithful.undo hHere hLevel with
        ⟨_, _, hOutcome, _⟩
      exact hOutcome
    · rcases hRegular.faithful.undo hHere (undo_eq_ok hCall) with
        ⟨trail, theory, _, hEngine, hEntries, _⟩
      rw [hEngine]
      refine ⟨?_, ?_, rfl⟩
      · rw [List.reverse_prefix, hEntries]
        exact List.dropWhile_suffix _
      · rw [hEntries, entriesUpTo_eq_filter hOrderly.levels,
          List.filter_reverse]

/-
  A literal that occurs in no constraint raises the highest
  level to 2. Then `l_0` shows a contradiction at level 1,
  which outlasts a return to level 1.
-/
theorem books_are_in_order_after_return :
    ∃ store e reason,
      Store.ofNamed [⟨0, true⟩, ⟨1, true⟩, ⟨2, true⟩, ⟨3, true⟩]
          [(7, ⟨[⟨0, true⟩, ⟨1, true⟩, ⟨2, true⟩], .odd⟩),
            (9, ⟨[⟨1, true⟩, ⟨2, true⟩], .even⟩)] = .ok store ∧
        Logged store ⟨.gjeReasoned, ⟨0.25⟩, false⟩
          [.wentBack 1, .answered 1 (.conflict reason),
            .answered 2 .nothing] e ∧
        e.trail.entries = [⟨⟨0, false⟩, 1⟩] ∧
        e.state = .conflicted 1 ∧
        (e.undo 0).outcome = .ok () ∧
        (e.undo 0).engine.trail.entries.reverse = [] := by
  have hRun :
      (Store.ofNamed [⟨0, true⟩, ⟨1, true⟩, ⟨2, true⟩, ⟨3, true⟩]
          [(7, ⟨[⟨0, true⟩, ⟨1, true⟩, ⟨2, true⟩], .odd⟩),
            (9, ⟨[⟨1, true⟩, ⟨2, true⟩], .even⟩)]).toOption.any
        (fun store =>
          (Engine.ofStore store
            ⟨.gjeReasoned, ⟨0.25⟩, false⟩).toOption.any
          fun (e : Engine) =>
          (e.propagate ⟨4, 2, fun _ => some false⟩
            ⟨3, false⟩).outcome.toOption.any fun first =>
          ((e.propagate ⟨4, 2, fun _ => some false⟩
            ⟨3, false⟩).engine.propagate
              ⟨4, 1, fun _ => some false⟩
              ⟨0, false⟩).outcome.toOption.any fun second =>
          (((e.propagate ⟨4, 2, fun _ => some false⟩
            ⟨3, false⟩).engine.propagate
              ⟨4, 1, fun _ => some false⟩
              ⟨0, false⟩).engine.undo 1).outcome.toOption.any fun _ =>
            decide (first = .nothing ∧
              second = .conflict [⟨0, false⟩] ∧
              (((e.propagate ⟨4, 2, fun _ => some false⟩
                ⟨3, false⟩).engine.propagate
                  ⟨4, 1, fun _ => some false⟩
                  ⟨0, false⟩).engine.undo 1).engine.trail.entries =
                [⟨⟨0, false⟩, 1⟩])) = true := by
    decide +kernel
  rcases exists_ok_of_any hRun with ⟨store, hStore, hRun⟩
  rcases exists_ok_of_any hRun with ⟨e, hNew, hRun⟩
  rcases exists_ok_of_any hRun with ⟨first, hFirst, hRun⟩
  rcases exists_ok_of_any hRun with ⟨second, hSecond, hRun⟩
  rcases exists_ok_of_any hRun with ⟨_, hBack, hEnd⟩
  rcases of_decide_eq_true hEnd with ⟨rfl, rfl, hEntries⟩
  have hLogged := (((Logged.new hNew).propagate _ _ hFirst).propagate _
    _ hSecond).undo 1 hBack
  rcases books_are_in_order hStore hLogged with
    ⟨_, _, _, _, hState, _, _, hUndo⟩
  have hStanding : StandingConflict
      [.wentBack 1, .answered 1 (.conflict [⟨0, false⟩]),
        .answered 2 .nothing] 1 :=
    ⟨[.wentBack 1], _, _, rfl, by simp, by simp⟩
  have hCall := (hUndo 0).1.mpr (Nat.zero_le _)
  refine ⟨store, _, _, hStore, hLogged, hEntries,
    (hState 1).mpr hStanding, hCall, ?_⟩
  rw [((hUndo 0).2 hCall).2.1, hEntries]
  rfl

end Engine

end ParitySolver
