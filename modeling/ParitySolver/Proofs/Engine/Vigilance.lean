import ParitySolver.Proofs.Engine.Progress

/-
  No strategy overlooks a constraint that has become false.
  The last variable of a constraint to get its value is taken
  in at some call, and this call finds the conflict; a
  constraint without variables is found by the first
  question. So whenever an engine is ready, the constraints
  whose variables are all on its trail are true.

  Key definitions include:
    * `Store.Tolerates`
    * `Store.Coherent`
    * `Engine.Vigilant`

  Main declarations:
    * `Engine.coherent_of_initialPropagation`
    * `Engine.Reachable.vigilant`
-/

namespace ParitySolver

------------------------------------------------------------
-- Literals that make no constraint false
------------------------------------------------------------

/-
  Constraints that have variables, all of them among the
  variables of the literals, are true.
-/
def Store.Tolerates
    (store : Store)
    (ls : List Literal) : Prop :=
  ∀ c ∈ store.constraints, c.vars ≠ [] →
    ∀ a : Assignment, (∀ w ∈ c.vars, (⟨w, a w⟩ : Literal) ∈ ls) →
      sumOver a c.vars = c.rhs

/- Constraints without variables are true. -/
def Store.Coherent
    (store : Store) : Prop :=
  ∀ c ∈ store.constraints, c.vars = [] → c.rhs = false

theorem Store.tolerates_nil
    (store : Store) :
    store.Tolerates [] := by
  intro c _ hVars a hAll
  rcases List.exists_mem_of_ne_nil c.vars hVars with ⟨w, hMem⟩
  cases hAll w hMem

theorem Store.Tolerates.mono
    {store : Store}
    {ls ls' : List Literal}
    (hTolerates : store.Tolerates ls')
    (hSubset : ls ⊆ ls') :
    store.Tolerates ls := by
  intro c hMem hVars a hAll
  exact hTolerates c hMem hVars a fun w hW => hSubset (hAll w hW)

/- Literals with the values of all variables make a solution. -/
theorem Store.Tolerates.holds
    {store : Store}
    (hStore : store.WellFormed)
    {ls : List Literal}
    (hTolerates : store.Tolerates ls)
    (hCoherent : store.Coherent)
    {a : Assignment}
    (hAll : ∀ w, store.isRelevant w = true →
      (⟨w, a w⟩ : Literal) ∈ ls) :
    store.Holds a := by
  rw [hStore.holds_iff_defect]
  intro c hMem
  have hSum : sumOver a c.vars = c.rhs := by
    by_cases hVars : c.vars = []
    · rw [hCoherent c hMem hVars, hVars, sumOver_nil]
    · apply hTolerates c hMem hVars
      intro w hW
      exact hAll w ((hStore.isRelevant_iff w).mpr ⟨c, hMem, hW⟩)
  rw [StoredConstraint.defect, hSum, Bool.xor_self]

------------------------------------------------------------
-- Conflicts are reported
------------------------------------------------------------

/- If a conflict was found, the verdict is a conflict. -/
theorem conflict_of_resolve
    {s : Store}
    {t : Trail}
    {h : Host}
    {events : List Event}
    {origin : Origin}
    (hMem : Event.conflict origin ∈ events)
    {verdict : Verdict}
    {notes : List Note}
    (hResolve : resolve s t h events = .ok (verdict, notes)) :
    ∃ reason, verdict = .conflict reason := by
  rcases resolve_eq_ok hResolve with
    ⟨_, reason, _, _, hVerdict⟩ | ⟨hNone, _⟩
  · exact ⟨reason, hVerdict⟩
  · rcases not_conflict_of_firstConflict? hNone hMem with
      ⟨_, _, hEvent⟩
    cases hEvent

namespace Engine

variable {store : Store} {config : Config} {e : Engine}
variable {host : Host} {verdict : Verdict}

theorem conflict_of_concludes
    {found : Findings}
    {origin : Origin}
    (hMem : Event.conflict origin ∈ found.events)
    (hConcludes : e.Concludes host found verdict) :
    ∃ reason, verdict = .conflict reason := by
  rcases hConcludes with
    ⟨_, _, hResolve⟩ | ⟨_, _, _, hNothing, _, _⟩
  · exact conflict_of_resolve hMem hResolve
  · rcases conflict_of_resolve hMem hNothing with ⟨_, hVerdict⟩
    cases hVerdict

/- The first question misses nothing that a constraint shows. -/
theorem Intact.notices_begin
    (hIntact : e.Intact store config)
    (hStore : store.WellFormed)
    (hEmpty : e.trail.entries = [])
    {found : Findings}
    (hBegin : e.theory.begin e.context = .ok found) :
    Theory.Notices e.theory.counts e.context (fun _ => True)
      found.events := by
  rcases hIntact.exists_begin hStore hEmpty with
    ⟨_, hSame, _, hNotices⟩
  cases hBegin.symm.trans hSame
  exact hNotices

/- Nothing that a constraint with the new literal shows is missed. -/
theorem Absorbs.notices
    (hStore : store.WellFormed)
    (hIntact : e.Intact store config)
    {l : Literal}
    {trail : Trail}
    {theory : Theory}
    {found : Findings}
    (hAbsorbs : e.Absorbs host l verdict trail theory found) :
    Theory.Notices e.theory.counts { e with trail }.context
      (fun c => l.index ∈ c.vars) found.events := by
  rcases hIntact.exists_assign hStore hAbsorbs.relevant hAbsorbs.push
    with ⟨_, _, _, hSame, _, hNotices⟩
  cases hAbsorbs.assign.symm.trans hSame
  exact hNotices

/-
  After a first question without a conflict there are no
  false constraints without variables.
-/
theorem coherent_of_initialPropagation
    (hStore : store.WellFormed)
    (hIntact : e.Intact store config)
    (hCall : (e.initialPropagation host).outcome = .ok verdict)
    (hQuiet : ∀ reason, verdict ≠ .conflict reason) :
    store.Coherent := by
  rcases initialPropagation_eq_ok hCall with
    ⟨hEmpty, _, ⟨found, hBegin, hConcludes⟩, _⟩
  have hNotices := hIntact.notices_begin hStore hEmpty hBegin
  rcases hIntact.regular.sameStore with rfl
  intro c hMem hVars
  rcases Array.mem_iff_getElem?.mp hMem with ⟨r, hAt⟩
  apply eq_false_of_ne_true
  intro hRhs
  have hReveals : c.Reveals e.trail.value r
      (.conflict (.constraint r)) := by
    apply StoredConstraint.Reveals.failed
    · simp [hVars]
    · rw [hVars, hRhs]
      nofun
  have hEvent := hNotices r c _ hAt trivial hReveals
    fun _ => ⟨_, rfl⟩
  rcases conflict_of_concludes hEvent hConcludes with
    ⟨reason, hConflict⟩
  exact hQuiet reason hConflict

------------------------------------------------------------
-- Levels below a conflict
------------------------------------------------------------

/- At every level below a conflict nothing false is overlooked. -/
def Vigilant
    (store : Store)
    (e : Engine) : Prop :=
  ∀ level, (∀ k, e.state = .conflicted k → level < k) →
    store.Tolerates
      ((entriesUpTo level e.trail.entries).map TrailEntry.literal)

theorem vigilant_of_entries_eq_nil
    (hEmpty : e.trail.entries = []) :
    e.Vigilant store := by
  intro level _
  rw [hEmpty]
  exact store.tolerates_nil

/- An engine that is ready tolerates its trail. -/
theorem Vigilant.tolerates
    (hVigilant : e.Vigilant store)
    (hReady : e.state = .ready)
    (hRegular : e.Regular store config) :
    store.Tolerates (e.trail.entries.map TrailEntry.literal) := by
  have hHere := hVigilant e.highestLevel fun k hConflict => by
    cases hReady.symm.trans hConflict
  rwa [entriesUpTo_of_level_le hRegular.level_le] at hHere

/-
  Without a conflict, taking in a literal leaves no false
  constraint. One with the new variable would be noticed, and
  the others are as before.
-/
theorem Absorbs.tolerates
    (hStore : store.WellFormed)
    (hIntact : e.Intact store config)
    (hBefore :
      store.Tolerates (e.trail.entries.map TrailEntry.literal))
    {l : Literal}
    {trail : Trail}
    {theory : Theory}
    {found : Findings}
    (hAbsorbs : e.Absorbs host l verdict trail theory found)
    (hAfter : trail.Orderly)
    (hQuiet : ∀ reason, verdict ≠ .conflict reason) :
    store.Tolerates (trail.entries.map TrailEntry.literal) := by
  have hEntries := Trail.entries_of_push hAbsorbs.push
  have hNotices := hAbsorbs.notices hStore hIntact
  rcases hIntact.regular.sameStore with rfl
  intro c hMem hVars a hAll
  by_cases hIn : l.index ∈ c.vars
  · have hValue : ∀ w ∈ c.vars, trail.value w = some (a w) := by
      intro w hW
      rcases List.mem_map.mp (hAll w hW) with ⟨entry, hEntry, hEq⟩
      exact (hAfter.value_iff w (a w)).mpr ⟨entry, hEntry, hEq⟩
    have hSum : assignedSum trail.value c.vars = sumOver a c.vars := by
      apply sumOver_congr
      intro w hW
      rw [hValue w hW]
      rfl
    rw [← hSum]
    apply Decidable.byContradiction
    intro hFalse
    have hAssigned : ∀ w ∈ c.vars, (trail.value w).isSome = true := by
      intro w hW
      rw [hValue w hW]
      rfl
    rcases Array.mem_iff_getElem?.mp hMem with ⟨r, hAt⟩
    have hEvent := hNotices r c _ hAt hIn (.failed hAssigned hFalse)
      fun _ => ⟨_, rfl⟩
    rcases conflict_of_concludes hEvent hAbsorbs.concludes with
      ⟨reason, hConflict⟩
    exact hQuiet reason hConflict
  · apply hBefore c hMem hVars a
    intro w hW
    have hNow := hAll w hW
    rw [hEntries, List.map_cons] at hNow
    rcases List.mem_cons.mp hNow with hNew | hOld
    · have hIndex : w = l.index := congrArg Literal.index hNew
      rw [hIndex] at hW
      exact absurd hW hIn
    · exact hOld

theorem Vigilant.propagate
    (hStore : store.WellFormed)
    (hIntact : e.Intact store config)
    (hVigilant : e.Vigilant store)
    {l : Literal}
    (hCall : (e.propagate host l).outcome = .ok verdict) :
    (e.propagate host l).engine.Vigilant store := by
  rcases propagate_eq_ok hCall with
    ⟨hReady, _, _, hIdles | ⟨trail, theory, found, hAbsorbs⟩⟩
  · rw [hIdles.engine]
    exact hVigilant
  · have hRegular := (hIntact.regular.propagate hCall).consistent hStore
    have hBefore := hVigilant.tolerates hReady hIntact.regular
    have hEntries := Trail.entries_of_push hAbsorbs.push
    intro level hBelow
    rw [hAbsorbs.engine] at hRegular hBelow ⊢
    simp only [hEntries]
    by_cases hLevel : level < host.level
    · -- The new literal is above, and the old ones were fine.
      have hDrop :
          entriesUpTo level (⟨l, host.level⟩ :: e.trail.entries) =
            entriesUpTo level e.trail.entries :=
        List.dropWhile_cons_of_pos (by simpa using hLevel)
      rw [hDrop]
      apply hVigilant level
      intro k hConflict
      cases hReady.symm.trans hConflict
    · have hQuiet : ∀ reason, verdict ≠ .conflict reason := by
        intro reason hConflict
        apply hLevel
        apply hBelow
        rw [hConflict]
        rfl
      have hAll := hAbsorbs.tolerates hStore hIntact hBefore
        hRegular.orderly hQuiet
      rw [hEntries] at hAll
      apply hAll.mono
      exact List.map_subset _ (List.dropWhile_sublist _).subset

theorem Vigilant.undo
    (hStore : store.WellFormed)
    (hIntact : e.Intact store config)
    (hVigilant : e.Vigilant store)
    {target : Nat}
    (hCall : (e.undo target).outcome = .ok ()) :
    (e.undo target).engine.Vigilant store := by
  rcases hIntact.regular.faithful.undo
      (hIntact.regular.sameStore.symm ▸ hStore) (undo_eq_ok hCall)
    with ⟨trail, theory, _, hEngine, hEntries, _⟩
  intro level hBelow
  rw [hEngine] at hBelow ⊢
  simp only [hEntries] at hBelow ⊢
  -- What remains is at both levels, and one is below the conflict.
  have hLower : ∀ k, e.state = .conflicted k → min level target < k := by
    intro k hConflict
    rw [hConflict, stateAfterUndo] at hBelow
    split at hBelow
    · omega
    · have hLevel := hBelow k rfl
      omega
  apply (hVigilant (min level target) hLower).mono
  apply List.map_subset
  rcases Nat.le_total level target with hLe | hGe
  · rw [entriesUpTo_entriesUpTo hLe, Nat.min_eq_left hLe]
    exact fun entry hMem => hMem
  · rw [Nat.min_eq_right hGe]
    exact (List.dropWhile_sublist _).subset

/- No engine that calls lead to overlooks a false constraint. -/
theorem Reachable.vigilant
    (hStore : store.WellFormed)
    (hReachable : Reachable store config e) :
    e.Vigilant store := by
  induction hReachable with
  | new hNew =>
      apply vigilant_of_entries_eq_nil
      rw [(faithful_ofStore hNew).2.2.2.1]
      rfl
  | initialPropagation _ host hCall _ =>
      rcases initialPropagation_eq_ok hCall with
        ⟨hEmpty, _, _, hEngine⟩
      apply vigilant_of_entries_eq_nil
      rw [hEngine]
      exact hEmpty
  | propagate hBefore host l hCall ih =>
      exact ih.propagate hStore (hBefore.intact hStore) hCall
  | undo hBefore level hCall ih =>
      exact ih.undo hStore (hBefore.intact hStore) hCall

end Engine

end ParitySolver
