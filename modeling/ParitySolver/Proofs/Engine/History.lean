import ParitySolver.Proofs.Engine.Calls

/-
  The state of an engine does not depend on its history. It
  is the state of a fresh theory that takes in the literals
  of the trail, whatever was taken in and given back on the
  way. So an engine that went on from a decision level and
  comes back to it is the engine that it was.

  Key definitions include:
    * `Engine.ReachedAbove`

  Main declarations:
    * `Engine.ReachedAbove.undo_eq`
    * `Engine.same_self`
    * `Engine.state_is_replay_and_undo_restores`
-/

namespace ParitySolver

namespace Engine

------------------------------------------------------------
-- Equal engines
------------------------------------------------------------

/- A float that compares with another one equals itself. -/
theorem beq_self_of_le
    {x y : Float}
    (hLe : x ≤ y) :
    (x == x) = true := by
  have hCompare :
      x.toModel.unpack.le y.toModel.unpack = true :=
    of_decide_eq_true hLe
  change (x.toModel.unpack.compare x.toModel.unpack ==
    some .eq) = true
  generalize x.toModel.unpack = u at hCompare ⊢
  cases u with
  | notANumber => cases hCompare
  | infinity sign => cases sign <;> rfl
  | zero sign => rfl
  | finite sign mantissa exponent hPos =>
      have hSelf :
          (compare exponent exponent).then
              (compare mantissa mantissa) =
            .eq := by
        simp only [Std.ReflCmp.compare_self, Ordering.then_self]
      cases sign with
      | positive =>
          exact congrArg (fun o => some o == some Ordering.eq) hSelf
      | negative =>
          exact congrArg (fun o => some o.swap == some Ordering.eq)
            hSelf

/- An engine whose cutoff is in range is in the same state as itself. -/
theorem same_self
    {e : Engine}
    {x : Float}
    (hCutoff : Cutoff.ofFloat x = .ok e.config.cutoff) :
    e.same e = true := by
  have hFloat : (e.config.cutoff.value == e.config.cutoff.value) =
      true := by
    unfold Cutoff.ofFloat at hCutoff
    by_cases hRange : (decide (0.0 ≤ x) && decide (x ≤ 1.0)) = true
    · rw [if_pos hRange] at hCutoff
      simp only [Bool.and_eq_true, decide_eq_true_eq] at hRange
      rw [← Except.ok.inj hCutoff]
      exact beq_self_of_le hRange.2
    · rw [if_neg hRange] at hCutoff
      cases hCutoff
  simp [same, Config.same, hFloat]

------------------------------------------------------------
-- Coming back
------------------------------------------------------------

/-
  The engines that calls lead to that stay above a level:
  the host is above it when it tells of literals, and the
  engine does not go back below it.
-/
inductive ReachedAbove
    (level : Nat)
    (e : Engine) : Engine → Prop where
  | refl : ReachedAbove level e e
  | propagate {f : Engine} {verdict : Verdict}
      (hBefore : ReachedAbove level e f)
      (host : Host)
      (l : Literal)
      (hAbove : level < host.level)
      (hCall : (f.propagate host l).outcome = .ok verdict) :
      ReachedAbove level e (f.propagate host l).engine
  | undo {f : Engine}
      (hBefore : ReachedAbove level e f)
      (target : Nat)
      (hAbove : level ≤ target)
      (hCall : (f.undo target).outcome = .ok ()) :
      ReachedAbove level e (f.undo target).engine

/- The engine keeps what it needs to come back to another one. -/
structure CanReturn
    (level : Nat)
    (e f : Engine) : Prop where
  entries :
    entriesUpTo level f.trail.entries = e.trail.entries
  level_le : level ≤ f.highestLevel
  state :
    f.state = .ready ∨ ∃ at?, f.state = .conflicted at? ∧ level < at?

variable {store : Store} {config : Config} {e f : Engine}
variable {level : Nat}

theorem CanReturn.propagate
    (hReturn : CanReturn level e f)
    {host : Host}
    {l : Literal}
    {verdict : Verdict}
    (hAbove : level < host.level)
    (hCall : (f.propagate host l).outcome = .ok verdict) :
    CanReturn level e (f.propagate host l).engine := by
  have hLevel : level ≤ max f.highestLevel host.level := by omega
  rcases propagate_eq_ok hCall with
    ⟨_, _, _, hIdles | ⟨trail, theory, found, hAbsorbs⟩⟩
  · rw [hIdles.engine]
    exact ⟨hReturn.entries, hLevel, hReturn.state⟩
  · rw [hAbsorbs.engine]
    refine ⟨?_, hLevel, ?_⟩
    · have hDrop :
          entriesUpTo level (⟨l, host.level⟩ :: f.trail.entries) =
            entriesUpTo level f.trail.entries :=
        List.dropWhile_cons_of_pos (by simpa using hAbove)
      simp only [Trail.entries_of_push hAbsorbs.push, hDrop]
      exact hReturn.entries
    · cases verdict with
      | nothing => exact .inl rfl
      | forced ps => exact .inl rfl
      | conflict reason => exact .inr ⟨host.level, rfl, hAbove⟩

theorem CanReturn.undo
    (hReturn : CanReturn level e f)
    (hStore : store.WellFormed)
    (hRegular : f.Regular store config)
    {target : Nat}
    (hAbove : level ≤ target)
    (hCall : (f.undo target).outcome = .ok ()) :
    CanReturn level e (f.undo target).engine := by
  rcases hRegular.faithful.undo (hRegular.sameStore ▸ hStore)
    (undo_eq_ok hCall) with ⟨trail, theory, _, hEngine, hEntries, _⟩
  rw [hEngine]
  refine ⟨?_, hAbove, ?_⟩
  · simp only [hEntries, entriesUpTo_entriesUpTo hAbove]
    exact hReturn.entries
  · rcases hReturn.state with hReady | ⟨at?, hConflict, hLt⟩
    · exact .inl (by simp only [hReady, stateAfterUndo])
    · by_cases hBelow : target < at?
      · exact .inl (by
          simp only [hConflict, stateAfterUndo, if_pos hBelow])
      · exact .inr ⟨at?, by
          simp only [hConflict, stateAfterUndo, if_neg hBelow], hLt⟩

theorem ReachedAbove.canReturn
    (hStore : store.WellFormed)
    (hRegular : e.Regular store config)
    (hReady : e.state = .ready)
    (hReached : ReachedAbove e.highestLevel e f) :
    f.Regular store config ∧ CanReturn e.highestLevel e f := by
  induction hReached with
  | refl =>
      exact ⟨hRegular, entriesUpTo_of_level_le hRegular.level_le,
        Nat.le_refl _, .inl hReady⟩
  | propagate _ host l hAbove hCall ih =>
      exact ⟨ih.1.propagate hCall, ih.2.propagate hAbove hCall⟩
  | undo _ target hAbove hCall ih =>
      exact ⟨ih.1.undo hStore hCall,
        ih.2.undo hStore ih.1 hAbove hCall⟩

/- Coming back to the level gives the engine that was left. -/
theorem ReachedAbove.undo_eq
    (hStore : store.WellFormed)
    (hRegular : e.Regular store config)
    (hReady : e.state = .ready)
    (hReached : ReachedAbove e.highestLevel e f) :
    (f.undo e.highestLevel).outcome = .ok () ∧
      (f.undo e.highestLevel).engine = e := by
  rcases hReached.canReturn hStore hRegular hReady with
    ⟨hThere, hReturn⟩
  rcases hThere.faithful.undo (hThere.sameStore ▸ hStore)
    hReturn.level_le with
    ⟨trail, theory, hOutcome, hEngine, hEntries, hReplay⟩
  refine ⟨hOutcome, ?_⟩
  have hState :
      stateAfterUndo f.state e.highestLevel = e.state := by
    rw [hReady]
    rcases hReturn.state with hFree | ⟨at?, hConflict, hLt⟩
    · simp only [hFree, stateAfterUndo]
    · simp only [hConflict, stateAfterUndo, if_pos hLt]
  have hSame : (trail, theory) = (e.trail, e.theory) := by
    have hBefore := hRegular.faithful
    rw [Faithful, hRegular.sameStore, hRegular.sameConfig] at hBefore
    rw [hEntries, hReturn.entries, hThere.sameStore,
      hThere.sameConfig, hBefore] at hReplay
    exact (Except.ok.inj hReplay).symm
  rw [hEngine, hState, hThere.sameStore, hThere.sameConfig]
  cases hSame
  rw [← hRegular.sameStore, ← hRegular.sameConfig]

/-
  History independence. An engine that was reached by any
  successful calls has the theory that its trail alone leads
  to. An engine that is ready and goes on above its highest
  level comes back to the same state.
-/
theorem state_is_replay_and_undo_restores
    {declared : List Literal}
    {named : List (Nat × Constraint)}
    (hStore : Store.ofNamed declared named = .ok store)
    (hReachable : Reachable store config e) :
    replay config store e.trail.entries.reverse =
        .ok (e.trail, e.theory) ∧
      ∀ f, e.state = .ready →
        ReachedAbove e.highestLevel e f →
          (f.undo e.highestLevel).outcome = .ok () ∧
            (f.undo e.highestLevel).engine = e ∧
            ∀ x, Cutoff.ofFloat x = .ok config.cutoff →
              (f.undo e.highestLevel).engine.same e = true := by
  have hWell := Store.wellFormed_of_ofNamed hStore
  have hRegular := hReachable.regular hWell
  constructor
  · have hFaithful := hRegular.faithful
    rw [Faithful, hRegular.sameStore, hRegular.sameConfig] at hFaithful
    exact hFaithful
  · intro f hReady hReached
    rcases hReached.undo_eq hWell hRegular hReady with
      ⟨hOutcome, hEngine⟩
    refine ⟨hOutcome, hEngine, ?_⟩
    intro x hCutoff
    rw [hEngine]
    exact same_self (hRegular.sameConfig ▸ hCutoff)

/-
  Two constraints contradict each other once `l_0` is false.
  Going back undoes the assignment that showed it.
-/
theorem undo_restores_after_conflict :
    ∃ store e f,
      Store.ofNamed [⟨0, true⟩, ⟨1, true⟩, ⟨2, true⟩]
          [(7, ⟨[⟨0, true⟩, ⟨1, true⟩, ⟨2, true⟩], .odd⟩),
            (9, ⟨[⟨1, true⟩, ⟨2, true⟩], .even⟩)] = .ok store ∧
        Reachable store ⟨.gjeTableau, ⟨0.25⟩, false⟩ e ∧
        e.state = .ready ∧
        ReachedAbove e.highestLevel e f ∧
        f.state = .conflicted 1 ∧
        (f.undo e.highestLevel).engine.same e = true := by
  have hRun :
      (Store.ofNamed [⟨0, true⟩, ⟨1, true⟩, ⟨2, true⟩]
          [(7, ⟨[⟨0, true⟩, ⟨1, true⟩, ⟨2, true⟩], .odd⟩),
            (9, ⟨[⟨1, true⟩, ⟨2, true⟩], .even⟩)]).toOption.any
        (fun store =>
          (Engine.ofStore store
            ⟨.gjeTableau, ⟨0.25⟩, false⟩).toOption.any
          fun (e : Engine) =>
            decide (e.state = .ready ∧ e.highestLevel = 0) &&
              (e.propagate ⟨3, 1, fun _ => some false⟩
                ⟨0, false⟩).outcome.toOption.any
              fun _ =>
                decide ((e.propagate ⟨3, 1, fun _ => some false⟩
                  ⟨0, false⟩).engine.state = .conflicted 1)) =
        true := by
    decide +kernel
  rcases exists_ok_of_any hRun with ⟨store, hStore, hNew⟩
  rcases exists_ok_of_any hNew with ⟨e, hEngine, hCheck⟩
  simp only [Bool.and_eq_true, decide_eq_true_eq] at hCheck
  rcases hCheck with ⟨⟨hReady, hLevel⟩, hCall⟩
  rcases exists_ok_of_any hCall with ⟨verdict, hVerdict, hState⟩
  have hAbove : ReachedAbove e.highestLevel e
      (e.propagate ⟨3, 1, fun _ => some false⟩ ⟨0, false⟩).engine :=
    .propagate .refl _ _ (by simp [hLevel]) hVerdict
  exact ⟨store, e, _, hStore, .new hEngine, hReady, hAbove,
    of_decide_eq_true hState,
    ((state_is_replay_and_undo_restores hStore (.new hEngine)).2 _
      hReady hAbove).2.2 0.25 rfl⟩

end Engine

end ParitySolver
