import ParitySolver.Proofs.Engine.Calls

/-
  What an engine answers follows from the constraints. If the
  host holds the literals of the trail, every forced literal
  is entailed by its reason, and the reason of every conflict
  contradicts the constraints. The theory that only counts
  forces nothing.

  Main declarations:
    * `Engine.Concludes.sound`
    * `Engine.initialPropagation_sound`
    * `Engine.propagate_sound`
    * `Engine.answers_are_sound`
-/

namespace ParitySolver

namespace Engine

------------------------------------------------------------
-- Verdicts on valid events
------------------------------------------------------------

/- The host holds every literal of a trail. -/
theorem covers_of_isTrue
    {trail : Trail}
    (hTrail : trail.Orderly)
    {host : Host}
    (hHost : ∀ entry ∈ trail.entries,
      host.isTrue entry.literal = .ok true) :
    host.Covers trail.value := by
  intro v b hValue
  rcases (hTrail.value_iff v b).mp hValue with
    ⟨entry, hMem, hLiteral⟩
  have hTrue := Host.isTrue_iff_read.mp (hHost entry hMem)
  rw [hLiteral] at hTrue
  exact hTrue

theorem Concludes.sound
    {e : Engine}
    (hStore : e.store.WellFormed)
    {host : Host}
    (hCovers : host.Covers e.trail.value)
    {found : Findings}
    (hValid : ∀ event ∈ found.events,
      event.Valid e.store e.trail.value)
    {verdict : Verdict}
    (hConcludes : e.Concludes host found verdict) :
    verdict.Sound e.store e.trail host := by
  rcases hConcludes with
    ⟨_, notes, hResolve⟩ | ⟨more, _, notes, _, hMore, hResolve⟩
  · exact resolve_sound hStore hCovers hValid hResolve
  · exact resolve_sound hStore hCovers
      (fun event hMem => Theory.valid_of_mem_atFixpoint hStore hMore
        hMem) hResolve

theorem Concludes.not_forced
    {e : Engine}
    (hCounts : e.theory.counts = true)
    {host : Host}
    {found : Findings}
    (hConflicts : ∀ event ∈ found.events,
      ∃ origin, event = .conflict origin)
    {verdict : Verdict}
    (hConcludes : e.Concludes host found verdict)
    (ps : List Propagation) :
    verdict ≠ .forced ps := by
  rcases hConcludes with
    ⟨_, notes, hResolve⟩ | ⟨more, _, notes, _, hMore, hResolve⟩
  · exact resolve_of_conflicts hConflicts hResolve ps
  · have hNone := Theory.atFixpoint_of_not_eliminates
      (Theory.eliminates_of_counts hCounts) hMore
    rw [hNone] at hResolve
    exact resolve_of_conflicts (by simp) hResolve ps

------------------------------------------------------------
-- Calls
------------------------------------------------------------

/-
  A verdict is sound for an engine and a host, and the theory
  that only counts has not forced anything.
-/
structure Trustworthy
    (e : Engine)
    (host : Host)
    (verdict : Verdict) : Prop where
  sound : verdict.Sound e.store e.trail host
  onTrail :
    ∀ ps, verdict = .forced ps → ∀ p ∈ ps, ∀ l ∈ p.reason,
      l ∈ e.trail.entries.map TrailEntry.literal ∧
        host.isTrue l = .ok true
  counting :
    e.config.strategy = .countCheck → ∀ ps, verdict ≠ .forced ps

theorem Concludes.trustworthy
    {e : Engine}
    (hStore : e.store.WellFormed)
    (hConsistent : Consistent e.config e.store e.trail e.theory)
    {host : Host}
    (hCovers : host.Covers e.trail.value)
    {found : Findings}
    (hValid : ∀ event ∈ found.events,
      event.Valid e.store e.trail.value)
    (hConflicts : e.theory.counts = true →
      ∀ event ∈ found.events, ∃ origin, event = .conflict origin)
    {verdict : Verdict}
    (hConcludes : e.Concludes host found verdict) :
    e.Trustworthy host verdict := by
  have hSound := hConcludes.sound hStore hCovers hValid
  refine ⟨hSound, ?_, ?_⟩
  · rintro ps rfl p hMem l hIn
    have hJustified := hSound.2.2 p hMem
    have hValue := hJustified.onTrail l hIn
    rcases (hConsistent.orderly.value_iff _ _).mp hValue with
      ⟨entry, hEntry, hLiteral⟩
    refine ⟨List.mem_map.mpr ⟨entry, hEntry, hLiteral⟩, ?_⟩
    exact hCovers.held hJustified.onTrail l hIn
  · intro hStrategy
    have hCounts : e.theory.counts = true := by
      rw [hConsistent.counts, hStrategy]
      rfl
    exact hConcludes.not_forced hCounts (hConflicts hCounts)

variable {store : Store} {config : Config} {e : Engine}
variable {host : Host} {verdict : Verdict}

/- What the first question is answered with is sound. -/
theorem initialPropagation_sound
    (hStore : store.WellFormed)
    (hRegular : e.Regular store config)
    (hHost : ∀ entry ∈ e.trail.entries,
      host.isTrue entry.literal = .ok true)
    (hCall : (e.initialPropagation host).outcome = .ok verdict) :
    (e.initialPropagation host).engine.Trustworthy host verdict := by
  have hWell : e.store.WellFormed := hRegular.sameStore ▸ hStore
  have hConsistent := hRegular.faithful.consistent hWell
  rcases initialPropagation_eq_ok hCall with
    ⟨hEmpty, _, ⟨found, hBegin, hConcludes⟩, hEngine⟩
  have hNone : ∀ v, e.trail.value v = none := by
    intro v
    cases hValue : e.trail.value v with
    | none => rfl
    | some b =>
        rcases (hConsistent.orderly.value_iff v b).mp hValue with
          ⟨entry, hMem, _⟩
        rw [hEmpty] at hMem
        cases hMem
  rw [hEngine]
  have hTrust := hConcludes.trustworthy hWell hConsistent
    (covers_of_isTrue hConsistent.orderly hHost)
    (fun event hMem => Theory.valid_of_mem_begin hWell
      hConsistent.follows hNone hBegin hMem)
    (fun hCounts event hMem => Theory.conflict_of_mem_begin hCounts
      hBegin hMem)
  exact ⟨hTrust.sound, hTrust.onTrail, hTrust.counting⟩

/- What telling of a literal is answered with is sound. -/
theorem propagate_sound
    (hStore : store.WellFormed)
    (hRegular : e.Regular store config)
    (hHost : ∀ entry ∈ e.trail.entries,
      host.isTrue entry.literal = .ok true)
    {l : Literal}
    (hCall : (e.propagate host l).outcome = .ok verdict) :
    (e.propagate host l).engine.Trustworthy host verdict := by
  have hWell : e.store.WellFormed := hRegular.sameStore ▸ hStore
  have hAfter := (hRegular.propagate hCall).faithful
  rcases propagate_eq_ok hCall with
    ⟨_, hHeld, _, hIdles | ⟨trail, theory, found, hAbsorbs⟩⟩
  · rw [hIdles.nothing]
    exact ⟨trivial, nofun, fun _ => nofun⟩
  · have hBefore := hRegular.faithful.consistent hWell
    have hTakes : Theory.TakesIn (contextOf e.config e.store trail)
        e.trail.value l :=
      takesIn_of_push hAbsorbs.push
    rw [hAbsorbs.engine] at hAfter ⊢
    have hConsistent : Consistent e.config e.store trail theory :=
      (replay_spec hWell hAfter).2
    have hHostAfter : ∀ entry ∈ trail.entries,
        host.isTrue entry.literal = .ok true := by
      intro entry hMem
      rw [Trail.entries_of_push hAbsorbs.push] at hMem
      rcases List.mem_cons.mp hMem with rfl | hOld
      · exact hHeld
      · exact hHost entry hOld
    have hTrust := Concludes.trustworthy
      (e := { e with
        trail, theory
        highestLevel := max e.highestLevel host.level })
      hWell hConsistent
      (covers_of_isTrue hConsistent.orderly hHostAfter)
      (fun event hMem => Theory.valid_of_mem_assign hWell
        hBefore.follows hTakes hAbsorbs.assign hMem)
      (fun hCounts event hMem => Theory.conflict_of_mem_assign hWell
        ((Theory.kind_of_assign hAbsorbs.assign).2.symm.trans hCounts)
        hAbsorbs.assign hMem)
      hAbsorbs.concludes
    exact ⟨hTrust.sound, hTrust.onTrail, hTrust.counting⟩

/-
  Soundness of verdicts and reasons, for every engine that
  successful calls lead to and every host that holds the
  literals of its trail.
-/
theorem answers_are_sound
    {declared : List Literal}
    {named : List (Nat × Constraint)}
    (hStore : Store.ofNamed declared named = .ok store)
    (hReachable : Reachable store config e)
    (hHost : ∀ entry ∈ e.trail.entries,
      host.isTrue entry.literal = .ok true) :
    ((e.initialPropagation host).outcome = .ok verdict →
      (e.initialPropagation host).engine.Trustworthy host
        verdict) ∧
      ∀ l, (e.propagate host l).outcome = .ok verdict →
        (e.propagate host l).engine.Trustworthy host verdict := by
  have hWell := Store.wellFormed_of_ofNamed hStore
  have hRegular := hReachable.regular hWell
  constructor
  · intro hCall
    exact initialPropagation_sound hWell hRegular hHost hCall
  · intro l hCall
    exact propagate_sound hWell hRegular hHost hCall

/-
  The sum of three variables is odd. Once the first two are
  false, the third is forced, and they are the reason.
-/
theorem forced_literal_is_sound :
    ∃ store e,
      Store.ofNamed [⟨0, true⟩, ⟨1, true⟩, ⟨2, true⟩]
          [(4, ⟨[⟨0, true⟩, ⟨1, true⟩, ⟨2, true⟩], .odd⟩)] =
          .ok store ∧
        Reachable store ⟨.unitPropagation, ⟨1.0⟩, false⟩ e ∧
        e.trail.entries = [⟨⟨0, false⟩, 1⟩] ∧
        (e.propagate
          ⟨3, 2, fun v => if v < 2 then some false else none⟩
          ⟨1, false⟩).outcome =
            .ok (.forced [⟨⟨2, true⟩, [⟨0, false⟩, ⟨1, false⟩]⟩]) ∧
        (e.propagate
          ⟨3, 2, fun v => if v < 2 then some false else none⟩
          ⟨1, false⟩).engine.Trustworthy
            ⟨3, 2, fun v => if v < 2 then some false else none⟩
            (.forced [⟨⟨2, true⟩, [⟨0, false⟩, ⟨1, false⟩]⟩]) := by
  have hRun :
      (Store.ofNamed [⟨0, true⟩, ⟨1, true⟩, ⟨2, true⟩]
          [(4, ⟨[⟨0, true⟩, ⟨1, true⟩, ⟨2, true⟩],
            .odd⟩)]).toOption.any
        (fun store =>
          (Engine.ofStore store
            ⟨.unitPropagation, ⟨1.0⟩, false⟩).toOption.any
          fun (e : Engine) =>
            (e.propagate ⟨3, 1, fun v => if v = 0 then some false else none⟩
              ⟨0, false⟩).outcome.toOption.any
            fun _ =>
              let f := (e.propagate
                ⟨3, 1, fun v => if v = 0 then some false else none⟩
                ⟨0, false⟩).engine
              decide (f.trail.entries = [⟨⟨0, false⟩, 1⟩]) &&
                (f.propagate
                  ⟨3, 2, fun v => if v < 2 then some false else none⟩
                  ⟨1, false⟩).outcome.toOption.any
                fun verdict =>
                  decide (verdict =
                    .forced
                      [⟨⟨2, true⟩, [⟨0, false⟩, ⟨1, false⟩]⟩])) =
        true := by
    decide +kernel
  rcases exists_ok_of_any hRun with ⟨store, hStore, hNew⟩
  rcases exists_ok_of_any hNew with ⟨start, hStart, hFirst⟩
  rcases exists_ok_of_any hFirst with ⟨_, hCall, hSecond⟩
  simp only [Bool.and_eq_true, decide_eq_true_eq] at hSecond
  rcases hSecond with ⟨hEntries, hSecond⟩
  rcases exists_ok_of_any hSecond with ⟨_, hVerdict, hEq⟩
  rw [of_decide_eq_true hEq] at hVerdict
  have hReachable : Reachable store ⟨.unitPropagation, ⟨1.0⟩, false⟩
      (start.propagate
        ⟨3, 1, fun v => if v = 0 then some false else none⟩
        ⟨0, false⟩).engine :=
    .propagate (.new hStart) _ _ hCall
  refine ⟨store, _, hStore, hReachable, hEntries, hVerdict,
    (answers_are_sound hStore hReachable ?_).2 _ hVerdict⟩
  intro entry hMem
  rw [hEntries, List.mem_singleton] at hMem
  rw [hMem]
  rfl

end Engine

end ParitySolver
