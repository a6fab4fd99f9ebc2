import ParitySolver.Proofs.Matrix.Untracked
import ParitySolver.Proofs.Theory.Progress

/-
  The two modes of elimination from scratch report the same
  events. The lazy mode first eliminates without provenance
  and looks whether some row has news. This elimination goes
  through the same steps as the one with provenance, so it
  sees news exactly if there is an event to report.

  Main declarations:
    * `Matrix.hasEvent_iff_of_scan`
    * `Context.eliminated_untracked`
    * `BatchMode.lazy_reports_what_eager_reports`
-/

namespace ParitySolver

/- Some row has news exactly if scanning reports an event. -/
theorem Matrix.hasEvent_iff_of_scan
    {s : Store}
    {m : Matrix}
    {events : List Event}
    (hScan : m.scan s = .ok events) :
    m.hasEvent = true ↔ events ≠ [] := by
  unfold Matrix.hasEvent
  rw [Array.any_eq_true']
  constructor
  · rintro ⟨row, hMem, hNews⟩ hNone
    rw [Row.hasEvent_iff] at hNews
    rcases Array.mem_iff_getElem?.mp hMem with ⟨r, hRow⟩
    rcases quiet_or_event_of_scan hScan hRow with
      hQuiet | ⟨origin, hEvent⟩ | ⟨_, _, origin, _, _, hEvent⟩
    · exact hNews hQuiet
    · rw [hNone] at hEvent
      cases hEvent
    · rw [hNone] at hEvent
      cases hEvent
  · intro hSome
    rcases List.exists_mem_of_ne_nil events hSome with ⟨event, hMem⟩
    rcases exists_row_of_mem_scan hScan hMem with
      ⟨r, row, hRow, hEvent⟩
    exact ⟨row, Array.mem_of_getElem? hRow,
      (hasEvent_iff_of_rowEvent? hEvent).mpr rfl⟩

/- Without provenance elimination leads to the same matrix. -/
theorem Context.eliminated_untracked
    {ctx : Context}
    {m : Matrix}
    (hMatrix : ctx.eliminated true = .ok m) :
    ctx.eliminated false = .ok m.untracked := by
  rcases bind_eq_ok.mp hMatrix with ⟨start, hStart, hEliminate⟩
  exact bind_eq_ok.mpr ⟨start.untracked,
    Matrix.untracked_ofStore hStart,
    Matrix.untracked_eliminate hEliminate⟩

namespace BatchMode

variable {ctx : Context} {m : Matrix} {events : List Event}

theorem scanTracked_of_scan
    (hMatrix : ctx.eliminated true = .ok m)
    (hScan : m.scan ctx.store = .ok events) :
    scanTracked ctx =
      .ok (ctx.showEliminated m ++ ⟨events, []⟩) := by
  simp only [scanTracked, bind, Except.bind, hMatrix, hScan, pure,
    Except.pure]

/- The lazy mode gives up only when there is nothing to report. -/
theorem exists_lazy
    (hMatrix : ctx.eliminated true = .ok m)
    (hScan : m.scan ctx.store = .ok events) :
    ∃ found, eliminateAndScan .lazy ctx = .ok found ∧
      found.events = events := by
  have hPlain := Context.eliminated_untracked hMatrix
  have hSame := Matrix.hasEvent_untracked m
  unfold eliminateAndScan
  simp only [bind, Except.bind, hPlain,
    scanTracked_of_scan hMatrix hScan, pure, Except.pure]
  cases hEvent : m.hasEvent with
  | true =>
      rw [hSame, hEvent, if_pos rfl]
      exact ⟨_, rfl, rfl⟩
  | false =>
      rw [hSame, hEvent, if_neg Bool.false_ne_true]
      refine ⟨_, rfl, ?_⟩
      by_contra hSome
      have hTrue := (Matrix.hasEvent_iff_of_scan hScan).mpr
        (Ne.symm hSome)
      rw [hEvent] at hTrue
      cases hTrue

/-
  For every store and every trail over its variables both
  modes come to their end with the same events, in the same
  order and with the same origins. Elimination without
  provenance shows an event exactly if there is one among
  those that scanning reports after elimination with it.
-/
theorem lazy_reports_what_eager_reports
    (ctx : Context)
    {declared : List Literal}
    {named : List (Nat × Constraint)}
    (hStore : Store.ofNamed declared named = .ok ctx.store)
    (hTrail : ctx.trail.values.size = ctx.store.numVariables) :
    ∃ plain traced eagerly lazily,
      ctx.eliminated false = .ok plain ∧
        ctx.eliminated true = .ok traced ∧
        eliminateAndScan .eager ctx = .ok eagerly ∧
        eliminateAndScan .lazy ctx = .ok lazily ∧
        traced.scan ctx.store = .ok eagerly.events ∧
        lazily.events = eagerly.events ∧
        (plain.hasEvent = true ↔ eagerly.events ≠ []) := by
  have hWell := Store.wellFormed_of_ofNamed hStore
  rcases ctx.exists_eliminated hWell hTrail true with
    ⟨traced, hTraced, _, hTracked⟩
  rcases (Context.eliminated_eq_ok hWell hTraced).1.exists_scan
    hTracked with ⟨events, hScan⟩
  rcases exists_lazy hTraced hScan with ⟨lazily, hLazy, hSame⟩
  refine ⟨traced.untracked, traced, _, lazily,
    Context.eliminated_untracked hTraced, hTraced,
    scanTracked_of_scan hTraced hScan, hLazy, hScan, hSame, ?_⟩
  rw [Matrix.hasEvent_untracked]
  exact Matrix.hasEvent_iff_of_scan hScan

/-
  With `l_0` on the trail each of the rows determines its
  variable, two of them as sums of several constraints.
-/
theorem lazy_reports_what_eager_reports_about_sums :
    ∃ (ctx : Context) (eagerly lazily : Findings),
      Store.ofNamed [⟨0, true⟩, ⟨1, true⟩, ⟨2, true⟩, ⟨3, true⟩]
          [(1, ⟨[⟨0, true⟩, ⟨1, true⟩], .odd⟩),
            (2, ⟨[⟨1, true⟩, ⟨2, true⟩], .odd⟩),
            (3, ⟨[⟨0, true⟩, ⟨2, true⟩, ⟨3, true⟩], .odd⟩)] =
          .ok ctx.store ∧
        ctx.trail.values.size = ctx.store.numVariables ∧
        ctx.trail.entries = [⟨⟨0, true⟩, 1⟩] ∧
        eliminateAndScan .eager ctx = .ok eagerly ∧
        eliminateAndScan .lazy ctx = .ok lazily ∧
        lazily.events = eagerly.events ∧
        eagerly.events.map (fun event => event.origin.positions) =
          [[0], [0, 1], [0, 1, 2]] := by
  have hRun :
      (Store.ofNamed [⟨0, true⟩, ⟨1, true⟩, ⟨2, true⟩, ⟨3, true⟩]
          [(1, ⟨[⟨0, true⟩, ⟨1, true⟩], .odd⟩),
            (2, ⟨[⟨1, true⟩, ⟨2, true⟩], .odd⟩),
            (3, ⟨[⟨0, true⟩, ⟨2, true⟩, ⟨3, true⟩],
              .odd⟩)]).toOption.any
        (fun s =>
          ((Trail.empty s.numVariables).push
            ⟨0, true⟩ 1).toOption.any fun trail =>
          decide (trail.values.size = s.numVariables) &&
          (eliminateAndScan .eager
              ⟨s, trail, true, false⟩).toOption.any
            fun eagerly =>
              decide (eagerly.events.map
                (fun event => event.origin.positions) =
                  [[0], [0, 1], [0, 1, 2]])) =
        true := by
    decide +kernel
  rcases exists_ok_of_any hRun with ⟨s, hStore, hRun⟩
  rcases exists_ok_of_any hRun with ⟨trail, hPush, hRun⟩
  rw [Bool.and_eq_true] at hRun
  rcases hRun with ⟨hSize, hRun⟩
  rcases exists_ok_of_any hRun with ⟨eagerly, hEager, hOrigins⟩
  rcases lazy_reports_what_eager_reports ⟨s, trail, true, false⟩
      hStore (of_decide_eq_true hSize) with
    ⟨_, _, same, lazily, _, _, hSame, hLazy, _, hEvents, _⟩
  cases hEager.symm.trans hSame
  exact ⟨⟨s, trail, true, false⟩, eagerly, lazily, hStore,
    of_decide_eq_true hSize, Trail.entries_of_push hPush, hEager,
    hLazy, hEvents, of_decide_eq_true hOrigins⟩

end BatchMode

end ParitySolver
