import ParitySolver.Theory.Context

/-
  This file defines elimination from scratch. The matrix of
  the constraints under the trail is built and reduced each
  time, and nothing is kept.

  The eager mode does so at each assignment. The lazy mode
  waits until nothing else follows, and first reduces without
  provenance to see whether there is anything to report.

  Key definitions include:
    * `BatchMode`
    * `BatchMode.eliminateAndScan`
    * `BatchMode.onAssignment`
    * `BatchMode.onFixpoint`
-/

namespace ParitySolver

/- When to eliminate. -/
inductive BatchMode where
  /- When nothing else follows. -/
  | lazy
  /- At each assignment. -/
  | eager
deriving DecidableEq, Repr, Inhabited

namespace Context

/- The reduced matrix of the constraints under the trail. -/
def eliminated
    (ctx : Context)
    (tracked : Bool) : Except Fault Matrix := do
  (← Matrix.ofStore ctx.store ctx.trail.read tracked).eliminate .firstColumn

/- The note that shows a reduced matrix. -/
def showEliminated
    (ctx : Context)
    (m : Matrix) : Findings :=
  ctx.exhibit (.eliminated ctx.trail.size m)

end Context

namespace BatchMode

/- The events of the reduced matrix with provenance. -/
def scanTracked
    (ctx : Context) : Except Fault Findings := do
  let m ← ctx.eliminated true
  return ctx.showEliminated m ++ ⟨← m.scan ctx.store, []⟩

/- Eliminate as the mode wants, and report the events. -/
def eliminateAndScan
    (mode : BatchMode)
    (ctx : Context) : Except Fault Findings := do
  match mode with
  | .eager => scanTracked ctx
  | .lazy => do
      let m ← ctx.eliminated false
      if m.hasEvent then
        return ctx.showEliminated m ++ ⟨[], [.eliminatingAgain]⟩ ++ (← scanTracked ctx)
      else
        return ctx.showEliminated m

/- The eager mode works at the start and at each assignment. -/
def onAssignment
    (mode : BatchMode)
    (ctx : Context) : Except Fault Findings :=
  if mode = .eager && ctx.eliminate then mode.eliminateAndScan ctx else .ok .none

/- The lazy mode works when nothing else follows. -/
def onFixpoint
    (mode : BatchMode)
    (ctx : Context) : Except Fault Findings :=
  if mode = .lazy && ctx.eliminate then mode.eliminateAndScan ctx else .ok .none

end BatchMode

end ParitySolver
