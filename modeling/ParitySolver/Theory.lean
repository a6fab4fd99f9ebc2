import ParitySolver.Theory.Batch
import ParitySolver.Theory.Counting
import ParitySolver.Theory.Incremental
import ParitySolver.Theory.Watching

/-
  This file defines the theories of the strategies: counting,
  watching, and watching with elimination on top of it. Unit
  propagation comes first when a literal is taken in and last
  when it is given back.

  Key definitions include:
    * `Theory`
    * `Theory.ofStore`
    * `Theory.begin`
    * `Theory.assign`
    * `Theory.unassign`
    * `Theory.atFixpoint`
-/

namespace ParitySolver

/- The state that a strategy keeps about the constraints. -/
inductive Theory where
  | counting (count : Counting)
  | watching (watch : Watching)
  | batch (watch : Watching) (mode : BatchMode)
  | incremental (watch : Watching) (elimination : Incremental)
deriving DecidableEq

namespace Theory

/- The state of a strategy before anything is assigned. -/
def ofStore
    (strategy : Strategy)
    (store : Store) : Except Fault Theory := do
  match strategy with
  | .countCheck => return .counting (Counting.ofStore store)
  | .unitPropagation => return .watching (← Watching.ofStore store)
  | .gjeFixpoint => return .batch (← Watching.ofStore store) .lazy
  | .gjeReasoned => return .batch (← Watching.ofStore store) .eager
  | .gjeIncremental =>
      return .incremental (← Watching.ofStore store) (← Incremental.ofStore store .firstColumn)
  | .gjeTableau =>
      return .incremental (← Watching.ofStore store) (← Incremental.ofStore store .minimumFill)

/- What follows without any assignment. -/
def begin
    (t : Theory)
    (ctx : Context) : Except Fault Findings := do
  match t with
  | .counting _ => return Counting.begin ctx
  | .watching watch => return watch.begin
  | .batch watch mode => return watch.begin ++ (← mode.onAssignment ctx)
  | .incremental watch elimination => return watch.begin ++ (← elimination.begin ctx)

/- Take in the newest literal of the trail. -/
def assign
    (t : Theory)
    (ctx : Context) : Except Fault (Theory × Findings) := do
  match t with
  | .counting count => do
      let (count, found) ← count.assign ctx
      return (.counting count, found)
  | .watching watch => do
      let (watch, found) ← watch.assign ctx
      return (.watching watch, found)
  | .batch watch mode => do
      let (watch, found) ← watch.assign ctx
      return (.batch watch mode, found ++ (← mode.onAssignment ctx))
  | .incremental watch elimination => do
      let (watch, found) ← watch.assign ctx
      let (elimination, more) ← elimination.assign ctx
      return (.incremental watch elimination, found ++ more)

/- Give the newest literal back. -/
def unassign
    (t : Theory)
    (ctx : Context)
    (l : Literal) : Except Fault Theory := do
  match t with
  | .counting count => return .counting (← count.unassign ctx l)
  | .watching watch => return .watching (← watch.unassign ctx l)
  | .batch watch mode => return .batch (← watch.unassign ctx l) mode
  | .incremental watch elimination => do
      let elimination ← elimination.unassign
      return .incremental (← watch.unassign ctx l) elimination

/- Look again after an assignment from which nothing followed. -/
def atFixpoint
    (t : Theory)
    (ctx : Context) : Except Fault Findings :=
  match t with
  | .batch _ mode => mode.onFixpoint ctx
  | _ => .ok .none

end Theory

end ParitySolver
