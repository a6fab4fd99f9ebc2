import ParitySolver.DecisionStack
import ParitySolver.Engine

/-
  This file defines the interplay of an engine with a
  decision stack as its host. The host assigns the literals
  that the engine forces and propagates them in their turn,
  first come, first served, until nothing is left or there is
  a conflict.

  Key definitions include:
    * `Pairing`
    * `Round`
    * `Drain`
    * `Pairing.absorb`
    * `Pairing.drain`
    * `Pairing.start`
    * `Pairing.follow`
-/

namespace ParitySolver

------------------------------------------------------------
-- Pairings
------------------------------------------------------------

/- An engine and its host. -/
structure Pairing where
  engine : Engine
  stack : DecisionStack Unit

/- One answer of the engine, and the notes that came with it. -/
structure Round where
  notes : List Note
  outcome : Except Fault Verdict

/-
  The pairing after a drain, the answers on the way, oldest
  first, and whether the drain came to its end.
-/
structure Drain where
  pairing : Pairing
  rounds : List Round
  outcome : Except Fault Unit

/- What the host demands of a reason before it assigns or stops. -/
abbrev Demand : Type :=
  Host → List Literal → Except Fault Unit

/- The host takes every reason. -/
def Demand.none : Demand :=
  fun _ _ => .ok ()

/- The host holds every literal of the reason. -/
def Demand.held : Demand :=
  fun host reason => reason.forM fun l => do
    require (← host.isTrue l) .reasonNotHeld

/- The verdict of a round, unless it ended in a fault. -/
def Round.verdict?
    (r : Round) : Option Verdict :=
  match r.outcome with
  | .ok verdict => some verdict
  | .error _ => none

/- Did the last round end in a conflict? -/
def Drain.isConflict
    (d : Drain) : Bool :=
  match d.rounds.getLast? with
  | some ⟨_, .ok (.conflict _)⟩ => true
  | _ => false

namespace Pairing

------------------------------------------------------------
-- Draining
------------------------------------------------------------

/-
  Assign forced literals in the host, in order. If one cannot
  be assigned, the ones before it stay assigned.
-/
def assignForced
    (demand : Demand)
    (stack : DecisionStack Unit) : List Propagation → DecisionStack Unit × Except Fault Unit
  | [] => (stack, .ok ())
  | p :: ps =>
      match demand stack.host p.reason with
      | .error fault => (stack, .error fault)
      | .ok () =>
          match stack.assign p.literal (.propagation ()) with
          | .error fault => (stack, .error fault)
          | .ok stack => assignForced demand stack ps

/-
  Act on a verdict. The result is the queue after it, or
  nothing if the verdict is a conflict.
-/
def absorb
    (demand : Demand)
    (stack : DecisionStack Unit)
    (queue : List Literal) :
    Verdict → DecisionStack Unit × Except Fault (Option (List Literal))
  | .nothing => (stack, .ok (some queue))
  | .conflict reason => (stack, (demand stack.host reason).map fun _ => none)
  | .forced ps =>
      let (stack, outcome) := assignForced demand stack ps
      (stack, outcome.map fun _ => some (queue ++ ps.map Propagation.literal))

/-
  Act on a reply and propagate what is in the queue. Every
  round takes one literal out of the queue and puts only
  newly assigned ones into it, so the number of rounds is
  bounded by the length of the queue and the number of
  variables.
-/
def drain
    (demand : Demand) :
    Nat → DecisionStack Unit → List Literal → Reply Verdict → Drain
  | 0, stack, _, reply =>
      ⟨⟨reply.engine, stack⟩, [⟨reply.notes, reply.outcome⟩], .error .outOfFuel⟩
  | fuel + 1, stack, queue, reply =>
      let round : Round := ⟨reply.notes, reply.outcome⟩
      match reply.outcome with
      | .error fault => ⟨⟨reply.engine, stack⟩, [round], .error fault⟩
      | .ok verdict =>
          match absorb demand stack queue verdict with
          | (stack, .error fault) => ⟨⟨reply.engine, stack⟩, [round], .error fault⟩
          | (stack, .ok none) => ⟨⟨reply.engine, stack⟩, [round], .ok ()⟩
          | (stack, .ok (some [])) => ⟨⟨reply.engine, stack⟩, [round], .ok ()⟩
          | (stack, .ok (some (l :: queue))) =>
              let rest := drain demand fuel stack queue (reply.engine.propagate stack.host l)
              { rest with rounds := round :: rest.rounds }

/- A drain that begins with a reply of the engine. -/
def settle
    (demand : Demand)
    (stack : DecisionStack Unit)
    (reply : Reply Verdict) : Drain :=
  drain demand (stack.numVariables + 1) stack [] reply

/- Find what follows from the constraints alone. -/
def start
    (p : Pairing)
    (demand : Demand) : Drain :=
  settle demand p.stack (p.engine.initialPropagation p.stack.host)

/- Find what follows from a literal that the host holds. -/
def follow
    (p : Pairing)
    (demand : Demand)
    (l : Literal) : Drain :=
  settle demand p.stack (p.engine.propagate p.stack.host l)

end Pairing

end ParitySolver
