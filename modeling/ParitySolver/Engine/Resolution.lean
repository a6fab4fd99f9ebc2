import ParitySolver.Host
import ParitySolver.Note

/-
  This file turns the events of a theory into a verdict. The
  host may know more than the trail: a forced literal that
  the host holds is no news, and one whose complement the
  host holds is a conflict.

  Key definitions include:
    * `Sifted`
    * `sift`
    * `resolve`
-/

namespace ParitySolver

------------------------------------------------------------
-- Sifting
------------------------------------------------------------

/- What remains of the forced literals. -/
inductive Sifted where
  /- A conflict, with the note about it. -/
  | clash (reason : List Literal) (note : Note)
  /- Literals without a value in the host, with their origins. -/
  | pending (forced : List (Literal × Origin))

/- Put a literal into a list that ascends by variable. -/
def insertByIndex
    (l : Literal) : List Literal → List Literal
  | [] => [l]
  | k :: ks => if l.index ≤ k.index then l :: k :: ks else k :: insertByIndex l ks

/-
  Compare forced literals with the host and with each other,
  in order. The first clash ends the comparison.
-/
def sift
    (store : Store)
    (trail : Trail)
    (host : Host)
    (pending : List (Literal × Origin)) : List Event → Except Fault Sifted
  | [] => .ok (.pending pending)
  | .conflict _ :: events => sift store trail host pending events
  | .propagation l origin :: events => do
      require (!(← trail.isAssigned l.index)) (.onTrail l)
      if ← host.isTrue l then
        sift store trail host pending events
      else if ← host.isFalse l then
        let reason := insertByIndex l.negate (← origin.explain store trail (some l.index))
        return .clash reason (.forcedButFalse l reason)
      else
        match pending.find? fun entry => entry.1.index == l.index with
        | none => sift store trail host (pending ++ [(l, origin)]) events
        | some (first, firstOrigin) =>
            if first = l then
              sift store trail host pending events
            else
              let both ← firstOrigin.combine origin store.size
              let reason ← both.explain store trail none
              return .clash reason (.bothForced first l reason)

------------------------------------------------------------
-- Verdicts
------------------------------------------------------------

/- The origin of the first conflict among events. -/
def firstConflict? : List Event → Option Origin
  | [] => none
  | .conflict origin :: _ => some origin
  | .propagation _ _ :: events => firstConflict? events

/- A forced literal with its reason. -/
def justify
    (store : Store)
    (trail : Trail)
    (entry : Literal × Origin) : Except Fault Propagation := do
  return ⟨entry.1, ← entry.2.explain store trail (some entry.1.index)⟩

/- The verdict on a list of events, with the notes about it. -/
def resolve
    (store : Store)
    (trail : Trail)
    (host : Host)
    (events : List Event) : Except Fault (Verdict × List Note) := do
  match firstConflict? events with
  | some origin => do
      let reason ← origin.explain store trail none
      return (.conflict reason, [.contradiction reason])
  | none => do
      match ← sift store trail host [] events with
      | .clash reason note => return (.conflict reason, [note])
      | .pending [] => return (.nothing, [])
      | .pending forced => do
          let propagations ← forced.mapM (justify store trail)
          return (.forced propagations, [.forced propagations])

end ParitySolver
