import ParitySolver.Pairing

/-
  This file defines sessions: an engine and its host that are
  driven step by step, with copies that can be kept, compared
  and brought back.

  Key definitions include:
    * `Step`
    * `Session`
    * `StepResult`
    * `StepReport`
    * `Session.step`
-/

namespace ParitySolver

------------------------------------------------------------
-- Steps
------------------------------------------------------------

/- What can be done in a session. -/
inductive Step where
  /- Ask the engine what follows from the constraints alone. -/
  | init
  /- Tell the engine of a literal. -/
  | propagate (l : Literal)
  /- Decide a literal in the host only. -/
  | decide (l : Literal)
  /- Assign a literal in the host only. -/
  | assign (l : Literal)
  /- Take only the host back to a level. -/
  | backjump (level : Nat)
  /- Take only the engine back to a level. -/
  | undo (level : Nat)
  /- Take both back to a level. -/
  | back (level : Nat)
  /- Ask what follows from the constraints, and drain. -/
  | start
  /- Decide a literal, tell the engine, and drain. -/
  | branch (l : Literal)
  /- Check the host's assignment. -/
  | check
  /- List the host's values. -/
  | values
  /- Keep a copy. -/
  | save
  /- Compare the engine with that of a copy. -/
  | same (k : Nat)
  /- Bring a copy back. -/
  | restore (k : Nat)
deriving DecidableEq, Repr

/- What a step finds, if it is done. -/
inductive StepResult where
  | done
  | verdict (v : Verdict)
  | checked (v : CheckVerdict)
  | values (vs : List (Option Bool))
  | equal (b : Bool)
deriving DecidableEq, Repr

/- A pairing, and the copies that were kept, oldest first. -/
structure Session where
  pairing : Pairing
  saves : Array Pairing

/-
  The outcome of a step with its notes. Steps that drain also
  list the verdicts on the way.
-/
structure StepReport where
  outcome : Except Fault StepResult
  verdicts? : Option (List Verdict)
  notes : List Note

namespace StepReport

/- A report without notes. -/
def plain
    (outcome : Except Fault StepResult) : StepReport :=
  ⟨outcome, none, []⟩

/- A report of a call to the engine. -/
def ofReply {α : Type}
    (reply : Reply α)
    (result : α → StepResult) : StepReport :=
  ⟨reply.outcome.map result, none, reply.notes⟩

/- A report of a drain. -/
def ofDrain
    (d : Drain) : StepReport :=
  ⟨d.outcome.map fun _ => .done,
    some (d.rounds.filterMap Round.verdict?),
    d.rounds.flatMap Round.notes⟩

end StepReport

------------------------------------------------------------
-- Sessions
------------------------------------------------------------

namespace Session

/- A session with a fresh host. -/
def ofEngine
    (engine : Engine)
    (numVariables : Nat) : Session :=
  ⟨⟨engine, DecisionStack.withVariables numVariables⟩, #[]⟩

/- The session with another engine. -/
def setEngine
    (s : Session)
    (engine : Engine) : Session :=
  { s with pairing := { s.pairing with engine } }

/- The session with another host. -/
def setStack
    (s : Session)
    (stack : DecisionStack Unit) : Session :=
  { s with pairing := { s.pairing with stack } }

/- Change the host only. -/
def changeStack
    (s : Session)
    (change : DecisionStack Unit → Except Fault (DecisionStack Unit)) :
    Session × Except Fault Unit :=
  match change s.pairing.stack with
  | .error fault => (s, .error fault)
  | .ok stack => (s.setStack stack, .ok ())

/- Change the host and nothing else. -/
def hostStep
    (s : Session)
    (change : DecisionStack Unit → Except Fault (DecisionStack Unit)) :
    Session × StepReport :=
  let (s, outcome) := s.changeStack change
  (s, .plain (outcome.map fun _ => .done))

/- Call the engine and nothing else. -/
def engineStep {α : Type}
    (s : Session)
    (reply : Reply α)
    (result : α → StepResult) : Session × StepReport :=
  (s.setEngine reply.engine, .ofReply reply result)

/- Let a drain replace the pairing. -/
def drainStep
    (s : Session)
    (d : Drain) : Session × StepReport :=
  ({ s with pairing := d.pairing }, .ofDrain d)

/- The values of the host's variables. -/
def hostValues
    (s : Session) : List (Option Bool) :=
  (List.range s.pairing.stack.numVariables).map s.pairing.stack.value

/- Do one step. -/
def step
    (s : Session) : Step → Session × StepReport
  | .init =>
      s.engineStep (s.pairing.engine.initialPropagation s.pairing.stack.host) .verdict
  | .propagate l =>
      s.engineStep (s.pairing.engine.propagate s.pairing.stack.host l) .verdict
  | .decide l =>
      s.hostStep fun stack => stack.assign l .decision
  | .assign l =>
      s.hostStep fun stack => stack.assign l (.propagation ())
  | .backjump level =>
      s.hostStep fun stack => stack.backjump level
  | .undo level =>
      s.engineStep (s.pairing.engine.undo level) fun _ => .done
  | .back level =>
      match s.changeStack fun stack => stack.backjump level with
      | (s, .error fault) => (s, .plain (.error fault))
      | (s, .ok ()) => s.engineStep (s.pairing.engine.undo level) fun _ => .done
  | .start =>
      s.drainStep (s.pairing.start .none)
  | .branch l =>
      match s.changeStack fun stack => stack.assign l .decision with
      | (s, .error fault) => (s, ⟨.error fault, some [], []⟩)
      | (s, .ok ()) => s.drainStep (s.pairing.follow .none l)
  | .check =>
      let (notes, outcome) := s.pairing.engine.check s.pairing.stack.host
      (s, ⟨outcome.map .checked, none, notes⟩)
  | .values =>
      (s, .plain (.ok (.values s.hostValues)))
  | .save =>
      ({ s with saves := s.saves.push s.pairing }, .plain (.ok .done))
  | .same k =>
      (s, .plain ((Table.get s.saves k).map fun p => .equal (s.pairing.engine.same p.engine)))
  | .restore k =>
      match Table.get s.saves k with
      | .error fault => (s, .plain (.error fault))
      | .ok pairing => ({ s with pairing }, .plain (.ok .done))

end Session

end ParitySolver
