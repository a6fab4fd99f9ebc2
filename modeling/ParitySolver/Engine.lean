import ParitySolver.Engine.Resolution
import ParitySolver.Theory

/-
  This file defines the propagation engine. A host tells it
  which literals it holds, and the engine answers with what
  follows from the constraints. When the host goes back to an
  earlier decision level, the engine goes back with it.

  Key definitions include:
    * `Engine`
    * `Reply`
    * `Engine.ofStore`
    * `Engine.initialPropagation`
    * `Engine.propagate`
    * `Engine.undo`
    * `Engine.check`
-/

namespace ParitySolver

------------------------------------------------------------
-- Engines
------------------------------------------------------------

/-
  An engine. `highestLevel` is the highest decision level
  that it has seen since it last went back.
-/
structure Engine where
  config : Config
  store : Store
  trail : Trail
  theory : Theory
  state : EngineState
  highestLevel : Nat

/-
  The engine after a call, the notes of the call, and its
  answer. After a fault the engine is as the call left it.
-/
structure Reply (α : Type) where
  engine : Engine
  notes : List Note
  outcome : Except Fault α

namespace Engine

/- The notes about a new engine. -/
def setupNotes
    (store : Store)
    (config : Config) : List Note :=
  [.setup store.size store.numColumns config.strategy config.cutoff,
    .exhibit config.display (.constraints store)]

/- An engine that has taken in nothing. -/
def ofStore
    (store : Store)
    (config : Config) : Except Fault Engine := do
  return {
    config
    store
    trail := Trail.empty store.numVariables
    theory := ← Theory.ofStore config.strategy store
    state := .ready
    highestLevel := 0 }

/- What the theory may read at this point. -/
def context
    (e : Engine) : Context :=
  { store := e.store
    trail := e.trail
    eliminate := e.config.cutoff.admits e.trail.size e.store.numColumns
    display := e.config.display }

/- Are two engines in the same state? -/
def same
    (e f : Engine) : Bool :=
  e.config.same f.config && e.store = f.store && e.trail = f.trail &&
    e.theory = f.theory && e.state = f.state && e.highestLevel = f.highestLevel

/- Remember that the host is at a level. -/
def reach
    (e : Engine)
    (level : Nat) : Engine :=
  { e with highestLevel := max e.highestLevel level }

------------------------------------------------------------
-- Answers
------------------------------------------------------------

/- The verdict on findings, after their notes. -/
def conclude
    (e : Engine)
    (host : Host)
    (found : Findings) : List Note × Except Fault Verdict :=
  match resolve e.store e.trail host found.events with
  | .error fault => (found.notes, .error fault)
  | .ok (verdict, notes) => (found.notes ++ notes, .ok verdict)

/- If nothing follows from the findings, the theory looks again. -/
def concludeTwice
    (e : Engine)
    (host : Host)
    (found : Findings) : List Note × Except Fault Verdict :=
  match e.conclude host found with
  | (notes, .ok .nothing) =>
      match e.theory.atFixpoint e.context with
      | .error fault => (notes, .error fault)
      | .ok more =>
          let (moreNotes, outcome) := e.conclude host more
          (notes ++ moreNotes, outcome)
  | answer => answer

/- A conflict keeps the engine busy until it is undone. -/
def noteConflict
    (e : Engine)
    (level : Nat) : Except Fault Verdict → Engine
  | .ok (.conflict _) => { e with state := .conflicted level }
  | _ => e

/- Answer with what follows from findings. -/
def answer
    (e : Engine)
    (host : Host)
    (before : List Note)
    (found : Findings) : Reply Verdict :=
  let (notes, outcome) := e.concludeTwice host found
  ⟨e.noteConflict host.level outcome, before ++ notes, outcome⟩

------------------------------------------------------------
-- Propagation
------------------------------------------------------------

/-
  What follows from the constraints alone. This is asked
  before any literal is propagated.
-/
def initialPropagation
    (e : Engine)
    (host : Host) : Reply Verdict :=
  if e.trail.isEmpty && e.state = .ready then
    let e := e.reach host.level
    match e.theory.begin e.context with
    | .error fault => ⟨e, [], .error fault⟩
    | .ok found => e.answer host [] found
  else
    ⟨e, [], .error .notAtRoot⟩

/- A literal may be propagated if the host and the engine are in step. -/
def requireInStep
    (e : Engine)
    (host : Host)
    (l : Literal) : Except Fault Unit := do
  require (e.state = .ready) .engineConflicted
  require (← host.isTrue l) (.notHeldByHost l)
  require (e.trail.level ≤ host.level) (.undoMissing host.level)

/- Take in a literal, and look what follows. -/
def takeIn
    (e : Engine)
    (host : Host)
    (l : Literal) : Reply Verdict :=
  match e.trail.push l host.level with
  | .error fault => ⟨e, [], .error fault⟩
  | .ok trail =>
      let e := { e with trail }
      let notes := [Note.propagating l host.level]
      match e.theory.assign e.context with
      | .error fault => ⟨e, notes, .error fault⟩
      | .ok (theory, found) => { e with theory }.answer host notes found

/-
  Tell the engine that the host holds a literal. Nothing new
  follows from a literal that the engine has already, or that
  occurs in no constraint.
-/
def propagate
    (e : Engine)
    (host : Host)
    (l : Literal) : Reply Verdict :=
  match e.requireInStep host l with
  | .error fault => ⟨e, [], .error fault⟩
  | .ok () =>
      let e := e.reach host.level
      if e.store.isRelevant l.index then
        match e.trail.read l.index with
        | .error fault => ⟨e, [], .error fault⟩
        | .ok none => e.takeIn host l
        | .ok (some b) =>
            if b = l.value then
              ⟨e, [], .ok .nothing⟩
            else
              ⟨e, [], .error (.trailContradicted l)⟩
      else
        ⟨e, [], .ok .nothing⟩

------------------------------------------------------------
-- Going back
------------------------------------------------------------

/- Give literals back, newest first, while they are above a level. -/
def giveBack
    (level : Nat) : Nat → Engine → Except Fault Engine
  | 0, e => .ok e
  | fuel + 1, e => do
      match ← e.trail.popAbove? level with
      | none => return e
      | some (l, trail) =>
          let ctx : Context := ⟨e.store, trail, false, e.config.display⟩
          let theory ← e.theory.unassign ctx l
          giveBack level fuel { e with trail, theory }

/- Going below the level of a conflict ends it. -/
def stateAfterUndo
    (state : EngineState)
    (level : Nat) : EngineState :=
  match state with
  | .ready => .ready
  | .conflicted conflictLevel => if level < conflictLevel then .ready else state

/- Go back to a level that the engine has seen. -/
def undo
    (e : Engine)
    (level : Nat) : Reply Unit :=
  if level ≤ e.highestLevel then
    match giveBack level e.trail.size e with
    | .error fault => ⟨e, [], .error fault⟩
    | .ok e =>
        ⟨{ e with state := stateAfterUndo e.state level, highestLevel := level },
          [.undone level e.trail.size], .ok ()⟩
  else
    ⟨e, [], .error (.levelNeverReached level e.highestLevel)⟩

------------------------------------------------------------
-- Checking
------------------------------------------------------------

/- The first of some constraints that is false in the host. -/
def firstViolated?
    (host : Host) : List StoredConstraint → Except Fault (Option StoredConstraint)
  | [] => .ok none
  | c :: cs => do
      if (← host.satisfied? c.given) == some false then
        return some c
      else
        firstViolated? host cs

/- A variable as the literal that the host holds, if it has a value. -/
def hostLiteral?
    (host : Host)
    (v : Nat) : Except Fault (Option Literal) :=
  (host.read v).map fun value? => value?.map (Literal.mk v)

/-
  Is some constraint false in the host? The reason is that of
  the first one, in normal form.
-/
def check
    (e : Engine)
    (host : Host) : List Note × Except Fault CheckVerdict :=
  match firstViolated? host e.store.constraints.toList with
  | .error fault => ([], .error fault)
  | .ok none => ([], .ok .ok)
  | .ok (some c) =>
      ([.checkFailed c],
        (c.vars.mapM (hostLiteral? host)).map fun ls => .conflict ls.reduceOption)

end Engine

end ParitySolver
