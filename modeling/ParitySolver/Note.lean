import ParitySolver.Config
import ParitySolver.Matrix
import ParitySolver.Verdict

/-
  This file defines the notes that operations leave about
  their work. A note holds what it is about, and its text is
  made only when somebody reads it.

  Key definitions include:
    * `Severity`
    * `Note`
    * `Note.severity`
    * `Note.text`
    * `Note.line`
-/

namespace ParitySolver

------------------------------------------------------------
-- Severities
------------------------------------------------------------

/- How prominent a note is, from the most to the least. -/
inductive Severity where
  | info
  | debug
  | trace
deriving DecidableEq, Repr, Inhabited

namespace Severity

/- The place in the order of prominence. -/
def rank : Severity → Nat
  | .info => 0
  | .debug => 1
  | .trace => 2

/- Is a note of one severity shown to a reader who asks for another? -/
def shownAt
    (severity threshold : Severity) : Bool :=
  severity.rank ≤ threshold.rank

/- How a severity is written. -/
def text : Severity → String
  | .info => "INFO"
  | .debug => "DEBUG"
  | .trace => "TRACE"

end Severity

------------------------------------------------------------
-- Notes
------------------------------------------------------------

/- A larger object that is shown in full. -/
inductive Exhibit where
  | constraints (store : Store)
  | initialMatrix (m : Matrix)
  | matrixAfter (l : Literal) (m : Matrix)
  | eliminated (assignments : Nat) (m : Matrix)

/- What an operation leaves for its reader. -/
inductive Note where
  /- An exhibit is prominent if the configuration asks to display. -/
  | exhibit (display : Bool) (object : Exhibit)
  /- An engine is set up. -/
  | setup (constraints columns : Nat) (strategy : Strategy) (cutoff : Cutoff)
  /- A literal is taken in. -/
  | propagating (l : Literal) (level : Nat)
  /- The engine has gone back. -/
  | undone (level assignments : Nat)
  /- A check has found a violated constraint. -/
  | checkFailed (c : StoredConstraint)
  /- The constraints contradict the trail. -/
  | contradiction (reason : List Literal)
  /- A forced literal is false in the host. -/
  | forcedButFalse (l : Literal) (reason : List Literal)
  /- A literal and its complement are forced. -/
  | bothForced (first second : Literal) (reason : List Literal)
  /- Literals are forced. -/
  | forced (propagations : List Propagation)
  /- An elimination is done again to learn its provenance. -/
  | eliminatingAgain
  /- A row has one open variable. -/
  | unitRow (row v : Nat)
  /- A row takes another pivot. -/
  | pivotMoved (row pivot column : Nat)
  /- The search assigns a forced literal. -/
  | assigned (l : Literal) (reason : List Literal)
  /- The search meets a conflict. -/
  | conflictAt (level : Nat) (reason : List Literal)
  /- The search tries the other value of a decision. -/
  | flipped (decision : Literal) (level : Nat)

namespace Exhibit

/- The title and the object. -/
def text : Exhibit → String
  | .constraints store => "constraints\n" ++ store.text
  | .initialMatrix m => "initial matrix\n" ++ m.text
  | .matrixAfter l m => "after " ++ l.text ++ "\n" ++ m.text
  | .eliminated assignments m =>
      "eliminated at " ++ toString assignments ++ " assignments\n" ++ m.text

end Exhibit

namespace Note

/- How prominent the note is. -/
def severity : Note → Severity
  | .exhibit display _ => if display then .info else .trace
  | .unitRow .. => .trace
  | .pivotMoved .. => .trace
  | .assigned .. => .trace
  | _ => .debug

/- The text of the note. -/
def text : Note → String
  | .exhibit _ object => object.text
  | .setup constraints columns strategy cutoff =>
      toString constraints ++ " constraints over " ++ toString columns ++
        " relevant variables, strategy " ++ strategy.name ++ ", cutoff " ++
        plainText cutoff.value
  | .propagating l level =>
      "propagate " ++ l.text ++ " at level " ++ toString level
  | .undone level assignments =>
      "undo to level " ++ toString level ++ ", " ++ toString assignments ++
        " assignments remain"
  | .checkFailed c =>
      "check failed on " ++ c.text
  | .contradiction reason =>
      "conflict " ++ Literal.listText reason
  | .forcedButFalse l reason =>
      l.text ++ " is forced but assigned " ++ l.negate.text ++
        " (" ++ Literal.listText reason ++ ")"
  | .bothForced first second reason =>
      "both " ++ first.text ++ " and " ++ second.text ++
        " are forced (" ++ Literal.listText reason ++ ")"
  | .forced propagations =>
      "forced " ++ Propagation.listText propagations
  | .eliminatingAgain =>
      "re-eliminating with provenance"
  | .unitRow row v =>
      "row " ++ toString row ++ " is unit on l_" ++ toString v
  | .pivotMoved row pivot column =>
      "row " ++ toString row ++ " pivots on column " ++ toString pivot ++
        " instead of " ++ toString column
  | .assigned l reason =>
      l.text ++ " <- " ++ Literal.listText reason
  | .conflictAt level reason =>
      "conflict at level " ++ toString level ++ ": " ++ Literal.listText reason
  | .flipped decision level =>
      "flip " ++ decision.text ++ " at level " ++ toString level

/- The severity and the text. -/
def line
    (n : Note) : String :=
  n.severity.text ++ " " ++ n.text

/- The notes that a reader asks for; without a threshold, none. -/
def shown
    (threshold? : Option Severity)
    (notes : List Note) : List Note :=
  match threshold? with
  | none => []
  | some threshold => notes.filter fun n => n.severity.shownAt threshold

end Note

end ParitySolver
