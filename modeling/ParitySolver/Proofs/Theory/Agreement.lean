import ParitySolver.Proofs.Matrix.Kernel
import ParitySolver.Proofs.Theory.Progress

/-
  The matrix that is kept up to date finds what elimination
  from scratch finds. After any literals were taken in and
  given back, it agrees with the reduced matrix of the
  constraints under the current trail on whether there is a
  contradiction, on the variables that are determined, and,
  without a contradiction, on their values. The two choose
  their pivots differently, so their rows differ.

  Key definitions include:
    * `Incremental.Run`
    * `Incremental.Built`

  Main declarations:
    * `Incremental.sharesKernel_absorb`
    * `Incremental.Run.built`
    * `Incremental.agrees_with_elimination`
-/

namespace ParitySolver

namespace Incremental

variable {s : Store} {rule : PivotRule} {m n : Matrix}
variable {t t' : Incremental} {trail trail' : Trail}

------------------------------------------------------------
-- Taking in a literal
------------------------------------------------------------

/- Replacing a column keeps the kernel, if its variable gets the value. -/
theorem sharesKernel_absorb
    {value value' : Nat → Option Bool}
    {column v : Nat}
    {b : Bool}
    {changes : List MatrixChange}
    {notes : List Note}
    (hShares : m.SharesKernel s value)
    (hColumn : s.variableTable[column]? = some v)
    (hNew : ∀ w, value' w = if w = v then some b else value w)
    (hAbsorb :
      absorb rule m column b = .ok (n, changes, notes)) :
    n.SharesKernel s value' := by
  rcases absorb_eq_ok hAbsorb with ⟨folded, rows, hFold, hCase⟩
  have hFolded := hShares.fold hColumn hNew hFold
  rcases hCase with ⟨rfl, _⟩ | ⟨r, later, notes, hRepivot, _⟩
  · exact hFolded
  · exact hFolded.of_null fun x =>
      closed_repivot (Matrix.closed_vanishes (Row.linear_columns x) _)
        Iff.rfl hRepivot

------------------------------------------------------------
-- Runs
------------------------------------------------------------

/-
  The trails and matrices that literals of relevant variables
  lead to, when they are taken in and the newest one is given
  back in any order.
-/
inductive Run
    (s : Store)
    (rule : PivotRule) : Trail → Incremental → Prop where
  /- Nothing was taken in. -/
  | new {t : Incremental}
      (hNew : Incremental.ofStore s rule = .ok t) :
      Run s rule (Trail.empty s.numVariables) t
  /- One literal more. -/
  | assign {trail : Trail} {t t' : Incremental} {l : Literal}
      {level : Nat} {ctx : Context} {found : Findings}
      (hBefore : Run s rule trail t)
      (hRelevant : s.isRelevant l.index = true)
      (hStore : ctx.store = s)
      (hPush : trail.push l level = .ok ctx.trail)
      (hAssign : t.assign ctx = .ok (t', found)) :
      Run s rule ctx.trail t'
  /- The newest literal is given back. -/
  | unassign {trail trail' : Trail} {t t' : Incremental}
      {l : Literal} {level : Nat}
      (hBefore : Run s rule trail' t')
      (hPush : trail.push l level = .ok trail')
      (hUnassign : t'.unassign = .ok t) :
      Run s rule trail t

/- The trails and matrices that need no giving back. -/
inductive Built
    (s : Store)
    (rule : PivotRule) : Trail → Incremental → Prop where
  | new {t : Incremental}
      (hNew : Incremental.ofStore s rule = .ok t) :
      Built s rule (Trail.empty s.numVariables) t
  | assign {trail : Trail} {t t' : Incremental} {l : Literal}
      {level : Nat} {ctx : Context} {found : Findings}
      (hBefore : Built s rule trail t)
      (hRelevant : s.isRelevant l.index = true)
      (hStore : ctx.store = s)
      (hPush : trail.push l level = .ok ctx.trail)
      (hAssign : t.assign ctx = .ok (t', found)) :
      Built s rule ctx.trail t'

/- The newest literal can be given back, and that undoes it. -/
theorem Built.exists_unassign
    (hBuilt : Built s rule trail' t')
    {l : Literal}
    {level : Nat}
    (hPush : trail.push l level = .ok trail') :
    ∃ t, t'.unassign = .ok t ∧ Built s rule trail t := by
  cases hBuilt with
  | new hNew =>
      have hEntries := Trail.entries_of_push hPush
      cases hEntries
  | assign hBefore _ _ hPush' hAssign =>
      rcases Trail.eq_of_push hPush hPush' with rfl
      exact ⟨_, unassign_of_assign hAssign, hBefore⟩

/- What was given back might as well not have been taken in. -/
theorem Run.built
    (hRun : Run s rule trail t) :
    Built s rule trail t := by
  induction hRun with
  | new hNew => exact .new hNew
  | assign _ hRelevant hStore hPush hAssign ih =>
      exact .assign ih hRelevant hStore hPush hAssign
  | unassign _ hPush hUnassign ih =>
      rcases ih.exists_unassign hPush with ⟨older, hOlder, hBuilt⟩
      cases hUnassign.symm.trans hOlder
      exact hBuilt

/- The matrix is in order and is that of the trail. -/
structure InStep
    (s : Store)
    (trail : Trail)
    (t : Incremental) : Prop where
  size : trail.values.size = s.numVariables
  follows : t.Follows s trail.value
  shaped : t.matrix.Shaped s.numColumns s.size
  kernel : t.matrix.SharesKernel s trail.value

theorem inStep_new
    (hStore : s.WellFormed)
    (hNew : ofStore s rule = .ok t) :
    InStep s (Trail.empty s.numVariables) t := by
  have hEmpty := Trail.value_empty s.numVariables
  rcases exists_ofStore hStore rule with ⟨fresh, hFresh, hShaped⟩
  cases hNew.symm.trans hFresh
  refine ⟨Array.size_replicate, follows_ofStore hStore hNew hEmpty,
    hShaped, ?_⟩
  simp only [ofStore, bind_eq_ok, pure_eq_ok] at hNew
  rcases hNew with ⟨start, hStart, reduced, hReduce, rfl⟩
  have hKernel : start.SharesKernel s
      (Trail.empty s.numVariables).value :=
    Matrix.sharesKernel_of_ofStore hStore
      (fun v value? hRead => by cases hRead; exact hEmpty v) hStart
  exact hKernel.of_null (Matrix.null_eliminate hReduce)

/- A literal of a relevant variable can be taken in. -/
theorem InStep.exists_assign
    (hStep : InStep s trail t)
    (hStore : s.WellFormed)
    {l : Literal}
    {level : Nat}
    (hRelevant : s.isRelevant l.index = true)
    {ctx : Context}
    (hSame : ctx.store = s)
    (hPush : trail.push l level = .ok ctx.trail) :
    ∃ t' found, t.assign ctx = .ok (t', found) ∧
      InStep s ctx.trail t' := by
  subst hSame
  have hNew := Trail.value_of_push hPush
  have hOpen := Trail.value_eq_none_of_push hPush
  have hLast := Trail.last?_of_push hPush
  rcases Incremental.exists_assign hStore hStep.shaped hStep.follows
    hRelevant hLast hNew hOpen with ⟨t', found, hAssign, hShaped⟩
  refine ⟨t', found, hAssign,
    (Trail.size_values_of_push hPush).trans hStep.size,
    hStep.follows.assign hStore hLast hNew hOpen hAssign, hShaped, ?_⟩
  rcases assign_eq_ok hAssign with
    ⟨k, column, m, changes, notes, scanned, hLast', hColumn, hAbsorb,
      _, rfl, _, _⟩
  cases hLast.symm.trans hLast'
  exact sharesKernel_absorb hStep.kernel
    ((hStore.columnOf?_eq_some_iff l.index column).mp hColumn) hNew
    hAbsorb

theorem Built.inStep
    (hStore : s.WellFormed)
    (hBuilt : Built s rule trail t) :
    InStep s trail t := by
  induction hBuilt with
  | new hNew => exact inStep_new hStore hNew
  | assign _ hRelevant hSame hPush hAssign ih =>
      rcases ih.exists_assign hStore hRelevant hSame hPush with
        ⟨next, found, hNext, hStep⟩
      cases hAssign.symm.trans hNext
      exact hStep

------------------------------------------------------------
-- Elimination from scratch
------------------------------------------------------------

theorem InStep.exists_agree
    (hStep : InStep s trail t)
    (hStore : s.WellFormed) :
    ∃ fresh m, Matrix.ofStore s trail.read true = .ok fresh ∧
      fresh.eliminate .firstColumn = .ok m ∧
      Matrix.Agree s t.matrix m := by
  have hRead : ∀ v < s.numVariables,
      ∃ value?, trail.read v = .ok value? :=
    fun v hLt => Trail.exists_read (hStep.size ▸ hLt)
  have hValue : ∀ v value?, trail.read v = .ok value? →
      trail.value v = value? :=
    fun _ _ => Trail.value_of_read
  rcases Matrix.exists_ofStore hStore hRead true with
    ⟨fresh, hFresh, hShape, hBut⟩
  rcases Matrix.exists_eliminate hShape hBut .firstColumn with
    ⟨m, hEliminate, _, _⟩
  have hEnd := (Matrix.represents_of_ofStore hStore hValue
    hFresh).1.eliminate hEliminate
  have hKernel := (Matrix.sharesKernel_of_ofStore hStore hValue
    hFresh).of_null (Matrix.null_eliminate hEliminate)
  exact ⟨fresh, m, hFresh, hEliminate,
    hStep.follows.represents.agree hStore hStep.follows.reduced
      hStep.kernel hEnd.1 hEnd.2 hKernel⟩

/-
  There is a matrix to start from. Wherever taking in and
  giving back led, the next literal can be taken in, the
  newest one can be given back, elimination from scratch
  comes to its end, and the two matrices agree.
-/
theorem agrees_with_elimination
    {declared : List Literal}
    {named : List (Nat × Constraint)}
    (hStore : Store.ofNamed declared named = .ok s)
    (rule : PivotRule) :
    (∃ t, ofStore s rule = .ok t) ∧
      ∀ trail t, Run s rule trail t →
        (∀ l level ctx, s.isRelevant l.index = true →
          ctx.store = s → trail.push l level = .ok ctx.trail →
            ∃ t' found, t.assign ctx = .ok (t', found)) ∧
        (∀ older l level, Trail.push older l level = .ok trail →
          ∃ t', t.unassign = .ok t') ∧
        ∃ fresh m, Matrix.ofStore s trail.read true = .ok fresh ∧
          fresh.eliminate .firstColumn = .ok m ∧
          Matrix.Agree s t.matrix m := by
  have hWell := Store.wellFormed_of_ofNamed hStore
  constructor
  · rcases exists_ofStore hWell rule with ⟨t, hNew, _⟩
    exact ⟨t, hNew⟩
  · intro trail t hRun
    have hStep := hRun.built.inStep hWell
    refine ⟨?_, ?_, hStep.exists_agree hWell⟩
    · intro l level ctx hRelevant hSame hPush
      rcases hStep.exists_assign hWell hRelevant hSame hPush with
        ⟨t', found, hAssign, _⟩
      exact ⟨t', found, hAssign⟩
    · intro older l level hPush
      rcases hRun.built.exists_unassign hPush with ⟨t', hUndo, _⟩
      exact ⟨t', hUndo⟩

/-
  Two constraints contradict each other, and a third one is a
  row of a single column after `l_2` was taken in, given back
  and its complement taken in.
-/
theorem agrees_with_elimination_despite_contradiction :
    ∃ s trail t fresh m,
      Store.ofNamed [⟨0, true⟩, ⟨1, true⟩, ⟨2, true⟩, ⟨3, true⟩]
          [(1, ⟨[⟨0, true⟩, ⟨1, true⟩], .odd⟩),
            (2, ⟨[⟨0, true⟩, ⟨1, true⟩], .even⟩),
            (3, ⟨[⟨2, true⟩, ⟨3, true⟩], .odd⟩)] = .ok s ∧
        Run s .minimumFill trail t ∧
        trail.entries = [⟨⟨2, false⟩, 1⟩] ∧
        t.matrix.Contradictory ∧
        Matrix.ofStore s trail.read true = .ok fresh ∧
        fresh.eliminate .firstColumn = .ok m ∧
        Matrix.Agree s t.matrix m := by
  have hRun :
      (Store.ofNamed [⟨0, true⟩, ⟨1, true⟩, ⟨2, true⟩, ⟨3, true⟩]
          [(1, ⟨[⟨0, true⟩, ⟨1, true⟩], .odd⟩),
            (2, ⟨[⟨0, true⟩, ⟨1, true⟩], .even⟩),
            (3, ⟨[⟨2, true⟩, ⟨3, true⟩], .odd⟩)]).toOption.any
        (fun s =>
          s.isRelevant 2 &&
          (Incremental.ofStore s .minimumFill).toOption.any fun t =>
          ((Trail.empty s.numVariables).push
            ⟨2, true⟩ 1).toOption.any fun up =>
          (t.assign ⟨s, up, true, false⟩).toOption.any fun first =>
          first.1.unassign.toOption.any fun back =>
          ((Trail.empty s.numVariables).push
            ⟨2, false⟩ 1).toOption.any fun trail =>
          (back.assign ⟨s, trail, true, false⟩).toOption.any
          fun second =>
            second.1.matrix.rows[1]?.any fun row =>
              decide (row.columns.ones = [] ∧ row.rhs = true)) =
        true := by
    decide +kernel
  rcases exists_ok_of_any hRun with ⟨s, hStore, hRun⟩
  rw [Bool.and_eq_true] at hRun
  rcases hRun with ⟨hRelevant, hRun⟩
  rcases exists_ok_of_any hRun with ⟨t, hNew, hRun⟩
  rcases exists_ok_of_any hRun with ⟨up, hUp, hRun⟩
  rcases exists_ok_of_any hRun with ⟨⟨t₁, found₁⟩, hFirst, hRun⟩
  rcases exists_ok_of_any hRun with ⟨back, hBack, hRun⟩
  rcases exists_ok_of_any hRun with ⟨trail, hTrail, hRun⟩
  rcases exists_ok_of_any hRun with ⟨⟨t₂, found₂⟩, hSecond, hRun⟩
  rcases (Option.any_eq_true _ _).mp hRun with ⟨row, hRow, hEmpty⟩
  have hUpRun : Run s .minimumFill up t₁ :=
    .assign (.new hNew) hRelevant rfl hUp hFirst
  have hEnd : Run s .minimumFill trail t₂ :=
    .assign (.unassign hUpRun hUp hBack) hRelevant rfl hTrail hSecond
  rcases ((agrees_with_elimination hStore .minimumFill).2 trail t₂
    hEnd).2.2 with ⟨fresh, m, hFresh, hEliminate, hAgree⟩
  exact ⟨s, trail, t₂, fresh, m, hStore, hEnd,
    Trail.entries_of_push hTrail,
    ⟨1, row, hRow, of_decide_eq_true hEmpty⟩, hFresh, hEliminate,
    hAgree⟩

end Incremental

end ParitySolver
