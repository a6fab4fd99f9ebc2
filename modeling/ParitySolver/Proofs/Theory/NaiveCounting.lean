import ParitySolver.Proofs.Theory.WatchLists

/-
  Watching two variables of a constraint is as good as
  counting its open variables. When a literal is taken in, a
  count looks at every constraint with its variable: if one
  variable is still open, it is forced, and if none is, the
  constraint may fail. The watch lists lead to some of these
  constraints only, but the events are the same, each of them
  once, whatever was taken in and given back before.

  Key definitions include:
    * `StoredConstraint.counted?`
    * `Store.countedEvents`
    * `Watching.Run`
    * `Watching.Built`

  Main declarations:
    * `Store.mem_countedEvents`
    * `Watching.origins_of_visitSlots`
    * `Watching.InStep.exists_assign`
    * `Watching.Run.built`
    * `Watching.reports_what_counting_shows`
-/

namespace ParitySolver

------------------------------------------------------------
-- Counting open variables
------------------------------------------------------------

/-
  What a count of the open variables of a constraint shows:
  the value of the only open one is that of the others'
  sum, and without open ones the sum is right or wrong.
-/
def StoredConstraint.counted?
    (value : Nat → Option Bool)
    (position : Nat)
    (c : StoredConstraint) : Option Event :=
  match c.vars.filter fun w => (value w).isNone with
  | [] =>
      if assignedSum value c.vars = c.rhs then none
      else some (.conflict (.constraint position))
  | [v] =>
      some (.propagation
        ⟨v, c.rhs ^^ assignedSum value (c.vars.erase v)⟩
        (.constraint position))
  | _ => none

/- What the constraints with a variable show, in order. -/
def Store.countedEvents
    (s : Store)
    (value : Nat → Option Bool)
    (v : Nat) : List Event :=
  (List.range s.size).filterMap fun r =>
    s.constraints[r]?.bind fun c =>
      if v ∈ c.vars then c.counted? value r else none

/- An open variable adds nothing to a sum. -/
theorem assignedSum_erase
    {value : Nat → Option Bool}
    {v : Nat}
    (hOpen : value v = none)
    {vs : List Nat}
    (hMem : v ∈ vs) :
    assignedSum value (vs.erase v) = assignedSum value vs := by
  unfold assignedSum
  rw [sumOver_perm _ (List.perm_cons_erase hMem), sumOver_cons, hOpen,
    Option.getD_none, Bool.false_xor]

namespace StoredConstraint

variable {value : Nat → Option Bool} {r : Nat} {c : StoredConstraint}
variable {event : Event}

/- Counting shows what the constraint does. -/
theorem counted?_eq_some_iff
    (hNodup : c.vars.Nodup) :
    c.counted? value r = some event ↔ c.Reveals value r event := by
  have hOpen : ∀ w, w ∈ c.vars.filter (fun w => (value w).isNone) ↔
      w ∈ c.vars ∧ value w = none := by
    intro w
    rw [List.mem_filter, Option.isNone_iff_eq_none]
  have hSome : ∀ w, value w ≠ none → (value w).isSome = true :=
    fun _ => Option.isSome_iff_ne_none.mpr
  unfold counted?
  split
  next hNone =>
    have hAll : ∀ w ∈ c.vars, (value w).isSome = true := by
      intro w hMem
      refine hSome w fun hFree => ?_
      have hIn := (hOpen w).mpr ⟨hMem, hFree⟩
      rw [hNone] at hIn
      cases hIn
    constructor
    · intro hCounted
      split at hCounted
      next => cases hCounted
      next hFalse =>
        cases hCounted
        exact .failed hAll hFalse
    · intro hReveals
      cases hReveals with
      | unit hMem hFree _ =>
          have hValue := hAll _ hMem
          rw [hFree] at hValue
          cases hValue
      | failed _ hFalse => rw [if_neg hFalse]
  next v hOne =>
    have hOnly : ∀ w, w = v ↔ w ∈ c.vars ∧ value w = none := by
      intro w
      rw [← hOpen w, hOne, List.mem_singleton]
    rcases (hOnly v).mp rfl with ⟨hMem, hFree⟩
    rw [assignedSum_erase hFree hMem]
    constructor
    · intro hCounted
      cases hCounted
      refine .unit hMem hFree fun w hIn hNe => ?_
      exact hSome w fun hNone => hNe ((hOnly w).mpr ⟨hIn, hNone⟩)
    · intro hReveals
      cases hReveals with
      | unit hIn hNone _ => rw [(hOnly _).mpr ⟨hIn, hNone⟩]
      | failed hAll _ =>
          have hValue := hAll v hMem
          rw [hFree] at hValue
          cases hValue
  next hNotNone hNotOne =>
    refine iff_of_false nofun fun hReveals => ?_
    -- At most one variable is open, so the list is one of the others.
    have hFilter := hNodup.filter fun w => (value w).isNone
    rcases hList : c.vars.filter (fun w => (value w).isNone) with
      _ | ⟨v, _ | ⟨w, rest⟩⟩
    · exact hNotNone hList
    · exact hNotOne v hList
    · rw [hList] at hFilter hOpen
      rcases (hOpen v).mp (by simp) with ⟨hMem, hFree⟩
      rcases (hOpen w).mp (by simp) with ⟨hMem', hFree'⟩
      have hSame := hReveals.open_unique hMem hMem' hFree hFree'
      simp [hSame] at hFilter

end StoredConstraint

namespace Store

variable {s : Store} {value : Nat → Option Bool} {v : Nat}

theorem mem_countedEvents
    (hStore : s.WellFormed)
    {event : Event} :
    event ∈ s.countedEvents value v ↔
      ∃ (r : Nat) (c : StoredConstraint),
        s.constraints[r]? = some c ∧ v ∈ c.vars ∧
          c.Reveals value r event := by
  simp only [countedEvents, List.mem_filterMap, List.mem_range,
    Option.bind_eq_some_iff, Option.ite_none_right_eq_some]
  constructor
  · rintro ⟨r, _, c, hAt, hIn, hCounted⟩
    have hNodup := hStore.nodup_vars (Array.mem_of_getElem? hAt)
    exact ⟨r, c, hAt, hIn,
      (StoredConstraint.counted?_eq_some_iff hNodup).mp hCounted⟩
  · rintro ⟨r, c, hAt, hIn, hReveals⟩
    have hNodup := hStore.nodup_vars (Array.mem_of_getElem? hAt)
    exact ⟨r, (Array.getElem?_eq_some_iff.mp hAt).1, c, hAt, hIn,
      (StoredConstraint.counted?_eq_some_iff hNodup).mpr hReveals⟩

theorem nodup_countedEvents
    (hStore : s.WellFormed) :
    (s.countedEvents value v).Nodup := by
  refine List.Nodup.filterMap ?_ List.nodup_range
  intro r r' event hFirst hSecond
  simp only [Option.mem_def, Option.bind_eq_some_iff,
    Option.ite_none_right_eq_some] at hFirst hSecond
  rcases hFirst with ⟨c, hAt, _, hCounted⟩
  rcases hSecond with ⟨c', hAt', _, hCounted'⟩
  have hNodup := hStore.nodup_vars (Array.mem_of_getElem? hAt)
  have hNodup' := hStore.nodup_vars (Array.mem_of_getElem? hAt')
  exact ((StoredConstraint.counted?_eq_some_iff hNodup).mp
    hCounted).position_eq
      ((StoredConstraint.counted?_eq_some_iff hNodup').mp hCounted')

end Store

namespace Watching

variable {s : Store} {t t' : Watching} {trail trail' : Trail}

------------------------------------------------------------
-- Each slot reports once
------------------------------------------------------------

/- A row reports at most one event. -/
theorem nodup_rowFindings
    {watcher : Watcher}
    {row : WatchRow}
    {found : Findings}
    (hFound : rowFindings trail watcher row = .ok found) :
    found.events.Nodup := by
  unfold rowFindings at hFound
  rcases bind_eq_ok.mp hFound with ⟨other?, _, hRest⟩
  cases other? with
  | some v =>
      rw [← pure_eq_ok.mp hRest]
      exact List.nodup_singleton _
  | none =>
      simp only at hRest
      split at hRest
      next =>
        rw [← pure_eq_ok.mp hRest]
        exact List.nodup_singleton _
      next =>
        cases hRest
        exact List.nodup_nil

/-
  The visits of slots report no event twice, and each event is
  shown by the constraint of one of the slots. The constraint
  has the variable.
-/
theorem origins_of_visitSlots
    {v slots : Nat}
    {ws : Array Watcher}
    {found : Findings}
    (hStore : s.WellFormed)
    (hEnlisted : t.Enlisted s)
    (hFollows : t.Follows s trail.value)
    (hAssigned : (trail.value v).isSome = true)
    (hWs : t.watchers[v]? = some ws)
    (hVisit : visitSlots trail v slots t = .ok (t', found)) :
    found.events.Nodup ∧
      ∀ event ∈ found.events, ∃ i < slots, ∃ w c,
        ws[i]? = some w ∧ s.constraints[w.row]? = some c ∧
          v ∈ c.vars ∧ c.Reveals trail.value w.row event := by
  induction slots generalizing t ws found with
  | zero =>
      cases hVisit
      exact ⟨List.nodup_nil, nofun⟩
  | succ slot ih =>
      simp only [visitSlots, bind_eq_ok, pure_eq_ok, Prod.mk.injEq,
        Prod.exists] at hVisit
      rcases hVisit with
        ⟨middle, first, hFirst, last, rest, hRest, rfl, rfl⟩
      rcases visitSlot_eq_ok hFirst with
        ⟨same, visited, row, hSame, hSlot, hRow, hVar, hCase⟩
      cases hWs.symm.trans hSame
      rcases hEnlisted.visitSlot hAssigned hWs hSlot hFirst with
        ⟨hMiddle, _, ws', hMiddleWs, _, hStay⟩
      rcases ih hMiddle (hFollows.visitSlot hFirst) hMiddleWs hRest with
        ⟨hLaterOnce, hLater⟩
      rcases hFollows _ row hRow with ⟨c, hAt, hRowFollows⟩
      have hIn : v ∈ c.vars :=
        hRowFollows.vars.mem_iff.mp
          (List.mem_of_getElem? (Array.getElem?_toList ▸ hVar))
      have hHere : first.events.Nodup ∧ ∀ event ∈ first.events,
          c.Reveals trail.value visited.row event := by
        rcases hCase with ⟨_, _, _, rfl⟩ | ⟨hNone, _, hFound⟩
        · exact ⟨List.nodup_nil, nofun⟩
        · exact ⟨nodup_rowFindings hFound, fun event hMem =>
            (mem_rowFindings_iff hRowFollows hVar hAssigned hNone
              hFound event).mp hMem⟩
      constructor
      · refine List.nodup_append.mpr ⟨hHere.1, hLaterOnce, ?_⟩
        rintro event hMem _ hMem' rfl
        -- The other slot would be about the same row.
        rcases hLater event hMem' with
          ⟨i, hLt, w, c', hSlot', _, _, hReveals⟩
        rw [hStay i hLt] at hSlot'
        have hSlotEq := hEnlisted.slot_eq_of_row_eq hWs hRow
          (hFollows.nodup_vars hStore hRow) hSlot hSlot'
          (hReveals.position_eq (hHere.2 event hMem))
        omega
      · intro event hMem
        rcases List.mem_append.mp hMem with hNow | hThen
        · exact ⟨slot, Nat.lt_succ_self slot, visited, c, hSlot, hAt,
            hIn, hHere.2 event hNow⟩
        · rcases hLater event hThen with ⟨i, hLt, w, c', hSlot', hRest⟩
          rw [hStay i hLt] at hSlot'
          exact ⟨i, Nat.lt_succ_of_lt hLt, w, c', hSlot', hRest⟩

/- Taking in a literal reports what counting shows. -/
theorem perm_countedEvents
    {ctx : Context}
    {l : Literal}
    {value : Nat → Option Bool}
    {found : Findings}
    (hStore : ctx.store.WellFormed)
    (hEnlisted : t.Enlisted ctx.store)
    (hFollows : t.Follows ctx.store value)
    (hGuarded : t.Guarded value)
    (hLast : ctx.trail.last? = some l)
    (hNew : ∀ w, ctx.trail.value w =
      if w = l.index then some l.value else value w)
    (hOpen : value l.index = none)
    (hAssign : t.assign ctx = .ok (t', found)) :
    found.events.Perm
      (ctx.store.countedEvents ctx.trail.value l.index) := by
  have hComplete := (hGuarded.assign hStore hEnlisted hFollows hLast
    hNew hOpen hAssign).2
  have hAssigned : (ctx.trail.value l.index).isSome = true := by
    rw [hNew, if_pos rfl]
    rfl
  rcases exists_visits_of_assign hStore hEnlisted hFollows hLast hNew
    hOpen hAssign with
    ⟨middle, ws, hMiddle, hMiddleFollows, _, hWs, hVisit⟩
  rcases origins_of_visitSlots hStore hMiddle hMiddleFollows hAssigned
    hWs hVisit with ⟨hOnce, hOrigins⟩
  refine (List.perm_ext_iff_of_nodup hOnce
    (Store.nodup_countedEvents hStore)).mpr fun event => ?_
  rw [Store.mem_countedEvents hStore]
  constructor
  · intro hMem
    rcases hOrigins event hMem with ⟨_, _, w, c, _, hAt, hIn, hReveals⟩
    exact ⟨w.row, c, hAt, hIn, hReveals⟩
  · rintro ⟨r, c, hAt, hIn, hReveals⟩
    exact hComplete r c event hAt hIn hReveals

------------------------------------------------------------
-- Runs
------------------------------------------------------------

/-
  The trails and watch lists that literals lead to, when they
  are taken in and the newest one is given back in any order.
-/
inductive Run
    (s : Store) : Trail → Watching → Prop where
  /- Nothing was taken in. -/
  | new {t : Watching}
      (hNew : Watching.ofStore s = .ok t) :
      Run s (Trail.empty s.numVariables) t
  /- One literal more. -/
  | assign {trail : Trail} {t t' : Watching} {l : Literal}
      {level : Nat} {ctx : Context} {found : Findings}
      (hBefore : Run s trail t)
      (hStore : ctx.store = s)
      (hPush : trail.push l level = .ok ctx.trail)
      (hAssign : t.assign ctx = .ok (t', found)) :
      Run s ctx.trail t'
  /- The newest literal is given back. -/
  | unassign {trail trail' : Trail} {t t' : Watching} {l : Literal}
      {level : Nat} {ctx : Context}
      (hBefore : Run s trail' t')
      (hStore : ctx.store = s)
      (hPush : trail.push l level = .ok trail')
      (hUnassign : t'.unassign ctx l = .ok t) :
      Run s trail t

/- The trails and watch lists that need no giving back. -/
inductive Built
    (s : Store) : Trail → Watching → Prop where
  | new {t : Watching}
      (hNew : Watching.ofStore s = .ok t) :
      Built s (Trail.empty s.numVariables) t
  | assign {trail : Trail} {t t' : Watching} {l : Literal}
      {level : Nat} {ctx : Context} {found : Findings}
      (hBefore : Built s trail t)
      (hStore : ctx.store = s)
      (hPush : trail.push l level = .ok ctx.trail)
      (hAssign : t.assign ctx = .ok (t', found)) :
      Built s ctx.trail t'

/- The newest literal can be given back, and that undoes it. -/
theorem Built.exists_unassign
    (hStore : s.WellFormed)
    (hBuilt : Built s trail' t')
    {l : Literal}
    {level : Nat}
    (hPush : trail.push l level = .ok trail')
    {ctx : Context}
    (hSame : ctx.store = s) :
    ∃ t, t'.unassign ctx l = .ok t ∧ Built s trail t := by
  cases hBuilt with
  | new hNew =>
      have hEntries := Trail.entries_of_push hPush
      cases hEntries
  | @assign older t _ k _ ctx' _ hBefore hSame' hPush' hAssign =>
      subst hSame'
      rcases Trail.eq_of_push hPush hPush' with rfl
      have hLast := Trail.last?_of_push hPush
      have hAssigned : (ctx'.trail.value l.index).isSome = true := by
        rw [Trail.value_of_push hPush, if_pos rfl]
        rfl
      exact ⟨t, unassign_of_assign hLast hAssigned hStore hSame hAssign,
        hBefore⟩

/- What was given back might as well not have been taken in. -/
theorem Run.built
    (hStore : s.WellFormed)
    (hRun : Run s trail t) :
    Built s trail t := by
  induction hRun with
  | new hNew => exact .new hNew
  | assign _ hSame hPush hAssign ih =>
      exact .assign ih hSame hPush hAssign
  | unassign _ hSame hPush hUnassign ih =>
      rcases ih.exists_unassign hStore hPush hSame with
        ⟨older, hOlder, hBuilt⟩
      cases hUnassign.symm.trans hOlder
      exact hBuilt

/- The watch lists are in order and are those of the trail. -/
structure InStep
    (s : Store)
    (trail : Trail)
    (t : Watching) : Prop where
  size : trail.values.size = s.numVariables
  follows : t.Follows s trail.value
  enlisted : t.Enlisted s
  guarded : t.Guarded trail.value

theorem inStep_new
    (hStore : s.WellFormed)
    (hNew : ofStore s = .ok t) :
    InStep s (Trail.empty s.numVariables) t := by
  have hEmpty := Trail.value_empty s.numVariables
  rcases exists_ofStore hStore with ⟨fresh, hFresh, hEnlisted⟩
  cases hNew.symm.trans hFresh
  exact ⟨Array.size_replicate, follows_ofStore hNew hEmpty, hEnlisted,
    guarded_of_empty hEmpty⟩

/- A literal can be taken in, and counting shows what is found. -/
theorem InStep.exists_assign
    (hStep : InStep s trail t)
    (hStore : s.WellFormed)
    {l : Literal}
    {level : Nat}
    {ctx : Context}
    (hSame : ctx.store = s)
    (hPush : trail.push l level = .ok ctx.trail) :
    ∃ t' found, t.assign ctx = .ok (t', found) ∧
      InStep s ctx.trail t' ∧
      found.events.Perm (s.countedEvents ctx.trail.value l.index) := by
  subst hSame
  have hNew := Trail.value_of_push hPush
  have hOpen := Trail.value_eq_none_of_push hPush
  have hLast := Trail.last?_of_push hPush
  have hSize := (Trail.size_values_of_push hPush).trans hStep.size
  have hLt : l.index < ctx.store.numVariables := by
    rw [← hStep.size]
    exact (Array.getElem?_eq_some_iff.mp (Trail.push_eq_ok hPush).1).1
  rcases hStep.enlisted.exists_assign hStore hStep.follows hSize hLt
    hLast hNew hOpen with ⟨t', found, hAssign, hEnlisted⟩
  refine ⟨t', found, hAssign, ⟨hSize, ?_, hEnlisted, ?_⟩, ?_⟩
  · exact hStep.follows.assign hStore hLast hNew hOpen hAssign
  · exact (hStep.guarded.assign hStore hStep.enlisted hStep.follows
      hLast hNew hOpen hAssign).1
  · exact perm_countedEvents hStore hStep.enlisted hStep.follows
      hStep.guarded hLast hNew hOpen hAssign

theorem Built.inStep
    (hStore : s.WellFormed)
    (hBuilt : Built s trail t) :
    InStep s trail t := by
  induction hBuilt with
  | new hNew => exact inStep_new hStore hNew
  | assign _ hSame hPush hAssign ih =>
      rcases ih.exists_assign hStore hSame hPush with
        ⟨next, found, hNext, hStep, _⟩
      cases hAssign.symm.trans hNext
      exact hStep

/-
  There are watch lists to start from. Wherever taking in and
  giving back led, the newest literal can be given back, and a
  literal of an open variable can be taken in. The events are
  those that counting shows, in some order, each of them once.
-/
theorem reports_what_counting_shows
    {declared : List Literal}
    {named : List (Nat × Constraint)}
    (hStore : Store.ofNamed declared named = .ok s) :
    (∃ t, ofStore s = .ok t) ∧
      ∀ trail t, Run s trail t →
        (∀ older l level ctx, Trail.push older l level = .ok trail →
          ctx.store = s → ∃ t', t.unassign ctx l = .ok t') ∧
        ∀ l level ctx, ctx.store = s →
          trail.push l level = .ok ctx.trail →
            ∃ t' found, t.assign ctx = .ok (t', found) ∧
              found.events.Nodup ∧
              found.events.Perm
                (s.countedEvents ctx.trail.value l.index) := by
  have hWell := Store.wellFormed_of_ofNamed hStore
  constructor
  · rcases exists_ofStore hWell with ⟨t, hNew, _⟩
    exact ⟨t, hNew⟩
  · intro trail t hRun
    have hBuilt := hRun.built hWell
    constructor
    · intro older l level ctx hPush hSame
      rcases hBuilt.exists_unassign hWell hPush hSame with
        ⟨t', hUndo, _⟩
      exact ⟨t', hUndo⟩
    · intro l level ctx hSame hPush
      rcases (hBuilt.inStep hWell).exists_assign hWell hSame hPush with
        ⟨t', found, hAssign, _, hPerm⟩
      refine ⟨t', found, hAssign, ?_, hPerm⟩
      exact hPerm.nodup_iff.mpr (Store.nodup_countedEvents hWell)

/-
  The first constraint watches `l_2` in place of `l_0` until
  `l_0` is given back. When `l_1` comes last, two constraints
  fail, and the third one has `l_3` left.
-/
theorem reports_what_counting_shows_after_return :
    ∃ s trail t ctx t' found,
      Store.ofNamed [⟨0, true⟩, ⟨1, true⟩, ⟨2, true⟩, ⟨3, true⟩]
          [(1, ⟨[⟨0, true⟩, ⟨1, true⟩, ⟨2, true⟩], .odd⟩),
            (2, ⟨[⟨0, true⟩, ⟨1, true⟩], .even⟩),
            (3, ⟨[⟨1, true⟩, ⟨3, true⟩], .odd⟩)] = .ok s ∧
        Run s trail t ∧
        ctx.store = s ∧
        trail.push ⟨1, false⟩ 2 = .ok ctx.trail ∧
        t.assign ctx = .ok (t', found) ∧
        found.events.Nodup ∧
        found.events.Perm
          [.conflict (.constraint 0), .conflict (.constraint 1),
            .propagation ⟨3, true⟩ (.constraint 2)] := by
  have hRun :
      (Store.ofNamed [⟨0, true⟩, ⟨1, true⟩, ⟨2, true⟩, ⟨3, true⟩]
          [(1, ⟨[⟨0, true⟩, ⟨1, true⟩, ⟨2, true⟩], .odd⟩),
            (2, ⟨[⟨0, true⟩, ⟨1, true⟩], .even⟩),
            (3, ⟨[⟨1, true⟩, ⟨3, true⟩], .odd⟩)]).toOption.any
        (fun s =>
          (Watching.ofStore s).toOption.any fun t =>
          ((Trail.empty s.numVariables).push
            ⟨0, true⟩ 1).toOption.any fun up =>
          (t.assign ⟨s, up, true, false⟩).toOption.any fun first =>
          (first.1.unassign ⟨s, up, true, false⟩
            ⟨0, true⟩).toOption.any fun back =>
          ((Trail.empty s.numVariables).push
            ⟨2, true⟩ 1).toOption.any fun one =>
          (back.assign ⟨s, one, true, false⟩).toOption.any
            fun second =>
          (one.push ⟨0, true⟩ 1).toOption.any fun two =>
          (second.1.assign ⟨s, two, true, false⟩).toOption.any
            fun _ =>
          (two.push ⟨1, false⟩ 2).toOption.any fun last =>
            decide (s.countedEvents last.value 1 =
              [.conflict (.constraint 0), .conflict (.constraint 1),
                .propagation ⟨3, true⟩ (.constraint 2)])) =
        true := by
    decide +kernel
  rcases exists_ok_of_any hRun with ⟨s, hStore, hRun⟩
  rcases exists_ok_of_any hRun with ⟨t, hNew, hRun⟩
  rcases exists_ok_of_any hRun with ⟨up, hUp, hRun⟩
  rcases exists_ok_of_any hRun with ⟨⟨t₁, found₁⟩, hFirst, hRun⟩
  rcases exists_ok_of_any hRun with ⟨back, hBack, hRun⟩
  rcases exists_ok_of_any hRun with ⟨one, hOne, hRun⟩
  rcases exists_ok_of_any hRun with ⟨⟨t₂, found₂⟩, hSecond, hRun⟩
  rcases exists_ok_of_any hRun with ⟨two, hTwo, hRun⟩
  rcases exists_ok_of_any hRun with ⟨⟨t₃, found₃⟩, hThird, hRun⟩
  rcases exists_ok_of_any hRun with ⟨last, hLast, hEnd⟩
  have hUpRun : Run s up t₁ := .assign (.new hNew) rfl hUp hFirst
  have hBackRun : Run s (Trail.empty s.numVariables) back := by
    refine .unassign hUpRun ?_ hUp hBack
    rfl
  have hOneRun : Run s one t₂ := .assign hBackRun rfl hOne hSecond
  have hTwoRun : Run s two t₃ := .assign hOneRun rfl hTwo hThird
  rcases ((reports_what_counting_shows hStore).2 two t₃ hTwoRun).2
      ⟨1, false⟩ 2 ⟨s, last, true, false⟩ rfl hLast with
    ⟨t', found, hAssign, hOnce, hPerm⟩
  rw [of_decide_eq_true hEnd] at hPerm
  exact ⟨s, two, t₃, _, t', found, hStore, hTwoRun, rfl, hLast, hAssign,
    hOnce, hPerm⟩

end Watching

end ParitySolver
