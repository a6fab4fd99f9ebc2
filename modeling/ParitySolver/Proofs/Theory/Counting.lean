import ParitySolver.Proofs.Reason
import ParitySolver.Theory.Counting

/-
  Correctness of the counting theory. For each constraint it
  has the number of open variables and the sum of the others.
  So a constraint is reported only if all its variables have
  a value and it fails. Giving the newest literal back leaves
  the counts and sums as they were before.

  Key definitions include:
    * `Counting.Follows`

  Main declarations:
    * `Counting.follows_ofStore`
    * `Counting.Follows.assign`
    * `Counting.plain_of_mem_begin`
    * `Counting.plain_of_mem_assign`
    * `Counting.unassign_of_assign`
-/

namespace ParitySolver

------------------------------------------------------------
-- Open variables
------------------------------------------------------------

/- The number of variables that have no value. -/
def openCount
    (value : Nat → Option Bool)
    (vs : List Nat) : Nat :=
  vs.countP fun v => (value v).isNone

/- A variable that gets a value is no longer counted. -/
theorem openCount_of_new
    {value value' : Nat → Option Bool}
    {l : Literal}
    (hNew : ∀ w, value' w =
      if w = l.index then some l.value else value w)
    (hOpen : value l.index = none)
    {vs : List Nat}
    (hNodup : vs.Nodup) :
    openCount value' vs =
      if l.index ∈ vs then openCount value vs - 1
      else openCount value vs := by
  induction vs with
  | nil => rfl
  | cons v vs ih =>
      rw [List.nodup_cons] at hNodup
      unfold openCount at ih ⊢
      rw [List.countP_cons, List.countP_cons, ih hNodup.2, hNew v]
      by_cases hEq : v = l.index
      · subst hEq
        simp [hNodup.1, hOpen]
      · by_cases hMem : l.index ∈ vs
        · have hPos : 0 < vs.countP fun v => (value v).isNone :=
            List.countP_pos_iff.mpr ⟨l.index, hMem, by simp [hOpen]⟩
          simp only [if_neg hEq, List.mem_cons, hMem, or_true, if_true]
          omega
        · simp [hEq, Ne.symm hEq, hMem]

theorem assigned_of_openCount_eq_zero
    {value : Nat → Option Bool}
    {vs : List Nat}
    (hZero : openCount value vs = 0)
    {v : Nat}
    (hMem : v ∈ vs) :
    (value v).isSome = true := by
  have hNot := List.countP_eq_zero.mp hZero v hMem
  cases hValue : value v with
  | none => simp [hValue] at hNot
  | some b => rfl

namespace Counting

------------------------------------------------------------
-- Counts follow the trail
------------------------------------------------------------

/- The counts and sums are those of the constraints. -/
structure Follows
    (s : Store)
    (value : Nat → Option Bool)
    (t : Counting) : Prop where
  remaining :
    ∀ (r n : Nat), t.remaining[r]? = some n →
      ∃ c, s.constraints[r]? = some c ∧
        n = openCount value c.vars
  folded :
    ∀ (r : Nat) (b : Bool), t.folded[r]? = some b →
      ∃ c, s.constraints[r]? = some c ∧
        b = assignedSum value c.vars

variable {s : Store} {value value' : Nat → Option Bool}
variable {t t' : Counting}

theorem follows_ofStore
    (hEmpty : ∀ v, value v = none) :
    (ofStore s).Follows s value := by
  rw [show value = fun _ => none from funext hEmpty]
  constructor
  · intro r n hGet
    rcases Option.map_eq_some_iff.mp
      ((Array.getElem?_map ..).symm.trans hGet) with ⟨c, hAt, rfl⟩
    refine ⟨c, hAt, ?_⟩
    simp [openCount]
  · intro r b hGet
    change (Array.replicate s.size false)[r]? = some b at hGet
    rw [Array.getElem?_replicate] at hGet
    split at hGet
    · rename_i hLt
      cases hGet
      exact ⟨s.constraints[r], Array.getElem?_eq_getElem hLt,
        (assignedSum_none _).symm⟩
    · cases hGet

/- What counting an assigned variable does, and what it reports. -/
theorem assignRows_eq_ok
    {b : Bool}
    {rs : List Nat}
    (hNodup : rs.Nodup)
    {events : List Event}
    (hAssign : assignRows s b rs t = .ok (t', events)) :
    (∀ r ∈ rs, r < t.folded.size ∧
        ∃ n, t.remaining[r]? = some n ∧ 0 < n) ∧
      t' =
        ⟨rs.foldl (fun table r => table.modify r (· - 1)) t.remaining,
          rs.foldl (fun table r => table.modify r (· ^^ b))
            t.folded⟩ ∧
      ∀ event ∈ events, ∃ r c x,
        event = .conflict (.constraint r) ∧
          s.constraints[r]? = some c ∧
          t'.remaining[r]? = some 0 ∧
          t'.folded[r]? = some x ∧
          (x != c.rhs) = true := by
  induction rs generalizing t t' events with
  | nil =>
      cases hAssign
      simp
  | cons r rs ih =>
      rw [List.nodup_cons] at hNodup
      unfold assignRows at hAssign
      simp only [bind_eq_ok, require_eq_ok, exists_const,
        Table.get_eq_ok_iff, decide_eq_true_eq,
        Prod.exists] at hAssign
      rcases hAssign with
        ⟨n, hRemaining, hPos, x, hFolded, c, hAt, t₁, rest, hRest,
          hEvents⟩
      rw [Table.setIfInBounds_eq_modify (· - 1) hRemaining,
        Table.setIfInBounds_eq_modify (· ^^ b) hFolded] at hRest
      rcases ih hNodup.2 hRest with ⟨hRoom, hTable, hLater⟩
      have hRoomHead : r < t.folded.size :=
        (Array.getElem?_eq_some_iff.mp hFolded).1
      have hRemainingHere : t₁.remaining[r]? = some (n - 1) := by
        rw [hTable, Table.getElem?_foldl_modify _ hNodup.2,
          if_neg hNodup.1, Array.getElem?_modify, if_pos rfl,
          hRemaining]
        rfl
      have hFoldedHere : t₁.folded[r]? = some (x ^^ b) := by
        rw [hTable, Table.getElem?_foldl_modify _ hNodup.2,
          if_neg hNodup.1, Array.getElem?_modify, if_pos rfl, hFolded]
        rfl
      have hSame : t' = t₁ ∧
          (events = rest ∨
            ((n - 1 = 0 ∧ ((x ^^ b) != c.rhs) = true) ∧
              events = .conflict (.constraint r) :: rest)) := by
        by_cases hFails :
            (decide (n - 1 = 0) && ((x ^^ b) != c.rhs)) = true
        · rw [if_pos hFails, pure_eq_ok, Prod.mk.injEq] at hEvents
          simp only [Bool.and_eq_true, decide_eq_true_eq] at hFails
          exact ⟨hEvents.1.symm, .inr ⟨hFails, hEvents.2.symm⟩⟩
        · rw [if_neg hFails, pure_eq_ok, Prod.mk.injEq] at hEvents
          exact ⟨hEvents.1.symm, .inl hEvents.2.symm⟩
      rcases hSame with ⟨rfl, hCase⟩
      refine ⟨?_, hTable, ?_⟩
      · rintro q hMem
        rcases List.mem_cons.mp hMem with rfl | hIn
        · exact ⟨hRoomHead, n, hRemaining, hPos⟩
        · have hNe : ¬ r = q := fun hEq => hNodup.1 (hEq ▸ hIn)
          rcases hRoom q hIn with ⟨hLt, m, hGet, hMore⟩
          rw [Array.size_modify] at hLt
          rw [Array.getElem?_modify, if_neg hNe] at hGet
          exact ⟨hLt, m, hGet, hMore⟩
      · intro event hMem
        rcases hCase with rfl | ⟨⟨hZero, hFails⟩, rfl⟩
        · exact hLater event hMem
        · rcases List.mem_cons.mp hMem with rfl | hIn
          · rw [hZero] at hRemainingHere
            exact ⟨r, c, _, rfl, hAt, hRemainingHere, hFoldedHere,
              hFails⟩
          · exact hLater event hIn

theorem assign_eq_ok
    {ctx : Context}
    {found : Findings}
    (hAssign : t.assign ctx = .ok (t', found)) :
    ∃ l, ctx.trail.last? = some l ∧
      assignRows ctx.store l.value (ctx.store.constraintsOf l.index)
        t = .ok (t', found.events) := by
  unfold assign Context.newest at hAssign
  cases hLast : ctx.trail.last? with
  | none =>
      rw [hLast] at hAssign
      cases hAssign
  | some l =>
      rw [hLast] at hAssign
      simp only [bind_eq_ok, pure_eq_ok, Except.ok.injEq,
        exists_eq_left', Prod.exists, Prod.mk.injEq] at hAssign
      rcases hAssign with ⟨_, events, hRows, rfl, rfl⟩
      exact ⟨l, rfl, hRows⟩

section Assign

variable {ctx : Context} {found : Findings} {l : Literal}

/- Counts follow the trail when a literal is taken in. -/
theorem Follows.assign
    (hStore : ctx.store.WellFormed)
    (hFollows : t.Follows ctx.store value)
    (hLast : ctx.trail.last? = some l)
    (hNew : ∀ w, value' w =
      if w = l.index then some l.value else value w)
    (hOpen : value l.index = none)
    (hAssign : t.assign ctx = .ok (t', found)) :
    t'.Follows ctx.store value' := by
  rcases assign_eq_ok hAssign with ⟨k, hLast', hRows⟩
  cases hLast.symm.trans hLast'
  have hNodup := hStore.nodup_constraintsOf l.index
  rcases assignRows_eq_ok hNodup hRows with ⟨_, hTable, _⟩
  have hOccurs : ∀ (r : Nat) (c : StoredConstraint),
      ctx.store.constraints[r]? = some c →
        (r ∈ ctx.store.constraintsOf l.index ↔
          l.index ∈ c.vars) := by
    intro r c hAt
    rw [hStore.mem_constraintsOf]
    constructor
    · rintro ⟨c', hAt', hIn⟩
      cases hAt.symm.trans hAt'
      exact hIn
    · intro hIn
      exact ⟨c, hAt, hIn⟩
  constructor
  · intro r n hGet
    rw [hTable, Table.getElem?_foldl_modify _ hNodup] at hGet
    split at hGet
    next hMem =>
      rcases Option.map_eq_some_iff.mp hGet with ⟨m, hOld, rfl⟩
      rcases hFollows.remaining r m hOld with ⟨c, hAt, rfl⟩
      have hVars := hStore.nodup_vars (Array.mem_of_getElem? hAt)
      refine ⟨c, hAt, ?_⟩
      rw [openCount_of_new hNew hOpen hVars,
        if_pos ((hOccurs r c hAt).mp hMem)]
    next hNot =>
      rcases hFollows.remaining r n hGet with ⟨c, hAt, rfl⟩
      have hVars := hStore.nodup_vars (Array.mem_of_getElem? hAt)
      refine ⟨c, hAt, ?_⟩
      rw [openCount_of_new hNew hOpen hVars,
        if_neg fun hIn => hNot ((hOccurs r c hAt).mpr hIn)]
  · intro r x hGet
    rw [hTable, Table.getElem?_foldl_modify _ hNodup] at hGet
    split at hGet
    next hMem =>
      rcases Option.map_eq_some_iff.mp hGet with ⟨y, hOld, rfl⟩
      rcases hFollows.folded r y hOld with ⟨c, hAt, rfl⟩
      have hVars := hStore.nodup_vars (Array.mem_of_getElem? hAt)
      refine ⟨c, hAt, ?_⟩
      rw [assignedSum_of_new hNew hOpen hVars,
        decide_eq_true ((hOccurs r c hAt).mp hMem), Bool.and_true]
    next hNot =>
      rcases hFollows.folded r x hGet with ⟨c, hAt, rfl⟩
      have hVars := hStore.nodup_vars (Array.mem_of_getElem? hAt)
      refine ⟨c, hAt, ?_⟩
      rw [assignedSum_of_new hNew hOpen hVars,
        decide_eq_false fun hIn => hNot ((hOccurs r c hAt).mpr hIn),
        Bool.and_false, Bool.xor_false]

------------------------------------------------------------
-- Findings are shown by one constraint
------------------------------------------------------------

/- Counting reports conflicts only. -/
theorem conflict_of_mem_begin
    {event : Event}
    (hMem : event ∈ (begin ctx).events) :
    ∃ r c, event = .conflict (.constraint r) ∧
      ctx.store.constraints[r]? = some c ∧
      c.vars = [] ∧ c.rhs = true := by
  rcases List.mem_filterMap.mp hMem with ⟨⟨c, r⟩, hIn, hEvent⟩
  have hAt : ctx.store.constraints[r]? = some c := by
    simpa using List.mem_zipIdx_iff_getElem?.mp hIn
  simp only [Option.ite_none_right_eq_some, Option.some.injEq,
    Bool.and_eq_true, List.isEmpty_iff] at hEvent
  exact ⟨r, c, hEvent.2.symm, hAt, hEvent.1⟩

theorem conflict_of_mem_assign
    (hStore : ctx.store.WellFormed)
    (hAssign : t.assign ctx = .ok (t', found))
    {event : Event}
    (hMem : event ∈ found.events) :
    ∃ origin, event = .conflict origin := by
  rcases assign_eq_ok hAssign with ⟨k, _, hRows⟩
  rcases (assignRows_eq_ok (hStore.nodup_constraintsOf _) hRows).2.2
    event hMem with ⟨r, _, _, rfl, _⟩
  exact ⟨_, rfl⟩

/- What follows without any assignment is shown by one constraint. -/
theorem plain_of_mem_begin
    {event : Event}
    (hMem : event ∈ (begin ctx).events) :
    event.Plain ctx.store value := by
  rcases conflict_of_mem_begin hMem with
    ⟨r, c, rfl, hAt, hVars, hRhs⟩
  refine ⟨r, c, hAt, .failed ?_ ?_⟩
  · simp [hVars]
  · rw [hVars, hRhs]
    nofun

/- What is found with a new literal is shown by one constraint. -/
theorem plain_of_mem_assign
    (hStore : ctx.store.WellFormed)
    (hFollows : t.Follows ctx.store value)
    (hLast : ctx.trail.last? = some l)
    (hNew : ∀ w, value' w =
      if w = l.index then some l.value else value w)
    (hOpen : value l.index = none)
    (hAssign : t.assign ctx = .ok (t', found))
    {event : Event}
    (hMem : event ∈ found.events) :
    event.Plain ctx.store value' := by
  have hAfter := hFollows.assign hStore hLast hNew hOpen hAssign
  rcases assign_eq_ok hAssign with ⟨k, _, hRows⟩
  rcases (assignRows_eq_ok (hStore.nodup_constraintsOf _) hRows).2.2
    event hMem with ⟨r, c, x, rfl, hAt, hRemaining, hFolded, hFails⟩
  rcases hAfter.remaining r 0 hRemaining with ⟨c', hAt', hZero⟩
  cases hAt.symm.trans hAt'
  rcases hAfter.folded r x hFolded with ⟨c', hAt', rfl⟩
  cases hAt.symm.trans hAt'
  exact ⟨r, c, hAt, .failed
    (fun _ hIn => assigned_of_openCount_eq_zero hZero.symm hIn)
    (bne_iff_ne.mp hFails)⟩

------------------------------------------------------------
-- Giving a literal back
------------------------------------------------------------

theorem foldlM_unassignRow_eq_ok
    {b : Bool}
    {rs : List Nat}
    (hRoom : ∀ r ∈ rs, r < t.remaining.size ∧ r < t.folded.size) :
    rs.foldlM (unassignRow b) t =
      .ok
        ⟨rs.foldl (fun table r => table.modify r (· + 1)) t.remaining,
          rs.foldl (fun table r => table.modify r (· ^^ b))
            t.folded⟩ := by
  induction rs generalizing t with
  | nil => rfl
  | cons r rs ih =>
      have hHead := hRoom r List.mem_cons_self
      have hStep :
          unassignRow b t r =
            .ok ⟨t.remaining.modify r (· + 1),
              t.folded.modify r (· ^^ b)⟩ := by
        unfold unassignRow
        rw [Table.modify_eq_ok_iff.mpr ⟨hHead.1, rfl⟩,
          Table.modify_eq_ok_iff.mpr ⟨hHead.2, rfl⟩]
        rfl
      rw [List.foldlM_cons, hStep]
      refine ih ?_
      intro q hMem
      simpa using hRoom q (List.mem_cons_of_mem _ hMem)

/- Giving the newest literal back undoes taking it in. -/
theorem unassign_of_assign
    {back : Context}
    (hLast : ctx.trail.last? = some l)
    (hStore : ctx.store.WellFormed)
    (hSame : back.store = ctx.store)
    (hAssign : t.assign ctx = .ok (t', found)) :
    t'.unassign back l = .ok t := by
  rcases assign_eq_ok hAssign with ⟨k, hLast', hRows⟩
  cases hLast.symm.trans hLast'
  have hNodup := hStore.nodup_constraintsOf l.index
  rcases assignRows_eq_ok hNodup hRows with ⟨hRoom, rfl, _⟩
  unfold unassign
  rw [hSame, foldlM_unassignRow_eq_ok]
  · rw [Table.foldl_modify_foldl_modify hNodup,
      Table.foldl_modify_foldl_modify hNodup]
    · intro r _ x _
      simp
    · intro r hMem n hGet
      rcases (hRoom r hMem).2 with ⟨m, hGet', hPos⟩
      cases hGet.symm.trans hGet'
      omega
  · intro r hMem
    rcases hRoom r hMem with ⟨hLt, n, hGet, _⟩
    simp only [Table.size_foldl_modify]
    exact ⟨(Array.getElem?_eq_some_iff.mp hGet).1, hLt⟩

end Assign

end Counting

end ParitySolver
