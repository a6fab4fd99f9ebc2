import Mathlib.Data.List.Nodup
import Mathlib.Data.List.Perm.Subperm
import ParitySolver.DecisionStack
import ParitySolver.Proofs.Outcome

/-
  A decision stack is described by its history: the literals
  that were assigned and not taken back, newest first, each
  with its reason. Assigning puts a literal on the history,
  and going back to a level drops the newest ones.

  Key definitions include:
    * `History`
    * `History.backTo`
    * `DecisionStack.Records`

  Main declarations:
    * `DecisionStack.Records.assign`
    * `DecisionStack.Records.backjump`
    * `DecisionStack.Records.value_eq`
    * `DecisionStack.Records.literalAt_eq`
    * `DecisionStack.Records.decision_eq`
-/

namespace ParitySolver

------------------------------------------------------------
-- Histories
------------------------------------------------------------

/- Assigned literals with their reasons, newest first. -/
abbrev History (κ : Type) : Type :=
  List (Literal × Reason κ)

namespace History

variable {κ : Type}

/- The number of decisions. -/
def level
    (h : History κ) : Nat :=
  h.countP fun entry => entry.2.isDecision

/- The value of a variable, if it was assigned. -/
def value
    (h : History κ)
    (i : Nat) : Option Bool :=
  (h.find? fun entry => entry.1.index == i).map fun entry =>
    entry.1.value

/- The position of the assignment of a variable. -/
def order : History κ → Nat → Option Nat
  | [], _ => none
  | entry :: h, i =>
      if entry.1.index = i then some h.length else order h i

/- The newest assignments are dropped while they are above a level. -/
def backTo
    (bound : Nat) : History κ → History κ
  | [] => []
  | entry :: h =>
      if level (entry :: h) ≤ bound then entry :: h
      else backTo bound h

/- The stack's entries, oldest first. -/
def entries : History κ → Array (StackEntry κ)
  | [] => #[]
  | entry :: h =>
      (entries h).push ⟨entry.1.index, level (entry :: h), entry.2⟩

/- The positions of the decisions, oldest first. -/
def decisions : History κ → Array Nat
  | [] => #[]
  | entry :: h =>
      if entry.2.isDecision then (decisions h).push h.length
      else decisions h

theorem level_cons
    (entry : Literal × Reason κ)
    (h : History κ) :
    level (entry :: h) =
      if entry.2.isDecision = true then level h + 1
      else level h := by
  unfold level
  rw [List.countP_cons]
  split <;> rfl

theorem level_le_level_cons
    (entry : Literal × Reason κ)
    (h : History κ) :
    level h ≤ level (entry :: h) := by
  rw [level_cons]
  split <;> omega

theorem size_entries
    (h : History κ) :
    (entries h).size = h.length := by
  induction h with
  | nil => rfl
  | cons entry h ih =>
      rw [entries, Array.size_push, ih, List.length_cons]

theorem size_decisions
    (h : History κ) :
    (decisions h).size = level h := by
  induction h with
  | nil => rfl
  | cons entry h ih =>
      rw [decisions, level_cons]
      split
      · rw [Array.size_push, ih]
      · exact ih

theorem value_cons
    (entry : Literal × Reason κ)
    (h : History κ)
    (i : Nat) :
    value (entry :: h) i =
      if entry.1.index = i then some entry.1.value
      else value h i := by
  unfold value
  by_cases hEq : entry.1.index = i
  · rw [List.find?_cons_of_pos (by simpa using hEq), if_pos hEq]
    rfl
  · rw [List.find?_cons_of_neg (by simpa using hEq), if_neg hEq]

theorem order_isSome_eq
    (h : History κ)
    (i : Nat) :
    (order h i).isSome = (value h i).isSome := by
  induction h with
  | nil => rfl
  | cons entry h ih =>
      rw [order, value_cons]
      split
      · rfl
      · exact ih

/- A variable is open as long as no entry is about it. -/
theorem order_eq_none_iff
    {h : History κ}
    {i : Nat} :
    order h i = none ↔ ∀ entry ∈ h, entry.1.index ≠ i := by
  induction h with
  | nil => simp [order]
  | cons entry h ih =>
      rw [order, List.forall_mem_cons]
      by_cases hEq : entry.1.index = i
      · simp [hEq]
      · rw [if_neg hEq, ih]
        exact ⟨fun hRest => ⟨hEq, hRest⟩, And.right⟩

theorem value_eq_none_of_order
    {h : History κ}
    {i : Nat}
    (hOrder : order h i = none) :
    value h i = none := by
  have hSome := order_isSome_eq h i
  rw [hOrder] at hSome
  exact Option.isNone_iff_eq_none.mp
    (Option.isSome_eq_false_iff.mp hSome.symm)

theorem order_eq_none_of_value
    {h : History κ}
    {i : Nat}
    (hValue : value h i = none) :
    order h i = none := by
  have hSome := order_isSome_eq h i
  rw [hValue] at hSome
  exact Option.isNone_iff_eq_none.mp
    (Option.isSome_eq_false_iff.mp hSome)

/- Literals that were assigned have their value. -/
theorem value_eq_some_iff
    {h : History κ}
    (hDistinct : (h.map fun entry => entry.1.index).Nodup)
    {i : Nat}
    {b : Bool} :
    value h i = some b ↔
      (⟨i, b⟩ : Literal) ∈ h.map Prod.fst := by
  induction h with
  | nil => simp [value]
  | cons entry h ih =>
      rw [List.map_cons, List.nodup_cons] at hDistinct
      rw [value_cons, List.map_cons, List.mem_cons]
      by_cases hEq : entry.1.index = i
      · rw [if_pos hEq]
        constructor
        · intro hValue
          exact .inl (by cases hValue; rw [← hEq])
        · rintro (hHead | hTail)
          · rw [← hHead]
          · rcases List.mem_map.mp hTail with ⟨other, hMem, hLiteral⟩
            refine absurd ?_ hDistinct.1
            rw [hEq]
            exact List.mem_map.mpr ⟨other, hMem, by rw [hLiteral]⟩
      · rw [if_neg hEq, ih hDistinct.2]
        constructor
        · exact .inr
        · rintro (hHead | hTail)
          · exact absurd (by rw [← hHead]) hEq
          · exact hTail

/- The assignment at a position of the stack. -/
theorem entries_append
    (newer : History κ)
    (entry : Literal × Reason κ)
    (older : History κ) :
    (entries (newer ++ entry :: older))[older.length]? =
      some ⟨entry.1.index, level (entry :: older), entry.2⟩ := by
  induction newer with
  | nil =>
      rw [List.nil_append, entries, ← size_entries older,
        Array.getElem?_push_size]
  | cons next newer ih =>
      have hLt :
          older.length < (entries (newer ++ entry :: older)).size := by
        rw [size_entries, List.length_append, List.length_cons]
        omega
      rw [List.cons_append, entries, Array.getElem?_push_lt hLt,
        ← Array.getElem?_eq_getElem hLt, ih]

/- The position of an entry is the number of older ones. -/
theorem order_append
    {newer older : History κ}
    {entry : Literal × Reason κ}
    (hDistinct :
      ((newer ++ entry :: older).map fun entry =>
        entry.1.index).Nodup) :
    order (newer ++ entry :: older) entry.1.index =
      some older.length := by
  induction newer with
  | nil => exact if_pos rfl
  | cons first newer ih =>
      rcases List.nodup_cons.mp hDistinct with ⟨hNew, hRest⟩
      have hNe : first.1.index ≠ entry.1.index := by
        intro hEq
        apply hNew
        exact List.mem_map.mpr ⟨entry,
          List.mem_append_right _ List.mem_cons_self, hEq.symm⟩
      exact (if_neg hNe).trans (ih hRest)

/- A variable that is assigned later has no value before. -/
theorem value_older_eq_none
    {newer older : History κ}
    {l : Literal}
    {reason : Reason κ}
    (hDistinct :
      ((newer ++ (l, reason) :: older).map fun entry =>
        entry.1.index).Nodup) :
    value older l.index = none := by
  rw [List.map_append, List.map_cons] at hDistinct
  have hNew :=
    (List.nodup_cons.mp (List.nodup_append.mp hDistinct).2.1).1
  apply value_eq_none_of_order
  apply order_eq_none_iff.mpr
  intro other hMem hEq
  exact hNew (List.mem_map.mpr ⟨other, hMem, hEq⟩)

/- The decision that a position in the table stands for. -/
theorem exists_of_decisions
    {h : History κ}
    {below first : Nat}
    (hFirst : (decisions h)[below]? = some first) :
    ∃ newer entry older,
      h = newer ++ entry :: older ∧
        entry.2.isDecision = true ∧
        older.length = first ∧
        level older = below := by
  induction h with
  | nil => cases hFirst
  | cons entry h ih =>
      rw [decisions] at hFirst
      by_cases hDecision : entry.2.isDecision = true
      · rw [if_pos hDecision, Array.getElem?_push] at hFirst
        split at hFirst
        · rename_i hEq
          cases hFirst
          exact ⟨[], entry, h, rfl, hDecision, rfl,
            by rw [hEq, size_decisions]⟩
        · rcases ih hFirst with
            ⟨newer, other, older, rfl, hOther, hLength, hLevel⟩
          exact ⟨entry :: newer, other, older, rfl, hOther, hLength,
            hLevel⟩
      · rw [if_neg hDecision] at hFirst
        rcases ih hFirst with
          ⟨newer, other, older, rfl, hOther, hLength, hLevel⟩
        exact ⟨entry :: newer, other, older, rfl, hOther, hLength,
          hLevel⟩

------------------------------------------------------------
-- Going back
------------------------------------------------------------

theorem backTo_suffix
    (bound : Nat)
    (h : History κ) :
    backTo bound h <:+ h := by
  induction h with
  | nil => exact List.suffix_refl _
  | cons entry h ih =>
      rw [backTo]
      split
      · exact List.suffix_refl _
      · exact ih.trans (List.suffix_cons _ _)

theorem backTo_of_level_le
    {bound : Nat}
    {h : History κ}
    (hLe : level h ≤ bound) :
    backTo bound h = h := by
  cases h with
  | nil => rfl
  | cons entry h => rw [backTo, if_pos hLe]

theorem backTo_cons_of_lt
    {bound : Nat}
    {entry : Literal × Reason κ}
    {h : History κ}
    (hLt : bound < level (entry :: h)) :
    backTo bound (entry :: h) = backTo bound h := by
  rw [backTo, if_neg (Nat.not_le.mpr hLt)]

theorem level_backTo
    (bound : Nat)
    (h : History κ) :
    level (backTo bound h) = min bound (level h) := by
  induction h with
  | nil => simp [backTo, level]
  | cons entry h ih =>
      rw [backTo]
      by_cases hLe : level (entry :: h) ≤ bound
      · rw [if_pos hLe]
        omega
      · rw [if_neg hLe, ih]
        have hStep : level (entry :: h) ≤ level h + 1 := by
          rw [level_cons]
          split <;> omega
        have hMono := level_le_level_cons entry h
        omega

/- Going back in two steps is going back in one. -/
theorem backTo_backTo
    {k bound : Nat}
    (hLe : k ≤ bound)
    (h : History κ) :
    backTo k (backTo bound h) = backTo k h := by
  induction h with
  | nil => rfl
  | cons entry h ih =>
      by_cases hBound : level (entry :: h) ≤ bound
      · rw [backTo_of_level_le hBound]
      · have hLt : bound < level (entry :: h) := by omega
        rw [backTo_cons_of_lt hLt, ih,
          backTo_cons_of_lt (Nat.lt_of_le_of_lt hLe hLt)]

/- Assigning keeps what going back leaves. -/
theorem backTo_suffix_cons
    (bound : Nat)
    (entry : Literal × Reason κ)
    (h : History κ) :
    backTo bound h <:+ backTo bound (entry :: h) := by
  by_cases hLe : level (entry :: h) ≤ bound
  · rw [backTo_of_level_le hLe]
    exact (backTo_suffix bound h).trans (List.suffix_cons _ _)
  · have hSame := backTo_cons_of_lt (Nat.lt_of_not_le hLe)
    exact hSame ▸ List.suffix_refl _

theorem level_append
    (newer h : History κ) :
    level (newer ++ h) = level newer + level h := by
  unfold level
  rw [List.countP_append]

theorem backTo_append_of_lt
    {bound : Nat}
    (newer : History κ)
    {h : History κ}
    (hLt : bound < level h) :
    backTo bound (newer ++ h) = backTo bound h := by
  induction newer with
  | nil => rfl
  | cons entry newer ih =>
      refine (backTo_cons_of_lt ?_).trans ih
      have hMono := level_le_level_cons entry (newer ++ h)
      have hSum := level_append newer h
      exact Nat.lt_of_lt_of_le (by omega) hMono

/- Forced literals on top of a history, the last one newest. -/
def force
    (h : History Unit)
    (ls : List Literal) : History Unit :=
  (ls.map fun l => (l, Reason.propagation ())).reverse ++ h

theorem force_cons
    (h : History Unit)
    (l : Literal)
    (ls : List Literal) :
    h.force (l :: ls) = force ((l, .propagation ()) :: h) ls := by
  simp [force]

theorem level_force
    (h : History Unit)
    (ls : List Literal) :
    (h.force ls).level = h.level := by
  rw [force, level_append]
  have hNone :
      level (ls.map fun l =>
        (l, Reason.propagation ())).reverse = 0 := by
    unfold level
    rw [List.countP_reverse, List.countP_map]
    exact List.countP_eq_zero.mpr fun _ _ => Bool.false_ne_true
  rw [hNone, Nat.zero_add]

theorem mem_force
    {h : History Unit}
    {ls : List Literal}
    {entry : Literal × Reason Unit} :
    entry ∈ h.force ls ↔
      (entry.1 ∈ ls ∧ entry.2 = .propagation ()) ∨ entry ∈ h := by
  rw [force, List.mem_append, List.mem_reverse, List.mem_map]
  constructor
  · rintro (⟨l, hMem, rfl⟩ | hOld)
    · exact .inl ⟨hMem, rfl⟩
    · exact .inr hOld
  · rintro (⟨hMem, hReason⟩ | hOld)
    · exact .inl ⟨entry.1, hMem, by rw [← hReason]⟩
    · exact .inr hOld

end History

------------------------------------------------------------
-- Stacks and their histories
------------------------------------------------------------

/- The stack is the one that the history leads to. -/
structure DecisionStack.Records {κ : Type}
    (h : History κ)
    (s : DecisionStack κ) : Prop where
  entries : s.entries = h.entries
  decisions : s.decisions = h.decisions
  order :
    ∀ (i : Nat) (state : VariableState), s.vars[i]? = some state →
      state.order = h.order i
  phase :
    ∀ (i : Nat) (state : VariableState) (b : Bool),
      s.vars[i]? = some state → h.value i = some b →
        state.phase = b
  inRange : ∀ entry ∈ h, entry.1.index < s.numVariables
  distinct : (h.map fun entry => entry.1.index).Nodup

namespace DecisionStack

variable {κ : Type} {h : History κ} {s s' : DecisionStack κ}

@[simp]
theorem numVariables_withVariables
    (n : Nat) :
    (withVariables n : DecisionStack κ).numVariables = n :=
  Array.size_replicate

theorem records_withVariables
    (n : Nat) :
    Records [] (withVariables n : DecisionStack κ) := by
  constructor
  · rfl
  · rfl
  · intro i state hState
    change (Array.replicate n (⟨false, none⟩ : VariableState))[i]? =
      some state at hState
    rw [Array.getElem?_replicate] at hState
    split at hState
    · cases hState
      rfl
    · cases hState
  · intro i state b _ hValue
    cases hValue
  · intro entry hMem
    cases hMem
  · exact List.nodup_nil

namespace Records

/- The values of the stack are those of the history. -/
theorem value_eq
    (hRecords : Records h s)
    (i : Nat) :
    s.value i = h.value i := by
  unfold DecisionStack.value
  cases hState : s.vars[i]? with
  | none =>
      cases hValue : h.value i with
      | none => rfl
      | some b =>
          have hMem :=
            (History.value_eq_some_iff hRecords.distinct).mp hValue
          rcases List.mem_map.mp hMem with ⟨entry, hIn, hLiteral⟩
          have hLt := hRecords.inRange entry hIn
          rw [hLiteral] at hLt
          exact absurd hState
            (by rw [Array.getElem?_eq_getElem hLt]; nofun)
  | some state =>
      have hOrder := hRecords.order i state hState
      rcases state with ⟨phase, order⟩
      cases order with
      | none =>
          exact (History.value_eq_none_of_order hOrder.symm).symm
      | some o =>
          have hSome := History.order_isSome_eq h i
          rw [← hOrder] at hSome
          rcases Option.isSome_iff_exists.mp hSome.symm with
            ⟨b, hValue⟩
          rw [hValue]
          exact congrArg some (hRecords.phase i _ b hState hValue)

theorem level_eq
    (hRecords : Records h s) :
    s.level = h.level := by
  rw [DecisionStack.level, hRecords.decisions,
    History.size_decisions]

/- A variable with a value has it as its phase. -/
theorem phase_eq
    (hRecords : Records h s)
    {i : Nat}
    {b : Bool}
    (hValue : h.value i = some b)
    {phase : Bool}
    (hPhase : s.phase i = .ok phase) :
    phase = b := by
  rcases map_eq_ok.mp hPhase with ⟨state, hGet, rfl⟩
  exact hRecords.phase i state b (Table.get_eq_ok_iff.mp hGet) hValue

/- Assigning puts a literal on the history. -/
theorem assign
    (hRecords : Records h s)
    {l : Literal}
    {reason : Reason κ}
    (hAssign : s.assign l reason = .ok s') :
    h.value l.index = none ∧
      s'.numVariables = s.numVariables ∧
      Records ((l, reason) :: h) s' := by
  simp only [DecisionStack.assign, bind_eq_ok, pure_eq_ok,
    require_eq_ok, exists_const, Table.get_eq_ok_iff,
    Option.isNone_iff_eq_none] at hAssign
  rcases hAssign with ⟨state, hState, hFree, rfl⟩
  have hLt := (Array.getElem?_eq_some_iff.mp hState).1
  have hOrder : h.order l.index = none :=
    (hRecords.order l.index state hState).symm.trans hFree
  have hNew := History.order_eq_none_iff.mp hOrder
  have hSize :
      (s.vars.setIfInBounds l.index
        ⟨l.value, some s.entries.size⟩).size = s.vars.size :=
    Array.size_setIfInBounds
  refine ⟨History.value_eq_none_of_order hOrder, hSize, ?_⟩
  constructor
  · simp only [hRecords.entries, hRecords.decisions]
    rw [History.entries, History.level_cons]
    congr 2
    split
    · rw [Array.size_push, History.size_decisions]
    · rw [History.size_decisions]
  · simp only [hRecords.entries, hRecords.decisions,
      History.size_entries]
    rfl
  · intro i other hOther
    rw [History.order]
    by_cases hEq : l.index = i
    · subst hEq
      rw [Array.getElem?_setIfInBounds_self_of_lt hLt] at hOther
      cases hOther
      rw [if_pos rfl, hRecords.entries, History.size_entries]
    · rw [Array.getElem?_setIfInBounds_ne hEq] at hOther
      rw [if_neg hEq]
      exact hRecords.order i other hOther
  · intro i other b hOther hValue
    rw [History.value_cons] at hValue
    by_cases hEq : l.index = i
    · subst hEq
      rw [Array.getElem?_setIfInBounds_self_of_lt hLt] at hOther
      cases hOther
      rw [if_pos rfl] at hValue
      exact Option.some.inj hValue
    · rw [Array.getElem?_setIfInBounds_ne hEq] at hOther
      rw [if_neg hEq] at hValue
      exact hRecords.phase i other b hOther hValue
  · intro entry hMem
    refine Nat.lt_of_lt_of_eq ?_ hSize.symm
    rcases List.mem_cons.mp hMem with rfl | hOld
    · exact hLt
    · exact hRecords.inRange entry hOld
  · rw [List.map_cons, List.nodup_cons]
    refine ⟨?_, hRecords.distinct⟩
    intro hMem
    rcases List.mem_map.mp hMem with ⟨entry, hOld, hEq⟩
    exact hNew entry hOld hEq

/- A variable without a value can be assigned. -/
theorem exists_assign
    (hRecords : Records h s)
    {l : Literal}
    (hLt : l.index < s.numVariables)
    (hOpen : h.value l.index = none)
    (reason : Reason κ) :
    ∃ s', s.assign l reason = .ok s' := by
  have hGet : s.vars[l.index]? = some s.vars[l.index] :=
    Array.getElem?_eq_getElem hLt
  have hOrder : s.vars[l.index].order = none := by
    rw [hRecords.order l.index _ hGet]
    exact History.order_eq_none_of_value hOpen
  simp only [DecisionStack.assign, bind_eq_ok, pure_eq_ok,
    require_eq_ok, exists_const, Table.get_eq_ok_iff]
  exact ⟨_, _, hGet, Option.isNone_iff_eq_none.mpr hOrder, rfl⟩

/- What taking the newest assignment off does to the stack. -/
theorem pop_eq_ok
    {l : Literal}
    {reason : Reason κ}
    (hRecords : Records ((l, reason) :: h) s) :
    s.pop =
      .ok ⟨s.vars.modify l.index
          fun state => { state with order := none },
        h.entries, h.decisions⟩ := by
  have hLt : l.index < s.vars.size :=
    hRecords.inRange (l, reason) List.mem_cons_self
  have hBack :
      s.entries.back? =
        some ⟨l.index, History.level ((l, reason) :: h), reason⟩ := by
    rw [hRecords.entries, History.entries, Array.back?_push]
  have hPopped : s.entries.pop = h.entries := by
    rw [hRecords.entries, History.entries, Array.pop_push]
  unfold DecisionStack.pop
  rw [hBack]
  simp only
  rw [require_of_true (by rw [hRecords.level_eq]; simp)]
  simp only [bind, Except.bind, hPopped]
  rw [hRecords.decisions, History.decisions]
  cases hReason : reason.isDecision with
  | true =>
      simp only [if_true, Array.back?_push, Array.pop_push,
        History.size_entries, BEq.rfl, require_of_true, pure,
        Except.pure]
      rw [Table.modify_eq_ok_iff.mpr ⟨hLt, rfl⟩]
  | false =>
      simp only [Bool.false_eq_true, if_false, pure, Except.pure]
      rw [Table.modify_eq_ok_iff.mpr ⟨hLt, rfl⟩]

/- Taking the newest assignment off drops it from the history. -/
theorem pop
    {entry : Literal × Reason κ}
    (hRecords : Records (entry :: h) s) :
    ∃ s', s.pop = .ok s' ∧ s'.numVariables = s.numVariables ∧
      Records h s' := by
  rcases entry with ⟨l, reason⟩
  have hDistinct := hRecords.distinct
  rw [List.map_cons, List.nodup_cons] at hDistinct
  refine ⟨_, hRecords.pop_eq_ok, Array.size_modify, ?_⟩
  have hGone : History.order h l.index = none := by
    rw [History.order_eq_none_iff]
    intro other hMem hEq
    exact hDistinct.1 (List.mem_map.mpr ⟨other, hMem, hEq⟩)
  constructor
  · rfl
  · rfl
  · intro i state hState
    rw [Array.getElem?_modify] at hState
    split at hState
    · rename_i hEq
      subst hEq
      rcases Option.map_eq_some_iff.mp hState with ⟨old, _, rfl⟩
      exact hGone.symm
    · rename_i hNe
      have hOrder := hRecords.order i state hState
      rw [History.order, if_neg hNe] at hOrder
      exact hOrder
  · intro i state b hState hValue
    rw [Array.getElem?_modify] at hState
    split at hState
    · rename_i hEq
      subst hEq
      rw [History.value_eq_none_of_order hGone] at hValue
      cases hValue
    · rename_i hNe
      refine hRecords.phase i state b hState ?_
      rw [History.value_cons, if_neg hNe]
      exact hValue
  · intro other hMem
    rw [numVariables, Array.size_modify]
    exact hRecords.inRange other (List.mem_cons_of_mem _ hMem)
  · exact hDistinct.2

/- Going back to a level drops the newest literals. -/
theorem popAbove
    (bound : Nat)
    (hRecords : Records h s)
    {fuel : Nat}
    (hFuel : h.length ≤ fuel) :
    ∃ s', popAbove bound fuel s = .ok s' ∧
      s'.numVariables = s.numVariables ∧
      Records (h.backTo bound) s' := by
  induction h generalizing s fuel with
  | nil =>
      have hLevel : s.level ≤ bound := by
        rw [hRecords.level_eq]
        exact Nat.zero_le _
      refine ⟨s, ?_, rfl, hRecords⟩
      cases fuel with
      | zero =>
          rw [DecisionStack.popAbove,
            require_of_true (decide_eq_true hLevel)]
          rfl
      | succ fuel => rw [DecisionStack.popAbove, if_pos hLevel]
  | cons entry h ih =>
      cases fuel with
      | zero => cases hFuel
      | succ fuel =>
          by_cases hLevel : History.level (entry :: h) ≤ bound
          · refine ⟨s, ?_, rfl, ?_⟩
            · rw [DecisionStack.popAbove,
                if_pos (by rw [hRecords.level_eq]; exact hLevel)]
            · rw [History.backTo_of_level_le hLevel]
              exact hRecords
          · rcases hRecords.pop with ⟨middle, hPop, hSize, hMiddle⟩
            rcases ih hMiddle (Nat.le_of_succ_le_succ hFuel) with
              ⟨last, hRest, hLast, hEnd⟩
            refine ⟨last, ?_, hLast.trans hSize, ?_⟩
            · rw [DecisionStack.popAbove,
                if_neg (by rw [hRecords.level_eq]; exact hLevel), hPop]
              exact hRest
            · rw [History.backTo_cons_of_lt (Nat.lt_of_not_le hLevel)]
              exact hEnd

theorem backjump
    (hRecords : Records h s)
    (bound : Nat) :
    ∃ s', s.backjump bound = .ok s' ∧
      s'.numVariables = s.numVariables ∧
      Records (h.backTo bound) s' := by
  apply hRecords.popAbove bound
  apply Nat.le_of_eq
  rw [hRecords.entries, History.size_entries]

variable {newer older : History κ} {entry : Literal × Reason κ}

/- The variable of an assignment points to its position. -/
theorem state_eq
    (hRecords : Records (newer ++ entry :: older) s) :
    s.vars[entry.1.index]? =
      some ⟨entry.1.value, some older.length⟩ := by
  have hMem : entry ∈ newer ++ entry :: older :=
    List.mem_append_right _ List.mem_cons_self
  have hLt : entry.1.index < s.vars.size :=
    hRecords.inRange entry hMem
  have hState : s.vars[entry.1.index]? = some s.vars[entry.1.index] :=
    Array.getElem?_eq_getElem hLt
  have hValue : History.value (newer ++ entry :: older)
      entry.1.index = some entry.1.value := by
    rw [History.value_eq_some_iff hRecords.distinct]
    exact List.mem_map.mpr ⟨entry, hMem, rfl⟩
  have hPhase := hRecords.phase _ _ _ hState hValue
  have hOrder := hRecords.order _ _ hState
  rw [History.order_append hRecords.distinct] at hOrder
  rw [hState, ← hPhase, ← hOrder]

theorem entry_eq
    (hRecords : Records (newer ++ entry :: older) s) :
    s.entries[older.length]? =
      some ⟨entry.1.index, History.level (entry :: older),
        entry.2⟩ := by
  rw [hRecords.entries, History.entries_append]

/- The literal at the position of an assignment is its literal. -/
theorem literalAt_eq
    (hRecords : Records (newer ++ entry :: older) s) :
    s.literalAt older.length = .ok entry.1 := by
  simp only [literalAt, bind_eq_ok, pure_eq_ok, require_eq_ok,
    exists_const, Table.get_eq_ok_iff]
  exact ⟨_, hRecords.entry_eq, _, hRecords.state_eq, by simp, rfl⟩

/- The literal at the start of a level is the level's decision. -/
theorem decision_eq
    (hRecords : Records h s)
    {below first : Nat}
    {last : Nat}
    (hRange : s.levelRange (below + 1) = .ok (first, last))
    {l : Literal}
    (hLiteral : s.literalAt first = .ok l) :
    ∃ newer reason older,
      h = newer ++ (l, reason) :: older ∧
        reason.isDecision = true ∧
        History.level older = below := by
  have hFirst : h.decisions[below]? = some first := by
    simp only [levelRange, bind_eq_ok, pure_eq_ok, Prod.mk.injEq,
      Table.get_eq_ok_iff] at hRange
    rcases hRange with ⟨_, hGet, rfl, _⟩
    rw [← hRecords.decisions]
    exact hGet
  rcases History.exists_of_decisions hFirst with
    ⟨newer, entry, older, hSplit, hDecision, hLength, hLevel⟩
  rw [hSplit] at hRecords
  rw [← hLength, hRecords.literalAt_eq] at hLiteral
  cases hLiteral
  exact ⟨newer, entry.2, older, hSplit, hDecision, hLevel⟩

/-
  At the highest level only forced literals are newer than
  its decision, and going back leaves the older ones.
-/
theorem top_decision_eq
    (hRecords : Records h s)
    {below first last : Nat}
    (hLevel : h.level = below + 1)
    (hRange : s.levelRange (below + 1) = .ok (first, last))
    {l : Literal}
    (hLiteral : s.literalAt first = .ok l) :
    ∃ newer reason older,
      h = newer ++ (l, reason) :: older ∧
        reason.isDecision = true ∧
        History.level newer = 0 ∧
        History.level older = below ∧
        h.backTo below = older := by
  rcases hRecords.decision_eq hRange hLiteral with
    ⟨newer, reason, older, rfl, hDecision, hBelow⟩
  have hTop :
      History.level ((l, reason) :: older) = below + 1 := by
    rw [History.level_cons, if_pos hDecision, hBelow]
  refine ⟨newer, reason, older, rfl, hDecision, ?_, hBelow, ?_⟩
  · rw [History.level_append, hTop] at hLevel
    omega
  · rw [History.backTo_append_of_lt newer (by omega),
      History.backTo_cons_of_lt (by omega),
      History.backTo_of_level_le (Nat.le_of_eq hBelow)]

/- Every level that was reached has a decision. -/
theorem exists_decision
    (hRecords : Records h s)
    {below : Nat}
    (hLt : below < h.level) :
    ∃ first last l,
      s.levelRange (below + 1) = .ok (first, last) ∧
        s.literalAt first = .ok l := by
  have hFirst : ∃ first, h.decisions[below]? = some first := by
    refine ⟨_, Array.getElem?_eq_getElem ?_⟩
    rw [History.size_decisions]
    exact hLt
  rcases hFirst with ⟨first, hFirst⟩
  rcases History.exists_of_decisions hFirst with
    ⟨newer, entry, older, rfl, _, rfl, _⟩
  rw [← hRecords.decisions] at hFirst
  refine ⟨older.length, s.decisions.getD (below + 1) s.entries.size,
    entry.1, ?_, hRecords.literalAt_eq⟩
  simp only [levelRange, bind_eq_ok, pure_eq_ok, Prod.mk.injEq,
    Table.get_eq_ok_iff]
  exact ⟨_, hFirst, rfl, trivial⟩

/- There are at most as many levels as variables. -/
theorem level_le
    (hRecords : Records h s) :
    h.level ≤ s.numVariables := by
  have hSubset :
      (h.map fun entry => entry.1.index) ⊆
        List.range s.numVariables := by
    intro i hMem
    rcases List.mem_map.mp hMem with ⟨entry, hEntry, rfl⟩
    exact List.mem_range.mpr (hRecords.inRange entry hEntry)
  have hLength := (hRecords.distinct.subperm hSubset).length_le
  rw [List.length_map, List.length_range] at hLength
  exact Nat.le_trans List.countP_le_length hLength

end Records

------------------------------------------------------------
-- Open variables
------------------------------------------------------------

/- The number of variables without a value. -/
def openVariables
    (s : DecisionStack κ) : Nat :=
  s.vars.countP fun state => state.order.isNone

theorem openVariables_le
    (s : DecisionStack κ) :
    s.openVariables ≤ s.numVariables :=
  Array.countP_le_size

/- An assignment closes one open variable. -/
theorem openVariables_of_assign
    {l : Literal}
    {reason : Reason κ}
    (hAssign : s.assign l reason = .ok s') :
    s'.openVariables + 1 = s.openVariables := by
  simp only [assign, bind_eq_ok, pure_eq_ok, require_eq_ok,
    exists_const, Table.get_eq_ok_iff] at hAssign
  rcases hAssign with ⟨state, hState, hFree, rfl⟩
  rcases Array.getElem?_eq_some_iff.mp hState with ⟨hLt, rfl⟩
  have hPositive : 0 < s.openVariables :=
    Array.countP_pos_iff.mpr
      ⟨s.vars[l.index], Array.getElem_mem hLt, hFree⟩
  rw [openVariables] at hPositive ⊢
  rw [Array.setIfInBounds_def, dif_pos hLt, Array.countP_set hLt,
    if_pos hFree, if_neg (by nofun)]
  rw [openVariables]
  omega

end DecisionStack

end ParitySolver
