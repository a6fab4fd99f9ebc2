import Mathlib.Data.List.Forall2
import ParitySolver.Proofs.DecisionStack

/-
  The three tables of a decision stack refer to each other by
  position. Whatever variables are added and assigned, and
  whatever levels the stack goes back to, the positions agree:
  each variable with a value points to its entry, the
  decisions are listed in order, each entry has the level of
  the decisions up to it, and the levels divide the stack into
  ranges that follow each other. Going back to a level takes
  off the entries above it and changes nothing else.

  Key definitions include:
    * `Tiles`
    * `DecisionStack.Request`
    * `DecisionStack.Admits`
    * `DecisionStack.Reached`
    * `DecisionStack.InOrder`
    * `DecisionStack.CutTo`

  Main declarations:
    * `DecisionStack.Reached.exists_records`
    * `DecisionStack.Records.inOrder`
    * `DecisionStack.Records.exists_backjump`
    * `DecisionStack.requests_keep_tables_in_order`
-/

namespace ParitySolver

------------------------------------------------------------
-- Ranges that follow each other
------------------------------------------------------------

/-
  The first range starts at `start`, each other one where the
  one before it stops, and the last one stops at `stop`.
-/
def Tiles (stop : Nat) : Nat → List (Nat × Nat) → Prop
  | start, [] => start = stop
  | start, (first, last) :: rest =>
      first = start ∧ first ≤ last ∧ Tiles stop last rest

/- The positions of a range. -/
def placesIn
    (range : Nat × Nat) : List Nat :=
  List.range' range.1 (range.2 - range.1)

namespace Tiles

variable {start stop : Nat}

theorem le
    {ranges : List (Nat × Nat)}
    (hTiles : Tiles stop start ranges) :
    start ≤ stop := by
  induction ranges generalizing start with
  | nil => exact Nat.le_of_eq hTiles
  | cons range rest ih =>
      rcases range with ⟨first, last⟩
      rcases hTiles with ⟨rfl, hLe, hRest⟩
      exact Nat.le_trans hLe (ih hRest)

/- Every position is in one of the ranges, and in no other. -/
theorem flatMap_placesIn
    {ranges : List (Nat × Nat)}
    (hTiles : Tiles stop start ranges) :
    ranges.flatMap placesIn = List.range' start (stop - start) := by
  induction ranges generalizing start with
  | nil =>
      have hEq : start = stop := hTiles
      rw [hEq, Nat.sub_self]
      rfl
  | cons range rest ih =>
      rcases range with ⟨first, last⟩
      rcases hTiles with ⟨rfl, hLe, hRest⟩
      have hStop := hRest.le
      have hSum : stop - first = (last - first) + (stop - last) := by
        omega
      rw [List.flatMap_cons, ih hRest, placesIn, hSum,
        ← List.range'_append_1, Nat.add_sub_cancel' hLe]

/- Points in increasing order divide what lies between the ends. -/
theorem zip_of_pairwise
    {points : List Nat}
    (hSorted : points.Pairwise (· < ·))
    (hStart : ∀ k ∈ points, start ≤ k)
    (hStop : ∀ k ∈ points, k ≤ stop)
    (hLe : start ≤ stop) :
    Tiles stop start ((start :: points).zip (points ++ [stop])) := by
  induction points generalizing start with
  | nil => exact ⟨rfl, hLe, rfl⟩
  | cons k points ih =>
      rw [List.pairwise_cons] at hSorted
      rw [List.forall_mem_cons] at hStart hStop
      refine ⟨rfl, hStart.1, ?_⟩
      exact ih hSorted.2
        (fun other hMem => Nat.le_of_lt (hSorted.1 other hMem))
        hStop.2 hStop.1

end Tiles

theorem Reason.isDecision_iff
    {κ : Type}
    {reason : Reason κ} :
    reason.isDecision = true ↔ reason = .decision := by
  cases reason <;> simp [Reason.isDecision]

------------------------------------------------------------
-- Positions in a history
------------------------------------------------------------

namespace History

variable {κ : Type} {h newer older : History κ} {i k : Nat}

/- What stands at a position, between what is newer and older. -/
theorem exists_split
    (hLt : k < h.length) :
    ∃ newer entry older,
      h = newer ++ entry :: older ∧ older.length = k := by
  induction h with
  | nil => cases hLt
  | cons entry h ih =>
      rcases Nat.lt_succ_iff_lt_or_eq.mp hLt with hOlder | rfl
      · rcases ih hOlder with ⟨newer, other, older, rfl, hLength⟩
        exact ⟨entry :: newer, other, older, rfl, hLength⟩
      · exact ⟨[], entry, h, rfl, rfl⟩

/- The assignment that an entry of the stack stands for. -/
theorem exists_of_entries
    {stored : StackEntry κ}
    (hStored : (entries h)[k]? = some stored) :
    ∃ newer entry older,
      h = newer ++ entry :: older ∧ older.length = k ∧
        stored = ⟨entry.1.index, level (entry :: older), entry.2⟩ := by
  have hLt := (Array.getElem?_eq_some_iff.mp hStored).1
  rw [size_entries] at hLt
  rcases exists_split hLt with ⟨newer, entry, older, rfl, rfl⟩
  refine ⟨newer, entry, older, rfl, rfl, ?_⟩
  rw [entries_append] at hStored
  exact (Option.some.inj hStored).symm

/- The assignment that the position of a variable stands for. -/
theorem exists_of_order
    (hOrder : order h i = some k) :
    ∃ newer entry older,
      h = newer ++ entry :: older ∧ older.length = k ∧
        entry.1.index = i := by
  induction h with
  | nil => cases hOrder
  | cons entry h ih =>
      rw [order] at hOrder
      by_cases hEq : entry.1.index = i
      · rw [if_pos hEq] at hOrder
        exact ⟨[], entry, h, rfl, Option.some.inj hOrder, hEq⟩
      · rw [if_neg hEq] at hOrder
        rcases ih hOrder with
          ⟨newer, other, older, rfl, hLength, hIndex⟩
        exact ⟨entry :: newer, other, older, rfl, hLength, hIndex⟩

/- Newer assignments are on top of the older ones. -/
theorem entries_prefix_append
    (newer older : History κ) :
    (entries older).toList <+: (entries (newer ++ older)).toList := by
  induction newer with
  | nil => exact List.prefix_refl _
  | cons entry newer ih =>
      rw [List.cons_append, entries, Array.toList_push]
      exact ih.trans (List.prefix_append _ _)

theorem take_entries_append
    (newer older : History κ) :
    (entries (newer ++ older)).toList.take older.length =
      (entries older).toList := by
  have hTake :=
    List.prefix_iff_eq_take.mp (entries_prefix_append newer older)
  rw [Array.length_toList, size_entries] at hTake
  exact hTake.symm

theorem countP_entries
    (h : History κ) :
    (entries h).toList.countP (fun entry => entry.reason.isDecision) =
      level h := by
  induction h with
  | nil => rfl
  | cons entry h ih =>
      rw [entries, Array.toList_push, List.countP_append, ih,
        List.countP_singleton, level_cons]
      split <;> rfl

theorem level_le_of_mem_entries
    {stored : StackEntry κ}
    (hMem : stored ∈ (entries h).toList) :
    stored.level ≤ level h := by
  rcases List.getElem?_of_mem hMem with ⟨k, hStored⟩
  rw [Array.getElem?_toList] at hStored
  rcases exists_of_entries hStored with
    ⟨newer, entry, older, rfl, _, rfl⟩
  rw [level_append]
  exact Nat.le_add_left _ _

/- The decisions are listed where they stand. -/
theorem mem_decisions_iff :
    k ∈ decisions h ↔
      ∃ newer entry older,
        h = newer ++ entry :: older ∧ older.length = k ∧
          entry.2.isDecision = true := by
  constructor
  · intro hMem
    rcases Array.getElem?_of_mem hMem with ⟨below, hGet⟩
    rcases exists_of_decisions hGet with
      ⟨newer, entry, older, hSplit, hDecision, hLength, _⟩
    exact ⟨newer, entry, older, hSplit, hLength, hDecision⟩
  · rintro ⟨newer, entry, older, rfl, rfl, hDecision⟩
    induction newer with
    | nil =>
        rw [List.nil_append, decisions, if_pos hDecision]
        exact Array.mem_push_self
    | cons next newer ih =>
        rw [List.cons_append, decisions]
        split
        · exact Array.mem_push_of_mem _ ih
        · exact ih

theorem lt_length_of_mem_decisions
    (hMem : k ∈ decisions h) :
    k < h.length := by
  rcases mem_decisions_iff.mp hMem with
    ⟨newer, entry, older, rfl, rfl, _⟩
  rw [List.length_append, List.length_cons]
  omega

theorem pairwise_decisions
    (h : History κ) :
    (decisions h).toList.Pairwise (· < ·) := by
  induction h with
  | nil => exact List.Pairwise.nil
  | cons entry h ih =>
      rw [decisions]
      split
      · rw [Array.toList_push, List.pairwise_append]
        refine ⟨ih, List.pairwise_singleton _ _, ?_⟩
        intro k hMem last hLast
        rw [List.mem_singleton.mp hLast]
        exact lt_length_of_mem_decisions (Array.mem_toList_iff.mp hMem)
      · exact ih

/- Going back keeps the entries up to the level. -/
theorem toList_entries_backTo
    (bound : Nat)
    (h : History κ) :
    (entries (backTo bound h)).toList =
      (entries h).toList.filter fun entry => entry.level ≤ bound := by
  induction h with
  | nil => rfl
  | cons entry h ih =>
      by_cases hLe : level (entry :: h) ≤ bound
      · rw [backTo_of_level_le hLe, List.filter_eq_self.mpr]
        intro stored hMem
        exact decide_eq_true
          (Nat.le_trans (level_le_of_mem_entries hMem) hLe)
      · rw [backTo_cons_of_lt (Nat.lt_of_not_le hLe), ih, entries,
          Array.toList_push, List.filter_append,
          List.filter_singleton, decide_eq_false hLe]
        exact (List.append_nil _).symm

end History

namespace DecisionStack

variable {κ : Type} {h : History κ} {s s' : DecisionStack κ}

------------------------------------------------------------
-- Requests
------------------------------------------------------------

/- What one may ask of a stack. -/
inductive Request (κ : Type) where
  | addVariable (phase : Bool)
  | assign (l : Literal) (reason : Reason κ)
  | backjump (level : Nat)

/- Only a variable that exists and has no value is assigned. -/
def Admits
    (s : DecisionStack κ) : Request κ → Prop
  | .assign l _ => l.index < s.numVariables ∧ s.value l.index = none
  | .addVariable _ | .backjump _ => True

/- The stack that a request leaves. -/
def after
    (s : DecisionStack κ) :
    Request κ → Except Fault (DecisionStack κ)
  | .addVariable phase => .ok (s.addVariable phase)
  | .assign l reason => s.assign l reason
  | .backjump level => s.backjump level

/- The stacks that requests lead to. -/
inductive Reached : DecisionStack κ → Prop where
  | empty : Reached empty
  | after {s s' : DecisionStack κ} {request : Request κ} :
      Reached s → s.Admits request → s.after request = .ok s' →
        Reached s'

/- No other variable is assigned. -/
theorem admits_of_after
    {request : Request κ}
    (hAfter : s.after request = .ok s') :
    s.Admits request := by
  cases request with
  | addVariable phase => trivial
  | backjump level => trivial
  | assign l reason =>
      simp only [DecisionStack.after, assign, bind_eq_ok, pure_eq_ok,
        require_eq_ok, exists_const, Table.get_eq_ok_iff,
        Option.isNone_iff_eq_none] at hAfter
      rcases hAfter with ⟨⟨phase, order⟩, hState, hFree, _⟩
      refine ⟨(Array.getElem?_eq_some_iff.mp hState).1, ?_⟩
      cases hFree
      rw [value, hState]

/- A stack that starts with variables is one they were added to. -/
theorem reached_withVariables
    (n : Nat) :
    Reached (withVariables n : DecisionStack κ) := by
  induction n with
  | zero => exact .empty
  | succ n ih =>
      refine @Reached.after κ _ _ (.addVariable false) ih trivial ?_
      rw [DecisionStack.after, addVariable, withVariables,
        withVariables, Array.replicate_succ]

theorem Reached.assign
    {l : Literal}
    {reason : Reason κ}
    (hReached : Reached s)
    (hAssign : s.assign l reason = .ok s') :
    Reached s' :=
  @Reached.after κ s s' (.assign l reason) hReached
    (@admits_of_after κ s s' (.assign l reason) hAssign) hAssign

------------------------------------------------------------
-- What the tables say about each other
------------------------------------------------------------

/- The tables refer to each other as they should. -/
structure InOrder
    (s : DecisionStack κ) : Prop where
  seat :
    ∀ i k : Nat,
      (∃ state, s.vars[i]? = some state ∧ state.order = some k) ↔
        ∃ entry, s.entries[k]? = some entry ∧ entry.index = i
  increasing : s.decisions.toList.Pairwise (· < ·)
  decision :
    ∀ k : Nat, k ∈ s.decisions ↔
      ∃ entry, s.entries[k]? = some entry ∧ entry.reason = .decision
  counted :
    ∀ (k : Nat) (entry : StackEntry κ), s.entries[k]? = some entry →
      entry.level =
        (s.entries.toList.take (k + 1)).countP fun other =>
          other.reason.isDecision
  divided :
    ∃ ranges,
      (List.range (s.level + 1)).mapM s.levelRange = .ok ranges ∧
        Tiles s.entries.size 0 ranges ∧
        ranges.flatMap placesIn = List.range s.entries.size
  literal :
    ∀ (k : Nat) (entry : StackEntry κ), s.entries[k]? = some entry →
      ∃ b, s.literalAt k = .ok ⟨entry.index, b⟩ ∧
        s.value entry.index = some b
  reason :
    ∀ entry ∈ s.entries,
      s.reasonOf entry.index = .ok (some entry.reason)
  unassigned :
    ∀ i < s.numVariables, s.value i = none →
      s.reasonOf i = .ok none

/- The second stack is what the first one has up to a level. -/
structure CutTo
    (level : Nat)
    (s s' : DecisionStack κ) : Prop where
  entries :
    s'.entries.toList =
      s.entries.toList.filter fun entry => entry.level ≤ level
  older : s'.entries.toList <+: s.entries.toList
  literal : ∀ k < s'.entries.size, s'.literalAt k = s.literalAt k
  reason :
    ∀ entry ∈ s'.entries,
      s'.reasonOf entry.index = s.reasonOf entry.index
  unassigned :
    ∀ i, (∀ entry ∈ s'.entries, entry.index ≠ i) → s'.value i = none
  phase : ∀ i, s'.phase i = s.phase i
  unchanged : s.level ≤ level → s' = s

------------------------------------------------------------
-- Stacks that requests lead to have a history
------------------------------------------------------------

namespace Records

/- A new variable has no assignment. -/
theorem addVariable
    (hRecords : Records h s)
    (phase : Bool) :
    Records h (s.addVariable phase) := by
  have hNone : ∀ i, s.vars.size ≤ i → h.order i = none := by
    intro i hGe
    rw [History.order_eq_none_iff]
    intro entry hMem hEq
    have hLt := hRecords.inRange entry hMem
    rw [hEq] at hLt
    exact Nat.not_lt.mpr hGe hLt
  constructor
  · exact hRecords.entries
  · exact hRecords.decisions
  · intro i state hState
    change (s.vars.push ⟨phase, none⟩)[i]? = some state at hState
    rw [Array.getElem?_push] at hState
    split at hState
    · rename_i hEq
      cases hState
      exact (hNone i (Nat.le_of_eq hEq.symm)).symm
    · exact hRecords.order i state hState
  · intro i state b hState hValue
    change (s.vars.push ⟨phase, none⟩)[i]? = some state at hState
    rw [Array.getElem?_push] at hState
    split at hState
    · rename_i hEq
      have hOpen :=
        History.value_eq_none_of_order (hNone i (Nat.le_of_eq hEq.symm))
      cases hOpen.symm.trans hValue
    · exact hRecords.phase i state b hState hValue
  · intro entry hMem
    rw [numVariables, DecisionStack.addVariable, Array.size_push]
    exact Nat.lt_succ_of_lt (hRecords.inRange entry hMem)
  · exact hRecords.distinct

/- A request that is admitted is served. -/
theorem exists_after
    (hRecords : Records h s)
    {request : Request κ}
    (hAdmits : s.Admits request) :
    ∃ s', s.after request = .ok s' ∧ ∃ h', Records h' s' := by
  cases request with
  | addVariable phase => exact ⟨_, rfl, h, hRecords.addVariable phase⟩
  | assign l reason =>
      have hOpen : h.value l.index = none :=
        (hRecords.value_eq l.index).symm.trans hAdmits.2
      rcases hRecords.exists_assign hAdmits.1 hOpen reason with
        ⟨s', hAssign⟩
      exact ⟨s', hAssign, _, (hRecords.assign hAssign).2.2⟩
  | backjump level =>
      rcases hRecords.backjump level with ⟨s', hBack, _, hAfter⟩
      exact ⟨s', hBack, _, hAfter⟩

end Records

theorem Reached.exists_records
    (hReached : Reached s) :
    ∃ h, Records h s := by
  induction hReached with
  | empty => exact ⟨[], records_withVariables 0⟩
  | after _ hAdmits hAfter ih =>
      rcases ih with ⟨h, hRecords⟩
      rcases hRecords.exists_after hAdmits with ⟨_, hServed, hNext⟩
      cases hAfter.symm.trans hServed
      exact hNext

------------------------------------------------------------
-- The ranges of the levels
------------------------------------------------------------

/- A level starts at its decision and stops at the next one. -/
theorem levelRange_eq_ok
    {level first last : Nat}
    (hFirst : (0 :: s.decisions.toList)[level]? = some first)
    (hLast :
      (s.decisions.toList ++ [s.entries.size])[level]? = some last) :
    s.levelRange level = .ok (first, last) := by
  have hStop : s.decisions.getD level s.entries.size = last := by
    rw [List.getElem?_append, Array.length_toList,
      Array.getElem?_toList] at hLast
    rw [Array.getD_eq_getD_getElem?]
    split at hLast
    · rw [hLast]
      rfl
    · rename_i hGe
      rw [Array.getElem?_eq_none (Nat.le_of_not_lt hGe)]
      exact List.mem_singleton.mp (List.mem_of_getElem? hLast) |>.symm
  cases level with
  | zero =>
      cases hFirst
      exact congrArg (fun stop => Except.ok (0, stop)) hStop
  | succ below =>
      rw [List.getElem?_cons_succ, Array.getElem?_toList] at hFirst
      simp only [levelRange, Table.get_eq_ok_iff.mpr hFirst, hStop]
      rfl

theorem mapM_levelRange
    (s : DecisionStack κ) :
    (List.range (s.level + 1)).mapM s.levelRange =
      .ok ((0 :: s.decisions.toList).zip
        (s.decisions.toList ++ [s.entries.size])) := by
  rw [mapM_eq_ok_iff, List.forall₂_iff_get]
  refine ⟨by simp [level], ?_⟩
  intro level hRange hZip
  rw [List.length_zip, Nat.lt_min] at hZip
  simp only [List.get_eq_getElem, List.getElem_range,
    List.getElem_zip]
  exact levelRange_eq_ok (List.getElem?_eq_getElem hZip.1)
    (List.getElem?_eq_getElem hZip.2)

------------------------------------------------------------
-- Stacks with a history are in order
------------------------------------------------------------

namespace Records

variable {newer older : History κ} {entry : Literal × Reason κ}

theorem reasonOf_eq
    (hRecords : Records (newer ++ entry :: older) s) :
    s.reasonOf entry.1.index = .ok (some entry.2) := by
  rw [reasonOf, Table.get_eq_ok_iff.mpr hRecords.state_eq]
  change (Table.get s.entries older.length >>= fun stored =>
    pure (some stored.reason)) = _
  rw [Table.get_eq_ok_iff.mpr hRecords.entry_eq]
  rfl

/- A variable points to a position exactly if it is assigned there. -/
theorem seat_iff
    (hRecords : Records h s)
    (i k : Nat) :
    (∃ state, s.vars[i]? = some state ∧ state.order = some k) ↔
      ∃ stored, s.entries[k]? = some stored ∧ stored.index = i := by
  constructor
  · rintro ⟨state, hState, hOrder⟩
    rw [hRecords.order i state hState] at hOrder
    rcases History.exists_of_order hOrder with
      ⟨newer, entry, older, rfl, rfl, rfl⟩
    exact ⟨_, hRecords.entry_eq, rfl⟩
  · rintro ⟨stored, hStored, rfl⟩
    rw [hRecords.entries] at hStored
    rcases History.exists_of_entries hStored with
      ⟨newer, entry, older, rfl, rfl, rfl⟩
    exact ⟨_, hRecords.state_eq, rfl⟩

theorem mem_decisions_iff
    (hRecords : Records h s)
    (k : Nat) :
    k ∈ s.decisions ↔
      ∃ stored, s.entries[k]? = some stored ∧
        stored.reason = .decision := by
  rw [hRecords.decisions, History.mem_decisions_iff]
  constructor
  · rintro ⟨newer, entry, older, rfl, rfl, hDecision⟩
    exact ⟨_, hRecords.entry_eq, Reason.isDecision_iff.mp hDecision⟩
  · rintro ⟨stored, hStored, hDecision⟩
    rw [hRecords.entries] at hStored
    rcases History.exists_of_entries hStored with
      ⟨newer, entry, older, rfl, rfl, rfl⟩
    exact ⟨newer, entry, older, rfl, rfl,
      Reason.isDecision_iff.mpr hDecision⟩

/- The level of an entry counts the decisions up to it. -/
theorem level_entry_eq
    (hRecords : Records h s)
    {k : Nat}
    {stored : StackEntry κ}
    (hStored : s.entries[k]? = some stored) :
    stored.level =
      (s.entries.toList.take (k + 1)).countP fun other =>
        other.reason.isDecision := by
  rw [hRecords.entries] at hStored ⊢
  rcases History.exists_of_entries hStored with
    ⟨newer, entry, older, rfl, rfl, rfl⟩
  have hTake := History.take_entries_append newer (entry :: older)
  rw [List.length_cons] at hTake
  rw [hTake, History.countP_entries]

/- The levels divide the stack. -/
theorem exists_ranges
    (hRecords : Records h s) :
    ∃ ranges,
      (List.range (s.level + 1)).mapM s.levelRange = .ok ranges ∧
        Tiles s.entries.size 0 ranges ∧
        ranges.flatMap placesIn = List.range s.entries.size := by
  have hTiles :
      Tiles s.entries.size 0
        ((0 :: s.decisions.toList).zip
          (s.decisions.toList ++ [s.entries.size])) := by
    refine Tiles.zip_of_pairwise ?_ (fun _ _ => Nat.zero_le _) ?_
      (Nat.zero_le _)
    · rw [hRecords.decisions]
      exact History.pairwise_decisions h
    · intro k hMem
      rw [hRecords.decisions, Array.mem_toList_iff] at hMem
      rw [hRecords.entries, History.size_entries]
      exact Nat.le_of_lt (History.lt_length_of_mem_decisions hMem)
  refine ⟨_, s.mapM_levelRange, hTiles, ?_⟩
  rw [hTiles.flatMap_placesIn, Nat.sub_zero, List.range_eq_range']

/- Without a value there is no reason for one. -/
theorem reasonOf_eq_none
    (hRecords : Records h s)
    {i : Nat}
    (hLt : i < s.numVariables)
    (hOpen : h.value i = none) :
    s.reasonOf i = .ok none := by
  cases hState : s.vars[i]? with
  | none =>
      exact absurd (Array.getElem?_eq_none_iff.mp hState)
        (Nat.not_le.mpr hLt)
  | some state =>
      rcases state with ⟨phase, order⟩
      have hOrder := hRecords.order i _ hState
      rw [History.order_eq_none_of_value hOpen] at hOrder
      cases hOrder
      rw [reasonOf, Table.get_eq_ok_iff.mpr hState]
      rfl

theorem inOrder
    (hRecords : Records h s) :
    s.InOrder := by
  constructor
  case seat => exact hRecords.seat_iff
  case increasing =>
    rw [hRecords.decisions]
    exact History.pairwise_decisions h
  case decision => exact hRecords.mem_decisions_iff
  case counted => exact fun k stored => hRecords.level_entry_eq
  case divided => exact hRecords.exists_ranges
  case literal =>
    intro k stored hStored
    rw [hRecords.entries] at hStored
    rcases History.exists_of_entries hStored with
      ⟨newer, entry, older, rfl, rfl, rfl⟩
    refine ⟨entry.1.value, hRecords.literalAt_eq, ?_⟩
    rw [value, hRecords.state_eq]
  case reason =>
    intro stored hMem
    rcases Array.getElem?_of_mem hMem with ⟨k, hStored⟩
    rw [hRecords.entries] at hStored
    rcases History.exists_of_entries hStored with
      ⟨newer, entry, older, rfl, rfl, rfl⟩
    exact hRecords.reasonOf_eq
  case unassigned =>
    intro i hLt hOpen
    exact hRecords.reasonOf_eq_none hLt
      ((hRecords.value_eq i).symm.trans hOpen)

end Records

------------------------------------------------------------
-- What going back takes away
------------------------------------------------------------

/- Taking an assignment off changes one position. -/
theorem vars_of_pop
    (hPop : s.pop = .ok s') :
    ∃ i, s'.vars = s.vars.modify i
      fun state => { state with order := none } := by
  unfold pop at hPop
  cases hBack : s.entries.back? with
  | none => simp [hBack] at hPop
  | some entry =>
      simp only [hBack, bind_eq_ok, require_eq_ok,
        exists_const] at hPop
      rcases hPop with ⟨_, hPop⟩
      refine ⟨entry.index, ?_⟩
      split at hPop
      all_goals
        simp only [bind_eq_ok, pure_eq_ok, Table.modify_eq_ok_iff]
          at hPop
      · rcases hPop with ⟨_, _, _, _, _, ⟨_, rfl⟩, rfl⟩
        rfl
      · rcases hPop with ⟨_, _, _, ⟨_, rfl⟩, rfl⟩
        rfl

theorem phase_of_pop
    (hPop : s.pop = .ok s')
    (i : Nat) :
    s'.phase i = s.phase i := by
  rcases vars_of_pop hPop with ⟨popped, hVars⟩
  rw [phase, phase, hVars, Table.get, Table.get, Array.getElem?_modify,
    Array.size_modify]
  by_cases hEq : popped = i
  · rw [if_pos hEq]
    cases s.vars[i]? <;> rfl
  · rw [if_neg hEq]

/- No phase changes on the way back. -/
theorem phase_of_popAbove
    {bound fuel : Nat}
    (hBack : popAbove bound fuel s = .ok s')
    (i : Nat) :
    s'.phase i = s.phase i := by
  induction fuel generalizing s with
  | zero =>
      rw [popAbove, seqRight_eq_bind, bind_eq_ok] at hBack
      rcases hBack with ⟨_, _, hSame⟩
      cases hSame
      rfl
  | succ fuel ih =>
      rw [popAbove] at hBack
      split at hBack
      · cases hBack
        rfl
      · rcases bind_eq_ok.mp hBack with ⟨middle, hPop, hRest⟩
        exact (ih hRest).trans (phase_of_pop hPop i)

/- There is nothing to take off at a level that was not left. -/
theorem backjump_of_level_le
    {bound : Nat}
    (hLe : s.level ≤ bound) :
    s.backjump bound = .ok s := by
  unfold backjump
  cases s.entries.size with
  | zero =>
      rw [popAbove, require_of_true (decide_eq_true hLe)]
      rfl
  | succ fuel => rw [popAbove, if_pos hLe]

namespace Records

theorem exists_backjump
    (hRecords : Records h s)
    (bound : Nat) :
    ∃ s', s.backjump bound = .ok s' ∧ s.CutTo bound s' := by
  rcases hRecords.backjump bound with ⟨s', hBack, _, hAfter⟩
  rcases History.backTo_suffix bound h with ⟨dropped, hDropped⟩
  refine ⟨s', hBack, ?_⟩
  constructor
  case entries =>
    rw [hAfter.entries, hRecords.entries,
      History.toList_entries_backTo]
  case older =>
    have hOlder := History.entries_prefix_append dropped (h.backTo bound)
    rw [hDropped] at hOlder
    rw [hAfter.entries, hRecords.entries]
    exact hOlder
  case literal =>
    intro k hLt
    rw [hAfter.entries, History.size_entries] at hLt
    rcases History.exists_split hLt with
      ⟨newer, entry, older, hSplit, rfl⟩
    -- What was dropped is newer than the entry at this position.
    rw [hSplit] at hAfter hDropped
    rw [← hDropped, ← List.append_assoc] at hRecords
    rw [hAfter.literalAt_eq, hRecords.literalAt_eq]
  case reason =>
    intro stored hMem
    rcases Array.getElem?_of_mem hMem with ⟨k, hStored⟩
    rw [hAfter.entries] at hStored
    rcases History.exists_of_entries hStored with
      ⟨newer, entry, older, hSplit, rfl, rfl⟩
    rw [hSplit] at hAfter hDropped
    rw [← hDropped, ← List.append_assoc] at hRecords
    rw [hAfter.reasonOf_eq, hRecords.reasonOf_eq]
  case unassigned =>
    intro i hOther
    rw [hAfter.value_eq]
    apply History.value_eq_none_of_order
    apply History.order_eq_none_iff.mpr
    intro entry hMem
    rcases List.append_of_mem hMem with ⟨newer, older, hSplit⟩
    rw [hSplit] at hAfter
    exact hOther _ (Array.mem_of_getElem? hAfter.entry_eq)
  case phase => exact phase_of_popAbove hBack
  case unchanged =>
    intro hLe
    cases hBack.symm.trans (backjump_of_level_le hLe)
    rfl

end Records

/-
  Whatever requests were served, the tables are in order, a
  request is served exactly if it is admitted, and going back
  to any level leaves what the stack has up to it.
-/
theorem requests_keep_tables_in_order
    (hReached : Reached s) :
    s.InOrder ∧
      (∀ request : Request κ,
        s.Admits request ↔ ∃ s', s.after request = .ok s') ∧
      ∀ level, ∃ s', s.backjump level = .ok s' ∧
        s.CutTo level s' := by
  rcases hReached.exists_records with ⟨h, hRecords⟩
  refine ⟨hRecords.inOrder, ?_, hRecords.exists_backjump⟩
  intro request
  constructor
  · intro hAdmits
    rcases hRecords.exists_after hAdmits with ⟨s', hAfter, _⟩
    exact ⟨s', hAfter⟩
  · rintro ⟨s', hAfter⟩
    exact admits_of_after hAfter

/-
  A literal is forced before the first decision and one after
  it. Going back below the second decision takes `l_3` off,
  which keeps its phase.
-/
theorem requests_keep_tables_in_order_below_second_decision :
    ∃ s s' : DecisionStack Nat,
      Reached s ∧ s.InOrder ∧
        s.decisions = #[1, 3] ∧
        s.backjump 1 = .ok s' ∧
        s.CutTo 1 s' ∧
        s'.entries.size = 3 ∧
        s'.value 2 = some true ∧
        s'.vars[3]? = some ⟨true, none⟩ := by
  have hRun :
      ((withVariables 4 : DecisionStack Nat).assign ⟨0, true⟩
        (.propagation 7)).toOption.any
      (fun one =>
        (one.assign ⟨1, false⟩ .decision).toOption.any fun two =>
        (two.assign ⟨2, true⟩ (.propagation 8)).toOption.any
          fun three =>
        (three.assign ⟨3, true⟩ .decision).toOption.any fun s =>
        (s.backjump 1).toOption.any fun s' =>
          decide (s.decisions = #[1, 3] ∧ s'.entries.size = 3 ∧
            s'.value 2 = some true ∧
            s'.vars[3]? = some ⟨true, none⟩)) =
        true := by
    decide +kernel
  rcases exists_ok_of_any hRun with ⟨one, hOne, hRun⟩
  rcases exists_ok_of_any hRun with ⟨two, hTwo, hRun⟩
  rcases exists_ok_of_any hRun with ⟨three, hThree, hRun⟩
  rcases exists_ok_of_any hRun with ⟨s, hFour, hRun⟩
  rcases exists_ok_of_any hRun with ⟨s', hBack, hEnd⟩
  have hReached : Reached s :=
    ((((reached_withVariables 4).assign hOne).assign hTwo).assign
      hThree).assign hFour
  rcases requests_keep_tables_in_order hReached with
    ⟨hOrder, _, hCut⟩
  rcases hCut 1 with ⟨cut, hSame, hCut⟩
  cases hBack.symm.trans hSame
  rcases of_decide_eq_true hEnd with ⟨hDecisions, hKept⟩
  exact ⟨s, s', hReached, hOrder, hDecisions, hBack, hCut, hKept⟩

end DecisionStack

end ParitySolver
