import ParitySolver.Table

/-
  This file defines finite sets of indices that remember an
  order: an index is added at the end, and taking one out
  moves the last index into the gap. A table tells for each
  index where in the order it stands, so that no search is
  needed.

  Key definitions include:
    * `IndexSet`
    * `IndexSet.position?`
    * `IndexSet.insert`
    * `IndexSet.erase`
    * `IndexSet.toggle`
    * `IndexSet.sorted`
    * `IndexSet.sameMembers`
    * `IndexSet.requireRoom`
    * `IndexSet.capacity`

  Correctness is proven by:
    * `IndexSet.requireRoom_of_lt`
    * `IndexSet.requireRoom_of_le`
    * `IndexSet.contains_iff_mem`
    * `IndexSet.nodup_members`
    * `IndexSet.mem_insert`
    * `IndexSet.mem_erase`
    * `IndexSet.mem_toggle`
-/

namespace ParitySolver

------------------------------------------------------------
-- Ascending lists
------------------------------------------------------------

/- Put an index into an ascending list. -/
def insertAscending
    (i : Nat) : List Nat → List Nat
  | [] => [i]
  | j :: js =>
      if i ≤ j then i :: j :: js else j :: insertAscending i js

/- The indices of a list in ascending order. -/
def sortAscending
    (is : List Nat) : List Nat :=
  is.foldr insertAscending []

------------------------------------------------------------
-- Tables of positions
------------------------------------------------------------

/- The table with an entry for an index, and for all below it. -/
def grown
    (positions : Array (Option Nat))
    (i : Nat) : Array (Option Nat) :=
  positions ++ Array.replicate (i + 1 - positions.size) none

/-
  The table after an index was taken out of a position, to
  which another index may have moved.
-/
def vacated
    (positions : Array (Option Nat))
    (i p : Nat)
    (moved? : Option Nat) : Array (Option Nat) :=
  let positions := positions.setIfInBounds i none
  match moved? with
  | none => positions
  | some moved => positions.setIfInBounds moved (some p)

theorem lt_size_grown
    (positions : Array (Option Nat))
    (i : Nat) :
    i < (grown positions i).size := by
  unfold grown
  rw [Array.size_append, Array.size_replicate]
  omega

theorem getD_grown
    (positions : Array (Option Nat))
    (i j : Nat) :
    (grown positions i).getD j none = positions.getD j none := by
  unfold grown
  simp only [Array.getD_eq_getD_getElem?, Array.getElem?_append,
    Array.getElem?_replicate]
  by_cases hLt : j < positions.size
  · rw [if_pos hLt]
  · rw [if_neg hLt, Array.getElem?_eq_none (Nat.le_of_not_lt hLt)]
    split <;> rfl

theorem getD_set
    {positions : Array (Option Nat)}
    {i : Nat}
    (hLt : i < positions.size)
    (entry : Option Nat)
    (j : Nat) :
    (positions.setIfInBounds i entry).getD j none =
      if i = j then entry else positions.getD j none := by
  rw [Array.getD_eq_getD_getElem?, Array.getD_eq_getD_getElem?]
  by_cases hEq : i = j
  · subst hEq
    rw [Array.getElem?_setIfInBounds_self_of_lt hLt, if_pos rfl,
      Option.getD_some]
  · rw [Array.getElem?_setIfInBounds_ne hEq, if_neg hEq]

------------------------------------------------------------
-- Filling gaps
------------------------------------------------------------

/- Take out what stands at a position and let the last one fill the gap. -/
def fillGap
    (p : Nat)
    (is : List Nat) : List Nat :=
  match is.getLast? with
  | none => []
  | some last => (is.set p last).dropLast

theorem exists_last
    {is : List Nat}
    {p : Nat}
    (hLt : p < is.length) :
    ∃ last, is.getLast? = some last ∧ is[is.length - 1]? = some last := by
  have hEnd : is.length - 1 < is.length := by omega
  rw [List.getLast?_eq_getElem?, List.getElem?_eq_getElem hEnd]
  exact ⟨_, rfl, rfl⟩

/- The last index stands in the gap, and the others where they did. -/
theorem getElem?_fillGap
    {is : List Nat}
    {p : Nat}
    (hLt : p < is.length)
    (q : Nat) :
    (fillGap p is)[q]? =
      if q + 1 < is.length then
        if q = p then is.getLast? else is[q]?
      else
        none := by
  rcases exists_last hLt with ⟨last, hLast, _⟩
  unfold fillGap
  rw [hLast]
  simp only [List.getElem?_dropLast, List.length_set, List.getElem?_set]
  by_cases hShort : q + 1 < is.length
  · have hRange : q < is.length - 1 := by omega
    rw [if_pos hShort, if_pos hRange]
    by_cases hEq : p = q
    · subst hEq
      rw [if_pos rfl, if_pos rfl, if_pos hLt]
    · rw [if_neg hEq, if_neg (Ne.symm hEq)]
  · have hRange : ¬ q < is.length - 1 := by omega
    rw [if_neg hShort, if_neg hRange]

------------------------------------------------------------
-- Index sets
------------------------------------------------------------

/-
  The members, in the order in which a walk meets them, and
  the table of their positions in it.
-/
structure IndexSet where
  positions : Array (Option Nat)
  members : List Nat
  agree :
    ∀ i p, positions.getD i none = some p ↔ members[p]? = some i

namespace IndexSet

/- The set without members. -/
def empty : IndexSet where
  positions := #[]
  members := []
  agree := by simp

instance : Inhabited IndexSet :=
  ⟨empty⟩

/- Where a walk meets the index. -/
def position?
    (s : IndexSet)
    (i : Nat) : Option Nat :=
  s.positions.getD i none

/- Is the index a member? -/
def contains
    (s : IndexSet)
    (i : Nat) : Bool :=
  (s.position? i).isSome

/- The number of members. -/
def size
    (s : IndexSet) : Nat :=
  s.members.length

/- Has the set no members? -/
def isEmpty
    (s : IndexSet) : Bool :=
  s.members.isEmpty

theorem position?_eq_some_iff
    (s : IndexSet)
    (i p : Nat) :
    s.position? i = some p ↔ s.members[p]? = some i :=
  s.agree i p

/- An index without a position stands nowhere. -/
theorem getElem?_ne_of_position?
    (s : IndexSet)
    {i : Nat}
    (hNew : s.position? i = none)
    (p : Nat) :
    s.members[p]? ≠ some i := by
  intro hAt
  rw [← s.position?_eq_some_iff, hNew] at hAt
  cases hAt

/- An index stands at one position only. -/
theorem eq_of_getElem?
    (s : IndexSet)
    {i p q : Nat}
    (hLeft : s.members[p]? = some i)
    (hRight : s.members[q]? = some i) :
    p = q := by
  rw [← position?_eq_some_iff] at hLeft hRight
  exact Option.some.inj (hLeft.symm.trans hRight)

theorem lt_size_positions
    (s : IndexSet)
    {i p : Nat}
    (hAt : s.members[p]? = some i) :
    i < s.positions.size := by
  have hEntry := (s.agree i p).mpr hAt
  apply Nat.lt_of_not_le
  intro hGe
  rw [Array.getD_eq_getD_getElem?, Array.getElem?_eq_none hGe] at hEntry
  cases hEntry

/- Put a new index at the end. -/
def push
    (s : IndexSet)
    (i : Nat)
    (hNew : s.position? i = none) : IndexSet where
  positions := (grown s.positions i).setIfInBounds i (some s.members.length)
  members := s.members ++ [i]
  agree := by
    intro j q
    rw [getD_set (lt_size_grown s.positions i), getD_grown,
      List.getElem?_append]
    by_cases hEq : i = j
    · subst hEq
      rw [if_pos rfl, Option.some.injEq]
      split
      next hLt =>
        have hNot := s.getElem?_ne_of_position? hNew q
        exact ⟨fun hLast => by omega, fun hAt => absurd hAt hNot⟩
      next hGe =>
        constructor
        · rintro rfl
          simp
        · intro hAt
          have hLast := (List.getElem?_eq_some_iff.mp hAt).1
          rw [List.length_singleton] at hLast
          omega
    · rw [if_neg hEq, s.agree]
      split
      next => exact Iff.rfl
      next hGe =>
        rw [List.getElem?_eq_none (Nat.le_of_not_lt hGe)]
        constructor
        · intro hAt
          cases hAt
        · intro hAt
          have hMem := List.mem_of_getElem? hAt
          exact absurd (List.mem_singleton.mp hMem).symm hEq

/- Take the index at a position out and let the last one fill the gap. -/
def removeAt
    (s : IndexSet)
    (i p : Nat)
    (hPosition : s.position? i = some p) : IndexSet where
  positions := vacated s.positions i p (fillGap p s.members)[p]?
  members := fillGap p s.members
  agree := by
    have hAt := (s.position?_eq_some_iff i p).mp hPosition
    have hLt := (List.getElem?_eq_some_iff.mp hAt).1
    have hIndex := s.lt_size_positions hAt
    have hOnly : ∀ q, s.members[q]? = some i → q = p :=
      fun q hOther => s.eq_of_getElem? hOther hAt
    have hBound : ∀ q j, s.members[q]? = some j → q < s.members.length :=
      fun q j hOther => (List.getElem?_eq_some_iff.mp hOther).1
    intro j q
    rw [getElem?_fillGap hLt, getElem?_fillGap hLt, if_pos rfl]
    by_cases hInner : p + 1 < s.members.length
    · -- The last index moves into the gap, and its entry follows it.
      rcases exists_last hLt with ⟨moved, hMoved, hLast⟩
      have hMovedOnly :
          ∀ q, s.members[q]? = some moved → q = s.members.length - 1 :=
        fun q hOther => s.eq_of_getElem? hOther hLast
      have hMovedIndex : moved < (s.positions.setIfInBounds i none).size := by
        rw [Array.size_setIfInBounds]
        exact s.lt_size_positions hLast
      rw [if_pos hInner, hMoved, vacated, getD_set hMovedIndex,
        getD_set hIndex]
      by_cases hNow : moved = j
      · subst hNow
        rw [if_pos rfl]
        grind
      · rw [if_neg hNow]
        by_cases hEq : i = j
        · subst hEq
          rw [if_pos rfl]
          grind
        · rw [if_neg hEq, s.agree]
          grind
    · -- The index itself was the last one.
      rw [if_neg hInner, vacated, getD_set hIndex]
      by_cases hEq : i = j
      · subst hEq
        rw [if_pos rfl]
        grind
      · rw [if_neg hEq, s.agree]
        grind

/- Add an index, and tell whether it was new. -/
def insert
    (s : IndexSet)
    (i : Nat) : IndexSet × Bool :=
  match hPosition : s.position? i with
  | some _ => (s, false)
  | none => (s.push i hPosition, true)

/- Take an index out, and tell whether it was a member. -/
def erase
    (s : IndexSet)
    (i : Nat) : IndexSet × Bool :=
  match hPosition : s.position? i with
  | none => (s, false)
  | some p => (s.removeAt i p hPosition, true)

/- Take the index out if it is a member, and add it if not. -/
def toggle
    (s : IndexSet)
    (i : Nat) : IndexSet :=
  match s.erase i with
  | (t, true) => t
  | (_, false) => (s.insert i).1

/- Toggle the indices of a list one after the other. -/
def toggleAll
    (s : IndexSet)
    (is : List Nat) : IndexSet :=
  is.foldl toggle s

/- The members in ascending order. -/
def sorted
    (s : IndexSet) : List Nat :=
  sortAscending s.members

/- Do two sets have the same members, whatever their order? -/
def sameMembers
    (s t : IndexSet) : Bool :=
  s.size == t.size && s.members.all t.contains

/- The members in ascending order, in braces. -/
def text
    (s : IndexSet) : String :=
  "\x7b" ++ ", ".intercalate (s.sorted.map toString) ++ "\x7d"

------------------------------------------------------------
-- Checked operations
------------------------------------------------------------

/-
  Refuse an index for which there can be no table: it has a
  64-bit entry for each index up to the largest, and their
  number fits in a word as well.
-/
def requireRoom
    (i : Nat) : Except Fault Unit := do
  let size ← countUp 0x10000000000000000 i
  Table.requireRoom 8 size

/- The least index for which there can be no table. -/
def capacity : Nat :=
  0xFFFFFFFFFFFFFFF

/- The table for an index below the capacity fits. -/
theorem requireRoom_of_lt
    {i : Nat}
    (hLt : i < capacity) :
    requireRoom i = .ok () := by
  unfold capacity at hLt
  have hFits : Table.Fits 8 (i + 1) := by
    unfold Table.Fits
    omega
  rw [requireRoom, countUp_of_lt (by omega)]
  exact Table.requireRoom_of_fits hFits

/- Up to the largest number of 64 bits it is the table that does not fit. -/
theorem requireRoom_of_le
    {i : Nat}
    (hGe : capacity ≤ i)
    (hWord : i < 0xFFFFFFFFFFFFFFFF) :
    requireRoom i = .error (.capacityOverflow (i + 1)) := by
  unfold capacity at hGe
  have hNot : ¬ Table.Fits 8 (i + 1) := by
    unfold Table.Fits
    omega
  rw [requireRoom, countUp_of_lt (by omega)]
  exact Table.requireRoom_of_not_fits hNot

theorem exists_fault_of_le
    {i : Nat}
    (hGe : capacity ≤ i) :
    ∃ fault, requireRoom i = .error fault := by
  by_cases hWord : i < 0xFFFFFFFFFFFFFFFF
  · exact ⟨_, requireRoom_of_le hGe hWord⟩
  · rw [requireRoom, countUp_of_le (by omega)]
    exact ⟨_, rfl⟩

/- Add an index, for which there has to be room in the table. -/
def insertChecked
    (s : IndexSet)
    (i : Nat) : Except Fault (IndexSet × Bool) := do
  requireRoom i
  return s.insert i

/- Take an index out that has to stand where the table says. -/
def eraseChecked
    (s : IndexSet)
    (i : Nat) : Except Fault (IndexSet × Bool) := do
  if let some p := s.position? i then
    require (s.members[p]? == some i) (.positionMismatch i)
  return s.erase i

/- Toggle an index; only adding it needs room. -/
def toggleChecked
    (s : IndexSet)
    (i : Nat) : Except Fault IndexSet := do
  let (t, found) ← s.eraseChecked i
  if found then
    return t
  return (← s.insertChecked i).1

/-
  Add the indices of a list up to the first that is refused.
  The indices before it stay in the set.
-/
def insertAllChecked
    (s : IndexSet) : List Nat → IndexSet × Except Fault Unit
  | [] => (s, .ok ())
  | i :: is =>
      match s.insertChecked i with
      | .error fault => (s, .error fault)
      | .ok (t, _) => t.insertAllChecked is

------------------------------------------------------------
-- Membership
------------------------------------------------------------

theorem contains_iff_mem
    (s : IndexSet)
    (i : Nat) :
    s.contains i = true ↔ i ∈ s.members := by
  unfold contains
  rw [Option.isSome_iff_exists, List.mem_iff_getElem?]
  simp only [position?_eq_some_iff]

/- No index is met twice. -/
theorem nodup_members
    (s : IndexSet) :
    s.members.Nodup := by
  rw [List.Nodup, List.pairwise_iff_getElem]
  intro p q hP hQ hLt hEq
  have hSame : p = q :=
    s.eq_of_getElem? (List.getElem?_eq_getElem hP)
      ((List.getElem?_eq_getElem hQ).trans (congrArg some hEq.symm))
  omega

/- An index is new if it was no member. -/
theorem insert_snd
    (s : IndexSet)
    (i : Nat) :
    (s.insert i).2 = !s.contains i := by
  unfold insert contains
  split
  next hPosition => simp [hPosition]
  next hPosition => simp [hPosition]

theorem erase_snd
    (s : IndexSet)
    (i : Nat) :
    (s.erase i).2 = s.contains i := by
  unfold erase contains
  split
  next hPosition => simp [hPosition]
  next hPosition => simp [hPosition]

theorem members_insert
    (s : IndexSet)
    {i : Nat}
    (hNew : s.contains i = false) :
    (s.insert i).1.members = s.members ++ [i] := by
  unfold insert
  split
  next hPosition => simp [contains, hPosition] at hNew
  next => rfl

theorem mem_insert
    (s : IndexSet)
    (i j : Nat) :
    j ∈ (s.insert i).1.members ↔ j ∈ s.members ∨ j = i := by
  unfold insert
  split
  next p hPosition =>
    have hMem : i ∈ s.members :=
      List.mem_of_getElem? ((s.position?_eq_some_iff i p).mp hPosition)
    exact ⟨Or.inl, fun hOr => hOr.elim id fun hEq => hEq ▸ hMem⟩
  next =>
    rw [push, List.mem_append, List.mem_singleton]

/- Taking an index out removes it and no other. -/
theorem mem_erase
    (s : IndexSet)
    (i j : Nat) :
    j ∈ (s.erase i).1.members ↔ j ∈ s.members ∧ j ≠ i := by
  unfold erase
  split
  next hPosition =>
    refine ⟨fun hMem => ⟨hMem, ?_⟩, And.left⟩
    rintro rfl
    rcases List.mem_iff_getElem?.mp hMem with ⟨p, hAt⟩
    exact s.getElem?_ne_of_position? hPosition p hAt
  next p hPosition =>
    have hAt := (s.position?_eq_some_iff i p).mp hPosition
    have hLt := (List.getElem?_eq_some_iff.mp hAt).1
    rcases exists_last hLt with ⟨last, hLast, hEnd⟩
    have hOnly : ∀ q, s.members[q]? = some i → q = p :=
      fun q hOther => s.eq_of_getElem? hOther hAt
    simp only [removeAt, List.mem_iff_getElem?, getElem?_fillGap hLt, hLast]
    constructor
    · rintro ⟨q, hNow⟩
      by_cases hGap : q = p
      · exact ⟨⟨s.members.length - 1, by grind⟩, by grind⟩
      · exact ⟨⟨q, by grind⟩, by grind⟩
    · rintro ⟨⟨q, hBefore⟩, hNe⟩
      by_cases hShort : q + 1 < s.members.length
      · exact ⟨q, by grind⟩
      · exact ⟨p, by grind⟩

/- A toggle erases a member and inserts anything else. -/
theorem toggle_eq
    (s : IndexSet)
    (i : Nat) :
    s.toggle i = if s.contains i then (s.erase i).1 else (s.insert i).1 := by
  have hFound := s.erase_snd i
  unfold toggle
  split
  next hErase =>
    rw [hErase] at hFound ⊢
    rw [← hFound, if_pos rfl]
  next hErase =>
    rw [hErase] at hFound
    rw [← hFound, if_neg Bool.false_ne_true]

theorem mem_toggle
    (s : IndexSet)
    (i j : Nat) :
    j ∈ (s.toggle i).members ↔ if j = i then j ∉ s.members else j ∈ s.members := by
  rw [toggle_eq]
  by_cases hMem : s.contains i = true
  · rw [if_pos hMem, mem_erase]
    rw [contains_iff_mem] at hMem
    by_cases hEq : j = i
    · subst hEq
      simp [hMem]
    · simp [hEq]
  · rw [if_neg hMem, mem_insert]
    rw [contains_iff_mem] at hMem
    by_cases hEq : j = i
    · subst hEq
      simp [hMem]
    · simp [hEq]

end IndexSet

------------------------------------------------------------
-- Ascending order
------------------------------------------------------------

theorem mem_insertAscending
    {i j : Nat}
    {is : List Nat} :
    j ∈ insertAscending i is ↔ j = i ∨ j ∈ is := by
  induction is with
  | nil => simp [insertAscending]
  | cons k ks ih =>
      unfold insertAscending
      split
      · simp
      · rw [List.mem_cons, ih, List.mem_cons]
        constructor
        · rintro (hHead | hNew | hTail)
          · exact Or.inr (Or.inl hHead)
          · exact Or.inl hNew
          · exact Or.inr (Or.inr hTail)
        · rintro (hNew | hHead | hTail)
          · exact Or.inr (Or.inl hNew)
          · exact Or.inl hHead
          · exact Or.inr (Or.inr hTail)

theorem mem_sortAscending
    {j : Nat}
    {is : List Nat} :
    j ∈ sortAscending is ↔ j ∈ is := by
  induction is with
  | nil => simp [sortAscending]
  | cons k ks ih =>
      have hCons : sortAscending (k :: ks) = insertAscending k (sortAscending ks) := rfl
      rw [hCons, mem_insertAscending, ih, List.mem_cons]

theorem pairwise_insertAscending
    {i : Nat}
    {is : List Nat}
    (hSorted : is.Pairwise (· ≤ ·)) :
    (insertAscending i is).Pairwise (· ≤ ·) := by
  induction is with
  | nil => simp [insertAscending]
  | cons k ks ih =>
      rw [List.pairwise_cons] at hSorted
      unfold insertAscending
      split
      · rename_i hLe
        refine List.pairwise_cons.mpr ⟨?_, List.pairwise_cons.mpr hSorted⟩
        intro j hMem
        rcases List.mem_cons.mp hMem with rfl | hTail
        · exact hLe
        · exact Nat.le_trans hLe (hSorted.1 j hTail)
      · rename_i hGt
        refine List.pairwise_cons.mpr ⟨?_, ih hSorted.2⟩
        intro j hMem
        rcases mem_insertAscending.mp hMem with rfl | hTail
        · exact Nat.le_of_lt (Nat.lt_of_not_le hGt)
        · exact hSorted.1 j hTail

/- Sorting leaves the indices in ascending order. -/
theorem pairwise_sortAscending
    (is : List Nat) :
    (sortAscending is).Pairwise (· ≤ ·) := by
  induction is with
  | nil => exact List.Pairwise.nil
  | cons k ks ih => exact pairwise_insertAscending ih

end ParitySolver
