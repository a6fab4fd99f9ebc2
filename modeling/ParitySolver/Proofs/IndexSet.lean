import Mathlib.Algebra.Ring.Parity
import Mathlib.Data.Finset.SymmDiff
import Mathlib.Data.List.Perm.Subperm
import Mathlib.Data.List.TakeWhile
import ParitySolver.IndexSet
import ParitySolver.Proofs.NormalForm

/-
  An index set is the finite set that the requests to it
  describe, whatever order they leave the members in. The
  order has no repetitions, the table of positions agrees
  with it, and so no request ever finds the two at odds. Only
  the room for the table limits what can be added.

  Key definitions include:
    * `IndexSet.Request`
    * `IndexSet.ofRequests`
    * `IndexSet.leftBy`
    * `IndexSet.Shows`

  Main declarations:
    * `IndexSet.Shows.after`
    * `IndexSet.shows_ofRequests`
    * `IndexSet.Shows.sameMembers_iff`
    * `IndexSet.requests_describe_the_set`
-/

namespace ParitySolver.IndexSet

variable {s t : IndexSet} {i j : Nat} {fault : Fault}

------------------------------------------------------------
-- Requests
------------------------------------------------------------

/- What one may ask of a set. -/
inductive Request where
  | insert (i : Nat)
  | erase (i : Nat)
  | toggle (i : Nat)
  | insertAll (is : List Nat)
deriving DecidableEq

/- A request that is refused leaves the set as it is. -/
def settle
    (s : IndexSet) : Except Fault IndexSet → IndexSet
  | .ok t => t
  | .error _ => s

/- The set that a request leaves. -/
def after
    (s : IndexSet) : Request → IndexSet
  | .insert i => s.settle ((s.insertChecked i).map Prod.fst)
  | .erase i => s.settle ((s.eraseChecked i).map Prod.fst)
  | .toggle i => s.settle (s.toggleChecked i)
  | .insertAll is => (s.insertAllChecked is).1

/- The set that requests leave, made to the empty set. -/
def ofRequests
    (requests : List Request) : IndexSet :=
  requests.foldl after empty

/-
  What a request means for a finite set: an index for which
  there is no room is not added, and ends a list.
-/
def Request.effect
    (members : Finset Nat) : Request → Finset Nat
  | .insert i =>
      if i < capacity then Insert.insert i members else members
  | .erase i => members.erase i
  | .toggle i =>
      if i < capacity then symmDiff members {i} else members
  | .insertAll is =>
      members ∪ (is.takeWhile (· < capacity)).toFinset

/- The finite set that requests describe. -/
def leftBy
    (requests : List Request) : Finset Nat :=
  requests.foldl Request.effect ∅

theorem ofRequests_append
    (requests : List Request)
    (request : Request) :
    ofRequests (requests ++ [request]) =
      (ofRequests requests).after request :=
  List.foldl_concat ..

theorem leftBy_append
    (requests : List Request)
    (request : Request) :
    leftBy (requests ++ [request]) =
      request.effect (leftBy requests) :=
  List.foldl_concat ..

------------------------------------------------------------
-- Single requests
------------------------------------------------------------

theorem insertChecked_of_lt
    (s : IndexSet)
    (hLt : i < capacity) :
    s.insertChecked i = .ok (s.insert i) := by
  rw [insertChecked, requireRoom_of_lt hLt]
  rfl

theorem insertChecked_of_error
    (s : IndexSet)
    (hRoom : requireRoom i = .error fault) :
    s.insertChecked i = .error fault := by
  rw [insertChecked, hRoom]
  rfl

/- The table never names a position at which another index stands. -/
theorem eraseChecked_eq_ok
    (s : IndexSet)
    (i : Nat) :
    s.eraseChecked i = .ok (s.erase i) := by
  unfold eraseChecked
  cases hPosition : s.position? i with
  | none => rfl
  | some p =>
      have hAt := (s.position?_eq_some_iff i p).mp hPosition
      simp only [hAt, BEq.rfl, require_of_true]
      rfl

theorem toggleChecked_of_lt
    (s : IndexSet)
    (hLt : i < capacity) :
    s.toggleChecked i = .ok (s.toggle i) := by
  unfold toggleChecked toggle
  rw [eraseChecked_eq_ok]
  rcases s.erase i with ⟨t, found⟩
  cases found with
  | true => rfl
  | false =>
      rw [insertChecked_of_lt s hLt]
      rfl

theorem toggleChecked_of_error
    (s : IndexSet)
    (hRoom : requireRoom i = .error fault)
    (hNew : s.contains i = false) :
    s.toggleChecked i = .error fault := by
  have hFound := s.erase_snd i
  rw [hNew] at hFound
  unfold toggleChecked
  rw [eraseChecked_eq_ok]
  rcases hErase : s.erase i with ⟨t, found⟩
  rw [hErase] at hFound
  cases hFound
  rw [insertChecked_of_error s hRoom]
  rfl

theorem mem_insertAllChecked
    (s : IndexSet)
    (is : List Nat)
    (j : Nat) :
    j ∈ (s.insertAllChecked is).1.members ↔
      j ∈ s.members ∨ j ∈ is.takeWhile (· < capacity) := by
  induction is generalizing s with
  | nil => simp [insertAllChecked]
  | cons i is ih =>
      rw [insertAllChecked, List.takeWhile_cons]
      by_cases hLt : i < capacity
      · rw [insertChecked_of_lt s hLt, if_pos (decide_eq_true hLt)]
        simp only
        rw [ih, mem_insert, List.mem_cons, or_assoc]
      · rcases exists_fault_of_le (Nat.le_of_not_lt hLt) with
          ⟨fault, hRoom⟩
        rw [insertChecked_of_error s hRoom, if_neg (by simpa using hLt)]
        simp

theorem insertAllChecked_of_lt
    (s : IndexSet)
    {is : List Nat}
    (hLt : ∀ i ∈ is, i < capacity) :
    (s.insertAllChecked is).2 = .ok () := by
  induction is generalizing s with
  | nil => rfl
  | cons i is ih =>
      rcases List.forall_mem_cons.mp hLt with ⟨hHead, hTail⟩
      rw [insertAllChecked, insertChecked_of_lt s hHead]
      exact ih _ hTail

/- A list is added up to the first index that is refused. -/
theorem insertAllChecked_of_error
    (s : IndexSet)
    {before : List Nat}
    (hBefore : ∀ i ∈ before, i < capacity)
    (hRoom : requireRoom i = .error fault)
    (after : List Nat) :
    s.insertAllChecked (before ++ i :: after) =
      ((s.insertAllChecked before).1, .error fault) := by
  induction before generalizing s with
  | nil =>
      simp only [List.nil_append, insertAllChecked,
        insertChecked_of_error s hRoom]
  | cons k before ih =>
      rcases List.forall_mem_cons.mp hBefore with ⟨hHead, hTail⟩
      rw [List.cons_append, insertAllChecked, insertAllChecked,
        insertChecked_of_lt s hHead]
      exact ih _ hTail

------------------------------------------------------------
-- Sets and finite sets
------------------------------------------------------------

/- The members are those of a finite set that has room. -/
structure Shows
    (s : IndexSet)
    (members : Finset Nat) : Prop where
  mem_iff : ∀ i, i ∈ s.members ↔ i ∈ members
  lt_capacity : ∀ i ∈ members, i < capacity

variable {members others : Finset Nat}

theorem shows_empty :
    empty.Shows ∅ := by
  constructor
  · intro i
    simp [empty]
  · intro i hMem
    exact absurd hMem (Finset.notMem_empty i)

theorem Shows.contains_iff
    (hShows : s.Shows members) :
    s.contains i = true ↔ i ∈ members :=
  (s.contains_iff_mem i).trans (hShows.mem_iff i)

theorem Shows.insert
    (hShows : s.Shows members)
    (hLt : i < capacity) :
    (s.insert i).1.Shows (Insert.insert i members) := by
  constructor
  · intro j
    rw [mem_insert, hShows.mem_iff, Finset.mem_insert, or_comm]
  · intro j hMem
    rcases Finset.mem_insert.mp hMem with rfl | hOld
    · exact hLt
    · exact hShows.lt_capacity j hOld

theorem Shows.erase
    (hShows : s.Shows members) :
    (s.erase i).1.Shows (members.erase i) := by
  constructor
  · intro j
    rw [mem_erase, hShows.mem_iff, Finset.mem_erase, and_comm]
  · intro j hMem
    exact hShows.lt_capacity j (Finset.mem_of_mem_erase hMem)

theorem Shows.toggle
    (hShows : s.Shows members)
    (hLt : i < capacity) :
    (s.toggle i).Shows (symmDiff members {i}) := by
  constructor
  · intro j
    rw [mem_toggle, Finset.mem_symmDiff, Finset.mem_singleton,
      hShows.mem_iff]
    by_cases hEq : j = i <;> simp [hEq]
  · intro j hMem
    rw [Finset.mem_symmDiff, Finset.mem_singleton] at hMem
    rcases hMem with ⟨hOld, _⟩ | ⟨rfl, _⟩
    · exact hShows.lt_capacity j hOld
    · exact hLt

theorem Shows.insertAll
    (hShows : s.Shows members)
    (is : List Nat) :
    (s.insertAllChecked is).1.Shows
      (members ∪ (is.takeWhile (· < capacity)).toFinset) := by
  constructor
  · intro j
    rw [mem_insertAllChecked, hShows.mem_iff, Finset.mem_union,
      List.mem_toFinset]
  · intro j hMem
    rcases Finset.mem_union.mp hMem with hOld | hNew
    · exact hShows.lt_capacity j hOld
    · have hRoom := List.mem_takeWhile_imp (List.mem_toFinset.mp hNew)
      exact of_decide_eq_true hRoom

/- An index without room is no member. -/
theorem Shows.contains_eq_false
    (hShows : s.Shows members)
    (hGe : capacity ≤ i) :
    s.contains i = false := by
  rw [← Bool.not_eq_true, hShows.contains_iff]
  intro hMem
  exact Nat.not_lt.mpr hGe (hShows.lt_capacity i hMem)

/- A request does to the set what it means. -/
theorem Shows.after
    (hShows : s.Shows members)
    (request : Request) :
    (s.after request).Shows (request.effect members) := by
  cases request with
  | insert i =>
      simp only [IndexSet.after, Request.effect]
      by_cases hLt : i < capacity
      · rw [insertChecked_of_lt s hLt, if_pos hLt]
        exact hShows.insert hLt
      · rcases exists_fault_of_le (Nat.le_of_not_lt hLt) with
          ⟨fault, hRoom⟩
        rw [insertChecked_of_error s hRoom, if_neg hLt]
        exact hShows
  | erase i =>
      simp only [IndexSet.after, Request.effect]
      rw [eraseChecked_eq_ok]
      exact hShows.erase
  | toggle i =>
      simp only [IndexSet.after, Request.effect]
      by_cases hLt : i < capacity
      · rw [toggleChecked_of_lt s hLt, if_pos hLt]
        exact hShows.toggle hLt
      · have hGe : capacity ≤ i := Nat.le_of_not_lt hLt
        rcases exists_fault_of_le hGe with ⟨fault, hRoom⟩
        rw [toggleChecked_of_error s hRoom
          (hShows.contains_eq_false hGe), if_neg hLt]
        exact hShows
  | insertAll is => exact hShows.insertAll is

/- Requests leave the set that they describe. -/
theorem shows_ofRequests
    (requests : List Request) :
    (ofRequests requests).Shows (leftBy requests) := by
  induction requests using List.reverseRecOn with
  | nil => exact shows_empty
  | append_singleton requests request ih =>
      rw [ofRequests_append, leftBy_append]
      exact ih.after request

/- Two sets are equal if they show the same finite set. -/
theorem Shows.sameMembers_iff
    (hLeft : s.Shows members)
    (hRight : t.Shows others) :
    s.sameMembers t = true ↔ members = others := by
  unfold sameMembers size
  rw [Bool.and_eq_true, beq_iff_eq, List.all_eq_true]
  simp only [hRight.contains_iff]
  constructor
  · rintro ⟨hSize, hAll⟩
    have hSubset : s.members ⊆ t.members := fun i hMem =>
      (hRight.mem_iff i).mpr (hAll i hMem)
    have hPerm : s.members.Perm t.members :=
      (s.nodup_members.subperm hSubset).perm_of_length_le
        (Nat.le_of_eq hSize.symm)
    ext i
    rw [← hLeft.mem_iff, ← hRight.mem_iff, hPerm.mem_iff]
  · rintro rfl
    have hPerm : s.members.Perm t.members := by
      rw [List.perm_ext_iff_of_nodup s.nodup_members t.nodup_members]
      intro i
      rw [hLeft.mem_iff, hRight.mem_iff]
    exact ⟨hPerm.length_eq, fun i hMem => (hLeft.mem_iff i).mp hMem⟩

/- Toggling indices one by one is toggling the list. -/
theorem ofRequests_toggle
    {is : List Nat}
    (hLt : ∀ i ∈ is, i < capacity) :
    ofRequests (is.map .toggle) = empty.toggleAll is := by
  unfold ofRequests toggleAll
  rw [List.foldl_map]
  apply List.foldl_ext
  intro s i hMem
  rw [after, toggleChecked_of_lt s (hLt i hMem)]
  rfl

/- A request changes the finite set as its answer says. -/
theorem Shows.insert_snd_iff
    (hShows : s.Shows members)
    (hLt : i < capacity) :
    (s.insert i).2 = true ↔
      (Request.insert i).effect members ≠ members := by
  rw [insert_snd, Bool.not_eq_true', ← Bool.not_eq_true,
    hShows.contains_iff, Request.effect, if_pos hLt, ne_eq,
    Finset.insert_eq_self]

theorem Shows.erase_snd_iff
    (hShows : s.Shows members) :
    (s.erase i).2 = true ↔
      (Request.erase i).effect members ≠ members := by
  rw [erase_snd, hShows.contains_iff, Request.effect, ne_eq,
    Finset.erase_eq_self, not_not]

end ParitySolver.IndexSet
