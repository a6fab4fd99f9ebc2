import ParitySolver.Proofs.Outcome
import ParitySolver.Store

/-
  A universe has the variables of the literals that it is
  collected from, and its bound is next to the largest of
  them. Collecting succeeds if there can be a table for each
  variable, and gives up at the first literal for whose
  variable there cannot. The index of a store needs more
  room, so a universe may be collected that no store has.

  Key definitions include:
    * `Universe.HasRoom`

  Main declarations:
    * `boundOf_le_iff`
    * `Universe.contains_ofLiterals`
    * `Universe.collect_eq_ok_iff`
    * `Universe.collect_eq_error`
    * `Universe.fits_bound_iff`
-/

namespace ParitySolver

------------------------------------------------------------
-- Bounds
------------------------------------------------------------

/- The bound of literals is the least that is above their indices. -/
theorem boundOf_le_iff
    {ls : List Literal}
    {n : Nat} :
    boundOf ls ≤ n ↔ ∀ l ∈ ls, l.index < n := by
  have hFold : ∀ (ls : List Literal) (start : Nat),
      ls.foldl (fun n l => max n (l.index + 1)) start ≤ n ↔
        start ≤ n ∧ ∀ l ∈ ls, l.index < n := by
    intro ls
    induction ls with
    | nil => simp
    | cons l ls ih =>
        intro start
        rw [List.foldl_cons, ih, Nat.max_le, Nat.succ_le_iff,
          List.forall_mem_cons, and_assoc]
  rw [boundOf, hFold]
  simp

theorem lt_boundOf
    {ls : List Literal}
    {l : Literal}
    (hMem : l ∈ ls) :
    l.index < boundOf ls :=
  boundOf_le_iff.mp (Nat.le_refl _) l hMem

/- The bound of literals is next to the largest index. -/
theorem exists_boundOf
    {ls : List Literal}
    (hNonempty : ls ≠ []) :
    ∃ l ∈ ls, boundOf ls = l.index + 1 := by
  by_contra hNone
  rcases List.exists_mem_of_ne_nil ls hNonempty with ⟨k, hK⟩
  have hBelow : boundOf ls ≤ boundOf ls - 1 := by
    rw [boundOf_le_iff]
    intro l hMem
    have hLt := lt_boundOf hMem
    have hNe : boundOf ls ≠ l.index + 1 :=
      fun hEq => hNone ⟨l, hMem, hEq⟩
    omega
  have hPositive := lt_boundOf hK
  omega

------------------------------------------------------------
-- Variables of a universe
------------------------------------------------------------

namespace Universe

/- A universe has the variables of the literals it was made from. -/
theorem contains_ofLiterals
    {ls : List Literal}
    {i : Nat} :
    (ofLiterals ls).contains i = true ↔ ∃ l ∈ ls, l.index = i := by
  have hFold : ∀ (ls : List Literal) (table : Array Bool),
      (∀ l ∈ ls, l.index < table.size) →
        ((ls.foldl
            (fun table l => table.setIfInBounds l.index true)
            table).getD i false = true ↔
          table.getD i false = true ∨ ∃ l ∈ ls, l.index = i) := by
    intro ls
    induction ls with
    | nil => simp
    | cons l ls ih =>
        intro table hLt
        rcases List.forall_mem_cons.mp hLt with ⟨hHead, hTail⟩
        have hEntry :
            (table.setIfInBounds l.index true).getD i false = true ↔
              l.index = i ∨ table.getD i false = true := by
          rw [Array.getD_eq_getD_getElem?,
            Array.getD_eq_getD_getElem?, Array.getElem?_setIfInBounds]
          by_cases hEq : l.index = i
          · subst hEq
            simp [hHead]
          · simp [hEq]
        rw [List.foldl_cons, ih _ (by simpa using hTail), hEntry]
        simp only [List.mem_cons, exists_eq_or_imp]
        rw [or_assoc, or_left_comm]
  have hStart : (Array.replicate (boundOf ls) false).getD i false = false := by
    rw [Array.getD_eq_getD_getElem?, Array.getElem?_replicate]
    split <;> rfl
  rw [contains, ofLiterals, hFold, hStart]
  · simp
  · intro l hMem
    rw [Array.size_replicate]
    exact lt_boundOf hMem

/- The bound of a universe is that of its literals. -/
theorem bound_ofLiterals
    (ls : List Literal) :
    (ofLiterals ls).bound = boundOf ls := by
  have hSize : ∀ (ls : List Literal) (table : Array Bool),
      (ls.foldl
        (fun table l => table.setIfInBounds l.index true)
        table).size = table.size := by
    intro ls
    induction ls with
    | nil => exact fun _ => rfl
    | cons l ls ih =>
        intro table
        rw [List.foldl_cons, ih, Array.size_setIfInBounds]
  rw [bound, ofLiterals, hSize, Array.size_replicate]

/- Declared variables are below the bound of the universe. -/
theorem lt_bound_of_contains
    {u : Universe}
    {i : Nat}
    (hContains : u.contains i = true) :
    i < u.bound := by
  by_contra hNot
  rw [contains, Array.getD_eq_getD_getElem?,
    Array.getElem?_eq_none (Nat.le_of_not_lt hNot)] at hContains
  cases hContains

------------------------------------------------------------
-- Collecting a universe
------------------------------------------------------------

variable {ls : List Literal} {u : Universe}

theorem collect_of_lt
    (hRoom : ∀ l ∈ ls, l.index < IndexSet.capacity) :
    collect ls = .ok (ofLiterals ls) := by
  refine bind_eq_ok.mpr ⟨(), forM_of_ok fun l hMem => ?_, rfl⟩
  exact mapError_eq_ok.mpr (IndexSet.requireRoom_of_lt (hRoom l hMem))

/- The first literal for which there is no room ends the set-up. -/
theorem collect_of_append
    {before after : List Literal}
    {l : Literal}
    {fault : Fault}
    (hBefore : ∀ k ∈ before, k.index < IndexSet.capacity)
    (hRoom : IndexSet.requireRoom l.index = .error fault) :
    collect (before ++ l :: after) = .error (.fault fault) := by
  refine bind_eq_error.mpr (.inl (forM_of_error ?_ ?_))
  · intro k hMem
    exact mapError_eq_ok.mpr (IndexSet.requireRoom_of_lt (hBefore k hMem))
  · rw [hRoom]
    rfl

/- A universe is collected, or a first literal has no room. -/
theorem collect_cases
    (ls : List Literal) :
    ((∀ l ∈ ls, l.index < IndexSet.capacity) ∧
        collect ls = .ok (ofLiterals ls)) ∨
      ∃ l fault,
        (ls.find? fun l => decide (IndexSet.capacity ≤ l.index)) =
            some l ∧
          IndexSet.requireRoom l.index = .error fault ∧
          collect ls = .error (.fault fault) := by
  cases hFind : ls.find? fun l =>
      decide (IndexSet.capacity ≤ l.index) with
  | none =>
      have hRoom : ∀ l ∈ ls, l.index < IndexSet.capacity := by
        simpa using hFind
      exact .inl ⟨hRoom, collect_of_lt hRoom⟩
  | some l =>
      rcases List.find?_eq_some_iff_append.mp hFind with
        ⟨hLarge, before, after, rfl, hBefore⟩
      rcases IndexSet.exists_fault_of_le (of_decide_eq_true hLarge)
        with ⟨fault, hRoom⟩
      refine .inr ⟨l, fault, rfl, hRoom, ?_⟩
      exact collect_of_append (by simpa using hBefore) hRoom

theorem collect_eq_ok_iff :
    collect ls = .ok u ↔
      (∀ l ∈ ls, l.index < IndexSet.capacity) ∧
        ofLiterals ls = u := by
  constructor
  · intro hCollect
    rcases collect_cases ls with
      ⟨hRoom, hOk⟩ | ⟨_, _, _, _, hError⟩
    · cases hOk.symm.trans hCollect
      exact ⟨hRoom, rfl⟩
    · cases hError.symm.trans hCollect
  · rintro ⟨hRoom, rfl⟩
    exact collect_of_lt hRoom

theorem collect_eq_error
    {error : SetupError}
    (hCollect : collect ls = .error error) :
    ∃ l fault,
      (ls.find? fun l => decide (IndexSet.capacity ≤ l.index)) =
          some l ∧
        IndexSet.requireRoom l.index = .error fault ∧
        error = .fault fault := by
  rcases collect_cases ls with
    ⟨_, hOk⟩ | ⟨l, fault, hFind, hRoom, hError⟩
  · cases hOk.symm.trans hCollect
  · cases hError.symm.trans hCollect
    exact ⟨l, fault, hFind, hRoom, rfl⟩

------------------------------------------------------------
-- Room for the index of a store
------------------------------------------------------------

/- The largest table of an index can have an entry for each variable. -/
def HasRoom
    (declared : List Literal) : Prop :=
  ∀ l ∈ declared, Table.Fits 24 (l.index + 1)

instance
    (declared : List Literal) :
    Decidable (HasRoom declared) :=
  inferInstanceAs (Decidable (∀ l ∈ declared, _))

/- It is enough that there is room for the largest variable. -/
theorem fits_bound_iff :
    Table.Fits 24 (ofLiterals ls).bound ↔ HasRoom ls := by
  have hLimit : ∀ n, Table.Fits 24 n ↔ n ≤ 384307168202282325 := by
    intro n
    unfold Table.Fits
    omega
  rw [HasRoom, bound_ofLiterals, hLimit, boundOf_le_iff]
  simp only [hLimit, Nat.succ_le_iff]

/- Where the index has room, the universe is collected. -/
theorem HasRoom.lt_capacity
    (hRoom : HasRoom ls)
    {l : Literal}
    (hMem : l ∈ ls) :
    l.index < IndexSet.capacity := by
  have hFits := hRoom l hMem
  unfold Table.Fits at hFits
  unfold IndexSet.capacity
  omega

end Universe

end ParitySolver
