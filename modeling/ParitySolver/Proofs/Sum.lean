import ParitySolver.BitSet
import ParitySolver.IndexSet
import ParitySolver.Proofs.BitSet
import ParitySolver.Proofs.Outcome

/-
  Sums modulo two over lists, ordered index sets and bit
  sets. A sum does not see the order of its terms, and an
  index that is toggled twice cancels.

  Main declarations:
    * `sumOver`
    * `sumOver_perm`
    * `IndexSet.sumOver_toggleAll`
    * `IndexSet.pairwise_sorted`
    * `BitSet.sumOver_ones_sum`
    * `BitSet.sumOver_ones_toggleAll`
-/

namespace ParitySolver

------------------------------------------------------------
-- Sums over lists
------------------------------------------------------------

section Lists

variable {α β : Type}

/- The sum modulo two of the terms of a list. -/
def sumOver
    (f : α → Bool) : List α → Bool
  | [] => false
  | a :: as => f a ^^ sumOver f as

@[simp]
theorem sumOver_nil
    (f : α → Bool) :
    sumOver f [] = false :=
  rfl

@[simp]
theorem sumOver_cons
    (f : α → Bool)
    (a : α)
    (as : List α) :
    sumOver f (a :: as) = (f a ^^ sumOver f as) :=
  rfl

theorem sumOver_append
    (f : α → Bool)
    (as bs : List α) :
    sumOver f (as ++ bs) = (sumOver f as ^^ sumOver f bs) := by
  induction as with
  | nil => simp
  | cons a as ih => simp [ih]

/- The order of the terms does not matter. -/
theorem sumOver_perm
    (f : α → Bool)
    {as bs : List α}
    (hPerm : as.Perm bs) :
    sumOver f as = sumOver f bs := by
  induction hPerm with
  | nil => rfl
  | cons a _ ih => simp [ih]
  | swap a b as => simp [Bool.xor_left_comm]
  | trans _ _ ihFirst ihSecond => rw [ihFirst, ihSecond]

/- Only the terms of the list matter. -/
theorem sumOver_congr
    {f g : α → Bool}
    {as : List α}
    (hEq : ∀ a ∈ as, f a = g a) :
    sumOver f as = sumOver g as := by
  induction as with
  | nil => rfl
  | cons a as ih =>
      have hHead := hEq a List.mem_cons_self
      have hTail := ih fun b hMem =>
        hEq b (List.mem_cons_of_mem a hMem)
      rw [sumOver_cons, sumOver_cons, hHead, hTail]

theorem sumOver_xor
    (f g : α → Bool)
    (as : List α) :
    sumOver (fun a => f a ^^ g a) as =
      (sumOver f as ^^ sumOver g as) := by
  induction as with
  | nil => rfl
  | cons a as ih =>
      rw [sumOver_cons, sumOver_cons, sumOver_cons, ih]
      cases f a <;> cases g a <;> simp

theorem sumOver_map
    (f : β → Bool)
    (g : α → β)
    (as : List α) :
    sumOver f (as.map g) = sumOver (fun a => f (g a)) as := by
  induction as with
  | nil => rfl
  | cons a as ih => simp [ih]

/- Leaving terms out is the same as making them zero. -/
theorem sumOver_filter
    (f : α → Bool)
    (p : α → Bool)
    (as : List α) :
    sumOver f (as.filter p) = sumOver (fun a => p a && f a) as := by
  induction as with
  | nil => rfl
  | cons a as ih =>
      cases hKeep : p a with
      | true => simp [hKeep, ih]
      | false => simp [hKeep, ih]

/- A sum of zeros is zero. -/
theorem sumOver_eq_false
    {f : α → Bool}
    {as : List α}
    (hZero : ∀ a ∈ as, f a = false) :
    sumOver f as = false := by
  rw [sumOver_congr hZero]
  induction as with
  | nil => rfl
  | cons a as ih =>
      rw [sumOver_cons, Bool.false_xor]
      exact ih fun b hMem =>
        hZero b (List.mem_cons_of_mem a hMem)

/- A list without repetitions picks a term out once. -/
theorem sumOver_decide_eq
    [DecidableEq α]
    {a : α}
    {as : List α}
    (hNodup : as.Nodup) :
    sumOver (fun b => decide (a = b)) as = decide (a ∈ as) := by
  induction as with
  | nil => simp
  | cons b as ih =>
      rw [List.nodup_cons] at hNodup
      rw [sumOver_cons, ih hNodup.2]
      by_cases hEq : a = b
      · subst hEq
        simp [hNodup.1]
      · simp [hEq]

end Lists

------------------------------------------------------------
-- Sums over index sets
------------------------------------------------------------

namespace IndexSet

/- Taking a member out takes just that member out. -/
theorem perm_erase
    {s : IndexSet}
    {i : Nat}
    (hMem : s.contains i = true) :
    (i :: (s.erase i).1.members).Perm s.members := by
  have hOut : i ∉ (s.erase i).1.members := fun hIn =>
    ((mem_erase s i i).mp hIn).2 rfl
  apply (List.perm_ext_iff_of_nodup
    (List.nodup_cons.mpr ⟨hOut, nodup_members _⟩)
    s.nodup_members).mpr
  intro j
  rw [List.mem_cons, mem_erase]
  by_cases hEq : j = i
  · subst hEq
    simp [(contains_iff_mem s j).mp hMem]
  · simp [hEq]

/- Toggling an index adds its term. -/
theorem sumOver_toggle
    (f : Nat → Bool)
    (s : IndexSet)
    (i : Nat) :
    sumOver f (s.toggle i).members =
      (sumOver f s.members ^^ f i) := by
  rw [toggle_eq]
  by_cases hMem : s.contains i = true
  · rw [if_pos hMem]
    have hSum := sumOver_perm f (perm_erase hMem)
    rw [sumOver_cons] at hSum
    rw [← hSum]
    cases f i <;> simp
  · rw [if_neg hMem, members_insert s (Bool.eq_false_iff.mpr hMem),
      sumOver_append, sumOver_cons, sumOver_nil, Bool.xor_false]

/- Toggling the indices of a list adds their terms. -/
theorem sumOver_toggleAll
    (f : Nat → Bool)
    (s : IndexSet)
    (is : List Nat) :
    sumOver f (s.toggleAll is).members =
      (sumOver f s.members ^^ sumOver f is) := by
  unfold toggleAll
  induction is generalizing s with
  | nil => simp
  | cons i is ih =>
      rw [List.foldl_cons, ih, sumOver_toggle, sumOver_cons,
        Bool.xor_assoc]

/- Toggling adds no index that is not in the list. -/
theorem mem_of_mem_toggleAll
    (s : IndexSet)
    {is : List Nat}
    {j : Nat}
    (hMem : j ∈ (s.toggleAll is).members) :
    j ∈ s.members ∨ j ∈ is := by
  unfold toggleAll at hMem
  induction is generalizing s with
  | nil => exact Or.inl hMem
  | cons i is ih =>
      rcases ih _ hMem with hOld | hNew
      · rw [mem_toggle] at hOld
        by_cases hEq : j = i
        · exact Or.inr (hEq ▸ List.mem_cons_self)
        · rw [if_neg hEq] at hOld
          exact Or.inl hOld
      · exact Or.inr (List.mem_cons_of_mem i hNew)

end IndexSet

------------------------------------------------------------
-- Sorting
------------------------------------------------------------

theorem perm_insertAscending
    (i : Nat)
    (is : List Nat) :
    (insertAscending i is).Perm (i :: is) := by
  induction is with
  | nil => exact List.Perm.refl _
  | cons j js ih =>
      unfold insertAscending
      split
      · exact List.Perm.refl _
      · exact (ih.cons j).trans (List.Perm.swap i j js)

/- Sorting is a rearrangement. -/
theorem perm_sortAscending
    (is : List Nat) :
    (sortAscending is).Perm is := by
  induction is with
  | nil => exact List.Perm.refl _
  | cons i is ih =>
      exact (perm_insertAscending i (sortAscending is)).trans
        (ih.cons i)

/- Sorting indices without repetitions makes them ascend. -/
theorem IndexSet.pairwise_sorted
    (s : IndexSet) :
    s.sorted.Pairwise (· < ·) := by
  have hSorted : s.sorted.Pairwise (· ≤ ·) :=
    pairwise_sortAscending s.members
  have hDistinct : s.sorted.Pairwise (· ≠ ·) :=
    ((perm_sortAscending s.members).nodup_iff).mpr s.nodup_members
  refine (hSorted.and hDistinct).imp ?_
  intro i j hBoth
  exact Nat.lt_of_le_of_ne hBoth.1 hBoth.2

------------------------------------------------------------
-- Sums over bit sets
------------------------------------------------------------

namespace BitSet

/- A sum over the members, written with all positions. -/
theorem sumOver_ones
    (f : Nat → Bool)
    (s : BitSet) :
    sumOver f s.ones =
      sumOver (fun i => s.has i && f i) (List.range s.size) := by
  rw [ones_eq_filter]
  exact sumOver_filter f s.has (List.range s.size)

@[simp]
theorem sumOver_ones_zero
    (f : Nat → Bool)
    (size : Nat) :
    sumOver f (zero size).ones = false := by
  rw [sumOver_ones]
  exact sumOver_eq_false fun i _ => by simp

/- The sum over a symmetric difference is the sum of the sums. -/
theorem sumOver_ones_sum
    (f : Nat → Bool)
    (s t : BitSet)
    (hSize : s.size = t.size) :
    sumOver f (s.sum t hSize).ones =
      (sumOver f s.ones ^^ sumOver f t.ones) := by
  rw [sumOver_ones, sumOver_ones, sumOver_ones, ← hSize,
    ← sumOver_xor]
  apply sumOver_congr
  intro i _
  rw [has_sum, Bool.and_xor_distrib_right]

/- Flipping a position adds its term. -/
theorem sumOver_ones_flip
    (f : Nat → Bool)
    (s : BitSet)
    (i : Nat)
    (hLt : i < s.size) :
    sumOver f (s.flip i hLt).ones =
      (sumOver f s.ones ^^ f i) := by
  have hPick :
      sumOver (fun j => decide (i = j) && f j)
          (List.range s.size) = f i := by
    have hTerm :
        ∀ j ∈ List.range s.size,
          (decide (i = j) && f j) =
            (f i && decide (i = j)) := by
      intro j _
      by_cases hEq : i = j
      · subst hEq
        simp
      · simp [hEq]
    rw [sumOver_congr hTerm]
    cases hValue : f i with
    | false => exact sumOver_eq_false fun j _ => by simp
    | true =>
        simp only [Bool.true_and]
        rw [sumOver_decide_eq List.nodup_range]
        simp [hLt]
  have hTerms :
      sumOver f (s.flip i hLt).ones =
        sumOver
          (fun j => (s.has j && f j) ^^ (decide (i = j) && f j))
          (List.range s.size) := by
    rw [sumOver_ones]
    apply sumOver_congr
    intro j _
    rw [has_flip, Bool.and_xor_distrib_right]
  rw [hTerms, sumOver_xor, hPick, ← sumOver_ones]

/- What a toggle that succeeds does to sums. -/
theorem sumOver_ones_toggle
    (f : Nat → Bool)
    {s t : BitSet}
    {i : Nat}
    (hToggle : s.toggle i = .ok t) :
    sumOver f t.ones = (sumOver f s.ones ^^ f i) := by
  unfold toggle at hToggle
  split at hToggle
  · rename_i hLt
    cases hToggle
    exact sumOver_ones_flip f s i hLt
  · cases hToggle

/- Toggling the positions of a list adds their terms. -/
theorem sumOver_ones_toggleAll
    (f : Nat → Bool)
    {is : List Nat}
    {s t : BitSet}
    (hToggle : is.foldlM toggle s = .ok t) :
    sumOver f t.ones =
      (sumOver f s.ones ^^ sumOver f is) := by
  induction is generalizing s with
  | nil =>
      rw [List.foldlM_nil, pure_eq_ok] at hToggle
      simp [hToggle]
  | cons i is ih =>
      rw [List.foldlM_cons, bind_eq_ok] at hToggle
      rcases hToggle with ⟨middle, hFirst, hRest⟩
      rw [ih hRest, sumOver_ones_toggle f hFirst,
        sumOver_cons, Bool.xor_assoc]

/- What a new member does to sums. -/
theorem sumOver_ones_insert
    (f : Nat → Bool)
    {s t : BitSet}
    {i : Nat}
    (hNew : s.has i = false)
    (hInsert : s.insert i = .ok t) :
    sumOver f t.ones = (sumOver f s.ones ^^ f i) := by
  unfold insert at hInsert
  split at hInsert
  · rename_i hLt
    cases hInsert
    rw [raise_eq_flip s hLt hNew]
    exact sumOver_ones_flip f s i hLt
  · cases hInsert

theorem has_of_insert
    {s t : BitSet}
    {i j : Nat}
    (hInsert : s.insert i = .ok t)
    (hHas : t.has j = true) :
    s.has j = true ∨ j = i := by
  unfold insert at hInsert
  split at hInsert
  · rename_i hLt
    cases hInsert
    rw [has_raise, Bool.or_eq_true, decide_eq_true_iff] at hHas
    exact hHas.imp_right Eq.symm
  · cases hInsert

theorem has_xor
    {s t u : BitSet}
    (hXor : s.xor t = .ok u)
    (i : Nat) :
    u.has i = (s.has i ^^ t.has i) := by
  unfold xor at hXor
  split at hXor
  · rename_i hSize
    cases hXor
    exact has_sum s t hSize i
  · cases hXor

/- What an exclusive or that succeeds does to sums. -/
theorem sumOver_ones_xor
    (f : Nat → Bool)
    {s t u : BitSet}
    (hXor : s.xor t = .ok u) :
    sumOver f u.ones =
      (sumOver f s.ones ^^ sumOver f t.ones) := by
  unfold xor at hXor
  split at hXor
  · rename_i hSize
    cases hXor
    exact sumOver_ones_sum f s t hSize
  · cases hXor

end BitSet

end ParitySolver
