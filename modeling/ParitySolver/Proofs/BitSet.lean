import Mathlib.Algebra.Group.Nat.Defs
import Mathlib.Data.Finset.SymmDiff
import Mathlib.Data.List.Sort
import Mathlib.Order.Bounds.Basic
import ParitySolver.BitSet
import ParitySolver.Proofs.Outcome

/-
  A bit set is a finite set of positions below its length,
  although it is kept in blocks. Walking through a block
  clears its lowest one bit in each round, so the members
  come in ascending order. The bits of the last block beyond
  the length stay zero, whatever is done to the set, so that
  sets with the same members are the same blocks.

  Key definitions include:
    * `BitSet.Recipe`
    * `BitSet.Recipe.make`
    * `BitSet.Recipe.members`

  Main declarations:
    * `testBit_pred`
    * `Block.bit_and_pred`
    * `Block.mem_ones`
    * `BitSet.mem_ones`
    * `BitSet.ones_eq_filter`
    * `BitSet.first?_eq_some_iff`
    * `BitSet.isZero_iff`
    * `BitSet.Recipe.exists_make`
    * `BitSet.recipes_make_finite_sets`
-/

namespace ParitySolver

------------------------------------------------------------
-- The lowest one bit
------------------------------------------------------------

/-
  Subtracting one changes the lowest one bit and the zeros
  below it.
-/
theorem testBit_pred
    {n k : Nat}
    (hLow : ∀ j < k, n.testBit j = false)
    (hBit : n.testBit k = true)
    (j : Nat) :
    (n - 1).testBit j =
      (decide (j < k) || (n.testBit j && !decide (k = j))) := by
  have hRest : n % 2 ^ (k + 1) = 2 ^ k := by
    apply Nat.eq_of_testBit_eq
    intro i
    rw [Nat.testBit_mod_two_pow, Nat.testBit_two_pow]
    rcases Nat.lt_trichotomy i k with hLt | rfl | hGt
    · rw [hLow i hLt, decide_eq_false (Nat.ne_of_gt hLt),
        Bool.and_false]
    · rw [hBit, decide_eq_true (Nat.lt_succ_self i),
        decide_eq_true rfl, Bool.and_self]
    · rw [decide_eq_false (by omega), decide_eq_false (by omega),
        Bool.false_and]
  have hPositive : 0 < 2 ^ k := Nat.two_pow_pos k
  have hDouble : 2 ^ (k + 1) = 2 * 2 ^ k := Nat.pow_succ'
  have hSplit : n = 2 ^ (k + 1) * (n / 2 ^ (k + 1)) + 2 ^ k := by
    rw [← hRest]
    exact (Nat.div_add_mod n _).symm
  have hPred :
      n - 1 = 2 ^ (k + 1) * (n / 2 ^ (k + 1)) + (2 ^ k - 1) := by
    omega
  rw [hPred, Nat.testBit_two_pow_mul_add _ (by omega),
    Nat.testBit_two_pow_sub_one]
  rcases Nat.lt_trichotomy j k with hBelow | rfl | hAbove
  · rw [if_pos (by omega), decide_eq_true hBelow, Bool.true_or]
  · rw [if_pos (by omega), decide_eq_false (Nat.lt_irrefl j),
      decide_eq_true rfl, Bool.not_true, Bool.and_false,
      Bool.or_self]
  · have hSame :
        n.testBit j =
          (n / 2 ^ (k + 1)).testBit (j - (k + 1)) := by
      conv => lhs; rw [hSplit]
      rw [Nat.testBit_two_pow_mul_add _ (by omega),
        if_neg (by omega)]
    rw [if_neg (by omega), decide_eq_false (by omega),
      decide_eq_false (Nat.ne_of_lt hAbove), hSame, Bool.false_or,
      Bool.not_false, Bool.and_true]

/- The changed bits are the lowest one bit and those below it. -/
theorem xor_pred_eq
    {n k : Nat}
    (hLow : ∀ j < k, n.testBit j = false)
    (hBit : n.testBit k = true) :
    n ^^^ (n - 1) = 2 ^ (k + 1) - 1 := by
  apply Nat.eq_of_testBit_eq
  intro j
  rw [Nat.testBit_xor, testBit_pred hLow hBit,
    Nat.testBit_two_pow_sub_one]
  rcases Nat.lt_trichotomy j k with hBelow | rfl | hAbove
  · rw [hLow j hBelow, decide_eq_true hBelow,
      decide_eq_true (Nat.lt_succ_of_lt hBelow)]
    rfl
  · rw [hBit, decide_eq_true (Nat.lt_succ_self j)]
    simp
  · have hNot : ¬ j < k + 1 := by omega
    rw [decide_eq_false (Nat.lt_asymm hAbove),
      decide_eq_false (Nat.ne_of_lt hAbove), decide_eq_false hNot]
    simp

namespace Block

variable {block rest : Block} {fuel k : Nat}

theorem toNat_pred
    (hNe : block ≠ 0) :
    (block - 1).toNat = block.toNat - 1 := by
  apply BitVec.toNat_sub_of_le
  rw [BitVec.le_def]
  apply Nat.pos_of_ne_zero
  intro hZero
  exact hNe (BitVec.eq_of_toNat_eq hZero)

theorem lowest_eq_ctz
    (hNe : block ≠ 0) :
    block.lowest = block.ctz.toNat := by
  have hChanged :
      block.toNat ^^^ (block.toNat - 1) =
        2 ^ (block.ctz.toNat + 1) - 1 := by
    apply xor_pred_eq
    · intro j hLt
      exact BitVec.getLsbD_false_of_lt_ctz hLt
    · exact BitVec.getLsbD_true_ctz_of_ne_zero hNe
  have hPositive : 0 < 2 ^ block.ctz.toNat := Nat.two_pow_pos _
  have hDouble :
      2 ^ (block.ctz.toNat + 1) = 2 * 2 ^ block.ctz.toNat :=
    Nat.pow_succ'
  unfold lowest
  rw [BitVec.toNat_xor, toNat_pred hNe, hChanged,
    Nat.log2_eq_iff (by omega)]
  omega

theorem bit_lowest
    (hNe : block ≠ 0) :
    block.bit block.lowest = true := by
  rw [bit_eq_getLsbD, lowest_eq_ctz hNe]
  exact BitVec.getLsbD_true_ctz_of_ne_zero hNe

theorem bit_of_lt_lowest
    (hNe : block ≠ 0)
    (hLt : k < block.lowest) :
    block.bit k = false := by
  rw [lowest_eq_ctz hNe] at hLt
  rw [bit_eq_getLsbD]
  exact BitVec.getLsbD_false_of_lt_ctz hLt

/- The conjunction with the predecessor clears the lowest one bit. -/
theorem bit_and_pred
    (hNe : block ≠ 0)
    (k : Nat) :
    (block &&& (block - 1)).bit k =
      (block.bit k && !decide (block.lowest = k)) := by
  have hPred := testBit_pred (k := block.lowest) (n := block.toNat)
    (fun j hLt => by
      rw [BitVec.testBit_toNat, ← bit_eq_getLsbD]
      exact bit_of_lt_lowest hNe hLt)
    (by
      rw [BitVec.testBit_toNat, ← bit_eq_getLsbD]
      exact bit_lowest hNe)
    k
  rw [bit_eq_getLsbD, ← BitVec.testBit_toNat, BitVec.toNat_and,
    toNat_pred hNe, Nat.testBit_and, hPred, BitVec.testBit_toNat,
    ← bit_eq_getLsbD]
  by_cases hLt : k < block.lowest
  · rw [bit_of_lt_lowest hNe hLt]
    rfl
  · rw [decide_eq_false hLt, Bool.false_or, ← Bool.and_assoc,
      Bool.and_self]

------------------------------------------------------------
-- The one bits of a block
------------------------------------------------------------

theorem bit_of_mem_onesUpTo
    (hMem : k ∈ onesUpTo fuel rest) :
    rest.bit k = true := by
  induction fuel generalizing rest with
  | zero => cases hMem
  | succ fuel ih =>
      rw [onesUpTo] at hMem
      split at hMem
      next => cases hMem
      next hNe =>
        rcases List.mem_cons.mp hMem with rfl | hLater
        · exact bit_lowest hNe
        · have hBit := ih hLater
          rw [bit_and_pred hNe, Bool.and_eq_true] at hBit
          exact hBit.1

theorem lowest_lt_of_bit_and_pred
    (hNe : rest ≠ 0)
    (hBit : (rest &&& (rest - 1)).bit k = true) :
    rest.lowest < k := by
  rw [bit_and_pred hNe, Bool.and_eq_true, Bool.not_eq_true',
    decide_eq_false_iff_not] at hBit
  rcases Nat.lt_trichotomy k rest.lowest with hLt | hEq | hGt
  · rw [bit_of_lt_lowest hNe hLt] at hBit
    cases hBit.1
  · exact absurd hEq.symm hBit.2
  · exact hGt

theorem pairwise_onesUpTo
    (fuel : Nat)
    (rest : Block) :
    (onesUpTo fuel rest).Pairwise (· < ·) := by
  induction fuel generalizing rest with
  | zero => exact List.Pairwise.nil
  | succ fuel ih =>
      rw [onesUpTo]
      split
      next => exact List.Pairwise.nil
      next hNe =>
        refine List.pairwise_cons.mpr ⟨?_, ih _⟩
        intro k hMem
        exact lowest_lt_of_bit_and_pred hNe (bit_of_mem_onesUpTo hMem)

theorem mem_onesUpTo
    (hReach : ∀ k, rest.bit k = true → 64 ≤ k + fuel)
    (hBit : rest.bit k = true) :
    k ∈ onesUpTo fuel rest := by
  induction fuel generalizing rest with
  | zero =>
      have hGe : 64 ≤ k := hReach k hBit
      rw [bit_of_ge rest hGe] at hBit
      cases hBit
  | succ fuel ih =>
      rw [onesUpTo]
      split
      next hZero =>
        rw [hZero, bit_zero] at hBit
        cases hBit
      next hNe =>
        have hFirst := hReach rest.lowest (bit_lowest hNe)
        by_cases hEq : rest.lowest = k
        · exact hEq ▸ List.mem_cons_self
        · refine List.mem_cons_of_mem _ (ih ?_ ?_)
          · intro j hLater
            have hAbove := lowest_lt_of_bit_and_pred hNe hLater
            omega
          · rw [bit_and_pred hNe, hBit, decide_eq_false hEq]
            rfl

theorem mem_ones :
    k ∈ block.ones ↔ block.bit k = true :=
  ⟨bit_of_mem_onesUpTo,
    mem_onesUpTo fun k _ => Nat.le_add_left 64 k⟩

theorem lt_of_mem_ones
    (hMem : k ∈ block.ones) :
    k < 64 := by
  by_contra hGe
  have hBit := mem_ones.mp hMem
  rw [bit_of_ge block (Nat.le_of_not_lt hGe)] at hBit
  cases hBit

theorem head?_ones
    (block : Block) :
    block.ones.head? = if block = 0 then none else some block.lowest := by
  unfold ones
  rw [onesUpTo]
  split <;> rfl

end Block

------------------------------------------------------------
-- The members of a bit set
------------------------------------------------------------

namespace BitSet

variable {s : BitSet} {i : Nat}

theorem mem_ones
    (s : BitSet)
    (i : Nat) :
    i ∈ s.ones ↔ s.has i = true := by
  simp only [ones, List.mem_flatMap, List.mem_map, Prod.exists,
    List.mem_zipIdx_iff_getElem?, Array.getElem?_toList]
  constructor
  · rintro ⟨block, b, hAt, k, hMem, rfl⟩
    rw [has, bitAt_add _ _ (Block.lt_of_mem_ones hMem),
      Array.getD_eq_getD_getElem?, hAt]
    exact Block.mem_ones.mp hMem
  · intro hBit
    unfold has bitAt at hBit
    rw [Array.getD_eq_getD_getElem?] at hBit
    cases hAt : s.blocks[i / 64]? with
    | none =>
        rw [hAt, Option.getD_none, Block.bit_zero] at hBit
        cases hBit
    | some block =>
        rw [hAt] at hBit
        exact ⟨block, i / 64, hAt, i % 64, Block.mem_ones.mpr hBit,
          Nat.div_add_mod i 64⟩

theorem pairwise_ones
    (s : BitSet) :
    s.ones.Pairwise (· < ·) := by
  unfold ones
  rw [List.pairwise_flatMap]
  constructor
  · rintro ⟨block, b⟩ _
    rw [List.pairwise_map]
    refine (Block.pairwise_onesUpTo 64 block).imp ?_
    intro j k hLt
    exact Nat.add_lt_add_left hLt (64 * b)
  · have hOrder :
        (s.blocks.toList.zipIdx.map Prod.snd).Pairwise (· < ·) := by
      rw [List.zipIdx_map_snd]
      exact List.pairwise_lt_range'
    refine (List.pairwise_map.mp hOrder).imp ?_
    rintro ⟨first, b⟩ ⟨second, c⟩ hLt j hFirst k hSecond
    rcases List.mem_map.mp hFirst with ⟨p, hP, rfl⟩
    rcases List.mem_map.mp hSecond with ⟨q, _, rfl⟩
    have hBound := Block.lt_of_mem_ones hP
    have hNext : b < c := hLt
    omega

theorem nodup_ones
    (s : BitSet) :
    s.ones.Nodup :=
  s.pairwise_ones.imp Nat.ne_of_lt

/- The members are found by looking at all positions, too. -/
theorem ones_eq_filter
    (s : BitSet) :
    s.ones = (List.range s.size).filter s.has := by
  apply List.Pairwise.eq_of_mem_iff s.pairwise_ones
    (List.pairwise_lt_range.filter _)
  intro i
  rw [mem_ones, List.mem_filter, List.mem_range]
  refine ⟨fun hHas => ⟨?_, hHas⟩, And.right⟩
  by_contra hGe
  rw [has_of_ge s (Nat.le_of_not_lt hGe)] at hHas
  cases hHas

theorem first?_eq_head?
    (s : BitSet) :
    s.first? = s.ones.head? := by
  unfold first? ones
  rw [List.head?_flatMap]
  congr 1
  funext ⟨block, b⟩
  rw [List.head?_map, Block.head?_ones]
  by_cases hZero : block = 0
  · simp only [if_pos hZero, Option.map_none]
  · simp only [if_neg hZero, Option.map_some]

theorem first?_eq_some_iff :
    s.first? = some i ↔
      s.has i = true ∧ ∀ j < i, s.has j = false := by
  have hOrder := s.pairwise_ones
  rw [first?_eq_head?]
  simp only [← mem_ones, ← Bool.not_eq_true]
  generalize s.ones = is at hOrder
  cases is with
  | nil => simp
  | cons first rest =>
      rw [List.pairwise_cons] at hOrder
      rw [List.head?_cons, Option.some.injEq]
      constructor
      · rintro rfl
        refine ⟨List.mem_cons_self, ?_⟩
        intro j hLt hMem
        rcases List.mem_cons.mp hMem with rfl | hLater
        · exact Nat.lt_irrefl _ hLt
        · exact Nat.lt_asymm hLt (hOrder.1 j hLater)
      · rintro ⟨hMem, hLeast⟩
        rcases List.mem_cons.mp hMem with rfl | hLater
        · rfl
        · exact absurd List.mem_cons_self (hLeast first (hOrder.1 i hLater))

theorem isZero_iff :
    s.isZero = true ↔ ∀ i, s.has i = false := by
  unfold isZero
  rw [Array.all_eq_true']
  simp only [beq_iff_eq]
  constructor
  · intro hAll i
    unfold has bitAt
    rw [Array.getD_eq_getD_getElem?]
    cases hAt : s.blocks[i / 64]? with
    | none => exact Block.bit_zero _
    | some block =>
        rw [hAll block (Array.mem_of_getElem? hAt)]
        exact Block.bit_zero _
  · intro hNone block hMem
    rcases Array.getElem_of_mem hMem with ⟨b, hLt, rfl⟩
    apply Block.eq_of_bit
    intro k hK
    have hBit := hNone (64 * b + k)
    rw [has, bitAt_add _ _ hK, Array.getD_eq_getD_getElem?,
      Array.getElem?_eq_getElem hLt] at hBit
    rw [Block.bit_zero]
    exact hBit

------------------------------------------------------------
-- Recipes
------------------------------------------------------------

/- How a bit set of some length is made. -/
inductive Recipe where
  | zero
  | insert (r : Recipe) (i : Nat)
  | erase (r : Recipe) (i : Nat)
  | toggle (r : Recipe) (i : Nat)
  | xor (r other : Recipe)

namespace Recipe

/- Make the bit set of a length. -/
def make
    (size : Nat) : Recipe → Except Fault BitSet
  | .zero => .ok (BitSet.zero size)
  | .insert r i => do (← r.make size).insert i
  | .erase r i => do (← r.make size).erase i
  | .toggle r i => do (← r.make size).toggle i
  | .xor r other => do (← r.make size).xor (← other.make size)

/- The finite set that a recipe describes. -/
def members : Recipe → Finset Nat
  | .zero => ∅
  | .insert r i => Insert.insert i r.members
  | .erase r i => r.members.erase i
  | .toggle r i => symmDiff r.members {i}
  | .xor r other => symmDiff r.members other.members

/- Every position in the recipe is below the length. -/
def Within
    (size : Nat) : Recipe → Prop
  | .zero => True
  | .insert r i => r.Within size ∧ i < size
  | .erase r i => r.Within size ∧ i < size
  | .toggle r i => r.Within size ∧ i < size
  | .xor r other => r.Within size ∧ other.Within size

/- A recipe can be followed, and makes the set that it describes. -/
theorem exists_make
    {size : Nat}
    {r : Recipe}
    (hWithin : r.Within size) :
    ∃ s, r.make size = .ok s ∧ s.size = size ∧
      ∀ i, s.has i = true ↔ i ∈ r.members := by
  induction r with
  | zero =>
      refine ⟨BitSet.zero size, rfl, rfl, fun i => ?_⟩
      rw [has_zero, members]
      simp
  | insert r i ih =>
      rcases ih hWithin.1 with ⟨s, hMake, rfl, hHas⟩
      refine ⟨s.raise i hWithin.2, ?_, rfl, fun j => ?_⟩
      · simp only [make, bind_eq_ok]
        exact ⟨s, hMake, dif_pos hWithin.2⟩
      · rw [has_raise, Bool.or_eq_true, hHas, decide_eq_true_iff,
          members, Finset.mem_insert, or_comm, eq_comm]
  | erase r i ih =>
      rcases ih hWithin.1 with ⟨s, hMake, rfl, hHas⟩
      refine ⟨s.clear i hWithin.2, ?_, rfl, fun j => ?_⟩
      · simp only [make, bind_eq_ok]
        exact ⟨s, hMake, dif_pos hWithin.2⟩
      · rw [has_clear, Bool.and_eq_true, hHas, Bool.not_eq_true',
          decide_eq_false_iff_not, members, Finset.mem_erase,
          and_comm, ne_comm]
  | toggle r i ih =>
      rcases ih hWithin.1 with ⟨s, hMake, rfl, hHas⟩
      refine ⟨s.flip i hWithin.2, ?_, rfl, fun j => ?_⟩
      · simp only [make, bind_eq_ok]
        exact ⟨s, hMake, dif_pos hWithin.2⟩
      · rw [has_flip, members, Finset.mem_symmDiff,
          Finset.mem_singleton, ← hHas]
        by_cases hEq : i = j
        · subst hEq
          simp
        · simp [hEq, Ne.symm hEq]
  | xor r other ihLeft ihRight =>
      rcases ihLeft hWithin.1 with ⟨s, hMake, rfl, hHas⟩
      rcases ihRight hWithin.2 with ⟨t, hOther, hSize, hOtherHas⟩
      refine ⟨s.sum t hSize.symm, ?_, rfl, fun j => ?_⟩
      · simp only [make, bind_eq_ok]
        exact ⟨s, hMake, t, hOther, dif_pos hSize.symm⟩
      · rw [has_sum, members, Finset.mem_symmDiff, ← hHas,
          ← hOtherHas]
        cases s.has j <;> simp

end Recipe

/-
  Following a recipe makes a set with the members that it
  describes. Asking for a position, for the least member, for
  all members and for whether there are any gives what the
  finite set does. The blocks are as many as are needed, and
  their bits beyond the length are zero. Two sets are equal
  if their lengths and their members are.
-/
theorem recipes_make_finite_sets
    {size : Nat}
    {r : Recipe}
    (hWithin : r.Within size) :
    ∃ s, r.make size = .ok s ∧
      s.size = size ∧
      (∀ i < size, s.contains i = .ok (decide (i ∈ r.members))) ∧
      (s.isZero = true ↔ r.members = ∅) ∧
      (∀ i, s.first? = some i ↔
        IsLeast (r.members : Set Nat) i) ∧
      s.ones.Pairwise (· < ·) ∧
      (∀ i, i ∈ s.ones ↔ i ∈ r.members) ∧
      s.blocks.size = (size + 63) / 64 ∧
      (∀ (b : Nat) (block : Block), s.blocks[b]? = some block →
        ∀ k < 64, size ≤ 64 * b + k → block.bit k = false) ∧
      ∀ (size' : Nat) (r' : Recipe) (s' : BitSet),
        r'.Within size' → r'.make size' = .ok s' →
          ((s == s') = true ↔
            size = size' ∧ r.members = r'.members) := by
  rcases Recipe.exists_make hWithin with ⟨s, hMake, rfl, hHas⟩
  refine ⟨s, hMake, rfl, ?_, ?_, ?_, s.pairwise_ones,
    fun i => (s.mem_ones i).trans (hHas i), s.filled, ?_, ?_⟩
  · intro i hLt
    rw [contains, if_pos hLt]
    congr 1
    rw [Bool.eq_iff_iff, hHas, decide_eq_true_iff]
  · rw [isZero_iff, Finset.eq_empty_iff_forall_notMem]
    simp only [← hHas, Bool.not_eq_true]
  · intro i
    rw [first?_eq_some_iff, IsLeast, mem_lowerBounds]
    simp only [← Bool.not_eq_true, hHas, Finset.mem_coe]
    apply and_congr_right
    intro _
    refine forall_congr' fun j => ?_
    rw [imp_not_comm, Nat.not_lt]
  · intro b block hAt k hLt hGe
    have hBit := s.has_of_ge hGe
    rw [has, bitAt_add _ _ hLt, Array.getD_eq_getD_getElem?, hAt]
      at hBit
    exact hBit
  · intro size' r' s' hWithin' hMake'
    rcases Recipe.exists_make hWithin' with
      ⟨made, hMade, rfl, hMadeHas⟩
    cases hMake'.symm.trans hMade
    rw [beq_iff_eq]
    constructor
    · rintro rfl
      refine ⟨rfl, ?_⟩
      ext i
      rw [← hHas, ← hMadeHas]
    · rintro ⟨hSize, hMembers⟩
      apply ext_of_has hSize
      intro i
      rw [Bool.eq_iff_iff, hHas, hMadeHas, hMembers]

/-
  The second block of 70 positions has six bits in use. The
  sum takes the member 3 out again.
-/
theorem recipes_make_finite_sets_of_two_blocks :
    ∃ s, (Recipe.xor (.insert (.insert .zero 3) 69)
        (.toggle (.erase (.insert .zero 5) 5) 3)).make 70 = .ok s ∧
      s.blocks = #[0, 32] ∧
      s.first? = some 69 ∧
      IsLeast ((Recipe.xor (.insert (.insert .zero 3) 69)
        (.toggle (.erase (.insert .zero 5) 5) 3)).members : Set Nat)
        69 := by
  have hWithin : (Recipe.xor (.insert (.insert .zero 3) 69)
      (.toggle (.erase (.insert .zero 5) 5) 3)).Within 70 := by
    simp [Recipe.Within]
  have hRun : ((Recipe.xor (.insert (.insert .zero 3) 69)
      (.toggle (.erase (.insert .zero 5) 5) 3)).make 70).toOption.any
        (fun s => decide (s.blocks = #[0, 32] ∧
          s.first? = some 69)) = true := by
    decide +kernel
  rcases exists_ok_of_any hRun with ⟨s, hMake, hEnd⟩
  rcases of_decide_eq_true hEnd with ⟨hBlocks, hFirst⟩
  rcases recipes_make_finite_sets hWithin with
    ⟨made, hMade, _, _, _, hLeast, _⟩
  cases hMake.symm.trans hMade
  exact ⟨s, hMake, hBlocks, hFirst, (hLeast 69).mp hFirst⟩

end BitSet

end ParitySolver
