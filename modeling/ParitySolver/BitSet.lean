import ParitySolver.Fault

/-
  This file defines bit sets: subsets of the positions below
  a fixed length. The members are the one bits in a table of
  blocks of 64 bits each. The last block may reach beyond the
  length; its bits there are always zero.

  Key definitions include:
    * `Block`
    * `Block.ones`
    * `BitSet`
    * `BitSet.has`
    * `BitSet.insert`
    * `BitSet.erase`
    * `BitSet.toggle`
    * `BitSet.xor`
    * `BitSet.ones`
    * `BitSet.first?`

  Correctness is proven by:
    * `BitSet.ext_of_has`
    * `BitSet.has_raise`
    * `BitSet.has_clear`
    * `BitSet.has_flip`
    * `BitSet.has_sum`
-/

namespace ParitySolver

------------------------------------------------------------
-- Blocks
------------------------------------------------------------

/- A word of 64 bits. -/
abbrev Block : Type := BitVec 64

namespace Block

/- The bit at a position. -/
def bit
    (block : Block)
    (k : Nat) : Bool :=
  (block >>> k &&& 1) == 1

/- The block whose only one bit is at a position. -/
def unit
    (k : Nat) : Block :=
  (1 : Block) <<< k

/-
  The position of the lowest one bit. Subtracting one changes
  this bit and the zeros below it, and no other bit.
-/
def lowest
    (block : Block) : Nat :=
  (block ^^^ (block - 1)).toNat.log2

/-
  The positions of the one bits, the lowest first, as far as
  the fuel reaches. Each round clears the lowest one bit.
-/
def onesUpTo : Nat → Block → List Nat
  | 0, _ => []
  | fuel + 1, rest =>
      if rest = 0 then
        []
      else
        rest.lowest :: onesUpTo fuel (rest &&& (rest - 1))

/- The positions of the one bits, the lowest first. -/
def ones
    (block : Block) : List Nat :=
  onesUpTo 64 block

theorem bit_eq_getLsbD
    (block : Block)
    (k : Nat) :
    block.bit k = block.getLsbD k := by
  have hOne : (1 : Block) = 1#64 := rfl
  have hLow := @BitVec.and_one_eq_setWidth_ofBool_getLsbD 64 (block >>> k)
  unfold bit
  rw [hOne, hLow, BitVec.getLsbD_ushiftRight, Nat.add_zero]
  cases block.getLsbD k <;> rfl

@[simp]
theorem bit_zero
    (k : Nat) :
    (0 : Block).bit k = false := by
  rw [bit_eq_getLsbD]
  exact BitVec.getLsbD_zero

theorem bit_of_ge
    (block : Block)
    {k : Nat}
    (hGe : 64 ≤ k) :
    block.bit k = false := by
  rw [bit_eq_getLsbD]
  exact BitVec.getLsbD_of_ge block k hGe

theorem bit_unit
    {i : Nat}
    (hLt : i < 64)
    (k : Nat) :
    (unit i).bit k = decide (i = k) := by
  have hOne : (1 : Block) = 1#64 := rfl
  unfold unit
  rw [bit_eq_getLsbD, hOne, BitVec.getLsbD_shiftLeft, BitVec.getLsbD_one]
  by_cases hEq : i = k
  · subst hEq
    simp [hLt]
  · have hCases : k < i ∨ k - i ≠ 0 := by omega
    rcases hCases with hBelow | hAbove
    · simp [hBelow, hEq]
    · simp [hAbove, hEq]

theorem eq_of_bit
    {a b : Block}
    (hBits : ∀ k < 64, a.bit k = b.bit k) :
    a = b := by
  apply BitVec.eq_of_getLsbD_eq
  intro k hLt
  rw [← bit_eq_getLsbD, ← bit_eq_getLsbD]
  exact hBits k hLt

/-
  A change of a block under a mask treats all bits alike, and
  keeps the bits at which the mask has none.
-/
structure Masked
    (change : Block → Block → Block)
    (rule : Bool → Bool → Bool) : Prop where
  bit :
    ∀ (block mask : Block) (k : Nat),
      (change block mask).bit k = rule (block.bit k) (mask.bit k)
  keep : ∀ b, rule b false = b

theorem masked_or :
    Masked (· ||| ·) (· || ·) := by
  constructor
  · intro block mask k
    simp only [bit_eq_getLsbD, BitVec.getLsbD_or]
  · exact Bool.or_false

theorem masked_andNot :
    Masked (fun block mask => block &&& ~~~mask) (fun b m => b && !m) := by
  constructor
  · intro block mask k
    by_cases hLt : k < 64
    · simp only [bit_eq_getLsbD, BitVec.getLsbD_and, BitVec.getLsbD_not, hLt,
        decide_true, Bool.true_and]
    · have hGe := Nat.le_of_not_lt hLt
      rw [bit_of_ge _ hGe, bit_of_ge _ hGe, Bool.false_and]
  · exact Bool.and_true

theorem masked_xor :
    Masked (· ^^^ ·) (· ^^ ·) := by
  constructor
  · intro block mask k
    simp only [bit_eq_getLsbD, BitVec.getLsbD_xor]
  · exact Bool.xor_false

end Block

------------------------------------------------------------
-- Tables of blocks
------------------------------------------------------------

/- The bit at a position of a table of blocks. -/
def bitAt
    (blocks : Array Block)
    (i : Nat) : Bool :=
  (blocks.getD (i / 64) 0).bit (i % 64)

theorem bitAt_add
    (blocks : Array Block)
    (b : Nat)
    {k : Nat}
    (hLt : k < 64) :
    bitAt blocks (64 * b + k) = (blocks.getD b 0).bit k := by
  have hBlock : (64 * b + k) / 64 = b := by omega
  have hOffset : (64 * b + k) % 64 = k := by omega
  unfold bitAt
  rw [hBlock, hOffset]

/- Change the block of a position under the mask of the position. -/
def changeBlock
    (change : Block → Block → Block)
    (blocks : Array Block)
    (i : Nat) : Array Block :=
  blocks.modify (i / 64) (change · (Block.unit (i % 64)))

theorem bitAt_changeBlock
    {change : Block → Block → Block}
    {rule : Bool → Bool → Bool}
    (hMasked : Block.Masked change rule)
    {blocks : Array Block}
    {i : Nat}
    (hLt : i / 64 < blocks.size)
    (j : Nat) :
    bitAt (changeBlock change blocks i) j =
      rule (bitAt blocks j) (decide (i = j)) := by
  have hOffset : i % 64 < 64 := Nat.mod_lt i (by decide)
  unfold bitAt changeBlock
  simp only [Array.getD_eq_getD_getElem?, Array.getElem?_modify]
  by_cases hSame : i / 64 = j / 64
  · have hEq : (i % 64 = j % 64) = (i = j) := by
      apply propext
      omega
    rw [if_pos hSame, ← hSame, Array.getElem?_eq_getElem hLt]
    simp only [Option.map_some, Option.getD_some, hMasked.bit,
      Block.bit_unit hOffset, hEq]
  · have hNe : ¬ i = j := fun hEq => hSame (by rw [hEq])
    rw [if_neg hSame, decide_eq_false hNe, hMasked.keep]

theorem bitAt_zipWith_xor
    {left right : Array Block}
    (hSize : left.size = right.size)
    (i : Nat) :
    bitAt (Array.zipWith (· ^^^ ·) left right) i =
      (bitAt left i ^^ bitAt right i) := by
  unfold bitAt
  simp only [Array.getD_eq_getD_getElem?, Array.getElem?_zipWith]
  by_cases hLt : i / 64 < left.size
  · rw [Array.getElem?_eq_getElem hLt, Array.getElem?_eq_getElem (hSize ▸ hLt)]
    exact Block.masked_xor.bit _ _ _
  · rw [Array.getElem?_eq_none (Nat.le_of_not_lt hLt),
      Array.getElem?_eq_none (hSize ▸ Nat.le_of_not_lt hLt)]
    simp only [Option.getD_none, Block.bit_zero, Bool.xor_false]

------------------------------------------------------------
-- Bit sets
------------------------------------------------------------

/- A set of positions below `size`. -/
structure BitSet where
  size : Nat
  blocks : Array Block
  filled : blocks.size = (size + 63) / 64
  padded : ∀ i, size ≤ i → bitAt blocks i = false
deriving DecidableEq

namespace BitSet

/- The empty set of positions below a length. -/
def zero
    (size : Nat) : BitSet where
  size := size
  blocks := Array.replicate ((size + 63) / 64) 0
  filled := Array.size_replicate
  padded := by
    intro i _
    unfold bitAt
    rw [Array.getD_eq_getD_getElem?, Array.getElem?_replicate]
    split <;> exact Block.bit_zero _

/- Is the position a member? -/
def has
    (s : BitSet)
    (i : Nat) : Bool :=
  bitAt s.blocks i

theorem block_lt
    (s : BitSet)
    {i : Nat}
    (hLt : i < s.size) :
    i / 64 < s.blocks.size := by
  rw [s.filled]
  omega

/- Change the block of a position under the mask of the position. -/
def changeAt
    (s : BitSet)
    {change : Block → Block → Block}
    {rule : Bool → Bool → Bool}
    (hMasked : Block.Masked change rule)
    (i : Nat)
    (hLt : i < s.size) : BitSet where
  size := s.size
  blocks := changeBlock change s.blocks i
  filled := Array.size_modify.trans s.filled
  padded := by
    intro j hGe
    have hNe : ¬ i = j := by omega
    rw [bitAt_changeBlock hMasked (s.block_lt hLt), decide_eq_false hNe,
      hMasked.keep]
    exact s.padded j hGe

/- Make a position a member. -/
def raise
    (s : BitSet)
    (i : Nat)
    (hLt : i < s.size) : BitSet :=
  s.changeAt Block.masked_or i hLt

/- Make a position no member. -/
def clear
    (s : BitSet)
    (i : Nat)
    (hLt : i < s.size) : BitSet :=
  s.changeAt Block.masked_andNot i hLt

/- Exchange membership and non-membership of one position. -/
def flip
    (s : BitSet)
    (i : Nat)
    (hLt : i < s.size) : BitSet :=
  s.changeAt Block.masked_xor i hLt

/- Exchange membership of a position, if there is such a position. -/
def flipAt
    (s : BitSet)
    (i : Nat) : BitSet :=
  if hLt : i < s.size then s.flip i hLt else s

/- The symmetric difference of two sets of one length. -/
def sum
    (s t : BitSet)
    (hSize : s.size = t.size) : BitSet where
  size := s.size
  blocks := Array.zipWith (· ^^^ ·) s.blocks t.blocks
  filled := by
    rw [Array.size_zipWith, s.filled, t.filled, ← hSize, Nat.min_self]
  padded := by
    intro i hGe
    have hBlocks : s.blocks.size = t.blocks.size := by
      rw [s.filled, t.filled, hSize]
    rw [bitAt_zipWith_xor hBlocks, s.padded i hGe, t.padded i (hSize ▸ hGe)]
    rfl

/- Has the set no members? -/
def isZero
    (s : BitSet) : Bool :=
  s.blocks.all (· == 0)

/- The members in ascending order. -/
def ones
    (s : BitSet) : List Nat :=
  s.blocks.toList.zipIdx.flatMap fun (block, b) => block.ones.map (64 * b + ·)

/- The least member. -/
def first?
    (s : BitSet) : Option Nat :=
  s.blocks.toList.zipIdx.findSome? fun (block, b) =>
    if block = 0 then none else some (64 * b + block.lowest)

/- One digit for each position, the lowest position first. -/
def text
    (s : BitSet) : String :=
  String.ofList ((List.range s.size).map fun i => if s.has i then '1' else '0')

------------------------------------------------------------
-- Checked operations
------------------------------------------------------------

/- Is the position, which has to exist, a member? -/
def contains
    (s : BitSet)
    (i : Nat) : Except Fault Bool :=
  if i < s.size then .ok (s.has i) else .error (.outOfRange i s.size)

/- Exchange membership and non-membership of a position. -/
def toggle
    (s : BitSet)
    (i : Nat) : Except Fault BitSet :=
  if hLt : i < s.size then
    .ok (s.flip i hLt)
  else
    .error (.outOfRange i s.size)

/- Add a position. -/
def insert
    (s : BitSet)
    (i : Nat) : Except Fault BitSet :=
  if hLt : i < s.size then
    .ok (s.raise i hLt)
  else
    .error (.outOfRange i s.size)

/- Take a position out. -/
def erase
    (s : BitSet)
    (i : Nat) : Except Fault BitSet :=
  if hLt : i < s.size then
    .ok (s.clear i hLt)
  else
    .error (.outOfRange i s.size)

/- The symmetric difference with a set of the same length. -/
def xor
    (s t : BitSet) : Except Fault BitSet :=
  if hSize : s.size = t.size then
    .ok (s.sum t hSize)
  else
    .error (.lengthMismatch s.size t.size)

/- The set of the positions in a list. -/
def ofList
    (size : Nat)
    (is : List Nat) : Except Fault BitSet :=
  is.foldlM insert (zero size)

------------------------------------------------------------
-- Membership
------------------------------------------------------------

@[simp]
theorem has_zero
    (size i : Nat) :
    (zero size).has i = false := by
  unfold has zero bitAt
  rw [Array.getD_eq_getD_getElem?, Array.getElem?_replicate]
  split <;> exact Block.bit_zero _

theorem has_of_ge
    (s : BitSet)
    {i : Nat}
    (hGe : s.size ≤ i) :
    s.has i = false :=
  s.padded i hGe

theorem has_changeAt
    (s : BitSet)
    {change : Block → Block → Block}
    {rule : Bool → Bool → Bool}
    (hMasked : Block.Masked change rule)
    (i j : Nat)
    (hLt : i < s.size) :
    (s.changeAt hMasked i hLt).has j = rule (s.has j) (decide (i = j)) :=
  bitAt_changeBlock hMasked (s.block_lt hLt) j

@[simp]
theorem has_raise
    (s : BitSet)
    (i j : Nat)
    (hLt : i < s.size) :
    (s.raise i hLt).has j = (s.has j || decide (i = j)) :=
  s.has_changeAt Block.masked_or i j hLt

@[simp]
theorem has_clear
    (s : BitSet)
    (i j : Nat)
    (hLt : i < s.size) :
    (s.clear i hLt).has j = (s.has j && !decide (i = j)) :=
  s.has_changeAt Block.masked_andNot i j hLt

@[simp]
theorem has_flip
    (s : BitSet)
    (i j : Nat)
    (hLt : i < s.size) :
    (s.flip i hLt).has j = (s.has j ^^ decide (i = j)) :=
  s.has_changeAt Block.masked_xor i j hLt

@[simp]
theorem has_sum
    (s t : BitSet)
    (hSize : s.size = t.size)
    (i : Nat) :
    (s.sum t hSize).has i = (s.has i ^^ t.has i) := by
  apply bitAt_zipWith_xor
  rw [s.filled, t.filled, hSize]

/- Sets of one length with the same members are the same. -/
theorem ext_of_has
    {s t : BitSet}
    (hSize : s.size = t.size)
    (hHas : ∀ i, s.has i = t.has i) :
    s = t := by
  have hBlocks : s.blocks = t.blocks := by
    apply Array.ext
    · rw [s.filled, t.filled, hSize]
    · intro b hLeft hRight
      apply Block.eq_of_bit
      intro k hLt
      have hBit := hHas (64 * b + k)
      unfold has at hBit
      rw [bitAt_add _ _ hLt, bitAt_add _ _ hLt] at hBit
      simpa [hLeft, hRight] using hBit
  cases s
  cases t
  cases hSize
  cases hBlocks
  rfl

/- Making a member of a new position exchanges its membership. -/
theorem raise_eq_flip
    (s : BitSet)
    {i : Nat}
    (hLt : i < s.size)
    (hNew : s.has i = false) :
    s.raise i hLt = s.flip i hLt := by
  apply ext_of_has
  · rfl
  intro j
  rw [has_raise, has_flip]
  by_cases hEq : i = j
  · subst hEq
    simp [hNew]
  · simp [hEq]

end BitSet

end ParitySolver
