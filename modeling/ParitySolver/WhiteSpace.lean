/-
  This file defines white space: the characters that Unicode
  gives the property of that name.

  Key definitions include:
    * `isWhiteSpace`
    * `trimEnd`
-/

namespace ParitySolver

/- The ranges of characters with the property, ascending. -/
def whiteSpaceRanges : List (Nat × Nat) :=
  [(0x9, 0xD), (0x20, 0x20), (0x85, 0x85), (0xA0, 0xA0), (0x1680, 0x1680),
    (0x2000, 0x200A), (0x2028, 0x2029), (0x202F, 0x202F), (0x205F, 0x205F),
    (0x3000, 0x3000)]

/- Has the character the property? -/
def isWhiteSpace
    (c : Char) : Bool :=
  whiteSpaceRanges.any fun (first, last) => first ≤ c.toNat && c.toNat ≤ last

/- The text without white space at its end. -/
def trimEnd
    (cs : List Char) : List Char :=
  (cs.reverse.dropWhile isWhiteSpace).reverse

end ParitySolver
