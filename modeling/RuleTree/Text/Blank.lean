/-!
# Blanks

White space is what Unicode counts as such. Blanks are white space and the four
separators `U+001C` to `U+001F`. Trimming removes such characters from both ends
of a text.
-/

namespace RuleTree.Text

/-- White space as ranges of code points, both ends included. -/
def whiteSpaceRanges : List (Nat × Nat) :=
  [(0x9, 0xd), (0x20, 0x20), (0x85, 0x85), (0xa0, 0xa0), (0x1680, 0x1680), (0x2000, 0x200a),
   (0x2028, 0x2029), (0x202f, 0x202f), (0x205f, 0x205f), (0x3000, 0x3000)]

/-- Whether a code point lies in one of the ranges. -/
def inRanges (ranges : List (Nat × Nat)) (code : Nat) : Bool :=
  ranges.any fun (first, last) => decide (first ≤ code ∧ code ≤ last)

/-- Whether a character is white space. -/
def isWhiteSpace (c : Char) : Bool := inRanges whiteSpaceRanges c.toNat

/-- Whether a character is blank. -/
def isBlank (c : Char) : Bool := isWhiteSpace c || inRanges [(0x1c, 0x1f)] c.toNat

/-- The characters between those of a class at both ends. -/
def trimBy (skip : Char → Bool) (cs : List Char) : List Char :=
  ((cs.dropWhile skip).reverse.dropWhile skip).reverse

/-- The characters between the leading and the trailing blanks. -/
def trim (cs : List Char) : List Char := trimBy isBlank cs

end RuleTree.Text
