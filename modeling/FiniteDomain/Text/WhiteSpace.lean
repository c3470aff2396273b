import FiniteDomain.Text.CodeRange

/-!
# White space

The characters that separate words: the Unicode property White_Space, which has the no-break spaces and
the line and paragraph separators but no zero-width space.
-/

namespace FiniteDomain.Text

/-- The code points with the property White_Space. -/
def whiteSpaceRanges : List (Nat × Nat) :=
  [(0x0009, 0x000D), (0x0020, 0x0020), (0x0085, 0x0085), (0x00A0, 0x00A0), (0x1680, 0x1680),
   (0x2000, 0x200A), (0x2028, 0x2029), (0x202F, 0x202F), (0x205F, 0x205F), (0x3000, 0x3000)]

/-- Whether `c` is white space. -/
def isWhiteSpace (c : Char) : Bool :=
  inRanges whiteSpaceRanges c.toNat

end FiniteDomain.Text
