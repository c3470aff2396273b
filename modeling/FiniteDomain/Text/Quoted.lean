import FiniteDomain.Text.DefaultIgnorable
import FiniteDomain.Text.GraphemeExtend
import FiniteDomain.Text.Unprintable

/-!
# Quoted text

A text is shown between double quotes. The quote and the backslash are escaped, the four usual control
characters have a letter of their own, and any other character that could not be seen by itself is shown by its
code point in hexadecimal. All else, the single quote included, stands for itself.
-/

namespace FiniteDomain.Text

/-- The code point of `c` in braces, in hexadecimal without leading zeros. -/
def codePointEscape (c : Char) : List Char :=
  '\\' :: 'u' :: '\x7b' :: (Nat.toDigits 16 c.toNat ++ ['\x7d'])

/-- Whether `c` could not be seen by itself: it has no printed form, may be left out by a display, or attaches to
its neighbour without room of its own. -/
def isHidden (c : Char) : Bool :=
  isUnprintable c || isDefaultIgnorable c || (isGraphemeExtend c && !isHalfwidthSoundMark c)

/-- What stands for `c` between double quotes. -/
def escape (c : Char) : List Char :=
  if c = '"' then ['\\', '"']
  else if c = '\\' then ['\\', '\\']
  else if c = '\n' then ['\\', 'n']
  else if c = '\t' then ['\\', 't']
  else if c = '\r' then ['\\', 'r']
  else if c = '\x00' then ['\\', '0']
  else if isHidden c then codePointEscape c
  else [c]

/-- The text between double quotes. -/
def quoted (s : String) : List Char :=
  '"' :: (s.toList.flatMap escape ++ ['"'])

end FiniteDomain.Text
