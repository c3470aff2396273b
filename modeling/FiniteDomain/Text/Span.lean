import FiniteDomain.Text.WhiteSpace

/-!
# Positions and margins

Positions in a text are counted in the bytes of its UTF-8 form. `byteLength` measures a stretch of
characters; `trimStart` and `trim` drop the white space at its margins, and `margin` says how many bytes
of white space come first.
-/

namespace FiniteDomain.Text

/-- The number of bytes of the characters in UTF-8. -/
def byteLength : List Char → Nat
  | [] => 0
  | c :: cs => c.utf8Size + byteLength cs

@[simp] theorem byteLength_nil : byteLength [] = 0 := rfl

@[simp] theorem byteLength_cons (c : Char) (cs : List Char) :
    byteLength (c :: cs) = c.utf8Size + byteLength cs := rfl

@[simp] theorem byteLength_append (as bs : List Char) :
    byteLength (as ++ bs) = byteLength as + byteLength bs := by
  induction as with
  | nil => simp
  | cons a as ih => simp [ih, Nat.add_assoc]

/-- The text without the white space before it. -/
def trimStart (cs : List Char) : List Char :=
  cs.dropWhile isWhiteSpace

/-- The text without the white space after it. -/
def trimEnd (cs : List Char) : List Char :=
  (cs.reverse.dropWhile isWhiteSpace).reverse

/-- The text without the white space around it. -/
def trim (cs : List Char) : List Char :=
  trimEnd (trimStart cs)

/-- The number of bytes of white space before the text. -/
def margin (cs : List Char) : Nat :=
  byteLength (cs.takeWhile isWhiteSpace)

end FiniteDomain.Text
