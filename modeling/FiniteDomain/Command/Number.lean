/-!
# Numbers on the command line

An unsigned integer is a run of decimal digits after an optional plus sign, below `2 ^ 64`. A real number is
written in decimal, with a sign, a point and an exponent as wanted, or as `inf`, `infinity` or `nan` in any
case.
-/

namespace FiniteDomain.Command

/-- Why a text is no number. -/
inductive NumberError where
  | emptyInteger
  | invalidDigit
  | tooLarge
  | emptyReal
  | invalidReal
  deriving DecidableEq, Repr

/-- The text shown for the error. -/
def NumberError.message : NumberError → String
  | emptyInteger => "cannot parse integer from empty string"
  | invalidDigit => "invalid digit found in string"
  | tooLarge => "number too large to fit in target type"
  | emptyReal => "cannot parse float from empty string"
  | invalidReal => "invalid float literal"

/-! ## Integers -/

/-- The number written by digits after the digits of `n`. The first digit that is none or that makes the
number too large is at fault. -/
def readDigits (n : Nat) : List Char → Except NumberError Nat
  | [] => .ok n
  | c :: cs =>
      if c.isDigit then
        let m := 10 * n + (c.toNat - '0'.toNat)
        if m < 2 ^ 64 then readDigits m cs else .error .tooLarge
      else .error .invalidDigit

/-- The unsigned integer that a text spells. -/
def parseUnsigned (s : String) : Except NumberError Nat :=
  match s.toList with
  | [] => .error .emptyInteger
  | ['+'] => .error .invalidDigit
  | '+' :: cs => readDigits 0 cs
  | cs => readDigits 0 cs

/-! ## Real numbers -/

/-- The float nearest to `m * 10 ^ e`. Beyond the range of floats in either direction the power is not
computed. -/
def scaled (m : Nat) (e : Int) : Float :=
  let size := (Nat.toDigits 10 m).length + e
  if m = 0 || size < -400 then 0
  else if size > 400 then 1 / 0
  else Float.ofScientific m (e < 0) e.natAbs

/-- The sign at the front of a text and the text after it; no sign means plus. -/
def splitSign : List Char → Bool × List Char
  | '-' :: cs => (true, cs)
  | '+' :: cs => (false, cs)
  | cs => (false, cs)

/-- The exponent after the digits of a number, if it is well-formed. -/
def readExponent : List Char → Option Int
  | [] => some 0
  | c :: cs =>
      let (negative, digits) := splitSign cs
      if (c = 'e' || c = 'E') && !digits.isEmpty && digits.all Char.isDigit then
        let n : Int := Nat.ofDigitChars 10 digits 0
        some (if negative then -n else n)
      else none

/-- The digits after a point, if there is one, and the text after them. -/
def splitFraction : List Char → List Char × List Char
  | '.' :: cs => (cs.takeWhile Char.isDigit, cs.dropWhile Char.isDigit)
  | cs => ([], cs)

/-- The unsigned real number that a text spells in decimal. -/
def readDecimal (cs : List Char) : Option Float :=
  let whole := cs.takeWhile Char.isDigit
  let (fraction, rest) := splitFraction (cs.dropWhile Char.isDigit)
  let digits := whole ++ fraction
  if digits.isEmpty then none
  else
    match readExponent rest with
    | some e => some (scaled (Nat.ofDigitChars 10 digits 0) (e - fraction.length))
    | none => none

/-- The unsigned real number that a text spells. -/
def readMagnitude (cs : List Char) : Option Float :=
  let word := String.ofList (cs.map Char.toLower)
  if word = "inf" || word = "infinity" then some (1 / 0)
  else if word = "nan" then some (0 / 0)
  else readDecimal cs

/-- The real number that a text spells. -/
def parseReal (s : String) : Except NumberError Float :=
  if s.isEmpty then .error .emptyReal
  else
    let (negative, cs) := splitSign s.toList
    match readMagnitude cs with
    | some x => .ok (if negative then -x else x)
    | none => .error .invalidReal

end FiniteDomain.Command
