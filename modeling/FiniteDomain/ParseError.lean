/-!
# Errors in text

What is wrong with the text of an expression or of a problem. Unless the text ends too early, the error names
the offending piece and the byte at which it starts.
-/

namespace FiniteDomain

/-- What is wrong with a piece of text. -/
inductive Fault where
  | invalidDomain
  | invalidNumber
  | invalidToken
  | invalidVariable
  | unexpectedToken
  | unknownDirective
  | unterminatedString
  deriving DecidableEq, Repr

/-- The fault in words. -/
def Fault.description : Fault → String
  | invalidDomain => "Invalid domain"
  | invalidNumber => "Invalid number"
  | invalidToken => "Invalid token"
  | invalidVariable => "Invalid variable declaration"
  | unexpectedToken => "Unexpected token"
  | unknownDirective => "Unknown directive"
  | unterminatedString => "Unterminated string"

/-- Why a text cannot be read. -/
inductive ParseError where
  /-- The text ends where more is needed. -/
  | unexpectedEnd
  /-- The piece `text`, which starts at the byte `offset`, is at fault. -/
  | offending (fault : Fault) (text : String) (offset : Nat)
  deriving DecidableEq, Repr

namespace ParseError

/-- The byte at which the offending piece starts. -/
def offset? : ParseError → Option Nat
  | unexpectedEnd => none
  | offending _ _ offset => some offset

/-- The error as it is seen from a text that has `bytes` more bytes in front. -/
def shift (bytes : Nat) : ParseError → ParseError
  | unexpectedEnd => unexpectedEnd
  | offending fault text offset => offending fault text (offset + bytes)

/-- The text shown for the error. -/
def message : ParseError → String
  | unexpectedEnd => "Unexpected end"
  | offending fault text offset =>
      fault.description ++ ": \"" ++ text ++ "\" at " ++ toString offset

end ParseError

end FiniteDomain
