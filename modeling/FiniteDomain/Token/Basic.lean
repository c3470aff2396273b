import FiniteDomain.Text.Decimal
import FiniteDomain.Text.Quoted

/-!
# Tokens

The words of the expression language and of variable declarations, and the form in which error messages show
them.
-/

namespace FiniteDomain

/-- Words with a meaning of their own, which are no names. -/
inductive Keyword where
  | and
  | or
  | not
  | mem
  | trueValue
  | falseValue
  deriving DecidableEq, Repr

namespace Keyword

/-- The keyword as it is written. -/
def text : Keyword → String
  | and => "and"
  | or => "or"
  | not => "not"
  | mem => "in"
  | trueValue => "True"
  | falseValue => "False"

/-- The keyword that is written like a word. -/
def ofWord? (word : String) : Option Keyword :=
  [and, or, not, mem, trueValue, falseValue].find? (·.text = word)

end Keyword

/-- Punctuation and operators. -/
inductive Symbol where
  | plus
  | minus
  | star
  | slash
  | percent
  | eqEq
  | notEq
  | lt
  | gt
  | le
  | ge
  | openParen
  | closeParen
  | openBracket
  | closeBracket
  | comma
  | dot
  deriving DecidableEq, Repr

/-- The symbol as it is written. -/
def Symbol.text : Symbol → String
  | plus => "+"
  | minus => "-"
  | star => "*"
  | slash => "/"
  | percent => "%"
  | eqEq => "=="
  | notEq => "!="
  | lt => "<"
  | gt => ">"
  | le => "<="
  | ge => ">="
  | openParen => "("
  | closeParen => ")"
  | openBracket => "["
  | closeBracket => "]"
  | comma => ","
  | dot => "."

/-- A token. -/
inductive Token where
  | int (n : Int64)
  | str (s : String)
  | ident (name : String)
  | keyword (k : Keyword)
  | symbol (s : Symbol)
  deriving DecidableEq

/-- The token as error messages show it. -/
def Token.text : Token → String
  | int n => String.ofList (Text.decimal n.toInt)
  | str s => String.ofList (Text.quoted s)
  | ident name => name
  | keyword k => k.text
  | symbol s => s.text

/-- A token and the byte at which it starts. -/
structure Located where
  offset : Nat
  token : Token
  deriving DecidableEq

end FiniteDomain
