import FiniteDomain.Problem.Basic
import FiniteDomain.Problem.Domain
import FiniteDomain.Text.Lines

/-!
# Lines of a problem text

A line is blank, declares a variable, as in `var Q0: 0..4`, or states a constraint, as in
`constraint A + Q0 < 3`. A `#` that is not inside a text starts a comment. The offsets of errors count from
the start of the line.
-/

namespace FiniteDomain

/-- What a line of a problem text says. -/
inductive Statement where
  | declaration (v : Variable)
  | constraint (c : Constraint)
  deriving DecidableEq

namespace Statement

/-- The characters before a comment, `quote` being the quote of the text that the first one stands in. -/
def stripCommentFrom (quote : Option Char) : List Char → List Char
  | [] => []
  | c :: cs =>
      match quote with
      | some q => c :: stripCommentFrom (if c = q then none else some q) cs
      | none =>
          if c = '#' then []
          else c :: stripCommentFrom (if c = '"' || c = '\x27' then some c else none) cs

/-- The line without its comment. -/
def stripComment (line : List Char) : List Char :=
  stripCommentFrom none line

/-- Whether a variable can be declared by a name. -/
def isIdentifier : List Char → Bool
  | [] => false
  | c :: cs => Token.isWordStart c && cs.all Token.isWordPart

/-- A variable from the text after `var`: a name, a colon and a domain. -/
def readDeclaration (cs : List Char) : Except ParseError Variable :=
  let before := cs.takeWhile (· ≠ ':')
  match cs.dropWhile (· ≠ ':') with
  | [] => .error (.offending .invalidVariable (String.ofList (Text.trim cs)) (Text.margin cs))
  | colon :: after =>
      let name := Text.trim before
      if isIdentifier name then
        match Domain.parse after with
        | .ok domain => .ok { name := String.ofList name, domain := domain }
        | .error e => .error (e.shift (Text.byteLength before + colon.utf8Size))
      else .error (.offending .invalidVariable (String.ofList name) (Text.margin cs))

/-- A constraint from the text after `constraint`. -/
def readConstraint (cs : List Char) : Except ParseError Constraint :=
  match Constraint.parse (String.ofList (Text.trim cs)) with
  | .ok c => .ok c
  | .error e => .error (e.shift (Text.margin cs))

/-- A statement from its first word, which starts at the byte `offset`, and the text after the word. -/
def ofDirective (offset : Nat) (word rest : List Char) : Except ParseError Statement :=
  if word = ['v', 'a', 'r'] then
    match readDeclaration rest with
    | .ok v => .ok (.declaration v)
    | .error e => .error (e.shift (offset + Text.byteLength word))
  else if word = ['c', 'o', 'n', 's', 't', 'r', 'a', 'i', 'n', 't'] then
    match readConstraint rest with
    | .ok c => .ok (.constraint c)
    | .error e => .error (e.shift (offset + Text.byteLength word))
  else .error (.offending .unknownDirective (String.ofList word) offset)

/-- The statement of a line without comment, or nothing if the line is blank. -/
def ofUncommented (line : List Char) : Except ParseError (Option Statement) :=
  let text := Text.trimStart line
  let word := text.takeWhile (!Text.isWhiteSpace ·)
  if text.isEmpty then .ok none
  else
    match ofDirective (Text.margin line) word (text.dropWhile (!Text.isWhiteSpace ·)) with
    | .ok s => .ok (some s)
    | .error e => .error e

/-- The statement of a line, or nothing if the line is blank but for a comment. -/
def ofLine (line : List Char) : Except ParseError (Option Statement) :=
  ofUncommented (stripComment line)

end Statement

end FiniteDomain
