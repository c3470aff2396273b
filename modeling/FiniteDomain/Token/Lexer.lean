import FiniteDomain.ParseError
import FiniteDomain.Text.Alphabetic
import FiniteDomain.Text.Numeric
import FiniteDomain.Text.Span
import FiniteDomain.Token.Basic

/-!
# Reading tokens

White space separates tokens and is otherwise skipped. A token is as long as it can be: a number is a run of
ASCII digits, a word a run of letters, number characters and underscores that does not start with a number
character, a text runs to the quote that opened it. Reading stops at the first piece that is no token.

Each step leaves a shorter rest (`read_rest_length_le`), so reading a whole text ends.
-/

namespace FiniteDomain.Token

/-- Characters that may start a word. -/
def isWordStart (c : Char) : Bool :=
  Text.isAlphabetic c || c = '_'

/-- Characters that may continue a word. -/
def isWordPart (c : Char) : Bool :=
  Text.isAlphabetic c || Text.isNumeric c || c = '_'

/-- A token read from the front of a text: its width in bytes and what comes after it. -/
structure Reading where
  token : Token
  width : Nat
  rest : List Char

/-- A number, which is at most the greatest word. -/
def readNumber (cs : List Char) : Except (Fault × String) Reading :=
  let digits := cs.takeWhile Char.isDigit
  let n := Nat.ofDigitChars 10 digits 0
  if (n : Int) ≤ Int64.maxValue.toInt then
    .ok ⟨.int (Int64.ofNat n), Text.byteLength digits, cs.dropWhile Char.isDigit⟩
  else .error (.invalidNumber, String.ofList digits)

/-- The token that a word stands for. -/
def ofWord (word : String) : Token :=
  match Keyword.ofWord? word with
  | some k => .keyword k
  | none => .ident word

/-- A name or a keyword. -/
def readWord (cs : List Char) : Reading :=
  let word := cs.takeWhile isWordPart
  ⟨ofWord (String.ofList word), Text.byteLength word, cs.dropWhile isWordPart⟩

/-- The character that a backslash and `c` stand for. -/
def unescape (c : Char) : Char :=
  if c = 'n' then '\n' else if c = 't' then '\t' else c

/-- The characters up to the closing quote, their width in bytes with the quote, and the rest; `none` if the
quote is never closed. -/
def readQuoted (quote : Char) : List Char → Option (List Char × Nat × List Char)
  | [] => none
  | c :: cs =>
      if c = quote then some ([], c.utf8Size, cs)
      else if c = '\\' then
        match cs with
        | [] => none
        | d :: ds =>
            match readQuoted quote ds with
            | some (s, width, rest) => some (unescape d :: s, c.utf8Size + d.utf8Size + width, rest)
            | none => none
      else
        match readQuoted quote cs with
        | some (s, width, rest) => some (c :: s, c.utf8Size + width, rest)
        | none => none

/-- A text after the quote that opens it. -/
def readString (quote : Char) (cs : List Char) : Except (Fault × String) Reading :=
  match readQuoted quote cs with
  | some (s, width, rest) => .ok ⟨.str (String.ofList s), quote.utf8Size + width, rest⟩
  | none => .error (.unterminatedString, String.singleton quote)

/-- The symbol of two characters, if there is one. -/
def symbolOfPair? : Char → Char → Option Symbol
  | '/', '/' => some .slash
  | '<', '=' => some .le
  | '>', '=' => some .ge
  | '=', '=' => some .eqEq
  | '!', '=' => some .notEq
  | _, _ => none

/-- The symbol of one character, if there is one. -/
def symbolOfChar? : Char → Option Symbol
  | '+' => some .plus
  | '-' => some .minus
  | '*' => some .star
  | '/' => some .slash
  | '%' => some .percent
  | '(' => some .openParen
  | ')' => some .closeParen
  | '[' => some .openBracket
  | ']' => some .closeBracket
  | ',' => some .comma
  | '.' => some .dot
  | '<' => some .lt
  | '>' => some .gt
  | _ => none

/-- A symbol of one character. -/
def readShortSymbol (c : Char) (cs : List Char) : Except (Fault × String) Reading :=
  match symbolOfChar? c with
  | some s => .ok ⟨.symbol s, c.utf8Size, cs⟩
  | none => .error (.invalidToken, String.singleton c)

/-- A symbol, of two characters if possible. -/
def readSymbol (c : Char) : List Char → Except (Fault × String) Reading
  | [] => readShortSymbol c []
  | d :: cs =>
      match symbolOfPair? c d with
      | some s => .ok ⟨.symbol s, c.utf8Size + d.utf8Size, cs⟩
      | none => readShortSymbol c (d :: cs)

/-- The token that starts with the character `c`, `cs` being the characters after it. -/
def read (c : Char) (cs : List Char) : Except (Fault × String) Reading :=
  if c.isDigit then readNumber (c :: cs)
  else if c = '"' || c = '\x27' then readString c cs
  else if isWordStart c then .ok (readWord (c :: cs))
  else readSymbol c cs

/-! ## Progress -/

theorem length_dropWhile_le {α : Type} (p : α → Bool) (l : List α) :
    (l.dropWhile p).length ≤ l.length := by
  induction l with
  | nil => simp
  | cons a l ih =>
      rw [List.dropWhile_cons]
      split
      · exact Nat.le_succ_of_le ih
      · exact Nat.le_refl _

theorem readQuoted_rest_length_lt {quote : Char} {cs s rest : List Char} {width : Nat}
    (h : readQuoted quote cs = some (s, width, rest)) : rest.length < cs.length := by
  fun_induction readQuoted quote cs generalizing s width rest with
  | case1 => cases h
  | case2 cs => cases h; simp
  | case3 => cases h
  | case4 d ds s' width' rest' hds _ ih =>
      cases h
      have := ih hds
      simp
      omega
  | case5 => cases h
  | case6 c cs hc hb s' width' rest' hcs ih =>
      cases h
      have := ih hcs
      simp
      omega
  | case7 => cases h

theorem readShortSymbol_rest_length_le {c : Char} {cs : List Char} {r : Reading}
    (h : readShortSymbol c cs = .ok r) : r.rest.length ≤ cs.length := by
  unfold readShortSymbol at h
  split at h <;> cases h
  exact Nat.le_refl _

/-- What comes after a token is no longer than what comes after its first character. -/
theorem read_rest_length_le {c : Char} {cs : List Char} {r : Reading} (h : read c cs = .ok r) :
    r.rest.length ≤ cs.length := by
  unfold read at h
  split at h
  · next hd =>
    unfold readNumber at h
    simp only at h
    split at h <;> cases h
    simpa [List.dropWhile_cons, hd] using length_dropWhile_le Char.isDigit cs
  · split at h
    · unfold readString at h
      split at h
      · next hq =>
        cases h
        exact Nat.le_of_lt (readQuoted_rest_length_lt hq)
      · cases h
    · split at h
      · next hw =>
        cases h
        have hp : isWordPart c = true := by
          unfold isWordStart at hw
          unfold isWordPart
          grind
        simpa [readWord, List.dropWhile_cons, hp] using length_dropWhile_le isWordPart cs
      · unfold readSymbol at h
        split at h
        · exact readShortSymbol_rest_length_le h
        · split at h
          · cases h
            simp
          · exact readShortSymbol_rest_length_le h

/-! ## Whole texts -/

/-- The tokens of a text whose first character stands at the byte `offset`. -/
def readAllFrom (offset : Nat) : List Char → Except ParseError (List Located)
  | [] => .ok []
  | c :: cs =>
      if Text.isWhiteSpace c then readAllFrom (offset + c.utf8Size) cs
      else
        match _h : read c cs with
        | .error (fault, text) => .error (.offending fault text offset)
        | .ok r => do
            let tokens ← readAllFrom (offset + r.width) r.rest
            return ⟨offset, r.token⟩ :: tokens
termination_by cs => cs.length
decreasing_by
  · simp
  · have := read_rest_length_le _h
    simp
    omega

/-- The tokens of a text. -/
def readAll (cs : List Char) : Except ParseError (List Located) :=
  readAllFrom 0 cs

end FiniteDomain.Token
