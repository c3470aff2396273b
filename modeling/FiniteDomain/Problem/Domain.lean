import FiniteDomain.Token.Lexer
import FiniteDomain.Token.Reader
import FiniteDomain.Value

/-!
# Written domains

A domain is written as a sequence of items: an integer, a text, `True`, `False`, or `a..b` for the integers
from `a` up to but not including `b`. An integer may have a minus sign.
-/

namespace FiniteDomain

/-- The integers from `first` up to but not including `last`. -/
def Value.range (first last : Int64) : List Value :=
  (List.range (last.toInt - first.toInt).toNat).map fun k => .int (first + Int64.ofNat k)

namespace Domain

/-- The integer that starts with the token `t`, and the tokens after it. -/
def readInt (t : Located) (ts : List Located) : Except ParseError (Int64 × List Located) :=
  match t.token with
  | .int n => .ok (n, ts)
  | .symbol .minus =>
      match ts with
      | [] => .error .unexpectedEnd
      | u :: us =>
          match u.token with
          | .int n => .ok (-n, us)
          | _ => .error u.unexpected
  | _ => .error t.unexpected

/-- The rest of a range that starts with `first`, after its first dot. `t` is the token that the range starts
with. -/
def readRange (t : Located) (first : Int64) (ts : List Located) :
    Except ParseError (List Value × List Located) := do
  match ← Token.expect (.symbol .dot) ts with
  | [] => .error .unexpectedEnd
  | u :: us =>
      let (last, rest) ← readInt u us
      if last < first then
        let range := Text.decimal first.toInt ++ ['.', '.'] ++ Text.decimal last.toInt
        .error (.offending .invalidDomain (String.ofList range) t.offset)
      else .ok (Value.range first last, rest)

/-- An integer or a range of integers. -/
def readInts (t : Located) (ts : List Located) :
    Except ParseError (List Value × List Located) := do
  let (first, rest) ← readInt t ts
  match rest with
  | [] => .ok ([.int first], [])
  | u :: us => if u.token = .symbol .dot then readRange t first us else .ok ([.int first], u :: us)

/-- The values of the item that starts with the token `t`, and the tokens after it. -/
def readItem (t : Located) (ts : List Located) :
    Except ParseError (List Value × List Located) :=
  match t.token with
  | .int _ | .symbol .minus => readInts t ts
  | .str s => .ok ([.str s], ts)
  | .keyword .trueValue => .ok ([.bool true], ts)
  | .keyword .falseValue => .ok ([.bool false], ts)
  | _ => .error t.unexpected

/-! ## Progress -/

theorem readInt_rest_length_le {t : Located} {ts rest : List Located} {n : Int64}
    (h : readInt t ts = .ok (n, rest)) : rest.length ≤ ts.length := by
  obtain ⟨offset, token⟩ := t
  cases token with
  | int m =>
      cases h
      exact Nat.le_refl _
  | symbol s =>
      cases s <;> try cases h
      cases ts with
      | nil => cases h
      | cons u us =>
          obtain ⟨offset', token'⟩ := u
          cases token' <;> cases h
          simp
  | str s => cases h
  | ident name => cases h
  | keyword k => cases h

theorem readRange_rest_length_le {t : Located} {first : Int64} {ts rest : List Located}
    {vs : List Value} (h : readRange t first ts = .ok (vs, rest)) : rest.length ≤ ts.length := by
  unfold readRange at h
  cases hd : Token.expect (.symbol .dot) ts with
  | error e => simp [hd, bind, Except.bind] at h
  | ok ts' =>
      obtain ⟨d, -, rfl⟩ := Token.eq_cons_of_expect hd
      simp only [hd, bind, Except.bind] at h
      split at h
      · cases h
      · next u us =>
        cases hi : readInt u us with
        | error e => simp [hi] at h
        | ok r =>
            obtain ⟨last, rest'⟩ := r
            have := readInt_rest_length_le hi
            simp only [hi] at h
            split at h <;> cases h
            simp
            omega

theorem readInts_rest_length_le {t : Located} {ts rest : List Located} {vs : List Value}
    (h : readInts t ts = .ok (vs, rest)) : rest.length ≤ ts.length := by
  unfold readInts at h
  cases hi : readInt t ts with
  | error e => simp [hi, bind, Except.bind] at h
  | ok r =>
      obtain ⟨first, rest'⟩ := r
      have hle := readInt_rest_length_le hi
      simp only [hi, bind, Except.bind] at h
      split at h
      · cases h
        simp
      · split at h
        · have := readRange_rest_length_le h
          simp at hle
          omega
        · cases h
          exact hle

/-- What comes after an item is no longer than what comes after its first token. -/
theorem readItem_rest_length_le {t : Located} {ts rest : List Located} {vs : List Value}
    (h : readItem t ts = .ok (vs, rest)) : rest.length ≤ ts.length := by
  obtain ⟨offset, token⟩ := t
  cases token with
  | int n => exact readInts_rest_length_le h
  | symbol s =>
      cases s <;> try cases h
      exact readInts_rest_length_le h
  | str s =>
      cases h
      exact Nat.le_refl _
  | ident name => cases h
  | keyword k => cases k <;> cases h <;> exact Nat.le_refl _

/-! ## Whole domains -/

/-- The values that a list of tokens spells. -/
def ofTokens : List Located → Except ParseError (List Value)
  | [] => .ok []
  | t :: ts =>
      match _h : readItem t ts with
      | .error e => .error e
      | .ok (vs, rest) => do return vs ++ (← ofTokens rest)
termination_by ts => ts.length
decreasing_by
  have := readItem_rest_length_le _h
  simp
  omega

/-- The values that a text spells. -/
def parse (cs : List Char) : Except ParseError (List Value) := do
  ofTokens (← Token.readAll cs)

end Domain

end FiniteDomain
