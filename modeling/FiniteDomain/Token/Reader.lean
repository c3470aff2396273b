import FiniteDomain.ParseError
import FiniteDomain.Token.Basic

/-!
# Reading from a list of tokens

A reader takes what it can use from the front of a list of tokens and leaves the rest.
-/

namespace FiniteDomain

/-- Reads something from the front of a list of tokens and leaves the rest. -/
abbrev Reader (α : Type) := List Located → Except ParseError (α × List Located)

/-- The error of meeting a token that cannot stand where it does. -/
def Located.unexpected (t : Located) : ParseError :=
  .offending .unexpectedToken t.token.text t.offset

/-- The tokens after the token `expected`, which has to be the first. -/
def Token.expect (expected : Token) : List Located → Except ParseError (List Located)
  | [] => .error .unexpectedEnd
  | t :: ts => if t.token = expected then .ok ts else .error t.unexpected

/-- A token that is met is taken off the front. -/
theorem Token.eq_cons_of_expect {expected : Token} {ts rest : List Located}
    (h : expected.expect ts = .ok rest) : ∃ t, t.token = expected ∧ ts = t :: rest := by
  cases ts with
  | nil => simp [Token.expect] at h
  | cons t ts =>
      by_cases ht : t.token = expected
      · simp only [Token.expect, ht, if_true, Except.ok.injEq] at h
        exact ⟨t, ht, by rw [h]⟩
      · simp [Token.expect, ht] at h

end FiniteDomain
