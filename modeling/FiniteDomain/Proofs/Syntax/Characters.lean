import FiniteDomain.Token.Lexer

/-!
# Classes of characters

The classes that the reading of tokens tells apart do not overlap: what is white space belongs to no token but a
text, what starts a word is neither a digit nor a quote, and the characters of symbols are in none of the tables.
-/

namespace FiniteDomain

namespace Text

/-- A code point of one table is in no table apart from it. -/
theorem inRanges_eq_false_of_apart {as bs : List (Nat × Nat)}
    (h : ∀ r ∈ as, ∀ s ∈ bs, r.2 < s.1 ∨ s.2 < r.1) {n : Nat} (hn : inRanges as n = true) :
    inRanges bs n = false := by
  cases hbs : inRanges bs n with
  | false => rfl
  | true =>
      obtain ⟨r, hr, hlo, hhi⟩ := exists_of_inRanges hn
      obtain ⟨s, hs, hlo', hhi'⟩ := exists_of_inRanges hbs
      rcases h r hr s hs with hlt | hlt <;> omega

theorem isAlphabetic_of_isWhiteSpace {c : Char} (h : isWhiteSpace c = true) : isAlphabetic c = false :=
  inRanges_eq_false_of_apart (by decide +kernel) h

theorem isNumeric_of_isWhiteSpace {c : Char} (h : isWhiteSpace c = true) : isNumeric c = false :=
  inRanges_eq_false_of_apart (by decide +kernel) h

theorem isWhiteSpace_of_isAlphabetic {c : Char} (h : isAlphabetic c = true) : isWhiteSpace c = false :=
  inRanges_eq_false_of_apart (by decide +kernel) h

end Text

namespace Token

open Text

/-- The code points of the ASCII digits. -/
theorem toNat_of_isDigit {c : Char} (h : c.isDigit = true) : 48 ≤ c.toNat ∧ c.toNat ≤ 57 := by
  simpa [Char.isDigit, UInt32.le_iff_toNat_le] using h

theorem inRanges_of_isDigit {c : Char} (h : c.isDigit = true) (rest : List (Nat × Nat)) :
    inRanges ((48, 57) :: rest) c.toNat = true := by
  obtain ⟨hlo, hhi⟩ := toNat_of_isDigit h
  rw [inRanges, if_neg (by omega)]
  simp [hhi]

/-- Every ASCII digit is a number character. -/
theorem isNumeric_of_isDigit {c : Char} (h : c.isDigit = true) : isNumeric c = true :=
  inRanges_of_isDigit h _

/-- No ASCII digit is white space. -/
theorem isWhiteSpace_of_isDigit {c : Char} (h : c.isDigit = true) : isWhiteSpace c = false :=
  inRanges_eq_false_of_apart (by decide +kernel) (inRanges_of_isDigit h [])

/-- Every ASCII digit may continue a word. -/
theorem isWordPart_of_isDigit {c : Char} (h : c.isDigit = true) : isWordPart c = true := by
  simp [isWordPart, isNumeric_of_isDigit h]

/-- No white space may continue a word. -/
theorem isWordPart_of_isWhiteSpace {c : Char} (h : isWhiteSpace c = true) : isWordPart c = false := by
  have hunderscore : c ≠ '_' := by
    rintro rfl
    exact absurd h (by decide)
  simp [isWordPart, isAlphabetic_of_isWhiteSpace h, isNumeric_of_isWhiteSpace h, hunderscore]

/-- What starts a word is no white space. -/
theorem isWhiteSpace_of_isWordStart {c : Char} (h : isWordStart c = true) : isWhiteSpace c = false := by
  rcases Bool.or_eq_true_iff.mp h with halpha | hunderscore
  · exact isWhiteSpace_of_isAlphabetic halpha
  · rw [of_decide_eq_true hunderscore]
    decide

/-- What starts a word is no ASCII digit. -/
theorem isDigit_of_isWordStart {c : Char} (h : isWordStart c = true) : c.isDigit = false := by
  cases hd : c.isDigit with
  | false => rfl
  | true =>
      have halpha : isAlphabetic c = false :=
        inRanges_eq_false_of_apart (by decide +kernel) (inRanges_of_isDigit hd [])
      have hunderscore : c ≠ '_' := by
        rintro rfl
        exact absurd hd (by decide)
      simp [isWordStart, halpha, hunderscore] at h

/-- What starts a word may continue one. -/
theorem isWordPart_of_isWordStart {c : Char} (h : isWordStart c = true) : isWordPart c = true := by
  rcases Bool.or_eq_true_iff.mp h with halpha | hunderscore
  · simp [isWordPart, halpha]
  · simp [isWordPart, of_decide_eq_true hunderscore]

/-- What starts a word is no quote. -/
theorem ne_quote_of_isWordStart {c : Char} (h : isWordStart c = true) : c ≠ '"' ∧ c ≠ '\x27' := by
  constructor
  · rintro rfl
    exact absurd h (by decide)
  · rintro rfl
    exact absurd h (by decide)

end Token

end FiniteDomain
