import FiniteDomain.Proofs.Syntax.Margins

/-!
# Where tokens stand

A token is as wide as the characters that are taken for it (`spans_of_read`). So the offset of a token, or of the piece
that is none, is the number of bytes before it, and it may be read on its own from there on: a text splits before each
of its tokens (`exists_split_of_token`) and before the piece at which reading fails (`exists_split_of_error`).
-/

namespace FiniteDomain.Token

open Text

/-! ## Widths -/

/-- What is read is the front of the characters, as wide as the reading says. -/
def Reading.Spans (r : Reading) (cs : List Char) : Prop :=
  ∃ front, cs = front ++ r.rest ∧ byteLength front = r.width

/-- A quoted text takes its characters and the quote that closes it. -/
theorem exists_front_of_readQuoted {quote : Char} {cs s rest : List Char} {width : Nat}
    (h : readQuoted quote cs = some (s, width, rest)) : ∃ front, cs = front ++ rest ∧ byteLength front = width := by
  fun_induction readQuoted quote cs generalizing s width rest with
  | case1 => cases h
  | case2 cs =>
      cases h
      exact ⟨[quote], rfl, rfl⟩
  | case3 => cases h
  | case4 d ds s' width' rest' hds _ ih =>
      cases h
      obtain ⟨front, rfl, rfl⟩ := ih hds
      exact ⟨'\\' :: d :: front, rfl, (Nat.add_assoc _ _ _).symm⟩
  | case5 => cases h
  | case6 c cs _ _ s' width' rest' hcs ih =>
      cases h
      obtain ⟨front, rfl, rfl⟩ := ih hcs
      exact ⟨c :: front, rfl, rfl⟩
  | case7 => cases h

theorem spans_of_readShortSymbol {c : Char} {cs : List Char} {r : Reading} (h : readShortSymbol c cs = .ok r) :
    r.Spans (c :: cs) := by
  unfold readShortSymbol at h
  split at h <;> cases h
  exact ⟨[c], rfl, rfl⟩

theorem spans_of_readSymbol {c : Char} {cs : List Char} {r : Reading} (h : readSymbol c cs = .ok r) :
    r.Spans (c :: cs) := by
  cases cs with
  | nil => exact spans_of_readShortSymbol h
  | cons d ds =>
      rw [readSymbol] at h
      split at h
      · cases h
        exact ⟨[c, d], rfl, rfl⟩
      · exact spans_of_readShortSymbol h

/-- A token is as wide as the characters that are taken for it. -/
theorem spans_of_read {c : Char} {cs : List Char} {r : Reading} (h : read c cs = .ok r) : r.Spans (c :: cs) := by
  unfold read at h
  split at h
  · unfold readNumber at h
    dsimp only at h
    split at h <;> cases h
    exact ⟨_, List.takeWhile_append_dropWhile.symm, rfl⟩
  · split at h
    · unfold readString at h
      split at h
      · next hquoted =>
        cases h
        obtain ⟨front, rfl, rfl⟩ := exists_front_of_readQuoted hquoted
        exact ⟨c :: front, rfl, rfl⟩
      · cases h
    · split at h
      · cases h
        exact ⟨_, List.takeWhile_append_dropWhile.symm, rfl⟩
      · exact spans_of_readSymbol h

/-! ## Splitting a text -/

/-- A text splits before each of its tokens, so many bytes from its start as the offset of the token says, and the
tokens from there on are read from there on. -/
theorem exists_split_of_token {offset : Nat} {cs : List Char} {front back : List Located} {t : Located}
    (h : readAllFrom offset cs = .ok (front ++ t :: back)) :
    ∃ before c rest, cs = before ++ c :: rest ∧ offset + byteLength before = t.offset ∧ isWhiteSpace c = false ∧
      Lexes (c :: rest) (t.token :: tokensOf back) := by
  induction offset, cs using readAllFrom.induct generalizing front with
  | case1 offset =>
      rw [readAllFrom] at h
      cases front <;> cases h
  | case2 offset c cs hc ih =>
      rw [readAllFrom_of_white hc] at h
      obtain ⟨before, d, rest, rfl, hoffset, hd⟩ := ih h
      exact ⟨c :: before, d, rest, rfl, by rw [← hoffset, byteLength_cons]; omega, hd⟩
  | case3 offset c cs hc fault text hread =>
      rw [readAllFrom_of_error (Bool.eq_false_iff.mpr hc) hread] at h
      cases h
  | case4 offset c cs hc r hread ih =>
      have hwhite := Bool.eq_false_iff.mpr hc
      rw [readAllFrom_of_read hwhite hread] at h
      cases hrest : readAllFrom (offset + r.width) r.rest with
      | error e =>
          rw [hrest] at h
          cases h
      | ok located =>
          rw [hrest] at h
          cases front with
          | nil =>
              cases h
              exact ⟨[], c, cs, rfl, rfl, hwhite, .token hwhite hread (lexes_of_readAllFrom (Nat.le_refl _) hrest)⟩
          | cons u front =>
              cases h
              obtain ⟨taken, htaken, hwidth⟩ := spans_of_read hread
              obtain ⟨before, d, rest, hsplit, hoffset, hd⟩ := ih hrest
              refine ⟨taken ++ before, d, rest, ?_, ?_, hd⟩
              · rw [htaken, hsplit, List.append_assoc]
              · rw [← hoffset, byteLength_append, hwidth, Nat.add_assoc]

/-- A text that cannot be read splits before the piece at which reading fails, so many bytes from its start as the
error says. -/
theorem exists_split_of_error {offset : Nat} {cs : List Char} {e : ParseError}
    (h : readAllFrom offset cs = .error e) :
    ∃ before c rest fault text, cs = before ++ c :: rest ∧ isWhiteSpace c = false ∧
      read c rest = .error (fault, text) ∧ e = .offending fault text (offset + byteLength before) := by
  induction offset, cs using readAllFrom.induct with
  | case1 offset =>
      rw [readAllFrom] at h
      cases h
  | case2 offset c cs hc ih =>
      rw [readAllFrom_of_white hc] at h
      obtain ⟨before, d, rest, fault, text, rfl, hd, hread, rfl⟩ := ih h
      exact ⟨c :: before, d, rest, fault, text, rfl, hd, hread, by rw [byteLength_cons, Nat.add_assoc]⟩
  | case3 offset c cs hc fault text hread =>
      have hwhite := Bool.eq_false_iff.mpr hc
      rw [readAllFrom_of_error hwhite hread] at h
      cases h
      exact ⟨[], c, cs, fault, text, rfl, hwhite, hread, rfl⟩
  | case4 offset c cs hc r hread ih =>
      rw [readAllFrom_of_read (Bool.eq_false_iff.mpr hc) hread] at h
      cases hrest : readAllFrom (offset + r.width) r.rest with
      | ok located =>
          rw [hrest] at h
          cases h
      | error e' =>
          rw [hrest] at h
          cases h
          obtain ⟨taken, htaken, hwidth⟩ := spans_of_read hread
          obtain ⟨before, d, rest, fault, text, hsplit, hd, hread', rfl⟩ := ih hrest
          refine ⟨taken ++ before, d, rest, fault, text, ?_, hd, hread', ?_⟩
          · rw [htaken, hsplit, List.append_assoc]
          · rw [byteLength_append, hwidth, Nat.add_assoc]

/-- The faults of pieces that are no tokens. -/
def Lexical (fault : Fault) : Prop :=
  fault = .invalidNumber ∨ fault = .invalidToken ∨ fault = .unterminatedString

theorem lexical_of_readSymbol {c : Char} {cs : List Char} {fault : Fault} {text : String}
    (h : readSymbol c cs = .error (fault, text)) : Lexical fault := by
  have hshort : ∀ ds, readShortSymbol c ds = .error (fault, text) → Lexical fault := by
    intro ds hds
    unfold readShortSymbol at hds
    split at hds <;> cases hds
    exact .inr (.inl rfl)
  cases cs with
  | nil => exact hshort [] h
  | cons d ds =>
      rw [readSymbol] at h
      split at h
      · cases h
      · exact hshort (d :: ds) h

/-- What is no token is a number that is too great, a text that is not closed or a character that begins no token. -/
theorem lexical_of_read {c : Char} {cs : List Char} {fault : Fault} {text : String}
    (h : read c cs = .error (fault, text)) : Lexical fault := by
  unfold read at h
  split at h
  · unfold readNumber at h
    dsimp only at h
    split at h <;> cases h
    exact .inl rfl
  · split at h
    · unfold readString at h
      split at h <;> cases h
      exact .inr (.inr rfl)
    · split at h
      · cases h
      · exact lexical_of_readSymbol h

/-! ## Reading from the split on -/

/-- The first token of a text that does not start with white space stands at its start. -/
theorem Lexes.readAll_eq_cons {c : Char} {cs : List Char} {token : Token} {ts : List Token}
    (h : Lexes (c :: cs) (token :: ts)) (hc : isWhiteSpace c = false) :
    ∃ more, readAll (c :: cs) = .ok (⟨0, token⟩ :: more) ∧ tokensOf more = ts := by
  generalize hds : c :: cs = ds at h
  generalize hus : token :: ts = us at h
  cases h with
  | nil => cases hds
  | white hwhite _ =>
      cases hds
      rw [hc] at hwhite
      cases hwhite
  | token hwhite hread hrest =>
      cases hds
      cases hus
      obtain ⟨more, hmore, htokens⟩ := hrest.readAllFrom (0 + _)
      exact ⟨more, by rw [readAll, readAllFrom_of_read hwhite hread, hmore]; rfl, htokens⟩

end FiniteDomain.Token
