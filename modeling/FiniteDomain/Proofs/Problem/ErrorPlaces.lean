import Mathlib
import FiniteDomain.Problem.Statement
import FiniteDomain.Proofs.Problem.Domains
import FiniteDomain.Proofs.Syntax.Offences
import FiniteDomain.Proofs.Syntax.Places

/-!
# Where the errors of a line point

The parts of a line are read on their own, so that the offset of an error first counts from the start of a part.
`Offence` says what the offending piece is and `ParseError.Points` that it stands at the offset of the error. A part
points into the whole as soon as its errors are shifted by the bytes before it (`Points.shift`), and white space after
it does not matter (`Points.append_white`). What is left is that the readers of domains and of expressions blame one of
their tokens (`Faulty`), and that the whole line shifts by the right number of bytes (`points_of_ofUncommented`).
-/

namespace FiniteDomain

open Text

/-! ## Blamed tokens -/

namespace Domain

/-- The range from `first` to `last` as it is shown. -/
def rangeText (first last : Int64) : String :=
  String.ofList (decimal first.toInt ++ ['.', '.'] ++ decimal last.toInt)

/-- The tokens start with a range that ends before it begins, which is shown as the text. -/
inductive RejectedRange : String → List Token → Prop where
  | mk {ts us : List Token} {first last : Int64} (more : List Token) : Signed ts first.toInt →
      Signed us last.toInt → last < first →
        RejectedRange (rangeText first last) (ts ++ .symbol .dot :: .symbol .dot :: (us ++ more))

/-- The error is about the first of the tokens. -/
inductive Blames : ParseError → List Located → Prop where
  | token (t : Located) (ts : List Located) : Blames t.unexpected (t :: ts)
  | range {t : Located} {ts : List Located} {shown : String} (h : RejectedRange shown (tokensOf (t :: ts))) :
      Blames (.offending .invalidDomain shown t.offset) (t :: ts)

/-- The tokens end too early, or the error is about one of them. -/
def Faulty (e : ParseError) (ts : List Located) : Prop :=
  e = .unexpectedEnd ∨ ∃ front back, ts = front ++ back ∧ Blames e back

variable {e : ParseError} {t : Located} {ts : List Located}

theorem faulty_end (ts : List Located) : Faulty .unexpectedEnd ts :=
  .inl rfl

theorem faulty_token (t : Located) (ts : List Located) : Faulty t.unexpected (t :: ts) :=
  .inr ⟨[], t :: ts, rfl, .token t ts⟩

theorem Faulty.append_left (h : Faulty e ts) (front : List Located) : Faulty e (front ++ ts) := by
  obtain rfl | ⟨front', back, rfl, hblames⟩ := h
  · exact faulty_end _
  · exact .inr ⟨front ++ front', back, (List.append_assoc _ _ _).symm, hblames⟩

theorem Faulty.cons (h : Faulty e ts) (t : Located) : Faulty e (t :: ts) :=
  h.append_left [t]

theorem faulty_of_expect {token : Token} (h : token.expect ts = .error e) : Faulty e ts := by
  cases ts with
  | nil =>
      cases h
      exact faulty_end _
  | cons t ts =>
      rw [Token.expect] at h
      split at h <;> cases h
      exact faulty_token t ts

theorem faulty_of_readInt (h : readInt t ts = .error e) : Faulty e (t :: ts) := by
  obtain ⟨offset, token⟩ := t
  cases token with
  | int n => cases h
  | symbol s =>
      cases s <;> try (cases h; exact faulty_token _ ts)
      cases ts with
      | nil =>
          cases h
          exact faulty_end _
      | cons u us =>
          obtain ⟨offset', token'⟩ := u
          cases token' <;> cases h <;> exact (faulty_token _ us).cons _
  | str s =>
      cases h
      exact faulty_token _ ts
  | ident name =>
      cases h
      exact faulty_token _ ts
  | keyword k =>
      cases h
      exact faulty_token _ ts

/-- A range that cannot be read is at fault where it starts, or at a token of its end. -/
theorem faulty_of_readRange {dot : Located} {front : List Located} {first : Int64} (hproper : Proper ts)
    (hfirst : Signed (tokensOf (t :: front)) first.toInt) (hdot : dot.token = .symbol .dot)
    (h : readRange t first ts = .error e) : Faulty e (t :: (front ++ dot :: ts)) := by
  obtain hexpect | ⟨us, hexpect, hafter⟩ := Expr.of_bind_eq_error h
  · exact ((faulty_of_expect hexpect).cons dot).append_left (t :: front)
  · obtain ⟨dot', hdot', rfl⟩ := Token.eq_cons_of_expect hexpect
    cases us with
    | nil =>
        cases hafter
        exact faulty_end _
    | cons u us =>
        obtain hint | ⟨⟨last, rest⟩, hint, hrange⟩ := Expr.of_bind_eq_error hafter
        · exact (((faulty_of_readInt hint).cons dot').cons dot).append_left (t :: front)
        · dsimp only at hrange
          split at hrange <;> cases hrange
          next hlt =>
          obtain ⟨front', hfront', hlast⟩ := readInt_sound hproper.tail hint
          have htokens : tokensOf (t :: (front ++ dot :: dot' :: u :: us))
              = tokensOf (t :: front) ++ .symbol .dot :: .symbol .dot :: (tokensOf front' ++ tokensOf rest) := by
            simp [hfront', hdot, hdot']
          exact .inr ⟨[], _, rfl, .range (htokens ▸ .mk (tokensOf rest) hfirst hlast hlt)⟩

theorem faulty_of_readInts (hproper : Proper (t :: ts)) (h : readInts t ts = .error e) : Faulty e (t :: ts) := by
  obtain hint | ⟨⟨first, rest⟩, hint, hafter⟩ := Expr.of_bind_eq_error h
  · exact faulty_of_readInt hint
  · obtain ⟨front, hfront, hsigned⟩ := readInt_sound hproper hint
    cases rest with
    | nil => cases hafter
    | cons dot us =>
        dsimp only at hafter
        split at hafter
        · next hdot =>
          -- After a dot the range may still be rejected where it started, so its first tokens are kept.
          obtain ⟨u, us', hcons, -⟩ := hsigned.exists_cons
          obtain ⟨t', front', rfl, -, -⟩ := of_tokensOf_cons hcons
          obtain ⟨rfl, rfl⟩ := List.cons.inj hfront
          exact faulty_of_readRange hproper.tail.of_append.tail hsigned hdot hafter
        · cases hafter

theorem faulty_of_readItem (hproper : Proper (t :: ts)) (h : readItem t ts = .error e) : Faulty e (t :: ts) := by
  obtain ⟨offset, token⟩ := t
  cases token with
  | int n => exact faulty_of_readInts hproper h
  | symbol s =>
      cases s <;> try (cases h; exact faulty_token _ ts)
      exact faulty_of_readInts hproper h
  | str s => cases h
  | ident name =>
      cases h
      exact faulty_token _ ts
  | keyword k => cases k <;> cases h <;> exact faulty_token _ ts

/-- What is no domain is at fault at one of its tokens. -/
theorem faulty_of_ofTokens (hproper : Proper ts) (h : ofTokens ts = .error e) : Faulty e ts := by
  induction ts using ofTokens.induct with
  | case1 =>
      rw [ofTokens] at h
      cases h
  | case2 t ts e' hread =>
      rw [ofTokens] at h
      split at h
      · cases h
        next hread' => exact faulty_of_readItem hproper hread'
      · next hread' =>
        rw [hread] at hread'
        cases hread'
  | case3 t ts vs rest hread ih =>
      obtain ⟨front, hfront, -⟩ := readItem_sound hproper hread
      rw [ofTokens_of_readItem hread] at h
      rw [hfront] at hproper ⊢
      cases hrest : ofTokens rest with
      | ok ws =>
          rw [hrest] at h
          cases h
      | error e' =>
          rw [hrest] at h
          cases h
          exact (ih hproper.of_append hrest).append_left front

end Domain

/-! ## Offences -/

/-- What the text starts with, so that an error of the fault shows it as `shown`. -/
def Offence (fault : Fault) (shown : String) (cs : List Char) : Prop :=
  match fault with
  | .unexpectedToken => ∃ token more, Token.readAll cs = .ok (⟨0, token⟩ :: more) ∧ token.text = shown
  | .invalidNumber | .invalidToken | .unterminatedString =>
      Token.readAll cs = .error (.offending fault shown 0)
  | .unknownDirective | .invalidVariable => shown.toList <+: cs
  | .invalidDomain => ∃ token more, Token.readAll cs = .ok (⟨0, token⟩ :: more) ∧
      Domain.RejectedRange shown (token :: tokensOf more)

theorem Offence.append_white {fault : Fault} {shown : String} {cs ws : List Char} (hws : White ws)
    (h : Offence fault shown cs) : Offence fault shown (cs ++ ws) := by
  have hread : Token.readAll (cs ++ ws) = Token.readAll cs := Token.readAllFrom_append_white hws 0 cs
  unfold Offence at h ⊢
  rw [hread]
  split at h
  · exact h
  · exact h
  · exact h
  · exact h
  · exact h.trans (List.prefix_append cs ws)
  · exact h.trans (List.prefix_append cs ws)
  · exact h

namespace ParseError

/-- The text splits at the offset of the error, and its second part starts with the offence. -/
def Points (e : ParseError) (cs : List Char) : Prop :=
  ∀ fault shown offset, e = .offending fault shown offset →
    ∃ before rest, cs = before ++ rest ∧ byteLength before = offset ∧ Offence fault shown rest

theorem points_end (cs : List Char) : Points .unexpectedEnd cs :=
  fun _ _ _ h => nomatch h

theorem points_split {fault : Fault} {shown : String} {before rest : List Char} (h : Offence fault shown rest) :
    Points (.offending fault shown (byteLength before)) (before ++ rest) := by
  intro _ _ _ heq
  cases heq
  exact ⟨before, rest, rfl, rfl, h⟩

variable {e : ParseError} {cs : List Char}

/-- An error points into a longer text if it is shifted by the bytes in front. -/
theorem Points.shift (h : e.Points cs) (front : List Char) :
    (e.shift (byteLength front)).Points (front ++ cs) := by
  cases e with
  | unexpectedEnd => exact points_end _
  | offending fault shown offset =>
      obtain ⟨before, rest, rfl, rfl, hoffence⟩ := h _ _ _ rfl
      rw [ParseError.shift, Nat.add_comm, ← byteLength_append, ← List.append_assoc]
      exact points_split hoffence

theorem Points.append_white {ws : List Char} (hws : White ws) (h : e.Points cs) : e.Points (cs ++ ws) := by
  intro fault shown offset he
  obtain ⟨before, rest, rfl, hoffset, hoffence⟩ := h _ _ _ he
  exact ⟨before, rest ++ ws, List.append_assoc _ _ _, hoffset, hoffence.append_white hws⟩

/-- What comes after a margin is shifted by the margin. -/
theorem Points.of_trimStart (h : e.Points (trimStart cs)) : (e.shift (margin cs)).Points cs := by
  have hlong := h.shift (cs.takeWhile isWhiteSpace)
  rwa [trimStart, List.takeWhile_append_dropWhile] at hlong

theorem Points.of_trim (h : e.Points (trim cs)) : (e.shift (margin cs)).Points cs := by
  obtain ⟨ws, hws, htrim⟩ := Token.exists_white_append_trimEnd (trimStart cs)
  refine Points.of_trimStart ?_
  rw [htrim]
  exact h.append_white hws

/-- Where the tokenizer fails there is no token. -/
theorem points_of_readAll (h : Token.readAll cs = .error e) : e.Points cs := by
  obtain ⟨before, c, rest, fault, text, rfl, hwhite, hread, rfl⟩ := Token.exists_split_of_error h
  have hrest : Token.readAll (c :: rest) = .error (.offending fault text 0) :=
    Token.readAllFrom_of_error hwhite hread 0
  rw [Nat.zero_add]
  refine points_split ?_
  obtain rfl | rfl | rfl := Token.lexical_of_read hread
  · exact hrest
  · exact hrest
  · exact hrest

/-- The tokens that are blamed stand where they are blamed. -/
theorem points_of_faulty {ts : List Located} (hread : Token.readAll cs = .ok ts) (h : Domain.Faulty e ts) :
    e.Points cs := by
  obtain rfl | ⟨front, back, rfl, hblames⟩ := h
  · exact points_end cs
  · obtain ⟨t, back, rfl⟩ : ∃ t ts, back = t :: ts := by
      cases hblames <;> exact ⟨_, _, rfl⟩
    obtain ⟨before, c, rest, rfl, hoffset, hwhite, hlexes⟩ := Token.exists_split_of_token hread
    obtain ⟨more, hmore, htokens⟩ := hlexes.readAll_eq_cons hwhite
    rw [Nat.zero_add] at hoffset
    cases hblames with
    | token t ts =>
        rw [Located.unexpected, ← hoffset]
        exact points_split ⟨t.token, more, hmore, rfl⟩
    | range hrejected =>
        rw [← hoffset]
        exact points_split ⟨t.token, more, hmore, htokens ▸ hrejected⟩

end ParseError

/-! ## Parts of a line -/

theorem Domain.points_of_parse {e : ParseError} {cs : List Char} (h : Domain.parse cs = .error e) : e.Points cs := by
  obtain hread | ⟨ts, hread, h⟩ := Expr.of_bind_eq_error h
  · exact ParseError.points_of_readAll hread
  · have hproper := (Token.lexes_of_readAll hread).isProper
    exact ParseError.points_of_faulty hread (faulty_of_ofTokens hproper h)

theorem Expr.points_of_parse {e : ParseError} {s : String} (h : Expr.parse s = .error e) : e.Points s.toList := by
  obtain hread | ⟨ts, hread, h⟩ := of_bind_eq_error h
  · exact ParseError.points_of_readAll hread
  · refine ParseError.points_of_faulty hread ?_
    obtain rfl | ⟨front, t, back, rfl, rfl, -⟩ := of_ofTokens_eq_error h
    · exact Domain.faulty_end _
    · exact (Domain.faulty_token t back).append_left front

theorem Constraint.points_of_parse {e : ParseError} {s : String} (h : Constraint.parse s = .error e) :
    e.Points s.toList := by
  obtain hexpr | ⟨expr, -, h⟩ := Expr.of_bind_eq_error h
  · exact Expr.points_of_parse hexpr
  · cases h

namespace Statement

variable {e : ParseError} {cs line : List Char}

theorem points_of_readConstraint (h : readConstraint cs = .error e) : e.Points cs := by
  unfold readConstraint at h
  split at h
  · cases h
  · next hparse =>
    cases h
    have hpoints := Constraint.points_of_parse hparse
    rw [String.toList_ofList] at hpoints
    exact hpoints.of_trim

/-- What stands where a name should stand is found where the margin ends. -/
theorem points_of_invalidVariable (before after : List Char)
    (hafter : ∀ c ds, after = c :: ds → isWhiteSpace c = false) :
    (ParseError.offending .invalidVariable (String.ofList (trim before)) (margin (before ++ after))).Points
      (before ++ after) := by
  obtain ⟨ws, -, htrim⟩ := Token.exists_white_append_trimEnd (trimStart before)
  -- What comes after the name is no white space, so the margin does not go on behind it.
  have hstart : trimStart (before ++ after) = trim before ++ (ws ++ after) := by
    rw [trimStart, Token.dropWhile_append_of_head hafter, ← trimStart, trim, ← List.append_assoc, ← htrim]
  have hoffence : Offence .invalidVariable (String.ofList (trim before)) (trimStart (before ++ after)) := by
    rw [hstart, Offence, String.toList_ofList]
    exact List.prefix_append _ _
  have hpoints : (ParseError.offending .invalidVariable (String.ofList (trim before)) (byteLength [])).Points
      ([] ++ trimStart (before ++ after)) := ParseError.points_split hoffence
  simpa [ParseError.shift] using hpoints.of_trimStart

theorem points_of_readDeclaration (h : readDeclaration cs = .error e) : e.Points cs := by
  unfold readDeclaration at h
  dsimp only at h
  split at h
  · cases h
    have hpoints := points_of_invalidVariable cs [] <| by
      rintro c ds heq
      cases heq
    rwa [List.append_nil] at hpoints
  · next colon after hdrop =>
    obtain ⟨rfl, hsplit⟩ := Token.of_dropWhile_ne hdrop
    split at h
    · split at h
      · cases h
      · next e' hdomain =>
        cases h
        have hpoints := (Domain.points_of_parse hdomain).shift (cs.takeWhile (· ≠ ':') ++ [':'])
        rwa [List.append_assoc, List.singleton_append, hsplit, byteLength_append] at hpoints
    · cases h
      have hpoints := points_of_invalidVariable (cs.takeWhile (· ≠ ':')) (':' :: after) <| by
        rintro c ds heq
        cases heq
        decide
      rwa [hsplit] at hpoints

theorem points_of_ofDirective {offset : Nat} {word rest before : List Char} (hoffset : byteLength before = offset)
    (h : ofDirective offset word rest = .error e) : e.Points (before ++ (word ++ rest)) := by
  have hpart : ∀ e' : ParseError, e'.Points rest →
      (e'.shift (offset + byteLength word)).Points (before ++ (word ++ rest)) := by
    intro e' he'
    rw [← hoffset, ← byteLength_append, ← List.append_assoc]
    exact he'.shift (before ++ word)
  unfold ofDirective at h
  split at h
  · split at h <;> cases h
    next hdeclaration => exact hpart _ (points_of_readDeclaration hdeclaration)
  · split at h
    · split at h <;> cases h
      next hconstraint => exact hpart _ (points_of_readConstraint hconstraint)
    · cases h
      rw [← hoffset]
      refine ParseError.points_split ?_
      rw [Offence, String.toList_ofList]
      exact List.prefix_append word rest

theorem points_of_ofUncommented (h : ofUncommented line = .error e) : e.Points line := by
  unfold ofUncommented at h
  dsimp only at h
  split at h
  · cases h
  · split at h <;> cases h
    next hdirective =>
    have hpoints := points_of_ofDirective rfl hdirective
    rwa [List.takeWhile_append_dropWhile, trimStart, List.takeWhile_append_dropWhile] at hpoints

/-- The errors of a line point at the offence, wherever it stands. An error that has no offset is one of an end that
comes too early; any other splits the line without its comment after so many bytes as its offset says, which falls
between two characters, and the line goes on with the offence from there. -/
theorem offence_of_ofLine {line : List Char} {e : ParseError} (h : ofLine line = .error e) :
    (e = .unexpectedEnd ∧ e.offset? = none) ∨
      ∃ fault shown offset, e = .offending fault shown offset ∧ e.offset? = some offset ∧
        offset ≤ byteLength (stripComment line) ∧
          ∃ before rest, stripComment line = before ++ rest ∧ byteLength before = offset ∧
            Offence fault shown rest := by
  cases e with
  | unexpectedEnd => exact .inl ⟨rfl, rfl⟩
  | offending fault shown offset =>
      obtain ⟨before, rest, hsplit, hoffset, hoffence⟩ := points_of_ofUncommented h _ _ _ rfl
      refine .inr ⟨fault, shown, offset, rfl, rfl, ?_, before, rest, hsplit, hoffset, hoffence⟩
      rw [hsplit, byteLength_append, hoffset]
      exact Nat.le_add_right _ _

/-- The range that ends before it begins is found after a margin and a name of two bytes. -/
theorem offence_of_ofLine_range :
    ofLine " var É: -1..-3 # none".toList = .error (.offending .invalidDomain "-1..-3" 9) ∧
      ∃ before rest, stripComment " var É: -1..-3 # none".toList = before ++ rest ∧ byteLength before = 9 ∧
        Offence .invalidDomain "-1..-3" rest := by
  have hread : ofLine " var É: -1..-3 # none".toList = .error (.offending .invalidDomain "-1..-3" 9) := by
    cbv
  obtain ⟨he, -⟩ | ⟨fault, shown, offset, he, -, -, hsplit⟩ := offence_of_ofLine hread
  · cases he
  · cases he
    exact ⟨hread, hsplit⟩

end Statement

end FiniteDomain
