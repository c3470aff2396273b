import FiniteDomain.Proofs.Syntax.Lexing
import FiniteDomain.Proofs.Syntax.ParserComplete

/-!
# Expressions that are read from texts

Which expressions the parser makes (`asParsed_of_parse`): their names are words and no keywords, a minus sign before
an integer is part of the integer, and variables and values of lists do not occur. The facts come from the tokens, of
which a text has only proper ones (`Lexes.isProper`), and go through the rules of the grammar one by one.
-/

namespace FiniteDomain

namespace Token

/-- A token that the characters of a text can make. -/
def IsProper : Token → Prop
  | .int n => 0 ≤ n.toInt
  | .ident name => IsName name
  | _ => True

theorem toInt_ofNat_of_le {n : Nat} (h : (n : Int) ≤ Int64.maxValue.toInt) :
    (Int64.ofNat n).toInt = n := by
  have hmax : Int64.maxValue.toInt = 2 ^ 63 - 1 := rfl
  exact Int64.toInt_ofNat_of_lt (by omega)

theorem of_mem_takeWhile_cons {p : Char → Bool} {c : Char} (hc : p c = true) (cs : List Char) :
    ∃ ds, (c :: cs).takeWhile p = c :: ds ∧ ∀ d ∈ ds, p d = true := by
  refine ⟨cs.takeWhile p, by rw [List.takeWhile_cons, hc]; rfl, ?_⟩
  intro d hd
  exact of_mem_takeWhile hd

theorem ofWord_isProper {w : String} (h : IsWord w) : (ofWord w).IsProper := by
  unfold ofWord
  split
  · exact trivial
  · next hkeyword => exact ⟨h, hkeyword⟩

theorem read_isProper {c : Char} {cs : List Char} {r : Reading} (h : read c cs = .ok r) :
    r.token.IsProper := by
  unfold read at h
  split at h
  · unfold readNumber at h
    dsimp only at h
    split at h
    · next hle =>
      cases h
      show 0 ≤ (Int64.ofNat _).toInt
      rw [toInt_ofNat_of_le hle]
      exact Int.natCast_nonneg _
    · cases h
  · split at h
    · unfold readString at h
      split at h
      · cases h
        exact trivial
      · cases h
    · split at h
      · next hstart =>
        cases h
        obtain ⟨ds, htake, hds⟩ := of_mem_takeWhile_cons (isWordPart_of_isWordStart hstart) cs
        refine ofWord_isProper ⟨c, ds, ?_, hstart, hds⟩
        rw [String.toList_ofList, htake]
      · -- Whatever the second character is, the token is a symbol.
        unfold readSymbol readShortSymbol at h
        split at h
        · split at h <;> cases h
          exact trivial
        · split at h
          · cases h
            exact trivial
          · split at h <;> cases h
            exact trivial

/-- A text has only proper tokens. -/
theorem Lexes.isProper {cs : List Char} {ts : List Token} (h : Lexes cs ts) : ∀ t ∈ ts, t.IsProper := by
  induction h with
  | nil =>
      intro t ht
      cases ht
  | white _ _ ih => exact ih
  | token _ hread _ ih =>
      intro t ht
      rcases List.mem_cons.mp ht with rfl | ht
      · exact read_isProper hread
      · exact ih t ht

end Token

namespace Expr

/-- The property holds of the expression and of everything that it is made of. -/
inductive Everywhere (p : Expr → Prop) : Expr → Prop where
  | literal {v : Value} (h : p (.literal v)) : Everywhere p (.literal v)
  | ident {name : String} (h : p (.ident name)) : Everywhere p (.ident name)
  | slot {index : Nat} {name : String} (h : p (.slot index name)) : Everywhere p (.slot index name)
  | list {items : List Expr} (h : p (.list items)) (hitems : ∀ e ∈ items, Everywhere p e) :
      Everywhere p (.list items)
  | unary {op : UnaryOp} {e : Expr} (h : p (.unary op e)) (he : Everywhere p e) :
      Everywhere p (.unary op e)
  | binary {op : BinaryOp} {l r : Expr} (h : p (.binary op l r)) (hl : Everywhere p l)
      (hr : Everywhere p r) : Everywhere p (.binary op l r)
  | call {function : String} {args : List Expr} (h : p (.call function args))
      (hargs : ∀ e ∈ args, Everywhere p e) : Everywhere p (.call function args)
  | count {xs item : Expr} (h : p (.count xs item)) (hxs : Everywhere p xs)
      (hitem : Everywhere p item) : Everywhere p (.count xs item)

/-- The outermost form of the expression is one that the parser makes. -/
def AsParsed : Expr → Prop
  | .literal (.int n) => Int64.minValue.toInt < n.toInt
  | .literal (.list _) => False
  | .ident name => Token.IsName name
  | .slot _ _ => False
  | .unary .neg e => ∀ n, e ≠ .int n
  | .call function _ => Token.IsName function
  | _ => True

/-- What holds of the phrase because its tokens are proper. -/
def Phrase.AsParsed : Phrase → Prop
  | .expr _ e => e.Everywhere Expr.AsParsed
  | .comparisons joined last => joined.Everywhere Expr.AsParsed ∧ last.Everywhere Expr.AsParsed
  | .items es => ∀ e ∈ es, e.Everywhere Expr.AsParsed

theorem everywhere_int {n : Int64} (h : Int64.minValue.toInt < n.toInt) :
    (int n).Everywhere AsParsed :=
  .literal h

/-- The opposite of a word that is not the least one. -/
theorem toInt_neg_of_minValue_lt {n : Int64} (h : Int64.minValue.toInt < n.toInt) :
    (-n).toInt = -n.toInt := by
  have hmin : Int64.minValue.toInt = -2 ^ 63 := rfl
  have hmax : Int64.maxValue.toInt = 2 ^ 63 - 1 := rfl
  have hle := Int64.toInt_le n
  rw [Int64.toInt_neg n, Int.bmod_eq_of_le (by omega) (by omega)]

theorem minValue_lt_neg {n : Int64} (h : Int64.minValue.toInt < n.toInt) :
    Int64.minValue.toInt < (-n).toInt := by
  have hmin : Int64.minValue.toInt = -2 ^ 63 := rfl
  have hmax : Int64.maxValue.toInt = 2 ^ 63 - 1 := rfl
  have hle := Int64.toInt_le n
  rw [toInt_neg_of_minValue_lt h]
  omega

/-- Proper tokens spell only what the parser makes. -/
theorem Derives.asParsed {phrase : Phrase} {ts : List Token} (h : Derives phrase ts)
    (hts : ∀ t ∈ ts, t.IsProper) : phrase.AsParsed := by
  induction h with
  | tighter _ _ ih => exact ih hts
  | binary _ _ _ _ ihl ihr => exact .binary trivial (ihl (by simp_all)) (ihr (by simp_all))
  | not _ ih => exact .unary trivial (ih (by simp_all))
  | compare _ _ _ ihl ihr =>
      have hr := ihr (by simp_all)
      exact ⟨.binary trivial (ihl (by simp_all)) hr, hr⟩
  | compareMore _ _ _ ihl ihr =>
      obtain ⟨hjoined, hlast⟩ := ihl (by simp_all)
      have hr := ihr (by simp_all)
      exact ⟨.binary trivial hjoined (.binary trivial hlast hr), hr⟩
  | comparison _ ih => exact (ih hts).1
  | @negative n ts _ ih =>
      have hparsed : (Expr.int n).Everywhere AsParsed := ih (by simp_all)
      cases hparsed with
      | literal hn => exact everywhere_int (minValue_lt_neg hn)
  | minus hne _ ih => exact .unary hne (ih (by simp_all))
  | count _ _ ihxs ihitem => exact .count trivial (ihxs (by simp_all)) (ihitem (by simp_all))
  | int n =>
      have hn : 0 ≤ n.toInt := hts _ List.mem_cons_self
      have hmin : Int64.minValue.toInt = -2 ^ 63 := rfl
      exact everywhere_int (by omega)
  | str | trueValue | falseValue => exact .literal trivial
  | ident name => exact .ident (hts (.ident name) List.mem_cons_self)
  | call function _ ih => exact .call (hts (.ident function) List.mem_cons_self) (ih (by simp_all))
  | list _ ih => exact .list trivial (ih (by simp_all))
  | parens _ ih => exact ih (by simp_all)
  | noItems =>
      intro e he
      cases he
  | lastItem _ ih =>
      intro e he
      rw [List.mem_singleton.mp he]
      exact ih hts
  | moreItems _ _ ih ihes =>
      intro e he
      rcases List.mem_cons.mp he with rfl | he
      · exact ih (by simp_all)
      · exact ihes (by simp_all) e he

/-! ## Looser levels -/

theorem Level.eq_of_rank_eq {level tight : Level} (h : level.rank = tight.rank) : level = tight := by
  cases level <;> cases tight <;> first | rfl | cases h

theorem Level.rank_le_atom (level : Level) : level.rank ≤ Level.atom.rank := by
  cases level <;> decide

/-- A phrase of a level is one of every looser level too. -/
theorem Derives.loosen {level tight : Level} {e : Expr} {ts : List Token}
    (h : Derives (.expr tight e) ts) (hle : level.rank ≤ tight.rank) : Derives (.expr level e) ts := by
  obtain ⟨k, hk⟩ := Nat.exists_eq_add_of_le hle
  induction k generalizing level with
  | zero =>
      obtain rfl : tight = level := Level.eq_of_rank_eq hk
      exact h
  | succ k ih =>
      cases hnext : level.tighter? with
      | none =>
          -- Nothing is tighter than an atom.
          have hatom : level.rank = 8 := by cases level <;> first | rfl | cases hnext
          have hle' : tight.rank ≤ 8 := by cases tight <;> decide
          omega
      | some next =>
          have hrank := Level.rank_of_tighter? hnext
          exact .tighter hnext (ih (by omega) (by omega))

/-! ## Texts that spell expressions -/

/-- The characters are read as tokens that the grammar derives. -/
def Spells (phrase : Phrase) (cs : List Char) : Prop :=
  ∃ ts, Token.Lexes cs ts ∧ Derives phrase ts

theorem Spells.loosen {level tight : Level} {e : Expr} {cs : List Char} (h : Spells (.expr tight e) cs)
    (hle : level.rank ≤ tight.rank) : Spells (.expr level e) cs := by
  obtain ⟨ts, hlexes, hderives⟩ := h
  exact ⟨ts, hlexes, hderives.loosen hle⟩

/-- The parser accepts exactly the texts that spell an expression. -/
theorem parse_eq_ok_iff {s : String} {e : Expr} :
    parse s = .ok e ↔ Spells (.expr .disjunction e) s.toList := by
  constructor
  · intro h
    obtain ⟨located, hread, htokens⟩ := of_bind_eq_ok h
    exact ⟨_, Token.lexes_of_readAll hread, ofTokens_eq_ok_iff.mp htokens⟩
  · rintro ⟨ts, hlexes, hderives⟩
    obtain ⟨located, hread, rfl⟩ := hlexes.readAllFrom 0
    rw [parse, Token.readAll, hread]
    exact ofTokens_eq_ok_iff.mpr hderives

theorem asParsed_of_parse {s : String} {e : Expr} (h : parse s = .ok e) : e.Everywhere AsParsed := by
  obtain ⟨ts, hlexes, hderives⟩ := parse_eq_ok_iff.mp h
  exact hderives.asParsed hlexes.isProper

end Expr

end FiniteDomain
