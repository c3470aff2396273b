import Mathlib
import FiniteDomain.Checked
import FiniteDomain.Proofs.Syntax.Readable

/-!
# The grammar has one reading

The parser accepts exactly the lists of tokens that the grammar derives an expression from, and answers that
expression; since it has one answer, no list of tokens stands for two expressions (`Derives.unique`). What the
minus sign makes of an integer is exact for the tokens of every text: these have no negative integers, so the
least word, the only one without an opposite, is never met (`neg?_of_derives`).
-/

namespace FiniteDomain.Expr

/-- A list of tokens stands for one expression. -/
theorem Derives.unique {ts : List Token} {e e' : Expr} (h : Derives (.expr .disjunction e) ts)
    (h' : Derives (.expr .disjunction e') ts) : e = e' := by
  -- The places of the tokens have no part in it.
  have hlocated : tokensOf (ts.map (Located.mk 0)) = ts := by
    simp [tokensOf, Function.comp_def]
  have hparse : ofTokens (ts.map (Located.mk 0)) = .ok e :=
    ofTokens_eq_ok_iff.mpr (hlocated.symm ▸ h)
  have hparse' : ofTokens (ts.map (Located.mk 0)) = .ok e' :=
    ofTokens_eq_ok_iff.mpr (hlocated.symm ▸ h')
  rw [hparse, Except.ok.injEq] at hparse'
  exact hparse'

/-- The opposite of an integer that proper tokens spell is a word. -/
theorem neg?_of_derives {level : Level} {n : Int64} {ts : List Token}
    (h : Derives (.expr level (.int n)) ts) (hts : ∀ t ∈ ts, t.IsProper) :
    Checked.neg? n = some (-n) := by
  have hparsed : (int n).Everywhere AsParsed := h.asParsed hts
  cases hparsed with
  | literal hn => exact Checked.ofInt?_eq_some_iff.mpr (toInt_neg_of_minValue_lt hn)

/-- The parser accepts exactly what the grammar derives, with the one expression that is derived; and wherever the
tokens of a text spell an integer, its opposite is exact. -/
theorem ofTokens_iff_derives (ts : List Located) :
    (∀ e, ofTokens ts = .ok e ↔ Derives (.expr .disjunction e) (tokensOf ts)) ∧
      (∀ e e', Derives (.expr .disjunction e) (tokensOf ts) →
        Derives (.expr .disjunction e') (tokensOf ts) → e = e') ∧
      ∀ s, Token.readAll s = .ok ts → ∀ us n, us <:+: tokensOf ts →
        Derives (.expr .sign (.int n)) us → Checked.neg? n = some (-n) := by
  refine ⟨fun e => ofTokens_eq_ok_iff, fun e e' h h' => h.unique h', ?_⟩
  intro s hread us n hpart hderives
  have hproper := (Token.lexes_of_readAll hread).isProper
  exact neg?_of_derives hderives fun t ht => hproper t (hpart.subset ht)

/-- The tokens of `not -(3) < -A not in [2,]`. -/
def chained : List Located :=
  [⟨0, .keyword .not⟩, ⟨4, .symbol .minus⟩, ⟨5, .symbol .openParen⟩, ⟨6, .int 3⟩, ⟨7, .symbol .closeParen⟩,
    ⟨9, .symbol .lt⟩, ⟨11, .symbol .minus⟩, ⟨12, .ident "A"⟩, ⟨14, .keyword .not⟩, ⟨18, .keyword .mem⟩,
    ⟨21, .symbol .openBracket⟩, ⟨22, .int 2⟩, ⟨23, .symbol .comma⟩, ⟨24, .symbol .closeBracket⟩]

/-- Two comparisons side by side under a `not`, the second of two words, with an integer in parentheses under one minus
sign and a name under another. -/
theorem ofTokens_iff_derives_chained :
    Token.readAll "not -(3) < -A not in [2,]".toList = .ok chained ∧
      Derives (.expr .disjunction
        (.unary .not (.binary .and (.binary .lt (.int (-3)) (.unary .neg (.ident "A")))
          (.binary .notMem (.unary .neg (.ident "A")) (.list [.int 2]))))) (tokensOf chained) ∧
      (∀ e, Derives (.expr .disjunction e) (tokensOf chained) →
        e = .unary .not (.binary .and (.binary .lt (.int (-3)) (.unary .neg (.ident "A")))
          (.binary .notMem (.unary .neg (.ident "A")) (.list [.int 2])))) ∧
      Checked.neg? 3 = some (-3) := by
  have hread : Token.readAll "not -(3) < -A not in [2,]".toList = .ok chained := by cbv
  have hparse : ofTokens chained
      = .ok (.unary .not (.binary .and (.binary .lt (.int (-3)) (.unary .neg (.ident "A")))
        (.binary .notMem (.unary .neg (.ident "A")) (.list [.int 2])))) := rfl
  have hpart : [.symbol .openParen, .int 3, .symbol .closeParen] <:+: tokensOf chained :=
    ⟨[.keyword .not, .symbol .minus], _, rfl⟩
  have hthree : Derives (.expr .disjunction (.int 3)) [.int 3] :=
    (Derives.int 3).loosen (by decide)
  obtain ⟨haccepts, hunique, hneg⟩ := ofTokens_iff_derives chained
  have hderives := (haccepts _).mp hparse
  exact ⟨hread, hderives, fun e he => hunique _ _ he hderives,
    hneg _ hread _ 3 hpart ((Derives.parens hthree).loosen (by decide))⟩

end FiniteDomain.Expr
