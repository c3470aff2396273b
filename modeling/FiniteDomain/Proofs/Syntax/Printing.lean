import FiniteDomain.Expr.Printer
import FiniteDomain.Proofs.Syntax.QuotedTexts
import FiniteDomain.Proofs.Syntax.Readable

/-!
# Printed expressions are read back

The printed form of an expression spells the expression on the level of its outermost operator (`spells_chars`). An
operand stands in a place that asks for a level: on that level or a tighter one it stands as it is, and otherwise in
parentheses, inside which every level is allowed (`Spells.enclose`).

The printer compares precedences and the grammar has levels. The two disagree at one point only: a negative integer
has the precedence of an atom, but it is read as a minus sign and a number. That matters for the list of a count,
which is the only place that asks for more than a sign.
-/

namespace FiniteDomain.Expr

open Token (Lexes IsLone)
open Text (commaSeparated)

/-! ## Levels and precedences -/

/-- The level on which the printed form of the expression is a phrase. -/
def printLevel : Expr → Level
  | .literal (.int n) => if n.toInt < 0 then .sign else .atom
  | .unary .neg _ => .sign
  | .unary .not _ => .negation
  | .binary op _ _ => opLevel op
  | .count _ _ => .counting
  | _ => .atom

/-- The level that the place on the left of an operator asks for. -/
def leftLevel (op : BinaryOp) : Level :=
  if op.isComparison then .sum else opLevel op

/-- The level that the place on the right of an operator asks for. -/
def rightLevel (op : BinaryOp) : Level :=
  (opLevel op).tighter?.getD .atom

theorem leftPrecedence_eq (op : BinaryOp) : leftPrecedence op = (leftLevel op).rank + 1 := by
  cases op <;> rfl

theorem precedence_eq (op : BinaryOp) : op.precedence = (rightLevel op).rank := by
  cases op <;> rfl

theorem derives_binary {op : BinaryOp} {l r : Expr} {ts us : List Token}
    (hl : Derives (.expr (leftLevel op) l) ts) (hr : Derives (.expr (rightLevel op) r) us) :
    Derives (.expr (opLevel op) (.binary op l r)) (ts ++ (op.tokens ++ us)) := by
  cases op with
  | eq | ne | lt | gt | le | ge | mem | notMem => exact .comparison (.compare rfl hl hr)
  | or | and | add | sub | mul | div | rem => exact .binary (by decide) rfl hl hr

/-- What binds as tightly as a level asks for is a phrase of the level, up to the minus sign. -/
theorem rank_le_rank_printLevel {level : Level} {e : Expr} (hlevel : level.rank ≤ Level.sign.rank)
    (h : level.rank + 1 ≤ e.precedence) : level.rank ≤ e.printLevel.rank := by
  have hsign : Level.sign.rank = 6 := rfl
  have hop : ∀ op : BinaryOp, op.precedence = (opLevel op).rank + 1 := by
    intro op
    cases op <;> rfl
  unfold printLevel
  split
  · split
    · exact hlevel
    · exact Nat.le_trans hlevel (by decide)
  · exact hlevel
  · exact Nat.le_of_succ_le_succ h
  · next op l r =>
    have hprec : (Expr.binary op l r).precedence = op.precedence := rfl
    rw [hprec, hop] at h
    exact Nat.le_of_succ_le_succ h
  · exact Nat.le_trans hlevel (by decide)
  · exact Nat.le_trans hlevel (by decide)

/-! ## Parts of printed expressions -/

theorem Spells.parens {level : Level} {e : Expr} {cs : List Char}
    (h : Spells (.expr .disjunction e) cs) : Spells (.expr level e) ('(' :: (cs ++ [')'])) := by
  obtain ⟨ts, hlexes, hderives⟩ := h
  have hatom : Spells (.expr .atom e) ('(' :: (cs ++ [')'])) :=
    ⟨_, hlexes.parens, .parens hderives⟩
  exact hatom.loosen level.rank_le_atom

/-- An operand, in parentheses if its level is too loose for its place. -/
theorem Spells.enclose {level tight : Level} {e : Expr} {cs : List Char} {needed : Bool}
    (h : Spells (.expr tight e) cs) (hneeded : needed = false → level.rank ≤ tight.rank) :
    Spells (.expr level e) (enclose needed cs) := by
  cases needed with
  | false => exact h.loosen (hneeded rfl)
  | true => exact (h.loosen (Nat.zero_le _)).parens

/-- An operand in a place that asks for a sign at most. -/
theorem Spells.operand {e : Expr} (h : Spells (.expr e.printLevel e) e.chars) (level : Level)
    (hlevel : level.rank ≤ Level.sign.rank) :
    Spells (.expr level e) (Expr.enclose (e.precedence < level.rank + 1) e.chars) := by
  refine h.enclose fun hneeded => rank_le_rank_printLevel hlevel ?_
  exact Nat.le_of_not_lt (of_decide_eq_false hneeded)

theorem spells_binary {op : BinaryOp} {l r : Expr} {ls rs : List Char}
    (hl : Spells (.expr (leftLevel op) l) ls) (hr : Spells (.expr (rightLevel op) r) rs) :
    Spells (.expr (opLevel op) (.binary op l r)) (ls ++ ' ' :: (op.symbol.toList ++ ' ' :: rs)) := by
  obtain ⟨ts, hlts, hderives⟩ := hl
  obtain ⟨us, hrus, hderives'⟩ := hr
  have hspace : Text.isWhiteSpace ' ' = true := by decide
  have hright : Lexes (op.symbol.toList ++ ' ' :: rs) (op.tokens ++ us) :=
    (Token.lexes_op op).append (Token.breaks_cons_of_white hspace rs) (.white hspace hrus)
  exact ⟨_, hlts.append (Token.breaks_cons_of_white hspace _) (.white hspace hright),
    derives_binary hderives hderives'⟩

/-- The digits of an integer, which is not negative, are read as the integer. -/
theorem lexes_natAbs {n : Int64} (h : 0 ≤ n.toInt) : Lexes (Nat.toDigits 10 n.toInt.natAbs) [.int n] := by
  have hle := Int64.toInt_le n
  have hn : Int64.ofNat n.toInt.natAbs = n := by
    rw [← Int64.toInt_inj, Token.toInt_ofNat_of_le (by omega)]
    omega
  have hlexes := Token.lexes_digits (n := n.toInt.natAbs) (by omega)
  rwa [hn] at hlexes

theorem spells_digits {n : Int64} (h : 0 ≤ n.toInt) :
    Spells (.expr .atom (.int n)) (Nat.toDigits 10 n.toInt.natAbs) :=
  ⟨_, lexes_natAbs h, .int n⟩

theorem spells_minus {e : Expr} {cs : List Char} (h : Spells (.expr .sign e) cs) :
    Spells (.expr .sign (negated e)) ('-' :: cs) := by
  obtain ⟨ts, hlexes, hderives⟩ := h
  exact ⟨_, .lone ⟨rfl, by decide⟩ hlexes, derives_negated hderives⟩

/-- An integer is printed with its sign, and the sign is read back into it. -/
theorem spells_int {n : Int64} (h : Int64.minValue.toInt < n.toInt) :
    Spells (.expr (printLevel (.int n)) (.int n)) (Text.decimal n.toInt) := by
  by_cases hneg : n.toInt < 0
  · have hlevel : printLevel (.int n) = .sign := if_pos hneg
    have habs : (-n).toInt.natAbs = n.toInt.natAbs := by rw [toInt_neg_of_minValue_lt h, Int.natAbs_neg]
    have hdigits := spells_digits (n := -n) (by rw [toInt_neg_of_minValue_lt h]; omega)
    have hsign : Spells (.expr .sign (.int (-n))) (Nat.toDigits 10 (-n).toInt.natAbs) :=
      hdigits.loosen (by decide)
    have hminus := spells_minus hsign
    rw [hlevel, Text.decimal, if_pos hneg]
    rw [habs] at hminus
    have hnegated : negated (.int (-n)) = .int n := by
      show int (- -n) = int n
      rw [Int64.neg_neg]
    rwa [hnegated] at hminus
  · have hlevel : printLevel (.int n) = .atom := if_neg hneg
    rw [hlevel, Text.decimal, if_neg hneg]
    exact spells_digits (by omega)

theorem commaSeparated_cons_cons (s t : List Char) (texts : List (List Char)) :
    commaSeparated (s :: t :: texts) = s ++ ',' :: ' ' :: commaSeparated (t :: texts) := by
  simp [commaSeparated, List.intercalate_cons_cons]

/-- Items with commas between them are read as the items. -/
theorem spells_items {es : List Expr} (h : ∀ e ∈ es, Spells (.expr .disjunction e) e.chars) :
    Spells (.items es) (commaSeparated (charsAll es)) := by
  induction es with
  | nil => exact ⟨[], .nil, .noItems⟩
  | cons e es ih =>
      obtain ⟨ts, hlexes, hderives⟩ := h e List.mem_cons_self
      obtain ⟨us, hlexes', hderives'⟩ := ih fun e' he' => h e' (List.mem_cons_of_mem e he')
      cases es with
      | nil =>
          refine ⟨ts, ?_, .lastItem hderives⟩
          rw [charsAll, charsAll, Text.commaSeparated_singleton]
          exact hlexes
      | cons e' es =>
          refine ⟨ts ++ .symbol .comma :: us, ?_, .moreItems hderives hderives'⟩
          have hcomma : IsLone ',' .comma := ⟨rfl, by decide⟩
          rw [charsAll, charsAll, commaSeparated_cons_cons]
          exact hlexes.append (hcomma.breaks _) (.lone hcomma (.white (by decide) hlexes'))

/-! ## Whole expressions -/

/-- The printed form shows the expression as it can be read back: quoted texts without code points, and no minus sign
before the list of a count. -/
def PrintsPlainly : Expr → Prop
  | .literal (.str s) => ∀ c ∈ s.toList, Token.IsReadable c
  | .count xs _ => ∀ n, xs = .int n → 0 ≤ n.toInt
  | _ => True

/-- Without a minus sign, what binds as tightly as an atom may be the list of a count. -/
theorem rank_counting_le {xs item : Expr} (hplain : PrintsPlainly (.count xs item))
    (h : ¬ xs.precedence < atomPrecedence) : Level.counting.rank ≤ xs.printLevel.rank := by
  cases xs with
  | literal v =>
      cases v with
      | int n =>
          have hn : ¬ n.toInt < 0 := Int.not_lt.mpr (hplain n rfl)
          have hlevel : printLevel (.literal (.int n)) = .atom := if_neg hn
          rw [hlevel]
          decide
      | str s | bool b | list items => exact Level.rank_le_atom .counting
  | unary op e =>
      refine absurd ?_ h
      cases op <;> simp [precedence, negPrecedence, notPrecedence, atomPrecedence]
  | binary op l r =>
      refine absurd ?_ h
      cases op <;> simp [precedence, BinaryOp.precedence, atomPrecedence]
  | ident | slot | list | call => exact Level.rank_le_atom .counting
  | count => exact Nat.le_refl _

theorem spells_call {function : String} {args : List Expr} (hname : Token.IsName function)
    (hargs : ∀ e ∈ args, Spells (.expr .disjunction e) e.chars) :
    Spells (.expr .atom (.call function args)) (chars (.call function args)) := by
  obtain ⟨ts, hlexes, hderives⟩ := spells_items hargs
  have hbreaks := Token.isLone_openParen.breaks (commaSeparated (charsAll args) ++ [')'])
  rw [chars]
  exact ⟨_, (Token.lexes_name hname).append hbreaks hlexes.parens, .call function hderives⟩

theorem spells_count {xs item : Expr} (hplain : PrintsPlainly (.count xs item))
    (hxs : Spells (.expr xs.printLevel xs) xs.chars)
    (hitem : Spells (.expr .disjunction item) item.chars) :
    Spells (.expr .counting (.count xs item)) (chars (.count xs item)) := by
  obtain ⟨ts, hlexes, hderives⟩ : Spells (.expr .counting xs) (enclose (xs.precedence < atomPrecedence) xs.chars) :=
    hxs.enclose fun hneeded => rank_counting_le hplain (of_decide_eq_false hneeded)
  obtain ⟨us, hlexes', hderives'⟩ := hitem
  have hname : Token.IsName "count" := ⟨Token.isWord_of_all rfl (by decide) (by decide), by decide⟩
  have hbreaks := Token.isLone_openParen.breaks (item.chars ++ [')'])
  have hcount := (Token.lexes_name hname).append hbreaks hlexes'.parens
  have hdot : IsLone '.' .dot := ⟨rfl, by decide⟩
  rw [chars]
  exact ⟨_, hlexes.append (hdot.breaks _) (.lone hdot hcount), .count hderives hderives'⟩

/-- The printed form of an expression spells the expression. -/
theorem spells_chars {e : Expr} (h : e.Everywhere AsParsed) (h' : e.Everywhere PrintsPlainly) :
    Spells (.expr e.printLevel e) e.chars := by
  induction h with
  | @literal v hv =>
      cases h' with
      | literal hv' =>
          cases v with
          | int n => exact spells_int hv
          | str s => exact ⟨_, Token.lexes_quoted hv', .str s⟩
          | bool b =>
              cases b with
              | true => exact ⟨_, Token.lexes_keyword .trueValue, .trueValue⟩
              | false => exact ⟨_, Token.lexes_keyword .falseValue, .falseValue⟩
          | list items => exact hv.elim
  | @ident name hname => exact ⟨_, Token.lexes_name hname, .ident name⟩
  | slot hslot => exact hslot.elim
  | list _ _ ih =>
      cases h' with
      | list _ hitems' =>
          obtain ⟨ts, hlexes, hderives⟩ := spells_items fun e he =>
            (ih e he (hitems' e he)).loosen (Nat.zero_le _)
          exact ⟨_, hlexes.between ⟨rfl, by decide⟩ ⟨rfl, by decide⟩, .list hderives⟩
  | @unary op e hop _ ih =>
      cases h' with
      | unary _ he' =>
          cases op with
          | neg =>
              have hoperand := (ih he').operand .sign (by decide)
              have hminus := spells_minus hoperand
              rwa [negated_of_ne hop] at hminus
          | not =>
              obtain ⟨ts, hlexes, hderives⟩ := (ih he').operand .negation (by decide)
              have hspace : Text.isWhiteSpace ' ' = true := by decide
              have hnot := (Token.lexes_keyword .not).append (Token.breaks_cons_of_white hspace _)
                (.white hspace hlexes)
              exact ⟨_, hnot, .not hderives⟩
  | @binary op l r _ _ _ ihl ihr =>
      cases h' with
      | binary _ hl' hr' =>
          have hl := (ihl hl').operand (leftLevel op) (by cases op <;> decide)
          have hr := (ihr hr').operand (rightLevel op) (by cases op <;> decide)
          rw [← leftPrecedence_eq] at hl
          rw [← precedence_eq] at hr
          exact spells_binary hl hr
  | call hname _ ih =>
      cases h' with
      | call _ hargs' =>
          exact spells_call hname fun e he => (ih e he (hargs' e he)).loosen (Nat.zero_le _)
  | count _ _ _ ihxs ihitem =>
      cases h' with
      | count hplain hxs' hitem' =>
          exact spells_count hplain (ihxs hxs') ((ihitem hitem').loosen (Nat.zero_le _))

/-- Printing and parsing gives the expression back if its parts are such as the parser makes and are printed plainly,
and the parser makes no others. -/
theorem parse_text :
    (∀ e : Expr, e.Everywhere AsParsed → e.Everywhere PrintsPlainly → parse e.text = .ok e) ∧
      ∀ (s : String) (e : Expr), parse s = .ok e → e.Everywhere AsParsed := by
  constructor
  · intro e h h'
    have hspells : Spells (.expr .disjunction e) e.chars := (spells_chars h h').loosen (Nat.zero_le _)
    refine parse_eq_ok_iff.mpr ?_
    rwa [text, String.toList_ofList]
  · intro s e
    exact asParsed_of_parse

/-- A difference that needs its parentheses, a negative integer that needs none, and a count. -/
theorem parse_text_product :
    parse "(A - -1) * [B].count(2)"
        = .ok (.binary .mul (.binary .sub (.ident "A") (.int (-1)))
            (.count (.list [.ident "B"]) (.int 2))) ∧
      (Expr.binary .mul (.binary .sub (.ident "A") (.int (-1)))
        (.count (.list [.ident "B"]) (.int 2))).Everywhere AsParsed := by
  have ha : Token.IsName "A" := ⟨Token.isWord_of_all rfl (by decide) (by decide), by decide⟩
  have hb : Token.IsName "B" := ⟨Token.isWord_of_all rfl (by decide) (by decide), by decide⟩
  have hparsed : (Expr.binary .mul (.binary .sub (.ident "A") (.int (-1)))
      (.count (.list [.ident "B"]) (.int 2))).Everywhere AsParsed := by
    refine .binary trivial (.binary trivial (.ident ha) (everywhere_int (by decide))) ?_
    refine .count trivial (.list trivial ?_) (everywhere_int (by decide))
    intro e he
    rw [List.mem_singleton.mp he]
    exact .ident hb
  have hplain : (Expr.binary .mul (.binary .sub (.ident "A") (.int (-1)))
      (.count (.list [.ident "B"]) (.int 2))).Everywhere PrintsPlainly := by
    refine .binary trivial (.binary trivial (.ident trivial) (.literal trivial)) ?_
    refine .count (fun n h => by cases h) (.list trivial ?_) (.literal trivial)
    intro e he
    rw [List.mem_singleton.mp he]
    exact .ident trivial
  have hprint := parse_text.1 _ hparsed hplain
  exact ⟨hprint, parse_text.2 _ _ hprint⟩

end FiniteDomain.Expr
