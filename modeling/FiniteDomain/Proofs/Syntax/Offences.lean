import FiniteDomain.Proofs.Syntax.Lookahead
import FiniteDomain.Proofs.Syntax.ParserComplete

/-!
# Where a list of tokens goes wrong

Every level of the parser looks no further than at what comes next (`exprWithin_local`): the loops, the brackets and
the prefix operators are put together from readers that look no further. So what the parser answers at an offending
token other than `not`, it answers whatever comes after the token.
-/

namespace FiniteDomain.Expr

variable {operand self : Reader Expr} {operand' self' : Nat → Reader Expr} {op? : Token → Option BinaryOp}
  {k n : Nat} {ts : List Located}

/-! ## Loops -/

/-- Further operands of one level look no further than the operands. -/
theorem chainFrom_localAt (hoperand : Local k operand operand') {left : Expr} (hn : ts.length ≤ n)
    (hk : ts.length ≤ k) :
    LocalAt (chainFrom operand op? n left) (fun k n => chainFrom (operand' k) op? n left) ts := by
  induction n generalizing left ts with
  | zero =>
      obtain rfl : ts = [] := List.length_eq_zero_iff.mp (Nat.le_zero.mp hn)
      refine localAt_stop rfl fun _ m rest' halike => ?_
      rw [halike.eq_nil]
      cases m <;> rfl
  | succ n ih =>
      cases ts with
      | nil =>
          refine localAt_stop rfl fun _ m rest' halike => ?_
          rw [halike.eq_nil]
          cases m <;> rfl
      | cons t ts =>
          cases hop : op? t.token with
          | none =>
              refine localAt_stop (by rw [chainFrom, hop]) fun _ m rest' halike => ?_
              obtain ⟨us, rfl⟩ := halike.eq_cons
              cases m with
              | zero => rfl
              | succ m => rw [chainFrom, hop]
          | some op =>
              refine .cons (r := operand.andThen fun right => chainFrom operand op? n (.binary op left right))
                (w := fun j m => (operand' (j + 1)).andThen fun right =>
                  chainFrom (operand' (j + 1)) op? m (.binary op left right)) ?_ ?_ ?_
              · rw [chainFrom, hop]
                rfl
              · intro j m ts'
                rw [chainFrom, hop]
                rfl
              · refine ((hoperand ts (Nat.le_of_succ_le hk)).andThen (g := fun right j m =>
                  chainFrom (operand' j) op? m (.binary op left right)) fun right rest hrest => ?_).shift
                simp only [List.length_cons] at hn hk
                exact ih (by omega) (by omega)

/-- Operands of one level look no further than one operand. -/
theorem chain_local (hoperand : Local k operand operand') :
    Local k (chain operand op?) (fun k => chain (operand' k) op?) := by
  intro ts hk
  refine LocalAt.andThen (f := fun first rest => chainFrom operand op? rest.length first rest)
    (g := fun first j _ rest => chainFrom (operand' j) op? rest.length first rest) (hoperand ts hk) ?_
  intro first rest hrest
  exact (chainFrom_localAt hoperand (Nat.le_refl _) (Nat.le_trans hrest hk)).own

/-- Further comparisons look no further than the operands and the operators before them. -/
theorem comparisonsFrom_localAt (hoperand : Local k operand operand') {before : Option Expr} {left : Expr}
    (hn : ts.length ≤ n) (hk : ts.length ≤ k) :
    LocalAt (comparisonsFrom operand n before left) (fun k n => comparisonsFrom (operand' k) n before left) ts := by
  induction n generalizing before left ts with
  | zero =>
      obtain rfl : ts = [] := List.length_eq_zero_iff.mp (Nat.le_zero.mp hn)
      refine localAt_stop rfl fun _ m rest' halike => ?_
      rw [halike.eq_nil]
      cases m <;> rfl
  | succ n ih =>
      cases hat : comparisonAt? ts with
      | none =>
          refine localAt_stop (by rw [comparisonsFrom, hat]) fun _ m rest' halike => ?_
          cases m with
          | zero => rfl
          | succ m => rw [comparisonsFrom, halike.comparisonAt?_eq_none hat]
      | some found =>
          obtain ⟨op, after⟩ := found
          obtain ⟨hop, lops, rfl, hlops⟩ := of_comparisonAt? hat
          have hne : lops ≠ [] := by
            obtain ⟨t, more, rfl, -⟩ := joins?_of_op hlops
            exact List.cons_ne_nil t more
          have hpos : 0 < lops.length := List.length_pos_iff.mpr hne
          rw [List.length_append] at hn hk
          refine .append hne (r := operand.andThen fun right =>
              comparisonsFrom operand n (some (joinComparison before (.binary op left right))) right)
            (w := fun j m => (operand' (j + 1)).andThen fun right => comparisonsFrom (operand' (j + 1)) m
              (some (joinComparison before (.binary op left right))) right) ?_ ?_ ?_
          · rw [comparisonsFrom, hat]
            rfl
          · intro j m ts'
            rw [comparisonsFrom, comparisonAt?_of_op hop hlops]
            rfl
          · refine ((hoperand after (by omega)).andThen (g := fun right j m => comparisonsFrom (operand' j) m
              (some (joinComparison before (.binary op left right))) right) fun right rest hrest => ?_).shift
            exact ih (by omega) (by omega)

/-! ## Brackets -/

/-- What follows an item between brackets. -/
def itemsAfter (self : Reader Expr) (close : Token) (n : Nat) (item : Expr) : Reader (List Expr)
  | [] => .error .unexpectedEnd
  | u :: us =>
      if u.token = .symbol .comma then
        ((itemsUpTo self close n).andThen fun items rest => .ok (item :: items, rest)) us
      else if u.token = close then .ok ([item], us)
      else .error u.unexpected

/-- An item is followed by a comma and more items, or by the closing bracket. -/
theorem itemsUpTo_eq_andThen {close : Token} {t : Located} (h : t.token ≠ close) (n : Nat) (ts : List Located) :
    itemsUpTo self close (n + 1) (t :: ts) = self.andThen (itemsAfter self close n) (t :: ts) := by
  rw [itemsUpTo, if_neg h, Reader.andThen]
  cases self (t :: ts) with
  | error e => rfl
  | ok found =>
      obtain ⟨item, rest⟩ := found
      cases rest <;> rfl

/-- Items between brackets look no further than the items. -/
theorem itemsUpTo_localAt (hself : Local k self self') {close : Token} (hn : ts.length ≤ n)
    (hk : ts.length ≤ k) :
    LocalAt (itemsUpTo self close n) (fun k n => itemsUpTo (self' k) close n) ts := by
  induction n generalizing ts with
  | zero => exact localAt_end rfl
  | succ n ih =>
      cases ts with
      | nil => exact localAt_end rfl
      | cons t ts =>
          by_cases hclose : t.token = close
          · exact localAt_take (by rw [itemsUpTo, if_pos hclose]) fun j m ts' => by rw [itemsUpTo, if_pos hclose]
          · refine .congr_cons (itemsUpTo_eq_andThen hclose n ts) (fun _ m => itemsUpTo_eq_andThen hclose m)
              (w := fun j m => (self' j).andThen (itemsAfter (self' j) close (m - 1))) ?_
            refine (hself _ hk).andThen (g := fun item j m => itemsAfter (self' j) close (m - 1) item)
              fun item rest hrest => ?_
            cases rest with
            | nil => exact localAt_end rfl
            | cons u us =>
                simp only [List.length_cons] at hn hk hrest
                by_cases hcomma : u.token = .symbol .comma
                · refine .cons (if_pos hcomma) (fun _ _ _ => if_pos hcomma) ?_
                  exact ((ih (by omega) (by omega)).map (item :: ·)).shift
                · by_cases hend : u.token = close
                  · refine localAt_take (a := [item]) ?_ ?_
                    · rw [itemsAfter, if_neg hcomma, if_pos hend]
                    · exact fun _ _ us' => by rw [itemsAfter, if_neg hcomma, if_pos hend]
                  · refine localAt_unexpected ?_ ?_
                    · rw [itemsAfter, if_neg hcomma, if_neg hend]
                    · exact fun _ _ us' => by rw [itemsAfter, if_neg hcomma, if_neg hend]

/-- The items after an opening bracket look no further than the items. -/
theorem itemsThen_local (hself : Local k self self') (close : Token) :
    Local k (itemsThen self close) (fun k => itemsThen (self' k) close) :=
  fun _ hk => (itemsUpTo_localAt hself (Nat.le_refl _) hk).own

/-! ## Atoms and what is counted in them -/

/-- An opening parenthesis makes a call of a name. -/
theorem nameOrCall_openParen {t : Located} (h : t.token = .symbol .openParen) (name : String) (ts : List Located) :
    nameOrCall self name (t :: ts)
      = (itemsThen self (.symbol .closeParen)).andThen (fun args rest => .ok (.call name args, rest)) ts :=
  if_pos h

/-- A name and a call look no further than the arguments of the call. -/
theorem nameOrCall_local (hself : Local k self self') (name : String) :
    Local k (nameOrCall self name) (fun k => nameOrCall (self' k) name) := by
  intro ts hk
  cases ts with
  | nil =>
      refine localAt_stop rfl fun _ _ rest' halike => ?_
      rw [halike.eq_nil]
      rfl
  | cons t ts =>
      by_cases hopen : t.token = .symbol .openParen
      · refine .cons (nameOrCall_openParen hopen name ts) (fun _ _ => nameOrCall_openParen hopen name) ?_
        exact ((itemsThen_local hself _ ts (Nat.le_of_succ_le hk)).map _).shift
      · refine localAt_stop (if_neg hopen) fun _ _ rest' halike => ?_
        obtain ⟨us, rfl⟩ := halike.eq_cons
        exact if_neg hopen

/-- A list is its items up to the closing bracket. -/
theorem atom_openBracket {t : Located} (h : t.token = .symbol .openBracket) (ts : List Located) :
    atom self (t :: ts)
      = (itemsThen self (.symbol .closeBracket)).andThen (fun items rest => .ok (.list items, rest)) ts := by
  simp only [atom, h]
  rfl

/-- Parentheses hold a whole expression. -/
theorem atom_openParen {t : Located} (h : t.token = .symbol .openParen) (ts : List Located) :
    atom self (t :: ts) = self.andThen (fun e =>
      (Token.symbol .closeParen).taken.andThen fun _ rest => .ok (e, rest)) ts := by
  simp only [atom, h]
  refine bind_congr fun found => ?_
  obtain ⟨e, rest⟩ := found
  exact (Token.taken_andThen _ (fun _ rest => .ok (e, rest)) rest).symm

/-- An atom looks no further than what stands in its brackets. -/
theorem atom_local (hself : Local k self self') : Local (k + 1) (atom self) (fun k => atom (self' (k - 1))) := by
  intro ts hk
  cases ts with
  | nil => exact localAt_end rfl
  | cons t ts =>
      have hts : ts.length ≤ k := Nat.le_of_succ_le_succ hk
      cases htoken : t.token with
      | int n => refine localAt_take (a := .int n) ?_ ?_ <;> simp only [atom, htoken, implies_true]
      | str s => refine localAt_take (a := .literal (.str s)) ?_ ?_ <;> simp only [atom, htoken, implies_true]
      | ident name =>
          refine .cons (r := nameOrCall self name) (w := fun j _ => nameOrCall (self' j) name) ?_ ?_ ?_
          · simp only [atom, htoken]
          · intro _ _ ts'
            simp only [atom, htoken]
            rfl
          · exact nameOrCall_local hself name ts hts
      | keyword w =>
          cases w with
          | trueValue =>
              refine localAt_take (a := .literal (.bool true)) ?_ ?_ <;> simp only [atom, htoken, implies_true]
          | falseValue =>
              refine localAt_take (a := .literal (.bool false)) ?_ ?_ <;> simp only [atom, htoken, implies_true]
          | and | or | not | mem => refine localAt_unexpected ?_ ?_ <;> simp only [atom, htoken, implies_true]
      | symbol s =>
          cases s with
          | openBracket =>
              refine .cons (atom_openBracket htoken ts) (fun _ _ => atom_openBracket htoken) ?_
              exact ((itemsThen_local hself _) ts hts).map _
          | openParen =>
              refine .cons (atom_openParen htoken ts) (fun _ _ => atom_openParen htoken) ?_
              exact (hself ts hts).andThen fun e rest _ => (taken_localAt _ rest).map fun _ => e
          | plus | minus | star | slash | percent | eqEq | notEq | lt | gt | le | ge | closeParen
          | closeBracket | comma | dot =>
              refine localAt_unexpected ?_ ?_ <;> simp only [atom, htoken, implies_true]

/-- A counting call is a name, an expression in parentheses, and further calls. -/
theorem countsFrom_dot {t : Located} (h : t.token = .symbol .dot) (n : Nat) (e : Expr) (ts : List Located) :
    countsFrom self (n + 1) e (t :: ts) = (Token.ident "count").taken.andThen (fun _ =>
      (Token.symbol .openParen).taken.andThen fun _ => self.andThen fun item =>
        (Token.symbol .closeParen).taken.andThen fun _ => countsFrom self n (.count e item)) ts := by
  rw [countsFrom, if_pos h, Token.taken_andThen]
  refine bind_congr fun rest => ?_
  rw [Token.taken_andThen]
  refine bind_congr fun rest => ?_
  refine bind_congr fun found => ?_
  obtain ⟨item, rest⟩ := found
  exact (Token.taken_andThen _ (fun _ => countsFrom self n (.count e item)) rest).symm

/-- Counting calls look no further than what is counted. -/
theorem countsFrom_localAt (hself : Local k self self') {e : Expr} (hn : ts.length ≤ n)
    (hk : ts.length ≤ k + 1) :
    LocalAt (countsFrom self n e) (fun k n => countsFrom (self' (k - 1)) n e) ts := by
  induction n generalizing e ts with
  | zero =>
      obtain rfl : ts = [] := List.length_eq_zero_iff.mp (Nat.le_zero.mp hn)
      refine localAt_stop rfl fun _ m rest' halike => ?_
      rw [halike.eq_nil]
      cases m <;> rfl
  | succ n ih =>
      cases ts with
      | nil =>
          refine localAt_stop rfl fun _ m rest' halike => ?_
          rw [halike.eq_nil]
          cases m <;> rfl
      | cons t ts =>
          by_cases hdot : t.token = .symbol .dot
          · simp only [List.length_cons] at hn hk
            refine .cons (countsFrom_dot hdot n e ts) (fun _ m => countsFrom_dot hdot m e) ?_
            refine (taken_localAt _ ts).andThen (g := fun _ _ _ => _) fun _ ts₁ h₁ => ?_
            refine (taken_localAt _ ts₁).andThen (g := fun _ _ _ => _) fun _ ts₂ h₂ => ?_
            refine (hself ts₂ (by omega)).andThen (g := fun _ _ _ => _) fun item ts₃ h₃ => ?_
            refine (taken_localAt _ ts₃).andThen (g := fun _ _ _ => _) fun _ ts₄ h₄ => ?_
            exact (ih (by omega) (by omega)).shift
          · refine localAt_stop (by rw [countsFrom, if_neg hdot]) fun _ m rest' halike => ?_
            obtain ⟨us, rfl⟩ := halike.eq_cons
            cases m with
            | zero => rfl
            | succ m => rw [countsFrom, if_neg hdot]

/-! ## Levels -/

theorem counting_local (hself : Local k self self') :
    Local (k + 1) (counting self) (fun k => counting (self' (k - 1))) := by
  intro ts hk
  refine LocalAt.andThen (f := fun e rest => countsFrom self rest.length e rest)
    (g := fun e j _ rest => countsFrom (self' (j - 1)) rest.length e rest) (atom_local hself ts hk) ?_
  intro e rest hrest
  exact (countsFrom_localAt hself (Nat.le_refl _) (Nat.le_trans hrest hk)).own

/-- A prefix operator looks no further than what it stands before. -/
theorem prefixed_local {token : Token} {f : Expr → Expr} {inner p : Reader Expr} {inner' p' : Nat → Reader Expr}
    (hinner : Local k inner inner') (hnil : p [] = .error .unexpectedEnd)
    (hcons : ∀ t ts, p (t :: ts) = if t.token = token then p.andThen (fun e rest => .ok (f e, rest)) ts
      else inner (t :: ts))
    (hcons' : ∀ k t ts, p' k (t :: ts) = if t.token = token then (p' k).andThen (fun e rest => .ok (f e, rest)) ts
      else inner' k (t :: ts)) : Local k p p' := by
  intro ts hk
  induction ts with
  | nil => exact localAt_end hnil
  | cons t ts ih =>
      by_cases htoken : t.token = token
      · refine .cons ((hcons t ts).trans (if_pos htoken))
          (fun j _ ts' => (hcons' (j + 1) t ts').trans (if_pos htoken)) ?_
        exact ((ih (Nat.le_of_succ_le hk)).map f).shift
      · exact .congr_cons ((hcons t ts).trans (if_neg htoken))
          (fun j _ ts' => (hcons' (j + 1) t ts').trans (if_neg htoken)) (hinner _ hk)

theorem sign_local (hself : Local k self self') : Local (k + 1) (sign self) (fun k => sign (self' (k - 1))) :=
  prefixed_local (f := negated) (counting_local hself) rfl (fun _ _ => rfl) fun _ _ _ => rfl

theorem sum_local (hself : Local k self self') : Local (k + 1) (sum self) (fun k => sum (self' (k - 1))) :=
  chain_local (chain_local (sign_local hself))

theorem comparison_local (hself : Local k self self') :
    Local (k + 1) (comparison self) (fun k => comparison (self' (k - 1))) := by
  intro ts hk
  refine LocalAt.andThen (f := fun first rest => comparisonsFrom (sum self) rest.length none first rest)
    (g := fun first j _ rest => comparisonsFrom (sum (self' (j - 1))) rest.length none first rest)
    (sum_local hself ts hk) ?_
  intro first rest hrest
  exact (comparisonsFrom_localAt (sum_local hself) (Nat.le_refl _) (Nat.le_trans hrest hk)).own

theorem disjunction_local (hself : Local k self self') :
    Local (k + 1) (disjunction self) (fun k => disjunction (self' (k - 1))) := by
  have hnegation : Local (k + 1) (negation self) (fun k => negation (self' (k - 1))) :=
    prefixed_local (f := .unary .not) (comparison_local hself) rfl (fun _ _ => rfl) fun _ _ _ => rfl
  exact chain_local (chain_local hnegation)

/-- Whole expressions look no further than at what comes next, whatever the bounds are that are good for them. -/
theorem exprWithin_local (k : Nat) : Local k (exprWithin k) exprWithin := by
  induction k with
  | zero => exact fun _ _ => localAt_end rfl
  | succ k ih =>
      intro ts hk
      refine (disjunction_local ih ts hk).congr fun j n us hj _ => ⟨j, Nat.le_refl j, ?_⟩
      cases j with
      | succ j => rfl
      | zero =>
          obtain rfl : us = [] := List.length_eq_zero_iff.mp (Nat.le_zero.mp hj)
          rfl

/-! ## Offending tokens -/

/-- The parser fails at the end of the tokens, or at a token; and at a token other than `not` it fails whatever comes
after the token. -/
theorem of_ofTokens_eq_error {e : ParseError} (h : ofTokens ts = .error e) :
    e = .unexpectedEnd ∨ ∃ front t back, ts = front ++ t :: back ∧ e = t.unexpected ∧
      (t.token ≠ .keyword .not → ∀ back', ofTokens (front ++ t :: back') = .error t.unexpected) := by
  have hlocal := exprWithin_local ts.length ts (Nat.le_refl _)
  unfold LocalAt at hlocal
  unfold ofTokens at h
  split at hlocal
  · next x rest hrun =>
    obtain ⟨used, hts, hsame⟩ := hlocal
    rw [hrun] at h
    cases rest with
    | nil => cases h
    | cons t back =>
        cases h
        refine .inr ⟨used, t, back, hts, rfl, fun hnot back' => ?_⟩
        have hrun' : exprWithin (used ++ t :: back').length (used ++ t :: back') = .ok (x, t :: back') :=
          hsame _ _ _ (alike_cons_of_ne_not hnot back back') (Nat.le_refl _) (Nat.le_refl _)
        rw [ofTokens, hrun']
        rfl
  · next e' hrun =>
    rw [hrun] at h
    cases h
    obtain hend | ⟨front, t, back, hts, he, hsame⟩ := hlocal
    · exact .inl hend
    · refine .inr ⟨front, t, back, hts, he, fun hnot back' => ?_⟩
      have hrun' : exprWithin (front ++ t :: back').length (front ++ t :: back') = .error t.unexpected :=
        hsame hnot back' _ _ (Nat.le_refl _) (Nat.le_refl _)
      rw [ofTokens, hrun']
      rfl

end FiniteDomain.Expr
