import FiniteDomain.Expr.Parser
import FiniteDomain.Proofs.Syntax.Grammar

/-!
# What the parser accepts is derived

Whatever a level of the parser takes off the front of the tokens is a phrase of that level, and the expression that
it answers is the one that the phrase stands for (`exprWithin_sound`, `ofTokens_sound`).
-/

namespace FiniteDomain.Expr

theorem of_bind_eq_ok {α β ε : Type} {x : Except ε α} {f : α → Except ε β} {b : β}
    (h : (x >>= f) = .ok b) : ∃ a, x = .ok a ∧ f a = .ok b := by
  cases x with
  | error e => cases h
  | ok a => exact ⟨a, rfl, h⟩

theorem of_bind_eq_error {α β ε : Type} {x : Except ε α} {f : α → Except ε β} {e : ε}
    (h : (x >>= f) = .error e) : x = .error e ∨ ∃ a, x = .ok a ∧ f a = .error e := by
  cases x with
  | error e' =>
      cases h
      exact .inl rfl
  | ok a => exact .inr ⟨a, rfl, h⟩

/-- What the reader takes off the front are phrases of the level. -/
def Sound (p : Reader Expr) (level : Level) : Prop :=
  ∀ ts e rest, p ts = .ok (e, rest) →
    ∃ used, ts = used ++ rest ∧ Derives (.expr level e) (tokensOf used)

/-- The operators that `op?` knows are those of the level, each of one token. -/
def KnowsOps (op? : Token → Option BinaryOp) (level : Level) : Prop :=
  ∀ t op, op? t = some op ↔ op.tokens = [t] ∧ opLevel op = level

/-! ## Operators -/

theorem knowsOps_orOp? : KnowsOps orOp? .disjunction := by
  intro t op
  constructor
  · intro h
    unfold orOp? at h
    split at h <;> cases h
    exact ⟨rfl, rfl⟩
  · rintro ⟨htokens, hlevel⟩
    cases op <;> cases hlevel
    cases htokens
    rfl

theorem knowsOps_andOp? : KnowsOps andOp? .conjunction := by
  intro t op
  constructor
  · intro h
    unfold andOp? at h
    split at h <;> cases h
    exact ⟨rfl, rfl⟩
  · rintro ⟨htokens, hlevel⟩
    cases op <;> cases hlevel
    cases htokens
    rfl

theorem knowsOps_sumOp? : KnowsOps sumOp? .sum := by
  intro t op
  constructor
  · intro h
    unfold sumOp? at h
    split at h <;> cases h <;> exact ⟨rfl, rfl⟩
  · rintro ⟨htokens, hlevel⟩
    cases op <;> cases hlevel <;> cases htokens <;> rfl

theorem knowsOps_productOp? : KnowsOps productOp? .product := by
  intro t op
  constructor
  · intro h
    unfold productOp? at h
    split at h <;> cases h <;> exact ⟨rfl, rfl⟩
  · rintro ⟨htokens, hlevel⟩
    cases op <;> cases hlevel <;> cases htokens <;> rfl

/-- The comparison that is found at the front is a comparison, and its tokens are taken off. -/
theorem of_comparisonAt? {ts rest : List Located} {op : BinaryOp}
    (h : comparisonAt? ts = some (op, rest)) :
    opLevel op = .comparison ∧ ∃ used, ts = used ++ rest ∧ tokensOf used = op.tokens := by
  cases ts with
  | nil => cases h
  | cons t ts =>
      unfold comparisonAt? at h
      dsimp only at h
      split at h
      · next op' hop =>
        cases h
        have hknown : opLevel op = .comparison ∧ op.tokens = [t.token] := by
          unfold comparisonOp? at hop
          split at hop <;> cases hop <;> simp_all [opLevel, BinaryOp.tokens]
        exact ⟨hknown.1, [t], rfl, hknown.2.symm⟩
      · split at h
        · cases h
        · next u us =>
          split at h
          · next htokens =>
            cases h
            exact ⟨rfl, [t, u], rfl, by simp [htokens.1, htokens.2, BinaryOp.tokens]⟩
          · cases h

/-! ## Repetition -/

variable {operand self : Reader Expr} {op? : Token → Option BinaryOp} {level tight : Level}

/-- Further operands make a longer phrase of the level. -/
theorem chainFrom_sound (hop : KnowsOps op? level) (hlevel : level ≠ .comparison)
    (htight : level.tighter? = some tight) (hoperand : Sound operand tight)
    {n : Nat} {left e : Expr} {ts rest : List Located} {front : List Token}
    (hleft : Derives (.expr level left) front) (h : chainFrom operand op? n left ts = .ok (e, rest)) :
    ∃ used, ts = used ++ rest ∧ Derives (.expr level e) (front ++ tokensOf used) := by
  induction n generalizing left ts front with
  | zero =>
      cases h
      exact ⟨[], rfl, by simpa using hleft⟩
  | succ n ih =>
      cases ts with
      | nil =>
          cases h
          exact ⟨[], rfl, by simpa using hleft⟩
      | cons t ts =>
          rw [chainFrom] at h
          split at h
          · cases h
            exact ⟨[], rfl, by simpa using hleft⟩
          · next op hknown =>
            obtain ⟨⟨right, after⟩, hright, hmore⟩ := of_bind_eq_ok h
            obtain ⟨used, rfl, hderives⟩ := hoperand _ _ _ hright
            obtain ⟨htokens, rfl⟩ := (hop _ _).mp hknown
            obtain ⟨used', rfl, he⟩ := ih (.binary hlevel htight hleft hderives) hmore
            refine ⟨t :: (used ++ used'), by simp, ?_⟩
            simpa [htokens] using he

/-- Operands of one level make a phrase of the level. -/
theorem chain_sound (hop : KnowsOps op? level) (hlevel : level ≠ .comparison)
    (htight : level.tighter? = some tight) (hoperand : Sound operand tight) :
    Sound (chain operand op?) level := by
  intro ts e rest h
  obtain ⟨⟨first, after⟩, hfirst, hmore⟩ := of_bind_eq_ok h
  obtain ⟨used, rfl, hderives⟩ := hoperand _ _ _ hfirst
  obtain ⟨used', rfl, he⟩ :=
    chainFrom_sound hop hlevel htight hoperand (.tighter htight hderives) hmore
  exact ⟨used ++ used', by simp, by simpa using he⟩

/-- What is read before a further comparison: the first operand, or comparisons of which `left` is the last
operand. -/
def ComparedSoFar : Option Expr → Expr → List Token → Prop
  | none, left, front => Derives (.expr .sum left) front
  | some joined, left, front => Derives (.comparisons joined left) front

/-- Further comparisons make a longer phrase of comparisons. -/
theorem comparisonsFrom_sound (hoperand : Sound operand .sum) {n : Nat} {before : Option Expr}
    {left e : Expr} {ts rest : List Located} {front : List Token}
    (h : comparisonsFrom operand n before left ts = .ok (e, rest))
    (hleft : ComparedSoFar before left front) :
    ∃ used, ts = used ++ rest ∧ Derives (.expr .comparison e) (front ++ tokensOf used) := by
  have hstop : Derives (.expr .comparison (before.getD left)) front := by
    cases before with
    | none => exact .tighter rfl hleft
    | some joined => exact .comparison hleft
  induction n generalizing before left ts front with
  | zero =>
      cases h
      exact ⟨[], rfl, by simpa using hstop⟩
  | succ n ih =>
      rw [comparisonsFrom] at h
      split at h
      · cases h
        exact ⟨[], rfl, by simpa using hstop⟩
      · next op after hat =>
        obtain ⟨hop, usedOp, rfl, htokens⟩ := of_comparisonAt? hat
        obtain ⟨⟨right, after'⟩, hright, hmore⟩ := of_bind_eq_ok h
        obtain ⟨used, rfl, hderives⟩ := hoperand _ _ _ hright
        have hnext : Derives (.comparisons (joinComparison before (.binary op left right)) right)
            (front ++ (op.tokens ++ tokensOf used)) := by
          cases before with
          | none => exact .compare hop hleft hderives
          | some joined => exact .compareMore hop hleft hderives
        obtain ⟨used', rfl, he⟩ := ih hmore hnext (.comparison hnext)
        refine ⟨usedOp ++ (used ++ used'), by simp, ?_⟩
        simpa [htokens] using he

/-! ## Brackets -/

/-- Expressions between brackets are items, and the closing bracket is taken off after them. -/
theorem itemsUpTo_sound (hself : Sound self .disjunction) {close : Token} {n : Nat}
    {ts rest : List Located} {es : List Expr} (h : itemsUpTo self close n ts = .ok (es, rest)) :
    ∃ used t, ts = used ++ t :: rest ∧ t.token = close ∧ Derives (.items es) (tokensOf used) := by
  induction n generalizing ts es with
  | zero => cases h
  | succ n ih =>
      cases ts with
      | nil => cases h
      | cons t ts =>
          rw [itemsUpTo] at h
          split at h
          · next hclose =>
            cases h
            exact ⟨[], t, rfl, hclose, .noItems⟩
          · obtain ⟨⟨item, after⟩, hitem, hmore⟩ := of_bind_eq_ok h
            obtain ⟨used, hused, hderives⟩ := hself _ _ _ hitem
            rw [hused]
            dsimp only at hmore
            split at hmore
            · cases hmore
            · next u us =>
              split at hmore
              · next hcomma =>
                obtain ⟨⟨items, after'⟩, hitems, hdone⟩ := of_bind_eq_ok hmore
                cases hdone
                obtain ⟨used', t', rfl, hclose, hes⟩ := ih hitems
                refine ⟨used ++ u :: used', t', by simp, hclose, ?_⟩
                rw [tokensOf_append, tokensOf_cons, hcomma]
                exact .moreItems hderives hes
              · split at hmore
                · next hclose =>
                  cases hmore
                  exact ⟨used, u, rfl, hclose, .lastItem hderives⟩
                · cases hmore

/-- A literal, a name, a call, a list and an expression in parentheses are atoms. -/
theorem atom_sound (hself : Sound self .disjunction) : Sound (atom self) .atom := by
  intro ts e rest h
  cases ts with
  | nil => cases h
  | cons t ts =>
      cases htoken : t.token with
      | int n =>
          simp only [atom, htoken] at h
          cases h
          exact ⟨[t], rfl, by simpa [htoken] using Derives.int n⟩
      | str s =>
          simp only [atom, htoken] at h
          cases h
          exact ⟨[t], rfl, by simpa [htoken] using Derives.str s⟩
      | ident name =>
          simp only [atom, htoken] at h
          unfold nameOrCall at h
          split at h
          · cases h
            exact ⟨[t], rfl, by simpa [htoken] using Derives.ident name⟩
          · next u us =>
            split at h
            · next hopen =>
              obtain ⟨⟨args, after⟩, hargs, hdone⟩ := of_bind_eq_ok h
              cases hdone
              obtain ⟨used, v, rfl, hclose, hes⟩ := itemsUpTo_sound hself hargs
              refine ⟨t :: u :: (used ++ [v]), by simp, ?_⟩
              simpa [htoken, hopen, hclose] using Derives.call name hes
            · cases h
              exact ⟨[t], rfl, by simpa [htoken] using Derives.ident name⟩
      | keyword k =>
          cases k with
          | trueValue =>
              simp only [atom, htoken] at h
              cases h
              exact ⟨[t], rfl, by simpa [htoken] using Derives.trueValue⟩
          | falseValue =>
              simp only [atom, htoken] at h
              cases h
              exact ⟨[t], rfl, by simpa [htoken] using Derives.falseValue⟩
          | and | or | not | mem => simp [atom, htoken] at h
      | symbol s =>
          cases s with
          | openBracket =>
              simp only [atom, htoken] at h
              obtain ⟨⟨items, after⟩, hitems, hdone⟩ := of_bind_eq_ok h
              cases hdone
              obtain ⟨used, v, rfl, hclose, hes⟩ := itemsUpTo_sound hself hitems
              refine ⟨t :: (used ++ [v]), by simp, ?_⟩
              simpa [htoken, hclose] using Derives.list hes
          | openParen =>
              simp only [atom, htoken] at h
              obtain ⟨⟨inner, after⟩, hinner, hmore⟩ := of_bind_eq_ok h
              obtain ⟨after', hexpect, hdone⟩ := of_bind_eq_ok hmore
              cases hdone
              obtain ⟨used, rfl, hderives⟩ := hself _ _ _ hinner
              obtain ⟨v, hclose, rfl⟩ := Token.eq_cons_of_expect hexpect
              refine ⟨t :: (used ++ [v]), by simp, ?_⟩
              simpa [htoken, hclose] using Derives.parens hderives
          | plus | minus | star | slash | percent | eqEq | notEq | lt | gt | le | ge | closeParen
          | closeBracket | comma | dot => simp [atom, htoken] at h

/-- Further counting calls make a longer counting phrase. -/
theorem countsFrom_sound (hself : Sound self .disjunction) {n : Nat} {xs e : Expr}
    {ts rest : List Located} {front : List Token} (hxs : Derives (.expr .counting xs) front)
    (h : countsFrom self n xs ts = .ok (e, rest)) :
    ∃ used, ts = used ++ rest ∧ Derives (.expr .counting e) (front ++ tokensOf used) := by
  induction n generalizing xs ts front with
  | zero =>
      cases h
      exact ⟨[], rfl, by simpa using hxs⟩
  | succ n ih =>
      cases ts with
      | nil =>
          cases h
          exact ⟨[], rfl, by simpa using hxs⟩
      | cons t ts =>
          rw [countsFrom] at h
          split at h
          · next hdot =>
            obtain ⟨ts₁, hcount, h₁⟩ := of_bind_eq_ok h
            obtain ⟨ts₂, hopen, h₂⟩ := of_bind_eq_ok h₁
            obtain ⟨⟨item, ts₃⟩, hitem, h₃⟩ := of_bind_eq_ok h₂
            obtain ⟨ts₄, hclose, h₄⟩ := of_bind_eq_ok h₃
            obtain ⟨c, hc, rfl⟩ := Token.eq_cons_of_expect hcount
            obtain ⟨o, ho, rfl⟩ := Token.eq_cons_of_expect hopen
            obtain ⟨used, rfl, hderives⟩ := hself _ _ _ hitem
            obtain ⟨k, hk, rfl⟩ := Token.eq_cons_of_expect hclose
            obtain ⟨used', rfl, he⟩ := ih (.count hxs hderives) h₄
            refine ⟨t :: c :: o :: (used ++ k :: used'), by simp, ?_⟩
            simpa [hdot, hc, ho, hk] using he
          · cases h
            exact ⟨[], rfl, by simpa using hxs⟩

/-! ## Levels -/

theorem counting_sound (hself : Sound self .disjunction) : Sound (counting self) .counting := by
  intro ts e rest h
  obtain ⟨⟨first, after⟩, hfirst, hmore⟩ := of_bind_eq_ok h
  obtain ⟨used, rfl, hderives⟩ := atom_sound hself _ _ _ hfirst
  obtain ⟨used', rfl, he⟩ := countsFrom_sound hself (.tighter rfl hderives) hmore
  exact ⟨used ++ used', by simp, by simpa using he⟩

/-- The grammar has what the parser makes of a minus sign and a signed phrase. -/
theorem derives_negated {e : Expr} {ts : List Token} (h : Derives (.expr .sign e) ts) :
    Derives (.expr .sign (negated e)) (.symbol .minus :: ts) := by
  unfold negated
  split
  · exact .negative h
  · next hne => exact .minus hne h

theorem sign_sound (hself : Sound self .disjunction) : Sound (sign self) .sign := by
  intro ts
  induction ts with
  | nil =>
      intro e rest h
      obtain ⟨used, hused, hderives⟩ := counting_sound hself _ _ _ h
      exact ⟨used, hused, .tighter rfl hderives⟩
  | cons t ts ih =>
      intro e rest h
      rw [sign] at h
      split at h
      · next hminus =>
        obtain ⟨⟨inner, after⟩, hinner, hdone⟩ := of_bind_eq_ok h
        cases hdone
        obtain ⟨used, rfl, hderives⟩ := ih _ _ hinner
        refine ⟨t :: used, rfl, ?_⟩
        rw [tokensOf_cons, hminus]
        exact derives_negated hderives
      · obtain ⟨used, hused, hderives⟩ := counting_sound hself _ _ _ h
        exact ⟨used, hused, .tighter rfl hderives⟩

theorem product_sound (hself : Sound self .disjunction) : Sound (product self) .product :=
  chain_sound knowsOps_productOp? (by decide) rfl (sign_sound hself)

theorem sum_sound (hself : Sound self .disjunction) : Sound (sum self) .sum :=
  chain_sound knowsOps_sumOp? (by decide) rfl (product_sound hself)

theorem comparison_sound (hself : Sound self .disjunction) : Sound (comparison self) .comparison := by
  intro ts e rest h
  obtain ⟨⟨first, after⟩, hfirst, hmore⟩ := of_bind_eq_ok h
  obtain ⟨used, rfl, hderives⟩ := sum_sound hself _ _ _ hfirst
  obtain ⟨used', rfl, he⟩ := comparisonsFrom_sound (sum_sound hself) hmore hderives
  exact ⟨used ++ used', by simp, by simpa using he⟩

theorem negation_sound (hself : Sound self .disjunction) : Sound (negation self) .negation := by
  intro ts
  induction ts with
  | nil =>
      intro e rest h
      obtain ⟨used, hused, hderives⟩ := comparison_sound hself _ _ _ h
      exact ⟨used, hused, .tighter rfl hderives⟩
  | cons t ts ih =>
      intro e rest h
      rw [negation] at h
      split at h
      · next hnot =>
        obtain ⟨⟨inner, after⟩, hinner, hdone⟩ := of_bind_eq_ok h
        cases hdone
        obtain ⟨used, rfl, hderives⟩ := ih _ _ hinner
        refine ⟨t :: used, rfl, ?_⟩
        rw [tokensOf_cons, hnot]
        exact .not hderives
      · obtain ⟨used, hused, hderives⟩ := comparison_sound hself _ _ _ h
        exact ⟨used, hused, .tighter rfl hderives⟩

theorem conjunction_sound (hself : Sound self .disjunction) : Sound (conjunction self) .conjunction :=
  chain_sound knowsOps_andOp? (by decide) rfl (negation_sound hself)

theorem disjunction_sound (hself : Sound self .disjunction) : Sound (disjunction self) .disjunction :=
  chain_sound knowsOps_orOp? (by decide) rfl (conjunction_sound hself)

/-- Whole expressions are phrases of the loosest level, whatever the bound. -/
theorem exprWithin_sound (n : Nat) : Sound (exprWithin n) .disjunction := by
  induction n with
  | zero =>
      intro ts e rest h
      cases h
  | succ n ih => exact disjunction_sound ih

/-- A list of tokens that the parser accepts spells the expression that it answers. -/
theorem ofTokens_sound {ts : List Located} {e : Expr} (h : ofTokens ts = .ok e) :
    Derives (.expr .disjunction e) (tokensOf ts) := by
  obtain ⟨⟨e', rest⟩, hrun, hend⟩ := of_bind_eq_ok h
  cases rest with
  | nil =>
      cases hend
      obtain ⟨used, rfl, hderives⟩ := exprWithin_sound _ _ _ _ hrun
      simpa using hderives
  | cons t ts => cases hend

end FiniteDomain.Expr
