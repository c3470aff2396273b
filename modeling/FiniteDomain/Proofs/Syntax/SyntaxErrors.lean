import FiniteDomain.Proofs.Syntax.Offences
import FiniteDomain.Proofs.Syntax.Readable

/-!
# What a syntax error means

Where the parser says that the tokens end too early, what it has read so far is the beginning of a phrase of every
level that it is inside of, and each of these can be completed (`Completable`): an operand that is missing by a name, a
bracket that is open by the bracket that closes it. Where it says that a token cannot stand where it does, the tokens
up to that one are the beginning of no expression at all.
-/

namespace FiniteDomain.Expr

/-- A token that is expected is missing only at the end. -/
theorem Token.eq_nil_of_expect {expected : Token} {ts : List Located}
    (h : expected.expect ts = .error .unexpectedEnd) : ts = [] := by
  cases ts with
  | nil => rfl
  | cons t ts =>
      rw [Token.expect] at h
      split at h <;> cases h

/-- Tokens of which the reader says that they end too early are the beginning of a phrase of the level, if they are at
most `k`. -/
def Completable (k : Nat) (p : Reader Expr) (level : Level) : Prop :=
  ∀ ts, ts.length ≤ k → p ts = .error .unexpectedEnd →
    ∃ more e, Derives (.expr level e) (tokensOf ts ++ more)

variable {operand self : Reader Expr} {op? : Token → Option BinaryOp} {level tight : Level} {k n : Nat}
  {ts : List Located} {front : List Token}

/-- A missing phrase is completed by a name. -/
theorem exists_derives (level : Level) : ∃ more e, Derives (.expr level e) more :=
  ⟨_, _, (Derives.ident "A").loosen level.rank_le_atom⟩

theorem Completable.tighter (h : Completable k operand tight) (hlevel : level.tighter? = some tight) :
    Completable k operand level := by
  intro ts hk hend
  obtain ⟨more, e, hderives⟩ := h ts hk hend
  exact ⟨more, e, .tighter hlevel hderives⟩

/-! ## Loops -/

/-- Further operands that end too early are completed. -/
theorem chainFrom_completable (hop : KnowsOps op? level) (hlevel : level ≠ .comparison)
    (htight : level.tighter? = some tight) (hsound : Sound operand tight) (hoperand : Completable k operand tight)
    {left : Expr} (hleft : Derives (.expr level left) front) (hk : ts.length ≤ k)
    (h : chainFrom operand op? n left ts = .error .unexpectedEnd) :
    ∃ more e, Derives (.expr level e) (front ++ (tokensOf ts ++ more)) := by
  induction n generalizing left ts front with
  | zero => cases h
  | succ n ih =>
      cases ts with
      | nil => cases h
      | cons t ts =>
          rw [chainFrom] at h
          split at h
          · cases h
          · next op hknown =>
            obtain ⟨htokens, rfl⟩ := (hop _ _).mp hknown
            have hts : ts.length ≤ k := Nat.le_of_succ_le hk
            rcases of_bind_eq_error h with hright | ⟨⟨right, after⟩, hright, hmore⟩
            · obtain ⟨more, right, hderives⟩ := hoperand ts hts hright
              refine ⟨more, .binary op left right, ?_⟩
              simpa [htokens] using Derives.binary hlevel htight hleft hderives
            · obtain ⟨used, rfl, hderives⟩ := hsound _ _ _ hright
              rw [List.length_append] at hts
              obtain ⟨more, e, he⟩ := ih (.binary hlevel htight hleft hderives) (by omega) hmore
              refine ⟨more, e, ?_⟩
              simpa [htokens] using he

/-- Operands of one level that end too early are completed. -/
theorem chain_completable (hop : KnowsOps op? level) (hlevel : level ≠ .comparison)
    (htight : level.tighter? = some tight) (hsound : Sound operand tight) (hoperand : Completable k operand tight) :
    Completable k (chain operand op?) level := by
  intro ts hk h
  rcases of_bind_eq_error h with hfirst | ⟨⟨first, after⟩, hfirst, hmore⟩
  · exact hoperand.tighter htight ts hk hfirst
  · obtain ⟨used, rfl, hderives⟩ := hsound _ _ _ hfirst
    rw [List.length_append] at hk
    obtain ⟨more, e, he⟩ := chainFrom_completable hop hlevel htight hsound hoperand (.tighter htight hderives)
      (by omega) hmore
    exact ⟨more, e, by simpa using he⟩

/-- Further comparisons that end too early are completed. -/
theorem comparisonsFrom_completable (hsound : Sound operand .sum) (hoperand : Completable k operand .sum)
    {before : Option Expr} {left : Expr} (hleft : ComparedSoFar before left front) (hk : ts.length ≤ k)
    (h : comparisonsFrom operand n before left ts = .error .unexpectedEnd) :
    ∃ more e, Derives (.expr .comparison e) (front ++ (tokensOf ts ++ more)) := by
  induction n generalizing before left ts front with
  | zero => cases h
  | succ n ih =>
      rw [comparisonsFrom] at h
      split at h
      · cases h
      · next op after hat =>
        obtain ⟨hop, lops, rfl, htokens⟩ := of_comparisonAt? hat
        rw [List.length_append] at hk
        have hnext : ∀ {right us}, Derives (.expr .sum right) us →
            Derives (.comparisons (joinComparison before (.binary op left right)) right)
              (front ++ (op.tokens ++ us)) := by
          intro right us hderives
          cases before with
          | none => exact .compare hop hleft hderives
          | some joined => exact .compareMore hop hleft hderives
        rcases of_bind_eq_error h with hright | ⟨⟨right, after'⟩, hright, hmore⟩
        · obtain ⟨more, right, hderives⟩ := hoperand after (by omega) hright
          refine ⟨more, joinComparison before (.binary op left right), ?_⟩
          simpa [htokens] using Derives.comparison (hnext hderives)
        · obtain ⟨used, rfl, hderives⟩ := hsound _ _ _ hright
          rw [List.length_append] at hk
          have hcompared : ComparedSoFar (some (joinComparison before (.binary op left right))) right
              (front ++ (op.tokens ++ tokensOf used)) := hnext hderives
          obtain ⟨more, e, he⟩ := ih hcompared (by omega) hmore
          refine ⟨more, e, ?_⟩
          simpa [htokens] using he

/-! ## Brackets -/

/-- Items that end too early are completed. -/
theorem itemsUpTo_completable (hsound : Sound self .disjunction) (hself : Completable k self .disjunction)
    {close : Token} (hn : ts.length ≤ n) (hk : ts.length ≤ k)
    (h : itemsUpTo self close n ts = .error .unexpectedEnd) :
    ∃ more es, Derives (.items es) (tokensOf ts ++ more) := by
  induction n generalizing ts with
  | zero =>
      obtain rfl : ts = [] := List.length_eq_zero_iff.mp (Nat.le_zero.mp hn)
      exact ⟨[], [], .noItems⟩
  | succ n ih =>
      cases ts with
      | nil => exact ⟨[], [], .noItems⟩
      | cons t ts =>
          rw [itemsUpTo] at h
          split at h
          · cases h
          · rcases of_bind_eq_error h with hitem | ⟨⟨item, after⟩, hitem, hmore⟩
            · obtain ⟨more, item, hderives⟩ := hself _ hk hitem
              exact ⟨more, [item], .lastItem hderives⟩
            · obtain ⟨used, hused, hderives⟩ := hsound _ _ _ hitem
              rw [hused] at hn hk ⊢
              rw [List.length_append] at hn hk
              have hpos : 0 < used.length := by
                obtain ⟨u, us, hstart, -⟩ := hderives.starts
                rw [← length_tokensOf, hstart]
                exact Nat.zero_lt_succ _
              dsimp only at hmore
              split at hmore
              · exact ⟨[], [item], by simpa using Derives.lastItem hderives⟩
              · next u us =>
                rw [List.length_cons] at hn hk
                split at hmore
                · next hcomma =>
                  rcases of_bind_eq_error hmore with hitems | ⟨found, -, hdone⟩
                  · obtain ⟨more, items, hes⟩ := ih (by omega) (by omega) hitems
                    refine ⟨more, item :: items, ?_⟩
                    simpa [hcomma] using Derives.moreItems hderives hes
                  · cases hdone
                · split at hmore <;> cases hmore

/-- An atom that ends too early is completed. -/
theorem atom_completable (hsound : Sound self .disjunction) (hself : Completable k self .disjunction) :
    Completable (k + 1) (atom self) .atom := by
  intro ts hk h
  cases ts with
  | nil => exact exists_derives .atom
  | cons t ts =>
      have hts : ts.length ≤ k := Nat.le_of_succ_le_succ hk
      cases htoken : t.token with
      | ident name =>
          simp only [atom, htoken] at h
          cases ts with
          | nil => cases h
          | cons u us =>
              rw [nameOrCall] at h
              split at h
              · next hopen =>
                rcases of_bind_eq_error h with hargs | ⟨found, -, hdone⟩
                · obtain ⟨more, args, hes⟩ := itemsUpTo_completable hsound hself (Nat.le_refl _)
                    (Nat.le_of_succ_le hts) hargs
                  refine ⟨more ++ [.symbol .closeParen], .call name args, ?_⟩
                  simpa [htoken, hopen] using Derives.call name hes
                · cases hdone
              · cases h
      | int n => simp [atom, htoken] at h
      | str s => simp [atom, htoken] at h
      | keyword w => cases w <;> simp [atom, htoken, Located.unexpected] at h
      | symbol s =>
          cases s with
          | openBracket =>
              simp only [atom, htoken] at h
              rcases of_bind_eq_error h with hitems | ⟨found, -, hdone⟩
              · obtain ⟨more, items, hes⟩ := itemsUpTo_completable hsound hself (Nat.le_refl _) hts hitems
                refine ⟨more ++ [.symbol .closeBracket], .list items, ?_⟩
                simpa [htoken] using Derives.list hes
              · cases hdone
          | openParen =>
              simp only [atom, htoken] at h
              rcases of_bind_eq_error h with hinner | ⟨⟨inner, after⟩, hinner, hmore⟩
              · obtain ⟨more, inner, hderives⟩ := hself ts hts hinner
                refine ⟨more ++ [.symbol .closeParen], inner, ?_⟩
                simpa [htoken] using Derives.parens hderives
              · obtain ⟨used, rfl, hderives⟩ := hsound _ _ _ hinner
                rcases of_bind_eq_error hmore with hclose | ⟨found, -, hdone⟩
                · obtain rfl := Token.eq_nil_of_expect hclose
                  refine ⟨[.symbol .closeParen], inner, ?_⟩
                  simpa [htoken] using Derives.parens hderives
                · cases hdone
          | plus | minus | star | slash | percent | eqEq | notEq | lt | gt | le | ge | closeParen
          | closeBracket | comma | dot => simp [atom, htoken, Located.unexpected] at h

/-- Counting calls that end too early are completed. -/
theorem countsFrom_completable (hsound : Sound self .disjunction) (hself : Completable k self .disjunction) {xs : Expr}
    (hxs : Derives (.expr .counting xs) front) (hk : ts.length ≤ k + 1)
    (h : countsFrom self n xs ts = .error .unexpectedEnd) :
    ∃ more e, Derives (.expr .counting e) (front ++ (tokensOf ts ++ more)) := by
  induction n generalizing xs ts front with
  | zero => cases h
  | succ n ih =>
      cases ts with
      | nil => cases h
      | cons t ts =>
          rw [countsFrom] at h
          split at h
          · next hdot =>
            rw [List.length_cons] at hk
            obtain ⟨name, item, hname⟩ := exists_derives .disjunction
            rcases of_bind_eq_error h with hcount | ⟨ts₁, hcount, h₁⟩
            · obtain rfl := Token.eq_nil_of_expect hcount
              refine ⟨.ident "count" :: .symbol .openParen :: (name ++ [.symbol .closeParen]), .count xs item, ?_⟩
              simpa [hdot] using Derives.count hxs hname
            obtain ⟨c, hc, rfl⟩ := Token.eq_cons_of_expect hcount
            rcases of_bind_eq_error h₁ with hopen | ⟨ts₂, hopen, h₂⟩
            · obtain rfl := Token.eq_nil_of_expect hopen
              refine ⟨.symbol .openParen :: (name ++ [.symbol .closeParen]), .count xs item, ?_⟩
              simpa [hdot, hc] using Derives.count hxs hname
            obtain ⟨o, ho, rfl⟩ := Token.eq_cons_of_expect hopen
            simp only [List.length_cons] at hk
            rcases of_bind_eq_error h₂ with hitem | ⟨⟨item, ts₃⟩, hitem, h₃⟩
            · obtain ⟨more, item, hderives⟩ := hself ts₂ (by omega) hitem
              refine ⟨more ++ [.symbol .closeParen], .count xs item, ?_⟩
              simpa [hdot, hc, ho] using Derives.count hxs hderives
            obtain ⟨used, rfl, hderives⟩ := hsound _ _ _ hitem
            rw [List.length_append] at hk
            rcases of_bind_eq_error h₃ with hclose | ⟨ts₄, hclose, h₄⟩
            · obtain rfl := Token.eq_nil_of_expect hclose
              refine ⟨[.symbol .closeParen], .count xs item, ?_⟩
              simpa [hdot, hc, ho] using Derives.count hxs hderives
            obtain ⟨d, hd, rfl⟩ := Token.eq_cons_of_expect hclose
            rw [List.length_cons] at hk
            obtain ⟨more, e, he⟩ := ih (.count hxs hderives) (by omega) h₄
            refine ⟨more, e, ?_⟩
            simpa [hdot, hc, ho, hd] using he
          · cases h

/-! ## Levels -/

/-- What a prefix operator stands before is completed. -/
theorem prefixed_completable {token : Token} {f : Expr → Expr} {inner p : Reader Expr}
    (hinner : Completable k inner level) (hnil : p [] = inner [])
    (hcons : ∀ t ts, p (t :: ts) = if t.token = token then p.andThen (fun e rest => .ok (f e, rest)) ts
      else inner (t :: ts))
    (hgrows : ∀ e ts, Derives (.expr level e) ts → Derives (.expr level (f e)) (token :: ts)) :
    Completable k p level := by
  intro ts hk h
  induction ts with
  | nil => exact hinner [] hk (hnil ▸ h)
  | cons t ts ih =>
      rw [hcons] at h
      split at h
      · next htoken =>
        rcases of_bind_eq_error h with hrest | ⟨found, -, hdone⟩
        · obtain ⟨more, e, hderives⟩ := ih (Nat.le_of_succ_le hk) hrest
          refine ⟨more, f e, ?_⟩
          simpa [htoken] using hgrows e _ hderives
        · cases hdone
      · exact hinner _ hk h

section Levels

variable (hsound : Sound self .disjunction) (hself : Completable k self .disjunction)
include hsound hself

theorem counting_completable : Completable (k + 1) (counting self) .counting := by
  intro ts hk h
  rcases of_bind_eq_error h with hfirst | ⟨⟨first, after⟩, hfirst, hmore⟩
  · exact (atom_completable hsound hself).tighter rfl ts hk hfirst
  · obtain ⟨used, rfl, hderives⟩ := atom_sound hsound _ _ _ hfirst
    rw [List.length_append] at hk
    obtain ⟨more, e, he⟩ := countsFrom_completable hsound hself (.tighter rfl hderives) (by omega) hmore
    exact ⟨more, e, by simpa using he⟩

theorem sum_completable : Completable (k + 1) (sum self) .sum := by
  have hsign : Completable (k + 1) (sign self) .sign :=
    prefixed_completable (f := negated) ((counting_completable hsound hself).tighter rfl) rfl (fun _ _ => rfl)
      fun _ _ => derives_negated
  have hproduct : Completable (k + 1) (product self) .product :=
    chain_completable knowsOps_productOp? (by decide) rfl (sign_sound hsound) hsign
  exact chain_completable knowsOps_sumOp? (by decide) rfl (product_sound hsound) hproduct

theorem comparison_completable : Completable (k + 1) (comparison self) .comparison := by
  intro ts hk h
  rcases of_bind_eq_error h with hfirst | ⟨⟨first, after⟩, hfirst, hmore⟩
  · exact (sum_completable hsound hself).tighter rfl ts hk hfirst
  · obtain ⟨used, rfl, hderives⟩ := sum_sound hsound _ _ _ hfirst
    rw [List.length_append] at hk
    have hcompared : ComparedSoFar none first (tokensOf used) := hderives
    obtain ⟨more, e, he⟩ := comparisonsFrom_completable (sum_sound hsound) (sum_completable hsound hself) hcompared
      (by omega) hmore
    exact ⟨more, e, by simpa using he⟩

theorem disjunction_completable : Completable (k + 1) (disjunction self) .disjunction := by
  have hnegation : Completable (k + 1) (negation self) .negation :=
    prefixed_completable (f := .unary .not) ((comparison_completable hsound hself).tighter rfl) rfl (fun _ _ => rfl)
      fun _ _ => .not
  have hconjunction : Completable (k + 1) (conjunction self) .conjunction :=
    chain_completable knowsOps_andOp? (by decide) rfl (negation_sound hsound) hnegation
  exact chain_completable knowsOps_orOp? (by decide) rfl (conjunction_sound hsound) hconjunction

end Levels

/-- Tokens that end too early for an expression are the beginning of one. -/
theorem exprWithin_completable (k : Nat) : Completable k (exprWithin k) .disjunction := by
  induction k with
  | zero =>
      intro ts hk _
      obtain rfl : ts = [] := List.length_eq_zero_iff.mp (Nat.le_zero.mp hk)
      exact exists_derives .disjunction
  | succ k ih => exact disjunction_completable (exprWithin_sound k) ih

/-! ## Syntax errors -/

/-- The places of tokens have no part in what is accepted. -/
theorem exists_ofTokens_of_derives {e : Expr} {ts : List Located} {more : List Token}
    (h : Derives (.expr .disjunction e) (tokensOf ts ++ more)) : ofTokens (ts ++ more.map (Located.mk 0)) = .ok e := by
  refine ofTokens_eq_ok_iff.mpr ?_
  simpa [tokensOf, Function.comp_def] using h

/-- Every syntax error is at the end of the tokens or at one of them. If it is at the end, further tokens make an
expression of them. If it is at a token other than `not`, no list of tokens that is accepted begins with the tokens up
to that one. -/
theorem ofTokens_eq_error {ts : List Located} {e : ParseError} (h : ofTokens ts = .error e) :
    (e = .unexpectedEnd → ∃ more x, ofTokens (ts ++ more) = .ok x) ∧
      ∀ fault text offset, e = .offending fault text offset →
        ∃ k t, ts[k]? = some t ∧ e = t.unexpected ∧
          (t.token ≠ .keyword .not →
            ∀ us x, ofTokens us = .ok x → ¬ tokensOf (ts.take (k + 1)) <+: tokensOf us) := by
  constructor
  · rintro rfl
    rw [ofTokens] at h
    rcases of_bind_eq_error h with hrun | ⟨⟨x, rest⟩, -, hrest⟩
    · obtain ⟨more, x, hderives⟩ := exprWithin_completable ts.length ts (Nat.le_refl _) hrun
      exact ⟨_, x, exists_ofTokens_of_derives hderives⟩
    · cases rest <;> cases hrest
  · rintro fault text offset rfl
    obtain hend | ⟨front, t, back, rfl, he, hfails⟩ := of_ofTokens_eq_error h
    · cases hend
    refine ⟨front.length, t, by simp, he, fun hnot us x haccepted hbegins => ?_⟩
    rw [List.take_length_add_append, List.take_succ_cons, List.take_zero] at hbegins
    obtain ⟨more, hmore⟩ := hbegins
    -- The accepted tokens, put at the places that the first of them have in the list that is rejected.
    rw [ofTokens_eq_ok_iff, ← hmore] at haccepted
    have hplaced := exists_ofTokens_of_derives haccepted
    rw [List.append_assoc, List.singleton_append, hfails hnot] at hplaced
    cases hplaced

/-- The tokens of `A == ) B`. -/
def stray : List Located :=
  [⟨0, .ident "A"⟩, ⟨2, .symbol .eqEq⟩, ⟨5, .symbol .closeParen⟩, ⟨7, .ident "B"⟩]

/-- Nothing that is accepted begins with `A == )`, and `A ==` is the beginning of an expression. -/
theorem ofTokens_eq_error_stray :
    ofTokens stray = .error (.offending .unexpectedToken ")" 5) ∧
      (∀ us x, ofTokens us = .ok x →
        ¬ [.ident "A", .symbol .eqEq, .symbol .closeParen] <+: tokensOf us) ∧
      ofTokens (stray.take 2) = .error .unexpectedEnd ∧ ∃ more x, ofTokens (stray.take 2 ++ more) = .ok x := by
  have hstray : ofTokens stray = .error (.offending .unexpectedToken ")" 5) := rfl
  have hend : ofTokens (stray.take 2) = .error .unexpectedEnd := rfl
  obtain ⟨k, t, hget, he, hnone⟩ := (ofTokens_eq_error hstray).2 _ _ _ rfl
  have hk : k < 4 := (List.getElem?_eq_some_iff.mp hget).1
  -- The place tells which token it is.
  obtain rfl | rfl | rfl | rfl : k = 0 ∨ k = 1 ∨ k = 2 ∨ k = 3 := by omega
  · cases hget
    simp [Located.unexpected] at he
  · cases hget
    simp [Located.unexpected] at he
  · cases hget
    exact ⟨hstray, hnone (by simp), hend, (ofTokens_eq_error hend).1 rfl⟩
  · cases hget
    simp [Located.unexpected] at he

end FiniteDomain.Expr
