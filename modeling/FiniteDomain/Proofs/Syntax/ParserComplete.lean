import FiniteDomain.Proofs.Syntax.ParserSound

/-!
# What is derived the parser accepts

The parser is greedy: a level takes operands as long as an operator of the level follows. So it takes a phrase and
no more off the front of the tokens if what comes after the phrase cannot go on with it (`Stops`), and every place
in the grammar after which a phrase of some level may end is of that kind. The induction on derivations carries how
far the loop of a level has come when a phrase is read (`goOn`), since the phrase may be the beginning of a longer
one of the same level.

With soundness this says that the parser accepts exactly the grammar (`ofTokens_eq_ok_iff`).
-/

namespace FiniteDomain.Expr

/-! ## Where a phrase ends -/

/-- How tight a level is. -/
def Level.rank : Level → Nat
  | .disjunction => 0
  | .conjunction => 1
  | .negation => 2
  | .comparison => 3
  | .sum => 4
  | .product => 5
  | .sign => 6
  | .counting => 7
  | .atom => 8

/-- The level of the phrases that go on with a token. -/
def joins? : Token → Option Level
  | .keyword .or => some .disjunction
  | .keyword .and => some .conjunction
  | .keyword .not | .keyword .mem => some .comparison
  | .symbol .eqEq | .symbol .notEq | .symbol .lt | .symbol .gt | .symbol .le | .symbol .ge =>
      some .comparison
  | .symbol .plus | .symbol .minus => some .sum
  | .symbol .star | .symbol .slash | .symbol .percent => some .product
  | .symbol .dot => some .counting
  | .symbol .openParen => some .atom
  | _ => none

/-- No phrase of the level goes on with the tokens. -/
def Stops (level : Level) (rest : List Located) : Prop :=
  ∀ t ts tight, rest = t :: ts → joins? t.token = some tight → tight.rank < level.rank

theorem Stops.mono {level tight : Level} {rest : List Located} (h : Stops level rest)
    (hle : level.rank ≤ tight.rank) : Stops tight rest :=
  fun t ts l hrest hl => Nat.lt_of_lt_of_le (h t ts l hrest hl) hle

theorem stops_nil (level : Level) : Stops level [] := by
  intro t ts tight h
  cases h

/-- Tokens that no phrase goes on with stop every level. -/
theorem stops_cons {level : Level} {t : Located} {ts : List Located} (h : joins? t.token = none) :
    Stops level (t :: ts) := by
  intro u us tight hcons hjoins
  cases hcons
  rw [h] at hjoins
  cases hjoins

/-- Tokens that a looser phrase goes on with stop a level. -/
theorem stops_cons_of_joins {level tight : Level} {t : Located} {ts : List Located}
    (h : joins? t.token = some tight) (hlt : tight.rank < level.rank) : Stops level (t :: ts) := by
  intro u us tight' hcons hjoins
  cases hcons
  rw [h] at hjoins
  cases hjoins
  exact hlt

/-- The tokens of an operator go on with the phrases of its level. -/
theorem joins?_of_op {op : BinaryOp} {lops : List Located} (h : tokensOf lops = op.tokens) :
    ∃ t ts, lops = t :: ts ∧ joins? t.token = some (opLevel op) := by
  cases lops with
  | nil => cases op <;> cases h
  | cons t ts =>
      have hhead : some t.token = op.tokens.head? := congrArg List.head? h
      have hjoins : ∀ u, some u = op.tokens.head? → joins? u = some (opLevel op) := by
        intro u hu
        cases op <;> cases hu <;> rfl
      exact ⟨t, ts, rfl, hjoins _ hhead⟩

/-- Before an operator every tighter phrase ends. -/
theorem stops_of_op {op : BinaryOp} {lops rest : List Located} {tight : Level}
    (h : tokensOf lops = op.tokens) (hlt : (opLevel op).rank < tight.rank) :
    Stops tight (lops ++ rest) := by
  obtain ⟨t, ts, rfl, hjoins⟩ := joins?_of_op h
  exact stops_cons_of_joins hjoins hlt

/-! ## Where a phrase starts -/

/-- A phrase of the level may start with the token. -/
structure Starts (level : Level) (t : Token) : Prop where
  ne_closeParen : t ≠ .symbol .closeParen
  ne_closeBracket : t ≠ .symbol .closeBracket
  ne_not : Level.negation.rank < level.rank → t ≠ .keyword .not
  ne_minus : Level.sign.rank < level.rank → t ≠ .symbol .minus

theorem Starts.mono {level tight : Level} {t : Token} (h : Starts tight t)
    (hle : level.rank ≤ tight.rank) : Starts level t :=
  ⟨h.ne_closeParen, h.ne_closeBracket, fun hlt => h.ne_not (Nat.lt_of_lt_of_le hlt hle),
    fun hlt => h.ne_minus (Nat.lt_of_lt_of_le hlt hle)⟩

theorem Level.rank_of_tighter? {level tight : Level} (h : level.tighter? = some tight) :
    tight.rank = level.rank + 1 := by
  cases level <;> cases h <;> rfl

/-- Every phrase that stands for an expression has a first token, with which its level may start. -/
theorem Derives.starts {phrase : Phrase} {ts : List Token} (h : Derives phrase ts) :
    match phrase with
    | .expr level _ => ∃ t us, ts = t :: us ∧ Starts level t
    | .comparisons _ _ => ∃ t us, ts = t :: us ∧ Starts .sum t
    | .items _ => True := by
  induction h with
  | tighter hlevel _ ih =>
      obtain ⟨t, us, rfl, hstarts⟩ := ih
      exact ⟨t, us, rfl, hstarts.mono (by rw [Level.rank_of_tighter? hlevel]; omega)⟩
  | binary _ _ _ _ ih _ =>
      obtain ⟨t, us, rfl, hstarts⟩ := ih
      exact ⟨t, _, rfl, hstarts⟩
  | not => exact ⟨_, _, rfl, by constructor <;> simp [Level.rank]⟩
  | compare _ _ _ ih _ =>
      obtain ⟨t, us, rfl, hstarts⟩ := ih
      exact ⟨t, _, rfl, hstarts⟩
  | compareMore _ _ _ ih _ =>
      obtain ⟨t, us, rfl, hstarts⟩ := ih
      exact ⟨t, _, rfl, hstarts⟩
  | comparison _ ih =>
      obtain ⟨t, us, rfl, hstarts⟩ := ih
      exact ⟨t, us, rfl, hstarts.mono (by decide)⟩
  | negative | minus => exact ⟨_, _, rfl, by constructor <;> simp [Level.rank]⟩
  | count _ _ ih _ =>
      obtain ⟨t, us, rfl, hstarts⟩ := ih
      exact ⟨t, _, rfl, hstarts⟩
  | int | str | trueValue | falseValue | ident | call | list | parens =>
      exact ⟨_, _, rfl, by constructor <;> simp⟩
  | noItems | lastItem | moreItems => trivial

/-! ## The loops of the levels -/

/-- The reader of a level. -/
def reader (self : Reader Expr) : Level → Reader Expr
  | .disjunction => disjunction self
  | .conjunction => conjunction self
  | .negation => negation self
  | .comparison => comparison self
  | .sum => sum self
  | .product => product self
  | .sign => sign self
  | .counting => counting self
  | .atom => atom self

/-- What the reader of a level does after it has read the expression `e`, with the given bound: a level whose
phrases begin with phrases of the same level looks for more. -/
def goOn (self : Reader Expr) (level : Level) (n : Nat) (e : Expr) : Reader Expr :=
  match level with
  | .disjunction => chainFrom (conjunction self) orOp? n e
  | .conjunction => chainFrom (negation self) andOp? n e
  | .sum => chainFrom (product self) sumOp? n e
  | .product => chainFrom (sign self) productOp? n e
  | .counting => countsFrom self n e
  | .negation | .comparison | .sign | .atom => fun ts => .ok (e, ts)

/-- The level of the phrases at the end of a phrase, which must have ended for the reader to go on. -/
def endLevel : Level → Level
  | .disjunction => .conjunction
  | .conjunction => .negation
  | .sum => .product
  | .product => .sign
  | .counting => .atom
  | .negation => .negation
  | .comparison => .comparison
  | .sign => .sign
  | .atom => .atom

theorem chainFrom_of_stops {operand : Reader Expr} {op? : Token → Option BinaryOp} {level : Level}
    (hop : KnowsOps op? level) {rest : List Located} (h : Stops level rest) (n : Nat) (e : Expr) :
    chainFrom operand op? n e rest = .ok (e, rest) := by
  cases n with
  | zero => rfl
  | succ n =>
      cases rest with
      | nil => rfl
      | cons t ts =>
          have hnone : op? t.token = none := by
            cases hknown : op? t.token with
            | none => rfl
            | some op =>
                obtain ⟨htokens, hlevel⟩ := (hop _ _).mp hknown
                have htokens' : tokensOf [t] = op.tokens := htokens.symm
                obtain ⟨u, us, hcons, hjoins⟩ := joins?_of_op htokens'
                cases hcons
                have hlt := h _ _ _ rfl hjoins
                rw [hlevel] at hlt
                exact absurd hlt (Nat.lt_irrefl _)
          rw [chainFrom, hnone]

/-- Where phrases of the level have ended there is nothing more to find. -/
theorem goOn_of_stops {self : Reader Expr} {level : Level} {rest : List Located} (h : Stops level rest)
    (n : Nat) (e : Expr) : goOn self level n e rest = .ok (e, rest) := by
  cases level with
  | disjunction => exact chainFrom_of_stops knowsOps_orOp? h n e
  | conjunction => exact chainFrom_of_stops knowsOps_andOp? h n e
  | sum => exact chainFrom_of_stops knowsOps_sumOp? h n e
  | product => exact chainFrom_of_stops knowsOps_productOp? h n e
  | negation | comparison | sign | atom => rfl
  | counting =>
      cases n with
      | zero => rfl
      | succ n =>
          cases rest with
          | nil => rfl
          | cons t ts =>
              have hdot : t.token ≠ .symbol .dot := by
                intro hdot
                exact absurd (h t ts .counting rfl (by rw [hdot]; rfl)) (by decide)
              show countsFrom self (n + 1) e (t :: ts) = _
              rw [countsFrom, if_neg hdot]

/-! ## Completeness -/

/-- With the bound `n` the reader of the level takes the tokens off the front, and the expression with them. -/
def Reads (n : Nat) (level : Level) (e : Expr) (ts : List Token) : Prop :=
  ∀ lts rest, tokensOf lts = ts → Stops (endLevel level) rest →
    ∃ k, rest.length ≤ k ∧
      reader (exprWithin n) level (lts ++ rest) = goOn (exprWithin n) level k e rest

/-- What completeness says of a phrase: the parser reads it, whatever bound there is for its brackets. -/
def Complete : Phrase → List Token → Prop
  | .expr level e, ts => ∀ n, ts.length ≤ n + 1 → Reads n level e ts
  | .comparisons joined last, ts => ∀ n, ts.length ≤ n + 1 →
      ∀ lts rest, tokensOf lts = ts → Stops .sum rest →
        ∃ k, rest.length ≤ k ∧ comparison (exprWithin n) (lts ++ rest)
          = comparisonsFrom (sum (exprWithin n)) k (some joined) last rest
  | .items es, ts => ∀ n, ts.length < n →
      ∀ lts t rest k, tokensOf lts = ts → t.token = .symbol .closeParen ∨ t.token = .symbol .closeBracket →
        (lts ++ t :: rest).length ≤ k →
        itemsUpTo (exprWithin n) t.token k (lts ++ t :: rest) = .ok (es, rest)

theorem rank_le_rank_endLevel (level : Level) : level.rank ≤ (endLevel level).rank := by
  cases level <;> decide

/-- Where phrases of the level end, the reader stops with the expression. -/
theorem Reads.finish {n : Nat} {level : Level} {e : Expr} {ts : List Token} (h : Reads n level e ts)
    {lts rest : List Located} (hlts : tokensOf lts = ts) (hrest : Stops level rest) :
    reader (exprWithin n) level (lts ++ rest) = .ok (e, rest) := by
  obtain ⟨k, -, hk⟩ := h lts rest hlts (hrest.mono (rank_le_rank_endLevel level))
  rw [hk, goOn_of_stops hrest]

/-- Between brackets a whole expression is read. -/
theorem Complete.exprWithin_eq {n : Nat} {e : Expr} {ts : List Token}
    (h : Complete (.expr .disjunction e) ts) (hn : ts.length < n) {lts rest : List Located}
    (hlts : tokensOf lts = ts) (hrest : Stops .disjunction rest) :
    exprWithin n (lts ++ rest) = .ok (e, rest) := by
  cases n with
  | zero => cases hn
  | succ n => exact (h n (Nat.le_of_lt hn)).finish hlts hrest

/-- A level whose phrases begin with operands of the next level goes on after the first of them. -/
theorem chain_of_operand {operand : Reader Expr} {op? : Token → Option BinaryOp} {e : Expr}
    {ts rest : List Located} (h : operand ts = .ok (e, rest)) :
    chain operand op? ts = chainFrom operand op? rest.length e rest := by
  rw [chain, h]
  rfl

/-- Where comparisons end there is no further one. -/
theorem comparisonAt?_of_stops {rest : List Located} (h : Stops .comparison rest) :
    comparisonAt? rest = none := by
  cases hat : comparisonAt? rest with
  | none => rfl
  | some found =>
      obtain ⟨op, after⟩ := found
      obtain ⟨hlevel, lops, rfl, htokens⟩ := of_comparisonAt? hat
      obtain ⟨t, ts, rfl, hjoins⟩ := joins?_of_op htokens
      have hlt := h t (ts ++ after) _ rfl hjoins
      rw [hlevel] at hlt
      exact absurd hlt (Nat.lt_irrefl _)

theorem comparisonsFrom_of_stops {operand : Reader Expr} {rest : List Located}
    (h : Stops .comparison rest) (n : Nat) (before : Option Expr) (e : Expr) :
    comparisonsFrom operand n before e rest = .ok (before.getD e, rest) := by
  cases n with
  | zero => rfl
  | succ n => rw [comparisonsFrom, comparisonAt?_of_stops h]

/-- A comparison goes on after its first sum. -/
theorem comparison_of_sum {self : Reader Expr} {e : Expr} {ts rest : List Located}
    (h : sum self ts = .ok (e, rest)) :
    comparison self ts = comparisonsFrom (sum self) rest.length none e rest := by
  rw [comparison, h]
  rfl

/-- A phrase of the next tighter level is read as one of the level. -/
theorem reads_of_tighter {n : Nat} {level tight : Level} {e : Expr} {ts : List Token}
    (hlevel : level.tighter? = some tight) (hstarts : ∃ t us, ts = t :: us ∧ Starts tight t)
    (h : Reads n tight e ts) : Reads n level e ts := by
  intro lts rest hlts hrest
  obtain ⟨t, us, rfl, hstart⟩ := hstarts
  obtain ⟨u, back, rfl, hu, hback⟩ := of_tokensOf_cons hlts
  cases level with
  | disjunction =>
      cases hlevel
      exact ⟨_, Nat.le_refl _, chain_of_operand (h.finish hlts hrest)⟩
  | conjunction =>
      cases hlevel
      exact ⟨_, Nat.le_refl _, chain_of_operand (h.finish hlts hrest)⟩
  | negation =>
      cases hlevel
      have hnot : u.token ≠ .keyword .not := hu ▸ hstart.ne_not (by decide)
      refine ⟨_, Nat.le_refl _, ?_⟩
      show negation (exprWithin n) (u :: (back ++ rest)) = .ok (e, rest)
      rw [negation, if_neg hnot]
      exact h.finish hlts (hrest.mono (by decide))
  | comparison =>
      cases hlevel
      refine ⟨_, Nat.le_refl _, ?_⟩
      have hsum : sum (exprWithin n) (u :: back ++ rest) = .ok (e, rest) :=
        h.finish hlts (hrest.mono (by decide))
      show comparison (exprWithin n) (u :: back ++ rest) = .ok (e, rest)
      rw [comparison_of_sum hsum, comparisonsFrom_of_stops hrest]
      rfl
  | sum =>
      cases hlevel
      exact ⟨_, Nat.le_refl _, chain_of_operand (h.finish hlts hrest)⟩
  | product =>
      cases hlevel
      exact ⟨_, Nat.le_refl _, chain_of_operand (h.finish hlts hrest)⟩
  | sign =>
      cases hlevel
      have hminus : u.token ≠ .symbol .minus := hu ▸ hstart.ne_minus (by decide)
      refine ⟨_, Nat.le_refl _, ?_⟩
      show sign (exprWithin n) (u :: (back ++ rest)) = .ok (e, rest)
      rw [sign, if_neg hminus]
      exact h.finish hlts (hrest.mono (by decide))
  | counting =>
      cases hlevel
      refine ⟨_, Nat.le_refl _, ?_⟩
      have hatom : atom (exprWithin n) (u :: back ++ rest) = .ok (e, rest) := h.finish hlts hrest
      show counting (exprWithin n) (u :: back ++ rest) = countsFrom (exprWithin n) rest.length e rest
      rw [counting, hatom]
      rfl
  | atom => cases hlevel

/-- One more operand of a level whose operators are of one token. -/
theorem chainFrom_step {operand : Reader Expr} {op? : Token → Option BinaryOp} {op : BinaryOp}
    (hop : KnowsOps op? (opLevel op)) {lops ts rest : List Located} {l r : Expr} {t : Token}
    (ht : op.tokens = [t]) (hlops : tokensOf lops = op.tokens) (hr : operand ts = .ok (r, rest))
    (k : Nat) :
    chainFrom operand op? (k + 1) l (lops ++ ts) = chainFrom operand op? k (.binary op l r) rest := by
  rw [ht] at hlops
  obtain ⟨u, rfl, hu⟩ := of_tokensOf_singleton hlops
  have hknown : op? u.token = some op := (hop _ _).mpr ⟨hu ▸ ht, rfl⟩
  show chainFrom operand op? (k + 1) l (u :: ts) = _
  rw [chainFrom, hknown]
  show (operand ts >>= _) = _
  rw [hr]
  rfl

/-- One more operand of a level. -/
theorem goOn_step {self : Reader Expr} {op : BinaryOp} {tight : Level} (hne : opLevel op ≠ .comparison)
    (htight : (opLevel op).tighter? = some tight) {lops ts rest : List Located} {l r : Expr}
    (hlops : tokensOf lops = op.tokens) (hr : reader self tight ts = .ok (r, rest)) (k : Nat) :
    goOn self (opLevel op) (k + 1) l (lops ++ ts) = goOn self (opLevel op) k (.binary op l r) rest := by
  cases op with
  | or =>
      cases htight
      exact chainFrom_step knowsOps_orOp? rfl hlops hr k
  | and =>
      cases htight
      exact chainFrom_step knowsOps_andOp? rfl hlops hr k
  | add | sub =>
      cases htight
      exact chainFrom_step knowsOps_sumOp? rfl hlops hr k
  | mul | div | rem =>
      cases htight
      exact chainFrom_step knowsOps_productOp? rfl hlops hr k
  | eq | ne | lt | gt | le | ge | mem | notMem => exact absurd rfl hne

theorem endLevel_opLevel {op : BinaryOp} {tight : Level} (hne : opLevel op ≠ .comparison)
    (htight : (opLevel op).tighter? = some tight) : endLevel (opLevel op) = tight := by
  cases op <;> cases htight <;> first | rfl | exact absurd rfl hne

/-- Operands around an operator are read as its phrase. -/
theorem Reads.binary {n : Nat} {op : BinaryOp} {tight : Level} {l r : Expr} {ts us : List Token}
    (hne : opLevel op ≠ .comparison) (htight : (opLevel op).tighter? = some tight)
    (hl : Reads n (opLevel op) l ts) (hr : Reads n tight r us) :
    Reads n (opLevel op) (.binary op l r) (ts ++ (op.tokens ++ us)) := by
  intro lts rest hlts hrest
  obtain ⟨front, lts', rfl, hfront, hlts'⟩ := of_tokensOf_append hlts
  obtain ⟨lops, back, rfl, hlops, hback⟩ := of_tokensOf_append hlts'
  rw [endLevel_opLevel hne htight] at hrest
  have hlt : (opLevel op).rank < tight.rank := by
    rw [Level.rank_of_tighter? htight]
    exact Nat.lt_succ_self _
  have hstop : Stops (endLevel (opLevel op)) (lops ++ (back ++ rest)) := by
    rw [endLevel_opLevel hne htight]
    exact stops_of_op hlops hlt
  -- The left operand leaves the loop of its level in front of the operator, with bound enough for it.
  obtain ⟨k, hk, hrun⟩ := hl front _ hfront hstop
  obtain ⟨t, ops, rfl, -⟩ := joins?_of_op hlops
  cases k with
  | zero => simp at hk
  | succ k =>
      refine ⟨k, ?_, ?_⟩
      · simp at hk
        omega
      · rw [List.append_assoc, List.append_assoc, hrun]
        exact goOn_step hne htight hlops (hr.finish hback hrest) k

/-- The tokens of a comparison are found at the front. -/
theorem comparisonAt?_of_op {op : BinaryOp} (hop : opLevel op = .comparison) {lops : List Located}
    (h : tokensOf lops = op.tokens) (rest : List Located) :
    comparisonAt? (lops ++ rest) = some (op, rest) := by
  cases op with
  | or | and | add | sub | mul | div | rem => cases hop
  | eq | ne | lt | gt | le | ge | mem =>
      obtain ⟨t, rfl, ht⟩ := of_tokensOf_singleton h
      simp [comparisonAt?, ht, comparisonOp?]
  | notMem =>
      obtain ⟨t, back, rfl, ht, hback⟩ := of_tokensOf_cons h
      obtain ⟨u, rfl, hu⟩ := of_tokensOf_singleton hback
      simp [comparisonAt?, ht, hu, comparisonOp?]

/-- One more comparison. -/
theorem comparisonsFrom_step {operand : Reader Expr} {op : BinaryOp} (hop : opLevel op = .comparison)
    {lops ts rest : List Located} {l r : Expr} (hlops : tokensOf lops = op.tokens)
    (hr : operand ts = .ok (r, rest)) (before : Option Expr) (k : Nat) :
    comparisonsFrom operand (k + 1) before l (lops ++ ts)
      = comparisonsFrom operand k (some (joinComparison before (.binary op l r))) r rest := by
  rw [comparisonsFrom, comparisonAt?_of_op hop hlops]
  show (operand ts >>= _) = _
  rw [hr]
  rfl

/-- A comparison of two sums is read. -/
theorem complete_compare {op : BinaryOp} {l r : Expr} {ts us : List Token}
    (hop : opLevel op = .comparison) (hl : Complete (.expr .sum l) ts)
    (hr : Complete (.expr .sum r) us) :
    Complete (.comparisons (.binary op l r) r) (ts ++ (op.tokens ++ us)) := by
  intro n hn lts rest hlts hrest
  simp only [List.length_append] at hn
  obtain ⟨front, lts', rfl, hfront, hlts'⟩ := of_tokensOf_append hlts
  obtain ⟨lops, back, rfl, hlops, hback⟩ := of_tokensOf_append hlts'
  have hstop : Stops .sum (lops ++ (back ++ rest)) := stops_of_op hlops (by rw [hop]; decide)
  have hleft : sum (exprWithin n) (front ++ (lops ++ (back ++ rest)))
      = .ok (l, lops ++ (back ++ rest)) := (hl n (by omega)).finish hfront hstop
  have hright : sum (exprWithin n) (back ++ rest) = .ok (r, rest) :=
    (hr n (by omega)).finish hback hrest
  obtain ⟨t, ops, rfl, -⟩ := joins?_of_op hlops
  refine ⟨(ops ++ (back ++ rest)).length, by simp; omega, ?_⟩
  rw [List.append_assoc, List.append_assoc, comparison_of_sum hleft]
  exact comparisonsFrom_step hop hlops hright none _

/-- A comparison after others is read. -/
theorem complete_compareMore {op : BinaryOp} {e l r : Expr} {ts us : List Token}
    (hop : opLevel op = .comparison) (hl : Complete (.comparisons e l) ts)
    (hr : Complete (.expr .sum r) us) :
    Complete (.comparisons (.binary .and e (.binary op l r)) r) (ts ++ (op.tokens ++ us)) := by
  intro n hn lts rest hlts hrest
  simp only [List.length_append] at hn
  obtain ⟨front, lts', rfl, hfront, hlts'⟩ := of_tokensOf_append hlts
  obtain ⟨lops, back, rfl, hlops, hback⟩ := of_tokensOf_append hlts'
  have hstop : Stops .sum (lops ++ (back ++ rest)) := stops_of_op hlops (by rw [hop]; decide)
  -- The comparisons before leave the loop in front of this one, with their last operand at hand.
  obtain ⟨k, hk, hleft⟩ := hl n (by omega) front _ hfront hstop
  have hright : sum (exprWithin n) (back ++ rest) = .ok (r, rest) :=
    (hr n (by omega)).finish hback hrest
  obtain ⟨t, ops, rfl, -⟩ := joins?_of_op hlops
  cases k with
  | zero => simp at hk
  | succ k =>
      refine ⟨k, ?_, ?_⟩
      · simp at hk
        omega
      · rw [List.append_assoc, List.append_assoc, hleft]
        exact comparisonsFrom_step hop hlops hright (some e) k

/-- Comparisons are read as one. -/
theorem complete_comparison {e l : Expr} {ts : List Token} (h : Complete (.comparisons e l) ts) :
    Complete (.expr .comparison e) ts := by
  intro n hn lts rest hlts hrest
  obtain ⟨k, -, hk⟩ := h n hn lts rest hlts (hrest.mono (by decide))
  refine ⟨_, Nat.le_refl _, hk.trans ?_⟩
  exact comparisonsFrom_of_stops hrest k (some e) l

/-- `not` before a negation is read. -/
theorem complete_not {e : Expr} {ts : List Token} (h : Complete (.expr .negation e) ts) :
    Complete (.expr .negation (.unary .not e)) (.keyword .not :: ts) := by
  intro n hn lts rest hlts hrest
  obtain ⟨t, back, rfl, ht, hback⟩ := of_tokensOf_cons hlts
  have hrun : negation (exprWithin n) (back ++ rest) = .ok (e, rest) :=
    (h n (Nat.le_of_succ_le hn)).finish hback hrest
  refine ⟨_, Nat.le_refl _, ?_⟩
  show negation (exprWithin n) (t :: (back ++ rest)) = .ok (.unary .not e, rest)
  rw [negation, if_pos ht, hrun]
  rfl

/-- The minus sign before a signed phrase is read. -/
theorem complete_minus {e : Expr} {ts : List Token} (h : Complete (.expr .sign e) ts) :
    Complete (.expr .sign (negated e)) (.symbol .minus :: ts) := by
  intro n hn lts rest hlts hrest
  obtain ⟨t, back, rfl, ht, hback⟩ := of_tokensOf_cons hlts
  have hrun : sign (exprWithin n) (back ++ rest) = .ok (e, rest) :=
    (h n (Nat.le_of_succ_le hn)).finish hback hrest
  refine ⟨_, Nat.le_refl _, ?_⟩
  show sign (exprWithin n) (t :: (back ++ rest)) = .ok (negated e, rest)
  rw [sign, if_pos ht, hrun]
  rfl

/-- The token that is expected is taken off. -/
theorem expect_cons {expected : Token} {t : Located} (h : t.token = expected) (ts : List Located) :
    expected.expect (t :: ts) = .ok ts := by
  rw [Token.expect, if_pos h]

/-- A counting call is read. -/
theorem complete_count {xs item : Expr} {ts us : List Token} (hxs : Complete (.expr .counting xs) ts)
    (hitem : Complete (.expr .disjunction item) us) :
    Complete (.expr .counting (.count xs item))
      (ts ++ .symbol .dot :: .ident "count" :: .symbol .openParen :: (us ++ [.symbol .closeParen])) := by
  intro n hn lts rest hlts hrest
  simp only [List.length_append, List.length_cons] at hn
  obtain ⟨front, lts₁, rfl, hfront, h₁⟩ := of_tokensOf_append hlts
  obtain ⟨dot, lts₂, rfl, hdot, h₂⟩ := of_tokensOf_cons h₁
  obtain ⟨name, lts₃, rfl, hname, h₃⟩ := of_tokensOf_cons h₂
  obtain ⟨opening, back, closing, rfl, hopening, hback, hclosing⟩ := of_tokensOf_between h₃
  have hjoins : joins? dot.token = some .counting := by rw [hdot]; rfl
  have hstop : Stops .atom (dot :: name :: opening :: (back ++ closing :: rest)) :=
    stops_cons_of_joins hjoins (by decide)
  -- What is counted in may itself be a count, whose loop is then left in front of the dot.
  obtain ⟨k, hk, hrun⟩ := hxs n (by omega) front _ hfront hstop
  have hinner : exprWithin n (back ++ closing :: rest) = .ok (item, closing :: rest) :=
    hitem.exprWithin_eq (by omega) hback (stops_cons (by rw [hclosing]; rfl))
  cases k with
  | zero => simp at hk
  | succ k =>
      refine ⟨k, ?_, ?_⟩
      · simp at hk
        omega
      · simp only [List.append_assoc, List.cons_append, List.nil_append]
        rw [hrun]
        show countsFrom (exprWithin n) (k + 1) xs (dot :: name :: opening :: (back ++ closing :: rest))
          = countsFrom (exprWithin n) k (.count xs item) rest
        rw [countsFrom, if_pos hdot, expect_cons hname]
        show (Token.expect _ _ >>= _) = _
        rw [expect_cons hopening]
        show (exprWithin n (back ++ closing :: rest) >>= _) = _
        rw [hinner]
        show (Token.expect _ _ >>= _) = _
        rw [expect_cons hclosing]
        rfl

/-- An atom of one token, which is not a name, is read. -/
theorem complete_single {e : Expr} {token : Token}
    (h : ∀ self t ts, t.token = token → atom self (t :: ts) = .ok (e, ts)) :
    Complete (.expr .atom e) [token] := by
  intro n _ lts rest hlts _
  obtain ⟨t, rfl, ht⟩ := of_tokensOf_singleton hlts
  exact ⟨_, Nat.le_refl _, h _ t rest ht⟩

/-- A name is read, if no parenthesis makes a call of it. -/
theorem complete_ident (name : String) : Complete (.expr .atom (.ident name)) [.ident name] := by
  intro n _ lts rest hlts hrest
  obtain ⟨t, rfl, ht⟩ := of_tokensOf_singleton hlts
  refine ⟨_, Nat.le_refl _, ?_⟩
  show atom (exprWithin n) (t :: rest) = .ok (.ident name, rest)
  simp only [atom, ht]
  cases rest with
  | nil => rfl
  | cons u us =>
      have hopen : u.token ≠ .symbol .openParen := by
        intro hopen
        exact absurd (hrest u us .atom rfl (by rw [hopen]; rfl)) (by decide)
      rw [nameOrCall, if_neg hopen]

/-- Items up to the closing bracket are read. -/
theorem Complete.itemsThen_eq {n : Nat} {es : List Expr} {ts : List Token}
    (h : Complete (.items es) ts) (hn : ts.length < n) {lts : List Located} {t : Located}
    (hlts : tokensOf lts = ts) (ht : t.token = .symbol .closeParen ∨ t.token = .symbol .closeBracket)
    (rest : List Located) :
    itemsThen (exprWithin n) t.token (lts ++ t :: rest) = .ok (es, rest) :=
  h n hn lts t rest _ hlts ht (Nat.le_refl _)

/-- A call is read. -/
theorem complete_call (function : String) {args : List Expr} {ts : List Token}
    (h : Complete (.items args) ts) :
    Complete (.expr .atom (.call function args))
      (.ident function :: .symbol .openParen :: (ts ++ [.symbol .closeParen])) := by
  intro n hn lts rest hlts _
  simp only [List.length_append, List.length_cons] at hn
  obtain ⟨name, lts₁, rfl, hname, h₁⟩ := of_tokensOf_cons hlts
  obtain ⟨opening, back, closing, rfl, hopening, hback, hclosing⟩ := of_tokensOf_between h₁
  have hitems := h.itemsThen_eq (show ts.length < n by omega) hback (.inl hclosing) rest
  refine ⟨_, Nat.le_refl _, ?_⟩
  simp only [List.append_assoc, List.cons_append, List.nil_append]
  show atom (exprWithin n) (name :: opening :: (back ++ closing :: rest))
    = .ok (.call function args, rest)
  simp only [atom, hname]
  rw [nameOrCall, if_pos hopening, ← hclosing, hitems]
  rfl

/-- A list is read. -/
theorem complete_list {items : List Expr} {ts : List Token} (h : Complete (.items items) ts) :
    Complete (.expr .atom (.list items)) (.symbol .openBracket :: (ts ++ [.symbol .closeBracket])) := by
  intro n hn lts rest hlts _
  simp only [List.length_append, List.length_cons] at hn
  obtain ⟨opening, back, closing, rfl, hopening, hback, hclosing⟩ := of_tokensOf_between hlts
  have hitems := h.itemsThen_eq (show ts.length < n by omega) hback (.inr hclosing) rest
  refine ⟨_, Nat.le_refl _, ?_⟩
  simp only [List.append_assoc, List.cons_append, List.nil_append]
  show atom (exprWithin n) (opening :: (back ++ closing :: rest)) = .ok (.list items, rest)
  simp only [atom, hopening]
  rw [← hclosing, hitems]
  rfl

/-- An expression in parentheses is read. -/
theorem complete_parens {e : Expr} {ts : List Token} (h : Complete (.expr .disjunction e) ts) :
    Complete (.expr .atom e) (.symbol .openParen :: (ts ++ [.symbol .closeParen])) := by
  intro n hn lts rest hlts _
  simp only [List.length_append, List.length_cons] at hn
  obtain ⟨opening, back, closing, rfl, hopening, hback, hclosing⟩ := of_tokensOf_between hlts
  have hinner : exprWithin n (back ++ closing :: rest) = .ok (e, closing :: rest) :=
    h.exprWithin_eq (by omega) hback (stops_cons (by rw [hclosing]; rfl))
  refine ⟨_, Nat.le_refl _, ?_⟩
  simp only [List.append_assoc, List.cons_append, List.nil_append]
  show atom (exprWithin n) (opening :: (back ++ closing :: rest)) = .ok (e, rest)
  simp only [atom, hopening]
  rw [hinner]
  show (Token.expect _ _ >>= _) = _
  rw [expect_cons hclosing]
  rfl

/-! ### Items -/

theorem joins?_of_close {t : Token} (h : t = .symbol .closeParen ∨ t = .symbol .closeBracket) :
    joins? t = none := by
  rcases h with rfl | rfl <;> rfl

theorem complete_noItems : Complete (.items []) [] := by
  intro n _ lts t rest k hlts _ hk
  obtain rfl : lts = [] := List.map_eq_nil_iff.mp hlts
  cases k with
  | zero => simp at hk
  | succ k =>
      show itemsUpTo (exprWithin n) t.token (k + 1) (t :: rest) = .ok ([], rest)
      rw [itemsUpTo, if_pos rfl]

theorem Starts.ne_close {level : Level} {t close : Token} (h : Starts level t)
    (hclose : close = .symbol .closeParen ∨ close = .symbol .closeBracket) : t ≠ close := by
  rcases hclose with rfl | rfl
  · exact h.ne_closeParen
  · exact h.ne_closeBracket

/-- The items begin with an expression, after which the closing bracket or a comma follows. -/
theorem itemsUpTo_of_expr {self : Reader Expr} {close : Token} {e : Expr} {t u : Located}
    {ts us : List Located} (hne : t.token ≠ close) (h : self (t :: ts) = .ok (e, u :: us)) (k : Nat) :
    itemsUpTo self close (k + 1) (t :: ts)
      = if u.token = .symbol .comma then do
          let (items, after) ← itemsUpTo self close k us
          return (e :: items, after)
        else if u.token = close then .ok ([e], us)
        else .error u.unexpected := by
  rw [itemsUpTo, if_neg hne, h]
  rfl

theorem complete_lastItem {e : Expr} {ts : List Token}
    (hstarts : ∃ t us, ts = t :: us ∧ Starts .disjunction t) (h : Complete (.expr .disjunction e) ts) :
    Complete (.items [e]) ts := by
  intro n hn lts t rest k hlts ht hk
  obtain ⟨t₀, us, rfl, hstart⟩ := hstarts
  have hinner : exprWithin n (lts ++ t :: rest) = .ok (e, t :: rest) :=
    h.exprWithin_eq hn hlts (stops_cons (joins?_of_close ht))
  obtain ⟨u, back, rfl, hu, hback⟩ := of_tokensOf_cons hlts
  rw [List.cons_append] at hinner hk ⊢
  cases k with
  | zero => simp at hk
  | succ k =>
      have hcomma : t.token ≠ .symbol .comma := by
        intro hcomma
        rcases ht with ht | ht <;> · rw [hcomma] at ht; cases ht
      rw [itemsUpTo_of_expr (hu ▸ hstart.ne_close ht) hinner, if_neg hcomma, if_pos rfl]

theorem complete_moreItems {e : Expr} {es : List Expr} {ts us : List Token}
    (hstarts : ∃ t vs, ts = t :: vs ∧ Starts .disjunction t) (h : Complete (.expr .disjunction e) ts)
    (hes : Complete (.items es) us) : Complete (.items (e :: es)) (ts ++ .symbol .comma :: us) := by
  intro n hn lts t rest k hlts ht hk
  simp only [List.length_append, List.length_cons] at hn
  obtain ⟨t₀, vs, rfl, hstart⟩ := hstarts
  obtain ⟨front, lts₁, rfl, hfront, h₁⟩ := of_tokensOf_append hlts
  obtain ⟨comma, back, rfl, hcomma, hback⟩ := of_tokensOf_cons h₁
  have hinner : exprWithin n (front ++ comma :: (back ++ t :: rest))
      = .ok (e, comma :: (back ++ t :: rest)) :=
    h.exprWithin_eq (by omega) hfront (stops_cons (by rw [hcomma]; rfl))
  obtain ⟨u, front', rfl, hu, -⟩ := of_tokensOf_cons hfront
  rw [List.cons_append] at hinner
  cases k with
  | zero => simp at hk
  | succ k =>
      have hitems : itemsUpTo (exprWithin n) t.token k (back ++ t :: rest) = .ok (es, rest) := by
        refine hes n (by omega) back t rest k hback ht ?_
        simp at hk ⊢
        omega
      simp only [List.append_assoc, List.cons_append]
      rw [itemsUpTo_of_expr (hu ▸ hstart.ne_close ht) hinner, if_pos hcomma, hitems]
      rfl

/-- Every phrase is read. -/
theorem Derives.complete {phrase : Phrase} {ts : List Token} (h : Derives phrase ts) :
    Complete phrase ts := by
  induction h with
  | tighter hlevel hderives ih =>
      exact fun n hn => reads_of_tighter hlevel hderives.starts (ih n hn)
  | binary hne htight _ _ ihl ihr =>
      intro n hn
      simp only [List.length_append] at hn
      exact (ihl n (by omega)).binary hne htight (ihr n (by omega))
  | not _ ih => exact complete_not ih
  | compare hop _ _ ihl ihr => exact complete_compare hop ihl ihr
  | compareMore hop _ _ ihl ihr => exact complete_compareMore hop ihl ihr
  | comparison _ ih => exact complete_comparison ih
  | negative _ ih => exact complete_minus ih
  | minus hne _ ih => exact negated_of_ne hne ▸ complete_minus ih
  | count _ _ ihxs ihitem => exact complete_count ihxs ihitem
  | int n => exact complete_single fun _ t ts ht => by simp only [atom, ht]
  | str s => exact complete_single fun _ t ts ht => by simp only [atom, ht]
  | trueValue => exact complete_single fun _ t ts ht => by simp only [atom, ht]
  | falseValue => exact complete_single fun _ t ts ht => by simp only [atom, ht]
  | ident name => exact complete_ident name
  | call function _ ih => exact complete_call function ih
  | list _ ih => exact complete_list ih
  | parens _ ih => exact complete_parens ih
  | noItems => exact complete_noItems
  | lastItem hderives ih => exact complete_lastItem hderives.starts ih
  | moreItems hderives _ ih ihes => exact complete_moreItems hderives.starts ih ihes

/-- The parser accepts exactly the lists of tokens that the grammar derives, with the same expression. -/
theorem ofTokens_eq_ok_iff {ts : List Located} {e : Expr} :
    ofTokens ts = .ok e ↔ Derives (.expr .disjunction e) (tokensOf ts) := by
  constructor
  · exact ofTokens_sound
  · intro h
    cases ts with
    | nil =>
        obtain ⟨t, us, hnil, -⟩ := h.starts
        cases hnil
    | cons t ts =>
        have hrun : exprWithin (t :: ts).length (t :: ts ++ []) = .ok (e, []) := by
          have hread := h.complete ts.length (by rw [length_tokensOf]; exact Nat.le_refl _)
          exact hread.finish rfl (stops_nil _)
        rw [List.append_nil] at hrun
        rw [ofTokens, hrun]
        rfl

end FiniteDomain.Expr
