import Mathlib.Data.List.Basic
import FiniteDomain.Problem.Domain
import FiniteDomain.Proofs.Syntax.Readable

/-!
# The grammar of written domains

A domain is a sequence of items, which spell values over the integers: `Signed` says which integer a number with or
without a minus sign is, `Counts` which words a range stands for, and both say it without any wrapping. A text is read
as a domain exactly if its tokens spell one (`parse_eq_ok_iff`). That no word overflows on the way rests on the
numbers of a text, which are not negative, so that each of them has a negative (`toInt_neg_of_readAll`).
-/

namespace FiniteDomain.Domain

/-! ## The grammar -/

/-- The tokens are a number, which may have a minus sign, and this is its value. -/
inductive Signed : List Token → Int → Prop where
  | plain (n : Int64) : Signed [.int n] n.toInt
  | negative (n : Int64) : Signed [.symbol .minus, .int n] (-n.toInt)

/-- The words are the integers from `first` up to but not including `last`. -/
def Counts (first last : Int64) (ns : List Int64) : Prop :=
  ns.map Int64.toInt = (List.range (last.toInt - first.toInt).toNat).map fun k : Nat => first.toInt + k

/-- The values that an item of a domain stands for. -/
inductive Item : List Token → List Value → Prop where
  | integer {ts : List Token} {n : Int64} : Signed ts n.toInt → Item ts [.int n]
  | range {ts us : List Token} {first last : Int64} {ns : List Int64} :
      Signed ts first.toInt → Signed us last.toInt → first ≤ last → Counts first last ns →
        Item (ts ++ .symbol .dot :: .symbol .dot :: us) (ns.map .int)
  | text (s : String) : Item [.str s] [.str s]
  | trueValue : Item [.keyword .trueValue] [.bool true]
  | falseValue : Item [.keyword .falseValue] [.bool false]

/-- The values that items stand for one after the other. -/
inductive Spells : List Token → List Value → Prop where
  | nil : Spells [] []
  | cons {ts us : List Token} {vs ws : List Value} :
      Item ts vs → Spells us ws → Spells (ts ++ us) (vs ++ ws)

/-- A number does not start with a dot. -/
theorem Signed.exists_cons {ts : List Token} {a : Int} (h : Signed ts a) :
    ∃ t us, ts = t :: us ∧ t ≠ .symbol .dot := by
  cases h with
  | plain n => exact ⟨_, _, rfl, Token.noConfusion⟩
  | negative n => exact ⟨_, _, rfl, by decide⟩

/-- No item starts with a dot. -/
theorem Item.exists_cons {ts : List Token} {vs : List Value} (h : Item ts vs) :
    ∃ t us, ts = t :: us ∧ t ≠ .symbol .dot := by
  cases h with
  | integer hsigned => exact hsigned.exists_cons
  | range hfirst _ _ _ =>
      obtain ⟨t, us, rfl, ht⟩ := hfirst.exists_cons
      exact ⟨t, _, rfl, ht⟩
  | text _ | trueValue | falseValue => exact ⟨_, _, rfl, Token.noConfusion⟩

theorem Spells.head_ne_dot {t : Token} {ts : List Token} {vs : List Value} (h : Spells (t :: ts) vs) :
    t ≠ .symbol .dot := by
  generalize htokens : t :: ts = tokens at h
  cases h with
  | nil => cases htokens
  | cons hitem _ =>
      obtain ⟨u, us, rfl, hu⟩ := hitem.exists_cons
      obtain ⟨rfl, -⟩ := List.cons.inj htokens
      exact hu

/-! ## Exact integers -/

/-- The values of a range are counted without wrapping. -/
theorem exists_counts (first last : Int64) : ∃ ns, Value.range first last = ns.map .int ∧ Counts first last ns := by
  refine ⟨(List.range (last.toInt - first.toInt).toNat).map fun k => first + Int64.ofNat k, ?_, ?_⟩
  · rw [List.map_map]
    rfl
  · rw [Counts, List.map_map]
    refine List.map_congr_left fun k hk => ?_
    have hk := List.mem_range.mp hk
    have hfirst := Int64.le_toInt first
    have hlast := Int64.toInt_lt last
    have hsize : Int64.size = 2 ^ 64 := rfl
    rw [Function.comp_apply, Int64.toInt_add, Int64.toInt_ofNat', Int.add_bmod_bmod]
    exact Int.bmod_eq_of_le (by omega) (by omega)

theorem Counts.unique {first last : Int64} {ns ms : List Int64} (h : Counts first last ns)
    (h' : Counts first last ms) : ns = ms :=
  List.map_injective_iff.mpr (fun _ _ => Int64.toInt_inj.mp) (h.trans h'.symm)

/-- A word that is not negative has a negative. -/
theorem toInt_neg_of_nonneg {n : Int64} (h : 0 ≤ n.toInt) : (-n).toInt = -n.toInt := by
  refine Expr.toInt_neg_of_minValue_lt ?_
  have hmin : Int64.minValue.toInt = -2 ^ 63 := rfl
  omega

/-! ## Readers of items -/

/-- The tokens are ones that a text can have. -/
def Proper (ts : List Located) : Prop :=
  ∀ t ∈ tokensOf ts, t.IsProper

theorem Proper.of_append {front back : List Located} (h : Proper (front ++ back)) : Proper back := by
  intro t ht
  refine h t ?_
  rw [tokensOf_append]
  exact List.mem_append_right _ ht

theorem Proper.tail {t : Located} {ts : List Located} (h : Proper (t :: ts)) : Proper ts :=
  Proper.of_append (show Proper ([t] ++ ts) from h)

/-- The number of a text has a negative. -/
theorem Proper.toInt_neg {t : Located} {ts : List Located} {n : Int64} (h : Proper (t :: ts))
    (ht : t.token = .int n) : (-n).toInt = -n.toInt := by
  have hproper := h t.token List.mem_cons_self
  rw [ht] at hproper
  exact toInt_neg_of_nonneg hproper

/-- What is read as an integer is a number with or without a minus sign. -/
theorem readInt_sound {t : Located} {ts rest : List Located} {n : Int64} (hproper : Proper (t :: ts))
    (h : readInt t ts = .ok (n, rest)) :
    ∃ front, t :: ts = front ++ rest ∧ Signed (tokensOf front) n.toInt := by
  obtain ⟨offset, token⟩ := t
  cases token with
  | int m =>
      cases h
      exact ⟨[⟨offset, .int n⟩], rfl, .plain n⟩
  | symbol s =>
      cases s <;> try cases h
      cases ts with
      | nil => cases h
      | cons u us =>
          obtain ⟨offset', token'⟩ := u
          cases token' with
          | int m =>
              simp only [readInt, Except.ok.injEq, Prod.mk.injEq] at h
              obtain ⟨rfl, rfl⟩ := h
              refine ⟨[⟨offset, .symbol .minus⟩, ⟨offset', .int m⟩], rfl, ?_⟩
              rw [hproper.tail.toInt_neg rfl]
              exact .negative m
          | str s => cases h
          | ident name => cases h
          | keyword k => cases h
          | symbol s => cases h
  | str s => cases h
  | ident name => cases h
  | keyword k => cases h

/-- A number with or without a minus sign is read as an integer. -/
theorem readInt_complete {a : Int} {t : Located} {front ts back : List Located} (hproper : Proper (t :: ts))
    (hsigned : Signed (tokensOf front) a) (h : t :: ts = front ++ back) :
    ∃ n, readInt t ts = .ok (n, back) ∧ n.toInt = a := by
  generalize hfront : tokensOf front = tokens at hsigned
  cases hsigned with
  | plain n =>
      obtain ⟨u, rfl, hu⟩ := of_tokensOf_singleton hfront
      obtain ⟨rfl, rfl⟩ := List.cons.inj h
      exact ⟨n, by simp only [readInt, hu], rfl⟩
  | negative n =>
      obtain ⟨u, back', rfl, hu, hback⟩ := of_tokensOf_cons hfront
      obtain ⟨w, rfl, hw⟩ := of_tokensOf_singleton hback
      simp only [List.cons_append, List.nil_append, List.cons.injEq] at h
      obtain ⟨rfl, rfl⟩ := h
      exact ⟨-n, by simp only [readInt, hu, hw], hproper.tail.toInt_neg hw⟩

/-- What is read after a first dot is another dot and an integer, at which the range ends. -/
theorem readRange_sound {t : Located} {first : Int64} {ts rest : List Located} {vs : List Value}
    (hproper : Proper ts) (h : readRange t first ts = .ok (vs, rest)) :
    ∃ (dot : Located) (front : List Located) (last : Int64) (ns : List Int64), ts = dot :: (front ++ rest) ∧
      dot.token = .symbol .dot ∧ Signed (tokensOf front) last.toInt ∧ first ≤ last ∧ Counts first last ns ∧
        vs = ns.map .int := by
  obtain ⟨us, hdot, hafter⟩ := Expr.of_bind_eq_ok h
  obtain ⟨dot, htoken, rfl⟩ := Token.eq_cons_of_expect hdot
  cases us with
  | nil => cases hafter
  | cons u us =>
      obtain ⟨⟨last, rest'⟩, hint, hrange⟩ := Expr.of_bind_eq_ok hafter
      obtain ⟨front, hfront, hsigned⟩ := readInt_sound hproper.tail hint
      dsimp only at hrange
      split at hrange
      · cases hrange
      · next hle =>
        obtain ⟨ns, hns, hcounts⟩ := exists_counts first last
        cases hrange
        exact ⟨dot, front, last, ns, by rw [hfront], htoken, hsigned, Int64.not_lt.mp hle, hcounts, hns⟩

/-- After a first dot, another dot and an integer that is not below the first are read as the end of the range. -/
theorem readRange_complete {t dot : Located} {first last : Int64} {front back : List Located} {ns : List Int64}
    (hproper : Proper (front ++ back)) (hdot : dot.token = .symbol .dot)
    (hsigned : Signed (tokensOf front) last.toInt) (hle : first ≤ last) (hcounts : Counts first last ns) :
    readRange t first (dot :: (front ++ back)) = .ok (ns.map .int, back) := by
  have hexpect : Token.expect (.symbol .dot) (dot :: (front ++ back)) = .ok (front ++ back) := by
    rw [Token.expect, if_pos hdot]
  obtain ⟨ms, hms, hcounts'⟩ := exists_counts first last
  rw [readRange, hexpect, ← hcounts'.unique hcounts, ← hms]
  cases hfront : front ++ back with
  | nil =>
      obtain ⟨rfl, -⟩ := List.append_eq_nil_iff.mp hfront
      obtain ⟨t, us, hnil, -⟩ := hsigned.exists_cons
      cases hnil
  | cons u us =>
      obtain ⟨n, hread, hn⟩ := readInt_complete (hfront ▸ hproper) hsigned hfront.symm
      obtain rfl := Int64.toInt_inj.mp hn
      simp only [bind, Except.bind, hread, if_neg (Int64.not_lt.mpr hle)]

/-- What is read as an integer or a range is an item. -/
theorem readInts_sound {t : Located} {ts rest : List Located} {vs : List Value} (hproper : Proper (t :: ts))
    (h : readInts t ts = .ok (vs, rest)) :
    ∃ front, t :: ts = front ++ rest ∧ Item (tokensOf front) vs := by
  obtain ⟨⟨first, us⟩, hint, h⟩ := Expr.of_bind_eq_ok h
  obtain ⟨front, hfront, hsigned⟩ := readInt_sound hproper hint
  rw [hfront] at hproper
  cases us with
  | nil =>
      cases h
      exact ⟨front, hfront, .integer hsigned⟩
  | cons u us =>
      dsimp only at h
      split at h
      · next hdot =>
        obtain ⟨dot, front', last, ns, rfl, hdot', hsigned', hle, hcounts, rfl⟩ :=
          readRange_sound hproper.of_append.tail h
        refine ⟨front ++ u :: dot :: front', by simp [hfront], ?_⟩
        rw [tokensOf_append, tokensOf_cons, tokensOf_cons, hdot, hdot']
        exact .range hsigned hsigned' hle hcounts
      · cases h
        exact ⟨front, hfront, .integer hsigned⟩

/-- What is read as an item is one. -/
theorem readItem_sound {t : Located} {ts rest : List Located} {vs : List Value} (hproper : Proper (t :: ts))
    (h : readItem t ts = .ok (vs, rest)) :
    ∃ front, t :: ts = front ++ rest ∧ Item (tokensOf front) vs := by
  obtain ⟨offset, token⟩ := t
  cases token with
  | int n => exact readInts_sound hproper h
  | symbol s =>
      cases s <;> try cases h
      exact readInts_sound hproper h
  | str s =>
      cases h
      exact ⟨[⟨offset, .str s⟩], rfl, .text s⟩
  | ident name => cases h
  | keyword k =>
      cases k <;> cases h
      · exact ⟨[⟨offset, .keyword .trueValue⟩], rfl, .trueValue⟩
      · exact ⟨[⟨offset, .keyword .falseValue⟩], rfl, .falseValue⟩

theorem readItem_of_readInt {t : Located} {ts rest : List Located} {n : Int64} (h : readInt t ts = .ok (n, rest)) :
    readItem t ts = readInts t ts := by
  obtain ⟨offset, token⟩ := t
  cases token with
  | int m => rfl
  | symbol s =>
      cases s <;> try cases h
      rfl
  | str s => cases h
  | ident name => cases h
  | keyword k => cases h

/-- An item is read as one, if no dot comes after it: a dot would make an integer the first end of a range. -/
theorem readItem_complete {t : Located} {front ts back : List Located} {vs : List Value}
    (hproper : Proper (t :: ts)) (hitem : Item (tokensOf front) vs) (h : t :: ts = front ++ back)
    (hback : ∀ u us, back = u :: us → u.token ≠ .symbol .dot) : readItem t ts = .ok (vs, back) := by
  generalize hfront : tokensOf front = tokens at hitem
  cases hitem with
  | integer hsigned =>
      obtain ⟨n, hread, hn⟩ := readInt_complete hproper (hfront ▸ hsigned) h
      obtain rfl := Int64.toInt_inj.mp hn
      rw [readItem_of_readInt hread, readInts, hread]
      cases back with
      | nil => rfl
      | cons u us => exact if_neg (hback u us rfl)
  | range hfirst hlast hle hcounts =>
      obtain ⟨front₁, rest₁, rfl, rfl, hrest₁⟩ := of_tokensOf_append hfront
      obtain ⟨dot₁, rest₂, rfl, hdot₁, hrest₂⟩ := of_tokensOf_cons hrest₁
      obtain ⟨dot₂, front₂, rfl, hdot₂, rfl⟩ := of_tokensOf_cons hrest₂
      have hcut : t :: ts = front₁ ++ dot₁ :: dot₂ :: (front₂ ++ back) := by simpa using h
      obtain ⟨n, hread, hn⟩ := readInt_complete hproper hfirst hcut
      obtain rfl := Int64.toInt_inj.mp hn
      rw [hcut] at hproper
      rw [readItem_of_readInt hread, readInts, hread]
      exact (if_pos hdot₁).trans (readRange_complete hproper.of_append.tail.tail hdot₂ hlast hle hcounts)
  | text _ | trueValue | falseValue =>
      obtain ⟨u, rfl, hu⟩ := of_tokensOf_singleton hfront
      obtain ⟨rfl, rfl⟩ := List.cons.inj h
      simp only [readItem, hu]

/-! ## Whole domains -/

theorem ofTokens_of_readItem {t : Located} {ts rest : List Located} {vs : List Value}
    (h : readItem t ts = .ok (vs, rest)) : ofTokens (t :: ts) = (ofTokens rest).map (vs ++ ·) := by
  rw [ofTokens]
  split
  · next hread =>
    rw [h] at hread
    cases hread
  · next hread =>
    rw [h] at hread
    cases hread
    rfl

/-- What tokens are read as they spell. -/
theorem spells_of_ofTokens {ts : List Located} (hproper : Proper ts) {vs : List Value} (h : ofTokens ts = .ok vs) :
    Spells (tokensOf ts) vs := by
  induction ts using ofTokens.induct generalizing vs with
  | case1 =>
      rw [ofTokens] at h
      cases h
      exact .nil
  | case2 t ts e hread =>
      rw [ofTokens] at h
      split at h
      · cases h
      · next hread' =>
        rw [hread] at hread'
        cases hread'
  | case3 t ts us rest hread ih =>
      obtain ⟨front, hfront, hitem⟩ := readItem_sound hproper hread
      rw [ofTokens_of_readItem hread] at h
      cases hrest : ofTokens rest with
      | error e =>
          rw [hrest] at h
          cases h
      | ok ws =>
          rw [hrest] at h
          cases h
          rw [hfront] at hproper ⊢
          rw [tokensOf_append]
          exact .cons hitem (ih hproper.of_append hrest)

/-- What tokens spell they are read as. -/
theorem ofTokens_of_spells {ts : List Located} (hproper : Proper ts) {vs : List Value} (h : Spells (tokensOf ts) vs) :
    ofTokens ts = .ok vs := by
  generalize htokens : tokensOf ts = tokens at h
  induction h generalizing ts with
  | nil =>
      obtain rfl := List.map_eq_nil_iff.mp htokens
      rw [ofTokens]
  | cons hitem hrest ih =>
      obtain ⟨front, back, rfl, rfl, rfl⟩ := of_tokensOf_append htokens
      have hback : ∀ u us, back = u :: us → u.token ≠ .symbol .dot := by
        rintro u us rfl
        exact hrest.head_ne_dot
      cases hts : front ++ back with
      | nil =>
          obtain ⟨rfl, -⟩ := List.append_eq_nil_iff.mp hts
          obtain ⟨t, us, hnil, -⟩ := hitem.exists_cons
          cases hnil
      | cons t ts =>
          rw [ofTokens_of_readItem (readItem_complete (hts ▸ hproper) hitem hts.symm hback),
            ih hproper.of_append rfl]
          rfl

/-- A text is read as a domain exactly if its tokens spell it. -/
theorem parse_eq_ok_iff {cs : List Char} {vs : List Value} :
    parse cs = .ok vs ↔ ∃ ts, Token.Lexes cs ts ∧ Spells ts vs := by
  constructor
  · intro h
    obtain ⟨located, hread, h⟩ := Expr.of_bind_eq_ok h
    have hlexes := Token.lexes_of_readAll hread
    exact ⟨tokensOf located, hlexes, spells_of_ofTokens hlexes.isProper h⟩
  · rintro ⟨ts, hlexes, hspells⟩
    obtain ⟨located, hread, rfl⟩ := hlexes.readAllFrom 0
    have hread' : Token.readAll cs = .ok located := hread
    rw [parse, hread']
    exact ofTokens_of_spells hlexes.isProper hspells

/-- Every number of a text has a negative. -/
theorem toInt_neg_of_readAll {cs : List Char} {located : List Located} (h : Token.readAll cs = .ok located)
    {t : Located} (ht : t ∈ located) {n : Int64} (hn : t.token = .int n) : (-n).toInt = -n.toInt := by
  have hproper := (Token.lexes_of_readAll h).isProper t.token (List.mem_map_of_mem ht)
  rw [hn] at hproper
  exact toInt_neg_of_nonneg hproper

end FiniteDomain.Domain
