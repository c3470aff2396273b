import FiniteDomain.Problem.Generate
import FiniteDomain.Proofs.Problem.Numbered

/-!
# Generated problems mean what was drawn

The generator throws one coin for each pair of variables and, if it comes up, another for each pair of values. How the
coins come out, `Outcomes`, determines the problem: which pairs of variables are constrained and which pairs of values
they may not take. Whatever the coins, the throws are made in lexicographic order, the problem drawn is the one of
their outcomes, and a solve of it finds exactly the vectors that take no forbidden pair (`draw_eq_problem_iff`).

This is so as long as the number of values is a word. A greater one is wrapped when the domains are made, so that
their values are not those that were asked for (`draw_past_greatest_word`).
-/

namespace FiniteDomain.Problem

variable {σ : Type}

/-! ## Throws and their outcomes -/

/-- A throw of the coin for pairs of variables or of the one for pairs of values, and how it comes out. -/
inductive Throw where
  | density (outcome : Bool)
  | tightness (outcome : Bool)

/-- The two coins, thrown one after the other, come out as listed. -/
inductive Throws (constrained forbidden : StateM σ Bool) : σ → List Throw → σ → Prop where
  | none (s : σ) : Throws constrained forbidden s [] s
  | density {s s' s'' : σ} {b : Bool} {ts : List Throw} :
      constrained.run s = (b, s') → Throws constrained forbidden s' ts s'' →
        Throws constrained forbidden s (.density b :: ts) s''
  | tightness {s s' s'' : σ} {b : Bool} {ts : List Throw} :
      forbidden.run s = (b, s') → Throws constrained forbidden s' ts s'' →
        Throws constrained forbidden s (.tightness b :: ts) s''

/-- How the coins come out for each pair of variables and each pair of values. -/
structure Outcomes where
  constrained : Nat × Nat → Bool
  forbidden : Nat × Nat → Nat × Nat → Bool

namespace Outcomes

/-- The pairs of values that are forbidden to a pair of variables. -/
def drawn (o : Outcomes) (d : Nat) (p : Nat × Nat) : List (Nat × Nat) :=
  (grid d).filter (o.forbidden p)

/-- The throws for a pair of variables: one, and if it comes up one for each pair of values. -/
def throwsFor (o : Outcomes) (d : Nat) (p : Nat × Nat) : List Throw :=
  .density (o.constrained p) :: if o.constrained p then (grid d).map fun q => .tightness (o.forbidden p q) else []

/-- The throws for all pairs of variables. -/
def transcript (o : Outcomes) (n d : Nat) : List Throw :=
  (ascents n).flatMap (o.throwsFor d)

/-- The constraint between two variables; there is none if the pair is not constrained or no pair of values is
forbidden. -/
def constraint? (o : Outcomes) (d : Nat) (p : Nat × Nat) : Option Constraint :=
  if o.constrained p ∧ o.drawn d p ≠ [] then
    some (.ofExpr (forbidding (generatedName p.1) (generatedName p.2) ((o.drawn d p).map (Prod.map .nat .nat))))
  else none

/-- The problem of the outcomes. -/
def problem (o : Outcomes) (n d : Nat) : Problem :=
  numbered generatedName n d ((ascents n).filterMap (o.constraint? d))

/-- No constrained pair of variables takes a forbidden pair of values. -/
def Allows {n d : Nat} (o : Outcomes) (r : Fin n → Fin d) : Prop :=
  ∀ i j : Fin n, i < j → o.constrained (i, j) → o.forbidden (i, j) (r i, r j) = false

/-- The outcomes with other ones for one pair of variables. -/
def update (o : Outcomes) (p : Nat × Nat) (b : Bool) (f : Nat × Nat → Bool) : Outcomes where
  constrained := Function.update o.constrained p b
  forbidden := Function.update o.forbidden p f

/-- Another pair keeps its throws and its constraint. -/
theorem update_of_ne (o : Outcomes) (d : Nat) {p q : Nat × Nat} (b : Bool) (f : Nat × Nat → Bool) (h : q ≠ p) :
    (o.update p b f).throwsFor d q = o.throwsFor d q ∧ (o.update p b f).constraint? d q = o.constraint? d q := by
  have hconstrained : (o.update p b f).constrained q = o.constrained q := by
    simp only [update, Function.update_of_ne h]
  have hforbidden : (o.update p b f).forbidden q = o.forbidden q := by
    simp only [update, Function.update_of_ne h]
  constructor
  · rw [throwsFor, throwsFor, hconstrained, hforbidden]
  · rw [constraint?, constraint?, drawn, drawn, hconstrained, hforbidden]

end Outcomes

/-- The pairs of values are the pairs of numbers. -/
theorem valuePairs_eq_map {d : Nat} (hd : d < 2 ^ 63) : valuePairs d = (grid d).map (Prod.map .nat .nat) := by
  simp only [valuePairs, Value.upTo_eq_map hd, grid, SProd.sprod, List.product, List.flatMap_map, List.map_flatMap,
    List.map_map]
  rfl

/-! ## What is drawn -/

section Coins

variable {constrained forbidden : StateM σ Bool}

theorem Throws.append {s s' s'' : σ} {ts us : List Throw} (h : Throws constrained forbidden s ts s')
    (h' : Throws constrained forbidden s' us s'') : Throws constrained forbidden s (ts ++ us) s'' := by
  induction h with
  | none s => exact h'
  | density hrun _ ih => exact .density hrun (ih h')
  | tightness hrun _ ih => exact .tightness hrun (ih h')

theorem run_bind_of_run {α β : Type} {act : StateM σ α} {next : α → StateM σ β} {s s' : σ} {a : α}
    (h : act.run s = (a, s')) : (act >>= next).run s = (next a).run s' := by
  rw [StateT.run_bind, h]
  rfl

/-- Choosing throws the coin for each item in order and keeps those for which it comes up. -/
theorem exists_choose {α β : Type} [DecidableEq α] (f : α → β) {as : List α} (has : as.Nodup) (s : σ) :
    ∃ (keep : α → Bool) (s' : σ), Throws constrained forbidden s (as.map fun a => .tightness (keep a)) s' ∧
      (choose forbidden (as.map f)).run s = ((as.filter keep).map f, s') := by
  induction as generalizing s with
  | nil => exact ⟨fun _ => false, s, .none s, rfl⟩
  | cons a as ih =>
      obtain ⟨ha, has⟩ := List.nodup_cons.mp has
      rcases hrun : forbidden.run s with ⟨b, s₁⟩
      obtain ⟨keep, s₂, hthrows, hchoose⟩ := ih has s₁
      have hkeep : ∀ x ∈ as, Function.update keep a b x = keep x :=
        fun x hx => Function.update_of_ne (ne_of_mem_of_not_mem hx ha) b keep
      refine ⟨Function.update keep a b, s₂, ?_, ?_⟩
      · rw [List.map_cons, Function.update_self, List.map_congr_left fun x hx => congrArg Throw.tightness (hkeep x hx)]
        exact .tightness hrun hthrows
      · have hstep : (choose forbidden (f a :: as.map f)).run s
            = (if b then f a :: (as.filter keep).map f else (as.filter keep).map f, s₂) := by
          rw [choose, run_bind_of_run hrun, run_bind_of_run hchoose]
          rfl
        rw [List.map_cons, hstep, List.filter_cons, Function.update_self, List.filter_congr hkeep]
        cases b <;> rfl

/-- One step of drawing the constraints. -/
theorem run_drawConstraints_cons {d : Nat} {a b : String} {rest : List (String × String)} {t : Bool}
    {drawn : List (Value × Value)} {constraints : List Constraint} {s s₁ s₂ s₃ : σ}
    (hrun : constrained.run s = (t, s₁))
    (hchoose : (if t then choose forbidden (valuePairs d) else pure []).run s₁ = (drawn, s₂))
    (hdraw : (drawConstraints constrained forbidden d rest).run s₂ = (constraints, s₃)) :
    (drawConstraints constrained forbidden d ((a, b) :: rest)).run s
      = (if drawn.isEmpty then constraints else .ofExpr (forbidding a b drawn) :: constraints, s₃) := by
  rw [drawConstraints, run_bind_of_run hrun]
  cases t with
  | false =>
      cases hchoose
      show (drawConstraints constrained forbidden d rest >>= _).run s₁ = _
      rw [run_bind_of_run hdraw]
      rfl
  | true =>
      have hchosen : (choose forbidden (valuePairs d)).run s₁ = (drawn, s₂) := hchoose
      show (choose forbidden (valuePairs d) >>= _).run s₁ = _
      rw [run_bind_of_run hchosen, run_bind_of_run hdraw]
      rfl

/-- Drawing the constraints between pairs of variables throws the coins for each pair in order and makes the
constraints of the outcomes. -/
theorem exists_drawConstraints {d : Nat} (hd : d < 2 ^ 63) {ps : List (Nat × Nat)} (hps : ps.Nodup) (s : σ) :
    ∃ (o : Outcomes) (s' : σ), Throws constrained forbidden s (ps.flatMap (o.throwsFor d)) s' ∧
      (drawConstraints constrained forbidden d (ps.map (Prod.map generatedName generatedName))).run s
        = (ps.filterMap (o.constraint? d), s') := by
  induction ps generalizing s with
  | nil => exact ⟨⟨fun _ => false, fun _ _ => false⟩, s, .none s, rfl⟩
  | cons p ps ih =>
      obtain ⟨hp, hps⟩ := List.nodup_cons.mp hps
      rcases hrun : constrained.run s with ⟨b, s₁⟩
      obtain ⟨f, s₂, hchosen, hchoose⟩ : ∃ (f : Nat × Nat → Bool) (s₂ : σ),
          Throws constrained forbidden s₁ (if b then (grid d).map fun q => .tightness (f q) else []) s₂ ∧
          (if b then choose forbidden (valuePairs d) else pure []).run s₁
            = (if b then ((grid d).filter f).map (Prod.map .nat .nat) else [], s₂) := by
        cases b with
        | false => exact ⟨fun _ => false, s₁, .none s₁, rfl⟩
        | true =>
            obtain ⟨f, s₂, h⟩ := exists_choose (Prod.map Value.nat Value.nat) (nodup_grid d) s₁
            rw [← valuePairs_eq_map hd] at h
            exact ⟨f, s₂, h⟩
      obtain ⟨o, s₃, hthrows, hdraw⟩ := ih hps s₂
      have hrest : ∀ q ∈ ps, (o.update p b f).throwsFor d q = o.throwsFor d q ∧
          (o.update p b f).constraint? d q = o.constraint? d q :=
        fun q hq => o.update_of_ne d b f (ne_of_mem_of_not_mem hq hp)
      refine ⟨o.update p b f, s₃, ?_, ?_⟩
      · rw [List.flatMap_cons, List.flatMap_congr fun q hq => (hrest q hq).1]
        simp only [Outcomes.throwsFor, Outcomes.update, Function.update_self]
        exact .density hrun (hchosen.append hthrows)
      · rw [List.filterMap_cons, List.filterMap_congr fun q hq => (hrest q hq).2]
        rw [List.map_cons, Prod.map_apply', run_drawConstraints_cons hrun hchoose hdraw]
        simp only [Outcomes.constraint?, Outcomes.drawn, Outcomes.update, Function.update_self]
        cases b with
        | false => rfl
        | true => cases (grid d).filter f <;> rfl

end Coins

/-! ## What a drawn constraint says -/

/-- A list of pairs of constants has the pairs as its items. -/
theorem evalAllNamed_pairs (env : String → Option Value) (vs : List (Value × Value)) :
    Expr.evalAllNamed env (vs.map fun (x, y) => .list [.literal x, .literal y])
      = .ok (vs.map fun (x, y) => .list [x, y]) := by
  induction vs with
  | nil => rfl
  | cons v vs ih =>
      rw [List.map_cons, Expr.evalAllNamed, ih]
      rfl

/-- The constraint relates the numbers that are not drawn. -/
theorem relates_forbidding {d : Nat} (hd : d ≤ 2 ^ 63) (s t : String) {drawn : List (Nat × Nat)}
    (hdrawn : ∀ q ∈ drawn, q ∈ grid d) :
    (Constraint.ofExpr (forbidding s t (drawn.map (Prod.map .nat .nat)))).Relates d s t
      fun x y => (x, y) ∉ drawn where
  mentions_left := .inl (.inl rfl)
  mentions_right := .inl (.inr (.inl rfl))
  evalNamed := by
    intro env x y hx hy hs ht
    have hpair : (Expr.list [.ident s, .ident t]).evalNamed env = .ok (.list [.nat x, .nat y]) := by
      simp only [Expr.evalNamed, Expr.evalAllNamed, hs, ht]
      rfl
    refine ⟨!((drawn.map (Prod.map .nat .nat)).map fun (a, b) => Value.list [a, b]).contains
      (.list [.nat x, .nat y]), ?_, ?_⟩
    · simp only [Constraint.ofExpr, forbidding, Expr.evalNamed] at hpair ⊢
      rw [hpair, evalAllNamed_pairs]
      rfl
    · simp only [Bool.not_eq_true', List.contains_eq_mem, decide_eq_false_iff_not, List.map_map, List.mem_map]
      refine not_congr ⟨?_, fun h => ⟨(x, y), h, rfl⟩⟩
      rintro ⟨⟨a, b⟩, hab, heq⟩
      obtain ⟨ha, hb⟩ := mem_grid.mp (hdrawn _ hab)
      simp only [Function.comp_apply, Prod.map_apply, Value.list.injEq, List.cons.injEq, and_true] at heq
      obtain rfl := (Value.nat_inj (ha.trans_le hd) (hx.trans_le hd)).mp heq.1
      obtain rfl := (Value.nat_inj (hb.trans_le hd) (hy.trans_le hd)).mp heq.2
      exact hab

variable {n d : Nat}

theorem generatedName_injective : Function.Injective generatedName :=
  append_toString_injective "X"

theorem Outcomes.mem_drawn {o : Outcomes} {p q : Nat × Nat} :
    q ∈ o.drawn d p ↔ q ∈ grid d ∧ o.forbidden p q = true :=
  List.mem_filter

/-- The constraint between two variables of a pair that is constrained. -/
theorem Outcomes.mem_constraints {o : Outcomes} {c : Constraint} :
    c ∈ (o.problem n d).constraints ↔ ∃ i j : Fin n, i < j ∧ o.constrained (i, j) ∧ o.drawn d (i, j) ≠ [] ∧
      c = .ofExpr (forbidding (generatedName i) (generatedName j) ((o.drawn d (i, j)).map (Prod.map .nat .nat))) := by
  simp only [problem, numbered, List.mem_filterMap, constraint?, Option.ite_none_right_eq_some, Option.some.injEq]
  constructor
  · rintro ⟨⟨i, j⟩, hij, ⟨hconstrained, hdrawn⟩, rfl⟩
    obtain ⟨hlt, hj⟩ := mem_ascents.mp hij
    exact ⟨⟨i, hlt.trans hj⟩, ⟨j, hj⟩, hlt, hconstrained, hdrawn, rfl⟩
  · rintro ⟨i, j, hij, hconstrained, hdrawn, rfl⟩
    exact ⟨(i, j), mem_ascents.mpr ⟨hij, j.isLt⟩, ⟨hconstrained, hdrawn⟩, rfl⟩

theorem Outcomes.relates (hd : d ≤ 2 ^ 63) (o : Outcomes) (i j : Fin n) :
    (Constraint.ofExpr (forbidding (generatedName i) (generatedName j)
      ((o.drawn d (i, j)).map (Prod.map .nat .nat)))).Relates d (generatedName i) (generatedName j)
        fun x y => (x, y) ∉ o.drawn d (i, j) :=
  relates_forbidding hd _ _ fun _ hq => (mem_drawn.mp hq).1

/-- All constraints are true of exactly the vectors that the outcomes allow. -/
theorem Outcomes.forall_evalNamed_iff_allows (hd : d ≤ 2 ^ 63) (o : Outcomes) (r : Fin n → Fin d) :
    (∀ c ∈ (o.problem n d).constraints, c.expr.evalNamed (reading generatedName r) = .ok (.bool true)) ↔
      o.Allows r := by
  have hgrid : ∀ i j, ((r i : Nat), (r j : Nat)) ∈ grid d := fun i j => mem_grid.mpr ⟨(r i).isLt, (r j).isLt⟩
  constructor
  · intro h i j hij hconstrained
    by_contra hforbidden
    have hmem : ((r i : Nat), (r j : Nat)) ∈ o.drawn d (i, j) :=
      mem_drawn.mpr ⟨hgrid i j, Bool.eq_true_of_not_eq_false hforbidden⟩
    have htrue := h _ (mem_constraints.mpr ⟨i, j, hij, hconstrained, List.ne_nil_of_mem hmem, rfl⟩)
    exact (evalNamed_reading_iff generatedName_injective (o.relates hd i j) r).mp htrue hmem
  · intro h c hc
    obtain ⟨i, j, hij, hconstrained, -, rfl⟩ := mem_constraints.mp hc
    refine (evalNamed_reading_iff generatedName_injective (o.relates hd i j) r).mpr fun hmem => ?_
    exact Bool.false_ne_true ((h i j hij hconstrained).symm.trans (mem_drawn.mp hmem).2)

/-- A solve of the problem of outcomes finds exactly the vectors that they allow. -/
theorem Outcomes.problem_solvedExactly (hd : 0 < n → d < 2 ^ 63) (o : Outcomes) :
    (o.problem n d).SolvedExactly (Solution.numbered generatedName) (o.Allows : (Fin n → Fin d) → Prop) := by
  have hrelates : ∀ c ∈ (o.problem n d).constraints, ∃ (i j : Fin n) (R : Nat → Nat → Prop),
      c.Relates d (generatedName i) (generatedName j) R := by
    intro c hc
    obtain ⟨i, j, -, -, -, rfl⟩ := mem_constraints.mp hc
    exact ⟨i, j, _, o.relates (hd (Nat.zero_lt_of_lt i.isLt)).le i j⟩
  have hallows : (o.Allows : (Fin n → Fin d) → Prop) = fun r =>
      ∀ c ∈ (o.problem n d).constraints, c.expr.evalNamed (reading generatedName r) = .ok (.bool true) := by
    funext r
    refine propext ?_
    rcases Nat.eq_zero_or_pos n with rfl | hn
    · -- Without variables there is nothing to constrain.
      exact ⟨fun _ c hc => (mem_constraints.mp hc).elim fun i => i.elim0, fun _ i => i.elim0⟩
    · exact (o.forall_evalNamed_iff_allows (hd hn).le r).symm
  rw [hallows]
  exact numbered_solvedExactly generatedName_injective hd hrelates

/-! ## Drawn problems -/

/-- The domain up to a number that is no word has other values than the numbers below it. -/
theorem upTo_ne_map {d : Nat} (hd : 2 ^ 63 ≤ d) : Value.upTo d ≠ (List.range d).map .nat := by
  intro h
  have hlength := congrArg List.length h
  have hword := Int64.toInt_lt (Int64.ofNat d)
  simp only [Value.upTo, Value.range, List.length_map, List.length_range] at hlength
  have hzero : (0 : Int64).toInt = 0 := by decide
  omega

section Coins

variable {constrained forbidden : StateM σ Bool}

/-- Drawing a problem draws its constraints. -/
theorem run_draw {n d : Nat} {constraints : List Constraint} {s s' : σ}
    (h : (drawConstraints constrained forbidden d (pairs ((List.range n).map generatedName))).run s
      = (constraints, s')) :
    (draw n d constrained forbidden).run s = ({
      vars := (List.range n).map fun i => { name := generatedName i, domain := Value.upTo d }
      constraints := constraints }, s') := by
  rw [draw, run_bind_of_run h, List.map_map]
  rfl

/-- The problem drawn is one of outcomes of the coins, which are thrown in lexicographic order of the pairs. -/
theorem exists_outcomes (s : σ) (n : Nat) {d : Nat} (hd : 0 < n → d < 2 ^ 63) :
    ∃ (o : Outcomes) (s' : σ), Throws constrained forbidden s (o.transcript n d) s' ∧
      (draw n d constrained forbidden).run s = (o.problem n d, s') := by
  rcases Nat.eq_zero_or_pos n with rfl | hn
  · exact ⟨⟨fun _ => false, fun _ _ => false⟩, s, .none s, rfl⟩
  · obtain ⟨o, s', hthrows, hdraw⟩ :=
      exists_drawConstraints (hd hn) ((nodup_grid n).filter fun p => p.1 < p.2) s
    refine ⟨o, s', hthrows, ?_⟩
    rw [run_draw ((pairs_map_range generatedName n).symm ▸ hdraw), Value.upTo_eq_map (hd hn)]
    rfl

/-- A problem of outcomes is drawn only if its number of values is a word. -/
theorem lt_of_run_draw {n d : Nat} {o : Outcomes} {s s' : σ}
    (h : (draw n d constrained forbidden).run s = (o.problem n d, s')) (hn : 0 < n) : d < 2 ^ 63 := by
  rcases hrun : (drawConstraints constrained forbidden d (pairs ((List.range n).map generatedName))).run s
    with ⟨constraints, s''⟩
  have hvars := congrArg (fun result => result.1.vars[0]?) ((run_draw hrun).symm.trans h)
  have hdomain : Value.upTo d = (List.range d).map .nat := by
    simpa [Outcomes.problem, numbered, List.getElem?_range hn] using hvars
  by_contra hd
  exact upTo_ne_map (Nat.le_of_not_lt hd) hdomain

end Coins

/-- Whatever the coins, drawing throws them in lexicographic order of the pairs, makes the problem of their outcomes,
and a solve of it finds exactly the vectors of values that take no forbidden pair: this is so if and only if the number
of values is a word, or there are no variables. -/
theorem draw_eq_problem_iff (constrained forbidden : StateM σ Bool) (s : σ) (n d : Nat) :
    (∃ (o : Outcomes) (s' : σ), Throws constrained forbidden s (o.transcript n d) s' ∧
      (draw n d constrained forbidden).run s = (o.problem n d, s') ∧
      (o.problem n d).SolvedExactly (Solution.numbered generatedName) (o.Allows : (Fin n → Fin d) → Prop)) ↔
        (0 < n → d < 2 ^ 63) := by
  constructor
  · rintro ⟨o, s', -, hdraw, -⟩
    exact lt_of_run_draw hdraw
  · intro hd
    obtain ⟨o, s', hthrows, hdraw⟩ := exists_outcomes s n hd
    exact ⟨o, s', hthrows, hdraw, o.problem_solvedExactly hd⟩

/-- One variable that is to have `2 ^ 63` values has none: the problem drawn is that of no outcomes. -/
theorem draw_past_greatest_word :
    (draw 1 (2 ^ 63) (pure true) (pure true) : StateM Unit Problem).run ()
        = ({ vars := [{ name := "X0", domain := [] }], constraints := [] }, ()) ∧
      ¬ ∃ o : Outcomes, (draw 1 (2 ^ 63) (pure true) (pure true) : StateM Unit Problem).run ()
        = (o.problem 1 (2 ^ 63), ()) := by
  refine ⟨rfl, ?_⟩
  rintro ⟨o, h⟩
  exact Nat.lt_irrefl _ (lt_of_run_draw h Nat.one_pos)

end FiniteDomain.Problem
