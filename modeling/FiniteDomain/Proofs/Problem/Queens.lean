import FiniteDomain.Proofs.Problem.Numbered

/-!
# The problem of queens

The problem of `n` queens is what its name says: under every configuration a solve of it succeeds and finds exactly
the placements, one queen in each column, in which no two queens stand in one row or on one diagonal, each once
(`queens_solvedExactly`). The distances are differences of numbers below `n`, so no word overflows as long as `n` is
one.
-/

namespace FiniteDomain

/-! ## Distances of words -/

/-- Integers that are words have one. -/
theorem Checked.exists_ofInt? {n : Int} (h : -2 ^ 63 ≤ n) (h' : n < 2 ^ 63) :
    ∃ a, Checked.ofInt? n = some a ∧ a.toInt = n := by
  have htoInt : (Int64.ofInt n).toInt = n := Int64.toInt_ofInt_of_le h h'
  exact ⟨Int64.ofInt n, Checked.ofInt?_eq_some_iff.mpr htoInt, htoInt⟩

/-- The distance of two numbers that are words is evaluated without overflow. -/
theorem evalNamed_abs_sub {env : String → Option Value} {s t : String} {x y : Nat} (hx : x < 2 ^ 63)
    (hy : y < 2 ^ 63) (hs : env s = some (.nat x)) (ht : env t = some (.nat y)) :
    (Expr.call "abs" [.binary .sub (.ident s) (.ident t)]).evalNamed env
      = .ok (.nat ((x : Int) - y).natAbs) := by
  obtain ⟨a, ha, hatoInt⟩ := Checked.exists_ofInt? (n := (x : Int) - y) (by omega) (by omega)
  have hsub : Checked.sub? (Int64.ofNat x) (Int64.ofNat y) = some a := by
    rw [Checked.sub?, Int64.toInt_ofNat_of_lt hx, Int64.toInt_ofNat_of_lt hy, ha]
  have habs : Checked.abs? a = some (Int64.ofNat ((x : Int) - y).natAbs) := by
    rw [Checked.abs?, Checked.ofInt?_eq_some_iff, hatoInt]
    exact Int64.toInt_ofNat_of_lt (by omega)
  simp only [Expr.evalNamed, Expr.evalAllNamed, hs, ht, Value.nat]
  simp only [BinaryOp.apply, Operand.arithmetic, Operand.integer, bind, Except.bind, hsub, Operand.word, pure,
    Except.pure]
  show Operand.word (Checked.abs? a) = _
  rw [habs, Operand.word]

namespace Problem

/-! ## The constraints of queens -/

variable {n : Nat}

theorem queenName_injective : Function.Injective queenName :=
  append_toString_injective "Q"

/-- The constraint between the rows of two columns. -/
theorem relates_rows (hn : n ≤ 2 ^ 63) (s t : String) :
    (Constraint.ofExpr (.binary .ne (.ident s) (.ident t))).Relates n s t (· ≠ ·) where
  mentions_left := .inl rfl
  mentions_right := .inr rfl
  evalNamed := by
    intro env x y hx hy hs ht
    refine ⟨_, evalNamed_ne (evalNamed_ident hs) (evalNamed_ident ht), ?_⟩
    simp [Value.nat_inj (hx.trans_le hn) (hy.trans_le hn)]

/-- The constraint between the diagonals of two columns. -/
theorem relates_diagonals (hn : n ≤ 2 ^ 63) {i j : Nat} (hj : j < n) :
    (Constraint.ofExpr (offDiagonal i j)).Relates n (queenName i) (queenName j)
      fun x y => ((x : Int) - y).natAbs ≠ j - i where
  mentions_left := .inr (.inr (.inl (.inl rfl)))
  mentions_right := .inr (.inr (.inl (.inr rfl)))
  evalNamed := by
    intro env x y hx hy hs ht
    have hdistance := evalNamed_abs_sub (hx.trans_le hn) (hy.trans_le hn) hs ht
    refine ⟨_, evalNamed_ne (v := .nat (j - i)) rfl hdistance, ?_⟩
    simp only [decide_eq_true_eq, ne_eq]
    rw [Value.nat_inj (by omega) (by omega), eq_comm]

/-- The problem of queens has the rows below `n` as its domains. -/
theorem queens_eq_numbered (hn : n < 2 ^ 63) : queens n = numbered queenName n n (queens n).constraints := by
  rw [queens, Value.upTo_eq_map hn]
  rfl

theorem mem_constraints_queens {c : Constraint} :
    c ∈ (queens n).constraints ↔ ∃ i j : Fin n, i < j ∧
      (c = .ofExpr (.binary .ne (.ident (queenName i)) (.ident (queenName j))) ∨ c = .ofExpr (offDiagonal i j)) := by
  have hpairs : pairs (List.range n) = ascents n := pairs_eq_filter List.pairwise_lt_range
  simp only [queens, allDifferent, pairs_map_range, hpairs, List.map_map, List.mem_append, List.mem_map, Prod.exists,
    mem_ascents]
  constructor
  · rintro (⟨i, j, ⟨hij, hj⟩, rfl⟩ | ⟨i, j, ⟨hij, hj⟩, rfl⟩)
    · exact ⟨⟨i, hij.trans hj⟩, ⟨j, hj⟩, hij, .inl rfl⟩
    · exact ⟨⟨i, hij.trans hj⟩, ⟨j, hj⟩, hij, .inr rfl⟩
  · rintro ⟨i, j, hij, rfl | rfl⟩
    · exact .inl ⟨i, j, ⟨hij, j.isLt⟩, rfl⟩
    · exact .inr ⟨i, j, ⟨hij, j.isLt⟩, rfl⟩

/-- No two queens, one in each column, attack each other: they stand in different rows, which are not as far apart as
their columns. -/
def Peaceful (r : Fin n → Fin n) : Prop :=
  ∀ i j : Fin n, i < j → r i ≠ r j ∧ ((r i : Int) - r j).natAbs ≠ j - i

instance (r : Fin n → Fin n) : Decidable (Peaceful r) :=
  inferInstanceAs (Decidable (∀ i j : Fin n, i < j → r i ≠ r j ∧ ((r i : Int) - r j).natAbs ≠ j - i))

/-- All constraints are true of exactly the peaceful placements. -/
theorem forall_evalNamed_iff_peaceful (hn : n < 2 ^ 63) (r : Fin n → Fin n) :
    (∀ c ∈ (queens n).constraints, c.expr.evalNamed (reading queenName r) = .ok (.bool true)) ↔ Peaceful r := by
  have hrows : ∀ i j : Fin n,
      (Constraint.ofExpr (.binary .ne (.ident (queenName i)) (.ident (queenName j)))).expr.evalNamed
        (reading queenName r) = .ok (.bool true) ↔ r i ≠ r j := by
    intro i j
    rw [evalNamed_reading_iff queenName_injective (relates_rows hn.le _ _) r]
    exact Fin.val_ne_iff
  have hdiagonals : ∀ i j : Fin n, (Constraint.ofExpr (offDiagonal i j)).expr.evalNamed (reading queenName r)
      = .ok (.bool true) ↔ ((r i : Int) - r j).natAbs ≠ j - i :=
    fun i j => evalNamed_reading_iff queenName_injective (relates_diagonals hn.le j.isLt) r
  constructor
  · intro h i j hij
    exact ⟨(hrows i j).mp (h _ (mem_constraints_queens.mpr ⟨i, j, hij, .inl rfl⟩)),
      (hdiagonals i j).mp (h _ (mem_constraints_queens.mpr ⟨i, j, hij, .inr rfl⟩))⟩
  · intro h c hc
    obtain ⟨i, j, hij, rfl | rfl⟩ := mem_constraints_queens.mp hc
    · exact (hrows i j).mpr (h i j hij).1
    · exact (hdiagonals i j).mpr (h i j hij).2

/-- For every number of queens that is a word, the problem of queens links, and under every configuration a solve of
it succeeds and finds exactly the peaceful placements, each once, `Qi` being the row of the queen in column `i`. -/
theorem queens_solvedExactly (hn : n < 2 ^ 63) :
    (queens n).SolvedExactly (Solution.numbered queenName) (Peaceful : (Fin n → Fin n) → Prop) := by
  have hpeaceful : Peaceful = fun r : Fin n → Fin n =>
      ∀ c ∈ (queens n).constraints, c.expr.evalNamed (reading queenName r) = .ok (.bool true) :=
    funext fun r => propext (forall_evalNamed_iff_peaceful hn r).symm
  rw [hpeaceful, queens_eq_numbered hn]
  refine numbered_solvedExactly queenName_injective (fun _ => hn) fun c hc => ?_
  obtain ⟨i, j, -, rfl | rfl⟩ := mem_constraints_queens.mp hc
  · exact ⟨i, j, _, relates_rows hn.le _ _⟩
  · exact ⟨i, j, _, relates_diagonals hn.le j.isLt⟩

/-- On a board of four columns there are peaceful placements, and a solve finds them. -/
theorem queens_solvedExactly_four :
    4 < 2 ^ 63 ∧ Peaceful (![1, 3, 0, 2] : Fin 4 → Fin 4) ∧ Peaceful (![2, 0, 3, 1] : Fin 4 → Fin 4) ∧
      (queens 4).SolvedExactly (Solution.numbered queenName) (Peaceful : (Fin 4 → Fin 4) → Prop) :=
  ⟨by decide, by decide, by decide, queens_solvedExactly (by decide)⟩

end Problem

end FiniteDomain
