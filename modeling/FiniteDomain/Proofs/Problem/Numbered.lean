import FiniteDomain.Problem.Families
import FiniteDomain.Proofs.Problem.Solving

/-!
# Problems over numbered variables

In the problems that are made here, and not read, the variables are numbered, they have the same domain
`0`, …, `d - 1`, and every constraint relates the values of two of them. Such a problem is decisive, so a solve finds
exactly the vectors of numbers below `d` that stand in all the relations (`numbered_solvedExactly`).
-/

namespace FiniteDomain

/-! ## Numbers as values -/

namespace Value

/-- A number as a value. -/
def nat (k : Nat) : Value :=
  .int (Int64.ofNat k)

/-- Numbers that are words are different values. -/
theorem nat_inj {k m : Nat} (hk : k < 2 ^ 63) (hm : m < 2 ^ 63) : nat k = nat m ↔ k = m := by
  constructor
  · intro h
    have hword : Int64.ofNat k = Int64.ofNat m := by simpa [nat] using h
    have htoInt := congrArg Int64.toInt hword
    rw [Int64.toInt_ofNat_of_lt hk, Int64.toInt_ofNat_of_lt hm] at htoInt
    exact Int.ofNat_inj.mp htoInt
  · exact congrArg nat

/-- The values up to a word are the numbers below it. -/
theorem upTo_eq_map {d : Nat} (hd : d < 2 ^ 63) : upTo d = (List.range d).map nat := by
  have hlength : ((Int64.ofNat d).toInt - (0 : Int64).toInt).toNat = d := by
    rw [Int64.toInt_ofNat_of_lt hd]
    simp
  rw [upTo, range, hlength]
  simp [nat]

theorem nodup_map_nat {d : Nat} (hd : d < 2 ^ 63) : ((List.range d).map nat).Nodup := by
  refine List.nodup_range.map_on fun k hk m hm h => ?_
  exact (nat_inj ((List.mem_range.mp hk).trans hd) ((List.mem_range.mp hm).trans hd)).mp h

end Value

/-- Values that differ make the comparison true. -/
theorem evalNamed_ne {env : String → Option Value} {l r : Expr} {v w : Value}
    (hl : l.evalNamed env = .ok v) (hr : r.evalNamed env = .ok w) :
    (Expr.binary .ne l r).evalNamed env = .ok (.bool (v ≠ w)) := by
  simp only [Expr.evalNamed, hl, hr]
  rfl

theorem evalNamed_ident {env : String → Option Value} {s : String} {v : Value} (h : env s = some v) :
    (Expr.ident s).evalNamed env = .ok v := by
  simp only [Expr.evalNamed, h]

/-! ## Numbered names and their pairs -/

/-- Names that end in different numbers differ. -/
theorem append_toString_injective (s : String) : Function.Injective fun i : Nat => s ++ toString i :=
  fun _ _ h => Nat.repr_inj.mp ((String.append_right_inj s).mp h)

theorem pairs_map {α β : Type} (f : α → β) (as : List α) : pairs (as.map f) = (pairs as).map (Prod.map f f) := by
  induction as with
  | nil => rfl
  | cons a as ih => simp [pairs, ih, Function.comp_def]

/-- The pairs of numbers below `d`, in lexicographic order. -/
def grid (d : Nat) : List (Nat × Nat) :=
  List.range d ×ˢ List.range d

/-- The pairs of a smaller and a greater number below `n`, in lexicographic order. -/
def ascents (n : Nat) : List (Nat × Nat) :=
  (grid n).filter fun p => p.1 < p.2

theorem mem_grid {d : Nat} {p : Nat × Nat} : p ∈ grid d ↔ p.1 < d ∧ p.2 < d := by
  obtain ⟨a, b⟩ := p
  simp only [grid, SProd.sprod, List.pair_mem_product, List.mem_range]

theorem nodup_grid (d : Nat) : (grid d).Nodup :=
  List.nodup_range.product List.nodup_range

theorem mem_ascents {n : Nat} {p : Nat × Nat} : p ∈ ascents n ↔ p.1 < p.2 ∧ p.2 < n := by
  rw [ascents, List.mem_filter, mem_grid, decide_eq_true_eq]
  omega

/-- The pairs of ascending numbers are those of a smaller and a greater one, in lexicographic order. -/
theorem pairs_eq_filter {l : List Nat} (h : l.Pairwise (· < ·)) :
    pairs l = (l ×ˢ l).filter fun p => p.1 < p.2 := by
  induction h with
  | nil => rfl
  | @cons a as ha _ ih =>
      have hfirst : (as.map (a, ·)).filter (fun p => p.1 < p.2) = as.map (a, ·) := by
        rw [List.filter_eq_self]
        simpa using ha
      -- Nothing is below the first number.
      have hrest : (as ×ˢ (a :: as)).filter (fun p => p.1 < p.2) = (as ×ˢ as).filter fun p => p.1 < p.2 := by
        simp only [SProd.sprod, List.product, List.filter_flatMap, List.filter_map]
        apply List.flatMap_congr
        intro b hb
        simp [(ha b hb).le]
      rw [List.product_cons, List.filter_append, hrest, ← ih, pairs, List.map_cons, List.filter_cons_of_neg (by simp),
        hfirst]

/-- The pairs of numbered names go by the pairs of their numbers. -/
theorem pairs_map_range {α : Type} (name : Nat → α) (n : Nat) :
    pairs ((List.range n).map name) = (ascents n).map (Prod.map name name) := by
  rw [pairs_map, pairs_eq_filter List.pairwise_lt_range]
  rfl

/-! ## Constraints between two variables -/

/-- The constraint mentions two names, and if they stand for numbers below `d` it is true or false, true exactly if
the numbers are in the relation. -/
structure Constraint.Relates (c : Constraint) (d : Nat) (s t : String) (R : Nat → Nat → Prop) : Prop where
  mentions_left : c.expr.Mentions s
  mentions_right : c.expr.Mentions t
  evalNamed : ∀ env x y, x < d → y < d → env s = some (.nat x) → env t = some (.nat y) →
    ∃ b, c.expr.evalNamed env = .ok (.bool b) ∧ (b = true ↔ R x y)

/-- The numbers of a vector as a solution. -/
def Solution.numbered {n d : Nat} (name : Nat → String) (r : Fin n → Fin d) : Solution :=
  ⟨List.ofFn fun i => (name i, .nat (r i))⟩

namespace Problem

open Network

/-- The problem of `n` variables with the domain `0`, …, `d - 1`. -/
def numbered (name : Nat → String) (n d : Nat) (constraints : List Constraint) : Problem where
  vars := (List.range n).map fun i => { name := name i, domain := (List.range d).map Value.nat }
  constraints := constraints

variable {name : Nat → String} {n d : Nat} {constraints : List Constraint} {c : Constraint}

/-- What the names stand for if the variables have the numbers of a vector. -/
noncomputable def reading (name : Nat → String) (r : Fin n → Fin d) : String → Option Value :=
  declared ((List.range n).map name)
    (Function.extend (fun i : Fin n => name i) (fun i => Value.nat (r i)) fun _ => .nat 0)

theorem names_numbered : (numbered name n d constraints).vars.map (·.name) = (List.range n).map name := by
  rw [numbered, List.map_map]
  rfl

theorem declared_name (a : String → Value) (i : Fin n) :
    declared ((List.range n).map name) a (name i) = some (a (name i)) :=
  if_pos (List.mem_map_of_mem (List.mem_range.mpr i.isLt))

section Distinct

variable (hname : Function.Injective name)
include hname

/-- An assignment is read like the vector of its numbers. -/
theorem declared_eq_reading {a : String → Value} {r : Fin n → Fin d} (h : ∀ i : Fin n, a (name i) = .nat (r i)) :
    declared ((List.range n).map name) a = reading name r := by
  have hinjective : Function.Injective fun i : Fin n => name i := hname.comp Fin.val_injective
  funext s
  unfold reading declared
  by_cases hs : s ∈ (List.range n).map name
  · obtain ⟨i, hi, rfl⟩ := List.mem_map.mp hs
    rw [if_pos hs, if_pos hs]
    have hextend := hinjective.extend_apply (fun i => Value.nat (r i)) (fun _ => .nat 0)
      ⟨i, List.mem_range.mp hi⟩
    rw [hextend]
    exact congrArg some (h ⟨i, List.mem_range.mp hi⟩)
  · rw [if_neg hs, if_neg hs]

theorem reading_name (r : Fin n → Fin d) (i : Fin n) : reading name r (name i) = some (.nat (r i)) := by
  have hinjective : Function.Injective fun i : Fin n => name i := hname.comp Fin.val_injective
  rw [reading, declared_name]
  exact congrArg some (hinjective.extend_apply _ _ i)

/-- A constraint that relates two variables is true of a vector exactly if its numbers are in the relation. -/
theorem evalNamed_reading_iff {i j : Fin n} {R : Nat → Nat → Prop} (hc : c.Relates d (name i) (name j) R)
    (r : Fin n → Fin d) : c.expr.evalNamed (reading name r) = .ok (.bool true) ↔ R (r i) (r j) := by
  obtain ⟨b, hb, hR⟩ := hc.evalNamed _ _ _ (r i).isLt (r j).isLt (reading_name hname r i) (reading_name hname r j)
  rw [hb, ← hR]
  simp

end Distinct

/-- What has a value of each domain has a number below `d` for each name. -/
theorem exists_vector {a : String → Value}
    (h : ∀ w ∈ (numbered name n d constraints).vars, a w.name ∈ w.domain) :
    ∃ r : Fin n → Fin d, ∀ i : Fin n, a (name i) = .nat (r i) := by
  have hnumber : ∀ i : Fin n, ∃ k : Fin d, a (name i) = .nat k := by
    intro i
    have hmem := h _ (List.mem_map_of_mem (List.mem_range.mpr i.isLt))
    obtain ⟨k, hk, heq⟩ := List.mem_map.mp hmem
    exact ⟨⟨k, List.mem_range.mp hk⟩, heq.symm⟩
  choose r hr using hnumber
  exact ⟨r, hr⟩

/-- The assignment of the numbers of a vector is written as the vector. -/
theorem ofNames_numbered {a : String → Value} {r : Fin n → Fin d} (h : ∀ i : Fin n, a (name i) = .nat (r i)) :
    Solution.ofNames (numbered name n d constraints).vars a = .numbered name r := by
  have hpairs : ((List.finRange n).map Fin.val).map (fun i => (name i, a (name i)))
      = (List.finRange n).map fun i : Fin n => (name i, Value.nat (r i)) := by
    rw [List.map_map]
    exact List.map_congr_left fun i _ => congrArg (Prod.mk _) (h i)
  rw [Solution.ofNames, Solution.numbered, List.ofFn_eq_map, ← hpairs, List.map_coe_finRange_eq_range, numbered,
    List.map_map]
  rfl

/-- If the constraints relate variables, they are true or false of the numbers of the domains. -/
theorem decisive_numbered
    (hrelates : ∀ c ∈ constraints, ∃ (i j : Fin n) (R : Nat → Nat → Prop), c.Relates d (name i) (name j) R) :
    (numbered name n d constraints).Decisive := by
  intro c hc a ha
  rw [names_numbered]
  obtain ⟨i, j, R, hR⟩ := hrelates c hc
  have hvalue : ∀ i : Fin n, c.expr.Mentions (name i) → ∃ k < d, a (name i) = .nat k := by
    intro i hi
    have hmem := ha _ (List.mem_map_of_mem (List.mem_range.mpr i.isLt)) hi
    obtain ⟨k, hk, heq⟩ := List.mem_map.mp hmem
    exact ⟨k, List.mem_range.mp hk, heq.symm⟩
  obtain ⟨x, hx, hax⟩ := hvalue i hR.mentions_left
  obtain ⟨y, hy, hay⟩ := hvalue j hR.mentions_right
  obtain ⟨b, hb, -⟩ := hR.evalNamed _ x y hx hy (hax ▸ declared_name a i) (hay ▸ declared_name a j)
  exact ⟨b, hb⟩

/-- Vectors of words are written differently. -/
theorem numbered_injective (hd : 0 < n → d < 2 ^ 63) :
    Function.Injective (Solution.numbered name : (Fin n → Fin d) → Solution) := by
  intro r r' h
  have hpairs := List.ofFn_injective (Solution.mk.inj h)
  funext i
  have hlt : d < 2 ^ 63 := hd (Nat.zero_lt_of_lt i.isLt)
  have hvalue : Value.nat (r i) = .nat (r' i) := (Prod.mk.inj (congrFun hpairs i)).2
  exact Fin.ext ((Value.nat_inj ((r i).isLt.trans hlt) ((r' i).isLt.trans hlt)).mp hvalue)

/-- A solve finds exactly the vectors of which all constraints are true. -/
theorem numbered_solvedExactly (hname : Function.Injective name) (hd : 0 < n → d < 2 ^ 63)
    (hrelates : ∀ c ∈ constraints, ∃ (i j : Fin n) (R : Nat → Nat → Prop), c.Relates d (name i) (name j) R) :
    (numbered name n d constraints).SolvedExactly (.numbered name) fun r : Fin n → Fin d =>
      ∀ c ∈ constraints, c.expr.evalNamed (reading name r) = .ok (.bool true) := by
  refine solvedExactly ?_ ?_ (decisive_numbered hrelates) (numbered_injective hd) fun s => ?_
  · rw [names_numbered]
    exact List.nodup_range.map hname
  · intro w hw
    obtain ⟨i, hi, rfl⟩ := List.mem_map.mp hw
    exact Value.nodup_map_nat (hd (Nat.zero_lt_of_lt (List.mem_range.mp hi)))
  · constructor
    · rintro ⟨a, ha, rfl⟩
      obtain ⟨r, hr⟩ := exists_vector ha.mem_domain
      refine ⟨r, fun c hc => ?_, (ofNames_numbered hr).symm⟩
      have htrue := ha.evalNamed_eq_true c hc
      rwa [names_numbered, declared_eq_reading hname hr] at htrue
    · rintro ⟨r, hr, rfl⟩
      have hvalue : ∀ i : Fin n, _ = Value.nat (r i) :=
        (hname.comp Fin.val_injective).extend_apply (fun i : Fin n => Value.nat (r i)) fun _ => .nat 0
      refine ⟨_, ⟨fun w hw => ?_, fun c hc => ?_⟩, (ofNames_numbered hvalue).symm⟩
      · obtain ⟨i, hi, rfl⟩ := List.mem_map.mp hw
        have hi' := hvalue ⟨i, List.mem_range.mp hi⟩
        exact hi' ▸ List.mem_map_of_mem (List.mem_range.mpr (r _).isLt)
      · rw [names_numbered]
        exact hr c hc

end Problem

end FiniteDomain
