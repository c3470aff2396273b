import Mathlib
import FiniteDomain.Proofs.Expr.Arithmetic
import FiniteDomain.Proofs.Expr.Exact

/-!
# Evaluation is exact unless it overflows

Evaluation on words either reports an overflow or comes to what the same evaluation over unbounded integers comes to,
the same value or the same error (`Refines`, `exact_of_eval`). An operator refines its exact counterpart, and refinement
goes along with computing one thing after the other, so the induction over expressions only follows the order of
evaluation. An overflow of one part has no influence on the others: what is evaluated after it is nothing.

Lengths and counts are words as long as what is measured fits into memory: evaluation comes by no list and no text with
`2 ^ 63` items or more (`Expr.Fits`).
-/

namespace FiniteDomain

variable {α β γ δ : Type}

/-! ## Refinement -/

/-- The computation overflows, or comes to what the exact one comes to: the same error, or the value that its own stands
for. -/
def Refines (f : α → β) (x : Except EvalError α) (y : Except EvalError β) : Prop :=
  x = .error .overflow ∨ y = x.map f

theorem refines_ok (f : α → β) (a : α) : Refines f (.ok a) (.ok (f a)) :=
  .inr rfl

theorem refines_error (f : α → β) (e : EvalError) : Refines f (.error e) (.error e) :=
  .inr rfl

theorem refines_refl (x : Except EvalError α) : Refines id x x :=
  .inr (by cases x <;> rfl)

/-- One computation after the other. -/
theorem Refines.bind {f : α → β} {g : γ → δ} {x : Except EvalError α} {y : Except EvalError β}
    {next : α → Except EvalError γ} {next' : β → Except EvalError δ} (h : Refines f x y)
    (hnext : ∀ a, x = .ok a → Refines g (next a) (next' (f a))) : Refines g (x >>= next) (y >>= next') := by
  rcases h with rfl | rfl
  · exact .inl rfl
  · cases x with
    | error e => exact .inr rfl
    | ok a => exact hnext a rfl

theorem Refines.map {f : α → β} {x : Except EvalError α} {y : Except EvalError β} (h : Refines f x y) {g : γ → δ}
    {k : α → γ} {k' : β → δ} (hk : ∀ a, k' (f a) = g (k a)) :
    Refines g (do return k (← x)) (do return k' (← y)) :=
  h.bind fun a _ => .inr (congrArg Except.ok (hk a))

/-! ## Operands -/

namespace Value

theorem exact_list (vs : List Value) : (Value.list vs).exact = .list (vs.map exact) := by
  rw [exact, exactAll_eq_map]

theorem exact_injective : Function.Injective exact :=
  fun v w h => (exact_inj v w).mp h

theorem exact_eq_int_zero_iff (v : Value) : v.exact = .int 0 ↔ v = .int 0 := by
  rw [← exact_inj v (.int 0)]
  rfl

/-- The number of items of a list or of characters of a text. -/
def extent : Value → Nat
  | .list vs => vs.length
  | .str s => s.length
  | _ => 0

end Value

namespace Operand

variable (op : String) (v w : Value)

theorem integer_refines : Refines Int64.toInt (integer op v) (ExactValue.integer op v.exact) := by
  cases v with
  | int n => exact refines_ok _ n
  | str _ | bool _ | list _ => exact .inr (congrArg Except.error (Value.invalid_exact op _))

theorem truth_refines : Refines id (truth op v) (ExactValue.truth op v.exact) := by
  cases v with
  | bool b => exact refines_ok _ b
  | int _ | str _ | list _ => exact .inr (congrArg Except.error (Value.invalid_exact op _))

theorem eq_bool_of_truth {op : String} {v : Value} {b : Bool} (h : truth op v = .ok b) : v = .bool b := by
  cases v with
  | bool c => exact congrArg Value.bool (Except.ok.inj h)
  | int _ | str _ | list _ => cases h

theorem items_refines : Refines (List.map Value.exact) (items op v) (ExactValue.items op v.exact) := by
  cases v with
  | list vs => exact .inr (congrArg Except.ok (Value.exactAll_eq_map vs))
  | int _ | str _ | bool _ => exact .inr (congrArg Except.error (Value.invalid_exact op _))

theorem eq_list_of_items {op : String} {v : Value} {vs : List Value} (h : items op v = .ok vs) : v = .list vs := by
  cases v with
  | list ws => exact congrArg Value.list (Except.ok.inj h)
  | int _ | str _ | bool _ => cases h

/-- A word that is found is exact. -/
theorem word_refines {n : Option Int64} {m : Int} (h : ∀ c, n = some c → c.toInt = m) :
    Refines Value.exact (word n) (.ok (.int m)) := by
  cases n with
  | none => exact .inl rfl
  | some c => exact .inr (congrArg (fun k => Except.ok (ExactValue.int k)) (h c rfl).symm)

variable {f : Int64 → Int64 → Option Int64} {g : Int → Int → Int}

theorem arithmetic_refines (h : ∀ a b c, f a b = some c → c.toInt = g a.toInt b.toInt) :
    Refines Value.exact (arithmetic op f v w) (ExactValue.arithmetic op g v.exact w.exact) :=
  (integer_refines op v).bind fun a _ => (integer_refines op w).bind fun b _ => word_refines (h a b)

theorem division_refines (h : ∀ a b c, f a b = some c → c.toInt = g a.toInt b.toInt) :
    Refines Value.exact (division op f v w) (ExactValue.division op g v.exact w.exact) := by
  unfold division ExactValue.division
  simp only [Value.exact_eq_int_zero_iff]
  split
  · exact refines_error _ _
  · exact arithmetic_refines op v w h

theorem addition_refines :
    Refines Value.exact (addition op v w) (ExactValue.addition op v.exact w.exact) := by
  have hsum := arithmetic_refines op v w (f := Checked.add?) (g := (· + ·)) fun _ _ _ => Checked.toInt_add?
  cases v with
  | str s =>
      cases w with
      | str t => exact refines_ok _ (Value.str (s ++ t))
      | int _ | bool _ | list _ => exact hsum
  | list vs =>
      cases w with
      | list ws =>
          refine .inr (congrArg Except.ok ?_)
          simp only [Value.exact, Value.exactAll_eq_map, List.map_append]
      | int _ | bool _ | str _ => exact hsum
  | int _ | bool _ => exact hsum

theorem compare_toInt (a b : Int64) : compare a.toInt b.toInt = compare a b := by
  simp only [compare, compareOfLessAndEq, Int64.lt_iff_toInt_lt, Int64.toInt_inj]

theorem order_refines : Refines id (order op v w) (ExactValue.order op v.exact w.exact) := by
  cases v with
  | int a =>
      cases w with
      | int b => exact .inr (congrArg Except.ok (compare_toInt a b))
      | str _ | bool _ | list _ => exact .inr (congrArg Except.error (Value.invalid_exact op _))
  | str s =>
      cases w with
      | str t => exact refines_ok _ _
      | int _ | bool _ | list _ => exact .inr (congrArg Except.error (Value.invalid_exact op _))
  | bool _ | list _ => exact .inr (congrArg Except.error (Value.invalid_exact op _))

theorem contains_map_exact (vs : List Value) : (vs.map Value.exact).contains v.exact = vs.contains v := by
  rw [Bool.eq_iff_iff, List.contains_iff_mem, List.contains_iff_mem,
    List.mem_map_of_injective Value.exact_injective]

theorem membership_refines : Refines id (membership op v w) (ExactValue.membership op v.exact w.exact) := by
  cases w with
  | list vs =>
      have hexact : ExactValue.membership op v.exact (.list (vs.map Value.exact)) = .ok (vs.contains v) := by
        rw [← contains_map_exact v vs]
        cases v <;> rfl
      have hwords : membership op v (.list vs) = .ok (vs.contains v) := by
        cases v <;> rfl
      rw [Value.exact_list, hexact, hwords]
      exact refines_refl _
  | str t =>
      cases v with
      | str s =>
          have hpart : decide (s.toList <:+: t.toList) = occursIn s.toList t.toList := by
            rw [Bool.eq_iff_iff, decide_eq_true_eq, occursIn_eq_true_iff]
          exact .inr (congrArg Except.ok hpart)
      | int _ | bool _ | list _ => exact .inr (congrArg Except.error (Value.invalid_exact op (.str t)))
  | int n => cases v <;> exact .inr (congrArg Except.error (Value.invalid_exact op (.int n)))
  | bool b => cases v <;> exact .inr (congrArg Except.error (Value.invalid_exact op (.bool b)))

end Operand

open Operand

/-! ## Operators -/

theorem UnaryOp.apply_refines (op : UnaryOp) (v : Value) :
    Refines Value.exact (op.apply v) (op.applyExact v.exact) := by
  cases op with
  | not => exact (truth_refines "not" v).map fun b => by simp [Value.exact]
  | neg => exact (integer_refines "-" v).bind fun a _ => word_refines fun _ => Checked.toInt_neg?

theorem BinaryOp.apply_refines (op : BinaryOp) (v w : Value) :
    Refines Value.exact (op.apply v w) (op.applyExact v.exact w.exact) := by
  cases op with
  | eq | ne =>
      refine .inr (congrArg Except.ok ?_)
      simp [Value.exact_inj, Value.exact]
  | lt | gt | le | ge => exact (order_refines _ v w).map fun o => by simp [Value.exact]
  | mem | notMem => exact (membership_refines _ v w).map fun b => by simp [Value.exact]
  | add => exact addition_refines _ v w
  | sub => exact arithmetic_refines _ v w fun _ _ _ => Checked.toInt_sub?
  | mul => exact arithmetic_refines _ v w fun _ _ _ => Checked.toInt_mul?
  | div => exact division_refines _ v w fun _ _ _ => Checked.toInt_floorDiv?
  | rem => exact division_refines _ v w fun _ _ _ => Checked.toInt_floorRem?
  | and | or =>
      exact (truth_refines _ v).bind fun a _ => (truth_refines _ w).map fun b => by simp [Value.exact]

/-! ## Functions -/

namespace Builtin

variable (f : Builtin) (args vs : List Value) (v : Value)

theorem onlyArgument_refines :
    Refines Value.exact (onlyArgument f args) (onlyExact f (args.map Value.exact)) := by
  match args with
  | [] => exact refines_error _ _
  | [v] => exact refines_ok _ v
  | v :: w :: vs =>
      refine .inr (congrArg Except.error ?_)
      simp

/-- What is measured fits into a word. -/
theorem size_refines (h : v.extent < 2 ^ 63) : Refines Value.exact (size v) (sizeExact v.exact) := by
  have hword : ∀ n : Nat, n < 2 ^ 63 → Refines Value.exact (.ok (.int (Int64.ofNat n))) (.ok (.int n)) := by
    intro n hn
    refine .inr (congrArg Except.ok ?_)
    rw [Value.exact, Int64.toInt_ofNat_of_lt hn]
  cases v with
  | list vs =>
      rw [Value.exact_list, sizeExact, List.length_map]
      exact hword vs.length h
  | str s => exact hword s.length h
  | int _ | bool _ => exact .inr (congrArg Except.error (Value.invalid_exact _ _))

/-- Partial sums that are words come to the sum of all items. -/
theorem sumFrom_refines (total : Int64) : Refines Value.exact (sumFrom total vs)
    (do return .int (total.toInt + (← ExactValue.integers sum.name (vs.map Value.exact)).sum)) := by
  induction vs generalizing total with
  | nil =>
      refine .inr (congrArg Except.ok ?_)
      simp [Value.exact]
  | cons v vs ih =>
      have hassoc : (do
            let n ← ExactValue.integer sum.name v.exact
            let ns ← ExactValue.integers sum.name (vs.map Value.exact)
            return ExactValue.int (total.toInt + n + ns.sum)) = (do
          return ExactValue.int
            (total.toInt + (← ExactValue.integers sum.name ((v :: vs).map Value.exact)).sum)) := by
        rw [List.map_cons, ExactValue.integers]
        cases ExactValue.integer sum.name v.exact with
        | error e => rfl
        | ok n =>
            cases ExactValue.integers sum.name (vs.map Value.exact) with
            | error e => rfl
            | ok ns => exact congrArg (fun k => Except.ok (ExactValue.int k)) (Int.add_assoc ..)
      rw [← hassoc, sumFrom]
      refine (integer_refines sum.name v).bind fun n _ => ?_
      cases hnext : Checked.add? total n with
      | none => exact .inl rfl
      | some next =>
          have h := ih next
          rwa [Checked.toInt_add? hnext] at h

theorem extremeFrom_refines (side : Ordering) (best : Value) :
    Refines Value.exact (extremeFrom f side best vs) (extremeFromExact f side best.exact (vs.map Value.exact)) := by
  induction vs generalizing best with
  | nil => exact refines_ok _ best
  | cons v vs ih =>
      refine (order_refines f.name v best).bind fun o _ => ?_
      have h := ih (if o = side then v else best)
      rwa [apply_ite Value.exact] at h

theorem extreme_refines (side : Ordering) :
    Refines Value.exact (extreme f side args) (extremeExact f side (args.map Value.exact)) := by
  unfold extreme extremeExact
  rcases args with _ | ⟨v, _ | ⟨w, vs⟩⟩
  · exact refines_error _ _
  · -- A single argument is a list, of which the extreme item is taken.
    refine (items_refines f.name v).bind fun values _ => ?_
    cases values with
    | nil => exact refines_error _ _
    | cons u us => exact extremeFrom_refines f us side u
  · exact extremeFrom_refines f (w :: vs) side v

theorem apply_refines (hargs : ∀ v ∈ args, v.extent < 2 ^ 63) :
    Refines Value.exact (f.apply args) (f.applyExact (args.map Value.exact)) := by
  have honly := onlyArgument_refines f args
  cases f with
  | abs =>
      exact honly.bind fun v _ => (integer_refines _ v).bind fun _ _ => word_refines fun _ => Checked.toInt_abs?
  | len =>
      refine honly.bind fun v hv => size_refines v (hargs v ?_)
      match args, hv with
      | [_], rfl => exact List.mem_singleton_self v
  | sum =>
      refine honly.bind fun v _ => (items_refines _ v).bind fun vs _ => ?_
      have h := sumFrom_refines vs 0
      simpa only [Int64.toInt_zero, Int.zero_add] using h
  | min => exact extreme_refines _ args _
  | max => exact extreme_refines _ args _

theorem call_refines (function : String) (hargs : ∀ v ∈ args, v.extent < 2 ^ 63) :
    Refines Value.exact (call function args) (callExact function (args.map Value.exact)) := by
  unfold call callExact
  cases ofName? function with
  | some f => exact apply_refines f args hargs
  | none => exact refines_error _ _

end Builtin

/-! ## What evaluation comes by -/

/-- With the value `a` of its left operand, the operator evaluates its right one. -/
def BinaryOp.GoesOn (op : BinaryOp) (a : Value) : Prop :=
  (op = .and → a = .bool true) ∧ (op = .or → a = .bool false)

namespace Expr

variable {slots : List Value} {d e : Expr} {es : List Expr}

/-- Evaluating the expressions of a list from left to right comes to evaluating one: those before it have values. -/
inductive DemandsItem (slots : List Value) : List Expr → Expr → Prop
  | head {e : Expr} {es : List Expr} : DemandsItem slots (e :: es) e
  | tail {d e : Expr} {es : List Expr} {v : Value} :
      d.eval slots = .ok v → DemandsItem slots es e → DemandsItem slots (d :: es) e

/-- Evaluating the first expression evaluates the second, which stands directly inside it. -/
inductive Demands (slots : List Value) : Expr → Expr → Prop
  | item {es : List Expr} {e : Expr} : DemandsItem slots es e → Demands slots (.list es) e
  | operand {op : UnaryOp} {e : Expr} : Demands slots (.unary op e) e
  | left {op : BinaryOp} {l r : Expr} : Demands slots (.binary op l r) l
  | right {op : BinaryOp} {l r : Expr} {a : Value} :
      l.eval slots = .ok a → op.GoesOn a → Demands slots (.binary op l r) r
  | argument {f : String} {args : List Expr} {e : Expr} :
      DemandsItem slots args e → Demands slots (.call f args) e
  | counted {xs e : Expr} : Demands slots (.count xs e) e
  | container {xs e : Expr} {v : Value} : e.eval slots = .ok v → Demands slots (.count xs e) xs

/-- Every list and every text that evaluation comes by has fewer than `2 ^ 63` items or characters, as whatever fits
into memory has. -/
def Fits (slots : List Value) (e : Expr) : Prop :=
  ∀ d, Relation.ReflTransGen (Demands slots) e d → ∀ v, d.eval slots = .ok v → v.extent < 2 ^ 63

theorem Fits.of_demands (h : Fits slots e) (hd : Demands slots e d) : Fits slots d :=
  fun _ hreach => h _ (.head hd hreach)

/-- An expression fits if its value does and what it demands does. -/
theorem fits_of_demands {v : Value} (hv : e.eval slots = .ok v) (hextent : v.extent < 2 ^ 63)
    (h : ∀ d, Demands slots e d → Fits slots d) : Fits slots e := by
  intro d hreach w hw
  rcases hreach.cases_head with rfl | ⟨d', hd', hrest⟩
  · rw [hv] at hw
    cases hw
    exact hextent
  · exact h d' hd' d hrest w hw

theorem Fits.extent_lt {v : Value} (h : Fits slots e) (hv : e.eval slots = .ok v) : v.extent < 2 ^ 63 :=
  h e .refl v hv

/-- The values of a list of expressions are those of expressions that were evaluated. -/
theorem exists_demandsItem {vs : List Value} (h : evalAll slots es = .ok vs) :
    ∀ v ∈ vs, ∃ e, DemandsItem slots es e ∧ e.eval slots = .ok v := by
  induction es generalizing vs with
  | nil =>
      cases h
      simp
  | cons e es ih =>
      rw [evalAll] at h
      cases he : e.eval slots with
      | error err => simp [he, Bind.bind, Except.bind] at h
      | ok v =>
          cases hes : evalAll slots es with
          | error err => simp [he, hes, Bind.bind, Except.bind] at h
          | ok ws =>
              simp only [he, hes, Bind.bind, Except.bind, pure, Except.pure, Except.ok.injEq] at h
              subst h
              intro w hw
              rcases List.mem_cons.mp hw with rfl | hw
              · exact ⟨e, .head, he⟩
              · obtain ⟨d, hd, hdw⟩ := ih hes w hw
                exact ⟨d, .tail he hd, hdw⟩

/-! ## Expressions -/

mutual
/-- Evaluation refines exact evaluation. -/
theorem eval_refines (slots : List Value) (e : Expr) (h : Fits slots e) :
    Refines Value.exact (e.eval slots) (e.evalExact (slots.map Value.exact)) := by
  cases e with
  | literal v => exact refines_ok _ v
  | ident name => exact refines_error _ _
  | slot i name =>
      rw [eval, evalExact, List.getElem?_map]
      cases slots[i]? with
      | some v => exact refines_ok _ v
      | none => exact refines_error _ _
  | list es =>
      have hes := evalAll_refines slots es fun d hd => h.of_demands (.item hd)
      rw [eval, evalExact]
      exact hes.map fun vs => (Value.exact_list vs).symm
  | unary op e =>
      rw [eval, evalExact]
      exact (eval_refines slots e (h.of_demands .operand)).bind fun v _ => op.apply_refines v
  | binary op l r =>
      rw [eval, evalExact]
      refine (eval_refines slots l (h.of_demands .left)).bind fun a ha => ?_
      have hr : op.GoesOn a → Refines Value.exact (r.eval slots) (r.evalExact (slots.map Value.exact)) :=
        fun hgoes => eval_refines slots r (h.of_demands (.right ha hgoes))
      have htruth : op.GoesOn a → Refines Value.exact (do return .bool (← truth op.symbol (← r.eval slots)))
          (do return .bool (← ExactValue.truth op.symbol (← r.evalExact (slots.map Value.exact)))) :=
        fun hgoes => (hr hgoes).bind fun v _ => (truth_refines _ v).map fun _ => rfl
      cases op with
      | and =>
          refine (truth_refines _ a).bind fun b hb => ?_
          obtain rfl := eq_bool_of_truth hb
          cases b with
          | true => exact htruth ⟨fun _ => rfl, nofun⟩
          | false => exact refines_ok _ (Value.bool false)
      | or =>
          refine (truth_refines _ a).bind fun b hb => ?_
          obtain rfl := eq_bool_of_truth hb
          cases b with
          | true => exact refines_ok _ (Value.bool true)
          | false => exact htruth ⟨nofun, fun _ => rfl⟩
      | eq | ne | lt | gt | le | ge | mem | notMem | add | sub | mul | div | rem =>
          exact (hr ⟨nofun, nofun⟩).bind fun v _ => BinaryOp.apply_refines _ a v
  | call f args =>
      have hargs := evalAll_refines slots args fun d hd => h.of_demands (.argument hd)
      rw [eval, evalExact]
      refine hargs.bind fun vs hvs => Builtin.call_refines vs f fun v hv => ?_
      obtain ⟨d, hd, hdv⟩ := exists_demandsItem hvs v hv
      exact (h.of_demands (.argument hd)).extent_lt hdv
  | count xs item =>
      rw [eval, evalExact]
      refine (eval_refines slots item (h.of_demands .counted)).bind fun v hv => ?_
      have hxs := h.of_demands (.container hv)
      refine (eval_refines slots xs hxs).bind fun w hw => (items_refines _ w).bind fun vs hvs => ?_
      obtain rfl := eq_list_of_items hvs
      have hcount : vs.count v < 2 ^ 63 := Nat.lt_of_le_of_lt List.count_le_length (hxs.extent_lt hw)
      refine .inr (congrArg Except.ok ?_)
      rw [Value.exact, Int64.toInt_ofNat_of_lt hcount, List.count_map_of_injective vs _ Value.exact_injective]
theorem evalAll_refines (slots : List Value) (es : List Expr) (h : ∀ e, DemandsItem slots es e → Fits slots e) :
    Refines (List.map Value.exact) (evalAll slots es) (evalAllExact (slots.map Value.exact) es) := by
  cases es with
  | nil => exact refines_ok (List.map Value.exact) []
  | cons e es =>
      rw [evalAll, evalAllExact]
      refine (eval_refines slots e (h e .head)).bind fun v hv => ?_
      exact (evalAll_refines slots es fun d hd => h d (.tail hv hd)).map fun vs => rfl
end

/-- Evaluation never wraps: a value is the value over unbounded integers, and an error that is no overflow is the error
over unbounded integers. -/
theorem exact_of_eval (slots : List Value) (e : Expr) (h : Fits slots e) :
    (∀ v, e.eval slots = .ok v → e.evalExact (slots.map Value.exact) = .ok v.exact) ∧
      ∀ err, e.eval slots = .error err → err ≠ .overflow →
        e.evalExact (slots.map Value.exact) = .error err := by
  have hrefines := eval_refines slots e h
  constructor
  · intro v hv
    rw [hv] at hrefines
    exact hrefines.resolve_left nofun
  · intro err herr hne
    rw [herr] at hrefines
    exact hrefines.resolve_left fun heq => hne (Except.error.inj heq)

/-- `len(A) / -B` -/
def shares : Expr :=
  .binary .div (.call "len" [.slot 0 "A"]) (.unary .neg (.slot 1 "B"))

/-- Seven items shared by minus two are rounded down to minus four. -/
theorem exact_of_eval_shares :
    shares.eval [.list (List.replicate 7 (.int 1)), .int 2] = .ok (.int (-4)) ∧
      shares.evalExact [.list (List.replicate 7 (.int 1)), .int 2] = .ok (.int (-4)) := by
  have hfits : Fits [.list (List.replicate 7 (.int 1)), .int 2] shares := by
    refine fits_of_demands (v := .int (-4)) (by cbv) (by decide) fun d hd => ?_
    cases hd with
    | left =>
        refine fits_of_demands (v := .int 7) (by cbv) (by decide) fun d hd => ?_
        cases hd with
        | argument hd =>
            cases hd with
            | head =>
                exact fits_of_demands (v := .list (List.replicate 7 (.int 1))) rfl (by decide) fun d hd => by cases hd
            | tail _ hd => cases hd
    | right =>
        refine fits_of_demands (v := .int (-2)) (by cbv) (by decide) fun d hd => ?_
        cases hd with
        | operand => exact fits_of_demands (v := .int 2) rfl (by decide) fun d hd => by cases hd
  have heval : shares.eval [.list (List.replicate 7 (.int 1)), .int 2] = .ok (.int (-4)) := by cbv
  exact ⟨heval, (exact_of_eval _ shares hfits).1 _ heval⟩

end Expr

end FiniteDomain
