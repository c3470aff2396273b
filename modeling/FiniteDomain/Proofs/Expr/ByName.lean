import FiniteDomain.Expr.Binding
import FiniteDomain.Expr.Evaluation
import FiniteDomain.Proofs.Expr.Occurrence

/-!
# Reading names

An expression has a meaning of its own, without positions: a name stands for the value that an environment gives it,
a name without a value is unknown, and a function is called by its name, whatever variables there are
(`evalNamed`). Binding keeps this meaning if it finds, for every name in the expression that has a value, a position
at which the slots hold that value, and none for the other names (`eval_bind`).
-/

namespace FiniteDomain.Expr

open Operand

mutual
/-- The value of an expression whose names stand for the values that `env` gives them. -/
def evalNamed (env : String → Option Value) : Expr → Except EvalError Value
  | .literal v => .ok v
  | .ident name | .slot _ name =>
      match env name with
      | some v => .ok v
      | none => .error (.unknownName name)
  | .list es => do return .list (← evalAllNamed env es)
  | .unary op e => do op.apply (← evalNamed env e)
  | .binary op l r => do
      let a ← evalNamed env l
      match op with
      | .and =>
          if ← truth op.symbol a then return .bool (← truth op.symbol (← evalNamed env r))
          else return .bool false
      | .or =>
          if ← truth op.symbol a then return .bool true
          else return .bool (← truth op.symbol (← evalNamed env r))
      | op => op.apply a (← evalNamed env r)
  | .call f args => do Builtin.call f (← evalAllNamed env args)
  | .count xs item => do
      let v ← evalNamed env item
      let vs ← items "count" (← evalNamed env xs)
      return .int (Int64.ofNat (vs.count v))
/-- The values of expressions from left to right. -/
def evalAllNamed (env : String → Option Value) : List Expr → Except EvalError (List Value)
  | [] => .ok []
  | e :: es => do
      let v ← evalNamed env e
      return v :: (← evalAllNamed env es)
end

/-- The position found for a name holds what the name stands for; for a name that stands for nothing there is
none. -/
def Locates (resolve : String → Option Nat) (slots : List Value) (env : String → Option Value)
    (name : String) : Prop :=
  match env name with
  | some v => ∃ i, resolve name = some i ∧ slots[i]? = some v
  | none => resolve name = none

variable {resolve : String → Option Nat} {slots : List Value} {env : String → Option Value}

/-- A name that is bound has the value that it stands for. -/
theorem eval_bindName {name : String} (h : Locates resolve slots env name) :
    eval slots (bindName resolve name) = evalNamed env (.ident name) := by
  unfold Locates at h
  unfold bindName
  simp only [evalNamed]
  cases henv : env name with
  | some v =>
      rw [henv] at h
      obtain ⟨i, hresolve, hslot⟩ := h
      simp only [hresolve, eval, hslot]
  | none =>
      rw [henv] at h
      simp only [h, eval]

mutual
/-- Binding keeps what an expression stands for if the positions of its names hold their values. -/
theorem eval_bind : ∀ e : Expr, (∀ s, e.Mentions s → Locates resolve slots env s) →
    eval slots (bind resolve e) = evalNamed env e
  | .literal v, _ => by simp only [bind, eval, evalNamed]
  | .ident name, h => by
      rw [bind]
      exact eval_bindName (h name rfl)
  | .slot i name, h => by
      rw [bind, eval_bindName (h name rfl)]
      simp only [evalNamed]
  | .list es, h => by
      simp only [bind, eval, evalNamed]
      rw [evalAll_bindAll es h]
  | .unary op e, h => by
      simp only [bind, eval, evalNamed]
      rw [eval_bind e h]
  | .binary op l r, h => by
      have hl := eval_bind l fun s hs => h s (.inl hs)
      have hr := eval_bind r fun s hs => h s (.inr hs)
      -- Which operands are evaluated depends on the operator.
      cases op <;> simp only [bind, eval, evalNamed, hl, hr]
  | .call f args, h => by
      simp only [bind, eval, evalNamed]
      rw [evalAll_bindAll args fun s hs => h s (.inr hs)]
  | .count xs item, h => by
      simp only [bind, eval, evalNamed]
      rw [eval_bind xs fun s hs => h s (.inl hs), eval_bind item fun s hs => h s (.inr hs)]
theorem evalAll_bindAll : ∀ es : List Expr, (∀ s, MentionsAny s es → Locates resolve slots env s) →
    evalAll slots (bindAll resolve es) = evalAllNamed env es
  | [], _ => by simp only [bindAll, evalAll, evalAllNamed]
  | e :: es, h => by
      simp only [bindAll, evalAll, evalAllNamed]
      rw [eval_bind e fun s hs => h s (.inl hs), evalAll_bindAll es fun s hs => h s (.inr hs)]
end

end FiniteDomain.Expr
