import Mathlib
import FiniteDomain.Network.Search
import FiniteDomain.Proofs.Network.Wiring

/-!
# Calls by the names of variables

The name of a called function links a constraint to the variable of that name like any other name in the predicate
(`mem_scope_of_part_call`), but it is not bound: evaluating the call looks for a built-in function alone. So a call by
the name of a variable fails whatever the slots hold, unless the variable is named like a built-in function; then the
call is that of the function (`callsFail_of_link_iff`).
-/

namespace FiniteDomain

namespace Builtin

/-- A value that the function takes as its only argument. -/
def sample : Builtin → Value
  | abs => .int 0
  | len | sum | min | max => .list [.int 0]

theorem exists_apply_sample (b : Builtin) : ∃ v, b.apply [b.sample] = .ok v := by
  cases b <;> exact ⟨_, rfl⟩

end Builtin

namespace Expr

variable {f : String}

/-- A call by a name that is no built-in function fails: an argument does, or the function is unknown. -/
theorem eval_call_of_ofName?_eq_none (hf : Builtin.ofName? f = none) (slots : List Value) (args : List Expr) :
    ∃ e, (Expr.call f args).eval slots = .error e ∧
      (evalAll slots args = .error e ∨ e = .unknownFunction f) := by
  rw [eval]
  cases hargs : evalAll slots args with
  | error e => exact ⟨e, rfl, .inl rfl⟩
  | ok values =>
      refine ⟨.unknownFunction f, ?_, .inr rfl⟩
      show Builtin.call f values = _
      rw [Builtin.call, hf]

/-- A built-in function has a call that succeeds whatever the slots hold. -/
theorem eval_call_sample {b : Builtin} (hf : Builtin.ofName? f = some b) :
    ∃ v, ∀ slots, (Expr.call f [.literal b.sample]).eval slots = .ok v := by
  obtain ⟨v, hv⟩ := b.exists_apply_sample
  refine ⟨v, fun slots => ?_⟩
  show Builtin.call f [b.sample] = _
  rw [Builtin.call, hf]
  exact hv

end Expr

namespace Network

variable {vars : List Variable} {constraints : List Constraint} {net : Network} {x : Nat} {w : Variable}

/-- Every call by the name in a constraint of the network fails, whatever the slots hold. -/
def CallsFail (net : Network) (f : String) : Prop :=
  ∀ k ∈ net.constraints, ∀ args, Expr.Part (.call f args) k.expr →
    ∀ slots, ∃ e, (Expr.call f args).eval slots = .error e

/-- A constraint that calls by the name of a variable is linked to the variable. -/
theorem mem_scope_of_part_call (h : link vars constraints = .ok net) (hw : vars[x]? = some w) {k : Constraint}
    (hk : k ∈ net.constraints) {args : List Expr} (hpart : Expr.Part (.call w.name args) k.expr) : x ∈ k.scope := by
  obtain ⟨hcheck, -, hconstraints, -⟩ := eq_of_link h
  have hnodup := ((checkVariables_eq_ok_iff vars).mp hcheck).1
  rw [hconstraints] at hk
  obtain ⟨c, -, rfl⟩ := List.mem_map.mp hk
  have hmentions : c.expr.Mentions w.name := Expr.mentions_bind_iff.mp (Expr.mentions_iff_part.mpr ⟨_, hpart, rfl⟩)
  refine (mem_mentioned_iff hnodup ?_).mpr hmentions
  rw [List.getElem?_map, hw]
  rfl

/-- Variables can be linked to a constraint that calls a built-in function by its name, so that the call succeeds. -/
theorem exists_link_not_callsFail {f : String} {b : Builtin} (hcheck : checkVariables vars = .ok ())
    (hf : Builtin.ofName? f = some b) : ∃ constraints net, link vars constraints = .ok net ∧ ¬ net.CallsFail f := by
  obtain ⟨v, hv⟩ := Expr.eval_call_sample hf
  obtain ⟨net, hlink⟩ := exists_link_of_checkVariables hcheck [.ofExpr (.call f [.literal b.sample])]
  obtain ⟨-, -, hconstraints, -⟩ := eq_of_link hlink
  refine ⟨_, net, hlink, fun hfail => ?_⟩
  rw [CallsFail, hconstraints] at hfail
  -- Binding leaves the call as it is: its only argument is a literal.
  obtain ⟨e, he⟩ := hfail _ List.mem_cons_self [.literal b.sample] .whole []
  rw [hv] at he
  cases he

/-- **Calls by the name of a variable fail, unless it is the name of a built-in function.** Every constraint that calls
by the name of a variable is linked to the variable. In all networks of the variables all such calls fail, whatever the
slots hold, exactly if the variable is not named like a built-in function. -/
theorem callsFail_of_link_iff (hcheck : checkVariables vars = .ok ()) (hw : vars[x]? = some w) :
    (∀ constraints net, link vars constraints = .ok net → ∀ k ∈ net.constraints, ∀ args,
        Expr.Part (.call w.name args) k.expr → x ∈ k.scope) ∧
      ((∀ constraints net, link vars constraints = .ok net → net.CallsFail w.name) ↔
        Builtin.ofName? w.name = none) := by
  refine ⟨fun _ _ hlink _ hk _ hpart => mem_scope_of_part_call hlink hw hk hpart, fun hfail => ?_, fun hname => ?_⟩
  · cases hname : Builtin.ofName? w.name with
    | none => rfl
    | some b =>
        obtain ⟨constraints, net, hlink, hsucceeds⟩ := exists_link_not_callsFail hcheck hname
        exact absurd (hfail constraints net hlink) hsucceeds
  · intro constraints net _ k _ args _ slots
    obtain ⟨e, he, -⟩ := Expr.eval_call_of_ofName?_eq_none hname slots args
    exact ⟨e, he⟩

/-- Two variables, one of them named like a built-in function. -/
def namedAlike : List Variable :=
  [⟨"A", [.int 0], none, []⟩, ⟨"abs", [.int 0, .int 1], none, []⟩]

/-- Calls by the name of the first variable fail in every network of the two, calls by that of the second do not. -/
theorem callsFail_of_link_iff_namedAlike :
    checkVariables namedAlike = .ok () ∧
      (∀ constraints net, link namedAlike constraints = .ok net → net.CallsFail "A") ∧
      ¬ ∀ constraints net, link namedAlike constraints = .ok net → net.CallsFail "abs" := by
  have hcheck : checkVariables namedAlike = .ok () := by decide
  have hfirst := callsFail_of_link_iff hcheck (x := 0) rfl
  have hsecond := callsFail_of_link_iff hcheck (x := 1) rfl
  refine ⟨hcheck, hfirst.2.mpr (by decide), fun hfail => ?_⟩
  exact absurd (hsecond.2.mp hfail) (by decide)

/-- A constraint that calls by the name of the variable that it is about. -/
def selfCall : Constraint :=
  ⟨"abs(abs) == 1", .binary .eq (.call "abs" [.ident "abs"]) (.int 1), []⟩

/-- The network of `selfCall` and the variable. -/
def callingVariable : Network where
  vars := [⟨"abs", [.int 0, .int 1], none, [0]⟩]
  constraints := [⟨"abs(abs) == 1", .binary .eq (.call "abs" [.slot 0 "abs"]) (.int 1), [0]⟩]

theorem link_selfCall : link [⟨"abs", [.int 0, .int 1], none, []⟩] [selfCall] = .ok callingVariable := by
  cbv

/-- A declared variable is called without an error: the call gives the absolute value of the variable's own value, and
a solve finds the solution in which that is one. -/
theorem call_of_variable_succeeds :
    Constraint.parse "abs(abs) == 1" = .ok selfCall ∧
      link [⟨"abs", [.int 0, .int 1], none, []⟩] [selfCall] = .ok callingVariable ∧
      "abs" ∈ callingVariable.vars.map (·.name) ∧
      (∃ k ∈ callingVariable.constraints, Expr.Part (.call "abs" [.slot 0 "abs"]) k.expr) ∧
      (Expr.call "abs" [.slot 0 "abs"]).eval [.int 1] = .ok (.int 1) ∧
      callingVariable.solve.result = .ok ⟨1, 2, 2⟩ := by
  have hsolve : callingVariable.solve.result = .ok ⟨1, 2, 2⟩ := by cbv
  have hparse : Constraint.parse "abs(abs) == 1" = .ok selfCall := by decide +kernel
  have hpart : Expr.Part (.call "abs" [.slot 0 "abs"])
      (.binary .eq (.call "abs" [.slot 0 "abs"]) (.int 1)) := .inside List.mem_cons_self .whole
  exact ⟨hparse, link_selfCall, List.mem_cons_self, ⟨_, List.mem_cons_self, hpart⟩, rfl, hsolve⟩

end Network

end FiniteDomain
