import FiniteDomain.Network.Solver

/-!
# Arc consistency

A constraint with two variables left without a value asks each value of one for a support among the values of
the other. An *arc* points from the variable whose values are examined to the one that supports them. Arcs
wait in a worklist without repetitions, the latest on top; when a variable loses a value, the arcs that point
at it are added again.

The loop ends: revising an arc either leaves the domains alone, so that the worklist gets shorter, or takes
values away, so that their total number gets smaller (`revises_revise`).
-/

namespace FiniteDomain.Network

/-- The values of `x` need a support among the values of `y`. -/
structure Arc where
  x : Nat
  y : Nat
  constraint : Nat
  deriving DecidableEq, Repr

/-- What revising an arc comes to. -/
inductive Revision where
  | unchanged
  | changed
  | emptied
  deriving DecidableEq, Repr

/-! ## Supports -/

/-- Whether one of the values of `arc.y` supports the value that `arc.x` holds. -/
def supportedBy (net : Network) (arc : Arc) : List Value → Solver Bool
  | [] => pure false
  | w :: ws => do
      Solver.assign arc.y w
      if ← net.check arc.constraint then return true else net.supportedBy arc ws

/-- Whether the value `v` of `arc.x` has a support. Neither variable holds a value before and after. -/
def hasSupport (net : Network) (arc : Arc) (v : Value) : Solver Bool := do
  Solver.assign arc.x v
  let domain ← Solver.look fun r => Variables.domain r.vars arc.y
  (net.supportedBy arc domain).ensuring fun r => (r.free arc.x).free arc.y

/-- Removes the values of `arc.x` without support. The values are those of the domain from `position` on, and
`changed` says whether one was removed before. -/
def reviseFrom (net : Network) (arc : Arc) : Nat → Bool → List Value → Solver Revision
  | _, changed, [] => pure (if changed then .changed else .unchanged)
  | position, changed, v :: vs => do
      if ← net.hasSupport arc v then
        net.reviseFrom arc (position + 1) changed vs
      else
        Solver.removeValue arc.x position
        if ← Solver.look fun r => (Variables.domain r.vars arc.x).isEmpty then
          return .emptied
        else net.reviseFrom arc position true vs

/-- Removes the values of `arc.x` without support, until none is left. -/
def revise (net : Network) (arc : Arc) : Solver Revision := do
  net.reviseFrom arc 0 false (← Solver.look fun r => Variables.domain r.vars arc.x)

/-! ## Progress -/

theorem run_supportedBy_domains (net : Network) (arc : Arc) (ws : List Value) (r : Run) :
    ((net.supportedBy arc ws).run r).2.vars.map (·.domain) = r.vars.map (·.domain) := by
  induction ws generalizing r with
  | nil => rfl
  | cons w ws ih =>
      have hv := run_check_variables net arc.constraint (r.assign arc.y w)
      have ha : (r.assign arc.y w).vars.map (·.domain) = r.vars.map (·.domain) :=
        Variables.map_domain_assign r.vars arc.y w
      rw [supportedBy, Solver.assign, Solver.run_update_bind]
      rcases hc : (net.check arc.constraint).run (r.assign arc.y w) with ⟨e | b, r'⟩
      · rw [Solver.run_bind_error hc]
        rw [hc] at hv
        rw [hv, ha]
      · rw [Solver.run_bind_ok hc]
        rw [hc] at hv
        cases b with
        | true => rw [← ha, ← hv]; rfl
        | false => exact (ih r').trans (by rw [hv, ha])

/-- Looking for a support changes no domain. -/
theorem run_hasSupport_domains (net : Network) (arc : Arc) (v : Value) (r : Run) :
    ((net.hasSupport arc v).run r).2.vars.map (·.domain) = r.vars.map (·.domain) := by
  have h := run_supportedBy_domains net arc (Variables.domain (r.assign arc.x v).vars arc.y)
    (r.assign arc.x v)
  simp only [hasSupport, Solver.assign, Solver.run_update_bind, Solver.run_look_bind,
    Solver.run_ensuring, Run.free, Variables.map_domain_free]
  rw [h, Run.assign, Variables.map_domain_assign]

/-- What a revision does to the domains: it only takes values away, it says `unchanged` only if it took none,
and it says `changed` only if it took some, unless some were taken before. -/
structure Revises (changed : Bool) (before : Run) (out : Except SolveError Revision × Run) : Prop where
  size_le : Variables.totalSize out.2.vars ≤ Variables.totalSize before.vars
  unchanged : out.1 = .ok .unchanged →
    changed = false ∧ Variables.totalSize out.2.vars = Variables.totalSize before.vars
  size_lt : out.1 = .ok .changed → changed = false →
    Variables.totalSize out.2.vars < Variables.totalSize before.vars

/-- Revising the values from a position on keeps its promises. -/
theorem revises_reviseFrom (net : Network) (arc : Arc) (vs : List Value) :
    ∀ (position : Nat) (changed : Bool) (r : Run),
      (Variables.domain r.vars arc.x).drop position = vs →
      Revises changed r ((net.reviseFrom arc position changed vs).run r) := by
  induction vs with
  | nil =>
      intro position changed r _
      cases changed <;> constructor <;> simp [reviseFrom]
  | cons v vs ih =>
      intro position changed r hdrop
      have hm := run_hasSupport_domains net arc v r
      rw [reviseFrom]
      rcases hs : (net.hasSupport arc v).run r with ⟨e | b, r'⟩
      · rw [Solver.run_bind_error hs]
        rw [hs] at hm
        have hsize := Variables.totalSize_eq_of_map_domain hm
        constructor <;> simp [hsize]
      · rw [Solver.run_bind_ok hs]
        rw [hs] at hm
        have hdom := Variables.domain_eq_of_map_domain hm arc.x
        have hsize := Variables.totalSize_eq_of_map_domain hm
        cases b with
        | true =>
            have hrec := ih (position + 1) changed r' (by
              rw [hdom, ← List.tail_drop, hdrop, List.tail_cons])
            constructor
            · exact hsize ▸ hrec.size_le
            · exact hsize ▸ hrec.unchanged
            · exact hsize ▸ hrec.size_lt
        | false =>
            have hget : (Variables.domain r'.vars arc.x)[position]? = some v := by
              rw [hdom, ← List.head?_drop, hdrop, List.head?_cons]
            have hless : Variables.totalSize (r'.removeValue arc.x position).vars + 1
                = Variables.totalSize r.vars := hsize ▸ Trail.totalSize_remove hget
            simp only [Bool.false_eq_true, if_false, Solver.removeValue, Solver.run_update_bind,
              Solver.run_look_bind]
            split
            · constructor <;> simp
              omega
            · have hrec := ih position true (r'.removeValue arc.x position) (by
                have hdom' : Variables.domain (r'.removeValue arc.x position).vars arc.x
                    = (Variables.domain r'.vars arc.x).eraseIdx position :=
                  Trail.domain_remove hget
                rw [hdom', Trail.drop_eraseIdx_self, hdom, ← List.tail_drop, hdrop, List.tail_cons])
              constructor
              · have := hrec.size_le
                omega
              · intro hu
                exact absurd (hrec.unchanged hu).1 (by simp)
              · intro _ _
                have := hrec.size_le
                omega

/-- Revising an arc keeps its promises. -/
theorem revises_revise (net : Network) (arc : Arc) (r : Run) :
    Revises false r ((net.revise arc).run r) :=
  revises_reviseFrom net arc _ 0 false r (List.drop_zero ..)

/-! ## The worklist -/

/-- An arc put on top of the worklist, unless it waits there already. -/
def push (work : List Arc) (arc : Arc) : List Arc :=
  if arc ∈ work then work else arc :: work

/-- The two variables of the constraint `c` that hold no value, if there are exactly two. -/
def openPair? (net : Network) (vars : List Variable) (c : Nat) : Option (Nat × Nat) :=
  match net.unassigned vars c with
  | [a, b] => some (a, b)
  | _ => none

/-- Adds the arcs of the constraint `c` in both directions. -/
def pushBoth (net : Network) (vars : List Variable) (work : List Arc) (c : Nat) : List Arc :=
  match net.openPair? vars c with
  | some (x, y) => push (push work ⟨x, y, c⟩) ⟨y, x, c⟩
  | none => work

/-- Adds the arc of the constraint `c` that points at `x`. -/
def pushToward (net : Network) (vars : List Variable) (x : Nat) (work : List Arc) (c : Nat) :
    List Arc :=
  match net.openPair? vars c with
  | some (a, b) => push work ⟨if a = x then b else a, x, c⟩
  | none => work

/-- Adds the arcs that point at `x`. -/
def pushIncoming (net : Network) (vars : List Variable) (work : List Arc) (x : Nat) : List Arc :=
  (net.constraintsWith vars x 2).foldl (net.pushToward vars x) work

/-- The arcs of the given constraints, and those that point at the changed variables. -/
def initialArcs (net : Network) (vars : List Variable) (constraints changed : List Nat) :
    List Arc :=
  changed.foldl (net.pushIncoming vars) (constraints.foldl (net.pushBoth vars) [])

/-- Revises the arcs of a worklist until none is left or a domain is empty. -/
def reviseAll (net : Network) (work : List Arc) (r : Run) : Except SolveError Verdict × Run :=
  match work with
  | [] => (.ok .consistent, r)
  | arc :: rest =>
      match _h : (net.revise arc).run r with
      | (.error e, r') => (.error e, r')
      | (.ok .unchanged, r') => net.reviseAll rest r'
      | (.ok .changed, r') => net.reviseAll (net.pushIncoming r'.vars rest arc.x) r'
      | (.ok .emptied, r') =>
          (.ok .conflict,
            { r' with events :=
                .emptied (Variables.name r'.vars arc.x) (net.constraintAt arc.constraint).source
                  :: r'.events })
termination_by (Variables.totalSize r.vars, work.length)
decreasing_by
  · have hu := ((net.revises_revise arc r).unchanged (by rw [_h])).2
    rw [_h] at hu
    rw [show Variables.totalSize r'.vars = Variables.totalSize r.vars from hu]
    exact Prod.Lex.right _ (Nat.lt_succ_self _)
  · have hc := (net.revises_revise arc r).size_lt (by rw [_h]) rfl
    rw [_h] at hc
    exact Prod.Lex.left _ _ hc

/-- Makes the arcs of the given constraints consistent, and those that point at the changed variables, until
no domain changes any more. -/
def arcConsistency (net : Network) (constraints changed : List Nat) : Solver Verdict :=
  ⟨fun r => net.reviseAll (net.initialArcs r.vars constraints changed) r⟩

end FiniteDomain.Network
