import FiniteDomain.Network.Search

/-!
# Visited states

The search calls itself: it chooses a variable, tries the values of the domain that the variable has at that moment one
after the other, and goes on from those that no conflict shows for. `net.Visits choices r` says that a solve calls the
search in the state `r`, inside calls that made the given choices, the innermost first. The relation follows the calls
and not the number of variables left that the search counts down, so how deep calls nest is a question about it.

* `Opens`: where the first call finds the solve;
* `Turn`: where a call stands after some of the values of its variable;
* `Enters`: where a value leads the next call.

What a call does is what it does from there (`run_explore_of_opens`, `run_search_of_turn`, `run_tryValue_of_enters`), so
the search is called in every visited state: where it fails there, the solve fails (`fst_run_explore_of_visits`). And it
is called in no other: computations that do in the visited states what the search does can take its place, whatever they
do elsewhere (`run_exploreWith_of_visits`).
-/

namespace FiniteDomain

/-- A variable that was chosen, with the domain that it had then. -/
structure Choice where
  variableNumber : Nat
  domain : List Value

/-- The state in which the first value for `x` is about to be tried. -/
def Run.choose (r : Run) (x : Nat) : Run :=
  { r with
    events := .choosing (r.assigned + 1) (Variables.name r.vars x) (Variables.domain r.vars x) :: r.events
    stats := { r.stats with states := r.stats.states + 1 }
    assigned := r.assigned + 1 }

/-- The state after `x` is given the value that is tried. -/
def Run.assigning (r : Run) (x : Nat) (v : Value) : Run :=
  { r with
    events := .assigning r.assigned v (Variables.name r.vars x) :: r.events
    vars := Variables.assign r.vars x v }

/-- The state after the removals since the trail was begun are undone and the trail around it is taken up again. -/
def Run.undone (r : Run) (outer : Trail) : Run :=
  { r with vars := r.trail.revert r.vars, trail := outer }

open Variables

namespace Network

variable {net : Network} {r r' r₁ : Run} {x depth : Nat} {v : Value} {before after : List Value}

/-- A solve of the network calls the search first in the state `r`. -/
def Opens (net : Network) (r : Run) : Prop :=
  ∃ r₁ r₂, (net.allHold (net.constraintsOfArity 0)).run { vars := net.vars } = (.ok true, r₁) ∧
    net.preprocess.run { r₁ with trail := {} } = (.ok .consistent, r₂) ∧
    r = { r₂ with events := .searchBegun :: r₂.events }

/-- A call of the search in the state `r`, inside `depth` others, chose the variable `x`, has tried the values `before`
and is about to try the values `after` in the state `r'`. -/
structure Turn (net : Network) (depth : Nat) (r : Run) (x : Nat) (before after : List Value) (r' : Run) :
    Prop where
  select : net.config.heuristic.select net.constraints r.vars r.assigned = some x
  domain : Variables.domain r.vars x = before ++ after
  tried : (net.tryValues (net.search (net.vars.length - (depth + 1))) x before).run (r.choose x) = (.ok (), r')

/-- Trying the value `v` for `x` in the state `r` calls the search in the state `r'`: the constraints that the value
completes are true, and propagation finds no conflict. -/
def Enters (net : Network) (x : Nat) (v : Value) (r r' : Run) : Prop :=
  ∃ r₁, (net.allHold (net.constraintsWith (Variables.assign r.vars x v) x 0)).run (r.assigning x v)
      = (.ok true, r₁) ∧
    (net.propagate x).run { r₁ with trail := {} } = (.ok .consistent, r')

/-- A solve of the network calls the search in the state `r`, inside calls that made the choices. -/
inductive Visits (net : Network) : List Choice → Run → Prop where
  | opened {r : Run} : net.Opens r → Visits net [] r
  | entered {choices : List Choice} {r r₁ r' : Run} {x : Nat} {before after : List Value} {v : Value} :
      Visits net choices r → net.Turn choices.length r x before (v :: after) r₁ → net.Enters x v r₁ r' →
        Visits net (⟨x, before ++ v :: after⟩ :: choices) r'

/-- What a call of the search does while variables are left, `next` standing for the calls that it makes. -/
def call (net : Network) (next : Solver Unit) : Solver Unit := do
  countState
  match ← Solver.look fun r => net.config.heuristic.select net.constraints r.vars r.assigned with
  | none => recordSolution
  | some x => net.branch next x

/-- What the search does, given the number of variables left, `next` standing for the calls that it makes. -/
def searchWith (net : Network) (next : Solver Unit) : Nat → Solver Unit
  | 0 => do
      countState
      recordSolution
  | _ + 1 => net.call next

/-- What a solve does, `first` standing for its call of the search. -/
def exploreWith (net : Network) (first : Solver Unit) : Solver Unit := do
  if ← net.allHold (net.constraintsOfArity 0) then
    Solver.undoing do
      match ← net.preprocess with
      | .consistent =>
          Solver.emit .searchBegun
          first
      | .conflict => pure ()
    Solver.emit (.finished (← Solver.look (·.stats)))
  else Solver.emit .constantFalse

theorem search_succ (net : Network) (remaining : Nat) :
    net.search (remaining + 1) = net.call (net.search remaining) :=
  rfl

theorem explore_eq_exploreWith (net : Network) : net.explore = net.exploreWith (net.search net.vars.length) :=
  rfl

/-! ## From a visited state on -/

/-- Checking constraints leaves the trail alone. -/
theorem trail_run_allHold (net : Network) (cs : List Nat) (r : Run) :
    ((net.allHold cs).run r).2.trail = r.trail := by
  induction cs generalizing r with
  | nil => rfl
  | cons c cs ih =>
      rw [allHold, Solver.run_bind]
      have hcheck : ((net.check c).run r).2.trail = r.trail := rfl
      rcases hrun : (net.check c).run r with ⟨e | b, r'⟩
      · rw [hrun] at hcheck
        exact hcheck
      · rw [hrun] at hcheck
        cases b with
        | true => exact (ih r').trans hcheck
        | false => exact hcheck

/-- A computation whose removals are undone does what its second part does from where the first one ends. -/
theorem run_undoing_bind {act : Solver Verdict} {next : Verdict → Solver Unit} {verdict : Verdict}
    (h : act.run { r with trail := {} } = (.ok verdict, r')) :
    (Solver.undoing (act >>= next)).run r = ((next verdict).ensuring (·.undone r.trail)).run r' := by
  rw [Solver.undoing, Solver.run_look_bind, Solver.run_update_bind, Solver.run_ensuring, Solver.run_bind_ok h]
  rfl

/-- A solve does what the search does in the state in which it is opened, and undoes the removals made before. -/
theorem run_explore_of_opens (h : net.Opens r) :
    net.explore.run { vars := net.vars } = (do
      (net.search net.vars.length).ensuring (·.undone {})
      Solver.emit (.finished (← Solver.look (·.stats)))).run r := by
  obtain ⟨r₁, r₂, hconstant, hpreprocess, rfl⟩ := h
  have htrail : r₁.trail = {} := by
    have h := trail_run_allHold net (net.constraintsOfArity 0) { vars := net.vars }
    rwa [hconstant] at h
  rw [explore, Solver.run_bind_ok hconstant, if_pos rfl, Solver.run_bind, run_undoing_bind hpreprocess, htrail]
  rfl

/-- Values are tried one after the other. -/
theorem tryValues_append (next : Solver Unit) (x : Nat) (before after : List Value) (r : Run) :
    (net.tryValues next x (before ++ after)).run r
      = (do net.tryValues next x before; net.tryValues next x after).run r := by
  induction before generalizing r with
  | nil => rfl
  | cons v vs ih =>
      rw [List.cons_append, tryValues, tryValues, Solver.run_bind, Solver.run_bind, Solver.run_bind]
      rcases (net.tryValue next x v).run r with ⟨e | u, r'⟩
      · rfl
      · exact ih r'

/-- One more value is tried. -/
theorem Turn.next (h : net.Turn depth r x before (v :: after) r₁)
    (hrun : (net.tryValue (net.search (net.vars.length - (depth + 1))) x v).run r₁ = (.ok (), r')) :
    net.Turn depth r x (before ++ [v]) after r' where
  select := h.select
  domain := by rw [h.domain, List.append_assoc, List.singleton_append]
  tried := by
    rw [tryValues_append, Solver.run_bind_ok h.tried, tryValues, Solver.run_bind_ok hrun]
    rfl

/-- A call that chooses a variable tries the values of its domain and frees it. -/
theorem run_call_of_select (h : net.config.heuristic.select net.constraints r.vars r.assigned = some x)
    (next : Solver Unit) :
    (net.call next).run r = ((net.tryValues next x (domain r.vars x)).ensuring fun r =>
      { r with vars := Variables.free r.vars x, assigned := r.assigned - 1 }).run (r.choose x) := by
  rw [call, countState, Solver.run_update_bind, Solver.run_look_bind, h]
  rfl

/-- A call of the search does, from a turn on, what trying the values that are left does. -/
theorem run_search_of_turn (h : net.Turn depth r x before after r') (hdepth : depth < net.vars.length) :
    (net.search (net.vars.length - depth)).run r
      = ((net.tryValues (net.search (net.vars.length - (depth + 1))) x after).ensuring fun r =>
          { r with vars := Variables.free r.vars x, assigned := r.assigned - 1 }).run r' := by
  have hremaining : net.vars.length - depth = net.vars.length - (depth + 1) + 1 := by omega
  rw [hremaining, search_succ, run_call_of_select h.select, h.domain, Solver.run_ensuring, tryValues_append,
    Solver.run_bind_ok h.tried]
  rfl

/-- Trying a value does what is called in the state that it leads to, and undoes what was removed on the way. -/
theorem run_tryValue_of_enters (h : net.Enters x v r r') (next : Solver Unit) :
    (net.tryValue next x v).run r = (next.ensuring (·.undone r.trail)).run r' := by
  obtain ⟨r₁, hcomplete, hpropagate⟩ := h
  have htrail : r₁.trail = r.trail := by
    have h := trail_run_allHold net (net.constraintsWith (assign r.vars x v) x 0) (r.assigning x v)
    rwa [hcomplete] at h
  rw [tryValue, Solver.run_update_bind, Solver.run_look_bind]
  refine (Solver.run_bind_ok hcomplete _).trans ?_
  rw [if_pos rfl, run_undoing_bind hpropagate, htrail]

/-- Where the search fails in a visited state, the solve fails. -/
theorem fst_run_explore_of_visits {choices : List Choice} {e : SolveError} (h : net.Visits choices r)
    (hdepth : choices.length ≤ net.vars.length)
    (hfails : ((net.search (net.vars.length - choices.length)).run r).1 = .error e) :
    (net.explore.run { vars := net.vars }).1 = .error e := by
  induction h with
  | @opened r hopens =>
      have hfirst : (((net.search net.vars.length).ensuring (·.undone {})).run r).1 = .error e := hfails
      rw [run_explore_of_opens hopens, Solver.fst_run_bind_of_error hfirst]
  | @entered choices r r₁ r' x before after v _ hturn henters ih =>
      have hvalue : ((net.tryValue (net.search (net.vars.length - (choices.length + 1))) x v).run r₁).1 = .error e := by
        rw [run_tryValue_of_enters henters]
        exact hfails
      refine ih (Nat.le_of_succ_le hdepth) ?_
      rw [run_search_of_turn hturn hdepth, Solver.run_ensuring, tryValues, Solver.fst_run_bind_of_error hvalue]

/-! ## Nowhere else -/

/-- What is done before the removals are undone counts only where the trail is begun. -/
theorem run_undoing_congr {act act' : Solver Unit}
    (h : act.run { r with trail := {} } = act'.run { r with trail := {} }) :
    (Solver.undoing act).run r = (Solver.undoing act').run r := by
  rw [Solver.undoing, Solver.undoing, Solver.run_look_bind, Solver.run_look_bind, Solver.run_update_bind,
    Solver.run_update_bind, Solver.run_ensuring, Solver.run_ensuring, h]

/-- Trying a value calls the search only in the state that it leads to. -/
theorem run_tryValue_congr {next next' : Solver Unit} (h : ∀ r', net.Enters x v r r' → next.run r' = next'.run r') :
    (net.tryValue next x v).run r = (net.tryValue next' x v).run r := by
  rw [tryValue, tryValue, Solver.run_update_bind, Solver.run_update_bind, Solver.run_look_bind,
    Solver.run_look_bind]
  refine Solver.run_bind_congr fun b r₁ hcomplete => ?_
  cases b with
  | false => rfl
  | true =>
      refine run_undoing_congr (Solver.run_bind_congr fun verdict r₂ hpropagate => ?_)
      cases verdict with
      | consistent => exact h r₂ ⟨r₁, hcomplete, hpropagate⟩
      | conflict => rfl

/-- The values that are left in a turn call the search only in the states that they lead to. -/
theorem run_tryValues_congr {next : Solver Unit} (hturn : net.Turn depth r x before after r₁)
    (h : ∀ before v after r₁ r', net.Turn depth r x before (v :: after) r₁ → net.Enters x v r₁ r' →
      next.run r' = (net.search (net.vars.length - (depth + 1))).run r') :
    (net.tryValues next x after).run r₁
      = (net.tryValues (net.search (net.vars.length - (depth + 1))) x after).run r₁ := by
  induction after generalizing before r₁ with
  | nil => rfl
  | cons v after ih =>
      have hvalue := run_tryValue_congr (h before v after r₁ · hturn)
      rw [tryValues, tryValues, Solver.run_bind, hvalue]
      refine Solver.run_bind_congr fun u r₂ hrun => ?_
      exact ih (hturn.next hrun)

/-- A call of the search calls it only in the states that the values of its variable lead to. -/
theorem run_call_congr {next : Solver Unit}
    (h : ∀ x before v after r₁ r', net.Turn depth r x before (v :: after) r₁ → net.Enters x v r₁ r' →
      next.run r' = (net.search (net.vars.length - (depth + 1))).run r') :
    (net.call next).run r = (net.call (net.search (net.vars.length - (depth + 1)))).run r := by
  cases hselect : net.config.heuristic.select net.constraints r.vars r.assigned with
  | none =>
      rw [call, call, countState, Solver.run_update_bind, Solver.run_update_bind, Solver.run_look_bind,
        Solver.run_look_bind, hselect]
  | some x =>
      have hturn : net.Turn depth r x [] (domain r.vars x) (r.choose x) := ⟨hselect, rfl, rfl⟩
      rw [run_call_of_select hselect, run_call_of_select hselect, Solver.run_ensuring, Solver.run_ensuring,
        run_tryValues_congr hturn (h x)]

/-- A solve calls the search only in the state in which it is opened. -/
theorem run_exploreWith_congr {first first' : Solver Unit} (h : ∀ r, net.Opens r → first.run r = first'.run r) :
    (net.exploreWith first).run { vars := net.vars } = (net.exploreWith first').run { vars := net.vars } := by
  refine Solver.run_bind_congr fun b r₁ hconstant => ?_
  cases b with
  | false => rfl
  | true =>
      rw [if_pos rfl, if_pos rfl, Solver.run_bind, Solver.run_bind]
      rw [run_undoing_congr (Solver.run_bind_congr fun verdict r₂ hpreprocess => ?_)]
      cases verdict with
      | consistent => exact h _ ⟨r₁, r₂, hconstant, hpreprocess, rfl⟩
      | conflict => rfl

/-- **A solve calls the search in visited states only.** Computations, one for each depth of calls, that do in the
visited states what the search does there, calling each other, make up the same solve; what they do in other states
does not matter. -/
theorem run_exploreWith_of_visits {calls : Nat → Solver Unit}
    (hcalls : ∀ choices r, net.Visits choices r → (calls choices.length).run r
      = (net.searchWith (calls (choices.length + 1)) (net.vars.length - choices.length)).run r) :
    (net.exploreWith (calls 0)).run { vars := net.vars } = net.explore.run { vars := net.vars } := by
  -- The induction is on the variables left: the calls that a call makes have one less.
  have hsearch : ∀ remaining choices r, net.Visits choices r → net.vars.length - choices.length = remaining →
      (calls choices.length).run r = (net.search remaining).run r := by
    intro remaining
    induction remaining with
    | zero =>
        intro choices r hvisits hremaining
        rw [hcalls choices r hvisits, hremaining]
        rfl
    | succ remaining ih =>
        intro choices r hvisits hremaining
        have hnext : net.vars.length - (choices.length + 1) = remaining := by omega
        rw [hcalls choices r hvisits, hremaining, search_succ, searchWith, ← hnext]
        refine run_call_congr fun x before v after r₁ r' hturn henters => ?_
        rw [hnext]
        exact ih (⟨x, before ++ v :: after⟩ :: choices) r' (.entered hvisits hturn henters) hnext
  rw [explore_eq_exploreWith]
  exact run_exploreWith_congr fun r hopens => hsearch _ [] r (.opened hopens) rfl

end Network

end FiniteDomain
