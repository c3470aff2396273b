import FiniteDomain.Network.Search
import FiniteDomain.Proofs.Network.Fixpoint
import FiniteDomain.Proofs.Network.NodeFiltering

/-!
# Propagation prunes

Node consistency and arc consistency only remove values that no satisfying assignment uses, undo to the variables
they started from, report a conflict only if some variable has no value left, and fail only genuinely. Around the search
both are logged and put together as configured; a run without a conflict is one of each, in turn (`of_run_propagate`).
-/

namespace FiniteDomain

open Variables

namespace Network

variable {net : Network} {r : Run}

/-- What propagation promises: it prunes, after a conflict some variable has no value left, and a failure is
genuine. -/
def Propagates (net : Network) (r : Run) (act : Solver Verdict) : Prop :=
  act.Ensures r (fun verdict r' => Prunes net r r' ∧ (verdict = .conflict → Dead r'.vars))
    (fun e r' => Prunes net r r' ∧ net.Genuine e)

/-- Propagation may go on from where pruning ended. -/
theorem Propagates.of_prunes {r' : Run} {act : Solver Verdict} (hact : net.Propagates r' act)
    (h : Prunes net r r') :
    act.Ensures r' (fun verdict r'' => Prunes net r r'' ∧ (verdict = .conflict → Dead r''.vars))
      (fun e r'' => Prunes net r r'' ∧ net.Genuine e) :=
  Solver.Ensures.mono hact (fun _ _ h' => ⟨h.trans h'.1, h'.2⟩) (fun _ _ h' => ⟨h.trans h'.1, h'.2⟩)

theorem propagates_consistent (net : Network) (r : Run) :
    net.Propagates r (pure .consistent) :=
  ⟨Prunes.refl net r, fun h => by cases h⟩

/-- Node consistency for constraints that leave at most one variable open prunes. -/
theorem nodeConsistency_propagates (hnet : net.Linked) (cs : List Nat) (r : Run)
    (hwithin : net.Within r.vars) (hcs : ∀ c ∈ cs, (net.unassigned r.vars c).length ≤ 1) :
    net.Propagates r (net.nodeConsistency cs) := by
  refine (nodeConsistency_ensures hnet cs r hwithin.frame hcs).mono
    (fun _ _ h => ⟨h.prunes, h.dead hnet hwithin.frame⟩) ?_
  rintro e r' ⟨hprunes, c, -, x, hopen, hfails⟩
  exact ⟨hprunes, hfails.genuine hwithin hopen⟩

/-- Arc consistency prunes. -/
theorem arcConsistency_propagates (hnet : net.Linked) (cs changed : List Nat) (r : Run)
    (hwithin : net.Within r.vars) (hchanged : ∀ x ∈ changed, value? r.vars x = none) :
    net.Propagates r (net.arcConsistency cs changed) := by
  rcases hrun : (net.arcConsistency cs changed).run r with ⟨e | verdict, r'⟩
  · have hworked := arcConsistency_workedOff hnet hwithin.frame hchanged hrun
    obtain ⟨arc, hjoins, hfails⟩ := hworked.fails e rfl
    exact Solver.ensures_of_run_error hrun
      ⟨hworked.prunes, hfails.genuine hwithin hjoins (hjoins.isOpen hnet hwithin.frame)⟩
  · have hworked := arcConsistency_workedOff hnet hwithin.frame hchanged hrun
    exact Solver.ensures_of_run_ok hrun ⟨hworked.prunes, fun hverdict => hworked.dead (congrArg _ hverdict)⟩

/-! ## Around the search -/

/-- Logging a computation that prunes prunes. -/
theorem Propagates.logging {initial : Bool} {kind : Consistency} {act : Solver Verdict}
    (h : net.Propagates { r with trail := {} } act) :
    net.Propagates r (Solver.logging initial kind act) := by
  -- The removals are logged from their own trail before it joins the one around it.
  have hjoin : ∀ r', Prunes net { r with trail := {} } r' → Prunes net r
      { Solver.logTrail initial kind r'.trail r' with trail := r.trail ++ r'.trail } := by
    intro r' hprunes
    have hlog := quiet_logTrail initial kind r'.trail r'
    have hjoined := (hprunes.trans hlog.prunes).of_joined
    rwa [hlog.trail] at hjoined
  refine Solver.ensures_look_bind (Solver.ensures_update_bind (Solver.Ensures.ensuring ?_))
  refine Solver.Ensures.mono h ?_ fun _ r' hfails => ⟨hjoin r' hfails.1, hfails.2⟩
  rintro verdict r' ⟨hprunes, hdead⟩
  refine ⟨hjoin r' hprunes, fun hv => ?_⟩
  show Dead (Solver.logTrail initial kind r'.trail r').vars
  rw [(quiet_logTrail initial kind r'.trail r').vars]
  exact hdead hv

theorem enforceNode_propagates (hnet : net.Linked) (initial : Bool) (cs : List Nat) (r : Run)
    (hwithin : net.Within r.vars) (hcs : ∀ c ∈ cs, (net.unassigned r.vars c).length ≤ 1) :
    net.Propagates r (net.enforceNode initial cs) := by
  refine Solver.Ensures.bind ((nodeConsistency_propagates hnet cs r hwithin hcs).mono ?_ ?_)
  · rintro verdict r' ⟨hprunes, hdead⟩
    have hlog := quiet_logTrail initial .node r'.trail r'
    refine Solver.ensures_update_bind ⟨hprunes.trans hlog.prunes, fun hv => ?_⟩
    rw [hlog.vars]
    exact hdead hv
  · exact fun _ _ h => h

theorem enforceArc_propagates (hnet : net.Linked) (initial : Bool) (cs changed : List Nat) (r : Run)
    (hwithin : net.Within r.vars) (hchanged : ∀ x ∈ changed, value? r.vars x = none) :
    net.Propagates r (net.enforceArc initial cs changed) :=
  (arcConsistency_propagates hnet cs changed { r with trail := {} } hwithin hchanged).logging

/-- Node consistency that was enforced without a conflict, or not at all, has pruned. -/
theorem prunes_of_enforceNode (hnet : net.Linked) {r' : Run} {enforced initial : Bool} {cs : List Nat}
    (hwithin : net.Within r.vars) (hcs : ∀ c ∈ cs, (net.unassigned r.vars c).length ≤ 1)
    (h : if enforced then (net.enforceNode initial cs).run r = (.ok .consistent, r') else r' = r) :
    Prunes net r r' := by
  cases enforced with
  | true => exact ((enforceNode_propagates hnet initial cs r hwithin hcs).of_run_ok h).1
  | false => exact h ▸ Prunes.refl net r'

/-- Arc consistency that was enforced without a conflict, or not at all, has pruned. -/
theorem prunes_of_enforceArc (hnet : net.Linked) {r' : Run} {enforced initial : Bool} {cs changed : List Nat}
    (hwithin : net.Within r.vars) (hchanged : ∀ y ∈ changed, value? r.vars y = none)
    (h : if enforced then (net.enforceArc initial cs changed).run r = (.ok .consistent, r') else r' = r) :
    Prunes net r r' := by
  cases enforced with
  | true => exact ((enforceArc_propagates hnet initial cs changed r hwithin hchanged).of_run_ok h).1
  | false => exact h ▸ Prunes.refl net r'

/-- Propagation that stops with a record in the log at a conflict, and goes on otherwise. -/
theorem Propagates.orElse {act stop next : Solver Verdict} (hact : net.Propagates r act)
    (hstop : ∀ r', stop.Ensures r' (fun verdict r'' => verdict = .conflict ∧ Quiet r' r'')
      (fun _ _ => False))
    (hnext : ∀ r', Prunes net r r' → net.Propagates r' next) :
    net.Propagates r (do if (← act) = .conflict then stop else next) := by
  refine Solver.Ensures.bind (Solver.Ensures.mono hact ?_ fun _ _ h => h)
  rintro verdict r' ⟨hprunes, hdead⟩
  cases verdict with
  | consistent => exact (hnext r' hprunes).of_prunes hprunes
  | conflict =>
      refine (hstop r').mono ?_ fun _ _ h => h.elim
      rintro verdict r'' ⟨-, hquiet⟩
      refine ⟨hprunes.trans hquiet.prunes, fun _ => ?_⟩
      rw [hquiet.vars]
      exact hdead rfl

/-- Making the problem consistent before the search prunes. -/
theorem preprocess_propagates (hnet : net.Linked) (r : Run) (hwithin : net.Within r.vars) :
    net.Propagates r net.preprocess := by
  -- A constraint with one variable leaves at most that one open.
  have hunary : ∀ c ∈ net.constraintsOfArity 1, (net.unassigned r.vars c).length ≤ 1 :=
    fun c hc => length_unassigned_le_of_mem_constraintsOfArity r.vars hc
  have hstop : ∀ kind r', Solver.Ensures (do Solver.emit (.initialConflict kind); return .conflict) r'
      (fun verdict r'' => verdict = Verdict.conflict ∧ Quiet r' r'') (fun _ _ => False) :=
    fun _ r' => ⟨rfl, Quiet.events r' _⟩
  have harc : ∀ r', Prunes net r r' → net.Propagates r' (do
      if net.config.initialArc then
        if (← net.enforceArc true (net.constraintsOfArity 2) []) = .conflict then
          Solver.emit (.initialConflict .arc)
          return .conflict
      return .consistent) := by
    intro r' hprunes
    split
    · exact (enforceArc_propagates hnet true _ [] r' (hwithin.of_prunes hprunes) (by simp)).orElse
        (hstop .arc) (fun r'' _ => propagates_consistent net r'')
    · exact propagates_consistent net r'
  by_cases hnode : net.config.initialNode = true
  · simp only [preprocess, if_pos hnode]
    exact (enforceNode_propagates hnet true _ r hwithin hunary).orElse (hstop .node) harc
  · simp only [preprocess, if_neg hnode]
    exact harc r (Prunes.refl net r)

/-- Propagating after an assignment prunes, if the trail is a new one. -/
theorem propagate_propagates (hnet : net.Linked) (x : Nat) (r : Run) (hwithin : net.Within r.vars)
    (htrail : r.trail = {}) : net.Propagates r (net.propagate x) := by
  have hunary : ∀ c ∈ net.constraintsWith r.vars x 1, (net.unassigned r.vars c).length ≤ 1 :=
    fun c hc => Nat.le_of_eq (length_unassigned_of_mem_constraintsWith hc)
  have hstop : ∀ kind r', Solver.Ensures (do
        Solver.emit (.conflict (← Solver.look (·.assigned)) kind)
        return .conflict) r'
      (fun verdict r'' => verdict = Verdict.conflict ∧ Quiet r' r'') (fun _ _ => False) :=
    fun _ r' => ⟨rfl, Quiet.events r' _⟩
  have harc : ∀ r', Prunes net r r' → net.Propagates r' (do
      if net.config.arc then
        let constraints ← Solver.look fun r => net.constraintsWith r.vars x 2
        let changed ← Solver.look (·.trail.changed)
        if (← net.enforceArc false constraints changed) = .conflict then
          Solver.emit (.conflict (← Solver.look (·.assigned)) .arc)
          return .conflict
      return .consistent) := by
    intro r' hprunes
    split
    · refine Solver.ensures_look_bind (Solver.ensures_look_bind ?_)
      exact (enforceArc_propagates hnet false _ _ r' (hwithin.of_prunes hprunes)
        (hprunes.value?_eq_none_of_changed htrail)).orElse (hstop .arc)
        (fun r'' _ => propagates_consistent net r'')
    · exact propagates_consistent net r'
  by_cases hnode : net.config.node = true
  · simp only [propagate, if_pos hnode]
    refine Solver.ensures_look_bind ?_
    exact (enforceNode_propagates hnet false _ r hwithin hunary).orElse (hstop .node) harc
  · simp only [propagate, if_neg hnode]
    exact harc r (Prunes.refl net r)

/-! ## Runs without a conflict -/

/-- A computation that is logged ends in the variables in which it ends by itself. -/
theorem of_run_logging {α : Type} {initial : Bool} {kind : Consistency} {act : Solver α} {a : α} {r' : Run}
    (h : (Solver.logging initial kind act).run r = (.ok a, r')) :
    ∃ r₁, act.run { r with trail := {} } = (.ok a, r₁) ∧ r'.vars = r₁.vars := by
  rw [Solver.logging, Solver.run_look_bind, Solver.run_update_bind, Solver.run_ensuring] at h
  rcases hact : act.run { r with trail := {} } with ⟨result, r₁⟩
  rw [hact] at h
  obtain ⟨rfl, rfl⟩ := Prod.mk.inj h
  exact ⟨r₁, rfl, (quiet_logTrail initial kind r₁.trail r₁).vars⟩

/-- Node consistency that is enforced ends in the variables in which it ends by itself. -/
theorem of_run_enforceNode {initial : Bool} {cs : List Nat} {verdict : Verdict} {r' : Run}
    (h : (net.enforceNode initial cs).run r = (.ok verdict, r')) :
    ∃ r₁, (net.nodeConsistency cs).run r = (.ok verdict, r₁) ∧ r'.vars = r₁.vars := by
  rw [enforceNode] at h
  rcases hact : (net.nodeConsistency cs).run r with ⟨e | verdict₁, r₁⟩
  · rw [Solver.run_bind_error hact] at h
    cases h
  · rw [Solver.run_bind_ok hact, Solver.run_update_bind] at h
    obtain ⟨hverdict, rfl⟩ := Prod.mk.inj h
    cases hverdict
    exact ⟨r₁, rfl, (quiet_logTrail initial .node r₁.trail r₁).vars⟩

/-- Propagation that stops at a conflict and has not stopped has gone on. -/
theorem of_run_orElse {act stop next : Solver Verdict} {r' : Run}
    (hstop : ∀ r₁, (stop.run r₁).1 ≠ .ok .consistent)
    (h : (do if (← act) = Verdict.conflict then stop else next).run r = (.ok .consistent, r')) :
    ∃ r₁, act.run r = (.ok .consistent, r₁) ∧ next.run r₁ = (.ok .consistent, r') := by
  rcases hact : act.run r with ⟨e | verdict, r₁⟩
  · rw [Solver.run_bind_error hact] at h
    cases h
  · rw [Solver.run_bind_ok hact] at h
    cases verdict with
    | consistent => exact ⟨r₁, rfl, h⟩
    | conflict => exact absurd (congrArg Prod.fst h) (hstop r₁)

theorem of_run_orElse_pure {act stop : Solver Verdict} {r' : Run}
    (hstop : ∀ r₁, (stop.run r₁).1 ≠ .ok .consistent)
    (h : (do if (← act) = Verdict.conflict then stop else pure .consistent).run r = (.ok .consistent, r')) :
    act.run r = (.ok .consistent, r') := by
  obtain ⟨r₁, hrun, hend⟩ := of_run_orElse hstop h
  obtain ⟨-, rfl⟩ := Prod.mk.inj hend
  exact hrun

/-- Propagation after an assignment that finds no conflict is node consistency and arc consistency, as configured. -/
theorem of_run_propagate {x : Nat} {r' : Run} (h : (net.propagate x).run r = (.ok .consistent, r')) :
    ∃ r₁, (if net.config.node then
        (net.enforceNode false (net.constraintsWith r.vars x 1)).run r = (.ok .consistent, r₁)
      else r₁ = r) ∧
      if net.config.arc then
        (net.enforceArc false (net.constraintsWith r₁.vars x 2) r₁.trail.changed).run r₁ = (.ok .consistent, r')
      else r' = r₁ := by
  have harc : ∀ r₁, Solver.run (do
        if net.config.arc then
          let constraints ← Solver.look fun r => net.constraintsWith r.vars x 2
          let changed ← Solver.look (·.trail.changed)
          if (← net.enforceArc false constraints changed) = .conflict then
            Solver.emit (.conflict (← Solver.look (·.assigned)) .arc)
            return Verdict.conflict
        return Verdict.consistent) r₁ = (.ok .consistent, r') →
      if net.config.arc then
        (net.enforceArc false (net.constraintsWith r₁.vars x 2) r₁.trail.changed).run r₁ = (.ok .consistent, r')
      else r' = r₁ := by
    intro r₁ h₁
    split at h₁
    · next hconfig =>
      rw [if_pos hconfig]
      exact of_run_orElse_pure (by simp [Solver.emit]) h₁
    · next hconfig =>
      rw [if_neg hconfig]
      exact (congrArg Prod.snd h₁).symm
  by_cases hnode : net.config.node = true
  · simp only [propagate, if_pos hnode] at h
    obtain ⟨r₁, hrun, hnext⟩ := of_run_orElse (by simp [Solver.emit]) h
    exact ⟨r₁, by rwa [if_pos hnode], harc r₁ hnext⟩
  · simp only [propagate, if_neg hnode] at h
    exact ⟨r, by rw [if_neg hnode], harc r h⟩

/-- Propagation before the search that finds no conflict is node consistency and arc consistency, as configured. -/
theorem of_run_preprocess {r' : Run} (h : net.preprocess.run r = (.ok .consistent, r')) :
    ∃ r₁, (if net.config.initialNode then
        (net.enforceNode true (net.constraintsOfArity 1)).run r = (.ok .consistent, r₁)
      else r₁ = r) ∧
      if net.config.initialArc then
        (net.enforceArc true (net.constraintsOfArity 2) []).run r₁ = (.ok .consistent, r')
      else r' = r₁ := by
  have harc : ∀ r₁, Solver.run (do
        if net.config.initialArc then
          if (← net.enforceArc true (net.constraintsOfArity 2) []) = .conflict then
            Solver.emit (.initialConflict .arc)
            return Verdict.conflict
        return Verdict.consistent) r₁ = (.ok .consistent, r') →
      if net.config.initialArc then
        (net.enforceArc true (net.constraintsOfArity 2) []).run r₁ = (.ok .consistent, r')
      else r' = r₁ := by
    intro r₁ h₁
    split at h₁
    · next hconfig =>
      rw [if_pos hconfig]
      exact of_run_orElse_pure (by simp [Solver.emit]) h₁
    · next hconfig =>
      rw [if_neg hconfig]
      exact (congrArg Prod.snd h₁).symm
  by_cases hnode : net.config.initialNode = true
  · simp only [preprocess, if_pos hnode] at h
    obtain ⟨r₁, hrun, hnext⟩ := of_run_orElse (by simp [Solver.emit]) h
    exact ⟨r₁, by rwa [if_pos hnode], harc r₁ hnext⟩
  · simp only [preprocess, if_neg hnode] at h
    exact ⟨r, by rw [if_neg hnode], harc r h⟩

end Network

end FiniteDomain
