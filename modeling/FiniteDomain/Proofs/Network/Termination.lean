import Mathlib
import FiniteDomain.Network.ArcConsistency
import FiniteDomain.Proofs.Network.Sifting

/-!
# Arc consistency ends

Three loops are nested in arc consistency: over the arcs that wait, over the positions in the domain of an arc's first
end, and over those in the domain of its second end. Each is told here by what one round does to its state (`takeArc`,
`examine`, `trySupport`). In a round over positions the position moves on or a value is removed, so that fewer values
wait behind it. In a round over the arcs values are removed, or the domains stay and there is one arc less to wait
(`progresses_of_takeArc`): the number of values and that of arcs get smaller lexicographically. So each loop comes to an
end, and that is what the recursive computation gives (`arcConsistency_ends`). Rounds that fail make no exception.
-/

namespace FiniteDomain

open Variables

/-! ## Loops -/

/-- The loop goes from a state to a result in finitely many rounds: in each of them its body goes on with another state
or ends the loop. -/
inductive Loops {σ ω : Type} (body : σ → σ ⊕ ω) : σ → ω → Prop where
  | ends {s : σ} {out : ω} : body s = .inr out → Loops body s out
  | round {s s' : σ} {out : ω} : body s = .inl s' → Loops body s' out → Loops body s out

namespace Loops

variable {σ ω ι : Type} {body : σ → σ ⊕ ω} {s : σ} {out : ω}

/-- If every round lowers a measure the loop ends, with what a function gives that may be computed round by round. -/
theorem of_measure {lt : ι → ι → Prop} (hlt : WellFounded lt) (measure : σ → ι)
    (hround : ∀ s s', body s = .inl s' → lt (measure s') (measure s)) {f : σ → ω}
    (hf : ∀ s, f s = (body s).elim f id) (s : σ) : Loops body s (f s) := by
  induction s using (InvImage.wf measure hlt).induction with
  | _ s ih =>
      rw [hf]
      cases hs : body s with
      | inr out => exact .ends hs
      | inl s' => exact .round hs (ih s' (hround s s' hs))

/-- What every round preserves holds at the end. -/
theorem of_invariant {I : σ → Prop} {Q : ω → Prop} (h : Loops body s out) (hs : I s)
    (hround : ∀ s s', I s → body s = .inl s' → I s') (hends : ∀ s out, I s → body s = .inr out → Q out) : Q out := by
  induction h with
  | ends hbody => exact hends _ _ hs hbody
  | round hbody _ ih => exact ih (hround _ _ hs hbody)

end Loops

/-! ## Domains -/

/-- No value is removed from a domain or put back. -/
def SameDomains (r r' : Run) : Prop :=
  r'.vars.map (·.domain) = r.vars.map (·.domain)

namespace SameDomains

variable {r r' r'' : Run}

theorem refl (r : Run) : SameDomains r r :=
  rfl

theorem trans (h : SameDomains r r') (h' : SameDomains r' r'') : SameDomains r r'' :=
  Eq.trans h' h

theorem domain_eq (h : SameDomains r r') (x : Nat) : domain r'.vars x = domain r.vars x :=
  domain_eq_of_map_domain h x

theorem totalSize_eq (h : SameDomains r r') : totalSize r'.vars = totalSize r.vars :=
  totalSize_eq_of_map_domain h

/-- Removing a value takes it from the domains as they were. -/
theorem removeValue (h : SameDomains r r') {x position : Nat} {v : Value}
    (hget : (domain r.vars x)[position]? = some v) :
    domain (r'.removeValue x position).vars x = (domain r.vars x).eraseIdx position ∧
      totalSize (r'.removeValue x position).vars + 1 = totalSize r.vars := by
  rw [← h.domain_eq x] at hget
  rw [← h.domain_eq x, ← h.totalSize_eq]
  exact ⟨Trail.domain_remove hget, Trail.totalSize_remove hget⟩

end SameDomains

namespace Network

variable {net : Network} {arc : Arc} {r r' : Run}

/-! ## The search for a support -/

/-- The state of a search for a support: the position that is reached, and the state of the solve. -/
structure Seeking where
  position : Nat
  run : Run

/-- One round of the search: the second end is given the value at the position. -/
def trySupport (net : Network) (arc : Arc) (s : Seeking) : Seeking ⊕ (Except SolveError Bool × Run) :=
  match (domain s.run.vars arc.y)[s.position]? with
  | none => .inr (.ok false, s.run)
  | some w =>
      match (net.check arc.constraint).run (s.run.assign arc.y w) with
      | (.error e, r) => .inr (.error e, r)
      | (.ok true, r) => .inr (.ok true, r)
      | (.ok false, r) => .inl ⟨s.position + 1, r⟩

/-- What a round of the search does that goes on: the position moves on, and the domains stay. -/
structure Tried (arc : Arc) (s s' : Seeking) : Prop where
  position_lt : s.position < (domain s.run.vars arc.y).length
  position_eq : s'.position = s.position + 1
  same : SameDomains s.run s'.run

theorem sameDomains_check (net : Network) (arc : Arc) (r : Run) (w : Value) :
    SameDomains r ((net.check arc.constraint).run (r.assign arc.y w)).2 := by
  rw [SameDomains, run_check_variables]
  exact map_domain_assign r.vars arc.y w

theorem tried_of_trySupport {s s' : Seeking} (h : net.trySupport arc s = .inl s') : Tried arc s s' := by
  unfold trySupport at h
  split at h
  · cases h
  · next w hget =>
    have hsame := sameDomains_check net arc s.run w
    split at h
    · cases h
    · cases h
    · next r₁ hrun =>
      rw [hrun] at hsame
      cases h
      exact ⟨(List.getElem?_eq_some_iff.mp hget).1, rfl, hsame⟩

/-- The search ends with what the recursion gives over the values that wait behind the position. -/
theorem loops_trySupport (net : Network) (arc : Arc) (ws : List Value) (position : Nat) (r : Run)
    (h : (domain r.vars arc.y).drop position = ws) :
    Loops (net.trySupport arc) ⟨position, r⟩ ((net.supportedBy arc ws).run r) := by
  induction ws generalizing position r with
  | nil =>
      refine .ends ?_
      rw [trySupport, List.getElem?_eq_none (List.drop_eq_nil_iff.mp h)]
      rfl
  | cons w ws ih =>
      have hsame := sameDomains_check net arc r w
      rw [supportedBy, Solver.assign, Solver.run_update_bind]
      rcases hrun : (net.check arc.constraint).run (r.assign arc.y w) with ⟨e | _ | _, r'⟩
      · rw [Solver.run_bind_error hrun]
        refine .ends ?_
        simp only [trySupport, getElem?_of_drop h, hrun]
      · rw [Solver.run_bind_ok hrun]
        rw [hrun] at hsame
        have hbody : net.trySupport arc ⟨position, r⟩ = .inl ⟨position + 1, r'⟩ := by
          simp only [trySupport, getElem?_of_drop h, hrun]
        refine .round hbody (ih (position + 1) r' ?_)
        rw [hsame.domain_eq, drop_succ_of_drop h]
      · rw [Solver.run_bind_ok hrun]
        refine .ends ?_
        simp only [trySupport, getElem?_of_drop h, hrun]
        rfl

/-- Looking for a support of a value is such a search, between giving the value to the first end and freeing both. -/
theorem exists_loops_hasSupport (net : Network) (arc : Arc) (v : Value) (r : Run) :
    ∃ out, Loops (net.trySupport arc) ⟨0, r.assign arc.x v⟩ out ∧
      (net.hasSupport arc v).run r = (out.1, (out.2.free arc.x).free arc.y) :=
  ⟨_, loops_trySupport net arc _ 0 (r.assign arc.x v) (List.drop_zero ..), rfl⟩

/-! ## A revision -/

/-- The state of a revision: the position that is reached, whether a value has been removed, and the state of the
solve. -/
structure Revising where
  position : Nat
  changed : Bool
  run : Run

/-- One round of a revision: the value at the position is examined, and it stays or is removed. -/
def examine (net : Network) (arc : Arc) (s : Revising) : Revising ⊕ (Except SolveError Revision × Run) :=
  match (domain s.run.vars arc.x)[s.position]? with
  | none => .inr (.ok (if s.changed then .changed else .unchanged), s.run)
  | some v =>
      match (net.hasSupport arc v).run s.run with
      | (.error e, r) => .inr (.error e, r)
      | (.ok true, r) => .inl ⟨s.position + 1, s.changed, r⟩
      | (.ok false, r) =>
          if (domain (r.removeValue arc.x s.position).vars arc.x).isEmpty then
            .inr (.ok .emptied, r.removeValue arc.x s.position)
          else .inl ⟨s.position, true, r.removeValue arc.x s.position⟩

/-- What a round of a revision does that goes on: the position moves on and the domains stay, or the value at the
position is removed. -/
structure Examined (arc : Arc) (s s' : Revising) : Prop where
  position_lt : s.position < (domain s.run.vars arc.x).length
  moves : (s'.position = s.position + 1 ∧ s'.changed = s.changed ∧ SameDomains s.run s'.run) ∨
    (s'.position = s.position ∧ s'.changed = true ∧
      domain s'.run.vars arc.x = (domain s.run.vars arc.x).eraseIdx s.position ∧
      totalSize s'.run.vars + 1 = totalSize s.run.vars)

theorem sameDomains_hasSupport (net : Network) (arc : Arc) (v : Value) (r : Run) :
    SameDomains r ((net.hasSupport arc v).run r).2 :=
  run_hasSupport_domains net arc v r

theorem examined_of_examine {s s' : Revising} (h : net.examine arc s = .inl s') : Examined arc s s' := by
  unfold examine at h
  split at h
  · cases h
  · next v hget =>
    have hsame := sameDomains_hasSupport net arc v s.run
    refine ⟨(List.getElem?_eq_some_iff.mp hget).1, ?_⟩
    split at h
    · cases h
    · next r hrun =>
      rw [hrun] at hsame
      cases h
      exact .inl ⟨rfl, rfl, hsame⟩
    · next r hrun =>
      rw [hrun] at hsame
      split at h
      · cases h
      · cases h
        exact .inr ⟨rfl, rfl, hsame.removeValue hget⟩

/-- A revision ends at the end of the domain, with a failure, or with the removal of the last value. -/
theorem of_examine_eq_inr {s : Revising} {out : Except SolveError Revision × Run}
    (h : net.examine arc s = .inr out) :
    out = (.ok (if s.changed then .changed else .unchanged), s.run) ∨
      (∃ e, out.1 = .error e ∧ SameDomains s.run out.2) ∨
      (out.1 = .ok .emptied ∧ totalSize out.2.vars + 1 = totalSize s.run.vars) := by
  unfold examine at h
  split at h
  · cases h
    exact .inl rfl
  · next v hget =>
    have hsame := sameDomains_hasSupport net arc v s.run
    split at h
    · next e r hrun =>
      rw [hrun] at hsame
      cases h
      exact .inr (.inl ⟨e, rfl, hsame⟩)
    · cases h
    · next r hrun =>
      rw [hrun] at hsame
      split at h
      · cases h
        exact .inr (.inr ⟨rfl, (hsame.removeValue hget).2⟩)
      · cases h

/-- A revision ends with what the recursion gives over the values that wait behind the position. -/
theorem loops_examine (net : Network) (arc : Arc) (vs : List Value) (position : Nat) (changed : Bool) (r : Run)
    (h : (domain r.vars arc.x).drop position = vs) :
    Loops (net.examine arc) ⟨position, changed, r⟩ ((net.reviseFrom arc position changed vs).run r) := by
  induction vs generalizing position changed r with
  | nil =>
      refine .ends ?_
      rw [examine, List.getElem?_eq_none (List.drop_eq_nil_iff.mp h)]
      rfl
  | cons v vs ih =>
      have hsame := sameDomains_hasSupport net arc v r
      rw [reviseFrom]
      rcases hrun : (net.hasSupport arc v).run r with ⟨e | _ | _, r'⟩
      · rw [Solver.run_bind_error hrun]
        refine .ends ?_
        simp only [examine, getElem?_of_drop h, hrun]
      · rw [Solver.run_bind_ok hrun]
        rw [hrun] at hsame
        have hbody : net.examine arc ⟨position, changed, r⟩
            = if (domain (r'.removeValue arc.x position).vars arc.x).isEmpty then
                .inr (.ok .emptied, r'.removeValue arc.x position)
              else .inl ⟨position, true, r'.removeValue arc.x position⟩ := by
          simp only [examine, getElem?_of_drop h, hrun]
        simp only [Bool.false_eq_true, if_false, Solver.removeValue, Solver.run_update_bind, Solver.run_look_bind]
        split
        · next hempty =>
          rw [if_pos hempty] at hbody
          exact .ends hbody
        · next hempty =>
          rw [if_neg hempty] at hbody
          -- The value is gone from the position, so the same values wait behind it as behind the next one before.
          refine .round hbody (ih position true _ ?_)
          rw [(hsame.removeValue (getElem?_of_drop h)).1, Trail.drop_eraseIdx_self, drop_succ_of_drop h]
      · rw [Solver.run_bind_ok hrun]
        rw [hrun] at hsame
        have hbody : net.examine arc ⟨position, changed, r⟩ = .inl ⟨position + 1, changed, r'⟩ := by
          simp only [examine, getElem?_of_drop h, hrun]
        refine .round hbody (ih (position + 1) changed r' ?_)
        rw [hsame.domain_eq, drop_succ_of_drop h]

theorem loops_revise (net : Network) (arc : Arc) (r : Run) :
    Loops (net.examine arc) ⟨0, false, r⟩ ((net.revise arc).run r) :=
  loops_examine net arc _ 0 false r (List.drop_zero ..)

/-- The domains are those at `start` as long as no value is said to have been removed, and then there are fewer
values. -/
def Revising.Since (start : Run) (s : Revising) : Prop :=
  (s.changed = false ∧ SameDomains start s.run) ∨ (s.changed = true ∧ totalSize s.run.vars < totalSize start.vars)

/-- What a revision does as a whole: the domains stay or values are removed, and it says which if it does not fail. -/
structure Sweeps (start : Run) (out : Except SolveError Revision × Run) : Prop where
  progress : SameDomains start out.2 ∨ totalSize out.2.vars < totalSize start.vars
  of_unchanged : out.1 = .ok .unchanged → SameDomains start out.2
  of_changed : out.1 = .ok .changed ∨ out.1 = .ok .emptied → totalSize out.2.vars < totalSize start.vars

namespace Revising.Since

variable {start : Run} {s s' : Revising}

theorem progress (h : s.Since start) : SameDomains start s.run ∨ totalSize s.run.vars < totalSize start.vars :=
  h.imp And.right And.right

theorem totalSize_le (h : s.Since start) : totalSize s.run.vars ≤ totalSize start.vars := by
  rcases h.progress with hsame | hless
  · exact Nat.le_of_eq hsame.totalSize_eq
  · exact Nat.le_of_lt hless

/-- A round that goes on preserves it. -/
theorem of_examined (h : s.Since start) (hround : Examined arc s s') : s'.Since start := by
  have hle := h.totalSize_le
  rcases hround.moves with ⟨-, hchanged, hsame⟩ | ⟨-, hchanged, -, hsize⟩
  · rcases h with ⟨hs, hstart⟩ | ⟨hs, hless⟩
    · exact .inl ⟨hchanged.trans hs, hstart.trans hsame⟩
    · exact .inr ⟨hchanged.trans hs, hsame.totalSize_eq ▸ hless⟩
  · exact .inr ⟨hchanged, by omega⟩

/-- A round that ends the revision leaves it swept. -/
theorem sweeps {out : Except SolveError Revision × Run} (h : s.Since start) (hround : net.examine arc s = .inr out) :
    Sweeps start out := by
  have hle := h.totalSize_le
  rcases of_examine_eq_inr hround with rfl | ⟨e, hout, hsame⟩ | ⟨hout, hsize⟩
  · rcases h with ⟨hchanged, hsame⟩ | ⟨hchanged, hless⟩ <;> rw [hchanged]
    · exact ⟨.inl hsame, fun _ => hsame, by simp⟩
    · exact ⟨.inr hless, by simp, fun _ => hless⟩
  · refine ⟨h.progress.imp (·.trans hsame) fun hless => ?_, by simp [hout], by simp [hout]⟩
    rwa [hsame.totalSize_eq]
  · have hless : totalSize out.2.vars < totalSize start.vars := by omega
    exact ⟨.inr hless, by simp [hout], fun _ => hless⟩

end Revising.Since

theorem sweeps_revise (net : Network) (arc : Arc) (r : Run) : Sweeps r ((net.revise arc).run r) :=
  (loops_revise net arc r).of_invariant (I := Revising.Since r) (.inl ⟨rfl, .refl r⟩)
    (fun _ _ hs hround => hs.of_examined (examined_of_examine hround)) fun _ _ hs hround => hs.sweeps hround

/-! ## The worklist -/

/-- One round over the worklist: the arc on top is taken and revised, and the arcs that point at its first end are put
on top if that has lost values. -/
def takeArc (net : Network) : List Arc × Run → (List Arc × Run) ⊕ (Except SolveError Verdict × Run)
  | ([], r) => .inr (.ok .consistent, r)
  | (arc :: rest, r) =>
      match (net.revise arc).run r with
      | (.error e, r') => .inr (.error e, r')
      | (.ok .unchanged, r') => .inl (rest, r')
      | (.ok .changed, r') => .inl (net.pushIncoming r'.vars rest arc.x, r')
      | (.ok .emptied, r') =>
          .inr (.ok .conflict,
            { r' with events :=
                .emptied (name r'.vars arc.x) (net.constraintAt arc.constraint).source :: r'.events })

/-- The domains stay and the worklist gets shorter, or values are removed. -/
def Progresses (s s' : List Arc × Run) : Prop :=
  (SameDomains s.2 s'.2 ∧ s'.1.length < s.1.length) ∨ totalSize s'.2.vars < totalSize s.2.vars

/-- Progress lowers the number of values, or keeps it and lowers that of arcs. -/
theorem Progresses.lex {s s' : List Arc × Run} (h : Progresses s s') :
    Prod.Lex (· < ·) (· < ·) (totalSize s'.2.vars, s'.1.length) (totalSize s.2.vars, s.1.length) := by
  rcases h with ⟨hsame, hlength⟩ | hless
  · rw [hsame.totalSize_eq]
    exact .right _ hlength
  · exact .left _ _ hless

/-- A round that goes on makes progress. -/
theorem progresses_of_takeArc {s s' : List Arc × Run} (h : net.takeArc s = .inl s') : Progresses s s' := by
  obtain ⟨_ | ⟨arc, rest⟩, r⟩ := s
  · cases h
  · have hsweeps := sweeps_revise net arc r
    rw [takeArc] at h
    split at h
    · cases h
    · next r' hrun =>
      rw [hrun] at hsweeps
      cases h
      exact .inl ⟨hsweeps.of_unchanged rfl, Nat.lt_succ_self _⟩
    · next r' hrun =>
      rw [hrun] at hsweeps
      cases h
      exact .inr (hsweeps.of_changed (.inl rfl))
    · cases h

/-- So does a round that ends the loop before the worklist is empty. -/
theorem progresses_of_takeArc_eq_inr {rest : List Arc} {out : Except SolveError Verdict × Run}
    (h : net.takeArc (arc :: rest, r) = .inr out) : Progresses (arc :: rest, r) (rest, out.2) := by
  have hprogress := (sweeps_revise net arc r).progress
  have hshorter : ∀ r', SameDomains r r' ∨ totalSize r'.vars < totalSize r.vars →
      Progresses (arc :: rest, r) (rest, r') :=
    fun r' h => h.imp_left fun hsame => ⟨hsame, Nat.lt_succ_self _⟩
  rw [takeArc] at h
  split at h
  · next e r' hrun =>
    rw [hrun] at hprogress
    cases h
    exact hshorter _ hprogress
  · cases h
  · cases h
  · next r' hrun =>
    rw [hrun] at hprogress
    cases h
    exact hshorter _ hprogress

theorem reviseAll_eq_takeArc (net : Network) (s : List Arc × Run) :
    net.reviseAll s.1 s.2 = (net.takeArc s).elim (fun s' => net.reviseAll s'.1 s'.2) id := by
  obtain ⟨_ | ⟨arc, rest⟩, r⟩ := s
  · rw [reviseAll]
    rfl
  · rw [reviseAll, takeArc]
    rcases hrun : (net.revise arc).run r with ⟨e | _ | _ | _, r'⟩ <;> rfl

/-! ## No arc waits twice -/

section Nodup

variable {work : List Arc}

theorem nodup_push (arc : Arc) (h : work.Nodup) : (push work arc).Nodup := by
  unfold push
  split
  · exact h
  · next hmem => exact List.nodup_cons.mpr ⟨hmem, h⟩

theorem nodup_pushBoth (net : Network) (vars : List Variable) (c : Nat) (h : work.Nodup) :
    (net.pushBoth vars work c).Nodup := by
  unfold pushBoth
  split
  · exact nodup_push _ (nodup_push _ h)
  · exact h

theorem nodup_pushIncoming (net : Network) (vars : List Variable) (x : Nat) (h : work.Nodup) :
    (net.pushIncoming vars work x).Nodup := by
  refine List.foldlRecOn _ (net.pushToward vars x) h fun work hwork c _ => ?_
  unfold pushToward
  split
  · exact nodup_push _ hwork
  · exact hwork

theorem nodup_initialArcs (net : Network) (vars : List Variable) (cs changed : List Nat) :
    (net.initialArcs vars cs changed).Nodup := by
  have hlisted : (cs.foldl (net.pushBoth vars) []).Nodup :=
    List.foldlRecOn _ (net.pushBoth vars) List.nodup_nil fun _ hwork c _ => nodup_pushBoth net vars c hwork
  exact List.foldlRecOn _ (net.pushIncoming vars) hlisted fun _ hwork x _ => nodup_pushIncoming net vars x hwork

theorem nodup_of_takeArc {s s' : List Arc × Run} (hs : s.1.Nodup) (h : net.takeArc s = .inl s') : s'.1.Nodup := by
  obtain ⟨_ | ⟨arc, rest⟩, r⟩ := s
  · cases h
  · have hrest : rest.Nodup := (List.nodup_cons.mp hs).2
    rw [takeArc] at h
    split at h
    · cases h
    · cases h
      exact hrest
    · cases h
      exact nodup_pushIncoming net _ _ hrest
    · cases h

end Nodup

/-! ## The end -/

/-- The loop over the worklist ends from every state. -/
theorem loops_reviseAll (net : Network) (work : List Arc) (r : Run) :
    Loops net.takeArc (work, r) (net.reviseAll work r) :=
  Loops.of_measure (Prod.lex Nat.lt_wfRel Nat.lt_wfRel).wf (fun s => (totalSize s.2.vars, s.1.length))
    (fun _ _ hround => (progresses_of_takeArc hround).lex) (reviseAll_eq_takeArc net) (work, r)

/-- **Arc consistency ends.** In every network, under whatever values are held and for whatever constraints and changed
variables, the loop over the worklist ends with what arc consistency gives. No arc waits twice. Each round leaves the
domains alone and makes the worklist shorter, or it lowers the number of values, also the round that ends the loop early
with a conflict or a failure. A revision ends, since in each round the position moves on or the value there is removed,
and so does the search for a support, since the position moves on in each round. -/
theorem arcConsistency_ends (net : Network) (cs changed : List Nat) (r : Run) :
    Loops net.takeArc (net.initialArcs r.vars cs changed, r) ((net.arcConsistency cs changed).run r) ∧
      (net.initialArcs r.vars cs changed).Nodup ∧
      (∀ s s', net.takeArc s = .inl s' → Progresses s s' ∧ (s.1.Nodup → s'.1.Nodup)) ∧
      (∀ arc rest r out, net.takeArc (arc :: rest, r) = .inr out → Progresses (arc :: rest, r) (rest, out.2)) ∧
      (∀ arc r, Loops (net.examine arc) ⟨0, false, r⟩ ((net.revise arc).run r)) ∧
      (∀ arc s s', net.examine arc s = .inl s' → Examined arc s s') ∧
      (∀ arc v r, ∃ out, Loops (net.trySupport arc) ⟨0, Run.assign r arc.x v⟩ out ∧
        (net.hasSupport arc v).run r = (out.1, (out.2.free arc.x).free arc.y)) ∧
      ∀ arc s s', net.trySupport arc s = .inl s' → Tried arc s s' := by
  refine ⟨loops_reviseAll net _ r, nodup_initialArcs net r.vars cs changed, fun s s' hround => ?_,
    fun _ _ _ _ => progresses_of_takeArc_eq_inr, loops_revise net, fun _ _ _ => examined_of_examine,
    exists_loops_hasSupport net, fun _ _ _ => tried_of_trySupport⟩
  exact ⟨progresses_of_takeArc hround, fun hs => nodup_of_takeArc hs hround⟩

/-- Two variables with the same values, the first of which is to be less than the second. -/
def ordered : Network where
  vars := [⟨"A", [.int 0, .int 1], none, [0]⟩, ⟨"B", [.int 0, .int 1], none, [0]⟩]
  constraints := [⟨"A < B", .binary .lt (.slot 0 "A") (.slot 1 "B"), [0, 1]⟩]

/-- A round that removes a value from the first variable and leaves as many arcs waiting as before, and then the loop
ends without a conflict. -/
theorem arcConsistency_ends_ordered :
    ∃ s', ordered.takeArc ([⟨0, 1, 0⟩], { vars := ordered.vars }) = .inl s' ∧
      s'.1 = [⟨1, 0, 0⟩] ∧ s'.2.vars.map (·.domain) = [[.int 0], [.int 0, .int 1]] ∧
      Progresses ([⟨0, 1, 0⟩], { vars := ordered.vars }) s' ∧
      ∃ out, Loops ordered.takeArc (ordered.initialArcs ordered.vars [0] [], { vars := ordered.vars }) out ∧
        out.1 = .ok .consistent := by
  obtain ⟨hloops, -, hround, -⟩ := arcConsistency_ends ordered [0] [] { vars := ordered.vars }
  have hresult : ((ordered.arcConsistency [0] []).run { vars := ordered.vars }).1 = .ok .consistent := by cbv
  exact ⟨_, rfl, rfl, rfl, (hround _ _ rfl).1, _, hloops, hresult⟩

end Network

end FiniteDomain
