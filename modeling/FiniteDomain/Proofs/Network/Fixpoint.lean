import Mathlib.Data.List.Perm.Basic
import Mathlib.Logic.Relation
import FiniteDomain.Proofs.Network.Revision

/-!
# A worklist that is worked off

While arcs are revised, an arc is covered: it waits in the worklist, or it is consistent. An arc that is revised becomes
consistent, and it stays so until its second end loses a value; then it is put on the worklist again. So when no arc
waits any more, all that were covered are consistent (`Settled`). No subdomains lose a value in which every value has a
support (`Narrows`). Neither depends on which arc is taken next: one step takes any arc that waits (`Advances`), it
preserves what there is to preserve (`Working.of_advances`), and working off the worklist from the top is one way to go
(`worksOff_reviseAll`).
-/

namespace FiniteDomain.Network

open Variables

variable {net : Network} {vars : List Variable} {r r₁ r₂ r' : Run} {work rest start : List Arc} {arc : Arc}
  {c x y : Nat}

/-! ## What waits in the worklist -/

theorem mem_push_self (work : List Arc) (arc : Arc) : arc ∈ push work arc := by
  unfold push
  split <;> simp_all

theorem subset_push (work : List Arc) (arc : Arc) : work ⊆ push work arc := by
  intro arc' harc'
  unfold push
  split
  · exact harc'
  · exact List.mem_cons_of_mem arc harc'

theorem mem_push {arc' : Arc} (h : arc' ∈ push work arc) : arc' = arc ∨ arc' ∈ work := by
  unfold push at h
  split at h
  · exact .inr h
  · exact List.mem_cons.mp h

section Adding

variable {β : Type} {add : List Arc → β → List Arc} {b : β} {bs : List β}

/-- Arcs that are added in steps that lose none are not lost. -/
theorem subset_foldl (hadd : ∀ work b, work ⊆ add work b) (bs : List β) (work : List Arc) :
    work ⊆ bs.foldl add work := by
  induction bs generalizing work with
  | nil => exact fun _ h => h
  | cons b bs ih => exact fun arc harc => ih (add work b) (hadd work b harc)

/-- What one of the steps adds is there after all of them. -/
theorem mem_foldl (hadd : ∀ work b, work ⊆ add work b) (hb : b ∈ bs) (harc : ∀ work, arc ∈ add work b)
    (work : List Arc) : arc ∈ bs.foldl add work := by
  induction bs generalizing work with
  | nil => cases hb
  | cons b' bs ih =>
      rcases List.mem_cons.mp hb with rfl | hb
      · exact subset_foldl hadd bs _ (harc work)
      · exact ih hb _

end Adding

theorem openPair?_eq_some (h : net.unassigned vars c = [x, y]) : net.openPair? vars c = some (x, y) := by
  rw [openPair?, h]

theorem unassigned_of_openPair? (h : net.openPair? vars c = some (x, y)) : net.unassigned vars c = [x, y] := by
  unfold openPair? at h
  split at h
  · next heq =>
    cases h
    exact heq
  · cases h

theorem subset_pushBoth (work : List Arc) (c : Nat) : work ⊆ net.pushBoth vars work c := by
  unfold pushBoth
  split
  · exact fun arc harc => subset_push _ _ (subset_push _ _ harc)
  · exact fun _ harc => harc

/-- Both arcs of a constraint are added. -/
theorem mem_pushBoth (h : arc.Joins net vars) (work : List Arc) :
    arc ∈ net.pushBoth vars work arc.constraint := by
  unfold pushBoth
  rcases h with h | h <;> rw [openPair?_eq_some h]
  · exact subset_push _ _ (mem_push_self work arc)
  · exact mem_push_self _ arc

theorem subset_pushToward (x : Nat) (work : List Arc) (c : Nat) : work ⊆ net.pushToward vars x work c := by
  unfold pushToward
  split
  · exact subset_push work _
  · exact fun _ harc => harc

/-- The arc of a constraint that points at a variable is added. -/
theorem mem_pushToward (h : arc.Joins net vars) (hne : arc.x ≠ arc.y) (work : List Arc) :
    arc ∈ net.pushToward vars arc.y work arc.constraint := by
  unfold pushToward
  rcases h with h | h <;> rw [openPair?_eq_some h]
  · simpa [hne] using mem_push_self work arc
  · simpa using mem_push_self work arc

theorem subset_pushIncoming (work : List Arc) (x : Nat) : work ⊆ net.pushIncoming vars work x :=
  subset_foldl (subset_pushToward x) _ work

/-- An arc is among those that point at its second end. -/
theorem mem_pushIncoming (hnet : net.Linked) (hframe : frame vars = frame net.vars) (h : arc.Joins net vars)
    (work : List Arc) : arc ∈ net.pushIncoming vars work arc.y := by
  have hopen := h.isOpen hnet hframe
  refine mem_foldl (subset_pushToward arc.y) ?_ (mem_pushToward h hopen.ne) work
  refine (hnet.mem_constraintsWith_iff hframe hopen.y_lt).mpr ?_
  have hy : arc.y ∈ net.unassigned vars arc.constraint := by rcases h with h | h <;> simp [h]
  refine ⟨(List.mem_filter.mp hy).1, ?_⟩
  rcases h with h | h <;> rw [h] <;> rfl

/-- A worklist starts with the arcs of the given constraints and those that point at the changed variables. -/
theorem mem_initialArcs (hnet : net.Linked) (hframe : frame vars = frame net.vars) (h : arc.Joins net vars)
    {cs changed : List Nat} (hmem : arc.constraint ∈ cs ∨ arc.y ∈ changed) :
    arc ∈ net.initialArcs vars cs changed := by
  unfold initialArcs
  rcases hmem with hc | hy
  · exact subset_foldl subset_pushIncoming changed _ (mem_foldl subset_pushBoth hc (mem_pushBoth h) [])
  · exact mem_foldl subset_pushIncoming hy (mem_pushIncoming hnet hframe h) _

/-- The arcs that point at a variable without a value join it to the other open variable of their constraint. -/
theorem joins_pushIncoming (hnet : net.Linked) (hframe : frame vars = frame net.vars) (hfree : value? vars x = none)
    (hwork : ∀ arc ∈ work, arc.Joins net vars) : ∀ arc ∈ net.pushIncoming vars work x, arc.Joins net vars := by
  have hopen : ∀ c ∈ net.constraintsWith vars x 2, x ∈ net.unassigned vars c := by
    intro c hc
    exact hnet.mem_unassigned hframe (List.mem_filter.mp hc).1 hfree
  unfold pushIncoming
  generalize net.constraintsWith vars x 2 = cs at hopen ⊢
  induction cs generalizing work with
  | nil => exact hwork
  | cons c cs ih =>
      rw [List.foldl_cons]
      refine ih ?_ fun c' hc' => hopen c' (List.mem_cons_of_mem c hc')
      intro arc harc
      unfold pushToward at harc
      split at harc
      · next a b hpair =>
        have hab := unassigned_of_openPair? hpair
        rcases mem_push harc with rfl | harc
        · by_cases ha : a = x
          · simp only [ha, if_true]
            exact .inr (ha ▸ hab)
          · have hx := hopen c List.mem_cons_self
            rw [hab, List.mem_cons, List.mem_singleton] at hx
            obtain rfl : x = b := hx.resolve_left (Ne.symm ha)
            simp only [ha, if_false]
            exact .inl hab
        · exact hwork arc harc
      · exact hwork arc harc

/-- The arcs of constraints join their two open variables. -/
theorem joins_pushBoth (cs : List Nat) (hwork : ∀ arc ∈ work, arc.Joins net vars) :
    ∀ arc ∈ cs.foldl (net.pushBoth vars) work, arc.Joins net vars := by
  induction cs generalizing work with
  | nil => exact hwork
  | cons c cs ih =>
      rw [List.foldl_cons]
      refine ih ?_
      intro arc harc
      unfold pushBoth at harc
      split at harc
      · next x y hpair =>
        have hxy := unassigned_of_openPair? hpair
        rcases mem_push harc with rfl | harc
        · exact .inr hxy
        · rcases mem_push harc with rfl | harc
          · exact .inl hxy
          · exact hwork arc harc
      · exact hwork arc harc

/-- The arcs that a worklist starts with join the two open variables of their constraints. -/
theorem joins_initialArcs (hnet : net.Linked) (hframe : frame vars = frame net.vars) (cs changed : List Nat)
    (hchanged : ∀ x ∈ changed, value? vars x = none) :
    ∀ arc ∈ net.initialArcs vars cs changed, arc.Joins net vars := by
  unfold initialArcs
  have hwork : ∀ arc ∈ cs.foldl (net.pushBoth vars) [], arc.Joins net vars :=
    joins_pushBoth cs (by simp)
  generalize cs.foldl (net.pushBoth vars) [] = work at hwork ⊢
  induction changed generalizing work with
  | nil => exact hwork
  | cons x xs ih =>
      rw [List.foldl_cons]
      refine ih (fun y hy => hchanged y (List.mem_cons_of_mem x hy)) _ ?_
      exact joins_pushIncoming hnet hframe (hchanged x List.mem_cons_self) hwork

/-! ## Subdomains without unsupported values -/

/-- A family of subdomains in which every value for an end of an arc has a support for the other end. -/
structure Supported (net : Network) (vars : List Variable) (F : Nat → Set Value) : Prop where
  mem_domain : ∀ x, ∀ v ∈ F x, v ∈ domain vars x
  support : ∀ arc : Arc, arc.Joins net vars → ∀ v ∈ F arc.x, ∃ w ∈ F arc.y,
    (net.constraintAt arc.constraint).holds (assign (assign vars arc.x v) arc.y w) = .ok true

/-- Pruning that takes no value from any supported family, and takes a value wherever it stands. -/
structure Narrows (net : Network) (r r' : Run) : Prop where
  prunes : Prunes net r r'
  filtered : ∀ x, domain r'.vars x = (domain r.vars x).filter (· ∈ domain r'.vars x)
  mem_of_supported : ∀ F, net.Supported r.vars F → ∀ x, ∀ v ∈ F x, v ∈ domain r'.vars x

theorem narrows_of_quiet (h : Quiet r r') : net.Narrows r r' := by
  refine ⟨h.prunes, fun x => ?_, fun F hF x v hv => ?_⟩
  · rw [h.vars]
    exact (List.filter_eq_self.mpr fun v hv => decide_eq_true hv).symm
  · rw [h.vars]
    exact hF.mem_domain x v hv

/-- A family stays supported if none of its values is taken. -/
theorem Supported.of_narrows {F : Nat → Set Value} (h : net.Supported r.vars F) (hnarrows : net.Narrows r r') :
    net.Supported r'.vars F := by
  have hprunes := hnarrows.prunes
  refine ⟨hnarrows.mem_of_supported F h, fun arc hjoins v hv => ?_⟩
  obtain ⟨w, hw, hholds⟩ := h.support arc (hjoins.of_pruned hprunes) v hv
  exact ⟨w, hw, (hprunes.holds_assign_assign _ _ _ v w).trans hholds⟩

theorem Narrows.trans (h : net.Narrows r r₁) (h' : net.Narrows r₁ r') : net.Narrows r r' := by
  refine ⟨h.prunes.trans h'.prunes, fun x => ?_, fun F hF => h'.mem_of_supported F (hF.of_narrows h)⟩
  calc domain r'.vars x
    _ = (domain r₁.vars x).filter (· ∈ domain r'.vars x) := h'.filtered x
    _ = ((domain r.vars x).filter (· ∈ domain r₁.vars x)).filter (· ∈ domain r'.vars x) := by rw [← h.filtered x]
    _ = (domain r.vars x).filter (· ∈ domain r'.vars x) := by
        rw [List.filter_filter]
        refine List.filter_congr fun v _ => ?_
        -- What is left in the end was left in between.
        simpa using fun hv => (h'.prunes.sublist x).subset hv

/-- Revising an arc narrows. -/
theorem Revised.narrows {revision : Revision} (h : Revised net arc r revision r')
    (hjoins : arc.Joins net r.vars) : net.Narrows r r' := by
  refine ⟨h.prunes, fun x => ?_, fun F hF x v hv => ?_⟩
  · by_cases hx : x = arc.x
    · rw [hx, h.filtered]
      refine List.filter_congr fun v hv => ?_
      simp [hv]
    · rw [h.domain_eq x hx]
      exact (List.filter_eq_self.mpr fun v hv => decide_eq_true hv).symm
  · by_cases hx : x = arc.x
    · subst hx
      obtain ⟨w, hw, hholds⟩ := hF.support arc hjoins v hv
      rw [h.filtered]
      exact List.mem_filter.mpr
        ⟨hF.mem_domain arc.x v hv, decide_eq_true ⟨w, hF.mem_domain arc.y w hw, hholds⟩⟩
    · rw [h.domain_eq x hx]
      exact hF.mem_domain x v hv

/-! ## Working it off -/

/-- One of the arcs that wait is taken and revised, whichever. If its first end has lost values, the arcs that point at
it wait again. -/
inductive Advances (net : Network) : List Arc × Run → List Arc × Run → Prop where
  | unchanged {work rest : List Arc} {arc : Arc} {r r' : Run} :
      work.Perm (arc :: rest) → (net.revise arc).run r = (.ok .unchanged, r') → Advances net (work, r) (rest, r')
  | changed {work rest : List Arc} {arc : Arc} {r r' : Run} :
      work.Perm (arc :: rest) → (net.revise arc).run r = (.ok .changed, r') →
        Advances net (work, r) (net.pushIncoming r'.vars rest arc.x, r')

/-- No arc waits, or one of those that wait empties a domain or fails. -/
inductive Ends (net : Network) : List Arc × Run → Except SolveError Verdict → Run → Prop where
  | done {r : Run} : Ends net ([], r) (.ok .consistent) r
  | emptied {work rest : List Arc} {arc : Arc} {r r' : Run} :
      work.Perm (arc :: rest) → (net.revise arc).run r = (.ok .emptied, r') →
        Ends net (work, r) (.ok .conflict)
          { r' with events :=
              .emptied (name r'.vars arc.x) (net.constraintAt arc.constraint).source :: r'.events }
  | failed {work rest : List Arc} {arc : Arc} {e : SolveError} {r r' : Run} :
      work.Perm (arc :: rest) → (net.revise arc).run r = (.error e, r') → Ends net (work, r) (.error e) r'

/-- The worklist can be worked off from `r` with this result, taking the arcs in some order. -/
def WorksOff (net : Network) (work : List Arc) (r : Run) (result : Except SolveError Verdict) (r' : Run) : Prop :=
  ∃ s, Relation.ReflTransGen net.Advances (work, r) s ∧ net.Ends s result r'

/-- A step from which the worklist can be worked off is the first of a way to work it off. -/
theorem WorksOff.of_advances {result : Except SolveError Verdict} (hstep : net.Advances (work, r) (rest, r₁))
    (h : net.WorksOff rest r₁ result r') : net.WorksOff work r result r' := by
  obtain ⟨s, hsteps, hends⟩ := h
  exact ⟨s, .head hstep hsteps, hends⟩

/-- Taking the arc on top is one order. -/
theorem worksOff_reviseAll (net : Network) (work : List Arc) (r : Run) :
    net.WorksOff work r (net.reviseAll work r).1 (net.reviseAll work r).2 := by
  fun_induction net.reviseAll work r with
  | case1 r => exact ⟨_, .refl, .done⟩
  | case2 r arc rest e r' hrun => exact ⟨_, .refl, .failed (.refl _) hrun⟩
  | case3 r arc rest r' hrun ih => exact ih.of_advances (.unchanged (.refl _) hrun)
  | case4 r arc rest r' hrun ih => exact ih.of_advances (.changed (.refl _) hrun)
  | case5 r arc rest r' hrun => exact ⟨_, .refl, .emptied (.refl _) hrun⟩

/-- In whatever order the arcs are taken, there is an end: with every step the values get fewer, or they stay and the
arcs that wait get fewer. -/
theorem wellFounded_advances (net : Network) : WellFounded fun s s' => net.Advances s' s := by
  refine Subrelation.wf ?_ (InvImage.wf (fun s : List Arc × Run => (totalSize s.2.vars, s.1.length))
    (Prod.lex Nat.lt_wfRel Nat.lt_wfRel).wf)
  intro s s' hstep
  cases hstep with
  | @unchanged work rest arc r r' hperm hrun =>
      have hsize := ((net.revises_revise arc r).unchanged (by rw [hrun])).2
      rw [hrun] at hsize
      have hlength : rest.length < work.length := by simp [hperm.length_eq]
      show Prod.Lex _ _ (totalSize r'.vars, rest.length) (totalSize r.vars, work.length)
      rw [show totalSize r'.vars = totalSize r.vars from hsize]
      exact .right _ hlength
  | @changed work rest arc r r' hperm hrun =>
      have hsize := (net.revises_revise arc r).size_lt (by rw [hrun]) rfl
      rw [hrun] at hsize
      exact .left _ _ hsize

/-- Work that is not done goes on or ends. -/
theorem exists_advances_or_ends (net : Network) (work : List Arc) (r : Run) :
    (∃ s, net.Advances (work, r) s) ∨ ∃ result r', net.Ends (work, r) result r' := by
  cases work with
  | nil => exact .inr ⟨_, _, .done⟩
  | cons arc rest =>
      rcases hrun : (net.revise arc).run r with ⟨e | _ | _ | _, r'⟩
      · exact .inr ⟨_, _, .failed (.refl _) hrun⟩
      · exact .inl ⟨_, .unchanged (.refl _) hrun⟩
      · exact .inl ⟨_, .changed (.refl _) hrun⟩
      · exact .inr ⟨_, _, .emptied (.refl _) hrun⟩

/-- From `r` to `r'`, every arc has become or stayed consistent that waited, that was consistent, or whose second end
has lost a value. -/
def Settled (net : Network) (work : List Arc) (r r' : Run) : Prop :=
  ∀ arc : Arc, arc.Joins net r.vars →
    arc ∈ work ∨ arc.Consistent net r.vars ∨ domain r'.vars arc.y ≠ domain r.vars arc.y → arc.Consistent net r'.vars

/-- What holds while a worklist is worked off that was `start` at `r`. -/
structure Working (net : Network) (start : List Arc) (r : Run) (work : List Arc) (r' : Run) : Prop where
  narrows : net.Narrows r r'
  joins : ∀ arc ∈ work, arc.Joins net r'.vars
  nonempty : ∀ x, domain r.vars x ≠ [] → domain r'.vars x ≠ []
  covered : ∀ arc : Arc, arc.Joins net r.vars →
    arc ∈ start ∨ arc.Consistent net r.vars ∨ domain r'.vars arc.y ≠ domain r.vars arc.y →
      arc ∈ work ∨ arc.Consistent net r'.vars

namespace Working

theorem refl (hstart : ∀ arc ∈ start, arc.Joins net r.vars) : net.Working start r start r :=
  ⟨narrows_of_quiet (Quiet.refl r), hstart, fun _ h => h,
    fun _ _ h => h.imp_right fun h => h.resolve_right (absurd rfl)⟩

theorem frame_eq (h : net.Working start r work r₁) (hframe : frame r.vars = frame net.vars) :
    frame r₁.vars = frame net.vars :=
  h.narrows.prunes.frame.trans hframe

/-- The arc that is taken and those that are left join open variables. -/
theorem joins_taken (h : net.Working start r work r₁) (hperm : work.Perm (arc :: rest)) :
    arc.Joins net r₁.vars ∧ ∀ arc' ∈ rest, arc'.Joins net r₁.vars :=
  List.forall_mem_cons.mp fun arc' harc' => h.joins arc' (hperm.mem_iff.mpr harc')

theorem isOpen (h : net.Working start r work r₁) (hnet : net.Linked) (hframe : frame r.vars = frame net.vars)
    (hperm : work.Perm (arc :: rest)) : arc.Open r₁.vars :=
  (h.joins_taken hperm).1.isOpen hnet (h.frame_eq hframe)

/-- Revising an arc leaves covered what was, if the arcs wait again whose second end lost a value. -/
theorem of_revised {revision : Revision} {rest' : List Arc} (h : net.Working start r work r₁)
    (hperm : work.Perm (arc :: rest)) (hopen : arc.Open r₁.vars) (hrevised : Revised net arc r₁ revision r₂)
    (hrevision : revision ≠ .emptied) (hrest : rest ⊆ rest') (hjoins : ∀ arc ∈ rest', arc.Joins net r₂.vars)
    (hincoming : ∀ arc' : Arc, arc'.Joins net r₂.vars →
      arc' ∈ rest' ∨ domain r₂.vars arc'.y = domain r₁.vars arc'.y) :
    net.Working start r rest' r₂ := by
  have hnarrows := hrevised.narrows (h.joins_taken hperm).1
  refine ⟨h.narrows.trans hnarrows, hjoins, fun x hx => ?_, fun arc' hjoins' hcovered => ?_⟩
  · by_cases hxarc : x = arc.x
    · exact hxarc ▸ hrevised.nonempty hrevision (hxarc ▸ h.nonempty x hx)
    · rw [hrevised.domain_eq x hxarc]
      exact h.nonempty x hx
  · have hjoins₂ : arc'.Joins net r₂.vars := (hjoins'.of_prunes h.narrows.prunes).of_prunes hrevised.prunes
    rcases hincoming arc' hjoins₂ with hmem | hsame
    · exact .inl hmem
    · rw [hsame] at hcovered
      rcases h.covered arc' hjoins' hcovered with hmem | hconsistent
      · rcases List.mem_cons.mp (hperm.mem_iff.mp hmem) with rfl | hmem
        · exact .inr (hrevised.consistent hopen.ne)
        · exact .inl (hrest hmem)
      · exact .inr (hconsistent.of_prunes hrevised.prunes hsame)

/-- A step preserves it. -/
theorem of_advances {work' : List Arc} (h : net.Working start r work r₁) (hnet : net.Linked)
    (hframe : frame r.vars = frame net.vars) (hstep : net.Advances (work, r₁) (work', r₂)) :
    net.Working start r work' r₂ := by
  cases hstep with
  | @unchanged _ _ arc _ _ hperm hrun =>
      have hopen := h.isOpen hnet hframe hperm
      have hrevised := (revise_ensures net hopen).of_run_ok hrun
      have hrest := fun arc' harc' => ((h.joins_taken hperm).2 arc' harc').of_prunes hrevised.prunes
      have hvars := hrevised.unchanged rfl
      exact h.of_revised hperm hopen hrevised (by simp) (fun _ harc => harc) hrest fun _ _ => .inr (by rw [hvars])
  | @changed _ rest arc _ _ hperm hrun =>
      have hopen := h.isOpen hnet hframe hperm
      have hrevised := (revise_ensures net hopen).of_run_ok hrun
      have hrest := fun arc' harc' => ((h.joins_taken hperm).2 arc' harc').of_prunes hrevised.prunes
      have hframe₂ := hrevised.prunes.frame.trans (h.frame_eq hframe)
      refine h.of_revised hperm hopen hrevised (by simp) (subset_pushIncoming rest arc.x) ?_ fun arc' hjoins' => ?_
      · exact joins_pushIncoming hnet hframe₂ (hopen.of_prunes hrevised.prunes).x_free hrest
      · -- Only the first end of the arc that was taken has lost values.
        by_cases hy : arc'.y = arc.x
        · exact .inl (hy ▸ mem_pushIncoming hnet hframe₂ hjoins' rest)
        · exact .inr (hrevised.domain_eq arc'.y hy)

/-- So do any number of them. -/
theorem of_steps {s s' : List Arc × Run} (h : net.Working start r s.1 s.2) (hnet : net.Linked)
    (hframe : frame r.vars = frame net.vars) (hsteps : Relation.ReflTransGen net.Advances s s') :
    net.Working start r s'.1 s'.2 := by
  induction hsteps with
  | refl => exact h
  | tail _ hstep ih => exact ih.of_advances hnet hframe hstep

end Working

/-- What working off a worklist from `r` comes to, in whatever order. -/
structure WorkedOff (net : Network) (work : List Arc) (r : Run) (result : Except SolveError Verdict) (r' : Run) :
    Prop where
  prunes : Prunes net r r'
  narrows : ∀ verdict, result = .ok verdict → net.Narrows r r'
  settled : result = .ok .consistent → net.Settled work r r'
  nonempty : result = .ok .consistent → ∀ x, domain r.vars x ≠ [] → domain r'.vars x ≠ []
  dead : result = .ok .conflict → Dead r'.vars
  fails : ∀ e, result = .error e → ∃ arc : Arc, arc.Joins net r.vars ∧ arc.Fails net r.vars e

/-- Working off a worklist of arcs between open variables keeps its promises, in whatever order the arcs are taken. -/
theorem WorksOff.workedOff {result : Except SolveError Verdict} (h : net.WorksOff work r result r')
    (hnet : net.Linked) (hframe : frame r.vars = frame net.vars) (hwork : ∀ arc ∈ work, arc.Joins net r.vars) :
    net.WorkedOff work r result r' := by
  obtain ⟨⟨waiting, r₁⟩, hsteps, hends⟩ := h
  have hworking : net.Working work r waiting r₁ := (Working.refl hwork).of_steps hnet hframe hsteps
  have hprunes := hworking.narrows.prunes
  cases hends with
  | done =>
      refine ⟨hprunes, fun _ _ => hworking.narrows, fun _ arc hjoins hcovered => ?_, fun _ => hworking.nonempty,
        by simp, by simp⟩
      exact (hworking.covered arc hjoins hcovered).resolve_left (by simp)
  | @emptied _ _ arc _ r₂ hperm hrun =>
      have hrevised := (revise_ensures net (hworking.isOpen hnet hframe hperm)).of_run_ok hrun
      have hopen := (hworking.isOpen hnet hframe hperm).of_prunes hrevised.prunes
      have hrevising := hworking.narrows.trans (hrevised.narrows (hworking.joins_taken hperm).1)
      have hnarrows := fun es => hrevising.trans (narrows_of_quiet (Quiet.events r₂ es))
      exact ⟨(hnarrows _).prunes, fun _ _ => hnarrows _, by simp, by simp,
        fun _ => ⟨arc.x, hopen.x_lt, hopen.x_free, hrevised.emptied rfl⟩, by simp⟩
  | @failed _ _ arc e _ _ hperm hrun =>
      obtain ⟨hprunes', hfails⟩ := (revise_ensures net (hworking.isOpen hnet hframe hperm)).of_run_error hrun
      refine ⟨hprunes.trans hprunes', by simp, by simp, by simp, by simp, ?_⟩
      rintro e' ⟨⟩
      exact ⟨arc, (hworking.joins_taken hperm).1.of_pruned hprunes, hfails.of_prunes hprunes⟩

/-- Arc consistency works off the arcs of the given constraints and those that point at the changed variables. -/
theorem arcConsistency_workedOff {result : Except SolveError Verdict} (hnet : net.Linked)
    (hframe : frame r.vars = frame net.vars) {cs changed : List Nat} (hchanged : ∀ x ∈ changed, value? r.vars x = none)
    (hrun : (net.arcConsistency cs changed).run r = (result, r')) :
    net.WorkedOff (net.initialArcs r.vars cs changed) r result r' := by
  have hworks := worksOff_reviseAll net (net.initialArcs r.vars cs changed) r
  rw [show net.reviseAll (net.initialArcs r.vars cs changed) r = (result, r') from hrun] at hworks
  exact hworks.workedOff hnet hframe (joins_initialArcs hnet hframe cs changed hchanged)

end FiniteDomain.Network
