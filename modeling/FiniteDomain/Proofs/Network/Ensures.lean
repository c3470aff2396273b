import FiniteDomain.Network.Solver

/-!
# What a computation of a solve ensures

`act.Ensures r ok err` says of the run of `act` from the state `r`: if it succeeds, `ok` holds of its result and
the state that it leaves, and if it fails, `err` holds of the failure and the state that it leaves. There is one
rule for each way in which computations are put together, so the promises of a whole solve are assembled from
those of its parts, failures included.
-/

namespace FiniteDomain

/-- A run that succeeds is its result and the state that it leaves. -/
theorem run_eq_of_fst {α : Type} {out : Except SolveError α × Run} {a : α} (h : out.1 = .ok a) :
    out = (.ok a, out.2) :=
  Prod.ext h rfl

namespace Solver

variable {α β : Type} {r : Run}

/-- The promise of a run: `ok` for its success, `err` for its failure. -/
def Ensures (act : Solver α) (r : Run) (ok : α → Run → Prop) (err : SolveError → Run → Prop) : Prop :=
  match act.run r with
  | (.ok a, r') => ok a r'
  | (.error e, r') => err e r'

theorem ensures_of_run_ok {act : Solver α} {a : α} {r' : Run} {ok : α → Run → Prop}
    {err : SolveError → Run → Prop} (hrun : act.run r = (.ok a, r')) (h : ok a r') :
    act.Ensures r ok err := by
  unfold Ensures
  rw [hrun]
  exact h

theorem ensures_of_run_error {act : Solver α} {e : SolveError} {r' : Run} {ok : α → Run → Prop}
    {err : SolveError → Run → Prop} (hrun : act.run r = (.error e, r')) (h : err e r') :
    act.Ensures r ok err := by
  unfold Ensures
  rw [hrun]
  exact h

/-- What is ensured of a success holds of it. -/
theorem Ensures.of_run_ok {act : Solver α} {a : α} {r' : Run} {ok : α → Run → Prop}
    {err : SolveError → Run → Prop} (h : act.Ensures r ok err) (hrun : act.run r = (.ok a, r')) :
    ok a r' := by
  unfold Ensures at h
  rw [hrun] at h
  exact h

/-- What is ensured of a failure holds of it. -/
theorem Ensures.of_run_error {act : Solver α} {e : SolveError} {r' : Run} {ok : α → Run → Prop}
    {err : SolveError → Run → Prop} (h : act.Ensures r ok err)
    (hrun : act.run r = (.error e, r')) : err e r' := by
  unfold Ensures at h
  rw [hrun] at h
  exact h

/-- A promise may be weakened. -/
theorem Ensures.mono {act : Solver α} {ok ok' : α → Run → Prop} {err err' : SolveError → Run → Prop}
    (h : act.Ensures r ok err) (hok : ∀ a r', ok a r' → ok' a r')
    (herr : ∀ e r', err e r' → err' e r') : act.Ensures r ok' err' := by
  unfold Ensures at h ⊢
  split at h
  · exact hok _ _ h
  · exact herr _ _ h

/-- Two promises are kept together. -/
theorem Ensures.and {act : Solver α} {ok ok' : α → Run → Prop} {err err' : SolveError → Run → Prop}
    (h : act.Ensures r ok err) (h' : act.Ensures r ok' err') :
    act.Ensures r (fun a r' => ok a r' ∧ ok' a r') fun e r' => err e r' ∧ err' e r' := by
  unfold Ensures at h h' ⊢
  split
  · next hrun =>
    rw [hrun] at h h'
    exact ⟨h, h'⟩
  · next hrun =>
    rw [hrun] at h h'
    exact ⟨h, h'⟩

/-- Nothing is promised. -/
theorem ensures_true (act : Solver α) (r : Run) : act.Ensures r (fun _ _ => True) fun _ _ => True := by
  unfold Ensures
  split <;> trivial

/-! ## One rule for each construct -/

variable {ok : α → Run → Prop} {ok' : β → Run → Prop} {err : SolveError → Run → Prop}

theorem ensures_pure {a : α} (h : ok a r) : (pure a : Solver α).Ensures r ok err :=
  h

/-- The second computation starts from the state that the first one leaves. -/
theorem Ensures.bind {act : Solver α} {next : α → Solver β}
    (h : act.Ensures r (fun a r' => (next a).Ensures r' ok' err) err) :
    (act >>= next).Ensures r ok' err := by
  unfold Ensures at h ⊢
  rw [run_bind]
  rcases hrun : act.run r with ⟨e | a, r'⟩
  · rw [hrun] at h
    exact h
  · rw [hrun] at h
    exact h

theorem ensures_look_bind {f : Run → α} {next : α → Solver β}
    (h : (next (f r)).Ensures r ok' err) : (look f >>= next).Ensures r ok' err :=
  h

theorem ensures_update {f : Run → Run} {ok : Unit → Run → Prop} (h : ok () (f r)) :
    (update f).Ensures r ok err :=
  h

theorem ensures_update_bind {f : Run → Run} {next : Unit → Solver β}
    (h : (next ()).Ensures (f r) ok' err) : (update f >>= next).Ensures r ok' err :=
  h

/-- What is done at the end is done after a success and after a failure. -/
theorem Ensures.ensuring {act : Solver α} {after : Run → Run}
    (h : act.Ensures r (fun a r' => ok a (after r')) (fun e r' => err e (after r'))) :
    (act.ensuring after).Ensures r ok err := by
  unfold Ensures at h ⊢
  rw [run_ensuring]
  rcases hrun : act.run r with ⟨e | a, r'⟩
  · rw [hrun] at h
    exact h
  · rw [hrun] at h
    exact h

end Solver

end FiniteDomain
