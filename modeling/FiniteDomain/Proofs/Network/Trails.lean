import Mathlib.Data.List.Perm.Basic
import Mathlib.Data.List.Sort
import FiniteDomain.Proofs.Network.Pruning

/-!
# What trails record

Values are removed from the domains of variables, in any interleaving, and recorded in several trails, one begun after
the other. Joined in their order, the trails are the one trail that a single recording of all the removals would have
made (`foldl_recordAll`). The removals of a trail lead from the variables before to those after (`Trail.Leads`), so that
reverting it leads back; and it accounts for every value that a domain has lost (`records_joined`).
-/

namespace FiniteDomain.Trail

open Variables

variable {vars vars' : List Variable} {t u : Trail} {calls : List (Nat × Nat)} {ms : List Removal} {x : Nat}

/-! ## Removals by position -/

/-- The variables and the trail after values are removed one after the other, each given by the number of a variable and
the position in its domain. -/
def removeAll : Trail → List Variable → List (Nat × Nat) → List Variable × Trail
  | t, vars, [] => (vars, t)
  | t, vars, (x, position) :: calls =>
      removeAll (t.remove vars x position).2 (t.remove vars x position).1 calls

/-- Every position is one of the domain as it is when its turn comes. -/
def Valid : List Variable → List (Nat × Nat) → Prop
  | _, [] => True
  | vars, (x, position) :: calls =>
      position < (domain vars x).length ∧ Valid (mapDomain vars x (·.eraseIdx position)) calls

/-- The values that stand at the positions when their turns come, each with the number of its variable. -/
def losses : List Variable → List (Nat × Nat) → List (Nat × Value)
  | _, [] => []
  | vars, (x, position) :: calls =>
      ((domain vars x)[position]?.map (x, ·)).toList ++ losses (mapDomain vars x (·.eraseIdx position)) calls

/-- The variables after several batches of removals, and the trail of each batch, which is empty when it begins. -/
def recordAll : List Variable → List (List (Nat × Nat)) → List Variable × List Trail
  | vars, [] => (vars, [])
  | vars, calls :: batches =>
      let (vars', t) := removeAll {} vars calls
      let (vars'', ts) := recordAll vars' batches
      (vars'', t :: ts)

/-- The trails joined in their order. -/
def joined (ts : List Trail) : Trail :=
  ts.foldl (· ++ ·) {}

/-! ## One trail for several -/

/-- What was recorded before has no influence on a removal. -/
theorem remove_append (t u : Trail) (vars : List Variable) (x position : Nat) :
    (t ++ u).remove vars x position
      = ((u.remove vars x position).1, t ++ (u.remove vars x position).2) := by
  unfold remove
  cases (domain vars x)[position]? <;> rfl

/-- Nor has it on any number of them. -/
theorem removeAll_append (t u : Trail) (vars : List Variable) (calls : List (Nat × Nat)) :
    removeAll (t ++ u) vars calls = ((removeAll u vars calls).1, t ++ (removeAll u vars calls).2) := by
  induction calls generalizing u vars with
  | nil => rfl
  | cons call calls ih =>
      rw [removeAll, remove_append, removeAll]
      exact ih _ _

theorem removeAll_append_calls (t : Trail) (vars : List Variable) (calls later : List (Nat × Nat)) :
    removeAll t vars (calls ++ later) = removeAll (removeAll t vars calls).2 (removeAll t vars calls).1 later := by
  induction calls generalizing t vars with
  | nil => rfl
  | cons call calls ih => exact ih _ _

/-- Trails that are recorded one after the other and joined in that order are one trail. -/
theorem foldl_recordAll (t : Trail) (vars : List Variable) (batches : List (List (Nat × Nat))) :
    ((recordAll vars batches).1, (recordAll vars batches).2.foldl (· ++ ·) t) = removeAll t vars batches.flatten := by
  induction batches generalizing t vars with
  | nil => rfl
  | cons calls batches ih =>
      -- The first batch can as well be recorded on top of `t`, where the later ones are joined to it.
      have hfirst : removeAll t vars calls
          = ((removeAll {} vars calls).1, t ++ (removeAll {} vars calls).2) := removeAll_append t {} vars calls
      rw [List.flatten_cons, removeAll_append_calls, hfirst]
      exact ih (t ++ (removeAll {} vars calls).2) (removeAll {} vars calls).1

/-! ## What one trail records -/

/-- The removals made at valid positions lead from the variables before to those after, and they are the losses. -/
theorem exists_removeAll (t : Trail) (h : Valid vars calls) :
    ∃ ms vars', removeAll t vars calls = (vars', ⟨ms ++ t.removals⟩) ∧ Leads vars ms vars' ∧
      ms.reverse.map (fun m => (m.variableNumber, m.value)) = losses vars calls ∧
      ms.reverse.map (·.variableNumber) = calls.map (·.1) := by
  induction calls generalizing t vars with
  | nil => exact ⟨[], vars, rfl, .refl, rfl, rfl⟩
  | cons call calls ih =>
      obtain ⟨x, position⟩ := call
      obtain ⟨hlt, hrest⟩ := h
      have hget : (domain vars x)[position]? = some (domain vars x)[position] := List.getElem?_eq_getElem hlt
      have hremove : t.remove vars x position = (mapDomain vars x (·.eraseIdx position),
          ⟨⟨x, position, (domain vars x)[position]⟩ :: t.removals⟩) := by
        rw [remove, hget]
      obtain ⟨ms, vars', hall, hleads, hvalues, hnumbers⟩ := ih (t.remove vars x position).2 hrest
      -- The last removal stands first in a trail, so those of the rest stand before the one made now.
      refine ⟨ms ++ [⟨x, position, (domain vars x)[position]⟩], vars', ?_, (Leads.remove .refl hget).trans hleads,
        ?_, ?_⟩
      · rw [removeAll]
        rw [hremove] at hall ⊢
        rw [hall, List.append_assoc]
        rfl
      · rw [losses, hget, ← hvalues, List.reverse_append, List.map_append]
        rfl
      · rw [List.map_cons, ← hnumbers, List.reverse_append, List.map_append]
        rfl

/-- A domain has lost the values that were removed from it. -/
theorem Leads.perm (h : Leads vars ms vars') (x : Nat) :
    (domain vars x).Perm (removedFrom ⟨ms⟩ x ++ domain vars' x) := by
  induction h with
  | refl => exact .refl _
  | @remove ms vars' y position v hleads hget ih =>
      refine ih.trans ?_
      by_cases hxy : y = x
      · -- The value moves from the domain to the end of the removed ones.
        subst hxy
        obtain ⟨hlt, rfl⟩ := List.getElem?_eq_some_iff.mp hget
        have hlength : y < vars'.length :=
          lt_length_of_domain_ne_nil (List.ne_nil_of_length_pos (Nat.zero_lt_of_lt hlt))
        have herase : ((domain vars' y)[position] :: (domain vars' y).eraseIdx position).Perm (domain vars' y) :=
          List.getElem_cons_eraseIdx_perm hlt
        rw [domain_mapDomain_self _ hlength]
        simpa [removedFrom] using (herase.symm.append_left (removedFrom ⟨ms⟩ y))
      · rw [domain_mapDomain_of_ne _ (Ne.symm hxy)]
        simp [removedFrom, hxy]

/-- A variable has changed exactly if a value was removed from its domain. -/
theorem mem_changed_iff : x ∈ t.changed ↔ t.removedFrom x ≠ [] := by
  rw [changed, removedFrom, List.mem_eraseDups, List.mem_map, ne_eq, List.map_eq_nil_iff, List.filter_eq_nil_iff]
  simp

/-- The values of every changed variable are given, and no others. -/
theorem mem_byVariable_iff {values : List Value} :
    (x, values) ∈ t.byVariable ↔ x ∈ t.changed ∧ values = t.removedFrom x := by
  rw [byVariable, List.mem_map]
  constructor
  · rintro ⟨y, hy, heq⟩
    obtain ⟨rfl, rfl⟩ := Prod.mk.inj heq
    exact ⟨List.mem_mergeSort.mp hy, rfl⟩
  · rintro ⟨hx, rfl⟩
    exact ⟨x, List.mem_mergeSort.mpr hx, rfl⟩

/-- They are given by ascending number of the variable, none twice. -/
theorem pairwise_byVariable (t : Trail) : (t.byVariable.map (·.1)).Pairwise (· < ·) := by
  have hkeys : t.byVariable.map (·.1) = t.changed.mergeSort (· ≤ ·) := by
    rw [byVariable, List.map_map]
    exact List.map_id _
  have hnodup : (t.changed.mergeSort (· ≤ ·)).Nodup :=
    (List.mergeSort_perm _ _).nodup_iff.mpr (nodup_eraseDups _)
  have hsorted : (t.changed.mergeSort (· ≤ ·)).Pairwise (· ≤ ·) := List.pairwise_mergeSort' (· ≤ ·) t.changed
  rw [hkeys]
  exact (hsorted.and hnodup).imp fun ⟨hle, hne⟩ => Nat.lt_of_le_of_ne hle hne

/-! ## The account of a trail -/

/-- The trail accounts for what removals at positions made of the variables: it undoes them, it lists the variables that
lost a value in the order of their first loss, and for each of these the values in the order in which they were lost. -/
structure Records (t : Trail) (vars : List Variable) (calls : List (Nat × Nat)) (vars' : List Variable) : Prop where
  revert_eq : t.revert vars' = vars
  mem_changed_iff : ∀ x, x ∈ t.changed ↔ (domain vars' x).length < (domain vars x).length
  nodup_changed : t.changed.Nodup
  changed_order : t.changed.Pairwise fun x y => (calls.map (·.1)).idxOf x < (calls.map (·.1)).idxOf y
  mem_byVariable_iff : ∀ x values, (x, values) ∈ t.byVariable ↔
    x ∈ t.changed ∧ values = ((losses vars calls).filter (·.1 = x)).map (·.2)
  byVariable_order : (t.byVariable.map (·.1)).Pairwise (· < ·)
  /-- The values that a domain has lost are those that it no longer has. -/
  perm : ∀ x, (domain vars x).Perm (((losses vars calls).filter (·.1 = x)).map (·.2) ++ domain vars' x)

/-- A trail that is begun empty accounts for all removals at valid positions. -/
theorem records_removeAll (h : Valid vars calls) :
    (removeAll {} vars calls).2.Records vars calls (removeAll {} vars calls).1 := by
  obtain ⟨ms, vars', hall, hleads, hvalues, hnumbers⟩ := exists_removeAll {} h
  rw [List.append_nil] at hall
  rw [hall]
  show Records ⟨ms⟩ vars calls vars'
  have hremoved : ∀ x, removedFrom ⟨ms⟩ x = ((losses vars calls).filter (·.1 = x)).map (·.2) := by
    intro x
    rw [← hvalues, List.filter_map, List.map_map]
    rfl
  have hperm := hleads.perm
  refine ⟨hleads.revert_eq, fun x => ?_, nodup_eraseDups _, ?_, fun x values => ?_, pairwise_byVariable _, fun x => ?_⟩
  · rw [Trail.mem_changed_iff, (hperm x).length_eq, List.length_append, ← List.length_pos_iff]
    omega
  · rw [← hnumbers]
    exact pairwise_idxOf_eraseDups _
  · rw [← hremoved, Trail.mem_byVariable_iff]
  · rw [← hremoved]
    exact hperm x

/-- **Trails undo and account for removals.** Removals at valid positions, of any variables in any interleaving, are
recorded in trails that are begun one after the other. Joined in that order the trails undo all of them, order of the
domains included, and they account for every value lost. -/
theorem records_joined {batches : List (List (Nat × Nat))} {ts : List Trail} (h : Valid vars batches.flatten)
    (hrecord : recordAll vars batches = (vars', ts)) : (joined ts).Records vars batches.flatten vars' := by
  have hone := foldl_recordAll {} vars batches
  rw [hrecord] at hone
  have hrecords := records_removeAll h
  rw [← hone] at hrecords
  exact hrecords

/-- Two variables with five and three values. -/
def fiveAndThree : List Variable :=
  [⟨"A", [.int 1, .int 2, .int 3, .int 4, .int 5], none, []⟩, ⟨"B", [.int 1, .int 2, .int 3], none, []⟩]

/-- Two values of `A` are recorded in one trail, a value of `B` and another of `A` in the next. -/
theorem records_joined_fiveAndThree :
    ∃ vars' t u, recordAll fiveAndThree [[(0, 1), (0, 1)], [(1, 0), (0, 2)]] = (vars', [t, u]) ∧
      vars'.map (·.domain) = [[.int 1, .int 4], [.int 2, .int 3]] ∧
      (joined [t, u]).revert vars' = fiveAndThree ∧
      (0, [.int 2, .int 3, .int 5]) ∈ (joined [t, u]).byVariable ∧ (1, [.int 1]) ∈ (joined [t, u]).byVariable := by
  have hvalid : Valid fiveAndThree [[(0, 1), (0, 1)], [(1, 0), (0, 2)]].flatten :=
    ⟨by decide, by decide, by decide, by decide, trivial⟩
  have hrecords := records_joined hvalid rfl
  refine ⟨_, _, _, rfl, rfl, hrecords.revert_eq, ?_, ?_⟩
  · exact (hrecords.mem_byVariable_iff 0 _).mpr ⟨(hrecords.mem_changed_iff 0).mpr (by decide), by decide⟩
  · exact (hrecords.mem_byVariable_iff 1 _).mpr ⟨(hrecords.mem_changed_iff 1).mpr (by decide), by decide⟩

end FiniteDomain.Trail
