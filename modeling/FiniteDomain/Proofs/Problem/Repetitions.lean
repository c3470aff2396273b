import Mathlib.Data.List.Induction
import Mathlib.Data.List.Nodup
import FiniteDomain.Problem.Setup

/-!
# Repetitions in declarations

`Variables.FirstRepetition` says which repetition in declarations comes first, without reference to how they are looked
through: what stands before it is sound, and it repeats a name or a value from there. The check passes exactly the sound
declarations (`checkVariables_eq_ok_iff`) and reports the first repetition of any others
(`checkVariables_eq_error_iff`).
-/

namespace FiniteDomain

variable {vars before after : List Variable} {names : List String} {v : Variable} {e : SetupError}

namespace Variables

/-- No two variables share a name, and no domain holds a value twice. -/
structure Sound (vars : List Variable) : Prop where
  nodup_names : (vars.map (·.name)).Nodup
  nodup_domain : ∀ w ∈ vars, w.domain.Nodup

/-- The error names the first repetition: a variable that has the name of one before it, or a value that stands before
in the domain of a variable with a name of its own. -/
inductive FirstRepetition : List Variable → SetupError → Prop where
  | name {before after : List Variable} {v : Variable} :
      Sound before → v.name ∈ before.map (·.name) →
        FirstRepetition (before ++ v :: after) (.duplicateVariable v.name)
  | value {before after : List Variable} {v : Variable} {front back : List Value} {a : Value} :
      Sound before → v.name ∉ before.map (·.name) → v.domain = front ++ a :: back → front.Nodup → a ∈ front →
        FirstRepetition (before ++ v :: after) (.duplicateValue v.name a)

/-! ## Sound declarations -/

theorem Sound.nil : Sound [] :=
  ⟨List.nodup_nil, fun _ hw => absurd hw List.not_mem_nil⟩

theorem sound_cons_iff : Sound (v :: vars) ↔ v.name ∉ vars.map (·.name) ∧ v.domain.Nodup ∧ Sound vars := by
  constructor
  · rintro ⟨hnames, hdomains⟩
    obtain ⟨hname, hnames⟩ := List.nodup_cons.mp hnames
    exact ⟨hname, hdomains v List.mem_cons_self, hnames, fun w hw => hdomains w (List.mem_cons_of_mem v hw)⟩
  · rintro ⟨hname, hdomain, hnames, hdomains⟩
    refine ⟨List.nodup_cons.mpr ⟨hname, hnames⟩, fun w hw => ?_⟩
    rcases List.mem_cons.mp hw with rfl | hw
    · exact hdomain
    · exact hdomains w hw

/-- One more variable with a name and values of its own. -/
theorem Sound.concat (h : Sound vars) (hname : v.name ∉ vars.map (·.name)) (hdomain : v.domain.Nodup) :
    Sound (vars ++ [v]) := by
  constructor
  · rw [List.map_append, List.map_singleton]
    exact List.Nodup.append h.nodup_names (List.nodup_singleton _) (List.disjoint_singleton.mpr hname)
  · intro w hw
    rcases List.mem_append.mp hw with hw | hw
    · exact h.nodup_domain w hw
    · rwa [List.mem_singleton.mp hw]

end Variables

open Variables

/-! ## The check -/

/-- Sound declarations are passed, and their names are known from there on. -/
theorem checkVariablesFrom_append (h : Sound before) (hnew : ∀ w ∈ before, w.name ∉ names) (vars : List Variable) :
    checkVariablesFrom names (before ++ vars) = checkVariablesFrom ((before.map (·.name)).reverse ++ names) vars := by
  induction before generalizing names with
  | nil => rfl
  | cons w ws ih =>
      obtain ⟨hname, hdomain, hrest⟩ := sound_cons_iff.mp h
      have hnone : firstRepeated [] w.domain = none :=
        (firstRepeated_eq_none_iff [] w.domain).mpr ⟨hdomain, fun a _ => List.not_mem_nil⟩
      have hnew' : ∀ u ∈ ws, u.name ∉ w.name :: names := by
        intro u hu hmem
        rcases List.mem_cons.mp hmem with heq | hmem
        · exact hname (heq ▸ List.mem_map_of_mem hu)
        · exact hnew u (List.mem_cons_of_mem w hu) hmem
      rw [List.cons_append, checkVariablesFrom, if_neg (hnew w List.mem_cons_self), hnone]
      dsimp only
      rw [ih hrest hnew', List.map_cons, List.reverse_cons, List.append_assoc, List.singleton_append]

theorem checkVariables_append (h : Sound before) (vars : List Variable) :
    checkVariables (before ++ vars) = checkVariablesFrom (before.map (·.name)).reverse vars := by
  rw [checkVariables, checkVariablesFrom_append h (fun w _ => List.not_mem_nil), List.append_nil]

theorem checkVariables_of_sound (h : Sound vars) : checkVariables vars = .ok () := by
  have happend := checkVariables_append h []
  rwa [List.append_nil] at happend

theorem checkVariables_of_firstRepetition (h : FirstRepetition vars e) : checkVariables vars = .error e := by
  cases h with
  | name hsound hmem =>
      rw [checkVariables_append hsound, checkVariablesFrom, if_pos (List.mem_reverse.mpr hmem)]
  | @value before after v front back a hsound hname hdomain hfront ha =>
      have hfirst : firstRepeated [] v.domain = some a :=
        (firstRepeated_eq_some_iff [] v.domain).mpr
          ⟨front, back, hdomain, hfront, fun b _ => List.not_mem_nil, .inr ha⟩
      have hnew : v.name ∉ (before.map (·.name)).reverse := fun hmem => hname (List.mem_reverse.mp hmem)
      rw [checkVariables_append hsound, checkVariablesFrom, if_neg hnew, hfirst]

/-- Declarations are sound, or something in them is repeated first. -/
theorem sound_or_exists_firstRepetition (vars : List Variable) : Sound vars ∨ ∃ e, FirstRepetition vars e := by
  induction vars using List.reverseRecOn with
  | nil => exact .inl .nil
  | append_singleton vars v ih =>
      rcases ih with hsound | ⟨e, hfirst⟩
      · by_cases hname : v.name ∈ vars.map (·.name)
        · exact .inr ⟨_, .name hsound hname⟩
        · cases hdomain : firstRepeated [] v.domain with
          | none =>
              exact .inl (hsound.concat hname ((firstRepeated_eq_none_iff [] v.domain).mp hdomain).1)
          | some a =>
              obtain ⟨front, back, hsplit, hfront, -, hseen | ha⟩ :=
                (firstRepeated_eq_some_iff [] v.domain).mp hdomain
              · cases hseen
              · exact .inr ⟨_, .value hsound hname hsplit hfront ha⟩
      · refine .inr ⟨e, ?_⟩
        cases hfirst with
        | name hsound hmem =>
            rw [List.append_assoc]
            exact .name hsound hmem
        | value hsound hname hsplit hfront ha =>
            rw [List.append_assoc]
            exact .value hsound hname hsplit hfront ha

/-- Declarations pass exactly if no name and no value of a domain is repeated. -/
theorem checkVariables_eq_ok_iff (vars : List Variable) :
    checkVariables vars = .ok () ↔ (vars.map (·.name)).Nodup ∧ ∀ w ∈ vars, w.domain.Nodup := by
  constructor
  · intro h
    rcases sound_or_exists_firstRepetition vars with hsound | ⟨e, hfirst⟩
    · exact ⟨hsound.nodup_names, hsound.nodup_domain⟩
    · rw [checkVariables_of_firstRepetition hfirst] at h
      cases h
  · rintro ⟨hnames, hdomains⟩
    exact checkVariables_of_sound ⟨hnames, hdomains⟩

/-- What is reported is the first repetition. -/
theorem checkVariables_eq_error_iff : checkVariables vars = .error e ↔ FirstRepetition vars e := by
  refine ⟨fun h => ?_, checkVariables_of_firstRepetition⟩
  rcases sound_or_exists_firstRepetition vars with hsound | ⟨e', hfirst⟩
  · rw [checkVariables_of_sound hsound] at h
    cases h
  · rw [checkVariables_of_firstRepetition hfirst] at h
    cases h
    exact hfirst

end FiniteDomain
