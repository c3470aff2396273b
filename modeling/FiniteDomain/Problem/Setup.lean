import FiniteDomain.Problem.Basic

/-!
# Sound declarations

Variables are sound if no two share a name and no domain holds a value twice. `checkVariables` looks at the
variables in order, at the name of each before its domain, and reports the first repetition.
-/

namespace FiniteDomain

/-- Why variables and constraints cannot be put together. -/
inductive SetupError where
  | duplicateVariable (name : String)
  | duplicateValue (variableName : String) (value : Value)
  | invalidConstraint (cause : ParseError)
  deriving DecidableEq

/-- The text shown for the error. -/
def SetupError.message : SetupError → String
  | duplicateVariable name => "duplicate variable \"" ++ name ++ "\""
  | duplicateValue variableName value =>
      "duplicate value " ++ value.text ++ " in the domain of \"" ++ variableName ++ "\""
  | invalidConstraint _ => "invalid constraint"

/-- The first item that repeats an earlier one or one of `seen`. -/
def firstRepeated {α : Type} [DecidableEq α] (seen : List α) : List α → Option α
  | [] => none
  | a :: as => if a ∈ seen then some a else firstRepeated (a :: seen) as

/-- Reports the first repetition in the variables, `names` being the names before them. -/
def checkVariablesFrom (names : List String) : List Variable → Except SetupError Unit
  | [] => .ok ()
  | v :: vs =>
      if v.name ∈ names then .error (.duplicateVariable v.name)
      else
        match firstRepeated [] v.domain with
        | some value => .error (.duplicateValue v.name value)
        | none => checkVariablesFrom (v.name :: names) vs

/-- Reports the first repetition in the variables. -/
def checkVariables (vars : List Variable) : Except SetupError Unit :=
  checkVariablesFrom [] vars

/-- Nothing is repeated exactly if the items differ from each other and from those seen before. -/
theorem firstRepeated_eq_none_iff {α : Type} [DecidableEq α] (seen as : List α) :
    firstRepeated seen as = none ↔ as.Nodup ∧ ∀ a ∈ as, a ∉ seen := by
  induction as generalizing seen with
  | nil => simp [firstRepeated]
  | cons a as ih =>
      by_cases ha : a ∈ seen
      · simp [firstRepeated, ha]
      · simp only [firstRepeated, ha, if_false, ih, List.nodup_cons, List.mem_cons]
        grind

/-- The item found is the first that one before it or one seen before is equal to. -/
theorem firstRepeated_eq_some_iff {α : Type} [DecidableEq α] (seen as : List α) {a : α} :
    firstRepeated seen as = some a ↔ ∃ front back, as = front ++ a :: back ∧ front.Nodup ∧ (∀ b ∈ front, b ∉ seen) ∧
      (a ∈ seen ∨ a ∈ front) := by
  induction as generalizing seen with
  | nil => simp [firstRepeated]
  | cons b bs ih =>
      by_cases hb : b ∈ seen
      · simp only [firstRepeated, hb, if_true, Option.some.injEq]
        constructor
        · rintro rfl
          exact ⟨[], bs, rfl, List.nodup_nil, fun c hc => absurd hc List.not_mem_nil, .inl hb⟩
        · rintro ⟨_ | ⟨c, front⟩, back, hsplit, -, hfresh, -⟩
          · exact (List.cons.inj hsplit).1
          · obtain ⟨rfl, -⟩ := List.cons.inj hsplit
            exact absurd hb (hfresh b List.mem_cons_self)
      · simp only [firstRepeated, hb, if_false, ih]
        constructor
        · rintro ⟨front, back, rfl, hnodup, hfresh, ha⟩
          refine ⟨b :: front, back, rfl, ?_⟩
          grind
        · rintro ⟨_ | ⟨c, front⟩, back, hsplit, hnodup, hfresh, ha⟩
          · obtain ⟨rfl, rfl⟩ := List.cons.inj hsplit
            simp [hb] at ha
          · obtain ⟨rfl, rfl⟩ := List.cons.inj hsplit
            refine ⟨front, back, rfl, ?_⟩
            grind

end FiniteDomain
