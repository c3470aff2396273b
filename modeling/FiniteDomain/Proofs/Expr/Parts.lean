import FiniteDomain.Expr.Binding
import FiniteDomain.Proofs.Expr.Occurrence

/-!
# Parts of an expression

A part of an expression is the expression itself or a part of one directly inside it. Statements about every slot, every
free name or every call in an expression speak of its parts. Two facts carry them: a name stands in an expression
exactly if some part shows it at its root (`mentions_iff_part`), and the parts of a bound expression are the parts
of the expression, bound (`part_bind_iff`).
-/

namespace FiniteDomain.Expr

variable {d e : Expr} {s : String} {resolve : String → Option Nat}

/-- The expressions directly inside an expression, from left to right. -/
def inner : Expr → List Expr
  | .literal _ | .ident _ | .slot _ _ => []
  | .list items => items
  | .unary _ e => [e]
  | .binary _ l r => [l, r]
  | .call _ args => args
  | .count xs item => [xs, item]

/-- `Part d e`: the expression `d` is `e` or stands somewhere inside it. -/
inductive Part (d : Expr) : Expr → Prop
  | whole : Part d d
  | inside {e' e : Expr} : e' ∈ e.inner → Part d e' → Part d e

/-- The name that an expression shows at its root, of a variable or of a called function. -/
def rootName? : Expr → Option String
  | .ident name => some name
  | .slot _ name => some name
  | .call f _ => some f
  | _ => none

theorem sizeOf_lt_of_mem_inner (h : d ∈ e.inner) : sizeOf d < sizeOf e := by
  cases e with
  | literal _ | ident _ | slot _ _ => cases h
  | list items =>
      have hlt : sizeOf d < sizeOf items := List.sizeOf_lt_of_mem h
      simp only [list.sizeOf_spec]
      omega
  | call f args =>
      have hlt : sizeOf d < sizeOf args := List.sizeOf_lt_of_mem h
      simp only [call.sizeOf_spec]
      omega
  | unary op a =>
      obtain rfl := List.mem_singleton.mp h
      simp only [unary.sizeOf_spec]
      omega
  | binary op l r =>
      simp only [inner, List.mem_cons, List.not_mem_nil, or_false] at h
      simp only [binary.sizeOf_spec]
      rcases h with rfl | rfl <;> omega
  | count xs item =>
      simp only [inner, List.mem_cons, List.not_mem_nil, or_false] at h
      simp only [count.sizeOf_spec]
      rcases h with rfl | rfl <;> omega

/-- What holds of an expression if it holds of those directly inside it holds of every expression. -/
theorem inner_induction {p : Expr → Prop} (h : ∀ e, (∀ d ∈ e.inner, p d) → p e) (e : Expr) : p e :=
  h e fun d _ => inner_induction h d
termination_by sizeOf e
decreasing_by exact sizeOf_lt_of_mem_inner ‹_›

/-! ## Names -/

/-- A name stands at the root of an expression or directly inside it. -/
theorem mentions_iff_inner : e.Mentions s ↔ e.rootName? = some s ∨ ∃ d ∈ e.inner, d.Mentions s := by
  cases e <;> simp [Mentions, rootName?, inner, mentionsAny_iff]

/-- A name stands in an expression exactly if a part shows it at its root. -/
theorem mentions_iff_part : e.Mentions s ↔ ∃ d, Part d e ∧ d.rootName? = some s := by
  constructor
  · induction e using inner_induction with
    | h e ih =>
        intro h
        rcases mentions_iff_inner.mp h with hroot | ⟨d, hd, hs⟩
        · exact ⟨e, .whole, hroot⟩
        · obtain ⟨p, hp, hroot⟩ := ih d hd hs
          exact ⟨p, .inside hd hp, hroot⟩
  · rintro ⟨d, hd, hroot⟩
    induction hd with
    | whole => exact mentions_iff_inner.mpr (.inl hroot)
    | inside hinner _ ih => exact mentions_iff_inner.mpr (.inr ⟨_, hinner, ih⟩)

/-! ## Binding -/

/-- Binding acts on the expressions directly inside. -/
theorem inner_bind (resolve : String → Option Nat) (e : Expr) :
    (bind resolve e).inner = e.inner.map (bind resolve) := by
  cases e with
  | ident name | slot _ name =>
      simp only [bind, bindName, inner, List.map_nil]
      cases resolve name <;> rfl
  | literal _ | list _ | unary _ _ | binary _ _ _ | call _ _ | count _ _ =>
      simp [bind, inner, bindAll_eq_map]

/-- Binding keeps the name at the root. -/
theorem rootName?_bind (resolve : String → Option Nat) (e : Expr) :
    (bind resolve e).rootName? = e.rootName? := by
  cases e with
  | ident name | slot _ name =>
      simp only [bind, bindName]
      cases resolve name <;> rfl
  | literal _ | list _ | unary _ _ | binary _ _ _ | call _ _ | count _ _ => simp only [bind, rootName?]

/-- The parts of a bound expression are the parts of the expression, bound. -/
theorem part_bind_iff : Part d (bind resolve e) ↔ ∃ p, Part p e ∧ bind resolve p = d := by
  constructor
  · generalize hbound : bind resolve e = b
    intro h
    induction h generalizing e with
    | whole => exact ⟨e, .whole, hbound⟩
    | inside hinner _ ih =>
        rw [← hbound, inner_bind] at hinner
        obtain ⟨e', he', hbound'⟩ := List.mem_map.mp hinner
        obtain ⟨p, hp, hd⟩ := ih hbound'
        exact ⟨p, .inside he' hp, hd⟩
  · rintro ⟨p, hp, rfl⟩
    induction hp with
    | whole => exact .whole
    | inside hinner _ ih =>
        refine .inside ?_ ih
        rw [inner_bind]
        exact List.mem_map_of_mem hinner

/-- Binding neither adds a name nor loses one. -/
theorem mentions_bind_iff : (bind resolve e).Mentions s ↔ e.Mentions s := by
  rw [mentions_iff_part, mentions_iff_part]
  constructor
  · rintro ⟨d, hd, hroot⟩
    obtain ⟨p, hp, rfl⟩ := part_bind_iff.mp hd
    exact ⟨p, hp, (rootName?_bind resolve p).symm.trans hroot⟩
  · rintro ⟨p, hp, hroot⟩
    exact ⟨_, part_bind_iff.mpr ⟨p, hp, rfl⟩, (rootName?_bind resolve p).trans hroot⟩

/-- A slot in a bound expression has the position found for its name, which stood in the expression. -/
theorem of_slot_part_bind {i : Nat} (h : Part (.slot i s) (bind resolve e)) :
    resolve s = some i ∧ e.Mentions s := by
  obtain ⟨p, hp, hbound⟩ := part_bind_iff.mp h
  have hname : ∀ name, p.rootName? = some name → bindName resolve name = .slot i s →
      resolve s = some i ∧ e.Mentions s := by
    intro name hroot hslot
    unfold bindName at hslot
    split at hslot
    · next j hj =>
      cases hslot
      exact ⟨hj, mentions_iff_part.mpr ⟨p, hp, hroot⟩⟩
    · cases hslot
  cases p with
  | ident name => exact hname name rfl hbound
  | slot _ name => exact hname name rfl hbound
  | literal _ | list _ | unary _ _ | binary _ _ _ | call _ _ | count _ _ => cases hbound

/-- No position was found for a name that is free in a bound expression. -/
theorem of_ident_part_bind (h : Part (.ident s) (bind resolve e)) :
    resolve s = none ∧ e.Mentions s := by
  obtain ⟨p, hp, hbound⟩ := part_bind_iff.mp h
  have hname : ∀ name, p.rootName? = some name → bindName resolve name = .ident s →
      resolve s = none ∧ e.Mentions s := by
    intro name hroot hident
    unfold bindName at hident
    split at hident
    · cases hident
    · next hnone =>
      cases hident
      exact ⟨hnone, mentions_iff_part.mpr ⟨p, hp, hroot⟩⟩
  cases p with
  | ident name => exact hname name rfl hbound
  | slot _ name => exact hname name rfl hbound
  | literal _ | list _ | unary _ _ | binary _ _ _ | call _ _ | count _ _ => cases hbound

end FiniteDomain.Expr
