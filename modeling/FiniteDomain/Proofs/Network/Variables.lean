import FiniteDomain.Network.Trail

/-!
# Changing one variable

Laws of the four ways in which a solve changes a variable: it is given a value, it is freed, a value is taken
out of its domain, and a removed value is put back. Each law says what one change does to what can be read off
the variables (`value?`, `domain`, `frame`), or that two changes commute or cancel.
-/

namespace FiniteDomain.Variables

variable {vars vars' : List Variable} {x y : Nat} {v w : Value}

/-- What a solve never changes of the variables: their names and the constraints on them. -/
def frame (vars : List Variable) : List (String × List Nat) :=
  vars.map fun w => (w.name, w.constraints)

/-! ## What stays -/

@[simp] theorem length_assign : (assign vars x v).length = vars.length := by
  simp [assign]

@[simp] theorem length_free : (free vars x).length = vars.length := by
  simp [free]

@[simp] theorem length_mapDomain (f : List Value → List Value) :
    (mapDomain vars x f).length = vars.length := by
  simp [mapDomain]

@[simp] theorem frame_assign : frame (assign vars x v) = frame vars :=
  map_modify_of_keeps _ _ (by intro w; rfl) vars x

@[simp] theorem frame_mapDomain (f : List Value → List Value) :
    frame (mapDomain vars x f) = frame vars :=
  map_modify_of_keeps _ _ (by intro w; rfl) vars x

theorem length_eq_of_frame (h : frame vars' = frame vars) : vars'.length = vars.length := by
  have hl := congrArg List.length h
  simpa [frame] using hl

theorem links_eq_of_frame (h : frame vars' = frame vars) (x : Nat) :
    links vars' x = links vars x := by
  have hx := congrArg (fun l => (l[x]?.map Prod.snd).getD []) h
  simpa [frame, links, List.getElem?_map, Function.comp_def] using hx

theorem name_eq_of_frame (h : frame vars' = frame vars) (x : Nat) : name vars' x = name vars x := by
  have hx := congrArg (fun l => (l[x]?.map Prod.fst).getD "") h
  simpa [frame, name, List.getElem?_map, Function.comp_def] using hx

@[simp] theorem domain_assign : domain (assign vars x v) y = domain vars y :=
  domain_eq_of_map_domain (map_domain_assign vars x v) y

@[simp] theorem domain_free : domain (free vars x) y = domain vars y :=
  domain_eq_of_map_domain (map_domain_free vars x) y

@[simp] theorem value?_mapDomain (f : List Value → List Value) :
    value? (mapDomain vars x f) y = value? vars y := by
  simp only [value?, mapDomain, List.getElem?_modify]
  cases vars[y]? with
  | none => rfl
  | some w => by_cases h : x = y <;> simp [h]

/-- Variables are told by their names and links, the values held and the domains. -/
theorem ext_of_frame (hframe : frame vars' = frame vars) (hvalue : ∀ x, value? vars' x = value? vars x)
    (hdomain : ∀ x, domain vars' x = domain vars x) : vars' = vars := by
  refine List.ext_getElem (length_eq_of_frame hframe) fun x hx' hx => ?_
  have hn := congrArg (·[x]?) hframe
  have hv := hvalue x
  have hd := hdomain x
  simp only [frame, List.getElem?_map, List.getElem?_eq_getElem hx', List.getElem?_eq_getElem hx, Option.map_some,
    Option.some.injEq, Prod.mk.injEq] at hn
  simp only [value?, List.getElem?_eq_getElem hx', List.getElem?_eq_getElem hx, Option.bind_some] at hv
  simp only [domain, List.getElem?_eq_getElem hx', List.getElem?_eq_getElem hx, Option.map_some,
    Option.getD_some] at hd
  generalize vars'[x] = w' at hn hv hd ⊢
  generalize vars[x] = w at hn hv hd ⊢
  cases w'
  cases w
  simp_all

/-! ## What changes -/

theorem domain_mapDomain_self (f : List Value → List Value) (h : x < vars.length) :
    domain (mapDomain vars x f) x = f (domain vars x) := by
  simp [domain, mapDomain, List.getElem?_eq_getElem h]

theorem domain_mapDomain_of_ne (f : List Value → List Value) (h : y ≠ x) :
    domain (mapDomain vars x f) y = domain vars y := by
  simp [domain, mapDomain, h.symm]

theorem lt_length_of_domain_ne_nil (h : domain vars x ≠ []) : x < vars.length := by
  rcases Nat.lt_or_ge x vars.length with hx | hx
  · exact hx
  · exact absurd (by simp [domain, List.getElem?_eq_none hx]) h

theorem lt_length_of_value?_isSome (h : (value? vars x).isSome) : x < vars.length := by
  rcases Nat.lt_or_ge x vars.length with hx | hx
  · exact hx
  · simp [value?, List.getElem?_eq_none hx] at h

theorem value?_assign_self (h : x < vars.length) : value? (assign vars x v) x = some v := by
  simp [value?, assign, List.getElem?_eq_getElem h]

theorem value?_assign_of_ne (h : y ≠ x) : value? (assign vars x v) y = value? vars y := by
  simp [value?, assign, h.symm]

/-- Giving one value to a variable does not tell apart what tells no values apart. -/
theorem value?_assign_congr (hlength : vars'.length = vars.length) (h : value? vars' y = value? vars y) :
    value? (assign vars' x v) y = value? (assign vars x v) y := by
  by_cases hy : y = x
  · subst hy
    rcases Nat.lt_or_ge y vars.length with hlt | hle
    · rw [value?_assign_self hlt, value?_assign_self (hlength ▸ hlt)]
    · have hnone : ∀ ws : List Variable, ws.length ≤ y → value? ws y = none := fun ws hws => by
        simp [value?, List.getElem?_eq_none hws]
      rw [hnone _ (by rw [length_assign, hlength]; exact hle), hnone _ (by rw [length_assign]; exact hle)]
  · rw [value?_assign_of_ne hy, value?_assign_of_ne hy, h]

@[simp] theorem value?_free_self : value? (free vars x) x = none := by
  simp only [value?, free, List.getElem?_modify, if_true]
  cases vars[x]? <;> rfl

/-! ## Changes that cancel or commute -/

/-- Two changes of one variable are one change. -/
theorem modify_modify_self (f g : Variable → Variable) (vars : List Variable) (x : Nat) :
    (vars.modify x f).modify x g = vars.modify x (g ∘ f) := by
  apply List.ext_getElem?
  intro y
  simp only [List.getElem?_modify]
  split <;> simp [Option.map_map, Function.comp_def]

/-- Changes that agree on every variable commute, at the same place or at two places. -/
theorem modify_comm (f g : Variable → Variable) (hfg : ∀ w, f (g w) = g (f w))
    (vars : List Variable) (x y : Nat) :
    (vars.modify x f).modify y g = (vars.modify y g).modify x f := by
  apply List.ext_getElem?
  intro z
  simp only [List.getElem?_modify]
  cases vars[z]? with
  | none => split <;> split <;> rfl
  | some w => by_cases hx : x = z <;> by_cases hy : y = z <;> simp [hx, hy, hfg]

/-- A change that keeps the variable at its place changes nothing. -/
theorem modify_eq_self (f : Variable → Variable) (h : ∀ w, vars[x]? = some w → f w = w) :
    vars.modify x f = vars := by
  apply List.ext_getElem?
  intro y
  rw [List.getElem?_modify]
  by_cases hy : x = y
  · subst hy
    cases hx : vars[x]? with
    | none => simp
    | some w => simp [h w hx]
  · simp [hy]

/-- Freeing a variable without a value changes nothing. -/
theorem free_eq_self (h : value? vars x = none) : free vars x = vars := by
  refine modify_eq_self _ ?_
  intro w hw
  have hv : w.value = none := by simpa [value?, hw] using h
  rw [← hv]

@[simp] theorem free_assign : free (assign vars x v) x = free vars x :=
  modify_modify_self _ _ vars x

@[simp] theorem assign_free : assign (free vars x) x v = assign vars x v :=
  modify_modify_self _ _ vars x

@[simp] theorem assign_assign : assign (assign vars x v) x w = assign vars x w :=
  modify_modify_self _ _ vars x

theorem free_comm : free (free vars x) y = free (free vars y) x :=
  modify_comm _ _ (by intro w; rfl) vars x y

theorem free_mapDomain (f : List Value → List Value) :
    free (mapDomain vars x f) y = mapDomain (free vars y) x f :=
  modify_comm _ _ (by intro w; rfl) vars x y

/-- What is put back after it was taken out leaves the variables as they were. -/
theorem mapDomain_mapDomain_eq_self (f g : List Value → List Value)
    (h : g (f (domain vars x)) = domain vars x) : mapDomain (mapDomain vars x f) x g = vars := by
  unfold mapDomain
  rw [modify_modify_self]
  refine modify_eq_self _ ?_
  intro w hw
  have hd : g (f w.domain) = w.domain := by simpa [domain, hw] using h
  simp [hd]

/-! ## Filtered domains -/

/-- The variables with the values left that pass, in their order. -/
def restrict (vars : List Variable) (p : Nat → Value → Prop) [∀ x, DecidablePred (p x)] : List Variable :=
  vars.mapIdx fun x w => { w with domain := w.domain.filter (p x ·) }

section Restrict

variable {p : Nat → Value → Prop} [∀ x, DecidablePred (p x)]

@[simp] theorem frame_restrict : frame (restrict vars p) = frame vars := by
  apply List.ext_getElem?
  intro x
  simp [frame, restrict, Function.comp_def]

@[simp] theorem value?_restrict : value? (restrict vars p) x = value? vars x := by
  cases hx : vars[x]? <;> simp [value?, restrict, hx]

@[simp] theorem domain_restrict : domain (restrict vars p) x = (domain vars x).filter (p x ·) := by
  cases hx : vars[x]? <;> simp [domain, restrict, hx]

/-- Nothing but what is left of the domains tells restricted variables. -/
theorem eq_restrict (hframe : frame vars' = frame vars) (hvalue : ∀ x, value? vars' x = value? vars x)
    (hdomain : ∀ x, domain vars' x = (domain vars x).filter (p x ·)) : vars' = restrict vars p :=
  ext_of_frame (by rw [hframe, frame_restrict]) (by simp [hvalue]) (by simp [hdomain])

end Restrict

end FiniteDomain.Variables
