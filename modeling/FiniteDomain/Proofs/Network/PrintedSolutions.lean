import FiniteDomain.Network.Stats
import FiniteDomain.Proofs.Syntax.QuotedTexts

/-!
# Printed solutions tell solutions apart

A value is printed so that it can be told where its text ends, whatever comes after it. A quoted text ends at its own
last quote, since what stands for a character between quotes is a code (`escape_append_inj`), a list ends at its own
bracket, and an integer ends where no digit follows, which the commas, brackets and semicolons around it see to
(`EndsNumber`). So equal beginnings are equal values and leave equal ends (`Value.chars_append_inj`), and the printed
values of a solution can be cut off one after another where the names are known.
-/

namespace FiniteDomain

namespace Text

variable {r s : List Char}

/-! ## Digits -/

theorem digitChar_inj {i j : Nat} (hi : i < 16) (hj : j < 16) (h : Nat.digitChar i = Nat.digitChar j) : i = j := by
  have hdigits : ∀ i < 16, ∀ j < 16, Nat.digitChar i = Nat.digitChar j → i = j := by decide
  exact hdigits i hi j hj h

/-- Numbers of the same digits are equal. -/
theorem toDigits_injective {b : Nat} (hb : 1 < b) (hb16 : b ≤ 16) : Function.Injective (Nat.toDigits b) := by
  intro m
  induction m using Nat.strongRecOn with
  | ind m ih =>
      intro n h
      rw [Nat.toDigits_eq_if hb, Nat.toDigits_eq_if hb (n := n)] at h
      by_cases hm : m < b
      · by_cases hn : n < b
        · rw [if_pos hm, if_pos hn] at h
          exact digitChar_inj (by omega) (by omega) (List.singleton_inj.mp h)
        · rw [if_pos hm, if_neg hn] at h
          exact absurd (List.append_eq_singleton_iff.mp h.symm) (by simp)
      · by_cases hn : n < b
        · rw [if_neg hm, if_pos hn] at h
          exact absurd (List.append_eq_singleton_iff.mp h) (by simp)
        · rw [if_neg hm, if_neg hn] at h
          obtain ⟨hfront, hlast⟩ := List.append_inj' h rfl
          have hquot : m / b = n / b := ih (m / b) (Nat.div_lt_self (by omega) hb) hfront
          have hrem : m % b = n % b := by
            have hm' := Nat.mod_lt m (show 0 < b by omega)
            have hn' := Nat.mod_lt n (show 0 < b by omega)
            exact digitChar_inj (by omega) (by omega) (List.singleton_inj.mp hlast)
          calc m = b * (m / b) + m % b := (Nat.div_add_mod m b).symm
            _ = b * (n / b) + n % b := by rw [hquot, hrem]
            _ = n := Nat.div_add_mod n b

/-- Where something else than a digit follows, digits can be cut off and tell the number. -/
theorem toDigits_append_inj {b m n : Nat} {p : Char → Bool} (hb : 1 < b) (hb16 : b ≤ 16)
    (hp : ∀ k < b, p (Nat.digitChar k) = true) (hr : ∀ c cs, r = c :: cs → p c = false)
    (hs : ∀ c cs, s = c :: cs → p c = false) (h : Nat.toDigits b m ++ r = Nat.toDigits b n ++ s) : m = n ∧ r = s := by
  have hall : ∀ k, ∀ c ∈ Nat.toDigits b k, p c = true := by
    intro k c hc
    obtain ⟨i, hi, rfl⟩ := Token.exists_digitChar_of_mem_toDigits hb hc
    exact hp i hi
  obtain ⟨htakem, hdropm⟩ := Token.span_append (hall m) hr
  obtain ⟨htaken, hdropn⟩ := Token.span_append (hall n) hs
  rw [h] at htakem hdropm
  exact ⟨toDigits_injective hb hb16 (htakem.symm.trans htaken), hdropm.symm.trans hdropn⟩

/-! ## Quoted texts -/

/-- The digits of a code point end at the brace. -/
theorem codePointEscape_append_inj {c d : Char} (h : codePointEscape c ++ r = codePointEscape d ++ s) :
    c = d ∧ r = s := by
  have hbrace (t : List Char) : ∀ x cs, '\x7d' :: t = x :: cs → decide (x ≠ '\x7d') = false := by
    rintro x cs ⟨⟩
    rfl
  simp only [codePointEscape, List.cons_append, List.append_assoc, List.nil_append, List.cons.injEq, true_and] at h
  obtain ⟨hcode, hrest⟩ := toDigits_append_inj (p := fun x => decide (x ≠ '\x7d')) (by decide) (by decide) (by decide)
    (hbrace r) (hbrace s) h
  exact ⟨Char.toNat_inj.mp hcode, (List.cons.inj hrest).2⟩

/-- What stands for the characters between quotes is a code: its words can be cut off and tell the character. -/
theorem escape_append_inj {c d : Char} (h : escape c ++ r = escape d ++ s) : c = d ∧ r = s := by
  have hu : ∀ p ∈ Token.escapeLetters, p.2 ≠ 'u' := by decide
  rcases Token.escape_cases c with ⟨hc, -, hbackslash⟩ | ⟨a, ha, hc⟩ | hc <;>
    rcases Token.escape_cases d with ⟨hd, -, hbackslash'⟩ | ⟨b, hb, hd⟩ | hd <;> rw [hc, hd] at h
  -- The first character is shown by itself, ...
  · exact List.cons.inj h
  · exact absurd (List.cons.inj h).1 hbackslash
  · exact absurd (List.cons.inj h).1 hbackslash
  -- ... by a letter of its own, which is never the letter of a code point, ...
  · exact absurd (List.cons.inj h).1.symm hbackslash'
  · have hletters : ∀ p ∈ Token.escapeLetters, ∀ q ∈ Token.escapeLetters, p.2 = q.2 → p.1 = q.1 := by decide
    obtain ⟨hab, hrs⟩ := List.cons.inj (List.cons.inj h).2
    exact ⟨hletters _ ha _ hb hab, hrs⟩
  · exact absurd (List.cons.inj (List.cons.inj h).2).1 (hu _ ha)
  -- ... or by its code point.
  · exact absurd (List.cons.inj h).1.symm hbackslash'
  · exact absurd (List.cons.inj (List.cons.inj h).2).1.symm (hu _ hb)
  · exact codePointEscape_append_inj h

theorem escape_append_ne_quote (c : Char) : escape c ++ r ≠ '"' :: s := by
  intro h
  rcases Token.escape_eq c with ⟨hc, hquote, -⟩ | ⟨d, ds, hc, -⟩
  · rw [hc] at h
    exact hquote (List.cons.inj h).1
  · rw [hc] at h
    exact absurd (List.cons.inj h).1 (by decide)

theorem flatMap_escape_append_inj {cs ds : List Char}
    (h : cs.flatMap escape ++ '"' :: r = ds.flatMap escape ++ '"' :: s) : cs = ds ∧ r = s := by
  induction cs generalizing ds with
  | nil =>
      cases ds with
      | nil => exact ⟨rfl, (List.cons.inj h).2⟩
      | cons d ds =>
          rw [List.flatMap_cons, List.append_assoc] at h
          exact absurd h.symm (escape_append_ne_quote d)
  | cons c cs ih =>
      rw [List.flatMap_cons, List.append_assoc] at h
      cases ds with
      | nil => exact absurd h (escape_append_ne_quote c)
      | cons d ds =>
          rw [List.flatMap_cons, List.append_assoc] at h
          obtain ⟨rfl, htail⟩ := escape_append_inj h
          obtain ⟨rfl, hrs⟩ := ih htail
          exact ⟨rfl, hrs⟩

theorem quoted_append_inj {a b : String} (h : quoted a ++ r = quoted b ++ s) : a = b ∧ r = s := by
  simp only [quoted, List.cons_append, List.append_assoc, List.nil_append, List.cons.injEq, true_and] at h
  obtain ⟨hchars, hrs⟩ := flatMap_escape_append_inj h
  exact ⟨String.toList_inj.mp hchars, hrs⟩

/-! ## Integers -/

/-- Texts that do not go on a number. -/
def EndsNumber (r : List Char) : Prop :=
  ∀ c cs, r = c :: cs → c.isDigit = false

theorem EndsNumber.nil : EndsNumber [] :=
  fun _ _ h => nomatch h

theorem EndsNumber.cons {c : Char} (hc : c.isDigit = false) : EndsNumber (c :: r) := by
  rintro d cs ⟨⟩
  exact hc

/-- What stands between the separated texts ends the number before it. -/
theorem EndsNumber.separated {c : Char} {sep : List Char} (hc : c.isDigit = false) (hr : EndsNumber r)
    (texts : List (List Char)) : EndsNumber (texts.flatMap ((c :: sep) ++ ·) ++ r) := by
  cases texts with
  | nil => exact hr
  | cons t texts => exact .cons hc

theorem toDigits_append_ne_minus (n : Nat) : Nat.toDigits 10 n ++ r ≠ '-' :: s := by
  intro h
  obtain ⟨c, cs, hdigits, hc⟩ := Token.exists_toDigits_cons n
  rw [hdigits] at h
  obtain rfl : c = '-' := (List.cons.inj h).1
  exact absurd hc (by decide)

theorem decimal_append_inj {m n : Int} (hr : EndsNumber r) (hs : EndsNumber s) (h : decimal m ++ r = decimal n ++ s) :
    m = n ∧ r = s := by
  have hdigits {i j : Nat} (h : Nat.toDigits 10 i ++ r = Nat.toDigits 10 j ++ s) : i = j ∧ r = s :=
    toDigits_append_inj (by decide) (by decide) (by decide) hr hs h
  unfold decimal at h
  by_cases hm : m < 0 <;> by_cases hn : n < 0
  · rw [if_pos hm, if_pos hn] at h
    obtain ⟨habs, hrs⟩ := hdigits (List.cons.inj h).2
    exact ⟨by omega, hrs⟩
  · rw [if_pos hm, if_neg hn] at h
    exact absurd h.symm (toDigits_append_ne_minus n.natAbs)
  · rw [if_neg hm, if_pos hn] at h
    exact absurd h (toDigits_append_ne_minus m.natAbs)
  · rw [if_neg hm, if_neg hn] at h
    obtain ⟨habs, hrs⟩ := hdigits h
    exact ⟨by omega, hrs⟩

/-! ## Separated texts -/

theorem intercalate_cons (sep t : List Char) (texts : List (List Char)) :
    sep.intercalate (t :: texts) = t ++ texts.flatMap (sep ++ ·) := by
  induction texts generalizing t with
  | nil => rw [List.intercalate_singleton, List.flatMap_nil, List.append_nil]
  | cons u texts ih => rw [List.intercalate_cons_cons, ih, List.flatMap_cons, List.append_assoc, List.append_assoc]

end Text

open Text

namespace Value

/-! ## Values -/

/-- The kind of the values whose text begins with `c`, if any does. -/
def kindOfFirst? (c : Char) : Option String :=
  if c = '-' ∨ c.isDigit = true then some "int"
  else if c = '"' then some "str"
  else if c = 'T' ∨ c = 'F' then some "bool"
  else if c = '[' then some "list"
  else none

/-- The first character of a printed value tells its kind. -/
theorem exists_chars_cons (v : Value) : ∃ c cs, v.chars = c :: cs ∧ kindOfFirst? c = some v.kind := by
  cases v with
  | int n =>
      rw [chars, decimal]
      split
      · exact ⟨'-', _, rfl, rfl⟩
      · obtain ⟨c, cs, hdigits, hc⟩ := Token.exists_toDigits_cons n.toInt.natAbs
        exact ⟨c, cs, hdigits, if_pos (.inr hc)⟩
  | str s => exact ⟨'"', _, by rw [chars, quoted], rfl⟩
  | bool b =>
      cases b with
      | false => exact ⟨'F', _, by rw [chars], rfl⟩
      | true => exact ⟨'T', _, by rw [chars], rfl⟩
  | list items => exact ⟨'[', _, by rw [chars], rfl⟩

variable {r s : List Char}

theorem kind_eq_of_append {v w : Value} (h : v.chars ++ r = w.chars ++ s) : v.kind = w.kind := by
  obtain ⟨c, cs, hv, hkindv⟩ := exists_chars_cons v
  obtain ⟨d, ds, hw, hkindw⟩ := exists_chars_cons w
  rw [hv, hw] at h
  obtain rfl : c = d := (List.cons.inj h).1
  exact Option.some.inj (hkindv.symm.trans hkindw)

theorem chars_append_ne_close (v : Value) : v.chars ++ r ≠ ']' :: s := by
  intro h
  obtain ⟨c, cs, hv, hkind⟩ := exists_chars_cons v
  rw [hv] at h
  obtain rfl : c = ']' := (List.cons.inj h).1
  cases hkind

/-- The texts of values of a list, each after its comma. -/
def tailChars (vs : List Value) : List Char :=
  (vs.map chars).flatMap ([',', ' '] ++ ·)

theorem tailChars_cons_append (v : Value) (vs : List Value) :
    tailChars (v :: vs) ++ r = ',' :: ' ' :: (v.chars ++ (tailChars vs ++ r)) := by
  simp only [tailChars, List.map_cons, List.flatMap_cons, List.cons_append, List.nil_append, List.append_assoc]

theorem chars_list_cons_append (v : Value) (vs : List Value) :
    (Value.list (v :: vs)).chars ++ r = '[' :: (v.chars ++ (tailChars vs ++ ']' :: r)) := by
  rw [chars, charsAll_eq_map, commaSeparated, List.map_cons, intercalate_cons, tailChars]
  simp only [List.cons_append, List.nil_append, List.append_assoc]

theorem chars_list_nil_append : (Value.list []).chars ++ r = '[' :: ']' :: r := by
  rw [chars, charsAll]
  rfl

theorem endsNumber_tailChars (vs : List Value) : EndsNumber (tailChars vs ++ ']' :: r) :=
  .separated (by decide) (.cons (by decide)) _

/-- A comma before the first value makes it one of those that follow. -/
theorem tailChars_append_eq_of_list {vs ws : List Value} (h : (Value.list vs).chars ++ r = (Value.list ws).chars ++ s) :
    tailChars vs ++ ']' :: r = tailChars ws ++ ']' :: s := by
  cases vs with
  | nil =>
      cases ws with
      | nil =>
          rw [chars_list_nil_append, chars_list_nil_append] at h
          exact (List.cons.inj h).2
      | cons w ws =>
          rw [chars_list_nil_append, chars_list_cons_append] at h
          exact absurd (List.cons.inj h).2.symm (chars_append_ne_close w)
  | cons v vs =>
      cases ws with
      | nil =>
          rw [chars_list_nil_append, chars_list_cons_append] at h
          exact absurd (List.cons.inj h).2 (chars_append_ne_close v)
      | cons w ws =>
          rw [chars_list_cons_append, chars_list_cons_append] at h
          rw [tailChars_cons_append, tailChars_cons_append, (List.cons.inj h).2]

mutual
/-- Where no digit follows, a printed value can be cut off and tells the value. -/
theorem chars_append_inj : ∀ (v w : Value) {r s : List Char}, EndsNumber r → EndsNumber s →
    v.chars ++ r = w.chars ++ s → v = w ∧ r = s
  | .int m, w, r, s, hr, hs, h => by
      cases w with
      | int n =>
          rw [chars, chars] at h
          obtain ⟨hmn, hrs⟩ := decimal_append_inj hr hs h
          exact ⟨congrArg Value.int (Int64.toInt_inj.mp hmn), hrs⟩
      | str _ | bool _ | list _ => exact absurd (kind_eq_of_append h) (by simp [kind])
  | .str a, w, r, s, hr, hs, h => by
      cases w with
      | str b =>
          rw [chars, chars] at h
          obtain ⟨rfl, hrs⟩ := quoted_append_inj h
          exact ⟨rfl, hrs⟩
      | int _ | bool _ | list _ => exact absurd (kind_eq_of_append h) (by simp [kind])
  | .bool a, w, r, s, hr, hs, h => by
      cases w with
      | bool b =>
          cases a <;> cases b <;> simp only [chars] at h
          · exact ⟨rfl, List.append_cancel_left h⟩
          · exact absurd (List.cons.inj h).1 (by decide)
          · exact absurd (List.cons.inj h).1 (by decide)
          · exact ⟨rfl, List.append_cancel_left h⟩
      | int _ | str _ | list _ => exact absurd (kind_eq_of_append h) (by simp [kind])
  | .list vs, w, r, s, hr, hs, h => by
      cases w with
      | list ws =>
          obtain ⟨rfl, hrs⟩ := tailChars_append_inj vs ws (tailChars_append_eq_of_list h)
          exact ⟨rfl, hrs⟩
      | int _ | str _ | bool _ => exact absurd (kind_eq_of_append h) (by simp [kind])
/-- Values of a list, each after its comma, can be cut off with the bracket of the list. -/
theorem tailChars_append_inj : ∀ (vs ws : List Value) {r s : List Char},
    tailChars vs ++ ']' :: r = tailChars ws ++ ']' :: s → vs = ws ∧ r = s
  | [], [], r, s, h => ⟨rfl, (List.cons.inj h).2⟩
  | [], w :: ws, r, s, h => by
      rw [tailChars_cons_append] at h
      exact absurd (List.cons.inj h).1 (by decide)
  | v :: vs, [], r, s, h => by
      rw [tailChars_cons_append] at h
      exact absurd (List.cons.inj h).1 (by decide)
  | v :: vs, w :: ws, r, s, h => by
      rw [tailChars_cons_append, tailChars_cons_append] at h
      obtain ⟨rfl, htail⟩ := chars_append_inj v w (endsNumber_tailChars vs) (endsNumber_tailChars ws)
        (List.cons.inj (List.cons.inj h).2).2
      obtain ⟨rfl, hrs⟩ := tailChars_append_inj vs ws htail
      exact ⟨rfl, hrs⟩
end

theorem chars_injective : Function.Injective chars := by
  intro v w h
  have hends : v.chars ++ [] = w.chars ++ [] := congrArg (· ++ []) h
  exact (chars_append_inj v w .nil .nil hends).1

end Value

namespace Solution

/-! ## Solutions -/

variable {r s : List Char}

/-- The names of the variables in the order of the declarations. -/
def names (s : Solution) : List String :=
  s.assignments.map (·.1)

/-- The texts of assignments, each after its semicolon. -/
def tailChars (as : List (String × Value)) : List Char :=
  (as.map assignmentChars).flatMap ([';', ' '] ++ ·)

theorem chars_cons (a : String × Value) (as : List (String × Value)) :
    (Solution.mk (a :: as)).chars = assignmentChars a ++ tailChars as := by
  rw [chars, List.map_cons, intercalate_cons, tailChars]

theorem tailChars_cons (a : String × Value) (as : List (String × Value)) :
    tailChars (a :: as) = ';' :: ' ' :: (assignmentChars a ++ tailChars as) := by
  simp only [tailChars, List.map_cons, List.flatMap_cons, List.cons_append, List.nil_append]

theorem endsNumber_tailChars (as : List (String × Value)) : EndsNumber (tailChars as) := by
  have hends : EndsNumber (tailChars as ++ []) := .separated (by decide) .nil (as.map assignmentChars)
  rwa [List.append_nil] at hends

/-- Where the name is known and no digit follows, a printed assignment can be cut off and tells the value. -/
theorem assignmentChars_append_inj {name : String} {v w : Value} (hr : EndsNumber r) (hs : EndsNumber s)
    (h : assignmentChars (name, v) ++ r = assignmentChars (name, w) ++ s) : v = w ∧ r = s := by
  simp only [assignmentChars, List.append_assoc] at h
  exact Value.chars_append_inj v w hr hs (List.append_cancel_left (List.append_cancel_left h))

theorem assignments_eq_of_tailChars_eq {as bs : List (String × Value)} (hnames : as.map (·.1) = bs.map (·.1))
    (h : tailChars as = tailChars bs) : as = bs := by
  induction as generalizing bs with
  | nil => exact (List.map_eq_nil_iff.mp hnames.symm).symm
  | cons a as ih =>
      cases bs with
      | nil => cases hnames
      | cons b bs =>
          obtain ⟨name, v⟩ := a
          obtain ⟨name', w⟩ := b
          obtain ⟨rfl, hrest⟩ := List.cons.inj hnames
          rw [tailChars_cons, tailChars_cons] at h
          obtain ⟨rfl, htail⟩ := assignmentChars_append_inj (endsNumber_tailChars as) (endsNumber_tailChars bs)
            (List.cons.inj (List.cons.inj h).2).2
          rw [ih hrest htail]

theorem eq_of_chars_eq {s t : Solution} (hnames : s.names = t.names) (h : s.chars = t.chars) : s = t := by
  obtain ⟨as⟩ := s
  obtain ⟨bs⟩ := t
  have hlists : as.map (·.1) = bs.map (·.1) := hnames
  -- A semicolon before the first assignment makes it one of those that follow.
  have htail : tailChars as = tailChars bs := by
    cases as with
    | nil => rw [List.map_eq_nil_iff.mp hlists.symm]
    | cons a as =>
        cases bs with
        | nil => cases hlists
        | cons b bs =>
            rw [chars_cons, chars_cons] at h
            rw [tailChars_cons, tailChars_cons, h]
  rw [assignments_eq_of_tailChars_eq hlists htail]

/-- **Printed solutions identify solutions.** Values with equal texts are equal, and among the solutions over the same
names, whatever these are, equal lines come from equal solutions. -/
theorem text_identifies :
    (∀ v w : Value, v.text = w.text ↔ v = w) ∧
      ∀ s t : Solution, s.names = t.names → (s.text = t.text ↔ s = t) := by
  refine ⟨?_, ?_⟩
  · intro v w
    constructor
    · intro h
      exact Value.chars_injective (String.ofList_inj.mp h)
    · rintro rfl
      rfl
  · intro s t hnames
    constructor
    · intro h
      exact eq_of_chars_eq hnames (String.ofList_inj.mp h)
    · rintro rfl
      rfl

/-- Texts that hold what stands between assignments, between the items of a list and around texts do not mislead. -/
theorem text_identifies_delimiters :
    let s : Solution := ⟨[("p", .str "1\"; q = \"2"), ("q", .list [.str "a, b"])]⟩
    let t : Solution := ⟨[("p", .str "1"), ("q", .list [.str "a", .str "b"])]⟩
    s.names = t.names ∧ s.text ≠ t.text := by
  intro s t
  refine ⟨rfl, fun h => ?_⟩
  have hsame : s = t := (text_identifies.2 s t rfl).mp h
  exact absurd hsame (by decide)

/-- The names have to be known: they are printed as they are, and can hold what stands between assignments. -/
example : (⟨[("p", .int 1), ("q", .int 2)]⟩ : Solution).text = (⟨[("p = 1; q", .int 2)]⟩ : Solution).text := by
  decide

end Solution

end FiniteDomain
