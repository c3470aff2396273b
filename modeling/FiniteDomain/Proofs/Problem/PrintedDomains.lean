import FiniteDomain.Proofs.Problem.Domains
import FiniteDomain.Proofs.Syntax.Printing

/-!
# Printed values as domains

Values printed side by side are written like a domain. What they are read as is the value that each comes back as
(`Value.reread`), unless one of them is a list, for which domains have no form, or the least word, whose digits are
beyond the greatest (`parse_printed`). Since these two are in no domain at all (`isWritable_of_parse`), values are read
back as they were exactly if each of them comes back as itself, which is a matter of the escapes in texts
(`parse_printed_iff`).
-/

namespace FiniteDomain

open Token (Lexes IsGarbled respelling)

/-! ## Values that come back -/

namespace Value

/-- What the printed value is read as. -/
def reread : Value → Value
  | .str s => .str (String.ofList (s.toList.flatMap respelling))
  | v => v

/-- The value can be written in a domain. -/
def IsWritable (v : Value) : Prop :=
  (∀ items, v ≠ .list items) ∧ v ≠ .int Int64.minValue

/-- The value, if it is a text, is shown without an escape that is read as something else. -/
def IsPlain (v : Value) : Prop :=
  ∀ s, v = .str s → ∀ c ∈ s.toList, ¬ IsGarbled c

/-- The printed values, a space between neighbours. -/
def spaced (vs : List Value) : List Char :=
  [' '].intercalate (vs.map chars)

theorem reread_eq_self_iff {v : Value} : v.reread = v ↔ v.IsPlain := by
  cases v with
  | str s =>
      rw [reread, str.injEq, ← String.toList_inj, String.toList_ofList, Token.flatMap_respelling_eq_self_iff]
      constructor
      · intro h t ht
        cases ht
        exact h
      · intro h
        exact h s rfl
  | int n => exact ⟨fun _ _ h => (nomatch h), fun _ => rfl⟩
  | bool b => exact ⟨fun _ _ h => (nomatch h), fun _ => rfl⟩
  | list items => exact ⟨fun _ _ h => (nomatch h), fun _ => rfl⟩

theorem map_reread_eq_self_iff {vs : List Value} : vs.map reread = vs ↔ ∀ v ∈ vs, v.IsPlain := by
  have hmap : vs.map reread = vs.map id ↔ ∀ v ∈ vs, v.reread = v := List.map_inj_left
  rw [List.map_id] at hmap
  simpa only [reread_eq_self_iff] using hmap

end Value

namespace Domain

/-! ## Reading printed values -/

theorem lexes_decimal {n : Int64} (h : n ≠ Int64.minValue) :
    ∃ ts, Lexes (Text.decimal n.toInt) ts ∧ Signed ts n.toInt := by
  have hmin : Int64.minValue.toInt < n.toInt := by
    have hle := Int64.minValue_le_toInt n
    have hne : n.toInt ≠ Int64.minValue.toInt := fun heq => h (Int64.toInt_inj.mp heq)
    omega
  by_cases hneg : n.toInt < 0
  · have habs : (-n).toInt = -n.toInt := Expr.toInt_neg_of_minValue_lt hmin
    have hdigits := Expr.lexes_natAbs (n := -n) (by omega)
    rw [habs, Int.natAbs_neg] at hdigits
    have hsigned := Signed.negative (-n)
    rw [habs, Int.neg_neg] at hsigned
    rw [Text.decimal, if_pos hneg]
    exact ⟨_, .lone ⟨rfl, by decide⟩ hdigits, hsigned⟩
  · rw [Text.decimal, if_neg hneg]
    exact ⟨_, Expr.lexes_natAbs (by omega), .plain n⟩

/-- A printed value is an item of a domain. -/
theorem item_chars {v : Value} (h : v.IsWritable) : ∃ ts, Lexes v.chars ts ∧ Item ts [v.reread] := by
  cases v with
  | int n =>
      obtain ⟨ts, hlexes, hsigned⟩ := lexes_decimal fun hn => h.2 (congrArg Value.int hn)
      exact ⟨ts, hlexes, .integer hsigned⟩
  | str s => exact ⟨_, Token.lexes_quoted_respelling s, .text _⟩
  | bool b =>
      cases b with
      | true => exact ⟨_, Token.lexes_keyword .trueValue, .trueValue⟩
      | false => exact ⟨_, Token.lexes_keyword .falseValue, .falseValue⟩
  | list items => exact absurd rfl (h.1 items)

theorem spells_spaced {vs : List Value} (h : ∀ v ∈ vs, v.IsWritable) :
    ∃ ts, Lexes (Value.spaced vs) ts ∧ Spells ts (vs.map Value.reread) := by
  induction vs with
  | nil => exact ⟨[], .nil, .nil⟩
  | cons v vs ih =>
      obtain ⟨ts, hlexes, hitem⟩ := item_chars (h v List.mem_cons_self)
      cases vs with
      | nil =>
          have hspaced : Value.spaced [v] = v.chars := List.intercalate_singleton
          rw [hspaced]
          exact ⟨ts ++ [], by rwa [List.append_nil], .cons hitem .nil⟩
      | cons w vs =>
          obtain ⟨us, hlexes', hspells⟩ := ih fun u hu => h u (List.mem_cons_of_mem v hu)
          have hspace : Text.isWhiteSpace ' ' = true := by decide
          have hspaced : Value.spaced (v :: w :: vs) = v.chars ++ ' ' :: Value.spaced (w :: vs) := by
            simp [Value.spaced, List.intercalate_cons_cons]
          rw [hspaced]
          exact ⟨_, hlexes.append (Token.breaks_cons_of_white hspace _) (.white hspace hlexes'), .cons hitem hspells⟩

/-- Printed values that can be written in a domain are read as what each comes back as. -/
theorem parse_printed {vs : List Value} (h : ∀ v ∈ vs, v.IsWritable) :
    parse (Value.spaced vs) = .ok (vs.map Value.reread) := by
  obtain ⟨ts, hlexes, hspells⟩ := spells_spaced h
  exact parse_eq_ok_iff.mpr ⟨ts, hlexes, hspells⟩

/-! ## Values of domains -/

/-- The least word is beyond the numbers that a text can have, with or without a minus sign. -/
theorem Signed.minValue_lt {ts : List Token} {a : Int} (hproper : ∀ t ∈ ts, t.IsProper) (h : Signed ts a) :
    Int64.minValue.toInt < a := by
  have hmin : Int64.minValue.toInt = -2 ^ 63 := rfl
  cases h with
  | plain n =>
      have hn : 0 ≤ n.toInt := hproper _ List.mem_cons_self
      omega
  | negative n =>
      have hlt := Int64.toInt_lt n
      omega

theorem isWritable_int {n : Int64} (h : Int64.minValue.toInt < n.toInt) : (Value.int n).IsWritable := by
  refine ⟨fun _ heq => (nomatch heq), fun heq => ?_⟩
  cases heq
  exact absurd h (Int.lt_irrefl _)

theorem Item.isWritable {ts : List Token} {vs : List Value} (hproper : ∀ t ∈ ts, t.IsProper) (h : Item ts vs) :
    ∀ v ∈ vs, v.IsWritable := by
  cases h with
  | integer hsigned =>
      intro v hv
      rw [List.mem_singleton.mp hv]
      exact isWritable_int (hsigned.minValue_lt hproper)
  | @range ts us first last ns hfirst _ _ hcounts =>
      -- No value of a range is below the first one.
      intro v hv
      obtain ⟨n, hn, rfl⟩ := List.mem_map.mp hv
      have hmem : n.toInt ∈ ns.map Int64.toInt := List.mem_map_of_mem hn
      rw [hcounts] at hmem
      obtain ⟨k, -, hk⟩ := List.mem_map.mp hmem
      have hmin := hfirst.minValue_lt fun t ht => hproper t (List.mem_append_left _ ht)
      exact isWritable_int (by omega)
  | text | trueValue | falseValue =>
      intro v hv
      rw [List.mem_singleton.mp hv]
      exact ⟨fun _ heq => (nomatch heq), fun heq => (nomatch heq)⟩

/-- What a domain holds can be written in a domain. -/
theorem isWritable_of_parse {cs : List Char} {vs : List Value} (h : parse cs = .ok vs) : ∀ v ∈ vs, v.IsWritable := by
  obtain ⟨ts, hlexes, hspells⟩ := parse_eq_ok_iff.mp h
  have hproper := hlexes.isProper
  clear hlexes h
  induction hspells with
  | nil => exact fun _ hv => nomatch hv
  | cons hitem _ ih =>
      intro v hv
      rcases List.mem_append.mp hv with hv | hv
      · exact hitem.isWritable (fun t ht => hproper t (List.mem_append_left _ ht)) v hv
      · exact ih (fun t ht => hproper t (List.mem_append_right _ ht)) v hv

/-- Printed values are read back as a domain exactly if none of them is a list or the least word and no text among them
holds a character that is shown as a carriage return, as a null or by its code point. What any text is shown as is read
as one text that goes to its end, so that no text takes anything from the values after it. -/
theorem parse_printed_iff :
    (∀ vs : List Value, parse ([' '].intercalate (vs.map Value.chars)) = .ok vs ↔
      ∀ v ∈ vs, (∀ items, v ≠ .list items) ∧ v ≠ .int Int64.minValue ∧
        ∀ s, v = .str s → ∀ c ∈ s.toList, ¬ IsGarbled c) ∧
      ∀ s : String, ∃ (cs : List Char) (t : String), (Value.str s).chars = '"' :: cs ∧
        Token.read '"' cs = .ok ⟨.str t, Text.byteLength (Value.str s).chars, []⟩ ∧
        Token.readAll (Value.str s).chars = .ok [⟨0, .str t⟩] := by
  constructor
  · intro vs
    constructor
    · intro h v hv
      have hwritable := isWritable_of_parse h
      have hreread : vs.map Value.reread = vs := Except.ok.inj ((parse_printed hwritable).symm.trans h)
      exact ⟨(hwritable v hv).1, (hwritable v hv).2, Value.map_reread_eq_self_iff.mp hreread v hv⟩
    · intro h
      have hreread : vs.map Value.reread = vs := Value.map_reread_eq_self_iff.mpr fun v hv => (h v hv).2.2
      have hparse := parse_printed fun v hv => ⟨(h v hv).1, (h v hv).2.1⟩
      rwa [hreread] at hparse
  · intro s
    have hchars : (Value.str s).chars = Text.quoted s := by rw [Value.chars]
    have hread := Token.read_quoted s
    have hall : Token.readAll (Text.quoted s) = .ok [⟨0, .str (String.ofList (s.toList.flatMap respelling))⟩] := by
      rw [Text.quoted, Token.readAll, Token.readAllFrom_of_read (by decide) hread, Token.readAllFrom]
      rfl
    rw [hchars]
    exact ⟨_, _, rfl, hread, hall⟩

/-- A newline comes back, a carriage return does not. -/
theorem parse_printed_iff_newline :
    parse ([' '].intercalate ([Value.int (-2), .str "a\n", .bool false].map Value.chars))
        = .ok [.int (-2), .str "a\n", .bool false] ∧
      parse ([' '].intercalate ([Value.int (-2), .str "a\r", .bool false].map Value.chars))
        ≠ .ok [.int (-2), .str "a\r", .bool false] := by
  constructor
  · refine (parse_printed_iff.1 _).mpr ?_
    have hplain : ∀ c ∈ "a\n".toList, ¬ IsGarbled c := by
      intro c hc
      obtain rfl | rfl : c = 'a' ∨ c = '\n' := by simpa using hc
      · decide
      · decide
    simpa using hplain
  · intro h
    obtain ⟨-, -, hplain⟩ := (parse_printed_iff.1 _).mp h (.str "a\r") (by simp)
    exact hplain _ rfl '\r' (by decide) (by decide)

end Domain

end FiniteDomain
