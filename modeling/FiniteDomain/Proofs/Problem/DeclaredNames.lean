import FiniteDomain.Proofs.Expr.Occurrence
import FiniteDomain.Proofs.Problem.Comments
import FiniteDomain.Proofs.Problem.TextFormat

/-!
# Names that can be declared and names that can be mentioned

A variable can be declared by every word (`isIdentifier_iff_isWord`). The tokens of a constraint are made from words
of the same characters, but six of these are taken for keywords, so that no constraint mentions a variable of such a
name (`exists_parse_mentions_iff`). Names can be declared and mentioned alike exactly if they are no keywords
(`declared_names`).
-/

namespace FiniteDomain

namespace Statement

/-- A variable can be declared by exactly the words. -/
theorem isIdentifier_iff_isWord {s : String} : isIdentifier s.toList = true ↔ Token.IsWord s := by
  constructor
  · intro h
    cases hs : s.toList with
    | nil =>
        rw [hs] at h
        cases h
    | cons c cs =>
        rw [hs] at h
        obtain ⟨hstart, hpart⟩ := Bool.and_eq_true_iff.mp h
        exact Token.isWord_of_all hs hstart hpart
  · rintro ⟨c, cs, hs, hstart, hpart⟩
    rw [hs]
    exact Bool.and_eq_true_iff.mpr ⟨hstart, List.all_eq_true.mpr hpart⟩

end Statement

namespace Token

theorem isWord_of_ofWord? {s : String} {k : Keyword} (h : Keyword.ofWord? s = some k) : IsWord s := by
  have hfound := List.find?_some h
  obtain rfl : k.text = s := of_decide_eq_true hfound
  exact isWord_keyword k

/-- Names are what can be declared, without the keywords. -/
theorem isName_iff {s : String} :
    IsName s ↔ Statement.isIdentifier s.toList = true ∧ Keyword.ofWord? s = none := by
  rw [Statement.isIdentifier_iff_isWord]
  exact ⟨fun h => ⟨h.isWord, h.not_keyword⟩, fun h => ⟨h.1, h.2⟩⟩

/-- A text is read as one name, the text itself, exactly if it is a word and no keyword. -/
theorem readAll_eq_ident_iff {s : String} : (∃ i, readAll s.toList = .ok [⟨i, .ident s⟩]) ↔ IsName s := by
  constructor
  · rintro ⟨i, hread⟩
    exact (lexes_of_readAll hread).isProper (.ident s) List.mem_cons_self
  · intro hname
    obtain ⟨located, hread, htokens⟩ := (lexes_name hname).readAllFrom 0
    obtain ⟨⟨i, token⟩, rfl, htoken⟩ := of_tokensOf_singleton htokens
    obtain rfl : token = .ident s := htoken
    exact ⟨i, hread⟩

end Token

namespace Expr

variable {s : String}

/-- What a parsed expression mentions are names. -/
theorem isName_of_mentions {e : Expr} (h : e.Everywhere AsParsed) (hs : e.Mentions s) : Token.IsName s := by
  induction h with
  | literal _ => exact hs.elim
  | ident hname =>
      obtain rfl := hs
      exact hname
  | slot hslot => exact hslot.elim
  | list _ _ ih =>
      obtain ⟨e, he, hse⟩ := mentionsAny_iff.mp hs
      exact ih e he hse
  | unary _ _ ih => exact ih hs
  | binary _ _ _ ihl ihr => exact hs.elim ihl ihr
  | call hfunction _ ih =>
      rcases hs with rfl | hargs
      · exact hfunction
      · obtain ⟨e, he, hse⟩ := mentionsAny_iff.mp hargs
        exact ih e he hse
  | count _ _ _ ihxs ihitem => exact hs.elim ihxs ihitem

/-- A text is the expression that is the name spelled by the text exactly if it is a word and no keyword. -/
theorem parse_eq_ident_iff : parse s = .ok (.ident s) ↔ Token.IsName s := by
  constructor
  · intro hparse
    exact isName_of_mentions (asParsed_of_parse hparse) rfl
  · intro hname
    have hatom : Spells (.expr .atom (.ident s)) s.toList := ⟨_, Token.lexes_name hname, .ident s⟩
    exact parse_eq_ok_iff.mpr (hatom.loosen (by decide))

/-- Some expression that is read from a text mentions a name exactly if the name is a word and no keyword. -/
theorem exists_parse_mentions_iff : (∃ text e, parse text = .ok e ∧ s ∈ e.names) ↔ Token.IsName s := by
  constructor
  · rintro ⟨text, e, hparse, hs⟩
    exact isName_of_mentions (asParsed_of_parse hparse) (mem_names_iff.mp hs)
  · intro hname
    exact ⟨s, .ident s, parse_eq_ident_iff.mpr hname, mem_names_iff.mpr rfl⟩

end Expr

namespace Problem

open Statement

theorem isIdentifier_of_spells {lines : List (List Char)} {p : Problem} {v : Variable} (h : Spells lines p)
    (hv : v ∈ p.vars) : isIdentifier v.name.toList = true := by
  induction h with
  | nil => cases hv
  | blank _ _ ih => exact ih hv
  | declaration hline _ ih =>
      rcases List.mem_cons.mp hv with rfl | hv
      · cases hline with
        | declaration _ _ _ hname _ _ _ => rwa [String.toList_ofList]
      · exact ih hv
  | constraint _ _ ih => exact ih hv

/-- The variables of a problem text have words for names. -/
theorem isIdentifier_of_parse {text s : String} {p : Problem} (h : parse text = .ok p)
    (hs : s ∈ p.vars.map (·.name)) : isIdentifier s.toList = true := by
  obtain ⟨p', hp', ⟨-, hp⟩ | ⟨e, -, he⟩⟩ | ⟨position, cause, -, he⟩ := of_parse_eq h
  · cases hp
    obtain ⟨v, hv, rfl⟩ := List.mem_map.mp hs
    exact isIdentifier_of_spells hp' hv
  · cases he
  · cases he

/-- A text without quotes, comments and line feeds is its own line. -/
theorem uncommented_of_plain {text : String} (hne : text.toList ≠ [])
    (h : ∀ c ∈ text.toList, IsUnquoted c ∧ c ≠ '\n') : uncommented text = [text.toList] := by
  have hnewline : '\n' ∉ text.toList := fun hmem => (h _ hmem).2 rfl
  have hbalanced : Balanced text.toList := balanced_of_unquoted fun c hc => (h c hc).1
  have hstrip : stripComment text.toList = text.toList := by
    have happend := hbalanced.stripComment_append []
    rw [List.append_nil] at happend
    exact happend.trans (List.append_nil _)
  rw [uncommented, Text.lines_of_no_newline hne hnewline, List.map_cons, List.map_nil, hstrip]

/-- Every word is the name of a variable that a line declares. -/
theorem parse_declaration {s : String} (h : isIdentifier s.toList = true) :
    parse ("var " ++ s ++ ":") = .ok { vars := [{ name := s, domain := [] }] } := by
  have hpart := isWordPart_of_isIdentifier h
  have htext : ("var " ++ s ++ ":").toList = [] ++ ("var".toList ++ ([' '] ++ s.toList ++ [] ++ ':' :: [])) := by
    simp
  have hplain : ∀ c ∈ ("var " ++ s ++ ":").toList, IsUnquoted c ∧ c ≠ '\n' := by
    have haround : ∀ c ∈ "var :".toList, IsUnquoted c ∧ c ≠ '\n' := by simp [IsUnquoted]
    have hname : ∀ c ∈ s.toList, IsUnquoted c ∧ c ≠ '\n' := by
      intro c hc
      refine ⟨isUnquoted_of_isWordPart (hpart c hc), ?_⟩
      rintro rfl
      exact absurd (hpart _ hc) (by decide)
    have hparts : ("var " ++ s ++ ":").toList = "var ".toList ++ s.toList ++ ":".toList := by simp
    intro c hc
    rw [hparts, List.mem_append, List.mem_append] at hc
    rcases hc with (hc | hc) | hc
    · exact haround c (List.mem_append_left ":".toList hc)
    · exact hname c hc
    · exact haround c (List.mem_append_right "var ".toList hc)
  have hline : Statement.Spells ("var " ++ s ++ ":").toList (some (.declaration { name := s, domain := [] })) := by
    have hwhite : Text.White [' '] := by
      intro c hc
      rw [List.mem_singleton.mp hc]
      decide
    have hempty : Text.White [] := by
      intro c hc
      cases hc
    have hdeclared := Statement.Spells.declaration hempty hwhite (List.cons_ne_nil _ _) h hempty .nil .nil
    rwa [← htext, String.ofList_toList] at hdeclared
  have hlines : Spells (uncommented ("var " ++ s ++ ":")) ⟨[{ name := s, domain := [] }], []⟩ := by
    rw [uncommented_of_plain (by simp) hplain]
    exact .declaration hline .nil
  rw [parse_of_spells hlines]
  rfl

/-- The names that problem texts can declare are the words. -/
theorem exists_parse_declares_iff {s : String} :
    (∃ text p, parse text = .ok p ∧ s ∈ p.vars.map (·.name)) ↔ isIdentifier s.toList = true := by
  constructor
  · rintro ⟨text, p, hparse, hs⟩
    exact isIdentifier_of_parse hparse hs
  · intro h
    exact ⟨_, _, parse_declaration h, List.mem_cons_self⟩

/-- **Declared variables can be mentioned, unless their names are keywords.** What problem texts can declare is what
`isIdentifier` accepts. It agrees with the reading of tokens on `s` exactly if `s` is no keyword, and these are the
names among the declared ones that are expressions by themselves and that occur in expressions at all. -/
theorem declared_mentioned (s : String) :
    ((∃ text p, parse text = .ok p ∧ s ∈ p.vars.map (·.name)) ↔ isIdentifier s.toList = true) ∧
      ((isIdentifier s.toList = true ↔ ∃ i, Token.readAll s.toList = .ok [⟨i, .ident s⟩]) ↔
        Keyword.ofWord? s = none) ∧
      (Expr.parse s = .ok (.ident s) ↔ isIdentifier s.toList = true ∧ Keyword.ofWord? s = none) ∧
      ((∃ text e, Expr.parse text = .ok e ∧ s ∈ e.names) ↔
        isIdentifier s.toList = true ∧ Keyword.ofWord? s = none) := by
  refine ⟨exists_parse_declares_iff, ?_, ?_, ?_⟩
  · rw [Token.readAll_eq_ident_iff]
    constructor
    · intro hagree
      cases hkeyword : Keyword.ofWord? s with
      | none => rfl
      | some k =>
          -- A keyword is a word and would have to be a name.
          have hword : isIdentifier s.toList = true :=
            isIdentifier_iff_isWord.mpr (Token.isWord_of_ofWord? hkeyword)
          have hname : Token.IsName s := hagree.mp hword
          rw [hname.not_keyword] at hkeyword
          cases hkeyword
    · intro hkeyword
      rw [Token.isName_iff, and_iff_left hkeyword]
  · rw [Expr.parse_eq_ident_iff, Token.isName_iff]
  · rw [Expr.exists_parse_mentions_iff, Token.isName_iff]

/-- A variable can be declared by a keyword, which is neither read as a name nor as an expression. -/
theorem declared_keyword :
    parse "var in: 0 1" = .ok { vars := [{ name := "in", domain := [.int 0, .int 1] }] } ∧
      isIdentifier "in".toList = true ∧
      (¬ ∃ i, Token.readAll "in".toList = .ok [⟨i, .ident "in"⟩]) ∧
      Expr.parse "in" ≠ .ok (.ident "in") := by
  have hdeclared : parse "var in: 0 1" = .ok { vars := [{ name := "in", domain := [.int 0, .int 1] }] } := by cbv
  have hname : ¬ Token.IsName "in" := by
    intro h
    exact absurd h.not_keyword (by decide)
  refine ⟨hdeclared, rfl, ?_, ?_⟩
  · intro hread
    exact hname (Token.readAll_eq_ident_iff.mp hread)
  · intro hparse
    exact hname (Expr.parse_eq_ident_iff.mp hparse)

end Problem

end FiniteDomain
