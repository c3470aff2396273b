import FiniteDomain.Problem.Text
import FiniteDomain.Proofs.Syntax.Margins
import FiniteDomain.Proofs.Syntax.Printing

/-!
# Comments after constraints

Where a comment starts is decided without reading tokens: a quote opens a text, and the same quote closes it. A
backslash is like any other character there, while between the quotes of a token it hides the quote after it. So the
two readings of a line part ways on some texts with escaped quotes.

A constraint can be followed by a comment exactly if its text is `Balanced`, which is the first reading put as a
grammar (`parse_constraint_comment_iff`). In a text without backslashes the two readings agree (`balanced_of_lexes`).
-/

namespace FiniteDomain

namespace Statement

/-- No quote opens or closes a text here, and no comment starts here. -/
def IsUnquoted (c : Char) : Prop :=
  c ≠ '"' ∧ c ≠ '\x27' ∧ c ≠ '#'

/-- Every quote is closed by the next one of its kind, and every `#` stands between two such quotes. -/
inductive Balanced : List Char → Prop where
  | nil : Balanced []
  | unquoted {c : Char} {cs : List Char} (h : IsUnquoted c) : Balanced cs → Balanced (c :: cs)
  | quoted {quote : Char} {body cs : List Char} (hquote : quote = '"' ∨ quote = '\x27')
      (hbody : quote ∉ body) : Balanced cs → Balanced (quote :: (body ++ quote :: cs))

/-! ## Where a comment starts -/

theorem stripCommentFrom_append {quote : Char} {body : List Char} (h : quote ∉ body) (cs : List Char) :
    stripCommentFrom (some quote) (body ++ cs) = body ++ stripCommentFrom (some quote) cs := by
  induction body with
  | nil => rfl
  | cons c body ih =>
      have hc : c ≠ quote := fun he => h (he ▸ List.mem_cons_self)
      have hbody : quote ∉ body := fun hmem => h (List.mem_cons_of_mem c hmem)
      rw [List.cons_append, stripCommentFrom, if_neg hc, ih hbody]
      rfl

theorem stripComment_of_isUnquoted {c : Char} (h : IsUnquoted c) (cs : List Char) :
    stripComment (c :: cs) = c :: stripComment cs := by
  obtain ⟨hdouble, hsingle, hhash⟩ := h
  simp [stripComment, stripCommentFrom, hdouble, hsingle, hhash]

theorem stripComment_of_quote {quote : Char} (h : quote = '"' ∨ quote = '\x27') (cs : List Char) :
    stripComment (quote :: cs) = quote :: stripCommentFrom (some quote) cs := by
  rcases h with rfl | rfl <;> rfl

theorem stripCommentFrom_close (quote : Char) (cs : List Char) :
    stripCommentFrom (some quote) (quote :: cs) = quote :: stripComment cs := by
  simp [stripComment, stripCommentFrom]

/-- A comment starts after a balanced text as it would start by itself. -/
theorem Balanced.stripComment_append {cs : List Char} (h : Balanced cs) (ds : List Char) :
    stripComment (cs ++ ds) = cs ++ stripComment ds := by
  induction h with
  | nil => rfl
  | unquoted hc _ ih => rw [List.cons_append, stripComment_of_isUnquoted hc, ih, List.cons_append]
  | quoted hquote hbody _ ih =>
      rw [List.cons_append, List.append_assoc, List.cons_append, stripComment_of_quote hquote,
        stripCommentFrom_append hbody, stripCommentFrom_close, ih, List.cons_append, List.append_assoc,
        List.cons_append]

theorem Balanced.append {as bs : List Char} (h : Balanced as) (h' : Balanced bs) : Balanced (as ++ bs) := by
  induction h with
  | nil => exact h'
  | unquoted hc _ ih => exact .unquoted hc ih
  | quoted hquote hbody _ ih =>
      rw [List.cons_append, List.append_assoc, List.cons_append]
      exact .quoted hquote hbody ih

/-- How a text ends for the characters after it: balanced, before its own end at a `#`, or inside quotes. -/
inductive Ending (cs : List Char) : Prop where
  | balanced (h : Balanced cs)
  | cut (front back : List Char) (hcut : cs = front ++ '#' :: back)
      (hstrip : ∀ ds, stripComment (cs ++ ds) = front)
  | inside {quote : Char} (hquote : quote = '"' ∨ quote = '\x27')
      (hstrip : ∀ ds, stripComment (cs ++ ds) = cs ++ stripCommentFrom (some quote) ds)

/-- A balanced text before another one does not change how that one ends. -/
theorem Ending.after {front cs : List Char} (h : Ending cs) (hfront : Balanced front) :
    Ending (front ++ cs) := by
  have hstep : ∀ ds, stripComment (front ++ cs ++ ds) = front ++ stripComment (cs ++ ds) := by
    intro ds
    rw [List.append_assoc, hfront.stripComment_append]
  cases h with
  | balanced h => exact .balanced (hfront.append h)
  | cut before back hcut hstrip =>
      refine .cut (front ++ before) back (by rw [hcut, List.append_assoc]) fun ds => ?_
      rw [hstep, hstrip]
  | inside hquote hstrip =>
      refine .inside hquote fun ds => ?_
      rw [hstep, hstrip, List.append_assoc]

theorem ending (n : Nat) (cs : List Char) (hn : cs.length ≤ n) : Ending cs := by
  induction n generalizing cs with
  | zero =>
      obtain rfl : cs = [] := List.length_eq_zero_iff.mp (Nat.le_zero.mp hn)
      exact .balanced .nil
  | succ n ih =>
      cases cs with
      | nil => exact .balanced .nil
      | cons c cs =>
          have hcs : cs.length ≤ n := Nat.le_of_succ_le_succ hn
          by_cases hquote : c = '"' ∨ c = '\x27'
          · by_cases hclosed : c ∈ cs
            · obtain ⟨body, rest, rfl, hbody⟩ := List.eq_append_cons_of_mem hclosed
              have hrest : rest.length ≤ n := by
                simp only [List.length_append, List.length_cons] at hcs
                omega
              have hafter := (ih rest hrest).after (.quoted hquote hbody .nil)
              rwa [List.cons_append, List.append_assoc] at hafter
            · -- Without a second quote the text runs on into what comes after it.
              refine .inside hquote fun ds => ?_
              rw [List.cons_append, stripComment_of_quote hquote, stripCommentFrom_append hclosed,
                List.cons_append]
          · by_cases hhash : c = '#'
            · rw [hhash]
              exact .cut [] cs rfl fun ds => rfl
            · have hc : IsUnquoted c := ⟨fun h => hquote (.inl h), fun h => hquote (.inr h), hhash⟩
              exact (ih cs hcs).after (.unquoted hc .nil)

end Statement

/-! ## Texts without backslashes -/

namespace Statement

theorem balanced_of_unquoted {cs : List Char} (h : ∀ c ∈ cs, IsUnquoted c) : Balanced cs := by
  induction cs with
  | nil => exact .nil
  | cons c cs ih =>
      exact .unquoted (h c List.mem_cons_self) (ih fun d hd => h d (List.mem_cons_of_mem c hd))

theorem isUnquoted_of_isWordPart {c : Char} (h : Token.isWordPart c = true) : IsUnquoted c := by
  refine ⟨?_, ?_, ?_⟩
  all_goals
    rintro rfl
    exact absurd h (by decide)

theorem isUnquoted_of_isWhiteSpace {c : Char} (h : Text.isWhiteSpace c = true) : IsUnquoted c := by
  refine ⟨?_, ?_, ?_⟩
  all_goals
    rintro rfl
    exact absurd h (by decide)

theorem isUnquoted_of_symbolOfChar? {c : Char} {s : Symbol} (h : Token.symbolOfChar? c = some s) :
    IsUnquoted c := by
  unfold Token.symbolOfChar? at h
  split at h <;> first | exact ⟨by decide, by decide, by decide⟩ | cases h

theorem isUnquoted_of_symbolOfPair? {c d : Char} {s : Symbol} (h : Token.symbolOfPair? c d = some s) :
    IsUnquoted c ∧ IsUnquoted d := by
  unfold Token.symbolOfPair? at h
  split at h <;> first | exact ⟨⟨by decide, by decide, by decide⟩, by decide, by decide, by decide⟩ | cases h

/-- Without backslashes a token runs to the next quote too. -/
theorem eq_append_of_readQuoted {quote : Char} {cs s rest : List Char} {width : Nat} (hb : '\\' ∉ cs)
    (h : Token.readQuoted quote cs = some (s, width, rest)) : cs = s ++ quote :: rest ∧ quote ∉ s := by
  fun_induction Token.readQuoted quote cs generalizing s width rest with
  | case1 => cases h
  | case2 cs =>
      cases h
      exact ⟨rfl, List.not_mem_nil⟩
  | case3 => cases h
  | case4 => exact absurd List.mem_cons_self hb
  | case5 => cases h
  | case6 c cs hne _ s' width' rest' hcs ih =>
      cases h
      obtain ⟨heq, hmem⟩ := ih (fun h => hb (List.mem_cons_of_mem c h)) hcs
      refine ⟨congrArg (c :: ·) heq, ?_⟩
      intro hquote
      rcases List.mem_cons.mp hquote with rfl | hquote
      · exact hne rfl
      · exact hmem hquote
  | case7 => cases h

/-- The characters of a token, which come before the rest. -/
theorem balanced_of_read {c : Char} {cs : List Char} {r : Token.Reading} (hb : '\\' ∉ cs)
    (h : Token.read c cs = .ok r) : ∃ front, c :: cs = front ++ r.rest ∧ Balanced front := by
  have hspan : ∀ p : Char → Bool, (∀ d, p d = true → IsUnquoted d) →
      c :: cs = (c :: cs).takeWhile p ++ (c :: cs).dropWhile p ∧ Balanced ((c :: cs).takeWhile p) := by
    intro p hp
    refine ⟨List.takeWhile_append_dropWhile.symm, balanced_of_unquoted fun d hd => ?_⟩
    exact hp d (Token.of_mem_takeWhile hd)
  unfold Token.read at h
  split at h
  · unfold Token.readNumber at h
    dsimp only at h
    split at h
    · cases h
      exact ⟨_, hspan Char.isDigit fun d hd => isUnquoted_of_isWordPart (Token.isWordPart_of_isDigit hd)⟩
    · cases h
  · split at h
    · next hquote =>
      unfold Token.readString at h
      split at h
      · next s width rest hquoted =>
        cases h
        obtain ⟨rfl, hmem⟩ := eq_append_of_readQuoted hb hquoted
        have hq : c = '"' ∨ c = '\x27' := by simpa using hquote
        refine ⟨c :: (s ++ [c]), ?_, .quoted hq hmem .nil⟩
        simp
      · cases h
    · split at h
      · cases h
        exact ⟨_, hspan Token.isWordPart fun d hd => isUnquoted_of_isWordPart hd⟩
      · have hshort : ∀ ds, Token.readShortSymbol c ds = .ok r →
            c :: ds = [c] ++ r.rest ∧ Balanced [c] := by
          intro ds hread
          unfold Token.readShortSymbol at hread
          split at hread
          · next hs =>
            cases hread
            exact ⟨rfl, .unquoted (isUnquoted_of_symbolOfChar? hs) .nil⟩
          · cases hread
        unfold Token.readSymbol at h
        split at h
        · exact ⟨_, hshort [] h⟩
        · next d ds =>
          split at h
          · next hs =>
            cases h
            obtain ⟨hc, hd⟩ := isUnquoted_of_symbolOfPair? hs
            exact ⟨[c, d], rfl, .unquoted hc (.unquoted hd .nil)⟩
          · exact ⟨_, hshort (d :: ds) h⟩

/-- A text of tokens is balanced if it has no backslash. -/
theorem balanced_of_lexes {cs : List Char} {ts : List Token} (h : Token.Lexes cs ts) (hb : '\\' ∉ cs) :
    Balanced cs := by
  induction h with
  | nil => exact .nil
  | @white c cs ts hc _ ih =>
      exact .unquoted (isUnquoted_of_isWhiteSpace hc) (ih fun h => hb (List.mem_cons_of_mem c h))
  | @token c cs ts r hc hread _ ih =>
      have hcs : '\\' ∉ cs := fun h => hb (List.mem_cons_of_mem c h)
      obtain ⟨front, heq, hfront⟩ := balanced_of_read hcs hread
      rw [heq] at hb ⊢
      exact hfront.append (ih fun h => hb (List.mem_append_right front h))

/-! ## Lines with a constraint -/

theorem ofDirective_constraint (ds : List Char) :
    ofDirective 0 "constraint".toList (' ' :: ds)
      = ((Constraint.parse (String.ofList (Text.trim ds))).map .constraint).mapError
          fun e => (e.shift (Text.margin (' ' :: ds))).shift 10 := by
  have htrim : Text.trim (' ' :: ds) = Text.trim ds := rfl
  unfold ofDirective readConstraint
  rw [if_neg (by decide), if_pos (by decide), htrim]
  cases Constraint.parse (String.ofList (Text.trim ds)) <;> rfl

theorem ofUncommented_constraint (ds : List Char) :
    ofUncommented ("constraint".toList ++ ' ' :: ds)
      = (ofDirective 0 "constraint".toList (' ' :: ds)).map some := by
  have htext : Text.trimStart ("constraint".toList ++ ' ' :: ds) = "constraint".toList ++ ' ' :: ds := rfl
  have hmargin : Text.margin ("constraint".toList ++ ' ' :: ds) = 0 := rfl
  have hword : ("constraint".toList ++ ' ' :: ds).takeWhile (!Text.isWhiteSpace ·)
      = "constraint".toList := rfl
  have hrest : ("constraint".toList ++ ' ' :: ds).dropWhile (!Text.isWhiteSpace ·) = ' ' :: ds := rfl
  unfold ofUncommented
  rw [htext, hmargin]
  dsimp only
  rw [hword, hrest, if_neg (by simp)]
  cases ofDirective 0 "constraint".toList (' ' :: ds) <;> rfl

end Statement

namespace Problem

open Statement

/-- The problem of a line with a constraint is the constraint of what stands before the comment. -/
theorem parse_constraint_line {s : String} {ds : List Char}
    (hs : s.toList = "constraint".toList ++ ' ' :: ds) (hds : '\n' ∉ ds) (c : Constraint) :
    parse s = .ok { constraints := [c] }
      ↔ Constraint.parse (String.ofList (Text.trim (stripComment ds))) = .ok c := by
  have hlines : Text.lines s.toList = [s.toList] := by
    rw [hs]
    exact Text.lines_of_no_newline (by simp) (by simp [hds])
  have hline : ofLine s.toList = ofUncommented ("constraint".toList ++ ' ' :: stripComment ds) := by
    rw [hs]
    rfl
  rw [ofUncommented_constraint, ofDirective_constraint] at hline
  cases hparse : Constraint.parse (String.ofList (Text.trim (stripComment ds))) with
  | error e =>
      have hresult : parse s
          = .error (.line 1 ((e.shift (Text.margin (' ' :: stripComment ds))).shift 10)) := by
        rw [parse, hlines, readLines, hline, hparse]
        rfl
      rw [hresult]
      constructor
      · intro h
        cases h
      · intro h
        cases h
  | ok c' =>
      have hresult : parse s = .ok { constraints := [c'] } := by
        rw [parse, hlines, readLines, hline, hparse]
        rfl
      rw [hresult]
      constructor
      · intro h
        cases h
        rfl
      · intro h
        cases h
        rfl

theorem constraint_parse_of_spells {s : String} {e : Expr}
    (h : Expr.Spells (.expr .disjunction e) s.toList) :
    Constraint.parse s = .ok { source := s, expr := e } := by
  rw [Constraint.parse, Expr.parse_eq_ok_iff.mpr h]
  rfl

/-- The constraint of a text without the white space around it. -/
theorem constraint_parse_trim {s : String} {c : Constraint} (h : Constraint.parse s = .ok c) :
    Constraint.parse (String.ofList (Text.trim s.toList))
      = .ok { c with source := String.ofList (Text.trim s.toList) } := by
  obtain ⟨e, hparse, hc⟩ := Expr.of_bind_eq_ok h
  cases hc
  obtain ⟨ts, hlexes, hderives⟩ := Expr.parse_eq_ok_iff.mp hparse
  refine constraint_parse_of_spells ⟨ts, ?_, hderives⟩
  rw [String.toList_ofList]
  exact hlexes.trim

theorem source_of_parse {s : String} {c : Constraint} (h : Constraint.parse s = .ok c) :
    c.source = s := by
  obtain ⟨e, -, hc⟩ := Expr.of_bind_eq_ok h
  cases hc
  rfl

/-- If the text before the comment is trimmed to the constraint, every `#` in it belongs to the constraint. -/
theorem balanced_of_trim_eq {cs ds : List Char}
    (h : Text.trim (stripComment (cs ++ ' ' :: '#' :: ds)) = Text.trim cs) : Balanced cs := by
  have hwhite : Text.isWhiteSpace '#' = false := by decide
  have hcount : (stripComment (cs ++ ' ' :: '#' :: ds)).count '#' = cs.count '#' := by
    rw [← Text.count_trim hwhite, h, Text.count_trim hwhite]
  cases ending cs.length cs (Nat.le_refl _) with
  | balanced h => exact h
  | cut front back hcut hstrip =>
      rw [hstrip, hcut, List.count_append, List.count_cons_self] at hcount
      omega
  | @inside quote hquote hstrip =>
      have hrest : stripCommentFrom (some quote) (' ' :: '#' :: ds)
          = ' ' :: '#' :: stripCommentFrom (some quote) ds := by
        rcases hquote with rfl | rfl <;> rfl
      rw [hstrip, hrest, List.count_append, List.count_cons_of_ne (by decide), List.count_cons_self] at hcount
      omega

theorem trim_stripComment_of_balanced {cs : List Char} (h : Balanced cs) (ds : List Char) :
    Text.trim (stripComment (cs ++ ' ' :: '#' :: ds)) = Text.trim cs := by
  rw [h.stripComment_append]
  exact Text.trim_append_singleton (by decide) cs

/-- A line with a constraint and a comment is read as the constraint exactly if the text of the constraint is balanced,
which it is if it has no backslash. -/
theorem parse_constraint_comment_iff {s : String} {c : Constraint} (hc : Constraint.parse s = .ok c)
    (hs : '\n' ∉ s.toList) :
    (∀ t : String, '\n' ∉ t.toList →
      (parse ("constraint " ++ s ++ " #" ++ t)
          = .ok { constraints := [{ c with source := String.ofList (Text.trim s.toList) }] }
        ↔ Balanced s.toList)) ∧
    ('\\' ∉ s.toList → Balanced s.toList) := by
  constructor
  · intro t ht
    have htext : ("constraint " ++ s ++ " #" ++ t).toList
        = "constraint".toList ++ ' ' :: (s.toList ++ ' ' :: '#' :: t.toList) := by
      simp [String.toList_append]
    have hline : '\n' ∉ s.toList ++ ' ' :: '#' :: t.toList := by
      simp [hs, ht]
    rw [parse_constraint_line htext hline]
    constructor
    · intro h
      have hsource := source_of_parse h
      exact balanced_of_trim_eq (String.ofList_injective hsource.symm)
    · intro h
      rw [trim_stripComment_of_balanced h]
      exact constraint_parse_trim hc
  · intro hb
    obtain ⟨e, hparse, -⟩ := Expr.of_bind_eq_ok hc
    obtain ⟨ts, hlexes, -⟩ := Expr.parse_eq_ok_iff.mp hparse
    exact balanced_of_lexes hlexes hb

/-- The name `A` compared with a text, which the two texts below are the printed forms of. -/
theorem spells_equation {w : String} (h : ∀ c ∈ w.toList, Token.IsReadable c) :
    Expr.Spells (.expr .disjunction (.binary .eq (.ident "A") (.literal (.str w))))
      (Expr.binary .eq (.ident "A") (.literal (.str w))).chars := by
  have hname : Token.IsName "A" := ⟨Token.isWord_of_all rfl (by decide) (by decide), by decide⟩
  have hequation := Expr.spells_chars (e := .binary .eq (.ident "A") (.literal (.str w)))
    (.binary trivial (.ident hname) (.literal trivial)) (.binary trivial (.ident trivial) (.literal h))
  exact hequation.loosen (Nat.zero_le _)

/-- A quoted `#` and a comment after it. -/
theorem parse_quoted_hash_comment :
    parse ("constraint " ++ "A == \"#\"" ++ " #" ++ "c")
      = .ok { constraints := [{ source := String.ofList (Text.trim "A == \"#\"".toList),
                                expr := .binary .eq (.ident "A") (.literal (.str "#")) }] } := by
  have hreadable : ∀ c ∈ "#".toList, Token.IsReadable c := by
    intro c hmem
    rw [List.mem_singleton.mp hmem]
    exact .inl (by decide)
  have hc := constraint_parse_of_spells (s := "A == \"#\"") (spells_equation hreadable)
  obtain ⟨hiff, hbalanced⟩ := parse_constraint_comment_iff hc (by decide)
  exact (hiff "c" (by decide)).mpr (hbalanced (by decide))

/-- After an escaped quote the comment is taken for a part of the text. -/
theorem parse_escaped_quote_comment :
    Constraint.parse "A == \"\\\"\""
        = .ok { source := "A == \"\\\"\"", expr := .binary .eq (.ident "A") (.literal (.str "\"")) } ∧
      parse ("constraint " ++ "A == \"\\\"\"" ++ " #" ++ "c")
        ≠ .ok { constraints := [{ source := String.ofList (Text.trim "A == \"\\\"\"".toList),
                                  expr := .binary .eq (.ident "A") (.literal (.str "\"")) }] } := by
  have hreadable : ∀ c ∈ "\"".toList, Token.IsReadable c := by
    intro c hmem
    rw [List.mem_singleton.mp hmem]
    exact .inr (.inl rfl)
  refine ⟨constraint_parse_of_spells (spells_equation hreadable), ?_⟩
  have htext : ("constraint " ++ "A == \"\\\"\"" ++ " #" ++ "c").toList
      = "constraint".toList ++ ' ' :: "A == \"\\\"\" #c".toList := by decide
  intro h
  -- The constraint would have to be given by the text with the comment.
  have hsource := source_of_parse ((parse_constraint_line htext (by decide) _).mp h)
  exact absurd (String.ofList_injective hsource) (by decide)

end Problem

end FiniteDomain
