import Mathlib
import FiniteDomain.Problem.Text
import FiniteDomain.Proofs.Problem.Domains
import FiniteDomain.Proofs.Problem.Repetitions
import FiniteDomain.Proofs.Syntax.Margins

/-!
# The format of problem texts

`Text.Lines` says what the lines of a text are. A line without its comment is blank, or a directive between white space:
`var` with a name, a colon and a domain, or `constraint` with the text of a constraint. `Statement.Spells` is this
grammar, and a line is read exactly as it says (`ofUncommented_eq_ok_iff`). `Problem.Spells` puts together what the
lines say, one after the other. A text is read as a problem exactly if its lines spell it and nothing in it is repeated;
otherwise the first line that is not in the grammar is reported, and the first repetition only if there is no such line
(`parse_spells`).
-/

namespace FiniteDomain

/-! ## Lines -/

namespace Text

/-- The lines of a text. A line ends with a line feed or with a carriage return and a line feed; the last one may end
with the text, if there is anything in it. -/
inductive Lines : List Char → List (List Char) → Prop where
  | nil : Lines [] []
  | last {line : List Char} : line ≠ [] → '\n' ∉ line → Lines line [line]
  | feed {line rest : List Char} {lines : List (List Char)} :
      '\n' ∉ line → line.getLast? ≠ some '\r' → Lines rest lines → Lines (line ++ '\n' :: rest) (line :: lines)
  | returnFeed {line rest : List Char} {lines : List (List Char)} :
      '\n' ∉ line → Lines rest lines → Lines (line ++ '\r' :: '\n' :: rest) (line :: lines)

/-- A text is cut into its lines. -/
theorem lines_eq_of_lines {cs : List Char} {ls : List (List Char)} (h : Lines cs ls) : lines cs = ls := by
  induction h with
  | nil => rfl
  | last hne hline => exact lines_of_no_newline hne hline
  | feed hline hlast _ ih => rw [lines_append hline, dropCarriageReturn, if_neg hlast, ih]
  | @returnFeed line rest ls hline _ ih =>
      have hreturn : '\n' ∉ line ++ ['\r'] := by simpa using hline
      have hsplit : line ++ '\r' :: '\n' :: rest = (line ++ ['\r']) ++ '\n' :: rest := by simp
      rw [hsplit, lines_append hreturn, dropCarriageReturn, if_pos List.getLast?_concat, List.dropLast_concat, ih]

/-- Every text has lines. -/
theorem exists_lines (cs : List Char) : ∃ ls, Lines cs ls := by
  induction hlength : cs.length using Nat.strong_induction_on generalizing cs with
  | _ n ih =>
      by_cases hmem : '\n' ∈ cs
      · obtain ⟨line, rest, rfl, hline⟩ := List.eq_append_cons_of_mem hmem
        have hshorter : rest.length < n := by
          rw [List.length_append, List.length_cons] at hlength
          omega
        obtain ⟨ls, hls⟩ := ih rest.length hshorter rest rfl
        by_cases hlast : line.getLast? = some '\r'
        · obtain ⟨front, rfl⟩ := List.getLast?_eq_some_iff.mp hlast
          rw [List.append_assoc]
          exact ⟨front :: ls, .returnFeed (fun h => hline (List.mem_append_left _ h)) hls⟩
        · exact ⟨line :: ls, .feed hline hlast hls⟩
      · cases cs with
        | nil => exact ⟨[], .nil⟩
        | cons c cs => exact ⟨[c :: cs], .last (List.cons_ne_nil c cs) hmem⟩

/-- The lines of a text are what it is cut into. -/
theorem lines_eq_iff {cs : List Char} {ls : List (List Char)} : lines cs = ls ↔ Lines cs ls := by
  refine ⟨fun h => ?_, lines_eq_of_lines⟩
  obtain ⟨ls', hls'⟩ := exists_lines cs
  rw [← h, lines_eq_of_lines hls']
  exact hls'

end Text

namespace Statement

open Text

/-! ## The grammar of lines -/

/-- What a line without comment says, if anything. -/
inductive Spells : List Char → Option Statement → Prop where
  | blank {line : List Char} : White line → Spells line none
  | declaration {margin gap name space after : List Char} {ts : List Token} {vs : List Value} :
      White margin → White gap → gap ≠ [] → isIdentifier name = true → White space →
        Token.Lexes after ts → Domain.Spells ts vs →
          Spells (margin ++ ("var".toList ++ (gap ++ name ++ space ++ ':' :: after)))
            (some (.declaration { name := String.ofList name, domain := vs }))
  | constraint {margin gap text trail : List Char} {c : Constraint} :
      White margin → White gap → gap ≠ [] → trim text = text → White trail →
        Constraint.parse (String.ofList text) = .ok c →
          Spells (margin ++ ("constraint".toList ++ (gap ++ text ++ trail))) (some (.constraint c))

/-! ## Declarations and constraints -/

/-- A name is made of characters of words. -/
theorem isWordPart_of_isIdentifier {name : List Char} (h : isIdentifier name = true) :
    ∀ c ∈ name, Token.isWordPart c = true := by
  cases name with
  | nil => cases h
  | cons c cs =>
      obtain ⟨hc, hcs⟩ := Bool.and_eq_true_iff.mp h
      intro d hd
      rcases List.mem_cons.mp hd with rfl | hd
      · exact Token.isWordPart_of_isWordStart hc
      · exact List.all_eq_true.mp hcs d hd

theorem ne_nil_of_isIdentifier {name : List Char} (h : isIdentifier name = true) : name ≠ [] := by
  rintro rfl
  cases h

theorem isWhiteSpace_of_isWordPart {c : Char} (h : Token.isWordPart c = true) : isWhiteSpace c = false := by
  by_contra hwhite
  rw [Token.isWordPart_of_isWhiteSpace (Bool.eq_true_of_not_eq_false hwhite)] at h
  cases h

/-- What the text after `var` is read as is declared by a name, a colon and a domain. -/
theorem exists_of_readDeclaration {cs : List Char} {v : Variable} (h : readDeclaration cs = .ok v) :
    ∃ gap name space after ts vs, White gap ∧ isIdentifier name = true ∧ White space ∧ Token.Lexes after ts ∧
      Domain.Spells ts vs ∧ cs = gap ++ name ++ space ++ ':' :: after ∧
        v = { name := String.ofList name, domain := vs } := by
  unfold readDeclaration at h
  dsimp only at h
  split at h
  · cases h
  · next colon after hdrop =>
    obtain ⟨rfl, hsplit⟩ := Token.of_dropWhile_ne hdrop
    split at h
    · next hname =>
      cases hdomain : Domain.parse after with
      | error e =>
          rw [hdomain] at h
          cases h
      | ok vs =>
          rw [hdomain] at h
          obtain ⟨ts, hlexes, hspells⟩ := Domain.parse_eq_ok_iff.mp hdomain
          obtain ⟨gap, space, hgap, hspace, heq⟩ := exists_trim (cs.takeWhile (· ≠ ':'))
          rw [heq] at hsplit
          exact ⟨gap, _, space, after, ts, vs, hgap, hname, hspace, hlexes, hspells, hsplit.symm,
            (Except.ok.inj h).symm⟩
    · cases h

/-- A name, a colon and a domain after `var` are read as a variable. -/
theorem readDeclaration_of_spells {gap name space after : List Char} {ts : List Token} {vs : List Value}
    (hgap : White gap) (hname : isIdentifier name = true) (hspace : White space) (hlexes : Token.Lexes after ts)
    (hspells : Domain.Spells ts vs) :
    readDeclaration (gap ++ name ++ space ++ ':' :: after) = .ok { name := String.ofList name, domain := vs } := by
  have hpart := isWordPart_of_isIdentifier hname
  have hcolon : ∀ c ∈ gap ++ name ++ space, decide (c ≠ ':') = true := by
    intro c hc
    rw [decide_eq_true_eq]
    rintro rfl
    simp only [List.mem_append] at hc
    rcases hc with (hc | hc) | hc
    · exact absurd (hgap _ hc) (by decide)
    · exact absurd (hpart _ hc) (by decide)
    · exact absurd (hspace _ hc) (by decide)
  have hstops : ∀ c ds, ':' :: after = c :: ds → decide (c ≠ ':') = false := by
    rintro c ds h
    cases h
    rfl
  obtain ⟨htake, hdrop⟩ := Token.span_append hcolon hstops
  have htrim : trim (gap ++ name ++ space) = name := by
    rw [trim_between hgap hspace, trim_eq_self fun c hc => isWhiteSpace_of_isWordPart (hpart c hc)]
  simp only [readDeclaration, htake, hdrop, htrim, hname, if_true, Domain.parse_eq_ok_iff.mpr ⟨ts, hlexes, hspells⟩]

/-- The text after `constraint` is read as the constraint that its trimmed form spells. -/
theorem readConstraint_eq_ok_iff {cs : List Char} {c : Constraint} :
    readConstraint cs = .ok c ↔ ∃ gap text trail, White gap ∧ trim text = text ∧ White trail ∧
      Constraint.parse (String.ofList text) = .ok c ∧ cs = gap ++ text ++ trail := by
  have hread : readConstraint cs = .ok c ↔ Constraint.parse (String.ofList (trim cs)) = .ok c := by
    unfold readConstraint
    cases Constraint.parse (String.ofList (trim cs)) <;> simp
  rw [hread]
  constructor
  · intro h
    obtain ⟨gap, trail, hgap, htrail, heq⟩ := exists_trim cs
    exact ⟨gap, trim cs, trail, hgap, trim_trim cs, htrail, h, heq⟩
  · rintro ⟨gap, text, trail, hgap, htext, htrail, h, rfl⟩
    rwa [trim_between hgap htrail, htext]

/-! ## Directives -/

/-- The word at the front of a text ends at the end of the text or before white space. -/
def Ends (rest : List Char) : Prop :=
  ∀ c ds, rest = c :: ds → isWhiteSpace c = true

/-- A line with a first word is read as its directive. -/
theorem ofUncommented_of_word {margin word rest : List Char} (hmargin : White margin) (hne : word ≠ [])
    (hword : word.all (!isWhiteSpace ·) = true) (hrest : Ends rest) {s : Option Statement} :
    ofUncommented (margin ++ (word ++ rest)) = .ok s ↔
      ∃ t, ofDirective (Text.margin (margin ++ (word ++ rest))) word rest = .ok t ∧ s = some t := by
  have hall : ∀ c ∈ word, (!isWhiteSpace c) = true := List.all_eq_true.mp hword
  have htext : trimStart (margin ++ (word ++ rest)) = word ++ rest := by
    obtain ⟨c, cs, rfl⟩ := List.exists_cons_of_ne_nil hne
    have hc : isWhiteSpace c = false := by simpa using hall c List.mem_cons_self
    rw [trimStart_white_append hmargin, List.cons_append, trimStart, List.dropWhile_cons, hc]
    rfl
  have hstops : ∀ c ds, rest = c :: ds → (!isWhiteSpace c) = false := by
    intro c ds h
    rw [hrest c ds h]
    rfl
  obtain ⟨htake, hdrop⟩ := Token.span_append hall hstops
  have hnonempty : (word ++ rest).isEmpty = false := by simp [hne]
  simp only [ofUncommented, htext, htake, hdrop, hnonempty]
  cases ofDirective (Text.margin (margin ++ (word ++ rest))) word rest <;> simp [eq_comm]

/-- What is read as a directive is a variable or a constraint. -/
theorem ofDirective_eq_ok_iff {offset : Nat} {word rest : List Char} {s : Statement} :
    ofDirective offset word rest = .ok s ↔
      (word = "var".toList ∧ ∃ v, readDeclaration rest = .ok v ∧ s = .declaration v) ∨
      (word = "constraint".toList ∧ ∃ c, readConstraint rest = .ok c ∧ s = .constraint c) := by
  unfold ofDirective
  constructor
  · intro h
    split at h
    · next hword =>
      split at h
      · next v hread =>
        cases h
        exact .inl ⟨hword, v, hread, rfl⟩
      · cases h
    · split at h
      · next hword =>
        split at h
        · next c hread =>
          cases h
          exact .inr ⟨hword, c, hread, rfl⟩
        · cases h
      · cases h
  · rintro (⟨rfl, v, hread, rfl⟩ | ⟨rfl, c, hread, rfl⟩)
    · rw [if_pos (by decide), hread]
    · rw [if_neg (by decide), if_pos (by decide), hread]

/-- A line is white space or has a first word. -/
theorem white_or_exists_word (line : List Char) :
    White line ∨ ∃ margin word rest, line = margin ++ (word ++ rest) ∧ White margin ∧ word ≠ [] ∧
      word.all (!isWhiteSpace ·) = true ∧ Ends rest := by
  have hmargin : White (line.takeWhile isWhiteSpace) := fun c hc => Token.of_mem_takeWhile hc
  have hsplit : line.takeWhile isWhiteSpace ++ line.dropWhile isWhiteSpace = line :=
    List.takeWhile_append_dropWhile
  have hhead := List.head?_dropWhile_not isWhiteSpace line
  cases htext : line.dropWhile isWhiteSpace with
  | nil =>
      rw [htext, List.append_nil] at hsplit
      exact .inl (hsplit ▸ hmargin)
  | cons c cs =>
      rw [htext] at hhead hsplit
      have hc : isWhiteSpace c = false := by simpa using hhead
      have hcut : (c :: cs).takeWhile (!isWhiteSpace ·) ++ (c :: cs).dropWhile (!isWhiteSpace ·) = c :: cs :=
        List.takeWhile_append_dropWhile
      refine .inr ⟨_, _, _, hsplit.symm.trans (congrArg _ hcut.symm), hmargin, ?_, List.all_takeWhile, ?_⟩
      · rw [List.takeWhile_cons, hc]
        exact List.cons_ne_nil _ _
      · intro d ds hd
        have hstop := List.head?_dropWhile_not (!isWhiteSpace ·) (c :: cs)
        rw [hd] at hstop
        simpa using hstop

theorem ends_append {gap : List Char} (hgap : White gap) (hne : gap ≠ []) (cs : List Char) : Ends (gap ++ cs) := by
  obtain ⟨g, gs, rfl⟩ := List.exists_cons_of_ne_nil hne
  rintro c ds h
  obtain ⟨rfl, -⟩ := List.cons.inj h
  exact hgap g List.mem_cons_self

/-- After a word, what does not start with white space has some before it. -/
theorem ne_nil_of_ends {gap cs : List Char} {c : Char} (h : Ends (gap ++ c :: cs)) (hc : isWhiteSpace c = false) :
    gap ≠ [] := by
  rintro rfl
  rw [h c cs rfl] at hc
  cases hc

/-- A constraint has a text. -/
theorem ne_nil_of_parse {text : List Char} {c : Constraint}
    (h : Constraint.parse (String.ofList text) = .ok c) : text ≠ [] := by
  rintro rfl
  have hempty : Constraint.parse (String.ofList []) = .error .unexpectedEnd := by cbv
  rw [hempty] at h
  cases h

/-- A line without comment is read exactly as the grammar says. -/
theorem ofUncommented_eq_ok_iff {line : List Char} {s : Option Statement} :
    ofUncommented line = .ok s ↔ Spells line s := by
  have hblank : ∀ line, White line → ofUncommented line = .ok none := by
    intro line hline
    have htext : trimStart line = [] := (Token.takeWhile_of_all hline).2
    simp [ofUncommented, htext]
  constructor
  · intro h
    rcases white_or_exists_word line with hline | ⟨margin, word, rest, rfl, hmargin, hne, hword, hrest⟩
    · rw [hblank line hline] at h
      cases h
      exact .blank hline
    · obtain ⟨t, hdirective, rfl⟩ := (ofUncommented_of_word hmargin hne hword hrest).mp h
      rcases ofDirective_eq_ok_iff.mp hdirective with ⟨rfl, v, hread, rfl⟩ | ⟨rfl, c, hread, rfl⟩
      · obtain ⟨gap, name, space, after, ts, vs, hgap, hname, hspace, hlexes, hspells, rfl, rfl⟩ :=
          exists_of_readDeclaration hread
        refine .declaration hmargin hgap ?_ hname hspace hlexes hspells
        obtain ⟨d, ds, rfl⟩ := List.exists_cons_of_ne_nil (ne_nil_of_isIdentifier hname)
        refine ne_nil_of_ends (by simpa using hrest) (isWhiteSpace_of_isWordPart ?_)
        exact isWordPart_of_isIdentifier hname d List.mem_cons_self
      · obtain ⟨gap, text, trail, hgap, htext, htrail, hparse, rfl⟩ := readConstraint_eq_ok_iff.mp hread
        refine .constraint hmargin hgap ?_ htext htrail hparse
        obtain ⟨d, ds, rfl⟩ := List.exists_cons_of_ne_nil (ne_nil_of_parse hparse)
        exact ne_nil_of_ends (by simpa using hrest) (isWhiteSpace_head_of_trim htext)
  · intro h
    cases h with
    | blank hline => exact hblank line hline
    | declaration hmargin hgap hne hname hspace hlexes hspells =>
        refine (ofUncommented_of_word hmargin (by decide) rfl ?_).mpr
          ⟨_, ofDirective_eq_ok_iff.mpr (.inl ⟨rfl, _, readDeclaration_of_spells hgap hname hspace hlexes hspells,
            rfl⟩), rfl⟩
        simpa using ends_append hgap hne _
    | constraint hmargin hgap hne htext htrail hparse =>
        refine (ofUncommented_of_word hmargin (by decide) rfl ?_).mpr
          ⟨_, ofDirective_eq_ok_iff.mpr (.inr ⟨rfl, _, readConstraint_eq_ok_iff.mpr
            ⟨_, _, _, hgap, htext, htrail, hparse, rfl⟩, rfl⟩), rfl⟩
        simpa using ends_append hgap hne _

end Statement

namespace Problem

open Variables

/-- The lines of a text without their comments. -/
def uncommented (s : String) : List (List Char) :=
  (Text.lines s.toList).map Statement.stripComment

/-- Every line is in the grammar, and the problem has the variables that they declare and the constraints that they
state, both in the order of the lines. -/
inductive Spells : List (List Char) → Problem → Prop where
  | nil : Spells [] ⟨[], []⟩
  | blank {line : List Char} {lines : List (List Char)} {p : Problem} :
      Statement.Spells line none → Spells lines p → Spells (line :: lines) p
  | declaration {line : List Char} {lines : List (List Char)} {v : Variable} {vars : List Variable}
      {constraints : List Constraint} :
      Statement.Spells line (some (.declaration v)) → Spells lines ⟨vars, constraints⟩ →
        Spells (line :: lines) ⟨v :: vars, constraints⟩
  | constraint {line : List Char} {lines : List (List Char)} {c : Constraint} {vars : List Variable}
      {constraints : List Constraint} :
      Statement.Spells line (some (.constraint c)) → Spells lines ⟨vars, constraints⟩ →
        Spells (line :: lines) ⟨vars, c :: constraints⟩

/-- The line at a position is the first that cannot be read. -/
structure FirstFault (lines : List (List Char)) (position : Nat) (cause : ParseError) : Prop where
  earlier : ∀ i < position, ∃ line st, lines[i]? = some line ∧ Statement.Spells line st
  fault : ∃ line, lines[position]? = some line ∧ Statement.ofUncommented line = .error cause

theorem readLines_cons_of_spells {line : List Char} {st : Option Statement}
    (h : Statement.Spells (Statement.stripComment line) st) (number : Nat) (lines : List (List Char)) :
    readLines number (line :: lines) = (readLines (number + 1) lines).map (st.toList ++ ·) := by
  have hread : Statement.ofLine line = .ok st := Statement.ofUncommented_eq_ok_iff.mpr h
  rw [readLines, hread]
  cases readLines (number + 1) lines <;> rfl

/-- Lines that spell a problem are read as statements that make it up. -/
theorem exists_readLines_of_spells {lines : List (List Char)} {p : Problem}
    (h : Spells (lines.map Statement.stripComment) p) (number : Nat) :
    ∃ statements, readLines number lines = .ok statements ∧ ofStatements statements = p := by
  generalize hlines : lines.map Statement.stripComment = stripped at h
  induction h generalizing lines number with
  | nil =>
      obtain rfl := List.map_eq_nil_iff.mp hlines
      exact ⟨[], rfl, rfl⟩
  | blank hline _ ih =>
      obtain ⟨line, rest, rfl, rfl, hrest⟩ := List.map_eq_cons_iff.mp hlines
      obtain ⟨statements, hread, rfl⟩ := ih (number + 1) hrest
      rw [readLines_cons_of_spells hline, hread]
      exact ⟨statements, rfl, rfl⟩
  | @declaration _ _ v vars constraints hline _ ih =>
      obtain ⟨line, rest, rfl, rfl, hrest⟩ := List.map_eq_cons_iff.mp hlines
      obtain ⟨statements, hread, hmade⟩ := ih (number + 1) hrest
      obtain ⟨rfl, rfl⟩ := Problem.mk.inj hmade
      rw [readLines_cons_of_spells hline, hread]
      exact ⟨.declaration v :: statements, rfl, rfl⟩
  | @constraint _ _ c vars constraints hline _ ih =>
      obtain ⟨line, rest, rfl, rfl, hrest⟩ := List.map_eq_cons_iff.mp hlines
      obtain ⟨statements, hread, hmade⟩ := ih (number + 1) hrest
      obtain ⟨rfl, rfl⟩ := Problem.mk.inj hmade
      rw [readLines_cons_of_spells hline, hread]
      exact ⟨.constraint c :: statements, rfl, rfl⟩

/-- The first line that cannot be read is reported with its number. -/
theorem readLines_of_firstFault {lines : List (List Char)} {position : Nat} {cause : ParseError}
    (h : FirstFault (lines.map Statement.stripComment) position cause) (number : Nat) :
    readLines number lines = .error (.line (number + position) cause) := by
  induction lines generalizing position number with
  | nil =>
      obtain ⟨line, hline, -⟩ := h.fault
      cases hline
  | cons line lines ih =>
      cases position with
      | zero =>
          obtain ⟨_, hline, hfault⟩ := h.fault
          cases hline
          have hread : Statement.ofLine line = .error cause := hfault
          rw [readLines, hread]
          rfl
      | succ position =>
          obtain ⟨_, st, hline, hspells⟩ := h.earlier 0 (Nat.succ_pos position)
          cases hline
          have hrest : FirstFault (lines.map Statement.stripComment) position cause :=
            ⟨fun i hi => h.earlier (i + 1) (Nat.succ_lt_succ hi), h.fault⟩
          rw [readLines_cons_of_spells hspells, ih hrest (number + 1), Nat.add_right_comm]
          rfl

/-- Lines spell a problem, or there is a first one that is not in the grammar. -/
theorem exists_spells_or_firstFault (lines : List (List Char)) :
    (∃ p, Spells lines p) ∨ ∃ position cause, FirstFault lines position cause := by
  induction lines with
  | nil => exact .inl ⟨_, .nil⟩
  | cons line lines ih =>
      cases hline : Statement.ofUncommented line with
      | error cause => exact .inr ⟨0, cause, fun i hi => absurd hi (Nat.not_lt_zero i), line, rfl, hline⟩
      | ok st =>
          have hspells := Statement.ofUncommented_eq_ok_iff.mp hline
          rcases ih with ⟨p, hp⟩ | ⟨position, cause, hearlier, hfault⟩
          · cases st with
            | none => exact .inl ⟨p, .blank hspells hp⟩
            | some st =>
                cases st with
                | declaration v => exact .inl ⟨_, .declaration hspells hp⟩
                | constraint c => exact .inl ⟨_, .constraint hspells hp⟩
          · refine .inr ⟨position + 1, cause, fun i hi => ?_, hfault⟩
            cases i with
            | zero => exact ⟨line, st, rfl, hspells⟩
            | succ i => exact hearlier i (Nat.lt_of_succ_lt_succ hi)

theorem parse_of_spells {s : String} {p : Problem} (h : Spells (uncommented s) p) :
    parse s = match checkVariables p.vars with
      | .ok () => .ok p
      | .error e => .error (.setup e) := by
  obtain ⟨statements, hread, rfl⟩ := exists_readLines_of_spells h 1
  rw [parse, hread]
  rfl

theorem parse_of_firstFault {s : String} {position : Nat} {cause : ParseError}
    (h : FirstFault (uncommented s) position cause) : parse s = .error (.line (position + 1) cause) := by
  rw [parse, readLines_of_firstFault h 1, Nat.add_comm]
  rfl

/-- What a text can be read as, and what that says of its lines. -/
theorem of_parse_eq {s : String} {result : Except TextError Problem} (h : parse s = result) :
    (∃ p, Spells (uncommented s) p ∧
      ((checkVariables p.vars = .ok () ∧ result = .ok p) ∨
        ∃ e, checkVariables p.vars = .error e ∧ result = .error (.setup e))) ∨
    ∃ position cause, FirstFault (uncommented s) position cause ∧ result = .error (.line (position + 1) cause) := by
  subst h
  rcases exists_spells_or_firstFault (uncommented s) with ⟨p, hp⟩ | ⟨position, cause, hfault⟩
  · refine .inl ⟨p, hp, ?_⟩
    rw [parse_of_spells hp]
    cases hcheck : checkVariables p.vars with
    | ok u => exact .inl ⟨rfl, rfl⟩
    | error e => exact .inr ⟨e, rfl, rfl⟩
  · exact .inr ⟨position, cause, hfault, parse_of_firstFault hfault⟩

/-- A text is a problem exactly if its lines without their comments spell it, no two variables share a name and no
domain holds a value twice; the problem has the variables and the constraints in the order of the lines. Otherwise the
first line that is not in the grammar is reported with its number, counted from one, and the first repetition only if
all lines are in the grammar. Neither the sign of a number nor a range goes beyond the words, in whatever text. -/
theorem parse_spells (s : String) :
    (∀ p, parse s = .ok p ↔ Spells (uncommented s) p ∧ (p.vars.map (·.name)).Nodup ∧ ∀ w ∈ p.vars, w.domain.Nodup) ∧
    (∀ number cause, parse s = .error (.line number cause) ↔
      ∃ position, number = position + 1 ∧ FirstFault (uncommented s) position cause) ∧
    (∀ e, parse s = .error (.setup e) ↔ ∃ p, Spells (uncommented s) p ∧ FirstRepetition p.vars e) ∧
    (∀ lines, Text.lines s.toList = lines ↔ Text.Lines s.toList lines) ∧
    (∀ line, (∃ cause, Statement.ofUncommented line = .error cause) ↔ ¬ ∃ st, Statement.Spells line st) ∧
    (∀ cs located, Token.readAll cs = .ok located → ∀ t ∈ located, ∀ n, t.token = .int n →
      (-n).toInt = -n.toInt) ∧
    ∀ first last, ∃ ns, Value.range first last = ns.map .int ∧ Domain.Counts first last ns := by
  refine ⟨fun p => ?_, fun number cause => ?_, fun e => ?_, fun lines => Text.lines_eq_iff, fun line => ?_, ?_,
    Domain.exists_counts⟩
  · constructor
    · intro h
      obtain ⟨p', hp', ⟨hcheck, hp⟩ | ⟨e, -, he⟩⟩ | ⟨position, cause, -, he⟩ := of_parse_eq h
      · cases hp
        exact ⟨hp', (checkVariables_eq_ok_iff _).mp hcheck⟩
      · cases he
      · cases he
    · rintro ⟨hp, hnames, hdomains⟩
      rw [parse_of_spells hp, (checkVariables_eq_ok_iff _).mpr ⟨hnames, hdomains⟩]
  · constructor
    · intro h
      obtain ⟨p, -, ⟨-, hp⟩ | ⟨e, -, he⟩⟩ | ⟨position, cause, hfault, he⟩ := of_parse_eq h
      · cases hp
      · cases he
      · cases he
        exact ⟨position, rfl, hfault⟩
    · rintro ⟨position, rfl, hfault⟩
      exact parse_of_firstFault hfault
  · constructor
    · intro h
      obtain ⟨p, hp, ⟨-, hok⟩ | ⟨e, hcheck, he⟩⟩ | ⟨position, cause, -, he⟩ := of_parse_eq h
      · cases hok
      · cases he
        exact ⟨p, hp, checkVariables_eq_error_iff.mp hcheck⟩
      · cases he
    · rintro ⟨p, hp, hfirst⟩
      rw [parse_of_spells hp, checkVariables_eq_error_iff.mpr hfirst]
  · simp only [← Statement.ofUncommented_eq_ok_iff]
    cases Statement.ofUncommented line <;> simp
  · exact fun cs located h t ht n hn => Domain.toInt_neg_of_readAll h ht hn

/-- Constraints between declarations, a blank line, comments and both endings of lines. -/
def interleaved : String :=
  "var B: 0..2 # two values\r\nconstraint A < B\n\n  var A: -1 'x' False\nconstraint B != 1 # no end"

/-- A name is repeated by a variable whose domain repeats a value, as the next one does. -/
def repeating : String :=
  "var A: 0\nconstraint A == B\nvar A: 1 1\nvar B: 2 1..3"

/-- A name is repeated before a line that cannot be read. -/
def faulty : String :=
  "var A: 0\nvar A: 1\nvar B 2"

/-- The first text is a problem, with its variables and its constraints each in their order. In the second one the
repeated name is what is reported, and in the third one the line that cannot be read. -/
theorem parse_spells_interleaved :
    (∃ p, parse interleaved = .ok p ∧ Spells (uncommented interleaved) p ∧
      p.vars = [{ name := "B", domain := [.int 0, .int 1] },
        { name := "A", domain := [.int (-1), .str "x", .bool false] }] ∧
      p.constraints = [{ source := "A < B", expr := .binary .lt (.ident "A") (.ident "B") },
        { source := "B != 1", expr := .binary .ne (.ident "B") (.int 1) }]) ∧
    (parse repeating = .error (.setup (.duplicateVariable "A")) ∧
      ∃ p, Spells (uncommented repeating) p ∧ FirstRepetition p.vars (.duplicateVariable "A")) ∧
    parse faulty = .error (.line 3 (.offending .invalidVariable "B 2" 4)) ∧
      FirstFault (uncommented faulty) 2 (.offending .invalidVariable "B 2" 4) := by
  have hinterleaved : parse interleaved
      = .ok ⟨[{ name := "B", domain := [.int 0, .int 1] },
          { name := "A", domain := [.int (-1), .str "x", .bool false] }],
        [{ source := "A < B", expr := .binary .lt (.ident "A") (.ident "B") },
          { source := "B != 1", expr := .binary .ne (.ident "B") (.int 1) }]⟩ := by
    decide +kernel
  have hrepeating : parse repeating = .error (.setup (.duplicateVariable "A")) := by
    decide +kernel
  have hfaulty : parse faulty = .error (.line 3 (.offending .invalidVariable "B 2" 4)) := by
    decide +kernel
  obtain ⟨position, hnumber, hfirst⟩ := ((parse_spells faulty).2.1 _ _).mp hfaulty
  obtain rfl : 2 = position := Nat.succ.inj hnumber
  exact ⟨⟨_, hinterleaved, (((parse_spells interleaved).1 _).mp hinterleaved).1, rfl, rfl⟩,
    ⟨hrepeating, ((parse_spells repeating).2.2.1 _).mp hrepeating⟩, hfaulty, hfirst⟩

end Problem

end FiniteDomain
