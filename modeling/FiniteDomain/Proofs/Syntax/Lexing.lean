import FiniteDomain.Proofs.Syntax.Characters
import FiniteDomain.Proofs.Syntax.Grammar

/-!
# The tokens of texts

`Lexes cs ts` says that the characters are read as the tokens, wherever they stand in a text: white space is skipped,
and what is not white space begins with a token (`readAllFrom_eq_ok_iff`). Two texts side by side are read as their
tokens side by side if the second one does not begin with a character that could belong to the last token of the
first (`Lexes.append`).
-/

namespace FiniteDomain.Token

open Text

/-- The characters are read as the tokens. -/
inductive Lexes : List Char → List Token → Prop where
  | nil : Lexes [] []
  | white {c : Char} {cs : List Char} {ts : List Token} (h : isWhiteSpace c = true) :
      Lexes cs ts → Lexes (c :: cs) ts
  | token {c : Char} {cs : List Char} {ts : List Token} {r : Reading} (h : isWhiteSpace c = false)
      (hread : read c cs = .ok r) : Lexes r.rest ts → Lexes (c :: cs) (r.token :: ts)

/-! ## Reading whole texts -/

theorem readAllFrom_of_white {c : Char} (h : isWhiteSpace c = true) (offset : Nat) (cs : List Char) :
    readAllFrom offset (c :: cs) = readAllFrom (offset + c.utf8Size) cs := by
  rw [readAllFrom, if_pos h]

theorem readAllFrom_of_read {c : Char} {cs : List Char} {r : Reading} (h : isWhiteSpace c = false)
    (hread : read c cs = .ok r) (offset : Nat) :
    readAllFrom offset (c :: cs)
      = (readAllFrom (offset + r.width) r.rest).map (⟨offset, r.token⟩ :: ·) := by
  rw [readAllFrom, if_neg (by simp [h])]
  split
  · next hr =>
    rw [hread] at hr
    cases hr
  · next r' hr =>
    rw [hread] at hr
    cases hr
    rfl

theorem readAllFrom_of_error {c : Char} {cs : List Char} {fault : Fault} {text : String}
    (h : isWhiteSpace c = false) (hread : read c cs = .error (fault, text)) (offset : Nat) :
    readAllFrom offset (c :: cs) = .error (.offending fault text offset) := by
  rw [readAllFrom, if_neg (by simp [h])]
  split
  · next hr =>
    rw [hread] at hr
    cases hr
    rfl
  · next hr =>
    rw [hread] at hr
    cases hr

/-- What is read as tokens is read so at any place. -/
theorem Lexes.readAllFrom {cs : List Char} {ts : List Token} (h : Lexes cs ts) (offset : Nat) :
    ∃ located, readAllFrom offset cs = .ok located ∧ tokensOf located = ts := by
  induction h generalizing offset with
  | nil => exact ⟨[], by rw [Token.readAllFrom], rfl⟩
  | white hc _ ih =>
      rw [readAllFrom_of_white hc]
      exact ih _
  | token hc hread _ ih =>
      rename_i r _
      obtain ⟨located, hrest, rfl⟩ := ih (offset + r.width)
      rw [readAllFrom_of_read hc hread, hrest]
      exact ⟨_, rfl, rfl⟩

/-- The tokens of a text that can be read. -/
theorem lexes_of_readAllFrom {n : Nat} {cs : List Char} (hn : cs.length ≤ n) {offset : Nat}
    {located : List Located} (h : readAllFrom offset cs = .ok located) :
    Lexes cs (tokensOf located) := by
  induction n generalizing cs offset located with
  | zero =>
      obtain rfl : cs = [] := List.length_eq_zero_iff.mp (Nat.le_zero.mp hn)
      rw [readAllFrom] at h
      cases h
      exact .nil
  | succ n ih =>
      cases cs with
      | nil =>
          rw [readAllFrom] at h
          cases h
          exact .nil
      | cons c cs =>
          have hcs : cs.length ≤ n := Nat.le_of_succ_le_succ hn
          cases hc : isWhiteSpace c with
          | true =>
              rw [readAllFrom_of_white hc] at h
              exact .white hc (ih hcs h)
          | false =>
              rcases hread : read c cs with ⟨fault, text⟩ | r
              · rw [readAllFrom_of_error hc hread] at h
                cases h
              · rw [readAllFrom_of_read hc hread] at h
                cases hrest : readAllFrom (offset + r.width) r.rest with
                | error e =>
                    rw [hrest] at h
                    cases h
                | ok rest =>
                    rw [hrest] at h
                    cases h
                    have hle := read_rest_length_le hread
                    exact .token hc hread (ih (Nat.le_trans hle hcs) hrest)

theorem lexes_of_readAll {cs : List Char} {located : List Located} (h : readAll cs = .ok located) :
    Lexes cs (tokensOf located) :=
  lexes_of_readAllFrom (Nat.le_refl _) h

/-! ## Texts side by side -/

/-- No token that ends before the characters could go on with the first of them. -/
def Breaks (cs : List Char) : Prop :=
  ∀ c ds, cs = c :: ds → isWordPart c = false ∧ c ≠ '/' ∧ c ≠ '='

theorem takeWhile_append_of_head {p : Char → Bool} {bs : List Char}
    (h : ∀ c ds, bs = c :: ds → p c = false) (as : List Char) :
    (as ++ bs).takeWhile p = as.takeWhile p := by
  induction as with
  | nil =>
      cases bs with
      | nil => rfl
      | cons c ds => rw [List.nil_append, List.takeWhile_cons, h c ds rfl]; rfl
  | cons a as ih => rw [List.cons_append, List.takeWhile_cons, List.takeWhile_cons, ih]

theorem dropWhile_append_of_head {p : Char → Bool} {bs : List Char}
    (h : ∀ c ds, bs = c :: ds → p c = false) (as : List Char) :
    (as ++ bs).dropWhile p = as.dropWhile p ++ bs := by
  induction as with
  | nil =>
      cases bs with
      | nil => rfl
      | cons c ds => rw [List.nil_append, List.dropWhile_cons, h c ds rfl]; rfl
  | cons a as ih =>
      rw [List.cons_append, List.dropWhile_cons, List.dropWhile_cons, ih]
      split <;> rfl

theorem Breaks.isWordPart {bs : List Char} (h : Breaks bs) :
    ∀ c ds, bs = c :: ds → isWordPart c = false :=
  fun c ds hbs => (h c ds hbs).1

theorem Breaks.isDigit {bs : List Char} (h : Breaks bs) :
    ∀ c ds, bs = c :: ds → c.isDigit = false := by
  intro c ds hbs
  cases hd : c.isDigit with
  | false => rfl
  | true =>
      have hpart := (h c ds hbs).1
      rw [isWordPart_of_isDigit hd] at hpart
      cases hpart

/-- The reading with more characters after it. -/
def Reading.before (r : Reading) (bs : List Char) : Reading :=
  { r with rest := r.rest ++ bs }

/-! ### Quoted texts -/

theorem readQuoted_close (quote : Char) (cs : List Char) :
    readQuoted quote (quote :: cs) = some ([], quote.utf8Size, cs) := by
  rw [readQuoted.eq_def]
  simp

theorem readQuoted_escape {quote d : Char} {ds s rest : List Char} {width : Nat} (hne : '\\' ≠ quote)
    (h : readQuoted quote ds = some (s, width, rest)) :
    readQuoted quote ('\\' :: d :: ds)
      = some (unescape d :: s, '\\'.utf8Size + d.utf8Size + width, rest) := by
  rw [readQuoted.eq_def]
  simp [hne, h]

theorem readQuoted_plain {quote c : Char} {cs s rest : List Char} {width : Nat} (hne : c ≠ quote)
    (hb : c ≠ '\\') (h : readQuoted quote cs = some (s, width, rest)) :
    readQuoted quote (c :: cs) = some (c :: s, c.utf8Size + width, rest) := by
  rw [readQuoted.eq_def]
  simp [hne, hb, h]

/-- A text that is closed stays as it is with more after it. -/
theorem readQuoted_append {quote : Char} {cs s rest : List Char} {width : Nat}
    (h : readQuoted quote cs = some (s, width, rest)) (bs : List Char) :
    readQuoted quote (cs ++ bs) = some (s, width, rest ++ bs) := by
  fun_induction readQuoted quote cs generalizing s width rest with
  | case1 => cases h
  | case2 cs =>
      cases h
      exact readQuoted_close quote (cs ++ bs)
  | case3 => cases h
  | case4 d ds s' width' rest' hds hne ih =>
      cases h
      exact readQuoted_escape hne (ih hds)
  | case5 => cases h
  | case6 c cs hne hb s' width' rest' hcs ih =>
      cases h
      exact readQuoted_plain hne hb (ih hcs)
  | case7 => cases h

/-! ### Tokens -/

theorem readShortSymbol_append {c : Char} {cs : List Char} {r : Reading}
    (h : readShortSymbol c cs = .ok r) (bs : List Char) :
    readShortSymbol c (cs ++ bs) = .ok (r.before bs) := by
  unfold readShortSymbol at h ⊢
  split at h
  · cases h
    rfl
  · cases h

/-- Only `/` and `=` are the second character of a symbol. -/
theorem symbolOfPair?_eq_none {c d : Char} (hslash : d ≠ '/') (heq : d ≠ '=') :
    symbolOfPair? c d = none := by
  unfold symbolOfPair?
  split <;> first | rfl | exact absurd rfl hslash | exact absurd rfl heq

theorem readSymbol_append {c : Char} {cs bs : List Char} {r : Reading} (hbs : Breaks bs)
    (h : readSymbol c cs = .ok r) : readSymbol c (cs ++ bs) = .ok (r.before bs) := by
  cases cs with
  | nil =>
      cases bs with
      | nil => simpa [Reading.before] using h
      | cons d ds =>
          obtain ⟨-, hslash, heq⟩ := hbs d ds rfl
          rw [List.nil_append, readSymbol, symbolOfPair?_eq_none hslash heq]
          exact readShortSymbol_append h (d :: ds)
  | cons d ds =>
      rw [readSymbol] at h
      rw [List.cons_append, readSymbol]
      split at h
      · cases h
        rfl
      · exact readShortSymbol_append h bs

/-- A token is read as before if what comes after it does not go on with it. -/
theorem read_append {c : Char} {cs bs : List Char} {r : Reading} (hbs : Breaks bs)
    (h : read c cs = .ok r) : read c (cs ++ bs) = .ok (r.before bs) := by
  unfold read at h ⊢
  split at h
  · next hd =>
    -- A number ends before the second text, which does not begin with a digit.
    rw [if_pos hd]
    unfold readNumber at h ⊢
    rw [← List.cons_append, takeWhile_append_of_head hbs.isDigit, dropWhile_append_of_head hbs.isDigit]
    dsimp only at h ⊢
    split at h
    · next hle =>
      cases h
      rw [if_pos hle]
      rfl
    · cases h
  · next hd =>
    rw [if_neg hd]
    split at h
    · next hq =>
      rw [if_pos hq]
      unfold readString at h ⊢
      split at h
      · next hquoted =>
        cases h
        rw [readQuoted_append hquoted]
        rfl
      · cases h
    · next hq =>
      rw [if_neg hq]
      split at h
      · next hw =>
        -- Neither does it begin with a character that a word could go on with.
        cases h
        rw [if_pos hw]
        unfold readWord
        rw [← List.cons_append, takeWhile_append_of_head hbs.isWordPart,
          dropWhile_append_of_head hbs.isWordPart]
        rfl
      · next hw =>
        rw [if_neg hw]
        exact readSymbol_append hbs h

/-- Texts side by side are read as their tokens side by side. -/
theorem Lexes.append {as bs : List Char} {ts us : List Token} (h : Lexes as ts) (hbs : Breaks bs)
    (h' : Lexes bs us) : Lexes (as ++ bs) (ts ++ us) := by
  induction h with
  | nil => exact h'
  | white hc _ ih => exact .white hc ih
  | @token c cs ts r hc hread _ ih => exact .token (r := r.before bs) hc (read_append hbs hread) ih

theorem breaks_nil : Breaks [] := by
  intro c ds h
  cases h

theorem breaks_cons_of_white {c : Char} (h : isWhiteSpace c = true) (cs : List Char) :
    Breaks (c :: cs) := by
  intro d ds hcons
  cases hcons
  refine ⟨isWordPart_of_isWhiteSpace h, ?_, ?_⟩
  · rintro rfl
    exact absurd h (by decide)
  · rintro rfl
    exact absurd h (by decide)

theorem breaks_of_white {ws : List Char} (hws : ∀ w ∈ ws, isWhiteSpace w = true) : Breaks ws := by
  cases ws with
  | nil => exact breaks_nil
  | cons w ws => exact breaks_cons_of_white (hws w List.mem_cons_self) ws

/-! ## Single tokens -/

/-- The text starts like a word and goes on like one. -/
def IsWord (w : String) : Prop :=
  ∃ c cs, w.toList = c :: cs ∧ isWordStart c = true ∧ ∀ d ∈ cs, isWordPart d = true

theorem isWord_of_all {w : String} {c : Char} {cs : List Char} (hw : w.toList = c :: cs)
    (hstart : isWordStart c = true) (hpart : cs.all isWordPart = true) : IsWord w :=
  ⟨c, cs, hw, hstart, fun d hd => List.all_eq_true.mp hpart d hd⟩

/-- The text is a word and no keyword. -/
structure IsName (name : String) : Prop where
  isWord : IsWord name
  not_keyword : Keyword.ofWord? name = none

theorem of_mem_takeWhile {p : Char → Bool} {c : Char} {cs : List Char} (h : c ∈ cs.takeWhile p) :
    p c = true := by
  have hall := List.all_takeWhile (p := p) (l := cs)
  exact List.all_eq_true.mp hall c h

theorem takeWhile_of_all {p : Char → Bool} {cs : List Char} (h : ∀ c ∈ cs, p c = true) :
    cs.takeWhile p = cs ∧ cs.dropWhile p = [] := by
  induction cs with
  | nil => exact ⟨rfl, rfl⟩
  | cons c cs ih =>
      obtain ⟨htake, hdrop⟩ := ih fun d hd => h d (List.mem_cons_of_mem c hd)
      have hc := h c List.mem_cons_self
      rw [List.takeWhile_cons, List.dropWhile_cons, hc]
      exact ⟨congrArg (c :: ·) htake, hdrop⟩

/-- Characters of one kind are cut off where another character comes after them. -/
theorem span_append {p : Char → Bool} {front back : List Char} (hfront : ∀ c ∈ front, p c = true)
    (hback : ∀ c ds, back = c :: ds → p c = false) :
    (front ++ back).takeWhile p = front ∧ (front ++ back).dropWhile p = back := by
  obtain ⟨htake, hdrop⟩ := takeWhile_of_all hfront
  rw [takeWhile_append_of_head hback, dropWhile_append_of_head hback, htake, hdrop]
  exact ⟨rfl, rfl⟩

/-- Where the characters other than `a` end, `a` comes next. -/
theorem of_dropWhile_ne {a c : Char} {cs after : List Char} (h : cs.dropWhile (· ≠ a) = c :: after) :
    c = a ∧ cs.takeWhile (· ≠ a) ++ a :: after = cs := by
  have hsplit : cs.takeWhile (· ≠ a) ++ cs.dropWhile (· ≠ a) = cs := List.takeWhile_append_dropWhile
  have hhead := List.head?_dropWhile_not (· ≠ a) cs
  rw [h] at hsplit hhead
  obtain rfl : c = a := by simpa using hhead
  exact ⟨rfl, hsplit⟩

/-- A word is read as one token. -/
theorem lexes_word {w : String} (h : IsWord w) : Lexes w.toList [ofWord w] := by
  obtain ⟨c, cs, hw, hstart, hpart⟩ := h
  have hall : ∀ d ∈ c :: cs, isWordPart d = true := by
    intro d hd
    rcases List.mem_cons.mp hd with rfl | hd
    · exact isWordPart_of_isWordStart hstart
    · exact hpart d hd
  obtain ⟨htake, hdrop⟩ := takeWhile_of_all hall
  have hquote : ¬ (c = '"' || c = '\x27') = true := by
    simp [ne_quote_of_isWordStart hstart]
  have hread : read c cs = .ok ⟨ofWord w, byteLength (c :: cs), []⟩ := by
    rw [read, isDigit_of_isWordStart hstart, if_neg (by simp), if_neg hquote, if_pos hstart, readWord,
      htake, hdrop, ← hw, String.ofList_toList]
  rw [hw]
  exact .token (isWhiteSpace_of_isWordStart hstart) hread .nil

theorem lexes_name {name : String} (h : IsName name) : Lexes name.toList [.ident name] := by
  have hword := lexes_word h.isWord
  rwa [ofWord, h.not_keyword] at hword

theorem isWord_keyword (k : Keyword) : IsWord k.text := by
  cases k <;> exact isWord_of_all rfl (by decide) (by decide)

/-- A keyword is read as itself. -/
theorem lexes_keyword (k : Keyword) : Lexes k.text.toList [.keyword k] := by
  have hkeyword : Keyword.ofWord? k.text = some k := by
    cases k <;> rfl
  have hlexes := lexes_word (isWord_keyword k)
  rwa [ofWord, hkeyword] at hlexes

theorem exists_toDigits_cons (n : Nat) : ∃ c cs, Nat.toDigits 10 n = c :: cs ∧ c.isDigit = true := by
  cases hdigits : Nat.toDigits 10 n with
  | nil => exact absurd hdigits Nat.toDigits_ne_nil
  | cons c cs =>
      have hmem : c ∈ Nat.toDigits 10 n := hdigits ▸ List.mem_cons_self
      exact ⟨c, cs, rfl, Nat.isDigit_of_mem_toDigits (by decide) (by decide) hmem⟩

/-- The digits of a number are read as the number. -/
theorem lexes_digits {n : Nat} (hn : (n : Int) ≤ Int64.maxValue.toInt) :
    Lexes (Nat.toDigits 10 n) [.int (Int64.ofNat n)] := by
  have hall : ∀ c ∈ Nat.toDigits 10 n, c.isDigit = true := fun c hc =>
    Nat.isDigit_of_mem_toDigits (by decide) (by decide) hc
  obtain ⟨htake, hdrop⟩ := takeWhile_of_all hall
  -- Reading digits undoes writing them.
  have hvalue : Nat.ofDigitChars 10 (Nat.toDigits 10 n) 0 = n := Nat.ofDigitChars_ten_toDigits
  obtain ⟨c, cs, hdigits, hc⟩ := exists_toDigits_cons n
  rw [hdigits] at htake hdrop hvalue ⊢
  have hread : read c cs = .ok ⟨.int (Int64.ofNat n), byteLength (c :: cs), []⟩ := by
    rw [read, if_pos hc, readNumber, htake, hdrop, hvalue, if_pos hn]
  exact .token (isWhiteSpace_of_isDigit hc) hread .nil

/-- The characters of symbols are in no other class. -/
theorem read_of_symbolOfChar? {c : Char} {s : Symbol} (h : symbolOfChar? c = some s) (cs : List Char) :
    isWhiteSpace c = false ∧ read c cs = readSymbol c cs := by
  unfold symbolOfChar? at h
  split at h <;> first | exact ⟨by decide, rfl⟩ | cases h

/-- The character is a symbol that no second character changes. -/
structure IsLone (c : Char) (s : Symbol) : Prop where
  symbol : symbolOfChar? c = some s
  not_mem : c ∉ ['/', '<', '>', '=', '!']

theorem IsLone.symbolOfPair?_eq_none {c : Char} {s : Symbol} (h : IsLone c s) (d : Char) :
    symbolOfPair? c d = none := by
  have hlone := h.not_mem
  unfold symbolOfPair?
  split <;> first | rfl | exact absurd (by decide) hlone

theorem IsLone.breaks {c : Char} {s : Symbol} (h : IsLone c s) (cs : List Char) : Breaks (c :: cs) := by
  obtain ⟨hs, hlone⟩ := h
  intro d ds hcons
  cases hcons
  refine ⟨?_, ?_, ?_⟩
  · unfold symbolOfChar? at hs
    split at hs <;> first | decide | cases hs
  · rintro rfl
    exact hlone (by decide)
  · rintro rfl
    exact hlone (by decide)

/-- Such a symbol is read by itself, whatever comes after it. -/
theorem Lexes.lone {c : Char} {s : Symbol} {cs : List Char} {ts : List Token} (h : IsLone c s)
    (hcs : Lexes cs ts) : Lexes (c :: cs) (.symbol s :: ts) := by
  obtain ⟨hwhite, hread⟩ := read_of_symbolOfChar? h.symbol cs
  have hshort : readSymbol c cs = .ok ⟨.symbol s, c.utf8Size, cs⟩ := by
    cases cs with
    | nil => simp [readSymbol, readShortSymbol, h.symbol]
    | cons d ds => simp [readSymbol, h.symbolOfPair?_eq_none, readShortSymbol, h.symbol]
  exact .token hwhite (hread.trans hshort) hcs

/-- A text between two such symbols. -/
theorem Lexes.between {c d : Char} {s s' : Symbol} {cs : List Char} {ts : List Token} (h : Lexes cs ts)
    (hopen : IsLone c s) (hclose : IsLone d s') :
    Lexes (c :: (cs ++ [d])) (.symbol s :: (ts ++ [.symbol s'])) :=
  .lone hopen (h.append (hclose.breaks []) (.lone hclose .nil))

theorem isLone_openParen : IsLone '(' .openParen :=
  ⟨rfl, by decide⟩

theorem Lexes.parens {cs : List Char} {ts : List Token} (h : Lexes cs ts) :
    Lexes ('(' :: (cs ++ [')'])) (.symbol .openParen :: (ts ++ [.symbol .closeParen])) :=
  h.between isLone_openParen ⟨rfl, by decide⟩

/-- A text that is read in one go is read as one token. -/
theorem lexes_single {w : String} {token : Token} (h : ∃ c cs r, w.toList = c :: cs ∧
    isWhiteSpace c = false ∧ read c cs = .ok r ∧ r.rest = [] ∧ r.token = token) :
    Lexes w.toList [token] := by
  obtain ⟨c, cs, r, hw, hc, hread, hrest, rfl⟩ := h
  have hnil : Lexes r.rest [] := hrest ▸ .nil
  rw [hw]
  exact .token hc hread hnil

/-- The written form of an operator is read as its tokens. -/
theorem lexes_op (op : BinaryOp) : Lexes op.symbol.toList op.tokens := by
  cases op with
  | or => exact lexes_keyword .or
  | and => exact lexes_keyword .and
  | mem => exact lexes_keyword .mem
  | notMem =>
      have hin : Lexes (' ' :: Keyword.mem.text.toList) [.keyword .mem] :=
        .white (by decide) (lexes_keyword .mem)
      exact (lexes_keyword .not).append (breaks_cons_of_white (by decide) _) hin
  | eq | ne | le | ge | lt | gt | add | sub | mul | div | rem =>
      exact lexes_single ⟨_, _, _, rfl, by decide, rfl, rfl, rfl⟩

end FiniteDomain.Token
