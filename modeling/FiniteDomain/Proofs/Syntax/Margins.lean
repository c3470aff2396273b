import FiniteDomain.Proofs.Syntax.Lexing

/-!
# Texts without their margins

A text is its trimmed form between white space (`Text.exists_trim`), and white space around a text can be left out: the
tokens stay the same (`Lexes.trim`), and so do all characters that are no white space (`count_trim`). At the end of a
text that takes some care, because there a token may have been cut short. It has not been: what cannot be read cannot
be read with white space after it either (`read_append_of_error`), not even a text that is still open, since no white
space closes it. So reading does not notice white space after a text (`readAllFrom_append_white`).
-/

namespace FiniteDomain

namespace Text

theorem trim_append_singleton {w : Char} (hw : isWhiteSpace w = true) (cs : List Char) :
    trim (cs ++ [w]) = trim cs := by
  have hstart : trimStart (cs ++ [w]) = trimStart cs ++ [w] ∨
      trimStart (cs ++ [w]) = [] ∧ trimStart cs = [] := by
    unfold trimStart
    rw [List.dropWhile_append]
    split
    · next hempty =>
      refine .inr ⟨?_, List.isEmpty_iff.mp hempty⟩
      rw [List.dropWhile_cons, hw]
      rfl
    · exact .inl rfl
  rcases hstart with hstart | ⟨hstart, hnil⟩
  · rw [trim, trim, hstart, trimEnd, List.reverse_append, List.reverse_singleton, List.singleton_append,
      List.dropWhile_cons, hw]
    rfl
  · rw [trim, trim, hstart, hnil]

theorem count_dropWhile {p : Char → Bool} {c : Char} (hc : p c = false) (cs : List Char) :
    (cs.dropWhile p).count c = cs.count c := by
  induction cs with
  | nil => rfl
  | cons d cs ih =>
      rw [List.dropWhile_cons]
      split
      · next hd =>
        have hne : d ≠ c := by
          rintro rfl
          rw [hc] at hd
          cases hd
        rw [ih, List.count_cons_of_ne hne]
      · rfl

/-- What is trimmed is white space only. -/
theorem count_trim {c : Char} (hc : isWhiteSpace c = false) (cs : List Char) :
    (trim cs).count c = cs.count c := by
  rw [trim, trimEnd, List.count_reverse, count_dropWhile hc, List.count_reverse, trimStart,
    count_dropWhile hc]

end Text

namespace Token

open Text

/-! ## Tokens at the margins -/

theorem Lexes.trimStart {cs : List Char} {ts : List Token} (h : Lexes cs ts) :
    Lexes (Text.trimStart cs) ts := by
  induction h with
  | nil => exact .nil
  | @white c cs ts hc _ ih =>
      have hdrop : Text.trimStart (c :: cs) = Text.trimStart cs := by
        rw [Text.trimStart, List.dropWhile_cons, hc]
        rfl
      rwa [hdrop]
  | @token c cs ts r hc hread hrest _ =>
      have hkeep : Text.trimStart (c :: cs) = c :: cs := by
        rw [Text.trimStart, List.dropWhile_cons, hc]
        rfl
      rw [hkeep]
      exact .token hc hread hrest

/-- A quoted text is closed by a quote. -/
theorem mem_of_readQuoted {quote : Char} {cs s rest : List Char} {width : Nat}
    (h : readQuoted quote cs = some (s, width, rest)) : quote ∈ cs := by
  fun_induction readQuoted quote cs generalizing s width rest with
  | case1 => cases h
  | case2 => exact List.mem_cons_self
  | case3 => cases h
  | case4 d ds s' width' rest' hds _ ih =>
      exact List.mem_cons_of_mem _ (List.mem_cons_of_mem _ (ih hds))
  | case5 => cases h
  | case6 c cs _ _ s' width' rest' hcs ih => exact List.mem_cons_of_mem _ (ih hcs)
  | case7 => cases h

/-- Without one more quote, what comes after a text that is not closed does not close it. -/
theorem readQuoted_append_eq_none {quote : Char} {cs ws : List Char} (hws : quote ∉ ws)
    (h : readQuoted quote cs = none) : readQuoted quote (cs ++ ws) = none := by
  have hnone : ∀ ds, quote ∉ ds → readQuoted quote ds = none := by
    intro ds hds
    cases hread : readQuoted quote ds with
    | none => rfl
    | some r => exact absurd (mem_of_readQuoted hread) hds
  fun_induction readQuoted quote cs with
  | case1 => exact hnone ws hws
  | case2 => cases h
  | case3 hne =>
      rw [List.singleton_append, readQuoted.eq_def]
      cases ws with
      | nil => simp [hne]
      | cons d ds => simp [hne, hnone ds fun hd => hws (List.mem_cons_of_mem d hd)]
  | case4 => cases h
  | case5 d ds hds hne ih =>
      rw [List.cons_append, List.cons_append, readQuoted.eq_def]
      simp [hne, ih hds]
  | case6 => cases h
  | case7 c cs hne hb hcs ih =>
      rw [List.cons_append, readQuoted.eq_def]
      simp [hne, hb, ih hcs]

/-- Which character begins no symbol does not depend on what comes after it. -/
theorem readShortSymbol_of_error {c : Char} {cs : List Char} {e : Fault × String}
    (h : readShortSymbol c cs = .error e) (ds : List Char) : readShortSymbol c ds = .error e := by
  unfold readShortSymbol at h ⊢
  split at h
  · cases h
  · exact h

theorem readSymbol_append_of_error {c : Char} {cs bs : List Char} (hbs : Breaks bs)
    {e : Fault × String} (h : readSymbol c cs = .error e) : readSymbol c (cs ++ bs) = .error e := by
  cases cs with
  | nil =>
      rw [List.nil_append]
      cases bs with
      | nil => exact h
      | cons d ds =>
          obtain ⟨-, hslash, heq⟩ := hbs d ds rfl
          rw [readSymbol, symbolOfPair?_eq_none hslash heq]
          exact readShortSymbol_of_error h _
  | cons d ds =>
      rw [readSymbol] at h
      rw [List.cons_append, readSymbol]
      split at h
      · cases h
      · exact readShortSymbol_of_error h _

/-- What cannot be read cannot be read with white space after it either, for the same reason. -/
theorem read_append_of_error {c : Char} {cs ws : List Char} (hws : ∀ w ∈ ws, isWhiteSpace w = true)
    {e : Fault × String} (h : read c cs = .error e) : read c (cs ++ ws) = .error e := by
  have hbreaks := breaks_of_white hws
  unfold read at h ⊢
  split at h
  · next hd =>
    rw [if_pos hd]
    unfold readNumber at h ⊢
    rw [← List.cons_append, takeWhile_append_of_head hbreaks.isDigit]
    dsimp only at h ⊢
    split at h
    · cases h
    · next hle =>
      rw [if_neg hle]
      exact h
  · next hd =>
    rw [if_neg hd]
    split at h
    · next hq =>
      rw [if_pos hq]
      unfold readString at h ⊢
      split at h
      · cases h
      · next hquoted =>
        have hquote : c ∉ ws := by
          intro hc
          have hwhite := hws c hc
          rcases Bool.or_eq_true_iff.mp hq with hc' | hc'
          · rw [of_decide_eq_true hc'] at hwhite
            exact absurd hwhite (by decide)
          · rw [of_decide_eq_true hc'] at hwhite
            exact absurd hwhite (by decide)
        rw [readQuoted_append_eq_none hquote hquoted]
        exact h
    · next hq =>
      rw [if_neg hq]
      split at h
      · cases h
      · next hw =>
        rw [if_neg hw]
        exact readSymbol_append_of_error hbreaks h

/-- White space after a text changes nothing. -/
theorem readAllFrom_append_white {ws : List Char} (hws : ∀ w ∈ ws, isWhiteSpace w = true) (offset : Nat)
    (cs : List Char) : readAllFrom offset (cs ++ ws) = readAllFrom offset cs := by
  induction offset, cs using readAllFrom.induct with
  | case1 offset =>
      rw [List.nil_append, readAllFrom]
      induction ws generalizing offset with
      | nil => rw [readAllFrom]
      | cons w ws ih =>
          rw [readAllFrom_of_white (hws w List.mem_cons_self)]
          exact ih (fun c hc => hws c (List.mem_cons_of_mem w hc)) _
  | case2 offset c cs hc ih =>
      rw [List.cons_append, readAllFrom_of_white hc, readAllFrom_of_white hc, ih]
  | case3 offset c cs hc fault text hread =>
      have hwhite := Bool.eq_false_iff.mpr hc
      rw [List.cons_append, readAllFrom_of_error hwhite hread,
        readAllFrom_of_error hwhite (read_append_of_error hws hread)]
  | case4 offset c cs hc r hread ih =>
      -- The token ends where it ends without the white space.
      have hwhite := Bool.eq_false_iff.mpr hc
      rw [List.cons_append, readAllFrom_of_read hwhite hread,
        readAllFrom_of_read hwhite (read_append (breaks_of_white hws) hread)]
      exact congrArg (·.map (⟨offset, r.token⟩ :: ·)) ih

/-- White space after a text does not change its tokens. -/
theorem Lexes.of_append_white {cs ws : List Char} {ts : List Token}
    (hws : ∀ w ∈ ws, isWhiteSpace w = true) (h : Lexes (cs ++ ws) ts) : Lexes cs ts := by
  obtain ⟨located, hread, rfl⟩ := h.readAllFrom 0
  rw [readAllFrom_append_white hws] at hread
  exact lexes_of_readAll hread

/-- A text is its trimmed form with white space after it, once what comes before is trimmed. -/
theorem exists_white_append_trimEnd (cs : List Char) :
    ∃ ws, (∀ w ∈ ws, isWhiteSpace w = true) ∧ cs = Text.trimEnd cs ++ ws := by
  refine ⟨(cs.reverse.takeWhile isWhiteSpace).reverse, ?_, ?_⟩
  · intro w hw
    rw [List.mem_reverse] at hw
    exact of_mem_takeWhile hw
  · rw [Text.trimEnd, ← List.reverse_append, List.takeWhile_append_dropWhile, List.reverse_reverse]

/-- White space around a text does not change its tokens. -/
theorem Lexes.trim {cs : List Char} {ts : List Token} (h : Lexes cs ts) : Lexes (Text.trim cs) ts := by
  have hstart := h.trimStart
  obtain ⟨ws, hws, heq⟩ := exists_white_append_trimEnd (Text.trimStart cs)
  rw [heq] at hstart
  exact hstart.of_append_white hws

end Token

/-! ## Trimmed texts -/

namespace Text

/-- The text has white space only. -/
def White (cs : List Char) : Prop :=
  ∀ c ∈ cs, isWhiteSpace c = true

variable {ws ws' cs : List Char}

theorem trimStart_white_append (hws : White ws) (cs : List Char) : trimStart (ws ++ cs) = trimStart cs := by
  rw [trimStart, List.dropWhile_append, (Token.takeWhile_of_all hws).2]
  rfl

theorem trim_append_white (hws : White ws) (cs : List Char) : trim (cs ++ ws) = trim cs := by
  induction ws generalizing cs with
  | nil => rw [List.append_nil]
  | cons w ws ih =>
      rw [List.append_cons, ih (fun c hc => hws c (List.mem_cons_of_mem w hc)),
        trim_append_singleton (hws w List.mem_cons_self)]

/-- White space around a text is trimmed. -/
theorem trim_between (hws : White ws) (hws' : White ws') (cs : List Char) : trim (ws ++ cs ++ ws') = trim cs := by
  rw [trim_append_white hws', trim, trimStart_white_append hws, ← trim]

/-- A text is its trimmed form between white space. -/
theorem exists_trim (cs : List Char) : ∃ ws ws', White ws ∧ White ws' ∧ cs = ws ++ trim cs ++ ws' := by
  obtain ⟨ws', hws', heq⟩ := Token.exists_white_append_trimEnd (trimStart cs)
  refine ⟨cs.takeWhile isWhiteSpace, ws', fun c hc => Token.of_mem_takeWhile hc, hws', ?_⟩
  rw [List.append_assoc, trim, ← heq, trimStart, List.takeWhile_append_dropWhile]

theorem trim_trim (cs : List Char) : trim (trim cs) = trim cs := by
  obtain ⟨ws, ws', hws, hws', heq⟩ := exists_trim cs
  rw [← trim_between hws hws', ← heq]

theorem dropWhile_eq_self {p : Char → Bool} (h : ∀ c ∈ cs, p c = false) : cs.dropWhile p = cs := by
  cases cs with
  | nil => rfl
  | cons c cs => rw [List.dropWhile_cons, h c List.mem_cons_self]; rfl

/-- Without white space there is nothing to trim. -/
theorem trim_eq_self (h : ∀ c ∈ cs, isWhiteSpace c = false) : trim cs = cs := by
  have hreverse : ∀ c ∈ cs.reverse, isWhiteSpace c = false := fun c hc => h c (List.mem_reverse.mp hc)
  rw [trim, trimStart, dropWhile_eq_self h, trimEnd, dropWhile_eq_self hreverse, List.reverse_reverse]

/-- What is trimmed does not start with white space. -/
theorem isWhiteSpace_head_of_trim {c : Char} (h : trim (c :: cs) = c :: cs) : isWhiteSpace c = false := by
  cases hc : isWhiteSpace c with
  | false => rfl
  | true =>
      have hwhite : White [c] := fun d hd => List.mem_singleton.mp hd ▸ hc
      have hshort : trim (c :: cs) = trim cs := by
        simpa using trim_between hwhite (show White [] from fun _ h => nomatch h) cs
      obtain ⟨ws, ws', -, -, heq⟩ := exists_trim cs
      have hlonger := congrArg List.length heq
      rw [← hshort, h] at hlonger
      simp only [List.length_append, List.length_cons] at hlonger
      omega

end Text

end FiniteDomain
