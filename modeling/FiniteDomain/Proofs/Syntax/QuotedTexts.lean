import FiniteDomain.Proofs.Syntax.Lexing

/-!
# Quoted texts read back

A text is shown with more escapes than its reader knows: after a backslash the reader takes `n` and `t` for what they
stand for and anything else for itself. So each character comes back as its `respelling`, which is the character alone
unless it is shown as a carriage return, as a null or by its code point (`respelling_eq_self_iff`). But no escape holds
a quote or a backslash that could be mistaken, so that every quoted text is read up to its own last quote
(`read_quoted`).
-/

namespace FiniteDomain.Token

open Text

/-- Characters that a quoted text shows in a way in which they are read back. -/
def IsReadable (c : Char) : Prop :=
  escape c = [c] ∨ c = '"' ∨ c = '\\' ∨ c = '\n' ∨ c = '\t'

/-- Characters that a quoted text shows as a carriage return, as a null or by their code point. -/
def IsGarbled (c : Char) : Prop :=
  escape c = ['\\', 'r'] ∨ escape c = ['\\', '0'] ∨ escape c = codePointEscape c

instance : DecidablePred IsGarbled :=
  fun c => inferInstanceAs (Decidable (escape c = ['\\', 'r'] ∨ escape c = ['\\', '0'] ∨ escape c = codePointEscape c))

/-- The characters that are read for what stands for `c` between quotes. -/
def respelling (c : Char) : List Char :=
  match escape c with
  | _ :: d :: ds => unescape d :: ds
  | cs => cs

/-! ## Escapes -/

/-- The characters that have a letter of their own, each with its letter. -/
def escapeLetters : List (Char × Char) :=
  [('"', '"'), ('\\', '\\'), ('\n', 'n'), ('\t', 't'), ('\r', 'r'), ('\x00', '0')]

/-- A character is shown by itself, by a letter of its own or by its code point. -/
theorem escape_cases (c : Char) :
    (escape c = [c] ∧ c ≠ '"' ∧ c ≠ '\\') ∨ (∃ d, (c, d) ∈ escapeLetters ∧ escape c = ['\\', d]) ∨
      escape c = codePointEscape c := by
  by_cases hc : c ∈ escapeLetters.map (·.1)
  · obtain ⟨⟨e, d⟩, hmem, rfl⟩ := List.mem_map.mp hc
    refine .inr (.inl ⟨d, hmem, ?_⟩)
    have hletters : ∀ p ∈ escapeLetters, escape p.1 = ['\\', p.2] := by decide
    exact hletters _ hmem
  · simp only [escapeLetters, List.map_cons, List.map_nil, List.mem_cons, List.not_mem_nil, not_or] at hc
    obtain ⟨hquote, hbackslash, hnewline, htab, hreturn, hnull, -⟩ := hc
    rw [escape, if_neg hquote, if_neg hbackslash, if_neg hnewline, if_neg htab, if_neg hreturn, if_neg hnull]
    split
    · exact .inr (.inr rfl)
    · exact .inl ⟨rfl, hquote, hbackslash⟩

theorem isReadable_or_isGarbled (c : Char) : IsReadable c ∨ IsGarbled c := by
  rcases escape_cases c with ⟨hself, -, -⟩ | ⟨d, hmem, -⟩ | hcode
  · exact .inl (.inl hself)
  · have hletters : ∀ p ∈ escapeLetters,
        (p.1 = '"' ∨ p.1 = '\\' ∨ p.1 = '\n' ∨ p.1 = '\t') ∨ IsGarbled p.1 := by decide
    exact (hletters _ hmem).imp_left .inr
  · exact .inr (.inr (.inr hcode))

theorem respelling_of_isReadable {c : Char} (h : IsReadable c) : respelling c = [c] := by
  rcases h with hself | rfl | rfl | rfl | rfl
  · rw [respelling, hself]
  all_goals rfl

theorem respelling_ne_self {c : Char} (h : IsGarbled c) : respelling c ≠ [c] := by
  intro hself
  rcases h with hc | hc | hc
  · rw [respelling, hc] at hself
    obtain rfl := List.singleton_inj.mp hself
    exact absurd hc (by decide)
  · rw [respelling, hc] at hself
    obtain rfl := List.singleton_inj.mp hself
    exact absurd hc (by decide)
  · rw [respelling, hc] at hself
    cases hself

/-- A character is read back as itself unless it is shown by an escape that is read as something else. -/
theorem respelling_eq_self_iff {c : Char} : respelling c = [c] ↔ ¬ IsGarbled c :=
  ⟨fun hself hc => respelling_ne_self hc hself,
    fun hc => respelling_of_isReadable ((isReadable_or_isGarbled c).resolve_right hc)⟩

theorem exists_digitChar_of_mem_toDigits {b n : Nat} {c : Char} (hb : 1 < b) (h : c ∈ Nat.toDigits b n) :
    ∃ k < b, c = Nat.digitChar k := by
  induction n using Nat.strongRecOn with
  | ind n ih =>
      rw [Nat.toDigits_eq_if hb] at h
      split at h
      · next hn => exact ⟨n, hn, List.mem_singleton.mp h⟩
      · next hn =>
        rcases List.mem_append.mp h with h | h
        · exact ih (n / b) (Nat.div_lt_self (by omega) hb) h
        · exact ⟨n % b, Nat.mod_lt n (by omega), List.mem_singleton.mp h⟩

/-- Hexadecimal digits are neither quotes nor backslashes. -/
theorem plain_of_mem_toDigits {n : Nat} {c : Char} (h : c ∈ Nat.toDigits 16 n) : c ≠ '"' ∧ c ≠ '\\' := by
  have hdigit : ∀ k < 16, Nat.digitChar k ≠ '"' ∧ Nat.digitChar k ≠ '\\' := by decide
  obtain ⟨k, hk, rfl⟩ := exists_digitChar_of_mem_toDigits (by decide) h
  exact hdigit k hk

/-- What stands for a character is the character, or a backslash with characters after it of which only the first can
be a quote or a backslash. -/
theorem escape_eq (c : Char) : (escape c = [c] ∧ c ≠ '"' ∧ c ≠ '\\') ∨
    ∃ d ds, escape c = '\\' :: d :: ds ∧ ∀ x ∈ ds, x ≠ '"' ∧ x ≠ '\\' := by
  rcases escape_cases c with hself | ⟨d, -, hletter⟩ | hcode
  · exact .inl hself
  · exact .inr ⟨d, [], hletter, fun _ h => nomatch h⟩
  · refine .inr ⟨'u', '\x7b' :: (Nat.toDigits 16 c.toNat ++ ['\x7d']), hcode, ?_⟩
    intro x hx
    rcases List.mem_cons.mp hx with rfl | hx
    · decide
    · rcases List.mem_append.mp hx with hx | hx
      · exact plain_of_mem_toDigits hx
      · rw [List.mem_singleton.mp hx]
        decide

theorem respelling_ne_nil (c : Char) : respelling c ≠ [] := by
  intro hnil
  rcases escape_eq c with ⟨hself, -, -⟩ | ⟨d, ds, hc, -⟩
  · rw [respelling, hself] at hnil
    cases hnil
  · rw [respelling, hc] at hnil
    cases hnil

/-! ## Texts -/

variable {cs ds s rest : List Char} {width : Nat}

theorem readQuoted_plain_append (hds : ∀ x ∈ ds, x ≠ '"' ∧ x ≠ '\\')
    (h : readQuoted '"' cs = some (s, width, rest)) :
    readQuoted '"' (ds ++ cs) = some (ds ++ s, byteLength ds + width, rest) := by
  induction ds with
  | nil => rwa [List.nil_append, List.nil_append, byteLength_nil, Nat.zero_add]
  | cons d ds ih =>
      obtain ⟨hquote, hbackslash⟩ := hds d List.mem_cons_self
      have hrest := ih fun x hx => hds x (List.mem_cons_of_mem d hx)
      rw [List.cons_append, readQuoted_plain hquote hbackslash hrest, byteLength_cons, Nat.add_assoc]
      rfl

/-- What stands for a character between quotes is read as its respelling. -/
theorem readQuoted_escape_append (c : Char) (h : readQuoted '"' cs = some (s, width, rest)) :
    readQuoted '"' (escape c ++ cs) = some (respelling c ++ s, byteLength (escape c) + width, rest) := by
  rcases escape_eq c with ⟨hself, hquote, hbackslash⟩ | ⟨d, ds, hc, hds⟩
  · rw [respelling, hself]
    exact readQuoted_plain hquote hbackslash h
  · rw [respelling, hc]
    simp only [List.cons_append, readQuoted_escape (by decide) (readQuoted_plain_append hds h), byteLength_cons,
      Nat.add_assoc]

theorem readQuoted_flatMap_escape (cs : List Char) :
    readQuoted '"' (cs.flatMap escape ++ ['"'])
      = some (cs.flatMap respelling, byteLength (cs.flatMap escape) + '"'.utf8Size, []) := by
  induction cs with
  | nil => exact readQuoted_close '"' []
  | cons c cs ih =>
      rw [List.flatMap_cons, List.append_assoc, readQuoted_escape_append c ih, List.flatMap_cons, byteLength_append,
        Nat.add_assoc]

/-- A quoted text is read as one text, up to its end. -/
theorem read_quoted (s : String) :
    read '"' (s.toList.flatMap escape ++ ['"'])
      = .ok ⟨.str (String.ofList (s.toList.flatMap respelling)), byteLength (quoted s), []⟩ := by
  rw [read, if_neg (by decide), if_pos (by decide), readString, readQuoted_flatMap_escape]
  simp only [quoted, byteLength_cons, byteLength_append, byteLength_nil, Nat.add_zero]

theorem lexes_quoted_respelling (s : String) :
    Lexes (quoted s) [.str (String.ofList (s.toList.flatMap respelling))] :=
  .token (by decide) (read_quoted s) .nil

/-! ## Texts that come back -/

/-- Where each element becomes at least one, a list that stays the same has each element stay the same. -/
theorem eq_singleton_of_flatMap_eq_self {α : Type} {f : α → List α} (hf : ∀ a, f a ≠ []) {as : List α}
    (h : as.flatMap f = as) : ∀ a ∈ as, f a = [a] := by
  have hlength : ∀ bs : List α, bs.length ≤ (bs.flatMap f).length := by
    intro bs
    induction bs with
    | nil => exact Nat.le_refl _
    | cons b bs ih =>
        have hb := List.length_pos_iff.mpr (hf b)
        rw [List.flatMap_cons, List.length_append, List.length_cons]
        omega
  induction as with
  | nil => exact fun _ ha => nomatch ha
  | cons a as ih =>
      rw [List.flatMap_cons] at h
      cases hfa : f a with
      | nil => exact absurd hfa (hf a)
      | cons b bs =>
          rw [hfa, List.cons_append] at h
          obtain ⟨rfl, htail⟩ := List.cons.inj h
          -- There is no room for a second element.
          have hbs : bs = [] := by
            have htotal := congrArg List.length htail
            have hle := hlength as
            rw [List.length_append] at htotal
            exact List.length_eq_zero_iff.mp (by omega)
          rw [hbs, List.nil_append] at htail
          intro c hc
          rcases List.mem_cons.mp hc with rfl | hc
          · rw [hfa, hbs]
          · exact ih htail c hc

/-- A text comes back as it was if each of its characters does. -/
theorem flatMap_respelling_eq_self_iff : cs.flatMap respelling = cs ↔ ∀ c ∈ cs, ¬ IsGarbled c := by
  constructor
  · intro h c hc
    exact respelling_eq_self_iff.mp (eq_singleton_of_flatMap_eq_self respelling_ne_nil h c hc)
  · intro h
    induction cs with
    | nil => rfl
    | cons c cs ih =>
        rw [List.flatMap_cons, respelling_eq_self_iff.mpr (h c List.mem_cons_self),
          ih fun d hd => h d (List.mem_cons_of_mem c hd)]
        rfl

/-- A quoted text of readable characters is read as the text. -/
theorem lexes_quoted {s : String} (h : ∀ c ∈ s.toList, IsReadable c) : Lexes (quoted s) [.str s] := by
  have hself : s.toList.flatMap respelling = s.toList := flatMap_respelling_eq_self_iff.mpr fun c hc =>
    respelling_eq_self_iff.mp (respelling_of_isReadable (h c hc))
  have hlexes := lexes_quoted_respelling s
  rwa [hself, String.ofList_toList] at hlexes

end FiniteDomain.Token
