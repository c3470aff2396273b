import FiniteDomain.Expr.Parser

/-!
# How far the parser looks

A reader looks at the tokens that it takes off the front and, to know that it is done, at what comes next: at one
token, or at `not` and the token after it. So on a text that goes on in another way but looks the same from there
(`Alike`) it takes the same tokens; and on a text that agrees with another one up to the token at which the reader fails
it fails there too, unless that token is a `not`, which may be half of an operator (`LocalAt`). Every reader is put
together from a few that have this property in ways that keep it.

The bounds of the loops and of brackets depend on how long a text is. The reader that is compared may therefore have
other bounds: its arguments are the number of tokens that its brackets are good for, and the bound of its loop.
-/

namespace FiniteDomain

/-- One reader after the other, the second of which depends on what the first one reads. -/
def Reader.andThen {α β : Type} (p : Reader α) (f : α → Reader β) : Reader β := fun ts => do
  let (a, rest) ← p ts
  f a rest

/-- The token `expected` taken off the front. -/
def Token.taken (expected : Token) : Reader Unit := fun ts =>
  (expected.expect ts).map ((), ·)

theorem Token.taken_andThen {α : Type} (expected : Token) (f : Unit → Reader α) (ts : List Located) :
    expected.taken.andThen f ts = expected.expect ts >>= f () := by
  rw [Reader.andThen, Token.taken]
  cases expected.expect ts <;> rfl

namespace Expr

/-! ## What comes next -/

/-- What comes next looks the same: the first token, and the comparison that starts there. -/
structure Alike (rest rest' : List Located) : Prop where
  head?_eq : rest'.head? = rest.head?
  comparison_eq : (comparisonAt? rest').map Prod.fst = (comparisonAt? rest).map Prod.fst

namespace Alike

variable {rest rest' : List Located} {t : Located}

theorem eq_nil (h : Alike [] rest') : rest' = [] :=
  List.head?_eq_none_iff.mp h.head?_eq

theorem eq_cons (h : Alike (t :: rest) rest') : ∃ us, rest' = t :: us :=
  List.head?_eq_some_iff.mp h.head?_eq

/-- Where no comparison starts, none does in what looks the same. -/
theorem comparisonAt?_eq_none (h : Alike rest rest') (hnone : comparisonAt? rest = none) :
    comparisonAt? rest' = none := by
  have hmap := h.comparison_eq
  rw [hnone] at hmap
  exact Option.map_eq_none_iff.mp hmap

/-- One token before looks at most one token further. -/
theorem cons (h : rest'.head? = rest.head?) (t : Located) : Alike (t :: rest) (t :: rest') := by
  refine ⟨rfl, ?_⟩
  unfold comparisonAt?
  dsimp only
  cases comparisonOp? t.token with
  | some op => rfl
  | none =>
      cases rest with
      | nil => rw [List.head?_eq_none_iff.mp h]
      | cons u us =>
          obtain ⟨us', rfl⟩ := List.head?_eq_some_iff.mp h
          dsimp only
          split <;> rfl

/-- Tokens before keep alike what comes after them. -/
theorem append (h : Alike rest rest') (used : List Located) : Alike (used ++ rest) (used ++ rest') := by
  induction used with
  | nil => exact h
  | cons t used ih => exact cons ih.head?_eq t

end Alike

/-- A token other than `not` looks the same whatever comes after it. -/
theorem alike_cons_of_ne_not {t : Located} (h : t.token ≠ .keyword .not) (ts ts' : List Located) :
    Alike (t :: ts) (t :: ts') := by
  refine ⟨rfl, ?_⟩
  unfold comparisonAt?
  dsimp only
  cases comparisonOp? t.token with
  | some op => rfl
  | none => cases ts <;> cases ts' <;> simp [h]

/-! ## Readers that look no further -/

/-- On `ts` the reader `p` looks no further than at what comes next, and on a text that agrees with `ts` so far the
reader `q`, with bounds that are good for the text, does the same. -/
def LocalAt {α : Type} (p : Reader α) (q : Nat → Nat → Reader α) (ts : List Located) : Prop :=
  match p ts with
  | .ok (a, rest) => ∃ used, ts = used ++ rest ∧ ∀ rest' k n, Alike rest rest' →
      (used ++ rest').length ≤ k → (used ++ rest').length ≤ n → q k n (used ++ rest') = .ok (a, rest')
  | .error e => e = .unexpectedEnd ∨ ∃ front t back, ts = front ++ t :: back ∧ e = t.unexpected ∧
      (t.token ≠ .keyword .not → ∀ back' k n, (front ++ t :: back').length ≤ k →
        (front ++ t :: back').length ≤ n → q k n (front ++ t :: back') = .error t.unexpected)

/-- On texts of at most `k` tokens `p` looks no further than at what comes next, and `q`, with a bound that is good for
a text, does the same. -/
def Local {α : Type} (k : Nat) (p : Reader α) (q : Nat → Reader α) : Prop :=
  ∀ ts, ts.length ≤ k → LocalAt p (fun k' _ => q k') ts

section Rules

variable {α β : Type} {p r : Reader α} {q w : Nat → Nat → Reader α} {t : Located}
  {ts front rest : List Located} {a : α}

/-- The reader takes nothing. -/
theorem localAt_stop (hp : p ts = .ok (a, ts))
    (hq : ∀ k n rest', Alike ts rest' → q k n rest' = .ok (a, rest')) : LocalAt p q ts := by
  unfold LocalAt
  rw [hp]
  exact ⟨[], rfl, fun rest' k n halike _ _ => hq k n rest' halike⟩

/-- The text ends too early. -/
theorem localAt_end (hp : p ts = .error .unexpectedEnd) : LocalAt p q ts := by
  unfold LocalAt
  rw [hp]
  exact .inl rfl

/-- The first token cannot stand where it does. -/
theorem localAt_unexpected (hp : p (t :: ts) = .error t.unexpected)
    (hq : ∀ k n ts', q (k + 1) (n + 1) (t :: ts') = .error t.unexpected) : LocalAt p q (t :: ts) := by
  unfold LocalAt
  rw [hp]
  refine .inr ⟨[], t, ts, rfl, rfl, fun _ back' k n hk hn => ?_⟩
  obtain ⟨k, rfl⟩ := Nat.exists_eq_add_one_of_ne_zero (Nat.ne_zero_of_lt hk)
  obtain ⟨n, rfl⟩ := Nat.exists_eq_add_one_of_ne_zero (Nat.ne_zero_of_lt hn)
  exact hq k n back'

/-- Only what the other reader does with good bounds matters, and a bound may be greater. -/
theorem LocalAt.congr (h : LocalAt p q ts)
    (hq : ∀ k n us, us.length ≤ k → us.length ≤ n → ∃ k', k ≤ k' ∧ w k n us = q k' n us) : LocalAt p w ts := by
  unfold LocalAt at h ⊢
  split at h
  · obtain ⟨used, hts, hsame⟩ := h
    refine ⟨used, hts, fun rest' k n halike hk hn => ?_⟩
    obtain ⟨k', hle, heq⟩ := hq k n _ hk hn
    rw [heq]
    exact hsame rest' k' n halike (Nat.le_trans hk hle) hn
  · obtain hend | ⟨front, t, back, hts, he, hsame⟩ := h
    · exact .inl hend
    · refine .inr ⟨front, t, back, hts, he, fun hnot back' k n hk hn => ?_⟩
      obtain ⟨k', hle, heq⟩ := hq k n _ hk hn
      rw [heq]
      exact hsame hnot back' k' n (Nat.le_trans hk hle) hn

/-- A bound that is good for more tokens is good. -/
theorem LocalAt.shift (h : LocalAt p q ts) : LocalAt p (fun k n => q (k + 1) n) ts :=
  h.congr fun k _ _ _ _ => ⟨k + 1, Nat.le_succ k, rfl⟩

/-- Tokens are taken off the front, and what follows is left to other readers. -/
theorem LocalAt.append (hne : front ≠ []) (hp : p (front ++ ts) = r ts)
    (hq : ∀ k n ts', q (k + 1) (n + 1) (front ++ ts') = w k n ts') (h : LocalAt r w ts) :
    LocalAt p q (front ++ ts) := by
  have hpos : 0 < front.length := List.length_pos_iff.mpr hne
  have hq' : ∀ k n ts', (front ++ ts').length ≤ k → (front ++ ts').length ≤ n →
      q k n (front ++ ts') = w (k - 1) (n - 1) ts' := by
    intro k n ts' hk hn
    rw [List.length_append] at hk hn
    obtain ⟨k, rfl⟩ := Nat.exists_eq_add_one_of_ne_zero (show k ≠ 0 by omega)
    obtain ⟨n, rfl⟩ := Nat.exists_eq_add_one_of_ne_zero (show n ≠ 0 by omega)
    exact hq k n ts'
  unfold LocalAt at h ⊢
  rw [hp]
  split at h
  · next a rest hrun =>
    obtain ⟨used, rfl, hsame⟩ := h
    refine ⟨front ++ used, by simp, fun rest' k n halike hk hn => ?_⟩
    rw [List.append_assoc] at hk hn ⊢
    rw [hq' k n _ hk hn]
    rw [List.length_append] at hk hn
    exact hsame rest' (k - 1) (n - 1) halike (by omega) (by omega)
  · obtain hend | ⟨front', t, back, rfl, he, hsame⟩ := h
    · exact .inl hend
    · refine .inr ⟨front ++ front', t, back, by simp, he, fun hnot back' k n hk hn => ?_⟩
      rw [List.append_assoc] at hk hn ⊢
      rw [hq' k n _ hk hn]
      rw [List.length_append] at hk hn
      exact hsame hnot back' (k - 1) (n - 1) (by omega) (by omega)

/-- One token is taken off the front, and what follows is left to other readers. -/
theorem LocalAt.cons (hp : p (t :: ts) = r ts) (hq : ∀ k n ts', q (k + 1) (n + 1) (t :: ts') = w k n ts')
    (h : LocalAt r w ts) : LocalAt p q (t :: ts) :=
  LocalAt.append (List.cons_ne_nil t []) hp hq h

/-- The first token is all that is read. -/
theorem localAt_take (hp : p (t :: ts) = .ok (a, ts))
    (hq : ∀ k n ts', q (k + 1) (n + 1) (t :: ts') = .ok (a, ts')) : LocalAt p q (t :: ts) :=
  .cons (r := fun ts => .ok (a, ts)) (w := fun _ _ ts => .ok (a, ts)) hp hq
    (localAt_stop rfl fun _ _ _ _ => rfl)

/-- Only what readers do on texts with the same first token matters. -/
theorem LocalAt.congr_cons (hp : p (t :: ts) = r (t :: ts))
    (hq : ∀ k n ts', q (k + 1) (n + 1) (t :: ts') = w (k + 1) (n + 1) (t :: ts')) (h : LocalAt r w (t :: ts)) :
    LocalAt p q (t :: ts) := by
  have hq' : ∀ k n ts', (t :: ts').length ≤ k → (t :: ts').length ≤ n → q k n (t :: ts') = w k n (t :: ts') := by
    intro k n ts' hk hn
    obtain ⟨k, rfl⟩ := Nat.exists_eq_add_one_of_ne_zero (Nat.ne_zero_of_lt hk)
    obtain ⟨n, rfl⟩ := Nat.exists_eq_add_one_of_ne_zero (Nat.ne_zero_of_lt hn)
    exact hq k n ts'
  unfold LocalAt at h ⊢
  rw [hp]
  split at h
  · next a rest hrun =>
    obtain ⟨used, hts, hsame⟩ := h
    refine ⟨used, hts, fun rest' k n halike hk hn => ?_⟩
    obtain ⟨us, hus⟩ : ∃ us, used ++ rest' = t :: us := by
      have halike' : Alike (t :: ts) (used ++ rest') := hts ▸ halike.append used
      exact halike'.eq_cons
    rw [← hsame rest' k n halike hk hn, hus, hq' k n us (hus ▸ hk) (hus ▸ hn)]
  · obtain hend | ⟨front, u, back, hts, he, hsame⟩ := h
    · exact .inl hend
    · refine .inr ⟨front, u, back, hts, he, fun hnot back' k n hk hn => ?_⟩
      obtain ⟨us, hus⟩ : ∃ us, front ++ u :: back' = t :: us := by
        have halike' : Alike (t :: ts) (front ++ u :: back') :=
          hts ▸ (alike_cons_of_ne_not hnot back back').append front
        exact halike'.eq_cons
      rw [← hsame hnot back' k n hk hn, hus, hq' k n us (hus ▸ hk) (hus ▸ hn)]

/-- Readers one after the other look no further than the later one. -/
theorem LocalAt.andThen {f : α → Reader β} {g : α → Nat → Nat → Reader β} (h : LocalAt p q ts)
    (hf : ∀ a rest, rest.length ≤ ts.length → LocalAt (f a) (g a) rest) :
    LocalAt (p.andThen f) (fun k n => (q k n).andThen fun a => g a k n) ts := by
  have herror : ∀ {k n e us}, q k n us = .error e → (q k n).andThen (fun a => g a k n) us = .error e := by
    intro k n e us hrun
    rw [Reader.andThen, hrun]
    rfl
  have hok : ∀ {k n a rest us}, q k n us = .ok (a, rest) →
      (q k n).andThen (fun a => g a k n) us = g a k n rest := by
    intro k n a rest us hrun
    rw [Reader.andThen, hrun]
    rfl
  unfold LocalAt at h
  split at h
  · next a mid hrun =>
    obtain ⟨used, rfl, hsame⟩ := h
    have hmid := hf a mid (by simp)
    unfold LocalAt at hmid ⊢
    rw [show p.andThen f (used ++ mid) = f a mid by rw [Reader.andThen, hrun]; rfl]
    split at hmid
    · next b rest hrun' =>
      obtain ⟨used', rfl, hsame'⟩ := hmid
      refine ⟨used ++ used', by simp, fun rest' k n halike hk hn => ?_⟩
      rw [List.append_assoc] at hk hn ⊢
      refine (hok (hsame _ k n (halike.append used') hk hn)).trans ?_
      rw [List.length_append] at hk hn
      exact hsame' rest' k n halike (by omega) (by omega)
    · obtain hend | ⟨front, t, back, rfl, he, hsame'⟩ := hmid
      · exact .inl hend
      · refine .inr ⟨used ++ front, t, back, by simp, he, fun hnot back' k n hk hn => ?_⟩
        rw [List.append_assoc] at hk hn ⊢
        have halike := (alike_cons_of_ne_not hnot back back').append front
        refine (hok (hsame _ k n halike hk hn)).trans ?_
        rw [List.length_append] at hk hn
        exact hsame' hnot back' k n (by omega) (by omega)
  · next e hrun =>
    unfold LocalAt
    rw [show p.andThen f ts = .error e by rw [Reader.andThen, hrun]; rfl]
    obtain hend | ⟨front, t, back, hts, he, hsame⟩ := h
    · exact .inl hend
    · exact .inr ⟨front, t, back, hts, he, fun hnot back' k n hk hn => herror (hsame hnot back' k n hk hn)⟩

/-- What is read may be changed. -/
theorem LocalAt.map (h : LocalAt p q ts) (f : α → β) :
    LocalAt (p.andThen fun a ts => .ok (f a, ts)) (fun k n => (q k n).andThen fun a ts => .ok (f a, ts)) ts :=
  h.andThen (g := fun a _ _ ts => .ok (f a, ts)) fun _ _ _ => localAt_stop rfl fun _ _ _ _ => rfl

/-- The number of tokens is a good bound for a loop. -/
theorem LocalAt.own (h : LocalAt p q ts) : LocalAt p (fun k _ ts => q k ts.length ts) ts := by
  unfold LocalAt at h ⊢
  split at h
  · obtain ⟨used, hts, hsame⟩ := h
    exact ⟨used, hts, fun rest' k _ halike hk _ => hsame rest' k _ halike hk (Nat.le_refl _)⟩
  · obtain hend | ⟨front, t, back, hts, he, hsame⟩ := h
    · exact .inl hend
    · exact .inr ⟨front, t, back, hts, he, fun hnot back' k _ hk _ => hsame hnot back' k _ hk (Nat.le_refl _)⟩

/-- A token that is expected is looked at. -/
theorem taken_localAt (expected : Token) (ts : List Located) :
    LocalAt expected.taken (fun _ _ => expected.taken) ts := by
  cases ts with
  | nil => exact localAt_end rfl
  | cons t ts =>
      by_cases ht : t.token = expected
      · refine localAt_take (a := ()) ?_ ?_
        · simp [Token.taken, Token.expect, ht, Except.map]
        · simp [Token.taken, Token.expect, ht, Except.map]
      · refine localAt_unexpected ?_ ?_
        · simp [Token.taken, Token.expect, ht, Except.map]
        · simp [Token.taken, Token.expect, ht, Except.map]

end Rules

end Expr

end FiniteDomain
