import XPath.Proofs.Parse

/-!
# Nothing is lost

The four liberties between tokens and the pieces they spell (`Spells`) leave traces in the tokens: a
quote, the mark of a braced URI, a zero in front of digits, or two tokens that begin a number with a
point or an exponent. Tokens without such traces (`Plain`) are those of the rendered tree, up to
spaces (`withoutSpaces_of_parseAllTokens`).
-/

namespace XPath

/-! ## Pieces without gaps -/

/-- The tokens that are not space. -/
def Token.withoutSpaces (ts : List Token) : List Token := ts.filter (!·.isSpace)

/-- The tokens of a piece. -/
def Piece.words : Piece → List Token
  | text t => [t]
  | string s => ["\"", s, "\""]
  | bracedUri u => ["Q", "\x7b", u, "\x7d"]
  | gap => []

namespace Token

theorem withoutSpaces_append (ts us : List Token) :
    withoutSpaces (ts ++ us) = withoutSpaces ts ++ withoutSpaces us :=
  List.filter_append ..

theorem withoutSpaces_cons_space (ts : List Token) :
    withoutSpaces (space :: ts) = withoutSpaces ts :=
  rfl

theorem withoutSpaces_of_skipSpace {ts : List Token} (h : skipSpace ts = []) :
    withoutSpaces ts = [] := by
  cases ts with
  | nil => rfl
  | cons t ts =>
    rw [skipSpace] at h
    split at h
    next hs => simp [withoutSpaces, hs, h]
    · cases h

end Token

open Token

/-- Gaps only decide about spaces. -/
theorem Piece.withoutSpaces_tokensAfter (last : Option Token) (ps : List Piece) :
    withoutSpaces (tokensAfter last ps) = withoutSpaces (ps.flatMap words) := by
  induction ps generalizing last with
  | nil => rfl
  | cons p ps ih =>
    rw [List.flatMap_cons, withoutSpaces_append]
    cases p with
    | text t =>
      rw [tokensAfter, ← ih (some t), ← withoutSpaces_append]
      rfl
    | string s =>
      rw [tokensAfter, ← ih (some "\""), ← withoutSpaces_append]
      rfl
    | bracedUri u =>
      rw [tokensAfter, ← ih (some "\x7d"), ← withoutSpaces_append]
      rfl
    | gap =>
      rw [tokensAfter]
      split
      · exact ih last
      · rw [withoutSpaces_cons_space]
        exact ih (some space)

theorem Piece.withoutSpaces_dropFinalSpace (ts : List Token) :
    withoutSpaces (dropFinalSpace ts) = withoutSpaces ts := by
  fun_induction dropFinalSpace ts with
  | case1 => rfl
  | case2 t hs => simp [withoutSpaces, hs]
  | case3 t hs => rfl
  | case4 t ts _ ih =>
    have hc (us : List Token) : withoutSpaces (t :: us) = withoutSpaces [t] ++ withoutSpaces us :=
      withoutSpaces_append [t] us
    rw [hc, hc ts, ih]

/-- Apart from spaces, the tokens of pieces are their words. -/
theorem Piece.withoutSpaces_tokens (ps : List Piece) :
    withoutSpaces (tokens ps) = withoutSpaces (ps.flatMap words) := by
  rw [tokens, withoutSpaces_dropFinalSpace, withoutSpaces_tokensAfter]

/-! ## Digits -/

theorem toNat_of_isDigit {c : Char} (h : c.isDigit) : 48 ≤ c.toNat ∧ c.toNat ≤ 57 := by
  simpa [Char.isDigit, UInt32.le_iff_toNat_le] using h

/-- A digit is the one of its value. -/
theorem digitChar_of_isDigit {c : Char} (h : c.isDigit) : Nat.digitChar (c.toNat - 48) = c := by
  have hc : ∀ k < 10, Nat.digitChar k = Char.ofNat (48 + k) := by decide
  obtain ⟨hl, hu⟩ := toNat_of_isDigit h
  rw [hc _ (by omega), Nat.add_sub_cancel' hl, Char.ofNat_toNat]

/-- Digits are added to those of a positive number one by one. -/
theorem toDigits_ofDigitChars {cs : List Char} {n : Nat} (h : cs.all Char.isDigit) (hn : 0 < n) :
    Nat.toDigits 10 (Nat.ofDigitChars 10 cs n) = Nat.toDigits 10 n ++ cs := by
  induction cs generalizing n with
  | nil => simp
  | cons c cs ih =>
    obtain ⟨hc, hcs⟩ : c.isDigit ∧ cs.all Char.isDigit := by simpa using h
    have hd : c.toNat - 48 < 10 := by
      have := toNat_of_isDigit hc
      omega
    have hsnoc := Nat.toDigits_append_toDigits (b := 10) (by decide) hn hd
    rw [Nat.toDigits_of_lt_base hd, digitChar_of_isDigit hc] at hsnoc
    calc Nat.toDigits 10 (Nat.ofDigitChars 10 (c :: cs) n)
        = Nat.toDigits 10 (Nat.ofDigitChars 10 cs (10 * n + (c.toNat - 48))) :=
          congrArg _ Nat.ofDigitChars_cons
      _ = Nat.toDigits 10 (10 * n + (c.toNat - 48)) ++ cs := ih hcs (by omega)
      _ = Nat.toDigits 10 n ++ c :: cs := by rw [← hsnoc, List.append_assoc, List.singleton_append]

/-- Zero, or without a zero in front. -/
def Token.isCanonical (t : Token) : Bool := t == "0" || t.toList.head? != some '0'

/-- Digits without a zero in front are written as they are read. -/
theorem repr_ofDigitChars {t : Token} (h : t.isDigits) (hc : t.isCanonical) :
    Nat.repr (Nat.ofDigitChars 10 t.toList 0) = t := by
  obtain ⟨hne, hall⟩ := Token.isDigits_iff.mp h
  by_cases h0 : t = "0"
  · rw [h0]
    rfl
  · obtain ⟨c, cs, hcs⟩ := List.exists_cons_of_ne_nil hne
    obtain ⟨hd, hds⟩ : c.isDigit ∧ cs.all Char.isDigit := by simpa [hcs] using hall
    have hc0 : c ≠ '0' := by simpa [isCanonical, h0, hcs] using hc
    obtain ⟨hl, hu⟩ := toNat_of_isDigit hd
    have hpos : 0 < c.toNat - 48 := by
      have : c.toNat ≠ 48 := fun he => hc0 (Char.toNat_inj.mp he)
      omega
    have hvalue : Nat.ofDigitChars 10 (c :: cs) 0 = Nat.ofDigitChars 10 cs (c.toNat - 48) := by
      rw [Nat.ofDigitChars_cons, Nat.mul_zero, Nat.zero_add]
      rfl
    rw [Nat.repr_eq_ofList_toDigits, hcs, hvalue, toDigits_ofDigitChars hds hpos,
      Nat.toDigits_of_lt_base (by omega), digitChar_of_isDigit hd, List.singleton_append, ← hcs,
      String.ofList_toList]

/-! ## Plain tokens -/

/-- No string, no braced URI, no superfluous zero, and no number that is not a run of digits. -/
structure Plain (ts : List Token) : Prop where
  not_quote : ∀ t ∈ ts, t.isQuote = false
  ne_mark : ∀ t ∈ ts, t ≠ "Q"
  canonical : ∀ t ∈ ts, t.isDigits → t.isCanonical
  not_fraction : ∀ a b, [a, b] <:+: ts → startsFraction a b = false

/-- Plain tokens stay plain if some at the start are left out. -/
theorem Plain.of_suffix {ts us : List Token} (h : Plain ts) (hs : us <:+ ts) : Plain us where
  not_quote t ht := h.not_quote t (hs.subset ht)
  ne_mark t ht := h.ne_mark t (hs.subset ht)
  canonical t ht := h.canonical t (hs.subset ht)
  not_fraction a b hab := h.not_fraction a b (hab.trans hs.isInfix)

/-- Plain tokens are those that their pieces say, apart from spaces. -/
theorem Spells.withoutSpaces_eq {ts rest : List Token} {ps : List Piece} (h : Spells ts ps rest)
    (hp : Plain ts) :
    withoutSpaces ts = withoutSpaces (ps.flatMap Piece.words) ++ withoutSpaces rest := by
  induction h with
  | nil => rfl
  | space _ ih => exact ih (hp.of_suffix (List.suffix_cons _ _))
  | gap _ ih => exact ih hp
  | @text t ts ps rest ht _ ih =>
    rw [List.flatMap_cons, withoutSpaces_append, List.append_assoc,
      ← ih (hp.of_suffix (List.suffix_cons _ _)), ← withoutSpaces_append]
    rfl
  | @digits t ts ps rest ht _ ih =>
    rw [repr_ofDigitChars ht (hp.canonical t (by simp) ht), List.flatMap_cons,
      withoutSpaces_append, List.append_assoc, ← ih (hp.of_suffix (List.suffix_cons _ _)),
      ← withoutSpaces_append]
    rfl
  | @fraction a b w ts _ _ _ hab =>
    have : [a, b] <:+: a :: b :: (w ++ ts) := ⟨[], w ++ ts, rfl⟩
    exact absurd hab (by simp [hp.not_fraction a b this])
  | @string q _ _ _ _ hq => exact absurd hq (by simp [hp.not_quote q (by simp)])
  | bracedUri => exact absurd rfl (hp.ne_mark "Q" (by simp))

/-! ## Trees -/

/-- The tokens of a tree are those it was parsed from, in their order, up to spaces. -/
theorem withoutSpaces_of_parseAllTokens {maxDepth : Nat} {ts : List Token} {n : Node}
    (hp : Plain ts)
    (h : parseAllTokens maxDepth ts = .ok n) : withoutSpaces n.tokens = withoutSpaces ts := by
  obtain ⟨rest, hrest, hend⟩ := parseAllTokens_eq_ok.mp h
  obtain ⟨hs, -⟩ := Grammar.expr_sound (Grammar.nested_sound maxDepth) hrest
  rw [Tree.tokens, Piece.withoutSpaces_tokens, hs.withoutSpaces_eq hp,
    withoutSpaces_of_skipSpace hend, List.append_nil]

/-- A sign, parentheses and a comma. -/
theorem withoutSpaces_of_parseAllTokens_negated :
    Plain ["-", "(", "12", ",", "7", ")"] ∧
      ∃ n, parseAllTokens 2 ["-", "(", "12", ",", "7", ")"] = .ok n ∧
        withoutSpaces n.tokens = ["-", "(", "12", ",", "7", ")"] := by
  have hp : Plain ["-", "(", "12", ",", "7", ")"] := by
    refine ⟨by decide, by decide, by decide, fun a b hab => ?_⟩
    simp only [List.infix_cons_iff, List.cons_prefix_cons, List.nil_prefix, List.infix_nil] at hab
    rcases hab with h | h | h | h | h | h | h <;> simp_all <;> decide
  obtain ⟨n, h⟩ : ∃ n, parseAllTokens 2 ["-", "(", "12", ",", "7", ")"] = .ok n := ⟨_, rfl⟩
  exact ⟨hp, n, h, withoutSpaces_of_parseAllTokens hp h⟩

end XPath
