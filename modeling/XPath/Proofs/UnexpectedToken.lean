import XPath.Proofs.Parse
import XPath.Proofs.Stops.Expr

/-!
# Where an error is reported

An unexpected token is reported with its index, and the index is the end of the tokens only if every
bracket before it is closed (`parseAll_unexpectedToken`). The input that ends inside of `item(` or
`empty-sequence(` is the exception: neither parenthesis is looked for inside of a bracket, and so
the error is not moved to the parenthesis that is open (`parseAll_item`).
-/

namespace XPath

open Grammar

variable {maxDepth position : Nat} {ts : List Token} {found : Option Token} {expected : String}

theorem parseAllTokens_unexpectedToken
    (h : parseAllTokens maxDepth ts = .error (.unexpectedToken position found expected)) :
    position ≤ ts.length ∧ found = ts[position]? ∧ (position = ts.length → EndsClosed ts) := by
  have hstops := expr_consumes (nested_stops maxDepth) ts
  cases he : expr (nested maxDepth) ts with
  | ok x =>
    obtain ⟨n, rest⟩ := x
    rw [parseAllTokens_of_ok he] at h
    cases hs : Token.skipSpace rest <;> simp [hs] at h
  | error e =>
    rw [parseAllTokens_of_error he] at h
    rw [he] at hstops
    cases e with
    | tooDeep _ | value _ => cases h
    | unexpected at' e =>
      obtain ⟨⟨hsuffix, -⟩, hend⟩ := hstops
      obtain ⟨rfl, rfl, rfl⟩ : 0 + (ts.length - at'.length) = position ∧ at'.head? = found ∧
          e = expected := by
        simpa [Failure.toError] using h
      have hlen := hsuffix.length_le
      refine ⟨by omega, ?_, fun hpos => hend e ?_⟩
      · rw [Nat.zero_add, ← List.head?_drop, ← List.suffix_iff_eq_drop.mp hsuffix]
      · rw [List.eq_nil_of_length_eq_zero (l := at') (by omega)]

/-- Whatever is unexpected is found where it is reported, and the end is reported where nothing is
open. -/
theorem parseAll_unexpectedToken {source : String}
    (h : parseAll maxDepth source = .error (.unexpectedToken position found expected)) :
    ∃ ts, tokenize source = .ok ts ∧ position ≤ ts.length ∧ found = ts[position]? ∧
      (position = ts.length → EndsClosed ts) := by
  rw [parseAll, tokensOf] at h
  cases hts : tokenize source with
  | error e =>
    rw [hts] at h
    cases h
  | ok ts =>
    rw [hts] at h
    exact ⟨ts, rfl, parseAllTokens_unexpectedToken h⟩

theorem parseAll_of_error {source : String} {e : ParseError} (hts : tokenize source = .ok ts)
    (h : parseAllTokens maxDepth ts = .error e) : parseAll maxDepth source = .error e := by
  rw [parseAll, tokensOf, hts]
  exact h

/-- Plain tokens in front, of which none may begin a braced URI, close nothing. -/
theorem Balanced.of_append {us vs : List Token} (hu : ∀ t ∈ us, t.isPlain ∧ t ≠ "Q")
    (h : Balanced (us ++ vs)) : Balanced vs := by
  induction us with
  | nil => exact h
  | cons t us ih =>
    obtain ⟨ht, hq⟩ := hu t (by simp)
    refine ih (fun u hmem => hu u (by simp [hmem])) ?_
    rw [List.cons_append] at h
    generalize hts : t :: (us ++ vs) = ts at h
    cases h with
    | nil => cases hts
    | plain _ h =>
      cases hts
      exact h
    | string hquote =>
      obtain ⟨rfl, -⟩ := List.cons.inj hts
      simp [Token.isPlain, hquote] at ht
    | bracedUri =>
      obtain ⟨rfl, -⟩ := List.cons.inj hts
      exact absurd rfl hq
    | bracket hb =>
      obtain ⟨rfl, -⟩ := List.cons.inj hts
      simp only [Brackets, List.mem_cons, Prod.mk.injEq, List.not_mem_nil, or_false] at hb
      rcases hb with ⟨rfl, -⟩ | ⟨rfl, -⟩ | ⟨rfl, -⟩ <;> exact absurd ht (by decide)

theorem not_balanced_open : ¬ Balanced ["("] := by
  generalize hts : ["("] = ts
  intro h
  cases h with
  | nil => cases hts
  | plain ht =>
    cases hts
    exact absurd ht (by decide)
  | string | bracedUri | bracket =>
    have := congrArg List.length hts
    simp at this

/-- The parenthesis at index 7 is open, and the error is reported behind it. -/
theorem parseAll_item : tokenize "1 instance of item(" =
      .ok ["1", " ", "instance", " ", "of", " ", "item", "("] ∧
    ¬ Balanced ["1", " ", "instance", " ", "of", " ", "item", "("] ∧
    parseAll 32 "1 instance of item(" =
      .error (.unexpectedToken 8 none "')' of ItemType") := by
  have hts : tokenize "1 instance of item(" =
      .ok ["1", " ", "instance", " ", "of", " ", "item", "("] := by decide +kernel
  refine ⟨hts, fun h => not_balanced_open ?_, parseAll_of_error hts rfl⟩
  have h : Balanced (["1", " ", "instance", " ", "of", " ", "item"] ++ ["("]) := h
  exact h.of_append (by decide)

/-- The same error, with what is known of it. -/
theorem parseAll_unexpectedToken_item : parseAll 32 "1 instance of item(" =
      .error (.unexpectedToken 8 none "')' of ItemType") ∧
    ∃ ts, tokenize "1 instance of item(" = .ok ts ∧ 8 ≤ ts.length ∧ none = ts[8]? ∧
      (8 = ts.length → EndsClosed ts) :=
  have h : parseAll 32 "1 instance of item(" =
      .error (.unexpectedToken 8 none "')' of ItemType") :=
    have hts : tokenize "1 instance of item(" =
        .ok ["1", " ", "instance", " ", "of", " ", "item", "("] := by decide +kernel
    parseAll_of_error hts rfl
  ⟨h, parseAll_unexpectedToken h⟩

end XPath
