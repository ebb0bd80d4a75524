import XPath.Proofs.Complete.Expr
import XPath.Proofs.Parse

/-!
# Round trip through tokens

Soundness says that what is parsed fits the levels it was parsed with, and completeness that what
fits them is parsed from what is written of it (`parseAllTokens_write`). A rendered expression ends
with no space that finishing its tokens could drop (`Tree.tokens_eq_write`). Together, the tokens of
a parsed expression are parsed as the same expression, and rendered alike
(`parseAllTokens_tokens`).
-/

namespace XPath

open Grammar

variable {maxDepth : Nat} {ts : List Token} {n : Node}

/-! ## Finished tokens -/

theorem Piece.dropFinalSpace_concat (ts : List Token) {t : Token} (h : t.isSpace = false) :
    dropFinalSpace (ts ++ [t]) = ts ++ [t] := by
  induction ts with
  | nil => simp [dropFinalSpace, h]
  | cons u us ih =>
    rw [List.cons_append, dropFinalSpace, ih]
    simp

/-- The last token of a solid piece is a word, a quote or a brace. -/
theorem Piece.exists_last {σ : UriTokens} {ps : List Piece} (h : Closes ps) (spaced : Bool) :
    ∃ ts t, lay σ spaced ps = ts ++ [t] ∧ t.isSpace = false := by
  induction ps generalizing spaced with
  | nil => cases h
  | cons p ps ih =>
    cases ps with
    | nil =>
      cases p with
      | text t =>
        exact ⟨[], t, rfl, Token.isSpace_eq_false h⟩
      | string s => exact ⟨["\"", s], "\"", rfl, rfl⟩
      | bracedUri u => exact ⟨"Q" :: "\x7b" :: σ.tokens u, "\x7d", rfl, rfl⟩
      | gap => cases h
    | cons q ps =>
      have ih := ih (by simpa [Closes] using h)
      cases p with
      | text t =>
        obtain ⟨ts, u, hts, hu⟩ := ih t.isSpace
        exact ⟨t :: ts, u, by rw [lay, hts, List.cons_append], hu⟩
      | string s =>
        obtain ⟨ts, u, hts, hu⟩ := ih false
        exact ⟨"\"" :: s :: "\"" :: ts, u, by rw [lay, hts]; rfl, hu⟩
      | bracedUri v =>
        obtain ⟨ts, u, hts, hu⟩ := ih false
        exact ⟨"Q" :: "\x7b" :: (σ.tokens v ++ "\x7d" :: ts), u, by rw [lay, hts]; simp, hu⟩
      | gap =>
        obtain ⟨ts, u, hts, hu⟩ := ih true
        cases spaced with
        | true => exact ⟨ts, u, hts, hu⟩
        | false => exact ⟨Token.space :: ts, u, by rw [lay, hts]; rfl, hu⟩

/-- Rendering writes every URI as one token, and drops nothing at the end. -/
theorem Piece.tokens_eq_write {ps : List Piece} (h : Closes ps) : tokens ps = write .whole ps := by
  obtain ⟨ts, t, hts, ht⟩ := exists_last (σ := .whole) h true
  rw [tokens, tokensAfter_eq_lay, Option.all_none, hts, dropFinalSpace_concat ts ht, ← hts]
  rfl

theorem Tree.tokens_eq_write {levels : Nat} (h : n.Fits levels) :
    n.tokens = Piece.write .whole n.pieces :=
  Piece.tokens_eq_write (n.solid h).closes

/-! ## Round trip -/

/-- What fits the levels is read from its tokens, however its URIs are written. -/
theorem parseAllTokens_write (σ : UriTokens) (hkind : n.kind = .expr) (h : n.Fits maxDepth) :
    parseAllTokens maxDepth (Piece.write σ n.pieces) = .ok n.canon := by
  have hreads : (expr (nested maxDepth)).Reads (Piece.write σ n.pieces) n.canon [] :=
    expr_complete (nested_complete σ maxDepth) hkind h .nil rfl (by simp [Token.skipSpace])
  have hread := hreads.write (n.solid h).starts
  rw [List.append_nil] at hread
  exact parseAllTokens_eq_ok.mpr ⟨[], hread, rfl⟩

theorem fits_of_parseAllTokens (h : parseAllTokens maxDepth ts = .ok n) :
    n.kind = .expr ∧ n.Fits maxDepth := by
  obtain ⟨rest, hrest, -⟩ := parseAllTokens_eq_ok.mp h
  obtain ⟨-, hkind, hfits⟩ := expr_sound (nested_sound maxDepth) hrest
  exact ⟨hkind, hfits⟩

/-- The tokens of a tree and of its canonical form are the same. -/
theorem Tree.tokens_canon {levels : Nat} (h : n.Fits levels) : n.canon.tokens = n.tokens := by
  rw [tokens, tokens, n.pieces_canon h]

/-- Rendering is undone by parsing: the same expression is read from the tokens of what was parsed,
with as many levels, and its tokens are these again. -/
theorem parseAllTokens_tokens (h : parseAllTokens maxDepth ts = .ok n) :
    ∃ n', parseAllTokens maxDepth n.tokens = .ok n' ∧ n'.same n ∧ n'.tokens = n.tokens := by
  obtain ⟨hkind, hfits⟩ := fits_of_parseAllTokens h
  refine ⟨n.canon, ?_, n.same_canon hfits, Tree.tokens_canon hfits⟩
  rw [Tree.tokens_eq_write hfits]
  exact parseAllTokens_write .whole hkind hfits

/-- A lone slash, and a decimal that shows a digit after its point only once it is rendered. -/
theorem parseAllTokens_tokens_slash :
    ∃ n n', parseAllTokens 2 ["/", " ", "|", "(", "1", ".", ")"] = .ok n ∧
    parseAllTokens 2 n.tokens = .ok n' ∧ n'.same n ∧ n'.tokens = n.tokens :=
  have h : parseAllTokens 2 ["/", " ", "|", "(", "1", ".", ")"] =
      .ok (.of (.expr [.of (.chain .union (.of (.path .slash none)) [(.pipe, .of (.parenthesized
        (some (.of (.expr [.of (.decimal ⟨1, 0⟩)])))))])])) := rfl
  ⟨_, (parseAllTokens_tokens h).choose, h, (parseAllTokens_tokens h).choose_spec⟩

end XPath
