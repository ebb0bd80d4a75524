import XPath.Proofs.Composition
import XPath.Proofs.TextRoundTrip

/-!
# Words of parsed expressions

Every word that a parsed expression is rendered with is one lexeme (`isWhole_of_parseAll`), so there
is no blank in it, whatever its strings and URIs contain.

A string is three tokens and one lexeme, and spelling keeps these together. A URI may end within a
literal, where a closing brace is the content, and then the next token is not the first one of a
lexeme but the quote at the end of the literal (`Lexeme.exists_rest`). No quote can follow a URI:
every URI has a word after it (`Composed`).
-/

namespace XPath

namespace Lexeme

/-- The tokens after one that is no quote are those of lexemes, unless that token is the content of
a literal. -/
theorem exists_rest {ls : List Lexeme} (hj : Joined ls) {w ts : List Token} {t : Token}
    (h : ls.flatMap tokens = w ++ t :: ts) (ht : t.isQuote = false) :
    (∃ ls', Joined ls' ∧ ls'.flatMap tokens = ts) ∨ ∃ q ∈ ts.head?, q.isQuote := by
  induction ls generalizing w with
  | nil => simp at h
  | cons l ls ih =>
    obtain ⟨hl, -, hls⟩ := hj
    -- The token of a lexeme that has only one is the one that is looked for, or stands in front.
    have hsingle {u : Token} (hu : u :: ls.flatMap tokens = w ++ t :: ts) :
        (∃ ls', Joined ls' ∧ ls'.flatMap tokens = ts) ∨ ∃ q ∈ ts.head?, q.isQuote := by
      cases w with
      | nil => exact .inl ⟨ls, hls, (List.cons.inj hu).2⟩
      | cons v w => exact ih hls (List.cons.inj hu).2
    cases l with
    | space => exact hsingle h
    | plain text => exact hsingle h
    | literal quote content =>
      have hquote : Token.isQuote (String.singleton quote) := isQuote_singleton hl
      rw [List.flatMap_cons, tokens] at h
      -- The token is the first quote, the content, the second quote, or after the literal.
      rcases w with _ | ⟨_, _ | ⟨_, _ | ⟨_, w⟩⟩⟩
      · obtain ⟨rfl, -⟩ := List.cons.inj h
        simp [hquote] at ht
      · obtain ⟨-, -, hts⟩ : _ ∧ _ ∧ _ := by simpa using h
        exact .inr ⟨_, hts ▸ rfl, hquote⟩
      · obtain ⟨-, -, rfl, -⟩ : _ ∧ _ ∧ _ ∧ _ := by simpa using h
        simp [hquote] at ht
      · obtain ⟨-, -, -, hrest⟩ : _ ∧ _ ∧ _ ∧ _ := by simpa using h
        exact ih hls hrest

end Lexeme

/-- What spells a word begins with no quote. -/
theorem Spells.isQuote_head? {ts rest : List Token} {t : Token} {ps : List Piece}
    (h : Spells ts (.text t :: ps) rest) : ∀ q ∈ ts.head?, q.isQuote = false := by
  rintro q hq
  generalize hps : Piece.text t :: ps = ps' at h
  cases h with
  | space => exact Option.some.inj hq ▸ rfl
  | text ht => exact Option.some.inj hq ▸ Token.isQuote_eq_false ht
  | digits ht => exact Option.some.inj hq ▸ Token.isQuote_eq_false (Token.isWord_of_isDigits ht)
  | fraction _ hw => exact Option.some.inj hq ▸ Token.isQuote_eq_false (hw _ List.mem_cons_self)
  | _ => cases hps

/-- The words that a text spells are lexemes. -/
theorem Spells.isWhole {W : Token → Prop} {ts rest : List Token} {ps : List Piece}
    (h : Spells ts ps rest) (hc : Composed W ps) :
    ∀ {ls : List Lexeme}, Lexeme.Joined ls → ls.flatMap Lexeme.tokens = ts →
      ∀ t, .text t ∈ ps → (Lexeme.plain t.toList).isWhole := by
  induction h with
  | nil ts => simp
  | @space ts ps rest hs ih =>
    intro ls hj hls
    obtain ⟨ms, ls', rfl, -, hls', -⟩ := Lexeme.exists_append hj
      (show _ = [Token.space] ++ ts from hls) (by simp [Token.space, Token.isQuote])
    exact ih hc hj.append_right hls'
  | gap hs ih =>
    intro ls hj hls t ht
    exact ih hc.tail hj hls t (List.mem_of_ne_of_mem (by simp) ht)
  | text hword hs ih =>
    intro ls hj hls t ht
    obtain ⟨ls', rfl, hls'⟩ := Lexeme.exists_plain hj hls hword
    rcases List.mem_cons.mp ht with ht | ht
    · cases ht
      exact hj.1
    · exact ih hc.tail hj.2.2 hls' t ht
  | digits hdigits hs ih =>
    intro ls hj hls t ht
    obtain ⟨ls', rfl, hls'⟩ := Lexeme.exists_plain hj hls (Token.isWord_of_isDigits hdigits)
    rcases List.mem_cons.mp ht with ht | ht
    · cases ht
      exact lexed_of_isDigits (Token.isDigits_repr _)
    · exact ih hc.tail hj.2.2 hls' t ht
  | fraction hab hw hq hs ih =>
    intro ls hj hls t ht
    obtain ⟨ms, ls', rfl, -, hls', -⟩ := Lexeme.exists_append hj
      (show _ = (_ :: _ :: _) ++ _ from hls) fun t ht => Token.isQuote_eq_false (hw t ht)
    rcases List.mem_append.mp ht with ht | ht
    · exact hq.lexed _ ht
    · exact ih hc.append_right hj.append_right hls' t ht
  | string hq hs ih =>
    intro ls hj hls t ht
    obtain ⟨l, ls', rfl, hls'⟩ := Lexeme.exists_literal hj hls hq
    exact ih hc.tail hj.2.2 hls' t (List.mem_of_ne_of_mem (by simp) ht)
  | bracedUri hw hs ih =>
    intro ls hj hls t ht
    obtain ⟨ls₁, rfl, hmark⟩ := Lexeme.exists_plain hj hls rfl
    obtain ⟨ls₂, rfl, hbrace⟩ := Lexeme.exists_plain hj.2.2 hmark rfl
    cases hc with
    | uri _ hc =>
      rcases Lexeme.exists_rest hj.2.2.2.2 hbrace rfl with ⟨ls', hj', hls'⟩ | ⟨q, hq, hquote⟩
      · exact ih hc hj' hls' t (List.mem_of_ne_of_mem (by simp) ht)
      · simp [hs.isQuote_head? q hq] at hquote

/-- The words of a parsed expression are lexemes. -/
theorem isWhole_of_parseAll {maxDepth : Nat} {source : String} {n : Node}
    (h : parseAll maxDepth source = .ok n) :
    ∀ t, .text t ∈ n.pieces → (Lexeme.plain t.toList).isWhole := by
  obtain ⟨ts, hts, hparse⟩ := parseAll_eq_ok.mp h
  obtain ⟨ls, hscan, rfl⟩ := tokenize_eq_ok hts
  obtain ⟨rest, hrest, -⟩ := parseAllTokens_eq_ok.mp hparse
  obtain ⟨hspells, -, -⟩ := Grammar.expr_sound (Grammar.nested_sound maxDepth) hrest
  have hcomposed := n.composed (W := fun _ => True) (fun _ _ => trivial) fun _ _ => trivial
  exact hspells.isWhole hcomposed (Lexeme.joined_of_scan hscan) rfl

end XPath
