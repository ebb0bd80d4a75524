import XPath.Proofs.RoundTrip
import XPath.Proofs.TokenText

/-!
# Strings of any content

The quotes of a content are doubled when its literal is written, and counted once when it is read.
Between its two quotes a content is one token, so it is taken for nothing else: not for the end of
the literal, not for a space, and not for the token that it may look like
(`tokenize_join_literal`). A literal and nothing else is the expression that is this string, at the
cost of one level of nesting (`fits_loneString`). Together, every string is read back from its own
text (`string_text`).
-/

namespace XPath

/-! ## Tokens -/

/-- Lexemes in a row are read from what their tokens are joined to. -/
theorem tokenize_join_tokens {ls : List Lexeme} (h : Lexeme.Joined ls) :
    tokenize (Token.join (ls.flatMap Lexeme.tokens)) = .ok (ls.flatMap Lexeme.tokens) := by
  rw [Token.join, Lexeme.joinChars_tokens h.whole, tokenize, String.toList_ofList,
    Lexeme.scan_chars h]

theorem Token.exists_quote {q : Token} (h : q.isQuote) :
    ∃ c, q = String.singleton c ∧ Lexeme.isQuote c := by
  obtain rfl | rfl : q = "'" ∨ q = "\"" := by simpa [Token.isQuote] using h
  · exact ⟨'\'', rfl, rfl⟩
  · exact ⟨'"', rfl, rfl⟩

/-- A literal is read as its quotes and its content, whatever the content is. -/
theorem tokenize_join_literal {q : Token} (hq : q.isQuote) (content : String) :
    tokenize (Token.join [q, content, q]) = .ok [q, content, q] := by
  obtain ⟨c, rfl, hc⟩ := Token.exists_quote hq
  have hj : Lexeme.Joined [.literal c content.toList] := ⟨hc, by simp, trivial⟩
  have htokens : [Lexeme.literal c content.toList].flatMap Lexeme.tokens =
      [String.singleton c, content, String.singleton c] := by
    simp [Lexeme.tokens]
  rw [← htokens]
  exact tokenize_join_tokens hj

/-! ## Expressions -/

/-- The expression that is a single string. -/
def Node.loneString (content : String) : Node := .of (.expr [.of (.string content)])

theorem fits_loneString (content : String) (levels : Nat) :
    (Node.loneString content).Fits (levels + 1) := by
  have hstring : (Node.of (.string content)).Fits levels :=
    Tree.fits_node.mpr (.of_leaf rfl rfl rfl trivial trivial)
  refine Tree.fits_node.mpr (.of_singles rfl ?_ (List.cons_ne_nil _ _) trivial ?_)
  · intro e he
    obtain rfl := List.mem_singleton.mp he
    exact ⟨Nat.zero_lt_succ _, levels, rfl, hstring⟩
  · simp [Form.followers]

theorem pieces_string (content : String) : (Node.of (.string content)).pieces = [.string content] :=
  Tree.pieces_node () _

theorem pieces_loneString (content : String) :
    (Node.loneString content).pieces = [.string content] := by
  rw [Node.loneString, Node.of, Tree.pieces_node]
  exact pieces_string content

theorem canon_loneString (content : String) :
    (Node.loneString content).canon = Node.loneString content := by
  rw [Node.loneString, Tree.canon_of]
  simp [Form.map, Form.canon, Tree.canon_of]

/-- The tokens of a literal are parsed as the string that it is. -/
theorem parseAllTokens_string (content : String) (maxDepth : Nat) :
    parseAllTokens (maxDepth + 1) ["\"", content, "\""] = .ok (Node.loneString content) := by
  have h := parseAllTokens_write .whole rfl (fits_loneString content maxDepth)
  rw [pieces_loneString, canon_loneString] at h
  exact h

/-- A content is read from its literal as it is, with either quote, and the text of a string is the
expression that is this string. -/
theorem string_text (content : String) :
    (∀ q : Token, q.isQuote → tokenize (Token.join [q, content, q]) = .ok [q, content, q]) ∧
      ∀ maxDepth, parseAll (maxDepth + 1) (Node.of (.string content)).text =
        .ok (.of (.expr [.of (.string content)])) := by
  refine ⟨fun q hq => tokenize_join_literal hq content, fun maxDepth => ?_⟩
  have htokens : (Node.of (.string content)).tokens = ["\"", content, "\""] := by
    rw [Tree.tokens, pieces_string]
    rfl
  refine parseAll_eq_ok.mpr ⟨_, ?_, parseAllTokens_string content maxDepth⟩
  rw [Tree.text, htokens]
  exact tokenize_join_literal rfl content

/-- Quotes of both kinds in a row, a space at each end, a line break and a brace. -/
theorem string_text_quotes :
    Token.isQuote "'" ∧
      tokenize (Token.join ["'", " ''\"\"\"\n\x7b' ", "'"]) = .ok ["'", " ''\"\"\"\n\x7b' ", "'"] ∧
      (Node.of (.string " ''\"\"\"\n\x7b' ")).text = "\" ''\"\"\"\"\"\"\n\x7b' \"" ∧
      parseAll defaultMaxDepth "\" ''\"\"\"\"\"\"\n\x7b' \"" =
        .ok (.of (.expr [.of (.string " ''\"\"\"\n\x7b' ")])) := by
  have hquote : Token.isQuote "'" := rfl
  obtain ⟨hliteral, hparse⟩ := string_text " ''\"\"\"\n\x7b' "
  have htext : (Node.of (.string " ''\"\"\"\n\x7b' ")).text = "\" ''\"\"\"\"\"\"\n\x7b' \"" := by
    decide +kernel
  exact ⟨hquote, hliteral "'" hquote, htext, htext ▸ hparse 31⟩

end XPath
