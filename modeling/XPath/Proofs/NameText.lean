import XPath.Proofs.Complete.Name
import XPath.Proofs.Parse
import XPath.Proofs.TokenText

/-!
# The text of a name test

The URI of a name test is rendered as one token, which is written as it is. So the text has the
tokens between the braces side by side, and it is read back as these tokens, as long as no string
literal among them has its own quote in its content (`nameTest_text`). Such a content has the quote
once as a token, is written like that in the text of the name test, and then the literal ends at
this quote (`nameTest_text_quote`).
-/

namespace XPath

open Grammar Rule

/-! ## Tokens of a name test -/

theorem eqName_pieces {us : List Token} {n : EQName} (hus : us.head? ≠ some Token.space)
    (hplain : ¬ startsBracedUri us = true) (h : eqName us = .ok (n, [])) :
    (∀ t ∈ us, Token.isWord t) ∧ n.pieces = Piece.ofTokens us := by
  rw [eqName_apply, skipSpace_eq_self hus, if_neg hplain] at h
  obtain ⟨first, mid, hfirst, h⟩ := bind_eq_ok.mp h
  obtain ⟨name?, mid', hcolon, hn⟩ := bind_eq_ok.mp h
  rw [ncName_apply, skipSpace_eq_self hus] at hfirst
  obtain ⟨t, mid'', hone, hpure⟩ := bind_eq_ok.mp hfirst
  obtain ⟨hname, rfl⟩ := one_eq_ok.mp hone
  obtain ⟨rfl, rfl⟩ := pure_eq_ok.mp hpure
  have hword := Token.isWord_of_startsName hname
  obtain ⟨rfl, rfl⟩ | ⟨last, rfl, rfl, hlast⟩ := colonName?_eq_ok hcolon
  · obtain ⟨rfl, rfl⟩ := pure_eq_ok.mp hn
    exact ⟨by simpa using hword, rfl⟩
  · obtain ⟨rfl, rfl⟩ := pure_eq_ok.mp hn
    exact ⟨by simpa using ⟨hword, rfl, Token.isWord_of_startsName hlast⟩, rfl⟩

/-- A name test is made of the pieces that its tokens are, or of a URI, for the tokens between its
braces, and the one after it. -/
theorem nameTest_pieces {us : List Token} {test : NameTest} (hus : us.head? ≠ some Token.space)
    (h : nameTest us = .ok (test, [])) :
    (∀ t ∈ us, Token.isWord t) ∧ test.pieces = Piece.ofTokens us ∨
      ∃ w last, us = "Q" :: "\x7b" :: (w ++ ["\x7d", last]) ∧ Token.isWord last ∧
        test.pieces = [.bracedUri (String.join w), .text last] := by
  have hword {n : NCName} (hn : n.WellFormed) : Token.isWord n.text := Token.isWord_of_startsName hn
  rw [nameTest_apply, skipSpace_eq_self hus] at h
  split at h
  next hstart =>
    obtain ⟨more, rfl⟩ := startsBracedUri_iff.mp hstart
    obtain ⟨uri, mid, hu, h⟩ := bind_eq_ok.mp h
    obtain ⟨w, rfl, -, rfl⟩ := bracedUri_iff.mp hu
    refine .inr ⟨w, ?_⟩
    obtain ⟨star, mid', hstar, h⟩ := bind_eq_ok.mp h
    obtain ⟨rfl, rfl⟩ | ⟨rfl, rfl, -⟩ := take?_eq_ok.mp hstar
    · obtain ⟨rfl, rfl⟩ := pure_eq_ok.mp h
      exact ⟨"*", rfl, rfl, rfl⟩
    · obtain ⟨n, mid', hn, h⟩ := bind_eq_ok.mp h
      obtain ⟨t, mid'', ht, hpure⟩ := bind_eq_ok.mp hn
      obtain ⟨hname, rfl⟩ := one_eq_ok.mp ht
      obtain ⟨rfl, rfl⟩ := pure_eq_ok.mp hpure
      obtain ⟨rfl, rfl⟩ := pure_eq_ok.mp h
      exact ⟨t, rfl, hword (n := ⟨t⟩) hname, rfl⟩
  next hstart =>
    refine .inl ?_
    obtain ⟨star, mid, hstar, ht⟩ := bind_eq_ok.mp h
    obtain ⟨rfl, rfl⟩ | ⟨rfl, rfl, -⟩ := take?_eq_ok.mp hstar
    · obtain ⟨name?, mid', hc, hk⟩ := bind_eq_ok.mp ht
      obtain ⟨rfl, rfl⟩ | ⟨name, rfl, rfl, hname⟩ := colonName?_eq_ok hc
      · obtain ⟨rfl, rfl⟩ := pure_eq_ok.mp hk
        exact ⟨by decide, rfl⟩
      · obtain ⟨rfl, rfl⟩ := pure_eq_ok.mp hk
        exact ⟨by simpa using ⟨rfl, rfl, hword hname⟩, rfl⟩
    · obtain ⟨name?, mid, hw, hk⟩ := bind_eq_ok.mp ht
      obtain ⟨rfl, rfl⟩ | ⟨name, rfl, rfl, hname⟩ := prefixWildcard?_eq_ok hw
      · obtain ⟨n, mid', hn, hk⟩ := bind_eq_ok.mp hk
        obtain ⟨rfl, rfl⟩ := pure_eq_ok.mp hk
        exact eqName_pieces hus hstart hn
      · obtain ⟨rfl, rfl⟩ := pure_eq_ok.mp hk
        exact ⟨by simpa using ⟨hword hname, rfl, rfl⟩, rfl⟩

theorem Piece.tokensAfter_ofTokens (ts : List Token) (last : Option Token) :
    tokensAfter last (ofTokens ts) = ts := by
  induction ts generalizing last with
  | nil => rfl
  | cons t ts ih => exact congrArg (t :: ·) (ih (some t))

theorem Piece.dropFinalSpace_words {ts : List Token} (h : ∀ t ∈ ts, Token.isWord t) :
    dropFinalSpace ts = ts := by
  induction ts with
  | nil => rfl
  | cons t ts ih =>
    obtain ⟨ht, hts⟩ := List.forall_mem_cons.mp h
    cases ts with
    | nil =>
      rw [Token.isWord, Bool.and_eq_true, Bool.not_eq_true'] at ht
      exact if_neg (by simp [ht.1])
    | cons u us => exact congrArg (t :: ·) (ih hts)

/-! ## Texts -/

theorem Token.joinChars_words {ts : List Token} (h : ∀ t ∈ ts, Token.isWord t) :
    Token.joinChars ts = ts.flatMap String.toList := by
  induction ts with
  | nil => rfl
  | cons t ts ih =>
    obtain ⟨ht, hts⟩ := List.forall_mem_cons.mp h
    rw [joinChars_cons (isQuote_eq_false ht), ih hts, List.flatMap_cons]

/-- The text of a name test has the tokens of the name test side by side. -/
theorem nameTest_joinChars {us : List Token} {test : NameTest} (hus : us.head? ≠ some Token.space)
    (h : nameTest us = .ok (test, [])) :
    Token.joinChars (Piece.tokens test.pieces) = us.flatMap String.toList := by
  obtain ⟨hwords, hpieces⟩ | ⟨w, last, rfl, hlast, hpieces⟩ := nameTest_pieces hus h
  · rw [hpieces, Piece.tokens, Piece.tokensAfter_ofTokens, Piece.dropFinalSpace_words hwords,
      Token.joinChars_words hwords]
  · rw [Token.isWord, Bool.and_eq_true, Bool.not_eq_true', Bool.not_eq_true'] at hlast
    have htokens : Piece.tokens test.pieces = ["Q", "\x7b", String.join w, "\x7d", last] := by
      simp [hpieces, Piece.tokens, Piece.tokensAfter, Piece.dropFinalSpace, hlast.1]
    have huri : Token.joinChars [String.join w, "\x7d", last] =
        (String.join w).toList ++ Token.joinChars ["\x7d", last] := by
      refine if_neg ?_
      rintro ⟨hquote, rfl⟩
      rw [hlast.2] at hquote
      cases hquote
    rw [htokens, Token.joinChars_cons rfl, Token.joinChars_cons rfl, huri, String.toList_join]
    simp [Token.joinChars]

theorem Lexeme.head?_tokens_ne_space {ls : List Lexeme} (h : ∀ l ∈ ls, l.isWhole)
    (hne : ls.head? ≠ some space) : (ls.flatMap tokens).head? ≠ some Token.space := by
  cases ls with
  | nil => simp
  | cons l ls =>
    intro hhead
    have hmem : Token.space ∈ l.marks := by
      cases l <;> simp_all [marks, tokens]
    have := isSpace_of_mem_marks (by simpa using hne) (h l List.mem_cons_self) _ hmem
    cases this

/-- A text is read from its tokens as well when it begins with a space and this is left out. -/
theorem tokenize_skipSpace {source : String} {ts : List Token} (h : tokenize source = .ok ts) :
    (Token.skipSpace ts).head? ≠ some Token.space ∧
      tokenize (Token.join (Token.skipSpace ts)) = .ok (Token.skipSpace ts) := by
  obtain ⟨ls, hs, rfl⟩ := tokenize_eq_ok h
  have hj := Lexeme.joined_of_scan hs
  obtain ⟨ms, hms, hskip, hhead⟩ : ∃ ms, Lexeme.Joined ms ∧
      Token.skipSpace (ls.flatMap Lexeme.tokens) = ms.flatMap Lexeme.tokens ∧
      (ms.flatMap Lexeme.tokens).head? ≠ some Token.space := by
    by_cases hspace : ls.head? = some .space
    · obtain ⟨ms, rfl⟩ := List.head?_eq_some_iff.mp hspace
      obtain ⟨-, hstop, hms⟩ := hj
      refine ⟨ms, hms, rfl, Lexeme.head?_tokens_ne_space hms.whole fun hhead => ?_⟩
      obtain ⟨ms, rfl⟩ := List.head?_eq_some_iff.mp hhead
      exact absurd (hstop ' ' rfl) (by decide)
    · have hhead := Lexeme.head?_tokens_ne_space hj.whole hspace
      exact ⟨ls, hj, skipSpace_eq_self hhead, hhead⟩
  rw [hskip, Token.join, Lexeme.joinChars_tokens hms.whole]
  refine ⟨hhead, ?_⟩
  rw [tokenize, String.toList_ofList, Lexeme.scan_chars hms]

/-! ## Doubled quotes -/

namespace Lexeme

/-- No content of a literal holds the quote that the literal is written with. -/
def DoublesNoQuote : Lexeme → Prop
  | literal quote content => quote ∉ content
  | _ => True

theorem le_length_doubled (quote : Char) (content : List Char) :
    content.length ≤ (content.flatMap fun c => if c = quote then [c, c] else [c]).length := by
  induction content with
  | nil => exact Nat.le_refl _
  | cons c content ih =>
    rw [List.flatMap_cons, List.length_append, List.length_cons]
    split <;> simp only [List.length_cons, List.length_nil] <;> omega

/-- A content is written as it is if and only if it does not have the quote. -/
theorem doubled_eq_self_iff {quote : Char} {content : List Char} :
    (content.flatMap fun c => if c = quote then [c, c] else [c]) = content ↔ quote ∉ content := by
  induction content with
  | nil => simp
  | cons c content ih =>
    rw [List.flatMap_cons, List.mem_cons, not_or]
    by_cases hc : c = quote
    · subst hc
      refine iff_of_false (fun he => ?_) (by simp)
      have hlength := congrArg List.length he
      have hle := le_length_doubled c content
      simp only [if_pos, List.length_append, List.length_cons, List.length_nil] at hlength
      omega
    · rw [if_neg hc, List.singleton_append, List.cons_inj_right, ih]
      exact (and_iff_right (Ne.symm hc)).symm

theorem toList_tokens_literal (quote : Char) (content : List Char) :
    (literal quote content).tokens.flatMap String.toList = quote :: content ++ [quote] := by
  simp [tokens]

theorem length_tokens_le (l : Lexeme) :
    (l.tokens.flatMap String.toList).length ≤ l.chars.length := by
  cases l with
  | space => exact Nat.le_refl _
  | plain text => simp [tokens, chars]
  | literal quote content =>
    have := le_length_doubled quote content
    rw [toList_tokens_literal, chars]
    simp only [List.length_append, List.length_cons, List.length_nil]
    omega

theorem chars_eq_iff {l : Lexeme} :
    l.chars = l.tokens.flatMap String.toList ↔ l.DoublesNoQuote := by
  cases l with
  | space => exact iff_of_true rfl trivial
  | plain text => exact iff_of_true (by simp [tokens, chars]) trivial
  | literal quote content =>
    rw [toList_tokens_literal, chars, List.append_left_inj, List.cons_inj_right,
      doubled_eq_self_iff, DoublesNoQuote]

theorem flatMap_chars_eq_iff {ls : List Lexeme} :
    ls.flatMap chars = (ls.flatMap tokens).flatMap String.toList ↔ ∀ l ∈ ls, l.DoublesNoQuote := by
  have hle (ls : List Lexeme) :
      ((ls.flatMap tokens).flatMap String.toList).length ≤ (ls.flatMap chars).length := by
    rw [List.flatMap_assoc, List.length_flatMap, List.length_flatMap]
    exact List.sum_le_sum fun l _ => length_tokens_le l
  induction ls with
  | nil => simp
  | cons l ls ih =>
    rw [List.flatMap_cons, List.flatMap_cons, List.flatMap_append, List.forall_mem_cons]
    refine ⟨fun h => ?_, fun ⟨hl, hls⟩ => by rw [chars_eq_iff.mpr hl, ih.mpr hls]⟩
    -- Neither part is shorter than its tokens, so the two parts end at the same place.
    have hlength := congrArg List.length h
    rw [List.length_append, List.length_append] at hlength
    have := length_tokens_le l
    have := hle ls
    obtain ⟨hl, hls⟩ := List.append_inj h (by omega)
    exact ⟨chars_eq_iff.mp hl, ih.mp hls⟩

end Lexeme

/-- No string literal of the text has its own quote in its content. -/
def DoublesNoQuote (source : String) : Prop :=
  ∀ ls, Lexeme.scan source.toList = .ok ls → ∀ l ∈ ls, l.DoublesNoQuote

/-- The tokens of a text are joined as they are if and only if the text doubles no quote. -/
theorem join_eq_iff {source : String} {ts : List Token} (h : tokenize source = .ok ts) :
    Token.join ts = String.join ts ↔ DoublesNoQuote source := by
  obtain ⟨ls, hs, rfl⟩ := tokenize_eq_ok h
  rw [DoublesNoQuote, hs, ← String.toList_inj, Token.join, String.toList_ofList,
    Lexeme.joinChars_tokens (Lexeme.joined_of_scan hs).whole, String.toList_join,
    Lexeme.flatMap_chars_eq_iff]
  simp

theorem joinChars_skipSpace {ts : List Token} (h : Token.join ts = String.join ts) :
    Token.joinChars (Token.skipSpace ts) = (Token.skipSpace ts).flatMap String.toList := by
  replace h : Token.joinChars ts = ts.flatMap String.toList := by
    rw [← String.toList_join, ← h, Token.join, String.toList_ofList]
  by_cases hspace : ts.head? = some Token.space
  · obtain ⟨ts, rfl⟩ := List.head?_eq_some_iff.mp hspace
    rw [Token.joinChars_cons rfl, List.flatMap_cons] at h
    exact List.append_cancel_left h
  · rw [skipSpace_eq_self hspace, h]

theorem nameTest_whole {maxDepth : Nat} {ts : List Token} {test : NameTest} :
    StartSymbol.nameTest.parse maxDepth ts 0 = .ok (test, ts.length) ↔
      nameTest ts = .ok (test, []) := by
  have happly : StartSymbol.nameTest.parse maxDepth ts 0 = nameTest.run maxDepth ts 0 := rfl
  rw [happly, Rule.run_eq_ok, List.drop_zero]
  constructor
  · rintro ⟨rest, h, hlength⟩
    have hle := (nameTest_sound h).1.length_le
    obtain rfl : rest = [] := List.eq_nil_of_length_eq_zero (by omega)
    exact h
  · exact fun h => ⟨[], h, by simp⟩

/-- A name test that is a whole text is read back from its own text, if no literal of the text that
it was read from has its own quote in its content. -/
theorem nameTest_text {source : String} {ts : List Token} {maxDepth : Nat} {test : NameTest}
    (hts : tokenize source = .ok ts)
    (h : StartSymbol.nameTest.parse maxDepth ts 0 = .ok (test, ts.length))
    (hquotes : DoublesNoQuote source) :
    ∃ us, tokenize (Token.join (Piece.tokens test.pieces)) = .ok us ∧
      StartSymbol.nameTest.parse maxDepth us 0 = .ok (test, us.length) := by
  obtain ⟨hhead, hread⟩ := tokenize_skipSpace hts
  have hskip : Token.skipSpace (Token.skipSpace ts) = Token.skipSpace ts := skipSpace_eq_self hhead
  have htest : nameTest (Token.skipSpace ts) = .ok (test, []) := by
    rw [nameTest_apply, hskip, ← nameTest_apply]
    exact nameTest_whole.mp h
  have hjoin : Token.join (Piece.tokens test.pieces) = Token.join (Token.skipSpace ts) := by
    rw [Token.join, Token.join, nameTest_joinChars hhead htest,
      joinChars_skipSpace ((join_eq_iff hts).mpr hquotes)]
  exact ⟨Token.skipSpace ts, hjoin ▸ hread, nameTest_whole.mpr htest⟩

/-- A literal in a URI is read back, with its quotes. -/
theorem nameTest_text_literal : ∃ test us,
    StartSymbol.nameTest.parse 1 ["Q", "\x7b", "'", "a b", "'", "\x7d", "x"] 0 = .ok (test, 7) ∧
      tokenize (Token.join (Piece.tokens test.pieces)) = .ok us ∧
      StartSymbol.nameTest.parse 1 us 0 = .ok (test, us.length) := by
  have hts : tokenize "Q\x7b'a b'\x7dx" = .ok ["Q", "\x7b", "'", "a b", "'", "\x7d", "x"] := by
    decide +kernel
  have h : StartSymbol.nameTest.parse 1 ["Q", "\x7b", "'", "a b", "'", "\x7d", "x"] 0 =
      .ok (.name (.uriQualified "'a b'" ⟨"x"⟩), 7) := by decide +kernel
  have hquotes : DoublesNoQuote "Q\x7b'a b'\x7dx" := by
    have hs : Lexeme.scan "Q\x7b'a b'\x7dx".toList =
        .ok [.plain ['Q'], .plain ['\x7b'], .literal '\'' "a b".toList, .plain ['\x7d'],
          .plain ['x']] := by
      decide +kernel
    intro ls hls
    cases hs.symm.trans hls
    simp [Lexeme.DoublesNoQuote]
  obtain ⟨us, hus, hread⟩ := nameTest_text hts h hquotes
  exact ⟨_, us, h, hus, hread⟩

/-- A quote that the literal has doubled stands alone in the text, and begins a literal that is
never closed. -/
theorem nameTest_text_quote :
    tokenize "Q\x7b'a''b'\x7dx" = .ok ["Q", "\x7b", "'", "a'b", "'", "\x7d", "x"] ∧
      StartSymbol.nameTest.parse 1 ["Q", "\x7b", "'", "a'b", "'", "\x7d", "x"] 0 =
        .ok (.name (.uriQualified "'a'b'" ⟨"x"⟩), 7) ∧
      tokenize (Token.join (Piece.tokens
        (NameTest.name (.uriQualified "'a'b'" ⟨"x"⟩)).pieces)) =
          .error (.unterminatedString '\'' 6) := by
  decide +kernel

end XPath
