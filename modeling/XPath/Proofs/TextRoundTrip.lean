import XPath.Proofs.Readable
import XPath.Proofs.RoundTrip

/-!
# Round trip through text

The text of an expression is the text of its pieces. Lexemes are the middle again: every piece that
was once read from a text is made of whole lexemes (`Spells.lexed`), and where pieces do not run
together (`Readable`) these lexemes stand in a row (`Piece.joined_lexemes`). They spell the text of
the pieces (`Piece.joinChars_lay`), and so its tokens are theirs (`tokenize_text`).

Only a URI has other tokens than it is rendered with. It is rendered as one token and read as many,
which is one of the ways to write a URI (`UriTokens.scanned`), as long as it contains no quote:
a quote would begin a literal that goes on after the URI.

Without URIs the tokens that are read are those that are rendered (`tokenize_text_eq_tokens`).
-/

namespace XPath

namespace Lexeme

/-! ## Rows in rows -/

/-- Two rows are one if the first one stops where the second one begins. -/
theorem Joined.append {ls ms : List Lexeme} (hl : Joined ls) (hm : Joined ms)
    (h : ∀ l ∈ ls, ∀ d ∈ (ms.flatMap chars).head?, l.stopsAt d) : Joined (ls ++ ms) := by
  induction ls with
  | nil => exact hm
  | cons l ls ih =>
    obtain ⟨hwhole, hstop, hls⟩ := hl
    obtain ⟨hlast, hrest⟩ := List.forall_mem_cons.mp h
    refine ⟨hwhole, fun d hd => ?_, ih hls hrest⟩
    have hd : d ∈ ((ls ++ ms).flatMap chars).head? := hd
    rw [List.flatMap_append, List.head?_append] at hd
    cases hhead : (ls.flatMap chars).head? with
    | some e =>
      rw [hhead] at hd
      exact hstop d (hhead ▸ hd)
    | none =>
      rw [hhead] at hd
      exact hlast d hd

/-- The start of a row is a row. -/
theorem Joined.append_left {ms : List Lexeme} : ∀ {ls : List Lexeme}, Joined (ls ++ ms) → Joined ls
  | [], _ => trivial
  | l :: ls, ⟨hl, hstop, hrest⟩ => by
    refine ⟨hl, fun d hd => hstop d ?_, hrest.append_left⟩
    have hhead : ((ls ++ ms).flatMap chars).head? = some d := by
      rw [List.flatMap_append, List.head?_append, hd]
      rfl
    exact hhead

theorem Joined.append_right {ls ms : List Lexeme} (h : Joined (ls ++ ms)) : Joined ms := by
  induction ls with
  | nil => exact h
  | cons l ls ih => exact ih h.2.2

/-! ## URIs -/

/-- Whether the lexeme is a string literal. -/
def isLiteral : Lexeme → Bool
  | literal _ _ => true
  | _ => false

/-- The lexemes of a URI that is written as it is read, without literals and braces. -/
def ofUri? (u : String) : Option (List Lexeme) :=
  match scan u.toList with
  | .ok ls =>
    if ls.flatMap chars = u.toList ∧ (∀ l ∈ ls, l.isLiteral = false) ∧
        ∀ t ∈ ls.flatMap tokens, t ≠ "\x7b" ∧ t ≠ "\x7d" then some ls
    else none
  | .error _ => none

/-- What the lexemes of a URI are. -/
structure OfUri (u : String) (ls : List Lexeme) : Prop where
  joined : Joined ls
  chars_eq : ls.flatMap chars = u.toList
  plain : ∀ l ∈ ls, l.isLiteral = false
  ne_brace : ∀ t ∈ ls.flatMap tokens, t ≠ "\x7b" ∧ t ≠ "\x7d"

/-- A URI is no quote. -/
theorem OfUri.isQuote_eq_false {u : String} {ls : List Lexeme} (h : OfUri u ls) :
    Token.isQuote u = false := by
  refine Bool.eq_false_iff.mpr fun hq => ?_
  obtain ⟨c, hc, hquote⟩ : ∃ c, u.toList = [c] ∧ isQuote c := by
    obtain rfl | rfl : u = "'" ∨ u = "\"" := by simpa [Token.isQuote] using hq
    · exact ⟨_, rfl, rfl⟩
    · exact ⟨_, rfl, rfl⟩
  have hmem : c ∈ ls.flatMap chars := by
    rw [h.chars_eq, hc]
    exact List.mem_cons_self
  obtain ⟨l, hl, hcl⟩ := List.mem_flatMap.mp hmem
  have hwhole := h.joined.whole l hl
  cases l with
  | space =>
    obtain rfl : c = ' ' := by simpa [chars] using hcl
    exact absurd hquote (by decide)
  | plain text => simp [(isWhole_plain hwhole c hcl).2] at hquote
  | literal quote content => exact absurd (h.plain _ hl) (by simp [isLiteral])

/-- A URI has lexemes if it is read as some without literals and braces, and no others. -/
theorem ofUri?_eq_some {u : String} {ls : List Lexeme} : ofUri? u = some ls ↔ OfUri u ls := by
  constructor
  · intro h
    unfold ofUri? at h
    split at h
    next ms hscan =>
      split at h
      next hms =>
        obtain rfl := Option.some.inj h
        exact ⟨joined_of_scan hscan, hms.1, hms.2.1, hms.2.2⟩
      next => cases h
    next => cases h
  · intro h
    rw [ofUri?, ← h.chars_eq, scan_chars h.joined]
    exact if_pos ⟨rfl, h.plain, h.ne_brace⟩

/-- The tokens of lexemes that are no literals have their characters. -/
theorem join_tokens {ls : List Lexeme} (h : ∀ l ∈ ls, l.isLiteral = false) :
    String.join (ls.flatMap tokens) = String.ofList (ls.flatMap chars) := by
  rw [← String.toList_inj, String.toList_ofList, String.toList_join, List.flatMap_assoc]
  induction ls with
  | nil => rfl
  | cons l ls ih =>
    obtain ⟨hl, hls⟩ := List.forall_mem_cons.mp h
    rw [List.flatMap_cons, List.flatMap_cons, ih hls]
    cases l with
    | literal quote content => cases hl
    | space => rfl
    | plain text => simp [tokens, chars]

end Lexeme

/-- Every URI as the tokens that its own text has. -/
def UriTokens.scanned : UriTokens where
  tokens u := (Lexeme.ofUri? u).elim [u] (·.flatMap Lexeme.tokens)
  join_eq {u} _ := by
    cases h : Lexeme.ofUri? u with
    | none => simp [String.join]
    | some ls =>
      have hls := Lexeme.ofUri?_eq_some.mp h
      rw [Option.elim_some, Lexeme.join_tokens hls.plain, hls.chars_eq, String.ofList_toList]
  ne_brace {u} hu := by
    cases h : Lexeme.ofUri? u with
    | none => simpa [wellFormedUri] using hu
    | some ls => exact (Lexeme.ofUri?_eq_some.mp h).ne_brace

/-! ## Pieces of a text -/

namespace Lexeme

/-- A token that is no space or quote, read from a text, is a lexeme. -/
theorem exists_plain {ls : List Lexeme} (hj : Joined ls) {t : Token} {ts : List Token}
    (h : ls.flatMap tokens = t :: ts) (ht : t.isWord) :
    ∃ ls', ls = plain t.toList :: ls' ∧ ls'.flatMap tokens = ts := by
  cases ls with
  | nil => cases h
  | cons l ls =>
    obtain ⟨hl, -, -⟩ := hj
    cases l with
    | space =>
      obtain ⟨rfl, -⟩ := List.cons.inj h
      exact absurd ht (by decide)
    | plain text =>
      obtain ⟨rfl, hts⟩ := List.cons.inj h
      exact ⟨ls, by rw [String.toList_ofList], hts⟩
    | literal quote content =>
      obtain ⟨rfl, -⟩ := List.cons.inj h
      simp [Token.isWord, isQuote_singleton hl] at ht

/-- Three tokens that form a string are one lexeme. -/
theorem exists_literal {ls : List Lexeme} (hj : Joined ls) {q s : Token} {ts : List Token}
    (h : ls.flatMap tokens = q :: s :: q :: ts) (hq : q.isQuote) :
    ∃ l ls', ls = l :: ls' ∧ ls'.flatMap tokens = ts := by
  cases ls with
  | nil => cases h
  | cons l ls =>
    obtain ⟨hl, -, -⟩ := hj
    cases l with
    | space =>
      obtain ⟨rfl, -⟩ := List.cons.inj h
      cases hq
    | plain text =>
      obtain ⟨rfl, -⟩ := List.cons.inj h
      rw [isQuote_ofList hl] at hq
      cases hq
    | literal quote content =>
      simp only [List.flatMap_cons, tokens, List.cons_append, List.nil_append, List.cons.injEq] at h
      exact ⟨_, ls, rfl, h.2.2.2⟩

/-- Tokens in front, none of which is a quote, are those of lexemes that are no literals. -/
theorem exists_append {ls : List Lexeme} (hj : Joined ls) {ts us : List Token}
    (h : ls.flatMap tokens = ts ++ us) (ht : ∀ t ∈ ts, t.isQuote = false) :
    ∃ ms ls', ls = ms ++ ls' ∧ ms.flatMap tokens = ts ∧ ls'.flatMap tokens = us ∧
      ∀ l ∈ ms, l.isLiteral = false := by
  induction ts generalizing ls with
  | nil => exact ⟨[], ls, rfl, rfl, h, by simp⟩
  | cons t ts ih =>
    obtain ⟨hquote, hts⟩ := List.forall_mem_cons.mp ht
    cases ls with
    | nil => cases h
    | cons l ls =>
      obtain ⟨hl, -, hls⟩ := hj
      have hone (hplain : l.isLiteral = false) (hlt : l.tokens = [t])
          (hrest : ls.flatMap tokens = ts ++ us) :
          ∃ ms ls', l :: ls = ms ++ ls' ∧ ms.flatMap tokens = t :: ts ∧ ls'.flatMap tokens = us ∧
            ∀ l ∈ ms, l.isLiteral = false := by
        obtain ⟨ms, ls', rfl, hms, hls', hplains⟩ := ih hls hrest hts
        exact ⟨l :: ms, ls', rfl, by rw [List.flatMap_cons, hlt, hms]; rfl, hls',
          List.forall_mem_cons.mpr ⟨hplain, hplains⟩⟩
      cases l with
      | space =>
        obtain ⟨rfl, hrest⟩ := List.cons.inj h
        exact hone rfl rfl hrest
      | plain text =>
        obtain ⟨rfl, hrest⟩ := List.cons.inj h
        exact hone rfl rfl hrest
      | literal quote content =>
        obtain ⟨rfl, -⟩ := List.cons.inj h
        simp [isQuote_singleton hl] at hquote

/-- A URI in braces, in front of what follows the closing one. -/
theorem OfUri.joined_braced {u : String} {ls rest : List Lexeme} (h : OfUri u ls)
    (hclose : Joined (.plain ['\x7d'] :: rest)) :
    Joined (.plain ['Q'] :: .plain ['\x7b'] :: (ls ++ .plain ['\x7d'] :: rest)) := by
  have hend (l : Lexeme) (hl : l ∈ ls) : l.stopsAt '\x7d' := by
    by_cases hspace : l = space
    · rw [hspace]
      rfl
    · exact stopsAt_punctuation (h.joined.whole l hl) hspace rfl (by decide)
  have huri : Joined (ls ++ .plain ['\x7d'] :: rest) := by
    refine h.joined.append hclose fun l hl d hd => ?_
    obtain rfl : '\x7d' = d := Option.some.inj hd
    exact hend l hl
  refine ⟨rfl, fun d hd => ?_, rfl, fun d _ => stopsAt_of_punctuation rfl d, huri⟩
  obtain rfl : '\x7b' = d := Option.some.inj hd
  rfl

end Lexeme

/-- The piece is read from some lexemes. -/
def Piece.Lexed : Piece → Prop
  | text t => (Lexeme.plain t.toList).isWhole
  | bracedUri u => ∃ ls, Lexeme.OfUri u ls
  | _ => True

/-- Digits are one lexeme. -/
theorem lexed_of_isDigits {t : Token} (h : t.isDigits) : (Piece.text t).Lexed :=
  Lexeme.isWhole_digits (Token.isDigits_iff.mp h).1 (Token.isDigits_iff.mp h).2

/-- The pieces of a number are lexemes. -/
theorem FractionPieces.lexed {ps : List Piece} (h : FractionPieces ps) : ∀ p ∈ ps, p.Lexed := by
  have hpoint : (Piece.text ".").Lexed := rfl
  cases h with
  | decimal d h =>
    rw [readPieces_decimal h]
    have hwhole := lexed_of_isDigits
      (Token.isDigits_ofList.mpr ⟨d.wholeDigits_ne_nil, d.wholeDigits_all⟩)
    have hfraction :=
      lexed_of_isDigits (Token.isDigits_ofList.mpr ⟨d.fractionDigits_ne_nil, d.fractionDigits_all⟩)
    simpa using ⟨hwhole, hpoint, hfraction⟩
  | double x hf hn =>
    rw [readPieces_double hf hn, Scientific.tokens]
    have hlead := lexed_of_isDigits
      (Token.isDigits_ofList.mpr ⟨x.shortest.leadingDigit_ne_nil, x.shortest.digits_all.1⟩)
    have hexponent : (Piece.text (exponentToken x.shortest.shownExponent)).Lexed :=
      Lexeme.isWhole_exponentToken _
    split
    next => simpa [Piece.ofTokens] using ⟨hlead, hexponent⟩
    next hne =>
      have hfraction := lexed_of_isDigits (Token.isDigits_ofList.mpr ⟨hne, x.shortest.digits_all.2⟩)
      simpa [Piece.ofTokens] using ⟨hlead, hpoint, hfraction, hexponent⟩

/-- A quote is a token of its own character. -/
theorem isQuote_of_join {ts : List Token}
    (h : ∀ c ∈ (String.join ts).toList, Lexeme.isQuote c = false) :
    ∀ t ∈ ts, t.isQuote = false := by
  intro t ht
  refine Bool.eq_false_iff.mpr fun hq => ?_
  obtain rfl | rfl : t = "'" ∨ t = "\"" := by simpa [Token.isQuote] using hq
  · exact absurd (h '\'' (by simpa using ⟨_, ht, by simp⟩)) (by decide)
  · exact absurd (h '"' (by simpa using ⟨_, ht, by simp⟩)) (by decide)

/-- What a text spells is read from lexemes, if its URIs have no quotes. -/
theorem Spells.lexed {ts rest : List Token} {ps : List Piece} (h : Spells ts ps rest)
    (hquotes : ∀ u, .bracedUri u ∈ ps → ∀ c ∈ u.toList, Lexeme.isQuote c = false) :
    ∀ {ls : List Lexeme}, Lexeme.Joined ls → ls.flatMap Lexeme.tokens = ts →
      ∀ p ∈ ps, p.Lexed := by
  induction h with
  | nil ts => simp
  | @space ts ps rest hs ih =>
    intro ls hj hls
    obtain ⟨ms, ls', rfl, -, hls', -⟩ := Lexeme.exists_append hj
      (show _ = [Token.space] ++ ts from hls) (by simp [Token.space, Token.isQuote])
    exact ih hquotes hj.append_right hls'
  | gap hs ih =>
    intro ls hj hls
    have hps := ih (fun u hu => hquotes u (List.mem_cons_of_mem _ hu)) hj hls
    exact List.forall_mem_cons.mpr ⟨trivial, hps⟩
  | text ht hs ih =>
    intro ls hj hls
    obtain ⟨ls', rfl, hls'⟩ := Lexeme.exists_plain hj hls ht
    have hps := ih (fun u hu => hquotes u (List.mem_cons_of_mem _ hu)) hj.2.2 hls'
    exact List.forall_mem_cons.mpr ⟨hj.1, hps⟩
  | digits ht hs ih =>
    intro ls hj hls
    obtain ⟨ls', rfl, hls'⟩ := Lexeme.exists_plain hj hls (Token.isWord_of_isDigits ht)
    have hps := ih (fun u hu => hquotes u (List.mem_cons_of_mem _ hu)) hj.2.2 hls'
    exact List.forall_mem_cons.mpr ⟨lexed_of_isDigits (Token.isDigits_repr _), hps⟩
  | fraction hab hw hq hs ih =>
    intro ls hj hls
    obtain ⟨ms, ls', rfl, -, hls', -⟩ := Lexeme.exists_append hj
      (show _ = (_ :: _ :: _) ++ _ from hls) fun t ht => Token.isQuote_eq_false (hw t ht)
    have hps := ih (fun u hu => hquotes u (List.mem_append_right _ hu)) hj.append_right hls'
    exact List.forall_mem_append.mpr ⟨hq.lexed, hps⟩
  | @string q s ts ps rest hq hs ih =>
    intro ls hj hls
    obtain ⟨l, ls', rfl, hls'⟩ := Lexeme.exists_literal hj hls hq
    have hps := ih (fun u hu => hquotes u (List.mem_cons_of_mem _ hu)) hj.2.2 hls'
    exact List.forall_mem_cons.mpr ⟨trivial, hps⟩
  | @bracedUri w ts ps rest hw hs ih =>
    intro ls hj hls
    obtain ⟨ls₁, rfl, hmark⟩ := Lexeme.exists_plain hj hls rfl
    obtain ⟨ls₂, rfl, hbrace⟩ := Lexeme.exists_plain hj.2.2 hmark rfl
    obtain ⟨ms, ls₃, rfl, hms, hclose, hplain⟩ := Lexeme.exists_append hj.2.2.2.2 hbrace
      (isQuote_of_join (hquotes _ List.mem_cons_self))
    have hrest := hj.2.2.2.2.append_right
    obtain ⟨ls₄, rfl, hend⟩ := Lexeme.exists_plain hrest hclose rfl
    have hchars : ms.flatMap Lexeme.chars = (String.join w).toList := by
      rw [← hms, Lexeme.join_tokens hplain, String.toList_ofList]
    have hps := ih (fun u hu => hquotes u (List.mem_cons_of_mem _ hu)) hrest.2.2 hend
    exact List.forall_mem_cons.mpr
      ⟨⟨ms, hj.2.2.2.2.append_left, hchars, hplain, hms ▸ hw⟩, hps⟩

/-! ## Lexemes of pieces -/

namespace Piece

/-- The lexemes of the pieces, after a space or at the start if `spaced`. -/
def lexemes (spaced : Bool) : List Piece → List Lexeme
  | [] => []
  | text t :: ps => .plain t.toList :: lexemes t.isSpace ps
  | string s :: ps => .literal '"' s.toList :: lexemes false ps
  | bracedUri u :: ps =>
    .plain ['Q'] :: .plain ['\x7b'] ::
      ((Lexeme.ofUri? u).getD [] ++ .plain ['\x7d'] :: lexemes false ps)
  | gap :: ps => if spaced then lexemes true ps else .space :: lexemes true ps

/-- The lexemes of pieces give the tokens that they are laid out with. -/
theorem tokens_lexemes {ps : List Piece} (h : ∀ p ∈ ps, p.Lexed) (spaced : Bool) :
    (lexemes spaced ps).flatMap Lexeme.tokens = lay .scanned spaced ps := by
  induction ps generalizing spaced with
  | nil => rfl
  | cons p ps ih =>
    obtain ⟨hp, hps⟩ := List.forall_mem_cons.mp h
    cases p with
    | text t =>
      rw [lexemes, lay, List.flatMap_cons, ih hps, Lexeme.tokens, String.ofList_toList]
      rfl
    | string s =>
      rw [lexemes, lay, List.flatMap_cons, ih hps, Lexeme.tokens, String.ofList_toList]
      rfl
    | bracedUri u =>
      obtain ⟨ls, hls⟩ := hp
      have huri := Lexeme.ofUri?_eq_some.mpr hls
      simp only [lexemes, lay, List.flatMap_cons, List.flatMap_append, ih hps,
        UriTokens.scanned, huri]
      rfl
    | gap =>
      rw [lexemes, lay, ← ih hps]
      split <;> rfl

/-- The tokens of pieces are joined to the text of their lexemes. -/
theorem joinChars_lay {ps : List Piece} (h : ∀ p ∈ ps, p.Lexed) (spaced : Bool) :
    Token.joinChars (lay .whole spaced ps) = (lexemes spaced ps).flatMap Lexeme.chars := by
  induction ps generalizing spaced with
  | nil => rfl
  | cons p ps ih =>
    obtain ⟨hp, hps⟩ := List.forall_mem_cons.mp h
    cases p with
    | text t =>
      have hquote : t.isQuote = false := by
        have hp : (Lexeme.plain t.toList).isWhole := hp
        simpa using Lexeme.isQuote_ofList hp
      rw [lexemes, lay, List.flatMap_cons, ← ih hps, Token.joinChars_cons hquote, Lexeme.chars]
    | string s =>
      rw [lexemes, lay, List.flatMap_cons, ← ih hps]
      have hsingle (c : Char) : String.singleton c = "\"" ↔ c = '"' := by
        rw [← String.toList_inj, String.toList_singleton]
        simp
      simp [Token.joinChars, Token.isQuote, Token.doubled, Lexeme.chars, hsingle]
    | bracedUri u =>
      obtain ⟨ls, hls⟩ := hp
      have huri := Lexeme.ofUri?_eq_some.mpr hls
      have hjoin : Token.joinChars (u :: "\x7d" :: lay .whole false ps) =
          u.toList ++ '\x7d' :: (lexemes false ps).flatMap Lexeme.chars := by
        rw [Token.joinChars_cons hls.isQuote_eq_false, Token.joinChars_cons rfl, ih hps]
        rfl
      have hlay : lay .whole spaced (bracedUri u :: ps) =
          "Q" :: "\x7b" :: u :: "\x7d" :: lay .whole false ps := rfl
      rw [hlay, Token.joinChars_cons rfl, Token.joinChars_cons rfl, hjoin, ← hls.chars_eq]
      simp [lexemes, huri, Lexeme.chars]
    | gap =>
      rw [lexemes, lay]
      split
      next => exact ih hps true
      next =>
        rw [Token.joinChars_cons rfl, ih hps]
        rfl

/-- Whatever is written, a piece is whole. -/
theorem isWhole_of_lexed {p : Piece} (hp : p.Lexed) (hgap : p ≠ gap) : p.isWhole := by
  cases p with
  | text t => exact hp
  | gap => exact absurd rfl hgap
  | _ => rfl

/-- The first character that is written. -/
theorem head?_lexemes {ps : List Piece} (h : ∀ p ∈ ps, p.Lexed) :
    ((lexemes false ps).flatMap Lexeme.chars).head? = ps.head?.bind first? := by
  cases ps with
  | nil => rfl
  | cons p ps =>
    cases p with
    | text t =>
      have hne : t.toList ≠ [] :=
        Lexeme.chars_ne_nil (h _ List.mem_cons_self : (Lexeme.plain t.toList).isWhole)
      rw [lexemes, List.flatMap_cons, Lexeme.chars, List.head?_append_of_ne_nil _ hne]
      rfl
    | _ => rfl

/-- A piece stops where the next one begins. -/
theorem stopsAt_next {p : Piece} {ps : List Piece} (hp : p.Lexed) (hgap : p ≠ gap)
    (hps : ∀ q ∈ ps, q.Lexed) (hr : Readable (p :: ps)) :
    ∀ d ∈ ((lexemes false ps).flatMap Lexeme.chars).head?, p.last.stopsAt d := by
  intro d hd
  rw [head?_lexemes hps] at hd
  cases ps with
  | nil => cases hd
  | cons q ps =>
    have hwhole := isWhole_of_lexed hp hgap
    by_cases hq : q = gap
    · subst hq
      obtain rfl : ' ' = d := Option.some.inj hd
      exact Lexeme.stopsAt_blank (isWhole_last hwhole).2 (isWhole_last hwhole).1 (by decide)
    · have hapart : p.apart q := (List.isChain_cons_cons.mp hr).1
      have hqwhole := isWhole_of_lexed (hps q List.mem_cons_self) hq
      rw [apart, hwhole, hqwhole] at hapart
      exact Option.all_eq_true _ _ |>.mp hapart d hd

/-- Pieces that are read from lexemes and do not run together are lexemes in a row. -/
theorem joined_lexemes {ps : List Piece} (h : ∀ p ∈ ps, p.Lexed) (hr : Readable ps)
    (spaced : Bool) :
    Lexeme.Joined (lexemes spaced ps) ∧
      (spaced → ∀ d ∈ ((lexemes spaced ps).flatMap Lexeme.chars).head?,
        Lexeme.isBlank d = false) := by
  induction ps generalizing spaced with
  | nil => exact ⟨trivial, by simp [lexemes]⟩
  | cons p ps ih =>
    obtain ⟨hp, hps⟩ := List.forall_mem_cons.mp h
    have hrest : Readable ps := List.IsChain.tail hr
    cases p with
    | text t =>
      have hwhole : (Lexeme.plain t.toList).isWhole := hp
      have hspace : t.isSpace = false := by
        refine Bool.eq_false_iff.mpr fun hs => ?_
        obtain rfl : t = Token.space := by simpa [Token.isSpace] using hs
        exact absurd hwhole (by decide)
      rw [lexemes, hspace]
      refine ⟨⟨hwhole, stopsAt_next hp (by simp) hps hr, (ih hps hrest false).1⟩, fun _ d hd => ?_⟩
      rw [List.flatMap_cons, List.head?_append_of_ne_nil _ (Lexeme.chars_ne_nil hwhole)] at hd
      exact (Lexeme.isWhole_plain hwhole d (List.mem_of_head? hd)).1
    | string s =>
      refine ⟨⟨rfl, stopsAt_next hp (by simp) hps hr, (ih hps hrest false).1⟩, fun _ d hd => ?_⟩
      obtain rfl : '"' = d := Option.some.inj hd
      rfl
    | bracedUri u =>
      have hclose : Lexeme.Joined (.plain ['\x7d'] :: lexemes false ps) :=
        ⟨rfl, stopsAt_next hp (by simp) hps hr, (ih hps hrest false).1⟩
      obtain ⟨ls, hls⟩ := hp
      rw [lexemes, Lexeme.ofUri?_eq_some.mpr hls]
      refine ⟨hls.joined_braced hclose, fun _ d hd => ?_⟩
      obtain rfl : 'Q' = d := Option.some.inj hd
      rfl
    | gap =>
      obtain ⟨hj, hblank⟩ := ih hps hrest true
      rw [lexemes]
      split
      next => exact ⟨hj, fun _ => hblank rfl⟩
      next hspaced =>
        have hstop : ∀ d ∈ ((lexemes true ps).flatMap Lexeme.chars).head?, Lexeme.space.stopsAt d :=
          fun d hd => by simp [Lexeme.stopsAt, hblank rfl d hd]
        exact ⟨⟨rfl, hstop, hj⟩, fun h => absurd h hspaced⟩

end Piece

/-! ## Round trip -/

/-- The URIs that the expression writes in braces. -/
def Tree.uris {ι : Type} (n : Tree ι) : List String :=
  n.pieces.filterMap fun
    | .bracedUri u => some u
    | _ => none

variable {maxDepth : Nat} {n : Node}

/-- The text of a parsed expression has the tokens of the expression, with those of its URIs. -/
theorem tokenize_text {source : String} (h : parseAll maxDepth source = .ok n)
    (hquotes : ∀ u ∈ n.uris, ∀ c ∈ u.toList, Lexeme.isQuote c = false) :
    tokenize n.text = .ok (Piece.write .scanned n.pieces) := by
  obtain ⟨ts, hts, hparse⟩ := parseAll_eq_ok.mp h
  obtain ⟨ls, hscan, rfl⟩ := tokenize_eq_ok hts
  obtain ⟨rest, hrest, -⟩ := parseAllTokens_eq_ok.mp hparse
  obtain ⟨hspells, -, hfits⟩ := Grammar.expr_sound (Grammar.nested_sound maxDepth) hrest
  have hlexed := hspells.lexed (fun u hu => hquotes u ?_) (Lexeme.joined_of_scan hscan) rfl
  · obtain ⟨hjoined, -⟩ := Piece.joined_lexemes hlexed (n.readable hfits) true
    rw [Tree.text, Tree.tokens_eq_write hfits, Token.join, Piece.write, Piece.joinChars_lay hlexed,
      tokenize, String.toList_ofList, Lexeme.scan_chars hjoined, Piece.write,
        ← Piece.tokens_lexemes hlexed]
  · exact List.mem_filterMap.mpr ⟨_, hu, rfl⟩

/-- The text of a parsed expression is parsed as the same expression, and rendered alike. -/
theorem parseAll_text {source : String} (h : parseAll maxDepth source = .ok n)
    (hquotes : ∀ u ∈ n.uris, ∀ c ∈ u.toList, Lexeme.isQuote c = false) :
    ∃ n', parseAll maxDepth n.text = .ok n' ∧ n'.same n ∧ n'.text = n.text := by
  obtain ⟨ts, -, hparse⟩ := parseAll_eq_ok.mp h
  obtain ⟨hkind, hfits⟩ := fits_of_parseAllTokens hparse
  refine ⟨n.canon, parseAll_eq_ok.mpr ⟨_, tokenize_text h hquotes, ?_⟩, n.same_canon hfits, ?_⟩
  · exact parseAllTokens_write .scanned hkind hfits
  · rw [Tree.text, Tree.tokens_canon hfits, Tree.text]

/-- The URI of the variable has many tokens. -/
theorem parseAll_text_variable : ∃ n : Node, parseAll 1 "-$Q\x7b x:y  \x7dz" = .ok n ∧
    (∀ u ∈ n.uris, ∀ c ∈ u.toList, Lexeme.isQuote c = false) ∧
      ∃ n', parseAll 1 n.text = .ok n' ∧ n'.same n ∧ n'.text = n.text := by
  have h : parseAll 1 "-$Q\x7b x:y  \x7dz" =
      .ok (.of (.expr [.of (.unary [.minus] (.of (.varRef (.uriQualified " x:y " ⟨"z"⟩))))])) :=
    parseAll_eq_ok.mpr ⟨["-", "$", "Q", "\x7b", " ", "x", ":", "y", " ", "\x7d", "z"],
      by decide +kernel, rfl⟩
  have hquotes : ∀ u ∈ [" x:y "], ∀ c ∈ u.toList, Lexeme.isQuote c = false := by
    simp [Lexeme.isQuote]
  exact ⟨_, h, hquotes, parseAll_text h hquotes⟩

/-! ## Tokens apart -/

/-- Only the tokens of the URIs that are there count. -/
theorem Piece.lay_congr {σ τ : UriTokens} {ps : List Piece}
    (h : ∀ u, bracedUri u ∈ ps → σ.tokens u = τ.tokens u) (spaced : Bool) :
    lay σ spaced ps = lay τ spaced ps := by
  induction ps generalizing spaced with
  | nil => rfl
  | cons p ps ih =>
    have hps := ih fun u hu => h u (List.mem_cons_of_mem _ hu)
    cases p with
    | text t => rw [lay, lay, hps]
    | string s => rw [lay, lay, hps]
    | bracedUri u => rw [lay, lay, hps, h u List.mem_cons_self]
    | gap => rw [lay, lay, hps]

/-- No two tokens of a parsed expression run together in its text: the text is read as the tokens
that it was made of, spaces and the contents of strings included. -/
theorem tokenize_text_eq_tokens {source : String} (h : parseAll maxDepth source = .ok n)
    (huris : n.uris = []) : tokenize n.text = .ok n.tokens := by
  obtain ⟨ts, -, hparse⟩ := parseAll_eq_ok.mp h
  obtain ⟨-, hfits⟩ := fits_of_parseAllTokens hparse
  have hnone : ∀ u, .bracedUri u ∉ n.pieces := fun u hu => by
    have hmem : u ∈ n.uris := List.mem_filterMap.mpr ⟨_, hu, rfl⟩
    simp [huris] at hmem
  have hlay : Piece.write .scanned n.pieces = Piece.write .whole n.pieces :=
    Piece.lay_congr (fun u hu => absurd hu (hnone u)) true
  rw [tokenize_text h (by simp [huris]), Tree.tokens_eq_write hfits, hlay]

/-- A sign, a string and a number, with a space only where the operator is. -/
theorem tokenize_text_eq_tokens_map : ∃ n : Node, parseAll 1 "-'it''s'!.5" = .ok n ∧ n.uris = [] ∧
    tokenize n.text = .ok n.tokens := by
  let n : Node := .of (.expr [.of (.unary [.minus]
    (.of (.chain .simpleMap (.of (.string "it's")) [(.bang, .of (.decimal ⟨5, 1⟩))])))])
  have h : parseAll 1 "-'it''s'!.5" = .ok n :=
    parseAll_eq_ok.mpr ⟨["-", "'", "it's", "'", "!", ".", "5"], by decide +kernel, rfl⟩
  have huris : n.uris = [] := by decide +kernel
  exact ⟨n, h, huris, tokenize_text_eq_tokens h huris⟩

end XPath
